import GemhoNbiot.Bc95Driver

/-!
The attempts of get_IMEI, get_NBAND and get_CGATT. Each attempt reads into the
start of a buffer that still holds older bytes, and the test that decides it
searches the whole buffer. A hit is an attempt that received bytes and after
which the buffer passes the test. The functions deliver what stands behind the
marker of their last hit, and get_NBAND and get_CGATT stop at their first.
-/
namespace GemhoNbiot.ReplyAttempts

open Memmem Program Bc95Driver

/-- The bytes received by the reads of a run, one list for each read. -/
def replies (events : List Call) : List (List UInt8) :=
  events.filterMap fun
    | ⟨.usartRead _ _, bs⟩ => some bs
    | _ => none

/-- The bytes received, the buffer after them, and the two positions found in it. -/
structure Hit where
  reply : List UInt8
  buf : List UInt8
  pStart : ℕ
  pEnd : ℕ
deriving DecidableEq

/-- What the function finds between the marker and the end. -/
def Hit.text (h : Hit) (marker : List UInt8) : List UInt8 :=
  (h.buf.drop (h.pStart + marker.length)).take (h.pEnd - (h.pStart + marker.length))

/-- The test after a read of `bs` into `buf`. -/
def tested (marker : List UInt8) (fits : UInt32 → Bool) (buf bs : List UInt8) : Option Hit :=
  match bs.length, memmem (overlay buf bs) marker, memmem (overlay buf bs) ENDOK with
  | _ + 1, some pStart, some pEnd =>
    if fits (gap pStart pEnd marker) then some ⟨bs, overlay buf bs, pStart, pEnd⟩ else none
  | _, _, _ => none

/-- The hits among attempts that receive these bytes. -/
def hits (marker : List UInt8) (fits : UInt32 → Bool) : List UInt8 → List (List UInt8) → List Hit
  | _, [] => []
  | buf, bs :: rest =>
    (tested marker fits buf bs).toList ++ hits marker fits (overlay buf bs) rest

/-- A read stores no more than the buffer holds. -/
def ReadsFit (events : List Call) : Prop := ∀ bs ∈ replies events, bs.length ≤ bufSize

/-- What a passed test says. -/
structure Passed (marker : List UInt8) (fits : UInt32 → Bool) (h : Hit) : Prop where
  reply_ne : h.reply ≠ []
  buf_eq : ∃ old, h.buf = overlay old h.reply
  marker_at : memmem h.buf marker = some h.pStart
  end_at : memmem h.buf ENDOK = some h.pEnd
  fits_gap : fits (gap h.pStart h.pEnd marker) = true

theorem tested_passed {marker : List UInt8} {fits : UInt32 → Bool} {buf bs : List UInt8} {h : Hit}
    (htest : tested marker fits buf bs = some h) : h.reply = bs ∧ Passed marker fits h := by
  unfold tested at htest
  split at htest
  · next k pStart pEnd hlen hstart hend =>
    by_cases hfits : fits (gap pStart pEnd marker) = true
    · rw [if_pos hfits] at htest
      obtain rfl := Option.some_inj.mp htest
      have hne : bs ≠ [] := List.length_pos_iff.mp (by omega)
      exact ⟨rfl, hne, ⟨buf, rfl⟩, hstart, hend, hfits⟩
    · rw [if_neg hfits] at htest
      exact absurd htest (by simp)
  · exact absurd htest (by simp)

theorem mem_hits {marker : List UInt8} {fits : UInt32 → Bool} {buf : List UInt8}
    {rs : List (List UInt8)} {h : Hit} (hmem : h ∈ hits marker fits buf rs) :
    h.reply ∈ rs ∧ Passed marker fits h := by
  induction rs generalizing buf with
  | nil => simp [hits] at hmem
  | cons bs rs ih =>
    rw [hits, List.mem_append, Option.mem_toList] at hmem
    rcases hmem with htest | hrest
    · obtain ⟨rfl, hpassed⟩ := tested_passed htest
      exact ⟨List.mem_cons_self, hpassed⟩
    · obtain ⟨hreply, hpassed⟩ := ih hrest
      exact ⟨List.mem_cons_of_mem _ hreply, hpassed⟩

section Layout

variable {marker : List UInt8} {fits : UInt32 → Bool} {h : Hit}

/-- A distance that is small modulo 2^32 is the true distance. -/
theorem gap_toNat {pStart pEnd : ℕ} (hstart : pStart + marker.length ≤ bufSize)
    (hend : pEnd ≤ bufSize) (hsmall : (gap pStart pEnd marker).toNat ≤ bufSize) :
    pStart + marker.length ≤ pEnd ∧
      (gap pStart pEnd marker).toNat = pEnd - (pStart + marker.length) := by
  have hgap : (gap pStart pEnd marker).toNat =
      (((pEnd : ℤ) - pStart - marker.length) % 2 ^ 32).toNat := by
    simp only [gap, UInt32.ofInt, UInt32.toNat_ofNat']
    omega
  simp only [bufSize] at hstart hend hsmall
  omega

theorem padded_nil_length : (padded []).length ≤ bufSize := by simp [padded]

theorem overlay_length {old bs : List UInt8} (hold : old.length ≤ bufSize)
    (hbs : bs.length ≤ bufSize) : (overlay old bs).length ≤ bufSize := by
  rw [overlay, List.length_append, List.length_drop]
  omega

theorem hits_length {buf : List UInt8} {rs : List (List UInt8)} (hbuf : buf.length ≤ bufSize)
    (hrs : ∀ bs ∈ rs, bs.length ≤ bufSize) (hmem : h ∈ hits marker fits buf rs) :
    h.buf.length ≤ bufSize := by
  induction rs generalizing buf with
  | nil => simp [hits] at hmem
  | cons bs rs ih =>
    have hover := overlay_length hbuf (hrs bs List.mem_cons_self)
    rw [hits, List.mem_append, Option.mem_toList] at hmem
    rcases hmem with htest | hrest
    · unfold tested at htest
      split at htest
      · split at htest
        · obtain rfl := Option.some_inj.mp htest
          exact hover
        · exact absurd htest (by simp)
      · exact absurd htest (by simp)
    · exact ih hover (fun bs hbs => hrs bs (List.mem_cons_of_mem _ hbs)) hrest

/-- Behind the marker stand the text and the end, at the distance that fits. -/
structure Layout (marker : List UInt8) (fits : UInt32 → Bool) (h : Hit) : Prop where
  le_end : h.pStart + marker.length ≤ h.pEnd
  end_le : h.pEnd + ENDOK.length ≤ h.buf.length
  fits_text : fits (UInt32.ofNat (h.text marker).length) = true
  text_length : (h.text marker).length = h.pEnd - (h.pStart + marker.length)
  drop_end : ∃ after, h.buf.drop h.pEnd = ENDOK ++ after
  drop_start : h.buf.drop h.pStart = marker ++ (h.text marker ++ h.buf.drop h.pEnd)

theorem Passed.layout (hpassed : Passed marker fits h) (hmarker : marker ≠ [])
    (hbuf : h.buf.length ≤ bufSize) (hfits : ∀ g, fits g = true → g.toNat ≤ bufSize) :
    Layout marker fits h := by
  obtain ⟨hstart, _⟩ := (memmem_eq_some hmarker _).mp hpassed.marker_at
  obtain ⟨hend, _⟩ := (memmem_eq_some (by decide) _).mp hpassed.end_at
  have hstartBound := occurs_bound hmarker hstart
  have hendBound := occurs_bound (by decide) hend
  obtain ⟨hle, hgap⟩ := gap_toNat (hstartBound.trans hbuf) (by omega) (hfits _ hpassed.fits_gap)
  have hlen : (h.text marker).length = h.pEnd - (h.pStart + marker.length) := by
    rw [Hit.text, List.length_take, List.length_drop]
    omega
  obtain ⟨rest, hrest⟩ := hstart
  have hdrop : h.buf.drop (h.pStart + marker.length) = rest := by
    rw [← List.drop_drop, ← hrest, List.drop_left]
  have hback : (h.buf.drop (h.pStart + marker.length)).drop
      (h.pEnd - (h.pStart + marker.length)) = h.buf.drop h.pEnd := by
    rw [List.drop_drop, Nat.add_sub_cancel' hle]
  refine ⟨hle, hendBound, ?_, hlen, ?_, ?_⟩
  · rw [hlen, ← hgap, UInt32.ofNat_toNat]
    exact hpassed.fits_gap
  · obtain ⟨after, hafter⟩ := hend
    exact ⟨after, hafter.symm⟩
  · rw [← hback, Hit.text, List.take_append_drop, hdrop, hrest]

theorem Layout.drop_eq (hlayout : Layout marker fits h) :
    h.buf.drop (h.pStart + marker.length) = h.text marker ++ h.buf.drop h.pEnd := by
  rw [← List.drop_drop, hlayout.drop_start, List.drop_left]

/-- The marker, the text and the end stand together in the buffer. -/
theorem Layout.occurs (hlayout : Layout marker fits h) :
    (marker ++ (h.text marker ++ ENDOK)) <+: h.buf.drop h.pStart := by
  obtain ⟨after, hafter⟩ := hlayout.drop_end
  rw [hlayout.drop_start, hafter]
  exact ⟨after, by simp⟩

end Layout

section Turns

variable {query marker : List UInt8} {fits : UInt32 → Bool} {n : ℕ} {buf : List UInt8}

theorem imeiTurns_succ (imei : List UInt8) (ret : ℤ) :
    imeiTurns (n + 1) buf imei ret = (do
      usartWrite IMEIGET
      let bs ← usartRead bufSize 100
      match tested IMEIRTN (· = 15) buf bs with
      | some h =>
        imeiTurns n (overlay buf bs) ((h.buf.drop (h.pStart + IMEIRTN.length)).take 15) 0
      | none => imeiTurns n (overlay buf bs) imei ret) := by
  refine congrArg _ (funext fun _ => congrArg _ (funext fun bs => ?_))
  dsimp only [tested]
  generalize memmem (overlay buf bs) IMEIRTN = start
  generalize memmem (overlay buf bs) ENDOK = stop
  rcases bs with _ | ⟨b, bs⟩
  · rfl
  rcases start with _ | pStart
  · rfl
  rcases stop with _ | pEnd
  · rfl
  by_cases hfits : gap pStart pEnd IMEIRTN = 15
  · simp [hfits]
  · simp [hfits]

theorem numberTurns_succ (value : ℤ) :
    numberTurns query marker fits (n + 1) buf value = (do
      usartWrite query
      let bs ← usartRead bufSize 300
      match tested marker fits buf bs with
      | some h => pure (0, (h.buf.getD (h.pStart + marker.length) 0).toNat - 48)
      | none => numberTurns query marker fits n (overlay buf bs) value) := by
  refine congrArg _ (funext fun _ => congrArg _ (funext fun bs => ?_))
  dsimp only [tested]
  generalize memmem (overlay buf bs) marker = start
  generalize memmem (overlay buf bs) ENDOK = stop
  rcases bs with _ | ⟨b, bs⟩
  · rfl
  rcases start with _ | pStart
  · rfl
  rcases stop with _ | pEnd
  · rfl
  by_cases hfits : fits (gap pStart pEnd marker) = true
  · simp [hfits]
  · simp [hfits]

/-- The calls of one attempt. -/
theorem attempt_runs {α : Type} {query : List UInt8} {timeout : ℕ} {f : List UInt8 → Bc95 α}
    {events : List Call} {a : α}
    (hrun : Runs (usartWrite query >>= fun _ => usartRead bufSize timeout >>= f) events a) :
    ∃ bs rest, replies events = bs :: replies rest ∧ Runs (f bs) rest a := by
  obtain ⟨_, more, rfl, hread⟩ := (runs_perform_bind (Op.usartWrite query) _ events a).mp hrun
  obtain ⟨bs, rest, rfl, hrest⟩ :=
    (runs_perform_bind (Op.usartRead bufSize timeout) _ more a).mp hread
  exact ⟨bs, rest, rfl, hrest⟩

theorem runs_attempt {α : Type} {query : List UInt8} {timeout : ℕ} {f : List UInt8 → Bc95 α}
    {bs : List UInt8} {rest : List Call} {a : α} (h : Runs (f bs) rest a) :
    Runs (usartWrite query >>= fun _ => usartRead bufSize timeout >>= f)
      (⟨.usartWrite query, ()⟩ :: ⟨.usartRead bufSize timeout, bs⟩ :: rest) a :=
  (runs_perform_bind (Op.usartWrite query) _ _ a).mpr ⟨(), _, rfl,
    (runs_perform_bind (Op.usartRead bufSize timeout) _ _ a).mpr ⟨bs, rest, rfl, h⟩⟩

/-- get_NBAND and get_CGATT fail without a hit, and else stop at the only one. -/
theorem numberTurns_hits {value out ret : ℤ} {events : List Call}
    (hrun : Runs (numberTurns query marker fits n buf value) events (ret, out)) :
    (hits marker fits buf (replies events) = [] ∧ ret = -1 ∧ out = value) ∨
      ∃ h, hits marker fits buf (replies events) = [h] ∧
        (replies events).getLast? = some h.reply ∧ ret = 0 ∧
        out = (h.buf.getD (h.pStart + marker.length) 0).toNat - 48 := by
  induction n generalizing buf events with
  | zero =>
    obtain ⟨rfl, heq⟩ := (runs_pure _ _ events).mp hrun
    obtain ⟨rfl, rfl⟩ := Prod.mk.inj heq
    exact Or.inl ⟨rfl, rfl, rfl⟩
  | succ n ih =>
    rw [numberTurns_succ] at hrun
    obtain ⟨bs, rest, hreplies, hrun⟩ := attempt_runs hrun
    rw [hreplies, hits]
    cases htest : tested marker fits buf bs with
    | some h =>
      rw [htest] at hrun
      obtain ⟨rfl, heq⟩ := (runs_pure _ _ rest).mp hrun
      obtain ⟨rfl, rfl⟩ := Prod.mk.inj heq
      refine Or.inr ⟨h, rfl, ?_, rfl, rfl⟩
      rw [(tested_passed htest).1]
      rfl
    | none =>
      rw [htest] at hrun
      rcases ih hrun with h | ⟨h, hhits, hlast, hret⟩
      · exact Or.inl h
      · refine Or.inr ⟨h, hhits, ?_, hret⟩
        rw [List.getLast?_cons, hlast]
        rfl

/-- A first attempt that is a hit is the whole run. -/
theorem numberTurns_first {value : ℤ} {bs : List UInt8} {h : Hit}
    (htest : tested marker fits buf bs = some h) :
    Runs (numberTurns query marker fits (n + 1) buf value)
      [⟨.usartWrite query, ()⟩, ⟨.usartRead bufSize 300, bs⟩]
      (0, (h.buf.getD (h.pStart + marker.length) 0).toNat - 48) := by
  rw [numberTurns_succ]
  apply runs_attempt
  rw [htest]
  exact .ret _

/-- An attempt that is no hit, before the rest of the run. -/
theorem numberTurns_next {value : ℤ} {bs : List UInt8} {rest : List Call} {out : ℤ × ℤ}
    (htest : tested marker fits buf bs = none)
    (h : Runs (numberTurns query marker fits n (overlay buf bs) value) rest out) :
    Runs (numberTurns query marker fits (n + 1) buf value)
      (⟨.usartWrite query, ()⟩ :: ⟨.usartRead bufSize 300, bs⟩ :: rest) out := by
  rw [numberTurns_succ]
  apply runs_attempt
  rw [htest]
  exact h

/-- get_IMEI delivers its last hit. -/
theorem imeiTurns_hits {imei imei' buf' : List UInt8} {ret ret' : ℤ} {events : List Call}
    (hrun : Runs (imeiTurns n buf imei ret) events (ret', imei', buf')) :
    match (hits IMEIRTN (· = 15) buf (replies events)).getLast? with
    | none => ret' = ret ∧ imei' = imei
    | some h => ret' = 0 ∧ imei' = (h.buf.drop (h.pStart + IMEIRTN.length)).take 15 := by
  induction n generalizing buf imei ret events with
  | zero =>
    obtain ⟨rfl, heq⟩ := (runs_pure _ _ events).mp hrun
    obtain ⟨rfl, hout⟩ := Prod.mk.inj heq
    exact ⟨rfl, (Prod.mk.inj hout).1⟩
  | succ n ih =>
    rw [imeiTurns_succ] at hrun
    obtain ⟨bs, rest, hreplies, hrun⟩ := attempt_runs hrun
    rw [hreplies, hits]
    cases htest : tested IMEIRTN (· = 15) buf bs with
    | some h =>
      rw [htest] at hrun
      have hrest := ih hrun
      rw [Option.toList_some, List.singleton_append, List.getLast?_cons]
      cases hlast : (hits IMEIRTN (· = 15) (overlay buf bs) (replies rest)).getLast? with
      | none =>
        rw [hlast] at hrest
        exact hrest
      | some h' =>
        rw [hlast] at hrest
        exact hrest
    | none =>
      rw [htest] at hrun
      exact ih hrun

theorem imeiTurns_next {imei : List UInt8} {ret : ℤ} {bs : List UInt8} {rest : List Call}
    {out : ℤ × List UInt8 × List UInt8} (hit : Option Hit)
    (htest : tested IMEIRTN (· = 15) buf bs = hit)
    (h : Runs (imeiTurns n (overlay buf bs)
      (hit.elim imei fun h => (h.buf.drop (h.pStart + IMEIRTN.length)).take 15)
      (hit.elim ret fun _ => 0)) rest out) :
    Runs (imeiTurns (n + 1) buf imei ret)
      (⟨.usartWrite IMEIGET, ()⟩ :: ⟨.usartRead bufSize 100, bs⟩ :: rest) out := by
  rw [imeiTurns_succ]
  apply runs_attempt
  rw [htest]
  cases hit with
  | none => exact h
  | some h' => exact h

end Turns

end GemhoNbiot.ReplyAttempts
