import GemhoNbiot.ReplyAttempts

/-!
Whether get_IMEI, get_NBAND and get_CGATT deliver what one attempt of the call
received. Their buffers keep the bytes of earlier attempts, that of get_IMEI
also those of earlier calls, and the search covers the whole buffer. They do
whenever the end found lies within the bytes just received: the marker and the
text in front of it then lie there too. Where the end is an older one, marker,
text and end can come from different attempts or calls.
-/
namespace GemhoNbiot.AttemptMixing

open Memmem Program Bc95Driver ReplyAttempts

variable {marker : List UInt8} {fits : UInt32 → Bool}

/-- These bytes hold the marker and the end at a distance that fits, and
`copied` are the first `w` bytes behind the marker. -/
def Answered (marker : List UInt8) (fits : UInt32 → Bool) (w : ℕ) (bs copied : List UInt8) :
    Prop :=
  ∃ text, fits (UInt32.ofNat text.length) = true ∧ (marker ++ (text ++ ENDOK)) <:+: bs ∧
    copied = (text ++ ENDOK).take w

/-- What get_NBAND and get_CGATT owe to a caller whose variable held `old`. -/
structure NumberTaken (marker : List UInt8) (fits : UInt32 → Bool) (events : List Call)
    (ret old out : ℤ) : Prop where
  taken : ret = 0 → ∃ bs ∈ replies events, ∃ b, Answered marker fits 1 bs [b] ∧
    out = (b.toNat : ℤ) - 48
  unchanged : ret ≠ 0 → out = old

/-- What get_IMEI owes to a caller whose buffer held `old`. -/
structure ImeiTaken (events : List Call) (ret : ℤ) (old out : List UInt8) : Prop where
  taken : ret = 0 → ∃ bs ∈ replies events, Answered IMEIRTN (· = 15) 15 bs out
  unchanged : ret ≠ 0 → out = old

/-- The end found lies within the bytes just received. -/
def Within (h : Hit) : Prop := h.pEnd + ENDOK.length ≤ h.reply.length

instance (h : Hit) : Decidable (Within h) := inferInstanceAs (Decidable (_ ≤ _))

/-- The marker, the text and an end within the bytes just received. -/
theorem answered_of_within {h : Hit} (w : ℕ) (hpassed : Passed marker fits h)
    (hlayout : Layout marker fits h) (hwithin : Within h) :
    Answered marker fits w h.reply ((h.text marker ++ ENDOK).take w) := by
  obtain ⟨old, hbuf⟩ := hpassed.buf_eq
  rw [overlay] at hbuf
  have hoccurs := hlayout.occurs
  have hle := hlayout.le_end
  unfold Within at hwithin
  rw [hbuf, occurs_append] at hoccurs
  · exact ⟨h.text marker, hlayout.fits_text,
      hoccurs.isInfix.trans (List.drop_suffix _ _).isInfix, rfl⟩
  · rw [List.length_append, List.length_append, hlayout.text_length]
    omega

section Copied

variable {h : Hit}

/-- What is copied from behind the marker found. -/
theorem copied_eq (hlayout : Layout marker fits h) {w : ℕ}
    (hw : w ≤ (h.text marker).length + ENDOK.length) :
    (h.buf.drop (h.pStart + marker.length)).take w = (h.text marker ++ ENDOK).take w := by
  obtain ⟨after, hafter⟩ := hlayout.drop_end
  rw [hlayout.drop_eq, hafter, ← List.append_assoc]
  exact List.take_append_of_le_length (by rw [List.length_append]; exact hw)

theorem copied_byte (hlayout : Layout marker fits h) :
    (h.text marker ++ ENDOK).take 1 = [h.buf.getD (h.pStart + marker.length) 0] := by
  rw [← copied_eq hlayout (by change 1 ≤ _ + 6; omega)]
  have hlt : h.pStart + marker.length < h.buf.length := by
    have hend := hlayout.end_le
    have hle := hlayout.le_end
    change h.pEnd + 6 ≤ _ at hend
    omega
  rw [List.take_one, List.head?_drop, List.getElem?_eq_getElem hlt,
    List.getD_eq_getElem?_getD, List.getElem?_eq_getElem hlt]
  rfl

end Copied

/-- The number functions, whatever the query. -/
theorem numberTaken_of_within {query : List UInt8} (hmarker : marker ≠ [])
    (hfits : ∀ g, fits g = true → g.toNat ≤ bufSize) {n : ℕ} {old ret out : ℤ}
    {events : List Call}
    (hrun : Runs (numberTurns query marker fits n (padded []) old) events (ret, out))
    (hreads : ReadsFit events) :
    (ret ≠ 0 → out = old) ∧ ((∀ h ∈ hits marker fits (padded []) (replies events), Within h) →
      NumberTaken marker fits events ret old out) := by
  rcases numberTurns_hits hrun with ⟨hnone, rfl, rfl⟩ | ⟨h, hhits, _, rfl, rfl⟩
  · exact ⟨fun _ => rfl, fun _ => ⟨fun hret => absurd hret (by decide), fun _ => rfl⟩⟩
  · have hmem : h ∈ hits marker fits (padded []) (replies events) := by simp [hhits]
    obtain ⟨hreply, hpassed⟩ := mem_hits hmem
    have hlayout := hpassed.layout hmarker (hits_length padded_nil_length hreads hmem) hfits
    refine ⟨fun hret => absurd rfl hret, fun hwithin => ?_⟩
    have hanswered := answered_of_within 1 hpassed hlayout (hwithin h hmem)
    rw [copied_byte hlayout] at hanswered
    exact ⟨fun _ => ⟨h.reply, hreply, _, hanswered, rfl⟩, fun hret => absurd rfl hret⟩

/-- get_IMEI, for any bytes that earlier calls left in its static buffer. -/
theorem imeiTaken_of_within {buf buf' old out : List UInt8} {ret : ℤ} {events : List Call}
    (hbuf : buf.length ≤ bufSize) (hrun : Runs (getIMEI buf old) events (ret, out, buf'))
    (hreads : ReadsFit events) :
    (ret ≠ 0 → out = old) ∧
      ((∀ h ∈ (hits IMEIRTN (· = 15) buf (replies events)).getLast?, Within h) →
        ImeiTaken events ret old out) := by
  have hdelivered := imeiTurns_hits hrun
  cases hlast : (hits IMEIRTN (· = 15) buf (replies events)).getLast? with
  | none =>
    rw [hlast] at hdelivered
    obtain ⟨rfl, rfl⟩ := hdelivered
    exact ⟨fun _ => rfl, fun _ => ⟨fun hret => absurd hret (by decide), fun _ => rfl⟩⟩
  | some h =>
    rw [hlast] at hdelivered
    obtain ⟨rfl, rfl⟩ := hdelivered
    have hmem := List.mem_of_getLast? hlast
    obtain ⟨hreply, hpassed⟩ := mem_hits hmem
    have hfits : ∀ g : UInt32, decide (g = 15) = true → g.toNat ≤ bufSize := fun g hg => by
      rw [of_decide_eq_true hg]
      decide
    have hlayout := hpassed.layout (by decide) (hits_length hbuf hreads hmem) hfits
    have hlen : 15 ≤ (h.text IMEIRTN).length + ENDOK.length := by
      have hexact := congrArg UInt32.toNat (of_decide_eq_true hlayout.fits_text)
      rw [UInt32.toNat_ofNat'] at hexact
      change _ = 15 at hexact
      omega
    refine ⟨fun hret => absurd rfl hret, fun hwithin => ?_⟩
    have hanswered := answered_of_within 15 hpassed hlayout (hwithin h rfl)
    rw [← copied_eq hlayout hlen] at hanswered
    exact ⟨fun _ => ⟨h.reply, hreply, hanswered⟩, fun hret => absurd rfl hret⟩

/-- Replies are not mixed if the end found at the deciding attempt lies within the
bytes it received, and a failure leaves the output alone in any case. -/
theorem replies_not_mixed (old : ℤ) (buf imei : List UInt8) :
    (∀ (ret out : ℤ) (events : List Call), Runs (getNBAND old) events (ret, out) →
      ReadsFit events → (ret ≠ 0 → out = old) ∧
        ((∀ h ∈ hits NBANDRTN (· ≤ 3) (padded []) (replies events), Within h) →
          NumberTaken NBANDRTN (· ≤ 3) events ret old out)) ∧
    (∀ (ret out : ℤ) (events : List Call), Runs (getCGATT old) events (ret, out) →
      ReadsFit events → (ret ≠ 0 → out = old) ∧
        ((∀ h ∈ hits CGATTRTN (· = 1) (padded []) (replies events), Within h) →
          NumberTaken CGATTRTN (· = 1) events ret old out)) ∧
    (∀ (buf' out : List UInt8) (ret : ℤ) (events : List Call), buf.length ≤ bufSize →
      Runs (getIMEI buf imei) events (ret, out, buf') → ReadsFit events →
      (ret ≠ 0 → out = imei) ∧
        ((∀ h ∈ (hits IMEIRTN (· = 15) buf (replies events)).getLast?, Within h) →
          ImeiTaken events ret imei out)) := by
  refine ⟨?_, ?_, ?_⟩
  · intro ret out events hrun hreads
    refine numberTaken_of_within (by decide) (fun g hg => ?_) hrun hreads
    exact (UInt32.le_iff_toNat_le.mp (of_decide_eq_true hg)).trans (by decide)
  · intro ret out events hrun hreads
    refine numberTaken_of_within (by decide) (fun g hg => ?_) hrun hreads
    rw [of_decide_eq_true hg]
    decide
  · intro buf' out ret events hbuf hrun hreads
    exact imeiTaken_of_within hbuf hrun hreads

section Runs

/-- The calls of attempts of get_CGATT that read these bytes. -/
def cgattReads (rs : List (List UInt8)) : List Call :=
  rs.flatMap fun bs => [⟨.usartWrite CGATTGET, ()⟩, ⟨.usartRead bufSize 300, bs⟩]

/-- The calls of attempts of get_IMEI that read these bytes. -/
def imeiReads (rs : List (List UInt8)) : List Call :=
  rs.flatMap fun bs => [⟨.usartWrite IMEIGET, ()⟩, ⟨.usartRead bufSize 100, bs⟩]

def attached : List UInt8 := bytes "\r\n+CGATT:1\r\n\r\nOK\r\n"

/-- The beginning of a reply. -/
def firstBytes : List UInt8 := bytes "\r\n+CGATT:0"

/-- A first attempt without answer, and a second one with the whole reply. -/
theorem getCGATT_attached :
    NumberTaken CGATTRTN (· = 1) (cgattReads [firstBytes, attached]) 0 7 1 := by
  have hnone : tested CGATTRTN (· = 1) (padded []) firstBytes = none := by decide +kernel
  have htest : tested CGATTRTN (· = 1) (overlay (padded []) firstBytes) attached =
      some ⟨attached, overlay (padded []) attached, 2, 10⟩ := by decide +kernel
  have hrun : Runs (getCGATT 7) (cgattReads [firstBytes, attached]) (0, 1) :=
    numberTurns_next hnone (numberTurns_first htest)
  have hfit : ReadsFit (cgattReads [firstBytes, attached]) := by
    unfold ReadsFit
    decide
  refine ((replies_not_mixed 7 [] []).2.1 0 1 _ hrun hfit).2 fun h hmem => ?_
  change h ∈ (tested CGATTRTN (· = 1) (padded []) firstBytes).toList ++
    ((tested CGATTRTN (· = 1) (overlay (padded []) firstBytes) attached).toList ++ []) at hmem
  rw [hnone, htest] at hmem
  obtain rfl := List.mem_singleton.mp hmem
  decide

/-- A reply with a damaged marker. -/
def damaged : List UInt8 := bytes "\r\n+CGAT?:1\r\n\r\nOK\r\n"

/-- What get_IMEI left in its static buffer, and the IMEI in it. -/
def earlierCall : List UInt8 := padded (bytes "\r\n+CGSN:123456789012345\r\n\r\nOK\r\n")
def earlierIMEI : List UInt8 := bytes "123456789012345"

/-- A number pieced together from two attempts, and an IMEI from an earlier call. -/
theorem replies_mixed :
    (Runs (getCGATT 7) (cgattReads [damaged, firstBytes]) (0, 0) ∧
      ReadsFit (cgattReads [damaged, firstBytes]) ∧
      ¬ NumberTaken CGATTRTN (· = 1) (cgattReads [damaged, firstBytes]) 0 7 0) ∧
    Runs (getIMEI earlierCall []) (imeiReads [bytes "\r\n", [], []])
        (0, earlierIMEI, earlierCall) ∧
      ReadsFit (imeiReads [bytes "\r\n", [], []]) ∧
      ¬ ImeiTaken (imeiReads [bytes "\r\n", [], []]) 0 [] earlierIMEI := by
  refine ⟨⟨?_, ?_, fun h => ?_⟩, ?_, ?_, fun h => ?_⟩
  · refine numberTurns_next (by decide +kernel) ?_
    exact numberTurns_first (h := ⟨firstBytes, overlay (overlay (padded []) damaged) firstBytes,
      2, 10⟩) (by decide +kernel)
  · unfold ReadsFit
    decide
  · obtain ⟨bs, hbs, b, ⟨text, _, hpart, _⟩, _⟩ := h.taken rfl
    have hmarker : CGATTRTN <:+: bs := (List.prefix_append _ _).isInfix.trans hpart
    have hend : ENDOK <:+: bs :=
      ((List.suffix_append _ _).trans (List.suffix_append _ _)).isInfix.trans hpart
    have hall : ∀ bs ∈ [damaged, firstBytes], ¬ (CGATTRTN <:+: bs ∧ ENDOK <:+: bs) := by decide
    exact hall bs hbs ⟨hmarker, hend⟩
  · refine imeiTurns_next (some ⟨bytes "\r\n", earlierCall, 2, 23⟩) (by decide +kernel) ?_
    refine imeiTurns_next none (by decide +kernel) ?_
    refine imeiTurns_next none (by decide +kernel) ?_
    refine (runs_pure _ _ _).mpr ⟨rfl, ?_⟩
    decide +kernel
  · unfold ReadsFit
    decide
  · obtain ⟨bs, hbs, text, _, hpart, _⟩ := h.taken rfl
    have hmarker : IMEIRTN <:+: bs := (List.prefix_append _ _).isInfix.trans hpart
    have hall : ∀ bs ∈ [bytes "\r\n", [], []], ¬ IMEIRTN <:+: bs := by decide
    exact hall bs hbs hmarker

end Runs

end GemhoNbiot.AttemptMixing
