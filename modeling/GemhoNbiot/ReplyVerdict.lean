import GemhoNbiot.Bc95Driver
import GemhoNbiot.ChunkScan

/-!
The verdict of wait_OK_timeout on the stream of bytes that the module sends. The
loop is a scan of the chunks that its reads return, for OK first and then for
ERROR, after each read over the bytes in its buffer. A cut of the stream is what
the reads would return until the clock ends the loop: the first bytes of the
stream, as many as the buffer holds. The verdict says whether OK comes before
ERROR except where the first test of the clock is late, where OK comes first but
is not complete within the buffer, and where ERROR comes first but every read
that completes it completes OK as well.
-/
namespace GemhoNbiot.ReplyVerdict

open Memmem Commands Program Bc95Driver ChunkScan

/-- The text is among these bytes. -/
def Holds (text bs : List UInt8) : Prop := text <:+: bs

instance (text bs : List UInt8) : Decidable (Holds text bs) :=
  inferInstanceAs (Decidable (text <:+: bs))

/-- The first OK of the stream is complete before the first ERROR is, or there is
no ERROR. -/
def OKFirst (S : List UInt8) : Prop := Before (Holds OKSTR) (Holds ERRORSTR) S

instance (S : List UInt8) : Decidable (OKFirst S) :=
  inferInstanceAs (Decidable (Before (Holds OKSTR) (Holds ERRORSTR) S))

/-- The clock before the loop, the results of its turns (the clock and the bytes
read), and the clock that ends it. -/
structure Feed where
  start : UInt64
  turns : List (UInt64 × List UInt8)
  stop : UInt64

def Feed.chunks (f : Feed) : List (List UInt8) := f.turns.map Prod.snd

/-- The calls of turns with `cnt` bytes in the buffer. -/
def turnCalls : ℕ → List (UInt64 × List UInt8) → List Call
  | _, [] => []
  | cnt, (t, bs) :: rest =>
    ⟨.getTimestamp, t⟩ :: ⟨.usartRead (bufSize - cnt) 20, bs⟩ :: turnCalls (cnt + bs.length) rest

def Feed.calls (f : Feed) : List Call :=
  ⟨.getTimestamp, f.start⟩ :: (turnCalls 0 f.turns ++ [⟨.getTimestamp, f.stop⟩])

/-- The stream arrives within the timeout of a monotone clock and is cut into the
results of the reads, as far as the buffer has room. -/
structure Arrives (timeout : UInt64) (S : List UInt8) (f : Feed) : Prop where
  monotone : (f.start :: f.turns.map Prod.fst ++ [f.stop]).Pairwise (· ≤ ·)
  inTime : ∀ turn ∈ f.turns, turn.1 - f.start ≤ timeout
  late : timeout < f.stop - f.start
  whole : f.chunks.flatten = S.take bufSize

instance (timeout : UInt64) (S : List UInt8) (f : Feed) : Decidable (Arrives timeout S f) :=
  decidable_of_iff ((f.start :: f.turns.map Prod.fst ++ [f.stop]).Pairwise (· ≤ ·) ∧
      (∀ turn ∈ f.turns, turn.1 - f.start ≤ timeout) ∧ timeout < f.stop - f.start ∧
      f.chunks.flatten = S.take bufSize)
    ⟨fun h => ⟨h.1, h.2.1, h.2.2.1, h.2.2.2⟩, fun h => ⟨h.monotone, h.inTime, h.late, h.whole⟩⟩

/-- wait_OK_timeout returns this when the calls return what the feed says. -/
def Answers (fuel : ℕ) (timeout : UInt64) (f : Feed) (ret : ℤ) : Prop :=
  RunsOn (waitOKTimeout fuel timeout) f.calls ret

section Search

/-- The zeros behind the bytes read take no part in an occurrence. -/
theorem holds_padded (text bs : List UInt8) (hzero : 0 ∉ text) (hne : text ≠ []) :
    Holds text (padded bs) ↔ Holds text bs := by
  constructor
  · intro h
    obtain ⟨before, after, heq⟩ := h
    rcases List.append_eq_append_iff.mp heq with ⟨more, rfl, _⟩ | ⟨past, heq, hzeros⟩
    · exact ⟨before, more, rfl⟩
    · have hpast : ∀ b ∈ past, b = 0 := by
        intro b hb
        have hmem : b ∈ List.replicate (bufSize - bs.length) (0 : UInt8) := by
          rw [hzeros]
          exact List.mem_append_left _ hb
        exact List.eq_of_mem_replicate hmem
      rcases List.append_eq_append_iff.mp heq with ⟨inside, rfl, rfl⟩ | ⟨lead, _, rfl⟩
      · cases past with
        | nil => exact ⟨before, [], by simp⟩
        | cons b past =>
          refine absurd ?_ hzero
          rw [← hpast b List.mem_cons_self]
          simp
      · obtain ⟨b, hb⟩ := List.exists_mem_of_ne_nil text hne
        rw [hpast b (List.mem_append_right _ hb)] at hb
        exact absurd hb hzero
  · exact fun h => h.trans (List.prefix_append _ _).isInfix

theorem found_OKSTR (bs : List UInt8) :
    memmem (padded bs) OKSTR ≠ none ↔ Holds OKSTR bs := by
  rw [memmem_ne_none (by decide), ← holds_padded OKSTR bs (by decide) (by decide), Holds]

theorem found_ERRORSTR (bs : List UInt8) :
    memmem (padded bs) ERRORSTR ≠ none ↔ Holds ERRORSTR bs := by
  rw [memmem_ne_none (by decide), ← holds_padded ERRORSTR bs (by decide) (by decide), Holds]

theorem lasting_holds (text : List UInt8) : Lasting (Holds text) :=
  fun _ ys h => h.trans (List.prefix_append _ ys).isInfix

theorem not_holds_nil (text : List UInt8) (h : text ≠ []) : ¬ Holds text [] :=
  fun hnil => h (List.infix_nil.mp hnil)

end Search

section Loop

/-- What the loop returns for the outcome of its scan, `ret` if it ends open. -/
def reply (ret : ℤ) : Option Bool → ℤ
  | some true => 0
  | some false => -1
  | none => ret

/-- The loop scans the chunks of its turns. -/
theorem waitOKLoop_runsOn (timeout last stop : UInt64) (hstop : ¬ stop - last ≤ timeout)
    (turns : List (UInt64 × List UInt8)) (hturns : ∀ turn ∈ turns, turn.1 - last ≤ timeout)
    (n : ℕ) (hn : turns.length < n) (buf : List UInt8) (ret ret' : ℤ) :
    RunsOn (waitOKLoop timeout last n buf ret)
        (turnCalls buf.length turns ++ [⟨.getTimestamp, stop⟩]) ret' ↔
      ret' = reply (if turns = [] then ret else -1)
        (scan (Holds OKSTR) (Holds ERRORSTR) buf (turns.map Prod.snd)) := by
  induction turns generalizing n buf ret with
  | nil =>
    obtain ⟨n, rfl⟩ : ∃ k, n = k + 1 := ⟨n - 1, by simp at hn; omega⟩
    rw [waitOKLoop, turnCalls, List.nil_append, getTimestamp, runsOn_perform_bind, if_neg hstop,
      runsOn_pure]
    rfl
  | cons turn turns ih =>
    obtain ⟨t, bs⟩ := turn
    obtain ⟨n, rfl⟩ : ∃ k, n = k + 1 := ⟨n - 1, by simp at hn; omega⟩
    have ht := hturns (t, bs) List.mem_cons_self
    have hrest := ih (fun turn hmem => hturns turn (List.mem_cons_of_mem _ hmem)) n
      (by simpa using hn) (buf ++ bs) (-1)
    rw [waitOKLoop, turnCalls, List.cons_append, List.cons_append, getTimestamp,
      runsOn_perform_bind, if_pos ht, usartRead, runsOn_perform_bind, if_neg (List.cons_ne_nil _ _),
      List.map_cons, scan]
    by_cases hok : Holds OKSTR (buf ++ bs)
    · rw [if_pos hok, if_pos ((found_OKSTR _).mpr hok), runsOn_pure]
      rfl
    · rw [if_neg hok, if_neg fun h => hok ((found_OKSTR _).mp h)]
      by_cases herr : Holds ERRORSTR (buf ++ bs)
      · rw [if_pos herr, if_pos ((found_ERRORSTR _).mpr herr), runsOn_pure]
        rfl
      · rw [if_neg herr, if_neg fun h => herr ((found_ERRORSTR _).mp h)]
        rw [List.length_append, ite_self] at hrest
        exact hrest

/-- With a bound above its turns the function returns, and returns the outcome of
the scan. -/
theorem answers_iff (fuel : ℕ) (timeout : UInt64) (S : List UInt8) (f : Feed)
    (h : Arrives timeout S f) (hfuel : f.turns.length < fuel) (ret : ℤ) :
    Answers fuel timeout f ret ↔ ret = reply (if f.turns = [] then 0 else -1)
      (scan (Holds OKSTR) (Holds ERRORSTR) [] f.chunks) := by
  rw [Answers, waitOKTimeout, getTimestamp, Feed.calls, runsOn_perform_bind]
  exact waitOKLoop_runsOn timeout f.start f.stop (UInt64.not_le.mpr h.late) f.turns h.inTime fuel
    hfuel [] 0 ret

end Loop

section Verdict

/-- What makes the verdict one about the stream: the clock allows a read, an OK
that comes first is complete within the buffer, and when it does not come first
but is complete within the buffer, some read ends behind an ERROR and before it. -/
structure Telling (S : List UInt8) (f : Feed) : Prop where
  tested : f.turns ≠ []
  early : OKFirst S → Holds OKSTR (S.take bufSize)
  apart : Holds OKSTR (S.take bufSize) → ¬ OKFirst S →
    ∃ first, first <+: f.chunks ∧ Holds ERRORSTR first.flatten ∧ ¬ Holds OKSTR first.flatten

/-- The verdict of one cut. -/
theorem reply_iff_telling (timeout : UInt64) (S : List UInt8) (f : Feed)
    (h : Arrives timeout S f) :
    (reply (if f.turns = [] then 0 else -1)
      (scan (Holds OKSTR) (Holds ERRORSTR) [] f.chunks) = 0 ↔ OKFirst S) ↔ Telling S f := by
  have hwhole := h.whole
  by_cases hturns : f.turns = []
  · have hchunks : f.chunks = [] := by rw [Feed.chunks, hturns, List.map_nil]
    have hS : S = [] := by
      rw [hchunks, List.flatten_nil] at hwhole
      exact (List.take_eq_nil_iff.mp hwhole.symm).resolve_left (by decide)
    have hnot : ¬ OKFirst [] := by decide
    rw [if_pos hturns, hchunks, scan, hS]
    exact ⟨fun hiff => absurd (hiff.mp rfl) hnot, fun htelling => absurd hturns htelling.tested⟩
  · have hzero : ∀ o, reply (-1) o = 0 ↔ o = some true := by
      intro o
      rcases o with _ | _ | _ <;> simp [reply]
    rw [if_neg hturns, hzero, OKFirst,
      scan_before_iff (lasting_holds OKSTR) (lasting_holds ERRORSTR)
        (not_holds_nil OKSTR (by decide)) (not_holds_nil ERRORSTR (by decide)) S bufSize f.chunks
        hwhole]
    exact ⟨fun hcond => ⟨hturns, hcond.1, hcond.2⟩,
      fun htelling => ⟨htelling.early, htelling.apart⟩⟩

theorem reply_range (o : Option Bool) (ret : ℤ) (h : ret = 0 ∨ ret = -1) :
    reply ret o = 0 ∨ reply ret o = -1 := by
  rcases o with _ | _ | _
  · exact h
  · exact Or.inr rfl
  · exact Or.inl rfl

/-- For any two cuts of a stream the function returns, and its verdicts are right
and agree exactly when both cuts are telling. -/
theorem verdict_iff (fuel : ℕ) (timeout : UInt64) (S : List UInt8) (f f' : Feed)
    (h : Arrives timeout S f) (h' : Arrives timeout S f') (hfuel : f.turns.length < fuel)
    (hfuel' : f'.turns.length < fuel) :
    ∃ ret ret', (∀ r, Answers fuel timeout f r ↔ r = ret) ∧
      (∀ r, Answers fuel timeout f' r ↔ r = ret') ∧
      ((ret = 0 ↔ OKFirst S) ↔ Telling S f) ∧
      ((ret = 0 ↔ OKFirst S) ∧ (ret' = 0 ↔ OKFirst S) ∧ ret = ret' ↔
        Telling S f ∧ Telling S f') := by
  refine ⟨_, _, answers_iff fuel timeout S f h hfuel, answers_iff fuel timeout S f' h' hfuel',
    reply_iff_telling timeout S f h, ?_⟩
  rw [← reply_iff_telling timeout S f h, ← reply_iff_telling timeout S f' h']
  have hrange : ∀ g : Feed, (if g.turns = [] then (0 : ℤ) else -1) = 0 ∨
      (if g.turns = [] then (0 : ℤ) else -1) = -1 := by
    intro g
    by_cases hg : g.turns = []
    · exact Or.inl (if_pos hg)
    · exact Or.inr (if_neg hg)
  have hret := reply_range (scan (Holds OKSTR) (Holds ERRORSTR) [] f.chunks) _ (hrange f)
  have hret' := reply_range (scan (Holds OKSTR) (Holds ERRORSTR) [] f'.chunks) _ (hrange f')
  refine ⟨fun hall => ⟨hall.1, hall.2.1⟩, fun hboth => ⟨hboth.1, hboth.2, ?_⟩⟩
  have hiff := hboth.1.trans hboth.2.symm
  omega

/-- An OK cut in two by the reads. -/
def cutOK : Feed := ⟨0, [(10, bytes "\r\nO"), (30, bytes "K\r\n")], 5021⟩

/-- The same bytes in one read. -/
def wholeOK : Feed := ⟨0, [(10, bytes "\r\nOK\r\n"), (30, [])], 5021⟩

theorem arrives_cutOK : Arrives 5000 (bytes "\r\nOK\r\n") cutOK := by decide +kernel

theorem arrives_wholeOK : Arrives 5000 (bytes "\r\nOK\r\n") wholeOK := by decide +kernel

theorem verdict_iff_cutOK :
    ∃ ret ret', (∀ r, Answers 3 5000 cutOK r ↔ r = ret) ∧
      (∀ r, Answers 3 5000 wholeOK r ↔ r = ret') ∧
      ((ret = 0 ↔ OKFirst (bytes "\r\nOK\r\n")) ↔ Telling (bytes "\r\nOK\r\n") cutOK) ∧
      ((ret = 0 ↔ OKFirst (bytes "\r\nOK\r\n")) ∧ (ret' = 0 ↔ OKFirst (bytes "\r\nOK\r\n")) ∧
        ret = ret' ↔
        Telling (bytes "\r\nOK\r\n") cutOK ∧ Telling (bytes "\r\nOK\r\n") wholeOK) :=
  verdict_iff 3 5000 (bytes "\r\nOK\r\n") cutOK wholeOK arrives_cutOK arrives_wholeOK (by decide)
    (by decide)

/-- ERROR and then OK. -/
def errorThenOK : List UInt8 := bytes "ERROR\r\nOK\r\n"

def oneRead : Feed := ⟨0, [(10, errorThenOK)], 5021⟩

def twoReads : Feed := ⟨0, [(10, bytes "ERROR\r\n"), (30, bytes "OK\r\n")], 5021⟩

/-- The same bytes are taken for OK in one read and for ERROR in two. -/
theorem errorThenOK_verdicts :
    Arrives 5000 errorThenOK oneRead ∧ Arrives 5000 errorThenOK twoReads ∧
      Answers 3 5000 oneRead 0 ∧ Answers 3 5000 twoReads (-1) ∧ ¬ OKFirst errorThenOK := by
  have hone : Arrives 5000 errorThenOK oneRead := by decide +kernel
  have htwo : Arrives 5000 errorThenOK twoReads := by decide +kernel
  refine ⟨hone, htwo, (answers_iff 3 5000 _ _ hone (by decide) 0).mpr ?_,
    (answers_iff 3 5000 _ _ htwo (by decide) (-1)).mpr ?_, by decide⟩
  · decide
  · decide

end Verdict

end GemhoNbiot.ReplyVerdict
