import Mathlib.Data.List.Chain
import GemhoNbiot.ReplyChannel
import GemhoNbiot.ReplyVerdict

/-!
thread_msgSend: it pops a message, sends it with three attempts until a send
returns 0, and checks the module between failed sends and once an hour. A send
that returns 0 has found a final OK in what it read. Nothing is read away before
a command, so the OK can answer a line of an earlier command whose reply was
still to come when the send began; with no such line the OK answers a line of
the send itself.
-/
namespace GemhoNbiot.MsgSend

open Memmem ConfigUtils Commands Program Bc95Driver WireLines Bc95Writes ReplyChannel

/-- The send of thread_msgSend. -/
def sendMessage (fuel : ℕ) (config : NbModuConfig) (imei msg : List UInt8) : Bc95 ℤ :=
  if config.sendMode = 0 then coapMsgSend fuel msg 3 else udpMsgSend fuel config imei msg 3

/-- Where thread_msgSend is, between its calls that use BC95COM. -/
inductive Phase
  | popping
  | sending (msg : List UInt8)
  | recovering (msg : List UInt8)

/-- `delivered` are the messages that were dropped as delivered. -/
structure System where
  phase : Phase
  channel : Channel
  delivered : List (List UInt8)

/-- Time passes, or thread_msgSend pops a message or finishes a call. The
configuration is read anew by every call. -/
inductive Step (s : System) : System → Prop
  | time {c : Channel} : Reads s.channel [] c → Step s { s with channel := c }
  | pop (msg : List UInt8) :
      s.phase = .popping → msg ≠ [] → Step s { s with phase := .sending msg }
  | deliver {msg imei : List UInt8} {fuel : ℕ} {config : NbModuConfig} {events : List Call}
      {c : Channel} :
      s.phase = .sending msg → Runs (sendMessage fuel config imei msg) events 0 →
      Chain Act s.channel events c → Step s ⟨.popping, c, s.delivered ++ [msg]⟩
  | fail {msg imei : List UInt8} {fuel : ℕ} {config : NbModuConfig} {events : List Call}
      {ret : ℤ} {c : Channel} :
      s.phase = .sending msg → Runs (sendMessage fuel config imei msg) events ret → ret ≠ 0 →
      Chain Act s.channel events c → Step s { s with phase := .recovering msg, channel := c }
  | recover {msg : List UInt8} {fuel : ℕ} {config : NbModuConfig} {info : ModuleInfo}
      {events : List Call} {r : DeviceStatus × ModuleInfo} {c : Channel} :
      s.phase = .recovering msg → Runs (statusManage fuel config 3 1000 60000 info) events r →
      Chain Act s.channel events c → Step s { s with phase := .sending msg, channel := c }
  | check {fuel : ℕ} {config : NbModuConfig} {info : ModuleInfo} {events : List Call}
      {r : DeviceStatus × ModuleInfo} {c : Channel} :
      s.phase = .popping → Runs (statusManage fuel config 3 1000 120000 info) events r →
      Chain Act s.channel events c → Step s { s with channel := c }

/-- thread_msgSend starts on a fresh channel, or on what config_bc95 left. -/
inductive Reach : System → Prop
  | start : Reach ⟨.popping, Channel.start, []⟩
  | setup {config : NbModuConfig} {info : ModuleInfo} {events : List Call} {r : ℤ × ModuleInfo}
      {c : Channel} :
      Runs (configBc95 config info) events r → Chain Act Channel.start events c →
      Reach ⟨.popping, c, []⟩
  | step {s s' : System} : Reach s → Step s s' → Reach s'

section Reachable

theorem emits_sendMessage (fuel : ℕ) (config : NbModuConfig) (imei msg : List UInt8) :
    Emits (sendMessage fuel config imei msg) Pieces := by
  unfold sendMessage
  by_cases hmode : config.sendMode = 0
  · rw [if_pos hmode]
    exact emits_coapMsgSend fuel msg 3
  · rw [if_neg hmode]
    exact emits_udpMsgSend fuel config imei msg 3

/-- Between the calls no line is begun. -/
structure Settled (c : Channel) : Prop where
  sound : Sound c
  line : c.input.line = []

theorem Settled.chain {c c' : Channel} {events : List Call} (hc : Settled c)
    (h : Chain Act c events c') (hwrites : Pieces (writes events)) : Settled c' where
  sound := (chain_keep h hc.sound (Since.refl c)).1
  line := line_of_pieces h hwrites hc.line

theorem Reach.settled {s : System} (h : Reach s) : Settled s.channel := by
  induction h with
  | start => exact ⟨sound_start, rfl⟩
  | @setup config info events r c hrun hchain =>
    have hstart : Settled Channel.start := ⟨sound_start, rfl⟩
    exact hstart.chain hchain (emits_configBc95 config info events r hrun).pieces
  | @step s s' _ hstep ih =>
    cases hstep with
    | time hreads =>
      refine ⟨(hreads.keep ih.sound (Since.refl s.channel)).1, ?_⟩
      rw [hreads.input]
      exact ih.line
    | pop msg _ _ => exact ih
    | deliver _ hrun hchain => exact ih.chain hchain (emits_sendMessage _ _ _ _ _ _ hrun)
    | fail _ hrun _ hchain => exact ih.chain hchain (emits_sendMessage _ _ _ _ _ _ hrun)
    | recover _ hrun hchain =>
      exact ih.chain hchain (emits_statusManage _ _ _ _ _ _ _ _ hrun).pieces
    | check _ hrun hchain =>
      exact ih.chain hchain (emits_statusManage _ _ _ _ _ _ _ _ hrun).pieces

end Reachable

/-- Two calls in a row that read the clock read it within the time of a wait. -/
def clockWithin : Call → Call → Bool
  | ⟨.getTimestamp, t₀⟩, ⟨.getTimestamp, t₁⟩ => t₁ - t₀ ≤ (5000 : UInt64)
  | _, _ => true

/-- The first test of the clock in every wait comes within the time of the wait. -/
def InTime (events : List Call) : Prop := events.IsChain fun e e' => clockWithin e e' = true

instance (events : List Call) : Decidable (InTime events) :=
  inferInstanceAs (Decidable (List.IsChain _ _))

section Evidence

variable {c₀ : Channel}

theorem k_of_ok {buf : List UInt8} (h : memmem (padded buf) OKSTR ≠ none) : 75 ∈ buf := by
  have hholds : OKSTR <:+: buf := (ReplyVerdict.found_OKSTR buf).mp h
  exact hholds.subset (by decide)

/-- A wait that returns 0 has found an OK, unless it never looked. -/
theorem waitOKLoop_evidence (timeout last : UInt64) (n : ℕ) (buf : List UInt8) (ret : ℤ)
    {events : List Call} {c c' : Channel}
    (hrun : Runs (waitOKLoop timeout last n buf ret) events 0) (hchain : Chain Act c events c')
    (hc : Sound c) (hs : Since c₀ c) (hbuf : 75 ∈ buf → ∃ i, Evidence c₀ c i)
    (hfirst : ret = 0 → ∀ (t : UInt64) (rest : List Call),
      events = ⟨.getTimestamp, t⟩ :: rest → t - last ≤ timeout) :
    ∃ i, Evidence c₀ c' i := by
  induction n generalizing buf ret events c with
  | zero => exact absurd hrun (not_runs_hang _ _)
  | succ n ih =>
    obtain ⟨t, rest, rfl, hloop⟩ := (runs_perform_bind Op.getTimestamp _ _ _).mp hrun
    obtain ⟨c₁, hact₁, hchain⟩ := chain_cons.mp hchain
    obtain ⟨hc₁, hs₁⟩ := hact₁.keep hc hs
    have hsince₁ := (hact₁.keep hc (Since.refl c)).2
    by_cases ht : t - last ≤ timeout
    · rw [if_pos ht] at hloop
      obtain ⟨bs, rest, rfl, hsearch⟩ :=
        (runs_perform_bind (Op.usartRead (bufSize - buf.length) 20) _ _ _).mp hloop
      obtain ⟨c₂, hact₂, hchain⟩ := chain_cons.mp hchain
      obtain ⟨hc₂, hs₂⟩ := hact₂.keep hc₁ hs₁
      have hsince₂ := (hact₂.keep hc₁ (Since.refl c₁)).2
      -- A K in the longer buffer was there before or has just been read.
      have hbuf₂ : 75 ∈ buf ++ bs → ∃ i, Evidence c₀ c₂ i := by
        intro hk
        rcases List.mem_append.mp hk with hk | hk
        · obtain ⟨i, hi⟩ := hbuf hk
          exact ⟨i, (hi.mono hsince₁).mono hsince₂⟩
        · cases hact₂ with
          | read len timeout _ hreads => exact hreads.evidence hc₁ hs₁ hk
      by_cases hok : memmem (padded (buf ++ bs)) OKSTR ≠ none
      · obtain ⟨i, hi⟩ := hbuf₂ (k_of_ok hok)
        exact ⟨i, hi.mono (chain_keep hchain hc₂ (Since.refl c₂)).2⟩
      · rw [if_neg hok] at hsearch
        by_cases herror : memmem (padded (buf ++ bs)) ERRORSTR ≠ none
        · rw [if_pos herror] at hsearch
          obtain ⟨_, hret⟩ := (runs_pure _ _ _).mp hsearch
          exact absurd hret (by decide)
        · rw [if_neg herror] at hsearch
          exact ih (buf ++ bs) (-1) hsearch hchain hc₂ hs₂ hbuf₂ fun h => absurd h (by decide)
    · rw [if_neg ht] at hloop
      obtain ⟨_, hret⟩ := (runs_pure _ _ _).mp hloop
      exact absurd (hfirst hret.symm t rest rfl) ht

theorem waitOKTimeout_evidence (fuel : ℕ) {events : List Call} {c c' : Channel}
    (hrun : Runs (waitOKTimeout fuel 5000) events 0) (hchain : Chain Act c events c')
    (hc : Sound c) (hs : Since c₀ c) (htime : InTime events) : ∃ i, Evidence c₀ c' i := by
  obtain ⟨last, rest, rfl, hloop⟩ := (runs_perform_bind Op.getTimestamp _ _ _).mp hrun
  obtain ⟨c₁, hact, hchain⟩ := chain_cons.mp hchain
  obtain ⟨hc₁, hs₁⟩ := hact.keep hc hs
  refine waitOKLoop_evidence 5000 last fuel [] 0 hloop hchain hc₁ hs₁ (by simp) ?_
  rintro _ t rest rfl
  exact of_decide_eq_true (List.isChain_cons_cons.mp htime).1

/-- The attempts up to one that succeeds. -/
theorem sendAttempts_evidence (fuel : ℕ) (pieces : List (List UInt8)) (n : ℕ)
    {events : List Call} {c c' : Channel}
    (hrun : Runs (sendAttempts fuel pieces n) events 0) (hchain : Chain Act c events c')
    (hc : Sound c) (hs : Since c₀ c) (htime : InTime events) : ∃ i, Evidence c₀ c' i := by
  induction n generalizing events c with
  | zero =>
    obtain ⟨_, hret⟩ := (runs_pure _ _ _).mp hrun
    exact absurd hret (by decide)
  | succ n ih =>
    obtain ⟨first, rest, _, rfl, _, hrun⟩ := (runs_bind _ _ _ _).mp hrun
    obtain ⟨wait, rest, ret, rfl, hwait, hrun⟩ := (runs_bind _ _ _ _).mp hrun
    obtain ⟨c₁, hchain₁, hchain⟩ := chain_append.mp hchain
    obtain ⟨c₂, hchain₂, hchain⟩ := chain_append.mp hchain
    obtain ⟨hc₁, hs₁⟩ := chain_keep hchain₁ hc hs
    obtain ⟨hc₂, hs₂⟩ := chain_keep hchain₂ hc₁ hs₁
    have htime' : InTime (wait ++ rest) := List.IsChain.right_of_append htime
    by_cases hret : ret = 0
    · subst hret
      obtain ⟨i, hi⟩ := waitOKTimeout_evidence fuel hwait hchain₂ hc₁ hs₁
        (List.IsChain.left_of_append htime')
      exact ⟨i, hi.mono (chain_keep hchain hc₂ (Since.refl c₂)).2⟩
    · rw [if_neg hret] at hrun
      exact ih hrun hchain hc₂ hs₂ (List.IsChain.right_of_append htime')

end Evidence

/-- The line was begun and completed between the two states. -/
def WrittenDuring (c c' : Channel) (i : ℕ) : Prop :=
  c.input.line = [] ∧ c.input.lines.length ≤ i ∧ i < c'.input.lines.length

/-- A send that returns 0 was acknowledged: the module has answered OK to a line
that the send wrote, or to an earlier one whose reply was still to be read. -/
theorem delivered_acknowledged (s : System) (h : Reach s) (fuel : ℕ) (config : NbModuConfig)
    (imei msg : List UInt8) (events : List Call) (c : Channel)
    (hrun : Runs (sendMessage fuel config imei msg) events 0)
    (hchain : Chain Act s.channel events c) (htime : InTime events) :
    ∃ i, c.answers[i]? = some true ∧
      (WrittenDuring s.channel c i ∨ s.channel.Outstanding i) := by
  have hsettled := h.settled
  obtain ⟨hc, hs⟩ := chain_keep hchain hsettled.sound (Since.refl s.channel)
  have hevidence : ∃ i, Evidence s.channel c i := by
    unfold sendMessage at hrun
    by_cases hmode : config.sendMode = 0
    · rw [if_pos hmode] at hrun
      exact sendAttempts_evidence fuel _ 3 hrun hchain hsettled.sound (Since.refl _) htime
    · rw [if_neg hmode] at hrun
      exact sendAttempts_evidence fuel _ 3 hrun hchain hsettled.sound (Since.refl _) htime
  obtain ⟨i, hok, horigin⟩ := hevidence
  obtain ⟨hlt, _⟩ := List.getElem?_eq_some_iff.mp hok
  refine ⟨i, hok, ?_⟩
  rcases horigin with hnew | hbyte
  · by_cases hi : i < s.channel.input.lines.length
    · exact Or.inr (Or.inl ⟨hnew, hi⟩)
    · exact Or.inl ⟨hsettled.line, by omega, Nat.lt_of_lt_of_le hlt hc.answered⟩
  · exact Or.inr (Or.inr hbyte)

section Stale

/-- Turns of a wait whose reads find nothing. -/
def quiet (ts : List UInt64) : List Call :=
  ts.flatMap fun t => [⟨.getTimestamp, t⟩, ⟨.usartRead 128 20, ([] : List UInt8)⟩]

theorem chain_quiet (c : Channel) (ts : List UInt64) : Chain Act c (quiet ts) c := by
  induction ts with
  | nil => exact .nil c
  | cons t ts ih =>
    exact .cons (.getTimestamp t (.nil c)) (.cons (.read 128 20 (Nat.zero_le _) (.nil c)) ih)

/-- A turn whose read finds nothing. -/
theorem runs_waitOKLoop_empty (timeout last t : UInt64) (n : ℕ) (ret : ℤ) {events : List Call}
    (ht : t - last ≤ timeout) (h : Runs (waitOKLoop timeout last n [] (-1)) events (-1)) :
    Runs (waitOKLoop timeout last (n + 1) [] ret) (quiet [t] ++ events) (-1) := by
  have hok : ¬ memmem (padded []) OKSTR ≠ none := by decide +kernel
  have herror : ¬ memmem (padded []) ERRORSTR ≠ none := by decide +kernel
  refine (runs_perform_bind Op.getTimestamp _ _ _).mpr ⟨t, _, rfl, ?_⟩
  rw [if_pos ht]
  refine (runs_perform_bind (Op.usartRead 128 20) _ _ _).mpr ⟨[], events, rfl, ?_⟩
  simp only [List.append_nil]
  rw [if_neg hok, if_neg herror]
  exact h

/-- A wait that finds nothing until its time is over. -/
theorem runs_waitOKTimeout_quiet (timeout last tEnd t : UInt64) (ts : List UInt64) (fuel : ℕ)
    (hts : ∀ t' ∈ t :: ts, t' - last ≤ timeout) (hend : ¬ tEnd - last ≤ timeout)
    (hfuel : ts.length + 1 < fuel) :
    Runs (waitOKTimeout fuel timeout)
      (⟨.getTimestamp, last⟩ :: (quiet (t :: ts) ++ [⟨.getTimestamp, tEnd⟩])) (-1) := by
  have hloop : ∀ (ts : List UInt64) (n : ℕ), (∀ t' ∈ ts, t' - last ≤ timeout) →
      ts.length < n →
      Runs (waitOKLoop timeout last n [] (-1)) (quiet ts ++ [⟨.getTimestamp, tEnd⟩]) (-1) := by
    intro ts
    induction ts with
    | nil =>
      intro n _ hn
      obtain ⟨n, rfl⟩ : ∃ m, n = m + 1 := ⟨n - 1, by simp at hn; omega⟩
      refine (runs_perform_bind Op.getTimestamp _ _ _).mpr ⟨tEnd, [], rfl, ?_⟩
      rw [if_neg hend]
      exact .ret (-1)
    | cons t ts ih =>
      intro n hts hn
      rw [List.length_cons] at hn
      obtain ⟨n, rfl⟩ : ∃ m, n = m + 1 := ⟨n - 1, by omega⟩
      exact runs_waitOKLoop_empty timeout last t n (-1) (hts t List.mem_cons_self)
        (ih n (fun t' ht' => hts t' (List.mem_cons_of_mem _ ht')) (by omega))
  obtain ⟨n, rfl⟩ : ∃ m, fuel = m + 1 := ⟨fuel - 1, by omega⟩
  refine (runs_perform_bind Op.getTimestamp _ _ _).mpr ⟨last, _, rfl, ?_⟩
  exact runs_waitOKLoop_empty timeout last t n 0 (hts t List.mem_cons_self)
    (hloop ts n (fun t' ht' => hts t' (List.mem_cons_of_mem _ ht')) (by omega))

/-- The command of an attempt. -/
def attempt (msg : List UInt8) : List Call := (coapPieces msg).map writeEvent

/-- A wait that reads an OK in its first turn. -/
def acknowledged (t : UInt64) : List Call :=
  [⟨.getTimestamp, t⟩, ⟨.getTimestamp, t⟩, ⟨.usartRead 128 20, OKSTR⟩]

/-- The clock of a wait from time 0 on whose reads take 20 ms each. -/
def waitTimes : List UInt64 := (List.range 250).map fun k => 20 * (UInt64.ofNat k + 1)

/-- The wait of the first attempt finds nothing, that of the second an OK. -/
def firstEvents : List Call :=
  attempt [1] ++ ((⟨.getTimestamp, (0 : UInt64)⟩ :: (quiet (0 :: waitTimes) ++
    [⟨.getTimestamp, (5020 : UInt64)⟩])) ++ (attempt [1] ++ acknowledged 5020))

def secondEvents : List Call := attempt [2] ++ acknowledged 5040

/-- The module answers the second line of the first message while the second
message is sent. -/
def staleSystem : System where
  phase := .sending [2]
  channel := ⟨⟨[(coapPieces [1]).flatten, (coapPieces [1]).flatten], []⟩, [true], [], []⟩
  delivered := [[1]]

def staleChannel : Channel :=
  ⟨⟨[(coapPieces [1]).flatten, (coapPieces [1]).flatten, (coapPieces [2]).flatten], []⟩,
    [true, true], [], []⟩

theorem runs_acknowledged (fuel : ℕ) (t : UInt64) :
    Runs (waitOKTimeout (fuel + 1) 5000) (acknowledged t) 0 := by
  refine runs_waitOKTimeout fuel 5000 t t OKSTR ?_ (by decide +kernel)
  rw [UInt64.sub_self]
  decide

theorem runs_attempt (fuel n : ℕ) (msg : List UInt8) (t : UInt64) :
    Runs (sendAttempts (fuel + 1) (coapPieces msg) (n + 1)) (attempt msg ++ acknowledged t) 0 := by
  refine (runs_bind _ _ _ _).mpr ⟨_, _, (), rfl, runs_writeAll _, ?_⟩
  exact (runs_bind _ _ _ _).mpr
    ⟨_, [], 0, (List.append_nil _).symm, runs_acknowledged fuel t, .ret 0⟩

theorem first_runs : Runs (sendMessage 300 lDefaultNbMCFG [] [1]) firstEvents 0 := by
  have htimes : (0 :: waitTimes).all (fun t => decide (t - 0 ≤ 5000)) = true := by decide +kernel
  have hquiet := runs_waitOKTimeout_quiet 5000 0 5020 0 waitTimes 300
    (fun t ht => of_decide_eq_true (List.all_eq_true.mp htimes t ht)) (by decide)
    (by simp [waitTimes])
  refine (runs_bind _ _ _ _).mpr ⟨_, _, (), rfl, runs_writeAll _, ?_⟩
  exact (runs_bind _ _ _ _).mpr ⟨_, _, -1, rfl, hquiet, runs_attempt 299 1 [1] 5020⟩

theorem second_runs : Runs (sendMessage 300 lDefaultNbMCFG [] [2]) secondEvents 0 :=
  runs_attempt 299 2 [2] 5040

/-- A command and a wait that reads the OK to the next line to be answered. -/
theorem chain_attempt (c : Channel) (msg : List UInt8) (t : UInt64) (hline : c.input.line = [])
    (hair : c.air = []) (hfifo : c.fifo = [])
    (hanswers : c.answers.length ≤ c.input.lines.length) :
    Chain Act c (attempt msg ++ acknowledged t)
      { c with
        input := ⟨c.input.lines ++ [(coapPieces msg).flatten], []⟩
        answers := c.answers ++ [true] } := by
  have hpending : c.answers.length < (c.input.lines ++ [(coapPieces msg).flatten]).length := by
    rw [List.length_append, List.length_singleton]
    omega
  have hread := reads_reply { c with input := ⟨c.input.lines ++ [(coapPieces msg).flatten], []⟩ }
    hair hfifo hpending [] true (by simp)
  refine chain_append.mpr ⟨_, chain_command c _ hline (command_coapPieces msg), ?_⟩
  refine .cons (.getTimestamp t (.nil _)) (.cons (.getTimestamp t (.nil _)) ?_)
  exact .cons (.read 128 20 (by decide) hread) (.nil _)

theorem first_chain : Chain Act Channel.start firstEvents staleSystem.channel := by
  refine chain_append.mpr ⟨_, chain_command Channel.start _ rfl (command_coapPieces [1]), ?_⟩
  refine chain_append.mpr ⟨_, .cons (.getTimestamp 0 (.nil _)) (chain_append.mpr
    ⟨_, chain_quiet _ _, .cons (.getTimestamp 5020 (.nil _)) (.nil _)⟩), ?_⟩
  exact chain_attempt _ [1] 5020 rfl rfl rfl (Nat.zero_le _)

theorem second_chain : Chain Act staleSystem.channel secondEvents staleChannel :=
  chain_attempt staleSystem.channel [2] 5040 rfl rfl rfl (by decide)

theorem staleSystem_reach : Reach staleSystem := by
  have hpop := Reach.start.step (.pop [1] rfl (by decide))
  have hdeliver := hpop.step (.deliver rfl first_runs first_chain)
  exact hdeliver.step (.pop [2] rfl (by decide))

theorem delivered_acknowledged_stale :
    ∃ i, staleChannel.answers[i]? = some true ∧
      (WrittenDuring staleSystem.channel staleChannel i ∨ staleSystem.channel.Outstanding i) :=
  delivered_acknowledged staleSystem staleSystem_reach 300 lDefaultNbMCFG [] [2] secondEvents
    staleChannel second_runs second_chain (by decide)

/-- The second message is dropped on the OK to the second attempt of the first. -/
theorem stale_ok_delivers :
    ¬ ∀ (s : System) (fuel : ℕ) (config : NbModuConfig) (imei msg : List UInt8)
      (events : List Call) (c : Channel), Reach s →
      Runs (sendMessage fuel config imei msg) events 0 → Chain Act s.channel events c →
      ∃ i, c.answers[i]? = some true ∧ WrittenDuring s.channel c i := by
  intro hall
  obtain ⟨i, hok, _, hi, _⟩ := hall staleSystem 300 lDefaultNbMCFG [] [2] secondEvents
    staleChannel staleSystem_reach second_runs second_chain
  obtain ⟨hlt, _⟩ := List.getElem?_eq_some_iff.mp hok
  have hlines : staleSystem.channel.input.lines.length = 2 := rfl
  have hanswers : staleChannel.answers.length = 2 := rfl
  omega

end Stale

end GemhoNbiot.MsgSend
