import Mathlib.Data.List.Basic

/-!
Interrupt-driven transmit: _serial_int_tx of rt_ext/serial.c over stm32_putc and
the TC branch of uart_isr in rt_ext/usart.c and the completion of
rt_ext/completion.c, for one thread that writes to the port. The thread tests
TXE, writes DR and enables the interrupt in separate steps, the USART moves bytes
and sets TC at any time, and the interrupt handler runs between any two steps of
the thread. Whatever the order, no wake-up is lost: the bytes leave once each and
in order, after a number of steps bounded by the length.
-/
namespace GemhoNbiot.SerialTx

/-- Where the writing thread is. `test` with no bytes left is the return. -/
inductive ThreadPc
  | test
  | busy
  | writeDR
  | enable
  | wait
  | suspended
  | resumed
deriving DecidableEq

/-- Where the TC branch of uart_isr is. -/
inductive IsrPc
  | idle
  | done
  | disable
  | clear
deriving DecidableEq

/-- `rest` are the bytes from *data on, `flag` is RT_COMPLETED, and `line` is
what has left the shift register. TXE is set when the data register is free. -/
structure State where
  pc : ThreadPc
  rest : List UInt8
  isr : IsrPc
  dr : Option UInt8
  shift : Option UInt8
  line : List UInt8
  tc : Bool
  tcie : Bool
  flag : Bool

/-- rt_completion_done: nothing on a completed one, else the waiting thread is
made ready. -/
def State.completionDone (s : State) : State :=
  if s.flag then s
  else { s with flag := true, pc := if s.pc = .suspended then .resumed else s.pc }

/-- A step of the thread, of the USART or of the interrupt handler. The thread
stands still in the handler. A write to DR may or may not clear TC, which depends
on what the last read of SR saw. -/
inductive Step (s : State) : State → Prop
  | testBusy (hisr : s.isr = .idle) (hpc : s.pc = .test) (hrest : s.rest ≠ [])
      (hdr : s.dr ≠ none) : Step s { s with pc := .busy }
  | testFree (hisr : s.isr = .idle) (hpc : s.pc = .test) (hrest : s.rest ≠ [])
      (hdr : s.dr = none) : Step s { s with pc := .writeDR }
  | busy (hisr : s.isr = .idle) (hpc : s.pc = .busy) :
      Step s { s with tcie := true, pc := .wait }
  | writeDR {b : UInt8} {rest : List UInt8} {tc : Bool} (hisr : s.isr = .idle)
      (hpc : s.pc = .writeDR) (hrest : s.rest = b :: rest) (htc : tc = true → s.tc = true) :
      Step s { s with dr := some b, rest, tc, pc := .enable }
  | enable (hisr : s.isr = .idle) (hpc : s.pc = .enable) :
      Step s { s with tcie := true, pc := .test }
  | waitDone (hisr : s.isr = .idle) (hpc : s.pc = .wait) (hflag : s.flag = true) :
      Step s { s with flag := false, pc := .test }
  | waitSuspend (hisr : s.isr = .idle) (hpc : s.pc = .wait) (hflag : s.flag = false) :
      Step s { s with pc := .suspended }
  | resume (hisr : s.isr = .idle) (hpc : s.pc = .resumed) :
      Step s { s with flag := false, pc := .test }
  | load {b : UInt8} (hdr : s.dr = some b) (hshift : s.shift = none) :
      Step s { s with shift := some b, dr := none }
  | finish {b : UInt8} (hshift : s.shift = some b) :
      Step s { s with shift := none, line := s.line ++ [b], tc := s.tc || s.dr.isNone }
  | interrupt (hisr : s.isr = .idle) (htc : s.tc = true) (htcie : s.tcie = true) :
      Step s { s with isr := .done }
  | isrDone (hisr : s.isr = .done) : Step s { s.completionDone with isr := .disable }
  | isrDisable (hisr : s.isr = .disable) : Step s { s with tcie := false, isr := .clear }
  | isrClear (hisr : s.isr = .clear) : Step s { s with tc := false, isr := .idle }

/-- `n` steps lead from one state to the other. -/
inductive Steps (s : State) : ℕ → State → Prop
  | refl : Steps s 0 s
  | tail {n : ℕ} {s' s'' : State} : Steps s n s' → Step s' s'' → Steps s (n + 1) s''

/-- A transmission is going on, or its end has not been seen by the handler. -/
def State.Pending (s : State) : Prop := s.tc = true ∨ s.shift ≠ none ∨ s.dr ≠ none

/-- The bytes of the call and those before them, in the order of the line. -/
def State.stream (s : State) : List UInt8 := s.line ++ s.shift.toList ++ s.dr.toList ++ s.rest

/-- What every step keeps. A thread on its way to sleep has a completion to find
or a transmission to end; one that sleeps also has the interrupt enabled. -/
structure Inv (s : State) : Prop where
  free : s.pc = .writeDR → s.dr = none ∧ s.rest ≠ []
  busy : s.pc = .busy → s.flag = true ∨ s.Pending
  wait : s.pc = .wait → s.flag = true ∨ s.tcie = true ∧ s.Pending
  suspended : s.pc = .suspended → s.flag = false ∧ s.tcie = true ∧ s.Pending
  resumed : s.pc = .resumed → s.flag = true
  served : s.isr ≠ .idle → s.tc = true
  completed : s.isr = .disable ∨ s.isr = .clear → s.flag = true

section CompletionDone

variable (s : State)

@[simp] theorem completionDone_flag : s.completionDone.flag = true := by
  unfold State.completionDone
  by_cases hflag : s.flag = true
  · rw [if_pos hflag, hflag]
  · rw [if_neg hflag]

@[simp] theorem completionDone_rest : s.completionDone.rest = s.rest := by
  unfold State.completionDone
  split <;> rfl

@[simp] theorem completionDone_dr : s.completionDone.dr = s.dr := by
  unfold State.completionDone
  split <;> rfl

@[simp] theorem completionDone_shift : s.completionDone.shift = s.shift := by
  unfold State.completionDone
  split <;> rfl

@[simp] theorem completionDone_line : s.completionDone.line = s.line := by
  unfold State.completionDone
  split <;> rfl

@[simp] theorem completionDone_tc : s.completionDone.tc = s.tc := by
  unfold State.completionDone
  split <;> rfl

end CompletionDone

section Invariant

variable {s s' : State}

/-- A thread that waits is always found by the handler. -/
theorem Inv.completionDone_pc (h : Inv s) :
    s.completionDone.pc = if s.pc = .suspended then .resumed else s.pc := by
  unfold State.completionDone
  by_cases hflag : s.flag = true
  · have hpc : s.pc ≠ .suspended := by
      intro hpc
      rw [(h.suspended hpc).1] at hflag
      exact Bool.false_ne_true hflag
    rw [if_pos hflag, if_neg hpc]
  · rw [if_neg hflag]

/-- Where the thread goes on to test TXE, nothing is asked of the interrupt. -/
theorem Inv.of_testing (hpc : s.pc = .test ∨ s.pc = .enable) (hisr : s.isr = .idle) : Inv s := by
  constructor
  case served => exact fun hne => absurd hisr hne
  case completed =>
    rw [hisr]
    rintro (hat | hat) <;> cases hat
  all_goals
    intro hat
    rw [hat] at hpc
    rcases hpc with hpc | hpc <;> cases hpc

theorem Inv.step_thread {pc : ThreadPc} {tcie : Bool} (hisr : s.isr = .idle)
    (hfree : pc = .writeDR → s.dr = none ∧ s.rest ≠ [])
    (hbusy : pc = .busy → s.flag = true ∨ s.Pending)
    (hwait : pc = .wait → s.flag = true ∨ tcie = true ∧ s.Pending)
    (hsuspended : pc = .suspended → s.flag = false ∧ tcie = true ∧ s.Pending)
    (hresumed : pc = .resumed → s.flag = true) : Inv { s with tcie, pc } where
  free := hfree
  busy := hbusy
  wait := hwait
  suspended := hsuspended
  resumed := hresumed
  served := fun hne => absurd hisr hne
  completed := by
    change s.isr = .disable ∨ s.isr = .clear → _
    rw [hisr]
    rintro (hat | hat) <;> cases hat

/-- The USART goes on by itself: a transmission under way stays one, or sets TC. -/
theorem Inv.step_usart (h : Inv s) (hpc : s'.pc = s.pc) (hrest : s'.rest = s.rest)
    (hdr : s.dr = none → s'.dr = none) (hflag : s'.flag = s.flag) (hisr : s'.isr = s.isr)
    (htcie : s'.tcie = s.tcie) (htc : s.tc = true → s'.tc = true) (hpending : s'.Pending) :
    Inv s' where
  free := by
    rw [hpc, hrest]
    exact fun hat => ⟨hdr (h.free hat).1, (h.free hat).2⟩
  busy := fun _ => Or.inr hpending
  wait := by
    rw [hpc, hflag, htcie]
    exact fun hat => (h.wait hat).imp_right fun hset => ⟨hset.1, hpending⟩
  suspended := by
    rw [hpc, hflag, htcie]
    exact fun hat => ⟨(h.suspended hat).1, (h.suspended hat).2.1, hpending⟩
  resumed := by
    rw [hpc, hflag]
    exact h.resumed
  served := by
    rw [hisr]
    exact fun hne => htc (h.served hne)
  completed := by
    rw [hisr, hflag]
    exact h.completed

/-- After rt_completion_done no thread sleeps, and the flag stands for TC. -/
theorem Inv.step_handler (h : Inv s) (hisr : s.isr = .disable ∨ s.isr = .clear)
    {tcie tc : Bool} {isr : IsrPc} (hserved : isr ≠ .idle → tc = true) :
    Inv { s with tcie, tc, isr } where
  free := h.free
  busy := fun _ => Or.inl (h.completed hisr)
  wait := fun _ => Or.inl (h.completed hisr)
  suspended := by
    intro hat
    have hflag := (h.suspended hat).1
    rw [h.completed hisr] at hflag
    cases hflag
  resumed := fun _ => h.completed hisr
  served := hserved
  completed := fun _ => h.completed hisr

theorem Inv.interrupt (h : Inv s) (htc : s.tc = true) : Inv { s with isr := .done } where
  free := h.free
  busy := h.busy
  wait := h.wait
  suspended := h.suspended
  resumed := h.resumed
  served := fun _ => htc
  completed := by rintro (hat | hat) <;> cases hat

theorem Inv.isrDone (h : Inv s) (htc : s.tc = true) :
    Inv { s.completionDone with isr := .disable } where
  free := by
    change s.completionDone.pc = _ → s.completionDone.dr = none ∧ s.completionDone.rest ≠ []
    rw [h.completionDone_pc, completionDone_dr, completionDone_rest]
    intro hat
    by_cases hpc : s.pc = .suspended
    · rw [if_pos hpc] at hat
      cases hat
    · rw [if_neg hpc] at hat
      exact h.free hat
  busy := fun _ => Or.inl (completionDone_flag s)
  wait := fun _ => Or.inl (completionDone_flag s)
  suspended := by
    change s.completionDone.pc = _ → _
    rw [h.completionDone_pc]
    intro hat
    by_cases hpc : s.pc = .suspended
    · rw [if_pos hpc] at hat
      cases hat
    · rw [if_neg hpc] at hat
      exact absurd hat hpc
  resumed := fun _ => completionDone_flag s
  served := fun _ => (completionDone_tc s).trans htc
  completed := fun _ => completionDone_flag s

theorem Inv.step (h : Inv s) (hstep : Step s s') : Inv s' := by
  cases hstep with
  | testBusy hisr _ _ hdr =>
    exact Inv.step_thread hisr nofun (fun _ => Or.inr (Or.inr (Or.inr hdr))) nofun nofun nofun
  | testFree hisr _ hrest hdr =>
    exact Inv.step_thread hisr (fun _ => ⟨hdr, hrest⟩) nofun nofun nofun nofun
  | busy hisr hpc =>
    refine Inv.step_thread hisr nofun nofun (fun _ => ?_) nofun nofun
    exact (h.busy hpc).imp_right fun hpending => ⟨rfl, hpending⟩
  | writeDR hisr => exact Inv.of_testing (Or.inr rfl) hisr
  | enable hisr => exact Inv.of_testing (Or.inl rfl) hisr
  | waitDone hisr => exact Inv.of_testing (Or.inl rfl) hisr
  | waitSuspend hisr hpc hflag =>
    refine Inv.step_thread hisr nofun nofun nofun (fun _ => ?_) nofun
    rcases h.wait hpc with hset | hpending
    · rw [hflag] at hset
      cases hset
    · exact ⟨hflag, hpending⟩
  | resume hisr => exact Inv.of_testing (Or.inl rfl) hisr
  | load hdr hshift =>
    exact h.step_usart rfl rfl (fun _ => rfl) rfl rfl rfl id (Or.inr (Or.inl (by simp)))
  | @finish b hshift =>
    have hpending : State.Pending { s with
        shift := none, line := s.line ++ [b], tc := s.tc || s.dr.isNone } := by
      cases hdr : s.dr with
      | none => exact Or.inl (by simp)
      | some c => exact Or.inr (Or.inr (by simp))
    exact h.step_usart rfl rfl id rfl rfl rfl (fun htc => by simp [htc]) hpending
  | interrupt _ htc _ => exact h.interrupt htc
  | isrDone hisr => exact h.isrDone (h.served (by simp [hisr]))
  | isrDisable hisr =>
    exact h.step_handler (Or.inl hisr) fun _ => h.served (by simp [hisr])
  | isrClear hisr => exact h.step_handler (Or.inr hisr) fun hne => absurd rfl hne

end Invariant

section Progress

variable {s s' : State}

/-- Nothing is under way and the call has returned. -/
structure Finished (s : State) : Prop where
  returned : s.pc = .test ∧ s.rest = []
  idle : s.isr = .idle
  sent : s.dr = none ∧ s.shift = none

/-- No order of the steps ends before all is sent. -/
theorem Inv.progress (h : Inv s) (hstuck : ∀ s', ¬ Step s s') : Finished s := by
  have hshift : s.shift = none := by
    cases hshift : s.shift with
    | none => rfl
    | some b => exact absurd (Step.finish hshift) (hstuck _)
  have hdr : s.dr = none := by
    cases hdr : s.dr with
    | none => rfl
    | some b => exact absurd (Step.load hdr hshift) (hstuck _)
  have hisr : s.isr = .idle := by
    cases hisr : s.isr with
    | idle => rfl
    | done => exact absurd (Step.isrDone hisr) (hstuck _)
    | disable => exact absurd (Step.isrDisable hisr) (hstuck _)
    | clear => exact absurd (Step.isrClear hisr) (hstuck _)
  refine ⟨?_, hisr, hdr, hshift⟩
  cases hpc : s.pc with
  | test =>
    by_cases hrest : s.rest = []
    · exact ⟨rfl, hrest⟩
    · exact absurd (Step.testFree hisr hpc hrest hdr) (hstuck _)
  | busy => exact absurd (Step.busy hisr hpc) (hstuck _)
  | writeDR =>
    obtain ⟨b, rest, hrest⟩ := List.exists_cons_of_ne_nil (h.free hpc).2
    exact absurd (Step.writeDR hisr hpc hrest id) (hstuck _)
  | enable => exact absurd (Step.enable hisr hpc) (hstuck _)
  | wait =>
    cases hflag : s.flag with
    | true => exact absurd (Step.waitDone hisr hpc hflag) (hstuck _)
    | false => exact absurd (Step.waitSuspend hisr hpc hflag) (hstuck _)
  | suspended =>
    -- The transmission has ended, so TC is set and its interrupt enabled.
    obtain ⟨_, htcie, hpending⟩ := h.suspended hpc
    have htc : s.tc = true := by
      rcases hpending with htc | hne | hne
      · exact htc
      · exact absurd hshift hne
      · exact absurd hdr hne
    exact absurd (Step.interrupt hisr htc htcie) (hstuck _)
  | resumed => exact absurd (Step.resume hisr hpc) (hstuck _)

/-- Every step keeps the order of the bytes. -/
theorem Inv.stream_step (h : Inv s) (hstep : Step s s') : s'.stream = s.stream := by
  unfold State.stream
  cases hstep with
  | writeDR _ hpc hrest =>
    have hdr := (h.free hpc).1
    simp [hdr, hrest]
  | load hdr hshift => simp [hdr, hshift]
  | finish hshift => simp [hshift]
  | isrDone => simp
  | _ => rfl

end Progress

section Measure

def ThreadPc.rank : ThreadPc → ℕ
  | .test => 3
  | .busy => 2
  | .writeDR => 2
  | .enable => 4
  | .wait => 1
  | .suspended => 0
  | .resumed => 0

def IsrPc.rank : IsrPc → ℕ
  | .idle => 7
  | .done => 6
  | .disable => 1
  | .clear => 0

/-- How many steps are left at most. A set flag pays for one turn of the loop
that finds it, TC for one run of the handler. -/
def State.fuel (s : State) : ℕ :=
  13 * s.rest.length + 10 * s.dr.toList.length + 9 * s.shift.toList.length + 8 * s.tc.toNat +
    4 * s.flag.toNat + s.pc.rank + s.isr.rank

variable {s s' : State}

theorem Inv.fuel_step (h : Inv s) (hstep : Step s s') : s'.fuel < s.fuel := by
  unfold State.fuel
  cases hstep with
  | testBusy _ hpc => simp [hpc, ThreadPc.rank]
  | testFree _ hpc => simp [hpc, ThreadPc.rank]
  | busy _ hpc => simp [hpc, ThreadPc.rank]
  | @writeDR b rest tc _ hpc hrest htc =>
    have hle : tc.toNat ≤ s.tc.toNat := by
      cases tc with
      | false => exact Nat.zero_le _
      | true => exact Nat.le_of_eq (congrArg Bool.toNat (htc rfl).symm)
    simp [hpc, hrest, (h.free hpc).1, ThreadPc.rank]
    omega
  | enable _ hpc => simp [hpc, ThreadPc.rank]
  | waitDone _ hpc hflag => simp [hpc, hflag, ThreadPc.rank]
  | waitSuspend _ hpc => simp [hpc, ThreadPc.rank]
  | resume _ hpc => simp [hpc, h.resumed hpc, ThreadPc.rank]
  | load hdr hshift => simp [hdr, hshift]
  | finish hshift =>
    have hle := Bool.toNat_le (s.tc || s.dr.isNone)
    simp [hshift]
    omega
  | interrupt hisr => simp [hisr, IsrPc.rank]
  | isrDone hisr =>
    have hpc : s.completionDone.pc.rank = s.pc.rank := by
      rw [h.completionDone_pc]
      by_cases hpc : s.pc = .suspended
      · rw [if_pos hpc, hpc]
        rfl
      · rw [if_neg hpc]
    simp [hisr, hpc, IsrPc.rank]
    omega
  | isrDisable hisr => simp [hisr, IsrPc.rank]
  | isrClear hisr =>
    have htc := h.served (by simp [hisr])
    simp [hisr, htc, IsrPc.rank]
    omega

end Measure

section Calls

variable {s s' : State} {n : ℕ}

/-- _serial_int_tx is entered outside the handler. What an earlier call has left
in the USART, in its flags and in the completion may be anything. -/
structure Entered (s : State) : Prop where
  pc : s.pc = .test
  isr : s.isr = .idle

theorem Steps.keep (h : Steps s n s') (hs : Inv s) :
    Inv s' ∧ s'.stream = s.stream ∧ s'.fuel + n ≤ s.fuel := by
  induction h with
  | refl => exact ⟨hs, rfl, Nat.le_refl _⟩
  | tail _ hstep ih =>
    obtain ⟨hinv, hstream, hfuel⟩ := ih
    have hless := hinv.fuel_step hstep
    exact ⟨hinv.step hstep, (hinv.stream_step hstep).trans hstream, by omega⟩

theorem Entered.fuel_le (h : Entered s) : s.fuel ≤ 13 * s.rest.length + 41 := by
  have htc := Bool.toNat_le s.tc
  have hflag := Bool.toNat_le s.flag
  have hdr : s.dr.toList.length ≤ 1 := by cases s.dr <;> simp
  have hshift : s.shift.toList.length ≤ 1 := by cases s.shift <;> simp
  unfold State.fuel
  rw [h.pc, h.isr, ThreadPc.rank, IsrPc.rank]
  omega

/-- In every order of the steps of thread, USART and handler a write ends, within
a bound that its length gives, and then each of its bytes has left once, in order
and behind those of the calls before it. -/
theorem serialIntTx_delivers (s : State) (hs : Entered s) :
    (∀ n s', Steps s n s' → n ≤ 13 * s.rest.length + 41) ∧
      ∀ n s', Steps s n s' → (∀ s'', ¬ Step s' s'') →
        Finished s' ∧ s'.line = s.line ++ s.shift.toList ++ s.dr.toList ++ s.rest := by
  have hinv := Inv.of_testing (Or.inl hs.pc) hs.isr
  constructor
  · intro n s' hsteps
    have hfuel := (hsteps.keep hinv).2.2
    have hbound := hs.fuel_le
    omega
  · intro n s' hsteps hstuck
    obtain ⟨hinv', hstream, _⟩ := hsteps.keep hinv
    have hend := hinv'.progress hstuck
    refine ⟨hend, ?_⟩
    simpa [State.stream, hend.sent, hend.returned] using hstream

/-- A call that finds a byte of the one before it still in the shift register. -/
def twoBytes : State := ⟨.test, [0x31, 0x32], .idle, none, some 0x30, [], false, false, false⟩

theorem serialIntTx_delivers_two :
    (∀ n s', Steps twoBytes n s' → n ≤ 67) ∧
      ∀ n s', Steps twoBytes n s' → (∀ s'', ¬ Step s' s'') →
        Finished s' ∧ s'.line = [0x30, 0x31, 0x32] :=
  serialIntTx_delivers twoBytes ⟨rfl, rfl⟩

/-- When the call returns, all but the last two bytes have left. -/
theorem serialIntTx_returns (s s' : State) (n : ℕ) (hs : Entered s) (h : Steps s n s')
    (hret : s'.pc = .test ∧ s'.rest = []) :
    s'.line ++ s'.shift.toList ++ s'.dr.toList =
      s.line ++ s.shift.toList ++ s.dr.toList ++ s.rest := by
  have hinv := Inv.of_testing (Or.inl hs.pc) hs.isr
  have hstream := (h.keep hinv).2.1
  simpa [State.stream, hret] using hstream

/-- A call with one byte while the byte before it is still in the shift register. -/
def oneByte : State := ⟨.test, [0x31], .idle, none, some 0x30, [], false, false, false⟩

theorem serialIntTx_returns_one :
    ∃ s', Steps oneByte 3 s' ∧ s'.line ++ s'.shift.toList ++ s'.dr.toList = [0x30, 0x31] := by
  have htest : Step oneByte { oneByte with pc := .writeDR } :=
    .testFree rfl rfl (List.cons_ne_nil _ _) rfl
  have hwrite : Step { oneByte with pc := .writeDR }
      { oneByte with dr := some 0x31, rest := [], pc := .enable } :=
    .writeDR rfl rfl rfl id
  have henable : Step { oneByte with dr := some 0x31, rest := [], pc := .enable }
      { oneByte with dr := some 0x31, rest := [], tcie := true } :=
    .enable rfl rfl
  have hsteps := ((Steps.refl.tail htest).tail hwrite).tail henable
  exact ⟨_, hsteps, serialIntTx_returns oneByte _ 3 ⟨rfl, rfl⟩ hsteps ⟨rfl, rfl⟩⟩

end Calls

end GemhoNbiot.SerialTx
