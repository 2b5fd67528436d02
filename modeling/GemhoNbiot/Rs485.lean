import GemhoNbiot.ConfigUtils
import GemhoNbiot.SerialTx

/-!
usart_write on the RS485 port: the pin that turns the transceiver to sending is set,
the bytes go through _serial_int_tx, and two ticks after its return the pin is reset.
At the return the last two bytes are still on their way, so the two ticks must be the
time of two characters at least. Of the baud rates that the set commands accept this
holds for the upper two and fails for the lower two. One thread writes at a time.
-/
namespace GemhoNbiot.Rs485

open ConfigUtils SerialTx

/-- Where usart_write is, and since when it is in rt_thread_delay. -/
inductive Phase
  | idle
  | writing
  | delaying (since : ℕ)

/-- `ends` is when the byte in the shift register has left. -/
structure State where
  uart : SerialTx.State
  phase : Phase
  pin : Bool
  now : ℕ
  ends : ℕ

/-- A character takes the time `T`, the delay at least `wait`. No time passes while a
byte is due to move on. -/
inductive Step (T wait : ℕ) (s : State) : State → Prop
  | call (data : List UInt8) (hphase : s.phase = .idle) (hisr : s.uart.isr = .idle) :
      Step T wait s { s with uart := { s.uart with rest := data }, phase := .writing, pin := true }
  | work {u : SerialTx.State} (hstep : SerialTx.Step s.uart u) (hshift : u.shift = s.uart.shift) :
      Step T wait s { s with uart := u }
  | load {u : SerialTx.State} (hstep : SerialTx.Step s.uart u) (hfree : s.uart.shift = none)
      (hshift : u.shift ≠ none) : Step T wait s { s with uart := u, ends := s.now + T }
  | finish {u : SerialTx.State} (hstep : SerialTx.Step s.uart u) (hbusy : s.uart.shift ≠ none)
      (hshift : u.shift = none) (hends : s.ends ≤ s.now) : Step T wait s { s with uart := u }
  | pass (hload : s.uart.shift = none → s.uart.dr = none)
      (hfinish : s.uart.shift ≠ none → s.now < s.ends) : Step T wait s { s with now := s.now + 1 }
  | written (hphase : s.phase = .writing) (hpc : s.uart.pc = .test) (hrest : s.uart.rest = [])
      (hisr : s.uart.isr = .idle) : Step T wait s { s with phase := .delaying s.now }
  | release {since : ℕ} (hphase : s.phase = .delaying since) (hwait : since + wait ≤ s.now)
      (hisr : s.uart.isr = .idle) : Step T wait s { s with phase := .idle, pin := false }

/-- The port after usart_init: nothing is being sent. -/
inductive Reach (T wait : ℕ) : State → Prop
  | start {u : SerialTx.State} : Entered u → u.rest = [] → u.dr = none → u.shift = none →
      Reach T wait ⟨u, .idle, false, 0, 0⟩
  | step {s s' : State} : Reach T wait s → Step T wait s s' → Reach T wait s'

/-- Every bit of every byte handed over has left. -/
def State.Quiet (s : State) : Prop :=
  s.uart.dr = none ∧ (s.uart.shift ≠ none → s.ends ≤ s.now)

/-- When the last byte has left. -/
def State.due (T : ℕ) (s : State) : ℕ :=
  (if s.uart.shift = none then s.now else s.ends) + if s.uart.dr = none then 0 else T

section Transmitter

variable {u u' : SerialTx.State}

/-- Outside a call only the handler and the USART are at work. -/
theorem step_of_returned (hstep : SerialTx.Step u u') (hpc : u.pc = .test) (hrest : u.rest = []) :
    u'.pc = .test ∧ u'.rest = [] ∧ (u'.shift = u.shift → u'.dr = u.dr) := by
  cases hstep with
  | testBusy _ _ hne => exact absurd hrest hne
  | testFree _ _ hne => exact absurd hrest hne
  | busy _ hat => rw [hpc] at hat; cases hat
  | writeDR _ hat => rw [hpc] at hat; cases hat
  | enable _ hat => rw [hpc] at hat; cases hat
  | waitDone _ hat => rw [hpc] at hat; cases hat
  | waitSuspend _ hat => rw [hpc] at hat; cases hat
  | resume _ hat => rw [hpc] at hat; cases hat
  | load _ hshift =>
    refine ⟨hpc, hrest, fun heq => ?_⟩
    rw [hshift] at heq
    cases heq
  | finish => exact ⟨hpc, hrest, fun _ => rfl⟩
  | interrupt => exact ⟨hpc, hrest, fun _ => rfl⟩
  | isrDone =>
    refine ⟨?_, (completionDone_rest u).trans hrest, fun _ => completionDone_dr u⟩
    change u.completionDone.pc = _
    unfold SerialTx.State.completionDone
    split
    · exact hpc
    · change (if u.pc = .suspended then _ else u.pc) = _
      rw [hpc]
      rfl
  | isrDisable => exact ⟨hpc, hrest, fun _ => rfl⟩
  | isrClear => exact ⟨hpc, hrest, fun _ => rfl⟩

theorem dr_of_load (hstep : SerialTx.Step u u') (hfree : u.shift = none)
    (hshift : u'.shift ≠ none) :
    u.dr ≠ none ∧ u'.dr = none := by
  cases hstep with
  | load hdr _ => exact ⟨hdr ▸ Option.some_ne_none _, rfl⟩
  | finish => exact absurd rfl hshift
  | isrDone => exact absurd ((completionDone_shift u).trans hfree) hshift
  | _ => exact absurd hfree hshift

theorem dr_of_finish (hstep : SerialTx.Step u u') (hbusy : u.shift ≠ none)
    (hshift : u'.shift = none) : u'.dr = u.dr := by
  cases hstep with
  | load _ hfree => exact absurd hfree hbusy
  | finish => rfl
  | isrDone => exact completionDone_dr u
  | _ => exact absurd hshift hbusy

end Transmitter

section Invariant

variable {T wait : ℕ} {s s' : State}

/-- Outside a call _serial_int_tx has returned. The byte in the shift register has
at most the time of a character to go, and in the delay all leaves within two. -/
structure Inv (T : ℕ) (s : State) : Prop where
  returned : s.phase ≠ .writing → s.uart.pc = .test ∧ s.uart.rest = []
  shifting : s.uart.shift ≠ none → s.now ≤ s.ends ∧ s.ends ≤ s.now + T
  delaying : ∀ since, s.phase = .delaying since → s.Quiet ∨ s.due T ≤ since + 2 * T
  pin : s.pin = false → s.phase = .idle
  quiet : s.phase = .idle → s.Quiet

theorem State.Quiet.congr (h : s.Quiet) (hdr : s'.uart.dr = s.uart.dr)
    (hshift : s'.uart.shift = s.uart.shift) (hends : s'.ends = s.ends) (hnow : s.now ≤ s'.now) :
    s'.Quiet := by
  refine ⟨hdr.trans h.1, fun hne => ?_⟩
  rw [hshift] at hne
  rw [hends]
  exact (h.2 hne).trans hnow

/-- A step of the handler or of the USART outside a call. -/
theorem Inv.uart_step (h : Inv T s) {u : SerialTx.State} {ends : ℕ}
    (hstep : SerialTx.Step s.uart u)
    (hshifting : u.shift ≠ none → s.now ≤ ends ∧ ends ≤ s.now + T)
    (hquiet : s.phase ≠ .writing → s.Quiet → State.Quiet { s with uart := u, ends })
    (hdue : s.phase ≠ .writing → ¬ s.Quiet → State.due T { s with uart := u, ends } ≤ s.due T) :
    Inv T { s with uart := u, ends } where
  returned := by
    intro hphase
    obtain ⟨hpc, hrest⟩ := h.returned hphase
    obtain ⟨hpc', hrest', _⟩ := step_of_returned hstep hpc hrest
    exact ⟨hpc', hrest'⟩
  shifting := hshifting
  delaying := by
    intro since hphase
    have hne : s.phase ≠ .writing := by
      rw [hphase]
      exact Phase.noConfusion
    by_cases hq : s.Quiet
    · exact Or.inl (hquiet hne hq)
    · exact Or.inr ((hdue hne hq).trans ((h.delaying since hphase).resolve_left hq))
  pin := h.pin
  quiet := by
    intro hphase
    have hne : s.phase ≠ .writing := by
      rw [hphase]
      exact Phase.noConfusion
    exact hquiet hne (h.quiet hphase)

theorem Inv.step (h : Inv T s) (hT : 0 < T) (hwait : 2 * T ≤ wait) (hstep : Step T wait s s') :
    Inv T s' := by
  cases hstep with
  | call data hphase hisr =>
    exact ⟨fun hne => absurd rfl hne, h.shifting, nofun, nofun, nofun⟩
  | @work u hstep hshift =>
    have hdr : s.phase ≠ .writing → u.dr = s.uart.dr := by
      intro hphase
      obtain ⟨hpc, hrest⟩ := h.returned hphase
      exact (step_of_returned hstep hpc hrest).2.2 hshift
    refine h.uart_step hstep ?_ (fun hne hq => hq.congr (hdr hne) hshift rfl (Nat.le_refl _))
      fun hne _ => ?_
    · rw [hshift]
      exact h.shifting
    · simp only [State.due, hdr hne, hshift]
      exact Nat.le_refl _
  | @load u hstep hfree hshift =>
    obtain ⟨hdr, hdr'⟩ := dr_of_load hstep hfree hshift
    refine h.uart_step hstep (fun _ => ⟨Nat.le_add_right _ _, Nat.le_refl _⟩)
      (fun _ hq => absurd hq.1 hdr) fun _ _ => ?_
    simp only [State.due, hfree, hdr, hdr', hshift, if_true, if_false]
    exact Nat.le_refl _
  | @finish u hstep hbusy hshift hends =>
    have hdr := dr_of_finish hstep hbusy hshift
    refine h.uart_step hstep (fun hne => absurd hshift hne) (fun _ hq => ?_) fun _ _ => ?_
    · exact ⟨hdr.trans hq.1, fun hne => absurd hshift hne⟩
    · have hle := (h.shifting hbusy).1
      simp only [State.due, hdr, hshift, hbusy, if_true, if_false]
      omega
  | pass hload hfinish =>
    refine ⟨h.returned, fun hne => ?_, fun since hphase => ?_, h.pin, fun hphase => ?_⟩
    · have hlt := hfinish hne
      have hle := (h.shifting hne).2
      exact ⟨hlt, by dsimp only; omega⟩
    · by_cases hfree : s.uart.shift = none
      · exact Or.inl ⟨hload hfree, fun hne => absurd hfree hne⟩
      · rcases h.delaying since hphase with hq | hdue
        · exact Or.inl (hq.congr rfl rfl rfl (Nat.le_succ _))
        · refine Or.inr ?_
          simp only [State.due, hfree, if_false] at hdue ⊢
          exact hdue
    · exact (h.quiet hphase).congr rfl rfl rfl (Nat.le_succ _)
  | written hphase hpc hrest hisr =>
    refine ⟨fun _ => ⟨hpc, hrest⟩, h.shifting, fun since heq => Or.inr ?_, fun hpin => ?_, nofun⟩
    · obtain rfl : s.now = since := by injection heq
      simp only [State.due]
      by_cases hfree : s.uart.shift = none
      · rw [if_pos hfree]
        split <;> omega
      · have hle := (h.shifting hfree).2
        rw [if_neg hfree]
        split <;> omega
    · have hidle := h.pin hpin
      rw [hphase] at hidle
      cases hidle
  | @release since hphase hsince hisr =>
    have hquiet : s.Quiet := by
      rcases h.delaying since hphase with hq | hdue
      · exact hq
      · simp only [State.due] at hdue
        have hdr : s.uart.dr = none := by
          by_contra hdr
          rw [if_neg hdr] at hdue
          by_cases hfree : s.uart.shift = none
          · rw [if_pos hfree] at hdue
            omega
          · have hle := (h.shifting hfree).1
            rw [if_neg hfree] at hdue
            omega
        refine ⟨hdr, fun hbusy => ?_⟩
        rw [if_neg hbusy] at hdue
        omega
    have hne : s.phase ≠ .writing := by
      rw [hphase]
      exact Phase.noConfusion
    exact ⟨fun _ => h.returned hne, h.shifting, nofun, fun _ => rfl, fun _ => hquiet⟩

theorem Reach.inv (h : Reach T wait s) (hT : 0 < T) (hwait : 2 * T ≤ wait) : Inv T s := by
  induction h with
  | @start u hentered hrest hdr hshift =>
    have hquiet : State.Quiet ⟨u, .idle, false, 0, 0⟩ := ⟨hdr, fun hne => absurd hshift hne⟩
    exact ⟨fun _ => ⟨hentered.pc, hrest⟩, fun hne => absurd hshift hne, nofun, fun _ => rfl,
      fun _ => hquiet⟩
  | step _ hstep ih => exact ih.step hT hwait hstep

end Invariant

section Shortfall

variable {T wait : ℕ} {s : State}

/-- Time passes until the byte in the shift register has left. -/
theorem Reach.pass (h : Reach T wait s) (hbusy : s.uart.shift ≠ none) (k : ℕ)
    (hk : s.now + k ≤ s.ends) : Reach T wait { s with now := s.now + k } := by
  induction k with
  | zero => exact h
  | succ k ih =>
    refine (ih (by omega)).step (.pass (fun hfree => absurd hfree hbusy) fun _ => ?_)
    change s.now + k < s.ends
    omega

/-- Two bytes have been handed over, the first is in the shift register. -/
def returned (T : ℕ) : State where
  uart := ⟨.test, [], .idle, some 0x32, some 0x31, [], false, true, false⟩
  phase := .delaying 0
  pin := true
  now := 0
  ends := T

theorem returned_reach (T wait : ℕ) : Reach T wait (returned T) := by
  have hstart : Reach T wait ⟨⟨.test, [], .idle, none, none, [], false, false, false⟩, .idle,
    false, 0, 0⟩ := .start ⟨rfl, rfl⟩ rfl rfl rfl
  have hcall := hstart.step (.call [0x31, 0x32] rfl rfl)
  have htest := hcall.step (.work (.testFree rfl rfl (List.cons_ne_nil _ _) rfl) rfl)
  have hwrite := htest.step (.work (.writeDR rfl rfl rfl id) rfl)
  have hload := hwrite.step (.load (.load rfl rfl) rfl (Option.some_ne_none _))
  have henable := hload.step (.work (.enable rfl rfl) rfl)
  have htest' := henable.step (.work (.testFree rfl rfl (List.cons_ne_nil _ _) rfl) rfl)
  have hwrite' := htest'.step (.work (.writeDR rfl rfl rfl id) rfl)
  have henable' := hwrite'.step (.work (.enable rfl rfl) rfl)
  have hwritten := henable'.step (.written rfl rfl rfl rfl)
  have hends : returned T = { returned T with ends := 0 + T } := by
    rw [Nat.zero_add]
    rfl
  rw [hends]
  exact hwritten

/-- With less time the pin is reset while the second byte is being sent. -/
theorem exists_cut (hshort : wait < 2 * T) :
    ∃ s, Reach T wait s ∧ s.pin = false ∧ ¬ s.Quiet := by
  have hreturned := returned_reach T wait
  by_cases hfirst : wait ≤ T
  · have hpass := hreturned.pass (Option.some_ne_none _) wait (by simpa [returned] using hfirst)
    have hrelease := hpass.step (.release rfl (by simp [returned]) rfl)
    refine ⟨_, hrelease, rfl, fun hq => ?_⟩
    exact absurd hq.1 (Option.some_ne_none _)
  · have hpass := hreturned.pass (Option.some_ne_none _) T (by simp [returned])
    have hfinish := hpass.step
      (.finish (.finish rfl) (Option.some_ne_none _) rfl (by simp [returned]))
    have hload := hfinish.step (.load (.load rfl rfl) rfl (Option.some_ne_none _))
    have hwait := hload.pass (Option.some_ne_none _) (wait - T) (by simp [returned]; omega)
    have hrelease := hwait.step (.release rfl (by simp [returned]; omega) rfl)
    refine ⟨_, hrelease, rfl, fun hq => ?_⟩
    have hends := hq.2 (Option.some_ne_none _)
    simp only [returned] at hends
    omega

/-- The pin covers every byte in every run if the delay is two characters long, and
not otherwise. -/
theorem covered_iff (hT : 0 < T) :
    (∀ s, Reach T wait s → s.pin = false → s.Quiet) ↔ 2 * T ≤ wait := by
  constructor
  · intro hall
    by_contra hshort
    obtain ⟨s, hreach, hpin, hcut⟩ := exists_cut (Nat.lt_of_not_le hshort)
    exact hcut (hall s hreach hpin)
  · intro hwait s hreach hpin
    have hinv := hreach.inv hT hwait
    exact hinv.quiet (hinv.pin hpin)

end Shortfall

section Configured

/-- The bits of a character as usart_configure sets them: a start bit, the word, which
has a ninth bit for the parity, and the stop bits. -/
def frameBits (stopbig parity : UInt8) : ℕ :=
  let stopBits := if stopbig = 2 then 2 else 1
  let wordLength := if parity = 1 ∨ parity = 2 then 9 else 8
  1 + wordLength + stopBits

/-- The time of a character, where a tick of the system is `baudrate` long. -/
def charTime (config : NbModuConfig) : ℕ := 1000 * frameBits config.stopbit config.parity

theorem frameBits_bounds (stopbig parity : UInt8) :
    10 ≤ frameBits stopbig parity ∧ frameBits stopbig parity ≤ 12 := by
  unfold frameBits
  dsimp only
  split <;> split <;> decide

/-- A delay of two ticks is one to two ticks long. Of the configurations that the set
commands can leave, those with 57600 or 115200 baud never lose the end of a write on
the RS485 line; each of the others does in some run. -/
theorem rs485_covered (config : NbModuConfig) (hvalid : config.Valid) (wait : ℕ)
    (hmin : config.baudrate.toNat ≤ wait) (hmax : wait ≤ 2 * config.baudrate.toNat) :
    (∀ s, Reach (charTime config) wait s → s.pin = false → s.Quiet) ↔
      57600 ≤ config.baudrate.toNat := by
  obtain ⟨hlow, hhigh⟩ := frameBits_bounds config.stopbit config.parity
  have hchar : charTime config = 1000 * frameBits config.stopbit config.parity := rfl
  rw [covered_iff (by omega)]
  have hbaud : config.baudrate.toNat = 4800 ∨ config.baudrate.toNat = 9600 ∨
      config.baudrate.toNat = 57600 ∨ config.baudrate.toNat = 115200 := by
    have hmem := hvalid.1
    simp only [List.mem_cons, List.not_mem_nil, or_false] at hmem
    rcases hmem with heq | heq | heq | heq
    · exact Or.inl (congrArg UInt32.toNat heq)
    · exact Or.inr (Or.inl (congrArg UInt32.toNat heq))
    · exact Or.inr (Or.inr (Or.inl (congrArg UInt32.toNat heq)))
    · exact Or.inr (Or.inr (Or.inr (congrArg UInt32.toNat heq)))
  omega

/-- With the default configuration nothing is lost, at 9600 baud something can be. -/
theorem rs485_covered_default :
    (∀ s, Reach 10000 115200 s → s.pin = false → s.Quiet) ∧
      ¬ ∀ s, Reach 10000 19200 s → s.pin = false → s.Quiet := by
  have hdefault := rs485_covered lDefaultNbMCFG (by decide) 115200 (by decide) (by decide)
  have hslow := rs485_covered { lDefaultNbMCFG with baudrate := 9600 } (by decide) 19200 (by decide)
    (by decide)
  exact ⟨hdefault.mpr (by decide), fun hall => absurd (hslow.mp hall) (by decide)⟩

end Configured

end GemhoNbiot.Rs485
