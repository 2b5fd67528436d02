import GemhoNbiot.Eeprom

/-!
SEE_i2c_write with sEETimeout as what it is, one 32-bit global that every loop
of the driver counts down, and the bus as two threads of the program share it.
A call of the peripheral library is one step, a decrement of sEETimeout is two.
Alone, the driver is the one of I2cBus, whose loops have bounds of their own. A
save that finds the bus within a transfer gives up in its first loop, with
nothing sent.
-/
namespace GemhoNbiot.SharedDriver

open Program TraceLogic I2cBus ConfigUtils Eeprom

/-- What the driver does: calls that reach the peripheral, and the accesses to
the global sEETimeout. -/
inductive Access
  | bus (op : Op)
  | loadTimeout
  | storeTimeout (sEETimeout : UInt32)

abbrev Access.Res : Access → Type
  | .bus op => op.Res
  | .loadTimeout => UInt32
  | .storeTimeout _ => Unit

abbrev Driver := Prog Access Access.Res

abbrev Accesses := List (Event Access Access.Res)

def bus (op : Op) : Driver op.Res := Prog.perform (Access.bus op)

def setTimeout (sEETimeout : ℕ) : Driver Unit :=
  Prog.perform (Access.storeTimeout (UInt32.ofNat sEETimeout))

/-- (sEETimeout--) == 0 -/
def countDown : Driver Bool := do
  let sEETimeout ← Prog.perform Access.loadTimeout
  Prog.perform (Access.storeTimeout (sEETimeout - 1))
  return sEETimeout == 0

section Driver

variable (turns : ℕ)

/-- A polling loop: did it see what it waits for? The bound on the turns that are
followed is not in the code. -/
def wait (op : Op) (seen : op.Res → Bool) : ℕ → Driver Bool
  | 0 => .hang
  | turns + 1 => do
    let r ← bus op
    if seen r then
      pure true
    else
      let zero ← countDown
      if zero then
        pure false
      else
        wait op seen turns

def waitWhileBusy : Driver Bool := wait (.getFlagStatus .busy) (fun busy => !busy) turns
def waitEvent (event : I2cEvent) : Driver Bool := wait (.checkEvent event) id turns

/-- The do-while over SR1, which tests the timeout before the bits. -/
def waitAddressed : ℕ → Driver (Option StatusRegister)
  | 0 => .hang
  | turns + 1 => do
    let tmpSR1 ← bus .readSR1
    let zero ← countDown
    if zero then
      pure none
    else if tmpSR1.addr || tmpSR1.af then
      pure (some tmpSR1)
    else
      waitAddressed turns

def standbyTrial (again : Driver ℕ) : Driver ℕ := do
  bus .generateStart
  setTimeout sEE_FLAG_TIMEOUT
  let seen ← waitEvent turns .masterModeSelect
  if !seen then
    return sEE_TIMEOUT_UserCallback
  bus (.send7bitAddress deviceAddress.toUInt8 .transmitter)
  setTimeout sEE_LONG_TIMEOUT
  let answer ← waitAddressed turns
  match answer with
  | none => return sEE_TIMEOUT_UserCallback
  | some tmpSR1 =>
    if tmpSR1.addr then
      bus .readSR2
      bus .generateStop
      return sEE_OK
    bus .clearFlagAF
    again

def standbyTrials : ℕ → Driver ℕ
  | 0 => standbyTrial turns (pure sEE_TIMEOUT_UserCallback)
  | trials + 1 => standbyTrial turns (standbyTrials trials)

def sEEWaitEepromStandbyState : Driver ℕ := do
  setTimeout sEE_LONG_TIMEOUT
  let idle ← waitWhileBusy turns
  if !idle then
    return sEE_TIMEOUT_UserCallback
  standbyTrials turns sEE_MAX_TRIALS_NUMBER

def seeI2cWrite (wData : UInt8) (writeAddr : UInt16) : Driver ℕ := do
  let ret ← sEEWaitEepromStandbyState turns
  if ret ≠ sEE_OK then
    return sEE_FAIL
  setTimeout sEE_LONG_TIMEOUT
  let idle ← waitWhileBusy turns
  if !idle then
    return sEE_TIMEOUT_UserCallback
  bus .generateStart
  setTimeout sEE_FLAG_TIMEOUT
  let seen ← waitEvent turns .masterModeSelect
  if !seen then
    return sEE_TIMEOUT_UserCallback
  setTimeout sEE_FLAG_TIMEOUT
  bus (.send7bitAddress deviceAddress.toUInt8 .transmitter)
  setTimeout sEE_FLAG_TIMEOUT
  let seen ← waitEvent turns .masterTransmitterModeSelected
  if !seen then
    return sEE_TIMEOUT_UserCallback
  bus (.sendData writeAddr.toUInt8)
  setTimeout sEE_FLAG_TIMEOUT
  let seen ← waitEvent turns .masterByteTransmitted
  if !seen then
    return sEE_TIMEOUT_UserCallback
  bus (.sendData wData)
  setTimeout sEE_FLAG_TIMEOUT
  let seen ← waitEvent turns .masterByteTransmitted
  if !seen then
    return sEE_TIMEOUT_UserCallback
  bus .generateStop
  return sEE_OK

/-- The write loop of save_config over the bytes still to be written. -/
def writeLoop : List (ℕ × UInt8) → Driver ℕ
  | [] => pure 0
  | w :: ws => do
    let ret ← seeI2cWrite turns w.2 (UInt16.ofNat w.1)
    if ret ≠ 0 then
      return ret
    writeLoop ws

def saveConfig (c : NbModuConfig) : Driver ℕ := writeLoop turns (recordWrites c)

end Driver

/-- The EEPROM, whether the bus is in a transfer, and the global of the driver. -/
structure State where
  chip : Chip
  held : Bool
  sEETimeout : UInt32

/-- EV5 says that the START is on the bus. -/
def heldAfter (held : Bool) : Call → Bool
  | ⟨.checkEvent .masterModeSelect, seen⟩ => held || seen
  | ⟨.generateStop, _⟩ => false
  | _ => held

def NotBusy : Call → Prop
  | ⟨.getFlagStatus .busy, busy⟩ => busy = false
  | _ => False

/-- The peripheral reports BUSY from EV5 to the STOP. -/
inductive Step (s : State) : Event Access Access.Res → State → Prop
  | bus {op : Op} {r : op.Res} {chip : Chip} (h : Eeprom.Step s.chip ⟨op, r⟩ chip)
      (hbusy : s.held = true → ¬ NotBusy ⟨op, r⟩) :
      Step s ⟨.bus op, r⟩ { s with chip := chip, held := heldAfter s.held ⟨op, r⟩ }
  | load : Step s ⟨.loadTimeout, s.sEETimeout⟩ s
  | store {sEETimeout : UInt32} :
      Step s ⟨.storeTimeout sEETimeout, ()⟩ { s with sEETimeout := sEETimeout }

theorem step_bus {s s' : State} {op : Op} {r : op.Res} (h : Step s ⟨.bus op, r⟩ s') :
    ∃ chip, Eeprom.Step s.chip ⟨op, r⟩ chip ∧ (s.held = true → ¬ NotBusy ⟨op, r⟩) ∧
      s' = { s with chip := chip, held := heldAfter s.held ⟨op, r⟩ } := by
  cases h with
  | bus hchip hbusy => exact ⟨_, hchip, hbusy, rfl⟩

theorem step_load {s s' : State} {sEETimeout : UInt32}
    (h : Step s ⟨.loadTimeout, sEETimeout⟩ s') : sEETimeout = s.sEETimeout ∧ s' = s := by
  cases h
  exact ⟨rfl, rfl⟩

theorem step_store {s s' : State} {sEETimeout : UInt32} {r : Unit}
    (h : Step s ⟨.storeTimeout sEETimeout, r⟩ s') :
    s' = { s with sEETimeout := sEETimeout } := by
  cases h
  rfl

theorem run_countDown {α : Type} {p : Bool → Driver α} {accesses : Accesses} {a : α}
    (hrun : Runs (countDown >>= p) accesses a) :
    ∃ value rest, accesses = ⟨.loadTimeout, value⟩ :: ⟨.storeTimeout (value - 1), ()⟩ :: rest ∧
      Runs (p (value == 0)) rest a := by
  obtain ⟨first, rest, zero, rfl, hfirst, hrest⟩ := (runs_bind _ _ _ _).mp hrun
  obtain ⟨value, tail, rfl, htail⟩ := (runs_perform_bind _ _ _ _).mp hfirst
  obtain ⟨u, last, rfl, hlast⟩ := (runs_perform_bind _ _ _ _).mp htail
  obtain ⟨rfl, rfl⟩ := (runs_pure _ _ _).mp hlast
  exact ⟨value, rest, rfl, hrest⟩

/-- One decrement, when nobody comes between the load and the store. -/
theorem chain_countDown {s s' : State} {value next : UInt32} {rest : Accesses}
    (h : Chain Step s (⟨.loadTimeout, value⟩ :: ⟨.storeTimeout next, ()⟩ :: rest) s') :
    value = s.sEETimeout ∧ Chain Step { s with sEETimeout := next } rest s' := by
  obtain ⟨s₁, hload, hchain⟩ := chain_cons.mp h
  obtain ⟨s₂, hstore, hchain⟩ := chain_cons.mp hchain
  obtain ⟨rfl, rfl⟩ := step_load hload
  obtain rfl := step_store hstore
  exact ⟨rfl, hchain⟩

section Alone

variable {α : Type}

/-- What of the accesses reaches the peripheral. -/
def busCalls (accesses : Accesses) : List Call :=
  accesses.filterMap fun access =>
    match access with
    | ⟨.bus op, r⟩ => some ⟨op, r⟩
    | _ => none

theorem chain_busCalls {s s' : State} {accesses : Accesses} (h : Chain Step s accesses s') :
    Chain Eeprom.Step s.chip (busCalls accesses) s'.chip := by
  induction h with
  | nil s => exact .nil s.chip
  | cons hstep _ ih =>
    cases hstep with
    | bus hchip => exact .cons hchip ih
    | load => exact ih
    | store => exact ih

/-- Without anybody else, the calls of `p` are those of a run of `q`. -/
def Refines (p : Driver α) (q : I2c α) : Prop :=
  ∀ accesses a s s', Runs p accesses a → Chain Step s accesses s' → Runs q (busCalls accesses) a

theorem refines_pure (a : α) : Refines (pure a) (pure a) := by
  intro accesses b s s' hrun _
  obtain ⟨rfl, rfl⟩ := (runs_pure _ _ _).mp hrun
  exact .ret _

theorem refines_bind {β : Type} {p : Driver β} {q : I2c β} {f : β → Driver α} {g : β → I2c α}
    (hp : Refines p q) (hf : ∀ b, Refines (f b) (g b)) : Refines (p >>= f) (q >>= g) := by
  intro accesses a s s' hrun hchain
  obtain ⟨first, rest, b, rfl, hfirst, hrest⟩ := (runs_bind _ _ _ _).mp hrun
  obtain ⟨s₁, hhead, htail⟩ := chain_append.mp hchain
  refine (runs_bind _ _ _ _).mpr ⟨busCalls first, busCalls rest, b, ?_, ?_, ?_⟩
  · exact List.filterMap_append
  · exact hp first b s s₁ hfirst hhead
  · exact hf b rest a s₁ s' hrest htail

theorem refines_bus {op : Op} {f : op.Res → Driver α} {g : op.Res → I2c α}
    (hf : ∀ r, Refines (f r) (g r)) : Refines (bus op >>= f) (Prog.perform op >>= g) := by
  refine refines_bind (fun accesses r s s' hrun _ => ?_) hf
  rw [(runs_perform _ _ _).mp hrun]
  exact .call (.ret r)

theorem refines_ite {c : Prop} [Decidable c] {p p' : Driver α} {q q' : I2c α}
    (hp : Refines p q) (hp' : Refines p' q') :
    Refines (if c then p else p') (if c then q else q') := by
  by_cases hc : c
  · rw [if_pos hc, if_pos hc]
    exact hp
  · rw [if_neg hc, if_neg hc]
    exact hp'

/-- A store to sEETimeout that the next loop does not depend on. -/
theorem refines_set {sEETimeout : ℕ} {p : Driver α} {q : I2c α} (hp : Refines p q) :
    Refines (setTimeout sEETimeout >>= fun _ => p) q := by
  intro accesses a s s' hrun hchain
  obtain ⟨r, rest, rfl, hrest⟩ := (runs_perform_bind _ _ _ _).mp hrun
  obtain ⟨s₁, _, htail⟩ := chain_cons.mp hchain
  exact hp rest a s₁ s' hrest htail

/-- One decrement of a positive counter, or the last one. -/
theorem timeout_pred {sEETimeout : UInt32} (h : sEETimeout ≠ 0) :
    sEETimeout.toNat = (sEETimeout - 1).toNat + 1 := by
  have hpos : sEETimeout.toNat ≠ 0 := fun hzero => h (UInt32.toNat.inj hzero)
  have hle : (1 : UInt32) ≤ sEETimeout := UInt32.le_iff_toNat_le.mpr (by change 1 ≤ _; omega)
  rw [UInt32.toNat_sub_of_le _ _ hle]
  change _ = sEETimeout.toNat - 1 + 1
  omega

theorem poll_seen {op : Op} {seen : op.Res → Bool} {r : op.Res} (h : seen r = true) (n : ℕ) :
    Runs (poll op seen n) [⟨op, r⟩] true := by
  cases n with
  | zero => exact (runs_perform_bind _ _ _ _).mpr ⟨r, [], rfl, (runs_pure _ _ _).mpr ⟨rfl, h.symm⟩⟩
  | succ n =>
    refine (runs_perform_bind _ _ _ _).mpr ⟨r, [], rfl, ?_⟩
    rw [if_pos h]
    exact .ret true

theorem poll_last {op : Op} {seen : op.Res → Bool} {r : op.Res} (h : ¬ seen r = true) :
    Runs (poll op seen 0) [⟨op, r⟩] false := by
  have hfalse := Bool.eq_false_of_not_eq_true h
  exact (runs_perform_bind _ _ _ _).mpr ⟨r, [], rfl, (runs_pure _ _ _).mpr ⟨rfl, hfalse.symm⟩⟩

theorem poll_next {op : Op} {seen : op.Res → Bool} {r : op.Res} {n : ℕ} {calls : List Call}
    {b : Bool} (h : ¬ seen r = true) (hrest : Runs (poll op seen n) calls b) :
    Runs (poll op seen (n + 1)) (⟨op, r⟩ :: calls) b := by
  refine (runs_perform_bind _ _ _ _).mpr ⟨r, calls, rfl, ?_⟩
  rw [if_neg h]
  exact hrest

/-- The loop counts down from what it finds in sEETimeout. -/
theorem poll_of_wait {op : Op} {seen : op.Res → Bool} {turns : ℕ} {accesses : Accesses} {b : Bool}
    {s s' : State} (hrun : Runs (wait op seen turns) accesses b)
    (hchain : Chain Step s accesses s') :
    Runs (poll op seen s.sEETimeout.toNat) (busCalls accesses) b := by
  induction turns generalizing s accesses with
  | zero => exact absurd hrun (not_runs_hang _ _)
  | succ turns ih =>
    obtain ⟨r, rest, rfl, hrest⟩ := (runs_perform_bind _ _ _ _).mp hrun
    obtain ⟨s₁, hstep, hchain⟩ := chain_cons.mp hchain
    obtain ⟨chip, _, _, rfl⟩ := step_bus hstep
    by_cases hseen : seen r = true
    · rw [if_pos hseen] at hrest
      obtain ⟨rfl, rfl⟩ := (runs_pure _ _ _).mp hrest
      exact poll_seen hseen _
    · rw [if_neg hseen] at hrest
      obtain ⟨value, tail, rfl, htail⟩ := run_countDown hrest
      obtain ⟨rfl, hchain⟩ := chain_countDown hchain
      by_cases hzero : s.sEETimeout = 0
      · rw [if_pos (by simpa using hzero)] at htail
        obtain ⟨rfl, rfl⟩ := (runs_pure _ _ _).mp htail
        rw [hzero]
        exact poll_last hseen
      · rw [if_neg (by simpa using hzero)] at htail
        rw [timeout_pred hzero]
        exact poll_next hseen (ih htail hchain)

theorem waitAddressed_refines {turns : ℕ} {accesses : Accesses} {answer : Option StatusRegister}
    {s s' : State} (hrun : Runs (waitAddressed turns) accesses answer)
    (hchain : Chain Step s accesses s') :
    Runs (I2cBus.waitAddressed s.sEETimeout.toNat) (busCalls accesses) answer := by
  induction turns generalizing s accesses with
  | zero => exact absurd hrun (not_runs_hang _ _)
  | succ turns ih =>
    obtain ⟨tmpSR1, rest, rfl, hrest⟩ := (runs_perform_bind _ _ _ _).mp hrun
    obtain ⟨s₁, hstep, hchain⟩ := chain_cons.mp hchain
    obtain ⟨chip, _, _, rfl⟩ := step_bus hstep
    obtain ⟨value, tail, rfl, htail⟩ := run_countDown hrest
    obtain ⟨rfl, hchain⟩ := chain_countDown hchain
    by_cases hzero : s.sEETimeout = 0
    · rw [if_pos (by simpa using hzero)] at htail
      obtain ⟨rfl, rfl⟩ := (runs_pure _ _ _).mp htail
      rw [hzero]
      exact (runs_perform_bind _ _ _ _).mpr ⟨tmpSR1, [], rfl, .ret none⟩
    · rw [if_neg (by simpa using hzero)] at htail
      rw [timeout_pred hzero]
      by_cases hseen : (tmpSR1.addr || tmpSR1.af) = true
      · rw [if_pos hseen] at htail
        obtain ⟨rfl, rfl⟩ := (runs_pure _ _ _).mp htail
        refine (runs_perform_bind _ _ _ _).mpr ⟨tmpSR1, [], rfl, ?_⟩
        rw [if_pos hseen]
        exact .ret _
      · rw [if_neg hseen] at htail
        refine (runs_perform_bind _ _ _ _).mpr ⟨tmpSR1, busCalls tail, rfl, ?_⟩
        rw [if_neg hseen]
        exact ih htail hchain

/-- A store to sEETimeout with the loop that it is for. -/
theorem refines_timed {β : Type} {n : ℕ} (hn : n < 2 ^ 32) {p : Driver β} {q : ℕ → I2c β}
    {f : β → Driver α} {g : β → I2c α}
    (hp : ∀ accesses b s s', Runs p accesses b → Chain Step s accesses s' →
      Runs (q s.sEETimeout.toNat) (busCalls accesses) b) (hf : ∀ b, Refines (f b) (g b)) :
    Refines (setTimeout n >>= fun _ => p >>= f) (q n >>= g) := by
  intro accesses a s s' hrun hchain
  obtain ⟨r, rest, rfl, hrest⟩ := (runs_perform_bind _ _ _ _).mp hrun
  obtain ⟨s₁, hstep, hchain⟩ := chain_cons.mp hchain
  obtain rfl := step_store hstep
  obtain ⟨first, last, b, rfl, hfirst, hlast⟩ := (runs_bind _ _ _ _).mp hrest
  obtain ⟨s₂, hhead, htail⟩ := chain_append.mp hchain
  have hloop := hp first b _ s₂ hfirst hhead
  rw [UInt32.toNat_ofNat_of_lt' hn] at hloop
  refine (runs_bind _ _ _ _).mpr ⟨busCalls first, busCalls last, b, ?_, hloop, ?_⟩
  · exact List.filterMap_append
  · exact hf b last a s₂ s' hlast htail

theorem refines_wait {op : Op} {seen : op.Res → Bool} {turns n : ℕ} (hn : n < 2 ^ 32)
    {late rest : Driver α} {late' rest' : I2c α} (hlate : Refines late late')
    (hrest : Refines rest rest') :
    Refines (setTimeout n >>= fun _ => wait op seen turns >>= fun b =>
        if (!b) = true then late else rest)
      (poll op seen n >>= fun b => if (!b) = true then late' else rest') :=
  refines_timed hn (fun _ _ _ _ => poll_of_wait) fun _ => refines_ite hlate hrest

theorem longTimeout_lt : sEE_LONG_TIMEOUT < 2 ^ 32 := by decide

theorem flagTimeout_lt : sEE_FLAG_TIMEOUT < 2 ^ 32 := by decide

theorem standbyTrial_refines (turns : ℕ) {again : Driver ℕ} {again' : I2c ℕ}
    (hagain : Refines again again') :
    Refines (standbyTrial turns again) (I2cBus.standbyTrial deviceAddress again') := by
  refine refines_bus fun _ => refines_wait flagTimeout_lt (refines_pure _) ?_
  refine refines_bus fun _ => refines_timed longTimeout_lt
    (fun _ _ _ _ => waitAddressed_refines) fun answer => ?_
  cases answer with
  | none => exact refines_pure _
  | some tmpSR1 =>
    refine refines_ite ?_ (refines_bus fun _ => hagain)
    exact refines_bus fun _ => refines_bus fun _ => refines_pure _

theorem standbyTrials_refines (turns trials : ℕ) :
    Refines (standbyTrials turns trials) (I2cBus.standbyTrials deviceAddress trials) := by
  induction trials with
  | zero => exact standbyTrial_refines turns (refines_pure _)
  | succ trials ih => exact standbyTrial_refines turns ih

theorem seeI2cWrite_refines (turns : ℕ) (wData : UInt8) (writeAddr : UInt16) :
    Refines (seeI2cWrite turns wData writeAddr)
      (I2cBus.seeI2cWrite deviceAddress wData writeAddr) := by
  have hlate := refines_pure sEE_TIMEOUT_UserCallback
  have hstandby : Refines (sEEWaitEepromStandbyState turns)
      (I2cBus.sEEWaitEepromStandbyState deviceAddress) :=
    refines_wait longTimeout_lt hlate (standbyTrials_refines turns _)
  refine refines_bind hstandby fun _ => refines_ite (refines_pure _) ?_
  refine refines_wait longTimeout_lt hlate ?_
  refine refines_bus fun _ => refines_wait flagTimeout_lt hlate ?_
  refine refines_set (refines_bus fun _ => refines_wait flagTimeout_lt hlate ?_)
  refine refines_bus fun _ => refines_wait flagTimeout_lt hlate ?_
  refine refines_bus fun _ => refines_wait flagTimeout_lt hlate ?_
  exact refines_bus fun _ => refines_pure _

theorem writeLoop_refines (turns : ℕ) (ws : List (ℕ × UInt8)) :
    Refines (writeLoop turns ws) (Eeprom.writeLoop ws) := by
  induction ws with
  | nil => exact refines_pure _
  | cons w ws ih =>
    refine refines_bind (seeI2cWrite_refines turns w.2 (UInt16.ofNat w.1)) fun ret => ?_
    exact refines_ite (refines_pure _) ih

end Alone

section KeySave

variable {turns : ℕ} {s s' : State}

/-- A whole save of key_entry, with its return value. -/
def KeySave (turns : ℕ) (config : NbModuConfig) (s : State) (ret : ℕ) (s' : State) : Prop :=
  ∃ accesses, Runs (saveConfig turns config) accesses ret ∧ Chain Step s accesses s'

/-- It stores what a save of its own would, under some fates. -/
theorem KeySave.stores {config : NbModuConfig} {ret : ℕ} (h : KeySave turns config s ret s') :
    ∃ fates, (ret : ℤ) = (ConfigUtils.saveConfig config fates).ret ∧
      s'.chip.mem = storeAll s.chip.mem (ConfigUtils.saveConfig config fates).stores := by
  obtain ⟨accesses, hrun, hchain⟩ := h
  have hsave := writeLoop_refines turns _ accesses ret s s' hrun hchain
  refine saveConfig_on config [] (busCalls accesses) ret ?_ hsave s'.chip (chain_busCalls hchain)
  intro c hnil
  rw [chain_nil.mp hnil]

/-- Within a transfer the loop on BUSY runs out, and sEETimeout wraps around. -/
theorem waitWhileBusy_held {accesses : Accesses} {idle : Bool}
    (hrun : Runs (waitWhileBusy turns) accesses idle) (hchain : Chain Step s accesses s')
    (hheld : s.held = true) :
    idle = false ∧ s' = { s with sEETimeout := 0 - 1 } := by
  induction turns generalizing s accesses with
  | zero => exact absurd hrun (not_runs_hang _ _)
  | succ turns ih =>
    obtain ⟨busy, rest, rfl, hrest⟩ := (runs_perform_bind _ _ _ _).mp hrun
    obtain ⟨s₁, hstep, hchain⟩ := chain_cons.mp hchain
    obtain ⟨chip, hchip, hbusy, rfl⟩ := step_bus hstep
    obtain rfl := step_flag _ _ _ hchip
    have hshown : busy = true := Bool.eq_true_of_not_eq_false (hbusy hheld)
    rw [if_neg (by simp [hshown])] at hrest
    obtain ⟨value, tail, rfl, htail⟩ := run_countDown hrest
    obtain ⟨rfl, hchain⟩ := chain_countDown hchain
    by_cases hzero : s.sEETimeout = 0
    · rw [if_pos (by simpa using hzero)] at htail
      obtain ⟨rfl, rfl⟩ := (runs_pure _ _ _).mp htail
      obtain rfl := chain_nil.mp hchain
      refine ⟨rfl, ?_⟩
      rw [hzero]
      rfl
    · rw [if_neg (by simpa using hzero)] at htail
      obtain ⟨rfl, rfl⟩ := ih htail hchain hheld
      exact ⟨rfl, rfl⟩

theorem standby_held {accesses : Accesses} {ret : ℕ}
    (hrun : Runs (sEEWaitEepromStandbyState turns) accesses ret)
    (hchain : Chain Step s accesses s') (hheld : s.held = true) :
    ret = sEE_TIMEOUT_UserCallback ∧ s' = { s with sEETimeout := 0 - 1 } := by
  obtain ⟨r, rest, rfl, hrest⟩ := (runs_perform_bind _ _ _ _).mp hrun
  obtain ⟨s₁, hstep, hchain⟩ := chain_cons.mp hchain
  obtain rfl := step_store hstep
  obtain ⟨looks, last, idle, rfl, hlooks, hlast⟩ := (runs_bind _ _ _ _).mp hrest
  obtain ⟨s₂, hhead, htail⟩ := chain_append.mp hchain
  obtain ⟨rfl, rfl⟩ := waitWhileBusy_held hlooks hhead hheld
  obtain ⟨rfl, rfl⟩ := (runs_pure _ _ _).mp hlast
  obtain rfl := chain_nil.mp htail
  exact ⟨rfl, rfl⟩

theorem seeI2cWrite_held {wData : UInt8} {writeAddr : UInt16} {accesses : Accesses} {ret : ℕ}
    (hrun : Runs (seeI2cWrite turns wData writeAddr) accesses ret)
    (hchain : Chain Step s accesses s') (hheld : s.held = true) :
    ret = sEE_FAIL ∧ s' = { s with sEETimeout := 0 - 1 } := by
  obtain ⟨first, rest, r, rfl, hfirst, hrest⟩ := (runs_bind _ _ _ _).mp hrun
  obtain ⟨s₁, hhead, htail⟩ := chain_append.mp hchain
  obtain ⟨rfl, rfl⟩ := standby_held hfirst hhead hheld
  obtain ⟨rfl, rfl⟩ := (runs_pure _ _ _).mp hrest
  obtain rfl := chain_nil.mp htail
  exact ⟨rfl, rfl⟩

theorem recordWrites_ne_nil (config : NbModuConfig) : recordWrites config ≠ [] := by
  have hlength := SaveFaults.length_recordWrites config
  intro hnil
  rw [hnil] at hlength
  cases hlength

/-- A save that comes within a transfer fails with nothing sent, and leaves
sEETimeout at its largest value. -/
theorem KeySave.held {config : NbModuConfig} {ret : ℕ} (h : KeySave turns config s ret s')
    (hheld : s.held = true) :
    ret = sEE_FAIL ∧ s' = { s with sEETimeout := 0 - 1 } := by
  obtain ⟨accesses, hrun, hchain⟩ := h
  obtain ⟨w, ws, hws⟩ := List.exists_cons_of_ne_nil (recordWrites_ne_nil config)
  rw [saveConfig, hws] at hrun
  obtain ⟨first, rest, r, rfl, hfirst, hrest⟩ := (runs_bind _ _ _ _).mp hrun
  obtain ⟨s₁, hhead, htail⟩ := chain_append.mp hchain
  obtain ⟨rfl, rfl⟩ := seeI2cWrite_held hfirst hhead hheld
  obtain ⟨rfl, rfl⟩ := (runs_pure _ _ _).mp hrest
  obtain rfl := chain_nil.mp htail
  exact ⟨rfl, rfl⟩

end KeySave

end GemhoNbiot.SharedDriver
