import GemhoNbiot.I2cBus
import GemhoNbiot.SaveFaults

/-!
save_config and load_config down to the bus: config_utils.c over the driver of
SEE_i2c.c, with a serial EEPROM of one-byte word addresses behind the
peripheral. The EEPROM may refuse any byte and the peripheral may report any
loop late, but an event is not reported before the EEPROM has acknowledged what
the event stands for. A byte that was loaded is written by the STOP; whether it
is also written without one is left open. Every run is one of the byte store
whose calls end in some list of fates.
-/
namespace GemhoNbiot.Eeprom

open Program TraceLogic I2cBus ConfigUtils

/-- What the EEPROM makes of the transfer so far. -/
inductive Phase
  | idle
  | started
  | selected
  | pointed
  | loaded (data : UInt8)
  | reading

/-- `pointer` is the word address. -/
structure Chip where
  mem : ℕ → UInt8
  pointer : UInt8
  phase : Phase

def Chip.write (c : Chip) (data : UInt8) : Chip :=
  { c with mem := Function.update c.mem c.pointer.toNat data }

/-- The device address, also the value of sEEAddress after SEE_i2c_init. -/
def deviceAddress : UInt16 := 0xA0

/-- What must have happened before the peripheral reports an event. -/
def Phase.Shows : Phase → I2cEvent → Prop
  | _, .masterModeSelect => True
  | phase, .masterTransmitterModeSelected => phase = .selected
  | phase, .masterReceiverModeSelected => phase = .reading
  | phase, .masterByteTransmitted => phase = .pointed ∨ ∃ data, phase = .loaded data

/-- The calls that the EEPROM does not see. -/
def Unseen : Op → Prop
  | .readSR2 | .readCR1Stop | .acknowledgeConfig _ | .clearFlagAF => True
  | .getFlagStatus _ => True
  | _ => False

/-- What a call does to the EEPROM, and what it can report. -/
inductive Step (c : Chip) : Call → Chip → Prop
  | start : Step c ⟨.generateStart, ()⟩ { c with phase := .started }
  | stop (h : ∀ data, c.phase ≠ .loaded data) :
      Step c ⟨.generateStop, ()⟩ { c with phase := .idle }
  | commit {data : UInt8} (h : c.phase = .loaded data) :
      Step c ⟨.generateStop, ()⟩ { c.write data with phase := .idle }
  | select (h : c.phase = .started) :
      Step c ⟨.send7bitAddress deviceAddress.toUInt8 .transmitter, ()⟩
        { c with phase := .selected }
  | selectRead (h : c.phase = .started) :
      Step c ⟨.send7bitAddress deviceAddress.toUInt8 .receiver, ()⟩ { c with phase := .reading }
  | ignore {address : UInt8} {direction : Direction} :
      Step c ⟨.send7bitAddress address direction, ()⟩ { c with phase := .idle }
  | point {data : UInt8} (h : c.phase = .selected) :
      Step c ⟨.sendData data, ()⟩ { c with pointer := data, phase := .pointed }
  | load {data : UInt8} (h : c.phase = .pointed) :
      Step c ⟨.sendData data, ()⟩ { c with phase := .loaded data }
  | writeAtOnce {data : UInt8} (h : c.phase = .pointed) :
      Step c ⟨.sendData data, ()⟩ { c.write data with phase := .loaded data }
  | refuse {data : UInt8} : Step c ⟨.sendData data, ()⟩ { c with phase := .idle }
  | event {event : I2cEvent} {seen : Bool} (h : seen = true → c.phase.Shows event) :
      Step c ⟨.checkEvent event, seen⟩ c
  | status {sr : StatusRegister} (h : sr.addr = true → c.phase = .selected) :
      Step c ⟨.readSR1, sr⟩ c
  | receive {data : UInt8} (h : c.phase = .reading → data = c.mem c.pointer.toNat) :
      Step c ⟨.receiveData, data⟩ { c with pointer := c.pointer + 1 }
  | unseen {op : Op} {r : op.Res} (h : Unseen op) : Step c ⟨op, r⟩ c

/-- The write loop of save_config over the bytes still to be written. -/
def writeLoop : List (ℕ × UInt8) → I2c ℕ
  | [] => pure 0
  | w :: ws => do
    let ret ← seeI2cWrite deviceAddress w.2 (UInt16.ofNat w.1)
    if ret ≠ 0 then
      return ret
    writeLoop ws

def saveConfig (c : NbModuConfig) : I2c ℕ := writeLoop (recordWrites c)

/-- The read loop of read_config: the return value and the bytes read. -/
def readLoop : List ℕ → I2c (ℕ × List UInt8)
  | [] => pure (0, [])
  | a :: as => do
    let (ret, b) ← seeI2cRead deviceAddress (UInt16.ofNat a)
    if ret ≠ 0 then
      return (ret, [])
    let (ret, bs) ← readLoop as
    return (ret, b.getD 0 :: bs)

/-- What read_config makes of its loop. -/
def checkRecord (config : NbModuConfig) (ret : ℤ) (bs : List UInt8) : ℤ × NbModuConfig :=
  if ret = 0 then
    if Crc32.getCrc32 0 (bs.take sizeofConfig) = UInt32.ofNat (ofLe (bs.drop sizeofConfig)) then
      (ret, NbModuConfig.ofBytes (bs.take sizeofConfig))
    else
      (-1, config)
  else
    (ret, config)

def readConfig (config : NbModuConfig) : I2c (ℤ × NbModuConfig) := do
  let (ret, bs) ← readLoop (List.range sizeofConfSaveUnit)
  return checkRecord config ret bs

/-- What load_config makes of read_config. -/
def orDefault (ret : ℤ) (config : NbModuConfig) : ℤ × NbModuConfig :=
  if ret ≠ 0 then (ret, lDefaultNbMCFG) else (ret, config)

def loadConfig (config : NbModuConfig) : I2c (ℤ × NbModuConfig) := do
  let (ret, config) ← readConfig config
  return orDefault ret config

section Rules

variable {α : Type} {s₀ : Chip} {P : Chip → Prop} {post : α → List Call → Prop}

/-- An assertion about the EEPROM that the calls have left. -/
def On (s₀ : Chip) (P : Chip → Prop) : List Call → Prop := Along Step s₀ fun c _ => P c

theorem on_pure {a : α} {Q : α → Chip → Prop} (h : ∀ c, P c → Q a c) :
    Triple (On s₀ P) (pure a : I2c α) (fun a => On s₀ (Q a)) :=
  triple_along_pure fun c _ => h c

theorem on_mono {P' : Chip → Prop} {p : I2c α} (h : Triple (On s₀ P) p post)
    (hP : ∀ c, P' c → P c) : Triple (On s₀ P') p post :=
  h.mono (fun _ hP' c hchain => hP c (hP' c hchain)) fun _ _ hpost => hpost

/-- A precondition that is no assertion about the EEPROM. -/
theorem on_fact {φ : Prop} {p : I2c α} {Q : α → Chip → Prop}
    (h : φ → Triple (On s₀ P) p (fun a => On s₀ (Q a))) :
    Triple (On s₀ fun c => P c ∧ φ) p (fun a => On s₀ (Q a)) := by
  intro before events a hpre hrun c hchain
  obtain ⟨c', hbefore, _⟩ := chain_append.mp hchain
  have hfact := (hpre c' hbefore).2
  exact h hfact before events a (fun c hc => (hpre c hc).1) hrun c hchain

/-- A call whose result is dropped or bound. -/
theorem on_call {op : Op} {next : op.Res → I2c α} (Q : Chip → Prop)
    (h : ∀ c r c', P c → Step c ⟨op, r⟩ c' → Q c')
    (hnext : ∀ r, Triple (On s₀ Q) (next r) post) :
    Triple (On s₀ P) (Prog.perform op >>= next) post :=
  triple_step (fun _ c _ => Q c) (fun _ c r c' => h c r c') hnext

/-- A polling loop does not touch the EEPROM, and what it waits for says `Q`. -/
theorem poll_on {op : Op} {seen : op.Res → Bool} {Q : Chip → Prop}
    (h : ∀ c r c', P c → Step c ⟨op, r⟩ c' → P c' ∧ (seen r = true → Q c')) (n : ℕ) :
    Triple (On s₀ P) (poll op seen n) (fun b => On s₀ fun c => P c ∧ (b = true → Q c)) := by
  induction n with
  | zero =>
    refine triple_step (fun r c _ => P c ∧ (seen r = true → Q c)) ?_ fun r => ?_
    · exact fun _ c r c' => h c r c'
    · exact triple_along_pure fun c _ hc => hc
  | succ n ih =>
    refine triple_step (fun r c _ => P c ∧ (seen r = true → Q c)) ?_ fun r => ?_
    · exact fun _ c r c' => h c r c'
    · refine triple_ite (fun hseen => ?_) fun _ => ?_
      · exact triple_along_pure fun c _ hc => ⟨hc.1, fun _ => hc.2 hseen⟩
      · exact on_mono ih fun c hc => hc.1

/-- A loop with its timeout return and what follows the awaited value. -/
theorem on_wait {op : Op} {seen : op.Res → Bool} {n : ℕ} {late rest : I2c α} (Q : Chip → Prop)
    (h : ∀ c r c', P c → Step c ⟨op, r⟩ c' → P c' ∧ (seen r = true → Q c'))
    (hlate : Triple (On s₀ P) late post) (hrest : Triple (On s₀ fun c => P c ∧ Q c) rest post) :
    Triple (On s₀ P) (poll op seen n >>= fun b => if (!b) = true then late else rest) post := by
  refine triple_bind _ (poll_on h n) fun b => ?_
  cases b with
  | false => exact on_mono hlate fun c hc => hc.1
  | true => exact on_mono hrest fun c hc => ⟨hc.1, hc.2 rfl⟩

/-- A loop on a flag or on CR1, which says nothing about the EEPROM. -/
theorem on_wait_unseen {op : Op} {seen : op.Res → Bool} {n : ℕ} {late rest : I2c α}
    (hop : ∀ c r c', Step c ⟨op, r⟩ c' → c' = c) (hlate : Triple (On s₀ P) late post)
    (hrest : Triple (On s₀ P) rest post) :
    Triple (On s₀ P) (poll op seen n >>= fun b => if (!b) = true then late else rest) post := by
  refine on_wait (fun _ => True) ?_ hlate (on_mono hrest fun c hc => hc.1)
  intro c r c' hc hstep
  rw [hop c r c' hstep]
  exact ⟨hc, fun _ => trivial⟩

theorem step_flag {flag : I2cFlag} (c : Chip) (r : Bool) (c' : Chip)
    (h : Step c ⟨.getFlagStatus flag, r⟩ c') : c' = c := by
  cases h
  rfl

theorem step_cr1 (c : Chip) (r : Bool) (c' : Chip) (h : Step c ⟨.readCR1Stop, r⟩ c') :
    c' = c := by
  cases h
  rfl

theorem step_event {event : I2cEvent} (c : Chip) (r : Bool) (c' : Chip)
    (h : Step c ⟨.checkEvent event, r⟩ c') : c' = c ∧ (r = true → c.phase.Shows event) := by
  cases h with
  | event hshows => exact ⟨rfl, hshows⟩
  | unseen hop => cases hop

/-- A loop on an event, after which the event has been shown. -/
theorem on_event {event : I2cEvent} {n : ℕ} {late rest : I2c α}
    (hlate : Triple (On s₀ P) late post)
    (hrest : Triple (On s₀ fun c => P c ∧ c.phase.Shows event) rest post) :
    Triple (On s₀ P)
      (poll (.checkEvent event) id n >>= fun b => if (!b) = true then late else rest) post := by
  refine on_wait (fun c => c.phase.Shows event) ?_ hlate hrest
  intro c r c' hc hstep
  obtain ⟨rfl, hshows⟩ := step_event c r c' hstep
  exact ⟨hc, hshows⟩

end Rules

section Standby

variable {s₀ : Chip} {mem : ℕ → UInt8}

/-- No byte waits for a STOP. -/
def Quiet (mem : ℕ → UInt8) (c : Chip) : Prop := c.mem = mem ∧ ∀ data, c.phase ≠ .loaded data

theorem quiet_start {c c' : Chip} (r : Unit) (h : c.mem = mem)
    (hstep : Step c ⟨.generateStart, r⟩ c') : Quiet mem c' := by
  cases hstep with
  | start => exact ⟨h, nofun⟩
  | unseen hop => cases hop

theorem quiet_address {c c' : Chip} {address : UInt8} {direction : Direction} (r : Unit)
    (h : c.mem = mem) (hstep : Step c ⟨.send7bitAddress address direction, r⟩ c') :
    Quiet mem c' := by
  cases hstep with
  | select => exact ⟨h, nofun⟩
  | selectRead => exact ⟨h, nofun⟩
  | ignore => exact ⟨h, nofun⟩
  | unseen hop => cases hop

theorem quiet_stop {c c' : Chip} (r : Unit) (h : Quiet mem c)
    (hstep : Step c ⟨.generateStop, r⟩ c') : Quiet mem c' := by
  cases hstep with
  | stop => exact ⟨h.1, nofun⟩
  | commit hloaded => exact absurd hloaded (h.2 _)
  | unseen hop => cases hop

theorem waitAddressed_on {P : Chip → Prop} (n : ℕ) :
    Triple (On s₀ P) (waitAddressed n) (fun _ => On s₀ P) := by
  have hkeep : ∀ c r c', P c → Step c ⟨.readSR1, r⟩ c' → P c' := by
    intro c r c' hc hstep
    cases hstep with
    | status => exact hc
    | unseen hop => cases hop
  induction n with
  | zero => exact on_call P hkeep fun _ => on_pure fun _ hc => hc
  | succ n ih =>
    refine on_call P hkeep fun tmpSR1 => triple_ite (fun _ => ?_) fun _ => ih
    exact on_pure fun _ hc => hc

theorem standbyTrial_on {again : I2c ℕ}
    (hagain : Triple (On s₀ (Quiet mem)) again (fun _ => On s₀ (Quiet mem))) :
    Triple (On s₀ fun c => c.mem = mem) (standbyTrial deviceAddress again)
      (fun _ => On s₀ (Quiet mem)) := by
  refine on_call (Quiet mem) (fun c r c' => quiet_start r) fun _ => ?_
  refine on_event (on_pure fun _ hc => hc) (on_mono ?_ fun c hc => hc.1)
  refine on_call (Quiet mem) (fun c r c' hc => quiet_address r hc.1) fun _ => ?_
  refine triple_bind _ (waitAddressed_on sEE_LONG_TIMEOUT) fun answer => ?_
  cases answer with
  | none => exact on_pure fun _ hc => hc
  | some tmpSR1 =>
    refine triple_ite (fun _ => ?_) fun _ => ?_
    · refine on_call (Quiet mem) ?_ fun _ => ?_
      · intro c r c' hc hstep
        cases hstep
        exact hc
      · exact on_call (Quiet mem) (fun c r c' => quiet_stop r) fun _ => on_pure fun _ hc => hc
    · refine on_call (Quiet mem) ?_ fun _ => hagain
      intro c r c' hc hstep
      cases hstep
      exact hc

theorem standbyTrials_on (trials : ℕ) :
    Triple (On s₀ fun c => c.mem = mem) (standbyTrials deviceAddress trials)
      (fun _ => On s₀ (Quiet mem)) := by
  induction trials with
  | zero => exact standbyTrial_on (on_pure fun _ hc => hc)
  | succ trials ih => exact standbyTrial_on (on_mono ih fun c hc => hc.1)

theorem standby_on :
    Triple (On s₀ fun c => c.mem = mem) (sEEWaitEepromStandbyState deviceAddress)
      (fun _ => On s₀ fun c => c.mem = mem) := by
  refine on_wait_unseen step_flag (on_pure fun _ hc => hc) ?_
  refine (standbyTrials_on sEE_MAX_TRIALS_NUMBER).mono (fun _ hc => hc) fun _ _ hpost => ?_
  exact fun c hchain => (hpost c hchain).1

end Standby

section Write

variable {s₀ : Chip} {mem : ℕ → UInt8} {wData : UInt8} {writeAddr : UInt16}

/-- The memory with the byte of the call in its cell. -/
def written (mem : ℕ → UInt8) (writeAddr : UInt16) (wData : UInt8) : ℕ → UInt8 :=
  Function.update mem writeAddr.toUInt8.toNat wData

/-- A call of SEE_i2c_write has ended like this. -/
def WriteEnds (mem : ℕ → UInt8) (writeAddr : UInt16) (wData : UInt8) (ret : ℕ) (c : Chip) :
    Prop :=
  ∃ fate : WriteFate, (ret : ℤ) = fate.ret ∧
    c.mem = if fate.stores then written mem writeAddr wData else mem

/-- The word address has been sent, and taken if the EEPROM is still in the transfer. -/
def Addressed (mem : ℕ → UInt8) (writeAddr : UInt16) (c : Chip) : Prop :=
  c.mem = mem ∧ (c.phase = .idle ∨ c.phase = .pointed ∧ c.pointer = writeAddr.toUInt8)

/-- The byte has been sent, and taken if the EEPROM is still in the transfer. -/
def Sent (mem : ℕ → UInt8) (writeAddr : UInt16) (wData : UInt8) (c : Chip) : Prop :=
  (c.phase = .idle ∧ c.mem = mem) ∨
    c.phase = .loaded wData ∧ c.pointer = writeAddr.toUInt8 ∧
      (c.mem = mem ∨ c.mem = written mem writeAddr wData)

theorem addressed_of_select {c c' : Chip} (r : Unit) (h : c.mem = mem)
    (hshows : c.phase.Shows .masterTransmitterModeSelected)
    (hstep : Step c ⟨.sendData writeAddr.toUInt8, r⟩ c') : Addressed mem writeAddr c' := by
  have hselected : c.phase = .selected := hshows
  cases hstep with
  | point => exact ⟨h, Or.inr ⟨rfl, rfl⟩⟩
  | load hpointed =>
    rw [hselected] at hpointed
    cases hpointed
  | writeAtOnce hpointed =>
    rw [hselected] at hpointed
    cases hpointed
  | refuse => exact ⟨h, Or.inl rfl⟩
  | unseen hop => cases hop

theorem Addressed.pointed {c : Chip} (h : Addressed mem writeAddr c)
    (hshows : c.phase.Shows .masterByteTransmitted) :
    c.phase = .pointed ∧ c.pointer = writeAddr.toUInt8 := by
  rcases h.2 with hidle | hpointed
  · rw [hidle] at hshows
    rcases hshows with hat | ⟨data, hat⟩ <;> cases hat
  · exact hpointed

theorem sent_of_pointed {c c' : Chip} (r : Unit) (h : Addressed mem writeAddr c)
    (hshows : c.phase.Shows .masterByteTransmitted)
    (hstep : Step c ⟨.sendData wData, r⟩ c') : Sent mem writeAddr wData c' := by
  obtain ⟨hpointed, hpointer⟩ := h.pointed hshows
  cases hstep with
  | point hselected =>
    rw [hpointed] at hselected
    cases hselected
  | load => exact Or.inr ⟨rfl, hpointer, Or.inl h.1⟩
  | writeAtOnce =>
    refine Or.inr ⟨rfl, hpointer, Or.inr ?_⟩
    change Function.update c.mem c.pointer.toNat wData = _
    rw [h.1, hpointer]
    rfl
  | refuse => exact Or.inl ⟨rfl, h.1⟩
  | unseen hop => cases hop

theorem Sent.timeout {c : Chip} (h : Sent mem writeAddr wData c) :
    WriteEnds mem writeAddr wData sEE_TIMEOUT_UserCallback c := by
  rcases h with ⟨_, hmem⟩ | ⟨_, _, hmem | hmem⟩
  · exact ⟨.timeout false, rfl, hmem⟩
  · exact ⟨.timeout false, rfl, hmem⟩
  · exact ⟨.timeout true, rfl, hmem⟩

theorem Sent.committed {c c' : Chip} (r : Unit) (h : Sent mem writeAddr wData c)
    (hshows : c.phase.Shows .masterByteTransmitted) (hstep : Step c ⟨.generateStop, r⟩ c') :
    c'.mem = written mem writeAddr wData := by
  rcases h with ⟨hidle, _⟩ | ⟨hloaded, hpointer, hmem⟩
  · rw [hidle] at hshows
    rcases hshows with hat | ⟨data, hat⟩ <;> cases hat
  · cases hstep with
    | stop hne => exact absurd hloaded (hne wData)
    | commit hdata =>
      obtain rfl := Phase.loaded.inj (hloaded.symm.trans hdata)
      change Function.update c.mem c.pointer.toNat wData = _
      rcases hmem with hmem | hmem
      · rw [hmem, hpointer]
        rfl
      · rw [hmem, hpointer, written, Function.update_idem]
    | unseen hop => cases hop

/-- A write stores its byte and no other, and has stored it when it returns 0. -/
theorem seeI2cWrite_on :
    Triple (On s₀ fun c => c.mem = mem) (seeI2cWrite deviceAddress wData writeAddr)
      (fun ret => On s₀ (WriteEnds mem writeAddr wData ret)) := by
  have hlate : ∀ c : Chip, c.mem = mem →
      WriteEnds mem writeAddr wData sEE_TIMEOUT_UserCallback c :=
    fun c hmem => ⟨.timeout false, rfl, hmem⟩
  refine triple_bind _ standby_on fun ret => triple_ite (fun _ => ?_) fun _ => ?_
  · exact on_pure fun c hmem => ⟨.notReady, rfl, hmem⟩
  refine on_wait_unseen step_flag (on_pure hlate) ?_
  refine on_call (Quiet mem) (fun c r c' => quiet_start r) fun _ => ?_
  refine on_event (on_pure fun c hc => hlate c hc.1) ?_
  refine on_call (Quiet mem) (fun c r c' hc => quiet_address r hc.1.1) fun _ => ?_
  refine on_event (on_pure fun c hc => hlate c hc.1) ?_
  refine on_call (Addressed mem writeAddr)
    (fun c r c' hc => addressed_of_select r hc.1.1 hc.2) fun _ => ?_
  refine on_event (on_pure fun c hc => hlate c hc.1) ?_
  refine on_call (Sent mem writeAddr wData) (fun c r c' hc => sent_of_pointed r hc.1 hc.2)
    fun _ => ?_
  refine on_event (on_pure fun c hc => hc.timeout) ?_
  refine on_call (fun c => c.mem = written mem writeAddr wData)
    (fun c r c' hc => hc.1.committed r hc.2) fun _ => ?_
  exact on_pure fun c hmem => ⟨.stored, rfl, hmem⟩

end Write

section Read

variable {s₀ : Chip} {mem : ℕ → UInt8} {readAddr : UInt16}

/-- A call of SEE_i2c_read has ended like this. -/
def ReadEnds (mem : ℕ → UInt8) (readAddr : UInt16) (r : ℕ × Option UInt8) (c : Chip) : Prop :=
  c.mem = mem ∧ (r.1 = 2 ∨ r = (0, some (mem readAddr.toUInt8.toNat)))

/-- The second START has been sent behind the word address. -/
def Restarted (mem : ℕ → UInt8) (readAddr : UInt16) (c : Chip) : Prop :=
  Quiet mem c ∧ c.pointer = readAddr.toUInt8

theorem restarted_of_pointed {c c' : Chip} (r : Unit) (h : Addressed mem readAddr c)
    (hshows : c.phase.Shows .masterByteTransmitted) (hstep : Step c ⟨.generateStart, r⟩ c') :
    Restarted mem readAddr c' := by
  obtain ⟨_, hpointer⟩ := h.pointed hshows
  refine ⟨quiet_start r h.1 hstep, ?_⟩
  cases hstep with
  | start => exact hpointer
  | unseen hop => cases hop

theorem restarted_address {c c' : Chip} {address : UInt8} {direction : Direction} (r : Unit)
    (h : Restarted mem readAddr c) (hstep : Step c ⟨.send7bitAddress address direction, r⟩ c') :
    Restarted mem readAddr c' := by
  refine ⟨quiet_address r h.1.1 hstep, ?_⟩
  cases hstep with
  | unseen hop => cases hop
  | _ => exact h.2

/-- The byte that is taken from the data register. -/
theorem received_of_reading {c c' : Chip} {data : UInt8} (h : Restarted mem readAddr c)
    (hreading : c.phase = .reading) (hstep : Step c ⟨.receiveData, data⟩ c') :
    Quiet mem c' ∧ data = mem readAddr.toUInt8.toNat := by
  cases hstep with
  | receive hdata =>
    refine ⟨h.1, ?_⟩
    rw [hdata hreading, h.1.1, h.2]
  | unseen hop => cases hop

theorem on_acknowledge {α : Type} {P : Chip → Prop} {post : α → List Call → Prop}
    {enable : Bool} {rest : I2c α} (hrest : Triple (On s₀ P) rest post) :
    Triple (On s₀ P) (acknowledgeConfig enable >>= fun _ => rest) post := by
  refine on_call P ?_ fun _ => hrest
  intro c r c' hc hstep
  cases hstep
  exact hc

/-- A read that returns 0 has stored the byte of its cell through rData. -/
theorem seeI2cRead_on :
    Triple (On s₀ fun c => c.mem = mem) (seeI2cRead deviceAddress readAddr)
      (fun r => On s₀ (ReadEnds mem readAddr r)) := by
  have hlate : ∀ c : Chip, c.mem = mem →
      ReadEnds mem readAddr (sEE_TIMEOUT_UserCallback, none) c :=
    fun c hmem => ⟨hmem, Or.inl rfl⟩
  refine on_wait_unseen step_flag (on_pure hlate) ?_
  refine on_call (Quiet mem) (fun c r c' => quiet_start r) fun _ => ?_
  refine on_event (on_pure fun c hc => hlate c hc.1) ?_
  refine on_call (Quiet mem) (fun c r c' hc => quiet_address r hc.1.1) fun _ => ?_
  refine on_event (on_pure fun c hc => hlate c hc.1) ?_
  refine on_call (Addressed mem readAddr)
    (fun c r c' hc => addressed_of_select r hc.1.1 hc.2) fun _ => ?_
  refine on_event (on_pure fun c hc => hlate c hc.1) ?_
  refine on_call (Restarted mem readAddr) (fun c r c' hc => restarted_of_pointed r hc.1 hc.2)
    fun _ => ?_
  refine on_event (on_pure fun c hc => hlate c hc.1.1) ?_
  refine on_call (Restarted mem readAddr) (fun c r c' hc => restarted_address r hc.1) fun _ => ?_
  refine on_event (on_pure fun c hc => hlate c hc.1.1) ?_
  refine on_acknowledge ?_
  refine on_wait_unseen step_flag ?_ ?_
  · exact on_acknowledge (on_pure fun c hc => hlate c hc.1.1.1)
  refine triple_step (fun data c _ => Quiet mem c ∧ data = mem readAddr.toUInt8.toNat)
    (fun _ c data c' hc => received_of_reading hc.1 hc.2) fun data => ?_
  refine on_wait_unseen step_cr1 ?_ ?_
  · exact on_acknowledge (on_pure fun c hc => ⟨hc.1.1, Or.inl rfl⟩)
  refine on_acknowledge ?_
  refine on_call (fun c => c.mem = mem ∧ data = mem readAddr.toUInt8.toNat)
    (fun c r c' hc hstep => ⟨(quiet_stop r hc.1 hstep).1, hc.2⟩) fun _ => ?_
  exact on_pure fun c hc => ⟨hc.1, Or.inr (by rw [hc.2]; rfl)⟩

end Read

section Records

variable {s₀ : Chip} {mem : ℕ → UInt8}

/-- The addresses of the record are word addresses. -/
theorem wordAddress {a : ℕ} (ha : a < 256) : (UInt16.ofNat a).toUInt8.toNat = a := by
  rw [UInt16.toNat_toUInt8, UInt16.toNat_ofNat']
  omega

/-- The byte writes of a save have the effect of the store under some fates. -/
theorem writeLoop_on (ws : List (ℕ × UInt8)) (hws : ∀ w ∈ ws, w.1 < 256) :
    Triple (On s₀ fun c => c.mem = mem) (writeLoop ws) (fun ret => On s₀ fun c =>
      ∃ fates, (ret : ℤ) = (saveLoop ws fates).ret ∧
        c.mem = storeAll mem (saveLoop ws fates).stores) := by
  induction ws generalizing mem with
  | nil => exact on_pure fun c hmem => ⟨[], rfl, hmem⟩
  | cons w ws ih =>
    have haddr := wordAddress (hws w List.mem_cons_self)
    refine triple_bind _ seeI2cWrite_on fun ret => triple_ite (fun hret => ?_) fun hret => ?_
    · refine on_pure fun c hc => ?_
      obtain ⟨fate, hfate, hmem⟩ := hc
      have hne : fate ≠ .stored := by
        rintro rfl
        exact hret (Int.ofNat_eq_zero.mp hfate)
      refine ⟨[fate], ?_⟩
      rw [SaveFaults.saveLoop_failed w ws [] fate hne]
      refine ⟨hfate, hmem.trans ?_⟩
      cases fate.stores with
      | false => rfl
      | true => rw [if_pos rfl, written, haddr]; rfl
    · have hstored : ∀ c, WriteEnds mem (UInt16.ofNat w.1) w.2 ret c →
          c.mem = Function.update mem w.1 w.2 := by
        rintro c ⟨fate, hfate, hmem⟩
        rw [not_not.mp hret] at hfate
        rw [(SaveFaults.ret_eq_zero fate).mp hfate.symm] at hmem
        rw [hmem, WriteFate.stores, if_pos rfl, written, haddr]
      refine (on_mono (ih fun v hv => hws v (List.mem_cons_of_mem _ hv)) hstored).mono
        (fun _ hc => hc) fun rest calls hrest c hchain => ?_
      obtain ⟨fates, hfates, hmem⟩ := hrest c hchain
      refine ⟨.stored :: fates, ?_⟩
      rw [SaveFaults.saveLoop_stored]
      exact ⟨hfates, hmem⟩

/-- The byte reads of a load are those of the store under some fates. -/
theorem readLoop_on (as : List ℕ) (has : ∀ a ∈ as, a < 256) :
    Triple (On s₀ fun c => c.mem = mem) (readLoop as) (fun r => On s₀ fun c => c.mem = mem ∧
      ∃ fates, ((r.1 : ℤ), r.2) = ConfigUtils.readLoop mem as fates) := by
  induction as with
  | nil => exact on_pure fun c hmem => ⟨hmem, [], rfl⟩
  | cons a as ih =>
    have haddr := wordAddress (has a List.mem_cons_self)
    refine triple_bind _ seeI2cRead_on fun r => triple_ite (fun hret => ?_) fun hret => ?_
    · refine on_pure fun c hc => ⟨hc.1, [.timeout], ?_⟩
      rcases hc.2 with htwo | hok
      · rw [htwo]
        rfl
      · rw [hok] at hret
        exact absurd rfl hret
    · have hread : ∀ c, ReadEnds mem (UInt16.ofNat a) r c → c.mem = mem ∧ r.2 = some (mem a) := by
        rintro c ⟨hmem, htwo | hok⟩
        · rw [htwo] at hret
          exact absurd (by decide) hret
        · rw [hok, haddr]
          exact ⟨hmem, rfl⟩
      refine on_mono (on_fact fun hb => ?_) hread
      refine triple_bind _ (ih fun b hb => has b (List.mem_cons_of_mem _ hb)) fun rest => ?_
      refine on_pure fun c hc => ?_
      obtain ⟨hmem, fates, hfates⟩ := hc
      refine ⟨hmem, .received :: fates, ?_⟩
      rw [ConfigUtils.readLoop, List.headD_cons, List.tail_cons, ← hfates, hb]
      rfl

theorem saveConfig_on (config : NbModuConfig) :
    Triple (On s₀ fun c => c.mem = mem) (saveConfig config) (fun ret => On s₀ fun c =>
      ∃ fates, (ret : ℤ) = (ConfigUtils.saveConfig config fates).ret ∧
        c.mem = storeAll mem (ConfigUtils.saveConfig config fates).stores) := by
  refine writeLoop_on (recordWrites config) fun w hw => ?_
  obtain ⟨i, hi, rfl⟩ := List.mem_map.mp hw
  exact Nat.lt_trans (List.mem_range.mp hi) (by decide)

theorem checkRecord_eq (config : NbModuConfig) (fates : List ReadFate) :
    checkRecord config (ConfigUtils.readLoop mem (List.range sizeofConfSaveUnit) fates).1
      (ConfigUtils.readLoop mem (List.range sizeofConfSaveUnit) fates).2 =
      ConfigUtils.readConfig config mem fates := rfl

theorem loadConfig_on (config : NbModuConfig) :
    Triple (On s₀ fun c => c.mem = mem) (loadConfig config) (fun r => On s₀ fun c =>
      c.mem = mem ∧ ∃ fates, r = ConfigUtils.loadConfig config mem fates) := by
  have hread : Triple (On s₀ fun c => c.mem = mem) (readConfig config) (fun r => On s₀ fun c =>
      c.mem = mem ∧ ∃ fates, r = ConfigUtils.readConfig config mem fates) := by
    refine triple_bind _ (readLoop_on (List.range sizeofConfSaveUnit) fun a ha => ?_) fun r => ?_
    · exact Nat.lt_trans (List.mem_range.mp ha) (by decide)
    · refine on_pure fun c hc => ?_
      obtain ⟨hmem, fates, hfates⟩ := hc
      refine ⟨hmem, fates, ?_⟩
      rw [← checkRecord_eq, ← hfates]
  refine triple_bind _ hread fun r => on_pure fun c hc => ?_
  obtain ⟨hmem, fates, rfl⟩ := hc
  exact ⟨hmem, fates, rfl⟩

end Records

section Refusals

/-- A status that is not the one its loop waits for. -/
def Refused : Call → Prop
  | ⟨.getFlagStatus .busy, busy⟩ => busy = true
  | ⟨.getFlagStatus .rxne, rxne⟩ => rxne = false
  | ⟨.checkEvent _, seen⟩ => seen = false
  | ⟨.readCR1Stop, stop⟩ => stop = true
  | _ => False

/-- A loop has given up: the same status has been refused at every look of it. -/
def GaveUp (calls : List Call) : Prop :=
  ∃ call, Refused call ∧ List.replicate (sEE_FLAG_TIMEOUT + 1) call <:+: calls

theorem GaveUp.append {calls : List Call} (h : GaveUp calls) (more : List Call) :
    GaveUp (calls ++ more) := by
  obtain ⟨call, hrefused, hpart⟩ := h
  exact ⟨call, hrefused, hpart.trans (List.prefix_append _ _).isInfix⟩

/-- A loop with one value to refuse gives up after it has refused it every time. -/
theorem runs_poll_false {op : Op} {seen : op.Res → Bool} (refused : op.Res)
    (honly : ∀ r, seen r = false → r = refused) (n : ℕ) (calls : List Call)
    (hrun : Runs (poll op seen n) calls false) :
    calls = List.replicate (n + 1) ⟨op, refused⟩ := by
  induction n generalizing calls with
  | zero =>
    obtain ⟨r, rest, rfl, hrest⟩ := (runs_perform_bind _ _ _ _).mp hrun
    obtain ⟨rfl, hseen⟩ := (runs_pure _ _ _).mp hrest
    rw [honly r hseen.symm]
    rfl
  | succ n ih =>
    obtain ⟨r, rest, rfl, hrest⟩ := (runs_perform_bind _ _ _ _).mp hrun
    cases hseen : seen r with
    | true =>
      rw [if_pos hseen] at hrest
      exact absurd ((runs_pure _ _ _).mp hrest).2 (by decide)
    | false =>
      rw [if_neg (by simp [hseen])] at hrest
      rw [ih rest hrest, honly r hseen]
      rfl

section Rules

variable {α : Type} {post : α → List Call → Prop}

/-- A loop whose timeout return is taken has given up. -/
theorem refusals_wait {op : Op} {seen : op.Res → Bool} {n : ℕ} {late rest : I2c α}
    (refused : op.Res) (honly : ∀ r, seen r = false → r = refused)
    (hrefused : Refused ⟨op, refused⟩) (hlong : sEE_FLAG_TIMEOUT ≤ n)
    (hlate : Triple GaveUp late post) (hrest : Triple (fun _ => True) rest post) :
    Triple (fun _ => True)
      (poll op seen n >>= fun b => if (!b) = true then late else rest) post := by
  refine triple_bind (fun b calls => b = false → GaveUp calls) ?_ fun b => ?_
  · intro before calls b _ hrun hfalse
    rw [hfalse] at hrun
    rw [runs_poll_false refused honly n calls hrun]
    obtain ⟨k, rfl⟩ := Nat.exists_eq_add_of_le hlong
    rw [Nat.add_right_comm, ← List.replicate_append_replicate]
    refine ⟨_, hrefused, List.IsInfix.trans ?_ (List.suffix_append _ _).isInfix⟩
    exact (List.prefix_append _ _).isInfix
  · cases b with
    | false => exact hlate.mono (fun _ hgave => hgave rfl) fun _ _ hpost => hpost
    | true => exact hrest.mono (fun _ _ => trivial) fun _ _ hpost => hpost

theorem refusals_call {op : Op} {next : op.Res → I2c α}
    (hnext : ∀ r, Triple (fun _ => True) (next r) post) :
    Triple (fun _ => True) (Prog.perform op >>= next) post :=
  triple_call (fun _ _ => True) (fun _ _ _ => trivial) hnext

/-- The result of a read after its timeout return. -/
theorem late_result {β : Type} (ret : β → ℕ) (a : β) :
    Triple GaveUp (pure a : I2c β) (fun r calls => ret r = 0 ∨ GaveUp calls) :=
  triple_pure fun _ hgave => Or.inr hgave

/-- The two returns that enable acknowledge first. -/
theorem late_acknowledge {β : Type} (ret : β → ℕ) (a : β) :
    Triple GaveUp (acknowledgeConfig true >>= fun _ => (pure a : I2c β))
      (fun r calls => ret r = 0 ∨ GaveUp calls) :=
  triple_call (fun _ => GaveUp) (fun _ _ hgave => hgave.append _) fun _ => late_result ret a

end Rules

/-- A read returns 0 unless one of its loops has given up. -/
theorem seeI2cRead_refusals (readAddr : UInt16) :
    Triple (fun _ => True) (seeI2cRead deviceAddress readAddr)
      (fun r calls => r.1 = 0 ∨ GaveUp calls) := by
  have hfalse : ∀ seen : Bool, id seen = false → seen = false := fun _ h => h
  have htrue : ∀ b : Bool, (!b) = false → b = true := by decide
  refine refusals_wait true htrue rfl (by decide) (late_result Prod.fst _) ?_
  refine refusals_call fun _ => ?_
  refine refusals_wait false hfalse rfl (by decide) (late_result Prod.fst _) ?_
  refine refusals_call fun _ => ?_
  refine refusals_wait false hfalse rfl (by decide) (late_result Prod.fst _) ?_
  refine refusals_call fun _ => ?_
  refine refusals_wait false hfalse rfl (by decide) (late_result Prod.fst _) ?_
  refine refusals_call fun _ => ?_
  refine refusals_wait false hfalse rfl (by decide) (late_result Prod.fst _) ?_
  refine refusals_call fun _ => ?_
  refine refusals_wait false hfalse rfl (by decide) (late_result Prod.fst _) ?_
  refine refusals_call fun _ => ?_
  refine refusals_wait false hfalse rfl (by decide) (late_acknowledge Prod.fst _) ?_
  refine refusals_call fun rData => ?_
  refine refusals_wait true htrue rfl (by decide) (late_acknowledge Prod.fst _) ?_
  refine refusals_call fun _ => ?_
  refine refusals_call fun _ => ?_
  exact triple_pure fun _ _ => Or.inl rfl

theorem readLoop_refusals (as : List ℕ) :
    Triple (fun _ => True) (readLoop as) (fun r calls => r.1 = 0 ∨ GaveUp calls) := by
  induction as with
  | nil => exact triple_pure fun _ _ => Or.inl rfl
  | cons a as ih =>
    refine triple_bind _ (seeI2cRead_refusals _) fun r => triple_ite (fun hret => ?_) fun _ => ?_
    · exact triple_pure fun _ hr => Or.inr (hr.resolve_left hret)
    · refine triple_bind _ (ih.mono (fun _ _ => trivial) fun _ _ hpost => hpost) fun rest => ?_
      exact triple_pure fun _ hr => hr

/-- The loads that return 2 are those in which a loop has given up. -/
theorem loadConfig_refusals (config : NbModuConfig) :
    Triple (fun _ => True) (loadConfig config) (fun r calls => r.1 = 2 → GaveUp calls) := by
  have hread : Triple (fun _ => True) (readConfig config)
      (fun r calls => r.1 = 2 → GaveUp calls) := by
    refine triple_bind _ (readLoop_refusals (List.range sizeofConfSaveUnit)) fun r => ?_
    refine triple_pure fun calls hr htwo => hr.resolve_left fun hzero => ?_
    rw [checkRecord, hzero] at htwo
    split_ifs at htwo <;> simp_all
  refine triple_bind _ hread fun r => triple_pure fun calls hr htwo => hr ?_
  rw [orDefault] at htwo
  split_ifs at htwo <;> exact htwo

end Refusals

section RoundTrip

theorem readLoop_cases (mem : ℕ → UInt8) (as : List ℕ) (fates : List ReadFate) :
    ConfigUtils.readLoop mem as fates = (0, as.map mem) ∨
      (ConfigUtils.readLoop mem as fates).1 = 2 := by
  induction as generalizing fates with
  | nil => exact Or.inl rfl
  | cons a as ih =>
    rw [ConfigUtils.readLoop]
    cases fates.headD .received with
    | timeout => exact Or.inr rfl
    | received =>
      rcases ih fates.tail with hall | htwo
      · rw [hall]
        exact Or.inl rfl
      · exact Or.inr htwo

/-- A load of a complete record gives its configuration, or the default after a
byte that could not be read. -/
theorem loadConfig_complete (config c : NbModuConfig) (mem : ℕ → UInt8) (fates : List ReadFate)
    (h : recordAt mem = c.record) :
    ConfigUtils.loadConfig config mem fates = (0, c) ∨
      ConfigUtils.loadConfig config mem fates = (2, lDefaultNbMCFG) := by
  rw [ConfigUtils.loadConfig, ConfigUtils.readConfig]
  rcases readLoop_cases mem (List.range sizeofConfSaveUnit) fates with hall | htwo
  · left
    have hprompt := readConfig_record config c mem h
    rw [ConfigUtils.readConfig, readLoop_received] at hprompt
    rw [hall]
    simp only at hprompt ⊢
    rw [hprompt]
    rfl
  · right
    simp [htwo]

/-- The record that a save leaves when it returns 0. -/
theorem recordAt_saved (mem : ℕ → UInt8) (c : NbModuConfig) (fates : List WriteFate)
    (h : (ConfigUtils.saveConfig c fates).ret = 0) :
    recordAt (storeAll mem (ConfigUtils.saveConfig c fates).stores) = c.record := by
  rw [SaveFaults.saveConfig_ok c fates h, ConfigValid.recordAt_storeAll]

/-- Over every run of save_config the EEPROM ends as the byte store does under
some fates of the byte writes, which give the return value too. -/
theorem saveConfig_refines (config : NbModuConfig) (s s' : Chip) (calls : List Call) (ret : ℕ)
    (hrun : Runs (saveConfig config) calls ret) (hchip : Chain Step s calls s') :
    ∃ fates, (ret : ℤ) = (ConfigUtils.saveConfig config fates).ret ∧
      s'.mem = storeAll s.mem (ConfigUtils.saveConfig config fates).stores := by
  refine saveConfig_on config [] calls ret ?_ hrun s' hchip
  intro c hchain
  rw [chain_nil.mp hchain]

/-- Over every run of load_config the EEPROM stays as it is, and the result is
that of the byte store under some fates of the byte reads. -/
theorem loadConfig_refines (config : NbModuConfig) (s s' : Chip) (calls : List Call)
    (r : ℤ × NbModuConfig) (hrun : Runs (loadConfig config) calls r)
    (hchip : Chain Step s calls s') :
    s'.mem = s.mem ∧ ∃ fates, r = ConfigUtils.loadConfig config s.mem fates := by
  refine loadConfig_on config [] calls r ?_ hrun s' hchip
  intro c hchain
  rw [chain_nil.mp hchain]

/-- After a save that returned 0, whatever the bus did in it, a load gives back
the configuration that was saved, unless one of its own loops gives up. -/
theorem load_after_save (config c : NbModuConfig) (s s' s'' : Chip) (saving loading : List Call)
    (r : ℤ × NbModuConfig) (hsave : Runs (saveConfig c) saving 0)
    (hsaving : Chain Step s saving s') (hload : Runs (loadConfig config) loading r)
    (hloading : Chain Step s' loading s'') :
    r = (0, c) ∨ r = (2, lDefaultNbMCFG) ∧ GaveUp loading := by
  have hstart : ∀ s₁ : Chip, On s₁ (fun c => c.mem = s₁.mem) [] := by
    intro s₁ c hchain
    rw [chain_nil.mp hchain]
  obtain ⟨fates, hret, hmem⟩ := saveConfig_on c [] saving 0 (hstart s) hsave s' hsaving
  obtain ⟨_, reads, heq⟩ := loadConfig_on config [] loading r (hstart s') hload s'' hloading
  have hrecord : recordAt s'.mem = c.record := by rw [hmem, recordAt_saved _ _ _ hret.symm]
  have hgave := loadConfig_refusals config [] loading r trivial hload
  rw [List.nil_append] at hgave
  rcases loadConfig_complete config c s'.mem reads hrecord with hok | htwo
  · exact Or.inl (heq.trans hok)
  · refine Or.inr ⟨heq.trans htwo, hgave ?_⟩
    rw [heq, htwo]

end RoundTrip

section Prompt

/-- The calls of a write that is never made to wait. -/
def promptWrite (wData : UInt8) (writeAddr : UInt16) : List Call :=
  [⟨.getFlagStatus .busy, false⟩, ⟨.generateStart, ()⟩, ⟨.checkEvent .masterModeSelect, true⟩,
    ⟨.send7bitAddress 160 .transmitter, ()⟩, ⟨.readSR1, ⟨true, false⟩⟩, ⟨.readSR2, ()⟩,
    ⟨.generateStop, ()⟩, ⟨.getFlagStatus .busy, false⟩, ⟨.generateStart, ()⟩,
    ⟨.checkEvent .masterModeSelect, true⟩, ⟨.send7bitAddress 160 .transmitter, ()⟩,
    ⟨.checkEvent .masterTransmitterModeSelected, true⟩, ⟨.sendData writeAddr.toUInt8, ()⟩,
    ⟨.checkEvent .masterByteTransmitted, true⟩, ⟨.sendData wData, ()⟩,
    ⟨.checkEvent .masterByteTransmitted, true⟩, ⟨.generateStop, ()⟩]

theorem runs_promptWrite (wData : UInt8) (writeAddr : UInt16) :
    Runs (seeI2cWrite deviceAddress wData writeAddr) (promptWrite wData writeAddr) sEE_OK := by
  apply (runs_bind _ _ _ _).mpr
  refine ⟨(promptWrite wData writeAddr).take 7, (promptWrite wData writeAddr).drop 7, sEE_OK, rfl,
    ?_, ?_⟩
  · refine runs_seen rfl (.call ?_)
    refine runs_seen rfl (.call ?_)
    exact .call (.call (.call (.ret _)))
  · refine runs_seen rfl (.call ?_)
    refine runs_seen rfl (.call ?_)
    refine runs_seen rfl (.call ?_)
    refine runs_seen rfl (.call ?_)
    exact runs_seen rfl (.call (.ret _))

/-- The EEPROM can take a byte at once. -/
theorem chain_promptWrite (wData : UInt8) (writeAddr : UInt16) (s : Chip) :
    Chain Step s (promptWrite wData writeAddr)
      ⟨written s.mem writeAddr wData, writeAddr.toUInt8, .idle⟩ := by
  refine .cons (.unseen trivial) (.cons .start (.cons (.event fun _ => trivial) ?_))
  refine .cons (.select rfl) (.cons (.status fun _ => rfl) (.cons (.unseen trivial) ?_))
  refine .cons (.stop nofun) (.cons (.unseen trivial) (.cons .start ?_))
  refine .cons (.event fun _ => trivial) (.cons (.select rfl) (.cons (.event fun _ => rfl) ?_))
  refine .cons (.point rfl) (.cons (.event fun _ => Or.inl rfl) ?_)
  refine .cons (.load rfl) (.cons (.event fun _ => Or.inr ⟨_, rfl⟩) ?_)
  exact .cons (.commit rfl) (.nil _)

/-- The EEPROM can give a byte at once. -/
theorem chain_promptRead (readAddr : UInt16) (s : Chip) :
    Chain Step s (promptRead readAddr (s.mem readAddr.toUInt8.toNat))
      ⟨s.mem, readAddr.toUInt8 + 1, .idle⟩ := by
  refine .cons (.unseen trivial) (.cons .start (.cons (.event fun _ => trivial) ?_))
  refine .cons (.select rfl) (.cons (.event fun _ => rfl) (.cons (.point rfl) ?_))
  refine .cons (.event fun _ => Or.inl rfl) (.cons .start (.cons (.event fun _ => trivial) ?_))
  refine .cons (.selectRead rfl) (.cons (.event fun _ => rfl) (.cons (.unseen trivial) ?_))
  refine .cons (.unseen trivial) (.cons (.receive fun _ => rfl) (.cons (.unseen trivial) ?_))
  exact .cons (.unseen trivial) (.cons (.stop nofun) (.nil _))

theorem runs_writeLoop (ws : List (ℕ × UInt8)) (s : Chip) :
    ∃ calls s', Runs (writeLoop ws) calls 0 ∧ Chain Step s calls s' := by
  induction ws generalizing s with
  | nil => exact ⟨[], s, .ret 0, .nil s⟩
  | cons w ws ih =>
    obtain ⟨calls, s', hrun, hchain⟩ :=
      ih ⟨written s.mem (UInt16.ofNat w.1) w.2, (UInt16.ofNat w.1).toUInt8, .idle⟩
    refine ⟨promptWrite w.2 (UInt16.ofNat w.1) ++ calls, s', ?_, ?_⟩
    · exact (runs_bind _ _ _ _).mpr ⟨_, calls, sEE_OK, rfl, runs_promptWrite _ _, hrun⟩
    · exact chain_append.mpr ⟨_, chain_promptWrite _ _ s, hchain⟩

theorem not_refused_promptRead (readAddr : UInt16) (rData : UInt8) :
    ∀ call ∈ promptRead readAddr rData, ¬ Refused call := by
  simp [promptRead, Refused]

theorem runs_readLoop (mem : ℕ → UInt8) (as : List ℕ) (pointer : UInt8) (phase : Phase) :
    ∃ calls s', Chain Step ⟨mem, pointer, phase⟩ calls s' ∧ (∀ call ∈ calls, ¬ Refused call) ∧
      Runs (readLoop as) calls (0, as.map fun a => mem (UInt16.ofNat a).toUInt8.toNat) := by
  induction as generalizing pointer phase with
  | nil => exact ⟨[], _, .nil _, by simp, .ret _⟩
  | cons a as ih =>
    obtain ⟨calls, s', hchain, hprompt, hrun⟩ := ih ((UInt16.ofNat a).toUInt8 + 1) .idle
    refine ⟨promptRead (UInt16.ofNat a) (mem (UInt16.ofNat a).toUInt8.toNat) ++ calls, s',
      chain_append.mpr ⟨_, chain_promptRead _ _, hchain⟩, ?_, ?_⟩
    · intro call hcall
      rcases List.mem_append.mp hcall with hcall | hcall
      · exact not_refused_promptRead _ _ call hcall
      · exact hprompt call hcall
    refine (runs_bind _ _ _ _).mpr ⟨_, calls, _, rfl, runs_promptRead _ _, ?_⟩
    exact (runs_bind _ _ _ _).mpr ⟨calls, [], _, (List.append_nil _).symm, hrun, .ret _⟩

/-- Every save and every load can go through without a fault. -/
theorem runs_saveConfig (c : NbModuConfig) (s : Chip) :
    ∃ calls s', Runs (saveConfig c) calls 0 ∧ Chain Step s calls s' :=
  runs_writeLoop (recordWrites c) s

theorem runs_loadConfig (config : NbModuConfig) (s : Chip) :
    ∃ calls r s', Runs (loadConfig config) calls r ∧ Chain Step s calls s' ∧
      ∀ call ∈ calls, ¬ Refused call := by
  obtain ⟨calls, s', hchain, hprompt, hrun⟩ :=
    runs_readLoop s.mem (List.range sizeofConfSaveUnit) s.pointer s.phase
  let r := checkRecord config 0 ((List.range sizeofConfSaveUnit).map fun a =>
    s.mem (UInt16.ofNat a).toUInt8.toNat)
  have hread : Runs (readConfig config) calls r :=
    (runs_bind _ _ _ _).mpr ⟨calls, [], _, (List.append_nil _).symm, hrun, .ret r⟩
  have hload : Runs (loadConfig config) calls (orDefault r.1 r.2) :=
    (runs_bind _ _ _ _).mpr ⟨calls, [], r, (List.append_nil _).symm, hread, .ret _⟩
  exact ⟨calls, _, s', hload, hchain, hprompt⟩

theorem saveConfig_refines_prompt : ∃ calls s', Runs (saveConfig lDefaultNbMCFG) calls 0 ∧
    Chain Step ⟨fun _ => 255, 0, .idle⟩ calls s' ∧
    ∃ fates, ((0 : ℕ) : ℤ) = (ConfigUtils.saveConfig lDefaultNbMCFG fates).ret ∧
      s'.mem = storeAll (fun _ => 255) (ConfigUtils.saveConfig lDefaultNbMCFG fates).stores := by
  obtain ⟨calls, s', hrun, hchip⟩ := runs_saveConfig lDefaultNbMCFG ⟨fun _ => 255, 0, .idle⟩
  exact ⟨calls, s', hrun, hchip, saveConfig_refines lDefaultNbMCFG _ s' calls 0 hrun hchip⟩

theorem loadConfig_refines_prompt : ∃ calls r s', Runs (loadConfig lDefaultNbMCFG) calls r ∧
    Chain Step ⟨fun _ => 255, 0, .idle⟩ calls s' ∧ s'.mem = (fun _ => 255) ∧
    ∃ fates, r = ConfigUtils.loadConfig lDefaultNbMCFG (fun _ => 255) fates := by
  obtain ⟨calls, r, s', hrun, hchip, _⟩ :=
    runs_loadConfig lDefaultNbMCFG ⟨fun _ => 255, 0, .idle⟩
  exact ⟨calls, r, s', hrun, hchip,
    loadConfig_refines lDefaultNbMCFG _ s' calls r hrun hchip⟩

/-- A load that no loop holds up has not given up, so it returns what was saved. -/
theorem load_after_save_prompt : ∃ saving loading s' s'',
    Runs (saveConfig { lDefaultNbMCFG with baudrate := 9600 }) saving 0 ∧
    Chain Step ⟨fun _ => 255, 0, .idle⟩ saving s' ∧ Chain Step s' loading s'' ∧
    Runs (loadConfig lDefaultNbMCFG) loading (0, { lDefaultNbMCFG with baudrate := 9600 }) := by
  obtain ⟨saving, s', hsave, hsaving⟩ :=
    runs_saveConfig { lDefaultNbMCFG with baudrate := 9600 } ⟨fun _ => 255, 0, .idle⟩
  obtain ⟨loading, r, s'', hload, hloading, hprompt⟩ := runs_loadConfig lDefaultNbMCFG s'
  have hresult :=
    load_after_save lDefaultNbMCFG _ _ s' s'' saving loading r hsave hsaving hload hloading
  rcases hresult with rfl | ⟨_, call, hrefused, hpart⟩
  · exact ⟨saving, loading, s', s'', hsave, hsaving, hloading, hload⟩
  · exact absurd hrefused (hprompt call (hpart.subset (by simp)))

end Prompt

end GemhoNbiot.Eeprom
