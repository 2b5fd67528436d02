import Mathlib.Data.List.Induction
import GemhoNbiot.TraceLogic

/-!
The EEPROM driver of SEE_i2c.c as programs over the calls that reach the I2C
peripheral; every status value may be anything. Each polling loop gives up after
a bounded number of refusals and the function then returns at once. Outside the
BUSY loops no such return generates a STOP, so a call hands the bus back exactly
when the last status it read was BUSY or the one that it was waiting for.
-/
namespace GemhoNbiot.I2cBus

open Program TraceLogic

inductive I2cFlag
  | busy
  | rxne

inductive I2cEvent
  | masterModeSelect
  | masterTransmitterModeSelected
  | masterReceiverModeSelected
  | masterByteTransmitted

inductive Direction
  | transmitter
  | receiver

/-- The bits of SR1 that the driver tests. -/
structure StatusRegister where
  addr : Bool
  af : Bool

inductive Op
  | getFlagStatus (flag : I2cFlag)
  | checkEvent (event : I2cEvent)
  | readSR1
  | readSR2
  | readCR1Stop
  | generateStart
  | generateStop
  | acknowledgeConfig (enable : Bool)
  | send7bitAddress (address : UInt8) (direction : Direction)
  | sendData (data : UInt8)
  | receiveData
  | clearFlagAF

/-- The driver drops what it reads from SR2. -/
abbrev Op.Res : Op → Type
  | .getFlagStatus _ => Bool
  | .checkEvent _ => Bool
  | .readSR1 => StatusRegister
  | .readCR1Stop => Bool
  | .receiveData => UInt8
  | _ => Unit

abbrev I2c := Prog Op Op.Res

abbrev Call := Event Op Op.Res

def readSR1 : I2c StatusRegister := Prog.perform Op.readSR1
def readSR2 : I2c Unit := Prog.perform Op.readSR2
def generateStart : I2c Unit := Prog.perform Op.generateStart
def generateStop : I2c Unit := Prog.perform Op.generateStop
def acknowledgeConfig (enable : Bool) : I2c Unit := Prog.perform (Op.acknowledgeConfig enable)
def send7bitAddress (address : UInt8) (direction : Direction) : I2c Unit :=
  Prog.perform (Op.send7bitAddress address direction)
def sendData (data : UInt8) : I2c Unit := Prog.perform (Op.sendData data)
def receiveData : I2c UInt8 := Prog.perform Op.receiveData
def clearFlagAF : I2c Unit := Prog.perform Op.clearFlagAF

def sEE_FLAG_TIMEOUT : ℕ := 0x1000
def sEE_LONG_TIMEOUT : ℕ := 10 * sEE_FLAG_TIMEOUT
def sEE_MAX_TRIALS_NUMBER : ℕ := 150
def sEE_OK : ℕ := 0
def sEE_FAIL : ℕ := 1

def sEE_TIMEOUT_UserCallback : ℕ := 2

/-- A polling loop with sEETimeout set: did it see what it waits for? -/
def poll (op : Op) (seen : op.Res → Bool) : ℕ → I2c Bool
  | 0 => do
    let r ← Prog.perform op
    pure (seen r)
  | sEETimeout + 1 => do
    let r ← Prog.perform op
    if seen r then
      pure true
    else
      poll op seen sEETimeout

def waitWhileBusy : I2c Bool := poll (.getFlagStatus .busy) (fun busy => !busy) sEE_LONG_TIMEOUT
def waitEvent (event : I2cEvent) : I2c Bool := poll (.checkEvent event) id sEE_FLAG_TIMEOUT
def waitReceived : I2c Bool := poll (.getFlagStatus .rxne) id sEE_FLAG_TIMEOUT
def waitStopSent : I2c Bool := poll .readCR1Stop (fun stop => !stop) sEE_FLAG_TIMEOUT

/-- The do-while over SR1. The timeout is tested after the read and before the
bits, so the last read is not looked at. -/
def waitAddressed : ℕ → I2c (Option StatusRegister)
  | 0 => do
    let _ ← readSR1
    pure none
  | sEETimeout + 1 => do
    let tmpSR1 ← readSR1
    if tmpSR1.addr || tmpSR1.af then
      pure (some tmpSR1)
    else
      waitAddressed sEETimeout

/-- One turn of the while (1); `again` is what follows an address that was not
acknowledged. -/
def standbyTrial (sEEAddress : UInt16) (again : I2c ℕ) : I2c ℕ := do
  generateStart
  let seen ← waitEvent .masterModeSelect
  if !seen then
    return sEE_TIMEOUT_UserCallback
  send7bitAddress sEEAddress.toUInt8 .transmitter
  let answer ← waitAddressed sEE_LONG_TIMEOUT
  match answer with
  | none => return sEE_TIMEOUT_UserCallback
  | some tmpSR1 =>
    if tmpSR1.addr then
      readSR2
      generateStop
      return sEE_OK
    clearFlagAF
    again

/-- The while (1) from the turn that has `trials` more behind it. -/
def standbyTrials (sEEAddress : UInt16) : ℕ → I2c ℕ
  | 0 => standbyTrial sEEAddress (pure sEE_TIMEOUT_UserCallback)
  | trials + 1 => standbyTrial sEEAddress (standbyTrials sEEAddress trials)

def sEEWaitEepromStandbyState (sEEAddress : UInt16) : I2c ℕ := do
  let idle ← waitWhileBusy
  if !idle then
    return sEE_TIMEOUT_UserCallback
  standbyTrials sEEAddress sEE_MAX_TRIALS_NUMBER

def seeI2cWrite (sEEAddress : UInt16) (wData : UInt8) (writeAddr : UInt16) : I2c ℕ := do
  let ret ← sEEWaitEepromStandbyState sEEAddress
  if ret ≠ sEE_OK then
    return sEE_FAIL
  let idle ← waitWhileBusy
  if !idle then
    return sEE_TIMEOUT_UserCallback
  generateStart
  let seen ← waitEvent .masterModeSelect
  if !seen then
    return sEE_TIMEOUT_UserCallback
  send7bitAddress sEEAddress.toUInt8 .transmitter
  let seen ← waitEvent .masterTransmitterModeSelected
  if !seen then
    return sEE_TIMEOUT_UserCallback
  sendData writeAddr.toUInt8
  let seen ← waitEvent .masterByteTransmitted
  if !seen then
    return sEE_TIMEOUT_UserCallback
  sendData wData
  let seen ← waitEvent .masterByteTransmitted
  if !seen then
    return sEE_TIMEOUT_UserCallback
  generateStop
  return sEE_OK

/-- The result and what was stored through rData. -/
def seeI2cRead (sEEAddress : UInt16) (readAddr : UInt16) : I2c (ℕ × Option UInt8) := do
  let idle ← waitWhileBusy
  if !idle then
    return (sEE_TIMEOUT_UserCallback, none)
  generateStart
  let seen ← waitEvent .masterModeSelect
  if !seen then
    return (sEE_TIMEOUT_UserCallback, none)
  send7bitAddress sEEAddress.toUInt8 .transmitter
  let seen ← waitEvent .masterTransmitterModeSelected
  if !seen then
    return (sEE_TIMEOUT_UserCallback, none)
  sendData readAddr.toUInt8
  let seen ← waitEvent .masterByteTransmitted
  if !seen then
    return (sEE_TIMEOUT_UserCallback, none)
  generateStart
  let seen ← waitEvent .masterModeSelect
  if !seen then
    return (sEE_TIMEOUT_UserCallback, none)
  send7bitAddress sEEAddress.toUInt8 .receiver
  let seen ← waitEvent .masterReceiverModeSelected
  if !seen then
    return (sEE_TIMEOUT_UserCallback, none)
  acknowledgeConfig false
  let received ← waitReceived
  if !received then
    acknowledgeConfig true
    return (sEE_TIMEOUT_UserCallback, none)
  let rData ← receiveData
  let sent ← waitStopSent
  if !sent then
    acknowledgeConfig true
    return (sEE_TIMEOUT_UserCallback, some rData)
  acknowledgeConfig true
  generateStop
  return (sEE_OK, some rData)

/-- Every START of the call has a STOP after it. -/
def StopAfterStart (calls : List Call) : Prop :=
  ∀ before later, calls = before ++ ⟨.generateStart, ()⟩ :: later →
    ⟨.generateStop, ()⟩ ∈ later

/-- Is acknowledge enabled after the calls? -/
def acknowledged (entry : Bool) (calls : List Call) : Bool :=
  calls.foldl (fun enabled call =>
    match call with
    | ⟨.acknowledgeConfig enable, _⟩ => enable
    | _ => enabled) entry

/-- The bus is free again, and acknowledge is enabled if it was at entry. -/
structure Usable (calls : List Call) : Prop where
  released : StopAfterStart calls
  acknowledge : acknowledged true calls = true

/-- A status value: is it BUSY, or what its loop waits for? SR1 is not: a loop
that ends with it is followed by another one, or by the return. -/
def awaited : Call → Option Bool
  | ⟨.getFlagStatus .busy, _⟩ => some true
  | ⟨.getFlagStatus .rxne, r⟩ => some r
  | ⟨.checkEvent _, r⟩ => some r
  | ⟨.readSR1, _⟩ => some false
  | ⟨.readCR1Stop, r⟩ => some (!r)
  | _ => none

/-- The last status value of the call was BUSY or the one waited for. -/
def LastAwaited (calls : List Call) : Prop := (calls.filterMap awaited).getLast? = some true

/-- What matters of the calls so far: is a STOP owed to a START, is acknowledge
enabled, and was the last status value an awaited one. -/
structure Bus where
  owed : Bool
  ack : Bool
  heard : Bool

def Bus.step (s : Bus) (call : Call) : Bus where
  owed :=
    match call with
    | ⟨.generateStart, _⟩ => true
    | ⟨.generateStop, _⟩ => false
    | _ => s.owed
  ack :=
    match call with
    | ⟨.acknowledgeConfig enable, _⟩ => enable
    | _ => s.ack
  heard := (awaited call).getD s.heard

def busAfter (calls : List Call) : Bus := calls.foldl Bus.step ⟨false, true, false⟩

theorem busAfter_snoc (calls : List Call) (call : Call) :
    busAfter (calls ++ [call]) = (busAfter calls).step call := by
  unfold busAfter
  rw [List.foldl_append]
  rfl

section Summary

variable {calls : List Call}

theorem stopAfterStart_snoc {call : Call} (hstart : call ≠ ⟨.generateStart, ()⟩)
    (hstop : call ≠ ⟨.generateStop, ()⟩) :
    StopAfterStart (calls ++ [call]) ↔ StopAfterStart calls := by
  constructor
  · intro h before later heq
    have hmem := h before (later ++ [call]) (by rw [heq, List.append_assoc, List.cons_append])
    rcases List.mem_append.mp hmem with hmem | hmem
    · exact hmem
    · exact absurd (List.mem_singleton.mp hmem).symm hstop
  · intro h before later heq
    rcases List.eq_nil_or_concat later with rfl | ⟨later, last, rfl⟩
    · have hlast := (List.append_inj' heq rfl).2
      exact absurd (List.cons.inj hlast).1 hstart
    · rw [List.concat_eq_append, ← List.cons_append, ← List.append_assoc] at heq
      rw [List.concat_eq_append]
      exact List.mem_append_left _ (h before later (List.append_inj' heq rfl).1)

theorem stopAfterStart_start : ¬ StopAfterStart (calls ++ [⟨.generateStart, ()⟩]) := by
  intro h
  have hmem := h calls [] rfl
  exact List.not_mem_nil hmem

theorem stopAfterStart_stop : StopAfterStart (calls ++ [⟨.generateStop, ()⟩]) := by
  intro before later heq
  rcases List.eq_nil_or_concat later with rfl | ⟨later, last, rfl⟩
  · have hlast := (List.append_inj' heq rfl).2
    cases (List.cons.inj hlast).1
  · rw [List.concat_eq_append, ← List.cons_append, ← List.append_assoc] at heq
    rw [List.concat_eq_append, (List.cons.inj (List.append_inj' heq rfl).2).1]
    exact List.mem_append_right _ (List.mem_singleton.mpr rfl)

theorem owed_iff (calls : List Call) :
    (busAfter calls).owed = false ↔ StopAfterStart calls := by
  induction calls using List.reverseRecOn with
  | nil => exact ⟨fun _ before later heq => by simp at heq, fun _ => rfl⟩
  | append_singleton calls call ih =>
    rw [busAfter_snoc]
    obtain ⟨op, r⟩ := call
    cases op with
    | generateStart => exact ⟨fun h => (by cases h), fun h => absurd h stopAfterStart_start⟩
    | generateStop => exact ⟨fun _ => stopAfterStart_stop, fun _ => rfl⟩
    | _ => exact ih.trans (stopAfterStart_snoc (by simp) (by simp)).symm

theorem ack_eq (calls : List Call) : (busAfter calls).ack = acknowledged true calls := by
  induction calls using List.reverseRecOn with
  | nil => rfl
  | append_singleton calls call ih =>
    rw [busAfter_snoc, acknowledged, List.foldl_append]
    obtain ⟨op, r⟩ := call
    cases op with
    | acknowledgeConfig enable => rfl
    | _ => exact ih

theorem heard_iff (calls : List Call) :
    (busAfter calls).heard = true ↔ LastAwaited calls := by
  unfold LastAwaited
  induction calls using List.reverseRecOn with
  | nil => simp [busAfter]
  | append_singleton calls call ih =>
    rw [busAfter_snoc, List.filterMap_append]
    change (awaited call).getD (busAfter calls).heard = true ↔ _
    cases hcall : awaited call with
    | none => simpa [hcall] using ih
    | some b => simp [hcall]

/-- The bus as the driver leaves it at a return. -/
def Settled (calls : List Call) : Prop :=
  (busAfter calls).ack = true ∧ (busAfter calls).owed = !(busAfter calls).heard

theorem Settled.usable_iff (h : Settled calls) : Usable calls ↔ LastAwaited calls := by
  rw [← heard_iff]
  have howed := h.2
  constructor
  · intro husable
    have hfree := (owed_iff calls).mpr husable.released
    simpa [hfree] using howed
  · intro hheard
    constructor
    case released =>
      apply (owed_iff calls).mp
      simpa [hheard] using howed
    case acknowledge => rw [← ack_eq, h.1]

end Summary

section Triples

/-- The calls have left the bus like this. -/
def At (owed ack heard : Bool) (calls : List Call) : Prop := busAfter calls = ⟨owed, ack, heard⟩

variable {α : Type} {o a h : Bool} {post : α → List Call → Prop}

theorem At.snoc {calls : List Call} (hat : At o a h calls) (call : Call) :
    busAfter (calls ++ [call]) = (Bus.step ⟨o, a, h⟩ call) := by
  rw [busAfter_snoc, hat]

/-- One call that is no status read, with what it makes of the bus. -/
theorem triple_op {op : Op} {next : op.Res → I2c α} {o' a' : Bool}
    (hstep : ∀ r, Bus.step ⟨o, a, h⟩ ⟨op, r⟩ = ⟨o', a', h⟩)
    (hnext : ∀ r, Triple (At o' a' h) (next r) post) :
    Triple (At o a h) (Prog.perform op >>= next) post := by
  refine triple_call (fun _ => At o' a' h) ?_ ?_
  · intro calls r hat
    exact (hat.snoc _).trans (hstep r)
  · exact hnext

/-- A polling loop: only what was read last changes. -/
theorem poll_triple {op : Op} {seen : op.Res → Bool} (verdict : op.Res → Bool)
    (hstep : ∀ s r, Bus.step s ⟨op, r⟩ = ⟨s.owed, s.ack, verdict r⟩) (n : ℕ) :
    Triple (At o a h) (poll op seen n)
      (fun b calls => ∃ r, b = seen r ∧ At o a (verdict r) calls) := by
  induction n generalizing h with
  | zero =>
    refine triple_call (fun r => At o a (verdict r)) ?_ ?_
    · intro calls r hat
      exact (hat.snoc _).trans (hstep _ r)
    · intro r
      refine triple_pure ?_
      exact fun calls hat => ⟨r, rfl, hat⟩
  | succ n ih =>
    refine triple_call (fun r => At o a (verdict r)) ?_ ?_
    · intro calls r hat
      exact (hat.snoc _).trans (hstep _ r)
    · intro r
      refine triple_ite ?_ ?_
      · intro hseen
        refine triple_pure ?_
        exact fun calls hat => ⟨r, hseen.symm, hat⟩
      · exact fun _ => ih

theorem settled_late {calls : List Call} (hat : At true true false calls) : Settled calls := by
  unfold Settled
  rw [hat]
  exact ⟨rfl, rfl⟩

theorem settled_free {calls : List Call} (hat : At false true true calls) : Settled calls := by
  unfold Settled
  rw [hat]
  exact ⟨rfl, rfl⟩

/-- A loop whose status value decides: the return after its timeout, the rest
after the awaited value. -/
theorem triple_poll {op : Op} {seen : op.Res → Bool} {n : ℕ} {late rest : I2c α}
    (hstep : ∀ s r, Bus.step s ⟨op, r⟩ = ⟨s.owed, s.ack, seen r⟩)
    (hlate : Triple (At o a false) late post) (hrest : Triple (At o a true) rest post) :
    Triple (At o a h)
      (poll op seen n >>= fun b => if (!b) = true then late else rest) post := by
  refine triple_bind _ (poll_triple seen hstep n) ?_
  intro b
  cases b with
  | false =>
    refine Triple.mono hlate ?_ (fun _ _ hpost => hpost)
    rintro calls ⟨r, hseen, hat⟩
    rwa [← hseen] at hat
  | true =>
    refine Triple.mono hrest ?_ (fun _ _ hpost => hpost)
    rintro calls ⟨r, hseen, hat⟩
    rwa [← hseen] at hat

/-- The BUSY loop: either way BUSY was read last. -/
theorem triple_busy {late rest : I2c α} (hlate : Triple (At o a true) late post)
    (hrest : Triple (At o a true) rest post) :
    Triple (At o a h)
      (waitWhileBusy >>= fun b => if (!b) = true then late else rest) post := by
  have hloop : Triple (At o a h) waitWhileBusy
      (fun b calls => ∃ r, b = !r ∧ At o a true calls) :=
    poll_triple (fun _ => true) (fun _ _ => rfl) sEE_LONG_TIMEOUT
  refine triple_bind _ hloop ?_
  intro b
  cases b with
  | false => exact Triple.mono hlate (fun _ ⟨_, _, hat⟩ => hat) (fun _ _ hpost => hpost)
  | true => exact Triple.mono hrest (fun _ ⟨_, _, hat⟩ => hat) (fun _ _ hpost => hpost)

end Triples

section Standby

variable {o h : Bool} {sEEAddress : UInt16}

theorem waitAddressed_triple {a : Bool} (n : ℕ) :
    Triple (At o a h) (waitAddressed n) (fun _ => At o a false) := by
  induction n generalizing h with
  | zero =>
    refine triple_call (fun _ => At o a false) (fun _ _ hat => hat.snoc _) (fun _ => ?_)
    exact triple_pure fun _ hat => hat
  | succ n ih =>
    refine triple_call (fun _ => At o a false) (fun _ _ hat => hat.snoc _) (fun tmpSR1 => ?_)
    refine triple_ite ?_ ?_
    · exact fun _ => triple_pure fun _ hat => hat
    · exact fun _ => ih

/-- What sEE_WaitEepromStandbyState leaves: a free bus, or a settled one. -/
def StandbyPost (ret : ℕ) (calls : List Call) : Prop :=
  (ret = sEE_OK ∧ At false true false calls) ∨ (ret ≠ sEE_OK ∧ Settled calls)

theorem standby_late :
    Triple (At true true false) (pure sEE_TIMEOUT_UserCallback : I2c ℕ) StandbyPost :=
  triple_pure fun _ hat => Or.inr ⟨by decide, settled_late hat⟩

/-- One trial; a refused address leaves the START without a STOP. -/
theorem standbyTrial_triple {again : I2c ℕ}
    (hagain : Triple (At true true false) again StandbyPost) :
    Triple (At o true h) (standbyTrial sEEAddress again) StandbyPost := by
  unfold standbyTrial
  refine triple_op (fun _ => rfl) fun _ => ?_
  refine triple_poll (fun _ _ => rfl) standby_late ?_
  refine triple_op (fun _ => rfl) fun _ => ?_
  refine triple_bind _ (waitAddressed_triple sEE_LONG_TIMEOUT) fun answer => ?_
  cases answer with
  | none => exact standby_late
  | some tmpSR1 =>
    refine triple_ite ?_ ?_
    · intro _
      refine triple_op (fun _ => rfl) fun _ => ?_
      refine triple_op (fun _ => rfl) fun _ => ?_
      exact triple_pure fun _ hat => Or.inl ⟨rfl, hat⟩
    · intro _
      exact triple_op (fun _ => rfl) fun _ => hagain

/-- The retry loop, by induction on the trials left. -/
theorem standbyTrials_triple (trials : ℕ) :
    Triple (At o true h) (standbyTrials sEEAddress trials) StandbyPost := by
  induction trials generalizing o h with
  | zero => exact standbyTrial_triple standby_late
  | succ trials ih => exact standbyTrial_triple ih

theorem standby_triple :
    Triple (At false true h) (sEEWaitEepromStandbyState sEEAddress) StandbyPost := by
  refine triple_busy ?_ (standbyTrials_triple sEE_MAX_TRIALS_NUMBER)
  exact triple_pure fun _ hat => Or.inr ⟨by decide, settled_free hat⟩

end Standby

section Returns

variable {env : Env Op Op.Res} {before : List Call} {sEEAddress : UInt16}

theorem poll_returns (op : Op) (seen : op.Res → Bool) (n : ℕ) :
    Returns env before (poll op seen n) := by
  induction n generalizing before with
  | zero => exact returns_call (returns_pure _)
  | succ n ih =>
    refine returns_call (returns_ite ?_ ?_)
    · exact fun _ => returns_pure _
    · exact fun _ => ih

theorem waitAddressed_returns (n : ℕ) : Returns env before (waitAddressed n) := by
  induction n generalizing before with
  | zero => exact returns_call (returns_pure _)
  | succ n ih =>
    refine returns_call (returns_ite ?_ ?_)
    · exact fun _ => returns_pure _
    · exact fun _ => ih

/-- A loop whose timeout has a return of its own. -/
theorem returns_poll {α : Type} {op : Op} {seen : op.Res → Bool} {n : ℕ} {late rest : I2c α}
    (hlate : ∀ before, Returns env before late) (hrest : ∀ before, Returns env before rest) :
    Returns env before (poll op seen n >>= fun b => if (!b) = true then late else rest) := by
  refine returns_bind (poll_returns op seen n) fun _ b _ => returns_ite ?_ ?_
  · exact fun _ => hlate _
  · exact fun _ => hrest _

theorem standbyTrial_returns {again : I2c ℕ} (hagain : ∀ before, Returns env before again) :
    Returns env before (standbyTrial sEEAddress again) := by
  refine returns_call (returns_poll (fun _ => returns_pure _) fun _ => ?_)
  refine returns_call (returns_bind (waitAddressed_returns _) fun _ answer _ => ?_)
  cases answer with
  | none => exact returns_pure _
  | some tmpSR1 =>
    refine returns_ite ?_ ?_
    · exact fun _ => returns_call (returns_call (returns_pure _))
    · exact fun _ => returns_call (hagain _)

theorem standbyTrials_returns (trials : ℕ) :
    Returns env before (standbyTrials sEEAddress trials) := by
  induction trials generalizing before with
  | zero => exact standbyTrial_returns fun _ => returns_pure _
  | succ trials ih => exact standbyTrial_returns fun _ => ih

/-- Whatever the peripheral reports, a write ends. -/
theorem seeI2cWrite_returns (wData : UInt8) (writeAddr : UInt16) :
    Returns env before (seeI2cWrite sEEAddress wData writeAddr) := by
  refine returns_bind ?_ fun _ ret _ => returns_ite (fun _ => returns_pure _) fun _ => ?_
  · exact returns_poll (fun _ => returns_pure _) fun _ => standbyTrials_returns _
  · refine returns_poll (fun _ => returns_pure _) fun _ => returns_call ?_
    refine returns_poll (fun _ => returns_pure _) fun _ => returns_call ?_
    refine returns_poll (fun _ => returns_pure _) fun _ => returns_call ?_
    refine returns_poll (fun _ => returns_pure _) fun _ => returns_call ?_
    refine returns_poll (fun _ => returns_pure _) fun _ => returns_call ?_
    exact returns_pure _

/-- Whatever the peripheral reports, a read ends. -/
theorem seeI2cRead_returns (readAddr : UInt16) :
    Returns env before (seeI2cRead sEEAddress readAddr) := by
  refine returns_poll (fun _ => returns_pure _) fun _ => returns_call ?_
  refine returns_poll (fun _ => returns_pure _) fun _ => returns_call ?_
  refine returns_poll (fun _ => returns_pure _) fun _ => returns_call ?_
  refine returns_poll (fun _ => returns_pure _) fun _ => returns_call ?_
  refine returns_poll (fun _ => returns_pure _) fun _ => returns_call ?_
  refine returns_poll (fun _ => returns_pure _) fun _ => returns_call ?_
  refine returns_poll (fun _ => returns_call (returns_pure _)) fun _ => returns_call ?_
  refine returns_poll (fun _ => returns_call (returns_pure _)) fun _ => returns_call ?_
  exact returns_call (returns_pure _)

end Returns

section Transfers

variable {α : Type} {h : Bool} {sEEAddress : UInt16}

theorem pure_late (a : α) :
    Triple (At true true false) (pure a : I2c α) (fun _ => Settled) :=
  triple_pure fun _ => settled_late

theorem pure_free (a : α) :
    Triple (At false true true) (pure a : I2c α) (fun _ => Settled) :=
  triple_pure fun _ => settled_free

theorem seeI2cWrite_triple (wData : UInt8) (writeAddr : UInt16) :
    Triple (At false true h) (seeI2cWrite sEEAddress wData writeAddr) (fun _ => Settled) := by
  unfold seeI2cWrite
  refine triple_bind _ standby_triple fun ret => ?_
  refine triple_ite ?_ ?_
  · intro hret
    refine triple_pure fun calls hpost => ?_
    rcases hpost with ⟨hok, _⟩ | ⟨_, hsettled⟩
    · exact absurd hok hret
    · exact hsettled
  · intro hret
    have hok : ∀ calls, StandbyPost ret calls → At false true false calls := by
      intro calls hpost
      rcases hpost with ⟨_, hat⟩ | ⟨hne, _⟩
      · exact hat
      · exact absurd hne hret
    refine Triple.mono ?_ hok (fun _ _ hpost => hpost)
    refine triple_busy (pure_free _) ?_
    refine triple_op (fun _ => rfl) fun _ => ?_
    refine triple_poll (fun _ _ => rfl) (pure_late _) ?_
    refine triple_op (fun _ => rfl) fun _ => ?_
    refine triple_poll (fun _ _ => rfl) (pure_late _) ?_
    refine triple_op (fun _ => rfl) fun _ => ?_
    refine triple_poll (fun _ _ => rfl) (pure_late _) ?_
    refine triple_op (fun _ => rfl) fun _ => ?_
    refine triple_poll (fun _ _ => rfl) (pure_late _) ?_
    exact triple_op (fun _ => rfl) fun _ => pure_free _

/-- The two returns that enable acknowledge again do not generate a STOP. -/
theorem acknowledge_late (a : α) :
    Triple (At true false false) (acknowledgeConfig true >>= fun _ => (pure a : I2c α))
      (fun _ => Settled) :=
  triple_op (fun _ => rfl) fun _ => pure_late a

theorem seeI2cRead_triple (readAddr : UInt16) :
    Triple (At false true h) (seeI2cRead sEEAddress readAddr) (fun _ => Settled) := by
  unfold seeI2cRead
  refine triple_busy (pure_free _) ?_
  refine triple_op (fun _ => rfl) fun _ => ?_
  refine triple_poll (fun _ _ => rfl) (pure_late _) ?_
  refine triple_op (fun _ => rfl) fun _ => ?_
  refine triple_poll (fun _ _ => rfl) (pure_late _) ?_
  refine triple_op (fun _ => rfl) fun _ => ?_
  refine triple_poll (fun _ _ => rfl) (pure_late _) ?_
  refine triple_op (fun _ => rfl) fun _ => ?_
  refine triple_poll (fun _ _ => rfl) (pure_late _) ?_
  refine triple_op (fun _ => rfl) fun _ => ?_
  refine triple_poll (fun _ _ => rfl) (pure_late _) ?_
  refine triple_op (fun _ => rfl) fun _ => ?_
  refine triple_poll (fun _ _ => rfl) (acknowledge_late _) ?_
  refine triple_op (fun _ => rfl) fun rData => ?_
  refine triple_poll (fun _ _ => rfl) (acknowledge_late _) ?_
  refine triple_op (fun _ => rfl) fun _ => ?_
  exact triple_op (fun _ => rfl) fun _ => pure_free _

/-- On every return of a write or a read the bus is usable exactly when the
last status value of the call was BUSY or the one that it waited for. -/
theorem bus_usable_iff (sEEAddress : UInt16) :
    (∀ wData writeAddr calls ret, Runs (seeI2cWrite sEEAddress wData writeAddr) calls ret →
      (Usable calls ↔ LastAwaited calls)) ∧
    (∀ readAddr calls r, Runs (seeI2cRead sEEAddress readAddr) calls r →
      (Usable calls ↔ LastAwaited calls)) := by
  have hstart : At false true false [] := rfl
  constructor
  · intro wData writeAddr calls ret hrun
    exact (seeI2cWrite_triple wData writeAddr [] calls ret hstart hrun).usable_iff
  · intro readAddr calls r hrun
    exact (seeI2cRead_triple readAddr [] calls r hstart hrun).usable_iff

/-- The half about acknowledge holds on every return. -/
theorem acknowledge_kept (sEEAddress : UInt16) :
    (∀ wData writeAddr calls ret, Runs (seeI2cWrite sEEAddress wData writeAddr) calls ret →
      acknowledged true calls = true) ∧
    (∀ readAddr calls r, Runs (seeI2cRead sEEAddress readAddr) calls r →
      acknowledged true calls = true) := by
  have hstart : At false true false [] := rfl
  constructor
  · intro wData writeAddr calls ret hrun
    rw [← ack_eq]
    exact (seeI2cWrite_triple wData writeAddr [] calls ret hstart hrun).1
  · intro readAddr calls r hrun
    rw [← ack_eq]
    exact (seeI2cRead_triple readAddr [] calls r hstart hrun).1

/-- A loop that sees what it waits for at once. -/
theorem runs_seen {op : Op} {seen : op.Res → Bool} {n : ℕ} {r : op.Res} {next : Bool → I2c α}
    {rest : List Call} {a : α} (hr : seen r = true) (hnext : Runs (next true) rest a) :
    Runs (poll op seen n >>= next) (⟨op, r⟩ :: rest) a := by
  apply (runs_bind _ _ _ _).mpr
  refine ⟨[⟨op, r⟩], rest, true, rfl, ?_, hnext⟩
  cases n with
  | zero =>
    have hret : Runs (pure (seen r) : I2c Bool) [] true := (runs_pure _ _ _).mpr ⟨rfl, hr.symm⟩
    exact .call hret
  | succ n =>
    have hret : Runs (if seen r then pure true else poll op seen n) [] true := by
      rw [if_pos hr]
      exact .ret true
    exact .call hret

/-- A loop that never sees it. -/
theorem runs_given_up {op : Op} {seen : op.Res → Bool} (n : ℕ) {r : op.Res}
    {next : Bool → I2c α} {a : α} (hr : seen r = false) (hnext : Runs (next false) [] a) :
    Runs (poll op seen n >>= next) (List.replicate (n + 1) ⟨op, r⟩) a := by
  apply (runs_bind _ _ _ _).mpr
  refine ⟨_, [], false, (List.append_nil _).symm, ?_, hnext⟩
  induction n with
  | zero =>
    have hret : Runs (pure (seen r) : I2c Bool) [] false := (runs_pure _ _ _).mpr ⟨rfl, hr.symm⟩
    exact .call hret
  | succ n ih =>
    have hnot : ¬ seen r = true := by simp [hr]
    have hagain : Runs (if seen r then pure true else poll op seen n)
        (List.replicate (n + 1) ⟨op, r⟩) false := by
      rw [if_neg hnot]
      exact ih
    exact .call hagain

/-- The calls of a read that is never made to wait. -/
def promptRead (readAddr : UInt16) (rData : UInt8) : List Call :=
  [⟨.getFlagStatus .busy, false⟩, ⟨.generateStart, ()⟩, ⟨.checkEvent .masterModeSelect, true⟩,
    ⟨.send7bitAddress 160 .transmitter, ()⟩, ⟨.checkEvent .masterTransmitterModeSelected, true⟩,
    ⟨.sendData readAddr.toUInt8, ()⟩, ⟨.checkEvent .masterByteTransmitted, true⟩,
    ⟨.generateStart, ()⟩, ⟨.checkEvent .masterModeSelect, true⟩,
    ⟨.send7bitAddress 160 .receiver, ()⟩, ⟨.checkEvent .masterReceiverModeSelected, true⟩,
    ⟨.acknowledgeConfig false, ()⟩, ⟨.getFlagStatus .rxne, true⟩, ⟨.receiveData, rData⟩,
    ⟨.readCR1Stop, false⟩, ⟨.acknowledgeConfig true, ()⟩, ⟨.generateStop, ()⟩]

theorem runs_promptRead (readAddr : UInt16) (rData : UInt8) :
    Runs (seeI2cRead 160 readAddr) (promptRead readAddr rData) (sEE_OK, some rData) := by
  refine runs_seen rfl (.call ?_)
  refine runs_seen rfl (.call ?_)
  refine runs_seen rfl (.call ?_)
  refine runs_seen rfl (.call ?_)
  refine runs_seen rfl (.call ?_)
  refine runs_seen rfl (.call ?_)
  refine runs_seen rfl (.call ?_)
  exact runs_seen rfl (.call (.call (.ret _)))

theorem bus_usable_iff_prompt : Usable (promptRead 7 42) := by
  have hrun := runs_promptRead 7 42
  exact ((bus_usable_iff 160).2 7 _ _ hrun).mpr rfl

/-- A START that the peripheral never reports. -/
def lostStart : List Call :=
  [⟨.getFlagStatus .busy, false⟩, ⟨.generateStart, ()⟩] ++
    List.replicate (sEE_FLAG_TIMEOUT + 1) ⟨.checkEvent .masterModeSelect, false⟩

theorem lostStart_owes : ¬ StopAfterStart lostStart := by
  intro h
  have hmem := h [⟨.getFlagStatus .busy, false⟩] _ rfl
  have heq := List.eq_of_mem_replicate hmem
  simp at heq

/-- Both routines return in the middle of a transaction that was started. -/
theorem bus_left_busy :
    (¬ ∀ calls ret, Runs (seeI2cWrite 160 1 0) calls ret → Usable calls) ∧
      ¬ ∀ calls r, Runs (seeI2cRead 160 0) calls r → Usable calls := by
  constructor
  · intro h
    have hstandby : Runs (sEEWaitEepromStandbyState 160) lostStart sEE_TIMEOUT_UserCallback := by
      refine runs_seen rfl (.call ?_)
      exact runs_given_up sEE_FLAG_TIMEOUT rfl (.ret _)
    have hrun : Runs (seeI2cWrite 160 1 0) lostStart sEE_FAIL := by
      apply (runs_bind _ _ _ _).mpr
      exact ⟨lostStart, [], _, (List.append_nil _).symm, hstandby, .ret _⟩
    exact lostStart_owes (h _ _ hrun).released
  · intro h
    have hrun : Runs (seeI2cRead 160 0) lostStart (sEE_TIMEOUT_UserCallback, none) := by
      refine runs_seen rfl (.call ?_)
      exact runs_given_up sEE_FLAG_TIMEOUT rfl (.ret _)
    exact lostStart_owes (h _ _ hrun).released

end Transfers

end GemhoNbiot.I2cBus
