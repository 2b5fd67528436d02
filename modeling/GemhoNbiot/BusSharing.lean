import GemhoNbiot.ConcurrentSave
import GemhoNbiot.SharedDriver

/-!
A save of main_entry on the bus with saves of key_entry, which has the higher
priority and runs each of its own to the end, anywhere between two accesses of
the first. The driver has no lock, but it starts with a loop on BUSY: a save that
comes within a transfer of main_entry gives up there, and one that comes outside
finds no byte on its way. So the saves interleave byte by byte, as ConcurrentSave
has them.
-/
namespace GemhoNbiot.BusSharing

open Program TraceLogic SharedDriver ConcurrentSave LastWrite
open I2cBus hiding standbyTrial standbyTrials sEEWaitEepromStandbyState seeI2cWrite waitAddressed
  waitEvent waitWhileBusy
open Eeprom hiding Step writeLoop saveConfig
open ConfigUtils hiding saveConfig

section Merged

variable {b : NbModuConfig} {mem₀ mem : ℕ → UInt8} {done : List (ℕ × UInt8)} {rets : List ℕ}

/-- The memory after the byte writes `done` of main_entry, with those of saves of
key_entry in between that returned `rets`. -/
def Merged (b : NbModuConfig) (mem₀ : ℕ → UInt8) (done : List (ℕ × UInt8)) (rets : List ℕ)
    (mem : ℕ → UInt8) : Prop :=
  ∃ (run : SaveRunOf) (saves : List (List WriteFate)),
    rets.map Int.ofNat = saves.map (fun fates => (ConfigUtils.saveConfig b fates).ret) ∧
    writesOf .main run = done ∧
    writesOf .key run = saves.flatMap (fun fates => (ConfigUtils.saveConfig b fates).stores) ∧
    mem = storeAll mem₀ (run.map Prod.snd)

theorem Merged.nil : Merged b mem₀ [] [] mem₀ :=
  ⟨[], [], rfl, rfl, rfl, rfl⟩

/-- main_entry writes a byte. -/
theorem Merged.main (h : Merged b mem₀ done rets mem) (w : ℕ × UInt8) :
    Merged b mem₀ (done ++ [w]) rets (Function.update mem w.1 w.2) := by
  obtain ⟨run, saves, hrets, rfl, hkey, rfl⟩ := h
  refine ⟨run ++ [(.main, w)], saves, hrets, ?_, ?_, ?_⟩
  · rw [writesOf_append]
    rfl
  · rw [writesOf_append, hkey]
    exact List.append_nil _
  · rw [List.map_append]
    exact (applyAll_snoc _ _ w).symm

/-- key_entry saves. -/
theorem Merged.key {ret : ℕ} {fates : List WriteFate} (h : Merged b mem₀ done rets mem)
    (hret : (ret : ℤ) = (ConfigUtils.saveConfig b fates).ret) :
    Merged b mem₀ done (rets ++ [ret])
      (storeAll mem (ConfigUtils.saveConfig b fates).stores) := by
  obtain ⟨run, saves, hrets, rfl, hkey, rfl⟩ := h
  refine ⟨run ++ (ConfigUtils.saveConfig b fates).stores.map (Prod.mk .key), saves ++ [fates],
    ?_, ?_, ?_, ?_⟩
  · rw [List.map_append, List.map_append, hrets]
    exact congrArg _ (congrArg (fun r => [r]) hret)
  · rw [writesOf_append, writesOf_block, if_neg nofun, List.append_nil]
  · rw [writesOf_append, writesOf_block, if_pos rfl, hkey, List.flatMap_append,
      List.flatMap_singleton]
  · rw [List.map_append, storeAll, storeAll, storeAll, applyAll_append, List.map_map]
    exact congrArg _ (List.map_id _).symm

/-- key_entry finds a transfer on the bus. -/
theorem Merged.refused (h : Merged b mem₀ done rets mem) :
    Merged b mem₀ done (rets ++ [sEE_FAIL]) mem := by
  obtain ⟨w, ws, hws⟩ := List.exists_cons_of_ne_nil (recordWrites_ne_nil b)
  have hfail := SaveFaults.saveLoop_failed w ws [] .notReady nofun
  rw [← hws] at hfail
  have hret : ((sEE_FAIL : ℕ) : ℤ) = (ConfigUtils.saveConfig b [.notReady]).ret :=
    (congrArg SaveRun.ret hfail).symm
  have hkey := h.key hret
  rw [ConfigUtils.saveConfig, hfail] at hkey
  exact hkey

end Merged

section Around

variable {α : Type} {turns : ℕ} {b : NbModuConfig} {mem₀ : ℕ → UInt8} {s₀ : State}
variable {post : α → Accesses → Prop} {done : List (ℕ × UInt8)}

/-- What is asserted of the EEPROM, the bus and the saves of key_entry so far. -/
abbrev Assertion := Chip → Bool → List ℕ → Prop

/-- An assertion after some accesses of main_entry, with any saves of key_entry
in between. -/
def Around (turns : ℕ) (b : NbModuConfig) (s₀ : State) (P : Assertion) : Accesses → Prop :=
  Amid (KeySave turns b) Step s₀ fun s rets => P s.chip s.held rets

def Kept (turns : ℕ) (b : NbModuConfig) (P : Assertion) : Prop :=
  Stable (KeySave turns b) fun s rets => P s.chip s.held rets

/-- No transfer of main_entry is on its way. -/
def Free (b : NbModuConfig) (mem₀ : ℕ → UInt8) (done : List (ℕ × UInt8)) : Assertion :=
  fun chip _ rets => Merged b mem₀ done rets chip.mem

/-- In a transfer of main_entry that found the memory `mem`. -/
def Within (b : NbModuConfig) (mem₀ : ℕ → UInt8) (done : List (ℕ × UInt8))
    (A : (ℕ → UInt8) → Chip → Prop) : Assertion :=
  fun chip held rets => held = true ∧ ∃ mem, Merged b mem₀ done rets mem ∧ A mem chip

theorem free_kept : Kept turns b (Free b mem₀ done) := by
  intro s rets ret s' hfree hkey
  obtain ⟨fates, hret, hmem⟩ := hkey.stores
  change Merged b mem₀ done (rets ++ [ret]) s'.chip.mem
  rw [hmem]
  exact Merged.key hfree hret

theorem within_kept {A : (ℕ → UInt8) → Chip → Prop} : Kept turns b (Within b mem₀ done A) := by
  intro s rets ret s' hwithin hkey
  obtain ⟨hheld, mem, hmerged, hA⟩ := hwithin
  obtain ⟨rfl, rfl⟩ := hkey.held hheld
  exact ⟨hheld, mem, hmerged.refused, hA⟩

theorem free_of_within {A : (ℕ → UInt8) → Chip → Prop} {chip : Chip} {held : Bool}
    {rets : List ℕ} (hA : ∀ mem c, A mem c → c.mem = mem)
    (h : Within b mem₀ done A chip held rets) : Free b mem₀ done chip held rets := by
  obtain ⟨_, mem, hmerged, hchip⟩ := h
  rw [← hA mem chip hchip] at hmerged
  exact hmerged

theorem around_pure {P : Assertion} {a : α} {Q : α → Assertion}
    (h : ∀ chip held rets, P chip held rets → Q a chip held rets) :
    Triple (Around turns b s₀ P) (pure a : Driver α) (fun a => Around turns b s₀ (Q a)) :=
  triple_amid_pure fun s => h s.chip s.held

theorem around_mono {P P' : Assertion} {p : Driver α} (h : Triple (Around turns b s₀ P) p post)
    (hP : ∀ chip held rets, P' chip held rets → P chip held rets) :
    Triple (Around turns b s₀ P') p post :=
  triple_amid_mono h fun s => hP s.chip s.held

theorem around_bus {op : Op} {f : op.Res → Driver α} {P : Assertion} (Q : op.Res → Assertion)
    (hQ : ∀ r, Kept turns b (Q r))
    (h : ∀ c held rets r c', P c held rets → Eeprom.Step c ⟨op, r⟩ c' →
      Q r c' (heldAfter held ⟨op, r⟩) rets)
    (hf : ∀ r, Triple (Around turns b s₀ (Q r)) (f r) post) :
    Triple (Around turns b s₀ P) (bus op >>= f) post := by
  refine triple_amid (fun r s rets => Q r s.chip s.held rets) hQ ?_ hf
  intro s rets r s' hP hstep
  obtain ⟨chip, hchip, _, rfl⟩ := step_bus hstep
  exact h s.chip s.held rets r chip hP hchip

theorem around_set {P : Assertion} {n : ℕ} {rest : Driver α} (hP : Kept turns b P)
    (hrest : Triple (Around turns b s₀ P) rest post) :
    Triple (Around turns b s₀ P) (setTimeout n >>= fun _ => rest) post := by
  refine triple_amid (fun _ s rets => P s.chip s.held rets) (fun _ => hP) ?_ fun _ => hrest
  intro s rets r s' hs hstep
  obtain rfl := step_store hstep
  exact hs

theorem around_countDown {P : Assertion} {f : Bool → Driver α} (hP : Kept turns b P)
    (hf : ∀ zero, Triple (Around turns b s₀ P) (f zero) post) :
    Triple (Around turns b s₀ P) (countDown >>= f) post := by
  refine triple_bind (fun _ => Around turns b s₀ P) ?_ hf
  refine triple_amid (fun _ s rets => P s.chip s.held rets) (fun _ => hP) ?_ fun value => ?_
  · intro s rets r s' hs hstep
    obtain ⟨_, rfl⟩ := step_load hstep
    exact hs
  · refine triple_amid (fun _ s rets => P s.chip s.held rets) (fun _ => hP) ?_ fun _ => ?_
    · intro s rets r s' hs hstep
      obtain rfl := step_store hstep
      exact hs
    · exact around_pure fun _ _ _ hchip => hchip

theorem wait_around {op : Op} {seen : op.Res → Bool} {P Q : Assertion} (hP : Kept turns b P)
    (hQ : Kept turns b Q)
    (h : ∀ c held rets r c', P c held rets → Eeprom.Step c ⟨op, r⟩ c' →
      (if seen r = true then Q else P) c' (heldAfter held ⟨op, r⟩) rets) (looks : ℕ) :
    Triple (Around turns b s₀ P) (wait op seen looks)
      (fun found => Around turns b s₀ (if found = true then Q else P)) := by
  have hkept : ∀ found : Bool, Kept turns b (if found = true then Q else P) := by
    intro found
    cases found with
    | false => exact hP
    | true => exact hQ
  induction looks with
  | zero => exact triple_hang
  | succ looks ih =>
    refine around_bus (fun r => if seen r = true then Q else P) (fun r => hkept (seen r)) h
      fun r => triple_ite (fun hseen => ?_) fun hseen => ?_
    · rw [if_pos hseen]
      exact around_pure fun _ _ _ hchip => hchip
    · rw [if_neg hseen]
      refine around_countDown hP fun zero => triple_ite (fun _ => ?_) fun _ => ih
      exact around_pure fun _ _ _ hchip => hchip

/-- A loop with its timeout return and what follows the awaited value. -/
theorem around_wait {op : Op} {seen : op.Res → Bool} {looks n : ℕ} {late rest : Driver α}
    {P : Assertion} (Q : Assertion) (hP : Kept turns b P) (hQ : Kept turns b Q)
    (h : ∀ c held rets r c', P c held rets → Eeprom.Step c ⟨op, r⟩ c' →
      (if seen r = true then Q else P) c' (heldAfter held ⟨op, r⟩) rets)
    (hlate : Triple (Around turns b s₀ P) late post)
    (hrest : Triple (Around turns b s₀ Q) rest post) :
    Triple (Around turns b s₀ P) (setTimeout n >>= fun _ => wait op seen looks >>= fun found =>
      if (!found) = true then late else rest) post := by
  refine around_set hP (triple_bind _ (wait_around hP hQ h looks) fun found => ?_)
  cases found with
  | false => exact hlate
  | true => exact hrest

/-- A loop on BUSY says nothing about the EEPROM. -/
theorem around_busy {looks n : ℕ} {late rest : Driver α} {P : Assertion} (hP : Kept turns b P)
    (hlate : Triple (Around turns b s₀ P) late post)
    (hrest : Triple (Around turns b s₀ P) rest post) :
    Triple (Around turns b s₀ P) (setTimeout n >>= fun _ => waitWhileBusy looks >>= fun idle =>
      if (!idle) = true then late else rest) post := by
  refine around_wait P hP hP ?_ hlate hrest
  intro c held rets r c' hc hstep
  obtain rfl := step_flag c r c' hstep
  rw [ite_self]
  exact hc

/-- Behind EV5 the bus is the one of main_entry. -/
theorem around_started {looks n : ℕ} {late rest : Driver α}
    (hlate : Triple (Around turns b s₀ (Free b mem₀ done)) late post)
    (hrest : Triple (Around turns b s₀ (Within b mem₀ done fun mem c => c.mem = mem)) rest post) :
    Triple (Around turns b s₀ (Free b mem₀ done)) (setTimeout n >>= fun _ =>
      waitEvent looks .masterModeSelect >>= fun seen =>
        if (!seen) = true then late else rest) post := by
  refine around_wait _ free_kept within_kept ?_ hlate hrest
  intro c held rets r c' hc hstep
  obtain ⟨rfl, _⟩ := step_event c r c' hstep
  cases r with
  | false => exact hc
  | true => exact ⟨Bool.or_true held, c'.mem, hc, rfl⟩

/-- A later event of a transfer, after which it has been shown. -/
theorem around_event (event : I2cEvent) (hevent : event ≠ .masterModeSelect) {looks n : ℕ}
    {late rest : Driver α} {A : (ℕ → UInt8) → Chip → Prop}
    (hlate : Triple (Around turns b s₀ (Within b mem₀ done A)) late post)
    (hrest : Triple (Around turns b s₀
      (Within b mem₀ done fun mem c => A mem c ∧ c.phase.Shows event)) rest post) :
    Triple (Around turns b s₀ (Within b mem₀ done A)) (setTimeout n >>= fun _ =>
      waitEvent looks event >>= fun seen => if (!seen) = true then late else rest) post := by
  refine around_wait _ within_kept within_kept ?_ hlate hrest
  intro c held rets r c' hc hstep
  obtain ⟨rfl, hshows⟩ := step_event c r c' hstep
  obtain ⟨hheld, mem, hmerged, hA⟩ := hc
  have hafter : heldAfter held ⟨.checkEvent event, r⟩ = true := by
    cases event with
    | masterModeSelect => exact absurd rfl hevent
    | _ => exact hheld
  cases r with
  | false => exact ⟨hafter, mem, hmerged, hA⟩
  | true => exact ⟨hafter, mem, hmerged, hA, hshows rfl⟩

/-- A call within a transfer. -/
theorem around_call {op : Op} {f : op.Res → Driver α} {A : (ℕ → UInt8) → Chip → Prop}
    (B : op.Res → (ℕ → UInt8) → Chip → Prop) (hop : ∀ r, heldAfter true ⟨op, r⟩ = true)
    (h : ∀ mem c r c', A mem c → Eeprom.Step c ⟨op, r⟩ c' → B r mem c')
    (hf : ∀ r, Triple (Around turns b s₀ (Within b mem₀ done (B r))) (f r) post) :
    Triple (Around turns b s₀ (Within b mem₀ done A)) (bus op >>= f) post := by
  refine around_bus (fun r => Within b mem₀ done (B r)) (fun r => within_kept) ?_ hf
  intro c held rets r c' hc hstep
  obtain ⟨rfl, mem, hmerged, hA⟩ := hc
  exact ⟨hop r, mem, hmerged, h mem c r c' hA hstep⟩

theorem waitAddressed_around {A : (ℕ → UInt8) → Chip → Prop} (looks : ℕ) :
    Triple (Around turns b s₀ (Within b mem₀ done A)) (waitAddressed looks)
      (fun _ => Around turns b s₀ (Within b mem₀ done A)) := by
  induction looks with
  | zero => exact triple_hang
  | succ looks ih =>
    refine around_call (fun _ => A) (fun _ => rfl) ?_ fun tmpSR1 => ?_
    · intro mem c r c' hA hstep
      cases hstep with
      | status => exact hA
      | unseen hop => cases hop
    · refine around_countDown within_kept fun zero => triple_ite (fun _ => ?_) fun _ => ?_
      · exact around_pure fun _ _ _ hchip => hchip
      · refine triple_ite (fun _ => ?_) fun _ => ih
        exact around_pure fun _ _ _ hchip => hchip

/-- The START is sent whatever key_entry has left on the bus. -/
theorem around_start {f : Unit → Driver α}
    (hf : ∀ r, Triple (Around turns b s₀ (Free b mem₀ done)) (f r) post) :
    Triple (Around turns b s₀ (Free b mem₀ done)) (bus .generateStart >>= f) post := by
  refine around_bus (fun _ => Free b mem₀ done) (fun _ => free_kept) ?_ hf
  intro c held rets r c' hc hstep
  have hmem := (quiet_start r rfl hstep).1
  change Merged b mem₀ done rets c'.mem
  rw [hmem]
  exact hc

/-- The STOP ends the transfer. -/
theorem around_stop {f : Unit → Driver α} {A : (ℕ → UInt8) → Chip → Prop}
    (done' : List (ℕ × UInt8))
    (h : ∀ mem c r c' rets, A mem c → Eeprom.Step c ⟨.generateStop, r⟩ c' →
      Merged b mem₀ done rets mem → Merged b mem₀ done' rets c'.mem)
    (hf : ∀ r, Triple (Around turns b s₀ (Free b mem₀ done')) (f r) post) :
    Triple (Around turns b s₀ (Within b mem₀ done A)) (bus .generateStop >>= f) post := by
  refine around_bus (fun _ => Free b mem₀ done') (fun _ => free_kept) ?_ hf
  intro c held rets r c' hc hstep
  obtain ⟨_, mem, hmerged, hA⟩ := hc
  exact h mem c r c' rets hA hstep hmerged

theorem standbyTrial_around {looks : ℕ} {again : Driver ℕ}
    (hagain : Triple (Around turns b s₀ (Free b mem₀ done)) again
      (fun _ => Around turns b s₀ (Free b mem₀ done))) :
    Triple (Around turns b s₀ (Free b mem₀ done)) (standbyTrial looks again)
      (fun _ => Around turns b s₀ (Free b mem₀ done)) := by
  have hquiet : ∀ mem c, Quiet mem c → c.mem = mem := fun mem c hc => hc.1
  refine around_start fun _ => around_started (around_pure fun _ _ _ hc => hc) ?_
  refine around_call (fun _ => Quiet) (fun _ => rfl) (fun mem c r c' => quiet_address r)
    fun _ => ?_
  refine around_set within_kept (triple_bind _ (waitAddressed_around looks) fun answer => ?_)
  cases answer with
  | none => exact around_pure fun _ _ _ hc => free_of_within hquiet hc
  | some tmpSR1 =>
    refine triple_ite (fun _ => ?_) fun _ => ?_
    · refine around_call (fun _ => Quiet) (fun _ => rfl) ?_ fun _ => ?_
      · intro mem c r c' hc hstep
        cases hstep
        exact hc
      · refine around_stop done ?_ fun _ => around_pure fun _ _ _ hc => hc
        intro mem c r c' rets hc hstep hmerged
        rw [(quiet_stop r hc hstep).1]
        exact hmerged
    · refine around_call (fun _ => Quiet) (fun _ => rfl) ?_ fun _ => ?_
      · intro mem c r c' hc hstep
        cases hstep
        exact hc
      · exact around_mono hagain fun _ _ _ hc => free_of_within hquiet hc

theorem standby_around (looks : ℕ) :
    Triple (Around turns b s₀ (Free b mem₀ done)) (sEEWaitEepromStandbyState looks)
      (fun _ => Around turns b s₀ (Free b mem₀ done)) := by
  have htrials : ∀ trials, Triple (Around turns b s₀ (Free b mem₀ done))
      (standbyTrials looks trials) (fun _ => Around turns b s₀ (Free b mem₀ done)) := by
    intro trials
    induction trials with
    | zero => exact standbyTrial_around (around_pure fun _ _ _ hc => hc)
    | succ trials ih => exact standbyTrial_around ih
  exact around_busy free_kept (around_pure fun _ _ _ hc => hc) (htrials _)

/-- A call of SEE_i2c_write has ended like this. -/
def Ended (b : NbModuConfig) (mem₀ : ℕ → UInt8) (done : List (ℕ × UInt8)) (w : ℕ × UInt8)
    (ret : ℕ) : Assertion :=
  fun chip _ rets => ∃ fate : WriteFate, (ret : ℤ) = fate.ret ∧
    Merged b mem₀ (done ++ if fate.stores then [w] else []) rets chip.mem

theorem ended_of_merged (fate : WriteFate) {w : ℕ × UInt8} {ret : ℕ} {chip : Chip} {held : Bool}
    {rets : List ℕ} {mem : ℕ → UInt8} (hret : (ret : ℤ) = fate.ret)
    (h : Merged b mem₀ done rets mem)
    (hmem : chip.mem = if fate.stores then Function.update mem w.1 w.2 else mem) :
    Ended b mem₀ done w ret chip held rets := by
  refine ⟨fate, hret, ?_⟩
  rw [hmem]
  cases fate.stores with
  | false => exact (List.append_nil done).symm ▸ h
  | true => exact h.main w

theorem seeI2cWrite_around {looks : ℕ} {wData : UInt8} {writeAddr : UInt16} :
    Triple (Around turns b s₀ (Free b mem₀ done)) (seeI2cWrite looks wData writeAddr)
      (fun ret => Around turns b s₀ (Ended b mem₀ done (writeAddr.toUInt8.toNat, wData) ret)) := by
  have hlate : ∀ chip held rets, Free b mem₀ done chip held rets →
      Ended b mem₀ done (writeAddr.toUInt8.toNat, wData) sEE_TIMEOUT_UserCallback chip held rets :=
    fun chip held rets hc => ended_of_merged (.timeout false) rfl hc rfl
  have hunsent : ∀ A : (ℕ → UInt8) → Chip → Prop, (∀ mem c, A mem c → c.mem = mem) →
      Triple (Around turns b s₀ (Within b mem₀ done A))
        (pure sEE_TIMEOUT_UserCallback : Driver ℕ) (fun ret => Around turns b s₀
          (Ended b mem₀ done (writeAddr.toUInt8.toNat, wData) ret)) :=
    fun A hA => around_pure fun _ _ _ hc => hlate _ _ _ (free_of_within hA hc)
  refine triple_bind _ (standby_around looks) fun ret => triple_ite (fun _ => ?_) fun _ => ?_
  · exact around_pure fun _ _ _ hc => ended_of_merged .notReady rfl hc rfl
  refine around_busy free_kept (around_pure hlate) ?_
  refine around_start fun _ => around_started (around_pure hlate) (around_set within_kept ?_)
  refine around_call (fun _ => Quiet) (fun _ => rfl) (fun mem c r c' => quiet_address r)
    fun _ => ?_
  refine around_event .masterTransmitterModeSelected nofun (hunsent _ fun mem c hc => hc.1) ?_
  refine around_call (fun _ mem => Addressed mem writeAddr) (fun _ => rfl)
    (fun mem c r c' hc => addressed_of_select r hc.1.1 hc.2) fun _ => ?_
  refine around_event .masterByteTransmitted nofun (hunsent _ fun mem c hc => hc.1) ?_
  refine around_call (fun _ mem => Sent mem writeAddr wData) (fun _ => rfl)
    (fun mem c r c' hc => sent_of_pointed r hc.1 hc.2) fun _ => ?_
  refine around_event .masterByteTransmitted nofun ?_ ?_
  · refine around_pure fun chip held rets hc => ?_
    obtain ⟨_, mem, hmerged, hsent⟩ := hc
    obtain ⟨fate, hret, hmem⟩ := hsent.timeout
    exact ended_of_merged fate hret hmerged hmem
  · refine around_stop (done ++ [(writeAddr.toUInt8.toNat, wData)])
      (fun mem c r c' rets hc hstep hmerged => ?_) fun _ => ?_
    · rw [hc.1.committed r hc.2 hstep]
      exact hmerged.main (writeAddr.toUInt8.toNat, wData)
    · exact around_pure fun _ _ _ hc => ⟨.stored, rfl, hc⟩

/-- The byte writes of main_entry have the effect of its save under some fates. -/
theorem writeLoop_around {looks : ℕ} (ws : List (ℕ × UInt8)) (hws : ∀ w ∈ ws, w.1 < 256) :
    Triple (Around turns b s₀ (Free b mem₀ done)) (writeLoop looks ws)
      (fun ret => Around turns b s₀ fun chip _ rets => ∃ fates,
        (ret : ℤ) = (saveLoop ws fates).ret ∧
          Merged b mem₀ (done ++ (saveLoop ws fates).stores) rets chip.mem) := by
  induction ws generalizing done with
  | nil =>
    refine around_pure fun chip _ rets hc => ⟨[], rfl, ?_⟩
    exact (List.append_nil done).symm ▸ hc
  | cons w ws ih =>
    have haddr := wordAddress (hws w List.mem_cons_self)
    refine triple_bind _ seeI2cWrite_around fun ret => triple_ite (fun hret => ?_) fun hret => ?_
    · refine around_pure fun chip held rets hc => ?_
      obtain ⟨fate, hfate, hmerged⟩ := hc
      have hne : fate ≠ .stored := by
        rintro rfl
        exact hret (Int.ofNat_eq_zero.mp hfate)
      refine ⟨[fate], ?_⟩
      rw [SaveFaults.saveLoop_failed w ws [] fate hne]
      rw [haddr] at hmerged
      exact ⟨hfate, hmerged⟩
    · have hstored : ∀ chip held rets, Ended b mem₀ done ((UInt16.ofNat w.1).toUInt8.toNat, w.2) ret
          chip held rets → Free b mem₀ (done ++ [w]) chip held rets := by
        rintro chip held rets ⟨fate, hfate, hmerged⟩
        rw [not_not.mp hret] at hfate
        rw [(SaveFaults.ret_eq_zero fate).mp hfate.symm, haddr] at hmerged
        exact hmerged
      refine (around_mono (ih fun v hv => hws v (List.mem_cons_of_mem _ hv)) hstored).mono
        (fun _ hc => hc) fun rest accesses hrest rets s hrun => ?_
      obtain ⟨fates, hfates, hmerged⟩ := hrest rets s hrun
      refine ⟨.stored :: fates, ?_⟩
      rw [SaveFaults.saveLoop_stored]
      rw [List.append_assoc] at hmerged
      exact ⟨hfates, hmerged⟩

end Around

/-- A save of main_entry with any saves of key_entry between any two of its
accesses: the memory ends as after some order of whole byte writes, those of each
save being the ones that its return value tells of. -/
theorem saves_interleave (turns : ℕ) (a b : NbModuConfig) (accesses : Accesses) (ret : ℕ)
    (rets : List ℕ) (s s' : State) (hmain : Runs (saveConfig turns a) accesses ret)
    (hbus : Interleaved (KeySave turns b) Step s accesses rets s') :
    ∃ (run : SaveRunOf) (fates : List WriteFate) (saves : List (List WriteFate)),
      (ret : ℤ) = (ConfigUtils.saveConfig a fates).ret ∧
      rets.map Int.ofNat = saves.map (fun fates => (ConfigUtils.saveConfig b fates).ret) ∧
      writesOf .main run = (ConfigUtils.saveConfig a fates).stores ∧
      writesOf .key run = saves.flatMap (fun fates => (ConfigUtils.saveConfig b fates).stores) ∧
      s'.chip.mem = storeAll s.chip.mem (run.map Prod.snd) := by
  have haddr : ∀ w ∈ recordWrites a, w.1 < 256 :=
    fun w hw => Nat.lt_trans ((mem_recordWrites a w).mp hw).1 (by decide)
  have hstart : Around turns b s (Free b s.chip.mem []) [] := by
    intro rets s₁ hrun
    exact free_kept.ends hrun .nil
  obtain ⟨fates, hret, hmerged⟩ :=
    writeLoop_around (recordWrites a) haddr [] accesses ret hstart hmain rets s' hbus
  obtain ⟨run, saves, hrets, hown, hkey, hmem⟩ := hmerged
  exact ⟨run, fates, saves, hret, hrets, hown, hkey, hmem⟩

section Witness

theorem runs_wait_seen {α : Type} {op : Op} {seen : op.Res → Bool} {looks : ℕ} {r : op.Res}
    {next : Bool → Driver α} {rest : Accesses} {a : α} (hr : seen r = true)
    (hnext : Runs (next true) rest a) :
    Runs (wait op seen (looks + 1) >>= next) (⟨.bus op, r⟩ :: rest) a := by
  refine (runs_bind _ _ _ _).mpr ⟨[⟨.bus op, r⟩], rest, true, rfl, ?_, hnext⟩
  refine (runs_perform_bind _ _ _ _).mpr ⟨r, [], rfl, ?_⟩
  rw [if_pos hr]
  exact .ret true

/-- The accesses of a write that is never made to wait. -/
def promptAccesses (wData : UInt8) (writeAddr : UInt16) : Accesses :=
  [⟨.storeTimeout 40960, ()⟩, ⟨.bus (.getFlagStatus .busy), false⟩, ⟨.bus .generateStart, ()⟩,
    ⟨.storeTimeout 4096, ()⟩, ⟨.bus (.checkEvent .masterModeSelect), true⟩,
    ⟨.bus (.send7bitAddress 160 .transmitter), ()⟩, ⟨.storeTimeout 40960, ()⟩,
    ⟨.bus .readSR1, ⟨true, false⟩⟩, ⟨.loadTimeout, 40960⟩, ⟨.storeTimeout 40959, ()⟩,
    ⟨.bus .readSR2, ()⟩, ⟨.bus .generateStop, ()⟩, ⟨.storeTimeout 40960, ()⟩,
    ⟨.bus (.getFlagStatus .busy), false⟩, ⟨.bus .generateStart, ()⟩, ⟨.storeTimeout 4096, ()⟩,
    ⟨.bus (.checkEvent .masterModeSelect), true⟩, ⟨.storeTimeout 4096, ()⟩,
    ⟨.bus (.send7bitAddress 160 .transmitter), ()⟩, ⟨.storeTimeout 4096, ()⟩,
    ⟨.bus (.checkEvent .masterTransmitterModeSelected), true⟩,
    ⟨.bus (.sendData writeAddr.toUInt8), ()⟩, ⟨.storeTimeout 4096, ()⟩,
    ⟨.bus (.checkEvent .masterByteTransmitted), true⟩, ⟨.bus (.sendData wData), ()⟩,
    ⟨.storeTimeout 4096, ()⟩, ⟨.bus (.checkEvent .masterByteTransmitted), true⟩,
    ⟨.bus .generateStop, ()⟩]

theorem runs_promptAccesses (looks : ℕ) (wData : UInt8) (writeAddr : UInt16) :
    Runs (seeI2cWrite (looks + 1) wData writeAddr) (promptAccesses wData writeAddr) sEE_OK := by
  apply (runs_bind _ _ _ _).mpr
  refine ⟨(promptAccesses wData writeAddr).take 12, (promptAccesses wData writeAddr).drop 12,
    sEE_OK, rfl, ?_, ?_⟩
  · refine .call (runs_wait_seen rfl (.call (.call (runs_wait_seen rfl (.call (.call ?_))))))
    refine .call (.call (.call ?_))
    exact .call (.call (.ret _))
  · refine .call (runs_wait_seen rfl (.call (.call (runs_wait_seen rfl (.call (.call ?_))))))
    refine .call (runs_wait_seen rfl (.call (.call (runs_wait_seen rfl (.call ?_)))))
    exact .call (runs_wait_seen rfl (.call (.ret _)))

/-- The EEPROM can take a byte at once. -/
theorem chain_promptAccesses (wData : UInt8) (writeAddr : UInt16) (chip : Chip)
    (sEETimeout : UInt32) :
    Chain Step ⟨chip, false, sEETimeout⟩ (promptAccesses wData writeAddr)
      ⟨⟨written chip.mem writeAddr wData, writeAddr.toUInt8, .idle⟩, false, 4096⟩ := by
  refine .cons .store (.cons (.bus (.unseen trivial) nofun) (.cons (.bus .start nofun) ?_))
  refine .cons .store (.cons (.bus (.event fun _ => trivial) nofun) ?_)
  refine .cons (.bus (.select rfl) nofun) (.cons .store ?_)
  refine .cons (.bus (.status fun _ => rfl) nofun) (.cons .load (.cons .store ?_))
  refine .cons (.bus (.unseen trivial) nofun) ?_
  refine .cons (.bus (.stop nofun) nofun) (.cons .store (.cons (.bus (.unseen trivial) nofun) ?_))
  refine .cons (.bus .start nofun) (.cons .store (.cons (.bus (.event fun _ => trivial) nofun) ?_))
  refine .cons .store (.cons (.bus (.select rfl) nofun) (.cons .store ?_))
  refine .cons (.bus (.event fun _ => rfl) nofun) (.cons (.bus (.point rfl) nofun) ?_)
  refine .cons .store (.cons (.bus (.event fun _ => Or.inl rfl) nofun) ?_)
  refine .cons (.bus (.load rfl) nofun) ?_
  refine .cons .store (.cons (.bus (.event fun _ => Or.inr ⟨_, rfl⟩) nofun) ?_)
  exact .cons (.bus (.commit rfl) nofun) (.nil _)

theorem exists_writeLoop (looks : ℕ) (ws : List (ℕ × UInt8)) (s : State) (hs : s.held = false) :
    ∃ accesses s', Runs (writeLoop (looks + 1) ws) accesses 0 ∧ Chain Step s accesses s' ∧
      s'.held = false := by
  induction ws generalizing s with
  | nil => exact ⟨[], s, .ret 0, .nil s, hs⟩
  | cons w ws ih =>
    obtain ⟨chip, held, sEETimeout⟩ := s
    obtain rfl : held = false := hs
    have hwrite := chain_promptAccesses w.2 (UInt16.ofNat w.1) chip sEETimeout
    obtain ⟨accesses, s', hrun, hchain, hheld⟩ :=
      ih ⟨⟨written chip.mem (UInt16.ofNat w.1) w.2, (UInt16.ofNat w.1).toUInt8, .idle⟩, false,
        4096⟩ rfl
    refine ⟨_, s', ?_, chain_append.mpr ⟨_, hwrite, hchain⟩, hheld⟩
    exact (runs_bind _ _ _ _).mpr ⟨_, accesses, sEE_OK, rfl, runs_promptAccesses _ _ _, hrun⟩

/-- key_entry saves behind the first byte write of main_entry. -/
theorem saves_interleave_first : ∃ (accesses : Accesses) (s' : State) (run : SaveRunOf)
    (fates : List WriteFate) (saves : List (List WriteFate)),
    Runs (saveConfig 1 { lDefaultNbMCFG with baudrate := 9600 }) accesses 0 ∧
    Interleaved (KeySave 1 lDefaultNbMCFG) Step ⟨⟨fun _ => 255, 0, .idle⟩, false, 0⟩ accesses [0]
      s' ∧
    0 = (ConfigUtils.saveConfig { lDefaultNbMCFG with baudrate := 9600 } fates).ret ∧
    [0] = saves.map (fun fates => (ConfigUtils.saveConfig lDefaultNbMCFG fates).ret) ∧
    s'.chip.mem = storeAll (fun _ => 255) (run.map Prod.snd) := by
  let a : NbModuConfig := { lDefaultNbMCFG with baudrate := 9600 }
  obtain ⟨w, ws, hws⟩ := List.exists_cons_of_ne_nil (recordWrites_ne_nil a)
  have hfirst := chain_promptAccesses w.2 (UInt16.ofNat w.1) ⟨fun _ => 255, 0, .idle⟩ 0
  generalize hstate : (State.mk _ false 4096) = s₁ at hfirst
  have hidle : s₁.held = false := by rw [← hstate]
  obtain ⟨own, s₂, hkey, hown, hfree⟩ := exists_writeLoop 0 (recordWrites lDefaultNbMCFG) s₁ hidle
  obtain ⟨rest, s', hlast, hrest, _⟩ := exists_writeLoop 0 ws s₂ hfree
  have hmain : Runs (saveConfig 1 a) (promptAccesses w.2 (UInt16.ofNat w.1) ++ rest) 0 := by
    rw [saveConfig, hws]
    exact (runs_bind _ _ _ _).mpr ⟨_, rest, sEE_OK, rfl, runs_promptAccesses _ _ _, hlast⟩
  have hrun : Interleaved (KeySave 1 lDefaultNbMCFG) Step s₂ rest [] s' := by
    simpa using Interleaved.prepend hrest (.nil s')
  have hbus := Interleaved.prepend hfirst (.other ⟨own, hkey, hown⟩ hrun)
  obtain ⟨run, fates, saves, hret, hrets, _, _, hmem⟩ :=
    saves_interleave 1 a lDefaultNbMCFG _ 0 [0] _ s' hmain hbus
  exact ⟨_, s', run, fates, saves, hmain, hbus, hret, hrets, hmem⟩

end Witness

end GemhoNbiot.BusSharing
