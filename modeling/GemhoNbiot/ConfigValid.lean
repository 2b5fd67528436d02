import GemhoNbiot.CommandEffects
import GemhoNbiot.ConcurrentSave

/-!
The configuration in use along a run: boots, command lines and factory resets in
any order, with every EEPROM access succeeding. Each parser stores exactly the
value it has checked, narrowed before the check or after it, and a save that
completes leaves the record of the configuration it was given. So a device that
was started on a good EEPROM holds a valid configuration ever after.
-/
namespace GemhoNbiot.ConfigValid

open Memmem Stdio Commands ConfigUtils ConfigMode CommandLines SetCommands SetCommand CommandEffects

/-- The record fails its CRC check or is that of a valid configuration. -/
def EepromGood (mem : ℕ → UInt8) : Prop :=
  ¬ Intact (recordAt mem) ∨ ∃ c : NbModuConfig, c.Valid ∧ recordAt mem = c.record

/-- load_config in main. -/
def boot (d : Dev) : Dev := { d with config := (loadConfig d.config d.eeprom []).2 }

/-- The factory reset of key_entry: the default is saved, the configuration in
use stays. -/
def keyReset (d : Dev) : Dev :=
  let run := saveConfig lDefaultNbMCFG d.writeFates
  { d with
    eeprom := storeAll d.eeprom run.stores
    stored := d.stored ++ run.stores
    writeFates := run.fates }

/-- A boot, any handler on any text, a turn of ghConfig on any bytes, or a
factory reset. -/
inductive Step (wide : ℤ → ℤ) (d : Dev) : Dev → Prop
  | boot : Step wide d (boot d)
  | command (c : List UInt8 × (Dev → List UInt8 → ℤ × Dev)) (hc : c ∈ cmdExe wide)
      (cmd : List UInt8) : Step wide d (c.2 d cmd).2
  | turn (user rs485 : List UInt8) : Step wide d (ghConfigTurn wide user rs485 d)
  | keyReset : Step wide d (keyReset d)

/-- Runs from a boot on an EEPROM with this content. No write of a run fails. -/
inductive Run (wide : ℤ → ℤ) (mem : ℕ → UInt8) : Dev → Prop
  | powerOn (d : Dev) (heeprom : d.eeprom = mem) (hfates : d.writeFates = []) :
      Run wide mem (boot d)
  | step {d d' : Dev} : Run wide mem d → Step wide d d' → Run wide mem d'

section Saves

theorem saveLoop_nil (ws : List (ℕ × UInt8)) : saveLoop ws [] = ⟨0, ws, []⟩ := by
  induction ws with
  | nil => rfl
  | cons w ws ih =>
    rw [saveLoop]
    simp [ih, WriteFate.stores, WriteFate.ret]

theorem saveAttempts_nil (n : ℕ) (c : NbModuConfig) (ret : ℤ) :
    saveAttempts (n + 1) c ret [] = ⟨0, recordWrites c, []⟩ := by
  simp [saveAttempts, saveConfig, saveLoop_nil]

/-- A complete save leaves the record of its configuration. -/
theorem recordAt_storeAll (mem : ℕ → UInt8) (c : NbModuConfig) :
    recordAt (storeAll mem (recordWrites c)) = c.record := by
  have hlen : (recordWrites c).length = sizeofConfSaveUnit := by simp [recordWrites]
  rw [ConcurrentSave.recordAt_eq_record]
  intro i hi
  have hbyte := TornSave.storeAll_take c mem sizeofConfSaveUnit i hi
  rwa [List.take_of_length_le hlen.le, if_pos hi] at hbyte

theorem eepromGood_save (mem : ℕ → UInt8) (c : NbModuConfig) (h : c.Valid) :
    EepromGood (storeAll mem (recordWrites c)) :=
  Or.inr ⟨c, h, recordAt_storeAll mem c⟩

theorem valid_default : lDefaultNbMCFG.Valid := by decide

/-- load_config finds a valid configuration on a good EEPROM. -/
theorem valid_loadConfig (config : NbModuConfig) (mem : ℕ → UInt8) (h : EepromGood mem) :
    (loadConfig config mem []).2.Valid := by
  rw [loadConfig_received]
  rcases h with h | ⟨c, hc, hrecord⟩
  · rw [if_neg h]
    exact valid_default
  · rw [hrecord, if_pos (intact_record c),
      NbModuConfig.record, List.take_left' (NbModuConfig.length_toBytes c),
      NbModuConfig.ofBytes_toBytes]
    exact hc

end Saves

section Parsers

/-- The byte a single-number setting stores has passed the range check. -/
theorem number_range (wide : ℤ → ℤ) (lo hi : ℤ) (text : List UInt8) (v : UInt8) (hlo : 0 ≤ lo)
    (hhi : hi ≤ 255) (h : number wide lo hi text = some v) :
    lo ≤ v.toNat ∧ (v.toNat : ℤ) ≤ hi := by
  unfold number at h
  split at h
  · next z hscan =>
    split_ifs at h with hout
    have hv := toNat_ofInt8 (toInt wide z)
    rw [Option.some.inj h] at hv
    omega
  · exact absurd h.symm (Option.some_ne_none _)

/-- What checkConfigRS232 puts out is what it has checked. -/
theorem checkConfigRS232_range (wide : ℤ → ℤ) (text : List UInt8) (b : UInt32) (s p : UInt8)
    (h : checkConfigRS232 wide text = some (b, s, p)) :
    b ∈ [4800, 9600, 57600, 115200] ∧ s ∈ [1, 2] ∧ p ∈ [0, 1, 2] := by
  unfold checkConfigRS232 at h
  split at h
  · simp only at h
    split_ifs at h with hb hs hp
    obtain ⟨rfl, rfl, rfl⟩ : _ ∧ _ ∧ _ := by simpa using h
    simp only [List.mem_cons, List.not_mem_nil, or_false]
    tauto
  · exact absurd h.symm (Option.some_ne_none _)

theorem accept_valid (wide : ℤ → ℤ) (c c' : NbModuConfig) (text : List UInt8) (k : SetCommand)
    (hc : c.Valid) (h : accept wide c text k = some c') : c'.Valid := by
  obtain ⟨hbaud, hstop, hparity, hmode, hwdt, hsave⟩ := hc
  have hflag (v : UInt8) (hv : number wide 0 1 text = some v) : v ∈ [0, 1] := by
    have hrange := number_range wide 0 1 text v (by omega) (by omega) hv
    simp only [List.mem_cons, List.not_mem_nil, or_false, ← UInt8.toNat_inj, UInt8.reduceToNat]
    omega
  cases k with
  | rs232 =>
    obtain ⟨⟨b, s, p⟩, hcheck, rfl⟩ := Option.map_eq_some_iff.mp h
    obtain ⟨hb, hs, hp⟩ := checkConfigRS232_range wide text b s p hcheck
    exact ⟨hb, hs, hp, hmode, hwdt, hsave⟩
  | ipport =>
    obtain ⟨⟨ip, port⟩, _, rfl⟩ := Option.map_eq_some_iff.mp h
    exact ⟨hbaud, hstop, hparity, hmode, hwdt, hsave⟩
  | msgs =>
    obtain ⟨v, hv, rfl⟩ := Option.map_eq_some_iff.mp h
    have hrange := number_range wide 1 5 text v (by omega) (by omega) hv
    refine ⟨hbaud, hstop, hparity, hmode, hwdt, ?_⟩
    simp only [List.mem_cons, List.not_mem_nil, or_false, ← UInt8.toNat_inj, UInt8.reduceToNat]
    omega
  | semo =>
    obtain ⟨v, hv, rfl⟩ := Option.map_eq_some_iff.mp h
    exact ⟨hbaud, hstop, hparity, hflag v hv, hwdt, hsave⟩
  | wdt =>
    obtain ⟨v, hv, rfl⟩ := Option.map_eq_some_iff.mp h
    exact ⟨hbaud, hstop, hparity, hmode, hflag v hv, hsave⟩

end Parsers

/-- What every step preserves. -/
structure Good (d : Dev) : Prop where
  config : d.config.Valid
  eeprom : EepromGood d.eeprom
  fates : d.writeFates = []

theorem Good.ucallWrite {d : Dev} (h : Good d) (r : List UInt8) : Good (d.ucallWrite r) :=
  ⟨h.config, h.eeprom, h.fates⟩

theorem Good.of_keeps {d d' : Dev} (h : Good d) (hkeeps : Keeps d d') : Good d' where
  config := by
    rw [hkeeps.config]
    exact h.config
  eeprom := by
    rw [hkeeps.eeprom]
    exact h.eeprom
  fates := hkeeps.writeFates.trans h.fates

/-- A complete save of a valid configuration. -/
theorem Good.save {d : Dev} (h : Good d) : Good d.save.2 := by
  have hsave : d.save.2 = { d with
      eeprom := storeAll d.eeprom (recordWrites d.config)
      stored := d.stored ++ recordWrites d.config
      writeFates := [] } := by
    simp only [Dev.save, h.fates, saveAttempts_nil 2]
  rw [hsave]
  exact ⟨h.config, eepromGood_save d.eeprom d.config h.config, rfl⟩

theorem Good.respond {d : Dev} (h : Good d) (wide : ℤ → ℤ) (k : SetCommand) (cmd : List UInt8) :
    Good (respond wide k d cmd) := by
  rcases respond_cases wide d cmd k with heq | ⟨_, heq⟩ | ⟨_, c, haccept, heq⟩
  · rw [heq]
    exact h.ucallWrite _
  · rw [heq]
    exact h.ucallWrite _
  · rw [heq]
    have hc := accept_valid wide d.config c _ k h.config haccept
    exact ⟨hc, h.eeprom, h.fates⟩

theorem Good.command {d : Dev} (h : Good d) (wide : ℤ → ℤ)
    (c : List UInt8 × (Dev → List UInt8 → ℤ × Dev)) (hc : c ∈ cmdExe wide) (cmd : List UInt8) :
    Good (c.2 d cmd).2 := by
  obtain ⟨word, fn⟩ := c
  have hkind : Kind wide word fn := cmdExe_kind wide _ hc
  cases hkind with
  | passThrough _ text size _ _ => exact h.of_keeps (keeps_passThrough d cmd word text size)
  | version => exact h.of_keeps (keeps_atverCmd d cmd)
  | imeibd => exact h.of_keeps (keeps_atimeibdCmd d cmd)
  | setting k =>
    simp only [handler_eq]
    exact h.respond wide k cmd
  | save => exact h.save.ucallWrite _
  | restore =>
    have hdefault : Good { d with config := lDefaultNbMCFG } := ⟨valid_default, h.eeprom, h.fates⟩
    exact hdefault.save.ucallWrite _

theorem Good.step {wide : ℤ → ℤ} {d d' : Dev} (h : Good d) (hstep : Step wide d d') : Good d' := by
  cases hstep with
  | boot => exact ⟨valid_loadConfig d.config d.eeprom h.eeprom, h.eeprom, h.fates⟩
  | command c hc cmd => exact h.command wide c hc cmd
  | turn user rs485 =>
    rcases ghConfigTurn_cases wide user rs485 d with
      ⟨c, hc, text, _, _, heq⟩ | ⟨r, _, heq⟩ | heq <;> rw [heq]
    · exact h.command wide c hc text
    · exact h.ucallWrite r
    · exact h
  | keyReset =>
    have hrun : saveConfig lDefaultNbMCFG d.writeFates = ⟨0, recordWrites lDefaultNbMCFG, []⟩ := by
      rw [saveConfig, h.fates, saveLoop_nil]
    rw [keyReset, hrun]
    exact ⟨h.config, eepromGood_save d.eeprom _ valid_default, rfl⟩

/-- From a boot on a good EEPROM on, the configuration in use is valid and the
EEPROM is good after every step. -/
theorem config_valid (wide : ℤ → ℤ) (mem : ℕ → UInt8) (d : Dev) (hmem : EepromGood mem)
    (h : Run wide mem d) : d.config.Valid ∧ EepromGood d.eeprom := by
  have hgood : Good d := by
    induction h with
    | powerOn d heeprom hfates =>
      rw [← heeprom] at hmem
      exact ⟨valid_loadConfig d.config d.eeprom hmem, hmem, hfates⟩
    | step _ hstep ih => exact ih.step hstep
  exact ⟨hgood.config, hgood.eeprom⟩

/-- An EEPROM of zeros, a line that sets the serial line, a save and a reboot. -/
theorem config_valid_saved : ∃ d, Run id (fun _ => 0) d ∧ d.config.baudrate = 9600 ∧
    d.config.Valid ∧ EepromGood d.eeprom := by
  have hmem : EepromGood fun _ => 0 := Or.inl (by decide +kernel)
  have hstart : Run id (fun _ => 0) (boot someDev) := .powerOn someDev rfl rfl
  have hset := hstart.step
    (.command (ATRS232, atrs232Cmd id) (by simp [cmdExe]) (bytes "AT+RS232=9600,2,1"))
  have hrun := (hset.step (.command (ATSAVE, atsaveCmd) (by simp [cmdExe]) ATSAVE)).step .boot
  exact ⟨_, hrun, by decide +kernel, config_valid id _ _ hmem hrun⟩

end GemhoNbiot.ConfigValid
