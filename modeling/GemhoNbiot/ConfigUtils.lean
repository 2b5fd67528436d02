import Mathlib.Data.Vector.Basic
import GemhoNbiot.LastWrite
import GemhoNbiot.Crc32

/-!
The configuration and its EEPROM record, after src/config_utils.c. The packed
structure confSaveUnit is the fifteen bytes of nbModu_config followed by their
CRC, all little-endian. A byte write or read of the EEPROM may fail; how each
call ends is supplied from outside. A save is described by the stores it
performs, so that a power cut is a prefix of them.
-/
namespace GemhoNbiot.ConfigUtils

open Crc32

/-- The `n` low bytes of a number, least significant first. -/
def leBytes : ℕ → ℕ → List UInt8
  | 0, _ => []
  | n + 1, x => UInt8.ofNat x :: leBytes n (x / 256)

def ofLe : List UInt8 → ℕ
  | [] => 0
  | b :: bs => b.toNat + 256 * ofLe bs

@[simp] theorem length_leBytes (n x : ℕ) : (leBytes n x).length = n := by
  induction n generalizing x with
  | zero => rfl
  | succ n ih => rw [leBytes, List.length_cons, ih]

theorem ofLe_leBytes (n x : ℕ) : ofLe (leBytes n x) = x % 256 ^ n := by
  induction n generalizing x with
  | zero => simp [leBytes, ofLe, Nat.mod_one]
  | succ n ih =>
    have hmod : x % 256 ^ (n + 1) = x % 256 + 256 * (x / 256 % 256 ^ n) := by
      rw [pow_succ', Nat.mod_mul]
    rw [leBytes, ofLe, ih, UInt8.toNat_ofNat', hmod]

theorem leBytes_ofLe (bs : List UInt8) : leBytes bs.length (ofLe bs) = bs := by
  induction bs with
  | nil => rfl
  | cons b bs ih =>
    have hb := b.toNat_lt
    have hmod : UInt8.ofNat (b.toNat + 256 * ofLe bs) = b := by
      apply UInt8.toNat_inj.mp
      rw [UInt8.toNat_ofNat']
      omega
    have hdiv : (b.toNat + 256 * ofLe bs) / 256 = ofLe bs := by omega
    rw [List.length_cons, leBytes, ofLe, hmod, hdiv, ih]

theorem ofLe_lt (bs : List UInt8) : ofLe bs < 256 ^ bs.length := by
  have h := ofLe_leBytes bs.length (ofLe bs)
  rw [leBytes_ofLe] at h
  rw [h]
  exact Nat.mod_lt _ (Nat.pow_pos (by decide))

theorem messageBits_leBytes (n x : ℕ) :
    messageBits (leBytes n x) = BitCrc.bitsOf (8 * n) x := by
  induction n generalizing x with
  | zero => rfl
  | succ n ih =>
    have hbyte : byteBits (UInt8.ofNat x) = BitCrc.bitsOf 8 x := by
      rw [byteBits, UInt8.toNat_ofNat']
      exact BitCrc.bitsOf_mod 8 x
    calc messageBits (leBytes (n + 1) x)
        = byteBits (UInt8.ofNat x) ++ messageBits (leBytes n (x / 256)) := rfl
      _ = BitCrc.bitsOf 8 x ++ BitCrc.bitsOf (8 * n) (x / 2 ^ 8) := by rw [hbyte, ih]; rfl
      _ = BitCrc.bitsOf (8 * (n + 1)) x := by rw [← BitCrc.bitsOf_add, Nat.mul_succ, Nat.add_comm]

/-- nbModu_config. -/
structure NbModuConfig where
  ip : Vector UInt8 4
  port : UInt16
  sendMode : UInt8
  baudrate : UInt32
  stopbit : UInt8
  parity : UInt8
  watchdog : UInt8
  msgSave : UInt8
deriving DecidableEq

def lDefaultNbMCFG : NbModuConfig where
  ip := #v[117, 60, 157, 137]
  port := 5683
  sendMode := 0
  baudrate := 115200
  stopbit := 1
  parity := 0
  watchdog := 0
  msgSave := 5

/-- The values the set commands accept. -/
def NbModuConfig.Valid (c : NbModuConfig) : Prop :=
  c.baudrate ∈ [4800, 9600, 57600, 115200] ∧ c.stopbit ∈ [1, 2] ∧ c.parity ∈ [0, 1, 2] ∧
    c.sendMode ∈ [0, 1] ∧ c.watchdog ∈ [0, 1] ∧ c.msgSave ∈ [1, 2, 3, 4, 5]

instance (c : NbModuConfig) : Decidable c.Valid :=
  inferInstanceAs (Decidable (_ ∧ _))

def sizeofConfig : ℕ := 15
def sizeofConfSaveUnit : ℕ := 19

namespace NbModuConfig

/-- The bytes of the packed structure. -/
def toBytes (c : NbModuConfig) : List UInt8 :=
  c.ip.toList ++ leBytes 2 c.port.toNat ++ [c.sendMode] ++ leBytes 4 c.baudrate.toNat ++
    [c.stopbit, c.parity, c.watchdog, c.msgSave]

/-- The structure that lies in memory as these bytes. -/
def ofBytes (bs : List UInt8) : NbModuConfig where
  ip := #v[bs.getD 0 0, bs.getD 1 0, bs.getD 2 0, bs.getD 3 0]
  port := UInt16.ofNat (ofLe ((bs.drop 4).take 2))
  sendMode := bs.getD 6 0
  baudrate := UInt32.ofNat (ofLe ((bs.drop 7).take 4))
  stopbit := bs.getD 11 0
  parity := bs.getD 12 0
  watchdog := bs.getD 13 0
  msgSave := bs.getD 14 0

@[simp] theorem length_toBytes (c : NbModuConfig) : c.toBytes.length = sizeofConfig := by
  simp [toBytes, sizeofConfig]

end NbModuConfig

theorem vector_four (v : Vector UInt8 4) : v = #v[v[0], v[1], v[2], v[3]] := by
  apply Vector.ext
  intro i hi
  match i, hi with
  | 0, _ => rfl
  | 1, _ => rfl
  | 2, _ => rfl
  | 3, _ => rfl

namespace NbModuConfig

theorem ofBytes_toBytes (c : NbModuConfig) : ofBytes c.toBytes = c := by
  have hport : UInt16.ofNat (ofLe (leBytes 2 c.port.toNat)) = c.port := by
    rw [ofLe_leBytes, Nat.mod_eq_of_lt (a := c.port.toNat) (b := 256 ^ 2) c.port.toNat_lt,
      UInt16.ofNat_toNat]
  have hbaud : UInt32.ofNat (ofLe (leBytes 4 c.baudrate.toNat)) = c.baudrate := by
    rw [ofLe_leBytes,
      Nat.mod_eq_of_lt (a := c.baudrate.toNat) (b := 256 ^ 4) c.baudrate.toNat_lt,
      UInt32.ofNat_toNat]
  obtain ⟨ip, port, sendMode, baudrate, stopbit, parity, watchdog, msgSave⟩ := c
  rw [vector_four ip]
  simp only [ofBytes, toBytes, mk.injEq]
  exact ⟨rfl, hport, rfl, hbaud, rfl, rfl, rfl, rfl⟩

theorem toBytes_injective : Function.Injective toBytes :=
  Function.LeftInverse.injective ofBytes_toBytes

/-- Every fifteen bytes are the image of a configuration. -/
theorem toBytes_ofBytes (bs : List UInt8) (h : bs.length = sizeofConfig) :
    (ofBytes bs).toBytes = bs := by
  obtain ⟨b0, b1, b2, b3, p0, p1, sm, r0, r1, r2, r3, sb, pa, wd, ms, rfl⟩ :
      ∃ b0 b1 b2 b3 p0 p1 sm r0 r1 r2 r3 sb pa wd ms,
        bs = [b0, b1, b2, b3, p0, p1, sm, r0, r1, r2, r3, sb, pa, wd, ms] := by
    match bs, h with
    | [b0, b1, b2, b3, p0, p1, sm, r0, r1, r2, r3, sb, pa, wd, ms], _ =>
      exact ⟨b0, b1, b2, b3, p0, p1, sm, r0, r1, r2, r3, sb, pa, wd, ms, rfl⟩
  have hport : leBytes 2 (UInt16.ofNat (ofLe [p0, p1])).toNat = [p0, p1] := by
    rw [UInt16.toNat_ofNat', Nat.mod_eq_of_lt (by simpa using ofLe_lt [p0, p1])]
    exact leBytes_ofLe [p0, p1]
  have hbaud : leBytes 4 (UInt32.ofNat (ofLe [r0, r1, r2, r3])).toNat = [r0, r1, r2, r3] := by
    rw [UInt32.toNat_ofNat', Nat.mod_eq_of_lt (by simpa using ofLe_lt [r0, r1, r2, r3])]
    exact leBytes_ofLe [r0, r1, r2, r3]
  simp only [toBytes, ofBytes, List.drop, List.take, hport, hbaud]
  rfl

/-- The record of save_config: the configuration and its CRC. -/
def record (c : NbModuConfig) : List UInt8 :=
  c.toBytes ++ leBytes 4 (getCrc32 0 c.toBytes).toNat

@[simp] theorem length_record (c : NbModuConfig) : c.record.length = sizeofConfSaveUnit := by
  simp [record, sizeofConfig, sizeofConfSaveUnit]

end NbModuConfig

/-- How one call of SEE_i2c_write ends. The last wait of a write can time out
after the byte was taken. -/
inductive WriteFate
  | stored
  | notReady
  | timeout (taken : Bool)
deriving DecidableEq

/-- The return value of SEE_i2c_write. -/
def WriteFate.ret : WriteFate → ℤ
  | .stored => 0
  | .notReady => 1
  | .timeout _ => 2

def WriteFate.stores : WriteFate → Bool
  | .stored => true
  | .notReady => false
  | .timeout taken => taken

/-- What a save leaves: its return value, its byte stores in order and the
fates not yet used. Calls beyond the given fates succeed. -/
structure SaveRun where
  ret : ℤ
  stores : List (ℕ × UInt8)
  fates : List WriteFate

/-- The write loop of save_config over the bytes still to be written. -/
def saveLoop : List (ℕ × UInt8) → List WriteFate → SaveRun
  | [], fates => ⟨0, [], fates⟩
  | w :: ws, fates =>
    let fate := fates.headD .stored
    let done := if fate.stores then [w] else []
    if fate.ret ≠ 0 then
      ⟨fate.ret, done, fates.tail⟩
    else
      let rest := saveLoop ws fates.tail
      ⟨rest.ret, done ++ rest.stores, rest.fates⟩

/-- The address and the byte of each SEE_i2c_write of a save. -/
def recordWrites (c : NbModuConfig) : List (ℕ × UInt8) :=
  (List.range sizeofConfSaveUnit).map fun i => (i, c.record.getD i 0)

def saveConfig (c : NbModuConfig) (fates : List WriteFate) : SaveRun :=
  saveLoop (recordWrites c) fates

/-- The loop of ATSAVE_cmd with `n` attempts left. -/
def saveAttempts : ℕ → NbModuConfig → ℤ → List WriteFate → SaveRun
  | 0, _, ret, fates => ⟨ret, [], fates⟩
  | n + 1, c, _, fates =>
    let run := saveConfig c fates
    if run.ret = 0 then
      run
    else
      let rest := saveAttempts n c run.ret run.fates
      ⟨rest.ret, run.stores ++ rest.stores, rest.fates⟩

/-- The EEPROM after some stores. -/
def storeAll (mem : ℕ → UInt8) (stores : List (ℕ × UInt8)) : ℕ → UInt8 :=
  LastWrite.applyAll mem stores

/-- How one call of SEE_i2c_read ends; a timeout returns 2. -/
inductive ReadFate
  | received
  | timeout
deriving DecidableEq

/-- The read loop of read_config: the return value and the bytes read. -/
def readLoop (mem : ℕ → UInt8) : List ℕ → List ReadFate → ℤ × List UInt8
  | [], _ => (0, [])
  | a :: as, fates =>
    match fates.headD .received with
    | .timeout => (2, [])
    | .received =>
      let (ret, bs) := readLoop mem as fates.tail
      (ret, mem a :: bs)

/-- read_config on a configuration variable: the return value and the variable. -/
def readConfig (config : NbModuConfig) (mem : ℕ → UInt8) (fates : List ReadFate) :
    ℤ × NbModuConfig :=
  let (ret, bs) := readLoop mem (List.range sizeofConfSaveUnit) fates
  if ret = 0 then
    if getCrc32 0 (bs.take sizeofConfig) = UInt32.ofNat (ofLe (bs.drop sizeofConfig)) then
      (ret, NbModuConfig.ofBytes (bs.take sizeofConfig))
    else
      (-1, config)
  else
    (ret, config)

def loadConfig (config : NbModuConfig) (mem : ℕ → UInt8) (fates : List ReadFate) :
    ℤ × NbModuConfig :=
  let (ret, config) := readConfig config mem fates
  if ret ≠ 0 then (ret, lDefaultNbMCFG) else (ret, config)

/-- The record area of the EEPROM. -/
def recordAt (mem : ℕ → UInt8) : List UInt8 := (List.range sizeofConfSaveUnit).map mem

/-- The stored CRC is that of the stored configuration. -/
def Intact (bs : List UInt8) : Prop :=
  getCrc32 0 (bs.take sizeofConfig) = UInt32.ofNat (ofLe (bs.drop sizeofConfig))

instance (bs : List UInt8) : Decidable (Intact bs) :=
  inferInstanceAs (Decidable (_ = _))

theorem readLoop_received (mem : ℕ → UInt8) (as : List ℕ) :
    readLoop mem as [] = (0, as.map mem) := by
  induction as with
  | nil => rfl
  | cons a as ih => simp [readLoop, ih]

/-- read_config with every byte read succeeding. -/
theorem readConfig_received (config : NbModuConfig) (mem : ℕ → UInt8) :
    readConfig config mem [] =
      if Intact (recordAt mem) then
        (0, NbModuConfig.ofBytes ((recordAt mem).take sizeofConfig))
      else (-1, config) := by
  rw [readConfig, readLoop_received]
  rfl

theorem loadConfig_received (config : NbModuConfig) (mem : ℕ → UInt8) :
    (loadConfig config mem []).2 =
      if Intact (recordAt mem) then NbModuConfig.ofBytes ((recordAt mem).take sizeofConfig)
      else lDefaultNbMCFG := by
  rw [loadConfig, readConfig_received]
  by_cases h : Intact (recordAt mem) <;> simp [h]

@[simp] theorem length_recordAt (mem : ℕ → UInt8) :
    (recordAt mem).length = sizeofConfSaveUnit := by
  simp [recordAt]

theorem recordAt_getD (bs : List UInt8) (h : bs.length = sizeofConfSaveUnit) :
    recordAt (fun i => bs.getD i 0) = bs := by
  apply List.ext_getElem
  · rw [length_recordAt, h]
  · intro i _ hi
    simp [recordAt, hi]

theorem intact_record (c : NbModuConfig) : Intact c.record := by
  have htake : c.record.take sizeofConfig = c.toBytes :=
    List.take_left' (NbModuConfig.length_toBytes c)
  have hdrop : c.record.drop sizeofConfig = leBytes 4 (getCrc32 0 c.toBytes).toNat :=
    List.drop_left' (NbModuConfig.length_toBytes c)
  rw [Intact, htake, hdrop, ofLe_leBytes, Nat.mod_eq_of_lt (b := 256 ^ 4) (UInt32.toNat_lt _),
    UInt32.ofNat_toNat]

/-- A complete save followed by a read. -/
theorem readConfig_record (config c : NbModuConfig) (mem : ℕ → UInt8)
    (h : recordAt mem = c.record) : readConfig config mem [] = (0, c) := by
  have htake : c.record.take sizeofConfig = c.toBytes :=
    List.take_left' (NbModuConfig.length_toBytes c)
  rw [readConfig_received, h, if_pos (intact_record c), htake, NbModuConfig.ofBytes_toBytes]

end GemhoNbiot.ConfigUtils
