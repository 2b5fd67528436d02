import GemhoNbiot.BitCrc

/-!
The checksum of src/crc32.c. init_crc32_tab fills a table with eight shifts of
each byte value; get_crc32 takes one table entry for each byte. A table step
does what eight bit-serial shifts of the register do, so get_crc32 is the
bit-serial CRC of BitCrc at width 32 and the polynomial EDB88320.
-/
namespace GemhoNbiot.Crc32

open BitCrc

def Poly : UInt32 := 0xEDB88320

/-- The body of the inner loop of init_crc32_tab. -/
def crcShift (crc : UInt32) : UInt32 :=
  if crc &&& 1 ≠ 0 then (crc >>> 1) ^^^ Poly else crc >>> 1

def crcTabEntry (i : ℕ) : UInt32 := crcShift^[8] (UInt32.ofNat i)

/-- crc_tab32 after init_crc32_tab. -/
def crcTab32 : List UInt32 := (List.range 256).map crcTabEntry

/-- The index is an 8-bit value, so the default is never taken. -/
def crcByte (crc : UInt32) (b : UInt8) : UInt32 :=
  (crc >>> 8) ^^^ crcTab32.getD ((crc &&& 0xff) ^^^ b.toUInt32).toNat 0

def getCrc32 (crcinit : UInt32) (bs : List UInt8) : UInt32 :=
  bs.foldl crcByte (crcinit ^^^ 0xffffffff) ^^^ 0xffffffff

/-- The bits of a byte in the order they enter the register. -/
def byteBits (b : UInt8) : List Bool := bitsOf 8 b.toNat

def messageBits (bs : List UInt8) : List Bool := bs.flatMap byteBits

theorem Poly_top : Poly.toBitVec.getLsbD (32 - 1) = true := by decide

theorem low_bit (crc : UInt32) : crc &&& 1 ≠ 0 ↔ crc.toBitVec.getLsbD 0 = true := by
  have hbit : (crc &&& 1).toBitVec =
      (BitVec.ofBool (crc.toBitVec.getLsbD 0)).setWidth 32 := by
    rw [UInt32.toBitVec_and]
    exact BitVec.and_one_eq_setWidth_ofBool_getLsbD
  rw [Ne, ← UInt32.toBitVec_inj, hbit]
  cases crc.toBitVec.getLsbD 0 <;> decide

theorem crcShift_toBitVec (crc : UInt32) :
    (crcShift crc).toBitVec = shift Poly.toBitVec crc.toBitVec := by
  unfold crcShift shift
  by_cases h : crc.toBitVec.getLsbD 0 = true
  · rw [if_pos ((low_bit crc).mpr h), if_pos h]
    simp
  · rw [if_neg (mt (low_bit crc).mp h), if_neg h]
    simp

theorem iterate_crcShift_toBitVec (n : ℕ) (crc : UInt32) :
    (crcShift^[n] crc).toBitVec = (shift Poly.toBitVec)^[n] crc.toBitVec := by
  induction n generalizing crc with
  | zero => rfl
  | succ n ih => rw [Function.iterate_succ_apply, ih, crcShift_toBitVec]; rfl

/-- Eight shifts: those of the low byte, and the rest moved down. -/
theorem iterate_shift_eight (P x : BitVec 32) :
    (shift P)^[8] x = (shift P)^[8] (x &&& 0xff#32) ^^^ (x >>> 8) := by
  have hsplit : x = (x &&& 0xff#32) ^^^ ((x >>> 8) <<< 8) := by
    apply BitVec.eq_of_getLsbD_eq
    intro i hi
    have hmask : (0xff#32).getLsbD i = decide (i < 8) := by
      rw [show 0xff#32 = BitVec.ofNat 32 (2 ^ 8 - 1) from rfl, BitVec.getLsbD_ofNat,
        Nat.testBit_two_pow_sub_one]
      simp [hi]
    rw [BitVec.getLsbD_xor, BitVec.getLsbD_and, hmask, BitVec.getLsbD_shiftLeft,
      BitVec.getLsbD_ushiftRight]
    by_cases hlow : i < 8
    · simp [hlow]
    · simp [hlow, hi, show 8 + (i - 8) = i by omega]
  have hhigh : (shift P)^[8] ((x >>> 8) <<< 8) = x >>> 8 := by
    rw [iterate_shift_of_low P 8 _ (by intro i hi; simp [BitVec.getLsbD_shiftLeft, hi])]
    apply BitVec.eq_of_getLsbD_eq
    intro i hi
    rw [BitVec.getLsbD_ushiftRight, BitVec.getLsbD_shiftLeft]
    by_cases hend : 8 + i < 32
    · simp [hend]
    · simp [hend, BitVec.getLsbD_ushiftRight, BitVec.getLsbD_of_ge x (8 + i) (by omega)]
  calc (shift P)^[8] x
      = (shift P)^[8] ((x &&& 0xff#32) ^^^ ((x >>> 8) <<< 8)) := by rw [← hsplit]
    _ = (shift P)^[8] (x &&& 0xff#32) ^^^ (x >>> 8) := by rw [iterate_shift_xor, hhigh]

theorem word_byteBits (b : UInt8) : (word (byteBits b) : BitVec 32) = b.toUInt32.toBitVec := by
  apply BitVec.eq_of_getLsbD_eq
  intro i hi
  rw [getLsbD_word _ i hi, byteBits, bitsOf, List.getD_eq_getElem?_getD, List.getElem?_map,
    UInt8.toBitVec_toUInt32, BitVec.getLsbD_setWidth]
  by_cases hlow : i < 8
  · simp [hlow, hi, BitVec.getLsbD]
  · simp [hlow, BitVec.getLsbD_of_ge b.toBitVec i (by omega)]

theorem crcTab32_getD (i : ℕ) (h : i < 256) : crcTab32.getD i 0 = crcTabEntry i := by
  simp [crcTab32, List.getD_eq_getElem?_getD, h]

theorem index_lt (crc : UInt32) (b : UInt8) :
    ((crc &&& 0xff) ^^^ b.toUInt32).toNat < 256 := by
  have hcrc : (crc &&& 0xff).toNat < 2 ^ 8 := by
    rw [UInt32.toNat_and]
    exact Nat.lt_of_le_of_lt Nat.and_le_right (by decide)
  have hb : b.toUInt32.toNat < 2 ^ 8 := by
    rw [UInt8.toNat_toUInt32]
    exact b.toNat_lt
  rw [UInt32.toNat_xor]
  exact Nat.xor_lt_two_pow hcrc hb

/-- A table step without the table. -/
theorem crcByte_eq (crc : UInt32) (b : UInt8) :
    crcByte crc b = (crc >>> 8) ^^^ crcShift^[8] ((crc &&& 0xff) ^^^ b.toUInt32) := by
  rw [crcByte, crcTab32_getD _ (index_lt crc b), crcTabEntry, UInt32.ofNat_toNat]

/-- A table step is eight bit-serial steps. -/
theorem crcByte_toBitVec (crc : UInt32) (b : UInt8) :
    (crcByte crc b).toBitVec = feed Poly.toBitVec crc.toBitVec (byteBits b) := by
  have hlow : b.toUInt32.toBitVec &&& 0xff#32 = b.toUInt32.toBitVec := by
    apply BitVec.eq_of_toNat_eq
    rw [BitVec.toNat_and]
    have hb : b.toUInt32.toBitVec.toNat < 2 ^ 8 := by simpa using b.toNat_lt
    exact Nat.and_two_pow_sub_one_of_lt_two_pow (n := 8) hb
  have hhigh : b.toUInt32.toBitVec >>> 8 = 0#32 := by
    apply BitVec.eq_of_toNat_eq
    have hb : b.toUInt32.toBitVec.toNat < 2 ^ 8 := by simpa using b.toNat_lt
    rw [BitVec.toNat_ushiftRight, Nat.shiftRight_eq_div_pow, Nat.div_eq_of_lt hb]
    rfl
  have hmask : (crc.toBitVec ^^^ b.toUInt32.toBitVec) &&& 0xff#32 =
      (crc.toBitVec &&& 0xff#32) ^^^ b.toUInt32.toBitVec := by
    rw [← hlow]
    apply BitVec.eq_of_getLsbD_eq
    intro i _
    simp only [BitVec.getLsbD_and, BitVec.getLsbD_xor]
    cases crc.toBitVec.getLsbD i <;> cases (0xff#32).getLsbD i <;> simp
  have hlen : (byteBits b).length = 8 := length_bitsOf 8 _
  rw [feed_eq_shifts _ _ _ (by omega), word_byteBits, hlen, iterate_shift_eight,
    hmask, BitVec.ushiftRight_xor_distrib, hhigh, crcByte_eq]
  simp only [UInt32.toBitVec_xor, iterate_crcShift_toBitVec, UInt32.toBitVec_and,
    BitVec.xor_zero]
  rw [BitVec.xor_comm]
  rfl

theorem foldl_crcByte_toBitVec (bs : List UInt8) (crc : UInt32) :
    (bs.foldl crcByte crc).toBitVec = feed Poly.toBitVec crc.toBitVec (messageBits bs) := by
  induction bs generalizing crc with
  | nil => rfl
  | cons b bs ih =>
    rw [List.foldl_cons, ih, crcByte_toBitVec, ← feed_append]
    rfl

theorem getCrc32_toBitVec (crcinit : UInt32) (bs : List UInt8) :
    (getCrc32 crcinit bs).toBitVec =
      feed Poly.toBitVec (crcinit.toBitVec ^^^ 0xffffffff#32) (messageBits bs) ^^^
        0xffffffff#32 := by
  rw [getCrc32, UInt32.toBitVec_xor, foldl_crcByte_toBitVec, UInt32.toBitVec_xor]
  rfl

/-- One message bit of the bit-serial reflected CRC-32: the register moves right,
and the polynomial is added when the bit shifted out is not the message bit. -/
def serialBit (register : UInt32) (messageBit : Bool) : UInt32 :=
  if decide (register &&& 1 ≠ 0) ≠ messageBit then (register >>> 1) ^^^ 0xEDB88320
  else register >>> 1

/-- The bit-serial reflected CRC-32, low bit of each byte first. -/
def serialCrc32 (crcinit : UInt32) (bs : List UInt8) : UInt32 :=
  (messageBits bs).foldl serialBit (crcinit ^^^ 0xffffffff) ^^^ 0xffffffff

theorem serialBit_toBitVec (register : UInt32) (messageBit : Bool) :
    (serialBit register messageBit).toBitVec =
      feedBit Poly.toBitVec register.toBitVec messageBit := by
  have hbit : decide (register &&& 1 ≠ 0) = register.toBitVec.getLsbD 0 := by
    rw [Bool.eq_iff_iff, decide_eq_true_iff]
    exact low_bit register
  rw [feedBit_eq _ _ _ (by decide), serialBit, hbit]
  by_cases h : register.toBitVec.getLsbD 0 = messageBit
  · rw [if_neg (not_not.mpr h), h, Bool.xor_self, if_neg Bool.false_ne_true]
    simp
  · have hxor : (register.toBitVec.getLsbD 0 ^^ messageBit) = true := by
      rw [Bool.xor_iff_ne]
      exact h
    rw [if_pos h, if_pos hxor]
    simp [Poly]

theorem foldl_serialBit_toBitVec (bits : List Bool) (register : UInt32) :
    (bits.foldl serialBit register).toBitVec = feed Poly.toBitVec register.toBitVec bits := by
  induction bits generalizing register with
  | nil => rfl
  | cons b bits ih =>
    rw [List.foldl_cons, ih, serialBit_toBitVec]
    rfl

theorem serialCrc32_eq (crcinit : UInt32) (bs : List UInt8) :
    getCrc32 crcinit bs = serialCrc32 crcinit bs := by
  apply UInt32.toBitVec_inj.mp
  rw [getCrc32_toBitVec, serialCrc32, UInt32.toBitVec_xor, foldl_serialBit_toBitVec,
    UInt32.toBitVec_xor]
  rfl

/-- The final exclusive or undoes the initial one of the next call. -/
theorem getCrc32_append (crcinit : UInt32) (as bs : List UInt8) :
    getCrc32 (getCrc32 crcinit as) bs = getCrc32 crcinit (as ++ bs) := by
  unfold getCrc32
  rw [UInt32.xor_assoc, UInt32.xor_self, UInt32.xor_zero, List.foldl_append]

/-- The table-driven CRC is the bit-serial one, for every initial value and message. -/
theorem getCrc32_serial :
    (∀ crcinit bs, getCrc32 crcinit bs = serialCrc32 crcinit bs) ∧
      ∀ crcinit as bs, getCrc32 (getCrc32 crcinit as) bs = getCrc32 crcinit (as ++ bs) :=
  ⟨serialCrc32_eq, getCrc32_append⟩

/-- The check value of CRC-32. -/
example : getCrc32 0 [0x31, 0x32, 0x33, 0x34, 0x35, 0x36, 0x37, 0x38, 0x39] = 0xCBF43926 := by
  decide +kernel

end GemhoNbiot.Crc32
