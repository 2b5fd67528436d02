import Mathlib.Data.List.GetD
import Mathlib.Logic.Function.Iterate
import Mathlib.Data.BitVec

/-!
Bit-serial reflected cyclic redundancy checks over an arbitrary width and
polynomial. The register shifts right; a message bit enters at the low end. The
shift is linear over exclusive or, and injective when the top coefficient of
the polynomial is set, so a non-zero burst no longer than the register leaves a
non-zero register behind.
-/
namespace GemhoNbiot.BitCrc

section Register

variable {w : ℕ} (P : BitVec w)

/-- One shift of the register. -/
def shift (r : BitVec w) : BitVec w :=
  if r.getLsbD 0 then (r >>> 1) ^^^ P else r >>> 1

def bit (b : Bool) : BitVec w := (BitVec.ofBool b).setWidth w

def feedBit (r : BitVec w) (b : Bool) : BitVec w := shift P (r ^^^ bit b)

/-- The register after the bits of a message, first bit first. -/
def feed (r : BitVec w) (bs : List Bool) : BitVec w := bs.foldl (feedBit P) r

/-- The number with these bits, least significant bit first. -/
def word : List Bool → BitVec w
  | [] => 0#w
  | b :: bs => bit b ^^^ (word bs <<< 1)

@[simp] theorem feed_nil (r : BitVec w) : feed P r [] = r := rfl

@[simp] theorem feed_cons (r : BitVec w) (b : Bool) (bs : List Bool) :
    feed P r (b :: bs) = feed P (shift P (r ^^^ bit b)) bs := rfl

theorem feed_append (r : BitVec w) (as bs : List Bool) :
    feed P r (as ++ bs) = feed P (feed P r as) bs :=
  List.foldl_append

@[simp] theorem bit_false : (bit false : BitVec w) = 0#w := by
  simp [bit]

theorem bit_xor (a b : Bool) : (bit (a ^^ b) : BitVec w) = bit a ^^^ bit b := by
  cases a <;> cases b <;> simp

theorem shift_zero : shift P 0#w = 0#w := by
  simp [shift]

theorem shift_xor (r s : BitVec w) : shift P (r ^^^ s) = shift P r ^^^ shift P s := by
  apply BitVec.eq_of_getLsbD_eq
  intro i hi
  simp only [shift, BitVec.getLsbD_xor]
  cases r.getLsbD 0 <;> cases s.getLsbD 0 <;>
    simp only [Bool.xor_false, Bool.xor_true, Bool.not_false, Bool.not_true, if_true, if_false,
      Bool.false_eq_true, BitVec.getLsbD_xor, BitVec.getLsbD_ushiftRight] <;>
    cases r.getLsbD (1 + i) <;> cases s.getLsbD (1 + i) <;> cases P.getLsbD i <;> rfl

theorem iterate_shift_xor (n : ℕ) (r s : BitVec w) :
    (shift P)^[n] (r ^^^ s) = (shift P)^[n] r ^^^ (shift P)^[n] s := by
  induction n generalizing r s with
  | zero => rfl
  | succ n ih => rw [Function.iterate_succ_apply, shift_xor, ih]; rfl

theorem iterate_shift_zero (n : ℕ) : (shift P)^[n] 0#w = 0#w := by
  induction n with
  | zero => rfl
  | succ n ih => rw [Function.iterate_succ_apply, shift_zero, ih]

/-- With the top coefficient set no non-zero register is shifted to zero. -/
theorem shift_eq_zero (htop : P.getLsbD (w - 1) = true) (r : BitVec w) (h : shift P r = 0#w) :
    r = 0#w := by
  have hw : w - 1 < w := BitVec.lt_of_getLsbD htop
  unfold shift at h
  by_cases hlow : r.getLsbD 0 = true
  · rw [if_pos hlow] at h
    have hbit := congrArg (fun x : BitVec w => x.getLsbD (w - 1)) h
    simp only [BitVec.getLsbD_xor, BitVec.getLsbD_ushiftRight, htop] at hbit
    rw [BitVec.getLsbD_of_ge r (1 + (w - 1)) (by omega)] at hbit
    simp at hbit
  · rw [if_neg hlow] at h
    apply BitVec.eq_of_getLsbD_eq
    intro i _
    cases i with
    | zero => simpa using hlow
    | succ i =>
      have hbit := congrArg (fun x : BitVec w => x.getLsbD i) h
      simpa [BitVec.getLsbD_ushiftRight, Nat.add_comm] using hbit

theorem shift_injective (htop : P.getLsbD (w - 1) = true) : Function.Injective (shift P) := by
  intro r s h
  have hzero : shift P (r ^^^ s) = 0#w := by rw [shift_xor, h, BitVec.xor_self]
  exact BitVec.xor_eq_zero_iff.mp (shift_eq_zero P htop _ hzero)

/-- A register whose low `n` bits are clear only moves down in `n` shifts. -/
theorem iterate_shift_of_low (n : ℕ) (r : BitVec w) (h : ∀ i, i < n → r.getLsbD i = false) :
    (shift P)^[n] r = r >>> n := by
  induction n generalizing r with
  | zero => simp
  | succ n ih =>
    have hlow : r.getLsbD 0 = false := h 0 (by omega)
    have hshift : shift P r = r >>> 1 := by simp [shift, hlow]
    have hrest : ∀ i, i < n → (r >>> 1).getLsbD i = false := by
      intro i hi
      rw [BitVec.getLsbD_ushiftRight]
      exact h (1 + i) (by omega)
    rw [Function.iterate_succ_apply, hshift, ih _ hrest, ← BitVec.shiftRight_add, Nat.add_comm]

/-- Feeding two messages of one length is linear in registers and messages. -/
theorem feed_xor (r s : BitVec w) (as bs : List Bool) (h : as.length = bs.length) :
    feed P (r ^^^ s) (List.zipWith Bool.xor as bs) = feed P r as ^^^ feed P s bs := by
  induction as generalizing r s bs with
  | nil =>
    cases bs with
    | nil => rfl
    | cons b bs => simp at h
  | cons a as ih =>
    cases bs with
    | nil => simp at h
    | cons b bs =>
      have hstep : shift P ((r ^^^ s) ^^^ bit (a ^^ b)) =
          shift P (r ^^^ bit a) ^^^ shift P (s ^^^ bit b) := by
        rw [← shift_xor, bit_xor]
        congr 1
        ac_rfl
      rw [List.zipWith_cons_cons, feed_cons, hstep, ih _ _ _ (by simpa using h)]
      rfl

theorem feed_replicate_false (n : ℕ) (r : BitVec w) :
    feed P r (List.replicate n false) = (shift P)^[n] r := by
  induction n generalizing r with
  | zero => rfl
  | succ n ih =>
    rw [List.replicate_succ, feed_cons, ih, Function.iterate_succ_apply]
    simp

theorem getLsbD_bit (b : Bool) (i : ℕ) :
    (bit b : BitVec w).getLsbD i = (decide (i = 0 ∧ 0 < w) && b) := by
  rw [bit, BitVec.getLsbD_setWidth, BitVec.getLsbD_ofBool]
  by_cases hi : i = 0 <;> simp [hi]

theorem getLsbD_word (bs : List Bool) (i : ℕ) (hi : i < w) :
    (word bs : BitVec w).getLsbD i = bs.getD i false := by
  induction bs generalizing i with
  | nil => simp [word]
  | cons b bs ih =>
    rw [word, BitVec.getLsbD_xor, getLsbD_bit, BitVec.getLsbD_shiftLeft]
    cases i with
    | zero => simp [hi]
    | succ i => simp [hi, ih i (by omega)]

/-- A step in terms of the bit that leaves the register: the polynomial is added
when it differs from the message bit. -/
theorem feedBit_eq (r : BitVec w) (b : Bool) (hw : 0 < w) :
    feedBit P r b = if (r.getLsbD 0 ^^ b) = true then (r >>> 1) ^^^ P else r >>> 1 := by
  have hlow : (r ^^^ bit b).getLsbD 0 = (r.getLsbD 0 ^^ b) := by
    rw [BitVec.getLsbD_xor, getLsbD_bit]
    simp [hw]
  have hrest : (r ^^^ bit b) >>> 1 = r >>> 1 := by
    apply BitVec.eq_of_getLsbD_eq
    intro i _
    simp only [BitVec.getLsbD_ushiftRight, BitVec.getLsbD_xor, getLsbD_bit]
    simp
  rw [feedBit, shift, hlow, hrest]

/-- Feeding at most `w` bits is adding their word and shifting. -/
theorem feed_eq_shifts (r : BitVec w) (bs : List Bool) (h : bs.length ≤ w) :
    feed P r bs = (shift P)^[bs.length] (r ^^^ word bs) := by
  induction bs generalizing r with
  | nil => simp [word]
  | cons b bs ih =>
    have hlen : bs.length + 1 ≤ w := h
    have hmove : shift P (word bs <<< 1) = word bs := by
      have hlow : (word bs <<< 1 : BitVec w).getLsbD 0 = false := by
        simp [BitVec.getLsbD_shiftLeft]
      rw [shift, hlow, if_neg Bool.false_ne_true]
      apply BitVec.eq_of_getLsbD_eq
      intro i hi
      rw [BitVec.getLsbD_ushiftRight, BitVec.getLsbD_shiftLeft]
      by_cases hend : 1 + i < w
      · simp [hend]
      · rw [getLsbD_word bs i hi, List.getD_eq_default _ _ (by omega)]
        simp [hend]
    have hstep : shift P (r ^^^ bit b) ^^^ word bs = shift P (r ^^^ word (b :: bs)) := by
      calc shift P (r ^^^ bit b) ^^^ word bs
          = shift P (r ^^^ bit b) ^^^ shift P (word bs <<< 1) := by rw [hmove]
        _ = shift P (r ^^^ word (b :: bs)) := by
          rw [← shift_xor, word, BitVec.xor_assoc]
    rw [feed_cons, ih _ (by omega), hstep, List.length_cons, Function.iterate_succ_apply]

end Register

section Bits

/-- The low `n` bits of a number, least significant bit first. -/
def bitsOf (n x : ℕ) : List Bool := (List.range n).map x.testBit

@[simp] theorem length_bitsOf (n x : ℕ) : (bitsOf n x).length = n := by
  simp [bitsOf]

theorem bitsOf_add (m n x : ℕ) : bitsOf (m + n) x = bitsOf m x ++ bitsOf n (x / 2 ^ m) := by
  simp only [bitsOf, List.range_add, List.map_append, List.map_map]
  congr 1
  apply List.map_congr_left
  intro i _
  rw [Function.comp_apply, Nat.testBit_div_two_pow, Nat.add_comm]

theorem bitsOf_mod (n x : ℕ) : bitsOf n (x % 2 ^ n) = bitsOf n x := by
  apply List.map_congr_left
  intro i hi
  rw [Nat.testBit_mod_two_pow, decide_eq_true (List.mem_range.mp hi), Bool.true_and]

theorem word_bitsOf {w : ℕ} (c : BitVec w) : word (bitsOf w c.toNat) = c := by
  apply BitVec.eq_of_getLsbD_eq
  intro i hi
  rw [getLsbD_word _ i hi]
  simp [bitsOf, hi, BitVec.getLsbD, List.getD_eq_getElem?_getD]

/-- Feeding the bits of a number as long as the register. -/
theorem feed_bitsOf {w : ℕ} (P r c : BitVec w) :
    feed P r (bitsOf w c.toNat) = (shift P)^[w] (r ^^^ c) := by
  rw [feed_eq_shifts P r _ (by simp), word_bitsOf, length_bitsOf]

end Bits

section Detection

variable {w : ℕ} {P : BitVec w}

/-- A burst that is not all zero and no longer than the register is seen,
whatever number of zeros stands before and after it. -/
theorem feed_burst_ne_zero (htop : P.getLsbD (w - 1) = true) (before after : ℕ)
    (burst : List Bool) (hlen : burst.length ≤ w) (hset : true ∈ burst) :
    feed P 0#w (List.replicate before false ++ burst ++ List.replicate after false) ≠ 0#w := by
  intro h
  rw [feed_append, feed_append, feed_replicate_false, feed_replicate_false, iterate_shift_zero,
    feed_eq_shifts P _ burst hlen, ← Function.iterate_add_apply] at h
  have hinj := (shift_injective P htop).iterate (after + burst.length)
  have hword : 0#w ^^^ word burst = 0#w := hinj (h.trans (iterate_shift_zero P _).symm)
  obtain ⟨i, hi, hbit⟩ := List.getElem_of_mem hset
  have hget := getLsbD_word (w := w) burst i (by omega)
  rw [BitVec.zero_xor] at hword
  rw [hword, List.getD_eq_getElem _ _ hi, hbit] at hget
  simp at hget

end Detection

end GemhoNbiot.BitCrc
