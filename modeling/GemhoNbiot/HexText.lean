import Mathlib.Algebra.GroupWithZero.Nat
import GemhoNbiot.ScanPrint

/-!
Bytes as upper-case hexadecimal text. Printing with %X and a width appends one
digit to the text of the quotient by 16, so %02X prints two digits and %04X the
two bytes of a 16-bit number, high byte first. A decoder that accepts only
upper-case digits in pairs gives the printed bytes back.
-/
namespace GemhoNbiot.HexText

open Stdio ScanPrint

def isHexDigit (b : UInt8) : Bool := (48 ≤ b && b ≤ 57) || (65 ≤ b && b ≤ 70)

def hexValue (b : UInt8) : Option ℕ :=
  if 48 ≤ b ∧ b ≤ 57 then some (b.toNat - 48)
  else if 65 ≤ b ∧ b ≤ 70 then some (b.toNat - 55)
  else none

/-- The bytes of a text of pairs of digits. -/
def unhex : List UInt8 → Option (List UInt8)
  | [] => some []
  | [_] => none
  | hi :: lo :: rest =>
    match hexValue hi, hexValue lo, unhex rest with
    | some hi, some lo, some bs => some (UInt8.ofNat (16 * hi + lo) :: bs)
    | _, _, _ => none

/-- Each byte with %02X. -/
def hexText (bs : List UInt8) : List UInt8 := (bs.map fun b => printX 2 b.toNat).flatten

/-- The two bytes of a 16-bit number, high byte first. -/
def bigEndian (n : ℕ) : List UInt8 := [UInt8.ofNat (n / 256), UInt8.ofNat (n % 256)]

section Digits

theorem digitsRev_fuel (base : ℕ) (hbase : 1 < base) (fuel fuel' n : ℕ) (h : n < fuel)
    (h' : n < fuel') : digitsRev base fuel n = digitsRev base fuel' n := by
  induction fuel generalizing fuel' n with
  | zero => omega
  | succ fuel ih =>
    obtain ⟨fuel', rfl⟩ : ∃ k, fuel' = k + 1 := ⟨fuel' - 1, by omega⟩
    rw [digitsRev, digitsRev]
    by_cases hn : n < base
    · rw [if_pos hn, if_pos hn]
    · have hdiv : n / base < n := Nat.div_lt_self (by omega) hbase
      rw [if_neg hn, if_neg hn, ih fuel' (n / base) (by omega) (by omega)]

theorem digits_of_lt (base n : ℕ) (h : n < base) : digits base n = [digitChar n] := by
  rw [digits, digitsRev, if_pos h]
  simp

/-- The last digit of a number of several digits. -/
theorem digits_of_ge (base n : ℕ) (hbase : 1 < base) (h : base ≤ n) :
    digits base n = digits base (n / base) ++ [digitChar (n % base)] := by
  have hdiv : n / base < n := Nat.div_lt_self (by omega) hbase
  rw [digits, digitsRev, if_neg (by omega),
    digitsRev_fuel base hbase n (n / base + 1) (n / base) hdiv (by omega)]
  simp [digits]

theorem printX_zero (width : ℕ) (h : 0 < width) : printX width 0 = List.replicate width 48 := by
  obtain ⟨k, rfl⟩ : ∃ k, width = k + 1 := ⟨width - 1, by omega⟩
  have hzero : digits 16 0 = [48] := digits_of_lt 16 0 (by omega)
  rw [printX, hzero, List.replicate_succ']
  rfl

/-- A text one wider has one more digit at its end. -/
theorem printX_succ (width n : ℕ) (h : 0 < width) :
    printX (width + 1) n = printX width (n / 16) ++ [digitChar (n % 16)] := by
  by_cases hn : n < 16
  · rw [Nat.div_eq_of_lt hn, Nat.mod_eq_of_lt hn, printX_zero width h, printX,
      digits_of_lt 16 n hn]
    rfl
  · rw [printX, printX, digits_of_ge 16 n (by omega) (by omega), List.length_append,
      List.length_singleton, Nat.add_sub_add_right, List.append_assoc]

theorem printX_one (n : ℕ) (h : n < 16) : printX 1 n = [digitChar n] := by
  rw [printX, digits_of_lt 16 n h]
  rfl

theorem printX_two (n : ℕ) (h : n < 256) :
    printX 2 n = [digitChar (n / 16), digitChar (n % 16)] := by
  rw [printX_succ 1 n (by omega), printX_one (n / 16) (by omega)]
  rfl

/-- %04X prints two bytes, high byte first. -/
theorem printX_four (n : ℕ) (h : n < 65536) : printX 4 n = hexText (bigEndian n) := by
  have hhi : (UInt8.ofNat (n / 256)).toNat = n / 256 := by
    rw [UInt8.toNat_ofNat']
    omega
  have hlo : (UInt8.ofNat (n % 256)).toNat = n % 256 := by
    rw [UInt8.toNat_ofNat']
    omega
  have hdiv : n / 16 / 16 = n / 256 := Nat.div_div_eq_div_mul n 16 16
  have hmid : n / 16 % 16 = n % 256 / 16 := by omega
  have hlow : n % 16 = n % 256 % 16 := by omega
  rw [printX_succ 3 n (by omega), printX_succ 2 (n / 16) (by omega), hdiv, hmid, hlow]
  rw [hexText, bigEndian, List.map_cons, List.map_cons, List.map_nil, hhi, hlo,
    printX_two (n % 256) (Nat.mod_lt n (by omega)), List.append_assoc]
  rfl

end Digits

section Text

theorem hexValue_digitChar (d : ℕ) (h : d < 16) : hexValue (digitChar d) = some d := by
  have hall : ∀ d < 16, hexValue (digitChar d) = some d := by decide
  exact hall d h

theorem isHexDigit_digitChar (d : ℕ) (h : d < 16) : isHexDigit (digitChar d) = true := by
  have hall : ∀ d < 16, isHexDigit (digitChar d) = true := by decide
  exact hall d h

@[simp] theorem hexText_nil : hexText [] = [] := rfl

theorem hexText_cons (b : UInt8) (bs : List UInt8) :
    hexText (b :: bs) = digitChar (b.toNat / 16) :: digitChar (b.toNat % 16) :: hexText bs := by
  rw [hexText, List.map_cons, List.flatten_cons, printX_two b.toNat b.toNat_lt]
  rfl

@[simp] theorem hexText_append (bs cs : List UInt8) :
    hexText (bs ++ cs) = hexText bs ++ hexText cs := by
  rw [hexText, List.map_append, List.flatten_append, hexText, hexText]

theorem hexText_length (bs : List UInt8) : (hexText bs).length = 2 * bs.length := by
  induction bs with
  | nil => rfl
  | cons b bs ih =>
    rw [hexText_cons, List.length_cons, List.length_cons, List.length_cons, ih]
    omega

theorem hexText_isHexDigit (bs : List UInt8) : ∀ c ∈ hexText bs, isHexDigit c = true := by
  induction bs with
  | nil => simp
  | cons b bs ih =>
    have hb := b.toNat_lt
    intro c hc
    rw [hexText_cons, List.mem_cons, List.mem_cons] at hc
    rcases hc with rfl | rfl | hc
    · exact isHexDigit_digitChar _ (by omega)
    · exact isHexDigit_digitChar _ (by omega)
    · exact ih c hc

/-- The decoder gives the printed bytes back. -/
theorem unhex_hexText (bs : List UInt8) : unhex (hexText bs) = some bs := by
  induction bs with
  | nil => rfl
  | cons b bs ih =>
    have hb := b.toNat_lt
    have hhi := hexValue_digitChar (b.toNat / 16) (by omega)
    have hlo := hexValue_digitChar (b.toNat % 16) (by omega)
    have hbyte : UInt8.ofNat (16 * (b.toNat / 16) + b.toNat % 16) = b := by
      rw [Nat.div_add_mod, UInt8.ofNat_toNat]
    rw [hexText_cons, unhex, hhi, hlo, ih]
    simp only [hbyte]

end Text

end GemhoNbiot.HexText
