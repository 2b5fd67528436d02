import Mathlib.Data.Int.Notation
import GemhoNbiot.Memmem

/-!
The parts of the C library that the commands use: strings up to the terminating
zero, the conversions %d and %X of snprintf, and the conversion %d of sscanf
with literal separators. An int stored by %d from a number outside the range of
int is left open: it is given by a parameter.
-/
namespace GemhoNbiot.Stdio

/-- The string that starts at these bytes. -/
def cstr (bs : List UInt8) : List UInt8 := bs.takeWhile (· ≠ 0)

/-- The digits of a number, least significant first. -/
def digitsRev (base : ℕ) : ℕ → ℕ → List ℕ
  | 0, _ => []
  | fuel + 1, n => if n < base then [n] else n % base :: digitsRev base fuel (n / base)

def digitChar (d : ℕ) : UInt8 := if d < 10 then UInt8.ofNat (48 + d) else UInt8.ofNat (55 + d)

/-- The digits of a number as text, most significant first. -/
def digits (base n : ℕ) : List UInt8 := (digitsRev base (n + 1) n).reverse.map digitChar

/-- %d and %u of a non-negative number. -/
def decimal (n : ℕ) : List UInt8 := digits 10 n

/-- %d. -/
def printD (z : ℤ) : List UInt8 :=
  if z < 0 then 45 :: decimal z.natAbs else decimal z.toNat

/-- %X padded with zeros to a width. -/
def printX (width n : ℕ) : List UInt8 :=
  List.replicate (width - (digits 16 n).length) 48 ++ digits 16 n

theorem digitsRev_lt (base fuel n : ℕ) (hbase : 0 < base) :
    ∀ d ∈ digitsRev base fuel n, d < base := by
  induction fuel generalizing n with
  | zero => simp [digitsRev]
  | succ fuel ih =>
    intro d hd
    rw [digitsRev] at hd
    by_cases hn : n < base
    · rw [if_pos hn, List.mem_singleton] at hd
      omega
    · rw [if_neg hn, List.mem_cons] at hd
      rcases hd with rfl | hd
      · exact Nat.mod_lt _ hbase
      · exact ih (n / base) d hd

theorem digits_ge (base n : ℕ) (hbase : 0 < base) (hsmall : base ≤ 16) :
    ∀ b ∈ digits base n, 48 ≤ b := by
  intro b hb
  obtain ⟨d, hd, rfl⟩ := List.mem_map.mp hb
  have hlt := digitsRev_lt base (n + 1) n hbase d (List.mem_reverse.mp hd)
  have hall : ∀ d < 16, 48 ≤ digitChar d := by decide
  exact hall d (by omega)

theorem decimal_ge (n : ℕ) : ∀ b ∈ decimal n, 48 ≤ b :=
  digits_ge 10 n (by decide) (by decide)

theorem printX_ge (width n : ℕ) : ∀ b ∈ printX width n, 48 ≤ b := by
  intro b hb
  rw [printX, List.mem_append] at hb
  rcases hb with hb | hb
  · rw [List.eq_of_mem_replicate hb]
    decide
  · exact digits_ge 16 n (by decide) (by decide) b hb

theorem digits_ne_nil (base n : ℕ) : digits base n ≠ [] := by
  unfold digits
  rw [digitsRev]
  by_cases h : n < base
  · simp [h]
  · simp [h]

theorem printX_ne_nil (width n : ℕ) : printX width n ≠ [] := by
  simp [printX, digits_ne_nil]

/-- No control characters. -/
def Printable (bs : List UInt8) : Prop := ∀ b ∈ bs, 32 ≤ b

instance (bs : List UInt8) : Decidable (Printable bs) :=
  decidable_of_iff (bs.all fun b => decide (32 ≤ b)) (by simp [Printable])

@[simp] theorem printable_append (xs ys : List UInt8) :
    Printable (xs ++ ys) ↔ Printable xs ∧ Printable ys := by
  simp only [Printable, List.mem_append, or_imp, forall_and]

@[simp] theorem printable_decimal (n : ℕ) : Printable (decimal n) :=
  fun b hb => UInt8.le_trans (by decide) (decimal_ge n b hb)

@[simp] theorem printable_printX (width n : ℕ) : Printable (printX width n) :=
  fun b hb => UInt8.le_trans (by decide) (printX_ge width n b hb)

@[simp] theorem printable_printD (z : ℤ) : Printable (printD z) := by
  intro b hb
  rw [printD] at hb
  by_cases hz : z < 0
  · rw [if_pos hz, List.mem_cons] at hb
    rcases hb with rfl | hb
    · decide
    · exact printable_decimal _ b hb
  · rw [if_neg hz] at hb
    exact printable_decimal _ b hb

def isSpace (b : UInt8) : Bool := b = 32 || (9 ≤ b && b ≤ 13)

def isDigit (b : UInt8) : Bool := 48 ≤ b && b ≤ 57

def digitsValue (ds : List UInt8) : ℕ :=
  ds.foldl (fun acc d => 10 * acc + (d.toNat - 48)) 0

/-- The sign of a number and what follows it. -/
def scanSign : List UInt8 → ℤ × List UInt8
  | [] => (1, [])
  | b :: bs => if b = 45 then (-1, bs) else if b = 43 then (1, bs) else (1, b :: bs)

/-- One %d: white space, a sign, digits. The number converted and the rest. -/
def scanD (bs : List UInt8) : Option (ℤ × List UInt8) :=
  let (sign, rest) := scanSign (bs.dropWhile isSpace)
  let digits := rest.takeWhile isDigit
  if digits = [] then none
  else some (sign * digitsValue digits, rest.dropWhile isDigit)

/-- sscanf of %d, sep, %d, sep and so on: the numbers converted. -/
def scanf : List UInt8 → List UInt8 → List ℤ
  | [], bs =>
    match scanD bs with
    | none => []
    | some (z, _) => [z]
  | sep :: seps, bs =>
    match scanD bs with
    | none => []
    | some (z, rest) =>
      match rest with
      | [] => [z]
      | b :: rest => if b = sep then z :: scanf seps rest else [z]

/-- The int that %d stores; `wide` is what it stores out of range. -/
def toInt (wide : ℤ → ℤ) (z : ℤ) : ℤ :=
  if -2147483648 ≤ z ∧ z ≤ 2147483647 then z else wide z

end GemhoNbiot.Stdio
