import Mathlib.Algebra.GroupWithZero.Nat
import Mathlib.Data.List.Forall2
import Mathlib.Data.List.TakeWhile
import GemhoNbiot.Stdio

/-!
Printing and scanning numbers. The conversion %d takes white space, a sign or
none and digits, whatever follows but a digit, and nothing else; %d of snprintf
prints such a text without the white space. A format whose separators are not
digits converts exactly the texts that begin with its numbers joined by these
separators.
-/
namespace GemhoNbiot.ScanPrint

open Stdio

/-- One or more decimal digits. -/
def DigitString (s : List UInt8) : Prop := s ≠ [] ∧ ∀ b ∈ s, isDigit b = true

instance (s : List UInt8) : Decidable (DigitString s) :=
  decidable_of_iff (s ≠ [] ∧ s.all isDigit = true) (by rw [DigitString, List.all_eq_true])

/-- Texts with the separators of a format between them. -/
def joinWith : List UInt8 → List (List UInt8) → List UInt8
  | _, [] => []
  | [], s :: _ => s
  | sep :: seps, s :: ss => s ++ sep :: joinWith seps ss

/-- A sign or none and digits, with the number they stand for. -/
inductive Signed : List UInt8 → ℤ → Prop
  | plain (ds : List UInt8) (h : DigitString ds) : Signed ds (digitsValue ds)
  | plus (ds : List UInt8) (h : DigitString ds) : Signed (43 :: ds) (digitsValue ds)
  | minus (ds : List UInt8) (h : DigitString ds) : Signed (45 :: ds) (-digitsValue ds)

/-- What %d converts to this number: white space, a sign or none, digits. -/
def Reads (s : List UInt8) (z : ℤ) : Prop :=
  ∃ blanks number, s = blanks ++ number ∧ (∀ b ∈ blanks, isSpace b = true) ∧ Signed number z

/-- The text begins with these numbers and the separators between them. What
follows the last digit is not looked at. -/
def Converts (seps text : List UInt8) (zs : List ℤ) : Prop :=
  ∃ ss rest, text = joinWith seps ss ++ rest ∧ List.Forall₂ Reads ss zs ∧
    ss.length = seps.length + 1 ∧ ∀ b ∈ rest.head?, isDigit b = false

section Digits

theorem digitChar_isDigit (d : ℕ) (h : d < 10) : isDigit (digitChar d) = true := by
  have hall : ∀ d < 10, isDigit (digitChar d) = true := by decide
  exact hall d h

theorem digitChar_value (d : ℕ) (h : d < 10) : (digitChar d).toNat - 48 = d := by
  have hall : ∀ d < 10, (digitChar d).toNat - 48 = d := by decide
  exact hall d h

theorem decimal_digitString (n : ℕ) : DigitString (decimal n) := by
  refine ⟨digits_ne_nil 10 n, ?_⟩
  intro b hb
  obtain ⟨d, hd, rfl⟩ := List.mem_map.mp hb
  exact digitChar_isDigit d (digitsRev_lt 10 (n + 1) n (by decide) d (List.mem_reverse.mp hd))

theorem digitsValue_snoc (ds : List UInt8) (d : UInt8) :
    digitsValue (ds ++ [d]) = 10 * digitsValue ds + (d.toNat - 48) := by
  rw [digitsValue, List.foldl_append, List.foldl_cons, List.foldl_nil, digitsValue]

/-- Digits least significant first, read most significant first. -/
theorem digitsValue_digitsRev (fuel n : ℕ) (h : n < fuel) :
    digitsValue ((digitsRev 10 fuel n).reverse.map digitChar) = n := by
  induction fuel generalizing n with
  | zero => omega
  | succ fuel ih =>
    rw [digitsRev]
    by_cases hn : n < 10
    · rw [if_pos hn]
      simp [digitsValue, digitChar_value n hn]
    · rw [if_neg hn, List.reverse_cons, List.map_append, List.map_singleton, digitsValue_snoc,
        ih (n / 10) (by omega), digitChar_value (n % 10) (Nat.mod_lt _ (by decide))]
      omega

@[simp] theorem digitsValue_decimal (n : ℕ) : digitsValue (decimal n) = n :=
  digitsValue_digitsRev (n + 1) n (Nat.lt_succ_self n)

theorem digitsRev_length_le (base fuel n k : ℕ) (hk : 0 < k)
    (h : n < base ^ k) : (digitsRev base fuel n).length ≤ k := by
  induction fuel generalizing n k with
  | zero => exact Nat.zero_le k
  | succ fuel ih =>
    rw [digitsRev]
    by_cases hn : n < base
    · rw [if_pos hn]
      exact hk
    · rw [if_neg hn, List.length_cons]
      obtain ⟨j, rfl⟩ : ∃ j, k = j + 1 := ⟨k - 1, by omega⟩
      have hj : 0 < j := by
        rcases Nat.eq_zero_or_pos j with rfl | hj
        · rw [Nat.zero_add, Nat.pow_one] at h
          exact absurd h hn
        · exact hj
      have hdiv : n / base < base ^ j := by
        rw [Nat.pow_succ] at h
        exact Nat.div_lt_of_lt_mul (by rwa [Nat.mul_comm])
      exact Nat.succ_le_succ (ih (n / base) j hj hdiv)

theorem decimal_length_le (n k : ℕ) (hk : 0 < k) (h : n < 10 ^ k) : (decimal n).length ≤ k := by
  rw [decimal, digits, List.length_map, List.length_reverse]
  exact digitsRev_length_le 10 (n + 1) n k hk h

end Digits

section Scan

theorem not_isSpace_of_isDigit (b : UInt8) (h : isDigit b = true) : isSpace b = false := by
  simp only [isDigit, isSpace, Bool.and_eq_true, decide_eq_true_eq, Bool.or_eq_false_iff,
    decide_eq_false_iff_not, Bool.and_eq_false_imp] at h ⊢
  rw [UInt8.le_iff_toNat_le, UInt8.le_iff_toNat_le] at h
  simp only [UInt8.reduceToNat, ← UInt8.toNat_inj, UInt8.le_iff_toNat_le] at h ⊢
  omega

/-- The sign of a text that begins with a digit. -/
theorem scanSign_of_isDigit (b : UInt8) (bs : List UInt8) (h : isDigit b = true) :
    scanSign (b :: bs) = (1, b :: bs) := by
  have hminus : b ≠ 45 := by
    intro heq
    rw [heq] at h
    exact absurd h (by decide)
  have hplus : b ≠ 43 := by
    intro heq
    rw [heq] at h
    exact absurd h (by decide)
  rw [scanSign, if_neg hminus, if_neg hplus]

/-- Digits are split off in front of anything but a digit. -/
theorem span_digitString (s rest : List UInt8) (h : DigitString s)
    (hrest : ∀ b ∈ rest.head?, isDigit b = false) :
    (s ++ rest).takeWhile isDigit = s ∧ (s ++ rest).dropWhile isDigit = rest := by
  rw [List.takeWhile_append_of_pos h.2, List.dropWhile_append_of_pos h.2]
  cases rest with
  | nil => simp
  | cons b rest =>
    have hb : ¬ isDigit b = true := by simp [hrest b rfl]
    rw [List.takeWhile_cons_of_neg hb, List.dropWhile_cons_of_neg hb, List.append_nil]
    exact ⟨rfl, rfl⟩

/-- The sign of a number, and what %d makes of the digits behind it. -/
theorem Signed.scan {s : List UInt8} {z : ℤ} (h : Signed s z) (rest : List UInt8) :
    ∃ sign ds, scanSign (s ++ rest) = (sign, ds ++ rest) ∧ DigitString ds ∧
      sign * (digitsValue ds : ℤ) = z := by
  cases h with
  | plain _ hds =>
    obtain ⟨b, bs, rfl⟩ := List.exists_cons_of_ne_nil hds.1
    refine ⟨1, b :: bs, ?_, hds, Int.one_mul _⟩
    exact scanSign_of_isDigit b (bs ++ rest) (hds.2 b List.mem_cons_self)
  | plus ds hds => exact ⟨1, ds, rfl, hds, Int.one_mul _⟩
  | minus ds hds => exact ⟨-1, ds, rfl, hds, Int.neg_one_mul _⟩

/-- A number does not begin with white space. -/
theorem Signed.not_isSpace {s : List UInt8} {z : ℤ} (h : Signed s z) (rest : List UInt8) :
    ∃ b bs, s ++ rest = b :: bs ∧ isSpace b = false := by
  cases h with
  | plain _ hds =>
    obtain ⟨b, bs, rfl⟩ := List.exists_cons_of_ne_nil hds.1
    exact ⟨b, bs ++ rest, rfl, not_isSpace_of_isDigit b (hds.2 b List.mem_cons_self)⟩
  | plus ds hds => exact ⟨43, ds ++ rest, rfl, by decide⟩
  | minus ds hds => exact ⟨45, ds ++ rest, rfl, by decide⟩

theorem scanD_reads {s rest : List UInt8} {z : ℤ} (h : Reads s z)
    (hrest : ∀ b ∈ rest.head?, isDigit b = false) : scanD (s ++ rest) = some (z, rest) := by
  obtain ⟨blanks, number, rfl, hblanks, hnumber⟩ := h
  obtain ⟨b, bs, hcons, hb⟩ := hnumber.not_isSpace rest
  have hspace : (blanks ++ number ++ rest).dropWhile isSpace = number ++ rest := by
    rw [List.append_assoc, List.dropWhile_append_of_pos hblanks, hcons,
      List.dropWhile_cons_of_neg (by simp [hb])]
  obtain ⟨sign, ds, hsign, hds, hvalue⟩ := hnumber.scan rest
  obtain ⟨htake, hdrop⟩ := span_digitString ds rest hds hrest
  rw [scanD, hspace, hsign]
  simp only [htake, hdrop, hds.1, if_false, hvalue]

/-- The sign of a text and the digits behind it make a number. -/
theorem signed_scanSign (bs digits : List UInt8) (hdigits : DigitString digits)
    (rest : List UInt8) (hscan : (scanSign bs).2 = digits ++ rest) :
    ∃ number, bs = number ++ rest ∧ Signed number ((scanSign bs).1 * digitsValue digits) := by
  cases bs with
  | nil =>
    have hnil := (List.append_eq_nil_iff.mp hscan.symm).1
    exact absurd hnil hdigits.1
  | cons b bs =>
    rw [scanSign] at hscan ⊢
    by_cases hminus : b = 45
    · rw [if_pos hminus] at hscan ⊢
      refine ⟨b :: digits, by rw [List.cons_append, ← hscan], ?_⟩
      rw [hminus, Int.neg_one_mul]
      exact .minus digits hdigits
    · rw [if_neg hminus] at hscan ⊢
      by_cases hplus : b = 43
      · rw [if_pos hplus] at hscan ⊢
        refine ⟨b :: digits, by rw [List.cons_append, ← hscan], ?_⟩
        rw [hplus, Int.one_mul]
        exact .plus digits hdigits
      · rw [if_neg hplus] at hscan ⊢
        refine ⟨digits, hscan, ?_⟩
        rw [Int.one_mul]
        exact .plain digits hdigits

/-- The text that %d takes off, and what it leaves. -/
theorem scanD_eq_some_iff (bs rest : List UInt8) (z : ℤ) :
    scanD bs = some (z, rest) ↔
      ∃ s, bs = s ++ rest ∧ Reads s z ∧ ∀ b ∈ rest.head?, isDigit b = false := by
  constructor
  · intro h
    rw [scanD] at h
    generalize hsign : scanSign (bs.dropWhile isSpace) = signed at h
    obtain ⟨sign, behind⟩ := signed
    simp only at h
    split_ifs at h with hnil
    have hpair := Option.some.inj h
    obtain rfl : sign * digitsValue (behind.takeWhile isDigit) = z := congrArg Prod.fst hpair
    obtain rfl : behind.dropWhile isDigit = rest := congrArg Prod.snd hpair
    have hdigits : DigitString (behind.takeWhile isDigit) :=
      ⟨hnil, fun b hb => List.mem_takeWhile_imp hb⟩
    obtain ⟨number, hnumber, hsigned⟩ := signed_scanSign (bs.dropWhile isSpace)
      (behind.takeWhile isDigit) hdigits (behind.dropWhile isDigit)
      (by rw [hsign, List.takeWhile_append_dropWhile])
    rw [hsign] at hsigned
    refine ⟨bs.takeWhile isSpace ++ number, ?_,
      ⟨bs.takeWhile isSpace, number, rfl, ?_, hsigned⟩, ?_⟩
    · rw [List.append_assoc, ← hnumber, List.takeWhile_append_dropWhile]
    · exact fun b hb => List.mem_takeWhile_imp hb
    · intro b hb
      have hnot := List.head?_dropWhile_not isDigit behind
      rw [Option.mem_def.mp hb] at hnot
      simpa using hnot
  · rintro ⟨s, rfl, hs, hrest⟩
    exact scanD_reads hs hrest

theorem converts_nil_iff (text : List UInt8) (z : ℤ) :
    Converts [] text [z] ↔ ∃ rest, scanD text = some (z, rest) := by
  constructor
  · rintro ⟨ss, rest, rfl, hss, hlen, hrest⟩
    obtain ⟨s, rfl⟩ := List.length_eq_one_iff.mp hlen
    exact ⟨rest, scanD_reads (List.forall₂_cons.mp hss).1 hrest⟩
  · rintro ⟨rest, hscan⟩
    obtain ⟨s, rfl, hs, hrest⟩ := (scanD_eq_some_iff text rest z).mp hscan
    exact ⟨[s], rest, rfl, .cons hs .nil, rfl, hrest⟩

theorem converts_cons_iff (sep : UInt8) (seps text : List UInt8) (z : ℤ) (zs : List ℤ)
    (hsep : isDigit sep = false) :
    Converts (sep :: seps) text (z :: zs) ↔
      ∃ rest, scanD text = some (z, sep :: rest) ∧ Converts seps rest zs := by
  constructor
  · rintro ⟨ss, rest, rfl, hss, hlen, hrest⟩
    obtain ⟨s, ss, hs, hall, rfl⟩ := List.forall₂_cons_right_iff.mp hss
    refine ⟨joinWith seps ss ++ rest, ?_, ss, rest, rfl, hall, by simpa using hlen, hrest⟩
    rw [joinWith, List.append_assoc]
    exact scanD_reads hs (by simp [hsep])
  · rintro ⟨rest, hscan, ss, tail, rfl, hall, hlen, htail⟩
    obtain ⟨s, rfl, hs, _⟩ := (scanD_eq_some_iff text _ z).mp hscan
    refine ⟨s :: ss, tail, ?_, .cons hs hall, by simpa using hlen, htail⟩
    rw [joinWith, List.append_assoc]
    rfl

/-- A format converts all its numbers exactly of the texts that begin with them. -/
theorem scanf_eq_iff (seps text : List UInt8) (zs : List ℤ)
    (hseps : ∀ sep ∈ seps, isDigit sep = false) (hlen : zs.length = seps.length + 1) :
    scanf seps text = zs ↔ Converts seps text zs := by
  induction seps generalizing text zs with
  | nil =>
    obtain ⟨z, rfl⟩ := List.length_eq_one_iff.mp hlen
    rw [converts_nil_iff, scanf]
    cases scanD text with
    | none => simp
    | some read => simp [Prod.ext_iff]
  | cons sep seps ih =>
    obtain ⟨z, zs, rfl⟩ := List.exists_cons_of_length_eq_add_one hlen
    have hne : zs ≠ [] := by
      intro hnil
      rw [hnil] at hlen
      simp at hlen
    have hrest (rest : List UInt8) := ih rest zs
      (fun t ht => hseps t (List.mem_cons_of_mem _ ht)) (by simpa using hlen)
    rw [converts_cons_iff sep seps text z zs (hseps sep List.mem_cons_self), scanf]
    cases hscan : scanD text with
    | none => simp
    | some read =>
      obtain ⟨y, behind⟩ := read
      cases behind with
      | nil => simp [hne.symm]
      | cons b behind =>
        by_cases hb : b = sep
        · simp [hb, hrest, and_assoc]
        · simp [hb, hne.symm]

theorem DigitString.reads {s : List UInt8} (h : DigitString s) : Reads s (digitsValue s) :=
  ⟨[], s, rfl, by simp, .plain s h⟩

/-- The format with the separators of a joined text converts all its numbers. -/
theorem scanf_joinWith (seps : List UInt8) (ss : List (List UInt8))
    (hseps : ∀ sep ∈ seps, isDigit sep = false) (hss : ∀ s ∈ ss, DigitString s)
    (hlen : ss.length = seps.length + 1) :
    scanf seps (joinWith seps ss) = ss.map fun s => (digitsValue s : ℤ) := by
  apply (scanf_eq_iff seps _ _ hseps (by rw [List.length_map, hlen])).mpr
  refine ⟨ss, [], (List.append_nil _).symm, ?_, hlen, by simp⟩
  exact List.forall₂_map_right_iff.mpr (List.forall₂_same.mpr fun s hs => (hss s hs).reads)

end Scan

section Text

/-- A text without zero bytes is the whole string. -/
theorem cstr_eq_self (bs : List UInt8) (h : 0 ∉ bs) : cstr bs = bs := by
  refine List.takeWhile_eq_self_iff.mpr ?_
  intro b hb
  have hne : b ≠ 0 := by
    intro hzero
    rw [hzero] at hb
    exact h hb
  simpa using hne

theorem cstr_append (a b : List UInt8) (h : 0 ∉ a) : cstr (a ++ b) = a ++ cstr b :=
  List.takeWhile_append_of_pos fun x hx => by
    have hne : x ≠ 0 := fun hzero => h (hzero ▸ hx)
    simpa using hne

theorem Reads.zero_not_mem {s : List UInt8} {z : ℤ} (h : Reads s z) : 0 ∉ s := by
  obtain ⟨blanks, number, rfl, hblanks, hnumber⟩ := h
  have hdigits (ds : List UInt8) (hds : DigitString ds) : 0 ∉ ds :=
    fun hmem => absurd (hds.2 0 hmem) (by decide)
  rw [List.mem_append]
  rintro (hmem | hmem)
  · exact absurd (hblanks 0 hmem) (by decide)
  · cases hnumber with
    | plain _ hds => exact hdigits _ hds hmem
    | plus ds hds | minus ds hds =>
      rcases List.mem_cons.mp hmem with heq | hmem
      · exact absurd heq (by decide)
      · exact hdigits ds hds hmem

theorem zero_not_mem_joinWith (seps : List UInt8) (ss : List (List UInt8)) (zs : List ℤ)
    (hseps : 0 ∉ seps) (hss : List.Forall₂ Reads ss zs) : 0 ∉ joinWith seps ss := by
  induction seps generalizing ss zs with
  | nil =>
    cases hss with
    | nil => exact List.not_mem_nil
    | cons hs _ => exact hs.zero_not_mem
  | cons sep seps ih =>
    rw [List.mem_cons, not_or] at hseps
    cases hss with
    | nil => exact List.not_mem_nil
    | cons hs hall =>
      rw [joinWith, List.mem_append, List.mem_cons, not_or, not_or]
      exact ⟨hs.zero_not_mem, hseps.1, ih _ _ hseps.2 hall⟩

/-- A zero byte is one of the bytes that may stand behind the last digit. -/
theorem converts_cstr_iff (seps text : List UInt8) (zs : List ℤ) (hseps : 0 ∉ seps) :
    Converts seps (cstr text) zs ↔ Converts seps text zs := by
  constructor
  · rintro ⟨ss, rest, hcstr, hss, hlen, hrest⟩
    refine ⟨ss, rest ++ text.dropWhile (· ≠ 0), ?_, hss, hlen, ?_⟩
    · rw [← List.append_assoc, ← hcstr, cstr, List.takeWhile_append_dropWhile]
    · intro b hb
      cases rest with
      | nil =>
        have hnot := List.head?_dropWhile_not (· ≠ 0) text
        rw [List.nil_append] at hb
        rw [Option.mem_def.mp hb] at hnot
        have hzero : b = 0 := by simpa using hnot
        rw [hzero]
        decide
      | cons c rest => exact hrest b hb
  · rintro ⟨ss, rest, rfl, hss, hlen, hrest⟩
    have hzero := zero_not_mem_joinWith seps ss zs hseps hss
    refine ⟨ss, cstr rest, cstr_append _ rest hzero, hss, hlen, ?_⟩
    intro b hb
    cases rest with
    | nil => simp [cstr] at hb
    | cons c rest =>
      by_cases hc : c = 0
      · simp [cstr, hc] at hb
      · have hcb : c = b := by simpa [cstr, hc] using hb
        exact hrest b (by rw [← hcb]; rfl)

theorem not_mem_of_printable (bs : List UInt8) (h : Printable bs) (b : UInt8) (hb : b < 32) :
    b ∉ bs :=
  fun hmem => absurd (h b hmem) (UInt8.not_le.mpr hb)

theorem DigitString.printable {s : List UInt8} (h : DigitString s) : Printable s := by
  intro b hb
  have hdigit := h.2 b hb
  simp only [isDigit, Bool.and_eq_true, decide_eq_true_eq] at hdigit
  exact UInt8.le_trans (by decide) hdigit.1

theorem printable_joinWith (seps : List UInt8) (ss : List (List UInt8)) (hseps : Printable seps)
    (hss : ∀ s ∈ ss, DigitString s) : Printable (joinWith seps ss) := by
  induction seps generalizing ss with
  | nil =>
    cases ss with
    | nil => exact fun b hb => absurd hb List.not_mem_nil
    | cons s ss => exact (hss s List.mem_cons_self).printable
  | cons sep seps ih =>
    cases ss with
    | nil => exact fun b hb => absurd hb List.not_mem_nil
    | cons s ss =>
      have hrest := ih ss (fun b hb => hseps b (List.mem_cons_of_mem _ hb))
        fun t ht => hss t (List.mem_cons_of_mem _ ht)
      intro b hb
      rw [joinWith, List.mem_append, List.mem_cons] at hb
      rcases hb with hb | rfl | hb
      · exact (hss s List.mem_cons_self).printable b hb
      · exact hseps b List.mem_cons_self
      · exact hrest b hb

end Text

end GemhoNbiot.ScanPrint
