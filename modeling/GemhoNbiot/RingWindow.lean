import Mathlib.Data.Nat.ModEq
import Mathlib.Logic.Function.Basic
import Mathlib.Tactic.Ring

/-!
Rings of n cells addressed by counters that wrap at a modulus m. The entry i
places behind the get counter lives in cell ((base + i) mod m) mod n. When n
does not divide m, two entries on either side of the wrap can share a cell.
A window is straight when this cannot happen: n divides m, or the window ends
before the wrap. Appending to a straight window keeps every older entry.
-/
namespace GemhoNbiot.RingWindow

/-- Cell of the entry `i` places behind the get counter `base`. -/
def cell (m n base i : ℕ) : ℕ := (base + i) % m % n

/-- No two of the first `len` entries can share a cell through the wrap. -/
def Straight (m n base len : ℕ) : Prop := n ∣ m ∨ base + len ≤ m

theorem cell_lt (m n base i : ℕ) (hn : 0 < n) : cell m n base i < n :=
  Nat.mod_lt _ hn

theorem cell_succ (m n base i : ℕ) :
    cell m n ((base + 1) % m) i = cell m n base (i + 1) := by
  unfold cell
  rw [Nat.mod_add_mod, Nat.add_assoc, Nat.add_comm 1 i]

private theorem eq_of_add_mod_eq {n base i j : ℕ} (hi : i < n) (hj : j < n)
    (h : (base + i) % n = (base + j) % n) : i = j := by
  have hmod : i ≡ j [MOD n] := Nat.ModEq.add_left_cancel' base h
  exact Nat.ModEq.eq_of_lt_of_lt hmod hi hj

theorem cell_injective {m n base len i j : ℕ} (hs : Straight m n base len)
    (hlen : len ≤ n) (hi : i < len) (hj : j < len)
    (h : cell m n base i = cell m n base j) : i = j := by
  unfold cell at h
  rcases hs with hdvd | hle
  · rw [Nat.mod_mod_of_dvd _ hdvd, Nat.mod_mod_of_dvd _ hdvd] at h
    exact eq_of_add_mod_eq (by omega) (by omega) h
  · rw [Nat.mod_eq_of_lt (show base + i < m by omega),
      Nat.mod_eq_of_lt (show base + j < m by omega)] at h
    exact eq_of_add_mod_eq (by omega) (by omega) h

theorem Straight.mono {m n base len len' : ℕ} (hs : Straight m n base len)
    (hle : len' ≤ len) : Straight m n base len' := by
  rcases hs with hdvd | hend
  · exact Or.inl hdvd
  · exact Or.inr (by omega)

theorem Straight.tail {m n base len : ℕ} (hs : Straight m n base (len + 1)) :
    Straight m n ((base + 1) % m) len := by
  rcases hs with hdvd | hend
  · exact Or.inl hdvd
  · rcases Nat.lt_or_ge (base + 1) m with hlt | hge
    · rw [Nat.mod_eq_of_lt hlt]
      exact Or.inr (by omega)
    · have hbase : base + 1 = m := by omega
      have hlen : len = 0 := by omega
      rw [hbase, Nat.mod_self, hlen]
      exact Or.inr (by omega)

variable {α : Type*}

/-- The live window behind `base` stores exactly the list `xs`. -/
def Holds (m n base : ℕ) (cells : ℕ → Option α) (xs : List α) : Prop :=
  ∀ (i : ℕ) (h : i < xs.length), cells (cell m n base i) = some xs[i]

theorem holds_nil (m n base : ℕ) (cells : ℕ → Option α) :
    Holds m n base cells [] := by
  intro i h
  simp at h

theorem Holds.head {m n base : ℕ} {cells : ℕ → Option α} {x : α} {xs : List α}
    (h : Holds m n base cells (x :: xs)) : cells (cell m n base 0) = some x :=
  h 0 (by simp)

theorem Holds.tail {m n base : ℕ} {cells : ℕ → Option α} {x : α} {xs : List α}
    (h : Holds m n base cells (x :: xs)) :
    Holds m n ((base + 1) % m) cells xs := by
  intro i hi
  have hnext := h (i + 1) (by simpa using hi)
  rw [cell_succ]
  simpa only [List.getElem_cons_succ] using hnext

/-- Writing the first free cell of a straight window appends an entry. -/
theorem Holds.snoc {m n base : ℕ} {cells : ℕ → Option α} {xs : List α}
    (h : Holds m n base cells xs) (hs : Straight m n base (xs.length + 1))
    (hlen : xs.length < n) (x : α) :
    Holds m n base (Function.update cells (cell m n base xs.length) (some x))
      (xs ++ [x]) := by
  intro i hi
  simp only [List.length_append, List.length_singleton] at hi
  by_cases hlast : i = xs.length
  · subst i
    simp
  · have hold : i < xs.length := by omega
    have hne : cell m n base i ≠ cell m n base xs.length := by
      intro heq
      exact hlast (cell_injective hs (by omega) (by omega) (by omega) heq)
    rw [Function.update_of_ne hne, List.getElem_append_left hold]
    exact h i hold

theorem cell_add (m n base k i : ℕ) :
    cell m n ((base + k) % m) i = cell m n base (k + i) := by
  unfold cell
  rw [Nat.mod_add_mod, Nat.add_assoc]

/-- Changing other cells does not touch the window. -/
theorem Holds.congr {m n base : ℕ} {cells cells' : ℕ → Option α} {xs : List α}
    (h : Holds m n base cells xs)
    (hsame : ∀ i, i < xs.length → cells' (cell m n base i) = cells (cell m n base i)) :
    Holds m n base cells' xs := by
  intro i hi
  rw [hsame i hi]
  exact h i hi

/-- A block behind the window extends it. -/
theorem Holds.append {m n base : ℕ} {cells : ℕ → Option α} {xs ys : List α}
    (hx : Holds m n base cells xs) (hy : Holds m n ((base + xs.length) % m) cells ys) :
    Holds m n base cells (xs ++ ys) := by
  intro i hi
  rw [List.length_append] at hi
  by_cases hold : i < xs.length
  · rw [List.getElem_append_left hold]
    exact hx i hold
  · have hnew := hy (i - xs.length) (by omega)
    rw [cell_add, show xs.length + (i - xs.length) = i by omega] at hnew
    rw [List.getElem_append_right (by omega)]
    exact hnew

theorem Holds.drop {m n base : ℕ} {cells : ℕ → Option α} {xs : List α}
    (h : Holds m n base cells xs) (k : ℕ) :
    Holds m n ((base + k) % m) cells (xs.drop k) := by
  intro i hi
  rw [List.length_drop] at hi
  rw [cell_add, List.getElem_drop]
  exact h (k + i) (by omega)

/-- Every cell of the live window has been written. -/
def Filled (m n base len : ℕ) (cells : ℕ → Option α) : Prop :=
  ∀ i, i < len → (cells (cell m n base i)).isSome

theorem Holds.filled {m n base : ℕ} {cells : ℕ → Option α} {xs : List α}
    (h : Holds m n base cells xs) : Filled m n base xs.length cells := by
  intro i hi
  simp [h i hi]

theorem Filled.tail {m n base len : ℕ} {cells : ℕ → Option α}
    (h : Filled m n base (len + 1) cells) :
    Filled m n ((base + 1) % m) len cells := by
  intro i hi
  rw [cell_succ]
  exact h (i + 1) (by omega)

/-- Unlike `Holds.snoc`, this needs no straightness: a clobbered cell is
still a written one. -/
theorem Filled.snoc {m n base len : ℕ} {cells : ℕ → Option α}
    (h : Filled m n base len cells) (x : α) :
    Filled m n base (len + 1)
      (Function.update cells (cell m n base len) (some x)) := by
  intro i hi
  by_cases heq : cell m n base i = cell m n base len
  · simp [heq]
  · have hlt : i < len := by
      rcases Nat.lt_or_ge i len with hlt | hge
      · exact hlt
      · exact absurd (congrArg (cell m n base) (show i = len by omega)) heq
    simpa [Function.update_of_ne heq] using h i hlt

end GemhoNbiot.RingWindow
