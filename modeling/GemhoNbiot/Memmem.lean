import Mathlib.Data.List.GetD
import Mathlib.Tactic.ByContra
import Mathlib.Tactic.Conv
import Mathlib.Tactic.Push

/-!
memmem of src/utils.c on byte strings: the position of the first occurrence of
`s` in `l`. A needle of one byte goes through memchr, a longer one through a
loop over the possible positions. An occurrence at a position is the needle
standing as a prefix of what follows it.
-/
namespace GemhoNbiot.Memmem

/-- The bytes of a C string literal, without the terminating zero. -/
def bytes (s : String) : List UInt8 := s.toList.map fun c => UInt8.ofNat c.toNat

def memchr (l : List UInt8) (c : UInt8) : Option ℕ := l.findIdx? (· == c)

/-- The loop of memmem at position `cur` with `n` positions left. -/
def memmemLoop (l s : List UInt8) : ℕ → ℕ → Option ℕ
  | 0, _ => none
  | n + 1, cur =>
    if l.getD cur 0 = s.getD 0 0 ∧ (l.drop cur).take s.length = s then some cur
    else memmemLoop l s n (cur + 1)

def memmem (l s : List UInt8) : Option ℕ :=
  if l.length = 0 ∨ s.length = 0 then none
  else if l.length < s.length then none
  else if s.length = 1 then memchr l (s.getD 0 0)
  else memmemLoop l s (l.length - s.length + 1) 0

section Spec

variable {l s : List UInt8}

theorem occurs_bound {i : ℕ} (hs : s ≠ []) (h : s <+: l.drop i) : i + s.length ≤ l.length := by
  have hle := h.length_le
  have hpos := List.length_pos_iff.mpr hs
  rw [List.length_drop] at hle
  omega

theorem occurs_iff_take (i : ℕ) : s <+: l.drop i ↔ (l.drop i).take s.length = s :=
  ⟨fun h => (List.prefix_iff_eq_take.mp h).symm, fun h => List.prefix_iff_eq_take.mpr h.symm⟩

/-- Bytes behind an occurrence have no part in it. -/
theorem occurs_append (r : List UInt8) {i : ℕ} (h : i + s.length ≤ l.length) :
    s <+: (l ++ r).drop i ↔ s <+: l.drop i := by
  rw [List.drop_append_of_le_length (by omega)]
  refine ⟨fun hpre => ?_, fun hpre => hpre.trans (List.prefix_append _ r)⟩
  refine List.prefix_of_prefix_length_le hpre (List.prefix_append _ r) ?_
  rw [List.length_drop]
  omega

/-- The bytes of an occurrence are those of the needle. -/
theorem occurs_getElem? {i : ℕ} (h : s <+: l.drop i) {k : ℕ} (hk : k < s.length) :
    l[i + k]? = some s[k] := by
  rw [← List.getElem?_drop]
  exact List.prefix_iff_getElem?.mp h k hk

/-- The test of the loop is an occurrence: the first byte is checked twice. -/
theorem loop_test (hs : s ≠ []) (cur : ℕ) :
    (l.getD cur 0 = s.getD 0 0 ∧ (l.drop cur).take s.length = s) ↔ s <+: l.drop cur := by
  rw [occurs_iff_take]
  refine ⟨fun h => h.2, fun h => ⟨?_, h⟩⟩
  have hpos := List.length_pos_iff.mpr hs
  conv_rhs => rw [← h]
  rw [List.getD_eq_getElem?_getD, List.getD_eq_getElem?_getD, List.getElem?_take, if_pos hpos,
    List.getElem?_drop, Nat.add_zero]

theorem memmemLoop_eq_some (hs : s ≠ []) (n cur i : ℕ) :
    memmemLoop l s n cur = some i ↔
      cur ≤ i ∧ i < cur + n ∧ s <+: l.drop i ∧ ∀ j, cur ≤ j → j < i → ¬ s <+: l.drop j := by
  induction n generalizing cur with
  | zero =>
    constructor
    · intro h; simp [memmemLoop] at h
    · intro h
      obtain ⟨h1, h2, _⟩ := h
      omega
  | succ n ih =>
    rw [memmemLoop]
    by_cases hat : s <+: l.drop cur
    · rw [if_pos ((loop_test hs cur).mpr hat), Option.some.injEq]
      constructor
      · intro heq
        subst heq
        exact ⟨Nat.le_refl _, by omega, hat, fun j h1 h2 => absurd h1 (by omega)⟩
      · intro h
        obtain ⟨hle, _, _, hfirst⟩ := h
        by_contra hne
        exact hfirst cur (Nat.le_refl _) (by omega) hat
    · rw [if_neg fun h => hat ((loop_test hs cur).mp h), ih]
      constructor
      · intro h
        obtain ⟨hle, hlt, hi, hfirst⟩ := h
        refine ⟨by omega, by omega, hi, fun j h1 h2 => ?_⟩
        by_cases hj : j = cur
        · subst hj; exact hat
        · exact hfirst j (by omega) h2
      · intro h
        obtain ⟨hle, hlt, hi, hfirst⟩ := h
        have hne : i ≠ cur := fun h => hat (h ▸ hi)
        exact ⟨by omega, by omega, hi, fun j h1 h2 => hfirst j (by omega) h2⟩

theorem singleton_occurs (c : UInt8) (i : ℕ) : [c] <+: l.drop i ↔ l[i]? = some c := by
  rw [occurs_iff_take]
  cases h : l.drop i with
  | nil =>
    have hlen : l.length ≤ i := List.drop_eq_nil_iff.mp h
    simp [List.getElem?_eq_none hlen]
  | cons b rest =>
    have hget : (l.drop i)[0]? = some b := by rw [h]; rfl
    rw [List.getElem?_drop, Nat.add_zero] at hget
    simp [hget]

theorem memchr_eq_some (c : UInt8) (i : ℕ) :
    memchr l c = some i ↔ [c] <+: l.drop i ∧ ∀ j < i, ¬ [c] <+: l.drop j := by
  rw [memchr, List.findIdx?_eq_some_iff_getElem]
  constructor
  · intro h
    obtain ⟨hi, hc, hfirst⟩ := h
    refine ⟨(singleton_occurs c i).mpr ?_, fun j hj hoccurs => ?_⟩
    · rw [List.getElem?_eq_getElem hi, eq_of_beq hc]
    · have hget := (singleton_occurs c j).mp hoccurs
      rw [List.getElem?_eq_getElem (by omega), Option.some.injEq] at hget
      simpa [hget] using hfirst j hj
  · intro h
    obtain ⟨hoccurs, hfirst⟩ := h
    obtain ⟨hi, hc⟩ := List.getElem?_eq_some_iff.mp ((singleton_occurs c i).mp hoccurs)
    refine ⟨hi, by simp [hc], fun j hj hbeq => hfirst j hj ((singleton_occurs c j).mpr ?_)⟩
    rw [List.getElem?_eq_getElem (by omega), eq_of_beq hbeq]

/-- memmem returns the first position at which the needle occurs. -/
theorem memmem_eq_some (hs : s ≠ []) (i : ℕ) :
    memmem l s = some i ↔ s <+: l.drop i ∧ ∀ j < i, ¬ s <+: l.drop j := by
  have hpos := List.length_pos_iff.mpr hs
  rw [memmem]
  by_cases hl : l.length < s.length
  · have hnone : ∀ j, ¬ s <+: l.drop j := fun j h => by
      have hbound := occurs_bound hs h
      omega
    by_cases hzero : l.length = 0 ∨ s.length = 0
    · rw [if_pos hzero]
      exact ⟨fun h => by simp at h, fun h => absurd h.1 (hnone i)⟩
    · rw [if_neg hzero, if_pos hl]
      exact ⟨fun h => by simp at h, fun h => absurd h.1 (hnone i)⟩
  · rw [if_neg (by omega), if_neg hl]
    by_cases hone : s.length = 1
    · obtain ⟨c, rfl⟩ := List.length_eq_one_iff.mp hone
      rw [if_pos hone]
      exact memchr_eq_some c i
    · rw [if_neg hone, memmemLoop_eq_some hs]
      constructor
      · intro h
        obtain ⟨_, _, hi, hfirst⟩ := h
        exact ⟨hi, fun j hj => hfirst j (Nat.zero_le j) hj⟩
      · intro h
        obtain ⟨hi, hfirst⟩ := h
        have hbound := occurs_bound hs hi
        exact ⟨Nat.zero_le i, by omega, hi, fun j _ hj => hfirst j hj⟩

/-- An occurrence that the bytes behind `l` have no part in. -/
theorem memmem_append (hs : s ≠ []) (r : List UInt8) {i : ℕ} (hi : i + s.length ≤ l.length) :
    memmem (l ++ r) s = some i ↔ memmem l s = some i := by
  rw [memmem_eq_some hs, memmem_eq_some hs, occurs_append r hi]
  refine and_congr_right fun _ => forall₂_congr fun j hj => ?_
  rw [occurs_append r (by omega)]

/-- It finds nothing only where the needle does not occur. -/
theorem memmem_eq_none (hs : s ≠ []) : memmem l s = none ↔ ∀ i, ¬ s <+: l.drop i := by
  constructor
  · intro hnone i
    induction i using Nat.strongRecOn with
    | ind i ih =>
      intro hoccurs
      have hsome := (memmem_eq_some hs i).mpr ⟨hoccurs, ih⟩
      rw [hnone] at hsome
      simp at hsome
  · intro h
    cases hm : memmem l s with
    | none => rfl
    | some i => exact absurd ((memmem_eq_some hs i).mp hm).1 (h i)

theorem memmem_ne_none (hs : s ≠ []) : memmem l s ≠ none ↔ s <:+: l := by
  rw [Ne, memmem_eq_none hs]
  push Not
  constructor
  · intro h
    obtain ⟨i, h⟩ := h
    exact h.isInfix.trans (List.drop_suffix i l).isInfix
  · intro h
    obtain ⟨before, after, rfl⟩ := h
    exact ⟨before.length, by simp⟩

end Spec

end GemhoNbiot.Memmem
