import Mathlib.Data.List.Infix

/-!
A stream read in chunks until one of two conditions holds of all that has been
read; where both hold the first one wins. The conditions are lasting: longer
texts keep them. The scan ends with the first condition exactly when it holds in
the end and no chunk ends where only the second one holds. So the scan finds out
which condition comes first in the stream only for chunks that end between them.
-/
namespace GemhoNbiot.ChunkScan

section Scan

variable {α : Type} (G B : List α → Prop)

/-- Longer texts keep the condition. -/
def Lasting (P : List α → Prop) : Prop := ∀ xs ys, P xs → P (xs ++ ys)

/-- `G` comes before `B` in the stream: some beginning of it has `G` and not `B`. -/
def Before (S : List α) : Prop := ∃ xs, xs <+: S ∧ G xs ∧ ¬ B xs

instance [DecidablePred G] [DecidablePred B] (S : List α) : Decidable (Before G B S) :=
  decidable_of_iff (∃ xs ∈ S.inits, G xs ∧ ¬ B xs) (by simp only [Before, List.mem_inits])

variable {G B}

/-- A later beginning of the stream keeps a lasting condition. -/
theorem Lasting.of_prefix {P : List α → Prop} (h : Lasting P) {xs ys : List α} (hle : xs <+: ys)
    (hxs : P xs) : P ys := by
  obtain ⟨zs, rfl⟩ := hle
  exact h xs zs hxs

/-- When the first condition comes first it has been met wherever the second one
has, in each chunk. -/
theorem good_of_before (hG : Lasting G) (hB : Lasting B) {S xs : List α} (hS : Before G B S)
    (hxs : xs <+: S) (hbad : B xs) : G xs := by
  obtain ⟨ys, hys, hgood, hnot⟩ := hS
  rcases List.prefix_or_prefix_of_prefix hxs hys with hle | hle
  · exact absurd (hB.of_prefix hle hbad) hnot
  · exact hG.of_prefix hle hgood

variable (G B) [DecidablePred G] [DecidablePred B]

/-- The outcome after the text `buf`, or none when the chunks end. -/
def scan : List α → List (List α) → Option Bool
  | _, [] => none
  | buf, bs :: rest =>
    if G (buf ++ bs) then some true
    else if B (buf ++ bs) then some false
    else scan (buf ++ bs) rest

variable {G B}

theorem scan_eq_true_iff (hG : Lasting G) (chunks : List (List α)) (buf : List α)
    (hbufG : ¬ G buf) (hbufB : ¬ B buf) :
    scan G B buf chunks = some true ↔ G (buf ++ chunks.flatten) ∧
      ∀ first, first <+: chunks → B (buf ++ first.flatten) → G (buf ++ first.flatten) := by
  induction chunks generalizing buf with
  | nil =>
    rw [scan, List.flatten_nil, List.append_nil]
    constructor
    · intro h
      exact absurd h (by simp)
    · intro h
      exact absurd h.1 hbufG
  | cons bs rest ih =>
    rw [scan, List.flatten_cons, ← List.append_assoc]
    by_cases hgood : G (buf ++ bs)
    · rw [if_pos hgood]
      refine ⟨fun _ => ⟨hG _ _ hgood, fun first hfirst hbad => ?_⟩, fun _ => rfl⟩
      rcases List.prefix_cons_iff.mp hfirst with rfl | ⟨tail, rfl, _⟩
      · rw [List.flatten_nil, List.append_nil] at hbad
        exact absurd hbad hbufB
      · rw [List.flatten_cons, ← List.append_assoc]
        exact hG _ _ hgood
    · rw [if_neg hgood]
      by_cases hbad : B (buf ++ bs)
      · rw [if_pos hbad]
        refine ⟨fun h => absurd h (by simp), fun h => ?_⟩
        have hone := h.2 [bs] (List.prefix_cons_inj bs |>.mpr List.nil_prefix)
        rw [List.flatten_singleton] at hone
        exact absurd (hone hbad) hgood
      · rw [if_neg hbad, ih (buf ++ bs) hgood hbad]
        refine and_congr_right fun _ => ⟨fun h first hfirst => ?_, fun h first hfirst => ?_⟩
        · rcases List.prefix_cons_iff.mp hfirst with rfl | ⟨tail, rfl, htail⟩
          · rw [List.flatten_nil, List.append_nil]
            exact fun hB => absurd hB hbufB
          · rw [List.flatten_cons, ← List.append_assoc]
            exact h tail htail
        · have htail := h (bs :: first) ((List.prefix_cons_inj bs).mpr hfirst)
          rwa [List.flatten_cons, ← List.append_assoc] at htail

/-- Scanning the first `n` elements of a stream tells which condition comes first
exactly for the chunks described. -/
theorem scan_before_iff (hG : Lasting G) (hB : Lasting B) (hnilG : ¬ G []) (hnilB : ¬ B [])
    (S : List α) (n : ℕ) (chunks : List (List α)) (hwhole : chunks.flatten = S.take n) :
    (scan G B [] chunks = some true ↔ Before G B S) ↔
      (Before G B S → G (S.take n)) ∧
        (G (S.take n) → ¬ Before G B S →
          ∃ first, first <+: chunks ∧ B first.flatten ∧ ¬ G first.flatten) := by
  have hscan := scan_eq_true_iff (B := B) hG chunks [] hnilG hnilB
  simp only [List.nil_append, hwhole] at hscan
  have hfirst : ∀ first, first <+: chunks → first.flatten <+: S := by
    intro first hle
    obtain ⟨rest, rfl⟩ := hle
    have hpre : first.flatten <+: S.take n := by
      rw [← hwhole, List.flatten_append]
      exact List.prefix_append _ _
    exact hpre.trans (List.take_prefix n S)
  rw [hscan]
  constructor
  · intro h
    refine ⟨fun hS => (h.mpr hS).1, fun hgood hS => ?_⟩
    by_contra hnone
    refine hS (h.mp ⟨hgood, fun first hle hbad => ?_⟩)
    by_contra hnot
    exact hnone ⟨first, hle, hbad, hnot⟩
  · intro h
    obtain ⟨hearly, hapart⟩ := h
    constructor
    · intro hs
      by_contra hS
      obtain ⟨first, hle, hbad, hnot⟩ := hapart hs.1 hS
      exact hnot (hs.2 first hle hbad)
    · intro hS
      exact ⟨hearly hS, fun first hle hbad => good_of_before hG hB hS (hfirst first hle) hbad⟩

end Scan

end GemhoNbiot.ChunkScan
