import Mathlib.Data.List.Induction
import Mathlib.Logic.Function.Basic

/-!
Memory under a sequence of single writes. Each cell ends with the last value
written to it; the cells a sequence does not name are unchanged. For writers
that interleave, the last write at a cell belongs to one of them, and a writer
writes each cell of its list once.
-/
namespace GemhoNbiot.LastWrite

variable {α β : Type*} [DecidableEq α]

/-- The memory after some writes, first write first. -/
def applyAll (mem : α → β) (ws : List (α × β)) : α → β :=
  ws.foldl (fun mem w => Function.update mem w.1 w.2) mem

@[simp] theorem applyAll_nil (mem : α → β) : applyAll mem [] = mem := rfl

theorem applyAll_append (mem : α → β) (ws vs : List (α × β)) :
    applyAll mem (ws ++ vs) = applyAll (applyAll mem ws) vs :=
  List.foldl_append

theorem applyAll_snoc (mem : α → β) (ws : List (α × β)) (w : α × β) :
    applyAll mem (ws ++ [w]) = Function.update (applyAll mem ws) w.1 w.2 :=
  applyAll_append mem ws [w]

theorem applyAll_of_not_mem (mem : α → β) (ws : List (α × β)) (a : α)
    (h : a ∉ ws.map Prod.fst) : applyAll mem ws a = mem a := by
  induction ws using List.reverseRecOn with
  | nil => rfl
  | append_singleton ws w ih =>
    rw [List.map_append, List.mem_append, not_or] at h
    have hne : a ≠ w.1 := by simpa using h.2
    rw [applyAll_snoc, Function.update_of_ne hne, ih h.1]

/-- When all writes at a cell agree on a value, a cell written at all ends with it. -/
theorem applyAll_of_mem (mem : α → β) (ws : List (α × β)) (a : α) (b : β)
    (hmem : a ∈ ws.map Prod.fst) (hall : ∀ w ∈ ws, w.1 = a → w.2 = b) :
    applyAll mem ws a = b := by
  induction ws using List.reverseRecOn with
  | nil => simp at hmem
  | append_singleton ws w ih =>
    rw [applyAll_snoc]
    by_cases hlast : w.1 = a
    · rw [← hlast, Function.update_self]
      exact hall w (by simp) hlast
    · rw [Function.update_of_ne (Ne.symm hlast)]
      refine ih ?_ fun v hv => hall v (List.mem_append_left _ hv)
      rw [List.map_append, List.mem_append] at hmem
      rcases hmem with hmem | hmem
      · exact hmem
      · have heq : a = w.1 := by simpa using hmem
        exact absurd heq.symm hlast

/-- The writer of the last write at a cell, in a run of writes by several writers. -/
def lastWriter {ι : Type*} (run : List (ι × α × β)) (a : α) : Option ι :=
  (run.reverse.find? fun e => e.2.1 = a).map Prod.fst

theorem lastWriter_snoc {ι : Type*} (run : List (ι × α × β)) (e : ι × α × β) (a : α) :
    lastWriter (run ++ [e]) a = if e.2.1 = a then some e.1 else lastWriter run a := by
  rw [lastWriter, List.reverse_append, List.reverse_singleton, List.singleton_append,
    List.find?_cons]
  by_cases h : e.2.1 = a
  · simp [h]
  · simp [h, lastWriter]

section Writers

variable {ι : Type*} [DecidableEq ι]

/-- The writes of one writer, in order. -/
def writesOf (i : ι) (run : List (ι × α × β)) : List (α × β) :=
  (run.filter fun e => e.1 = i).map Prod.snd

omit [DecidableEq α] in
theorem writesOf_append (i : ι) (run rest : List (ι × α × β)) :
    writesOf i (run ++ rest) = writesOf i run ++ writesOf i rest := by
  rw [writesOf, List.filter_append, List.map_append]
  rfl

omit [DecidableEq α] in
/-- In a block of writes by one writer, the writes of that writer are all of them. -/
theorem writesOf_block (i j : ι) (ws : List (α × β)) :
    writesOf i (ws.map (Prod.mk j)) = if j = i then ws else [] := by
  induction ws with
  | nil => exact (ite_self []).symm
  | cons w ws ih =>
    rw [List.map_cons, ← List.singleton_append, writesOf_append, ih]
    by_cases h : j = i
    · simp [writesOf, h]
    · simp [writesOf, h]

/-- A cell ends with a value that its last writer wrote there. -/
theorem applyAll_lastWriter (mem : α → β) (run : List (ι × α × β)) (a : α) (i : ι)
    (h : lastWriter run a = some i) :
    (a, applyAll mem (run.map Prod.snd) a) ∈ writesOf i run := by
  induction run using List.reverseRecOn with
  | nil => simp [lastWriter] at h
  | append_singleton run e ih =>
    rw [lastWriter_snoc] at h
    rw [List.map_append, List.map_singleton, applyAll_snoc]
    by_cases hlast : e.2.1 = a
    · rw [if_pos hlast, Option.some.injEq] at h
      subst hlast
      rw [Function.update_self, writesOf, List.filter_append, List.map_append]
      apply List.mem_append_right
      simp [h]
    · rw [if_neg hlast] at h
      rw [Function.update_of_ne (Ne.symm hlast)]
      rw [writesOf, List.filter_append, List.map_append]
      exact List.mem_append_left _ (ih h)

/-- A cell that some writer writes has a last writer. -/
theorem lastWriter_isSome (run : List (ι × α × β)) (a : α) (i : ι)
    (h : a ∈ (writesOf i run).map Prod.fst) : (lastWriter run a).isSome := by
  obtain ⟨w, hw, rfl⟩ := List.mem_map.mp h
  obtain ⟨e, he, rfl⟩ := List.mem_map.mp hw
  rw [lastWriter, Option.isSome_map, List.find?_isSome]
  exact ⟨e, List.mem_reverse.mpr (List.mem_filter.mp he).1, by simp⟩

end Writers

end GemhoNbiot.LastWrite
