import Mathlib.Data.List.Basic

/-!
The bounded queue that makes room by dropping its oldest element. Whatever
leaves it, by a pop or by a drop, leaves in the order of the pushes: the
departures followed by the queue are always the pushes in order.
-/
namespace GemhoNbiot.DropOldest

variable {α : Type*}

def push (cap : ℕ) (q : List α) (x : α) : List α :=
  (if q.length = cap then q.tail else q) ++ [x]

/-- What a push drops. -/
def dropped (cap : ℕ) (q : List α) : List α := if q.length = cap then q.take 1 else []

theorem push_of_room (cap : ℕ) (q : List α) (x : α) (h : q.length ≠ cap) :
    push cap q x = q ++ [x] := by
  simp [push, h]

theorem push_of_full (cap : ℕ) (q : List α) (x : α) (h : q.length = cap) :
    push cap q x = q.tail ++ [x] := by
  simp [push, h]

theorem dropped_append_push (cap : ℕ) (q : List α) (x : α) :
    dropped cap q ++ push cap q x = q ++ [x] := by
  by_cases hfull : q.length = cap
  · rw [push_of_full cap q x hfull, dropped, if_pos hfull, ← List.append_assoc]
    cases q <;> rfl
  · rw [push_of_room cap q x hfull, dropped, if_neg hfull, List.nil_append]

/-- An operation on the queue: a push, or a pop of the head if there is one. -/
inductive Op (α : Type*)
  | push (x : α)
  | pop

def Op.pushed : Op α → List α
  | .push x => [x]
  | .pop => []

def next (cap : ℕ) (q : List α) : Op α → List α
  | .push x => push cap q x
  | .pop => q.tail

/-- What one operation removes from the queue. -/
def departed (cap : ℕ) (q : List α) : Op α → List α
  | .push _ => dropped cap q
  | .pop => q.take 1

def run (cap : ℕ) : List α → List (Op α) → List α
  | q, [] => q
  | q, op :: ops => run cap (next cap q op) ops

def departures (cap : ℕ) : List α → List (Op α) → List α
  | _, [] => []
  | q, op :: ops => departed cap q op ++ departures cap (next cap q op) ops

theorem departed_append_next (cap : ℕ) (q : List α) (op : Op α) :
    departed cap q op ++ next cap q op = q ++ op.pushed := by
  cases op with
  | push x => exact dropped_append_push cap q x
  | pop => cases q <;> simp [departed, next, Op.pushed]

/-- Nothing is lost, duplicated or reordered on the way through the queue. -/
theorem departures_append_run (cap : ℕ) (q : List α) (ops : List (Op α)) :
    departures cap q ops ++ run cap q ops = q ++ (ops.map Op.pushed).flatten := by
  induction ops generalizing q with
  | nil => simp [departures, run]
  | cons op ops ih =>
    rw [departures, run, List.append_assoc, ih, ← List.append_assoc,
      departed_append_next, List.map_cons, List.flatten_cons, List.append_assoc]

/-- What the pops take out of the queue. -/
def taken (cap : ℕ) : List α → List (Op α) → List α
  | _, [] => []
  | q, .push x :: ops => taken cap (push cap q x) ops
  | q, .pop :: ops => q.take 1 ++ taken cap q.tail ops

/-- From `n` elements on, no push finds the queue full. -/
def Fits (cap : ℕ) : ℕ → List (Op α) → Prop
  | _, [] => True
  | n, .push _ :: ops => n < cap ∧ Fits cap (n + 1) ops
  | n, .pop :: ops => Fits cap (n - 1) ops

theorem length_push_le (cap : ℕ) (q : List α) (x : α) (hcap : 0 < cap) (h : q.length ≤ cap) :
    (push cap q x).length ≤ cap := by
  by_cases hfull : q.length = cap
  · rw [push_of_full cap q x hfull, List.length_append, List.length_tail, List.length_singleton]
    omega
  · rw [push_of_room cap q x hfull, List.length_append, List.length_singleton]
    omega

theorem taken_sublist (cap : ℕ) (q : List α) (ops : List (Op α)) :
    (taken cap q ops).Sublist (departures cap q ops) := by
  induction ops generalizing q with
  | nil => exact List.Sublist.refl _
  | cons op ops ih =>
    cases op with
    | push x => exact (ih _).trans (List.sublist_append_right _ _)
    | pop => exact (ih _).append_left _

/-- What has been taken and what is left are in the order of the pushes. -/
theorem taken_append_run_sublist (cap : ℕ) (q : List α) (ops : List (Op α)) :
    (taken cap q ops ++ run cap q ops).Sublist (q ++ (ops.map Op.pushed).flatten) := by
  rw [← departures_append_run]
  exact (taken_sublist cap q ops).append_right _

/-- What is left is always the newest that was pushed. -/
theorem run_suffix (cap : ℕ) (q : List α) (ops : List (Op α)) :
    run cap q ops <:+ q ++ (ops.map Op.pushed).flatten := by
  rw [← departures_append_run]
  exact List.suffix_append _ _

theorem run_append (cap : ℕ) (q : List α) (ops ops' : List (Op α)) :
    run cap q (ops ++ ops') = run cap (run cap q ops) ops' := by
  induction ops generalizing q with
  | nil => rfl
  | cons op ops ih => exact ih _

theorem run_pushes (cap : ℕ) (q xs : List α) :
    run cap q (xs.map Op.push) = xs.foldl (push cap) q := by
  induction xs generalizing q with
  | nil => rfl
  | cons x xs ih => exact ih _

theorem taken_pushes_append (cap : ℕ) (q xs : List α) (ops : List (Op α)) :
    taken cap q (xs.map Op.push ++ ops) = taken cap (xs.foldl (push cap) q) ops := by
  induction xs generalizing q with
  | nil => rfl
  | cons x xs ih => exact ih _

/-- Everything pushed is taken or left exactly when no push finds the queue full. -/
theorem lossless_iff (cap : ℕ) (q : List α) (ops : List (Op α)) (hcap : 0 < cap)
    (hq : q.length ≤ cap) :
    taken cap q ops ++ run cap q ops = q ++ (ops.map Op.pushed).flatten ↔
      Fits cap q.length ops := by
  induction ops generalizing q with
  | nil => simp [taken, run, Fits]
  | cons op ops ih =>
    cases op with
    | push x =>
      have hlen := length_push_le cap q x hcap hq
      simp only [taken, run, next, Fits, List.map_cons, List.flatten_cons, Op.pushed]
      by_cases hfull : q.length = cap
      · refine iff_of_false (fun heq => ?_) (by omega)
        have hshort := (taken_append_run_sublist cap (push cap q x) ops).length_le
        rw [heq, push_of_full cap q x hfull] at hshort
        simp only [List.length_append, List.length_tail, List.length_singleton] at hshort
        omega
      · rw [push_of_room cap q x hfull] at hlen ⊢
        rw [← List.append_assoc, ih _ hlen, List.length_append, List.length_singleton]
        exact ⟨fun h => ⟨by omega, h⟩, fun h => h.2⟩
    | pop =>
      have hlen : q.tail.length ≤ cap := by
        rw [List.length_tail]
        omega
      have hcons : q.take 1 ++ q.tail = q := by cases q <;> rfl
      have hsplit : q ++ (ops.map Op.pushed).flatten =
          q.take 1 ++ (q.tail ++ (ops.map Op.pushed).flatten) := by
        rw [← List.append_assoc, hcons]
      simp only [taken, run, next, Fits, List.map_cons, List.flatten_cons, Op.pushed,
        List.nil_append]
      rw [← List.length_tail, ← ih _ hlen, List.append_assoc, hsplit]
      exact List.append_right_inj _

end GemhoNbiot.DropOldest
