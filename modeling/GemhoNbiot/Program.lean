import Mathlib.Data.List.Basic

/-!
Programs as trees of operation calls. A program ends with a value, or calls an
operation and goes on with its result, or hangs when a loop has used up its
bound. A run is described by the calls made and their results; what the
operations do to a shared state is a separate relation along the same trace.
A property of traces that appending keeps is proved of a program part by part.
-/
namespace GemhoNbiot.Program

inductive Prog (Op : Type) (Res : Op → Type) (α : Type)
  | ret (a : α)
  | call (op : Op) (next : Res op → Prog Op Res α)
  | hang

section

variable {Op : Type} {Res : Op → Type} {α β : Type}

/-- One operation call and its result. -/
abbrev Event (Op : Type) (Res : Op → Type) := Sigma Res

namespace Prog

def bind : Prog Op Res α → (α → Prog Op Res β) → Prog Op Res β
  | .ret a, f => f a
  | .call op next, f => .call op fun r => (next r).bind f
  | .hang, _ => .hang

/-- A single call. -/
def perform (op : Op) : Prog Op Res (Res op) := .call op .ret

end Prog

instance : Monad (Prog Op Res) where
  pure := .ret
  bind := Prog.bind

/-- The program makes these calls, gets these results and ends with this value. -/
inductive Runs : Prog Op Res α → List (Event Op Res) → α → Prop
  | ret (a : α) : Runs (.ret a) [] a
  | call {op : Op} {next : Res op → Prog Op Res α} {r : Res op} {events : List (Event Op Res)}
      {a : α} : Runs (next r) events a → Runs (.call op next) (⟨op, r⟩ :: events) a

theorem runs_pure (a b : α) (events : List (Event Op Res)) :
    Runs (pure a : Prog Op Res α) events b ↔ events = [] ∧ b = a := by
  constructor
  · intro h
    cases h
    exact ⟨rfl, rfl⟩
  · intro h
    obtain ⟨rfl, rfl⟩ := h
    exact .ret b

theorem runs_perform (op : Op) (r : Res op) (events : List (Event Op Res)) :
    Runs (Prog.perform op) events r ↔ events = [⟨op, r⟩] := by
  constructor
  · intro h
    cases h with
    | call h => cases h; rfl
  · intro heq
    subst heq
    exact .call (.ret r)

theorem not_runs_hang (events : List (Event Op Res)) (a : α) :
    ¬ Runs (.hang : Prog Op Res α) events a := by
  intro h
  cases h

/-- A run of a sequence is a run of its first part and a run of the rest. -/
theorem runs_bind (p : Prog Op Res α) (f : α → Prog Op Res β) (events : List (Event Op Res))
    (b : β) :
    Runs (p >>= f) events b ↔ ∃ first rest a, events = first ++ rest ∧ Runs p first a ∧
      Runs (f a) rest b := by
  change Runs (p.bind f) events b ↔ _
  constructor
  · intro h
    induction p generalizing events with
    | ret a => exact ⟨[], events, a, rfl, .ret a, h⟩
    | call op next ih =>
      cases h with
      | call h =>
        obtain ⟨first, rest, a, rfl, hfirst, hrest⟩ := ih _ _ h
        exact ⟨_ :: first, rest, a, rfl, .call hfirst, hrest⟩
    | hang => exact absurd h (not_runs_hang events b)
  · intro h
    obtain ⟨first, rest, a, rfl, hfirst, hrest⟩ := h
    induction hfirst with
    | ret a => exact hrest
    | call _ ih => exact .call (ih hrest)

theorem runs_perform_bind (op : Op) (f : Res op → Prog Op Res β) (events : List (Event Op Res))
    (b : β) :
    Runs (Prog.perform op >>= f) events b ↔
      ∃ r rest, events = ⟨op, r⟩ :: rest ∧ Runs (f r) rest b := by
  constructor
  · intro h
    cases h with
    | call h => exact ⟨_, _, rfl, h⟩
  · intro h
    obtain ⟨r, rest, rfl, h⟩ := h
    exact .call h

/-- A run of the program that gets its results from a given trace, of which it
may use only the beginning. -/
def RunsOn (p : Prog Op Res α) (given : List (Event Op Res)) (a : α) : Prop :=
  ∃ events, events <+: given ∧ Runs p events a

theorem runsOn_pure (a b : α) (given : List (Event Op Res)) :
    RunsOn (pure a : Prog Op Res α) given b ↔ b = a := by
  constructor
  · intro h
    obtain ⟨events, _, hrun⟩ := h
    exact ((runs_pure a b events).mp hrun).2
  · intro heq
    exact ⟨[], List.nil_prefix, (runs_pure a b []).mpr ⟨rfl, heq⟩⟩

theorem runsOn_perform_bind (op : Op) (f : Res op → Prog Op Res β) (r : Res op)
    (given : List (Event Op Res)) (b : β) :
    RunsOn (Prog.perform op >>= f) (⟨op, r⟩ :: given) b ↔ RunsOn (f r) given b := by
  constructor
  · intro h
    obtain ⟨events, hle, hrun⟩ := h
    obtain ⟨r', rest, rfl, hrest⟩ := (runs_perform_bind op f events b).mp hrun
    obtain ⟨heq, htail⟩ := List.cons_prefix_cons.mp hle
    obtain rfl := eq_of_heq (Sigma.mk.inj heq).2
    exact ⟨rest, htail, hrest⟩
  · intro h
    obtain ⟨events, hle, hrun⟩ := h
    refine ⟨⟨op, r⟩ :: events, List.cons_prefix_cons.mpr ⟨rfl, hle⟩, ?_⟩
    exact (runs_perform_bind op f _ b).mpr ⟨r, events, rfl, hrun⟩

/-- The state along a trace, each event by the relation `step`. -/
inductive Chain {σ : Type} (step : σ → Event Op Res → σ → Prop) :
    σ → List (Event Op Res) → σ → Prop
  | nil (s : σ) : Chain step s [] s
  | cons {s s' s'' : σ} {e : Event Op Res} {events : List (Event Op Res)} :
      step s e s' → Chain step s' events s'' → Chain step s (e :: events) s''

theorem chain_nil {σ : Type} {step : σ → Event Op Res → σ → Prop} {s s' : σ} :
    Chain step s [] s' ↔ s = s' := by
  constructor
  · intro h
    cases h
    rfl
  · intro heq
    subst heq
    exact .nil s

theorem chain_cons {σ : Type} {step : σ → Event Op Res → σ → Prop} {s s'' : σ}
    {e : Event Op Res} {events : List (Event Op Res)} :
    Chain step s (e :: events) s'' ↔ ∃ s', step s e s' ∧ Chain step s' events s'' := by
  constructor
  · intro h
    cases h with
    | cons he h => exact ⟨_, he, h⟩
  · intro h
    obtain ⟨s', he, h⟩ := h
    exact .cons he h

theorem chain_append {σ : Type} {step : σ → Event Op Res → σ → Prop} {s s'' : σ}
    {first rest : List (Event Op Res)} :
    Chain step s (first ++ rest) s'' ↔ ∃ s', Chain step s first s' ∧ Chain step s' rest s'' := by
  induction first generalizing s with
  | nil =>
    constructor
    · exact fun h => ⟨s, .nil s, h⟩
    · intro h
      obtain ⟨s', hnil, h⟩ := h
      rw [chain_nil.mp hnil]
      exact h
  | cons e first ih =>
    constructor
    · intro h
      obtain ⟨s₁, he, h⟩ := chain_cons.mp h
      obtain ⟨s', hfirst, hrest⟩ := ih.mp h
      exact ⟨s', .cons he hfirst, hrest⟩
    · intro h
      obtain ⟨s', hfirst, hrest⟩ := h
      obtain ⟨s₁, he, hfirst⟩ := chain_cons.mp hfirst
      exact .cons he (ih.mpr ⟨s', hfirst, hrest⟩)

theorem Chain.invariant {σ : Type} {step : σ → Event Op Res → σ → Prop} {P : σ → Prop}
    (hstep : ∀ s e s', step s e s' → P s → P s') {s s' : σ} {events : List (Event Op Res)}
    (h : Chain step s events s') (hs : P s) : P s' := by
  induction h with
  | nil => exact hs
  | cons he _ ih => exact ih (hstep _ _ _ he hs)

/-- A property of lists that the empty list has and appending keeps. -/
class Closed {ε : Type} (Q : List ε → Prop) : Prop where
  nil : Q []
  append : ∀ xs ys, Q xs → Q ys → Q (xs ++ ys)

/-- Every run of the program has a trace in `Q`. -/
def Always (p : Prog Op Res α) (Q : List (Event Op Res) → Prop) : Prop :=
  ∀ events a, Runs p events a → Q events

section Rules

variable {Q : List (Event Op Res) → Prop}

theorem always_pure [Closed Q] (a : α) : Always (pure a : Prog Op Res α) Q := by
  intro events b h
  obtain ⟨rfl, _⟩ := (runs_pure a b events).mp h
  exact Closed.nil

theorem always_hang : Always (.hang : Prog Op Res α) Q :=
  fun events a h => absurd h (not_runs_hang events a)

theorem always_perform (op : Op) (h : ∀ r, Q [⟨op, r⟩]) :
    Always (Prog.perform op : Prog Op Res (Res op)) Q := by
  intro events r hrun
  rw [(runs_perform op r events).mp hrun]
  exact h r

theorem always_bind [Closed Q] {p : Prog Op Res α} {f : α → Prog Op Res β} (hp : Always p Q)
    (hf : ∀ a, Always (f a) Q) : Always (p >>= f) Q := by
  intro events b h
  obtain ⟨first, rest, a, rfl, hfirst, hrest⟩ := (runs_bind p f events b).mp h
  exact Closed.append _ _ (hp first a hfirst) (hf a rest b hrest)

theorem always_ite {c : Prop} [Decidable c] {p q : Prog Op Res α} (hp : c → Always p Q)
    (hq : ¬ c → Always q Q) : Always (if c then p else q) Q := by
  by_cases hc : c
  · rw [if_pos hc]
    exact hp hc
  · rw [if_neg hc]
    exact hq hc

end Rules

end

end GemhoNbiot.Program
