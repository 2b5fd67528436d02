import GemhoNbiot.Program

/-!
Pre- and postconditions for programs that make calls, as properties of the
trace of calls made so far. The postcondition also sees the result. That a
program ends is a separate judgement, about an environment that answers the
calls. Calls may act on a state, and then the assertions are about the state they
lead to. A call of a program may itself be carried out by another program; what the outer program
does is then a run of it in which each call gets the result of its own run. Whole operations
of somebody else may go by between the calls, if every assertion is one that they keep.
-/
namespace GemhoNbiot.TraceLogic

open Program

variable {Op Op' σ α β : Type} {Res : Op → Type} {Res' : Op' → Type}

/-- After calls in `pre`, every run of the program ends with calls and a result
in `post`. -/
def Triple (pre : List (Event Op Res) → Prop) (p : Prog Op Res α)
    (post : α → List (Event Op Res) → Prop) : Prop :=
  ∀ before events a, pre before → Runs p events a → post a (before ++ events)

section Rules

variable {pre : List (Event Op Res) → Prop} {post : α → List (Event Op Res) → Prop}

theorem triple_pure {a : α} (h : ∀ calls, pre calls → post a calls) :
    Triple pre (pure a : Prog Op Res α) post := by
  intro before events b hpre hrun
  obtain ⟨rfl, rfl⟩ := (runs_pure a b events).mp hrun
  rw [List.append_nil]
  exact h before hpre

theorem triple_hang : Triple pre (.hang : Prog Op Res α) post :=
  fun _ events a _ hrun => absurd hrun (not_runs_hang events a)

theorem triple_bind {p : Prog Op Res β} {f : β → Prog Op Res α}
    (mid : β → List (Event Op Res) → Prop) (hp : Triple pre p mid)
    (hf : ∀ b, Triple (mid b) (f b) post) : Triple pre (p >>= f) post := by
  intro before events a hpre hrun
  obtain ⟨first, rest, b, rfl, hfirst, hrest⟩ := (runs_bind p f events a).mp hrun
  rw [← List.append_assoc]
  exact hf b _ rest a (hp before first b hpre hfirst) hrest

/-- The rule of one call: its result is not known in advance. -/
theorem triple_call {op : Op} {f : Res op → Prog Op Res α}
    (mid : Res op → List (Event Op Res) → Prop)
    (h : ∀ calls r, pre calls → mid r (calls ++ [⟨op, r⟩]))
    (hf : ∀ r, Triple (mid r) (f r) post) : Triple pre (Prog.perform op >>= f) post := by
  refine triple_bind mid (fun before events r hpre hrun => ?_) hf
  rw [(runs_perform op r events).mp hrun]
  exact h before r hpre

theorem triple_ite {c : Prop} [Decidable c] {p q : Prog Op Res α} (hp : c → Triple pre p post)
    (hq : ¬ c → Triple pre q post) : Triple pre (if c then p else q) post := by
  by_cases hc : c
  · rw [if_pos hc]
    exact hp hc
  · rw [if_neg hc]
    exact hq hc

theorem Triple.mono {pre' : List (Event Op Res) → Prop} {post' : α → List (Event Op Res) → Prop}
    {p : Prog Op Res α} (h : Triple pre p post) (hpre : ∀ calls, pre' calls → pre calls)
    (hpost : ∀ a calls, post a calls → post' a calls) : Triple pre' p post' :=
  fun before events a hb hrun => hpost a _ (h before events a (hpre before hb) hrun)

/-- A triple from the empty trace is about whole runs. -/
theorem Triple.run {p : Prog Op Res α} (h : Triple (· = []) p post) {events : List (Event Op Res)}
    {a : α} (hrun : Runs p events a) : post a events :=
  h [] events a rfl hrun

end Rules

section States

variable {step : σ → Event Op Res → σ → Prop} {s₀ : σ}

/-- An assertion about the state that the calls lead to from `s₀`. -/
def Along (step : σ → Event Op Res → σ → Prop) (s₀ : σ) (P : σ → List (Event Op Res) → Prop)
    (calls : List (Event Op Res)) : Prop :=
  ∀ s, Chain step s₀ calls s → P s calls

theorem chain_snoc {s s'' : σ} {calls : List (Event Op Res)} {e : Event Op Res} :
    Chain step s (calls ++ [e]) s'' ↔ ∃ s', Chain step s calls s' ∧ step s' e s'' := by
  rw [chain_append]
  refine exists_congr fun s' => and_congr_right fun _ => ?_
  rw [chain_cons]
  constructor
  · intro h
    obtain ⟨s₁, hstep, hnil⟩ := h
    exact chain_nil.mp hnil ▸ hstep
  · exact fun hstep => ⟨s'', hstep, .nil s''⟩

/-- The rule of one call with what it does to the state. -/
theorem triple_step {op : Op} {f : Res op → Prog Op Res α} {P : σ → List (Event Op Res) → Prop}
    {post : α → List (Event Op Res) → Prop} (mid : Res op → σ → List (Event Op Res) → Prop)
    (h : ∀ calls s r s', P s calls → step s ⟨op, r⟩ s' → mid r s' (calls ++ [⟨op, r⟩]))
    (hf : ∀ r, Triple (Along step s₀ (mid r)) (f r) post) :
    Triple (Along step s₀ P) (Prog.perform op >>= f) post := by
  refine triple_call (fun r => Along step s₀ (mid r)) (fun calls r hP s' hchain => ?_) hf
  obtain ⟨s, hcalls, hstep⟩ := chain_snoc.mp hchain
  exact h calls s r s' (hP s hcalls) hstep

theorem triple_along_pure {a : α} {P : σ → List (Event Op Res) → Prop}
    {Q : α → σ → List (Event Op Res) → Prop} (h : ∀ s calls, P s calls → Q a s calls) :
    Triple (Along step s₀ P) (pure a : Prog Op Res α) (fun a => Along step s₀ (Q a)) :=
  triple_pure fun calls hP s hchain => h s calls (hP s hchain)

end States

section Interference

variable {ρ : Type}

/-- Calls of a program with whole operations of somebody else before, between and
after them, and what these operations end with. -/
inductive Interleaved (other : σ → ρ → σ → Prop) (step : σ → Event Op Res → σ → Prop) :
    σ → List (Event Op Res) → List ρ → σ → Prop
  | nil (s : σ) : Interleaved other step s [] [] s
  | call {s s' s'' : σ} {e : Event Op Res} {calls : List (Event Op Res)} {ends : List ρ} :
      step s e s' → Interleaved other step s' calls ends s'' →
      Interleaved other step s (e :: calls) ends s''
  | other {s s' s'' : σ} {r : ρ} {calls : List (Event Op Res)} {ends : List ρ} :
      other s r s' → Interleaved other step s' calls ends s'' →
      Interleaved other step s calls (r :: ends) s''

theorem Interleaved.prepend {other : σ → ρ → σ → Prop} {step : σ → Event Op Res → σ → Prop}
    {s s' s'' : σ} {first rest : List (Event Op Res)} {ends : List ρ}
    (hfirst : Chain step s first s') (h : Interleaved other step s' rest ends s'') :
    Interleaved other step s (first ++ rest) ends s'' := by
  induction hfirst with
  | nil => exact h
  | cons hstep _ ih => exact .call hstep (ih h)

/-- An assertion that the operations of the others keep. -/
def Stable (other : σ → ρ → σ → Prop) (P : σ → List ρ → Prop) : Prop :=
  ∀ s ends r s', P s ends → other s r s' → P s' (ends ++ [r])

/-- An assertion about the state that the calls and the others lead to from `s₀`. -/
def Amid (other : σ → ρ → σ → Prop) (step : σ → Event Op Res → σ → Prop) (s₀ : σ)
    (P : σ → List ρ → Prop) (calls : List (Event Op Res)) : Prop :=
  ∀ ends s, Interleaved other step s₀ calls ends s → P s ends

variable {other : σ → ρ → σ → Prop} {step : σ → Event Op Res → σ → Prop} {s₀ : σ}

/-- Only the others act. -/
theorem Stable.ends {P : σ → List ρ → Prop} (hP : Stable other P) {s s' : σ}
    {before ends : List ρ} (h : Interleaved other step s [] ends s') (hs : P s before) :
    P s' (before ++ ends) := by
  generalize hcalls : ([] : List (Event Op Res)) = calls at h
  induction h generalizing before with
  | nil => simpa using hs
  | call => cases hcalls
  | other hother _ ih => simpa using ih (hP _ _ _ _ hs hother) hcalls

/-- The last call of a trace, with the others before and after it. -/
theorem interleaved_snoc {s s'' : σ} {calls : List (Event Op Res)} {e : Event Op Res}
    {ends : List ρ} (h : Interleaved other step s (calls ++ [e]) ends s'') :
    ∃ before after s₁ s₂, ends = before ++ after ∧ Interleaved other step s calls before s₁ ∧
      step s₁ e s₂ ∧ Interleaved other step s₂ [] after s'' := by
  generalize hall : calls ++ [e] = all at h
  induction h generalizing calls with
  | nil => simp at hall
  | @call s s' s'' e' rest ends hstep hrest ih =>
    cases calls with
    | nil =>
      obtain ⟨rfl, rfl⟩ := List.cons.inj hall
      exact ⟨[], ends, s, s', rfl, .nil s, hstep, hrest⟩
    | cons d calls =>
      obtain ⟨rfl, htail⟩ := List.cons.inj hall
      obtain ⟨before, after, s₁, s₂, rfl, hcalls, hlast, hafter⟩ := ih htail
      exact ⟨before, after, s₁, s₂, rfl, .call hstep hcalls, hlast, hafter⟩
  | @other s s' s'' r rest ends hother hrest ih =>
    obtain ⟨before, after, s₁, s₂, rfl, hcalls, hlast, hafter⟩ := ih hall
    exact ⟨r :: before, after, s₁, s₂, rfl, .other hother hcalls, hlast, hafter⟩

/-- The rule of one call among the operations of others. -/
theorem triple_amid {op : Op} {f : Res op → Prog Op Res α} {P : σ → List ρ → Prop}
    {post : α → List (Event Op Res) → Prop} (mid : Res op → σ → List ρ → Prop)
    (hmid : ∀ r, Stable other (mid r))
    (h : ∀ s ends r s', P s ends → step s ⟨op, r⟩ s' → mid r s' ends)
    (hf : ∀ r, Triple (Amid other step s₀ (mid r)) (f r) post) :
    Triple (Amid other step s₀ P) (Prog.perform op >>= f) post := by
  refine triple_call (fun r => Amid other step s₀ (mid r)) (fun calls r hP ends s hrun => ?_) hf
  obtain ⟨before, after, s₁, s₂, rfl, hcalls, hstep, hafter⟩ := interleaved_snoc hrun
  exact (hmid r).ends hafter (h s₁ before r s₂ (hP before s₁ hcalls) hstep)

theorem triple_amid_pure {a : α} {P : σ → List ρ → Prop} {Q : α → σ → List ρ → Prop}
    (h : ∀ s ends, P s ends → Q a s ends) :
    Triple (Amid other step s₀ P) (pure a : Prog Op Res α) (fun a => Amid other step s₀ (Q a)) :=
  triple_pure fun _ hP ends s hrun => h s ends (hP ends s hrun)

theorem triple_amid_mono {p : Prog Op Res α} {P P' : σ → List ρ → Prop}
    {post : α → List (Event Op Res) → Prop} (h : Triple (Amid other step s₀ P) p post)
    (hP : ∀ s ends, P' s ends → P s ends) : Triple (Amid other step s₀ P') p post :=
  h.mono (fun _ hP' ends s hrun => hP s ends (hP' ends s hrun)) fun _ _ hpost => hpost

end Interference

section Returning

/-- How each call is answered after the calls made so far. -/
abbrev Env (Op : Type) (Res : Op → Type) := List (Event Op Res) → (op : Op) → Res op

/-- Calls made after `before` that are answered by the environment. -/
inductive Follows (env : Env Op Res) : List (Event Op Res) → List (Event Op Res) → Prop
  | nil (before : List (Event Op Res)) : Follows env before []
  | cons {before events : List (Event Op Res)} (op : Op) :
      Follows env (before ++ [⟨op, env before op⟩]) events →
      Follows env before (⟨op, env before op⟩ :: events)

theorem Follows.append {env : Env Op Res} {before first rest : List (Event Op Res)}
    (h : Follows env before first) (hrest : Follows env (before ++ first) rest) :
    Follows env before (first ++ rest) := by
  induction h with
  | nil before => simpa using hrest
  | cons op _ ih => exact .cons op (ih (by simpa using hrest))

/-- The program ends when its calls are answered by the environment. -/
def Returns (env : Env Op Res) (before : List (Event Op Res)) (p : Prog Op Res α) : Prop :=
  ∃ events a, Runs p events a ∧ Follows env before events

variable {env : Env Op Res} {before : List (Event Op Res)}

theorem returns_pure (a : α) : Returns env before (pure a : Prog Op Res α) :=
  ⟨[], a, .ret a, .nil before⟩

theorem returns_bind {p : Prog Op Res β} {f : β → Prog Op Res α} (hp : Returns env before p)
    (hf : ∀ events b, Runs p events b → Returns env (before ++ events) (f b)) :
    Returns env before (p >>= f) := by
  obtain ⟨first, b, hrun, hfirst⟩ := hp
  obtain ⟨rest, a, hrest, hfollows⟩ := hf first b hrun
  exact ⟨first ++ rest, a, (runs_bind p f _ a).mpr ⟨first, rest, b, rfl, hrun, hrest⟩,
    hfirst.append hfollows⟩

theorem returns_call {op : Op} {f : Res op → Prog Op Res α}
    (h : Returns env (before ++ [⟨op, env before op⟩]) (f (env before op))) :
    Returns env before (Prog.perform op >>= f) := by
  obtain ⟨events, a, hrun, hfollows⟩ := h
  exact ⟨_ :: events, a, .call hrun, .cons op hfollows⟩

theorem returns_ite {c : Prop} [Decidable c] {p q : Prog Op Res α}
    (hp : c → Returns env before p) (hq : ¬ c → Returns env before q) :
    Returns env before (if c then p else q) := by
  by_cases hc : c
  · rw [if_pos hc]
    exact hp hc
  · rw [if_neg hc]
    exact hq hc

end Returning

section Answers

/-- The run in which every call is answered by a function of the call alone: its
result, none when the program hangs, and the calls made. -/
def exec (answer : (op : Op) → Res op) : Prog Op Res α → Option α × List Op
  | .ret a => (some a, [])
  | .call op next =>
    let rest := exec answer (next (answer op))
    (rest.1, op :: rest.2)
  | .hang => (none, [])

variable (answer : (op : Op) → Res op)

theorem exec_pure (a : α) : exec answer (pure a : Prog Op Res α) = (some a, []) := rfl

theorem exec_perform_bind (op : Op) (f : Res op → Prog Op Res α) :
    exec answer (Prog.perform op >>= f) =
      ((exec answer (f (answer op))).1, op :: (exec answer (f (answer op))).2) := rfl

theorem exec_bind {p : Prog Op Res β} {b : β} {ops : List Op} (f : β → Prog Op Res α)
    (hp : exec answer p = (some b, ops)) :
    exec answer (p >>= f) = ((exec answer (f b)).1, ops ++ (exec answer (f b)).2) := by
  change exec answer (p.bind f) = _
  induction p generalizing ops with
  | ret a =>
    obtain ⟨rfl, rfl⟩ : a = b ∧ ops = [] := by simpa [exec, eq_comm] using hp
    rfl
  | call op next ih =>
    obtain ⟨hfst, rfl⟩ := Prod.mk.inj hp
    simp only [Prog.bind, exec, List.cons_append]
    rw [ih (answer op) (Prod.ext hfst rfl)]
  | hang => simp [exec] at hp

end Answers

section Handlers

theorem prog_bind_assoc {γ : Type} (p : Prog Op Res α) (f : α → Prog Op Res β)
    (g : β → Prog Op Res γ) : (p.bind f).bind g = p.bind fun a => (f a).bind g := by
  induction p with
  | ret a => rfl
  | call op next ih => exact congrArg (Prog.call op) (funext ih)
  | hang => rfl

theorem prog_bind_ret (p : Prog Op Res α) : p.bind .ret = p := by
  induction p with
  | ret a => rfl
  | call op next ih => exact congrArg (Prog.call op) (funext ih)
  | hang => rfl

instance : LawfulMonad (Prog Op Res) := LawfulMonad.mk' (Prog Op Res) prog_bind_ret
  (fun _ _ => rfl) prog_bind_assoc

/-- Carry out every call by a program of other calls, with a state of its own. -/
def handle (h : (op : Op) → σ → Prog Op' Res' (Res op × σ)) :
    Prog Op Res α → σ → Prog Op' Res' (α × σ)
  | .ret a, s => pure (a, s)
  | .call op next, s => h op s >>= fun r => handle h (next r.1) r.2
  | .hang, _ => .hang

variable (h : (op : Op) → σ → Prog Op' Res' (Res op × σ))

theorem handle_perform_bind (op : Op) (f : Res op → Prog Op Res α) (s : σ) :
    handle h (Prog.perform op >>= f) s = h op s >>= fun r => handle h (f r.1) r.2 := rfl

theorem handle_bind (p : Prog Op Res α) (f : α → Prog Op Res β) (s : σ) :
    handle h (p >>= f) s = handle h p s >>= fun r => handle h (f r.1) r.2 := by
  change handle h (p.bind f) s = _
  induction p generalizing s with
  | ret a => rfl
  | call op next ih =>
    have hnext : (fun r : Res op × σ => handle h ((next r.1).bind f) r.2) =
        fun r => handle h (next r.1) r.2 >>= fun r => handle h (f r.1) r.2 :=
      funext fun r => ih r.1 r.2
    simp only [Prog.bind, handle]
    rw [hnext, bind_assoc]
  | hang => rfl

/-- The calls of the outer program, each with the result of a run of its own. -/
inductive Handled : σ → List (Event Op Res) → List (Event Op' Res') → σ → Prop
  | nil (s : σ) : Handled s [] [] s
  | cons {s s' s'' : σ} {op : Op} {r : Res op} {own rest : List (Event Op' Res')}
      {calls : List (Event Op Res)} : Runs (h op s) own (r, s') → Handled s' calls rest s'' →
      Handled s (⟨op, r⟩ :: calls) (own ++ rest) s''

/-- A run of the handled program is a run of the outer program. -/
theorem runs_handle (p : Prog Op Res α) (s s' : σ) (events : List (Event Op' Res')) (a : α) :
    Runs (handle h p s) events (a, s') ↔ ∃ calls, Runs p calls a ∧ Handled h s calls events s' := by
  constructor
  · intro hrun
    induction p generalizing s events with
    | ret b =>
      obtain ⟨rfl, heq⟩ := (runs_pure _ _ events).mp hrun
      obtain ⟨rfl, rfl⟩ := Prod.mk.inj heq
      exact ⟨[], .ret a, .nil s'⟩
    | call op next ih =>
      obtain ⟨own, rest, r, rfl, hown, hrest⟩ := (runs_bind _ _ events _).mp hrun
      obtain ⟨calls, hcalls, hhandled⟩ := ih r.1 r.2 rest hrest
      exact ⟨⟨op, r.1⟩ :: calls, .call hcalls, .cons hown hhandled⟩
    | hang => exact absurd hrun (not_runs_hang events _)
  · intro hrun
    obtain ⟨calls, hcalls, hhandled⟩ := hrun
    induction hcalls generalizing s events with
    | ret b =>
      cases hhandled
      exact (runs_pure _ _ []).mpr ⟨rfl, rfl⟩
    | call _ ih =>
      cases hhandled with
      | cons hown hrest => exact (runs_bind _ _ _ _).mpr ⟨_, _, _, rfl, hown, ih _ _ hrest⟩

end Handlers

end GemhoNbiot.TraceLogic
