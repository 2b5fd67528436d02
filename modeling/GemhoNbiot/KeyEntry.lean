import Mathlib.Data.List.Chain
import GemhoNbiot.Memmem

/-!
key_entry and EXTI15_10_IRQHandler. Every falling edge of the key, a bounce as well,
sets the pending bit, and the handler gives a token of l_sem_key for it and clears the
bit. For each token the thread looks at the key every 50 ms until it is up and takes
the time since it began for how long the key was held. Between any two steps of the
thread the key moves, the handler runs and time passes, of the latter at most `slack`
where the thread could go on.
-/
namespace GemhoNbiot.KeyEntry

open Memmem

def KPMFT : List UInt8 := bytes "key push message for test"

/-- What key_entry does: save_config of the default configuration, which returns
`ret`, midLight_action and msg_push. -/
inductive Action
  | saveDefault (ret : ℤ)
  | midLightAction (interval times stop : ℕ)
  | msgPush (msg : List UInt8)

/-- The tests on uHoldTime. -/
def onHold (ret : ℤ) (uHoldTime : ℕ) : List Action :=
  if uHoldTime > 5 * 1000 ∧ uHoldTime < 10 * 1000 then
    .saveDefault ret :: if ret = 0 then [.midLightAction 100 16 1000] else []
  else if uHoldTime > 0 ∧ uHoldTime < 1 * 500 then
    [.msgPush KPMFT]
  else
    []

/-- Where key_entry is. `down` is uTouchDownTime, and at the times `looks` it has found
the key down. -/
inductive Pc
  | waiting
  | looking (down : ℕ) (looks : List ℕ)
  | delaying (down : ℕ) (looks : List ℕ) (since : ℕ)
  | released (down : ℕ) (looks : List ℕ)

/-- Where the handler is. -/
inductive Isr
  | idle
  | serving
  | clearing
deriving DecidableEq

/-- A token from its being taken to the test of uHoldTime at the time `up`. -/
structure Handling where
  down : ℕ
  looks : List ℕ
  up : ℕ
  ret : ℤ

def Handling.uHoldTime (h : Handling) : ℕ := h.up - h.down + 1

/-- `tokens` is the value of l_sem_key, `due` is when the thread goes on at the latest.
`edges` counts the falling edges, and `fresh` tells that one has come since a token
was taken last. -/
structure State where
  pressed : Bool
  pending : Bool
  isr : Isr
  tokens : ℕ
  pc : Pc
  now : ℕ
  due : ℕ
  edges : ℕ
  fresh : Bool
  handled : List Handling
  actions : List Action

/-- The thread stands still in the handler. -/
inductive Step (slack : ℕ) (s : State) : State → Prop
  | press (hup : s.pressed = false) : Step slack s
      { s with pressed := true, pending := true, edges := s.edges + 1, fresh := true }
  | release (hdown : s.pressed = true) : Step slack s { s with pressed := false }
  | interrupt (hisr : s.isr = .idle) (hpending : s.pending = true) :
      Step slack s { s with isr := .serving }
  | isrRelease (hisr : s.isr = .serving) :
      Step slack s { s with tokens := s.tokens + 1, isr := .clearing }
  | isrClear (hisr : s.isr = .clearing) : Step slack s { s with pending := false, isr := .idle }
  | pass (hdue : s.pc = .waiting ∨ s.now < s.due) : Step slack s { s with now := s.now + 1 }
  | take (hisr : s.isr = .idle) (hpc : s.pc = .waiting) (htokens : 0 < s.tokens) : Step slack s
      { s with
        tokens := s.tokens - 1, fresh := false
        pc := .looking s.now [], due := s.now + slack }
  | lookDown {down : ℕ} {looks : List ℕ} (hisr : s.isr = .idle) (hpc : s.pc = .looking down looks)
      (hdown : s.pressed = true) : Step slack s
      { s with pc := .delaying down (looks ++ [s.now]) s.now, due := s.now + 50 + slack }
  | wake {down since : ℕ} {looks : List ℕ} (hisr : s.isr = .idle)
      (hpc : s.pc = .delaying down looks since) (hdelay : since + 50 ≤ s.now) :
      Step slack s { s with pc := .looking down looks, due := s.now + slack }
  | lookUp {down : ℕ} {looks : List ℕ} (hisr : s.isr = .idle) (hpc : s.pc = .looking down looks)
      (hup : s.pressed = false) :
      Step slack s { s with pc := .released down looks, due := s.now + slack }
  | act {down : ℕ} {looks : List ℕ} (ret : ℤ) (hisr : s.isr = .idle)
      (hpc : s.pc = .released down looks) : Step slack s
      { s with
        pc := .waiting
        handled := s.handled ++ [⟨down, looks, s.now, ret⟩]
        actions := s.actions ++ onHold ret (s.now - down + 1) }

inductive Reach (slack : ℕ) : State → Prop
  | start : Reach slack ⟨false, false, .idle, 0, .waiting, 0, 0, 0, false, [], []⟩
  | step {s s' : State} : Reach slack s → Step slack s s' → Reach slack s'

section Edges

variable {slack : ℕ} {s s' : State}

/-- The token that is being handled. -/
def Pc.busy : Pc → ℕ
  | .waiting => 0
  | _ => 1

/-- The edge that the handler has still to give a token for. -/
def State.owed (s : State) : ℕ := if s.pending = true ∧ s.isr ≠ .clearing then 1 else 0

/-- Every token is for an edge of its own, and after an edge there is a token to come. -/
structure Counted (s : State) : Prop where
  served : s.isr ≠ .idle → s.pending = true
  given : s.isr = .clearing → 0 < s.tokens
  fresh : s.fresh = true → s.pending = true ∨ 0 < s.tokens
  count : s.handled.length + s.pc.busy + s.tokens + s.owed ≤ s.edges

theorem Counted.step (h : Counted s) (hstep : Step slack s s') : Counted s' := by
  have hcount := h.count
  cases hstep with
  | press hup =>
    refine ⟨fun _ => rfl, h.given, fun _ => Or.inl rfl, ?_⟩
    simp only [State.owed] at hcount ⊢
    split <;> omega
  | release hdown => exact ⟨h.served, h.given, h.fresh, h.count⟩
  | interrupt hisr hpending =>
    refine ⟨fun _ => hpending, nofun, h.fresh, ?_⟩
    simpa [State.owed, hisr, hpending] using hcount
  | isrRelease hisr =>
    have hpending := h.served (by simp [hisr])
    refine ⟨fun _ => hpending, fun _ => Nat.succ_pos _, fun _ => Or.inr (Nat.succ_pos _), ?_⟩
    simp only [State.owed, hisr, hpending, true_and, ne_eq, not_true_eq_false, and_false,
      if_false, reduceCtorEq, not_false_eq_true, if_true] at hcount ⊢
    omega
  | isrClear hisr =>
    refine ⟨fun hne => absurd rfl hne, nofun, fun _ => Or.inr (h.given hisr), ?_⟩
    simp only [State.owed, Bool.false_eq_true, false_and, if_false]
    omega
  | pass hdue => exact ⟨h.served, h.given, h.fresh, h.count⟩
  | take hisr hpc htokens =>
    refine ⟨h.served, ?_, nofun, ?_⟩
    · intro hclearing
      rw [hisr] at hclearing
      cases hclearing
    · simp only [State.owed, hpc, Pc.busy] at hcount ⊢
      omega
  | lookDown hisr hpc hdown =>
    rw [hpc] at hcount
    exact ⟨h.served, h.given, h.fresh, hcount⟩
  | wake hisr hpc hdelay =>
    rw [hpc] at hcount
    exact ⟨h.served, h.given, h.fresh, hcount⟩
  | lookUp hisr hpc hup =>
    rw [hpc] at hcount
    exact ⟨h.served, h.given, h.fresh, hcount⟩
  | act ret hisr hpc =>
    refine ⟨h.served, h.given, h.fresh, ?_⟩
    simp only [State.owed, hpc, Pc.busy, List.length_append, List.length_singleton] at hcount ⊢
    omega

end Edges

section Holds

variable {slack down now due t : ℕ} {looks : List ℕ}

/-- The first look is at once, the others are 50 ms apart and not much more. -/
structure Spaced (slack down : ℕ) (looks : List ℕ) : Prop where
  first : ∀ t ∈ looks.head?, down ≤ t ∧ t ≤ down + slack
  apart : looks.IsChain fun t t' => t + 50 ≤ t' ∧ t' ≤ t + 50 + 2 * slack

/-- At `now` the delay behind the last look is over, if there was one, and the step
that is due at `due` is the `n`-th since then. -/
inductive Behind (slack down : ℕ) (looks : List ℕ) (n now due : ℕ) : Prop
  | first (hlooks : looks = []) (hnow : down ≤ now) (hdue : due ≤ down + n * slack)
  | delayed (t : ℕ) (hlast : looks.getLast? = some t) (hnow : t + 50 ≤ now)
      (hdue : due ≤ t + 50 + (n + 1) * slack)

/-- The thread is on time. -/
inductive OnTime (slack now due : ℕ) : Pc → Prop
  | waiting : OnTime slack now due .waiting
  | looking {down : ℕ} {looks : List ℕ} : Spaced slack down looks → now ≤ due →
      Behind slack down looks 1 now due → OnTime slack now due (.looking down looks)
  | delaying {down since : ℕ} {looks : List ℕ} : Spaced slack down looks → now ≤ due →
      looks.getLast? = some since → since ≤ now → due = since + 50 + slack →
      OnTime slack now due (.delaying down looks since)
  | released {down : ℕ} {looks : List ℕ} : Spaced slack down looks → now ≤ due →
      Behind slack down looks 2 now due → OnTime slack now due (.released down looks)

theorem Spaced.snoc (h : Spaced slack down looks) (hnow : Behind slack down looks 1 now due)
    (hdue : now ≤ due) : Spaced slack down (looks ++ [now]) := by
  cases hnow with
  | first hlooks hnow hdue' =>
    subst hlooks
    refine ⟨fun t ht => ?_, .singleton now⟩
    obtain rfl : now = t := by simpa using ht
    exact ⟨hnow, by omega⟩
  | delayed t hlast hnow hdue' =>
    refine ⟨fun t' ht' => h.first t' ?_, h.apart.append (.singleton now) fun x hx y hy => ?_⟩
    · rwa [List.head?_append_of_ne_nil _ (List.ne_nil_of_mem (List.mem_of_getLast? hlast))] at ht'
    · obtain rfl : t = x := by simpa [hlast] using hx
      obtain rfl : now = y := by simpa using hy
      exact ⟨hnow, by omega⟩

theorem Behind.pass {n now' : ℕ} (h : Behind slack down looks n now due) (hle : now ≤ now') :
    Behind slack down looks n now' due := by
  cases h with
  | first hlooks hnow hdue => exact .first hlooks (hnow.trans hle) hdue
  | delayed t hlast hnow hdue => exact .delayed t hlast (hnow.trans hle) hdue

theorem OnTime.pass {pc : Pc} (h : OnTime slack now due pc) (hdue : pc = .waiting ∨ now < due) :
    OnTime slack (now + 1) due pc := by
  have hlater := Nat.le_succ now
  cases h with
  | waiting => exact .waiting
  | looking hspaced _ hbehind =>
    exact .looking hspaced (hdue.resolve_left Pc.noConfusion) (hbehind.pass hlater)
  | delaying hspaced _ hlast hsince heq =>
    exact .delaying hspaced (hdue.resolve_left Pc.noConfusion) hlast (hsince.trans hlater) heq
  | released hspaced _ hbehind =>
    exact .released hspaced (hdue.resolve_left Pc.noConfusion) (hbehind.pass hlater)

end Holds

section Runs

variable {slack : ℕ} {s s' : State}

/-- How the handling of a token went. -/
structure Handling.Held (slack : ℕ) (h : Handling) : Prop where
  spaced : Spaced slack h.down h.looks
  ended : Behind slack h.down h.looks 2 h.up h.up

/-- Every handling was on time and had the actions for how long it took. -/
structure Handled (slack : ℕ) (s : State) : Prop where
  onTime : OnTime slack s.now s.due s.pc
  held : ∀ h ∈ s.handled, h.Held slack
  actions : s.actions = s.handled.flatMap fun h => onHold h.ret h.uHoldTime

theorem Handled.step (h : Handled slack s) (hstep : Step slack s s') : Handled slack s' := by
  have hontime := h.onTime
  cases hstep with
  | press hup => exact ⟨h.onTime, h.held, h.actions⟩
  | release hdown => exact ⟨h.onTime, h.held, h.actions⟩
  | interrupt hisr hpending => exact ⟨h.onTime, h.held, h.actions⟩
  | isrRelease hisr => exact ⟨h.onTime, h.held, h.actions⟩
  | isrClear hisr => exact ⟨h.onTime, h.held, h.actions⟩
  | pass hdue =>
    exact ⟨hontime.pass hdue, h.held, h.actions⟩
  | take hisr hpc htokens =>
    refine ⟨.looking ⟨by simp, .nil⟩ (Nat.le_add_right _ _) ?_, h.held, h.actions⟩
    exact .first rfl (Nat.le_refl _) (Nat.le_of_eq (by rw [Nat.one_mul]))
  | @lookDown down looks hisr hpc hdown =>
    rw [hpc] at hontime
    cases hontime with
    | looking hspaced hnow hbehind =>
      refine ⟨.delaying (hspaced.snoc hbehind hnow) ?_ List.getLast?_concat (Nat.le_refl _) rfl,
        h.held, h.actions⟩
      dsimp only
      omega
  | wake hisr hpc hdelay =>
    rw [hpc] at hontime
    cases hontime with
    | delaying hspaced hnow hlast hsince heq =>
      refine ⟨.looking hspaced (Nat.le_add_right _ _) ?_, h.held, h.actions⟩
      refine .delayed _ hlast hdelay ?_
      dsimp only
      omega
  | lookUp hisr hpc hup =>
    rw [hpc] at hontime
    cases hontime with
    | looking hspaced hnow hbehind =>
      refine ⟨.released hspaced (Nat.le_add_right _ _) ?_, h.held, h.actions⟩
      cases hbehind with
      | first hlooks hdown hdue => exact .first hlooks hdown (by dsimp only; omega)
      | delayed t hlast hdelay hdue => exact .delayed t hlast hdelay (by dsimp only; omega)
  | @act down looks ret hisr hpc =>
    rw [hpc] at hontime
    cases hontime with
    | released hspaced hnow hbehind =>
      refine ⟨.waiting, fun h' hmem => ?_, ?_⟩
      · rcases List.mem_append.mp hmem with hmem | hmem
        · exact h.held h' hmem
        · rw [List.mem_singleton.mp hmem]
          refine ⟨hspaced, ?_⟩
          cases hbehind with
          | first hlooks hdown hdue => exact .first hlooks hdown (hnow.trans hdue)
          | delayed t hlast hdelay hdue => exact .delayed t hlast hdelay (hnow.trans hdue)
      · rw [List.flatMap_append, List.flatMap_singleton, ← h.actions]
        rfl

theorem Reach.counted (h : Reach slack s) : Counted s := by
  induction h with
  | start => exact ⟨fun hne => absurd rfl hne, nofun, nofun, Nat.le_refl _⟩
  | step _ hstep ih => exact ih.step hstep

theorem Reach.handled (h : Reach slack s) : Handled slack s := by
  induction h with
  | start => exact ⟨.waiting, by simp, rfl⟩
  | step _ hstep ih => exact ih.step hstep

/-- However the key bounces: no falling edge is without a token to come, no token is
without an edge of its own, and what is done is, handling by handling, what the time
from its begin to the key being found up calls for. -/
theorem presses_handled (h : Reach slack s) :
    s.handled.length + s.pc.busy + s.tokens ≤ s.edges ∧
      (s.fresh = true → s.pending = true ∨ 0 < s.tokens) ∧
      s.actions = s.handled.flatMap fun h => onHold h.ret h.uHoldTime := by
  have hcounted := h.counted
  exact ⟨(Nat.le_add_right _ _).trans hcounted.count, hcounted.fresh, h.handled.actions⟩

/-- One press that bounces is two presses. -/
theorem presses_handled_bounce :
    ∃ s, Reach 0 s ∧ s.edges = 2 ∧ s.tokens = 0 ∧ s.actions = [.msgPush KPMFT, .msgPush KPMFT] ∧
      s.handled.length + s.pc.busy + s.tokens ≤ s.edges ∧
      (s.fresh = true → s.pending = true ∨ 0 < s.tokens) ∧
      s.actions = s.handled.flatMap fun h => onHold h.ret h.uHoldTime := by
  have h₁ := (@Reach.start 0).step (.press rfl)
  have h₂ := ((h₁.step (.interrupt rfl rfl)).step (.isrRelease rfl)).step (.isrClear rfl)
  have h₃ := (h₂.step (.release rfl)).step (.press rfl)
  have h₄ := ((h₃.step (.interrupt rfl rfl)).step (.isrRelease rfl)).step (.isrClear rfl)
  have h₅ := (h₄.step (.release rfl)).step (.take rfl rfl (by decide))
  have h₆ := (h₅.step (.lookUp rfl rfl rfl)).step (.act 0 rfl rfl)
  have h₇ := h₆.step (.take rfl rfl (by decide))
  have h₈ := (h₇.step (.lookUp rfl rfl rfl)).step (.act 0 rfl rfl)
  exact ⟨_, h₈, rfl, rfl, rfl, presses_handled h₈⟩

end Runs

end GemhoNbiot.KeyEntry
