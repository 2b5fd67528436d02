import Mathlib.Data.Int.Notation
import Mathlib.Data.List.Perm.Basic
import Mathlib.Logic.Function.Basic

/-!
midLight_action and midLight_entry over the message queue of ten light actions. An
urgent action goes to the head of the queue, and when there is no room for it the call
takes the head out and tries once more; calls of other threads come between any two of
these steps. The queue always is the urgent actions, the newest first, and then the
others, the oldest first.
-/
namespace GemhoNbiot.MidLight

/-- lightAction. -/
structure LightAction where
  intervalTime : UInt32
  blinkTimes : UInt32
  stopTime : UInt32
deriving DecidableEq

/-- The max_msgs of l_mq_midLight. -/
def maxMsgs : ℕ := 10

/-- The message queue of the kernel, with what it documents of rt_mq_send, rt_mq_urgent
and rt_mq_recv. -/
structure MessageQueue (σ : Type) where
  messages : σ → List LightAction
  send : σ → LightAction → ℤ × σ
  urgent : σ → LightAction → ℤ × σ
  recv : σ → Option LightAction × σ
  send_room : ∀ q la, (messages q).length < maxMsgs →
    (send q la).1 = 0 ∧ messages (send q la).2 = messages q ++ [la]
  send_full : ∀ q la, maxMsgs ≤ (messages q).length →
    (send q la).1 ≠ 0 ∧ messages (send q la).2 = messages q
  urgent_room : ∀ q la, (messages q).length < maxMsgs →
    (urgent q la).1 = 0 ∧ messages (urgent q la).2 = la :: messages q
  urgent_full : ∀ q la, maxMsgs ≤ (messages q).length →
    (urgent q la).1 ≠ 0 ∧ messages (urgent q la).2 = messages q
  recv_eq : ∀ q, (recv q).1 = (messages q).head? ∧ messages (recv q).2 = (messages q).tail

/-- Where a call of midLight_action is. After the second rt_mq_recv, `intruded` tells
whether another action has got into the queue since. -/
inductive Stage
  | begun (la : LightAction) (urgent : Bool)
  | refused (la : LightAction)
  | cleared (la : LightAction) (intruded : Bool)

def Stage.intrude : Stage → Stage
  | .cleared la _ => .cleared la true
  | stage => stage

/-- An action and whether it was urgent. -/
abbrev Entry := Bool × LightAction

/-- The call of each thread is in `calls`, `tagged` is the queue with what is urgent in
it. `got` got into the queue and `out` has left it, shown or not, both in order;
`failures` are the urgent calls that returned an error, each with its `intruded`. -/
structure State (σ : Type) where
  mq : σ
  calls : ℕ → Option Stage
  tagged : List Entry
  got : List Entry
  out : List (Entry × Bool)
  failures : List Bool

variable {σ : Type}

/-- The call of the thread has ended, with its action in the queue. -/
def State.accept (s : State σ) (thread : ℕ) (mq : σ) (tagged : List Entry) (e : Entry) :
    State σ :=
  { s with
    mq := mq
    calls := Function.update (fun t => (s.calls t).map Stage.intrude) thread none
    tagged := tagged
    got := s.got ++ [e] }

/-- The head of the queue is taken out. -/
def State.leave (s : State σ) (mq : σ) (shown : Bool) : State σ :=
  { s with
    mq := mq
    tagged := s.tagged.tail
    out := s.out ++ (s.tagged.take 1).map fun e => (e, shown) }

def State.setCall (s : State σ) (thread : ℕ) (stage : Option Stage) : State σ :=
  { s with calls := Function.update s.calls thread stage }

/-- A step of midLight_action in some thread, or rt_mq_recv of midLight_entry. -/
inductive Step (kernel : MessageQueue σ) (s : State σ) : State σ → Prop
  | call (thread : ℕ) (la : LightAction) (urgent : Bool) (hidle : s.calls thread = none) :
      Step kernel s (s.setCall thread (some (.begun la urgent)))
  | send {thread : ℕ} {la : LightAction} (hcall : s.calls thread = some (.begun la false))
      (hret : (kernel.send s.mq la).1 = 0) :
      Step kernel s
        (s.accept thread (kernel.send s.mq la).2 (s.tagged ++ [(false, la)]) (false, la))
  | sendFails {thread : ℕ} {la : LightAction} (hcall : s.calls thread = some (.begun la false))
      (hret : (kernel.send s.mq la).1 ≠ 0) :
      Step kernel s ({ s with mq := (kernel.send s.mq la).2 }.setCall thread none)
  | urgent {thread : ℕ} {la : LightAction} (hcall : s.calls thread = some (.begun la true))
      (hret : (kernel.urgent s.mq la).1 = 0) :
      Step kernel s
        (s.accept thread (kernel.urgent s.mq la).2 ((true, la) :: s.tagged) (true, la))
  | urgentFails {thread : ℕ} {la : LightAction}
      (hcall : s.calls thread = some (.begun la true))
      (hret : (kernel.urgent s.mq la).1 ≠ 0) :
      Step kernel s
        ({ s with mq := (kernel.urgent s.mq la).2 }.setCall thread (some (.refused la)))
  | clear {thread : ℕ} {la : LightAction} (hcall : s.calls thread = some (.refused la)) :
      Step kernel s
        ((s.leave (kernel.recv s.mq).2 false).setCall thread (some (.cleared la false)))
  | again {thread : ℕ} {la : LightAction} {intruded : Bool}
      (hcall : s.calls thread = some (.cleared la intruded))
      (hret : (kernel.urgent s.mq la).1 = 0) :
      Step kernel s
        (s.accept thread (kernel.urgent s.mq la).2 ((true, la) :: s.tagged) (true, la))
  | againFails {thread : ℕ} {la : LightAction} {intruded : Bool}
      (hcall : s.calls thread = some (.cleared la intruded))
      (hret : (kernel.urgent s.mq la).1 ≠ 0) :
      Step kernel s
        ({ s with mq := (kernel.urgent s.mq la).2
                  failures := s.failures ++ [intruded] }.setCall thread none)
  | display : Step kernel s (s.leave (kernel.recv s.mq).2 true)

inductive Reach (kernel : MessageQueue σ) : State σ → Prop
  | start {mq : σ} : kernel.messages mq = [] →
      Reach kernel ⟨mq, fun _ => none, [], [], [], []⟩
  | step {s s' : State σ} : Reach kernel s → Step kernel s s' → Reach kernel s'

def ofKind (urgent : Bool) (entries : List Entry) : List Entry :=
  entries.filter fun e => e.1 == urgent

/-- `stacked` and `queued` are the urgent and the other actions in the queue. -/
structure Inv (kernel : MessageQueue σ) (s : State σ) : Prop where
  messages : s.tagged.map Prod.snd = kernel.messages s.mq
  parted : s.tagged = ofKind true s.tagged ++ ofKind false s.tagged
  room : s.tagged.length ≤ maxMsgs
  inOrder : ofKind false (s.out.map Prod.fst) ++ ofKind false s.tagged = ofKind false s.got
  allUrgent : (ofKind true (s.out.map Prod.fst) ++ ofKind true s.tagged).Perm (ofKind true s.got)
  cleared : ∀ (thread : ℕ) (la : LightAction),
    s.calls thread = some (.cleared la false) → s.tagged.length < maxMsgs
  intruded : ∀ b ∈ s.failures, b = true

section Entries

@[simp] theorem ofKind_append (urgent : Bool) (es fs : List Entry) :
    ofKind urgent (es ++ fs) = ofKind urgent es ++ ofKind urgent fs :=
  List.filter_append _ _

theorem ofKind_cons_same (e : Entry) (es : List Entry) :
    ofKind e.1 (e :: es) = e :: ofKind e.1 es :=
  List.filter_cons_of_pos (by simp)

theorem ofKind_cons_other {urgent : Bool} {e : Entry} (h : e.1 ≠ urgent) (es : List Entry) :
    ofKind urgent (e :: es) = ofKind urgent es :=
  List.filter_cons_of_neg (by simpa using h)

theorem take_append_tail (es : List Entry) : es.take 1 ++ es.tail = es := by
  cases es <;> rfl

/-- The head leaves, and the urgent entries are still in front. -/
theorem parted_tail {es : List Entry} (h : es = ofKind true es ++ ofKind false es) :
    es.tail = ofKind true es.tail ++ ofKind false es.tail := by
  cases es with
  | nil => rfl
  | cons e es =>
    rw [List.tail_cons]
    obtain ⟨urgent, la⟩ := e
    cases urgent with
    | true =>
      rw [ofKind_cons_same (true, la), ofKind_cons_other (by simp), List.cons_append] at h
      exact (List.cons.inj h).2
    | false =>
      rw [ofKind_cons_same (false, la), ofKind_cons_other (by simp)] at h
      cases hurgent : ofKind true es with
      | nil =>
        rw [hurgent, List.nil_append] at h
        exact (List.cons.inj h).2
      | cons f fs =>
        have hmem : f ∈ ofKind true es := by rw [hurgent]; exact List.mem_cons_self
        rw [hurgent, List.cons_append] at h
        have hkind := (List.mem_filter.mp hmem).2
        rw [← (List.cons.inj h).1] at hkind
        exact absurd hkind (by simp)

end Entries

section Calls

variable {kernel : MessageQueue σ} {s s' : State σ} {thread : ℕ} {la : LightAction}

theorem Inv.length_eq (h : Inv kernel s) : (kernel.messages s.mq).length = s.tagged.length := by
  rw [← h.messages, List.length_map]

theorem Inv.setCall (h : Inv kernel s) {stage : Option Stage}
    (hstage : ∀ la, stage = some (.cleared la false) → s.tagged.length < maxMsgs) :
    Inv kernel (s.setCall thread stage) := by
  refine ⟨h.messages, h.parted, h.room, h.inOrder, h.allUrgent, ?_, h.intruded⟩
  intro t la hcall
  by_cases ht : t = thread
  · subst ht
    simp only [State.setCall, Function.update_self] at hcall
    exact hstage la hcall
  · simp only [State.setCall, Function.update_of_ne ht] at hcall
    exact h.cleared t la hcall

/-- A refused message leaves the queue as it is. -/
theorem Inv.refused (h : Inv kernel s) {mq : σ}
    (hsame : kernel.messages mq = kernel.messages s.mq) : Inv kernel { s with mq := mq } :=
  ⟨h.messages.trans hsame.symm, h.parted, h.room, h.inOrder, h.allUrgent, h.cleared, h.intruded⟩

theorem full_of_urgent (kernel : MessageQueue σ) {mq : σ} (hret : (kernel.urgent mq la).1 ≠ 0) :
    maxMsgs ≤ (kernel.messages mq).length ∧
      kernel.messages (kernel.urgent mq la).2 = kernel.messages mq := by
  have hfull : maxMsgs ≤ (kernel.messages mq).length := by
    by_contra hroom
    exact hret (kernel.urgent_room mq la (Nat.lt_of_not_le hroom)).1
  exact ⟨hfull, (kernel.urgent_full mq la hfull).2⟩

theorem full_of_send (kernel : MessageQueue σ) {mq : σ} (hret : (kernel.send mq la).1 ≠ 0) :
    kernel.messages (kernel.send mq la).2 = kernel.messages mq := by
  have hfull : maxMsgs ≤ (kernel.messages mq).length := by
    by_contra hroom
    exact hret (kernel.send_room mq la (Nat.lt_of_not_le hroom)).1
  exact (kernel.send_full mq la hfull).2

theorem not_cleared_of_accept (mq : σ) (tagged : List Entry) (e : Entry) (t : ℕ)
    (la : LightAction) : (s.accept thread mq tagged e).calls t ≠ some (.cleared la false) := by
  intro hcall
  by_cases ht : t = thread
  · subst ht
    simp [State.accept] at hcall
  · simp only [State.accept, Function.update_of_ne ht] at hcall
    obtain ⟨stage, _, hintrude⟩ := Option.map_eq_some_iff.mp hcall
    cases stage <;> simp [Stage.intrude] at hintrude

theorem Inv.send (h : Inv kernel s) (hret : (kernel.send s.mq la).1 = 0) :
    Inv kernel
      (s.accept thread (kernel.send s.mq la).2 (s.tagged ++ [(false, la)]) (false, la)) := by
  have hroom : (kernel.messages s.mq).length < maxMsgs := by
    by_contra hfull
    exact (kernel.send_full s.mq la (Nat.le_of_not_lt hfull)).1 hret
  have hkind : ofKind false [(false, la)] = [(false, la)] := ofKind_cons_same (false, la) []
  have hother : ofKind true [(false, la)] = [] := ofKind_cons_other (by simp) []
  refine ⟨?_, ?_, ?_, ?_, ?_, fun t a hcall => absurd hcall (not_cleared_of_accept _ _ _ t a),
    h.intruded⟩
  · simp only [State.accept, (kernel.send_room s.mq la hroom).2, List.map_append, h.messages]
    rfl
  · simp only [State.accept, ofKind_append, hkind, hother, List.append_nil]
    rw [← List.append_assoc, ← h.parted]
  · rw [h.length_eq] at hroom
    simp only [State.accept, List.length_append, List.length_singleton]
    omega
  · simp only [State.accept, ofKind_append, hkind]
    rw [← List.append_assoc, h.inOrder]
  · simp only [State.accept, ofKind_append, hother, List.append_nil]
    exact h.allUrgent

theorem Inv.urgent (h : Inv kernel s) (hret : (kernel.urgent s.mq la).1 = 0) :
    Inv kernel
      (s.accept thread (kernel.urgent s.mq la).2 ((true, la) :: s.tagged) (true, la)) := by
  have hroom : (kernel.messages s.mq).length < maxMsgs := by
    by_contra hfull
    exact (kernel.urgent_full s.mq la (Nat.le_of_not_lt hfull)).1 hret
  have hkind : ∀ es, ofKind true ((true, la) :: es) = (true, la) :: ofKind true es :=
    ofKind_cons_same (true, la)
  have hother : ∀ es, ofKind false ((true, la) :: es) = ofKind false es :=
    ofKind_cons_other (by simp)
  refine ⟨?_, ?_, ?_, ?_, ?_, fun t a hcall => absurd hcall (not_cleared_of_accept _ _ _ t a),
    h.intruded⟩
  · simp only [State.accept, (kernel.urgent_room s.mq la hroom).2, List.map_cons, h.messages]
  · simp only [State.accept, hkind, hother, List.cons_append]
    rw [← h.parted]
  · rw [h.length_eq] at hroom
    simp only [State.accept, List.length_cons]
    omega
  · simp only [State.accept, ofKind_append, hother]
    rw [h.inOrder]
    exact (List.append_nil _).symm
  · simp only [State.accept, ofKind_append, hkind]
    exact List.perm_middle.trans ((h.allUrgent.cons _).trans (List.perm_append_singleton _ _).symm)

theorem Inv.leave (h : Inv kernel s) (shown : Bool) :
    Inv kernel (s.leave (kernel.recv s.mq).2 shown) := by
  have hout : (s.leave (kernel.recv s.mq).2 shown).out.map Prod.fst =
      s.out.map Prod.fst ++ s.tagged.take 1 := by
    simp only [State.leave, List.map_append, List.map_map]
    exact congrArg _ (List.map_id _)
  have hsplit : ∀ urgent, ofKind urgent (s.tagged.take 1) ++ ofKind urgent s.tagged.tail =
      ofKind urgent s.tagged := by
    intro urgent
    rw [← ofKind_append, take_append_tail]
  have hshort : s.tagged.tail.length ≤ s.tagged.length := by
    rw [List.length_tail]
    omega
  refine ⟨?_, parted_tail h.parted, Nat.le_trans hshort h.room, ?_, ?_, ?_, h.intruded⟩
  · simp only [State.leave, (kernel.recv_eq s.mq).2, List.map_tail, h.messages]
  · rw [hout, ofKind_append, List.append_assoc]
    exact (congrArg _ (hsplit false)).trans h.inOrder
  · rw [hout, ofKind_append, List.append_assoc]
    exact (List.Perm.of_eq (congrArg _ (hsplit true))).trans h.allUrgent
  · exact fun t a hcall => Nat.lt_of_le_of_lt hshort (h.cleared t a hcall)

theorem Inv.step (h : Inv kernel s) (hstep : Step kernel s s') : Inv kernel s' := by
  cases hstep with
  | call t la urgent hidle => exact h.setCall (by simp)
  | send hcall hret => exact h.send hret
  | sendFails hcall hret => exact (h.refused (full_of_send kernel hret)).setCall (by simp)
  | urgent hcall hret => exact h.urgent hret
  | urgentFails hcall hret =>
    exact (h.refused (full_of_urgent kernel hret).2).setCall (by simp)
  | clear hcall =>
    refine (h.leave false).setCall fun la _ => ?_
    have hroom := h.room
    simp only [State.leave, List.length_tail]
    unfold maxMsgs at hroom ⊢
    omega
  | again hcall hret => exact h.urgent hret
  | @againFails t la intruded hcall hret =>
    obtain ⟨hfull, hsame⟩ := full_of_urgent kernel hret
    have hintruded : intruded = true := by
      by_contra hnot
      rw [Bool.not_eq_true] at hnot
      subst hnot
      have hroom := h.cleared t la hcall
      rw [h.length_eq] at hfull
      omega
    have hkept : Inv kernel ({ s with mq := (kernel.urgent s.mq la).2 }.setCall t none) :=
      (h.refused hsame).setCall (by simp)
    refine ⟨hkept.messages, hkept.parted, hkept.room, hkept.inOrder, hkept.allUrgent,
      hkept.cleared, ?_⟩
    intro b hb
    rcases List.mem_append.mp hb with hold | hnew
    · exact h.intruded b hold
    · rw [List.mem_singleton.mp hnew]
      exact hintruded
  | display => exact h.leave true

/-- In every order of the steps of any number of callers and of midLight_entry: at most
ten actions wait, the urgent ones in front; those that are not urgent leave in the order
in which they got in, and nothing is lost or shown twice; an urgent call only fails if
another action got in where it had made room. -/
theorem actions_accounted (h : Reach kernel s) :
    s.tagged.map Prod.snd = kernel.messages s.mq ∧ s.tagged.length ≤ maxMsgs ∧
      s.tagged = ofKind true s.tagged ++ ofKind false s.tagged ∧
      ofKind false (s.out.map Prod.fst) ++ ofKind false s.tagged = ofKind false s.got ∧
      (ofKind true (s.out.map Prod.fst) ++ ofKind true s.tagged).Perm (ofKind true s.got) ∧
      ∀ b ∈ s.failures, b = true := by
  have hinv : Inv kernel s := by
    induction h with
    | start hempty =>
      refine ⟨hempty.symm, rfl, Nat.zero_le _, rfl, List.Perm.refl _, nofun, nofun⟩
    | step _ hstep ih => exact ih.step hstep
  exact ⟨hinv.messages, hinv.room, hinv.parted, hinv.inOrder, hinv.allUrgent, hinv.intruded⟩

end Calls

/-- A kernel whose queue is a list. -/
def listKernel : MessageQueue (List LightAction) where
  messages q := q
  send q la := if q.length < maxMsgs then (0, q ++ [la]) else (-3, q)
  urgent q la := if q.length < maxMsgs then (0, la :: q) else (-3, q)
  recv q := (q.head?, q.tail)
  send_room q la h := by simp [h]
  send_full q la h := by simp [Nat.not_lt_of_le h]
  urgent_room q la h := by simp [h]
  urgent_full q la h := by simp [Nat.not_lt_of_le h]
  recv_eq q := ⟨rfl, rfl⟩

def sentLight : LightAction := ⟨50, 8, 300⟩

def pressedLight : LightAction := ⟨100, 16, 1000⟩

/-- Nobody reads the queue while the messages are sent. -/
theorem reach_filled (n : ℕ) (h : n ≤ maxMsgs) :
    Reach listKernel ⟨List.replicate n sentLight, fun _ => none,
      List.replicate n (false, sentLight), List.replicate n (false, sentLight), [], []⟩ := by
  induction n with
  | zero => exact .start rfl
  | succ n ih =>
    have hlen : (List.replicate n sentLight).length < maxMsgs := by
      rw [List.length_replicate]
      exact h
    obtain ⟨hret, hmessages⟩ := listKernel.send_room (List.replicate n sentLight) sentLight hlen
    replace hmessages : (listKernel.send (List.replicate n sentLight) sentLight).2 =
        List.replicate (n + 1) sentLight := hmessages.trans List.replicate_succ'.symm
    have hsent := ((ih (Nat.le_of_succ_le h)).step (.call 3 sentLight false rfl)).step
      (@Step.send _ _ _ 3 sentLight rfl hret)
    have hcalls : (Function.update (fun t => (Function.update (fun _ => none) 3
        (some (Stage.begun sentLight false)) t).map Stage.intrude) 3 none : ℕ → Option Stage) =
          fun _ => none := by
      funext t
      by_cases ht : t = 3
      · rw [ht, Function.update_self]
      · rw [Function.update_of_ne ht, Function.update_of_ne ht]
        rfl
    simp only [State.accept, State.setCall, hmessages, hcalls, ← List.replicate_succ'] at hsent
    exact hsent

/-- A key press finds the queue full and takes its head out, and another message that
has been sent is faster: the second try fails too. -/
theorem actions_accounted_full :
    ∃ s, Reach listKernel s ∧ s.mq = List.replicate 10 sentLight ∧
      s.out = [((false, sentLight), false)] ∧ s.failures = [true] ∧
      s.tagged.map Prod.snd = listKernel.messages s.mq ∧ s.tagged.length ≤ maxMsgs ∧
      s.tagged = ofKind true s.tagged ++ ofKind false s.tagged ∧
      ofKind false (s.out.map Prod.fst) ++ ofKind false s.tagged = ofKind false s.got ∧
      (ofKind true (s.out.map Prod.fst) ++ ofKind true s.tagged).Perm (ofKind true s.got) ∧
      ∀ b ∈ s.failures, b = true := by
  have hpressed := ((reach_filled 10 (Nat.le_refl 10)).step (.call 1 pressedLight true rfl)).step
    (@Step.urgentFails _ _ _ 1 pressedLight rfl (by decide))
  have hcleared := hpressed.step (@Step.clear _ _ _ 1 pressedLight rfl)
  have hsent := (hcleared.step (.call 3 sentLight false rfl)).step
    (@Step.send _ _ _ 3 sentLight rfl rfl)
  have hfailed := hsent.step (@Step.againFails _ _ _ 1 pressedLight true rfl (by decide))
  exact ⟨_, hfailed, rfl, rfl, rfl, actions_accounted hfailed⟩

end GemhoNbiot.MidLight
