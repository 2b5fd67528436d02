import GemhoNbiot.FifoRefinement

/-!
Threads that wait in rt_data_queue_push and rt_data_queue_pop. A thread that finds
the queue full goes to the end of suspended_push_list, one that finds it empty to
the end of suspended_pop_list. A push takes the first thread off the pop list, a pop
that leaves no more than lwm items takes the first one off the push list, and a timer
takes its thread off with -RT_ETIMEOUT. A thread taken off by a call looks at the
queue again when it runs: another thread may have been faster, and it waits anew.
-/
namespace GemhoNbiot.QueueWait

open Dataqueue RtDataQueue
open FifoRefinement (WrapSafe straight_succ)

section Lists

variable {W : Type} [DecidableEq W]

/-- The waiting calls of one kind. `suspended` is the list of the queue, `resumed`
were taken off it by a call of the other kind and `expired` by their timers, and they
have not run since. -/
structure Waiters (W : Type) where
  suspended : List W
  resumed : List W
  expired : List W

namespace Waiters

def none : Waiters W := ⟨[], [], []⟩

def all (ws : Waiters W) : List W := ws.suspended ++ ws.resumed ++ ws.expired

def sleep (ws : Waiters W) (w : W) : Waiters W :=
  { ws with suspended := ws.suspended ++ [w] }

/-- rt_thread_resume of the first thread of the list, if there is one. -/
def wake (ws : Waiters W) : Waiters W :=
  match ws.suspended with
  | [] => ws
  | w :: rest => { ws with suspended := rest, resumed := ws.resumed ++ [w] }

def run (ws : Waiters W) (w : W) : Waiters W := { ws with resumed := ws.resumed.erase w }

def expire (ws : Waiters W) (w : W) : Waiters W :=
  { ws with suspended := ws.suspended.erase w, expired := ws.expired ++ [w] }

def giveUp (ws : Waiters W) (w : W) : Waiters W := { ws with expired := ws.expired.erase w }

omit [DecidableEq W] in
theorem sleep_perm (ws : Waiters W) (w : W) : (ws.sleep w).all.Perm (w :: ws.all) := by
  change (ws.suspended ++ [w] ++ ws.resumed ++ ws.expired).Perm _
  rw [List.append_assoc, List.append_assoc, all, List.append_assoc]
  exact List.perm_middle

omit [DecidableEq W] in
theorem wake_perm (ws : Waiters W) : ws.wake.all.Perm ws.all := by
  unfold wake
  split
  next => exact List.Perm.refl _
  next w rest hsuspended =>
    change (rest ++ (ws.resumed ++ [w]) ++ ws.expired).Perm _
    rw [all, hsuspended, ← List.append_assoc]
    exact (List.perm_append_singleton w (rest ++ ws.resumed)).append_right _

theorem run_perm (ws : Waiters W) {w : W} (hw : w ∈ ws.resumed) :
    (w :: (ws.run w).all).Perm ws.all := by
  change (w :: (ws.suspended ++ ws.resumed.erase w) ++ ws.expired).Perm _
  refine List.Perm.append_right ws.expired (List.perm_middle.symm.trans ?_)
  exact (List.perm_cons_erase hw).symm.append_left ws.suspended

theorem expire_perm (ws : Waiters W) {w : W} (hw : w ∈ ws.suspended) :
    (ws.expire w).all.Perm ws.all := by
  have hmove : (ws.expire w).all.Perm
      (w :: ws.suspended.erase w ++ ws.resumed ++ ws.expired) := by
    change (ws.suspended.erase w ++ ws.resumed ++ (ws.expired ++ [w])).Perm _
    rw [← List.append_assoc]
    exact List.perm_append_singleton w _
  refine hmove.trans ?_
  exact ((List.perm_cons_erase hw).symm.append_right _).append_right _

theorem giveUp_sublist (ws : Waiters W) (w : W) : (ws.giveUp w).all.Sublist ws.all :=
  List.erase_sublist.append_left _

omit [DecidableEq W] in
/-- A wake that leaves threads on the list has resumed one. -/
theorem wake_resumed {ws : Waiters W} (h : ws.wake.suspended ≠ []) :
    ws.suspended ≠ [] ∧ ws.wake.resumed.length = ws.resumed.length + 1 := by
  unfold wake at h ⊢
  split at h
  next hnil => exact absurd hnil h
  next w rest hsuspended =>
    rw [hsuspended]
    exact ⟨List.cons_ne_nil w rest, List.length_append⟩

theorem run_resumed (ws : Waiters W) {w : W} (hw : w ∈ ws.resumed) :
    (ws.run w).resumed.length + 1 = ws.resumed.length := by
  have hlen := List.length_erase_of_mem hw
  have hpos := List.length_pos_of_mem hw
  change (ws.resumed.erase w).length + 1 = _
  omega

theorem expire_suspended {ws : Waiters W} {w : W} (h : (ws.expire w).suspended ≠ []) :
    ws.suspended ≠ [] := by
  intro hnil
  apply h
  change ws.suspended.erase w = []
  rw [hnil]
  rfl

end Waiters

end Lists

/-- A call of rt_data_queue_push with what it wants to store. -/
structure Push (T α : Type) where
  thread : T
  dataPtr : α
  dataSize : ℕ
deriving DecidableEq

/-- `pushing` and `popping` are the calls that wait. -/
structure State (T α : Type) where
  queue : RtDataQueue α
  pushing : Waiters (Push T α)
  popping : Waiters T

/-- A call returns. -/
inductive Event (T α : Type)
  | pushed (p : Push T α) (ret : ℤ)
  | popped (t : T) (ret : ℤ) (dataPtr : Option α)

/-- The wrap of the 16-bit counters does not disturb the next push: a free cell is
one of its own, and a full queue is seen to be full. -/
def PushSafe {α : Type} (q : RtDataQueue α) : Prop :=
  q.count < q.size.toNat ∧ WrapSafe q ∨ q.count = q.size.toNat ∧ q.getIndex ≤ q.putIndex

instance {α : Type} (q : RtDataQueue α) : Decidable (PushSafe q) :=
  inferInstanceAs (Decidable (_ ∨ _))

section Steps

variable {T α : Type}

/-- The threads with a call under way. -/
def State.threads (s : State T α) : List T := s.pushing.all.map Push.thread ++ s.popping.all

/-- The loop of rt_data_queue_push and what follows it, run with interrupts
disabled: the thread stores its item, gives up or goes to sleep. -/
def State.push (s : State T α) (p : Push T α) (timeout : ℤ) :
    Option (Event T α) × State T α :=
  match rtDataQueuePush s.queue p.dataPtr p.dataSize timeout with
  | none => (none, { s with pushing := s.pushing.sleep p })
  | some (ret, queue) =>
    (some (.pushed p ret),
      if ret = RT_EOK then { s with queue := queue, popping := s.popping.wake }
      else { s with queue := queue })

/-- The same for rt_data_queue_pop. The distance to `lwm` is taken in int. -/
def State.pop (lwm : UInt16) (s : State T α) (t : T) (timeout : ℤ) :
    Option (Event T α) × State T α :=
  match rtDataQueuePop s.queue timeout with
  | none => (none, { s with popping := s.popping.sleep t })
  | some popped =>
    let queue := popped.queue
    (some (.popped t popped.ret popped.dataPtr),
      if popped.ret = RT_EOK ∧ (queue.putIndex.toNat : ℤ) - queue.getIndex.toNat ≤ lwm.toNat then
        { s with queue := queue, pushing := s.pushing.wake }
      else { s with queue := queue })

variable [DecidableEq T] [DecidableEq α]

/-- A call has one timeout from its start to its end, and one that waits has none of
0. The threads and handlers that call without waiting are also of `T`. -/
inductive Step (lwm : UInt16) (s : State T α) : Option (Event T α) → State T α → Prop
  | push (p : Push T α) (timeout : ℤ) (ht : p.thread ∉ s.threads) (hsafe : PushSafe s.queue) :
      Step lwm s (s.push p timeout).1 (s.push p timeout).2
  | pushAgain (p : Push T α) (timeout : ℤ) (hp : p ∈ s.pushing.resumed) (hwait : timeout ≠ 0)
      (hsafe : PushSafe s.queue) :
      Step lwm s (State.push { s with pushing := s.pushing.run p } p timeout).1
        (State.push { s with pushing := s.pushing.run p } p timeout).2
  | pushExpire (p : Push T α) (hp : p ∈ s.pushing.suspended) :
      Step lwm s none { s with pushing := s.pushing.expire p }
  | pushGiveUp (p : Push T α) (hp : p ∈ s.pushing.expired) :
      Step lwm s (some (.pushed p (-RT_ETIMEOUT))) { s with pushing := s.pushing.giveUp p }
  | pop (t : T) (timeout : ℤ) (ht : t ∉ s.threads) :
      Step lwm s (s.pop lwm t timeout).1 (s.pop lwm t timeout).2
  | popAgain (t : T) (timeout : ℤ) (ht : t ∈ s.popping.resumed) (hwait : timeout ≠ 0) :
      Step lwm s (State.pop lwm { s with popping := s.popping.run t } t timeout).1
        (State.pop lwm { s with popping := s.popping.run t } t timeout).2
  | popExpire (t : T) (ht : t ∈ s.popping.suspended) :
      Step lwm s none { s with popping := s.popping.expire t }
  | popGiveUp (t : T) (ht : t ∈ s.popping.expired) :
      Step lwm s (some (.popped t (-RT_ETIMEOUT) none))
        { s with popping := s.popping.giveUp t }

/-- Runs with their events, newest last. -/
inductive Run (lwm : UInt16) (s₀ : State T α) : List (Event T α) → State T α → Prop
  | nil : Run lwm s₀ [] s₀
  | snoc {events : List (Event T α)} {s s' : State T α} {e : Option (Event T α)} :
      Run lwm s₀ events s → Step lwm s e s' → Run lwm s₀ (events ++ e.toList) s'

end Steps

/-- The queue as rt_data_queue_init leaves it, before any call. -/
def start (T α : Type) (size : UInt16) : State T α := ⟨emptyQueue size, .none, .none⟩

section Events

variable {T α : Type}

def Event.input : Event T α → Option α
  | .pushed p ret => if ret = RT_EOK then some p.dataPtr else none
  | .popped _ _ _ => none

def Event.output : Event T α → Option α
  | .pushed _ _ => none
  | .popped _ _ dataPtr => dataPtr

/-- A call returns RT_EOK or -RT_ETIMEOUT, and an item only with RT_EOK. -/
def Event.Proper : Event T α → Prop
  | .pushed _ ret => ret = RT_EOK ∨ ret = -RT_ETIMEOUT
  | .popped _ ret dataPtr =>
    ret = RT_EOK ∧ dataPtr ≠ none ∨ ret = -RT_ETIMEOUT ∧ dataPtr = none

end Events

section Invariant

variable {T α : Type}

/-- While a thread waits for an item there is for every item a thread that comes for
it. While one waits for room, the items and the threads that bring one are together
more than `lwm`, or as many as the queue holds. -/
structure Inv (size lwm : UInt16) (s : State T α) (xs : List α) : Prop where
  size_eq : s.queue.size = size
  holds : s.queue.Represents xs
  straight : s.queue.Straight xs.length
  popAwake : s.popping.suspended ≠ [] → xs.length ≤ s.popping.resumed.length
  pushAwake : s.pushing.suspended ≠ [] →
    min size.toNat (lwm.toNat + 1) ≤ xs.length + s.pushing.resumed.length
  nodup : s.threads.Nodup

/-- What a step does to the items. -/
structure Keeps (xs xs' : List α) (e : Option (Event T α)) : Prop where
  items : e.toList.filterMap Event.output ++ xs' = xs ++ e.toList.filterMap Event.input
  proper : ∀ event ∈ e, event.Proper

theorem Keeps.waits (xs : List α) : Keeps (T := T) xs xs none :=
  ⟨(List.append_nil xs).symm, nofun⟩

/-- A call that returns without an item, or leaves none. -/
theorem Keeps.quiet (xs : List α) {event : Event T α} (hinput : event.input = none)
    (houtput : event.output = none) (hproper : event.Proper) : Keeps xs xs (some event) := by
  refine ⟨?_, ?_⟩
  · change [event].filterMap Event.output ++ xs = xs ++ [event].filterMap Event.input
    rw [List.filterMap_cons_none houtput, List.filterMap_cons_none hinput]
    exact (List.append_nil xs).symm
  · rintro _ ⟨⟩
    exact hproper

theorem Keeps.pushTimeout (xs : List α) (p : Push T α) :
    Keeps xs xs (some (Event.pushed p (-RT_ETIMEOUT))) :=
  Keeps.quiet xs rfl rfl (Or.inr rfl)

theorem Keeps.popTimeout (xs : List α) (t : T) :
    Keeps xs xs (some (Event.popped t (-RT_ETIMEOUT) none)) :=
  Keeps.quiet xs rfl rfl (Or.inr ⟨rfl, rfl⟩)

theorem rtDataQueuePush_full {q : RtDataQueue α} (h : q.Sized q.size.toNat)
    (hle : q.getIndex ≤ q.putIndex) (x : α) (n : ℕ) (timeout : ℤ) :
    rtDataQueuePush q x n timeout = if timeout = 0 then some (-RT_ETIMEOUT, q) else none := by
  have hput := h.putIndex_eq
  have hsize := q.size.toNat_lt
  have hle' : q.getIndex.toNat ≤ q.putIndex.toNat := hle
  have hget := q.getIndex.toNat_lt
  have hfull : (q.putIndex.toNat : ℤ) - q.getIndex.toNat = q.size.toNat := by omega
  unfold rtDataQueuePush
  rw [if_pos hfull]

variable {size lwm : UInt16} {s : State T α} {xs : List α}

theorem push_threads (s : State T α) (p : Push T α) :
    (State.threads { s with pushing := s.pushing.sleep p }).Perm (p.thread :: s.threads) :=
  ((s.pushing.sleep_perm p).map Push.thread).append_right s.popping.all

theorem pop_threads (s : State T α) (t : T) :
    (State.threads { s with popping := s.popping.sleep t }).Perm (t :: s.threads) :=
  ((s.popping.sleep_perm t).append_left _).trans List.perm_middle

/-- A thread looks for room: it comes anew, or a pop has resumed it. -/
theorem push_keeps (hsize : s.queue.size = size) (hholds : s.queue.Represents xs)
    (hstraight : s.queue.Straight xs.length)
    (hpop : s.popping.suspended ≠ [] → xs.length ≤ s.popping.resumed.length)
    (hpush : s.pushing.suspended ≠ [] →
      min size.toNat (lwm.toNat + 1) ≤ xs.length + 1 + s.pushing.resumed.length)
    {p : Push T α} (hnodup : (p.thread :: s.threads).Nodup) (timeout : ℤ)
    (hsafe : PushSafe s.queue) :
    ∃ xs', Inv size lwm (s.push p timeout).2 xs' ∧ Keeps xs xs' (s.push p timeout).1 := by
  have hcount := hholds.sized.count_eq
  unfold State.push
  rcases hsafe with ⟨hroom, hwrap⟩ | ⟨hfull, hle⟩
  · -- There is room: the item is stored and the first popping thread resumed.
    have hlen : xs.length < s.queue.size.toNat := hcount ▸ hroom
    have hstraight' := straight_succ hholds.sized hstraight hwrap
    rw [rtDataQueuePush_eq hholds.sized hlen]
    refine ⟨xs ++ [p.dataPtr],
      ⟨hsize, hholds.pushed hlen hstraight' _ _, ?_, fun hne => ?_, fun hne => ?_, ?_⟩, rfl, ?_⟩
    · rw [List.length_append]
      exact hstraight'
    · obtain ⟨hne', hresumed⟩ := Waiters.wake_resumed hne
      rw [List.length_append]
      exact (Nat.add_le_add_right (hpop hne') 1).trans_eq hresumed.symm
    · rw [List.length_append]
      exact hpush hne
    · exact (s.popping.wake_perm.append_left _).nodup_iff.mpr hnodup.of_cons
    · rintro event ⟨⟩
      exact Or.inl rfl
  · have hsized : s.queue.Sized s.queue.size.toNat := by
      rw [← hfull, hcount]
      exact hholds.sized
    have hlen : size.toNat = xs.length := by rw [← hcount, hfull, hsize]
    have hitems : min size.toNat (lwm.toNat + 1) ≤ xs.length + s.pushing.resumed.length :=
      (Nat.min_le_left _ _).trans (hlen.trans_le (Nat.le_add_right _ _))
    rw [rtDataQueuePush_full hsized hle]
    by_cases htimeout : timeout = 0
    · rw [if_pos htimeout]
      exact ⟨xs, ⟨hsize, hholds, hstraight, hpop, fun _ => hitems, hnodup.of_cons⟩,
        Keeps.pushTimeout xs p⟩
    · rw [if_neg htimeout]
      have hnodup' := (push_threads s p).nodup_iff.mpr hnodup
      exact ⟨xs, ⟨hsize, hholds, hstraight, hpop, fun _ => hitems, hnodup'⟩, Keeps.waits xs⟩

/-- A thread looks for an item: it comes anew, or a push has resumed it. -/
theorem pop_keeps (hsize : s.queue.size = size) (hholds : s.queue.Represents xs)
    (hstraight : s.queue.Straight xs.length)
    (hpop : s.popping.suspended ≠ [] → xs.length ≤ s.popping.resumed.length + 1)
    (hpush : s.pushing.suspended ≠ [] →
      min size.toNat (lwm.toNat + 1) ≤ xs.length + s.pushing.resumed.length)
    {t : T} (hnodup : (t :: s.threads).Nodup) (timeout : ℤ) :
    ∃ xs', Inv size lwm (s.pop lwm t timeout).2 xs' ∧ Keeps xs xs' (s.pop lwm t timeout).1 := by
  unfold State.pop
  cases xs with
  | nil =>
    rw [rtDataQueuePop_empty hholds.sized]
    by_cases htimeout : timeout = 0
    · rw [if_pos htimeout]
      exact ⟨[], ⟨hsize, hholds, hstraight, fun _ => Nat.zero_le _, hpush, hnodup.of_cons⟩,
        Keeps.popTimeout [] t⟩
    · rw [if_neg htimeout]
      have hnodup' := (pop_threads s t).nodup_iff.mpr hnodup
      exact ⟨[], ⟨hsize, hholds, hstraight, fun _ => Nat.zero_le _, hpush, hnodup'⟩,
        Keeps.waits []⟩
  | cons x xs =>
    obtain ⟨n, hpopped⟩ := rtDataQueuePop_cons hholds timeout
    have hholds' := hholds.popped
    have hkeeps : Keeps (x :: xs) xs (some (Event.popped t RT_EOK (some x))) := by
      refine ⟨(List.append_nil (x :: xs)).symm, ?_⟩
      rintro event ⟨⟩
      exact Or.inl ⟨rfl, Option.some_ne_none x⟩
    have hpop' : s.popping.suspended ≠ [] → xs.length ≤ s.popping.resumed.length :=
      fun hne => Nat.le_of_succ_le_succ (hpop hne)
    rw [hpopped]
    refine ⟨xs, ?_, hkeeps⟩
    dsimp only
    split
    next hlow =>
      -- At the low-water mark the place of the item goes to a pushing thread.
      refine ⟨hsize, hholds', Straight.popped hstraight, hpop', fun hne => ?_, ?_⟩
      · obtain ⟨hne', hresumed⟩ := Waiters.wake_resumed hne
        have hpush' := hpush hne'
        change min size.toNat (lwm.toNat + 1) ≤ xs.length + s.pushing.wake.resumed.length
        rw [hresumed]
        rw [List.length_cons] at hpush'
        omega
      · have hperm := (s.pushing.wake_perm.map Push.thread).append_right s.popping.all
        exact hperm.nodup_iff.mpr hnodup.of_cons
    next hlow =>
      refine ⟨hsize, hholds', Straight.popped hstraight, hpop', fun _ => ?_, hnodup.of_cons⟩
      have habove : lwm.toNat < xs.length := by
        by_contra hle
        refine hlow ⟨rfl, ?_⟩
        have hput := hholds'.sized.putIndex_eq
        omega
      exact (Nat.min_le_right _ _).trans (habove.trans_le (Nat.le_add_right _ _))

variable [DecidableEq T] [DecidableEq α]

theorem Inv.step (h : Inv size lwm s xs) {e : Option (Event T α)} {s' : State T α}
    (hstep : Step lwm s e s') : ∃ xs', Inv size lwm s' xs' ∧ Keeps xs xs' e := by
  cases hstep with
  | push p timeout ht hsafe =>
    refine push_keeps h.size_eq h.holds h.straight h.popAwake (fun hne => ?_) (h.nodup.cons ht)
      timeout hsafe
    have hpush := h.pushAwake hne
    omega
  | pushAgain p timeout hp hwait hsafe =>
    have hresumed := s.pushing.run_resumed hp
    have hperm := ((s.pushing.run_perm hp).map Push.thread).append_right s.popping.all
    refine @push_keeps T α size lwm { s with pushing := s.pushing.run p } xs h.size_eq h.holds
      h.straight h.popAwake (fun hne => ?_) p (hperm.nodup_iff.mpr h.nodup) timeout hsafe
    have hpush := h.pushAwake hne
    change _ ≤ xs.length + 1 + (s.pushing.run p).resumed.length
    omega
  | pushExpire p hp =>
    have hperm := ((s.pushing.expire_perm hp).map Push.thread).append_right s.popping.all
    refine ⟨xs, ⟨h.size_eq, h.holds, h.straight, h.popAwake, fun hne => ?_, ?_⟩, ?_⟩
    · exact h.pushAwake (Waiters.expire_suspended hne)
    · exact hperm.nodup_iff.mpr h.nodup
    · exact Keeps.waits xs
  | pushGiveUp p hp =>
    have hsub := ((s.pushing.giveUp_sublist p).map Push.thread).append_right s.popping.all
    exact ⟨xs, ⟨h.size_eq, h.holds, h.straight, h.popAwake, h.pushAwake,
      h.nodup.sublist hsub⟩, Keeps.pushTimeout xs p⟩
  | pop t timeout ht =>
    refine pop_keeps h.size_eq h.holds h.straight (fun hne => ?_) h.pushAwake (h.nodup.cons ht)
      timeout
    exact Nat.le_succ_of_le (h.popAwake hne)
  | popAgain t timeout ht hwait =>
    have hresumed := s.popping.run_resumed ht
    have hperm : (t :: State.threads { s with popping := s.popping.run t }).Perm s.threads :=
      List.perm_middle.symm.trans ((s.popping.run_perm ht).append_left _)
    refine @pop_keeps T α size lwm { s with popping := s.popping.run t } xs h.size_eq h.holds
      h.straight (fun hne => ?_) h.pushAwake t (hperm.nodup_iff.mpr h.nodup) timeout
    have hpop := h.popAwake hne
    change xs.length ≤ (s.popping.run t).resumed.length + 1
    omega
  | popExpire t ht =>
    refine ⟨xs, ⟨h.size_eq, h.holds, h.straight, fun hne => ?_, h.pushAwake, ?_⟩, ?_⟩
    · exact h.popAwake (Waiters.expire_suspended hne)
    · exact ((s.popping.expire_perm ht).append_left _).nodup_iff.mpr h.nodup
    · exact Keeps.waits xs
  | popGiveUp t ht =>
    have hsub := (s.popping.giveUp_sublist t).append_left (s.pushing.all.map Push.thread)
    exact ⟨xs, ⟨h.size_eq, h.holds, h.straight, h.popAwake, h.pushAwake,
      h.nodup.sublist hsub⟩, Keeps.popTimeout xs t⟩

omit [DecidableEq T] [DecidableEq α] in
theorem start_inv (lwm : UInt16) (hsize : 0 < size.toNat) :
    Inv size lwm (start T α size) [] where
  size_eq := rfl
  holds := emptyQueue_represents size hsize
  straight := by
    have hsize' := size.toNat_lt
    refine Or.inr ?_
    change 0 + 0 ≤ _
    omega
  popAwake := fun hne => absurd rfl hne
  pushAwake := fun hne => absurd rfl hne
  nodup := List.nodup_nil

end Invariant

section Runs

variable {T α : Type} [DecidableEq T] [DecidableEq α] {size lwm : UInt16}

theorem Run.keeps {events : List (Event T α)} {s : State T α} (hsize : 0 < size.toNat)
    (h : Run lwm (start T α size) events s) :
    ∃ xs, Inv size lwm s xs ∧
      events.filterMap Event.output ++ xs = events.filterMap Event.input ∧
      ∀ event ∈ events, event.Proper := by
  induction h with
  | nil => exact ⟨[], start_inv lwm hsize, rfl, fun e he => absurd he List.not_mem_nil⟩
  | @snoc events s s' e _ hstep ih =>
    obtain ⟨xs, hinv, hitems, hproper⟩ := ih
    obtain ⟨xs', hinv', hkeeps⟩ := hinv.step hstep
    refine ⟨xs', hinv', ?_, fun event hevent => ?_⟩
    · rw [List.filterMap_append, List.filterMap_append, List.append_assoc, hkeeps.items,
        ← List.append_assoc, hitems]
    · rcases List.mem_append.mp hevent with hevent | hevent
      · exact hproper event hevent
      · exact hkeeps.proper event (Option.mem_toList.mp hevent)

end Runs

end GemhoNbiot.QueueWait
