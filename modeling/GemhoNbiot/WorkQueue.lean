import Mathlib.Data.Int.Notation
import Mathlib.Data.List.Nodup

/-!
The work queue of rt_ext/workqueue.c: its thread and any number of callers, each of
which can be interrupted wherever interrupts are not disabled. The thread suspends
itself after it has found the list empty, and a caller resumes it after it has put a
work into the list, both outside of the critical section, and the thread takes the
head of the list without a second look. Three orders of these steps are wrong, and
every run without them is right.
-/
namespace GemhoNbiot.WorkQueue

abbrev Work := ℕ

def RT_EOK : ℤ := 0
def RT_EBUSY : ℤ := 7

/-- Where _workqueue_thread_entry is. -/
inductive Pc
  | testing
  | suspending
  | suspended
  | taking
  | working (work : Work)
  | acking
deriving DecidableEq

/-- rt_workqueue, whose works are in no other queue. `resumes` are the callers that have
still to resume the thread, `waiters` those of rt_workqueue_cancel_work_sync that wait
for `sem`, each with the work it is to cancel. What has been submitted and begun is kept
in order. -/
structure State where
  workList : List Work
  workCurrent : Option Work
  sem : ℕ
  waiters : List Work
  resumes : ℕ
  pc : Pc
  submitted : List Work
  begun : List Work
deriving DecidableEq

/-- rt_workqueue_create. -/
def start : State := ⟨[], none, 0, [], 0, .testing, [], []⟩

/-- The critical section of rt_workqueue_dowork, which rt_workqueue_critical_work
repeats. -/
def dowork (s : State) (work : Work) : ℤ × State :=
  if s.workCurrent = some work then
    (-RT_EBUSY, s)
  else
    let s := { s with
      workList := s.workList.erase work ++ [work]
      submitted := s.submitted ++ [work] }
    if s.workCurrent = none then (RT_EOK, { s with resumes := s.resumes + 1 }) else (RT_EOK, s)

/-- rt_thread_resume, which does nothing to a thread that is not suspended. -/
def threadResume (s : State) : State :=
  { s with
    resumes := s.resumes - 1
    pc := if s.pc = .suspended then .taking else s.pc }

def cancelWork (s : State) (work : Work) : ℤ × State :=
  if s.workCurrent = some work then (-RT_EBUSY, s)
  else (RT_EOK, { s with workList := s.workList.erase work })

/-- rt_workqueue_cancel_work_sync, up to where it waits. -/
def cancelWorkSync (s : State) (work : Work) : State :=
  if s.workCurrent = some work then
    if 0 < s.sem then { s with sem := s.sem - 1 } else { s with waiters := s.waiters ++ [work] }
  else
    { s with workList := s.workList.erase work }

def cancelAllWork (s : State) : State := { s with workList := [] }

/-- The loop of _workqueue_work_completion: the value of the semaphore and the waiters.
A release goes to the first waiter if there is one. -/
def workCompletion : ℕ → List Work → ℕ × List Work
  | sem + 1, waiters => (sem, waiters)
  | 0, _ :: waiters => workCompletion 0 waiters
  | 0, [] => workCompletion 1 []
termination_by sem waiters => if sem = 0 then waiters.length + 1 else 0

/-- A step of a caller, or of the thread: the look at the list, rt_thread_suspend, and
the two critical sections with the work between them. -/
inductive Event
  | dowork (work : Work)
  | resume
  | cancel (work : Work)
  | cancelSync (work : Work)
  | cancelAll
  | test
  | suspend
  | take
  | clean
  | ack

/-- A thread that takes from the empty list calls what is not a work: there is no step. -/
def step (s : State) : Event → Option State
  | .dowork work => some (dowork s work).2
  | .resume => if 0 < s.resumes then some (threadResume s) else none
  | .cancel work => some (cancelWork s work).2
  | .cancelSync work => some (cancelWorkSync s work)
  | .cancelAll => some (cancelAllWork s)
  | .test =>
    if s.pc = .testing then
      some { s with pc := if s.workList = [] then .suspending else .taking }
    else none
  | .suspend => if s.pc = .suspending then some { s with pc := .suspended } else none
  | .take =>
    if s.pc = .taking then
      match s.workList with
      | [] => none
      | work :: rest => some { s with
          workList := rest
          workCurrent := some work
          pc := .working work
          begun := s.begun ++ [work] }
    else none
  | .clean =>
    match s.pc with
    | .working _ => some { s with workCurrent := none, pc := .acking }
    | _ => none
  | .ack =>
    if s.pc = .acking then
      some { s with
        sem := (workCompletion s.sem s.waiters).1
        waiters := (workCompletion s.sem s.waiters).2
        pc := .testing }
    else none

/-- The states that a run goes through. -/
def states (s : State) : List Event → List State
  | [] => [s]
  | e :: events =>
    match step s e with
    | none => [s]
    | some s' => s :: states s' events

/-- The steps that a run takes, each with the state it is taken in. -/
def moves (s : State) : List Event → List (State × Event)
  | [] => []
  | e :: events =>
    match step s e with
    | none => []
    | some s' => (s, e) :: moves s' events

/-- The thread is not about to take with the list empty, and with a work in the list it
does not sleep, or go to sleep, without a caller to resume it. -/
structure Safe (s : State) : Prop where
  taking : s.pc = .taking → s.workList ≠ []
  sleeping : s.pc = .suspending ∨ s.pc = .suspended → s.workList ≠ [] → 0 < s.resumes

/-- Not one of the three: a resume, the last to come, between the look at the empty list
and the suspension when the list is empty no more; a resume that comes when the works
are done and the thread sleeps again; a cancellation that empties the list when the
thread is about to take from it. -/
def Calm (s : State) : Event → Prop
  | .resume => (s.pc = .suspending → s.workList ≠ [] → 1 < s.resumes) ∧
      (s.pc = .suspended → s.workList ≠ [])
  | .cancel work | .cancelSync work => s.pc = .taking → s.workList ≠ [work]
  | .cancelAll => s.pc ≠ .taking
  | _ => True

/-- What holds in every run. -/
structure Inv (s : State) : Prop where
  nodup : s.workList.Nodup
  current : ∀ work, s.workCurrent = some work ↔ s.pc = .working work
  absent : ∀ work, s.workCurrent = some work → work ∉ s.workList
  sem : s.sem = 0
  last : ∀ work, s.workCurrent = some work → s.begun.getLast? = some work
  waiters : ∀ work ∈ s.waiters,
    s.workCurrent = some work ∨ s.pc = .acking ∧ s.begun.getLast? = some work
  once : ∀ work, s.begun.count work + s.workList.count work ≤ s.submitted.count work

theorem inv_start : Inv start := by
  refine ⟨List.nodup_nil, ?_, ?_, rfl, ?_, ?_, ?_⟩ <;> simp [start]

theorem safe_start : Safe start := by
  refine ⟨?_, ?_⟩ <;> simp [start]

theorem workCompletion_zero (waiters : List Work) : workCompletion 0 waiters = (0, []) := by
  induction waiters with
  | nil => rw [workCompletion, workCompletion]
  | cons work waiters ih => rw [workCompletion, ih]

section Steps

variable {s s' : State}

private theorem of_guard {p : Prop} [Decidable p] {t : State}
    (h : (if p then some t else none) = some s') : p ∧ t = s' := by
  obtain ⟨hp, heq⟩ := Option.ite_none_right_eq_some.mp h
  exact ⟨hp, Option.some.inj heq⟩

theorem Inv.idle (h : Inv s) (hpc : ∀ work, s.pc ≠ .working work) : s.workCurrent = none := by
  cases hcur : s.workCurrent with
  | none => rfl
  | some work => exact absurd ((h.current work).mp hcur) (hpc work)

/-- Where the list is shortened and nothing else is touched. -/
theorem Inv.sublist (h : Inv s) {works : List Work} (hsub : works.Sublist s.workList) :
    Inv { s with workList := works } := by
  refine ⟨h.nodup.sublist hsub, h.current, ?_, h.sem, h.last, h.waiters, ?_⟩
  · exact fun work hwork hmem => h.absent work hwork (hsub.subset hmem)
  · intro work
    have honce := h.once work
    have hcount := hsub.count_le work
    simp only
    omega

theorem Inv.dowork (h : Inv s) (work : Work) : Inv (dowork s work).2 := by
  unfold WorkQueue.dowork
  by_cases hbusy : s.workCurrent = some work
  · simpa only [if_pos hbusy] using h
  · have hlist : (s.workList.erase work ++ [work]).Nodup := by
      rw [List.nodup_append_comm, List.singleton_append, List.nodup_cons]
      exact ⟨h.nodup.not_mem_erase, h.nodup.erase work⟩
    have hinv : Inv { s with
        workList := s.workList.erase work ++ [work]
        submitted := s.submitted ++ [work] } := by
      refine ⟨hlist, h.current, ?_, h.sem, h.last, h.waiters, ?_⟩
      · intro w hw hmem
        rcases List.mem_append.mp hmem with hold | hnew
        · exact h.absent w hw (List.mem_of_mem_erase hold)
        · rw [List.mem_singleton.mp hnew] at hw
          exact hbusy hw
      · intro w
        have honce := h.once w
        have hcount := (List.erase_sublist (a := work) (l := s.workList)).count_le w
        simp only [List.count_append]
        omega
    simp only [if_neg hbusy]
    split
    · exact ⟨hinv.nodup, hinv.current, hinv.absent, hinv.sem, hinv.last, hinv.waiters, hinv.once⟩
    · exact hinv

theorem Inv.cancelWorkSync (h : Inv s) (work : Work) : Inv (cancelWorkSync s work) := by
  unfold WorkQueue.cancelWorkSync
  by_cases hbusy : s.workCurrent = some work
  · rw [if_pos hbusy, if_neg (by rw [h.sem]; exact Nat.lt_irrefl 0)]
    refine ⟨h.nodup, h.current, h.absent, h.sem, h.last, fun w hw => ?_, h.once⟩
    rcases List.mem_append.mp hw with hold | hnew
    · exact h.waiters w hold
    · rw [List.mem_singleton.mp hnew]
      exact Or.inl hbusy
  · rw [if_neg hbusy]
    exact h.sublist List.erase_sublist

/-- The thread moves between places where it has no work. -/
theorem Inv.move (h : Inv s) {pc : Pc} (hold : ∀ work, s.pc ≠ .working work)
    (hnew : ∀ work, pc ≠ .working work) (hack : s.pc ≠ .acking) : Inv { s with pc := pc } := by
  have hnone := h.idle hold
  refine ⟨h.nodup, ?_, h.absent, h.sem, h.last, ?_, h.once⟩
  · intro work
    refine iff_of_false ?_ (hnew work)
    simp [hnone]
  · intro work hwork
    rcases h.waiters work hwork with hsome | ⟨hpc, _⟩
    · simp [hnone] at hsome
    · exact absurd hpc hack

theorem Inv.threadResume (h : Inv s) : Inv (threadResume s) := by
  have hmoved : Inv { s with pc := if s.pc = .suspended then .taking else s.pc } := by
    by_cases hpc : s.pc = .suspended
    · rw [if_pos hpc]
      exact h.move (by simp [hpc]) (by simp) (by simp [hpc])
    · rw [if_neg hpc]
      exact h
  exact ⟨hmoved.nodup, hmoved.current, hmoved.absent, hmoved.sem, hmoved.last, hmoved.waiters,
    hmoved.once⟩

theorem Inv.take (h : Inv s) {work : Work} {rest : List Work} (hpc : s.pc = .taking)
    (hlist : s.workList = work :: rest) :
    Inv { s with
      workList := rest
      workCurrent := some work
      pc := .working work
      begun := s.begun ++ [work] } := by
  have hnodup := h.nodup
  have hnone := h.idle (by simp [hpc])
  rw [hlist, List.nodup_cons] at hnodup
  refine ⟨hnodup.2, ?_, ?_, h.sem, ?_, ?_, ?_⟩
  · intro w
    simp
  · intro w hw
    obtain rfl := Option.some.inj hw
    exact hnodup.1
  · intro w hw
    obtain rfl := Option.some.inj hw
    exact List.getLast?_concat
  · intro w hw
    -- Whoever waited for the work before has been released.
    rcases h.waiters w hw with hsome | ⟨hacking, _⟩
    · simp [hnone] at hsome
    · simp [hpc] at hacking
  · intro w
    have honce := h.once w
    rw [hlist, List.count_cons] at honce
    simp only [List.count_append, List.count_singleton]
    omega

theorem Inv.step (h : Inv s) {e : Event} (hstep : step s e = some s') : Inv s' := by
  cases e with
  | dowork work =>
    obtain rfl := Option.some.inj hstep
    exact h.dowork work
  | resume =>
    obtain ⟨_, rfl⟩ := of_guard hstep
    exact h.threadResume
  | cancel work =>
    obtain rfl := Option.some.inj hstep
    unfold cancelWork
    split
    · exact h
    · exact h.sublist List.erase_sublist
  | cancelSync work =>
    obtain rfl := Option.some.inj hstep
    exact h.cancelWorkSync work
  | cancelAll =>
    obtain rfl := Option.some.inj hstep
    exact h.sublist (List.nil_sublist _)
  | test =>
    obtain ⟨hpc, rfl⟩ := of_guard hstep
    refine h.move (by simp [hpc]) ?_ (by simp [hpc])
    split <;> simp
  | suspend =>
    obtain ⟨hpc, rfl⟩ := of_guard hstep
    exact h.move (by simp [hpc]) (by simp) (by simp [hpc])
  | take =>
    obtain ⟨hpc, htaken⟩ := Option.ite_none_right_eq_some.mp hstep
    cases hlist : s.workList with
    | nil =>
      rw [hlist] at htaken
      cases htaken
    | cons work rest =>
      rw [hlist] at htaken
      obtain rfl := Option.some.inj htaken
      exact h.take hpc hlist
  | clean =>
    cases hpc : s.pc with
    | working work =>
      simp only [WorkQueue.step, hpc, Option.some.injEq] at hstep
      subst hstep
      refine ⟨h.nodup, by simp, by simp, h.sem, by simp, fun w hw => Or.inr ⟨rfl, ?_⟩, h.once⟩
      rcases h.waiters w hw with hcurrent | ⟨_, hlast⟩
      · exact h.last w hcurrent
      · exact hlast
    | _ => simp [WorkQueue.step, hpc] at hstep
  | ack =>
    obtain ⟨hpc, rfl⟩ := of_guard hstep
    have hnone := h.idle (by simp [hpc])
    rw [h.sem, workCompletion_zero]
    refine ⟨h.nodup, ?_, h.absent, rfl, h.last, fun w hw => absurd hw List.not_mem_nil, h.once⟩
    simp [hnone]

/-- The cancellation of a work leaves the thread something to take, unless it was the
last. -/
theorem Safe.erase_iff (h : Safe s) {work : Work} :
    Safe { s with workList := s.workList.erase work } ↔
      (s.pc = .taking → s.workList ≠ [work]) := by
  constructor
  · intro hsafe hpc hlast
    have hleft := hsafe.taking hpc
    simp [hlast] at hleft
  · intro hcalm
    refine ⟨fun hpc hnil => ?_, fun hpc hleft => ?_⟩
    · rcases List.erase_eq_nil_iff.mp hnil with hempty | hlast
      · exact h.taking hpc hempty
      · exact hcalm hpc hlast
    · refine h.sleeping hpc fun hempty => hleft ?_
      simp [hempty]

theorem Safe.resume_iff (h : Safe s) :
    Safe (threadResume s) ↔ (s.pc = .suspending → s.workList ≠ [] → 1 < s.resumes) ∧
      (s.pc = .suspended → s.workList ≠ []) := by
  unfold threadResume
  by_cases hpc : s.pc = .suspended
  · rw [if_pos hpc]
    constructor
    · exact fun hsafe => ⟨fun hother => by simp [hpc] at hother, fun _ => hsafe.taking rfl⟩
    · exact fun hcalm => ⟨fun _ => hcalm.2 hpc, by simp⟩
  · rw [if_neg hpc]
    constructor
    · intro hsafe
      refine ⟨fun hother hwork => ?_, fun hsleeps => absurd hsleeps hpc⟩
      have hmore : 0 < s.resumes - 1 := hsafe.sleeping (Or.inl hother) hwork
      omega
    · intro hcalm
      refine ⟨h.taking, fun hplace hwork => ?_⟩
      have hother : s.pc = .suspending := hplace.resolve_right hpc
      have hmore := hcalm.1 hother hwork
      simp only
      omega

/-- One step from a state that is right leads to one that is wrong exactly by the
three. -/
theorem Safe.step_iff (h : Safe s) (hinv : Inv s) {e : Event} (hstep : step s e = some s') :
    Safe s' ↔ Calm s e := by
  cases e with
  | dowork work =>
    obtain rfl := Option.some.inj hstep
    refine iff_of_true ?_ trivial
    unfold WorkQueue.dowork
    by_cases hbusy : s.workCurrent = some work
    · simpa only [if_pos hbusy] using h
    · simp only [if_neg hbusy]
      split
      · exact ⟨fun _ => by simp, fun _ _ => Nat.succ_pos _⟩
      · rename_i hsome
        refine ⟨fun _ => by simp, fun hpc _ => absurd (hinv.idle fun w hw => ?_) hsome⟩
        have hplace : s.pc = .suspending ∨ s.pc = .suspended := hpc
        simp [hw] at hplace
  | resume =>
    obtain ⟨hpos, rfl⟩ := of_guard hstep
    exact h.resume_iff
  | cancel work =>
    obtain rfl := Option.some.inj hstep
    unfold cancelWork
    by_cases hbusy : s.workCurrent = some work
    · rw [if_pos hbusy]
      have hpc := (hinv.current work).mp hbusy
      exact iff_of_true h fun htaking => by simp [hpc] at htaking
    · rw [if_neg hbusy]
      exact h.erase_iff
  | cancelSync work =>
    obtain rfl := Option.some.inj hstep
    unfold WorkQueue.cancelWorkSync
    by_cases hbusy : s.workCurrent = some work
    · have hpc := (hinv.current work).mp hbusy
      rw [if_pos hbusy, if_neg (by rw [hinv.sem]; exact Nat.lt_irrefl 0)]
      exact iff_of_true ⟨h.taking, h.sleeping⟩ fun htaking => by simp [hpc] at htaking
    · rw [if_neg hbusy]
      exact h.erase_iff
  | cancelAll =>
    obtain rfl := Option.some.inj hstep
    exact ⟨fun hsafe hpc => hsafe.taking hpc rfl,
      fun hcalm => ⟨fun hpc => absurd hpc hcalm, fun _ hleft => absurd rfl hleft⟩⟩
  | test =>
    obtain ⟨hpc, rfl⟩ := of_guard hstep
    refine iff_of_true ?_ trivial
    by_cases hempty : s.workList = []
    · exact ⟨by simp [hempty], fun _ hleft => absurd hempty hleft⟩
    · exact ⟨fun _ => hempty, by simp [hempty]⟩
  | suspend =>
    obtain ⟨hpc, rfl⟩ := of_guard hstep
    exact iff_of_true ⟨nofun, fun _ => h.sleeping (Or.inl hpc)⟩ trivial
  | take =>
    obtain ⟨hpc, htaken⟩ := Option.ite_none_right_eq_some.mp hstep
    cases hlist : s.workList with
    | nil =>
      rw [hlist] at htaken
      cases htaken
    | cons work rest =>
      rw [hlist] at htaken
      obtain rfl := Option.some.inj htaken
      exact iff_of_true ⟨nofun, by simp⟩ trivial
  | clean =>
    cases hpc : s.pc with
    | working work =>
      simp only [WorkQueue.step, hpc, Option.some.injEq] at hstep
      subst hstep
      exact iff_of_true ⟨nofun, by simp⟩ trivial
    | _ => simp [WorkQueue.step, hpc] at hstep
  | ack =>
    obtain ⟨hpc, rfl⟩ := of_guard hstep
    exact iff_of_true ⟨nofun, by simp⟩ trivial

theorem self_mem_states (s : State) (events : List Event) : s ∈ states s events := by
  cases events with
  | nil => exact List.mem_singleton_self s
  | cons e events =>
    rw [WorkQueue.states]
    split
    · exact List.mem_singleton_self s
    · exact List.mem_cons_self

theorem Inv.states (h : Inv s) (events : List Event) : ∀ t ∈ states s events, Inv t := by
  induction events generalizing s with
  | nil =>
    intro t ht
    rw [List.mem_singleton.mp ht]
    exact h
  | cons e events ih =>
    intro t ht
    cases hstep : WorkQueue.step s e with
    | none =>
      rw [WorkQueue.states, hstep] at ht
      rw [List.mem_singleton.mp ht]
      exact h
    | some s' =>
      rw [WorkQueue.states, hstep] at ht
      rcases List.mem_cons.mp ht with rfl | hlater
      · exact h
      · exact ih (h.step hstep) t hlater

theorem Safe.run_iff (h : Safe s) (hinv : Inv s) (events : List Event) :
    (∀ t ∈ WorkQueue.states s events, Safe t) ↔ ∀ m ∈ moves s events, Calm m.1 m.2 := by
  induction events generalizing s with
  | nil => simp [WorkQueue.states, moves, h]
  | cons e events ih =>
    cases hstep : WorkQueue.step s e with
    | none =>
      rw [WorkQueue.states, moves, hstep]
      simp [h]
    | some s' =>
      rw [WorkQueue.states, moves, hstep]
      simp only [List.forall_mem_cons, h, true_and]
      rw [← h.step_iff hinv hstep]
      constructor
      · intro hall
        have hsafe := hall s' (self_mem_states s' events)
        exact ⟨hsafe, (ih hsafe (hinv.step hstep)).mp hall⟩
      · intro hall
        exact (ih hall.1 (hinv.step hstep)).mpr hall.2

end Steps

/-- In any order of the steps of the thread and its callers: no work is in the list
twice, or while it is being done; it is begun no more often than it was submitted; and
whoever waits came for the work being done, or for the last one, just before its
completion is told. -/
theorem works_once (events : List Event) : ∀ s ∈ states start events, Inv s :=
  inv_start.states events

theorem works_once_taken : Inv ⟨[2], some 1, 0, [1], 1, .working 1, [1, 2], [1]⟩ :=
  works_once [.test, .dowork 1, .dowork 2, .suspend, .resume, .take, .cancelSync 1] _ (by decide)

/-- A run is right in every state exactly if none of its steps is one of the three. -/
theorem right_iff_calm (events : List Event) :
    (∀ s ∈ states start events, Safe s) ↔ ∀ m ∈ moves start events, Calm m.1 m.2 :=
  safe_start.run_iff inv_start events

/-- A caller between the look and the suspension, and the work stays in the list. -/
example : (states start [.test, .dowork 1, .resume, .suspend]).getLast?.map
    (fun s => (s.pc, s.workList, s.resumes)) = some (.suspended, [1], 0) := by decide

end GemhoNbiot.WorkQueue
