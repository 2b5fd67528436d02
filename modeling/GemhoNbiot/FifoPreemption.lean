import GemhoNbiot.FifoCalls

/-!
The three threads that share the message FIFO, under strict priority
preemption. key_entry (priority 1) and main_entry (priority 2) call msg_push,
thread_msgSend (priority 3) calls msg_pop; a thread moves only while every
thread of higher priority has no call in progress. The invariant counts the
entries of the rings and the units held by calls, which the wrap of the
counters does not disturb. A push is refused only when the calls it has
preempted hold every unit.
-/
namespace GemhoNbiot.FifoPreemption

open Dataqueue MsgFifo RtDataQueue FifoUnits FifoCreation FifoCalls

inductive Thread
  | key
  | main
  | send
deriving DecidableEq

/-- The priorities of rt_thread_create; the lower number runs first. -/
def Thread.priority : Thread → ℕ
  | .key => 1
  | .main => 2
  | .send => 3

/-- The calls a thread makes: key_entry and main_entry push, thread_msgSend pops. -/
def Role : Thread → CallState → Prop
  | .send, .pushPop _ => False
  | .send, .pushSteal _ => False
  | .send, .pushCopy _ _ => False
  | .send, .pushSize _ _ => False
  | .send, .pushPush _ => False
  | .send, _ => True
  | _, .popPop _ => False
  | _, .popCopy _ => False
  | _, .popOut _ _ => False
  | _, .popClear _ _ => False
  | _, .popPush _ _ => False
  | _, _ => True

/-- Every thread of higher priority is outside its FIFO calls. -/
def MayRun (s : Sys Thread) (t : Thread) : Prop :=
  ∀ t', t'.priority < t.priority → s.calls t' = .idle

/-- The states the three threads can reach on the handle `f`. -/
inductive Preempted (f : Fifo) : Sys Thread → Prop
  | start : Preempted f (Sys.start f)
  | step {s s' : Sys Thread} {t : Thread} {label : Option QueueId} :
      Preempted f s → MayRun s t → Step s t label s' → Role t (s'.calls t) → Preempted f s'

/-- One if the call holds a unit. -/
def hold (k : CallState) : ℕ := if k.unit.isSome then 1 else 0

def held (s : Sys Thread) : ℕ :=
  hold (s.calls .key) + hold (s.calls .main) + hold (s.calls .send)

/-- Units held by the threads that `t` can preempt. -/
def heldBelow (s : Sys Thread) : Thread → ℕ
  | .key => hold (s.calls .main) + hold (s.calls .send)
  | .main => hold (s.calls .send)
  | .send => 0

/-- Number of threads that `t` can preempt. -/
def below : Thread → ℕ
  | .key => 2
  | .main => 1
  | .send => 0

theorem hold_le_one (k : CallState) : hold k ≤ 1 := by
  unfold hold
  split <;> omega

theorem heldBelow_le (s : Sys Thread) (t : Thread) : heldBelow s t ≤ below t := by
  have hmain := hold_le_one (s.calls .main)
  have hsend := hold_le_one (s.calls .send)
  cases t <;> simp only [heldBelow, below] <;> omega

theorem held_set (s : Sys Thread) (t : Thread) (f : Fifo) (k : CallState) :
    held (s.set t f k) + hold (s.calls t) = held s + hold k := by
  cases t <;> simp [held, Sys.set] <;> omega

theorem hold_le_held (s : Sys Thread) (t : Thread) : hold (s.calls t) ≤ held s := by
  cases t <;> simp only [held] <;> omega

/-- While `t` may run, the units outside it are held below it. -/
theorem held_eq_of_mayRun {s : Sys Thread} {t : Thread} (h : MayRun s t) :
    held s = hold (s.calls t) + heldBelow s t := by
  have hidle : hold .idle = 0 := rfl
  cases t with
  | key => simp only [held, heldBelow]; omega
  | main =>
    have hkey : s.calls .key = .idle := h .key (by decide)
    simp only [held, heldBelow, hkey, hidle]
    omega
  | send =>
    have hkey : s.calls .key = .idle := h .key (by decide)
    have hmain : s.calls .main = .idle := h .main (by decide)
    simp only [held, heldBelow, hkey, hmain, hidle]
    omega

/-- The invariant: `free` and `queued` count the entries of the rings. -/
structure PreInv (fifoSize : UInt16) (s : Sys Thread) (free queued : ℕ) : Prop where
  counted : Counted s.fifo free queued
  fifoSize_eq : s.fifo.handle.fifoSize = fifoSize
  sum : free + queued + held s = fifoSize.toNat
  role : ∀ t, Role t (s.calls t)
  noFree : ∀ t d, s.calls t = .pushSteal d → free = 0
  result : ∀ t ret out, t ≠ .send → s.calls t = .done ret out →
    ret = 0 ∨ (ret = -4 ∧ fifoSize.toNat ≤ below t)

theorem PreInv.start {f : Fifo} {msgSize fifoSize : UInt16} {units : List ℕ}
    (h : Fresh f msgSize fifoSize units) :
    PreInv fifoSize (Sys.start f) fifoSize.toNat 0 where
  counted := Counted.start h
  fifoSize_eq := h.fifoSize_eq
  sum := by simp [held, hold, Sys.start, CallState.unit]
  role := by intro t; cases t <;> trivial
  noFree := by intro t d h; simp [Sys.start] at h
  result := by intro t ret out _ h; simp [Sys.start] at h

section Steps

variable {fifoSize : UInt16} {s : Sys Thread} {free queued : ℕ} {t : Thread}

/-- A step of `t` to the state `k` keeps the invariant when its own new entries
are right and it does not add to push_queue behind a waiting second pop. -/
theorem PreInv.set (h : PreInv fifoSize s free queued) {f : Fifo} {k : CallState}
    {free' queued' : ℕ} (hrole : Role t k) (hcounted : Counted f free' queued')
    (hsize : f.handle.fifoSize = fifoSize)
    (hsum : free' + queued' + hold k = free + queued + hold (s.calls t))
    (hother : ∀ t' d, t' ≠ t → s.calls t' = .pushSteal d → free' = 0)
    (hself : ∀ d, k = .pushSteal d → free' = 0)
    (hres : ∀ ret out, t ≠ .send → k = .done ret out →
      ret = 0 ∨ (ret = -4 ∧ fifoSize.toNat ≤ below t)) :
    PreInv fifoSize (s.set t f k) free' queued' where
  counted := hcounted
  fifoSize_eq := hsize
  sum := by
    have hheld := held_set s t f k
    have hle := hold_le_held s t
    have hold := h.sum
    omega
  role := by
    intro t'
    by_cases ht : t' = t
    · subst t'
      simpa [Sys.set] using hrole
    · simpa [Sys.set, Function.update_of_ne ht] using h.role t'
  noFree := by
    intro t' d hd
    by_cases ht : t' = t
    · subst t'
      exact hself d (by simpa [Sys.set] using hd)
    · exact hother t' d ht (by simpa [Sys.set, Function.update_of_ne ht] using hd)
  result := by
    intro t' ret out hsend hd
    by_cases ht : t' = t
    · subst t'
      exact hres ret out hsend (by simpa [Sys.set] using hd)
    · exact h.result t' ret out hsend (by simpa [Sys.set, Function.update_of_ne ht] using hd)

/-- A step that leaves the rings alone. -/
theorem PreInv.keep (h : PreInv fifoSize s free queued) {f : Fifo} {k : CallState}
    (hrole : Role t k) (hcounted : Counted f free queued)
    (hsize : f.handle.fifoSize = fifoSize) (hhold : hold k = hold (s.calls t))
    (hself : ∀ d, k = .pushSteal d → free = 0)
    (hres : ∀ ret out, t ≠ .send → k = .done ret out →
      ret = 0 ∨ (ret = -4 ∧ fifoSize.toNat ≤ below t)) :
    PreInv fifoSize (s.set t f k) free queued :=
  h.set hrole hcounted hsize (by omega) (fun t' d _ hd => h.noFree t' d hd) hself hres

/-- A step that leaves the rings alone and neither turns to the second pop nor ends. -/
theorem PreInv.between (h : PreInv fifoSize s free queued) {f : Fifo} {k : CallState}
    (hrole : Role t k) (hcounted : Counted f free queued)
    (hsize : f.handle.fifoSize = fifoSize) (hhold : hold k = hold (s.calls t))
    (hsteal : ∀ d, k ≠ .pushSteal d) (hdone : ∀ ret out, k ≠ .done ret out) :
    PreInv fifoSize (s.set t f k) free queued :=
  h.keep hrole hcounted hsize hhold (fun d hd => absurd hd (hsteal d))
    fun ret out _ hd => absurd hd (hdone ret out)

/-- A step that takes the oldest queued unit. -/
theorem PreInv.takeQueued (h : PreInv fifoSize s free queued) {k : CallState} (hrole : Role t k)
    (hpos : 0 < queued) (hhold : hold k = hold (s.calls t) + 1)
    (hsteal : ∀ d, k ≠ .pushSteal d) (hdone : ∀ ret out, k ≠ .done ret out) :
    ∃ free' queued', PreInv fifoSize (s.set t s.fifo.takeOldest k) free' queued' := by
  obtain ⟨queued, rfl⟩ : ∃ n, queued = n + 1 := ⟨queued - 1, by omega⟩
  refine ⟨free, queued, h.set hrole h.counted.takeOldest h.fifoSize_eq (by omega) ?_ ?_ ?_⟩
  · exact fun t' d' _ hd => h.noFree t' d' hd
  · exact fun d' hd => absurd hd (hsteal d')
  · exact fun ret out _ hd => absurd hd (hdone ret out)

/-- When the second pop of msg_push finds nothing, the calls that `t` has
preempted hold all the units. -/
theorem PreInv.refused (h : PreInv fifoSize s free queued) (hmay : MayRun s t) {d : Message}
    (hd : s.calls t = .pushSteal d) (hqueued : queued = 0) :
    heldBelow s t = fifoSize.toNat := by
  have hfree := h.noFree t d hd
  have hsum := h.sum
  have hheld := held_eq_of_mayRun hmay
  have hzero : hold (s.calls t) = 0 := by rw [hd]; rfl
  omega

theorem PreInv.run (h : PreInv fifoSize s free queued) (hmay : MayRun s t) {f : Fifo}
    {k : CallState} (hstep : callStep s.fifo (s.calls t) = some (f, k)) (hrole : Role t k) :
    ∃ free' queued', PreInv fifoSize (s.set t f k) free' queued' := by
  have hroom : ∀ u, (s.calls t).unit = some u → free < s.fifo.handle.fifoSize.toNat ∧
      queued < s.fifo.handle.fifoSize.toNat := by
    intro u hu
    have hone : hold (s.calls t) = 1 := by simp [hold, hu]
    have hle := hold_le_held s t
    have hsum := h.sum
    rw [h.fifoSize_eq]
    omega
  have hsend : ∀ out u, s.calls t = .popPush out u → t = .send := by
    intro out u hc
    have hr := h.role t
    rw [hc] at hr
    cases t <;> simp_all [Role]
  have hrefused := @PreInv.refused fifoSize s free queued t h hmay
  have heffect := callStep_effect h.counted hroom hstep
  generalize hc : s.calls t = k₀ at heffect hroom hsend hrefused
  cases heffect with
  | takeFree d u hpos hu =>
    obtain ⟨free, rfl⟩ : ∃ n, free = n + 1 := ⟨free - 1, by omega⟩
    refine ⟨free, queued, h.set hrole h.counted.takeFree h.fifoSize_eq ?_ ?_ ?_ ?_⟩
    · rw [hc]; simp [hold, CallState.unit]; omega
    · intro t' d' _ hd
      have hzero := h.noFree t' d' hd
      omega
    · intro d' hd; simp at hd
    · intro ret out _ hd; simp at hd
  | noFree d hzero =>
    exact ⟨free, queued, h.keep hrole h.counted h.fifoSize_eq (by rw [hc]; rfl)
      (fun _ _ => hzero) (by intro ret out _ hd; simp at hd)⟩
  | takeOldest d u hpos hu =>
    exact h.takeQueued hrole hpos (by rw [hc]; rfl) (by simp) (by simp)
  | refuse d hzero =>
    refine ⟨free, queued, h.keep hrole h.counted h.fifoSize_eq (by rw [hc]; rfl) ?_ ?_⟩
    · intro d' hd; simp at hd
    · intro ret out _ hd
      simp only [CallState.done.injEq] at hd
      have hall := hrefused rfl hzero
      have hle := heldBelow_le s t
      exact Or.inr ⟨hd.1.symm, by omega⟩
  | copyIn d u =>
    exact ⟨free, queued, h.between hrole (h.counted.withMem _) h.fifoSize_eq (by rw [hc]; rfl)
      (by simp) (by simp)⟩
  | setSize size u =>
    exact ⟨free, queued, h.between hrole (h.counted.withMem _) h.fifoSize_eq (by rw [hc]; rfl)
      (by simp) (by simp)⟩
  | giveQueued u =>
    refine ⟨free, queued + 1, h.set hrole (h.counted.giveQueued (hroom u rfl).2 u)
      h.fifoSize_eq ?_ (fun t' d' _ hd => h.noFree t' d' hd) ?_ ?_⟩
    · rw [hc]; simp [hold, CallState.unit]; omega
    · intro d' hd; simp at hd
    · intro ret out _ hd
      simp only [CallState.done.injEq] at hd
      exact Or.inl hd.1.symm
  | deliver timeout u hpos hu =>
    exact h.takeQueued hrole hpos (by rw [hc]; rfl) (by simp) (by simp)
  | expireNow hzero =>
    have hr := h.role t
    rw [hc] at hr
    refine ⟨free, queued, h.keep hrole h.counted h.fifoSize_eq (by rw [hc]; rfl)
      (by intro d' hd; simp at hd) ?_⟩
    intro ret out hne _
    cases t <;> simp_all [Role]
  | copyOut u =>
    exact ⟨free, queued, h.between hrole h.counted h.fifoSize_eq (by rw [hc]; rfl)
      (by simp) (by simp)⟩
  | outSize bytes u =>
    exact ⟨free, queued, h.between hrole h.counted h.fifoSize_eq (by rw [hc]; rfl)
      (by simp) (by simp)⟩
  | clear out u =>
    exact ⟨free, queued, h.between hrole (h.counted.withMem _) h.fifoSize_eq (by rw [hc]; rfl)
      (by simp) (by simp)⟩
  | giveFree out u =>
    -- Only thread_msgSend adds to push_queue, and it runs only while no push is under way.
    have ht : t = .send := hsend out u rfl
    subst ht
    refine ⟨free + 1, queued, h.set hrole (h.counted.giveFree (hroom u rfl).1 u)
      h.fifoSize_eq ?_ ?_ ?_ ?_⟩
    · rw [hc]; simp [hold, CallState.unit]; omega
    · intro t' d' hne hd
      have hidle := hmay t' (by cases t' <;> simp_all [Thread.priority])
      rw [hidle] at hd
      simp at hd
    · intro d' hd; simp at hd
    · intro ret out' hne _
      exact absurd rfl hne

theorem PreInv.step (h : PreInv fifoSize s free queued) (hmay : MayRun s t)
    {s' : Sys Thread} {label : Option QueueId} (hstep : Step s t label s')
    (hrole : Role t (s'.calls t)) :
    ∃ free' queued', PreInv fifoSize s' free' queued' := by
  cases hstep with
  | startPush d hc =>
    exact ⟨free, queued, h.between (by simpa [Sys.set] using hrole) h.counted h.fifoSize_eq
      (by rw [hc]; rfl) (by simp) (by simp)⟩
  | startPop timeout hc =>
    exact ⟨free, queued, h.between (by simpa [Sys.set] using hrole) h.counted h.fifoSize_eq
      (by rw [hc]; rfl) (by simp) (by simp)⟩
  | run hcall => exact h.run hmay hcall (by simpa [Sys.set] using hrole)
  | expire timeout hc _ _ =>
    have hr := h.role t
    rw [hc] at hr
    refine ⟨free, queued, h.keep (by simpa [Sys.set] using hrole) h.counted h.fifoSize_eq
      (by rw [hc]; rfl) (by intro d' hd; simp at hd) ?_⟩
    intro ret out hne _
    cases t <;> simp_all [Role]
  | finish ret out hc =>
    exact ⟨free, queued, h.between (by simpa [Sys.set] using hrole) h.counted h.fifoSize_eq
      (by rw [hc]; rfl) (by simp) (by simp)⟩

end Steps

theorem PreInv.reach {f : Fifo} {msgSize fifoSize : UInt16} {units : List ℕ}
    (h : Fresh f msgSize fifoSize units) {s : Sys Thread} (hs : Preempted f s) :
    ∃ free queued, PreInv fifoSize s free queued := by
  induction hs with
  | start => exact ⟨_, _, PreInv.start h⟩
  | step _ hmay hstep hrole ih =>
    obtain ⟨free, queued, hinv⟩ := ih
    exact hinv.step hmay hstep hrole

/-- A finished msg_push returned 0 if the FIFO has three units, or two and the
caller is main_entry; in any case it returned 0 or -4. The push into pop_queue
finds room, and the second pop comes up empty only while the preempted calls
hold every unit. -/
theorem msgPush_refused_only_when_held (msgSize fifoSize : UInt16)
    (hsize : 1 ≤ fifoSize.toNat) (f : Fifo) (hf : Created f msgSize fifoSize)
    (s : Sys Thread) (hs : Preempted f s) (t : Thread) (ht : t ≠ .send) :
    (∀ ret out, s.calls t = .done ret out →
      (3 ≤ fifoSize.toNat ∨ (fifoSize.toNat = 2 ∧ t = .main) → ret = 0) ∧
      (ret = 0 ∨ ret = -4)) ∧
    (∀ mu, s.calls t = .pushPush mu →
      (rtDataQueuePushNow s.fifo.handle.popQueue mu sizeofMsgUint).1 = RT_EOK) ∧
    (∀ d f', MayRun s t → s.calls t = .pushSteal d →
      callStep s.fifo (s.calls t) = some (f', .done (-4) none) →
      heldBelow s t = fifoSize.toNat) := by
  obtain ⟨units, hfresh⟩ := created_fresh hf hsize
  obtain ⟨free, queued, hinv⟩ := PreInv.reach hfresh hs
  refine ⟨?_, ?_, ?_⟩
  · intro ret out hdone
    have hres := hinv.result t ret out ht hdone
    constructor
    · intro hbig
      rcases hres with hzero | ⟨_, hle⟩
      · exact hzero
      · rcases hbig with h3 | ⟨h2, rfl⟩
        · have htwo : below t ≤ 2 := by cases t <;> decide
          omega
        · simp only [below] at hle
          omega
    · exact hres.imp_right fun h => h.1
  · intro mu hpush
    have hone : hold (s.calls t) = 1 := by rw [hpush]; rfl
    have hle := hold_le_held s t
    have hsum := hinv.sum
    have hroom : queued < s.fifo.handle.popQueue.size.toNat := by
      rw [hinv.counted.popSize, hinv.fifoSize_eq]
      omega
    rw [rtDataQueuePushNow_eq hinv.counted.popSized hroom]
  · intro d f' hmay hsteal hstep
    have heffect := callStep_effect hinv.counted
      (by rw [hsteal]; intro u hu; simp [CallState.unit] at hu)
      hstep
    rw [hsteal] at heffect
    cases heffect with
    | refuse _ hzero => exact hinv.refused hmay hsteal hzero

/-- A thread keeps to its kind of call. -/
theorem role_callStep {t : Thread} {f f' : Fifo} {k k' : CallState}
    (h : callStep f k = some (f', k')) (hrole : Role t k) : Role t k' := by
  cases k with
  | idle => simp [callStep] at h
  | done ret out => simp [callStep] at h
  | pushPop d =>
    simp only [callStep] at h
    repeat' split at h
    all_goals
      obtain ⟨-, rfl⟩ := by simpa using h
      cases t <;> trivial
  | pushSteal d =>
    simp only [callStep] at h
    repeat' split at h
    all_goals
      obtain ⟨-, rfl⟩ := by simpa using h
      cases t <;> trivial
  | popPop timeout =>
    simp only [callStep] at h
    repeat' split at h
    all_goals first
      | simp at h; done
      | obtain ⟨-, rfl⟩ := by simpa using h
        cases t <;> trivial
  | _ =>
    simp only [callStep, Option.some.injEq, Prod.mk.injEq] at h
    obtain ⟨-, rfl⟩ := h
    cases t <;> trivial

section Alone

variable {f : Fifo} {t : Thread} {s : Sys Thread}

theorem MayRun.set (hmay : MayRun s t) (f' : Fifo) (k : CallState) :
    MayRun (s.set t f' k) t := by
  intro t' hlt
  have hne : t' ≠ t := by rintro rfl; omega
  simpa [Sys.set, Function.update_of_ne hne] using hmay t' hlt

/-- A thread that may run can take any number of steps of its call at a stretch. -/
theorem Preempted.alone (n : ℕ) (h : Preempted f s) (hmay : MayRun s t)
    (hrole : Role t (s.calls t)) :
    Preempted f (s.set t (runAlone n (s.fifo, s.calls t)).1
      (runAlone n (s.fifo, s.calls t)).2) := by
  induction n generalizing s with
  | zero => simpa [runAlone, Sys.set] using h
  | succ n ih =>
    cases hstep : callStep s.fifo (s.calls t) with
    | none => simpa [runAlone, hstep, Sys.set] using h
    | some next =>
      obtain ⟨f', k⟩ := next
      have hrole' : Role t k := role_callStep hstep hrole
      have hnext : Preempted f (s.set t f' k) :=
        h.step hmay (.run hstep) (by simpa [Sys.set] using hrole')
      have hrun := ih hnext (hmay.set f' k) (by simpa [Sys.set] using hrole')
      simpa [runAlone, hstep, Sys.set] using hrun

/-- The first `n` steps of a msg_push that nobody preempts. -/
theorem Preempted.push (n : ℕ) (d : Message) (h : Preempted f s) (hmay : MayRun s t)
    (hidle : s.calls t = .idle) (hrole : Role t (.pushPop d)) :
    Preempted f (s.set t (runAlone n (s.fifo, .pushPop d)).1
      (runAlone n (s.fifo, .pushPop d)).2) := by
  have hstart : Preempted f (s.set t s.fifo (.pushPop d)) :=
    h.step hmay (.startPush d hidle) (by simpa [Sys.set] using hrole)
  simpa [Sys.set] using hstart.alone n (hmay.set _ _) (by simpa [Sys.set] using hrole)

/-- The first `n` steps of a msg_pop that nobody preempts. -/
theorem Preempted.pop (n : ℕ) (timeout : ℤ) (h : Preempted f s) (hmay : MayRun s .send)
    (hidle : s.calls .send = .idle) :
    Preempted f (s.set .send (runAlone n (s.fifo, .popPop timeout)).1
      (runAlone n (s.fifo, .popPop timeout)).2) := by
  have hstart : Preempted f (s.set .send s.fifo (.popPop timeout)) :=
    h.step hmay (.startPop timeout hidle) (by simp [Sys.set, Role])
  simpa [Sys.set] using hstart.alone n (hmay.set _ _) (by simp [Sys.set, Role])

end Alone

/-- On a handle with three units main_entry preempts thread_msgSend, which holds the
unit of its msg_pop between the two queue calls, and its message finds another one. -/
theorem msgPush_refused_only_when_held_three :
    ∃ s, Preempted (blankFifo 3) s ∧ (s.calls .send).unit.isSome = true ∧
      s.calls .main = .done 0 none ∧ ∀ ret out, s.calls .main = .done ret out → ret = 0 := by
  have hpush := Preempted.start.push (f := blankFifo 3) (t := .main) 5 (byteMessage 1)
    (fun _ _ => rfl) rfl trivial
  have hidle := hpush.step (t := .main) (fun t' _ => by cases t' <;> first | rfl | contradiction)
    (.finish 0 none rfl) trivial
  have hpop := hidle.pop 2 (-1) (fun t' _ => by cases t' <;> rfl) rfl
  have hdone := hpop.push (t := .main) 5 (byteMessage 2)
    (fun t' _ => by cases t' <;> first | rfl | contradiction) rfl trivial
  refine ⟨_, hdone, rfl, rfl, fun ret out hret => ?_⟩
  exact ((msgPush_refused_only_when_held 490 3 (by decide) _ ⟨_, _, _, rfl⟩ _ hdone .main
    (by decide)).1 ret out hret).1 (Or.inl (by decide))

/-- With one unit, main_entry preempts thread_msgSend between the two queue
calls of its msg_pop; the message of main_entry is refused. -/
theorem msgPush_refused_with_one_unit :
    ∃ f s, Created f 490 1 ∧ Preempted f s ∧ s.calls .main = .done (-4) none := by
  have hpush := Preempted.start.push (f := blankFifo 1) (t := .main) 5 (byteMessage 1)
    (fun _ _ => rfl) rfl trivial
  have hidle := hpush.step (t := .main) (fun t' _ => by cases t' <;> first | rfl | contradiction)
    (.finish 0 none rfl) trivial
  have hpop := hidle.pop 1 (-1) (fun t' _ => by cases t' <;> rfl) rfl
  have hagain := hpop.push (t := .main) 2 (byteMessage 2)
    (fun t' _ => by cases t' <;> first | rfl | contradiction) rfl trivial
  exact ⟨_, _, ⟨_, _, _, rfl⟩, hagain, rfl⟩

end GemhoNbiot.FifoPreemption
