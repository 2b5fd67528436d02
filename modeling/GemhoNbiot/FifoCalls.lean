import GemhoNbiot.FifoCreation

/-!
msg_push and msg_pop as sequences of atomic steps. Each rt_data_queue_push and
rt_data_queue_pop is one step, each memcpy and each msgSize store another. Any
number of calls share the handle; a system step moves one of them. A call of
msg_pop that waits has no step of its own until pop_queue has an entry or its
timeout expires. Running one call alone gives msgPush and msgPop.
-/
namespace GemhoNbiot.FifoCalls

open Dataqueue MsgFifo RtDataQueue FifoUnits

/-- Program counter and local variables of one call. -/
inductive CallState
  | idle
  | pushPop (d : Message)
  | pushSteal (d : Message)
  | pushCopy (d : Message) (mu : ℕ)
  | pushSize (size : UInt16) (mu : ℕ)
  | pushPush (mu : ℕ)
  | popPop (timeout : ℤ)
  | popCopy (mu : ℕ)
  | popOut (bytes : List UInt8) (mu : ℕ)
  | popClear (out : Delivered) (mu : ℕ)
  | popPush (out : Delivered) (mu : ℕ)
  | done (ret : ℤ) (out : Option Delivered)

namespace CallState

/-- The unit a call holds between its pop and its push. -/
def unit : CallState → Option ℕ
  | pushCopy _ mu => some mu
  | pushSize _ mu => some mu
  | pushPush mu => some mu
  | popCopy mu => some mu
  | popOut _ mu => some mu
  | popClear _ mu => some mu
  | popPush _ mu => some mu
  | _ => none

end CallState

inductive QueueId
  | pushQueue
  | popQueue
deriving DecidableEq

/-- The queue the next step of the call pushes onto. -/
def CallState.target : CallState → Option QueueId
  | .pushPush _ => some .popQueue
  | .popPush _ _ => some .pushQueue
  | _ => none

/-- The next step of a call, if it has one. -/
def callStep (f : Fifo) : CallState → Option (Fifo × CallState)
  | .idle => none
  | .pushPop d =>
    let popped := rtDataQueuePopNow f.handle.pushQueue
    if popped.ret = RT_EOK then
      let f := { f with handle := { f.handle with pushQueue := popped.queue } }
      match popped.dataPtr with
      | none => some (f, .done (-2) none)
      | some mu => some (f, .pushCopy d mu)
    else
      some (f, .pushSteal d)
  | .pushSteal d =>
    let popped := rtDataQueuePopNow f.handle.popQueue
    if popped.ret = RT_EOK then
      let f := { f with handle := { f.handle with popQueue := popped.queue } }
      match popped.dataPtr with
      | none => some (f, .done (-3) none)
      | some mu => some (f, .pushCopy d mu)
    else
      some (f, .done (-4) none)
  | .pushCopy d mu =>
    let bs := clamp f.handle.msgSize d
    some ({ f with mem := f.mem.copyIn mu bs }, .pushSize (UInt16.ofNat bs.length) mu)
  | .pushSize size mu => some ({ f with mem := f.mem.setMsgSize mu size }, .pushPush mu)
  | .pushPush mu =>
    let popQueue := (rtDataQueuePushNow f.handle.popQueue mu sizeofMsgUint).2
    some ({ f with handle := { f.handle with popQueue := popQueue } }, .done 0 none)
  | .popPop timeout =>
    match rtDataQueuePop f.handle.popQueue timeout with
    | none => none
    | some popped =>
      if popped.ret = -RT_ETIMEOUT then
        some (f, .done (-RT_ETIMEOUT) none)
      else if popped.ret = 0 then
        let f := { f with handle := { f.handle with popQueue := popped.queue } }
        match popped.dataPtr with
        | none => some (f, .done (-2) none)
        | some mu => some (f, .popCopy mu)
      else
        some (f, .done (-3) none)
  | .popCopy mu => some (f, .popOut (f.mem.message mu) mu)
  | .popOut bytes mu => some (f, .popClear ⟨bytes, (f.mem.units mu).msgSize⟩ mu)
  | .popClear out mu => some ({ f with mem := f.mem.setMsgSize mu 0 }, .popPush out mu)
  | .popPush out mu =>
    let pushQueue := (rtDataQueuePushNow f.handle.pushQueue mu sizeofMsgUint).2
    some ({ f with handle := { f.handle with pushQueue := pushQueue } }, .done 0 (some out))
  | .done _ _ => none

/-- Up to `n` steps of one call with nobody else running. -/
def runAlone : ℕ → Fifo × CallState → Fifo × CallState
  | 0, s => s
  | n + 1, s =>
    match callStep s.1 s.2 with
    | none => s
    | some s' => runAlone n s'

/-- Without interference the steps of msg_push compute msgPush. -/
theorem runAlone_msgPush (f : Fifo) (d : Message) :
    runAlone 5 (f, .pushPop d) = ((msgPush f d).2, .done (msgPush f d).1 none) := by
  unfold msgPush
  by_cases hfirst : (rtDataQueuePopNow f.handle.pushQueue).ret = RT_EOK
  · cases hptr : (rtDataQueuePopNow f.handle.pushQueue).dataPtr <;>
      simp [runAlone, callStep, hfirst, hptr, msgPushStore]
  · by_cases hsecond : (rtDataQueuePopNow f.handle.popQueue).ret = RT_EOK
    · cases hptr : (rtDataQueuePopNow f.handle.popQueue).dataPtr <;>
        simp [runAlone, callStep, hfirst, hsecond, hptr, msgPushStore]
    · simp [runAlone, callStep, hfirst, hsecond]

/-- Without interference the steps of msg_pop compute msgPop; a msg_pop that
waits stays where it is. -/
theorem runAlone_msgPop (f : Fifo) (timeout : ℤ) :
    runAlone 5 (f, .popPop timeout) =
      match msgPop f timeout with
      | none => (f, .popPop timeout)
      | some (ret, out, f') => (f', .done ret out) := by
  unfold msgPop
  cases hpop : rtDataQueuePop f.handle.popQueue timeout with
  | none => simp [runAlone, callStep, hpop]
  | some popped =>
    by_cases htimeout : popped.ret = -RT_ETIMEOUT
    · simp [runAlone, callStep, hpop, htimeout]
    · by_cases hok : popped.ret = 0
      · have hne : ¬ ((0 : ℤ) = -RT_ETIMEOUT) := by decide
        cases hptr : popped.dataPtr <;>
          simp [runAlone, callStep, hpop, hok, hne, hptr, msgPopStore]
      · simp [runAlone, callStep, hpop, htimeout, hok]

/-- Both rings hold written cells and as many entries as their counters say. -/
structure Counted (f : Fifo) (free queued : ℕ) : Prop where
  pushSized : f.handle.pushQueue.Sized free
  pushFilled : RingWindow.Filled 65536 f.handle.pushQueue.size.toNat
    f.handle.pushQueue.getIndex.toNat free f.handle.pushQueue.cells
  popSized : f.handle.popQueue.Sized queued
  popFilled : RingWindow.Filled 65536 f.handle.popQueue.size.toNat
    f.handle.popQueue.getIndex.toNat queued f.handle.popQueue.cells
  pushSize : f.handle.pushQueue.size = f.handle.fifoSize
  popSize : f.handle.popQueue.size = f.handle.fifoSize

theorem Counted.start {f : Fifo} {msgSize fifoSize : UInt16} {units : List ℕ}
    (h : FifoCreation.Fresh f msgSize fifoSize units) : Counted f fifoSize.toNat 0 where
  pushSized := by
    have hsized := h.inv.pushQueue.sized
    rwa [h.inv.length_units, h.fifoSize_eq] at hsized
  pushFilled := by
    have hfilled := h.inv.pushQueue.holds.filled
    rwa [h.inv.length_units, h.fifoSize_eq] at hfilled
  popSized := h.inv.popQueue.sized
  popFilled := h.inv.popQueue.holds.filled
  pushSize := h.inv.pushSize
  popSize := h.inv.popSize

section Counted

variable {f : Fifo} {free queued : ℕ}

theorem Counted.takeFree (h : Counted f (free + 1) queued) : Counted f.takeFree free queued where
  pushSized := h.pushSized.popped
  pushFilled := by
    have htail := h.pushFilled.tail
    simpa [Fifo.takeFree, UInt16.toNat_add] using htail
  popSized := h.popSized
  popFilled := h.popFilled
  pushSize := h.pushSize
  popSize := h.popSize

theorem Counted.takeOldest (h : Counted f free (queued + 1)) :
    Counted f.takeOldest free queued where
  pushSized := h.pushSized
  pushFilled := h.pushFilled
  popSized := h.popSized.popped
  popFilled := by
    have htail := h.popFilled.tail
    simpa [Fifo.takeOldest, UInt16.toNat_add] using htail
  pushSize := h.pushSize
  popSize := h.popSize

theorem Counted.giveFree (h : Counted f free queued)
    (hlt : free < f.handle.fifoSize.toNat) (u : ℕ) : Counted (f.giveFree u) (free + 1) queued where
  pushSized := h.pushSized.pushed (by rwa [h.pushSize]) u sizeofMsgUint
  pushFilled := by
    change RingWindow.Filled _ _ _ _ (f.handle.pushQueue.pushed u sizeofMsgUint).cells
    rw [h.pushSized.pushed_cells]
    exact h.pushFilled.snoc u
  popSized := h.popSized
  popFilled := h.popFilled
  pushSize := h.pushSize
  popSize := h.popSize

theorem Counted.giveQueued (h : Counted f free queued)
    (hlt : queued < f.handle.fifoSize.toNat) (u : ℕ) :
    Counted (f.giveQueued u) free (queued + 1) where
  pushSized := h.pushSized
  pushFilled := h.pushFilled
  popSized := h.popSized.pushed (by rwa [h.popSize]) u sizeofMsgUint
  popFilled := by
    change RingWindow.Filled _ _ _ _ (f.handle.popQueue.pushed u sizeofMsgUint).cells
    rw [h.popSized.pushed_cells]
    exact h.popFilled.snoc u
  pushSize := h.pushSize
  popSize := h.popSize

theorem Counted.withMem (h : Counted f free queued) (mem : Memory) :
    Counted (f.withMem mem) free queued :=
  ⟨h.pushSized, h.pushFilled, h.popSized, h.popFilled, h.pushSize, h.popSize⟩

end Counted

/-- What one step of a call does to a FIFO with `free` and `queued` entries. -/
inductive Effect (f : Fifo) (free queued : ℕ) : CallState → Fifo → CallState → Prop
  | takeFree (d : Message) (u : ℕ) (hpos : 0 < free)
      (hu : f.handle.pushQueue.cells (f.handle.pushQueue.liveCell 0) = some u) :
      Effect f free queued (.pushPop d) f.takeFree (.pushCopy d u)
  | noFree (d : Message) (hzero : free = 0) :
      Effect f free queued (.pushPop d) f (.pushSteal d)
  | takeOldest (d : Message) (u : ℕ) (hpos : 0 < queued)
      (hu : f.handle.popQueue.cells (f.handle.popQueue.liveCell 0) = some u) :
      Effect f free queued (.pushSteal d) f.takeOldest (.pushCopy d u)
  | refuse (d : Message) (hzero : queued = 0) :
      Effect f free queued (.pushSteal d) f (.done (-4) none)
  | copyIn (d : Message) (u : ℕ) :
      Effect f free queued (.pushCopy d u)
        (f.withMem (f.mem.copyIn u (clamp f.handle.msgSize d)))
        (.pushSize (UInt16.ofNat (clamp f.handle.msgSize d).length) u)
  | setSize (size : UInt16) (u : ℕ) :
      Effect f free queued (.pushSize size u) (f.withMem (f.mem.setMsgSize u size)) (.pushPush u)
  | giveQueued (u : ℕ) :
      Effect f free queued (.pushPush u) (f.giveQueued u) (.done 0 none)
  | deliver (timeout : ℤ) (u : ℕ) (hpos : 0 < queued)
      (hu : f.handle.popQueue.cells (f.handle.popQueue.liveCell 0) = some u) :
      Effect f free queued (.popPop timeout) f.takeOldest (.popCopy u)
  | expireNow (hzero : queued = 0) :
      Effect f free queued (.popPop 0) f (.done (-RT_ETIMEOUT) none)
  | copyOut (u : ℕ) :
      Effect f free queued (.popCopy u) f (.popOut (f.mem.message u) u)
  | outSize (bytes : List UInt8) (u : ℕ) :
      Effect f free queued (.popOut bytes u) f (.popClear ⟨bytes, (f.mem.units u).msgSize⟩ u)
  | clear (out : Delivered) (u : ℕ) :
      Effect f free queued (.popClear out u) (f.withMem (f.mem.setMsgSize u 0)) (.popPush out u)
  | giveFree (out : Delivered) (u : ℕ) :
      Effect f free queued (.popPush out u) (f.giveFree u) (.done 0 (some out))

/-- A pop from a counted ring: the head entry, or nothing to take. -/
theorem popNow_cases {q : RtDataQueue ℕ} {len : ℕ} (h : q.Sized len)
    (hfill : RingWindow.Filled 65536 q.size.toNat q.getIndex.toNat len q.cells) :
    (len = 0 ∧ rtDataQueuePopNow q = ⟨-RT_ETIMEOUT, none, 0, q⟩) ∨
    (0 < len ∧ ∃ u n, q.cells (q.liveCell 0) = some u ∧
      rtDataQueuePopNow q = ⟨RT_EOK, some u, n, q.popped⟩ ∧
      ∀ timeout, rtDataQueuePop q timeout = some ⟨RT_EOK, some u, n, q.popped⟩) := by
  cases len with
  | zero => exact Or.inl ⟨rfl, rtDataQueuePopNow_empty h⟩
  | succ len =>
    obtain ⟨u, hu⟩ := Option.isSome_iff_exists.mp (hfill 0 (Nat.succ_pos len))
    obtain ⟨n, hpop⟩ := rtDataQueuePop_eq h
    refine Or.inr ⟨Nat.succ_pos len, u, n, hu, ?_, ?_⟩
    · unfold rtDataQueuePopNow
      rw [hpop]
      exact congrArg (fun p => (⟨RT_EOK, p, n, q.popped⟩ : Popped ℕ)) hu
    · intro timeout
      rw [hpop timeout]
      exact congrArg (fun p => some (⟨RT_EOK, p, n, q.popped⟩ : Popped ℕ)) hu

theorem callStep_effect {f f' : Fifo} {free queued : ℕ} {k k' : CallState}
    (h : Counted f free queued)
    (hroom : ∀ u, k.unit = some u → free < f.handle.fifoSize.toNat ∧
      queued < f.handle.fifoSize.toNat)
    (hstep : callStep f k = some (f', k')) : Effect f free queued k f' k' := by
  have hret : ¬ (-RT_ETIMEOUT = RT_EOK) := by decide
  have hne : ¬ ((0 : ℤ) = -RT_ETIMEOUT) := by decide
  have hok : RT_EOK = 0 := rfl
  cases k with
  | idle => simp [callStep] at hstep
  | done ret out => simp [callStep] at hstep
  | pushPop d =>
    rcases popNow_cases h.pushSized h.pushFilled with ⟨hzero, hpop⟩ | ⟨hpos, u, n, hu, hpop, _⟩
    · simp only [callStep, hpop, hret, if_false, Option.some.injEq, Prod.mk.injEq] at hstep
      obtain ⟨rfl, rfl⟩ := hstep
      exact .noFree d hzero
    · simp only [callStep, hpop, if_true, Option.some.injEq, Prod.mk.injEq] at hstep
      obtain ⟨rfl, rfl⟩ := hstep
      exact .takeFree d u hpos hu
  | pushSteal d =>
    rcases popNow_cases h.popSized h.popFilled with ⟨hzero, hpop⟩ | ⟨hpos, u, n, hu, hpop, _⟩
    · simp only [callStep, hpop, hret, if_false, Option.some.injEq, Prod.mk.injEq] at hstep
      obtain ⟨rfl, rfl⟩ := hstep
      exact .refuse d hzero
    · simp only [callStep, hpop, if_true, Option.some.injEq, Prod.mk.injEq] at hstep
      obtain ⟨rfl, rfl⟩ := hstep
      exact .takeOldest d u hpos hu
  | pushCopy d u =>
    simp only [callStep, Option.some.injEq, Prod.mk.injEq] at hstep
    obtain ⟨rfl, rfl⟩ := hstep
    exact .copyIn d u
  | pushSize size u =>
    simp only [callStep, Option.some.injEq, Prod.mk.injEq] at hstep
    obtain ⟨rfl, rfl⟩ := hstep
    exact .setSize size u
  | pushPush u =>
    have hlt : queued < f.handle.popQueue.size.toNat := by
      rw [h.popSize]
      exact (hroom u rfl).2
    simp only [callStep, rtDataQueuePushNow_eq h.popSized hlt, Option.some.injEq,
      Prod.mk.injEq] at hstep
    obtain ⟨rfl, rfl⟩ := hstep
    exact .giveQueued u
  | popPop timeout =>
    rcases popNow_cases h.popSized h.popFilled with ⟨hzero, _⟩ | ⟨hpos, u, n, hu, _, hpop⟩
    · subst hzero
      by_cases ht : timeout = 0
      · subst ht
        simp only [callStep, rtDataQueuePop_empty h.popSized, if_true, Option.some.injEq,
          Prod.mk.injEq] at hstep
        obtain ⟨rfl, rfl⟩ := hstep
        exact .expireNow rfl
      · simp [callStep, rtDataQueuePop_empty h.popSized, ht] at hstep
    · simp only [callStep, hpop, hok, hne, if_false, if_true, Option.some.injEq,
        Prod.mk.injEq] at hstep
      obtain ⟨rfl, rfl⟩ := hstep
      exact .deliver timeout u hpos hu
  | popCopy u =>
    simp only [callStep, Option.some.injEq, Prod.mk.injEq] at hstep
    obtain ⟨rfl, rfl⟩ := hstep
    exact .copyOut u
  | popOut bytes u =>
    simp only [callStep, Option.some.injEq, Prod.mk.injEq] at hstep
    obtain ⟨rfl, rfl⟩ := hstep
    exact .outSize bytes u
  | popClear out u =>
    simp only [callStep, Option.some.injEq, Prod.mk.injEq] at hstep
    obtain ⟨rfl, rfl⟩ := hstep
    exact .clear out u
  | popPush out u =>
    have hlt : free < f.handle.pushQueue.size.toNat := by
      rw [h.pushSize]
      exact (hroom u rfl).1
    simp only [callStep, rtDataQueuePushNow_eq h.pushSized hlt, Option.some.injEq,
      Prod.mk.injEq] at hstep
    obtain ⟨rfl, rfl⟩ := hstep
    exact .giveFree out u

variable {ι : Type} [DecidableEq ι]

/-- The handle and the calls of all callers. -/
structure Sys (ι : Type) where
  fifo : Fifo
  calls : ι → CallState

def Sys.start (f : Fifo) : Sys ι := ⟨f, fun _ => .idle⟩

def Sys.set (s : Sys ι) (c : ι) (f : Fifo) (k : CallState) : Sys ι :=
  ⟨f, Function.update s.calls c k⟩

/-- One step of the caller `c`. The label names the queue a push goes to. -/
inductive Step (s : Sys ι) (c : ι) : Option QueueId → Sys ι → Prop
  | startPush (d : Message) (h : s.calls c = .idle) :
      Step s c none (s.set c s.fifo (.pushPop d))
  | startPop (timeout : ℤ) (h : s.calls c = .idle) :
      Step s c none (s.set c s.fifo (.popPop timeout))
  | run {f : Fifo} {k : CallState} (h : callStep s.fifo (s.calls c) = some (f, k)) :
      Step s c (s.calls c).target (s.set c f k)
  | expire (timeout : ℤ) (h : s.calls c = .popPop timeout) (hpos : 0 < timeout)
      (hwait : rtDataQueuePop s.fifo.handle.popQueue timeout = none) :
      Step s c none (s.set c s.fifo (.done (-RT_ETIMEOUT) none))
  | finish (ret : ℤ) (out : Option Delivered) (h : s.calls c = .done ret out) :
      Step s c none (s.set c s.fifo .idle)

/-- Runs with the labels of their steps, newest last. -/
inductive Run (s₀ : Sys ι) : List (Option QueueId) → Sys ι → Prop
  | nil : Run s₀ [] s₀
  | snoc {labels : List (Option QueueId)} {s s' : Sys ι} {c : ι} {label : Option QueueId} :
      Run s₀ labels s → Step s c label s' → Run s₀ (labels ++ [label]) s'

end GemhoNbiot.FifoCalls
