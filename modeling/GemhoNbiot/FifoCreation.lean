import GemhoNbiot.FifoUnits

/-!
msg_init with all its allocations successful. After i iterations of the loop
push_queue holds i distinct units, each with a buffer of its own, and pop_queue
is empty; no push of the loop finds the queue full. The handle it returns
therefore has all its units free.
-/
namespace GemhoNbiot.FifoCreation

open Dataqueue MsgFifo RtDataQueue FifoUnits

/-- The state of the loop after `us.length` iterations. All addresses handed
out so far are below the next one. -/
structure LoopInv (msgSize fifoSize : UInt16) (f : Fifo) (heap : Heap) (us : List ℕ) :
    Prop where
  pushQueue : f.handle.pushQueue.Represents us
  pushSize : f.handle.pushQueue.size = fifoSize
  pushGet : f.handle.pushQueue.getIndex = 0
  popQueue : f.handle.popQueue = emptyQueue fifoSize
  msgSize_eq : f.handle.msgSize = msgSize
  fifoSize_eq : f.handle.fifoSize = fifoSize
  nodup : us.Nodup
  buffers : OwnBuffers f.mem us
  units_lt : ∀ u ∈ us, u < heap.calls
  bufs_lt : ∀ u ∈ us, ∀ b, (f.mem.units u).msgData = some b → b < heap.calls

variable {msgSize fifoSize : UInt16} {f f' : Fifo} {heap heap' : Heap} {us : List ℕ}

theorem LoopInv.start (mem : Memory) (heap : Heap) (hsize : 0 < fifoSize.toNat) :
    LoopInv msgSize fifoSize (initStart mem heap msgSize fifoSize).1
      (initStart mem heap msgSize fifoSize).2 [] where
  pushQueue := emptyQueue_represents fifoSize hsize
  pushSize := rfl
  pushGet := rfl
  popQueue := rfl
  msgSize_eq := rfl
  fifoSize_eq := rfl
  nodup := List.nodup_nil
  buffers := ⟨fun _ hu => by simp at hu, fun _ hu => by simp at hu⟩
  units_lt := fun _ hu => by simp at hu
  bufs_lt := fun _ hu => by simp at hu

/-- While units are missing, the push of the loop succeeds into a free cell. -/
theorem LoopInv.push_eq (h : LoopInv msgSize fifoSize f heap us)
    (hlen : us.length < fifoSize.toNat) (mu : ℕ) :
    rtDataQueuePushNow f.handle.pushQueue mu sizeofMsgUint =
      (RT_EOK, f.handle.pushQueue.pushed mu sizeofMsgUint) :=
  rtDataQueuePushNow_eq h.pushQueue.sized (by rwa [h.pushSize]) mu sizeofMsgUint

theorem LoopInv.straight (h : LoopInv msgSize fifoSize f heap us) {len : ℕ}
    (hlen : len ≤ fifoSize.toNat) : f.handle.pushQueue.Straight len := by
  have hlt := fifoSize.toNat_lt
  apply Or.inr
  rw [h.pushGet]
  simp only [UInt16.toNat_zero]
  omega

theorem msgInitStep_eq (h : LoopInv msgSize fifoSize f heap us)
    (hlen : us.length < fifoSize.toNat) :
    msgInitStep allocAll f heap = .next
      { f with
        handle := { f.handle with
          pushQueue := f.handle.pushQueue.pushed heap.calls sizeofMsgUint }
        mem := { f.mem with
          units := Function.update f.mem.units heap.calls ⟨0, some (heap.calls + 1)⟩ } }
      ⟨heap.calls + 2, (heap.calls + 1, f.handle.msgSize.toNat) ::
        (heap.calls, sizeofMsgUint) :: heap.live⟩ := by
  obtain ⟨items, hitems, _⟩ := h.pushQueue.sized.storage
  simp [msgInitStep, rtMalloc, allocAll, hitems, h.push_eq hlen]

theorem LoopInv.step (h : LoopInv msgSize fifoSize f heap us)
    (hlen : us.length < fifoSize.toNat)
    (hstep : msgInitStep allocAll f heap = .next f' heap') :
    ∃ u, LoopInv msgSize fifoSize f' heap' (us ++ [u]) := by
  rw [msgInitStep_eq h hlen] at hstep
  injection hstep with hf hheap
  subst hf
  subst hheap
  have hfresh : heap.calls ∉ us := fun hmem => Nat.lt_irrefl _ (h.units_lt _ hmem)
  have hold : ∀ u ∈ us,
      Function.update f.mem.units heap.calls ⟨0, some (heap.calls + 1)⟩ u = f.mem.units u := by
    intro u hu
    have hne : u ≠ heap.calls := fun heq => hfresh (by rwa [heq] at hu)
    exact Function.update_of_ne hne _ _
  refine ⟨heap.calls, ?_⟩
  constructor
  case pushQueue =>
    exact h.pushQueue.pushed (by rwa [h.pushSize]) (h.straight (by omega)) _ _
  case pushSize => exact h.pushSize
  case pushGet => exact h.pushGet
  case popQueue => exact h.popQueue
  case msgSize_eq => exact h.msgSize_eq
  case fifoSize_eq => exact h.fifoSize_eq
  case nodup =>
    refine List.nodup_append.mpr ⟨h.nodup, List.nodup_singleton _, ?_⟩
    intro u hu v hv heq
    rw [List.mem_singleton] at hv
    exact hfresh (by rwa [← hv, ← heq])
  case buffers =>
    constructor
    · intro u hu
      rcases List.mem_append.mp hu with hu | hu
      · obtain ⟨b, hb⟩ := h.buffers.exists_buf u hu
        exact ⟨b, by simpa only [hold u hu] using hb⟩
      · rw [List.mem_singleton] at hu
        subst u
        exact ⟨heap.calls + 1, by simp⟩
    · intro u hu v hv b hub hvb
      simp only [List.mem_append, List.mem_singleton] at hu hv
      rcases hu with hu | rfl <;> rcases hv with hv | rfl
      · exact h.buffers.buf_inj u hu v hv b (by simpa only [hold u hu] using hub)
          (by simpa only [hold v hv] using hvb)
      · have hlt := h.bufs_lt u hu b (by simpa only [hold u hu] using hub)
        simp only [Function.update_self, Option.some.injEq] at hvb
        omega
      · have hlt := h.bufs_lt v hv b (by simpa only [hold v hv] using hvb)
        simp only [Function.update_self, Option.some.injEq] at hub
        omega
      · rfl
  case units_lt =>
    intro u hu
    change u < heap.calls + 2
    simp only [List.mem_append, List.mem_singleton] at hu
    rcases hu with hu | rfl
    · have hlt := h.units_lt u hu
      omega
    · omega
  case bufs_lt =>
    intro u hu b hb
    change b < heap.calls + 2
    simp only [List.mem_append, List.mem_singleton] at hu
    rcases hu with hu | rfl
    · have hlt := h.bufs_lt u hu b (by simpa only [hold u hu] using hb)
      omega
    · simp only [Function.update_self, Option.some.injEq] at hb
      omega

/-- The loop invariant at every iteration that msg_init reaches. -/
theorem LoopInv.reach (mem : Memory) (heap₀ : Heap) {i : ℕ}
    (hreach : InitReach allocAll (initStart mem heap₀ msgSize fifoSize).1
      (initStart mem heap₀ msgSize fifoSize).2 i f heap)
    (hi : i ≤ fifoSize.toNat) (hsize : 0 < fifoSize.toNat) :
    ∃ us, us.length = i ∧ LoopInv msgSize fifoSize f heap us := by
  induction hreach with
  | start => exact ⟨[], rfl, LoopInv.start mem heap₀ hsize⟩
  | @next i f f' heap heap' _ hstep ih =>
    obtain ⟨us, hlen, hinv⟩ := ih (by omega)
    obtain ⟨u, hnext⟩ := hinv.step (by omega) hstep
    exact ⟨us ++ [u], by simp [hlen], hnext⟩

theorem msgInitLoop_ok (n : ℕ) (h : LoopInv msgSize fifoSize f heap us)
    (hn : us.length + n = fifoSize.toNat) :
    ∃ f' heap' us', msgInitLoop allocAll n f heap = .handle f' heap' ∧
      us'.length = fifoSize.toNat ∧ LoopInv msgSize fifoSize f' heap' us' := by
  induction n generalizing f heap us with
  | zero => exact ⟨f, heap, us, rfl, by omega, h⟩
  | succ n ih =>
    have hstep := msgInitStep_eq h (by omega)
    obtain ⟨u, hnext⟩ := h.step (by omega) hstep
    rw [msgInitLoop, hstep]
    exact ih hnext (by simp only [List.length_append, List.length_singleton]; omega)

/-- What msg_init returns: every unit is free and no call holds one. -/
structure Fresh (f : Fifo) (msgSize fifoSize : UInt16) (units : List ℕ) : Prop where
  inv : Inv f units units [] (fun _ => False)
  msgSize_eq : f.handle.msgSize = msgSize
  fifoSize_eq : f.handle.fifoSize = fifoSize
  pushGet : f.handle.pushQueue.getIndex = 0
  popGet : f.handle.popQueue.getIndex = 0

theorem LoopInv.fresh (h : LoopInv msgSize fifoSize f heap us)
    (hlen : us.length = fifoSize.toNat) (hsize : 0 < fifoSize.toNat) :
    Fresh f msgSize fifoSize us where
  inv := {
    pushQueue := h.pushQueue
    popQueue := by
      rw [h.popQueue]
      exact emptyQueue_represents fifoSize hsize
    pushSize := h.pushSize.trans h.fifoSize_eq.symm
    popSize := by
      rw [h.popQueue, h.fifoSize_eq]
      rfl
    length_units := by rw [hlen, h.fifoSize_eq]
    units_nodup := h.nodup
    nodup := by simpa using h.nodup
    held_fresh := fun _ hfalse => hfalse.elim
    mem_units := by simp
    buffers := h.buffers
  }
  msgSize_eq := h.msgSize_eq
  fifoSize_eq := h.fifoSize_eq
  pushGet := h.pushGet
  popGet := by
    rw [h.popQueue]
    rfl

/-- Creation succeeds, and its handle is fresh. -/
theorem msgInit_fresh (mem : Memory) (heap : Heap) (msgSize fifoSize : UInt16)
    (hsize : 0 < fifoSize.toNat) :
    ∃ f heap' us, msgInit allocAll mem heap msgSize fifoSize = .handle f heap' ∧
      Fresh f msgSize fifoSize us := by
  have hstart : LoopInv msgSize fifoSize (initStart mem heap msgSize fifoSize).1
      (initStart mem heap msgSize fifoSize).2 [] := LoopInv.start mem heap hsize
  obtain ⟨f, heap', us, hloop, hlen, hinv⟩ := msgInitLoop_ok fifoSize.toNat hstart (by simp)
  exact ⟨f, heap', us, hloop, hinv.fresh hlen hsize⟩

theorem created_fresh (hf : Created f msgSize fifoSize) (hsize : 0 < fifoSize.toNat) :
    ∃ us, Fresh f msgSize fifoSize us := by
  obtain ⟨mem, heap, heap', hinit⟩ := hf
  obtain ⟨g, heap'', us, hinit', hfresh⟩ := msgInit_fresh mem heap msgSize fifoSize hsize
  rw [hinit'] at hinit
  injection hinit with hg
  subst hg
  exact ⟨us, hfresh⟩

end GemhoNbiot.FifoCreation
