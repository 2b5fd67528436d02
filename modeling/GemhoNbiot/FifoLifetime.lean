import GemhoNbiot.FifoRefinement

/-!
The heap blocks of a message FIFO from msg_init to msg_destory. A creation
allocates the handle, the two queue storages and then a unit and its buffer in
each turn of the loop. Both clean-up loops free the units they find in
push_queue and the handle; no pointer of the FIFO leads to a queue storage from
them, so a storage that was allocated is never freed. Creation is therefore all
or nothing only when it fails before a storage is live or does not fail at all.
-/
namespace GemhoNbiot.FifoLifetime

open Dataqueue MsgFifo RtDataQueue FifoUnits FifoCreation FifoRefinement

/-- The next address is above all live ones. -/
structure LiveHeap where
  heap : Heap
  fresh : ∀ block ∈ heap.live, block.1 < heap.calls

def msgDestory (h : Option Fifo) (heap : Heap) : ℤ × Heap :=
  match h with
  | none => (-1, heap)
  | some f => (0, rtFree f.self (freeUnits f.mem 65536 f.handle.pushQueue heap))

/-- The arguments of rt_free in the loop of msg_destory, in order. -/
def unitFrees (mem : Memory) : ℕ → RtDataQueue ℕ → List ℕ
  | 0, _ => []
  | fuel + 1, q =>
    let popped := rtDataQueuePopNow q
    if popped.ret = RT_EOK then
      match popped.dataPtr with
      | none => unitFrees mem fuel popped.queue
      | some mu => (mem.units mu).msgData.toList ++ mu :: unitFrees mem fuel popped.queue
    else
      []

/-- The arguments of rt_free in msg_destory, in order. -/
def destoryFrees (f : Fifo) : List ℕ :=
  unitFrees f.mem 65536 f.handle.pushQueue ++ [f.self]

/-- The unit and its buffer are live blocks of their sizes. -/
def HasBlocks (mem : Memory) (heap : Heap) (msgSize : UInt16) (u : ℕ) : Prop :=
  (u, sizeofMsgUint) ∈ heap.live ∧
    ∃ b, (mem.units u).msgData = some b ∧ (b, msgSize.toNat) ∈ heap.live

/-- A handle with both storages and `fifoSize` free units of its own. -/
structure Complete (f : Fifo) (heap : Heap) (msgSize fifoSize : UInt16) : Prop where
  popStorage : f.handle.popQueue.queue.isSome
  pushStorage : f.handle.pushQueue.queue.isSome
  units : ∃ us, f.handle.pushQueue.entries = us.map some ∧ us.length = fifoSize.toNat ∧
    us.Nodup ∧ OwnBuffers f.mem us ∧ ∀ u ∈ us, HasBlocks f.mem heap msgSize u

/-- All or nothing, and no store through a NULL storage. -/
structure Creation (ok : ℕ → Bool) (mem : Memory) (heap : Heap) (msgSize fifoSize : UInt16) :
    Prop where
  nothing : ∀ heap', msgInit ok mem heap msgSize fifoSize = .null heap' →
    ∀ block, block ∈ heap'.live ↔ block ∈ heap.live
  all : ∀ f heap', msgInit ok mem heap msgSize fifoSize = .handle f heap' →
    Complete f heap' msgSize fifoSize
  no_fault : msgInit ok mem heap msgSize fifoSize ≠ .fault

/-- A call that stores an entry in a queue, moving its put counter, finds the
storage of that queue. -/
def StoresInside (f : Fifo) (c : Call) : Prop :=
  ((after f c).handle.popQueue.putIndex ≠ f.handle.popQueue.putIndex →
    f.handle.popQueue.queue.isSome) ∧
  ((after f c).handle.pushQueue.putIndex ≠ f.handle.pushQueue.putIndex →
    f.handle.pushQueue.queue.isSome)

/-- The whole life of a FIFO: its creation, any run of calls, its destruction. -/
structure Lifetime (ok : ℕ → Bool) (mem : Memory) (heap : Heap) (msgSize fifoSize : UInt16) :
    Prop where
  creation : Creation ok mem heap msgSize fifoSize
  stores : ∀ f heap', msgInit ok mem heap msgSize fifoSize = .handle f heap' →
    ∀ (calls : List Call) c, StoresInside (calls.foldl after f) c
  destruction : ∀ f heap', msgInit ok mem heap msgSize fifoSize = .handle f heap' →
    ∀ calls : List Call, ∀ block ∈ heap'.live, block ∉ heap.live →
      (destoryFrees (calls.foldl after f)).count block.1 = 1

/-- A cell of the storage, live or not, holds the pointer. -/
def Stores (q : RtDataQueue ℕ) (mu : ℕ) : Prop :=
  ∃ item ∈ q.queue.getD [], item.dataPtr = some mu

/-- No pointer of the FIFO leads to the block at `a`. -/
structure Apart (a : ℕ) (f : Fifo) : Prop where
  self : f.self ≠ a
  push : ∀ mu, Stores f.handle.pushQueue mu → mu ≠ a ∧ (f.mem.units mu).msgData ≠ some a
  pop : ∀ mu, Stores f.handle.popQueue mu → mu ≠ a ∧ (f.mem.units mu).msgData ≠ some a

section Queues

variable {q : RtDataQueue ℕ} {mu v : ℕ}

theorem stores_push {n : ℕ} (h : Stores (rtDataQueuePushNow q mu n).2 v) :
    Stores q v ∨ v = mu := by
  unfold rtDataQueuePushNow rtDataQueuePush at h
  split at h
  · simp only [RT_WAITING_NO, if_true, Option.getD_some] at h
    exact Or.inl h
  · obtain ⟨item, hmem, hptr⟩ := h
    cases hq : q.queue with
    | none => simp [hq] at hmem
    | some items =>
      simp only [Option.getD_some, hq, Option.map_some] at hmem
      rcases List.mem_or_eq_of_mem_set hmem with hold | hnew
      · exact Or.inl ⟨item, by simpa [hq] using hold, hptr⟩
      · subst hnew
        exact Or.inr (Option.some.inj hptr).symm

theorem push_isSome {n : ℕ} :
    (rtDataQueuePushNow q mu n).2.queue.isSome = q.queue.isSome := by
  unfold rtDataQueuePushNow rtDataQueuePush
  split <;> simp [RT_WAITING_NO]

/-- A pop moves the get counter only, and hands out a pointer of the storage. -/
theorem pop_stores {timeout : ℤ} {popped : Popped ℕ} (h : rtDataQueuePop q timeout = some popped) :
    popped.queue.queue = q.queue ∧ popped.queue.putIndex = q.putIndex ∧
      ∀ mu, popped.dataPtr = some mu → Stores q mu := by
  unfold rtDataQueuePop at h
  split at h
  · split at h
    · cases h
      exact ⟨rfl, rfl, fun _ hptr => by simp at hptr⟩
    · cases h
  · cases h
    refine ⟨rfl, rfl, ?_⟩
    intro mu hptr
    cases hcell : (q.queue.getD [])[q.getIndex.toNat % q.size.toNat]? with
    | none => simp [hcell] at hptr
    | some item =>
      refine ⟨item, List.mem_of_getElem? hcell, ?_⟩
      simpa [hcell] using hptr

theorem popNow_stores : (rtDataQueuePopNow q).queue.queue = q.queue ∧
    (rtDataQueuePopNow q).queue.putIndex = q.putIndex ∧
      ∀ mu, (rtDataQueuePopNow q).dataPtr = some mu → Stores q mu := by
  unfold rtDataQueuePopNow
  cases hpop : rtDataQueuePop q RT_WAITING_NO with
  | none => exact ⟨rfl, rfl, fun _ hptr => by simp at hptr⟩
  | some popped => exact pop_stores hpop

theorem stores_congr {q' : RtDataQueue ℕ} (h : q'.queue = q.queue) :
    Stores q' v ↔ Stores q v := by
  unfold Stores
  rw [h]

end Queues

section Destruction

variable {mem : Memory} {q : RtDataQueue ℕ}

theorem popNow_ret : (rtDataQueuePopNow q).ret = RT_EOK ↔ q.getIndex ≠ q.putIndex := by
  unfold rtDataQueuePopNow rtDataQueuePop
  split
  next heq => simp [RT_WAITING_NO, heq, RT_EOK, RT_ETIMEOUT]
  next hne => simpa using hne

theorem popNow_queue (h : q.getIndex ≠ q.putIndex) : (rtDataQueuePopNow q).queue = q.popped := by
  unfold rtDataQueuePopNow rtDataQueuePop
  rw [if_neg h]
  rfl

theorem count_popped (h : q.getIndex ≠ q.putIndex) : q.count = q.popped.count + 1 := by
  have hget := q.getIndex.toNat_lt
  have hput := q.putIndex.toNat_lt
  have hne : q.getIndex.toNat ≠ q.putIndex.toNat := fun heq => h (UInt16.toNat_inj.mp heq)
  unfold count
  rw [popped_putIndex, popped_getIndex, UInt16.toNat_sub, UInt16.toNat_sub, UInt16.toNat_add,
    UInt16.toNat_one]
  omega

/-- The loop ends after as many pops as the counters are apart. -/
theorem unitFrees_count (n : ℕ) (h : q.count ≤ n) :
    unitFrees mem n q = unitFrees mem q.count q := by
  induction n generalizing q with
  | zero => rw [Nat.le_zero.mp h]
  | succ n ih =>
    by_cases heq : q.getIndex = q.putIndex
    · have hzero : q.count = 0 := by simp [count, heq]
      have hret : (rtDataQueuePopNow q).ret ≠ RT_EOK := fun hok => popNow_ret.mp hok heq
      rw [hzero]
      simp only [unitFrees, if_neg hret]
    · have hcount := count_popped heq
      have hret : (rtDataQueuePopNow q).ret = RT_EOK := popNow_ret.mpr heq
      have hrest : unitFrees mem n q.popped = unitFrees mem q.popped.count q.popped :=
        ih (by omega)
      rw [hcount, unitFrees, unitFrees, if_pos hret, if_pos hret, popNow_queue heq, hrest]

/-- The loop of the clean-up frees these addresses and nothing else. -/
theorem freeUnits_eq (fuel : ℕ) (heap : Heap) :
    freeUnits mem fuel q heap =
      (unitFrees mem fuel q).foldl (fun heap p => rtFree p heap) heap := by
  induction fuel generalizing q heap with
  | zero => rfl
  | succ fuel ih =>
    unfold freeUnits unitFrees
    by_cases hret : (rtDataQueuePopNow q).ret = RT_EOK
    · simp only [if_pos hret]
      cases (rtDataQueuePopNow q).dataPtr with
      | none => exact ih heap
      | some mu =>
        cases hdata : (mem.units mu).msgData with
        | none => simp only [hdata, ih, Option.toList_none, List.nil_append, List.foldl_cons]
        | some b =>
          simp only [hdata, ih, Option.toList_some, List.singleton_append, List.foldl_cons]
    · simp only [if_neg hret, List.foldl_nil]

theorem msgDestory_frees (f : Fifo) (heap : Heap) :
    msgDestory (some f) heap =
      (0, (destoryFrees f).foldl (fun heap p => rtFree p heap) heap) := by
  rw [destoryFrees, List.foldl_append, ← freeUnits_eq]
  rfl

/-- What is freed is a stored unit or the buffer of one. -/
theorem unitFrees_mem {fuel : ℕ} {p : ℕ} (h : p ∈ unitFrees mem fuel q) :
    ∃ mu, Stores q mu ∧ (p = mu ∨ (mem.units mu).msgData = some p) := by
  induction fuel generalizing q with
  | zero => simp [unitFrees] at h
  | succ fuel ih =>
    have hstores := popNow_stores (q := q)
    have hlater : p ∈ unitFrees mem fuel (rtDataQueuePopNow q).queue →
        ∃ mu, Stores q mu ∧ (p = mu ∨ (mem.units mu).msgData = some p) := by
      intro hmem
      obtain ⟨mu, hmu, hp⟩ := ih hmem
      exact ⟨mu, (stores_congr hstores.1).mp hmu, hp⟩
    unfold unitFrees at h
    by_cases hret : (rtDataQueuePopNow q).ret = RT_EOK
    · simp only [if_pos hret] at h
      cases hptr : (rtDataQueuePopNow q).dataPtr with
      | none =>
        rw [hptr] at h
        exact hlater h
      | some mu =>
        rw [hptr] at h
        have hmu := hstores.2.2 mu hptr
        simp only [List.mem_append, Option.mem_toList, List.mem_cons] at h
        rcases h with hbuf | heq | hmem
        · exact ⟨mu, hmu, Or.inr hbuf⟩
        · exact ⟨mu, hmu, Or.inl heq⟩
        · exact hlater hmem
    · simp only [if_neg hret, List.not_mem_nil] at h

/-- The loop of msg_destory ends on its own: a larger bound frees nothing more. -/
theorem destoryFrees_of_le (f : Fifo) {n : ℕ} (h : 65536 ≤ n) :
    unitFrees f.mem n f.handle.pushQueue ++ [f.self] = destoryFrees f := by
  have hcount := (f.handle.pushQueue.putIndex - f.handle.pushQueue.getIndex).toNat_lt
  have hbound : f.handle.pushQueue.count ≤ 65536 := hcount.le
  rw [destoryFrees, unitFrees_count 65536 hbound, unitFrees_count n (hbound.trans h)]

theorem frees_keep {frees : List ℕ} {heap : Heap} {block : ℕ × ℕ} (hlive : block ∈ heap.live)
    (hnot : block.1 ∉ frees) :
    block ∈ (frees.foldl (fun heap p => rtFree p heap) heap).live := by
  induction frees generalizing heap with
  | nil => exact hlive
  | cons p frees ih =>
    rw [List.mem_cons, not_or] at hnot
    refine ih ?_ hnot.2
    simp only [rtFree, List.mem_filter, decide_eq_true_eq]
    exact ⟨hlive, hnot.1⟩

end Destruction

section Runs

variable {a : ℕ} {f : Fifo}

theorem Apart.not_freed (h : Apart a f) : a ∉ destoryFrees f := by
  intro hmem
  rcases List.mem_append.mp hmem with hmem | hmem
  · obtain ⟨mu, hstores, heq | hbuf⟩ := unitFrees_mem hmem
    · exact (h.push mu hstores).1 heq.symm
    · exact (h.push mu hstores).2 hbuf
  · rw [List.mem_singleton] at hmem
    exact h.self hmem.symm

/-- What a call does to the blocks behind the FIFO: no unit changes its buffer,
a queue stores only pointers that one of the two stored before. -/
structure Moves (f f' : Fifo) : Prop where
  self : f'.self = f.self
  msgData : ∀ mu, (f'.mem.units mu).msgData = (f.mem.units mu).msgData
  push : ∀ mu, Stores f'.handle.pushQueue mu →
    Stores f.handle.pushQueue mu ∨ Stores f.handle.popQueue mu
  pop : ∀ mu, Stores f'.handle.popQueue mu →
    Stores f.handle.pushQueue mu ∨ Stores f.handle.popQueue mu
  pushStorage : f'.handle.pushQueue.queue.isSome = f.handle.pushQueue.queue.isSome
  popStorage : f'.handle.popQueue.queue.isSome = f.handle.popQueue.queue.isSome

theorem Moves.refl (f : Fifo) : Moves f f where
  self := rfl
  msgData := fun _ => rfl
  push := fun _ => Or.inl
  pop := fun _ => Or.inr
  pushStorage := rfl
  popStorage := rfl

theorem Moves.trans {f' f'' : Fifo} (h : Moves f f') (h' : Moves f' f'') : Moves f f'' where
  self := h'.self.trans h.self
  msgData := fun mu => (h'.msgData mu).trans (h.msgData mu)
  push := fun mu hmu => (h'.push mu hmu).elim (h.push mu) (h.pop mu)
  pop := fun mu hmu => (h'.pop mu hmu).elim (h.push mu) (h.pop mu)
  pushStorage := h'.pushStorage.trans h.pushStorage
  popStorage := h'.popStorage.trans h.popStorage

theorem Apart.moves {f' : Fifo} (h : Apart a f) (hmoves : Moves f f') : Apart a f' where
  self := by
    rw [hmoves.self]
    exact h.self
  push := by
    intro mu hmu
    rw [hmoves.msgData]
    exact (hmoves.push mu hmu).elim (h.push mu) (h.pop mu)
  pop := by
    intro mu hmu
    rw [hmoves.msgData]
    exact (hmoves.pop mu hmu).elim (h.push mu) (h.pop mu)

theorem moves_popPush {q : RtDataQueue ℕ} (hq : q.queue = f.handle.pushQueue.queue) :
    Moves f { f with handle := { f.handle with pushQueue := q } } where
  self := rfl
  msgData := fun _ => rfl
  push := fun _ hmu => Or.inl ((stores_congr hq).mp hmu)
  pop := fun _ => Or.inr
  pushStorage := by rw [← hq]
  popStorage := rfl

theorem moves_popPop {q : RtDataQueue ℕ} (hq : q.queue = f.handle.popQueue.queue) :
    Moves f { f with handle := { f.handle with popQueue := q } } where
  self := rfl
  msgData := fun _ => rfl
  push := fun _ => Or.inl
  pop := fun _ hmu => Or.inr ((stores_congr hq).mp hmu)
  pushStorage := rfl
  popStorage := by rw [← hq]

theorem msgPushStore_moves (d : Message) {mu : ℕ}
    (hmu : Stores f.handle.pushQueue mu ∨ Stores f.handle.popQueue mu) :
    Moves f (msgPushStore f d mu).2 where
  self := rfl
  msgData := by
    intro v
    exact (setMsgSize_msgData _ _ _ _).trans (by rw [copyIn_units])
  push := fun _ => Or.inl
  pop := by
    intro v hv
    rcases stores_push hv with hold | rfl
    · exact Or.inr hold
    · exact hmu
  pushStorage := rfl
  popStorage := push_isSome

theorem msgPopStore_moves {mu : ℕ}
    (hmu : Stores f.handle.pushQueue mu ∨ Stores f.handle.popQueue mu) :
    Moves f (msgPopStore f mu).2.2 where
  self := rfl
  msgData := setMsgSize_msgData _ _ _
  push := by
    intro v hv
    rcases stores_push hv with hold | rfl
    · exact Or.inl hold
    · exact hmu
  pop := fun _ => Or.inr
  pushStorage := push_isSome
  popStorage := rfl

theorem msgPush_moves (f : Fifo) (d : Message) : Moves f (msgPush f d).2 := by
  have hfirst := popNow_stores (q := f.handle.pushQueue)
  have hsecond := popNow_stores (q := f.handle.popQueue)
  unfold msgPush
  dsimp only
  split
  · have htake := moves_popPush hfirst.1
    cases hptr : (rtDataQueuePopNow f.handle.pushQueue).dataPtr with
    | none => exact htake
    | some mu =>
      have hmu := (stores_congr hfirst.1).mpr (hfirst.2.2 mu hptr)
      exact htake.trans (msgPushStore_moves d (Or.inl hmu))
  · split
    · have htake := moves_popPop hsecond.1
      cases hptr : (rtDataQueuePopNow f.handle.popQueue).dataPtr with
      | none => exact htake
      | some mu =>
        have hmu := (stores_congr hsecond.1).mpr (hsecond.2.2 mu hptr)
        exact htake.trans (msgPushStore_moves d (Or.inr hmu))
    · exact Moves.refl f

theorem msgPop_moves {f f' : Fifo} {timeout ret : ℤ} {out : Option Delivered}
    (h : msgPop f timeout = some (ret, out, f')) : Moves f f' := by
  unfold msgPop at h
  cases hpop : rtDataQueuePop f.handle.popQueue timeout with
  | none => simp [hpop] at h
  | some popped =>
    have hstores := pop_stores hpop
    simp only [hpop] at h
    split at h
    · cases h
      exact Moves.refl f
    · split at h
      · have htake := moves_popPop hstores.1
        cases hptr : popped.dataPtr with
        | none =>
          simp only [hptr] at h
          cases h
          exact htake
        | some mu =>
          simp only [hptr] at h
          cases h
          have hmu := (stores_congr hstores.1).mpr (hstores.2.2 mu hptr)
          exact htake.trans (msgPopStore_moves (Or.inr hmu))
      · cases h
        exact Moves.refl f

theorem after_moves (f : Fifo) (c : Call) : Moves f (after f c) := by
  cases c with
  | push d => exact msgPush_moves f d
  | pop timeout =>
    simp only [after]
    cases hpop : msgPop f timeout with
    | none => exact Moves.refl f
    | some r => exact msgPop_moves hpop

/-- Any run of calls. -/
theorem run_moves (calls : List Call) (f : Fifo) : Moves f (calls.foldl after f) := by
  induction calls generalizing f with
  | nil => exact Moves.refl f
  | cons c calls ih => exact (after_moves f c).trans (ih (after f c))

end Runs

section Creation

variable {ok : ℕ → Bool} {mem : Memory} {heap heap' : Heap} {f f' : Fifo}
  {msgSize fifoSize : UInt16} {block : ℕ × ℕ}

/-- A live block, older than the units, that no pointer of the FIFO leads to. -/
structure Kept (block : ℕ × ℕ) (f : Fifo) (heap : Heap) : Prop where
  apart : Apart block.1 f
  live : block ∈ heap.live
  lt : block.1 < heap.calls

/-- The block outlives the loop, however it ends. -/
def KeptEnd (block : ℕ × ℕ) : InitEnd → Prop
  | .handle f heap => Kept block f heap
  | .null heap => block ∈ heap.live
  | .fault => True

/-- The loop body after its push: the unit `mu` with its buffer, or without. -/
def withUnit (f : Fifo) (mu : ℕ) (msgData : Option ℕ) : Fifo :=
  { f with
    handle := { f.handle with
      pushQueue := (rtDataQueuePushNow f.handle.pushQueue mu sizeofMsgUint).2 }
    mem := { f.mem with units := Function.update f.mem.units mu ⟨0, msgData⟩ } }

theorem msgInitStep_no_unit (hunit : ok heap.calls = false) :
    msgInitStep ok f heap = .stop (msgInitFail f ⟨heap.calls + 1, heap.live⟩) := by
  simp [msgInitStep, rtMalloc, hunit]

theorem msgInitStep_fault (hunit : ok heap.calls = true)
    (hqueue : f.handle.pushQueue.queue = none) : msgInitStep ok f heap = .stop .fault := by
  simp [msgInitStep, rtMalloc, hunit, hqueue]

theorem msgInitStep_no_buffer (hunit : ok heap.calls = true)
    (hqueue : f.handle.pushQueue.queue.isSome) (hbuf : ok (heap.calls + 1) = false) :
    msgInitStep ok f heap = .stop (msgInitFail (withUnit f heap.calls none)
      ⟨heap.calls + 2, (heap.calls, sizeofMsgUint) :: heap.live⟩) := by
  simp [msgInitStep, rtMalloc, hunit, hbuf, Option.isNone_eq_false_iff.mpr hqueue, withUnit]

theorem msgInitStep_next (ok : ℕ → Bool) (hunit : ok heap.calls = true)
    (hqueue : f.handle.pushQueue.queue.isSome) (hbuf : ok (heap.calls + 1) = true) :
    msgInitStep ok f heap = .next (withUnit f heap.calls (some (heap.calls + 1)))
      ⟨heap.calls + 2, (heap.calls + 1, f.handle.msgSize.toNat) ::
        (heap.calls, sizeofMsgUint) :: heap.live⟩ := by
  simp [msgInitStep, rtMalloc, hunit, hbuf, Option.isNone_eq_false_iff.mpr hqueue, withUnit]

/-- What one turn of the loop can do: the unit is refused, the push goes through
a NULL storage, the buffer is refused, or the loop goes on. -/
theorem msgInitStep_cases (ok : ℕ → Bool) (f : Fifo) (heap : Heap) :
    msgInitStep ok f heap = .stop (msgInitFail f ⟨heap.calls + 1, heap.live⟩) ∨
    msgInitStep ok f heap = .stop .fault ∨
    msgInitStep ok f heap = .stop (msgInitFail (withUnit f heap.calls none)
      ⟨heap.calls + 2, (heap.calls, sizeofMsgUint) :: heap.live⟩) ∨
    (ok heap.calls = true ∧ ok (heap.calls + 1) = true ∧
      msgInitStep ok f heap = .next (withUnit f heap.calls (some (heap.calls + 1)))
        ⟨heap.calls + 2, (heap.calls + 1, f.handle.msgSize.toNat) ::
          (heap.calls, sizeofMsgUint) :: heap.live⟩) := by
  cases hunit : ok heap.calls with
  | false => exact Or.inl (msgInitStep_no_unit hunit)
  | true =>
    cases hqueue : f.handle.pushQueue.queue with
    | none => exact Or.inr (Or.inl (msgInitStep_fault hunit hqueue))
    | some items =>
      have hsome : f.handle.pushQueue.queue.isSome := by simp [hqueue]
      cases hbuf : ok (heap.calls + 1) with
      | false => exact Or.inr (Or.inr (Or.inl (msgInitStep_no_buffer hunit hsome hbuf)))
      | true => exact Or.inr (Or.inr (Or.inr ⟨rfl, rfl, msgInitStep_next ok hunit hsome hbuf⟩))

theorem Kept.withUnit (h : Kept block f heap) {msgData : Option ℕ}
    (hdata : ∀ b, msgData = some b → heap.calls < b) :
    Apart block.1 (withUnit f heap.calls msgData) := by
  have hlt := h.lt
  have hunit : ∀ mu, (mu ≠ block.1 ∧ (f.mem.units mu).msgData ≠ some block.1) →
      (Function.update f.mem.units heap.calls ⟨0, msgData⟩ mu).msgData ≠ some block.1 := by
    intro mu hmu
    by_cases heq : mu = heap.calls
    · subst heq
      rw [Function.update_self]
      intro hsome
      have hb := hdata _ hsome
      omega
    · rw [Function.update_of_ne heq]
      exact hmu.2
  constructor
  case self => exact h.apart.self
  case push =>
    intro mu hmu
    rcases stores_push hmu with hold | rfl
    · exact ⟨(h.apart.push mu hold).1, hunit mu (h.apart.push mu hold)⟩
    · refine ⟨by omega, ?_⟩
      intro hsome
      rw [show (FifoLifetime.withUnit f heap.calls msgData).mem.units heap.calls =
        ⟨0, msgData⟩ from Function.update_self _ _ _] at hsome
      have hb := hdata _ hsome
      omega
  case pop =>
    intro mu hmu
    exact ⟨(h.apart.pop mu hmu).1, hunit mu (h.apart.pop mu hmu)⟩

theorem Kept.fail (h : Kept block f heap) : KeptEnd block (msgInitFail f heap) := by
  have hkeep := frees_keep h.live h.apart.not_freed
  rw [show (destoryFrees f).foldl (fun heap p => rtFree p heap) heap = _ from
    congrArg Prod.snd (msgDestory_frees f heap).symm] at hkeep
  exact hkeep

/-- One turn of the loop keeps the block, whatever rt_malloc answers. -/
theorem Kept.step (ok : ℕ → Bool) (h : Kept block f heap) :
    match msgInitStep ok f heap with
    | .next f' heap' => Kept block f' heap'
    | .stop r => KeptEnd block r := by
  have hlt := h.lt
  rcases msgInitStep_cases ok f heap with heq | heq | heq | ⟨_, _, heq⟩ <;> rw [heq]
  · exact Kept.fail ⟨h.apart, h.live, by dsimp only; omega⟩
  · trivial
  · exact Kept.fail ⟨h.withUnit (by simp), List.mem_cons_of_mem _ h.live, by dsimp only; omega⟩
  · refine ⟨h.withUnit ?_, ?_, by dsimp only; omega⟩
    · intro b hb
      have hbuf := Option.some.inj hb
      omega
    · exact List.mem_cons_of_mem _ (List.mem_cons_of_mem _ h.live)

theorem Kept.loop (n : ℕ) (h : Kept block f heap) : KeptEnd block (msgInitLoop ok n f heap) := by
  induction n generalizing f heap with
  | zero => exact h
  | succ n ih =>
    have hstep := h.step ok
    unfold msgInitLoop
    cases hnext : msgInitStep ok f heap with
    | next f' heap' =>
      rw [hnext] at hstep
      exact ih hstep
    | stop r =>
      rw [hnext] at hstep
      exact hstep

/-- A turn that goes on has found both its blocks. -/
theorem msgInitStep_inv (h : msgInitStep ok f heap = .next f' heap') :
    ok heap.calls = true ∧ ok (heap.calls + 1) = true ∧
      f' = FifoLifetime.withUnit f heap.calls (some (heap.calls + 1)) ∧
      heap' = ⟨heap.calls + 2, (heap.calls + 1, f.handle.msgSize.toNat) ::
        (heap.calls, sizeofMsgUint) :: heap.live⟩ := by
  rcases msgInitStep_cases ok f heap with heq | heq | heq | ⟨hunit, hbuf, heq⟩
  · simp [heq] at h
  · simp [heq] at h
  · simp [heq] at h
  · rw [heq] at h
    injection h with hf hheap
    exact ⟨hunit, hbuf, hf.symm, hheap.symm⟩

theorem msgInitStep_stop : msgInitStep ok f heap ≠ .stop (.handle f' heap') := by
  intro h
  rcases msgInitStep_cases ok f heap with heq | heq | heq | ⟨_, _, heq⟩ <;>
    simp [heq, msgInitFail] at h

/-- A loop that returns the handle has found every block it asked for. -/
theorem msgInitLoop_handle (n : ℕ) (h : msgInitLoop ok n f heap = .handle f' heap') :
    (∀ i < 2 * n, ok (heap.calls + i) = true) ∧
      f'.handle.popQueue = f.handle.popQueue := by
  induction n generalizing f heap with
  | zero =>
    cases h
    exact ⟨fun i hi => by omega, rfl⟩
  | succ n ih =>
    unfold msgInitLoop at h
    cases hnext : msgInitStep ok f heap with
    | stop r =>
      simp only [hnext] at h
      subst h
      exact absurd hnext msgInitStep_stop
    | next f₁ heap₁ =>
      simp only [hnext] at h
      obtain ⟨hunit, hbuf, hf, hheap⟩ := msgInitStep_inv hnext
      obtain ⟨hlater, hpop⟩ := ih h
      subst hf
      subst hheap
      refine ⟨?_, hpop⟩
      intro i hi
      rcases i with _ | _ | i
      · exact hunit
      · exact hbuf
      · have hok := hlater i (by omega)
        rwa [show heap.calls + (i + 1 + 1) = heap.calls + 2 + i by omega]

theorem msgInitLoop_congr (n : ℕ) (h : ∀ i < 2 * n, ok (heap.calls + i) = true) :
    msgInitLoop ok n f heap = msgInitLoop allocAll n f heap := by
  induction n generalizing f heap with
  | zero => rfl
  | succ n ih =>
    have hunit : ok heap.calls = true := h 0 (by omega)
    have hbuf : ok (heap.calls + 1) = true := h 1 (by omega)
    unfold msgInitLoop
    cases hqueue : f.handle.pushQueue.queue with
    | none => rw [msgInitStep_fault hunit hqueue, msgInitStep_fault rfl hqueue]
    | some items =>
      have hsome : f.handle.pushQueue.queue.isSome := by simp [hqueue]
      rw [msgInitStep_next ok hunit hsome hbuf, msgInitStep_next allocAll rfl hsome rfl]
      apply ih
      intro i hi
      have hok := h (i + 2) (by omega)
      rwa [show heap.calls + (i + 2) = heap.calls + 2 + i by omega] at hok

/-- Every unit that push_queue has stored is live with its buffer. -/
def Blocks (f : Fifo) (heap : Heap) : Prop :=
  ∀ mu, Stores f.handle.pushQueue mu → HasBlocks f.mem heap f.handle.msgSize mu

theorem Blocks.step (h : Blocks f heap) (hnext : msgInitStep ok f heap = .next f' heap') :
    Blocks f' heap' := by
  obtain ⟨_, _, hf, hheap⟩ := msgInitStep_inv hnext
  subst hf
  subst hheap
  intro mu hmu
  by_cases heq : mu = heap.calls
  · subst heq
    exact ⟨by simp, heap.calls + 1, by simp [FifoLifetime.withUnit],
      by simp [FifoLifetime.withUnit]⟩
  · obtain ⟨hlive, b, hb, hbuf⟩ := h mu ((stores_push hmu).resolve_right heq)
    refine ⟨List.mem_cons_of_mem _ (List.mem_cons_of_mem _ hlive), b, ?_,
      List.mem_cons_of_mem _ (List.mem_cons_of_mem _ hbuf)⟩
    simpa [FifoLifetime.withUnit, Function.update_of_ne heq] using hb

theorem Blocks.loop (n : ℕ) (h : Blocks f heap)
    (hloop : msgInitLoop ok n f heap = .handle f' heap') : Blocks f' heap' := by
  induction n generalizing f heap with
  | zero =>
    cases hloop
    exact h
  | succ n ih =>
    unfold msgInitLoop at hloop
    cases hnext : msgInitStep ok f heap with
    | stop r =>
      simp only [hnext] at hloop
      subst hloop
      exact absurd hnext msgInitStep_stop
    | next f₁ heap₁ =>
      simp only [hnext] at hloop
      exact ih (h.step hnext) hloop

/-- The cells rt_data_queue_init leaves, or no storage. -/
def storage (found : Bool) (fifoSize : UInt16) : Option (List (RtDataItem ℕ)) :=
  if found then some (List.replicate fifoSize.toNat ⟨none, 0⟩) else none

/-- The heap entry of the storage, if there is one. -/
def storageBlock (found : Bool) (p : ℕ) (fifoSize : UInt16) : List (ℕ × ℕ) :=
  if found then [(p, sizeofDataItem * fifoSize.toNat)] else []

/-- The handle at the head of the loop. -/
def startFifo (ok : ℕ → Bool) (mem : Memory) (p : ℕ) (msgSize fifoSize : UInt16) : Fifo :=
  ⟨p, ⟨⟨fifoSize, 0, 0, storage (ok (p + 1)) fifoSize⟩,
    ⟨fifoSize, 0, 0, storage (ok (p + 2)) fifoSize⟩, msgSize, fifoSize⟩, mem⟩

/-- The heap at the head of the loop. -/
def startHeap (ok : ℕ → Bool) (heap : Heap) (fifoSize : UInt16) : Heap :=
  ⟨heap.calls + 3, storageBlock (ok (heap.calls + 2)) (heap.calls + 2) fifoSize ++
    (storageBlock (ok (heap.calls + 1)) (heap.calls + 1) fifoSize ++
      (heap.calls, sizeofMsgHandle) :: heap.live)⟩

theorem msgInit_no_handle (mem : Memory) (msgSize fifoSize : UInt16)
    (hhandle : ok heap.calls = false) :
    msgInit ok mem heap msgSize fifoSize = .null ⟨heap.calls + 1, heap.live⟩ := by
  simp [msgInit, rtMalloc, hhandle]

theorem msgInit_start (hhandle : ok heap.calls = true) :
    msgInit ok mem heap msgSize fifoSize = msgInitLoop ok fifoSize.toNat
      (startFifo ok mem heap.calls msgSize fifoSize) (startHeap ok heap fifoSize) := by
  cases hpop : ok (heap.calls + 1) <;> cases hpush : ok (heap.calls + 2) <;>
    simp [msgInit, rtMalloc, hhandle, msgInitStart, rtDataQueueInit, hpop, hpush, startFifo,
      startHeap, storage, storageBlock]

theorem storage_stores {found : Bool} {mu : ℕ} {put get : UInt16} :
    ¬ Stores ⟨fifoSize, get, put, storage found fifoSize⟩ mu := by
  rintro ⟨item, hmem, hptr⟩
  unfold storage at hmem
  split at hmem
  · have heq := List.eq_of_mem_replicate hmem
    simp [heq] at hptr
  · simp at hmem

/-- A storage that was allocated is kept from the start of the loop on. -/
theorem Kept.start {i : ℕ} (hi : i = 1 ∨ i = 2) (hok : ok (heap.calls + i) = true) :
    Kept (heap.calls + i, sizeofDataItem * fifoSize.toNat)
      (startFifo ok mem heap.calls msgSize fifoSize) (startHeap ok heap fifoSize) where
  apart := {
    self := by
      change heap.calls ≠ heap.calls + i
      omega
    push := fun _ hmu => absurd hmu storage_stores
    pop := fun _ hmu => absurd hmu storage_stores
  }
  live := by
    rcases hi with rfl | rfl
    · simp [startHeap, storageBlock, hok]
    · simp [startHeap, storageBlock, hok]
  lt := by
    change heap.calls + i < heap.calls + 3
    omega

/-- However msg_init ends, the storages it got are still allocated. -/
theorem storage_kept (mem : Memory) (msgSize fifoSize : UInt16)
    (hhandle : ok heap.calls = true) {i : ℕ} (hi : i = 1 ∨ i = 2)
    (hok : ok (heap.calls + i) = true) :
    KeptEnd (heap.calls + i, sizeofDataItem * fifoSize.toNat)
      (msgInit ok mem heap msgSize fifoSize) := by
  rw [msgInit_start hhandle]
  exact (Kept.start hi hok).loop fifoSize.toNat

theorem msgInit_handle (h : msgInit ok mem heap msgSize fifoSize = .handle f heap') :
    ok heap.calls = true := by
  cases hhandle : ok heap.calls with
  | false => simp [msgInit_no_handle mem msgSize fifoSize hhandle] at h
  | true => rfl

/-- No run of calls leads msg_destory to a queue storage. -/
theorem destory_keeps_storage (h : msgInit ok mem heap msgSize fifoSize = .handle f heap')
    {i : ℕ} (hi : i = 1 ∨ i = 2) (hok : ok (heap.calls + i) = true) (calls : List Call) :
    heap.calls + i ∉ destoryFrees (calls.foldl after f) ∧
      (heap.calls + i, sizeofDataItem * fifoSize.toNat) ∈
        (msgDestory (some (calls.foldl after f)) heap').2.live := by
  have hend := storage_kept mem msgSize fifoSize (msgInit_handle h) hi hok
  rw [h] at hend
  have hnot := (hend.apart.moves (run_moves calls f)).not_freed
  refine ⟨hnot, ?_⟩
  rw [msgDestory_frees]
  exact frees_keep hend.live hnot

theorem msgInit_congr (h : ∀ i < 3 + 2 * fifoSize.toNat, ok (heap.calls + i) = true) :
    msgInit ok mem heap msgSize fifoSize = msgInit allocAll mem heap msgSize fifoSize := by
  have hhandle : ok heap.calls = true := h 0 (by omega)
  have hpop := h 1 (by omega)
  have hpush := h 2 (by omega)
  rw [msgInit_start hhandle, msgInit_start rfl, msgInitLoop_congr]
  · simp only [startFifo, startHeap, hpop, hpush, allocAll]
  · intro i hi
    change ok (heap.calls + 3 + i) = true
    rw [Nat.add_assoc]
    exact h (3 + i) (by omega)

theorem msgInit_popStorage (h : msgInit ok mem heap msgSize fifoSize = .handle f heap')
    (hsome : f.handle.popQueue.queue.isSome) : ok (heap.calls + 1) = true := by
  rw [msgInit_start (msgInit_handle h)] at h
  rw [(msgInitLoop_handle fifoSize.toNat h).2] at hsome
  cases hpop : ok (heap.calls + 1) with
  | true => rfl
  | false => simp [startFifo, storage, hpop] at hsome

theorem represents_stores {q : RtDataQueue ℕ} {us : List ℕ} (h : q.Represents us) {u : ℕ}
    (hu : u ∈ us) : Stores q u := by
  obtain ⟨i, hi, rfl⟩ := List.mem_iff_getElem.mp hu
  have hcell : q.cells (q.liveCell i) = some us[i] := h.holds i hi
  unfold cells at hcell
  obtain ⟨item, hitem, hptr⟩ := Option.bind_eq_some_iff.mp hcell
  exact ⟨item, List.mem_of_getElem? hitem, hptr⟩

/-- With every block found the handle is complete. -/
theorem msgInit_complete (mem : Memory) (msgSize : UInt16)
    (h : ∀ i < 3 + 2 * fifoSize.toNat, ok (heap.calls + i) = true)
    (hsize : 0 < fifoSize.toNat) :
    ∃ f heap', msgInit ok mem heap msgSize fifoSize = .handle f heap' ∧
      Complete f heap' msgSize fifoSize := by
  rw [msgInit_congr h]
  obtain ⟨f, heap', us, hinit, hfresh⟩ := msgInit_fresh mem heap msgSize fifoSize hsize
  have hblocks : Blocks f heap' := by
    rw [msgInit_start rfl] at hinit
    exact Blocks.loop fifoSize.toNat (fun _ hmu => absurd hmu storage_stores) hinit
  obtain ⟨popItems, hpopItems, _⟩ := hfresh.inv.popQueue.sized.storage
  obtain ⟨pushItems, hpushItems, _⟩ := hfresh.inv.pushQueue.sized.storage
  refine ⟨f, heap', hinit, by simp [hpopItems], by simp [hpushItems], us,
    hfresh.inv.pushQueue.entries_eq, ?_, hfresh.inv.units_nodup, hfresh.inv.buffers, ?_⟩
  · rw [hfresh.inv.length_units, hfresh.fifoSize_eq]
  · intro u hu
    have hhas := hblocks u (represents_stores hfresh.inv.pushQueue hu)
    rwa [hfresh.msgSize_eq] at hhas

/-- Nothing was found behind the handle: it is freed again. -/
theorem msgInit_nothing (mem : Memory) (msgSize : UInt16) (hhandle : ok heap.calls = true)
    (hpop : ok (heap.calls + 1) = false) (hpush : ok (heap.calls + 2) = false)
    (hunit : ok (heap.calls + 3) = false) (hsize : 0 < fifoSize.toNat) :
    msgInit ok mem heap msgSize fifoSize = .null (rtFree heap.calls ⟨heap.calls + 4,
      (heap.calls, sizeofMsgHandle) :: heap.live⟩) := by
  rw [msgInit_start hhandle]
  obtain ⟨n, hn⟩ : ∃ n, fifoSize.toNat = n + 1 := ⟨fifoSize.toNat - 1, by omega⟩
  rw [hn, msgInitLoop, msgInitStep_no_unit (by exact hunit)]
  simp [msgInitFail, startFifo, startHeap, storageBlock, hpop, hpush, freeUnits,
    rtDataQueuePopNow, rtDataQueuePop, RT_WAITING_NO, RT_EOK, RT_ETIMEOUT]

/-- A refused push_queue storage is written through as soon as a unit is found. -/
theorem msgInit_fault (hhandle : ok heap.calls = true) (hpush : ok (heap.calls + 2) = false)
    (hunit : ok (heap.calls + 3) = true) (hsize : 0 < fifoSize.toNat) :
    msgInit ok mem heap msgSize fifoSize = .fault := by
  rw [msgInit_start hhandle]
  obtain ⟨n, hn⟩ : ∃ n, fifoSize.toNat = n + 1 := ⟨fifoSize.toNat - 1, by omega⟩
  rw [hn, msgInitLoop, msgInitStep_fault (by exact hunit)]
  simp [startFifo, storage, hpush]

end Creation

section Claims

variable {ok : ℕ → Bool} {mem : Memory} {start : LiveHeap} {msgSize fifoSize : UInt16}

theorem rtFree_fresh (p : ℕ × ℕ) (calls : ℕ) (hp : p.1 = start.heap.calls) (block : ℕ × ℕ) :
    block ∈ (rtFree start.heap.calls ⟨calls, p :: start.heap.live⟩).live ↔
      block ∈ start.heap.live := by
  simp only [rtFree, List.mem_filter, List.mem_cons, decide_eq_true_eq]
  constructor
  · rintro ⟨rfl | hmem, hne⟩
    · exact absurd hp hne
    · exact hmem
  · intro hmem
    have hlt := start.fresh block hmem
    exact ⟨Or.inr hmem, by omega⟩

theorem not_live (i size : ℕ) : (start.heap.calls + i, size) ∉ start.heap.live := by
  intro hmem
  have hlt := start.fresh _ hmem
  simp only at hlt
  omega

/-- An all-or-nothing creation that got a storage returns the handle. -/
theorem Creation.handle_of_storage (h : Creation ok mem start.heap msgSize fifoSize)
    (hhandle : ok start.heap.calls = true) {i : ℕ} (hi : i = 1 ∨ i = 2)
    (hok : ok (start.heap.calls + i) = true) :
    ∃ f heap', msgInit ok mem start.heap msgSize fifoSize = .handle f heap' := by
  have hend := storage_kept mem msgSize fifoSize hhandle hi hok
  cases hinit : msgInit ok mem start.heap msgSize fifoSize with
  | fault => exact absurd hinit h.no_fault
  | null heap' =>
    rw [hinit] at hend
    exact absurd ((h.nothing heap' hinit _).mp hend) (not_live i _)
  | handle f heap' => exact ⟨f, heap', rfl⟩

/-- A complete handle has cost all the blocks. -/
theorem Creation.all_found (h : Creation ok mem start.heap msgSize fifoSize) {f : Fifo}
    {heap' : Heap} (hinit : msgInit ok mem start.heap msgSize fifoSize = .handle f heap')
    (hsize : 0 < fifoSize.toNat) :
    ∀ i < 3 + 2 * fifoSize.toNat, ok (start.heap.calls + i) = true := by
  have hhandle := msgInit_handle hinit
  have hpop := msgInit_popStorage hinit (h.all f heap' hinit).popStorage
  have hunits := hinit
  rw [msgInit_start hhandle] at hunits
  have hloop : ∀ i < 2 * fifoSize.toNat, ok (start.heap.calls + 3 + i) = true :=
    (msgInitLoop_handle fifoSize.toNat hunits).1
  have hpush : ok (start.heap.calls + 2) = true := by
    cases hpush : ok (start.heap.calls + 2) with
    | true => rfl
    | false => exact absurd (msgInit_fault hhandle hpush (hloop 0 (by omega)) hsize) h.no_fault
  intro i hi
  rcases i with _ | _ | _ | i
  · exact hhandle
  · exact hpop
  · exact hpush
  · have hok := hloop i (by omega)
    rwa [show start.heap.calls + (i + 1 + 1 + 1) = start.heap.calls + 3 + i by omega]

/-- What an all-or-nothing creation has found behind its handle. -/
theorem Creation.found (h : Creation ok mem start.heap msgSize fifoSize)
    (hhandle : ok start.heap.calls = true) (hsize : 0 < fifoSize.toNat) :
    (ok (start.heap.calls + 1) = false ∧ ok (start.heap.calls + 2) = false ∧
      ok (start.heap.calls + 3) = false) ∨
    ∀ i < 3 + 2 * fifoSize.toNat, ok (start.heap.calls + i) = true := by
  by_cases hfound : ok (start.heap.calls + 1) = true ∨ ok (start.heap.calls + 2) = true
  · have hreturned : ∃ f heap', msgInit ok mem start.heap msgSize fifoSize = .handle f heap' := by
      rcases hfound with hpop | hpush
      · exact h.handle_of_storage hhandle (Or.inl rfl) hpop
      · exact h.handle_of_storage hhandle (Or.inr rfl) hpush
    obtain ⟨f, heap', hinit⟩ := hreturned
    exact Or.inr (h.all_found hinit hsize)
  · simp only [not_or, Bool.not_eq_true] at hfound
    refine Or.inl ⟨hfound.1, hfound.2, ?_⟩
    cases hunit : ok (start.heap.calls + 3) with
    | false => rfl
    | true => exact absurd (msgInit_fault hhandle hfound.2 hunit hsize) h.no_fault

/-- A creation that returns NULL with the blocks it found live. -/
theorem creation_of_null {heap' : Heap}
    (hinit : msgInit ok mem start.heap msgSize fifoSize = .null heap')
    (hsame : ∀ block, block ∈ heap'.live ↔ block ∈ start.heap.live) :
    Creation ok mem start.heap msgSize fifoSize where
  nothing := by
    intro heap'' hnull
    rw [hinit] at hnull
    cases hnull
    exact hsame
  all := fun f heap'' hreturned => by simp [hinit] at hreturned
  no_fault := by simp [hinit]

/-- A creation that returns a complete handle. -/
theorem creation_of_handle {f : Fifo} {heap' : Heap}
    (hinit : msgInit ok mem start.heap msgSize fifoSize = .handle f heap')
    (hcomplete : Complete f heap' msgSize fifoSize) :
    Creation ok mem start.heap msgSize fifoSize where
  nothing := fun heap'' hnull => by simp [hinit] at hnull
  all := by
    intro f' heap'' hreturned
    rw [hinit] at hreturned
    cases hreturned
    exact hcomplete
  no_fault := by simp [hinit]

/-- Creation is all or nothing when it finds no handle, no block behind the
handle, or every block. -/
theorem creation_iff (hsize : 0 < fifoSize.toNat) :
    Creation ok mem start.heap msgSize fifoSize ↔
      ok start.heap.calls = false ∨
      (ok (start.heap.calls + 1) = false ∧ ok (start.heap.calls + 2) = false ∧
        ok (start.heap.calls + 3) = false) ∨
      ∀ i < 3 + 2 * fifoSize.toNat, ok (start.heap.calls + i) = true := by
  cases hhandle : ok start.heap.calls with
  | false =>
    have hinit := msgInit_no_handle mem msgSize fifoSize hhandle
    exact ⟨fun _ => Or.inl rfl, fun _ => creation_of_null hinit fun _ => Iff.rfl⟩
  | true =>
    constructor
    · exact fun h => Or.inr (h.found hhandle hsize)
    · rintro (hfalse | ⟨hpop, hpush, hunit⟩ | hall)
      · cases hfalse
      · have hinit := msgInit_nothing mem msgSize hhandle hpop hpush hunit hsize
        exact creation_of_null hinit (rtFree_fresh _ _ rfl)
      · obtain ⟨f, heap', hinit, hcomplete⟩ := msgInit_complete mem msgSize hall hsize
        exact creation_of_handle hinit hcomplete

/-- A complete handle is never destroyed completely, whatever was called on it. -/
theorem destory_incomplete {f : Fifo} {heap' : Heap}
    (hinit : msgInit ok mem start.heap msgSize fifoSize = .handle f heap')
    (h : Complete f heap' msgSize fifoSize) (calls : List Call) :
    ¬ ∀ block ∈ heap'.live, block ∉ start.heap.live →
      (destoryFrees (calls.foldl after f)).count block.1 = 1 := by
  intro hdestroyed
  have hpop := msgInit_popStorage hinit h.popStorage
  have hend := storage_kept mem msgSize fifoSize (msgInit_handle hinit) (Or.inl rfl) hpop
  rw [hinit] at hend
  have hcount := hdestroyed _ hend.live (not_live 1 _)
  rw [List.count_eq_zero.mpr (destory_keeps_storage hinit (Or.inl rfl) hpop calls).1] at hcount
  exact Nat.zero_ne_one hcount

/-- The life of a FIFO is in order only when it does not begin: the handle is
not found, or nothing behind it is. -/
theorem lifetime_iff (hsize : 0 < fifoSize.toNat) :
    Lifetime ok mem start.heap msgSize fifoSize ↔
      ok start.heap.calls = false ∨
      (ok (start.heap.calls + 1) = false ∧ ok (start.heap.calls + 2) = false ∧
        ok (start.heap.calls + 3) = false) := by
  constructor
  · intro h
    rcases (creation_iff hsize).mp h.creation with hno | hnothing | hall
    · exact Or.inl hno
    · exact Or.inr hnothing
    · obtain ⟨f, heap', hinit, hcomplete⟩ := msgInit_complete mem msgSize hall hsize
      exact absurd (h.destruction f heap' hinit []) (destory_incomplete hinit hcomplete [])
  · intro h
    have hnull : ∃ heap', msgInit ok mem start.heap msgSize fifoSize = .null heap' := by
      cases hhandle : ok start.heap.calls with
      | false => exact ⟨_, msgInit_no_handle mem msgSize fifoSize hhandle⟩
      | true =>
        rcases h with hfalse | ⟨hpop, hpush, hunit⟩
        · simp [hhandle] at hfalse
        · exact ⟨_, msgInit_nothing mem msgSize hhandle hpop hpush hunit hsize⟩
    obtain ⟨heap', hinit⟩ := hnull
    constructor
    case creation =>
      apply (creation_iff hsize).mpr
      exact h.elim Or.inl (fun hnothing => Or.inr (Or.inl hnothing))
    case stores => exact fun f heap'' hreturned => by simp [hinit] at hreturned
    case destruction => exact fun f heap'' hreturned => by simp [hinit] at hreturned

/-- The handle of one unit, destroyed at once: the storage of pop_queue stays. -/
theorem destory_leaks_storage :
    ¬ Lifetime allocAll ⟨fun _ => ⟨0, none⟩, fun _ => []⟩ ⟨0, []⟩ 490 1 := by
  intro h
  have hleak := h.destruction _ _ rfl [] (1, 8) (by decide) (by decide)
  revert hleak
  decide

/-- The handle is found and the three blocks behind it are refused. -/
theorem lifetime_iff_refused :
    Lifetime (fun n => n == 0 || decide (4 ≤ n)) ⟨fun _ => ⟨0, none⟩, fun _ => []⟩ ⟨0, []⟩
      490 5 := by
  have hsize : 0 < (5 : UInt16).toNat := by decide
  refine (@lifetime_iff _ _ ⟨⟨0, []⟩, by simp⟩ 490 5 hsize).mpr (Or.inr ?_)
  decide

end Claims

end GemhoNbiot.FifoLifetime
