import Mathlib.Data.Int.Notation
import GemhoNbiot.RingWindow

/-!
The data queue of rt_ext/dataqueue.c. The counters are 16-bit and free running,
the cells are addressed by the counter modulo the queue size, and the full test
compares the counters after promotion to int, so it is not taken modulo 65536.
The push and pop bodies run with interrupts disabled and are one step each; a
call that would suspend its thread has no result. The lists of suspended
threads and the low-water mark decide which thread runs next: they are in
QueueWait. The event callback is left out.
-/
namespace GemhoNbiot.Dataqueue

open RingWindow

def RT_EOK : ℤ := 0
def RT_ETIMEOUT : ℤ := 2
def RT_ENOMEM : ℤ := 5
def RT_WAITING_NO : ℤ := 0

structure RtDataItem (α : Type) where
  dataPtr : Option α
  dataSize : ℕ

/-- `queue = none` is a storage block that rt_malloc refused. -/
structure RtDataQueue (α : Type) where
  size : UInt16
  getIndex : UInt16
  putIndex : UInt16
  queue : Option (List (RtDataItem α))

/-- What a returning rt_data_queue_pop leaves in its out parameters. -/
structure Popped (α : Type) where
  ret : ℤ
  dataPtr : Option α
  dataSize : ℕ
  queue : RtDataQueue α

variable {α : Type}

/-- The heap as the live blocks with their sizes. Addresses are never reused;
the next one is the number of calls of rt_malloc so far. -/
structure Heap where
  calls : ℕ
  live : List (ℕ × ℕ)

/-- `ok` says which calls of rt_malloc find a block. -/
def rtMalloc (ok : ℕ → Bool) (size : ℕ) (heap : Heap) : Option ℕ × Heap :=
  if ok heap.calls then
    (some heap.calls, ⟨heap.calls + 1, (heap.calls, size) :: heap.live⟩)
  else
    (none, ⟨heap.calls + 1, heap.live⟩)

def rtFree (p : ℕ) (heap : Heap) : Heap :=
  { heap with live := heap.live.filter fun block => block.1 ≠ p }

def sizeofDataItem : ℕ := 8

def rtDataQueueInit (ok : ℕ → Bool) (heap : Heap) (size : UInt16) :
    ℤ × RtDataQueue α × Heap :=
  match rtMalloc ok (sizeofDataItem * size.toNat) heap with
  | (none, heap) => (-RT_ENOMEM, ⟨size, 0, 0, none⟩, heap)
  | (some _, heap) =>
    (RT_EOK, ⟨size, 0, 0, some (List.replicate size.toNat ⟨none, 0⟩)⟩, heap)

def rtDataQueuePush (q : RtDataQueue α) (dataPtr : α) (dataSize : ℕ) (timeout : ℤ) :
    Option (ℤ × RtDataQueue α) :=
  if (q.putIndex.toNat : ℤ) - q.getIndex.toNat = q.size.toNat then
    if timeout = 0 then some (-RT_ETIMEOUT, q) else none
  else
    some (RT_EOK, { q with
      queue := q.queue.map fun items =>
        items.set (q.putIndex.toNat % q.size.toNat) ⟨some dataPtr, dataSize⟩
      putIndex := q.putIndex + 1 })

def rtDataQueuePop (q : RtDataQueue α) (timeout : ℤ) : Option (Popped α) :=
  if q.getIndex = q.putIndex then
    if timeout = 0 then some ⟨-RT_ETIMEOUT, none, 0, q⟩ else none
  else
    let item := ((q.queue.getD [])[q.getIndex.toNat % q.size.toNat]?).getD ⟨none, 0⟩
    some ⟨RT_EOK, item.dataPtr, item.dataSize, { q with getIndex := q.getIndex + 1 }⟩

/-- A push that may not wait never suspends. -/
def rtDataQueuePushNow (q : RtDataQueue α) (dataPtr : α) (dataSize : ℕ) :
    ℤ × RtDataQueue α :=
  (rtDataQueuePush q dataPtr dataSize RT_WAITING_NO).getD (-RT_ETIMEOUT, q)

/-- A pop that may not wait never suspends. -/
def rtDataQueuePopNow (q : RtDataQueue α) : Popped α :=
  (rtDataQueuePop q RT_WAITING_NO).getD ⟨-RT_ETIMEOUT, none, 0, q⟩

namespace RtDataQueue

/-- Pointer stored in a cell of the queue. -/
def cells (q : RtDataQueue α) (k : ℕ) : Option α :=
  ((q.queue.getD [])[k]?).bind (·.dataPtr)

/-- Number of live entries, as the distance of the 16-bit counters. -/
def count (q : RtDataQueue α) : ℕ := (q.putIndex - q.getIndex).toNat

/-- Cell of the `i`th live entry. -/
def liveCell (q : RtDataQueue α) (i : ℕ) : ℕ :=
  cell 65536 q.size.toNat q.getIndex.toNat i

/-- The live entries, oldest first. -/
def entries (q : RtDataQueue α) : List (Option α) :=
  (List.range q.count).map fun i => q.cells (q.liveCell i)

/-- Storage is present and the counters describe `len` entries. -/
structure Sized (q : RtDataQueue α) (len : ℕ) : Prop where
  sizePos : 0 < q.size.toNat
  storage : ∃ items, q.queue = some items ∧ items.length = q.size.toNat
  bound : len ≤ q.size.toNat
  putIndex_eq : (q.getIndex.toNat + len) % 65536 = q.putIndex.toNat

/-- No two of the first `len` entries can share a cell. -/
def Straight (q : RtDataQueue α) (len : ℕ) : Prop :=
  RingWindow.Straight 65536 q.size.toNat q.getIndex.toNat len

/-- The queue stores exactly the pointers `xs`, oldest first. -/
structure Represents (q : RtDataQueue α) (xs : List α) : Prop where
  sized : q.Sized xs.length
  holds : Holds 65536 q.size.toNat q.getIndex.toNat q.cells xs

theorem Sized.count_eq {q : RtDataQueue α} {len : ℕ} (h : q.Sized len) :
    q.count = len := by
  have hput := h.putIndex_eq
  have hbound := h.bound
  have hsize := q.size.toNat_lt
  have hget := q.getIndex.toNat_lt
  unfold count
  rw [UInt16.toNat_sub, ← hput]
  omega

theorem Sized.empty_iff {q : RtDataQueue α} {len : ℕ} (h : q.Sized len) :
    q.getIndex = q.putIndex ↔ len = 0 := by
  have hput := h.putIndex_eq
  have hbound := h.bound
  have hsize := q.size.toNat_lt
  have hget := q.getIndex.toNat_lt
  rw [← UInt16.toNat_inj, ← hput]
  omega

/-- The promoted difference of the counters can only equal the size when the
queue is full: before the wrap it is the length, across it it is negative. -/
theorem Sized.not_full {q : RtDataQueue α} {len : ℕ} (h : q.Sized len)
    (hlen : len < q.size.toNat) :
    (q.putIndex.toNat : ℤ) - q.getIndex.toNat ≠ q.size.toNat := by
  have hput := h.putIndex_eq
  have hget := q.getIndex.toNat_lt
  omega

theorem Sized.put_cell {q : RtDataQueue α} {len : ℕ} (h : q.Sized len) :
    q.putIndex.toNat % q.size.toNat = q.liveCell len := by
  rw [← h.putIndex_eq]
  rfl

/-- The queue after a successful push. -/
def pushed (q : RtDataQueue α) (dataPtr : α) (dataSize : ℕ) : RtDataQueue α :=
  { q with
    queue := q.queue.map fun items =>
      items.set (q.putIndex.toNat % q.size.toNat) ⟨some dataPtr, dataSize⟩
    putIndex := q.putIndex + 1 }

/-- The queue after a successful pop. -/
def popped (q : RtDataQueue α) : RtDataQueue α :=
  { q with getIndex := q.getIndex + 1 }

@[simp] theorem pushed_size (q : RtDataQueue α) (x : α) (n : ℕ) :
    (q.pushed x n).size = q.size := rfl

@[simp] theorem pushed_getIndex (q : RtDataQueue α) (x : α) (n : ℕ) :
    (q.pushed x n).getIndex = q.getIndex := rfl

@[simp] theorem pushed_putIndex (q : RtDataQueue α) (x : α) (n : ℕ) :
    (q.pushed x n).putIndex = q.putIndex + 1 := rfl

@[simp] theorem popped_size (q : RtDataQueue α) : q.popped.size = q.size := rfl

@[simp] theorem popped_getIndex (q : RtDataQueue α) :
    q.popped.getIndex = q.getIndex + 1 := rfl

@[simp] theorem popped_putIndex (q : RtDataQueue α) :
    q.popped.putIndex = q.putIndex := rfl

@[simp] theorem popped_cells (q : RtDataQueue α) : q.popped.cells = q.cells := rfl

theorem Sized.pushed {q : RtDataQueue α} {len : ℕ} (h : q.Sized len)
    (hlen : len < q.size.toNat) (x : α) (n : ℕ) : (q.pushed x n).Sized (len + 1) where
  sizePos := h.sizePos
  storage := by
    obtain ⟨items, hitems, hlength⟩ := h.storage
    exact ⟨items.set (q.putIndex.toNat % q.size.toNat) ⟨some x, n⟩,
      by simp [RtDataQueue.pushed, hitems], by simpa using hlength⟩
  bound := hlen
  putIndex_eq := by
    have hput := h.putIndex_eq
    rw [pushed_putIndex, pushed_getIndex, UInt16.toNat_add, ← hput]
    simp only [UInt16.toNat_one]
    omega

theorem Sized.popped {q : RtDataQueue α} {len : ℕ} (h : q.Sized (len + 1)) :
    q.popped.Sized len where
  sizePos := h.sizePos
  storage := h.storage
  bound := by
    have hbound := h.bound
    simpa using Nat.le_of_succ_le hbound
  putIndex_eq := by
    have hput := h.putIndex_eq
    rw [popped_putIndex, popped_getIndex, UInt16.toNat_add, ← hput]
    simp only [UInt16.toNat_one]
    omega

/-- A push writes exactly the cell under the put counter. -/
theorem Sized.pushed_cells {q : RtDataQueue α} {len : ℕ} (h : q.Sized len)
    (x : α) (n : ℕ) :
    (q.pushed x n).cells = Function.update q.cells (q.liveCell len) (some x) := by
  obtain ⟨items, hitems, hlength⟩ := h.storage
  have hlt : q.liveCell len < items.length := by
    rw [hlength]
    exact cell_lt _ _ _ _ h.sizePos
  funext k
  simp only [cells, RtDataQueue.pushed, hitems, Option.map_some, Option.getD_some, h.put_cell]
  by_cases hk : k = q.liveCell len
  · subst k
    simp [hlt]
  · have hne : q.liveCell len ≠ k := Ne.symm hk
    rw [Function.update_of_ne hk, List.getElem?_set_ne hne]
    simp only [cells, hitems, Option.getD_some]

end RtDataQueue

open RtDataQueue

theorem rtDataQueuePush_eq {q : RtDataQueue α} {len : ℕ} (h : q.Sized len)
    (hlen : len < q.size.toNat) (x : α) (n : ℕ) (timeout : ℤ) :
    rtDataQueuePush q x n timeout = some (RT_EOK, q.pushed x n) := by
  unfold rtDataQueuePush
  rw [if_neg (h.not_full hlen)]
  rfl

theorem rtDataQueuePop_empty {q : RtDataQueue α} (h : q.Sized 0) (timeout : ℤ) :
    rtDataQueuePop q timeout =
      if timeout = 0 then some ⟨-RT_ETIMEOUT, none, 0, q⟩ else none := by
  unfold rtDataQueuePop
  rw [if_pos (h.empty_iff.mpr rfl)]

theorem rtDataQueuePop_eq {q : RtDataQueue α} {len : ℕ} (h : q.Sized (len + 1)) :
    ∃ n, ∀ timeout, rtDataQueuePop q timeout =
      some ⟨RT_EOK, q.cells (q.liveCell 0), n, q.popped⟩ := by
  have hne : q.getIndex ≠ q.putIndex := by
    rw [ne_eq, h.empty_iff]
    omega
  have hcell : q.getIndex.toNat % q.size.toNat = q.liveCell 0 := by
    have hget := q.getIndex.toNat_lt
    unfold liveCell cell
    rw [Nat.add_zero, Nat.mod_eq_of_lt (b := 65536) hget]
  simp only [rtDataQueuePop, if_neg hne, hcell, cells]
  cases (q.queue.getD [])[q.liveCell 0]? <;> exact ⟨_, fun _ => rfl⟩

namespace RtDataQueue

theorem Represents.pushed {q : RtDataQueue α} {xs : List α} (h : q.Represents xs)
    (hlen : xs.length < q.size.toNat) (hs : q.Straight (xs.length + 1))
    (x : α) (n : ℕ) : (q.pushed x n).Represents (xs ++ [x]) where
  sized := by simpa using h.sized.pushed hlen x n
  holds := by
    rw [h.sized.pushed_cells x n]
    exact h.holds.snoc hs hlen x

theorem Straight.popped {q : RtDataQueue α} {len : ℕ} (h : q.Straight (len + 1)) :
    q.popped.Straight len := by
  have htail := RingWindow.Straight.tail h
  simpa [Straight, UInt16.toNat_add] using htail

theorem Represents.popped {q : RtDataQueue α} {x : α} {xs : List α}
    (h : q.Represents (x :: xs)) : q.popped.Represents xs where
  sized := h.sized.popped
  holds := by
    have hholds := h.holds.tail
    simpa [UInt16.toNat_add] using hholds

theorem Represents.entries_eq {q : RtDataQueue α} {xs : List α} (h : q.Represents xs) :
    q.entries = xs.map some := by
  apply List.ext_getElem
  · simp [entries, h.sized.count_eq]
  · intro i hi hi'
    have hlt : i < xs.length := by simpa using hi'
    have hcell : q.cells (q.liveCell i) = some xs[i] := h.holds i hlt
    simp [entries, hcell]

end RtDataQueue

theorem rtDataQueuePop_cons {q : RtDataQueue α} {x : α} {xs : List α}
    (h : q.Represents (x :: xs)) (timeout : ℤ) :
    ∃ n, rtDataQueuePop q timeout = some ⟨RT_EOK, some x, n, q.popped⟩ := by
  have hx : q.cells (q.liveCell 0) = some x := h.holds.head
  have hsized : q.Sized (xs.length + 1) := h.sized
  rw [← hx]
  obtain ⟨n, hpop⟩ := rtDataQueuePop_eq hsized
  exact ⟨n, hpop timeout⟩

theorem rtDataQueuePushNow_eq {q : RtDataQueue α} {len : ℕ} (h : q.Sized len)
    (hlen : len < q.size.toNat) (x : α) (n : ℕ) :
    rtDataQueuePushNow q x n = (RT_EOK, q.pushed x n) := by
  unfold rtDataQueuePushNow
  rw [rtDataQueuePush_eq h hlen]
  rfl

theorem rtDataQueuePopNow_empty {q : RtDataQueue α} (h : q.Sized 0) :
    rtDataQueuePopNow q = ⟨-RT_ETIMEOUT, none, 0, q⟩ := by
  unfold rtDataQueuePopNow
  rw [rtDataQueuePop_empty h]
  rfl

theorem rtDataQueuePopNow_cons {q : RtDataQueue α} {x : α} {xs : List α}
    (h : q.Represents (x :: xs)) :
    ∃ n, rtDataQueuePopNow q = ⟨RT_EOK, some x, n, q.popped⟩ := by
  obtain ⟨n, hpop⟩ := rtDataQueuePop_cons h RT_WAITING_NO
  exact ⟨n, by unfold rtDataQueuePopNow; rw [hpop]; rfl⟩

/-- A queue as rt_data_queue_init leaves it when its storage was allocated. -/
def emptyQueue (size : UInt16) : RtDataQueue α :=
  ⟨size, 0, 0, some (List.replicate size.toNat ⟨none, 0⟩)⟩

theorem emptyQueue_represents (size : UInt16) (hsize : 0 < size.toNat) :
    (emptyQueue size : RtDataQueue α).Represents [] where
  sized := {
    sizePos := hsize
    storage := ⟨_, rfl, by simp [emptyQueue]⟩
    bound := Nat.zero_le _
    putIndex_eq := rfl
  }
  holds := holds_nil _ _ _ _

end GemhoNbiot.Dataqueue
