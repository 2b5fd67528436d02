import Mathlib.Data.List.GetD
import GemhoNbiot.DropOldest
import GemhoNbiot.RingWindow

/-!
The ring buffer of rt_ext/ringbuffer.c and the two loops of rt_ext/pipe.c over it.
Each index has a mirror bit that is flipped at the end of the buffer: with equal
indices the ring is empty if the mirrors agree and full if they do not, so that no
cell has to stay free. To its callers it is a queue of buffer_size bytes.
-/
namespace GemhoNbiot.RingBuffer

open RingWindow

/-- rt_ringbuffer. The memory behind a pointer is a function of the offset. -/
structure RtRingbuffer where
  bufferPtr : ℕ → UInt8
  readMirror : Bool
  readIndex : ℕ
  writeMirror : Bool
  writeIndex : ℕ
  bufferSize : ℕ

/-- rt_ringbuffer_state. -/
inductive RtRingbufferState
  | empty
  | full
  | halffull
deriving DecidableEq

/-- `n` bytes from `src` to the offset `pos` of `dst`. -/
def memcpy (dst : ℕ → UInt8) (pos : ℕ) (src : ℕ → UInt8) (n : ℕ) : ℕ → UInt8 :=
  fun i => if pos ≤ i ∧ i < pos + n then src (i - pos) else dst i

/-- RT_ALIGN_SIZE. -/
def alignSize : ℕ := 4

/-- rt_ringbuffer_init. -/
def init (pool : ℕ → UInt8) (size : ℕ) : RtRingbuffer where
  bufferPtr := pool
  readMirror := false
  readIndex := 0
  writeMirror := false
  writeIndex := 0
  bufferSize := size - size % alignSize

def status (rb : RtRingbuffer) : RtRingbufferState :=
  if rb.readIndex = rb.writeIndex then
    if rb.readMirror = rb.writeMirror then .empty else .full
  else
    .halffull

def dataLen (rb : RtRingbuffer) : ℕ :=
  match status rb with
  | .empty => 0
  | .full => rb.bufferSize
  | .halffull =>
    if rb.writeIndex > rb.readIndex then rb.writeIndex - rb.readIndex
    else rb.bufferSize - (rb.readIndex - rb.writeIndex)

def spaceLen (rb : RtRingbuffer) : ℕ := rb.bufferSize - dataLen rb

/-- The copies of rt_ringbuffer_put and rt_ringbuffer_put_force, with the step of the
write index behind them. -/
def store (rb : RtRingbuffer) (ptr : ℕ → UInt8) (n : ℕ) : RtRingbuffer :=
  let tail := rb.bufferSize - rb.writeIndex
  if tail > n then
    { rb with
      bufferPtr := memcpy rb.bufferPtr rb.writeIndex ptr n
      writeIndex := rb.writeIndex + n }
  else
    { rb with
      bufferPtr := memcpy (memcpy rb.bufferPtr rb.writeIndex ptr tail) 0
        (fun i => ptr (tail + i)) (n - tail)
      writeMirror := !rb.writeMirror
      writeIndex := n - tail }

/-- rt_ringbuffer_put, with its result. -/
def put (rb : RtRingbuffer) (ptr : ℕ → UInt8) (length : UInt16) : ℕ × RtRingbuffer :=
  let size := spaceLen rb
  if size = 0 then
    (0, rb)
  else
    let n := if size < length.toNat then size else length.toNat
    (n, store rb ptr n)

/-- rt_ringbuffer_put_force. -/
def putForce (rb : RtRingbuffer) (ptr : ℕ → UInt8) (length : UInt16) : ℕ × RtRingbuffer :=
  let spaceLength := spaceLen rb
  let n := if length.toNat > spaceLength then rb.bufferSize else length.toNat
  let out := store rb ptr n
  if rb.bufferSize - rb.writeIndex > n then
    if n > spaceLength then (n, { out with readIndex := out.writeIndex }) else (n, out)
  else
    if n > spaceLength then
      (n, { out with readMirror := !out.readMirror, readIndex := out.writeIndex })
    else
      (n, out)

/-- rt_ringbuffer_get: its result, the memory at `ptr` and the ring. -/
def get (rb : RtRingbuffer) (ptr : ℕ → UInt8) (length : UInt16) :
    ℕ × (ℕ → UInt8) × RtRingbuffer :=
  let size := dataLen rb
  if size = 0 then
    (0, ptr, rb)
  else
    let n := if size < length.toNat then size else length.toNat
    let tail := rb.bufferSize - rb.readIndex
    if tail > n then
      (n, memcpy ptr 0 (fun i => rb.bufferPtr (rb.readIndex + i)) n,
        { rb with readIndex := rb.readIndex + n })
    else
      (n, memcpy (memcpy ptr 0 (fun i => rb.bufferPtr (rb.readIndex + i)) tail) tail
          rb.bufferPtr (n - tail),
        { rb with readMirror := !rb.readMirror, readIndex := n - tail })

def putchar (rb : RtRingbuffer) (ch : UInt8) : ℕ × RtRingbuffer :=
  if spaceLen rb = 0 then
    (0, rb)
  else
    let rb := { rb with bufferPtr := Function.update rb.bufferPtr rb.writeIndex ch }
    if rb.writeIndex = rb.bufferSize - 1 then
      (1, { rb with writeMirror := !rb.writeMirror, writeIndex := 0 })
    else
      (1, { rb with writeIndex := rb.writeIndex + 1 })

/-- rt_ringbuffer_putchar_force. -/
def putcharForce (rb : RtRingbuffer) (ch : UInt8) : ℕ × RtRingbuffer :=
  let oldState := status rb
  let rb := { rb with bufferPtr := Function.update rb.bufferPtr rb.writeIndex ch }
  if rb.writeIndex = rb.bufferSize - 1 then
    let rb := { rb with writeMirror := !rb.writeMirror, writeIndex := 0 }
    if oldState = .full then
      (1, { rb with readMirror := !rb.readMirror, readIndex := rb.writeIndex })
    else
      (1, rb)
  else
    let rb := { rb with writeIndex := rb.writeIndex + 1 }
    if oldState = .full then (1, { rb with readIndex := rb.writeIndex }) else (1, rb)

/-- rt_ringbuffer_getchar; the byte is stored at `ch`. -/
def getchar (rb : RtRingbuffer) (ch : ℕ → UInt8) : ℕ × (ℕ → UInt8) × RtRingbuffer :=
  if dataLen rb = 0 then
    (0, ch, rb)
  else
    let ch := Function.update ch 0 (rb.bufferPtr rb.readIndex)
    if rb.readIndex = rb.bufferSize - 1 then
      (1, ch, { rb with readMirror := !rb.readMirror, readIndex := 0 })
    else
      (1, ch, { rb with readIndex := rb.readIndex + 1 })

def reset (rb : RtRingbuffer) : RtRingbuffer :=
  { rb with readMirror := false, readIndex := 0, writeMirror := false, writeIndex := 0 }

/-- The memory at a pointer after a call that was handed the pointer plus `pos`. -/
def splice (buffer : ℕ → UInt8) (pos : ℕ) (out : ℕ → UInt8) : ℕ → UInt8 :=
  fun i => if pos ≤ i then out (i - pos) else buffer i

/-- The loop of rt_pipe_read; `count - readBytes` is cut to the sixteen bits of the
parameter. -/
def pipeReadLoop (rb : RtRingbuffer) (buffer : ℕ → UInt8) (count readBytes : ℕ) :
    ℕ × (ℕ → UInt8) × RtRingbuffer :=
  if readBytes < count then
    let (len, out, rb) :=
      get rb (fun i => buffer (readBytes + i)) (UInt16.ofNat (count - readBytes))
    let buffer := splice buffer readBytes out
    if len = 0 then
      (readBytes, buffer, rb)
    else
      pipeReadLoop rb buffer count (readBytes + len)
  else
    (readBytes, buffer, rb)
termination_by count - readBytes

/-- The loop of rt_pipe_write. -/
def pipeWriteLoop (rb : RtRingbuffer) (buffer : ℕ → UInt8) (count writeBytes : ℕ) :
    ℕ × RtRingbuffer :=
  if writeBytes < count then
    let (len, rb) :=
      put rb (fun i => buffer (writeBytes + i)) (UInt16.ofNat (count - writeBytes))
    if len = 0 then (writeBytes, rb) else pipeWriteLoop rb buffer count (writeBytes + len)
  else
    (writeBytes, rb)
termination_by count - writeBytes

def rtPipeRead (fifo : RtRingbuffer) (buffer : ℕ → UInt8) (count : ℕ) :
    ℕ × (ℕ → UInt8) × RtRingbuffer :=
  if count = 0 then (0, buffer, fifo) else pipeReadLoop fifo buffer count 0

def rtPipeWrite (fifo : RtRingbuffer) (buffer : ℕ → UInt8) (count : ℕ) : ℕ × RtRingbuffer :=
  if count = 0 then (0, fifo) else pipeWriteLoop fifo buffer count 0

/-- The bytes of the block of length `n` at `ptr`. -/
def block (ptr : ℕ → UInt8) (n : ℕ) : List UInt8 := (List.range n).map ptr

@[simp] theorem length_block (ptr : ℕ → UInt8) (n : ℕ) : (block ptr n).length = n := by
  simp [block]

/-- What a cell of the buffer holds. -/
def RtRingbuffer.cells (rb : RtRingbuffer) (k : ℕ) : Option UInt8 := some (rb.bufferPtr k)

/-- The ring stores exactly the bytes `q`, oldest first. -/
structure Represents (rb : RtRingbuffer) (q : List UInt8) : Prop where
  readIndex_lt : rb.readIndex < rb.bufferSize
  length_le : q.length ≤ rb.bufferSize
  writeIndex_eq : rb.writeIndex = (rb.readIndex + q.length) % rb.bufferSize
  mirror : rb.writeMirror =
    (rb.readMirror ^^ decide (rb.bufferSize ≤ rb.readIndex + q.length))
  holds : Holds rb.bufferSize rb.bufferSize rb.readIndex rb.cells q

theorem init_represents (pool : ℕ → UInt8) (size : ℕ) (h : alignSize ≤ size) :
    Represents (init pool size) [] := by
  have hpos : 0 < size - size % alignSize := by
    unfold alignSize at h ⊢
    omega
  refine ⟨hpos, Nat.zero_le _, ?_, ?_, holds_nil _ _ _ _⟩
  · exact (Nat.zero_mod _).symm
  · have hnot : ¬ (init pool size).bufferSize ≤
        (init pool size).readIndex + ([] : List UInt8).length :=
      Nat.not_le_of_gt hpos
    rw [decide_eq_false hnot]
    rfl

/-- One turn of an index around the ring at most. -/
theorem wrap_eq {a n : ℕ} (h : a < 2 * n) : a % n = if n ≤ a then a - n else a := by
  by_cases hle : n ≤ a
  · rw [if_pos hle, Nat.mod_eq_sub_mod hle, Nat.mod_eq_of_lt (by omega)]
  · rw [if_neg hle, Nat.mod_eq_of_lt (by omega)]

section Ring

variable {rb : RtRingbuffer} {q : List UInt8}

theorem Represents.writeIndex_lt (h : Represents rb q) : rb.writeIndex < rb.bufferSize := by
  rw [h.writeIndex_eq]
  exact Nat.mod_lt _ (Nat.zero_lt_of_lt h.readIndex_lt)

theorem Represents.status_eq (h : Represents rb q) :
    status rb = if q.length = 0 then .empty
      else if q.length = rb.bufferSize then .full else .halffull := by
  have hr := h.readIndex_lt
  have hlen := h.length_le
  have hw := h.writeIndex_eq
  rw [wrap_eq (by omega)] at hw
  unfold status
  rw [h.mirror]
  by_cases hzero : q.length = 0
  · have hidx : rb.readIndex = rb.writeIndex := by
      rw [hw, if_neg (by omega)]
      omega
    rw [if_pos hidx, if_pos hzero, if_pos]
    rw [decide_eq_false (by omega), Bool.xor_false]
  · by_cases hfull : q.length = rb.bufferSize
    · have hidx : rb.readIndex = rb.writeIndex := by
        rw [hw, if_pos (by omega)]
        omega
      rw [if_pos hidx, if_neg hzero, if_pos hfull, if_neg]
      simp [hfull]
    · have hidx : rb.readIndex ≠ rb.writeIndex := by
        rw [hw]
        split <;> omega
      rw [if_neg hidx, if_neg hzero, if_neg hfull]

theorem Represents.dataLen_eq (h : Represents rb q) : dataLen rb = q.length := by
  have hr := h.readIndex_lt
  have hlen := h.length_le
  have hw := h.writeIndex_eq
  rw [wrap_eq (by omega)] at hw
  unfold dataLen
  rw [h.status_eq]
  by_cases hzero : q.length = 0
  · simp only [hzero, if_true]
  · by_cases hfull : q.length = rb.bufferSize
    · simp only [if_neg hzero, if_pos hfull]
      exact hfull.symm
    · simp only [if_neg hzero, if_neg hfull]
      split at hw
      · rw [if_neg (by omega)]
        omega
      · rw [if_pos (by omega)]
        omega

theorem Represents.spaceLen_eq (h : Represents rb q) :
    spaceLen rb = rb.bufferSize - q.length := by
  rw [spaceLen, h.dataLen_eq]

theorem Represents.full_iff (h : Represents rb q) :
    status rb = .full ↔ q.length = rb.bufferSize := by
  have hr := h.readIndex_lt
  rw [h.status_eq]
  by_cases hzero : q.length = 0
  · simp only [hzero, if_true]
    exact iff_of_false (by decide) (by omega)
  · rw [if_neg hzero]
    by_cases hfull : q.length = rb.bufferSize <;> simp [hfull]

/-- Behind the write index, once around: the bytes at `ptr` first, then the old ones. -/
theorem store_bufferPtr (ptr : ℕ → UInt8) {n j : ℕ} (hw : rb.writeIndex < rb.bufferSize)
    (hn : n ≤ rb.bufferSize) (hj : j < rb.bufferSize) :
    (store rb ptr n).bufferPtr ((rb.writeIndex + j) % rb.bufferSize) =
      if j < n then ptr j else rb.bufferPtr ((rb.writeIndex + j) % rb.bufferSize) := by
  rw [wrap_eq (by omega)]
  unfold store memcpy
  by_cases hone : rb.bufferSize - rb.writeIndex > n
  · simp only [if_pos hone]
    by_cases hwrap : rb.bufferSize ≤ rb.writeIndex + j
    · simp only [if_pos hwrap]
      rw [if_neg (by omega), if_neg (by omega)]
    · simp only [if_neg hwrap]
      by_cases hjn : j < n
      · rw [if_pos (by omega), if_pos hjn, Nat.add_sub_cancel_left]
      · rw [if_neg (by omega), if_neg hjn]
  · simp only [if_neg hone]
    by_cases hwrap : rb.bufferSize ≤ rb.writeIndex + j
    · simp only [if_pos hwrap]
      by_cases hjn : j < n
      · rw [if_pos (by omega), if_pos hjn]
        congr 1
        omega
      · rw [if_neg (by omega), if_neg (by omega), if_neg hjn]
    · simp only [if_neg hwrap]
      rw [if_neg (by omega), if_pos (by omega), if_pos (by omega), Nat.add_sub_cancel_left]

theorem store_writeIndex (ptr : ℕ → UInt8) {n : ℕ} (hw : rb.writeIndex < rb.bufferSize)
    (hn : n ≤ rb.bufferSize) :
    (store rb ptr n).writeIndex = (rb.writeIndex + n) % rb.bufferSize := by
  rw [wrap_eq (by omega)]
  unfold store
  by_cases hone : rb.bufferSize - rb.writeIndex > n
  · simp only [if_pos hone]
    rw [if_neg (by omega)]
  · simp only [if_neg hone]
    rw [if_pos (by omega)]
    omega

theorem store_writeMirror (ptr : ℕ → UInt8) {n : ℕ} (hw : rb.writeIndex < rb.bufferSize) :
    (store rb ptr n).writeMirror =
      (rb.writeMirror ^^ decide (rb.bufferSize ≤ rb.writeIndex + n)) := by
  unfold store
  by_cases hone : rb.bufferSize - rb.writeIndex > n
  · simp only [if_pos hone]
    rw [decide_eq_false (by omega), Bool.xor_false]
  · simp only [if_neg hone]
    rw [decide_eq_true (by omega), Bool.xor_true]

@[simp] theorem store_readIndex (rb : RtRingbuffer) (ptr : ℕ → UInt8) (n : ℕ) :
    (store rb ptr n).readIndex = rb.readIndex := by
  simp only [store]
  split <;> rfl

@[simp] theorem store_readMirror (rb : RtRingbuffer) (ptr : ℕ → UInt8) (n : ℕ) :
    (store rb ptr n).readMirror = rb.readMirror := by
  simp only [store]
  split <;> rfl

@[simp] theorem store_bufferSize (rb : RtRingbuffer) (ptr : ℕ → UInt8) (n : ℕ) :
    (store rb ptr n).bufferSize = rb.bufferSize := by
  simp only [store]
  split <;> rfl

/-- The window of the bytes just stored. -/
theorem store_holds_block (ptr : ℕ → UInt8) {n : ℕ} (hw : rb.writeIndex < rb.bufferSize)
    (hn : n ≤ rb.bufferSize) :
    Holds rb.bufferSize rb.bufferSize rb.writeIndex (store rb ptr n).cells (block ptr n) := by
  intro j hj
  rw [length_block] at hj
  have hcell := store_bufferPtr ptr hw hn (show j < rb.bufferSize by omega)
  rw [if_pos hj] at hcell
  rw [cell, Nat.mod_mod, RtRingbuffer.cells, hcell]
  simp [block]

/-- Two flips around the ring are none. -/
private theorem mirror_add {a n size : ℕ} (m : Bool) (ha : a < 2 * size)
    (hle : a + n < 2 * size) :
    ((m ^^ decide (size ≤ a)) ^^ decide (size ≤ a % size + n)) = (m ^^ decide (size ≤ a + n)) := by
  rw [wrap_eq ha]
  by_cases hwrap : size ≤ a
  · rw [if_pos hwrap, decide_eq_true hwrap, decide_eq_false (show ¬ size ≤ a - size + n by omega),
      decide_eq_true (show size ≤ a + n by omega), Bool.xor_false]
  · rw [if_neg hwrap, decide_eq_false hwrap, Bool.xor_false]

/-- Into the free cells. -/
theorem Represents.store (h : Represents rb q) (ptr : ℕ → UInt8) {n : ℕ}
    (hn : n ≤ rb.bufferSize - q.length) :
    Represents (store rb ptr n) (q ++ block ptr n) := by
  have hr := h.readIndex_lt
  have hlen := h.length_le
  have hw := h.writeIndex_lt
  refine ⟨by simpa using hr, ?_, ?_, ?_, ?_⟩
  · rw [List.length_append, length_block, store_bufferSize]
    omega
  · rw [store_writeIndex ptr hw (by omega), h.writeIndex_eq, List.length_append, length_block,
      store_readIndex, store_bufferSize, Nat.mod_add_mod, Nat.add_assoc]
  · rw [store_writeMirror ptr hw, h.mirror, h.writeIndex_eq, List.length_append, length_block,
      store_readIndex, store_readMirror, store_bufferSize, ← Nat.add_assoc]
    exact mirror_add _ (by omega) (by omega)
  · rw [store_readIndex, store_bufferSize]
    refine Holds.append (h.holds.congr fun i hi => ?_) ?_
    · have hold := store_bufferPtr ptr hw (show n ≤ rb.bufferSize by omega)
        (show rb.bufferSize - q.length + i < rb.bufferSize by omega)
      have hplace : (rb.writeIndex + (rb.bufferSize - q.length + i)) % rb.bufferSize =
          (rb.readIndex + i) % rb.bufferSize := by
        rw [h.writeIndex_eq, Nat.mod_add_mod,
          show rb.readIndex + q.length + (rb.bufferSize - q.length + i) =
            rb.readIndex + i + rb.bufferSize by omega, Nat.add_mod_right]
      rw [hplace, if_neg (by omega)] at hold
      rw [cell, Nat.mod_mod, RtRingbuffer.cells, hold, RtRingbuffer.cells]
    · rw [← h.writeIndex_eq]
      exact store_holds_block ptr hw (by omega)

theorem Represents.put (h : Represents rb q) (ptr : ℕ → UInt8) (length : UInt16) :
    (put rb ptr length).1 = min length.toNat (rb.bufferSize - q.length) ∧
      Represents (put rb ptr length).2
        (q ++ block ptr (min length.toNat (rb.bufferSize - q.length))) := by
  unfold RingBuffer.put
  rw [h.spaceLen_eq]
  by_cases hzero : rb.bufferSize - q.length = 0
  · rw [if_pos hzero, hzero, Nat.min_zero]
    exact ⟨rfl, by simpa [block] using h⟩
  · have hmin : (if rb.bufferSize - q.length < length.toNat then rb.bufferSize - q.length
        else length.toNat) = min length.toNat (rb.bufferSize - q.length) := by
      split <;> omega
    simp only [if_neg hzero, hmin]
    exact ⟨trivial, h.store ptr (Nat.min_le_right _ _)⟩

/-- `xs` at `ptr`. -/
def overlay (xs : List UInt8) (ptr : ℕ → UInt8) : ℕ → UInt8 := fun i => xs.getD i (ptr i)

@[simp] theorem overlay_nil (ptr : ℕ → UInt8) : overlay [] ptr = ptr := rfl

/-- The two copies of rt_ringbuffer_get. -/
theorem Represents.get_copied (h : Represents rb q) (ptr : ℕ → UInt8) {n : ℕ}
    (hn : n ≤ q.length) :
    (if rb.bufferSize - rb.readIndex > n then
        memcpy ptr 0 (fun i => rb.bufferPtr (rb.readIndex + i)) n
      else
        memcpy (memcpy ptr 0 (fun i => rb.bufferPtr (rb.readIndex + i))
          (rb.bufferSize - rb.readIndex)) (rb.bufferSize - rb.readIndex) rb.bufferPtr
          (n - (rb.bufferSize - rb.readIndex))) = overlay (q.take n) ptr := by
  have hr := h.readIndex_lt
  have hlen := h.length_le
  funext i
  unfold overlay
  by_cases hin : i < n
  · have hheld := h.holds i (by omega)
    rw [cell, Nat.mod_mod, wrap_eq (by omega), RtRingbuffer.cells, Option.some_inj] at hheld
    rw [List.getD_eq_getElem _ _ (by rw [List.length_take]; omega), List.getElem_take, ← hheld]
    unfold memcpy
    by_cases hone : rb.bufferSize - rb.readIndex > n
    · have hwrap : ¬ rb.bufferSize ≤ rb.readIndex + i := by omega
      rw [if_pos hone, if_neg hwrap]
      simp only [if_pos (show 0 ≤ i ∧ i < 0 + n by omega), Nat.sub_zero]
    · rw [if_neg hone]
      by_cases hwrap : rb.bufferSize ≤ rb.readIndex + i
      · rw [if_pos hwrap]
        simp only
        rw [if_pos (by omega)]
        congr 1
        omega
      · rw [if_neg hwrap]
        simp only
        rw [if_neg (by omega), if_pos (by omega), Nat.sub_zero]
  · rw [List.getD_eq_default _ _ (by rw [List.length_take]; omega)]
    unfold memcpy
    by_cases hone : rb.bufferSize - rb.readIndex > n
    · rw [if_pos hone]
      simp only [if_neg (show ¬ (0 ≤ i ∧ i < 0 + n) by omega)]
    · rw [if_neg hone]
      simp only
      rw [if_neg (by omega), if_neg (by omega)]

/-- The read index moves on by `n`, around the end at most once. -/
theorem Represents.advance (h : Represents rb q) {n : ℕ} (hn : n ≤ q.length) :
    Represents
      (if rb.bufferSize - rb.readIndex > n then { rb with readIndex := rb.readIndex + n }
        else { rb with
          readMirror := !rb.readMirror
          readIndex := n - (rb.bufferSize - rb.readIndex) })
      (q.drop n) := by
  have hr := h.readIndex_lt
  have hlen := h.length_le
  have hw := h.writeIndex_eq
  have hheld := h.holds.drop n
  rw [wrap_eq (by omega)] at hw hheld
  have hmir := h.mirror
  by_cases hone : rb.bufferSize - rb.readIndex > n
  · rw [if_pos hone]
    rw [if_neg (by omega)] at hheld
    have hsum : rb.readIndex + n + (q.drop n).length = rb.readIndex + q.length := by
      rw [List.length_drop]
      omega
    refine ⟨by simp only; omega, by rw [List.length_drop]; simp only; omega, ?_, ?_, hheld⟩
    · simp only [hsum]
      exact h.writeIndex_eq
    · simp only [hsum]
      exact hmir
  · rw [if_neg hone]
    rw [if_pos (by omega)] at hheld
    have hidx : n - (rb.bufferSize - rb.readIndex) = rb.readIndex + n - rb.bufferSize := by omega
    have hsum : rb.readIndex + n - rb.bufferSize + (q.drop n).length + rb.bufferSize =
        rb.readIndex + q.length := by
      rw [List.length_drop]
      omega
    rw [hidx]
    refine ⟨by simp only; omega, by rw [List.length_drop]; simp only; omega, ?_, ?_, hheld⟩
    · simp only
      rw [h.writeIndex_eq, ← hsum, Nat.add_mod_right]
    · simp only
      rw [hmir, decide_eq_true (show rb.bufferSize ≤ rb.readIndex + q.length by omega),
        decide_eq_false (by omega), Bool.xor_true, Bool.xor_false]

theorem Represents.get (h : Represents rb q) (ptr : ℕ → UInt8) (length : UInt16) :
    (get rb ptr length).1 = min length.toNat q.length ∧
      (get rb ptr length).2.1 = overlay (q.take (min length.toNat q.length)) ptr ∧
      Represents (get rb ptr length).2.2 (q.drop (min length.toNat q.length)) := by
  unfold RingBuffer.get
  rw [h.dataLen_eq]
  by_cases hzero : q.length = 0
  · rw [if_pos hzero, hzero, Nat.min_zero]
    exact ⟨rfl, by simp, by simpa using h⟩
  · have hmin : (if q.length < length.toNat then q.length else length.toNat) =
        min length.toNat q.length := by
      split <;> omega
    have hcopied := h.get_copied ptr (Nat.min_le_right length.toNat q.length)
    have hmoved := h.advance (Nat.min_le_right length.toNat q.length)
    simp only [if_neg hzero, hmin]
    by_cases hone : rb.bufferSize - rb.readIndex > min length.toNat q.length
    · rw [if_pos hone] at hcopied hmoved ⊢
      exact ⟨rfl, hcopied, hmoved⟩
    · rw [if_neg hone] at hcopied hmoved ⊢
      exact ⟨rfl, hcopied, hmoved⟩

@[simp] theorem memcpy_zero (dst src : ℕ → UInt8) (pos : ℕ) : memcpy dst pos src 0 = dst := by
  funext i
  exact if_neg (by omega)

theorem memcpy_one (dst src : ℕ → UInt8) (pos : ℕ) :
    memcpy dst pos src 1 = Function.update dst pos (src 0) := by
  funext i
  unfold memcpy
  by_cases hi : i = pos
  · rw [hi, if_pos (by omega), Nat.sub_self, Function.update_self]
  · rw [if_neg (by omega), Function.update_of_ne hi]

/-- rt_ringbuffer_putchar is rt_ringbuffer_put of one byte. -/
theorem putchar_eq_put (hw : rb.writeIndex < rb.bufferSize) (ch : UInt8) :
    putchar rb ch = put rb (fun _ => ch) 1 := by
  unfold putchar RingBuffer.put
  by_cases hzero : spaceLen rb = 0
  · simp only [if_pos hzero]
  · have hmin : (if spaceLen rb < UInt16.toNat 1 then spaceLen rb else UInt16.toNat 1) = 1 := by
      have hone : UInt16.toNat 1 = 1 := rfl
      rw [hone, if_neg (by omega)]
    simp only [if_neg hzero, hmin]
    unfold RingBuffer.store
    by_cases hend : rb.writeIndex = rb.bufferSize - 1
    · have htail : rb.bufferSize - rb.writeIndex = 1 := by omega
      simp only [if_pos hend, htail, gt_iff_lt, Nat.lt_irrefl, if_false, Nat.sub_self,
        memcpy_zero, memcpy_one]
    · simp only [if_neg hend, if_pos (show rb.bufferSize - rb.writeIndex > 1 by omega), memcpy_one]

/-- rt_ringbuffer_getchar is rt_ringbuffer_get of one byte. -/
theorem getchar_eq_get (hr : rb.readIndex < rb.bufferSize) (ch : ℕ → UInt8) :
    getchar rb ch = get rb ch 1 := by
  unfold getchar RingBuffer.get
  by_cases hzero : dataLen rb = 0
  · simp only [if_pos hzero]
  · have hmin : (if dataLen rb < UInt16.toNat 1 then dataLen rb else UInt16.toNat 1) = 1 := by
      have hone : UInt16.toNat 1 = 1 := rfl
      rw [hone, if_neg (by omega)]
    simp only [if_neg hzero, hmin]
    by_cases hend : rb.readIndex = rb.bufferSize - 1
    · have htail : rb.bufferSize - rb.readIndex = 1 := by omega
      simp only [if_pos hend, htail, gt_iff_lt, Nat.lt_irrefl, if_false, Nat.sub_self,
        memcpy_zero, memcpy_one, Nat.add_zero]
    · simp only [if_neg hend, if_pos (show rb.bufferSize - rb.readIndex > 1 by omega),
        memcpy_one, Nat.add_zero]

theorem putcharForce_of_room (hs : status rb ≠ .full) (hspace : spaceLen rb ≠ 0) (ch : UInt8) :
    putcharForce rb ch = putchar rb ch := by
  unfold putcharForce putchar
  simp only [if_neg hs, if_neg hspace]

/-- A full ring first gives up its oldest byte. -/
theorem putcharForce_of_full (h : Represents rb q) (hfull : q.length = rb.bufferSize)
    (ch : UInt8) (ptr : ℕ → UInt8) :
    putcharForce rb ch = putchar (getchar rb ptr).2.2 ch := by
  have hr := h.readIndex_lt
  have hstatus := h.full_iff.mpr hfull
  have hidx : rb.readIndex = rb.writeIndex := by
    have hw := h.writeIndex_eq
    rw [wrap_eq (by omega), if_pos (by omega)] at hw
    omega
  have hdata : dataLen rb ≠ 0 := by
    rw [h.dataLen_eq]
    omega
  have hget := h.get ptr 1
  rw [← getchar_eq_get hr] at hget
  have hroom : (q.drop (min (UInt16.toNat 1) q.length)).length < rb.bufferSize := by
    have hone : UInt16.toNat 1 = 1 := rfl
    rw [List.length_drop, hone]
    omega
  by_cases hend : rb.readIndex = rb.bufferSize - 1
  · have hgot : (getchar rb ptr).2.2 =
        { rb with readMirror := !rb.readMirror, readIndex := 0 } := by
      unfold getchar
      rw [if_neg hdata]
      simp only [if_pos hend]
    rw [hgot] at hget ⊢
    have hspace : spaceLen { rb with readMirror := !rb.readMirror, readIndex := 0 } ≠ 0 := by
      rw [hget.2.2.spaceLen_eq]
      exact Nat.sub_ne_zero_of_lt hroom
    unfold putcharForce putchar
    simp only [if_pos hstatus, if_pos (hidx ▸ hend), if_neg hspace]
  · have hgot : (getchar rb ptr).2.2 = { rb with readIndex := rb.readIndex + 1 } := by
      unfold getchar
      rw [if_neg hdata]
      simp only [if_neg hend]
    rw [hgot] at hget ⊢
    have hspace : spaceLen { rb with readIndex := rb.readIndex + 1 } ≠ 0 := by
      rw [hget.2.2.spaceLen_eq]
      exact Nat.sub_ne_zero_of_lt hroom
    unfold putcharForce putchar
    simp only [if_pos hstatus, if_neg (hidx ▸ hend), if_neg hspace]
    rw [hidx]

theorem Represents.putchar (h : Represents rb q) (ch : UInt8) :
    (putchar rb ch).1 = min 1 (rb.bufferSize - q.length) ∧
      Represents (putchar rb ch).2
        (q ++ block (fun _ => ch) (min 1 (rb.bufferSize - q.length))) := by
  rw [putchar_eq_put h.writeIndex_lt]
  exact h.put (fun _ => ch) 1

theorem Represents.getchar (h : Represents rb q) (ch : ℕ → UInt8) :
    (getchar rb ch).1 = min 1 q.length ∧
      (getchar rb ch).2.1 = overlay (q.take (min 1 q.length)) ch ∧
      Represents (getchar rb ch).2.2 (q.drop (min 1 q.length)) := by
  rw [getchar_eq_get h.readIndex_lt]
  exact h.get ch 1

@[simp] theorem put_bufferSize (rb : RtRingbuffer) (ptr : ℕ → UInt8) (length : UInt16) :
    (RingBuffer.put rb ptr length).2.bufferSize = rb.bufferSize := by
  simp only [RingBuffer.put]
  split
  · rfl
  · exact store_bufferSize _ _ _

@[simp] theorem get_bufferSize (rb : RtRingbuffer) (ptr : ℕ → UInt8) (length : UInt16) :
    (RingBuffer.get rb ptr length).2.2.bufferSize = rb.bufferSize := by
  simp only [RingBuffer.get]
  split
  · rfl
  · split <;> split <;> rfl

@[simp] theorem putchar_bufferSize (rb : RtRingbuffer) (ch : UInt8) :
    (RingBuffer.putchar rb ch).2.bufferSize = rb.bufferSize := by
  simp only [RingBuffer.putchar]
  split
  · rfl
  · split <;> rfl

@[simp] theorem putcharForce_bufferSize (rb : RtRingbuffer) (ch : UInt8) :
    (RingBuffer.putcharForce rb ch).2.bufferSize = rb.bufferSize := by
  simp only [RingBuffer.putcharForce]
  split <;> split <;> rfl

@[simp] theorem getchar_bufferSize (rb : RtRingbuffer) (ch : ℕ → UInt8) :
    (RingBuffer.getchar rb ch).2.2.bufferSize = rb.bufferSize := by
  simp only [RingBuffer.getchar]
  split
  · rfl
  · split <;> rfl

/-- To the queue it is a push that makes room. -/
theorem Represents.putcharForce (h : Represents rb q) (ch : UInt8) :
    (putcharForce rb ch).1 = 1 ∧
      Represents (putcharForce rb ch).2 (DropOldest.push rb.bufferSize q ch) := by
  have hr := h.readIndex_lt
  have hlen := h.length_le
  by_cases hfull : q.length = rb.bufferSize
  · have hput := (h.getchar fun _ => 0).2.2.putchar ch
    rw [getchar_bufferSize, Nat.min_eq_left (show 1 ≤ q.length by omega), List.drop_one,
      List.length_tail, Nat.min_eq_left (show 1 ≤ rb.bufferSize - (q.length - 1) by omega)] at hput
    rw [putcharForce_of_full h hfull ch fun _ => 0, DropOldest.push_of_full _ _ _ hfull]
    exact hput
  · have hput := h.putchar ch
    have hstatus : status rb ≠ .full := fun heq => hfull (h.full_iff.mp heq)
    have hspace : spaceLen rb ≠ 0 := by
      rw [h.spaceLen_eq]
      omega
    rw [Nat.min_eq_left (show 1 ≤ rb.bufferSize - q.length by omega)] at hput
    rw [putcharForce_of_room hstatus hspace, DropOldest.push_of_room _ _ _ hfull]
    exact hput

theorem Represents.reset (h : Represents rb q) : Represents (reset rb) [] := by
  have hpos : 0 < rb.bufferSize := Nat.zero_lt_of_lt h.readIndex_lt
  refine ⟨hpos, Nat.zero_le _, (Nat.zero_mod _).symm, ?_, holds_nil _ _ _ _⟩
  have hnot : ¬ (RingBuffer.reset rb).bufferSize ≤
      (RingBuffer.reset rb).readIndex + ([] : List UInt8).length := Nat.not_le_of_gt hpos
  rw [decide_eq_false hnot]
  rfl

/-- The bytes fit: rt_ringbuffer_put_force is rt_ringbuffer_put. -/
theorem Represents.putForce_fits (h : Represents rb q) (ptr : ℕ → UInt8) {length : UInt16}
    (hfit : length.toNat ≤ rb.bufferSize - q.length) :
    (putForce rb ptr length).1 = length.toNat ∧
      Represents (putForce rb ptr length).2 (q ++ block ptr length.toNat) := by
  have hstored := h.store ptr hfit
  unfold putForce
  simp only [h.spaceLen_eq, if_neg (Nat.not_lt_of_le hfit), gt_iff_lt, ite_self]
  exact ⟨trivial, hstored⟩

/-- They do not fit: a whole buffer of bytes is copied, and both mirrors are flipped
if there was something to discard. -/
theorem Represents.putForce_over (h : Represents rb q) (ptr : ℕ → UInt8) {length : UInt16}
    (hover : rb.bufferSize - q.length < length.toNat) :
    (putForce rb ptr length).1 = rb.bufferSize ∧
      Represents (putForce rb ptr length).2
        (if 0 < q.length ∧ rb.readIndex + q.length < rb.bufferSize then []
          else block ptr rb.bufferSize) := by
  have hr := h.readIndex_lt
  have hlen := h.length_le
  have hw := h.writeIndex_lt
  have hback : (rb.writeIndex + rb.bufferSize) % rb.bufferSize = rb.writeIndex := by
    rw [Nat.add_mod_right, Nat.mod_eq_of_lt hw]
  have hindex := store_writeIndex ptr hw (Nat.le_refl rb.bufferSize)
  have hmirror := store_writeMirror ptr (n := rb.bufferSize) hw
  rw [decide_eq_true (Nat.le_add_left _ _), Bool.xor_true, h.mirror] at hmirror
  rw [hback] at hindex
  unfold putForce
  simp only [h.spaceLen_eq, if_pos hover, if_neg (show ¬ rb.bufferSize - rb.writeIndex >
    rb.bufferSize by omega)]
  by_cases hempty : q.length = 0
  · rw [if_neg (by omega), if_neg (by omega)]
    have hstored := h.store ptr (n := rb.bufferSize) (by omega)
    rw [List.eq_nil_of_length_eq_zero hempty, List.nil_append] at hstored
    exact ⟨rfl, hstored⟩
  · rw [if_pos (by omega)]
    refine ⟨rfl, ?_⟩
    by_cases hwrap : rb.readIndex + q.length < rb.bufferSize
    · rw [if_pos ⟨by omega, hwrap⟩]
      refine ⟨?_, Nat.zero_le _, ?_, ?_, holds_nil _ _ _ _⟩
      · simpa [hindex] using hw
      · simp only [hindex, store_bufferSize, List.length_nil, Nat.add_zero]
        exact (Nat.mod_eq_of_lt hw).symm
      · simp only [hindex, hmirror, store_bufferSize, store_readMirror, List.length_nil,
          Nat.add_zero]
        rw [decide_eq_false (by omega), decide_eq_false (by omega), Bool.xor_false, Bool.xor_false]
    · rw [if_neg (by omega)]
      refine ⟨?_, ?_, ?_, ?_, ?_⟩
      · simpa [hindex] using hw
      · simp
      · simp only [hindex, store_bufferSize, length_block]
        exact hback.symm
      · simp only [hindex, hmirror, store_bufferSize, store_readMirror, length_block]
        rw [decide_eq_true (by omega), decide_eq_true (by omega), Bool.xor_true, Bool.xor_true]
      · simp only [hindex, store_bufferSize]
        exact store_holds_block ptr hw (Nat.le_refl _)

/-- rt_ringbuffer_put_force on any ring in use. The flip of the read mirror is only right
where the stored bytes reach around the end: elsewhere the ring comes out empty, and the
new bytes are lost with the old ones. -/
theorem putForce_effect (h : Represents rb q) (ptr : ℕ → UInt8) (length : UInt16) :
    (putForce rb ptr length).1 =
        (if length.toNat ≤ rb.bufferSize - q.length then length.toNat else rb.bufferSize) ∧
      Represents (putForce rb ptr length).2
        (if length.toNat ≤ rb.bufferSize - q.length then q ++ block ptr length.toNat
          else if 0 < q.length ∧ rb.readIndex + q.length < rb.bufferSize then []
          else block ptr rb.bufferSize) := by
  by_cases hfit : length.toNat ≤ rb.bufferSize - q.length
  · rw [if_pos hfit, if_pos hfit]
    exact h.putForce_fits ptr hfit
  · rw [if_neg hfit, if_neg hfit]
    exact h.putForce_over ptr (Nat.lt_of_not_le hfit)

/-- Four bytes into a ring of four that holds one: nothing is left. -/
theorem putForce_effect_lost :
    Represents (putForce (put (init (fun _ => 0) 4) (fun _ => 1) 1).2 (fun _ => 2) 4).2 [] :=
  (putForce_effect ((init_represents (fun _ => 0) 4 (by decide)).put (fun _ => 1) 1).2
    (fun _ => 2) 4).2

theorem splice_self (buffer : ℕ → UInt8) (pos : ℕ) :
    splice buffer pos (fun i => buffer (pos + i)) = buffer := by
  funext i
  unfold splice
  by_cases hi : pos ≤ i
  · rw [if_pos hi]
    exact congrArg buffer (Nat.add_sub_cancel' hi)
  · rw [if_neg hi]

theorem splice_zero (buffer out : ℕ → UInt8) : splice buffer 0 out = out := by
  funext i
  simp [splice]

/-- The length that the sixteen bits of the parameter leave. -/
theorem toNat_cut (n : ℕ) : (UInt16.ofNat n).toNat = n % 65536 := UInt16.toNat_ofNat'

/-- A turn of the read loop that gets nothing is the last one. -/
theorem Represents.pipeReadLoop_stop (h : Represents rb q) (buffer : ℕ → UInt8)
    {count readBytes : ℕ} (hnone : min ((count - readBytes) % 65536) q.length = 0) :
    (pipeReadLoop rb buffer count readBytes).1 = readBytes ∧
      (pipeReadLoop rb buffer count readBytes).2.1 = buffer ∧
      Represents (pipeReadLoop rb buffer count readBytes).2.2 q := by
  obtain ⟨hlen, hout, hrep⟩ :=
    h.get (fun i => buffer (readBytes + i)) (UInt16.ofNat (count - readBytes))
  rw [toNat_cut, hnone] at hlen hout hrep
  rw [List.take_zero, overlay_nil] at hout
  rw [pipeReadLoop]
  by_cases hmore : readBytes < count
  · simp only [if_pos hmore, if_pos hlen]
    rw [hout]
    exact ⟨trivial, splice_self buffer readBytes, hout ▸ hrep⟩
  · simp only [if_neg hmore]
    exact ⟨trivial, trivial, h⟩

/-- The loop moves no more than one call of rt_ringbuffer_get does: the bytes it still
wants are then a multiple of 65536, or the ring is empty. -/
theorem Represents.rtPipeRead (h : Represents rb q) (buffer : ℕ → UInt8) (count : ℕ) :
    (rtPipeRead rb buffer count).1 = min (count % 65536) q.length ∧
      (rtPipeRead rb buffer count).2.1 =
        overlay (q.take (min (count % 65536) q.length)) buffer ∧
      Represents (rtPipeRead rb buffer count).2.2 (q.drop (min (count % 65536) q.length)) := by
  by_cases hnone : min (count % 65536) q.length = 0
  · have hstop := @Represents.pipeReadLoop_stop rb q h buffer count 0 hnone
    rw [hnone, List.take_zero, List.drop_zero, overlay_nil]
    unfold RingBuffer.rtPipeRead
    by_cases hzero : count = 0
    · rw [if_pos hzero]
      exact ⟨rfl, rfl, h⟩
    · rw [if_neg hzero]
      exact hstop
  · obtain ⟨hlen, hout, hrep⟩ := h.get buffer (UInt16.ofNat count)
    rw [toNat_cut] at hlen hout hrep
    have hrest : min ((count - min (count % 65536) q.length) % 65536)
        (q.drop (min (count % 65536) q.length)).length = 0 := by
      rw [List.length_drop]
      omega
    have hstop := hrep.pipeReadLoop_stop (overlay (q.take (min (count % 65536) q.length)) buffer)
      hrest
    unfold RingBuffer.rtPipeRead
    rw [if_neg (by omega), pipeReadLoop]
    simp only [if_pos (show 0 < count by omega), Nat.zero_add, Nat.sub_zero, splice_zero]
    rw [if_neg (hlen ▸ hnone), hout, hlen]
    exact hstop

theorem Represents.pipeWriteLoop_stop (h : Represents rb q) (buffer : ℕ → UInt8)
    {count writeBytes : ℕ}
    (hnone : min ((count - writeBytes) % 65536) (rb.bufferSize - q.length) = 0) :
    (pipeWriteLoop rb buffer count writeBytes).1 = writeBytes ∧
      Represents (pipeWriteLoop rb buffer count writeBytes).2 q := by
  obtain ⟨hlen, hrep⟩ :=
    h.put (fun i => buffer (writeBytes + i)) (UInt16.ofNat (count - writeBytes))
  rw [toNat_cut, hnone] at hlen hrep
  rw [pipeWriteLoop]
  by_cases hmore : writeBytes < count
  · simp only [if_pos hmore, if_pos hlen]
    exact ⟨trivial, by simpa [block] using hrep⟩
  · simp only [if_neg hmore]
    exact ⟨trivial, h⟩

theorem Represents.rtPipeWrite (h : Represents rb q) (buffer : ℕ → UInt8) (count : ℕ) :
    (rtPipeWrite rb buffer count).1 = min (count % 65536) (rb.bufferSize - q.length) ∧
      Represents (rtPipeWrite rb buffer count).2
        (q ++ block buffer (min (count % 65536) (rb.bufferSize - q.length))) := by
  by_cases hnone : min (count % 65536) (rb.bufferSize - q.length) = 0
  · have hstop := @Represents.pipeWriteLoop_stop rb q h buffer count 0 hnone
    rw [hnone]
    unfold RingBuffer.rtPipeWrite
    by_cases hzero : count = 0
    · rw [if_pos hzero]
      exact ⟨rfl, by simpa [block] using h⟩
    · rw [if_neg hzero]
      exact ⟨hstop.1, by simpa [block] using hstop.2⟩
  · obtain ⟨hlen, hrep⟩ := h.put buffer (UInt16.ofNat count)
    rw [toNat_cut] at hlen hrep
    have hrest : min ((count - min (count % 65536) (rb.bufferSize - q.length)) % 65536)
        ((RingBuffer.put rb buffer (UInt16.ofNat count)).2.bufferSize -
          (q ++ block buffer (min (count % 65536) (rb.bufferSize - q.length))).length) = 0 := by
      rw [List.length_append, length_block, put_bufferSize]
      omega
    have hstop := hrep.pipeWriteLoop_stop buffer hrest
    unfold RingBuffer.rtPipeWrite
    rw [if_neg (by omega), pipeWriteLoop]
    simp only [if_pos (show 0 < count by omega), Nat.zero_add, Nat.sub_zero]
    rw [if_neg (hlen ▸ hnone), hlen]
    exact hstop

end Ring

/-- A call of the ring buffer, or of the pipe over it under its lock, with the memory
behind the pointer it is handed. -/
inductive Call
  | put (ptr : ℕ → UInt8) (length : UInt16)
  | get (ptr : ℕ → UInt8) (length : UInt16)
  | putchar (ch : UInt8)
  | putcharForce (ch : UInt8)
  | getchar (ch : ℕ → UInt8)
  | dataLen
  | spaceLen
  | reset
  | pipeRead (buffer : ℕ → UInt8) (count : ℕ)
  | pipeWrite (buffer : ℕ → UInt8) (count : ℕ)

/-- The result of a call and the memory that it has written. -/
abbrev Reply := ℕ × Option (ℕ → UInt8)

def answer (r : ℕ × (ℕ → UInt8) × RtRingbuffer) : Reply × RtRingbuffer :=
  ((r.1, some r.2.1), r.2.2)

def call (rb : RtRingbuffer) : Call → Reply × RtRingbuffer
  | .put ptr length => let r := put rb ptr length; ((r.1, none), r.2)
  | .get ptr length => answer (get rb ptr length)
  | .putchar ch => let r := putchar rb ch; ((r.1, none), r.2)
  | .putcharForce ch => let r := putcharForce rb ch; ((r.1, none), r.2)
  | .getchar ch => answer (getchar rb ch)
  | .dataLen => ((dataLen rb, none), rb)
  | .spaceLen => ((spaceLen rb, none), rb)
  | .reset => ((0, none), reset rb)
  | .pipeRead buffer count => answer (rtPipeRead rb buffer count)
  | .pipeWrite buffer count => let r := rtPipeWrite rb buffer count; ((r.1, none), r.2)

def run (rb : RtRingbuffer) : List Call → List Reply × RtRingbuffer
  | [] => ([], rb)
  | c :: cs =>
    let (reply, rb) := call rb c
    let (rest, rb) := run rb cs
    (reply :: rest, rb)

/-- The same calls on a queue of `cap` bytes: a writer gets in what there is room for,
a reader gets the oldest bytes, as many as there are. -/
def queueIn (cap : ℕ) (q : List UInt8) (ptr : ℕ → UInt8) (n : ℕ) : Reply × List UInt8 :=
  ((min n (cap - q.length), none), q ++ block ptr (min n (cap - q.length)))

def queueOut (q : List UInt8) (ptr : ℕ → UInt8) (n : ℕ) : Reply × List UInt8 :=
  ((min n q.length, some (overlay (q.take (min n q.length)) ptr)), q.drop (min n q.length))

def queueCall (cap : ℕ) (q : List UInt8) : Call → Reply × List UInt8
  | .put ptr length => queueIn cap q ptr length.toNat
  | .get ptr length => queueOut q ptr length.toNat
  | .putchar ch => queueIn cap q (fun _ => ch) 1
  | .putcharForce ch => ((1, none), DropOldest.push cap q ch)
  | .getchar ch => queueOut q ch 1
  | .dataLen => ((q.length, none), q)
  | .spaceLen => ((cap - q.length, none), q)
  | .reset => ((0, none), [])
  | .pipeRead buffer count => queueOut q buffer (count % 65536)
  | .pipeWrite buffer count => queueIn cap q buffer (count % 65536)

def queueRun (cap : ℕ) (q : List UInt8) : List Call → List Reply × List UInt8
  | [] => ([], q)
  | c :: cs =>
    let (reply, q) := queueCall cap q c
    let (rest, q) := queueRun cap q cs
    (reply :: rest, q)

section Calls

variable {rb : RtRingbuffer} {q : List UInt8}

@[simp] theorem pipeReadLoop_bufferSize (rb : RtRingbuffer) (buffer : ℕ → UInt8)
    (count readBytes : ℕ) :
    (pipeReadLoop rb buffer count readBytes).2.2.bufferSize = rb.bufferSize := by
  fun_induction pipeReadLoop rb buffer count readBytes with
  | case1 rb buffer readBytes hmore out rb' buffer' heq =>
    have hsize := get_bufferSize rb (fun i => buffer (readBytes + i))
      (UInt16.ofNat (count - readBytes))
    rw [heq] at hsize
    exact hsize
  | case2 rb buffer readBytes hmore len out rb' heq buffer' hlen ih =>
    have hsize := get_bufferSize rb (fun i => buffer (readBytes + i))
      (UInt16.ofNat (count - readBytes))
    rw [heq] at hsize
    exact ih.trans hsize
  | case3 => rfl

@[simp] theorem pipeWriteLoop_bufferSize (rb : RtRingbuffer) (buffer : ℕ → UInt8)
    (count writeBytes : ℕ) :
    (pipeWriteLoop rb buffer count writeBytes).2.bufferSize = rb.bufferSize := by
  fun_induction pipeWriteLoop rb buffer count writeBytes with
  | case1 rb writeBytes hmore rb' heq =>
    have hsize := put_bufferSize rb (fun i => buffer (writeBytes + i))
      (UInt16.ofNat (count - writeBytes))
    rw [heq] at hsize
    exact hsize
  | case2 rb writeBytes hmore len rb' heq hlen ih =>
    have hsize := put_bufferSize rb (fun i => buffer (writeBytes + i))
      (UInt16.ofNat (count - writeBytes))
    rw [heq] at hsize
    exact ih.trans hsize
  | case3 => rfl

@[simp] theorem call_bufferSize (rb : RtRingbuffer) (c : Call) :
    (call rb c).2.bufferSize = rb.bufferSize := by
  cases c with
  | pipeRead buffer count =>
    simp only [call, answer, rtPipeRead]
    split
    · rfl
    · exact pipeReadLoop_bufferSize rb buffer count 0
  | pipeWrite buffer count =>
    simp only [call, rtPipeWrite]
    split
    · rfl
    · exact pipeWriteLoop_bufferSize rb buffer count 0
  | reset => rfl
  | _ => simp [call, answer]

/-- A writer of the queue, from what the ring does. -/
theorem Represents.queueIn_eq {r : ℕ × RtRingbuffer} {ptr : ℕ → UInt8} {n cap : ℕ}
    (h : r.1 = min n (cap - q.length) ∧
      Represents r.2 (q ++ block ptr (min n (cap - q.length)))) :
    ((r.1, none) : Reply) = (queueIn cap q ptr n).1 ∧ Represents r.2 (queueIn cap q ptr n).2 := by
  rw [h.1]
  exact ⟨rfl, h.2⟩

theorem Represents.queueOut_eq {r : ℕ × (ℕ → UInt8) × RtRingbuffer} {ptr : ℕ → UInt8} {n : ℕ}
    (h : r.1 = min n q.length ∧ r.2.1 = overlay (q.take (min n q.length)) ptr ∧
      Represents r.2.2 (q.drop (min n q.length))) :
    (answer r).1 = (queueOut q ptr n).1 ∧ Represents (answer r).2 (queueOut q ptr n).2 := by
  unfold answer
  rw [h.1, h.2.1]
  exact ⟨rfl, h.2.2⟩

/-- One call: the reply is that of the queue, and the ring then stores the queue's bytes. -/
theorem Represents.call (h : Represents rb q) (c : Call) :
    (call rb c).1 = (queueCall rb.bufferSize q c).1 ∧
      Represents (call rb c).2 (queueCall rb.bufferSize q c).2 := by
  cases c with
  | put ptr length => exact Represents.queueIn_eq (h.put ptr length)
  | get ptr length => exact Represents.queueOut_eq (h.get ptr length)
  | putchar ch => exact Represents.queueIn_eq (h.putchar ch)
  | putcharForce ch =>
    have hforce := h.putcharForce ch
    exact ⟨congrArg (fun n => (n, none)) hforce.1, hforce.2⟩
  | getchar ch => exact Represents.queueOut_eq (h.getchar ch)
  | dataLen => exact ⟨congrArg (fun n => (n, none)) h.dataLen_eq, h⟩
  | spaceLen => exact ⟨congrArg (fun n => (n, none)) h.spaceLen_eq, h⟩
  | reset => exact ⟨rfl, h.reset⟩
  | pipeRead buffer count => exact Represents.queueOut_eq (h.rtPipeRead buffer count)
  | pipeWrite buffer count => exact Represents.queueIn_eq (h.rtPipeWrite buffer count)

theorem Represents.run (h : Represents rb q) (calls : List Call) :
    (run rb calls).1 = (queueRun rb.bufferSize q calls).1 ∧
      Represents (run rb calls).2 (queueRun rb.bufferSize q calls).2 := by
  induction calls generalizing rb q with
  | nil => exact ⟨rfl, h⟩
  | cons c cs ih =>
    have hcall := h.call c
    have hrest := ih hcall.2
    rw [call_bufferSize] at hrest
    refine ⟨?_, hrest.2⟩
    change (RingBuffer.call rb c).1 :: (RingBuffer.run (RingBuffer.call rb c).2 cs).1 =
      (queueCall rb.bufferSize q c).1 ::
        (queueRun rb.bufferSize (queueCall rb.bufferSize q c).2 cs).1
    rw [hcall.1, hrest.1]

/-- Any sequence of calls on a ring of at least four bytes: every result and every byte
that is written through a pointer are those of the queue. -/
theorem calls_agree (pool : ℕ → UInt8) {size : ℕ} (hsize : alignSize ≤ size)
    (calls : List Call) :
    (RingBuffer.run (init pool size) calls).1 =
        (queueRun (size - size % alignSize) [] calls).1 ∧
      Represents (RingBuffer.run (init pool size) calls).2
        (queueRun (size - size % alignSize) [] calls).2 :=
  (init_represents pool size hsize).run calls

theorem calls_agree_pipe :
    (RingBuffer.run (init (fun _ => 0) 6)
      [.pipeWrite (fun i => UInt8.ofNat i) 65539, .putcharForce 7, .getchar fun _ => 0,
        .putcharForce 8, .putcharForce 9, .dataLen]).1.map Prod.fst = [3, 1, 1, 1, 1, 4] := by
  rw [(calls_agree (fun _ => 0) (by decide) _).1]
  rfl

end Calls

end GemhoNbiot.RingBuffer
