import GemhoNbiot.DropOldest
import GemhoNbiot.RingWindow

/-!
Interrupt-driven receive of rt_ext/serial.c. The receive interrupt stores each
byte at put_index and, when that brings put_index to get_index, moves get_index
on, so that the oldest byte is lost and one cell always stays free. A read takes
one byte in each of its critical sections and interrupts come between them. To
the reader and to the receive callback the ring is a queue of bufsz - 1 bytes
that drops its oldest.
-/
namespace GemhoNbiot.SerialRx

open RingWindow

/-- rt_serial_rx_fifo. -/
structure RtSerialRxFifo where
  buffer : List UInt8
  putIndex : UInt16
  getIndex : UInt16
  isFull : Bool

/-- The receive structure that rt_serial_open sets up for RT_DEVICE_FLAG_INT_RX. -/
def openRx (bufsz : UInt16) : RtSerialRxFifo where
  buffer := List.replicate bufsz.toNat 0
  putIndex := 0
  getIndex := 0
  isFull := false

/-- The step of an index, back to 0 at the end of the buffer. -/
def advance (bufsz index : UInt16) : UInt16 :=
  if index + 1 ≥ bufsz then 0 else index + 1

/-- One turn of the loop of RT_SERIAL_EVENT_RX_IND: getc has returned `ch`. -/
def isrPut (bufsz : UInt16) (f : RtSerialRxFifo) (ch : UInt8) : RtSerialRxFifo :=
  let f := { f with
    buffer := f.buffer.set f.putIndex.toNat ch
    putIndex := advance bufsz f.putIndex }
  if f.putIndex = f.getIndex then
    { f with getIndex := advance bufsz f.getIndex, isFull := true }
  else
    f

/-- The rx_length that the receive callback gets. -/
def rxLength (bufsz : UInt16) (f : RtSerialRxFifo) : ℕ :=
  if f.putIndex ≥ f.getIndex then f.putIndex.toNat - f.getIndex.toNat
  else bufsz.toNat - (f.getIndex.toNat - f.putIndex.toNat)

/-- _serial_fifo_calc_recved_len. -/
def calcRecvedLen (bufsz : UInt16) (f : RtSerialRxFifo) : ℕ :=
  if f.putIndex = f.getIndex then
    if f.isFull = false then 0 else bufsz.toNat
  else if f.putIndex > f.getIndex then
    f.putIndex.toNat - f.getIndex.toNat
  else
    bufsz.toNat - (f.getIndex.toNat - f.putIndex.toNat)

/-- The critical section of _serial_int_rx; none is the break. -/
def getByte (bufsz : UInt16) (f : RtSerialRxFifo) : Option (UInt8 × RtSerialRxFifo) :=
  if f.getIndex = f.putIndex ∧ f.isFull = false then
    none
  else
    some (f.buffer.getD f.getIndex.toNat 0,
      { f with getIndex := advance bufsz f.getIndex, isFull := false })

/-- A receive interrupt with the bytes that getc returned before -1, one critical
section of a read, or a call of _serial_fifo_calc_recved_len. -/
inductive RxEvent
  | interrupt (bs : List UInt8)
  | readByte
  | recvedLen

/-- What the program sees of an event. -/
inductive Seen
  | length (len : ℕ)
  | byte (b : Option UInt8)
deriving DecidableEq

def fifoStep (bufsz : UInt16) (f : RtSerialRxFifo) : RxEvent → Seen × RtSerialRxFifo
  | .interrupt bs =>
    let f := bs.foldl (isrPut bufsz) f
    (.length (rxLength bufsz f), f)
  | .readByte =>
    match getByte bufsz f with
    | none => (.byte none, f)
    | some (b, f) => (.byte (some b), f)
  | .recvedLen => (.length (calcRecvedLen bufsz f), f)

def fifoRun (bufsz : UInt16) (f : RtSerialRxFifo) : List RxEvent → List Seen × RtSerialRxFifo
  | [] => ([], f)
  | e :: es =>
    let (seen, f) := fifoStep bufsz f e
    let (rest, f) := fifoRun bufsz f es
    (seen :: rest, f)

/-- The same events on a queue of `cap` bytes. -/
def queueStep (cap : ℕ) (q : List UInt8) : RxEvent → Seen × List UInt8
  | .interrupt bs =>
    let q := bs.foldl (DropOldest.push cap) q
    (.length q.length, q)
  | .readByte => (.byte q.head?, q.tail)
  | .recvedLen => (.length q.length, q)

def queueRun (cap : ℕ) (q : List UInt8) : List RxEvent → List Seen × List UInt8
  | [] => ([], q)
  | e :: es =>
    let (seen, q) := queueStep cap q e
    let (rest, q) := queueRun cap q es
    (seen :: rest, q)

/-- What a cell of the buffer holds. -/
def RtSerialRxFifo.cells (f : RtSerialRxFifo) (k : ℕ) : Option UInt8 := f.buffer[k]?

/-- The ring stores exactly the bytes `q`, oldest first. Only a ring without a
free byte may be marked full. -/
structure Represents (bufsz : UInt16) (f : RtSerialRxFifo) (q : List UInt8) : Prop where
  storage : f.buffer.length = bufsz.toNat
  getIndex_lt : f.getIndex.toNat < bufsz.toNat
  room : q.length < bufsz.toNat
  putIndex_eq : f.putIndex.toNat = (f.getIndex.toNat + q.length) % bufsz.toNat
  full : f.isFull = true → q.length + 1 = bufsz.toNat
  holds : Holds bufsz.toNat bufsz.toNat f.getIndex.toNat f.cells q

section Ring

variable {bufsz : UInt16} {f : RtSerialRxFifo} {q : List UInt8} {b : UInt8}

theorem toNat_advance {index : UInt16} (h : index.toNat < bufsz.toNat) :
    (advance bufsz index).toNat = (index.toNat + 1) % bufsz.toNat := by
  have hlt := bufsz.toNat_lt
  have hsucc : (index + 1).toNat = index.toNat + 1 := by
    rw [UInt16.toNat_add, UInt16.toNat_one]
    omega
  unfold advance
  by_cases hend : index + 1 ≥ bufsz
  · have hle := UInt16.le_iff_toNat_le.mp hend
    rw [if_pos hend, show index.toNat + 1 = bufsz.toNat by omega, Nat.mod_self, UInt16.toNat_zero]
  · have hnot := UInt16.le_iff_toNat_le.not.mp hend
    rw [if_neg hend, hsucc, Nat.mod_eq_of_lt (by omega)]

theorem Represents.put_lt (h : Represents bufsz f q) : f.putIndex.toNat < bufsz.toNat := by
  rw [h.putIndex_eq]
  exact Nat.mod_lt _ (Nat.zero_lt_of_lt h.getIndex_lt)

/-- The two indices meet only in an empty ring. -/
theorem Represents.empty_iff (h : Represents bufsz f q) :
    f.getIndex = f.putIndex ↔ q = [] := by
  have hget := h.getIndex_lt
  have hroom := h.room
  rw [← UInt16.toNat_inj, h.putIndex_eq, ← List.length_eq_zero_iff]
  rcases Nat.lt_or_ge (f.getIndex.toNat + q.length) bufsz.toNat with hlt | hge
  · rw [Nat.mod_eq_of_lt hlt]
    omega
  · rw [Nat.mod_eq_sub_mod hge, Nat.mod_eq_of_lt (by omega)]
    omega

theorem Represents.put_cell (h : Represents bufsz f q) :
    f.putIndex.toNat = cell bufsz.toNat bufsz.toNat f.getIndex.toNat q.length := by
  rw [cell, Nat.mod_mod, h.putIndex_eq]

theorem Represents.cells_set (h : Represents bufsz f q) (ch : UInt8) :
    (fun k => (f.buffer.set f.putIndex.toNat ch)[k]?) =
      Function.update f.cells f.putIndex.toNat (some ch) := by
  have hlt : f.putIndex.toNat < f.buffer.length := by
    rw [h.storage]
    exact h.put_lt
  funext k
  by_cases hk : k = f.putIndex.toNat
  · subst hk
    simp [hlt]
  · rw [Function.update_of_ne hk, List.getElem?_set_ne (Ne.symm hk)]
    rfl

/-- Storing a byte behind the last one, before the indices are compared. -/
theorem Represents.stored (h : Represents bufsz f q) (ch : UInt8) :
    Holds bufsz.toNat bufsz.toNat f.getIndex.toNat
      (fun k => (f.buffer.set f.putIndex.toNat ch)[k]?) (q ++ [ch]) := by
  rw [h.cells_set ch, h.put_cell]
  exact h.holds.snoc (Or.inl (Nat.dvd_refl _)) h.room ch

/-- put_index reaches get_index exactly when no byte but the free one is left. -/
theorem Represents.meets_iff (h : Represents bufsz f q) :
    advance bufsz f.putIndex = f.getIndex ↔ q.length + 1 = bufsz.toNat := by
  have hget := h.getIndex_lt
  have hroom := h.room
  rw [← UInt16.toNat_inj, toNat_advance h.put_lt, h.putIndex_eq, Nat.mod_add_mod]
  rcases Nat.lt_or_ge (f.getIndex.toNat + q.length + 1) bufsz.toNat with hlt | hge
  · rw [Nat.mod_eq_of_lt hlt]
    omega
  · rw [Nat.mod_eq_sub_mod hge, Nat.mod_eq_of_lt (by omega)]
    omega

/-- One byte of a receive interrupt is a push. -/
theorem Represents.put (h : Represents bufsz f q) (hsize : 2 ≤ bufsz.toNat) (ch : UInt8) :
    Represents bufsz (isrPut bufsz f ch) (DropOldest.push (bufsz.toNat - 1) q ch) := by
  have hput := toNat_advance h.put_lt
  have hroom := h.room
  rw [h.putIndex_eq, Nat.mod_add_mod] at hput
  by_cases hmeet : advance bufsz f.putIndex = f.getIndex
  · have hlen := (h.meets_iff).mp hmeet
    have hne : q ≠ [] := by
      rintro rfl
      simp at hlen
      omega
    obtain ⟨x, xs, rfl⟩ := List.exists_cons_of_ne_nil hne
    rw [DropOldest.push_of_full _ _ _ (by omega), isrPut, if_pos hmeet]
    simp only [List.length_cons] at hlen
    constructor
    case storage => simpa using h.storage
    case getIndex_lt =>
      rw [toNat_advance h.getIndex_lt]
      exact Nat.mod_lt _ (by omega)
    case room => simpa using hroom
    case putIndex_eq =>
      rw [toNat_advance h.getIndex_lt, Nat.mod_add_mod, hput]
      simp only [List.tail_cons, List.length_append, List.length_cons, List.length_nil]
      congr 1
      omega
    case full => simpa using hlen
    case holds =>
      rw [toNat_advance h.getIndex_lt]
      exact (h.stored ch).tail
  · have hlen := (h.meets_iff).not.mp hmeet
    rw [DropOldest.push_of_room _ _ _ (by omega), isrPut, if_neg hmeet]
    constructor
    case storage => simpa using h.storage
    case getIndex_lt => exact h.getIndex_lt
    case room =>
      rw [List.length_append, List.length_singleton]
      omega
    case putIndex_eq =>
      rw [hput, List.length_append, List.length_singleton, Nat.add_assoc]
    case full => exact fun hfull => absurd (h.full hfull) hlen
    case holds => exact h.stored ch

theorem Represents.interrupt (h : Represents bufsz f q) (hsize : 2 ≤ bufsz.toNat)
    (bs : List UInt8) :
    Represents bufsz (bs.foldl (isrPut bufsz) f)
      (bs.foldl (DropOldest.push (bufsz.toNat - 1)) q) := by
  induction bs generalizing f q with
  | nil => exact h
  | cons b bs ih => exact ih (h.put hsize b)

/-- The callback is told the number of unread bytes. -/
theorem Represents.rxLength_eq (h : Represents bufsz f q) : rxLength bufsz f = q.length := by
  have hget := h.getIndex_lt
  have hroom := h.room
  have hput := h.putIndex_eq
  unfold rxLength
  simp only [ge_iff_le, UInt16.le_iff_toNat_le]
  rcases Nat.lt_or_ge (f.getIndex.toNat + q.length) bufsz.toNat with hlt | hge
  · rw [Nat.mod_eq_of_lt hlt] at hput
    rw [if_pos (by omega)]
    omega
  · rw [Nat.mod_eq_sub_mod hge, Nat.mod_eq_of_lt (by omega)] at hput
    rw [if_neg (by omega)]
    omega

/-- A ring that is never marked full with equal indices: the two ways in which
the driver counts its bytes agree. -/
theorem Represents.calcRecvedLen_eq (h : Represents bufsz f q) (hsize : 2 ≤ bufsz.toNat) :
    calcRecvedLen bufsz f = q.length := by
  rw [← h.rxLength_eq]
  unfold calcRecvedLen rxLength
  by_cases heq : f.putIndex = f.getIndex
  · have hnil := h.empty_iff.mp heq.symm
    have hfull : f.isFull = false := by
      by_contra hne
      have hlen := h.full (by simpa using hne)
      rw [hnil] at hlen
      simp at hlen
      omega
    rw [if_pos heq, if_pos hfull, if_pos (by rw [heq]; exact UInt16.le_refl _), heq, Nat.sub_self]
  · rw [if_neg heq]
    by_cases hgt : f.putIndex > f.getIndex
    · rw [if_pos hgt, if_pos (UInt16.le_of_lt hgt)]
    · have hlt : ¬ f.putIndex ≥ f.getIndex := by
        intro hge
        exact hgt (UInt16.lt_of_le_of_ne hge (Ne.symm heq))
      rw [if_neg hgt, if_neg hlt]

theorem Represents.getByte_nil (h : Represents bufsz f []) (hsize : 2 ≤ bufsz.toNat) :
    getByte bufsz f = none := by
  have hfull : f.isFull = false := by
    by_contra hne
    have hlen := h.full (by simpa using hne)
    simp at hlen
    omega
  rw [getByte, if_pos ⟨h.empty_iff.mpr rfl, hfull⟩]

/-- A critical section of a read is a pop. -/
theorem Represents.getByte_cons (h : Represents bufsz f (b :: q)) :
    ∃ f', getByte bufsz f = some (b, f') ∧ Represents bufsz f' q := by
  have hget := h.getIndex_lt
  have hroom := h.room
  have hne : f.getIndex ≠ f.putIndex := h.empty_iff.not.mpr (by simp)
  have hhead := h.holds.head
  have hb : f.buffer.getD f.getIndex.toNat 0 = b := by
    rw [cell, Nat.add_zero, Nat.mod_mod, Nat.mod_eq_of_lt hget] at hhead
    rw [List.getD_eq_getElem?_getD, show f.buffer[f.getIndex.toNat]? = some b from hhead]
    rfl
  simp only [List.length_cons] at hroom
  refine ⟨_, by rw [getByte, if_neg fun heq => hne heq.1, hb], ?_⟩
  constructor
  case storage => exact h.storage
  case getIndex_lt =>
    rw [toNat_advance hget]
    exact Nat.mod_lt _ (by omega)
  case room => omega
  case putIndex_eq =>
    have hput := h.putIndex_eq
    rw [toNat_advance hget, Nat.mod_add_mod, hput, List.length_cons]
    congr 1
    omega
  case full => exact fun hfull => absurd hfull Bool.false_ne_true
  case holds =>
    rw [toNat_advance hget]
    exact h.holds.tail

theorem openRx_represents (bufsz : UInt16) (hsize : 2 ≤ bufsz.toNat) :
    Represents bufsz (openRx bufsz) [] where
  storage := List.length_replicate
  getIndex_lt := Nat.lt_of_lt_of_le Nat.zero_lt_two hsize
  room := Nat.lt_of_lt_of_le Nat.zero_lt_two hsize
  putIndex_eq := (Nat.zero_mod _).symm
  full := fun hfull => absurd hfull Bool.false_ne_true
  holds := holds_nil _ _ _ _

end Ring

section Runs

variable {bufsz : UInt16} {f : RtSerialRxFifo} {q : List UInt8}

theorem Represents.step (h : Represents bufsz f q) (hsize : 2 ≤ bufsz.toNat) (e : RxEvent) :
    (fifoStep bufsz f e).1 = (queueStep (bufsz.toNat - 1) q e).1 ∧
      Represents bufsz (fifoStep bufsz f e).2 (queueStep (bufsz.toNat - 1) q e).2 := by
  cases e with
  | interrupt bs =>
    have hbs := h.interrupt hsize bs
    exact ⟨congrArg Seen.length hbs.rxLength_eq, hbs⟩
  | readByte =>
    cases q with
    | nil =>
      simp only [fifoStep, h.getByte_nil hsize, queueStep]
      exact ⟨rfl, h⟩
    | cons b q =>
      obtain ⟨f', hget, hf'⟩ := h.getByte_cons
      simp only [fifoStep, hget, queueStep]
      exact ⟨rfl, hf'⟩
  | recvedLen => exact ⟨congrArg Seen.length (h.calcRecvedLen_eq hsize), h⟩

theorem Represents.run (h : Represents bufsz f q) (hsize : 2 ≤ bufsz.toNat)
    (es : List RxEvent) :
    (fifoRun bufsz f es).1 = (queueRun (bufsz.toNat - 1) q es).1 ∧
      Represents bufsz (fifoRun bufsz f es).2 (queueRun (bufsz.toNat - 1) q es).2 := by
  induction es generalizing f q with
  | nil => exact ⟨rfl, h⟩
  | cons e es ih =>
    obtain ⟨hseen, hnext⟩ := h.step hsize e
    obtain ⟨hrest, hlast⟩ := ih hnext
    exact ⟨congrArg₂ List.cons hseen hrest, hlast⟩

/-- Reader and callback cannot tell the ring from a queue of bufsz - 1 bytes, and
every index stays inside the buffer. -/
theorem receive_refines (bufsz : UInt16) (hsize : 2 ≤ bufsz.toNat) (es : List RxEvent) :
    (fifoRun bufsz (openRx bufsz) es).1 = (queueRun (bufsz.toNat - 1) [] es).1 ∧
      Represents bufsz (fifoRun bufsz (openRx bufsz) es).2
        (queueRun (bufsz.toNat - 1) [] es).2 :=
  (openRx_represents bufsz hsize).run hsize es

theorem receive_refines_wrap :
    let es : List RxEvent := [.interrupt [1, 2, 3], .recvedLen, .readByte, .interrupt [4],
      .recvedLen, .readByte]
    (fifoRun 3 (openRx 3) es).1 = (queueRun 2 [] es).1 ∧
      Represents 3 (fifoRun 3 (openRx 3) es).2 (queueRun 2 [] es).2 :=
  receive_refines 3 (by decide) _

end Runs

section Order

def RxEvent.bytes : RxEvent → List UInt8
  | .interrupt bs => bs
  | .readByte => []
  | .recvedLen => []

/-- The bytes that have come in. -/
def arrived (es : List RxEvent) : List UInt8 := es.flatMap RxEvent.bytes

/-- The bytes that the critical sections have returned. -/
def delivered (seen : List Seen) : List UInt8 :=
  seen.filterMap fun | .byte b => b | .length _ => none

/-- With `n` bytes unread, no interrupt finds too little room. -/
def HasRoom (cap : ℕ) : ℕ → List RxEvent → Prop
  | _, [] => True
  | n, .interrupt bs :: es => n + bs.length ≤ cap ∧ HasRoom cap (n + bs.length) es
  | n, .readByte :: es => HasRoom cap (n - 1) es
  | n, .recvedLen :: es => HasRoom cap n es

/-- The pushes and the pop of an event. -/
def RxEvent.ops : RxEvent → List (DropOldest.Op UInt8)
  | .interrupt bs => bs.map .push
  | .readByte => [.pop]
  | .recvedLen => []

variable {cap : ℕ} {q : List UInt8}

theorem queueRun_queue (es : List RxEvent) :
    (queueRun cap q es).2 = DropOldest.run cap q (es.flatMap RxEvent.ops) := by
  induction es generalizing q with
  | nil => rfl
  | cons e es ih =>
    rw [List.flatMap_cons, DropOldest.run_append]
    cases e with
    | interrupt bs =>
      rw [RxEvent.ops, DropOldest.run_pushes]
      exact ih
    | readByte => exact ih
    | recvedLen => exact ih

theorem queueRun_delivered (es : List RxEvent) :
    delivered (queueRun cap q es).1 = DropOldest.taken cap q (es.flatMap RxEvent.ops) := by
  induction es generalizing q with
  | nil => rfl
  | cons e es ih =>
    rw [List.flatMap_cons]
    cases e with
    | interrupt bs =>
      rw [RxEvent.ops, DropOldest.taken_pushes_append, ← ih]
      rfl
    | readByte =>
      change delivered (.byte q.head? :: (queueRun cap q.tail es).1) =
        q.take 1 ++ DropOldest.taken cap q.tail (es.flatMap RxEvent.ops)
      rw [← ih]
      cases q <;> rfl
    | recvedLen => exact ih

theorem arrived_eq (es : List RxEvent) :
    ((es.flatMap RxEvent.ops).map DropOldest.Op.pushed).flatten = arrived es := by
  induction es with
  | nil => rfl
  | cons e es ih =>
    have hbytes : (e.ops.map DropOldest.Op.pushed).flatten = e.bytes := by
      cases e with
      | interrupt bs =>
        induction bs with
        | nil => rfl
        | cons b bs ihb => exact congrArg (List.cons b) ihb
      | readByte => rfl
      | recvedLen => rfl
    rw [List.flatMap_cons, List.map_append, List.flatten_append, ih, hbytes]
    rfl

theorem fits_pushes (n : ℕ) (bs : List UInt8) (ops : List (DropOldest.Op UInt8)) (hn : n ≤ cap) :
    DropOldest.Fits cap n (bs.map .push ++ ops) ↔
      n + bs.length ≤ cap ∧ DropOldest.Fits cap (n + bs.length) ops := by
  induction bs generalizing n with
  | nil => simp [hn]
  | cons b bs ih =>
    rw [List.map_cons, List.cons_append, DropOldest.Fits, List.length_cons]
    rcases Nat.lt_or_ge n cap with hlt | hge
    · rw [ih (n + 1) hlt, Nat.add_assoc, Nat.add_comm 1]
      exact and_iff_right hlt
    · exact iff_of_false (by omega) (by omega)

theorem hasRoom_iff (n : ℕ) (es : List RxEvent) (hn : n ≤ cap) :
    DropOldest.Fits cap n (es.flatMap RxEvent.ops) ↔ HasRoom cap n es := by
  induction es generalizing n with
  | nil => exact Iff.rfl
  | cons e es ih =>
    rw [List.flatMap_cons]
    cases e with
    | interrupt bs =>
      rw [RxEvent.ops, fits_pushes n bs _ hn, HasRoom]
      exact and_congr_right fun hle => ih _ hle
    | readByte => exact ih _ (by omega)
    | recvedLen => exact ih n hn

/-- The unread bytes are always the last that came in; reads never reorder,
repeat or invent a byte, and lose none exactly while the backlog has room. -/
theorem receive_order (bufsz : UInt16) (hsize : 2 ≤ bufsz.toNat) (es : List RxEvent) :
    ∃ unread, Represents bufsz (fifoRun bufsz (openRx bufsz) es).2 unread ∧
      unread <:+ arrived es ∧
      (delivered (fifoRun bufsz (openRx bufsz) es).1 ++ unread).Sublist (arrived es) ∧
      (delivered (fifoRun bufsz (openRx bufsz) es).1 ++ unread = arrived es ↔
        HasRoom (bufsz.toNat - 1) 0 es) := by
  obtain ⟨hseen, hfifo⟩ := (openRx_represents bufsz hsize).run hsize es
  have hcap : 0 < bufsz.toNat - 1 := by omega
  have hsuffix := DropOldest.run_suffix (bufsz.toNat - 1) [] (es.flatMap RxEvent.ops)
  have hsub := DropOldest.taken_append_run_sublist (bufsz.toNat - 1) [] (es.flatMap RxEvent.ops)
  have hroom := DropOldest.lossless_iff (bufsz.toNat - 1) [] (es.flatMap RxEvent.ops) hcap
    (Nat.zero_le _)
  rw [arrived_eq, List.nil_append, ← queueRun_queue] at hsuffix hsub hroom
  rw [← queueRun_delivered, ← hseen] at hsub hroom
  exact ⟨_, hfifo, hsuffix, hsub, hroom.trans (hasRoom_iff 0 es (Nat.zero_le _))⟩

theorem receive_order_wrap :
    ∃ unread, Represents 3 (fifoRun 3 (openRx 3) [.interrupt [1, 2, 3], .readByte]).2 unread ∧
      unread <:+ arrived [.interrupt [1, 2, 3], .readByte] ∧
      (delivered (fifoRun 3 (openRx 3) [.interrupt [1, 2, 3], .readByte]).1 ++ unread).Sublist
        (arrived [.interrupt [1, 2, 3], .readByte]) ∧
      (delivered (fifoRun 3 (openRx 3) [.interrupt [1, 2, 3], .readByte]).1 ++ unread =
          arrived [.interrupt [1, 2, 3], .readByte] ↔
        HasRoom 2 0 [.interrupt [1, 2, 3], .readByte]) :=
  receive_order 3 (by decide) _

end Order

end GemhoNbiot.SerialRx
