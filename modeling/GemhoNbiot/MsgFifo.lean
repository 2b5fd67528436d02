import Mathlib.Data.List.Perm.Basic
import Mathlib.Data.List.Nodup
import GemhoNbiot.Dataqueue

/-!
The message FIFO of src/msg_fifo.c. A handle owns fifoSize units that circulate
between push_queue (free units) and pop_queue (units carrying a message). A
unit is named by its address; its buffer is a second block of the heap. Bytes
of a fresh block are arbitrary: the memory before msg_init is a parameter.
-/
namespace GemhoNbiot.MsgFifo

open Dataqueue

structure MsgUint where
  msgSize : UInt16
  msgData : Option ℕ

/-- The units and the buffers, both by address. -/
structure Memory where
  units : ℕ → MsgUint
  bufs : ℕ → List UInt8

structure MsgHandle where
  popQueue : RtDataQueue ℕ
  pushQueue : RtDataQueue ℕ
  msgSize : UInt16
  fifoSize : UInt16

/-- A live handle, the address it was returned at and the memory behind it. -/
structure Fifo where
  self : ℕ
  handle : MsgHandle
  mem : Memory

def sizeofMsgUint : ℕ := 8
def sizeofMsgHandle : ℕ := 76

namespace Fifo

/-- A free unit leaves push_queue. -/
def takeFree (f : Fifo) : Fifo :=
  { f with handle := { f.handle with pushQueue := f.handle.pushQueue.popped } }

/-- The oldest queued unit leaves pop_queue. -/
def takeOldest (f : Fifo) : Fifo :=
  { f with handle := { f.handle with popQueue := f.handle.popQueue.popped } }

/-- A unit is pushed onto push_queue. -/
def giveFree (f : Fifo) (mu : ℕ) : Fifo :=
  { f with handle := { f.handle with
      pushQueue := f.handle.pushQueue.pushed mu sizeofMsgUint } }

/-- A unit is pushed onto pop_queue. -/
def giveQueued (f : Fifo) (mu : ℕ) : Fifo :=
  { f with handle := { f.handle with
      popQueue := f.handle.popQueue.pushed mu sizeofMsgUint } }

def withMem (f : Fifo) (mem : Memory) : Fifo := { f with mem := mem }

end Fifo

namespace Memory

/-- The mu->msgSize = size store. -/
def setMsgSize (m : Memory) (mu : ℕ) (size : UInt16) : Memory :=
  { m with units := Function.update m.units mu ⟨size, (m.units mu).msgData⟩ }

/-- The memcpy(mu->msgData, bs, |bs|) of msg_push. -/
def copyIn (m : Memory) (mu : ℕ) (bs : List UInt8) : Memory :=
  match (m.units mu).msgData with
  | none => m
  | some b => { m with bufs := Function.update m.bufs b (bs ++ (m.bufs b).drop bs.length) }

/-- The bytes the memcpy of msg_pop reads from a unit. -/
def message (m : Memory) (mu : ℕ) : List UInt8 :=
  match (m.units mu).msgData with
  | none => []
  | some b => (m.bufs b).take (m.units mu).msgSize.toNat

end Memory

/-- Result of msg_init: `fault` is a write through a NULL queue storage. -/
inductive InitEnd
  | handle (f : Fifo) (heap : Heap)
  | null (heap : Heap)
  | fault

/-- The loop of __err2 and of msg_destory: pop units off push_queue and free
them. The number of live entries is below 65536, which bounds the loop. -/
def freeUnits (mem : Memory) : ℕ → RtDataQueue ℕ → Heap → Heap
  | 0, _, heap => heap
  | fuel + 1, q, heap =>
    let popped := rtDataQueuePopNow q
    if popped.ret = RT_EOK then
      match popped.dataPtr with
      | none => freeUnits mem fuel popped.queue heap
      | some mu =>
        match (mem.units mu).msgData with
        | none => freeUnits mem fuel popped.queue (rtFree mu heap)
        | some b => freeUnits mem fuel popped.queue (rtFree mu (rtFree b heap))
    else
      heap

def msgInitFail (f : Fifo) (heap : Heap) : InitEnd :=
  .null (rtFree f.self (freeUnits f.mem 65536 f.handle.pushQueue heap))

/-- One iteration of the for loop of msg_init: the next state, or the end. -/
inductive InitStep
  | next (f : Fifo) (heap : Heap)
  | stop (r : InitEnd)

/-- The result of the push is ignored, as in the code. -/
def msgInitStep (ok : ℕ → Bool) (f : Fifo) (heap : Heap) : InitStep :=
  match rtMalloc ok sizeofMsgUint heap with
  | (none, heap) => .stop (msgInitFail f heap)
  | (some mu, heap) =>
    if f.handle.pushQueue.queue.isNone then
      .stop .fault
    else
      let pushQueue := (rtDataQueuePushNow f.handle.pushQueue mu sizeofMsgUint).2
      let (msgData, heap) := rtMalloc ok f.handle.msgSize.toNat heap
      let f := { f with
        handle := { f.handle with pushQueue := pushQueue }
        mem := { f.mem with units := Function.update f.mem.units mu ⟨0, msgData⟩ } }
      match msgData with
      | none => .stop (msgInitFail f heap)
      | some _ => .next f heap

/-- The loop with `n` iterations left. -/
def msgInitLoop (ok : ℕ → Bool) : ℕ → Fifo → Heap → InitEnd
  | 0, f, heap => .handle f heap
  | n + 1, f, heap =>
    match msgInitStep ok f heap with
    | .next f heap => msgInitLoop ok n f heap
    | .stop r => r

/-- The handle before the loop; the results of rt_data_queue_init are ignored. -/
def msgInitStart (ok : ℕ → Bool) (mem : Memory) (h : ℕ) (heap : Heap)
    (msgSize fifoSize : UInt16) : Fifo × Heap :=
  let (_, popQueue, heap) := rtDataQueueInit ok heap fifoSize
  let (_, pushQueue, heap) := rtDataQueueInit ok heap fifoSize
  (⟨h, ⟨popQueue, pushQueue, msgSize, fifoSize⟩, mem⟩, heap)

def msgInit (ok : ℕ → Bool) (mem : Memory) (heap : Heap) (msgSize fifoSize : UInt16) :
    InitEnd :=
  match rtMalloc ok sizeofMsgHandle heap with
  | (none, heap) => .null heap
  | (some h, heap) =>
    let (f, heap) := msgInitStart ok mem h heap msgSize fifoSize
    msgInitLoop ok fifoSize.toNat f heap

/-- `f` and `heap` are the state of the loop after `i` iterations. -/
inductive InitReach (ok : ℕ → Bool) (f₀ : Fifo) (heap₀ : Heap) : ℕ → Fifo → Heap → Prop
  | start : InitReach ok f₀ heap₀ 0 f₀ heap₀
  | next {i : ℕ} {f f' : Fifo} {heap heap' : Heap} :
      InitReach ok f₀ heap₀ i f heap → msgInitStep ok f heap = .next f' heap' →
      InitReach ok f₀ heap₀ (i + 1) f' heap'

/-- Every allocation of msg_init finds a block. -/
def allocAll : ℕ → Bool := fun _ => true

/-- The loop state of a msg_init whose allocations all succeed. -/
def initStart (mem : Memory) (heap : Heap) (msgSize fifoSize : UInt16) : Fifo × Heap :=
  msgInitStart allocAll mem heap.calls (rtMalloc allocAll sizeofMsgHandle heap).2
    msgSize fifoSize

/-- `f` is a handle returned by msg_init with all its allocations successful. -/
def Created (f : Fifo) (msgSize fifoSize : UInt16) : Prop :=
  ∃ mem heap heap', msgInit allocAll mem heap msgSize fifoSize = .handle f heap'

/-- The bytes behind a msgData argument; their number is the uint16_t size. -/
def Message : Type := { d : List UInt8 // d.length < 65536 }

/-- The bytes a push keeps: the size is cut to the buffer size of the handle. -/
def clamp (msgSize : UInt16) (d : Message) : List UInt8 := d.val.take msgSize.toNat

/-- The handle of msg_init(490, fifoSize) on an empty heap. -/
def blankFifo (fifoSize : UInt16) : Fifo :=
  match msgInit allocAll ⟨fun _ => ⟨0, none⟩, fun _ => []⟩ ⟨0, []⟩ 490 fifoSize with
  | .handle f _ => f
  | _ => ⟨0, ⟨emptyQueue 0, emptyQueue 0, 0, 0⟩, ⟨fun _ => ⟨0, none⟩, fun _ => []⟩⟩

def byteMessage (b : UInt8) : Message := ⟨[b], by simp⟩

/-- The part of msg_push after a unit was found. -/
def msgPushStore (f : Fifo) (d : Message) (mu : ℕ) : ℤ × Fifo :=
  let bs := clamp f.handle.msgSize d
  let mem := (f.mem.copyIn mu bs).setMsgSize mu (UInt16.ofNat bs.length)
  let popQueue := (rtDataQueuePushNow f.handle.popQueue mu sizeofMsgUint).2
  (0, { f with handle := { f.handle with popQueue := popQueue }, mem := mem })

/-- msg_push on a live handle. -/
def msgPush (f : Fifo) (d : Message) : ℤ × Fifo :=
  let first := rtDataQueuePopNow f.handle.pushQueue
  if first.ret = RT_EOK then
    let f := { f with handle := { f.handle with pushQueue := first.queue } }
    match first.dataPtr with
    | none => (-2, f)
    | some mu => msgPushStore f d mu
  else
    let second := rtDataQueuePopNow f.handle.popQueue
    if second.ret = RT_EOK then
      let f := { f with handle := { f.handle with popQueue := second.queue } }
      match second.dataPtr with
      | none => (-3, f)
      | some mu => msgPushStore f d mu
    else
      (-4, f)

/-- What a successful msg_pop writes through its out parameters. -/
structure Delivered where
  msgData : List UInt8
  msgSize : UInt16
deriving DecidableEq

/-- The part of msg_pop after a unit was found. -/
def msgPopStore (f : Fifo) (mu : ℕ) : ℤ × Option Delivered × Fifo :=
  let out : Delivered := ⟨f.mem.message mu, (f.mem.units mu).msgSize⟩
  let mem := f.mem.setMsgSize mu 0
  let pushQueue := (rtDataQueuePushNow f.handle.pushQueue mu sizeofMsgUint).2
  (0, some out, { f with handle := { f.handle with pushQueue := pushQueue }, mem := mem })

/-- msg_pop on a live handle. No result: the caller waits in the queue. -/
def msgPop (f : Fifo) (timeout : ℤ) : Option (ℤ × Option Delivered × Fifo) :=
  match rtDataQueuePop f.handle.popQueue timeout with
  | none => none
  | some popped =>
    if popped.ret = -RT_ETIMEOUT then
      some (-RT_ETIMEOUT, none, f)
    else if popped.ret = 0 then
      let f := { f with handle := { f.handle with popQueue := popped.queue } }
      match popped.dataPtr with
      | none => some (-2, none, f)
      | some mu => some (msgPopStore f mu)
    else
      some (-3, none, f)

end GemhoNbiot.MsgFifo
