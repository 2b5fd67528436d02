import Mathlib.Algebra.GroupWithZero.Nat
import Mathlib.Data.List.Induction
import Mathlib.Logic.Function.Basic

/-!
The transparent-mode loop of main_entry. Each user port has a receive ring and
a semaphore; a receive interrupt stores its bytes and releases the semaphore
once. The loop takes one token and reads a whole message, so a message of many
interrupts leaves tokens behind, and each of them costs one empty read before
the other port is looked at.
-/
namespace GemhoNbiot.TransparentMode

inductive PortId
  | user
  | rs485
deriving DecidableEq

/-- The unread bytes of a port, oldest first, and its semaphore. -/
structure Port where
  ring : List UInt8
  sem : ℕ

/-- RT_SERIAL_RB_BUFSZ less the slot that tells full from empty. -/
def ringSize : ℕ := 511

/-- sizeof(buf) in main_entry. -/
def bufSize : ℕ := 512

/-- One byte stored by rt_hw_serial_isr; a full ring loses its oldest byte. -/
def ringPut (ring : List UInt8) (b : UInt8) : List UInt8 :=
  if ring.length < ringSize then ring ++ [b] else ring.tail ++ [b]

/-- A receive interrupt: the bytes are stored, then rx_indicate is called. -/
def Port.isr (p : Port) (bs : List UInt8) : Port :=
  ⟨bs.foldl ringPut p.ring, p.sem + 1⟩

/-- Where the loop is. `reading` is inside rt_device_read and `checking` at the
exit test of usart_read. -/
inductive Pc
  | takeUser
  | takeRs485
  | reading (p : PortId) (buf : List UInt8)
  | checking (p : PortId) (buf : List UInt8)

/-- The read of the port that is under way at this point. -/
def Pc.inRead : Pc → PortId → ℕ
  | .reading q _, p => if q = p then 1 else 0
  | .checking q _, p => if q = p then 1 else 0
  | _, _ => 0

/-- `pushed` are the messages given to msg_push so far. -/
structure State where
  port : PortId → Port
  pc : Pc
  pushed : List (List UInt8)

inductive Event
  | receive (p : PortId) (bs : List UInt8)
  | read (p : PortId) (bs : List UInt8)

def State.setPort (s : State) (p : PortId) (q : Port) : State :=
  { s with port := Function.update s.port p q }

/-- rt_sem_take of a positive semaphore. -/
def State.take (s : State) (p : PortId) : State :=
  s.setPort p { s.port p with sem := (s.port p).sem - 1 }

/-- The branch of main_entry after its usart_read. -/
def State.finish (s : State) (buf : List UInt8) : State :=
  { s with pc := .takeUser, pushed := if buf.length > 0 then s.pushed ++ [buf] else s.pushed }

/-- A step of the loop or a receive interrupt. rt_sem_take gives up only on an
empty semaphore; when the idle time of usart_read is over is left open. -/
inductive Step (s : State) : Option Event → State → Prop
  | receive (p : PortId) (bs : List UInt8) (hbs : bs ≠ []) :
      Step s (some (.receive p bs)) (s.setPort p ((s.port p).isr bs))
  | takeUser (hpc : s.pc = .takeUser) (h : 0 < (s.port .user).sem) :
      Step s none { s.take .user with pc := .reading .user [] }
  | missUser (hpc : s.pc = .takeUser) (h : (s.port .user).sem = 0) :
      Step s none { s with pc := .takeRs485 }
  | takeRs485 (hpc : s.pc = .takeRs485) (h : 0 < (s.port .rs485).sem) :
      Step s none { s.take .rs485 with pc := .reading .rs485 [] }
  | missRs485 (hpc : s.pc = .takeRs485) (h : (s.port .rs485).sem = 0) :
      Step s none { s with pc := .takeUser }
  | getByte {p : PortId} {buf : List UInt8} {b : UInt8} {rest : List UInt8}
      (hpc : s.pc = .reading p buf) (hlen : buf.length < bufSize)
      (hring : (s.port p).ring = b :: rest) :
      Step s none { s.setPort p { s.port p with ring := rest } with
        pc := .reading p (buf ++ [b]) }
  | endDeviceRead {p : PortId} {buf : List UInt8} (hpc : s.pc = .reading p buf)
      (h : buf.length = bufSize ∨ (s.port p).ring = []) :
      Step s none { s with pc := .checking p buf }
  | readAgain {p : PortId} {buf : List UInt8} (hpc : s.pc = .checking p buf)
      (h : buf.length < bufSize) : Step s none { s with pc := .reading p buf }
  | endRead {p : PortId} {buf : List UInt8} (hpc : s.pc = .checking p buf) :
      Step s (some (.read p buf)) (s.finish buf)

/-- Runs with their events, newest last. -/
inductive Run (s₀ : State) : List Event → State → Prop
  | nil : Run s₀ [] s₀
  | snoc {events : List Event} {s s' : State} {e : Option Event} :
      Run s₀ events s → Step s e s' → Run s₀ (events ++ e.toList) s'

/-- The loop is entered with fresh semaphores; older bytes may be unread. -/
def start (rings : PortId → List UInt8) : State :=
  ⟨fun p => ⟨rings p, 0⟩, .takeUser, []⟩

/-- The receive interrupts of a port. -/
def interrupts (p : PortId) (events : List Event) : ℕ :=
  events.countP fun | .receive q _ => q = p | .read _ _ => false

/-- The bytes received on a port. -/
def received (p : PortId) (events : List Event) : ℕ :=
  (events.map fun | .receive q bs => if q = p then bs.length else 0 | .read _ _ => 0).sum

/-- The usart_read calls finished on a port. -/
def reads (p : PortId) (events : List Event) : ℕ :=
  events.countP fun | .receive _ _ => false | .read q _ => q = p

theorem ringPut_ne_nil (ring : List UInt8) (b : UInt8) : ringPut ring b ≠ [] := by
  unfold ringPut
  split <;> simp

theorem isr_ring_ne_nil (p : Port) (bs : List UInt8) (h : bs ≠ []) : (p.isr bs).ring ≠ [] := by
  induction bs using List.reverseRecOn with
  | nil => exact absurd rfl h
  | append_singleton bs b _ =>
    rw [Port.isr, List.foldl_append]
    exact ringPut_ne_nil _ b

end GemhoNbiot.TransparentMode
