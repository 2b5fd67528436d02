import GemhoNbiot.SerialRx
import GemhoNbiot.TransparentMode

/-!
The transparent-mode loop over the rings of the serial driver. A receive
interrupt runs the loop of rt_hw_serial_isr and then the callback of the port,
and each byte of a read is a critical section of _serial_int_rx. The system has
the runs of the one whose ports are plain queues of bytes, with the same events
and the same messages pushed.
-/
namespace GemhoNbiot.DriverMode

open SerialRx
open TransparentMode (PortId Pc Event bufSize ringSize)

/-- RT_SERIAL_RB_BUFSZ. -/
def RT_SERIAL_RB_BUFSZ : UInt16 := 512

structure Port where
  fifo : RtSerialRxFifo
  sem : ℕ

/-- RT_SERIAL_EVENT_RX_IND with its callback, urx_input or urx485_input. -/
def Port.isr (p : Port) (bs : List UInt8) : Port :=
  ⟨bs.foldl (isrPut RT_SERIAL_RB_BUFSZ) p.fifo, p.sem + 1⟩

structure State where
  port : PortId → Port
  pc : Pc
  pushed : List (List UInt8)

def State.setPort (s : State) (p : PortId) (q : Port) : State :=
  { s with port := Function.update s.port p q }

/-- rt_sem_take of a positive semaphore. -/
def State.take (s : State) (p : PortId) : State :=
  s.setPort p { s.port p with sem := (s.port p).sem - 1 }

/-- The branch of main_entry after its usart_read. -/
def State.finish (s : State) (buf : List UInt8) : State :=
  { s with pc := .takeUser, pushed := if buf.length > 0 then s.pushed ++ [buf] else s.pushed }

/-- A step of the loop or a receive interrupt; rt_device_read goes on until the
buffer is full or a critical section finds no byte. -/
inductive Step (s : State) : Option Event → State → Prop
  | receive (p : PortId) (bs : List UInt8) (hbs : bs ≠ []) :
      Step s (some (.receive p bs)) (s.setPort p ((s.port p).isr bs))
  | takeUser (hpc : s.pc = .takeUser) (h : 0 < (s.port .user).sem) :
      Step s none { s.take .user with pc := .reading .user [] }
  | missUser (hpc : s.pc = .takeUser) (h : (s.port .user).sem = 0) :
      Step s none { s with pc := .takeRs485 }
  | takeRs485 (hpc : s.pc = .takeRs485) (h : 0 < (s.port .rs485).sem) :
      Step s none { s.take .rs485 with pc := .reading .rs485 [] }
  | missRs485 (hpc : s.pc = .takeRs485) (h : (s.port .rs485).sem = 0) :
      Step s none { s with pc := .takeUser }
  | getByte {p : PortId} {buf : List UInt8} {b : UInt8} {fifo : RtSerialRxFifo}
      (hpc : s.pc = .reading p buf) (hlen : buf.length < bufSize)
      (hget : getByte RT_SERIAL_RB_BUFSZ (s.port p).fifo = some (b, fifo)) :
      Step s none { s.setPort p { s.port p with fifo } with pc := .reading p (buf ++ [b]) }
  | endDeviceRead {p : PortId} {buf : List UInt8} (hpc : s.pc = .reading p buf)
      (h : buf.length = bufSize ∨ getByte RT_SERIAL_RB_BUFSZ (s.port p).fifo = none) :
      Step s none { s with pc := .checking p buf }
  | readAgain {p : PortId} {buf : List UInt8} (hpc : s.pc = .checking p buf)
      (h : buf.length < bufSize) : Step s none { s with pc := .reading p buf }
  | endRead {p : PortId} {buf : List UInt8} (hpc : s.pc = .checking p buf) :
      Step s (some (.read p buf)) (s.finish buf)

/-- Runs with their events, newest last. -/
inductive Run (s₀ : State) : List Event → State → Prop
  | nil : Run s₀ [] s₀
  | snoc {events : List Event} {s s' : State} {e : Option Event} :
      Run s₀ events s → Step s e s' → Run s₀ (events ++ e.toList) s'

def start (fifos : PortId → RtSerialRxFifo) : State :=
  ⟨fun p => ⟨fifos p, 0⟩, .takeUser, []⟩

structure Port.Matches (p : Port) (q : TransparentMode.Port) : Prop where
  ring : Represents RT_SERIAL_RB_BUFSZ p.fifo q.ring
  sem_eq : p.sem = q.sem

structure Matches (s : State) (t : TransparentMode.State) : Prop where
  port : ∀ p, (s.port p).Matches (t.port p)
  pc_eq : s.pc = t.pc
  pushed_eq : s.pushed = t.pushed

section Steps

variable {s s' : State} {t t' : TransparentMode.State} {p : PortId} {e : Option Event}

theorem two_le_bufsz : 2 ≤ RT_SERIAL_RB_BUFSZ.toNat := by decide

/-- The ring of TransparentMode is the queue that drops its oldest byte. -/
theorem ringPut_eq (ring : List UInt8) (b : UInt8) (h : ring.length ≤ ringSize) :
    TransparentMode.ringPut ring b = DropOldest.push ringSize ring b := by
  unfold TransparentMode.ringPut
  rcases Nat.lt_or_ge ring.length ringSize with hlt | hge
  · rw [if_pos hlt, DropOldest.push_of_room _ _ _ (Nat.ne_of_lt hlt)]
  · rw [if_neg (Nat.not_lt.mpr hge), DropOldest.push_of_full _ _ _ (Nat.le_antisymm h hge)]

theorem foldl_ringPut_eq (bs ring : List UInt8) (h : ring.length ≤ ringSize) :
    bs.foldl TransparentMode.ringPut ring = bs.foldl (DropOldest.push ringSize) ring := by
  induction bs generalizing ring with
  | nil => rfl
  | cons b bs ih =>
    rw [List.foldl_cons, List.foldl_cons, ringPut_eq ring b h]
    exact ih _ (DropOldest.length_push_le _ _ _ (by decide) h)

theorem Port.Matches.isr {p : Port} {q : TransparentMode.Port} (h : p.Matches q)
    (bs : List UInt8) : (p.isr bs).Matches (q.isr bs) where
  ring := by
    have hroom : q.ring.length ≤ ringSize := Nat.le_of_lt_succ h.ring.room
    have hring := h.ring.interrupt two_le_bufsz bs
    change Represents _ _ (bs.foldl TransparentMode.ringPut q.ring)
    rw [foldl_ringPut_eq bs q.ring hroom]
    exact hring
  sem_eq := congrArg (· + 1) h.sem_eq

theorem Matches.setPort {p' : Port} {q' : TransparentMode.Port} (h : Matches s t)
    (hp : p'.Matches q') : Matches (s.setPort p p') (t.setPort p q') where
  port := by
    intro r
    by_cases hr : r = p
    · subst hr
      simpa [State.setPort, TransparentMode.State.setPort] using hp
    · simpa [State.setPort, TransparentMode.State.setPort, hr] using h.port r
  pc_eq := h.pc_eq
  pushed_eq := h.pushed_eq

theorem Matches.setPc (h : Matches s t) (pc : Pc) :
    Matches { s with pc := pc } { t with pc := pc } :=
  ⟨h.port, rfl, h.pushed_eq⟩

theorem Matches.take (h : Matches s t) : Matches (s.take p) (t.take p) :=
  h.setPort ⟨(h.port p).ring, congrArg (· - 1) (h.port p).sem_eq⟩

theorem Matches.finish (h : Matches s t) (buf : List UInt8) :
    Matches (s.finish buf) (t.finish buf) where
  port := h.port
  pc_eq := rfl
  pushed_eq := by
    unfold State.finish TransparentMode.State.finish
    rw [h.pushed_eq]

theorem Matches.getByte_none (h : Matches s t) :
    getByte RT_SERIAL_RB_BUFSZ (s.port p).fifo = none ↔ (t.port p).ring = [] := by
  have hring := (h.port p).ring
  constructor
  · intro hnone
    by_contra hne
    obtain ⟨b, rest, hcons⟩ := List.exists_cons_of_ne_nil hne
    rw [hcons] at hring
    obtain ⟨fifo, hget, _⟩ := hring.getByte_cons
    rw [hnone] at hget
    cases hget
  · intro hnil
    rw [hnil] at hring
    exact hring.getByte_nil two_le_bufsz

theorem Matches.getByte_some {b : UInt8} {fifo : RtSerialRxFifo} (h : Matches s t)
    (hget : getByte RT_SERIAL_RB_BUFSZ (s.port p).fifo = some (b, fifo)) :
    ∃ rest, (t.port p).ring = b :: rest ∧ Represents RT_SERIAL_RB_BUFSZ fifo rest := by
  have hne : (t.port p).ring ≠ [] := by
    intro hnil
    rw [h.getByte_none.mpr hnil] at hget
    cases hget
  obtain ⟨c, rest, hcons⟩ := List.exists_cons_of_ne_nil hne
  have hring := (h.port p).ring
  rw [hcons] at hring
  obtain ⟨fifo', hget', hrest⟩ := hring.getByte_cons
  obtain ⟨rfl, rfl⟩ := Prod.mk.inj (Option.some.inj (hget'.symm.trans hget))
  exact ⟨rest, hcons, hrest⟩

theorem Matches.readByte {b : UInt8} {buf rest : List UInt8} {fifo : RtSerialRxFifo}
    (h : Matches s t) (hrest : Represents RT_SERIAL_RB_BUFSZ fifo rest) :
    Matches { s.setPort p { s.port p with fifo } with pc := .reading p (buf ++ [b]) }
      { t.setPort p { t.port p with ring := rest } with pc := .reading p (buf ++ [b]) } := by
  have hport : Port.Matches { s.port p with fifo } { t.port p with ring := rest } :=
    ⟨hrest, (h.port p).sem_eq⟩
  exact (h.setPort hport).setPc _

/-- A step over the driver is the step over the queues. -/
theorem Matches.step (h : Matches s t) (hstep : Step s e s') :
    ∃ t', TransparentMode.Step t e t' ∧ Matches s' t' := by
  have hpc := h.pc_eq
  cases hstep with
  | receive p bs hbs => exact ⟨_, .receive p bs hbs, h.setPort ((h.port p).isr bs)⟩
  | takeUser hat hsem =>
    rw [(h.port _).sem_eq] at hsem
    exact ⟨_, .takeUser (hpc ▸ hat) hsem, h.take.setPc _⟩
  | missUser hat hsem =>
    rw [(h.port _).sem_eq] at hsem
    exact ⟨_, .missUser (hpc ▸ hat) hsem, h.setPc _⟩
  | takeRs485 hat hsem =>
    rw [(h.port _).sem_eq] at hsem
    exact ⟨_, .takeRs485 (hpc ▸ hat) hsem, h.take.setPc _⟩
  | missRs485 hat hsem =>
    rw [(h.port _).sem_eq] at hsem
    exact ⟨_, .missRs485 (hpc ▸ hat) hsem, h.setPc _⟩
  | getByte hat hlen hget =>
    obtain ⟨rest, hring, hrest⟩ := h.getByte_some hget
    exact ⟨_, .getByte (hpc ▸ hat) hlen hring, h.readByte hrest⟩
  | endDeviceRead hat hend =>
    rw [h.getByte_none] at hend
    exact ⟨_, .endDeviceRead (hpc ▸ hat) hend, h.setPc _⟩
  | readAgain hat hlen => exact ⟨_, .readAgain (hpc ▸ hat) hlen, h.setPc _⟩
  | endRead hat => exact ⟨_, .endRead (hpc ▸ hat), h.finish _⟩

/-- A step over the queues is one that the driver can take. -/
theorem Matches.step_back (h : Matches s t) (hstep : TransparentMode.Step t e t') :
    ∃ s', Step s e s' ∧ Matches s' t' := by
  have hpc := h.pc_eq.symm
  cases hstep with
  | receive p bs hbs => exact ⟨_, .receive p bs hbs, h.setPort ((h.port p).isr bs)⟩
  | takeUser hat hsem =>
    rw [← (h.port _).sem_eq] at hsem
    exact ⟨_, .takeUser (hpc ▸ hat) hsem, h.take.setPc _⟩
  | missUser hat hsem =>
    rw [← (h.port _).sem_eq] at hsem
    exact ⟨_, .missUser (hpc ▸ hat) hsem, h.setPc _⟩
  | takeRs485 hat hsem =>
    rw [← (h.port _).sem_eq] at hsem
    exact ⟨_, .takeRs485 (hpc ▸ hat) hsem, h.take.setPc _⟩
  | missRs485 hat hsem =>
    rw [← (h.port _).sem_eq] at hsem
    exact ⟨_, .missRs485 (hpc ▸ hat) hsem, h.setPc _⟩
  | @getByte p buf b rest hat hlen hring =>
    have hold := (h.port p).ring
    rw [hring] at hold
    obtain ⟨fifo, hget, hrest⟩ := hold.getByte_cons
    exact ⟨_, .getByte (hpc ▸ hat) hlen hget, h.readByte hrest⟩
  | endDeviceRead hat hend =>
    rw [← h.getByte_none] at hend
    exact ⟨_, .endDeviceRead (hpc ▸ hat) hend, h.setPc _⟩
  | readAgain hat hlen => exact ⟨_, .readAgain (hpc ▸ hat) hlen, h.setPc _⟩
  | endRead hat => exact ⟨_, .endRead (hpc ▸ hat), h.finish _⟩

end Steps

section Runs

variable {s₀ s : State} {t₀ t : TransparentMode.State} {events : List Event}

theorem Matches.run (h : Matches s₀ t₀) (hrun : Run s₀ events s) :
    ∃ t, TransparentMode.Run t₀ events t ∧ Matches s t := by
  induction hrun with
  | nil => exact ⟨t₀, .nil, h⟩
  | snoc _ hstep ih =>
    obtain ⟨t, hrun, hmatch⟩ := ih
    obtain ⟨t', hnext, hmatch'⟩ := hmatch.step hstep
    exact ⟨t', hrun.snoc hnext, hmatch'⟩

theorem Matches.run_back (h : Matches s₀ t₀) (hrun : TransparentMode.Run t₀ events t) :
    ∃ s, Run s₀ events s ∧ Matches s t := by
  induction hrun with
  | nil => exact ⟨s₀, .nil, h⟩
  | snoc _ hstep ih =>
    obtain ⟨s, hrun, hmatch⟩ := ih
    obtain ⟨s', hnext, hmatch'⟩ := hmatch.step_back hstep
    exact ⟨s', hrun.snoc hnext, hmatch'⟩

theorem start_matches {fifos : PortId → RtSerialRxFifo} {rings : PortId → List UInt8}
    (h : ∀ p, Represents RT_SERIAL_RB_BUFSZ (fifos p) (rings p)) :
    Matches (start fifos) (TransparentMode.start rings) :=
  ⟨fun p => ⟨h p, rfl⟩, rfl, rfl⟩

/-- Over the driver the loop has the runs that it has over the queues. -/
theorem runs_agree (fifos : PortId → RtSerialRxFifo) (rings : PortId → List UInt8)
    (h : ∀ p, Represents RT_SERIAL_RB_BUFSZ (fifos p) (rings p)) (events : List Event)
    (msgs : List (List UInt8)) :
    (∃ s, Run (start fifos) events s ∧ s.pushed = msgs) ↔
      ∃ t, TransparentMode.Run (TransparentMode.start rings) events t ∧ t.pushed = msgs := by
  have hstart := start_matches h
  constructor
  · rintro ⟨s, hrun, rfl⟩
    obtain ⟨t, ht, hmatch⟩ := hstart.run hrun
    exact ⟨t, ht, hmatch.pushed_eq.symm⟩
  · rintro ⟨t, hrun, rfl⟩
    obtain ⟨s, hs, hmatch⟩ := hstart.run_back hrun
    exact ⟨s, hs, hmatch.pushed_eq⟩

/-- A byte comes in while two others are read, and the three are one message; the
other port receives meanwhile. -/
theorem runs_agree_opened :
    ∃ s, Run (start fun _ => openRx RT_SERIAL_RB_BUFSZ) [.receive .user [1, 2],
        .receive .user [3], .receive .rs485 [4], .read .user [1, 2, 3]] s ∧
      s.pushed = [[1, 2, 3]] := by
  refine (runs_agree (fun _ => openRx RT_SERIAL_RB_BUFSZ) (fun _ => [])
    (fun _ => openRx_represents RT_SERIAL_RB_BUFSZ (by decide)) _ _).mpr ?_
  have htaken := (TransparentMode.Run.nil.snoc
    (.receive (s := TransparentMode.start fun _ => []) .user [1, 2] (by decide))).snoc
      (.takeUser rfl (by decide))
  have hfirst := htaken.snoc (.getByte (b := 1) rfl (by decide) rfl)
  have hlate := (hfirst.snoc (.receive .user [3] (by decide))).snoc
    (.getByte (b := 2) rfl (by decide) rfl)
  have hall := (hlate.snoc (.receive .rs485 [4] (by decide))).snoc
    (.getByte (b := 3) rfl (by decide) rfl)
  have hread := (hall.snoc (.endDeviceRead rfl (Or.inr rfl))).snoc (.endRead rfl)
  exact ⟨_, hread, rfl⟩

end Runs

end GemhoNbiot.DriverMode
