import GemhoNbiot.TransparentMode

/-!
Wake-ups of the transparent-mode loop. main_entry creates the two semaphores and
sets the rx_indicate callbacks one after the other, with bytes coming in all
along, and every byte in a ring remembers whether its interrupt found a callback.
A read whose semaphore is empty has seen no interrupt since it took its token. So
it drains a ring of at most 511 bytes into a buffer of 512: it can stop only at
an empty ring, never at the size of the buffer.
-/
namespace GemhoNbiot.WakeUp

open TransparentMode (PortId Event ringSize bufSize)

/-- A received byte; `indicated` says that rx_indicate was set when it came in. -/
structure Arrival where
  byte : UInt8
  indicated : Bool

structure Port where
  ring : List Arrival
  sem : ℕ
  rxIndicate : Bool

/-- One byte stored by rt_hw_serial_isr; a full ring loses its oldest byte. -/
def ringPut (ring : List Arrival) (a : Arrival) : List Arrival :=
  if ring.length < ringSize then ring ++ [a] else ring.tail ++ [a]

/-- A receive interrupt: the bytes are stored, then urx_input or urx485_input is
called if it has been registered. -/
def Port.isr (p : Port) (bs : List UInt8) : Port :=
  { p with
    ring := (bs.map fun b => ⟨b, p.rxIndicate⟩).foldl ringPut p.ring
    sem := if p.rxIndicate then p.sem + 1 else p.sem }

/-- main_entry before its loop and the places in the loop. `starting` is
start_mode, which reads both ports, up to the first rt_sem_create. -/
inductive Pc
  | starting
  | indicateUser
  | createRs485
  | indicateRs485
  | loop (pc : TransparentMode.Pc)

structure State where
  port : PortId → Port
  pc : Pc
  pushed : List (List UInt8)

def State.setPort (s : State) (p : PortId) (q : Port) : State :=
  { s with port := Function.update s.port p q }

/-- rt_sem_create of the port's semaphore. -/
def State.create (s : State) (p : PortId) : State :=
  s.setPort p { s.port p with sem := 0 }

/-- usart_set_rx_indicate of the port. -/
def State.indicate (s : State) (p : PortId) : State :=
  s.setPort p { s.port p with rxIndicate := true }

/-- rt_sem_take of a positive semaphore. -/
def State.take (s : State) (p : PortId) : State :=
  s.setPort p { s.port p with sem := (s.port p).sem - 1 }

/-- The branch of main_entry after its usart_read. -/
def State.finish (s : State) (buf : List UInt8) : State :=
  { s with
    pc := .loop .takeUser
    pushed := if buf.length > 0 then s.pushed ++ [buf] else s.pushed }

/-- A step of main_entry or a receive interrupt. -/
inductive Step (s : State) : Option Event → State → Prop
  | receive (p : PortId) (bs : List UInt8) :
      Step s (some (.receive p bs)) (s.setPort p ((s.port p).isr bs))
  | startByte {p : PortId} {a : Arrival} {rest : List Arrival} (hpc : s.pc = .starting)
      (hring : (s.port p).ring = a :: rest) :
      Step s none (s.setPort p { s.port p with ring := rest })
  | createUser (hpc : s.pc = .starting) :
      Step s none { s.create .user with pc := .indicateUser }
  | indicateUser (hpc : s.pc = .indicateUser) :
      Step s none { s.indicate .user with pc := .createRs485 }
  | createRs485 (hpc : s.pc = .createRs485) :
      Step s none { s.create .rs485 with pc := .indicateRs485 }
  | indicateRs485 (hpc : s.pc = .indicateRs485) :
      Step s none { s.indicate .rs485 with pc := .loop .takeUser }
  | takeUser (hpc : s.pc = .loop .takeUser) (h : 0 < (s.port .user).sem) :
      Step s none { s.take .user with pc := .loop (.reading .user []) }
  | missUser (hpc : s.pc = .loop .takeUser) (h : (s.port .user).sem = 0) :
      Step s none { s with pc := .loop .takeRs485 }
  | takeRs485 (hpc : s.pc = .loop .takeRs485) (h : 0 < (s.port .rs485).sem) :
      Step s none { s.take .rs485 with pc := .loop (.reading .rs485 []) }
  | missRs485 (hpc : s.pc = .loop .takeRs485) (h : (s.port .rs485).sem = 0) :
      Step s none { s with pc := .loop .takeUser }
  | getByte {p : PortId} {buf : List UInt8} {a : Arrival} {rest : List Arrival}
      (hpc : s.pc = .loop (.reading p buf)) (hlen : buf.length < bufSize)
      (hring : (s.port p).ring = a :: rest) :
      Step s none { s.setPort p { s.port p with ring := rest } with
        pc := .loop (.reading p (buf ++ [a.byte])) }
  | endDeviceRead {p : PortId} {buf : List UInt8} (hpc : s.pc = .loop (.reading p buf))
      (h : buf.length = bufSize ∨ (s.port p).ring = []) :
      Step s none { s with pc := .loop (.checking p buf) }
  | readAgain {p : PortId} {buf : List UInt8} (hpc : s.pc = .loop (.checking p buf))
      (h : buf.length < bufSize) : Step s none { s with pc := .loop (.reading p buf) }
  | endRead {p : PortId} {buf : List UInt8} (hpc : s.pc = .loop (.checking p buf)) :
      Step s (some (.read p buf)) (s.finish buf)

/-- Runs with their events, newest last. -/
inductive Run (s₀ : State) : List Event → State → Prop
  | nil : Run s₀ [] s₀
  | snoc {events : List Event} {s s' : State} {e : Option Event} :
      Run s₀ events s → Step s e s' → Run s₀ (events ++ e.toList) s'

/-- After usart_init of both ports: nothing received and no callback yet. -/
def start : State :=
  ⟨fun _ => ⟨[], 0, false⟩, .starting, []⟩

section Erasure

/-- The port without the marks on its bytes. -/
def Port.erase (p : Port) : TransparentMode.Port :=
  ⟨p.ring.map Arrival.byte, p.sem⟩

/-- The loop state of TransparentMode behind a state inside the loop. -/
def State.erase (s : State) (pc : TransparentMode.Pc) : TransparentMode.State :=
  ⟨fun p => (s.port p).erase, pc, s.pushed⟩

theorem ringPut_erase (ring : List Arrival) (a : Arrival) :
    (ringPut ring a).map Arrival.byte =
      TransparentMode.ringPut (ring.map Arrival.byte) a.byte := by
  unfold ringPut TransparentMode.ringPut
  rw [List.length_map]
  split <;> simp

theorem foldl_ringPut_erase (ring : List Arrival) (as : List Arrival) :
    (as.foldl ringPut ring).map Arrival.byte =
      (as.map Arrival.byte).foldl TransparentMode.ringPut (ring.map Arrival.byte) := by
  induction as generalizing ring with
  | nil => rfl
  | cons a as ih => rw [List.foldl_cons, ih, ringPut_erase, List.map_cons, List.foldl_cons]

theorem isr_erase (p : Port) (bs : List UInt8) (h : p.rxIndicate = true) :
    (p.isr bs).erase = p.erase.isr bs := by
  unfold Port.isr Port.erase TransparentMode.Port.isr
  simp [foldl_ringPut_erase, h, Function.comp_def]

theorem setPort_erase (s : State) (p : PortId) (q : Port) (pc : Pc)
    (pc₁ pc₂ : TransparentMode.Pc) :
    State.erase { s.setPort p q with pc := pc } pc₂ =
      { (s.erase pc₁).setPort p q.erase with pc := pc₂ } := by
  simp only [State.erase, State.setPort, TransparentMode.State.setPort,
    TransparentMode.State.mk.injEq, and_true]
  funext r
  by_cases hr : r = p
  · subst hr
    simp
  · simp [Function.update_of_ne hr]

/-- A step inside the loop, with the marks forgotten, is a step of TransparentMode. -/
theorem Step.erase {s s' : State} {e : Option Event} {pc : TransparentMode.Pc}
    (h : Step s e s') (hpc : s.pc = .loop pc) (hindicate : ∀ p, (s.port p).rxIndicate = true)
    (hbytes : ∀ p bs, e = some (.receive p bs) → bs ≠ []) :
    ∃ pc', s'.pc = .loop pc' ∧ TransparentMode.Step (s.erase pc) e (s'.erase pc') := by
  cases h with
  | receive p bs =>
    refine ⟨pc, hpc, ?_⟩
    have hport := setPort_erase s p ((s.port p).isr bs) s.pc pc pc
    rw [isr_erase _ _ (hindicate p)] at hport
    rw [show s.setPort p ((s.port p).isr bs) = { s.setPort p ((s.port p).isr bs) with pc := s.pc }
      from rfl, hport]
    exact .receive p bs (hbytes p bs rfl)
  | startByte hpc' _ => simp [hpc] at hpc'
  | createUser hpc' => simp [hpc] at hpc'
  | indicateUser hpc' => simp [hpc] at hpc'
  | createRs485 hpc' => simp [hpc] at hpc'
  | indicateRs485 hpc' => simp [hpc] at hpc'
  | takeUser hpc' hsem =>
    obtain rfl : pc = .takeUser := by simpa [hpc] using hpc'
    refine ⟨_, rfl, ?_⟩
    rw [State.take, setPort_erase s _ _ _ .takeUser]
    exact .takeUser rfl hsem
  | missUser hpc' hsem =>
    obtain rfl : pc = .takeUser := by simpa [hpc] using hpc'
    exact ⟨_, rfl, .missUser rfl hsem⟩
  | takeRs485 hpc' hsem =>
    obtain rfl : pc = .takeRs485 := by simpa [hpc] using hpc'
    refine ⟨_, rfl, ?_⟩
    rw [State.take, setPort_erase s _ _ _ .takeRs485]
    exact .takeRs485 rfl hsem
  | missRs485 hpc' hsem =>
    obtain rfl : pc = .takeRs485 := by simpa [hpc] using hpc'
    exact ⟨_, rfl, .missRs485 rfl hsem⟩
  | @getByte p buf a rest hpc' hlen hring =>
    obtain rfl : pc = .reading p buf := by simpa [hpc] using hpc'
    refine ⟨_, rfl, ?_⟩
    rw [setPort_erase s _ _ _ (.reading p buf)]
    have hmap : ((s.erase (.reading p buf)).port p).ring = a.byte :: rest.map Arrival.byte := by
      simp only [State.erase, Port.erase, hring, List.map_cons]
    exact .getByte rfl hlen hmap
  | @endDeviceRead p buf hpc' hend =>
    obtain rfl : pc = .reading p buf := by simpa [hpc] using hpc'
    exact ⟨_, rfl, .endDeviceRead rfl (by simpa [State.erase, Port.erase] using hend)⟩
  | @readAgain p buf hpc' hlen =>
    obtain rfl : pc = .checking p buf := by simpa [hpc] using hpc'
    exact ⟨_, rfl, .readAgain rfl hlen⟩
  | @endRead p buf hpc' =>
    obtain rfl : pc = .checking p buf := by simpa [hpc] using hpc'
    exact ⟨_, rfl, .endRead rfl⟩

end Erasure

section Invariant

/-- Whether rx_indicate of a port has been set when main_entry is here. -/
def Pc.indicates : Pc → PortId → Bool
  | .starting, _ => false
  | .indicateUser, _ => false
  | .createRs485, p => p = .user
  | .indicateRs485, p => p = .user
  | .loop _, _ => true

/-- No byte that came in under rx_indicate is unread. -/
def Heard (ring : List Arrival) : Prop :=
  ∀ a ∈ ring, a.indicated = false

/-- What an empty semaphore says about the ring of its port: a read under way
began with all that is left, and otherwise nothing came in under rx_indicate. -/
def Quiet (pc : Pc) (p : PortId) (ring : List Arrival) : Prop :=
  match pc with
  | .loop (.reading q buf) => if q = p then buf.length + ring.length ≤ ringSize else Heard ring
  | .loop (.checking q _) => if q = p then ring = [] else Heard ring
  | _ => Heard ring

/-- The state of one port when main_entry is at `pc`. -/
structure Inv (pc : Pc) (p : PortId) (q : Port) : Prop where
  indicates : q.rxIndicate = pc.indicates p
  le : q.ring.length ≤ ringSize
  before : q.rxIndicate = false → Heard q.ring
  quiet : q.sem = 0 → Quiet pc p q.ring

theorem ringPut_length_le (ring : List Arrival) (a : Arrival) (h : ring.length ≤ ringSize) :
    (ringPut ring a).length ≤ ringSize := by
  unfold ringPut
  split
  · rw [List.length_append, List.length_singleton]
    omega
  · simp [ringSize] at h ⊢
    omega

theorem foldl_ringPut_length_le (ring as : List Arrival) (h : ring.length ≤ ringSize) :
    (as.foldl ringPut ring).length ≤ ringSize := by
  induction as generalizing ring with
  | nil => exact h
  | cons a as ih => exact ih _ (ringPut_length_le ring a h)

theorem Heard.ringPut {ring : List Arrival} (h : Heard ring) {a : Arrival}
    (ha : a.indicated = false) : Heard (ringPut ring a) := by
  intro b hb
  unfold WakeUp.ringPut at hb
  split at hb
  · rcases List.mem_append.mp hb with hold | hnew
    · exact h b hold
    · rwa [List.mem_singleton.mp hnew]
  · rcases List.mem_append.mp hb with hold | hnew
    · exact h b (List.mem_of_mem_tail hold)
    · rwa [List.mem_singleton.mp hnew]

theorem Heard.foldl {ring : List Arrival} (h : Heard ring) (as : List Arrival)
    (has : ∀ a ∈ as, a.indicated = false) : Heard (as.foldl WakeUp.ringPut ring) := by
  induction as generalizing ring with
  | nil => exact h
  | cons a as ih =>
    exact ih (h.ringPut (has a List.mem_cons_self))
      fun b hb => has b (List.mem_cons_of_mem a hb)

/-- Bytes that come in before rx_indicate is set are not marked. -/
theorem Heard.isr {p : Port} (h : Heard p.ring) (hindicate : p.rxIndicate = false)
    (bs : List UInt8) : Heard (p.isr bs).ring := by
  apply h.foldl
  intro a ha
  obtain ⟨b, _, rfl⟩ := List.mem_map.mp ha
  exact hindicate

theorem Heard.tail {a : Arrival} {rest : List Arrival} (h : Heard (a :: rest)) : Heard rest :=
  fun b hb => h b (List.mem_cons_of_mem a hb)

theorem Inv.isr {pc : Pc} {p : PortId} {q : Port} (h : Inv pc p q) (bs : List UInt8) :
    Inv pc p (q.isr bs) := by
  refine ⟨h.indicates, foldl_ringPut_length_le _ _ h.le,
    fun hindicate => (h.before hindicate).isr hindicate bs, ?_⟩
  intro hsem
  -- An interrupt that leaves the semaphore empty has found no callback.
  have hindicate : q.rxIndicate = false := by
    cases hset : q.rxIndicate with
    | false => rfl
    | true => simp [Port.isr, hset] at hsem
  have hheard := (h.before hindicate).isr hindicate bs
  have hpc := h.indicates
  rw [hindicate] at hpc
  cases pc with
  | loop pc => simp [Pc.indicates] at hpc
  | _ => exact hheard

/-- A step that leaves the port alone. -/
theorem Inv.move {pc pc' : Pc} {p : PortId} {q : Port} (h : Inv pc p q)
    (hpc : pc'.indicates p = pc.indicates p)
    (hquiet : q.sem = 0 → Quiet pc p q.ring → Quiet pc' p q.ring) : Inv pc' p q where
  indicates := h.indicates.trans hpc.symm
  le := h.le
  before := h.before
  quiet hsem := hquiet hsem (h.quiet hsem)

/-- Before rx_indicate is set nothing unread is marked, whatever the semaphore. -/
theorem Inv.heard {pc : Pc} {p : PortId} {q : Port} (h : Inv pc p q)
    (hpc : pc.indicates p = false) : Heard q.ring :=
  h.before (h.indicates.trans hpc)

/-- start_mode takes a byte out of the ring. -/
theorem Inv.startByte {p : PortId} {q : Port} (h : Inv .starting p q) {a : Arrival}
    {rest : List Arrival} (hring : q.ring = a :: rest) :
    Inv .starting p { q with ring := rest } := by
  have hheard := h.heard rfl
  have hle := h.le
  rw [hring] at hheard hle
  exact ⟨h.indicates, Nat.le_of_succ_le hle, fun _ => hheard.tail, fun _ => hheard.tail⟩

theorem Inv.create {pc pc' : Pc} {p : PortId} {q : Port} (h : Inv pc p q)
    (hpc : pc.indicates p = false) (hpc' : pc'.indicates p = false)
    (hquiet : Heard q.ring → Quiet pc' p q.ring) : Inv pc' p { q with sem := 0 } where
  indicates := h.indicates.trans (hpc.trans hpc'.symm)
  le := h.le
  before := h.before
  quiet _ := hquiet (h.heard hpc)

theorem Inv.indicate {pc pc' : Pc} {p : PortId} {q : Port} (h : Inv pc p q)
    (hpc : pc.indicates p = false) (hpc' : pc'.indicates p = true)
    (hquiet : Heard q.ring → Quiet pc' p q.ring) : Inv pc' p { q with rxIndicate := true } where
  indicates := hpc'.symm
  le := h.le
  before hunset := Bool.noConfusion hunset
  quiet _ := hquiet (h.heard hpc)

/-- A byte moves from the ring to the buffer. -/
theorem Inv.getByte {p : PortId} {buf : List UInt8} {q : Port}
    (h : Inv (.loop (.reading p buf)) p q) {a : Arrival} {rest : List Arrival}
    (hring : q.ring = a :: rest) :
    Inv (.loop (.reading p (buf ++ [a.byte]))) p { q with ring := rest } := by
  obtain ⟨hindicates, hle, hbefore, hquiet⟩ := h
  rw [hring] at hle hbefore hquiet
  refine ⟨hindicates, Nat.le_of_succ_le hle, fun hunset => (hbefore hunset).tail, ?_⟩
  intro hsem
  have hsum := hquiet hsem
  simp only [Quiet, if_true, List.length_append, List.length_cons, List.length_nil] at hsum ⊢
  omega

/-- rt_sem_take before a read: the ring fits into the buffer. -/
theorem Inv.take {pc : TransparentMode.Pc} {p : PortId} {q : Port} (h : Inv (.loop pc) p q) :
    Inv (.loop (.reading p [])) p { q with sem := q.sem - 1 } where
  indicates := h.indicates
  le := h.le
  before := h.before
  quiet _ := by simpa [Quiet] using h.le

theorem setPort_self (s : State) (p : PortId) (q : Port) : (s.setPort p q).port p = q :=
  Function.update_self ..

theorem setPort_of_ne (s : State) {p r : PortId} (h : r ≠ p) (q : Port) :
    (s.setPort p q).port r = s.port r :=
  Function.update_of_ne h ..

/-- The port of a step after the step. -/
theorem Inv.place {pc : Pc} {p : PortId} {q : Port} (h : Inv pc p q) (s : State) :
    Inv pc p ((s.setPort p q).port p) := by
  rwa [setPort_self]

/-- Every other port after the step. -/
theorem Inv.keep {pc : Pc} {p r : PortId} {s : State} (h : Inv pc p (s.port p)) (hr : p ≠ r)
    (q : Port) : Inv pc p ((s.setPort r q).port p) := by
  rwa [setPort_of_ne s hr]

theorem Inv.step {s s' : State} {e : Option Event} {p : PortId} (h : Inv s.pc p (s.port p))
    (hstep : Step s e s') : Inv s'.pc p (s'.port p) := by
  cases hstep with
  | receive q bs =>
    by_cases hq : p = q
    · subst hq
      exact (h.isr bs).place s
    · exact h.keep hq _
  | @startByte q a rest hpc hring =>
    by_cases hq : p = q
    · subst hq
      show Inv s.pc p _
      rw [hpc] at h ⊢
      exact (h.startByte hring).place s
    · exact h.keep hq _
  | createUser hpc =>
    rw [hpc] at h
    cases p with
    | user =>
      have hnew : Inv .indicateUser .user _ := h.create rfl rfl fun hheard => hheard
      exact hnew.place s
    | rs485 => exact h.move rfl fun _ hquiet => hquiet
  | indicateUser hpc =>
    rw [hpc] at h
    cases p with
    | user =>
      have hnew : Inv .createRs485 .user _ := h.indicate rfl rfl fun hheard => hheard
      exact hnew.place s
    | rs485 => exact h.move rfl fun _ hquiet => hquiet
  | createRs485 hpc =>
    rw [hpc] at h
    cases p with
    | user => exact h.move rfl fun _ hquiet => hquiet
    | rs485 =>
      have hnew : Inv .indicateRs485 .rs485 _ := h.create rfl rfl fun hheard => hheard
      exact hnew.place s
  | indicateRs485 hpc =>
    rw [hpc] at h
    cases p with
    | user => exact h.move rfl fun _ hquiet => hquiet
    | rs485 =>
      have hnew : Inv (.loop .takeUser) .rs485 _ := h.indicate rfl rfl fun hheard => hheard
      exact hnew.place s
  | takeUser hpc hsem =>
    rw [hpc] at h
    cases p with
    | user => exact h.take.place s
    | rs485 => exact h.move rfl fun _ hquiet => by simpa [Quiet] using hquiet
  | missUser hpc hsem =>
    rw [hpc] at h
    exact h.move rfl fun _ hquiet => hquiet
  | takeRs485 hpc hsem =>
    rw [hpc] at h
    cases p with
    | user => exact h.move rfl fun _ hquiet => by simpa [Quiet] using hquiet
    | rs485 => exact h.take.place s
  | missRs485 hpc hsem =>
    rw [hpc] at h
    exact h.move rfl fun _ hquiet => hquiet
  | @getByte q buf a rest hpc hlen hring =>
    rw [hpc] at h
    by_cases hq : p = q
    · subst hq
      exact (h.getByte hring).place s
    · have hother : Inv (.loop (.reading q (buf ++ [a.byte]))) p (s.port p) :=
        h.move rfl fun _ hquiet => by simpa [Quiet, Ne.symm hq] using hquiet
      exact hother.keep hq _
  | @endDeviceRead q buf hpc hend =>
    rw [hpc] at h
    refine h.move rfl fun _ hquiet => ?_
    by_cases hq : q = p
    · subst hq
      simp only [Quiet, if_true] at hquiet ⊢
      -- The buffer is larger than all the ring could hold when the read began.
      have hfull : buf.length ≠ bufSize := by
        simp only [bufSize, ringSize] at hquiet ⊢
        omega
      exact hend.resolve_left hfull
    · simpa [Quiet, hq] using hquiet
  | @readAgain q buf hpc hlen =>
    rw [hpc] at h
    refine h.move rfl fun _ hquiet => ?_
    by_cases hq : q = p
    · subst hq
      simp only [Quiet, if_true] at hquiet ⊢
      rw [hquiet, List.length_nil]
      simp only [bufSize, ringSize] at hlen ⊢
      omega
    · simpa [Quiet, hq] using hquiet
  | @endRead q buf hpc =>
    rw [hpc] at h
    refine h.move rfl fun _ hquiet => ?_
    by_cases hq : q = p
    · subst hq
      simp only [Quiet, if_true] at hquiet
      intro a ha
      change a ∈ (s.port q).ring at ha
      rw [hquiet] at ha
      exact absurd ha List.not_mem_nil
    · simpa [Quiet, State.finish, hq] using hquiet

theorem Inv.run {events : List Event} {s : State} (h : Run start events s) (p : PortId) :
    Inv s.pc p (s.port p) := by
  induction h with
  | nil => exact ⟨rfl, Nat.zero_le _, fun _ => by simp [start, Heard],
      fun _ => by simp [start, Quiet, Heard]⟩
  | snoc _ hstep ih => exact ih.step hstep

/-- A run of the loop, with the marks forgotten, is a run of TransparentMode. -/
theorem Run.erase {s s' : State} {events : List Event} {pc : TransparentMode.Pc}
    (h : Run s events s') (hpc : s.pc = .loop pc) (hinv : ∀ p, Inv s.pc p (s.port p))
    (hbytes : ∀ p bs, .receive p bs ∈ events → bs ≠ []) :
    (∀ p, Inv s'.pc p (s'.port p)) ∧ ∃ pc', s'.pc = .loop pc' ∧
      TransparentMode.Run (s.erase pc) events (s'.erase pc') := by
  induction h with
  | nil => exact ⟨hinv, pc, hpc, .nil⟩
  | @snoc events s₁ s₂ e _ hstep ih =>
    obtain ⟨hinv₁, pc₁, hpc₁, hrun₁⟩ :=
      ih fun p bs hmem => hbytes p bs (List.mem_append_left _ hmem)
    have hindicate (p : PortId) : (s₁.port p).rxIndicate = true := by
      rw [(hinv₁ p).indicates, hpc₁, Pc.indicates]
    obtain ⟨pc₂, hpc₂, hstep₂⟩ := hstep.erase hpc₁ hindicate fun p bs he =>
      hbytes p bs (List.mem_append_right _ (by simp [he]))
    exact ⟨fun p => (hinv₁ p).step hstep, pc₂, hpc₂, hrun₁.snoc hstep₂⟩

end Invariant

/-- At the top of the loop a port with an unread byte that came in under its
rx_indicate has a token left for it. -/
theorem token_for_unread (events : List Event) (s : State) (h : Run start events s)
    (hpc : s.pc = .loop .takeUser) (p : PortId) (a : Arrival) (ha : a ∈ (s.port p).ring)
    (hindicated : a.indicated = true) : 1 ≤ (s.port p).sem := by
  have hinv := Inv.run h p
  rw [hpc] at hinv
  by_contra hempty
  have hheard : Heard (s.port p).ring := hinv.quiet (by omega)
  rw [hheard a ha] at hindicated
  exact Bool.noConfusion hindicated

/-- A byte before and a byte after the callback of USERCOM485 is set. -/
theorem token_for_unread_second : ∃ events s, Run start events s ∧
    s.pc = .loop .takeUser ∧ (s.port .rs485).ring = [⟨7, false⟩, ⟨9, true⟩] ∧
    1 ≤ (s.port .rs485).sem := by
  have hstart : Run start [] start := .nil
  have hloop := ((((hstart.snoc (.receive .rs485 [7])).snoc (.createUser rfl)).snoc
    (.indicateUser rfl)).snoc (.createRs485 rfl)).snoc (.indicateRs485 rfl)
  have hreceived := hloop.snoc (.receive .rs485 [9])
  exact ⟨_, _, hreceived, rfl, rfl,
    token_for_unread _ _ hreceived rfl .rs485 ⟨9, true⟩ (List.mem_cons_of_mem _ (.head _)) rfl⟩

end GemhoNbiot.WakeUp
