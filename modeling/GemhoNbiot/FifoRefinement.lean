import GemhoNbiot.DropOldest
import GemhoNbiot.FifoCreation

/-!
Runs of non-overlapping msg_push and msg_pop calls against the drop-oldest
queue of byte strings. The simulation relation keeps both ring windows
straight. A push onto a queue whose size does not divide 65536 keeps the window
straight unless the put counter has just wrapped to zero while entries are
live; there the new entry overwrites the newest one.
-/
namespace GemhoNbiot.FifoRefinement

open Dataqueue MsgFifo RtDataQueue FifoUnits FifoCreation

inductive Call
  | push (d : Message)
  | pop (timeout : ℤ)

/-- The FIFO after a call. A pop that waits has changed nothing. -/
def after (f : Fifo) : Call → Fifo
  | .push d => (msgPush f d).2
  | .pop timeout =>
    match msgPop f timeout with
    | none => f
    | some (_, _, f') => f'

/-- The call as an operation on the queue of byte strings. -/
def Call.op (msgSize : UInt16) : Call → DropOldest.Op (List UInt8)
  | .push d => .push (clamp msgSize d)
  | .pop _ => .pop

/-- The messages stored in the FIFO, oldest first. -/
def queued (f : Fifo) : List (List UInt8) :=
  f.handle.popQueue.entries.map fun mu => mu.elim [] f.mem.message

/-- The call returns what the queue `Q` prescribes. -/
def Matches (f : Fifo) (Q : List (List UInt8)) : Call → Prop
  | .push d => (msgPush f d).1 = 0
  | .pop timeout =>
    match Q with
    | [] => timeout = 0 → msgPop f timeout = some (-RT_ETIMEOUT, none, f)
    | m :: _ => ∃ out f', msgPop f timeout = some (0, some out, f') ∧
        out.msgData = m ∧ out.msgSize.toNat = m.length

/-- All along the run the FIFO stores the queue, and every call returns what
the queue prescribes. -/
def Conforms (fifoSize : ℕ) (msgSize : UInt16) : Fifo → List (List UInt8) → List Call → Prop
  | f, Q, [] => queued f = Q
  | f, Q, c :: calls => queued f = Q ∧ Matches f Q c ∧
      Conforms fifoSize msgSize (after f c) (DropOldest.next fifoSize Q (c.op msgSize)) calls

/-- The next push onto this queue does not meet a put counter that has just
wrapped to zero over live entries. Harmless sizes are the divisors of 65536. -/
def WrapSafe {α : Type} (q : RtDataQueue α) : Prop :=
  q.size.toNat ∣ 65536 ∨ q.putIndex ≠ 0 ∨ q.getIndex = q.putIndex

/-- The condition for the queue the call pushes onto, if it pushes at all. -/
def IndexSafe (f : Fifo) : Call → Prop
  | .push _ => WrapSafe f.handle.popQueue
  | .pop _ => f.handle.popQueue.getIndex = f.handle.popQueue.putIndex ∨
      WrapSafe f.handle.pushQueue

def IndexSafeRun : Fifo → List Call → Prop
  | _, [] => True
  | f, c :: calls => IndexSafe f c ∧ IndexSafeRun (after f c) calls

instance {α : Type} (q : RtDataQueue α) : Decidable (WrapSafe q) :=
  inferInstanceAs (Decidable (_ ∨ _ ∨ _))

instance (f : Fifo) : (c : Call) → Decidable (IndexSafe f c)
  | .push _ => inferInstanceAs (Decidable (WrapSafe _))
  | .pop _ => inferInstanceAs (Decidable (_ ∨ _))

instance decidableIndexSafeRun : (f : Fifo) → (calls : List Call) →
    Decidable (IndexSafeRun f calls)
  | _, [] => isTrue trivial
  | f, c :: calls =>
    have := decidableIndexSafeRun (after f c) calls
    inferInstanceAs (Decidable (_ ∧ _))

theorem straight_succ {α : Type} {q : RtDataQueue α} {len : ℕ} (h : q.Sized len)
    (hs : q.Straight len) (hw : WrapSafe q) : q.Straight (len + 1) := by
  have hput := h.putIndex_eq
  have hget := q.getIndex.toNat_lt
  rcases hw with hdvd | hne | hempty
  · exact Or.inl hdvd
  · rcases hs with hdvd | hle
    · exact Or.inl hdvd
    · have hput0 : q.putIndex.toNat ≠ 0 := by
        intro hzero
        exact hne (UInt16.toNat_inj.mp (hzero.trans UInt16.toNat_zero.symm))
      exact Or.inr (by omega)
  · have hlen : len = 0 := h.empty_iff.mp hempty
    exact Or.inr (by omega)

/-- The simulation relation between a FIFO at rest and the queue `Q`. -/
structure Simulates (f : Fifo) (fifoSize : ℕ) (msgSize : UInt16)
    (units free qs : List ℕ) (Q : List (List UInt8)) : Prop where
  inv : Inv f units free qs (fun _ => False)
  pushStraight : f.handle.pushQueue.Straight free.length
  popStraight : f.handle.popQueue.Straight qs.length
  messages : qs.map f.mem.message = Q
  sizes : ∀ u ∈ qs, (f.mem.units u).msgSize.toNat = (f.mem.message u).length
  msgSize_eq : f.handle.msgSize = msgSize
  fifoSize_eq : f.handle.fifoSize.toNat = fifoSize

theorem Simulates.start {f : Fifo} {msgSize fifoSize : UInt16} {units : List ℕ}
    (h : Fresh f msgSize fifoSize units) :
    Simulates f fifoSize.toNat msgSize units units [] [] where
  inv := h.inv
  pushStraight := by
    have hbound := h.inv.pushQueue.sized.bound
    have hlt := f.handle.pushQueue.size.toNat_lt
    apply Or.inr
    rw [h.pushGet]
    simp only [UInt16.toNat_zero]
    omega
  popStraight := Or.inr (by rw [h.popGet]; simp)
  messages := rfl
  sizes := fun _ hu => by simp at hu
  msgSize_eq := h.msgSize_eq
  fifoSize_eq := by rw [h.fifoSize_eq]

/-- At rest every unit is free or queued. -/
theorem rest_length {f : Fifo} {units free qs : List ℕ}
    (h : Inv f units free qs (fun _ => False)) :
    free.length + qs.length = f.handle.fifoSize.toNat := by
  have hsub : ∀ u ∈ free ++ qs, u ∈ units := fun u hu => (h.mem_units u).mpr (Or.inl hu)
  have hsub' : ∀ u ∈ units, u ∈ free ++ qs := by
    intro u hu
    rcases (h.mem_units u).mp hu with hu | hfalse
    · exact hu
    · exact hfalse.elim
  have hle := length_le_of_nodup h.nodup hsub
  have hge := length_le_of_nodup h.units_nodup hsub'
  rw [h.length_units] at hle hge
  simp only [List.length_append] at hle hge
  omega

theorem queued_eq {f : Fifo} {qs : List ℕ} (h : f.handle.popQueue.Represents qs) :
    queued f = qs.map f.mem.message := by
  unfold queued
  rw [h.entries_eq, List.map_map]
  rfl

/-- What storing `bs` in the unit `u` and queueing it has changed. -/
structure Stored (f f' : Fifo) (qs : List ℕ) (u : ℕ) (bs : List UInt8) : Prop where
  message_new : f'.mem.message u = bs
  size_new : (f'.mem.units u).msgSize.toNat = bs.length
  message_old : ∀ v ∈ qs, f'.mem.message v = f.mem.message v
  size_old : ∀ v ∈ qs, (f'.mem.units v).msgSize = (f.mem.units v).msgSize
  pushQueue_eq : f'.handle.pushQueue = f.handle.pushQueue
  popQueue_eq : f'.handle.popQueue = f.handle.popQueue.pushed u sizeofMsgUint
  msgSize_eq : f'.handle.msgSize = f.handle.msgSize
  fifoSize_eq : f'.handle.fifoSize = f.handle.fifoSize

section Step

variable {f f' : Fifo} {fifoSize : ℕ} {msgSize : UInt16} {units free qs : List ℕ}
  {Q : List (List UInt8)} {u : ℕ}

/-- The stores of msg_push into the unit it holds, and its push onto pop_queue. -/
theorem msgPushStore_stored (d : Message) (h : Inv f units free qs (fun v => v = u ∨ False))
    (hs : f.handle.popQueue.Straight (qs.length + 1)) :
    ∃ f', msgPushStore f d u = (0, f') ∧ Inv f' units free (qs ++ [u]) (fun _ => False) ∧
      Stored f f' qs u (clamp f.handle.msgSize d) := by
  have hheld : (fun v => v = u ∨ False) u := Or.inl rfl
  have hroom := h.length_lt hheld
  have hlt : qs.length < f.handle.popQueue.size.toNat := by
    rw [h.popSize]
    omega
  have humem : u ∈ units := (h.mem_units u).mpr (Or.inr hheld)
  have hnotin : u ∉ free ++ qs := h.held_fresh u hheld
  have hothers : ∀ v ∈ qs, v ≠ u ∧ v ∈ units := by
    intro v hv
    have hmem : v ∈ free ++ qs := List.mem_append_right free hv
    exact ⟨fun heq => hnotin (heq ▸ hmem), (h.mem_units v).mpr (Or.inl hmem)⟩
  have hclamp := clamp_length_lt f.handle.msgSize d
  have hstep := msgPushStore_eq d u h.popQueue.sized hlt
  generalize clamp f.handle.msgSize d = bs at hclamp hstep ⊢
  have hdata : ∀ v, (((f.mem.copyIn u bs).setMsgSize u (UInt16.ofNat bs.length)).units
      v).msgData = (f.mem.units v).msgData := by
    intro v
    rw [setMsgSize_msgData, copyIn_units]
  refine ⟨_, hstep, ?_, ?_⟩
  · apply ((h.withMem hdata).giveQueued hheld hs).congr
    intro v
    simp
  · constructor
    case message_new => exact stored_message f.mem units h.buffers u humem bs hclamp
    case size_new =>
      change (((f.mem.copyIn u bs).setMsgSize u _).units u).msgSize.toNat = _
      simpa [Memory.setMsgSize] using hclamp
    case message_old =>
      intro v hv
      obtain ⟨hne, hvmem⟩ := hothers v hv
      exact (setMsgSize_message _ _ _ _ hne).trans
        (copyIn_message f.mem units h.buffers u v humem hvmem hne bs)
    case size_old =>
      intro v hv
      change (((f.mem.copyIn u bs).setMsgSize u _).units v).msgSize = _
      simp [Memory.setMsgSize, Function.update_of_ne (hothers v hv).1, copyIn_units]
    all_goals rfl

theorem Stored.simulates {bs : List UInt8} (h : Stored f f' qs u bs)
    (hinv : Inv f' units free (qs ++ [u]) (fun _ => False))
    (hpush : f.handle.pushQueue.Straight free.length)
    (hpop : f.handle.popQueue.Straight (qs.length + 1))
    (hmsgs : qs.map f.mem.message = Q)
    (hsizes : ∀ v ∈ qs, (f.mem.units v).msgSize.toNat = (f.mem.message v).length)
    (hmsgSize : f.handle.msgSize = msgSize) (hfifo : f.handle.fifoSize.toNat = fifoSize) :
    Simulates f' fifoSize msgSize units free (qs ++ [u]) (Q ++ [bs]) where
  inv := hinv
  pushStraight := by
    rw [h.pushQueue_eq]
    exact hpush
  popStraight := by
    rw [h.popQueue_eq, List.length_append]
    exact hpop
  messages := by
    rw [List.map_append, List.map_singleton, h.message_new, ← hmsgs]
    rw [List.map_congr_left h.message_old]
  sizes := by
    intro v hv
    rcases List.mem_append.mp hv with hv | hv
    · rw [h.size_old v hv, h.message_old v hv]
      exact hsizes v hv
    · rw [List.mem_singleton] at hv
      subst v
      rw [h.size_new, h.message_new]
  msgSize_eq := h.msgSize_eq.trans hmsgSize
  fifoSize_eq := by
    rw [h.fifoSize_eq]
    exact hfifo

/-- A safe push returns 0 and leaves the drop-oldest queue with the message. -/
theorem Simulates.push (h : Simulates f fifoSize msgSize units free qs Q) (d : Message)
    (hsafe : IndexSafe f (.push d)) :
    (msgPush f d).1 = 0 ∧ (∃ free' qs', Simulates (after f (.push d)) fifoSize msgSize
      units free' qs' (DropOldest.push fifoSize Q (clamp msgSize d))) ∧
      (after f (.push d)).handle.popQueue.putIndex = f.handle.popQueue.putIndex + 1 := by
  have hrest := rest_length h.inv
  have hsize := h.fifoSize_eq
  have hQ : Q.length = qs.length := by rw [← h.messages, List.length_map]
  have hstraight := straight_succ h.inv.popQueue.sized h.popStraight hsafe
  have hmsgSize := h.msgSize_eq
  cases free with
  | cons u free =>
    have hroom : Q.length ≠ fifoSize := by
      simp only [List.length_cons] at hrest
      omega
    obtain ⟨f', hstore, hinv, hstored⟩ := msgPushStore_stored d h.inv.takeFree hstraight
    have heq : msgPush f d = (0, f') := (msgPush_of_free d h.inv.pushQueue).trans hstore
    refine ⟨by rw [heq], ⟨free, qs ++ [u], ?_⟩, by simp only [after, heq, hstored.popQueue_eq]; rfl⟩
    rw [DropOldest.push_of_room fifoSize Q _ hroom]
    simp only [after, heq, ← hmsgSize]
    exact hstored.simulates hinv (Straight.popped h.pushStraight) hstraight h.messages
      h.sizes rfl hsize
  | nil =>
    have hpos := h.inv.popQueue.sized.sizePos
    rw [h.inv.popSize] at hpos
    cases qs with
    | nil =>
      simp only [List.length_nil] at hrest
      omega
    | cons u qs =>
      have hfull : Q.length = fifoSize := by
        simp only [List.length_nil, Nat.zero_add] at hrest
        omega
      have hmid : f.takeOldest.handle.popQueue.Straight (qs.length + 1) :=
        Straight.popped hstraight
      obtain ⟨f', hstore, hinv, hstored⟩ := msgPushStore_stored d h.inv.takeOldest hmid
      have heq : msgPush f d = (0, f') :=
        (msgPush_of_oldest d h.inv.pushQueue h.inv.popQueue).trans hstore
      refine ⟨by rw [heq], ⟨[], qs ++ [u], ?_⟩,
        by simp only [after, heq, hstored.popQueue_eq]; rfl⟩
      rw [DropOldest.push_of_full fifoSize Q _ hfull]
      simp only [after, heq, ← hmsgSize]
      refine hstored.simulates hinv h.pushStraight hmid ?_ ?_ rfl hsize
      · rw [← h.messages]
        rfl
      · exact fun v hv => h.sizes v (List.mem_cons_of_mem u hv)

/-- A safe pop delivers the head of the queue and removes it. -/
theorem Simulates.pop {m : List UInt8} (h : Simulates f fifoSize msgSize units free qs (m :: Q))
    (timeout : ℤ) (hsafe : IndexSafe f (.pop timeout)) :
    ∃ out f' free' qs', msgPop f timeout = some (0, some out, f') ∧ out.msgData = m ∧
      out.msgSize.toNat = m.length ∧ Simulates f' fifoSize msgSize units free' qs' Q := by
  cases qs with
  | nil => exact absurd h.messages (by simp)
  | cons u qs =>
    have hmsgs := h.messages
    rw [List.map_cons, List.cons.injEq] at hmsgs
    have hinv := h.inv.takeOldest
    have hheld : (fun v => v = u ∨ False) u := Or.inl rfl
    have hroom := hinv.length_lt hheld
    have hlt : free.length < f.takeOldest.handle.pushQueue.size.toNat := by
      rw [hinv.pushSize]
      omega
    have hsafe' : WrapSafe f.handle.pushQueue := by
      rcases hsafe with hempty | hsafe
      · exact absurd (h.inv.popQueue.sized.empty_iff.mp hempty) (by simp)
      · exact hsafe
    have hstraight := straight_succ h.inv.pushQueue.sized h.pushStraight hsafe'
    have hstep := msgPopStore_eq u hinv.pushQueue.sized hlt
    have hnotin : u ∉ free ++ qs := hinv.held_fresh u hheld
    have hothers : ∀ v ∈ qs, v ≠ u := by
      intro v hv heq
      exact hnotin (heq ▸ List.mem_append_right free hv)
    have hdata : ∀ v, ((f.takeOldest.mem.setMsgSize u 0).units v).msgData =
        (f.takeOldest.mem.units v).msgData := setMsgSize_msgData _ _ _
    refine ⟨_, _, free ++ [u], qs, (msgPop_of_cons timeout h.inv.popQueue).trans
      (congrArg some hstep), hmsgs.1, ?_, ?_⟩
    · rw [← hmsgs.1]
      exact h.sizes u List.mem_cons_self
    · constructor
      case inv =>
        apply ((hinv.withMem hdata).giveFree hheld hstraight).congr
        intro v
        simp
      case pushStraight =>
        rw [List.length_append]
        exact hstraight
      case popStraight => exact Straight.popped h.popStraight
      case messages =>
        rw [← hmsgs.2]
        apply List.map_congr_left
        intro v hv
        exact setMsgSize_message _ _ _ _ (hothers v hv)
      case sizes =>
        intro v hv
        have hne := hothers v hv
        change ((f.mem.setMsgSize u 0).units v).msgSize.toNat =
          ((f.mem.setMsgSize u 0).message v).length
        rw [setMsgSize_message _ _ _ _ hne]
        simpa [Memory.setMsgSize, Function.update_of_ne hne] using
          h.sizes v (List.mem_cons_of_mem u hv)
      case msgSize_eq => exact h.msgSize_eq
      case fifoSize_eq => exact h.fifoSize_eq

/-- Popping the empty queue leaves the FIFO as it is, whether or not it waits. -/
theorem Simulates.pop_nil (h : Simulates f fifoSize msgSize units free qs [])
    (timeout : ℤ) :
    (timeout = 0 → msgPop f timeout = some (-RT_ETIMEOUT, none, f)) ∧
      after f (.pop timeout) = f := by
  have hqs : qs = [] := List.map_eq_nil_iff.mp h.messages
  subst qs
  constructor
  · intro heq
    subst heq
    exact msgPop_of_nil h.inv.popQueue
  · have hpop := rtDataQueuePop_empty h.inv.popQueue.sized timeout
    by_cases ht : timeout = 0
    · subst ht
      simp only [after, msgPop_of_nil h.inv.popQueue]
    · simp [after, msgPop, hpop, ht]

/-- One safe call is matched by the queue and keeps the simulation. -/
theorem Simulates.step (h : Simulates f fifoSize msgSize units free qs Q) (c : Call)
    (hsafe : IndexSafe f c) :
    Matches f Q c ∧ ∃ free' qs', Simulates (after f c) fifoSize msgSize units free' qs'
      (DropOldest.next fifoSize Q (c.op msgSize)) := by
  cases c with
  | push d =>
    obtain ⟨hret, hnext, _⟩ := h.push d hsafe
    exact ⟨hret, hnext⟩
  | pop timeout =>
    cases Q with
    | nil =>
      obtain ⟨hpop, hafter⟩ := h.pop_nil timeout
      refine ⟨hpop, free, qs, ?_⟩
      rw [hafter]
      exact h
    | cons m Q =>
      obtain ⟨out, f', free', qs', hpop, hout, hlen, hsim⟩ := h.pop timeout hsafe
      refine ⟨⟨out, f', hpop, hout, hlen⟩, free', qs', ?_⟩
      simp only [after, hpop]
      exact hsim

theorem Simulates.conforms (h : Simulates f fifoSize msgSize units free qs Q)
    (calls : List Call) (hsafe : IndexSafeRun f calls) :
    Conforms fifoSize msgSize f Q calls := by
  have hqueued : queued f = Q := (queued_eq h.inv.popQueue).trans h.messages
  induction calls generalizing f free qs Q with
  | nil => exact hqueued
  | cons c calls ih =>
    obtain ⟨hmatch, free', qs', hnext⟩ := h.step c hsafe.1
    refine ⟨hqueued, hmatch, ?_⟩
    exact ih hnext hsafe.2 ((queued_eq hnext.inv.popQueue).trans hnext.messages)

end Step

/-- Every run of a created FIFO whose pushes keep clear of the wrap follows the
drop-oldest queue. -/
theorem msgFifo_conforms (msgSize fifoSize : UInt16)
    (hfifo : 1 ≤ fifoSize.toNat) (f : Fifo)
    (hf : Created f msgSize fifoSize) (calls : List Call) (hsafe : IndexSafeRun f calls) :
    Conforms fifoSize.toNat msgSize f [] calls := by
  obtain ⟨units, hfresh⟩ := created_fresh hf hfifo
  exact (Simulates.start hfresh).conforms calls hsafe

theorem blankFifo_created : Created (blankFifo 3) 490 3 := ⟨_, _, _, rfl⟩

theorem msgFifo_conforms_three :
    Conforms 3 490 (blankFifo 3) []
      [.push (byteMessage 1), .push (byteMessage 2), .pop 0, .pop 0, .pop 0] :=
  msgFifo_conforms 490 3 (by decide) _ blankFifo_created _ (by decide)

theorem Conforms.append {fifoSize : ℕ} {msgSize : UInt16} {f : Fifo}
    {Q : List (List UInt8)} (first second : List Call)
    (h : Conforms fifoSize msgSize f Q (first ++ second)) :
    Conforms fifoSize msgSize (first.foldl after f)
      (DropOldest.run fifoSize Q (first.map (Call.op msgSize))) second := by
  induction first generalizing f Q with
  | nil => exact h
  | cons c first ih => exact ih h.2.2

/-- What the run removed from the queue, followed by what the FIFO still
stores, is what was queued and pushed, in order. -/
theorem Conforms.history {fifoSize : ℕ} {msgSize : UInt16} {f : Fifo} {Q : List (List UInt8)}
    {calls : List Call} (h : Conforms fifoSize msgSize f Q calls) :
    DropOldest.departures fifoSize Q (calls.map (Call.op msgSize)) ++
        queued (calls.foldl after f) =
      Q ++ ((calls.map (Call.op msgSize)).map DropOldest.Op.pushed).flatten := by
  have hend : queued (calls.foldl after f) =
      DropOldest.run fifoSize Q (calls.map (Call.op msgSize)) :=
    Conforms.append calls [] (by rwa [List.append_nil])
  rw [hend, DropOldest.departures_append_run]

theorem push_replicate_min (a : List UInt8) (k : ℕ) :
    DropOldest.push 3 (List.replicate (min k 3) a) a = List.replicate (min (k + 1) 3) a := by
  rcases Nat.lt_or_ge k 3 with hlt | hge
  · rw [DropOldest.push_of_room _ _ _ (by simp only [List.length_replicate]; omega),
      Nat.min_eq_left (by omega), Nat.min_eq_left (by omega), List.replicate_succ']
  · rw [Nat.min_eq_right hge, Nat.min_eq_right (by omega)]
    rfl

/-- A three-unit FIFO after `k` pushes of one message, up to the wrap. -/
theorem pushes_simulate {f : Fifo} {units : List ℕ} {fifoSize : UInt16}
    (h : Fresh f 490 fifoSize units) (h3 : fifoSize.toNat = 3) (a : Message) (k : ℕ)
    (hk : k ≤ 65536) :
    ∃ free qs, Simulates ((List.replicate k (Call.push a)).foldl after f) 3 490 units free qs
        (List.replicate (min k 3) (clamp 490 a)) ∧
      (((List.replicate k (Call.push a)).foldl after f).handle.popQueue.putIndex).toNat =
        k % 65536 := by
  induction k with
  | zero =>
    have hstart := Simulates.start h
    rw [h3] at hstart
    have hput := h.inv.popQueue.sized.putIndex_eq
    rw [h.popGet] at hput
    exact ⟨units, [], hstart, hput.symm⟩
  | succ k ih =>
    obtain ⟨free, qs, hsim, hput⟩ := ih (by omega)
    rw [List.replicate_succ', List.foldl_append, List.foldl_cons, List.foldl_nil]
    generalize (List.replicate k (Call.push a)).foldl after f = g at hsim hput ⊢
    have hsafe : IndexSafe g (.push a) := by
      rcases Nat.eq_zero_or_pos k with hzero | hpos
      · subst hzero
        have hqs : qs = [] := List.map_eq_nil_iff.mp hsim.messages
        subst hqs
        exact Or.inr (Or.inr (hsim.inv.popQueue.sized.empty_iff.mpr rfl))
      · refine Or.inr (Or.inl ?_)
        intro hzero
        rw [hzero, UInt16.toNat_zero, Nat.mod_eq_of_lt (by omega)] at hput
        omega
    obtain ⟨_, ⟨free', qs', hnext⟩, hnextPut⟩ := hsim.push a hsafe
    rw [push_replicate_min] at hnext
    refine ⟨free', qs', hnext, ?_⟩
    rw [hnextPut, UInt16.toNat_add, hput]
    simp only [UInt16.toNat_one]
    omega

/-- With three units, the push after the put counter of pop_queue has wrapped
lands on the cell of the newest queued entry. -/
theorem wrapped_push_overwrites {f : Fifo} {units free qs : List ℕ} {Q : List (List UInt8)}
    (h : Simulates f 3 490 units free qs Q) (hlen : Q.length = 3)
    (hput : f.handle.popQueue.putIndex.toNat = 0) (b : Message) :
    (queued (after f (.push b)))[1]? = some (clamp 490 b) := by
  have hQ : Q.length = qs.length := by rw [← h.messages, List.length_map]
  have hrest := rest_length h.inv
  rw [h.fifoSize_eq] at hrest
  have hfree : free = [] := List.length_eq_zero_iff.mp (by omega)
  subst hfree
  cases qs with
  | nil => simp at hQ; omega
  | cons u qs =>
    have hqs : qs.length = 2 := by simp only [List.length_cons] at hQ; omega
    have hinv := h.inv.takeOldest
    have hsized := hinv.popQueue.sized
    rw [hqs] at hsized
    have hsize : f.takeOldest.handle.popQueue.size.toNat = 3 := by
      rw [hinv.popSize]
      exact h.fifoSize_eq
    have hget : f.takeOldest.handle.popQueue.getIndex.toNat = 65534 := by
      have hsum := hsized.putIndex_eq
      have hputIndex : f.takeOldest.handle.popQueue.putIndex.toNat = 0 := hput
      have hlt := f.takeOldest.handle.popQueue.getIndex.toNat_lt
      omega
    have hcell : f.takeOldest.handle.popQueue.liveCell 1 =
        f.takeOldest.handle.popQueue.liveCell 2 := by
      simp only [liveCell, RingWindow.cell, hsize, hget]
    have hpush : msgPush f b = _ := (msgPush_of_oldest b h.inv.pushQueue h.inv.popQueue).trans
      (msgPushStore_eq b u hsized (by omega))
    have hmem : u ∈ units := (hinv.mem_units u).mpr (Or.inr (Or.inl rfl))
    have hpushed := hsized.pushed (by omega) u sizeofMsgUint
    have hmsg : f.takeOldest.handle.msgSize = 490 := h.msgSize_eq
    simp only [queued, after, hpush, entries, List.getElem?_map]
    change ((List.range (f.takeOldest.handle.popQueue.pushed u sizeofMsgUint).count)[1]?.map
      _).map _ = _
    rw [hpushed.count_eq, List.getElem?_range (by omega)]
    change some (Option.elim ((f.takeOldest.handle.popQueue.pushed u sizeofMsgUint).cells
      (f.takeOldest.handle.popQueue.liveCell 1)) [] _) = _
    rw [hsized.pushed_cells, hcell, Function.update_self, hmsg]
    exact congrArg some (stored_message f.mem units h.inv.buffers u hmem _ (clamp_length_lt 490 b))

/-- 65537 pushes and no pop: the drop-oldest queue would end with the messages
1, 1, 2, the FIFO ends with 1, 2, 2. -/
theorem msgFifo_wrap_loses_message :
    ¬ Conforms 3 490 (blankFifo 3) []
      (List.replicate 65536 (.push (byteMessage 1)) ++ [.push (byteMessage 2)]) := by
  intro hconf
  obtain ⟨units, hfresh⟩ := created_fresh blankFifo_created (by decide)
  obtain ⟨free, qs, hsim, hput⟩ := pushes_simulate hfresh rfl (byteMessage 1) 65536 (Nat.le_refl _)
  have hwrap := wrapped_push_overwrites hsim (by simp) (hput.trans (Nat.mod_self _)) (byteMessage 2)
  have hbefore := (hconf.append).1
  have hafter := (hconf.append).2.2
  have hq : queued ((List.replicate 65536 (Call.push (byteMessage 1))).foldl after (blankFifo 3)) =
      List.replicate (min 65536 3) (clamp 490 (byteMessage 1)) :=
    (queued_eq hsim.inv.popQueue).trans hsim.messages
  rw [hbefore.symm.trans hq] at hafter
  rw [show queued _ = DropOldest.next 3 (List.replicate 3 (clamp 490 (byteMessage 1)))
    (.push (clamp 490 (byteMessage 2))) from hafter] at hwrap
  revert hwrap
  decide

end GemhoNbiot.FifoRefinement
