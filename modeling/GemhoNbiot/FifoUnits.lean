import Mathlib.Data.List.Perm.Subperm
import GemhoNbiot.MsgFifo

/-!
Where the units of a message FIFO are. Each unit of the handle is free (in
push_queue), queued (in pop_queue) or held by a call that has popped it and not
yet pushed it back. The four queue operations of msg_push and msg_pop move one
unit between these places; a push needs a straight window, see RingWindow. The
stores of a call go to the unit it holds and leave every other message alone.
-/
namespace GemhoNbiot.FifoUnits

open Dataqueue MsgFifo RtDataQueue

/-- Every unit has a buffer of its own. -/
structure OwnBuffers (mem : Memory) (units : List ℕ) : Prop where
  exists_buf : ∀ u ∈ units, ∃ b, (mem.units u).msgData = some b
  buf_inj : ∀ u ∈ units, ∀ v ∈ units, ∀ b,
    (mem.units u).msgData = some b → (mem.units v).msgData = some b → u = v

/-- `free`, `queued` and `held` divide the units of the handle among them. -/
structure Inv (f : Fifo) (units free queued : List ℕ) (held : ℕ → Prop) : Prop where
  pushQueue : f.handle.pushQueue.Represents free
  popQueue : f.handle.popQueue.Represents queued
  pushSize : f.handle.pushQueue.size = f.handle.fifoSize
  popSize : f.handle.popQueue.size = f.handle.fifoSize
  length_units : units.length = f.handle.fifoSize.toNat
  units_nodup : units.Nodup
  nodup : (free ++ queued).Nodup
  held_fresh : ∀ u, held u → u ∉ free ++ queued
  mem_units : ∀ u, u ∈ units ↔ u ∈ free ++ queued ∨ held u
  buffers : OwnBuffers f.mem units

theorem length_le_of_nodup {units l : List ℕ} (hn : l.Nodup) (hsub : ∀ u ∈ l, u ∈ units) :
    l.length ≤ units.length :=
  (List.subperm_of_subset hn hsub).length_le

namespace Inv

variable {f : Fifo} {units free queued : List ℕ} {held : ℕ → Prop} {u : ℕ}

theorem congr {held' : ℕ → Prop} (h : Inv f units free queued held)
    (hiff : ∀ u, held u ↔ held' u) : Inv f units free queued held' := by
  have heq : held = held' := funext fun u => propext (hiff u)
  exact heq ▸ h

/-- A held unit leaves room in both queues. -/
theorem length_lt (h : Inv f units free queued held) (hu : held u) :
    free.length + queued.length < f.handle.fifoSize.toNat := by
  have hnodup : (u :: (free ++ queued)).Nodup :=
    List.nodup_cons.mpr ⟨h.held_fresh u hu, h.nodup⟩
  have hsub : ∀ v ∈ u :: (free ++ queued), v ∈ units := by
    intro v hv
    rcases List.mem_cons.mp hv with rfl | hv
    · exact (h.mem_units v).mpr (Or.inr hu)
    · exact (h.mem_units v).mpr (Or.inl hv)
  have hle := length_le_of_nodup hnodup hsub
  rw [h.length_units] at hle
  simp only [List.length_cons, List.length_append] at hle
  omega

theorem takeFree (h : Inv f units (u :: free) queued held) :
    Inv (f.takeFree) units free queued (fun v => v = u ∨ held v) where
  pushQueue := h.pushQueue.popped
  popQueue := h.popQueue
  pushSize := h.pushSize
  popSize := h.popSize
  length_units := h.length_units
  units_nodup := h.units_nodup
  nodup := (List.nodup_cons.mp h.nodup).2
  held_fresh := by
    rintro v (rfl | hv)
    · exact (List.nodup_cons.mp h.nodup).1
    · exact fun hmem => h.held_fresh v hv (List.mem_cons_of_mem u hmem)
  mem_units := by
    intro v
    rw [h.mem_units v, List.cons_append, List.mem_cons]
    tauto
  buffers := h.buffers

theorem takeOldest (h : Inv f units free (u :: queued) held) :
    Inv (f.takeOldest) units free queued (fun v => v = u ∨ held v) where
  pushQueue := h.pushQueue
  popQueue := h.popQueue.popped
  pushSize := h.pushSize
  popSize := h.popSize
  length_units := h.length_units
  units_nodup := h.units_nodup
  nodup := (List.nodup_cons.mp (List.nodup_middle.mp h.nodup)).2
  held_fresh := by
    have hmiddle := List.nodup_cons.mp (List.nodup_middle.mp h.nodup)
    rintro v (rfl | hv)
    · exact hmiddle.1
    · intro hmem
      apply h.held_fresh v hv
      simp only [List.mem_append, List.mem_cons] at hmem ⊢
      tauto
  mem_units := by
    intro v
    rw [h.mem_units v]
    simp only [List.mem_append, List.mem_cons]
    tauto
  buffers := h.buffers

theorem giveFree (h : Inv f units free queued held) (hu : held u)
    (hs : f.handle.pushQueue.Straight (free.length + 1)) :
    Inv (f.giveFree u) units (free ++ [u]) queued (fun v => v ≠ u ∧ held v) where
  pushQueue := by
    have hlt := h.length_lt hu
    exact h.pushQueue.pushed (by rw [h.pushSize]; omega) hs u sizeofMsgUint
  popQueue := h.popQueue
  pushSize := h.pushSize
  popSize := h.popSize
  length_units := h.length_units
  units_nodup := h.units_nodup
  nodup := by
    rw [List.append_assoc, List.singleton_append, List.nodup_middle]
    exact List.nodup_cons.mpr ⟨h.held_fresh u hu, h.nodup⟩
  held_fresh := by
    rintro v ⟨hne, hv⟩ hmem
    apply h.held_fresh v hv
    simp only [List.mem_append, List.mem_singleton] at hmem ⊢
    tauto
  mem_units := by
    intro v
    rw [h.mem_units v]
    simp only [List.mem_append, List.mem_singleton]
    by_cases hvu : v = u
    · subst v
      tauto
    · tauto
  buffers := h.buffers

theorem giveQueued (h : Inv f units free queued held) (hu : held u)
    (hs : f.handle.popQueue.Straight (queued.length + 1)) :
    Inv (f.giveQueued u) units free (queued ++ [u]) (fun v => v ≠ u ∧ held v) where
  pushQueue := h.pushQueue
  popQueue := by
    have hlt := h.length_lt hu
    exact h.popQueue.pushed (by rw [h.popSize]; omega) hs u sizeofMsgUint
  pushSize := h.pushSize
  popSize := h.popSize
  length_units := h.length_units
  units_nodup := h.units_nodup
  nodup := by
    rw [← List.append_assoc]
    refine List.nodup_append.mpr ⟨h.nodup, List.nodup_singleton u, ?_⟩
    intro v hv w hw heq
    rw [List.mem_singleton] at hw
    subst w
    subst v
    exact h.held_fresh u hu hv
  held_fresh := by
    rintro v ⟨hne, hv⟩ hmem
    apply h.held_fresh v hv
    simp only [List.mem_append, List.mem_singleton] at hmem ⊢
    tauto
  mem_units := by
    intro v
    rw [h.mem_units v]
    simp only [List.mem_append, List.mem_singleton]
    by_cases hvu : v = u
    · subst v
      tauto
    · tauto
  buffers := h.buffers

theorem withMem (h : Inv f units free queued held) {mem : Memory}
    (hmem : ∀ v, (mem.units v).msgData = (f.mem.units v).msgData) :
    Inv (f.withMem mem) units free queued held where
  pushQueue := h.pushQueue
  popQueue := h.popQueue
  pushSize := h.pushSize
  popSize := h.popSize
  length_units := h.length_units
  units_nodup := h.units_nodup
  nodup := h.nodup
  held_fresh := h.held_fresh
  mem_units := h.mem_units
  buffers := {
    exists_buf := fun v hv => by
      obtain ⟨b, hb⟩ := h.buffers.exists_buf v hv
      exact ⟨b, (hmem v).trans hb⟩
    buf_inj := fun v hv w hw b hvb hwb =>
      h.buffers.buf_inj v hv w hw b ((hmem v).symm.trans hvb) ((hmem w).symm.trans hwb)
  }

end Inv

theorem setMsgSize_msgData (m : Memory) (mu : ℕ) (size : UInt16) (v : ℕ) :
    ((m.setMsgSize mu size).units v).msgData = (m.units v).msgData := by
  by_cases hv : v = mu
  · subst v
    simp [Memory.setMsgSize]
  · simp [Memory.setMsgSize, Function.update_of_ne hv]

theorem copyIn_units (m : Memory) (mu : ℕ) (bs : List UInt8) :
    (m.copyIn mu bs).units = m.units := by
  unfold Memory.copyIn
  cases (m.units mu).msgData <;> rfl

/-- Storing a size touches the message of its own unit only. -/
theorem setMsgSize_message (m : Memory) (mu : ℕ) (size : UInt16) (v : ℕ) (hv : v ≠ mu) :
    (m.setMsgSize mu size).message v = m.message v := by
  simp [Memory.message, Memory.setMsgSize, Function.update_of_ne hv]

/-- With buffers of their own, a memcpy into one unit leaves the others alone. -/
theorem copyIn_message (m : Memory) (units : List ℕ) (hown : OwnBuffers m units)
    (mu v : ℕ) (hmu : mu ∈ units) (hv : v ∈ units) (hne : v ≠ mu) (bs : List UInt8) :
    (m.copyIn mu bs).message v = m.message v := by
  obtain ⟨b, hb⟩ := hown.exists_buf mu hmu
  obtain ⟨c, hc⟩ := hown.exists_buf v hv
  have hcb : c ≠ b := by
    intro heq
    exact hne (hown.buf_inj v hv mu hmu c hc (heq ▸ hb))
  simp [Memory.message, Memory.copyIn, hb, hc, Function.update_of_ne hcb]

/-- A unit filled by the two stores of msg_push reads back what was copied. -/
theorem stored_message (m : Memory) (units : List ℕ) (hown : OwnBuffers m units)
    (mu : ℕ) (hmu : mu ∈ units) (bs : List UInt8) (hlen : bs.length < 65536) :
    ((m.copyIn mu bs).setMsgSize mu (UInt16.ofNat bs.length)).message mu = bs := by
  obtain ⟨b, hb⟩ := hown.exists_buf mu hmu
  have hsize : bs.length % 65536 = bs.length := Nat.mod_eq_of_lt hlen
  simp [Memory.message, Memory.copyIn, Memory.setMsgSize, hb, hsize]

theorem clamp_length_lt (msgSize : UInt16) (d : Message) :
    (clamp msgSize d).length < 65536 := by
  have hd := d.property
  have hle : (clamp msgSize d).length ≤ d.val.length := List.length_take_le' _ _
  omega

/-- msg_push with a free unit at hand. -/
theorem msgPush_of_free {f : Fifo} {free : List ℕ} {u : ℕ} (d : Message)
    (h : f.handle.pushQueue.Represents (u :: free)) :
    msgPush f d = msgPushStore f.takeFree d u := by
  obtain ⟨n, hpop⟩ := rtDataQueuePopNow_cons h
  simp only [msgPush, hpop, if_true, Fifo.takeFree]

/-- msg_push without a free unit takes the oldest queued one. -/
theorem msgPush_of_oldest {f : Fifo} {queued : List ℕ} {u : ℕ} (d : Message)
    (hfree : f.handle.pushQueue.Represents [])
    (h : f.handle.popQueue.Represents (u :: queued)) :
    msgPush f d = msgPushStore f.takeOldest d u := by
  have hempty := rtDataQueuePopNow_empty hfree.sized
  obtain ⟨n, hpop⟩ := rtDataQueuePopNow_cons h
  have hret : ¬ (-RT_ETIMEOUT = RT_EOK) := by decide
  simp only [msgPush, hempty, hpop, hret, if_false, if_true, Fifo.takeOldest]

theorem msgPushStore_eq {f : Fifo} {len : ℕ} (d : Message) (u : ℕ)
    (h : f.handle.popQueue.Sized len) (hlen : len < f.handle.popQueue.size.toNat) :
    msgPushStore f d u =
      (0, (f.withMem ((f.mem.copyIn u (clamp f.handle.msgSize d)).setMsgSize u
        (UInt16.ofNat (clamp f.handle.msgSize d).length))).giveQueued u) := by
  simp only [msgPushStore, rtDataQueuePushNow_eq h hlen, Fifo.giveQueued, Fifo.withMem]

/-- msg_pop with a message at hand; it does not wait, whatever its timeout. -/
theorem msgPop_of_cons {f : Fifo} {queued : List ℕ} {u : ℕ} (timeout : ℤ)
    (h : f.handle.popQueue.Represents (u :: queued)) :
    msgPop f timeout = some (msgPopStore f.takeOldest u) := by
  obtain ⟨n, hpop⟩ := rtDataQueuePop_cons h timeout
  have hne : ¬ ((0 : ℤ) = -RT_ETIMEOUT) := by decide
  have hok : RT_EOK = 0 := rfl
  simp only [msgPop, hpop, hok, hne, if_false, if_true, Fifo.takeOldest]

theorem msgPop_of_nil {f : Fifo} (h : f.handle.popQueue.Represents []) :
    msgPop f 0 = some (-RT_ETIMEOUT, none, f) := by
  have hpop := rtDataQueuePop_empty h.sized 0
  simp only [msgPop, hpop, if_true]

theorem msgPopStore_eq {f : Fifo} {len : ℕ} (u : ℕ)
    (h : f.handle.pushQueue.Sized len) (hlen : len < f.handle.pushQueue.size.toNat) :
    msgPopStore f u =
      (0, some ⟨f.mem.message u, (f.mem.units u).msgSize⟩,
        (f.withMem (f.mem.setMsgSize u 0)).giveFree u) := by
  simp only [msgPopStore, rtDataQueuePushNow_eq h hlen, Fifo.giveFree, Fifo.withMem]

end GemhoNbiot.FifoUnits
