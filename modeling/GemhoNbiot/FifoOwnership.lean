import GemhoNbiot.FifoCalls

/-!
Ownership of the units under any interleaving of msg_push and msg_pop calls.
The invariant divides the units between the two rings and the calls in
progress, each held by one call only. It follows the counters of the rings
against the number of pushes made so far, so the windows stay straight either
because the size divides 65536 or because no counter has wrapped.
-/
namespace GemhoNbiot.FifoOwnership

open Dataqueue MsgFifo RtDataQueue FifoUnits FifoCreation FifoCalls

variable {ι : Type} [DecidableEq ι]

/-- The size divides 65536, or neither queue has had more than 65535 pushes. -/
def WrapFree (fifoSize pushes pops : ℕ) : Prop :=
  fifoSize ∣ 65536 ∨ (pushes ≤ 65535 ∧ pops ≤ 65535)

/-- Until its counters wrap, a queue with `n` pushes made has get + len = n. -/
def Kept {α : Type} (q : RtDataQueue α) (len n : ℕ) : Prop :=
  q.size.toNat ∣ 65536 ∨ (n ≤ 65535 ∧ q.getIndex.toNat + len = n)

theorem Kept.straight {α : Type} {q : RtDataQueue α} {len n : ℕ} (h : Kept q len n) :
    q.Straight (len + 1) := by
  rcases h with hdvd | ⟨hn, hsum⟩
  · exact Or.inl hdvd
  · exact Or.inr (by omega)

theorem Kept.popped {α : Type} {q : RtDataQueue α} {len n : ℕ} (h : Kept q (len + 1) n) :
    Kept q.popped len n := by
  rcases h with hdvd | ⟨hn, hsum⟩
  · exact Or.inl hdvd
  · refine Or.inr ⟨hn, ?_⟩
    rw [popped_getIndex, UInt16.toNat_add]
    simp only [UInt16.toNat_one]
    omega

theorem Kept.pushed {α : Type} {q : RtDataQueue α} {len n : ℕ} (h : Kept q len n)
    (hn : q.size.toNat ∣ 65536 ∨ n + 1 ≤ 65535) (x : α) (k : ℕ) :
    Kept (q.pushed x k) (len + 1) (n + 1) := by
  rcases h with hdvd | ⟨_, hsum⟩
  · exact Or.inl hdvd
  · rcases hn with hdvd | hn
    · exact Or.inl hdvd
    · refine Or.inr ⟨hn, ?_⟩
      rw [pushed_getIndex]
      omega

/-- The unit is held by a call in progress. -/
def Held (s : Sys ι) (u : ℕ) : Prop := ∃ c, (s.calls c).unit = some u

/-- No two calls hold the same unit. -/
def Exclusive (s : Sys ι) : Prop :=
  ∀ c c' u, (s.calls c).unit = some u → (s.calls c').unit = some u → c = c'

section Holders

variable {s : Sys ι} {c : ι} {f : Fifo} {k : CallState} {u : ℕ}

@[simp] theorem set_fifo : (s.set c f k).fifo = f := rfl

@[simp] theorem set_self : (s.set c f k).calls c = k := by
  simp [Sys.set]

theorem set_other {c' : ι} (h : c' ≠ c) : (s.set c f k).calls c' = s.calls c' := by
  simp [Sys.set, Function.update_of_ne h]

theorem unit_set (c' : ι) (v : ℕ) : ((s.set c f k).calls c').unit = some v ↔
    (c' = c ∧ k.unit = some v) ∨ (c' ≠ c ∧ (s.calls c').unit = some v) := by
  by_cases h : c' = c
  · subst c'
    simp
  · simp [set_other h, h]

/-- A step that holds what it held before. -/
theorem held_keep (hk : k.unit = (s.calls c).unit) (v : ℕ) :
    Held s v ↔ Held (s.set c f k) v := by
  constructor
  · intro h
    obtain ⟨c', hc'⟩ := h
    refine ⟨c', (unit_set c' v).mpr ?_⟩
    by_cases h : c' = c
    · subst c'
      exact Or.inl ⟨rfl, hk.trans hc'⟩
    · exact Or.inr ⟨h, hc'⟩
  · intro h
    obtain ⟨c', hc'⟩ := h
    rcases (unit_set c' v).mp hc' with ⟨rfl, hkv⟩ | ⟨_, hold⟩
    · exact ⟨c', hk.symm.trans hkv⟩
    · exact ⟨c', hold⟩

/-- A step that starts to hold `u`. -/
theorem held_take (hk : k.unit = some u) (hc : (s.calls c).unit = none) (v : ℕ) :
    (v = u ∨ Held s v) ↔ Held (s.set c f k) v := by
  constructor
  · rintro (rfl | ⟨c', hc'⟩)
    · exact ⟨c, (unit_set c v).mpr (Or.inl ⟨rfl, hk⟩)⟩
    · refine ⟨c', (unit_set c' v).mpr (Or.inr ⟨?_, hc'⟩)⟩
      intro heq
      subst heq
      simp [hc] at hc'
  · intro h
    obtain ⟨c', hc'⟩ := h
    rcases (unit_set c' v).mp hc' with ⟨_, hkv⟩ | ⟨_, hold⟩
    · exact Or.inl (Option.some.inj (hkv.symm.trans hk))
    · exact Or.inr ⟨c', hold⟩

/-- A step that stops holding `u`. -/
theorem held_give (hk : k.unit = none) (hc : (s.calls c).unit = some u)
    (hex : Exclusive s) (v : ℕ) : (v ≠ u ∧ Held s v) ↔ Held (s.set c f k) v := by
  constructor
  · intro h
    obtain ⟨hne, c', hc'⟩ := h
    refine ⟨c', (unit_set c' v).mpr (Or.inr ⟨?_, hc'⟩)⟩
    intro heq
    subst heq
    exact hne (Option.some.inj (hc'.symm.trans hc))
  · intro h
    obtain ⟨c', hc'⟩ := h
    rcases (unit_set c' v).mp hc' with ⟨_, hkv⟩ | ⟨hne, hold⟩
    · simp [hk] at hkv
    · refine ⟨?_, c', hold⟩
      intro heq
      subst heq
      exact hne (hex c' c v hold hc)

theorem exclusive_keep (hex : Exclusive s) (hk : k.unit = (s.calls c).unit) :
    Exclusive (s.set c f k) := by
  have hsame : ∀ c', ((s.set c f k).calls c').unit = (s.calls c').unit := by
    intro c'
    by_cases h : c' = c
    · subst c'
      simpa using hk
    · rw [set_other h]
  intro c₁ c₂ v h₁ h₂
  exact hex c₁ c₂ v ((hsame c₁).symm.trans h₁) ((hsame c₂).symm.trans h₂)

theorem exclusive_take (hex : Exclusive s) (hk : k.unit = some u) (hu : ¬ Held s u) :
    Exclusive (s.set c f k) := by
  intro c₁ c₂ v h₁ h₂
  rcases (unit_set c₁ v).mp h₁ with ⟨rfl, hv₁⟩ | ⟨_, hold₁⟩ <;>
    rcases (unit_set c₂ v).mp h₂ with ⟨rfl, hv₂⟩ | ⟨_, hold₂⟩
  · rfl
  · exact absurd ⟨c₂, hold₂⟩ (Option.some.inj (hv₁.symm.trans hk) ▸ hu)
  · exact absurd ⟨c₁, hold₁⟩ (Option.some.inj (hv₂.symm.trans hk) ▸ hu)
  · exact hex c₁ c₂ v hold₁ hold₂

theorem exclusive_give (hex : Exclusive s) (hk : k.unit = none) :
    Exclusive (s.set c f k) := by
  intro c₁ c₂ v h₁ h₂
  rcases (unit_set c₁ v).mp h₁ with ⟨_, hv⟩ | ⟨_, hold₁⟩
  · simp [hk] at hv
  · rcases (unit_set c₂ v).mp h₂ with ⟨_, hv⟩ | ⟨_, hold₂⟩
    · simp [hk] at hv
    · exact hex c₁ c₂ v hold₁ hold₂

end Holders

/-- The size a msg_push is about to store, or has just stored, is clamped. -/
def SizeOk (f : Fifo) : CallState → Prop
  | .pushSize size _ => size ≤ f.handle.msgSize
  | .pushPush u => (f.mem.units u).msgSize ≤ f.handle.msgSize
  | _ => True

/-- The invariant of every reachable state, with the pushes made so far. -/
structure OwnInv (fifoSize : UInt16) (s : Sys ι) (units free queued : List ℕ)
    (pushes pops : ℕ) : Prop where
  inv : Inv s.fifo units free queued (Held s)
  exclusive : Exclusive s
  pushKept : Kept s.fifo.handle.pushQueue free.length pushes
  popKept : Kept s.fifo.handle.popQueue queued.length pops
  queuedSizes : ∀ u ∈ queued, (s.fifo.mem.units u).msgSize ≤ s.fifo.handle.msgSize
  callSizes : ∀ c, SizeOk s.fifo (s.calls c)
  fifoSize_eq : s.fifo.handle.fifoSize = fifoSize

omit [DecidableEq ι] in
theorem OwnInv.counted {fifoSize : UInt16} {s : Sys ι} {units free queued : List ℕ}
    {pushes pops : ℕ}
    (h : OwnInv fifoSize s units free queued pushes pops) :
    Counted s.fifo free.length queued.length where
  pushSized := h.inv.pushQueue.sized
  pushFilled := h.inv.pushQueue.holds.filled
  popSized := h.inv.popQueue.sized
  popFilled := h.inv.popQueue.holds.filled
  pushSize := h.inv.pushSize
  popSize := h.inv.popSize

theorem clamp_size_le (msgSize : UInt16) (d : Message) :
    UInt16.ofNat (clamp msgSize d).length ≤ msgSize := by
  have hlen : (clamp msgSize d).length ≤ msgSize.toNat := List.length_take_le _ _
  have hlt := clamp_length_lt msgSize d
  rw [UInt16.le_iff_toNat_le, UInt16.toNat_ofNat']
  omega

omit [DecidableEq ι] in
/-- Sizes of the other calls survive a store into the unit held by `c`. -/
theorem sizeOk_store {s : Sys ι} {c c' : ι} {u : ℕ} {mem : Memory}
    (hex : Exclusive s) (hc : (s.calls c).unit = some u) (hne : c' ≠ c)
    (hmem : ∀ v, v ≠ u → (mem.units v).msgSize = (s.fifo.mem.units v).msgSize)
    (h : SizeOk s.fifo (s.calls c')) : SizeOk (s.fifo.withMem mem) (s.calls c') := by
  cases hk : s.calls c' with
  | pushPush v =>
    rw [hk] at h
    have hvu : v ≠ u := by
      intro heq
      subst heq
      exact hne (hex c' c v (by rw [hk]; rfl) hc)
    change (mem.units v).msgSize ≤ _
    rw [hmem v hvu]
    exact h
  | pushSize size v =>
    rw [hk] at h
    exact h
  | _ => trivial

/-- Sizes of the calls do not depend on the queues. -/
theorem sizeOk_handle {f f' : Fifo} {k : CallState} (hmem : f'.mem = f.mem)
    (hsize : f'.handle.msgSize = f.handle.msgSize) (h : SizeOk f k) : SizeOk f' k := by
  cases k <;> simp_all [SizeOk]

theorem callSizes_set {s : Sys ι} {c : ι} {f : Fifo} {k : CallState} (hk : SizeOk f k)
    (hother : ∀ c', c' ≠ c → SizeOk f (s.calls c')) :
    ∀ c', SizeOk (s.set c f k).fifo ((s.set c f k).calls c') := by
  intro c'
  by_cases h : c' = c
  · subst c'
    simpa using hk
  · rw [set_other h]
    exact hother c' h

section Steps

variable {fifoSize : UInt16} {s : Sys ι} {units free queued : List ℕ} {pushes pops : ℕ}
  {c : ι} {u : ℕ}

/-- A step of `c` that leaves the FIFO and the held unit alone. -/
theorem OwnInv.idleStep (h : OwnInv fifoSize s units free queued pushes pops) {k : CallState}
    (hk : k.unit = (s.calls c).unit) (hsize : SizeOk s.fifo k) :
    OwnInv fifoSize (s.set c s.fifo k) units free queued pushes pops where
  inv := h.inv.congr (held_keep hk)
  exclusive := exclusive_keep h.exclusive hk
  pushKept := h.pushKept
  popKept := h.popKept
  queuedSizes := h.queuedSizes
  callSizes := callSizes_set hsize fun c' _ => h.callSizes c'
  fifoSize_eq := h.fifoSize_eq

/-- A step of `c` that stores into the unit it holds. -/
theorem OwnInv.storeStep (h : OwnInv fifoSize s units free queued pushes pops) {k : CallState}
    {mem : Memory} (hc : (s.calls c).unit = some u) (hk : k.unit = some u)
    (hdata : ∀ v, (mem.units v).msgData = (s.fifo.mem.units v).msgData)
    (hothers : ∀ v, v ≠ u → (mem.units v).msgSize = (s.fifo.mem.units v).msgSize)
    (hsize : SizeOk (s.fifo.withMem mem) k) :
    OwnInv fifoSize (s.set c (s.fifo.withMem mem) k) units free queued pushes pops where
  inv := (h.inv.withMem hdata).congr (held_keep (hk.trans hc.symm))
  exclusive := exclusive_keep h.exclusive (hk.trans hc.symm)
  pushKept := h.pushKept
  popKept := h.popKept
  queuedSizes := by
    intro v hv
    have hne : v ≠ u := by
      intro heq
      subst heq
      exact h.inv.held_fresh v ⟨c, hc⟩ (List.mem_append_right free hv)
    change (mem.units v).msgSize ≤ _
    rw [hothers v hne]
    exact h.queuedSizes v hv
  callSizes := callSizes_set hsize fun c' hne =>
    sizeOk_store h.exclusive hc hne hothers (h.callSizes c')
  fifoSize_eq := h.fifoSize_eq

theorem OwnInv.takeFree (h : OwnInv fifoSize s units (u :: free) queued pushes pops) {k : CallState}
    (hc : (s.calls c).unit = none) (hk : k.unit = some u)
    (hsize : SizeOk s.fifo.takeFree k) :
    OwnInv fifoSize (s.set c s.fifo.takeFree k) units free queued pushes pops where
  inv := h.inv.takeFree.congr (held_take hk hc)
  exclusive := exclusive_take h.exclusive hk
    fun hu => h.inv.held_fresh u hu (by simp)
  pushKept := Kept.popped h.pushKept
  popKept := h.popKept
  queuedSizes := h.queuedSizes
  callSizes := callSizes_set hsize fun c' _ =>
    sizeOk_handle (f := s.fifo) rfl rfl (h.callSizes c')
  fifoSize_eq := h.fifoSize_eq

theorem OwnInv.takeOldest (h : OwnInv fifoSize s units free (u :: queued) pushes pops)
    {k : CallState}
    (hc : (s.calls c).unit = none) (hk : k.unit = some u)
    (hsize : SizeOk s.fifo.takeOldest k) :
    OwnInv fifoSize (s.set c s.fifo.takeOldest k) units free queued pushes pops where
  inv := h.inv.takeOldest.congr (held_take hk hc)
  exclusive := exclusive_take h.exclusive hk
    fun hu => h.inv.held_fresh u hu (by simp)
  pushKept := h.pushKept
  popKept := Kept.popped h.popKept
  queuedSizes := fun v hv => h.queuedSizes v (List.mem_cons_of_mem u hv)
  callSizes := callSizes_set hsize fun c' _ =>
    sizeOk_handle (f := s.fifo) rfl rfl (h.callSizes c')
  fifoSize_eq := h.fifoSize_eq

theorem OwnInv.giveFree (h : OwnInv fifoSize s units free queued pushes pops) {k : CallState}
    (hc : (s.calls c).unit = some u) (hk : k.unit = none) (hsize : SizeOk s.fifo k)
    (hwrap : s.fifo.handle.pushQueue.size.toNat ∣ 65536 ∨ pushes + 1 ≤ 65535) :
    OwnInv fifoSize (s.set c (s.fifo.giveFree u) k) units (free ++ [u]) queued
      (pushes + 1) pops where
  inv := (h.inv.giveFree ⟨c, hc⟩ h.pushKept.straight).congr (held_give hk hc h.exclusive)
  exclusive := exclusive_give h.exclusive hk
  pushKept := by
    rw [List.length_append]
    exact h.pushKept.pushed hwrap u sizeofMsgUint
  popKept := h.popKept
  queuedSizes := h.queuedSizes
  callSizes := callSizes_set (sizeOk_handle (f := s.fifo) rfl rfl hsize) fun c' _ =>
    sizeOk_handle (f := s.fifo) rfl rfl (h.callSizes c')
  fifoSize_eq := h.fifoSize_eq

theorem OwnInv.giveQueued (h : OwnInv fifoSize s units free queued pushes pops) {k : CallState}
    (hc : (s.calls c).unit = some u) (hk : k.unit = none) (hsize : SizeOk s.fifo k)
    (hu : (s.fifo.mem.units u).msgSize ≤ s.fifo.handle.msgSize)
    (hwrap : s.fifo.handle.popQueue.size.toNat ∣ 65536 ∨ pops + 1 ≤ 65535) :
    OwnInv fifoSize (s.set c (s.fifo.giveQueued u) k) units free (queued ++ [u])
      pushes (pops + 1) where
  inv := (h.inv.giveQueued ⟨c, hc⟩ h.popKept.straight).congr (held_give hk hc h.exclusive)
  exclusive := exclusive_give h.exclusive hk
  pushKept := h.pushKept
  popKept := by
    rw [List.length_append]
    exact h.popKept.pushed hwrap u sizeofMsgUint
  queuedSizes := by
    intro v hv
    rcases List.mem_append.mp hv with hv | hv
    · exact h.queuedSizes v hv
    · rw [List.mem_singleton] at hv
      subst v
      exact hu
  callSizes := callSizes_set (sizeOk_handle (f := s.fifo) rfl rfl hsize) fun c' _ =>
    sizeOk_handle (f := s.fifo) rfl rfl (h.callSizes c')
  fifoSize_eq := h.fifoSize_eq

/-- One step of the caller `c` on a FIFO that owns its units. -/
theorem OwnInv.run (h : OwnInv fifoSize s units free queued pushes pops) {f : Fifo} {k : CallState}
    (hstep : callStep s.fifo (s.calls c) = some (f, k))
    (hwrap : WrapFree fifoSize.toNat
      (pushes + [(s.calls c).target].count (some .pushQueue))
      (pops + [(s.calls c).target].count (some .popQueue))) :
    ∃ free' queued', OwnInv fifoSize (s.set c f k) units free' queued'
      (pushes + [(s.calls c).target].count (some .pushQueue))
      (pops + [(s.calls c).target].count (some .popQueue)) := by
  have hroom : ∀ u, (s.calls c).unit = some u → free.length < s.fifo.handle.fifoSize.toNat ∧
      queued.length < s.fifo.handle.fifoSize.toNat := by
    intro u hu
    have hlt := h.inv.length_lt ⟨c, hu⟩
    exact ⟨by omega, by omega⟩
  have heffect := callStep_effect h.counted hroom hstep
  have hsize := h.callSizes c
  generalize hc : s.calls c = k₀ at heffect hwrap hsize ⊢
  cases heffect with
  | takeFree d u hpos hu =>
    cases free with
    | nil => simp at hpos
    | cons v free =>
      have huv : v = u := Option.some.inj (h.inv.pushQueue.holds.head.symm.trans hu)
      subst huv
      exact ⟨free, queued, h.takeFree (by rw [hc]; rfl) rfl trivial⟩
  | noFree d hzero => exact ⟨free, queued, h.idleStep (by rw [hc]; rfl) trivial⟩
  | takeOldest d u hpos hu =>
    cases queued with
    | nil => simp at hpos
    | cons v queued =>
      have huv : v = u := Option.some.inj (h.inv.popQueue.holds.head.symm.trans hu)
      subst huv
      exact ⟨free, queued, h.takeOldest (by rw [hc]; rfl) rfl trivial⟩
  | refuse d hzero => exact ⟨free, queued, h.idleStep (by rw [hc]; rfl) trivial⟩
  | copyIn d u =>
    have hunits := copyIn_units s.fifo.mem u (clamp s.fifo.handle.msgSize d)
    refine ⟨free, queued, h.storeStep (by rw [hc]; rfl) rfl ?_ ?_ (clamp_size_le _ d)⟩
    · intro v
      rw [hunits]
    · intro v _
      rw [hunits]
  | setSize size u =>
    refine ⟨free, queued, h.storeStep (by rw [hc]; rfl) rfl (setMsgSize_msgData _ _ _) ?_ ?_⟩
    · intro v hv
      simp [Memory.setMsgSize, Function.update_of_ne hv]
    · change ((s.fifo.mem.setMsgSize u size).units u).msgSize ≤ _
      simpa [Memory.setMsgSize, SizeOk, Fifo.withMem] using hsize
  | giveQueued u =>
    refine ⟨free, queued ++ [u], h.giveQueued (by rw [hc]; rfl) rfl trivial hsize ?_⟩
    rw [h.inv.popSize, h.fifoSize_eq]
    exact hwrap.imp_right fun hle => hle.2
  | deliver timeout u hpos hu =>
    cases queued with
    | nil => simp at hpos
    | cons v queued =>
      have huv : v = u := Option.some.inj (h.inv.popQueue.holds.head.symm.trans hu)
      subst huv
      exact ⟨free, queued, h.takeOldest (by rw [hc]; rfl) rfl trivial⟩
  | expireNow hzero => exact ⟨free, queued, h.idleStep (by rw [hc]; rfl) trivial⟩
  | copyOut u => exact ⟨free, queued, h.idleStep (by rw [hc]; rfl) trivial⟩
  | outSize bytes u => exact ⟨free, queued, h.idleStep (by rw [hc]; rfl) trivial⟩
  | clear out u =>
    refine ⟨free, queued, h.storeStep (by rw [hc]; rfl) rfl (setMsgSize_msgData _ _ _) ?_ trivial⟩
    intro v hv
    simp [Memory.setMsgSize, Function.update_of_ne hv]
  | giveFree out u =>
    refine ⟨free ++ [u], queued, h.giveFree (by rw [hc]; rfl) rfl trivial ?_⟩
    rw [h.inv.pushSize, h.fifoSize_eq]
    exact hwrap.imp_right fun hle => hle.1

theorem OwnInv.step (h : OwnInv fifoSize s units free queued pushes pops) {s' : Sys ι}
    {label : Option QueueId} (hstep : Step s c label s')
    (hwrap : WrapFree fifoSize.toNat
      (pushes + [label].count (some .pushQueue)) (pops + [label].count (some .popQueue))) :
    ∃ free' queued', OwnInv fifoSize s' units free' queued'
      (pushes + [label].count (some .pushQueue)) (pops + [label].count (some .popQueue)) := by
  cases hstep with
  | startPush d hc => exact ⟨free, queued, h.idleStep (by rw [hc]; rfl) trivial⟩
  | startPop timeout hc => exact ⟨free, queued, h.idleStep (by rw [hc]; rfl) trivial⟩
  | run hcall => exact h.run hcall hwrap
  | expire timeout hc _ _ => exact ⟨free, queued, h.idleStep (by rw [hc]; rfl) trivial⟩
  | finish ret out hc => exact ⟨free, queued, h.idleStep (by rw [hc]; rfl) trivial⟩

end Steps

omit [DecidableEq ι] in
theorem OwnInv.start {f : Fifo} {msgSize fifoSize : UInt16} {units : List ℕ}
    (h : Fresh f msgSize fifoSize units) (hwrap : WrapFree fifoSize.toNat fifoSize.toNat 0) :
    OwnInv fifoSize (Sys.start f : Sys ι) units units [] fifoSize.toNat 0 where
  inv := by
    apply h.inv.congr
    intro u
    simp [Held, Sys.start, CallState.unit]
  exclusive := by
    intro c c' u hc
    simp [Sys.start, CallState.unit] at hc
  pushKept := by
    have hlen := h.inv.length_units
    change Kept f.handle.pushQueue units.length fifoSize.toNat
    unfold Kept
    rw [h.inv.pushSize, h.fifoSize_eq, h.pushGet, hlen, h.fifoSize_eq]
    simp only [UInt16.toNat_zero, Nat.zero_add]
    exact hwrap.imp_right fun hle => ⟨hle.1, trivial⟩
  popKept := by
    refine Or.inr ⟨by omega, ?_⟩
    change f.handle.popQueue.getIndex.toNat + 0 = 0
    rw [h.popGet]
    rfl
  queuedSizes := fun _ hu => by simp at hu
  callSizes := fun _ => trivial
  fifoSize_eq := h.fifoSize_eq

theorem WrapFree.mono {n p q p' q' : ℕ} (h : WrapFree n p q) (hp : p' ≤ p) (hq : q' ≤ q) :
    WrapFree n p' q' :=
  h.imp_right fun hle => ⟨by omega, by omega⟩

/-- The invariant along a run whose counters stay clear of a bad wrap. -/
theorem OwnInv.reach {f : Fifo} {msgSize fifoSize : UInt16} {units : List ℕ}
    (h : Fresh f msgSize fifoSize units) {labels : List (Option QueueId)} {s : Sys ι}
    (hrun : Run (Sys.start f) labels s)
    (hwrap : WrapFree fifoSize.toNat (fifoSize.toNat + labels.count (some .pushQueue))
      (labels.count (some .popQueue))) :
    ∃ free queued, OwnInv fifoSize s units free queued
      (fifoSize.toNat + labels.count (some .pushQueue)) (labels.count (some .popQueue)) := by
  induction hrun with
  | nil => exact ⟨units, [], OwnInv.start h (hwrap.mono (by simp) (by simp))⟩
  | snoc _ hstep ih =>
    rw [List.count_append, List.count_append, ← Nat.add_assoc] at hwrap
    obtain ⟨free, queued, hinv⟩ := ih (hwrap.mono (by omega) (by omega))
    rw [List.count_append, List.count_append, ← Nat.add_assoc]
    exact hinv.step hstep hwrap

/-- A place a unit can be in: a cell of one of the queues, or a call. -/
inductive Place (ι : Type)
  | freeCell (k : ℕ)
  | queuedCell (k : ℕ)
  | call (c : ι)

/-- The cell belongs to a live entry of the queue. -/
def LiveCell (q : RtDataQueue ℕ) (k : ℕ) : Prop := ∃ i, i < q.count ∧ q.liveCell i = k

/-- The unit is in the place. -/
def At (s : Sys ι) (u : ℕ) : Place ι → Prop
  | .freeCell k => LiveCell s.fifo.handle.pushQueue k ∧
      s.fifo.handle.pushQueue.cells k = some u
  | .queuedCell k => LiveCell s.fifo.handle.popQueue k ∧
      s.fifo.handle.popQueue.cells k = some u
  | .call c => (s.calls c).unit = some u

/-- Pushing onto the queue succeeds, into a cell no live entry uses. -/
def PushSafe (q : RtDataQueue ℕ) : Prop :=
  (∀ mu, (rtDataQueuePushNow q mu sizeofMsgUint).1 = RT_EOK) ∧
    ¬ LiveCell q (q.putIndex.toNat % q.size.toNat)

/-- What holds of the units in every reachable state. -/
structure Owned (s : Sys ι) (units : List ℕ) : Prop where
  one_place : ∀ u ∈ units, ∃! p, At s u p
  no_other : ∀ u p, At s u p → u ∈ units
  push_safe : ∀ c mu, s.calls c = .pushPush mu → PushSafe s.fifo.handle.popQueue
  pop_safe : ∀ c out mu, s.calls c = .popPush out mu → PushSafe s.fifo.handle.pushQueue
  private_buffers : ∀ c c' u v, c ≠ c' → (s.calls c).unit = some u →
    (s.calls c').unit = some v → (s.fifo.mem.units u).msgData ≠ (s.fifo.mem.units v).msgData
  queued_size : ∀ k u, At s u (.queuedCell k : Place ι) →
    (s.fifo.mem.units u).msgSize ≤ s.fifo.handle.msgSize

theorem live_iff {q : RtDataQueue ℕ} {xs : List ℕ} (h : q.Represents xs) (k u : ℕ) :
    (LiveCell q k ∧ q.cells k = some u) ↔
      ∃ (i : ℕ) (hi : i < xs.length), q.liveCell i = k ∧ xs[i] = u := by
  unfold LiveCell
  rw [h.sized.count_eq]
  constructor
  · intro h
    obtain ⟨⟨i, hi, rfl⟩, hu⟩ := h
    have hx : q.cells (q.liveCell i) = some xs[i] := h.holds i hi
    exact ⟨i, hi, rfl, Option.some.inj (hx.symm.trans hu)⟩
  · intro h
    obtain ⟨i, hi, rfl, rfl⟩ := h
    exact ⟨⟨i, hi, rfl⟩, h.holds i hi⟩

theorem live_mem {q : RtDataQueue ℕ} {xs : List ℕ} (h : q.Represents xs) {k u : ℕ}
    (hlive : LiveCell q k ∧ q.cells k = some u) : u ∈ xs := by
  obtain ⟨i, hi, _, rfl⟩ := (live_iff h k u).mp hlive
  exact List.getElem_mem hi

/-- An entry of a duplicate-free queue is in exactly one live cell. -/
theorem live_unique {q : RtDataQueue ℕ} {xs : List ℕ} (h : q.Represents xs)
    (hn : xs.Nodup) {u : ℕ} (hu : u ∈ xs) : ∃! k, LiveCell q k ∧ q.cells k = some u := by
  obtain ⟨i, hi, rfl⟩ := List.getElem_of_mem hu
  refine ⟨q.liveCell i, (live_iff h _ _).mpr ⟨i, hi, rfl, rfl⟩, ?_⟩
  intro k hk
  obtain ⟨j, hj, rfl, heq⟩ := (live_iff h _ _).mp hk
  rw [(List.Nodup.getElem_inj_iff hn).mp heq]

theorem pushSafe_of_room {q : RtDataQueue ℕ} {xs : List ℕ} (h : q.Represents xs)
    (hlen : xs.length < q.size.toNat) (hs : q.Straight (xs.length + 1)) : PushSafe q := by
  constructor
  · intro mu
    rw [rtDataQueuePushNow_eq h.sized hlen]
  · intro h
    obtain ⟨i, hi, heq⟩ := h
    rw [h.sized.count_eq] at hi
    rw [h.sized.put_cell] at heq
    have hii := RingWindow.cell_injective hs (by omega) (by omega) (by omega) heq
    omega

omit [DecidableEq ι] in
theorem OwnInv.owned {fifoSize : UInt16} {s : Sys ι} {units free queued : List ℕ}
    {pushes pops : ℕ} (h : OwnInv fifoSize s units free queued pushes pops) :
    Owned s units where
  one_place := by
    intro u hu
    have hnodup := List.nodup_append.mp h.inv.nodup
    have hheld := h.inv.held_fresh u
    rcases (h.inv.mem_units u).mp hu with hu | ⟨c, hc⟩
    · rcases List.mem_append.mp hu with hfree | hqueued
      · obtain ⟨k, hk, huniq⟩ := live_unique h.inv.pushQueue hnodup.1 hfree
        refine ⟨.freeCell k, hk, ?_⟩
        rintro (k' | k' | c) hat
        · exact congrArg Place.freeCell (huniq k' hat)
        · exact absurd rfl (hnodup.2.2 u hfree u (live_mem h.inv.popQueue hat))
        · exact absurd hu (hheld ⟨c, hat⟩)
      · obtain ⟨k, hk, huniq⟩ := live_unique h.inv.popQueue hnodup.2.1 hqueued
        refine ⟨.queuedCell k, hk, ?_⟩
        rintro (k' | k' | c) hat
        · exact absurd rfl (hnodup.2.2 u (live_mem h.inv.pushQueue hat) u hqueued)
        · exact congrArg Place.queuedCell (huniq k' hat)
        · exact absurd hu (hheld ⟨c, hat⟩)
    · refine ⟨.call c, hc, ?_⟩
      rintro (k' | k' | c') hat
      · exact absurd (List.mem_append_left _ (live_mem h.inv.pushQueue hat)) (hheld ⟨c, hc⟩)
      · exact absurd (List.mem_append_right _ (live_mem h.inv.popQueue hat)) (hheld ⟨c, hc⟩)
      · exact congrArg Place.call (h.exclusive c' c u hat hc)
  no_other := by
    rintro u (k | k | c) hat
    · exact (h.inv.mem_units u).mpr
        (Or.inl (List.mem_append_left _ (live_mem h.inv.pushQueue hat)))
    · exact (h.inv.mem_units u).mpr
        (Or.inl (List.mem_append_right _ (live_mem h.inv.popQueue hat)))
    · exact (h.inv.mem_units u).mpr (Or.inr ⟨c, hat⟩)
  push_safe := by
    intro c mu hc
    have hlt := h.inv.length_lt (u := mu) ⟨c, by rw [hc]; rfl⟩
    exact pushSafe_of_room h.inv.popQueue (by rw [h.inv.popSize]; omega) h.popKept.straight
  pop_safe := by
    intro c out mu hc
    have hlt := h.inv.length_lt (u := mu) ⟨c, by rw [hc]; rfl⟩
    exact pushSafe_of_room h.inv.pushQueue (by rw [h.inv.pushSize]; omega) h.pushKept.straight
  private_buffers := by
    intro c c' u v hne hu hv heq
    have hunits : ∀ c u, (s.calls c).unit = some u → u ∈ units :=
      fun c u hc => (h.inv.mem_units u).mpr (Or.inr ⟨c, hc⟩)
    obtain ⟨b, hb⟩ := h.inv.buffers.exists_buf u (hunits c u hu)
    have huv := h.inv.buffers.buf_inj u (hunits c u hu) v (hunits c' v hv) b hb (heq ▸ hb)
    subst huv
    exact hne (h.exclusive c c' u hu hv)
  queued_size := fun k u hat => h.queuedSizes u (live_mem h.inv.popQueue hat)

/-- Every push of the loop of msg_init is safe. -/
theorem msgInit_pushSafe (mem : Memory) (heap : Heap) (msgSize fifoSize : UInt16)
    {i : ℕ} {f : Fifo} {heap' : Heap}
    (hreach : InitReach allocAll (initStart mem heap msgSize fifoSize).1
      (initStart mem heap msgSize fifoSize).2 i f heap') (hi : i < fifoSize.toNat) :
    PushSafe f.handle.pushQueue := by
  obtain ⟨us, hlen, hinv⟩ := LoopInv.reach mem heap hreach (by omega) (by omega)
  have hlt : us.length < f.handle.pushQueue.size.toNat := by rw [hinv.pushSize]; omega
  exact pushSafe_of_room hinv.pushQueue hlt (hinv.straight (by omega))

/-- Unit ownership: whatever the interleaving, the units msg_init allocated
are never shared and never lost while the counters stay clear of a bad wrap. -/
theorem units_owned (ι : Type) [DecidableEq ι] (mem : Memory) (heap : Heap)
    (msgSize fifoSize : UInt16) (hsize : 1 ≤ fifoSize.toNat) :
    (∀ i f heap', InitReach allocAll (initStart mem heap msgSize fifoSize).1
      (initStart mem heap msgSize fifoSize).2 i f heap' → i < fifoSize.toNat →
      PushSafe f.handle.pushQueue) ∧
    ∃ f heap' units, msgInit allocAll mem heap msgSize fifoSize = .handle f heap' ∧
      units.length = fifoSize.toNat ∧ units.Nodup ∧
      ∀ labels (s : Sys ι), Run (Sys.start f) labels s →
        WrapFree fifoSize.toNat (fifoSize.toNat + labels.count (some .pushQueue))
          (labels.count (some .popQueue)) → Owned s units := by
  refine ⟨fun i f heap' hreach hi => msgInit_pushSafe mem heap msgSize fifoSize hreach hi, ?_⟩
  obtain ⟨f, heap', units, hinit, hfresh⟩ := msgInit_fresh mem heap msgSize fifoSize hsize
  refine ⟨f, heap', units, hinit, ?_, hfresh.inv.units_nodup, ?_⟩
  · rw [hfresh.inv.length_units, hfresh.fifoSize_eq]
  · intro labels s hrun hwrap
    obtain ⟨free, queued, hinv⟩ := OwnInv.reach hfresh hrun hwrap
    exact hinv.owned

/-- Up to `n` steps of the caller `c` with nobody in between. -/
def alone (s : Sys ι) (c : ι) (n : ℕ) : Sys ι :=
  s.set c (runAlone n (s.fifo, s.calls c)).1 (runAlone n (s.fifo, s.calls c)).2

theorem Run.alone {s₀ s : Sys ι} {labels : List (Option QueueId)} (h : Run s₀ labels s) (c : ι)
    (n : ℕ) : ∃ more, more.length ≤ n ∧ Run s₀ (labels ++ more) (alone s c n) := by
  induction n generalizing s labels with
  | zero =>
    refine ⟨[], Nat.le_refl 0, ?_⟩
    simpa [FifoOwnership.alone, runAlone, Sys.set] using h
  | succ n ih =>
    cases hstep : callStep s.fifo (s.calls c) with
    | none =>
      refine ⟨[], Nat.zero_le _, ?_⟩
      simpa [FifoOwnership.alone, runAlone, hstep, Sys.set] using h
    | some next =>
      obtain ⟨f, k⟩ := next
      obtain ⟨more, hlen, hrun⟩ := ih (h.snoc (.run (c := c) hstep))
      refine ⟨(s.calls c).target :: more, Nat.succ_le_succ hlen, ?_⟩
      simpa [FifoOwnership.alone, runAlone, hstep, Sys.set] using hrun

/-- Two calls of msg_push and one of msg_pop: the first push has taken its unit when
the second one runs from its start to its end, then the pop takes the unit of the
second, and then the first goes on to its end. -/
def threeCalls (f : Fifo) : Sys (Fin 3) :=
  let first := alone ((Sys.start f).set 0 f (.pushPop (byteMessage 1))) 0 2
  let second := alone (first.set 1 first.fifo (.pushPop (byteMessage 2))) 1 5
  let third := alone (second.set 2 second.fifo (.popPop 0)) 2 1
  alone third 0 3

theorem threeCalls_run (f : Fifo) :
    ∃ labels, labels.length ≤ 14 ∧ Run (Sys.start f) labels (threeCalls f) := by
  have h₀ := Run.nil.snoc (Step.startPush (s := (Sys.start f : Sys (Fin 3))) (c := 0)
    (byteMessage 1) rfl)
  obtain ⟨m₁, hm₁, h₁⟩ := Run.alone h₀ 0 2
  obtain ⟨m₂, hm₂, h₂⟩ := Run.alone (h₁.snoc (.startPush (c := 1) (byteMessage 2) rfl)) 1 5
  obtain ⟨m₃, hm₃, h₃⟩ := Run.alone (h₂.snoc (.startPop (c := 2) 0 rfl)) 2 1
  obtain ⟨m₄, hm₄, h₄⟩ := Run.alone h₃ 0 3
  refine ⟨_, ?_, h₄⟩
  simp only [List.length_append, List.length_cons, List.length_nil]
  omega

theorem units_owned_five : ∃ f heap' units,
    msgInit allocAll ⟨fun _ => ⟨0, none⟩, fun _ => []⟩ ⟨0, []⟩ 490 5 = .handle f heap' ∧
      units.length = 5 ∧ Owned (threeCalls f) units ∧
      (threeCalls f).calls 0 = .done 0 none ∧ (threeCalls f).calls 1 = .done 0 none ∧
      ((threeCalls f).calls 2).unit.isSome = true := by
  obtain ⟨_, f, heap', units, hinit, hlen, _, howned⟩ :=
    units_owned (Fin 3) ⟨fun _ => ⟨0, none⟩, fun _ => []⟩ ⟨0, []⟩ 490 5 (by decide)
  obtain ⟨labels, hlabels, hrun⟩ := threeCalls_run f
  have hpush := List.count_le_length (a := some QueueId.pushQueue) (l := labels)
  have hpop := List.count_le_length (a := some QueueId.popQueue) (l := labels)
  have hfive : (5 : UInt16).toNat = 5 := by decide
  have hwrap := howned labels _ hrun (Or.inr (by omega))
  have hf : f = blankFifo 5 := by
    unfold blankFifo
    rw [hinit]
  subst hf
  exact ⟨_, heap', units, hinit, hlen, hwrap, rfl, rfl, rfl⟩

end GemhoNbiot.FifoOwnership
