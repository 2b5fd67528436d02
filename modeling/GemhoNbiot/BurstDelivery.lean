import GemhoNbiot.FifoRefinement
import GemhoNbiot.TransparentMode

/-!
A burst of bytes on one user port, on its way through the loop of main_entry and
the message FIFO. As long as the receive ring has room, the messages pushed, the
bytes of the read under way and the bytes in the ring are the burst. As long as
every msg_push finds a free unit, the messages popped and those still queued are
the messages pushed, each cut to the size of the buffers. A read takes up to 512
bytes and a buffer 490, so the burst comes out whole only if no read is longer.
-/
namespace GemhoNbiot.BurstDelivery

open Dataqueue MsgFifo RtDataQueue FifoRefinement
open TransparentMode (PortId Pc State Step Event ringPut ringSize bufSize start)

section Loop

/-- Runs in which this burst comes in on port `p`, nothing on the other port, and
no byte finds the ring full. -/
inductive Burst (p : PortId) : List UInt8 → State → Prop
  | start : Burst p [] (start fun _ => [])
  | receive {burst : List UInt8} {s : State} (bs : List UInt8) : Burst p burst s → bs ≠ [] →
      (s.port p).ring.length + bs.length ≤ ringSize →
      Burst p (burst ++ bs) (s.setPort p ((s.port p).isr bs))
  | step {burst : List UInt8} {s s' : State} {e : Option Event} : Burst p burst s →
      Step s e s' → (∀ q bs, e ≠ some (.receive q bs)) → Burst p burst s'

/-- The bytes of the read under way. -/
def buffered : Pc → List UInt8
  | .reading _ buf => buf
  | .checking _ buf => buf
  | _ => []

/-- Where the bytes of the burst are. The other port stays silent. -/
structure Account (p : PortId) (burst : List UInt8) (s : State) : Prop where
  bytes : s.pushed.flatten ++ buffered s.pc ++ (s.port p).ring = burst
  silent : ∀ q, q ≠ p → (s.port q).ring = []
  fits : (buffered s.pc).length ≤ bufSize
  reads : ∀ m ∈ s.pushed, m ≠ [] ∧ m.length ≤ bufSize

/-- A ring with room stores every byte. -/
theorem foldl_ringPut (bs ring : List UInt8) (h : ring.length + bs.length ≤ ringSize) :
    bs.foldl ringPut ring = ring ++ bs := by
  induction bs generalizing ring with
  | nil => rw [List.foldl_nil, List.append_nil]
  | cons b bs ih =>
    rw [List.length_cons] at h
    rw [List.foldl_cons, ringPut, if_pos (by omega), ih, List.append_assoc, List.singleton_append]
    rw [List.length_append, List.length_singleton]
    omega

theorem take_ring (s : State) (p q : PortId) : ((s.take p).port q).ring = (s.port q).ring := by
  by_cases h : q = p
  · subst h
    simp [State.take, State.setPort]
  · simp [State.take, State.setPort, h]

theorem Account.receive {p : PortId} {burst : List UInt8} {s : State} (h : Account p burst s)
    (bs : List UInt8) (hroom : (s.port p).ring.length + bs.length ≤ ringSize) :
    Account p (burst ++ bs) (s.setPort p ((s.port p).isr bs)) where
  bytes := by
    have hring : ((s.port p).isr bs).ring = (s.port p).ring ++ bs := foldl_ringPut bs _ hroom
    rw [← h.bytes]
    simp only [State.setPort, Function.update_self, hring, List.append_assoc]
  silent := by
    intro q hq
    simpa [State.setPort, hq] using h.silent q hq
  fits := h.fits
  reads := h.reads

/-- A step that changes neither a ring nor the bytes of the read. -/
theorem Account.move {p : PortId} {burst : List UInt8} {s s' : State} (h : Account p burst s)
    (hpushed : s'.pushed = s.pushed) (hpc : buffered s'.pc = buffered s.pc)
    (hring : ∀ q, (s'.port q).ring = (s.port q).ring) : Account p burst s' where
  bytes := by rw [hpushed, hpc, hring, h.bytes]
  silent := by
    intro q hq
    rw [hring, h.silent q hq]
  fits := by rw [hpc]; exact h.fits
  reads := by rw [hpushed]; exact h.reads

/-- A byte goes from the ring to the buffer. -/
theorem Account.getByte {p q : PortId} {burst buf rest : List UInt8} {b : UInt8} {s : State}
    (h : Account p burst s) (hpc : s.pc = .reading q buf) (hlen : buf.length < bufSize)
    (hring : (s.port q).ring = b :: rest) :
    Account p burst { s.setPort q { s.port q with ring := rest } with
      pc := .reading q (buf ++ [b]) } := by
  have hq : q = p := by
    by_contra hne
    have hempty := h.silent q hne
    rw [hring] at hempty
    exact List.cons_ne_nil _ _ hempty
  subst hq
  have hbytes := h.bytes
  rw [hpc, hring] at hbytes
  refine ⟨?_, ?_, ?_, h.reads⟩
  · rw [← hbytes]
    simp [buffered, State.setPort]
  · intro r hr
    simpa [State.setPort, hr] using h.silent r hr
  · simp only [buffered, List.length_append, List.length_singleton]
    omega

/-- The buffer is pushed, unless it is empty. -/
theorem Account.endRead {p q : PortId} {burst buf : List UInt8} {s : State}
    (h : Account p burst s) (hpc : s.pc = .checking q buf) :
    Account p burst (s.finish buf) := by
  have hbytes := h.bytes
  have hfits := h.fits
  rw [hpc] at hbytes hfits
  by_cases hbuf : buf.length > 0
  · have hpushed : (s.finish buf).pushed = s.pushed ++ [buf] := if_pos hbuf
    refine ⟨?_, h.silent, Nat.zero_le _, ?_⟩
    · rw [hpushed, ← hbytes]
      simp [buffered, State.finish]
    · intro m hm
      rw [hpushed, List.mem_append, List.mem_singleton] at hm
      rcases hm with hm | rfl
      · exact h.reads m hm
      · exact ⟨List.ne_nil_of_length_pos hbuf, hfits⟩
  · have hpushed : (s.finish buf).pushed = s.pushed := if_neg hbuf
    have hnil : buf = [] := List.eq_nil_of_length_eq_zero (by omega)
    refine h.move hpushed ?_ fun q => rfl
    rw [hpc, hnil]
    rfl

theorem Account.step {p : PortId} {burst : List UInt8} {s s' : State} {e : Option Event}
    (h : Account p burst s) (hstep : Step s e s') (he : ∀ q bs, e ≠ some (.receive q bs)) :
    Account p burst s' := by
  cases hstep with
  | receive q bs hbs => exact absurd rfl (he q bs)
  | takeUser hpc hsem => exact h.move rfl (by rw [hpc]; rfl) (take_ring s .user)
  | missUser hpc hsem => exact h.move rfl (by rw [hpc]; rfl) fun q => rfl
  | takeRs485 hpc hsem => exact h.move rfl (by rw [hpc]; rfl) (take_ring s .rs485)
  | missRs485 hpc hsem => exact h.move rfl (by rw [hpc]; rfl) fun q => rfl
  | getByte hpc hlen hring => exact h.getByte hpc hlen hring
  | endDeviceRead hpc hend => exact h.move rfl (by rw [hpc]; rfl) fun q => rfl
  | readAgain hpc hlen => exact h.move rfl (by rw [hpc]; rfl) fun q => rfl
  | endRead hpc => exact h.endRead hpc

theorem Burst.account {p : PortId} {burst : List UInt8} {s : State} (h : Burst p burst s) :
    Account p burst s := by
  induction h with
  | start => exact ⟨rfl, fun q _ => rfl, Nat.zero_le _, fun m hm => absurd hm List.not_mem_nil⟩
  | receive bs _ _ hroom ih => exact ih.receive bs hroom
  | step _ hstep he ih => exact ih.step hstep he

/-- The loop has read all that came in. -/
def AllRead (p : PortId) (s : State) : Prop := s.pc = .takeUser ∧ (s.port p).ring = []

/-- The messages pushed are the burst. -/
theorem Burst.pushed_flatten {p : PortId} {burst : List UInt8} {s : State} (h : Burst p burst s)
    (hread : AllRead p s) : s.pushed.flatten = burst := by
  have hbytes := h.account.bytes
  rw [hread.1, hread.2, List.append_nil] at hbytes
  rw [← hbytes]
  exact (List.append_nil _).symm

theorem exists_messages (ms : List (List UInt8)) (h : ∀ m ∈ ms, m.length < 65536) :
    ∃ ds : List Message, ds.map (fun d => d.val) = ms := by
  induction ms with
  | nil => exact ⟨[], rfl⟩
  | cons m ms ih =>
    obtain ⟨ds, hds⟩ := ih fun m' hm' => h m' (List.mem_cons_of_mem m hm')
    exact ⟨⟨m, h m List.mem_cons_self⟩ :: ds, congrArg (List.cons m) hds⟩

/-- Every read fits in the 16-bit length argument of msg_push. -/
theorem Burst.messages {p : PortId} {burst : List UInt8} {s : State} (h : Burst p burst s) :
    ∃ ds : List Message, ds.map (fun d => d.val) = s.pushed := by
  refine exists_messages s.pushed fun m hm => ?_
  have hle := (h.account.reads m hm).2
  rw [bufSize] at hle
  omega

end Loop

section Fifo

/-- The messages of the msg_push calls. -/
def pushes (calls : List Call) : List (List UInt8) :=
  calls.filterMap fun
    | .push d => some d.val
    | .pop _ => none

/-- What a call returns through the out parameters of msg_pop. -/
def returned (f : Fifo) : Call → List (List UInt8)
  | .push _ => []
  | .pop timeout =>
    match msgPop f timeout with
    | some (_, some out, _) => [out.msgData]
    | _ => []

/-- The messages returned by the msg_pop calls of a run. -/
def popped : Fifo → List Call → List (List UInt8)
  | _, [] => []
  | f, c :: calls => returned f c ++ popped (after f c) calls

/-- A push finds a free unit, so it drops no old message. -/
def HasRoom (f : Fifo) : Call → Prop
  | .push _ => (rtDataQueuePopNow f.handle.pushQueue).ret = RT_EOK
  | .pop _ => True

def NeverDrops : Fifo → List Call → Prop
  | _, [] => True
  | f, c :: calls => HasRoom f c ∧ NeverDrops (after f c) calls

instance (f : Fifo) : (c : Call) → Decidable (HasRoom f c)
  | .push _ => inferInstanceAs (Decidable (_ = _))
  | .pop _ => inferInstanceAs (Decidable True)

instance decidableNeverDrops : (f : Fifo) → (calls : List Call) → Decidable (NeverDrops f calls)
  | _, [] => inferInstanceAs (Decidable True)
  | f, c :: calls =>
    have := decidableNeverDrops (after f c) calls
    inferInstanceAs (Decidable (_ ∧ _))

variable {f : Fifo} {fifoSize : ℕ} {msgSize : UInt16} {units free qs : List ℕ}
  {Q : List (List UInt8)}

/-- With a free unit the queue is not full. -/
theorem length_ne_of_hasRoom (h : Simulates f fifoSize msgSize units free qs Q) (d : Message)
    (hroom : HasRoom f (.push d)) : Q.length ≠ fifoSize := by
  have hrest := rest_length h.inv
  have hQ : Q.length = qs.length := by rw [← h.messages, List.length_map]
  rw [h.fifoSize_eq] at hrest
  cases free with
  | nil =>
    have hret : (rtDataQueuePopNow f.handle.pushQueue).ret = -RT_ETIMEOUT := by
      rw [rtDataQueuePopNow_empty h.inv.pushQueue.sized]
    have hne : -RT_ETIMEOUT ≠ RT_EOK := by decide
    exact absurd (hret.symm.trans hroom) hne
  | cons u free =>
    rw [List.length_cons] at hrest
    omega

theorem returned_nil (h : Simulates f fifoSize msgSize units free qs []) (timeout : ℤ) :
    returned f (.pop timeout) = [] := by
  have hqs : qs = [] := List.map_eq_nil_iff.mp h.messages
  subst hqs
  have hpop := rtDataQueuePop_empty h.inv.popQueue.sized timeout
  by_cases ht : timeout = 0
  · subst ht
    simp only [returned, FifoUnits.msgPop_of_nil h.inv.popQueue]
  · simp [returned, msgPop, hpop, ht]

/-- One call: what it returns and the queue it leaves make up the queue before it
and the message it pushes. -/
theorem Simulates.account (h : Simulates f fifoSize msgSize units free qs Q) (c : Call)
    (hsafe : IndexSafe f c) (hroom : HasRoom f c) :
    ∃ free' qs' Q', Simulates (after f c) fifoSize msgSize units free' qs' Q' ∧
      returned f c ++ Q' = Q ++ (pushes [c]).map fun m => m.take msgSize.toNat := by
  cases c with
  | push d =>
    obtain ⟨_, ⟨free', qs', hnext⟩, _⟩ := h.push d hsafe
    rw [DropOldest.push_of_room fifoSize Q _ (length_ne_of_hasRoom h d hroom)] at hnext
    exact ⟨free', qs', _, hnext, rfl⟩
  | pop timeout =>
    cases Q with
    | nil =>
      obtain ⟨_, hafter⟩ := h.pop_nil timeout
      refine ⟨free, qs, [], ?_, ?_⟩
      · rw [hafter]
        exact h
      · rw [returned_nil h timeout]
        rfl
    | cons m Q =>
      obtain ⟨out, f', free', qs', hpop, hout, _, hsim⟩ := h.pop timeout hsafe
      refine ⟨free', qs', Q, ?_, ?_⟩
      · simp only [after, hpop]
        exact hsim
      · simp [returned, hpop, hout, pushes]

theorem pushes_cons (c : Call) (calls : List Call) :
    pushes (c :: calls) = pushes [c] ++ pushes calls := by
  rw [pushes, ← List.singleton_append, List.filterMap_append]
  rfl

/-- A run that drops nothing: what was popped and what is still queued are the
messages pushed, each cut to the size of the buffers. -/
theorem Simulates.delivers (h : Simulates f fifoSize msgSize units free qs Q)
    (calls : List Call) (hsafe : IndexSafeRun f calls) (hroom : NeverDrops f calls) :
    popped f calls ++ queued (calls.foldl after f) =
      Q ++ (pushes calls).map fun m => m.take msgSize.toNat := by
  induction calls generalizing f free qs Q with
  | nil =>
    have hqueued : queued f = Q := (queued_eq h.inv.popQueue).trans h.messages
    simp [popped, pushes, hqueued]
  | cons c calls ih =>
    obtain ⟨free', qs', Q', hnext, hcall⟩ := Simulates.account h c hsafe.1 hroom.1
    have hrest := ih hnext hsafe.2 hroom.2
    have hpushes := pushes_cons c calls
    rw [popped, List.foldl_cons, List.append_assoc, hrest, ← List.append_assoc, hcall, hpushes,
      List.map_append, List.append_assoc]

theorem flatten_take_length_le (n : ℕ) (ms : List (List UInt8)) :
    (ms.map fun m => m.take n).flatten.length ≤ ms.flatten.length := by
  induction ms with
  | nil => exact Nat.le_refl _
  | cons m ms ih =>
    simp only [List.map_cons, List.flatten_cons, List.length_append, List.length_take]
    omega

/-- Cutting texts loses nothing exactly when none is longer than the cut. -/
theorem flatten_take_iff (n : ℕ) (ms : List (List UInt8)) :
    (ms.map fun m => m.take n).flatten = ms.flatten ↔ ∀ m ∈ ms, m.length ≤ n := by
  constructor
  · intro heq
    induction ms with
    | nil => exact fun m hm => absurd hm List.not_mem_nil
    | cons m ms ih =>
      have hlen := congrArg List.length heq
      have hrest := flatten_take_length_le n ms
      simp only [List.map_cons, List.flatten_cons, List.length_append, List.length_take] at hlen
      have hm : m.length ≤ n := by omega
      rw [List.map_cons, List.flatten_cons, List.flatten_cons, List.take_of_length_le hm] at heq
      intro m' hm'
      rcases List.mem_cons.mp hm' with rfl | hm'
      · exact hm
      · exact ih (List.append_cancel_left heq) m' hm'
  · intro hall
    have hmap : ms.map (fun m => m.take n) = ms.map id :=
      List.map_congr_left fun m hm => List.take_of_length_le (hall m hm)
    rw [hmap, List.map_id]

end Fifo

section Delivery

/-- The messages popped are the burst exactly when no read took more bytes than a
buffer of the FIFO holds. -/
theorem burst_delivered_iff (p : PortId) (burst : List UInt8) (s : State)
    (hburst : Burst p burst s) (hread : AllRead p s) (fifoSize : UInt16)
    (hfifo : 1 ≤ fifoSize.toNat) (f : Fifo) (hf : Created f 490 fifoSize) (calls : List Call)
    (hcalls : pushes calls = s.pushed) (hroom : NeverDrops f calls)
    (hsafe : IndexSafeRun f calls) (hdrained : queued (calls.foldl after f) = []) :
    (popped f calls).flatten = burst ↔ ∀ m ∈ s.pushed, m.length ≤ 490 := by
  obtain ⟨units, hfresh⟩ := FifoCreation.created_fresh hf hfifo
  have hdelivers := Simulates.delivers (Simulates.start hfresh) calls hsafe hroom
  rw [hdrained, List.append_nil, List.nil_append, hcalls] at hdelivers
  rw [hdelivers, ← hburst.pushed_flatten hread]
  exact flatten_take_iff 490 s.pushed

/-- A step of the loop by which nothing comes in and nothing is pushed. -/
def Turn (t t' : State) : Prop :=
  ∃ e, Step t e t' ∧ (∀ q bs, e ≠ some (.receive q bs)) ∧ t'.pushed = t.pushed

/-- The device read takes all that is in the ring. -/
theorem turns_ring (s : State) (p : PortId) (buf bs : List UInt8) (hpc : s.pc = .reading p buf)
    (hring : (s.port p).ring = bs) (hlen : buf.length + bs.length ≤ bufSize) :
    ∃ s', Relation.ReflTransGen Turn s s' ∧ s'.pc = .reading p (buf ++ bs) ∧
      (s'.port p).ring = [] ∧ s'.pushed = s.pushed := by
  induction bs generalizing s buf with
  | nil => exact ⟨s, .refl, by rw [hpc, List.append_nil], hring, rfl⟩
  | cons b bs ih =>
    rw [List.length_cons] at hlen
    have hget : Turn s { s.setPort p { s.port p with ring := bs } with
        pc := .reading p (buf ++ [b]) } :=
      ⟨none, .getByte hpc (by omega) hring, nofun, rfl⟩
    have hafter : buf.length + 1 + bs.length ≤ bufSize := by omega
    obtain ⟨s', hturns, hpc', hring', hpushed⟩ :=
      ih { s.setPort p { s.port p with ring := bs } with pc := .reading p (buf ++ [b]) }
        (buf ++ [b]) rfl (by simp [State.setPort]) (by simpa using hafter)
    refine ⟨s', .head hget hturns, ?_, hring', hpushed⟩
    rw [hpc', List.append_assoc, List.singleton_append]

/-- A read of USERCOM to the point where its bytes are to be pushed. -/
theorem turns_read (s : State) (bs : List UInt8) (hpc : s.pc = .takeUser)
    (hsem : 0 < (s.port .user).sem) (hring : (s.port .user).ring = bs)
    (hlen : bs.length ≤ ringSize) :
    ∃ s', Relation.ReflTransGen Turn s s' ∧ s'.pc = .checking .user bs ∧
      (s'.port .user).ring = [] ∧ s'.pushed = s.pushed := by
  have htake : Turn s { s.take .user with pc := .reading .user [] } :=
    ⟨none, .takeUser hpc hsem, nofun, rfl⟩
  obtain ⟨s', hturns, hpc', hring', hpushed⟩ :=
    turns_ring { s.take .user with pc := .reading .user [] } .user [] bs rfl
      ((take_ring s .user .user).trans hring)
      (by simp only [bufSize, ringSize, List.length_nil] at hlen ⊢; omega)
  have hdevice : Turn s' { s' with pc := .checking .user bs } :=
    ⟨none, .endDeviceRead hpc' (Or.inr hring'), nofun, rfl⟩
  exact ⟨_, .head htake (hturns.tail hdevice), rfl, hring', hpushed⟩

theorem Burst.turns {p : PortId} {burst : List UInt8} {s s' : State} (h : Burst p burst s)
    (hturns : Relation.ReflTransGen Turn s s') : Burst p burst s' := by
  induction hturns with
  | refl => exact h
  | tail _ hturn ih =>
    obtain ⟨e, hstep, hquiet, _⟩ := hturn
    exact ih.step hstep hquiet

theorem Burst.read {p q : PortId} {burst buf : List UInt8} {s s' : State} (h : Burst p burst s)
    (hstep : Step s (some (.read q buf)) s') : Burst p burst s' := by
  refine h.step hstep fun q' bs heq => ?_
  cases heq

/-- The bytes of one interrupt are what the ring holds afterwards. -/
theorem isr_ring {q : TransparentMode.Port} (hempty : q.ring = []) (bs : List UInt8)
    (hlen : bs.length ≤ ringSize) : (q.isr bs).ring = bs := by
  have hring := foldl_ringPut bs q.ring (by simpa [hempty] using hlen)
  rw [hempty] at hring
  change bs.foldl ringPut q.ring = bs
  rw [hempty, hring, List.nil_append]

/-- Bytes of one interrupt on USERCOM are read together and are about to be pushed. -/
theorem turns_at_once {s : State} (hread : AllRead .user s) {bs : List UInt8} (hbs : bs ≠ [])
    (hlen : bs.length ≤ ringSize) :
    ∃ t, Relation.ReflTransGen Turn (s.setPort .user ((s.port .user).isr bs)) t ∧
      t.pc = .checking .user bs ∧ (t.port .user).ring = [] ∧ t.pushed = s.pushed ∧
      (t.finish bs).pushed = t.pushed ++ [bs] := by
  obtain ⟨hpc, hempty⟩ := hread
  obtain ⟨t, hturns, hpc', hring, hpushed⟩ :=
    turns_read (s.setPort .user ((s.port .user).isr bs)) bs hpc
      (by simp [State.setPort, TransparentMode.Port.isr])
      (by simp [State.setPort, isr_ring hempty bs hlen]) hlen
  exact ⟨t, hturns, hpc', hring, hpushed, if_pos (List.length_pos_iff.mpr hbs)⟩

/-- They make one message of the burst. -/
theorem Burst.atOnce {burst : List UInt8} {s : State} (h : Burst .user burst s)
    (hread : AllRead .user s) (bs : List UInt8) (hbs : bs ≠ []) (hlen : bs.length ≤ ringSize) :
    ∃ s', Burst .user (burst ++ bs) s' ∧ AllRead .user s' ∧ s'.pushed = s.pushed ++ [bs] := by
  have hreceive := Burst.receive bs h hbs (by simpa [hread.2] using hlen)
  obtain ⟨t, hturns, hpc, hring, hpushed, hfinish⟩ := turns_at_once hread hbs hlen
  refine ⟨t.finish bs, (hreceive.turns hturns).read (.endRead hpc), ⟨rfl, hring⟩, ?_⟩
  rw [hfinish, hpushed]

/-- The same from the start. -/
theorem burst_at_once (bs : List UInt8) (hbs : bs ≠ []) (hlen : bs.length ≤ ringSize) :
    ∃ s, Burst .user bs s ∧ AllRead .user s ∧ s.pushed = [bs] :=
  Burst.start.atOnce ⟨rfl, rfl⟩ bs hbs hlen

/-- A burst of five bytes in two reads is popped as it came in. -/
theorem burst_delivered_iff_two :
    ∃ s, Burst .user [7, 8, 9, 10, 13] s ∧ AllRead .user s ∧ s.pushed = [[7, 8, 9], [10, 13]] ∧
      ((popped (blankFifo 3) [.push ⟨[7, 8, 9], by decide⟩, .push ⟨[10, 13], by decide⟩, .pop 0,
          .pop 0]).flatten = [7, 8, 9, 10, 13] ↔ ∀ m ∈ s.pushed, m.length ≤ 490) := by
  obtain ⟨s₁, hfirst, hread₁, hpushed₁⟩ := burst_at_once [7, 8, 9] (by simp) (by decide)
  obtain ⟨s, hburst, hread, hpushed⟩ := hfirst.atOnce hread₁ [10, 13] (by simp) (by decide)
  rw [hpushed₁] at hpushed
  refine ⟨s, hburst, hread, hpushed, ?_⟩
  refine burst_delivered_iff .user _ s hburst hread 3 (by decide) (blankFifo 3) blankFifo_created
    [.push ⟨[7, 8, 9], by decide⟩, .push ⟨[10, 13], by decide⟩, .pop 0, .pop 0] ?_ ?_ ?_ ?_
  · rw [hpushed]
    rfl
  · decide +kernel
  · decide +kernel
  · decide +kernel

/-- One byte more than a buffer of the FIFO holds, and less than one read takes. -/
def longRead : Message := ⟨List.replicate 491 7, by rw [List.length_replicate]; omega⟩

theorem longRead_length : longRead.val.length = 491 := List.length_replicate

/-- The last byte of a read of 491 is lost, with two units to spare. -/
theorem long_read_cut :
    ∃ s, Burst .user longRead.val s ∧ AllRead .user s ∧
      pushes [.push longRead, .pop 0] = s.pushed ∧
      NeverDrops (blankFifo 3) [.push longRead, .pop 0] ∧
      IndexSafeRun (blankFifo 3) [.push longRead, .pop 0] ∧
      queued ([Call.push longRead, .pop 0].foldl after (blankFifo 3)) = [] ∧
      (popped (blankFifo 3) [.push longRead, .pop 0]).flatten = List.replicate 490 7 ∧
      (popped (blankFifo 3) [.push longRead, .pop 0]).flatten ≠ longRead.val := by
  have hlen := longRead_length
  have hne : longRead.val ≠ [] := List.ne_nil_of_length_pos (by omega)
  have hring : longRead.val.length ≤ ringSize := by rw [ringSize]; omega
  obtain ⟨s, hburst, hread, hpushed⟩ := burst_at_once longRead.val hne hring
  refine ⟨s, hburst, hread, ?_, ?_, ?_, ?_, ?_, ?_⟩
  · rw [hpushed]
    rfl
  · decide +kernel
  · decide +kernel
  · decide +kernel
  · decide +kernel
  · decide +kernel

end Delivery

end GemhoNbiot.BurstDelivery
