import GemhoNbiot.SerialRx

/-!
USERCOM_direct_BC95COM, the loop of the debug mode: what is read from either user port
goes to BC95COM, what is read from BC95COM goes to both user ports. Receive interrupts
of the three ports come between any two steps, and thread_msgSend, which is running
already, may check the module at any time: it writes lines of its own and reads replies
away. The loop loses, repeats and reorders nothing; what is missing at the other end
was overwritten in a full receive buffer or read by thread_msgSend.
-/
namespace GemhoNbiot.Relay

open SerialRx

inductive Port
  | userCom
  | userCom485
  | bc95Com
deriving DecidableEq

/-- Who has written a byte: the loop, with the port that the byte was read from, or
thread_msgSend. -/
inductive Origin
  | relayed (p : Port)
  | msgSend
deriving DecidableEq

/-- The loop reads from a port, or is to write what it has read from it. -/
inductive Pc
  | reading (p : Port) (buf : List UInt8)
  | writing (p q : Port) (buf : List UInt8)

def RT_SERIAL_RB_BUFSZ : UInt16 := 512

/-- sizeof(buf). -/
def bufSize : ℕ := 64

/-- `out` is what has been written to each port, `lost` and `stolen` count the bytes
of each receive buffer that were overwritten and those that thread_msgSend has read. -/
structure State where
  rings : Port → RtSerialRxFifo
  pc : Pc
  arrived : Port → List UInt8
  out : Port → List (Origin × UInt8)
  lost : Port → ℕ
  stolen : Port → ℕ

/-- The next usart_read of the loop. -/
def Port.next : Port → Port
  | .userCom => .userCom485
  | .userCom485 => .bc95Com
  | .bc95Com => .userCom

/-- The first port that the bytes of a port go to. -/
def Port.target : Port → Port
  | .bc95Com => .userCom
  | _ => .bc95Com

/-- Behind a usart_read that has returned these bytes. -/
def afterRead (p : Port) (buf : List UInt8) : Pc :=
  if buf.length > 0 then .writing p p.target buf else .reading p.next []

/-- Behind a usart_write; UCALL_write is two of them. -/
def afterWrite (p q : Port) (buf : List UInt8) : Pc :=
  if p = .bc95Com ∧ q = .userCom then .writing p .userCom485 buf else .reading p.next []

/-- The turn of the interrupt that overwrites a byte. -/
def Overruns (f : RtSerialRxFifo) : Prop := advance RT_SERIAL_RB_BUFSZ f.putIndex = f.getIndex

instance (f : RtSerialRxFifo) : Decidable (Overruns f) := inferInstanceAs (Decidable (_ = _))

def State.receive (s : State) (p : Port) (ch : UInt8) : State :=
  { s with
    rings := Function.update s.rings p (isrPut RT_SERIAL_RB_BUFSZ (s.rings p) ch)
    arrived := Function.update s.arrived p (s.arrived p ++ [ch])
    lost := Function.update s.lost p (s.lost p + if Overruns (s.rings p) then 1 else 0) }

def State.write (s : State) (q : Port) (origin : Origin) (bs : List UInt8) : State :=
  { s with out := Function.update s.out q (s.out q ++ bs.map fun b => (origin, b)) }

/-- A byte from the interrupt, a step of the loop, whose reads have the timeout 0, or
a byte that thread_msgSend reads or bytes that it writes. -/
inductive Step (s : State) : State → Prop
  | receive (p : Port) (ch : UInt8) : Step s (s.receive p ch)
  | getByte {p : Port} {buf : List UInt8} {b : UInt8} {f : RtSerialRxFifo}
      (hpc : s.pc = .reading p buf) (hlen : buf.length < bufSize)
      (hget : SerialRx.getByte RT_SERIAL_RB_BUFSZ (s.rings p) = some (b, f)) :
      Step s { s with rings := Function.update s.rings p f, pc := .reading p (buf ++ [b]) }
  | endRead {p : Port} {buf : List UInt8} (hpc : s.pc = .reading p buf)
      (hend : buf.length = bufSize ∨ SerialRx.getByte RT_SERIAL_RB_BUFSZ (s.rings p) = none) :
      Step s { s with pc := afterRead p buf }
  | write {p q : Port} {buf : List UInt8} (hpc : s.pc = .writing p q buf) :
      Step s { s.write q (.relayed p) buf with pc := afterWrite p q buf }
  | steal {b : UInt8} {f : RtSerialRxFifo}
      (hget : SerialRx.getByte RT_SERIAL_RB_BUFSZ (s.rings .bc95Com) = some (b, f)) :
      Step s { s with
        rings := Function.update s.rings .bc95Com f
        stolen := Function.update s.stolen .bc95Com (s.stolen .bc95Com + 1) }
  | inject (q : Port) (bs : List UInt8) : Step s (s.write q .msgSend bs)

/-- config_bc95 and start_mode have read from the ports already; what they have left
unread counts as arrived. -/
def start (rings : Port → RtSerialRxFifo) (unread : Port → List UInt8) : State where
  rings := rings
  pc := .reading .userCom []
  arrived := unread
  out _ := []
  lost _ := 0
  stolen _ := 0

inductive Reach : State → Prop
  | start {rings : Port → RtSerialRxFifo} {unread : Port → List UInt8} :
      (∀ p, Represents RT_SERIAL_RB_BUFSZ (rings p) (unread p)) → Reach (start rings unread)
  | step {s s' : State} : Reach s → Step s s' → Reach s'

/-- The loop carries bytes from the first port to the second. -/
inductive Link : Port → Port → Prop
  | userCom : Link .userCom .bc95Com
  | userCom485 : Link .userCom485 .bc95Com
  | bc95Com : Link .bc95Com .userCom
  | bc95Com485 : Link .bc95Com .userCom485

/-- The bytes from `p` among those written to a port. -/
def relayed (p : Port) (out : List (Origin × UInt8)) : List UInt8 :=
  (out.filter fun e => e.1 = .relayed p).map Prod.snd

/-- What the loop has read from `p` and not yet written to `q`. -/
def inHand (p q : Port) : Pc → List UInt8
  | .reading p' buf => if p' = p then buf else []
  | .writing p' q' buf => if p' = p ∧ (q' = q ∨ q' = .userCom) then buf else []

/-- `n` of the bytes that have arrived are missing, the others are in order. -/
structure Kept (n : ℕ) (kept arrived : List UInt8) : Prop where
  sublist : kept.Sublist arrived
  length : kept.length + n = arrived.length

section Kept

variable {n : ℕ} {xs ys zs : List UInt8}

theorem Kept.append (h : Kept n xs ys) (zs : List UInt8) : Kept n (xs ++ zs) (ys ++ zs) where
  sublist := h.sublist.append_right zs
  length := by
    have hlen := h.length
    rw [List.length_append, List.length_append]
    omega

/-- One more byte is gone. -/
theorem Kept.remove {b : UInt8} (h : Kept n (xs ++ b :: zs) ys) : Kept (n + 1) (xs ++ zs) ys where
  sublist := ((List.sublist_cons_self b zs).append_left xs).trans h.sublist
  length := by
    have hlen := h.length
    simp only [List.length_append, List.length_cons] at hlen ⊢
    omega

/-- A byte comes in, and the oldest unread one goes if the buffer is full. -/
theorem Kept.push (h : Kept n (xs ++ zs) ys) {cap : ℕ} (hcap : 0 < cap) (ch : UInt8) :
    Kept (n + if zs.length = cap then 1 else 0) (xs ++ DropOldest.push cap zs ch) (ys ++ [ch]) := by
  by_cases hfull : zs.length = cap
  · rw [if_pos hfull, DropOldest.push_of_full cap zs ch hfull]
    obtain ⟨b, rest, rfl⟩ : ∃ b rest, zs = b :: rest := by
      refine List.exists_cons_of_ne_nil fun hnil => ?_
      rw [hnil, List.length_nil] at hfull
      omega
    rw [List.tail_cons, ← List.append_assoc]
    exact h.remove.append [ch]
  · rw [if_neg hfull, DropOldest.push_of_room cap zs ch hfull, ← List.append_assoc]
    exact h.append [ch]

end Kept

section Invariant

variable {s s' : State} {p q : Port} {unread : Port → List UInt8}

theorem relayed_append (p : Port) (out rest : List (Origin × UInt8)) :
    relayed p (out ++ rest) = relayed p out ++ relayed p rest := by
  simp [relayed]

theorem relayed_own (p : Port) (bs : List UInt8) :
    relayed p (bs.map fun b => (.relayed p, b)) = bs := by
  induction bs with
  | nil => rfl
  | cons b bs ih => simpa [relayed] using ih

theorem relayed_other {origin : Origin} (h : origin ≠ .relayed p) (bs : List UInt8) :
    relayed p (bs.map fun b => (origin, b)) = [] := by
  simp [relayed, h]

theorem relayed_write (s : State) (p q p' q' : Port) (buf : List UInt8) :
    relayed p' ((s.write q (.relayed p) buf).out q') =
      relayed p' (s.out q') ++ if p = p' ∧ q = q' then buf else [] := by
  by_cases hq : q' = q
  · subst hq
    simp only [State.write, Function.update_self, relayed_append, and_true]
    by_cases hp : p = p'
    · subst hp
      rw [if_pos rfl, relayed_own]
    · rw [if_neg hp, relayed_other fun heq => hp (Origin.relayed.inj heq)]
  · simp only [State.write, Function.update_of_ne hq, Ne.symm hq, and_false, if_false,
      List.append_nil]

/-- `unread` are the bytes in the receive buffers. -/
structure Inv (s : State) (unread : Port → List UInt8) : Prop where
  rings : ∀ p, Represents RT_SERIAL_RB_BUFSZ (s.rings p) (unread p)
  writing : ∀ p q buf, s.pc = .writing p q buf → Link p q
  spared : ∀ p, p ≠ .bc95Com → s.stolen p = 0
  origins : ∀ q, ∀ e ∈ s.out q, e.1 = .msgSend ∨ ∃ p, Link p q ∧ e.1 = .relayed p
  kept : ∀ p q, Link p q → Kept (s.lost p + s.stolen p)
    (relayed p (s.out q) ++ inHand p q s.pc ++ unread p) (s.arrived p)

theorem link_target (p : Port) : Link p p.target := by
  cases p with
  | userCom => exact .userCom
  | userCom485 => exact .userCom485
  | bc95Com => exact .bc95Com

/-- The end of a read changes nothing of what is in hand. -/
theorem inHand_afterRead (hlink : Link p q) (p' : Port) (buf : List UInt8) :
    inHand p q (afterRead p' buf) = inHand p q (.reading p' buf) := by
  unfold afterRead
  by_cases hbuf : buf.length > 0
  · rw [if_pos hbuf]
    by_cases hp : p' = p
    · subst hp
      cases hlink <;> rfl
    · simp [inHand, hp]
  · have hnil : buf = [] := List.eq_nil_of_length_eq_zero (by omega)
    rw [if_neg hbuf, hnil]
    simp [inHand]

/-- A write takes the bytes out of the hand for this port, and for no other. -/
theorem inHand_afterWrite (hlink : Link p q) {p' q' : Port} (hlink' : Link p' q')
    (buf : List UInt8) :
    inHand p q (.writing p' q' buf) =
      (if p' = p ∧ q' = q then buf else []) ++ inHand p q (afterWrite p' q' buf) := by
  cases hlink <;> cases hlink' <;> simp [inHand, afterWrite, Port.next]

theorem Inv.origins_write (h : Inv s unread) {origin : Origin} (q : Port) (bs : List UInt8)
    (horigin : origin = .msgSend ∨ ∃ p, Link p q ∧ origin = .relayed p) (q' : Port) :
    ∀ e ∈ (s.write q origin bs).out q', e.1 = .msgSend ∨ ∃ p, Link p q' ∧ e.1 = .relayed p := by
  intro e he
  by_cases hq : q' = q
  · subst hq
    simp only [State.write, Function.update_self, List.mem_append, List.mem_map] at he
    rcases he with he | ⟨b, _, rfl⟩
    · exact h.origins q' e he
    · exact horigin
  · simp only [State.write, Function.update_of_ne hq] at he
    exact h.origins q' e he

theorem Inv.receive (h : Inv s unread) (p : Port) (ch : UInt8) :
    Inv (s.receive p ch) (Function.update unread p (DropOldest.push 511 (unread p) ch)) where
  rings := by
    intro p'
    by_cases hp : p' = p
    · subst hp
      simp only [State.receive, Function.update_self]
      exact (h.rings p').put (by decide) ch
    · simp only [State.receive, Function.update_of_ne hp]
      exact h.rings p'
  writing := h.writing
  spared := h.spared
  origins := h.origins
  kept := by
    intro p' q hlink
    by_cases hp : p' = p
    · subst hp
      simp only [State.receive, Function.update_self]
      have hfull : Overruns (s.rings p') ↔ (unread p').length = 511 := by
        rw [Overruns, (h.rings p').meets_iff]
        exact Nat.add_right_cancel_iff (n := 1)
      have hpush := @Kept.push _ _ _ _ (h.kept p' q hlink) 511 (by decide) ch
      rw [Nat.add_right_comm] at hpush
      simp only [hfull]
      exact hpush
    · simp only [State.receive, Function.update_of_ne hp]
      exact h.kept p' q hlink

/-- Both kinds of critical section take the oldest unread byte. -/
theorem Inv.takes (h : Inv s unread) {b : UInt8} {f : RtSerialRxFifo}
    (hget : SerialRx.getByte RT_SERIAL_RB_BUFSZ (s.rings p) = some (b, f)) :
    ∃ rest, unread p = b :: rest ∧ Represents RT_SERIAL_RB_BUFSZ f rest := by
  have hring := h.rings p
  cases hunread : unread p with
  | nil =>
    rw [hunread] at hring
    rw [hring.getByte_nil (by decide)] at hget
    cases hget
  | cons x rest =>
    rw [hunread] at hring
    obtain ⟨f', hget', hf'⟩ := hring.getByte_cons
    obtain ⟨rfl, rfl⟩ := Prod.mk.inj (Option.some.inj (hget'.symm.trans hget))
    exact ⟨rest, rfl, hf'⟩

theorem Inv.update_ring (h : Inv s unread) {f : RtSerialRxFifo} {rest : List UInt8}
    (hf : Represents RT_SERIAL_RB_BUFSZ f rest) (p' : Port) :
    Represents RT_SERIAL_RB_BUFSZ (Function.update s.rings p f p')
      (Function.update unread p rest p') := by
  by_cases hp : p' = p
  · subst hp
    rw [Function.update_self, Function.update_self]
    exact hf
  · rw [Function.update_of_ne hp, Function.update_of_ne hp]
    exact h.rings p'

theorem Inv.step (h : Inv s unread) (hstep : Step s s') : ∃ unread', Inv s' unread' := by
  cases hstep with
  | receive p ch => exact ⟨_, h.receive p ch⟩
  | @getByte p buf b f hpc hlen hget =>
    obtain ⟨rest, hunread, hf⟩ := h.takes hget
    refine ⟨Function.update unread p rest, h.update_ring hf, nofun, h.spared, h.origins,
      fun p' q hlink => ?_⟩
    have hkept := h.kept p' q hlink
    rw [hpc] at hkept
    by_cases hp : p' = p
    · subst hp
      simpa [inHand, hunread] using hkept
    · simpa [inHand, hp, Ne.symm hp] using hkept
  | @endRead p buf hpc hend =>
    refine ⟨unread, h.rings, fun p' q' buf' hwriting => ?_, h.spared, h.origins,
      fun p' q hlink => ?_⟩
    · change afterRead p buf = _ at hwriting
      unfold afterRead at hwriting
      split at hwriting
      · obtain ⟨rfl, rfl, _⟩ := Pc.writing.inj hwriting
        exact link_target p
      · cases hwriting
    · have hkept := h.kept p' q hlink
      rwa [hpc, ← inHand_afterRead hlink] at hkept
  | @write p q buf hpc =>
    have hlink' := h.writing p q buf hpc
    refine ⟨unread, h.rings, fun p' q' buf' hwriting => ?_, h.spared,
      h.origins_write q buf (Or.inr ⟨p, hlink', rfl⟩), fun p' q' hlink => ?_⟩
    · change afterWrite p q buf = _ at hwriting
      unfold afterWrite at hwriting
      split at hwriting
      · rename_i hfirst
        obtain ⟨rfl, rfl, _⟩ := Pc.writing.inj hwriting
        rw [hfirst.1]
        exact .bc95Com485
      · cases hwriting
    · have hkept := h.kept p' q' hlink
      rw [hpc, inHand_afterWrite hlink hlink', ← List.append_assoc] at hkept
      change Kept _ (relayed p' ((s.write q (.relayed p) buf).out q') ++ _ ++ _) _
      rw [relayed_write]
      exact hkept
  | steal hget =>
    obtain ⟨rest, hunread, hf⟩ := h.takes hget
    refine ⟨Function.update unread .bc95Com rest, h.update_ring hf, h.writing, fun p' hp => ?_,
      h.origins, fun p' q hlink => ?_⟩
    · change Function.update s.stolen .bc95Com _ p' = 0
      rw [Function.update_of_ne hp]
      exact h.spared p' hp
    have hkept := h.kept p' q hlink
    by_cases hp : p' = .bc95Com
    · subst hp
      rw [hunread] at hkept
      simpa [Nat.add_assoc] using hkept.remove
    · simpa [hp] using hkept
  | inject q bs =>
    refine ⟨unread, h.rings, h.writing, h.spared, h.origins_write q bs (Or.inl rfl),
      fun p' q' hlink => ?_⟩
    have hkept := h.kept p' q' hlink
    by_cases hq : q' = q
    · subst hq
      simpa [State.write, relayed_append, relayed_other] using hkept
    · simpa [State.write, hq] using hkept

end Invariant

section Runs

variable {s : State}

theorem inv_start {rings : Port → RtSerialRxFifo} {unread : Port → List UInt8}
    (h : ∀ p, Represents RT_SERIAL_RB_BUFSZ (rings p) (unread p)) :
    Inv (start rings unread) unread where
  rings := h
  writing := nofun
  spared _ _ := rfl
  origins _ _ he := absurd he List.not_mem_nil
  kept p q _ := by
    have hnil : inHand p q (.reading .userCom []) = [] := by simp [inHand]
    exact ⟨by simp [start, relayed, hnil], by simp [start, relayed, hnil]⟩

theorem Reach.inv (h : Reach s) : ∃ unread, Inv s unread := by
  induction h with
  | start hrings => exact ⟨_, inv_start hrings⟩
  | step _ hstep ih =>
    obtain ⟨unread, hinv⟩ := ih
    exact hinv.step hstep

/-- In every run of the debug mode, whatever thread_msgSend does meanwhile: the bytes
relayed from one port to the other, those the loop has in hand and those unread are
what has arrived, in order and once each, but for as many bytes as were overwritten in
the full receive buffer or, from BC95COM, read by thread_msgSend. Nothing else is
written but the lines of the latter. -/
theorem relay_keeps (h : Reach s) :
    ∃ unread : Port → List UInt8,
      (∀ p, Represents RT_SERIAL_RB_BUFSZ (s.rings p) (unread p)) ∧
        (∀ p q, Link p q → Kept (s.lost p + s.stolen p)
          (relayed p (s.out q) ++ inHand p q s.pc ++ unread p) (s.arrived p)) ∧
        (∀ p, p ≠ .bc95Com → s.stolen p = 0) ∧
        ∀ q, ∀ e ∈ s.out q, e.1 = .msgSend ∨ ∃ p, Link p q ∧ e.1 = .relayed p := by
  obtain ⟨unread, hinv⟩ := h.inv
  exact ⟨unread, hinv.rings, hinv.kept, hinv.spared, hinv.origins⟩

/-- An unread byte of USERCOM and one that comes in are relayed, the answer of the
module is read away. -/
theorem relay_keeps_stolen :
    ∃ s, Reach s ∧ s.arrived .userCom = [0x40, 0x41] ∧
      s.out .bc95Com = [(.relayed .userCom, 0x40), (.relayed .userCom, 0x41)] ∧
      s.arrived .bc95Com = [0x4f] ∧ s.out .userCom = [] ∧ s.stolen .bc95Com = 1 ∧
      ∃ unread : Port → List UInt8,
        (∀ p, Represents RT_SERIAL_RB_BUFSZ (s.rings p) (unread p)) ∧
          (∀ p q, Link p q → Kept (s.lost p + s.stolen p)
            (relayed p (s.out q) ++ inHand p q s.pc ++ unread p) (s.arrived p)) ∧
          (∀ p, p ≠ .bc95Com → s.stolen p = 0) ∧
          ∀ q, ∀ e ∈ s.out q, e.1 = .msgSend ∨ ∃ p, Link p q ∧ e.1 = .relayed p := by
  have hring := openRx_represents RT_SERIAL_RB_BUFSZ (by decide)
  have hunread := hring.put (by decide) 0x40
  let rings : Port → RtSerialRxFifo := fun p =>
    if p = .userCom then isrPut RT_SERIAL_RB_BUFSZ (openRx RT_SERIAL_RB_BUFSZ) 0x40
    else openRx RT_SERIAL_RB_BUFSZ
  have hrings : ∀ p, Represents RT_SERIAL_RB_BUFSZ (rings p)
      (if p = .userCom then [0x40] else []) := by
    intro p
    cases p with
    | userCom => exact hunread
    | userCom485 => exact hring
    | bc95Com => exact hring
  obtain ⟨f₁, hget₁, hf₁⟩ := (hunread.put (by decide) 0x41).getByte_cons
  obtain ⟨f₂, hget₂, hf₂⟩ := hf₁.getByte_cons
  obtain ⟨f', hget', _⟩ := (hring.put (by decide) 0x4f).getByte_cons
  have hreceive := (Reach.start hrings).step (.receive .userCom 0x41)
  have hfirst := hreceive.step (.getByte rfl (by decide) hget₁)
  have hsecond := hfirst.step (.getByte rfl (by decide) hget₂)
  have hread := hsecond.step (.endRead rfl (Or.inr (hf₂.getByte_nil (by decide))))
  have hwrite := hread.step (.write rfl)
  have hanswer := hwrite.step (.receive .bc95Com 0x4f)
  have hsteal := hanswer.step (.steal hget')
  exact ⟨_, hsteal, rfl, rfl, rfl, rfl, rfl, relay_keeps hsteal⟩

end Runs

end GemhoNbiot.Relay
