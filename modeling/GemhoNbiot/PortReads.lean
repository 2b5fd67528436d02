import GemhoNbiot.Commands
import GemhoNbiot.UsartRead

/-!
The two reads at the head of start_mode and of the loop of ghConfig. The second
read starts where the first one stopped and gets the room that is left, both
computed from the int that usart_read returned, which is -1 for a port that was
not opened. Everything handed on stays inside the buffer exactly when, in every
turn, USERCOM is open and USERCOM485 is open or the read of USERCOM found bytes.
-/
namespace GemhoNbiot.PortReads

open Memmem Program TraceLogic Commands

inductive Port
  | user
  | rs485
deriving DecidableEq

/-- usart_read and memmem are given a place in the buffer or a length of it. What
memmem looks for comes with its strlen. -/
inductive Op
  | usartRead (port : Port) (offset : ℤ) (len : UInt32) (timeout : ℕ)
  | memmem (lLen : UInt32) (s : List UInt8)
  | msgPush (msgSize : UInt16)
  | ucallWrite (bs : List UInt8)
  | midLightAction
  | ceFun (cmd : List UInt8) (size : ℕ)

/-- usart_read returns its int, memmem the place of what it found. -/
abbrev Op.Res : Op → Type
  | .usartRead _ _ _ _ => ℤ
  | .memmem _ _ => Option ℕ
  | _ => Unit

abbrev Reads := Prog Op Op.Res

abbrev Call := Event Op Op.Res

def usartRead (port : Port) (offset : ℤ) (len : UInt32) (timeout : ℕ) : Reads ℤ :=
  Prog.perform (Op.usartRead port offset len timeout)
def memmem (lLen : UInt32) (s : List UInt8) : Reads (Option ℕ) := Prog.perform (Op.memmem lLen s)
def msgPush (msgSize : UInt16) : Reads Unit := Prog.perform (Op.msgPush msgSize)
def ucallWrite (bs : List UInt8) : Reads Unit := Prog.perform (Op.ucallWrite bs)
def midLightAction : Reads Unit := Prog.perform Op.midLightAction
def ceFun (cmd : List UInt8) (size : ℕ) : Reads Unit := Prog.perform (Op.ceFun cmd size)

def ATDEBUG : List UInt8 := bytes "MODE+ATDEBUG\r\n"
def GEMHOCFG : List UInt8 := bytes "MODE+GEMHOCFG\r\n"

inductive ModeToRun
  | lucTrans
  | atDebug
  | gemhoConfig
deriving DecidableEq

/-- The read of USERCOM and the one of USERCOM485 behind it: their sum. -/
def readBoth (size : ℕ) (timeout : ℕ) : Reads ℤ := do
  let len ← usartRead .user 0 (UInt32.ofNat size) timeout
  let more ← usartRead .rs485 len (UInt32.ofNat size - UInt32.ofInt len) timeout
  pure (len + more)

/-- What start_mode does with `len` bytes. -/
def selectMode (len : ℤ) : Reads ModeToRun := do
  let debug ← memmem (UInt32.ofInt len) ATDEBUG
  if debug ≠ none then
    ucallWrite ATDEBUG
    pure .atDebug
  else
    let config ← memmem (UInt32.ofInt len) GEMHOCFG
    if config ≠ none then
      ucallWrite GEMHOCFG
      pure .gemhoConfig
    else
      msgPush (UInt16.ofInt len)
      midLightAction
      pure .lucTrans

/-- start_mode, given up after `n` turns of its loop without bytes. -/
def startMode : ℕ → Reads (Option ModeToRun)
  | 0 => pure none
  | n + 1 => do
    let len ← readBoth 512 100
    if len = 0 then
      startMode n
    else
      let mode ← selectMode len
      pure (some mode)

/-- The search through cmdExe for the command at the start of the buffer. -/
def dispatch (cnt : ℤ) (pEnd : ℕ) : List (List UInt8) → Reads Unit
  | [] => pure ()
  | cmd :: rest => do
    let pStart ← memmem (UInt32.ofInt cnt) cmd
    if pStart = some 0 then ceFun cmd pEnd
    else if rest = [] then ucallWrite UDCMD
    else dispatch cnt pEnd rest

/-- What a turn of ghConfig does with `cnt` bytes. -/
def configTurn (cmds : List (List UInt8)) (cnt : ℤ) : Reads Unit := do
  let pEnd ← memmem (UInt32.ofInt cnt) ENDFLAG
  match pEnd with
  | some pEnd => dispatch cnt pEnd cmds
  | none => if UInt32.ofInt cnt ≥ 128 then ucallWrite ERRORSTR else pure ()

/-- The command words of cmdExe, in its order. -/
def cmdWords : List (List UInt8) := (cmdExe id).map Prod.fst

/-- The first `n` turns of the loop of ghConfig. -/
def ghConfig : ℕ → Reads Unit
  | 0 => pure ()
  | n + 1 => do
    let cnt ← readBoth 128 10
    let _ ← (if cnt = 0 then pure () else configTurn cmdWords cnt)
    ghConfig n

/-- Which calls of usart_init in main_entry returned a handle. -/
structure Handles where
  user : Bool
  rs485 : Bool

def Handles.opened (h : Handles) : Port → Bool
  | .user => h.user
  | .rs485 => h.rs485

/-- What usart_read can return. -/
def Answers (h : Handles) : Call → Prop
  | ⟨.usartRead port _ len _, ret⟩ =>
    (h.opened port = true → 0 ≤ ret ∧ ret ≤ len.toNat) ∧ (h.opened port = false → ret = -1)
  | _ => True

/-- The slice or length handed over lies inside a buffer of `size` bytes. -/
def Inside (size : ℕ) : Call → Prop
  | ⟨.usartRead _ offset len _, _⟩ => 0 ≤ offset ∧ offset + len.toNat ≤ size
  | ⟨.memmem lLen s, _⟩ => lLen.toNat ≤ size ∧ s.length ≤ size
  | ⟨.msgPush msgSize, _⟩ => msgSize.toNat ≤ size
  | _ => True

/-- At a read of USERCOM: the port is open, and the other one is open or bytes
were read. -/
def Sound (h : Handles) : Call → Prop
  | ⟨.usartRead .user _ _ _, ret⟩ => h.user = true ∧ (h.rs485 = true ∨ ret ≠ 0)
  | _ => True

/-- usart_read gives these answers. -/
theorem usartRead_answers {fuel : ℕ} {opened : Bool} {d : UsartRead.Buffer} {t : Int32}
    {calls : List UsartRead.Call} {r : ℤ × List UInt8} {s s' : UsartRead.Port} (ht : 0 ≤ t)
    (hrun : Runs (UsartRead.usartRead fuel opened d t) calls r)
    (hport : Chain UsartRead.Step s calls s') :
    (opened = true → 0 ≤ r.1 ∧ r.1 ≤ d.bytes.length) ∧ (opened = false → r.1 = -1) := by
  constructor
  · rintro rfl
    obtain ⟨n, hn, hle, _⟩ := UsartRead.usartRead_right fuel ht hrun hport
    omega
  · rintro rfl
    obtain ⟨_, rfl⟩ := (runs_pure _ r calls).mp hrun
    rfl

section Turn

variable {h : Handles} {size timeout : ℕ} {len : ℤ} {events : List Call}

/-- The two reads of a turn: `r` and `r'` are what they return. -/
def bothReads (size timeout : ℕ) (r r' : ℤ) : List Call :=
  [⟨.usartRead .user 0 (UInt32.ofNat size) timeout, r⟩,
    ⟨.usartRead .rs485 r (UInt32.ofNat size - UInt32.ofInt r) timeout, r'⟩]

theorem readBoth_runs (hrun : Runs (readBoth size timeout) events len) :
    ∃ r r', events = bothReads size timeout r r' ∧ len = r + r' := by
  obtain ⟨r, rest, rfl, hrest⟩ := (runs_perform_bind (Op.usartRead _ _ _ _) _ events len).mp hrun
  obtain ⟨r', last, rfl, hlast⟩ := (runs_perform_bind (Op.usartRead _ _ _ _) _ rest len).mp hrest
  obtain ⟨rfl, rfl⟩ := (runs_pure _ _ last).mp hlast
  exact ⟨r, r', rfl, rfl⟩

theorem ofInt_toNat {z : ℤ} (h0 : 0 ≤ z) (hz : z < 65536) : (UInt32.ofInt z).toNat = z := by
  rw [UInt32.ofInt, UInt32.toNat_ofNat']
  omega

theorem room_toNat {r : ℤ} (hsize : size < 65536) (h0 : 0 ≤ r) (hr : r ≤ size) :
    ((UInt32.ofNat size - UInt32.ofInt r).toNat : ℤ) = size - r := by
  have hnat : (UInt32.ofNat size).toNat = size := by
    rw [UInt32.toNat_ofNat']
    omega
  have hint := ofInt_toNat h0 (by omega)
  rw [UInt32.toNat_sub_of_le _ _ (by rw [UInt32.le_iff_toNat_le]; omega)]
  omega

/-- The slices of a turn are inside the buffer exactly if USERCOM is open; then
the sum is -1 only for two reads without bytes of which the second failed. -/
theorem bothReads_inside {r r' : ℤ} (hsize : size < 65536)
    (hanswers : ∀ e ∈ bothReads size timeout r r', Answers h e) :
    ((∀ e ∈ bothReads size timeout r r', Inside size e) ↔ h.user = true) ∧
      (h.user = true → -1 ≤ r + r' ∧ r + r' ≤ size ∧
        (0 ≤ r + r' ↔ h.rs485 = true ∨ r ≠ 0)) := by
  have hnat : (UInt32.ofNat size).toNat = size := by
    rw [UInt32.toNat_ofNat']
    omega
  obtain ⟨huserOpen, huserNull⟩ := hanswers _ List.mem_cons_self
  obtain ⟨hrs485Open, hrs485Null⟩ := hanswers _ (List.mem_cons_of_mem _ List.mem_cons_self)
  rw [hnat] at huserOpen
  simp only [Handles.opened] at huserOpen huserNull hrs485Open hrs485Null
  simp only [bothReads, List.forall_mem_cons, List.not_mem_nil, false_implies, implies_true,
    and_true, Inside, hnat]
  cases huser : h.user with
  | true =>
    obtain ⟨h0, hr⟩ : 0 ≤ r ∧ r ≤ (size : ℤ) := huserOpen huser
    have hroom := room_toNat hsize h0 hr
    refine ⟨⟨fun _ => rfl, fun _ => by omega⟩, fun _ => ?_⟩
    cases hrs485 : h.rs485 with
    | true =>
      obtain ⟨h0', hr'⟩ : 0 ≤ r' ∧ r' ≤ _ := hrs485Open hrs485
      exact ⟨by omega, by omega, fun _ => Or.inl rfl, fun _ => by omega⟩
    | false =>
      have hr' : r' = -1 := hrs485Null hrs485
      exact ⟨by omega, by omega, fun _ => Or.inr (by omega), fun hor => by
        have hne := hor.resolve_left (by decide)
        omega⟩
  | false =>
    have hr : r = -1 := huserNull huser
    exact ⟨⟨fun hinside => by omega, fun htrue => absurd htrue (by decide)⟩,
      fun htrue => absurd htrue (by decide)⟩

end Turn

section Handed

variable {h : Handles} {size : ℕ} {cnt : ℤ}

/-- The smaller one of the two buffers. -/
def cmdBufSize : ℕ := 128

/-- No read, and every length handed over is `cnt` or that of a short word. -/
def Hands (cnt : ℤ) : Call → Prop
  | ⟨.usartRead _ _ _ _, _⟩ => False
  | ⟨.memmem lLen s, _⟩ => lLen = UInt32.ofInt cnt ∧ s.length ≤ cmdBufSize
  | ⟨.msgPush msgSize, _⟩ => msgSize = UInt16.ofInt cnt
  | _ => True

instance (P : Call → Prop) : Closed fun events : List Call => ∀ e ∈ events, P e where
  nil := by simp
  append xs ys hx hy := by
    intro e he
    rcases List.mem_append.mp he with he | he
    · exact hx e he
    · exact hy e he

theorem always_call {P : Call → Prop} {op : Op} (hop : ∀ r, P ⟨op, r⟩) :
    Always (Prog.perform op : Reads (Op.Res op)) fun events => ∀ e ∈ events, P e :=
  always_perform op fun r e he => by
    rw [List.mem_singleton.mp he]
    exact hop r

theorem selectMode_hands : Always (selectMode cnt) fun events => ∀ e ∈ events, Hands cnt e := by
  refine always_bind (always_call fun _ => ⟨rfl, by decide⟩) fun debug =>
    always_ite (fun _ => ?_) fun _ => ?_
  · exact always_bind (always_call fun _ => trivial) fun _ => always_pure _
  refine always_bind (always_call fun _ => ⟨rfl, by decide⟩) fun config =>
    always_ite (fun _ => ?_) fun _ => ?_
  · exact always_bind (always_call fun _ => trivial) fun _ => always_pure _
  · exact always_bind (always_call fun _ => rfl) fun _ =>
      always_bind (always_call fun _ => trivial) fun _ => always_pure _

theorem dispatch_hands (pEnd : ℕ) (cmds : List (List UInt8))
    (hcmds : ∀ cmd ∈ cmds, cmd.length ≤ cmdBufSize) :
    Always (dispatch cnt pEnd cmds) fun events => ∀ e ∈ events, Hands cnt e := by
  induction cmds with
  | nil => exact always_pure ()
  | cons cmd rest ih =>
    obtain ⟨hcmd, hrest⟩ := List.forall_mem_cons.mp hcmds
    refine always_bind (always_call fun _ => ⟨rfl, hcmd⟩) fun pStart => ?_
    refine always_ite (fun _ => always_call fun _ => trivial) fun _ => ?_
    exact always_ite (fun _ => always_call fun _ => trivial) fun _ => ih hrest

theorem configTurn_hands :
    Always (configTurn cmdWords cnt) fun events => ∀ e ∈ events, Hands cnt e := by
  refine always_bind (always_call fun _ => ⟨rfl, by decide⟩) fun pEnd => ?_
  cases pEnd with
  | some pEnd => exact dispatch_hands pEnd cmdWords (by decide)
  | none => exact always_ite (fun _ => always_call fun _ => trivial) fun _ => always_pure ()

/-- What is done with `cnt` bytes starts with a search and hands over only `cnt`. -/
structure Handed (cnt : ℤ) (events : List Call) : Prop where
  first : ∃ s found rest, events = ⟨.memmem (UInt32.ofInt cnt) s, found⟩ :: rest
  hands : ∀ e ∈ events, Hands cnt e

theorem Handed.sound {events : List Call} (hhanded : Handed cnt events) :
    ∀ e ∈ events, Sound h e := by
  intro e he
  have hhands := hhanded.hands e he
  obtain ⟨op, r⟩ := e
  cases op with
  | usartRead => exact hhands.elim
  | _ => trivial

theorem Handed.inside_iff {events : List Call} (hhanded : Handed cnt events)
    (hsize : size < 65536) (hleast : cmdBufSize ≤ size) (hlow : -1 ≤ cnt) (hhigh : cnt ≤ size) :
    (∀ e ∈ events, Inside size e) ↔ 0 ≤ cnt := by
  constructor
  · intro hinside
    obtain ⟨s, found, rest, rfl⟩ := hhanded.first
    have hlen : (UInt32.ofInt cnt).toNat ≤ size := (hinside _ List.mem_cons_self).1
    rw [UInt32.ofInt, UInt32.toNat_ofNat'] at hlen
    omega
  · intro hcnt e he
    have hhands := hhanded.hands e he
    obtain ⟨op, r⟩ := e
    cases op with
    | usartRead => exact hhands.elim
    | memmem lLen s =>
      obtain ⟨rfl, hword⟩ : lLen = UInt32.ofInt cnt ∧ s.length ≤ cmdBufSize := hhands
      have hint := ofInt_toNat hcnt (by omega)
      have hlen : (UInt32.ofInt cnt).toNat ≤ size := by omega
      exact ⟨hlen, hword.trans hleast⟩
    | msgPush msgSize =>
      obtain rfl : msgSize = UInt16.ofInt cnt := hhands
      change (UInt16.ofInt cnt).toNat ≤ size
      rw [UInt16.ofInt, UInt16.toNat_ofNat']
      omega
    | _ => trivial

end Handed

section Runs

variable (h : Handles) (size : ℕ)

/-- Under answers that usart_read can give, the calls stay inside the buffer
exactly where they are sound. -/
def InsideIff (events : List Call) : Prop :=
  (∀ e ∈ events, Answers h e) →
    ((∀ e ∈ events, Inside size e) ↔ ∀ e ∈ events, Sound h e)

instance : Closed (InsideIff h size) where
  nil := by simp [InsideIff]
  append xs ys hx hy := by
    intro hanswers
    simp only [List.forall_mem_append] at hanswers ⊢
    rw [hx hanswers.1, hy hanswers.2]

variable {h size}

/-- A turn: the two reads, and unless they sum to zero what is done with the sum. -/
theorem turn_insideIff {α : Type} {timeout : ℕ} (hsize : size < 65536)
    (hleast : cmdBufSize ≤ size) {f : ℤ → Reads α}
    (hzero : Always (f 0) (InsideIff h size))
    (hf : ∀ cnt events a, cnt ≠ 0 → Runs (f cnt) events a →
      ∃ first rest, events = first ++ rest ∧ Handed cnt first ∧ InsideIff h size rest) :
    Always (readBoth size timeout >>= f) (InsideIff h size) := by
  intro events a hrun
  obtain ⟨reads, more, cnt, rfl, hboth, hmore⟩ := (runs_bind _ f events a).mp hrun
  obtain ⟨r, r', rfl, rfl⟩ := readBoth_runs hboth
  intro hanswers
  rw [List.forall_mem_append] at hanswers
  obtain ⟨hslices, hsum⟩ := bothReads_inside hsize hanswers.1
  have hsound : (∀ e ∈ bothReads size timeout r r', Sound h e) ↔
      h.user = true ∧ (h.rs485 = true ∨ r ≠ 0) := by
    simp [bothReads, Sound]
  simp only [List.forall_mem_append, hslices, hsound]
  by_cases hcnt : r + r' = 0
  · rw [hcnt] at hmore hsum
    rw [hzero more a hmore hanswers.2]
    constructor
    · exact fun hin => ⟨⟨hin.1, (hsum hin.1).2.2.mp (Int.le_refl 0)⟩, hin.2⟩
    · exact fun hin => ⟨hin.1.1, hin.2⟩
  · obtain ⟨first, rest, rfl, hhanded, hrest⟩ := hf _ more a hcnt hmore
    have hafter := hrest fun e he => hanswers.2 e (List.mem_append_right first he)
    simp only [List.forall_mem_append, hafter]
    constructor
    · intro hin
      obtain ⟨huser, hfirst, hrestSound⟩ := hin
      obtain ⟨hlow, hhigh, hiff⟩ := hsum huser
      have hcnt := (hhanded.inside_iff hsize hleast hlow hhigh).mp hfirst
      exact ⟨⟨huser, hiff.mp hcnt⟩, hhanded.sound, hrestSound⟩
    · intro hin
      obtain ⟨⟨huser, hor⟩, _, hrestSound⟩ := hin
      obtain ⟨hlow, hhigh, hiff⟩ := hsum huser
      exact ⟨huser, (hhanded.inside_iff hsize hleast hlow hhigh).mpr (hiff.mpr hor), hrestSound⟩

theorem startMode_insideIff (n : ℕ) : Always (startMode n) (InsideIff h 512) := by
  induction n with
  | zero => exact always_pure none
  | succ n ih =>
    refine turn_insideIff (by decide) (by decide) ih fun cnt events mode hcnt hrun => ?_
    rw [if_neg hcnt] at hrun
    obtain ⟨first, rest, mode, rfl, hselect, hrest⟩ := (runs_bind _ _ events _).mp hrun
    obtain ⟨rfl, _⟩ := (runs_pure _ _ rest).mp hrest
    obtain ⟨found, more, heq, _⟩ := (runs_perform_bind (Op.memmem _ _) _ first mode).mp hselect
    exact ⟨first, [], rfl, ⟨⟨_, found, more, heq⟩, selectMode_hands first mode hselect⟩,
      Closed.nil⟩

theorem ghConfig_insideIff (n : ℕ) : Always (ghConfig n) (InsideIff h 128) := by
  induction n with
  | zero => exact always_pure ()
  | succ n ih =>
    refine turn_insideIff (by decide) (by decide) (always_bind (always_pure ()) fun _ => ih)
      fun cnt events _ hcnt hrun => ?_
    rw [if_neg hcnt] at hrun
    obtain ⟨first, rest, _, rfl, hturn, hrest⟩ := (runs_bind _ _ events _).mp hrun
    obtain ⟨found, more, heq, _⟩ := (runs_perform_bind (Op.memmem _ _) _ first _).mp hturn
    exact ⟨first, rest, rfl, ⟨⟨_, found, more, heq⟩, configTurn_hands first _ hturn⟩,
      ih rest _ hrest⟩

end Runs

/-- The reads stay inside their buffers exactly when USERCOM is open at each
turn, and USERCOM485 is open or the read of USERCOM before it found bytes. -/
theorem reads_inside_iff (h : Handles) :
    (∀ n events mode, Runs (startMode n) events mode → (∀ e ∈ events, Answers h e) →
      ((∀ e ∈ events, Inside 512 e) ↔ ∀ e ∈ events, Sound h e)) ∧
    (∀ n events, Runs (ghConfig n) events () → (∀ e ∈ events, Answers h e) →
      ((∀ e ∈ events, Inside 128 e) ↔ ∀ e ∈ events, Sound h e)) :=
  ⟨fun n events mode hrun => startMode_insideIff n events mode hrun,
    fun n events hrun => ghConfig_insideIff n events () hrun⟩

/-- start_mode with `r` and `r'` bytes and neither mode word among them. -/
def transparentCalls (r r' : ℤ) : List Call :=
  bothReads 512 100 r r' ++ [⟨.memmem (UInt32.ofInt (r + r')) ATDEBUG, none⟩,
    ⟨.memmem (UInt32.ofInt (r + r')) GEMHOCFG, none⟩, ⟨.msgPush (UInt16.ofInt (r + r')), ()⟩,
    ⟨.midLightAction, ()⟩]

theorem reads_inside_open : ∀ e ∈ transparentCalls 3 0, Inside 512 e := by
  have hrun : Runs (startMode 1) (transparentCalls 3 0) (some .lucTrans) :=
    .call (.call (.call (.call (.call (.call (.ret _))))))
  refine ((reads_inside_iff ⟨true, true⟩).1 1 _ _ hrun ?_).mpr ?_
  · simp [transparentCalls, bothReads, Answers, Handles.opened]
  · simp [transparentCalls, bothReads, Sound]

/-- ghConfig with `r` and `r'` bytes and no line end among them, in a full buffer. -/
def fullCalls (r r' : ℤ) : List Call :=
  bothReads 128 10 r r' ++ [⟨.memmem (UInt32.ofInt (r + r')) ENDFLAG, none⟩,
    ⟨.ucallWrite ERRORSTR, ()⟩]

/-- USERCOM not opened: the second read starts in front of the buffer. USERCOM485
not opened and no bytes: memmem gets a length of 2^32 - 1. -/
theorem reads_outside :
    (Runs (startMode 1) (transparentCalls (-1) 20) (some .lucTrans) ∧
      (∀ e ∈ transparentCalls (-1) 20, Answers ⟨false, true⟩ e) ∧
      ¬ ∀ e ∈ transparentCalls (-1) 20, Inside 512 e) ∧
    Runs (ghConfig 1) (fullCalls 0 (-1)) () ∧
      (∀ e ∈ fullCalls 0 (-1), Answers ⟨true, false⟩ e) ∧
      ¬ ∀ e ∈ fullCalls 0 (-1), Inside 128 e := by
  refine ⟨⟨?_, ?_, fun h => ?_⟩, ?_, ?_, fun h => ?_⟩
  · exact .call (.call (.call (.call (.call (.call (.ret _))))))
  · simp [transparentCalls, bothReads, Answers, Handles.opened]
  · have hoffset := (h _ (List.mem_cons_of_mem _ List.mem_cons_self)).1
    exact absurd hoffset (by decide)
  · exact .call (.call (.call (.call (.ret _))))
  · simp [fullCalls, bothReads, Answers, Handles.opened]
  · have hlen : (UInt32.ofInt (0 + -1)).toNat ≤ 128 :=
      (h ⟨.memmem (UInt32.ofInt (0 + -1)) ENDFLAG, none⟩ (by simp [fullCalls])).1
    exact absurd hlen (by decide)

end GemhoNbiot.PortReads
