import GemhoNbiot.Pipeline
import GemhoNbiot.ReplyAttempts

/-!
thread_msgSend as a program of single operations: every piece it writes, every
read, every look at the clock is a step of its own, and the loop of main_entry,
the pushes of other threads and the replies of the module come between any two of
them. A send or a check that is under way has no effect on the FIFO, so each run
is matched by one in which it is a single step, taken when it ends. The function
rt_tick_from_millisecond of the kernel is a parameter.
-/
namespace GemhoNbiot.SendThread

open Dataqueue MsgFifo FifoCreation FifoRefinement BurstDelivery
open ConfigUtils Program Bc95Driver ReplyChannel ReplyAttempts Pipeline
open MsgSend (Phase sendMessage)
open TransparentMode (PortId)

inductive Op
  | bc95 (op : Bc95Driver.Op)
  | msgPop (ticks : ℕ)
  | setDevicStatus (status : DeviceStatus)
  | threadDelay (ticks : ℕ)
  | midLightAction (interval times stop : ℕ)

/-- msg_pop returns its code and what it has stored in msgData. -/
abbrev Op.Res : Op → Type
  | .bc95 op => op.Res
  | .msgPop _ => ℤ × List UInt8
  | _ => Unit

abbrev Sender := Prog Op Op.Res

def msgPop (ticks : ℕ) : Sender (ℤ × List UInt8) := Prog.perform (Op.msgPop ticks)
def setDevicStatus (status : DeviceStatus) : Sender Unit := Prog.perform (Op.setDevicStatus status)
def threadDelay (ticks : ℕ) : Sender Unit := Prog.perform (Op.threadDelay ticks)
def midLightAction (interval times stop : ℕ) : Sender Unit :=
  Prog.perform (Op.midLightAction interval times stop)

/-- The functions of the driver, called by the thread. -/
def driver {α : Type} : Bc95 α → Sender α
  | .ret a => .ret a
  | .call op next => .call (.bc95 op) fun r => driver (next r)
  | .hang => .hang

/-- What the kernel documents of rt_tick_from_millisecond: with RT_TICK_PER_SECOND at
1000 a tick is a millisecond, as long as the product and what rounds it up fit an int. -/
def TicksOfMilliseconds (fromMillisecond : ℕ → ℕ) : Prop :=
  ∀ ms, 1000 * ms + 999 < 2 ^ 31 → fromMillisecond ms = ms

/-- The inner loop of thread_msgSend, which ends when a send returns 0. -/
def deliver (fromMillisecond : ℕ → ℕ) (fuel : ℕ) (config : NbModuConfig) (msg : List UInt8) :
    ℕ → UInt32 → ModuleInfo → Sender ModuleInfo
  | 0, _, _ => .hang
  | n + 1, failTimes, info => do
    let ret ← driver (sendMessage fuel config info.imei msg)
    if ret ≠ 0 then
      let failTimes := failTimes + 1
      let (status, info) ←
        driver (statusManage fuel config 3 (fromMillisecond (1 * 1000)) 60000 info)
      setDevicStatus status
      if status ≠ .deviceOK then
        let failTimes := if failTimes ≥ 7 then 7 else failTimes
        threadDelay (fromMillisecond (2 ^ failTimes.toNat * 60 * 1000))
        deliver fromMillisecond fuel config msg n failTimes info
      else
        deliver fromMillisecond fuel config msg n failTimes info
    else
      midLightAction 50 8 300
      pure info

/-- One turn of the outer loop; `last` is uLastCheckTime. -/
def turn (fromMillisecond : ℕ → ℕ) (fuel : ℕ) (config : NbModuConfig) (last : UInt64)
    (info : ModuleInfo) : Sender (UInt64 × ModuleInfo) := do
  let (ret, msg) ← msgPop (fromMillisecond (1 * 1000))
  if ret = 0 then
    if msg.length > 0 then
      let info ← deliver fromMillisecond fuel config msg fuel 0 info
      pure (last, info)
    else
      pure (last, info)
  else if ret = -RT_ETIMEOUT then
    let t ← driver getTimestamp
    if t - last ≥ 3600000 then
      let (status, info) ←
        driver (statusManage fuel config 3 (fromMillisecond (1 * 1000)) 120000 info)
      setDevicStatus status
      let last ← driver getTimestamp
      pure (last, info)
    else
      pure (last, info)
  else
    pure (last, info)

/-- `rest` is what the thread has still to do in this turn, `popped` are the
messages it has taken out of the FIFO. -/
structure State where
  front : TransparentMode.State
  fifo : Fifo
  channel : Channel
  pushed : List (List UInt8)
  dropped : ℕ
  popped : List (List UInt8)
  status : DeviceStatus
  rest : Sender (UInt64 × ModuleInfo)

def State.push (s : State) (d : Message) : State :=
  { s with
    fifo := after s.fifo (.push d)
    pushed := s.pushed ++ [d.val]
    dropped := if HasRoom s.fifo (.push d) then s.dropped else s.dropped + 1 }

/-- One operation of thread_msgSend. After its last one the turn begins again. -/
def Operate (fromMillisecond : ℕ → ℕ) (config : NbModuConfig) (s s' : State) : Prop :=
  match s.rest with
  | .ret r => ∃ fuel, s' = { s with rest := turn fromMillisecond fuel config r.1 r.2 }
  | .call (.bc95 op) next =>
    ∃ r c, Act s.channel ⟨op, r⟩ c ∧ s' = { s with channel := c, rest := next r }
  | .call (.msgPop ticks) next =>
    (∃ out f, IndexSafe s.fifo (.pop ticks) ∧
      MsgFifo.msgPop s.fifo ticks = some (0, some out, f) ∧ s' = { s with
        fifo := f
        popped := s.popped ++ [out.msgData]
        rest := next (0, out.msgData) }) ∨
      ∃ ret, ret ≠ 0 ∧ s' = { s with rest := next (ret, []) }
  | .call (.setDevicStatus status) next => s' = { s with status, rest := next () }
  | .call (.threadDelay _) next => s' = { s with rest := next () }
  | .call (.midLightAction _ _ _) next => s' = { s with rest := next () }
  | .hang => False

/-- A step of the loop of main_entry, a push of another thread, time that passes,
or an operation of thread_msgSend. -/
inductive Step (fromMillisecond : ℕ → ℕ) (config : NbModuConfig) (s : State) : State → Prop
  | loop {e : Option TransparentMode.Event} {t : TransparentMode.State} :
      TransparentMode.Step s.front e t → t.pushed = s.front.pushed →
      Step fromMillisecond config s { s with front := t }
  | read {e : Option TransparentMode.Event} {t : TransparentMode.State} {d : Message} :
      TransparentMode.Step s.front e t → t.pushed = s.front.pushed ++ [d.val] →
      IndexSafe s.fifo (.push d) → Step fromMillisecond config s { s.push d with front := t }
  | push (d : Message) : d.val ≠ [] → IndexSafe s.fifo (.push d) →
      Step fromMillisecond config s (s.push d)
  | time {c : Channel} : Reads s.channel [] c →
      Step fromMillisecond config s { s with channel := c }
  | operate {s' : State} : Operate fromMillisecond config s s' → Step fromMillisecond config s s'

/-- l_IMEI and the static buffer of get_IMEI have the sizes of their arrays. -/
structure Sized (info : ModuleInfo) : Prop where
  imei : info.imei.length = 15
  buf : info.imeiBuf.length ≤ bufSize

/-- The thread starts after config_bc95, at the time `last`. -/
inductive Reach (fromMillisecond : ℕ → ℕ) (fifoSize : UInt16) (config : NbModuConfig) :
    State → Prop
  | start {rings : PortId → List UInt8} {f : Fifo} {info : ModuleInfo}
      {events : List Bc95Driver.Call} {r : ℤ × ModuleInfo} {c : Channel} {fuel : ℕ}
      {last : UInt64} {status : DeviceStatus} :
      Created f 490 fifoSize → Sized info → Runs (configBc95 config info) events r →
      Chain Act Channel.start events c →
      Reach fromMillisecond fifoSize config ⟨TransparentMode.start rings, f, c, [], 0, [], status,
        turn fromMillisecond fuel config last r.2⟩
  | step {s s' : State} : Reach fromMillisecond fifoSize config s →
      Step fromMillisecond config s s' → Reach fromMillisecond fifoSize config s'

section Info

/-- A read stores no more bytes than it was asked for. -/
def Within : Bc95Driver.Call → Prop
  | ⟨.usartRead len _, bs⟩ => bs.length ≤ len
  | _ => True

theorem chain_within {c c' : Channel} {events : List Bc95Driver.Call}
    (h : Chain Act c events c') : ∀ e ∈ events, Within e := by
  induction h with
  | nil => exact fun e he => absurd he List.not_mem_nil
  | cons hact _ ih =>
    rw [List.forall_mem_cons]
    refine ⟨?_, ih⟩
    cases hact with
    | read len timeout hlen _ => exact hlen
    | _ => trivial

def Returns {α : Type} (p : Bc95 α) (Q : α → Prop) : Prop :=
  ∀ events a, Runs p events a → (∀ e ∈ events, Within e) → Q a

variable {α β : Type} {Q : α → Prop} {R : β → Prop}

theorem returns_pure {a : α} (h : Q a) : Returns (pure a) Q := by
  intro events b hrun _
  rw [((runs_pure a b events).mp hrun).2]
  exact h

theorem returns_any (p : Bc95 α) : Returns p fun _ => True := fun _ _ _ _ => trivial

theorem returns_bind {p : Bc95 β} {f : β → Bc95 α} (hp : Returns p R)
    (hf : ∀ b, R b → Returns (f b) Q) : Returns (p >>= f) Q := by
  intro events a hrun hwithin
  obtain ⟨first, rest, b, rfl, hfirst, hrest⟩ := (runs_bind p f events a).mp hrun
  rw [List.forall_mem_append] at hwithin
  exact hf b (hp first b hfirst hwithin.1) rest a hrest hwithin.2

theorem returns_ite {c : Prop} [Decidable c] {p q : Bc95 α} (hp : c → Returns p Q)
    (hq : ¬ c → Returns q Q) : Returns (if c then p else q) Q := by
  by_cases hc : c
  · rw [if_pos hc]
    exact hp hc
  · rw [if_neg hc]
    exact hq hc

/-- A hit is an IMEI of 15 bytes. -/
theorem hit_length {buf bs : List UInt8} {h : Hit} (hbuf : buf.length ≤ bufSize)
    (hbs : bs.length ≤ bufSize) (htest : tested IMEIRTN (· = 15) buf bs = some h) :
    ((h.buf.drop (h.pStart + IMEIRTN.length)).take 15).length = 15 := by
  have hmem : h ∈ hits IMEIRTN (· = 15) buf [bs] := by simp [hits, htest]
  have hlen := hits_length hbuf (by simpa using hbs) hmem
  have hlayout := (tested_passed htest).2.layout (by decide) hlen fun g hg => by
    rw [of_decide_eq_true hg]
    decide
  have hle := hlayout.le_end
  have hend := hlayout.end_le
  have htext := hlayout.text_length
  have hfits : UInt32.ofNat (h.text IMEIRTN).length = 15 := of_decide_eq_true hlayout.fits_text
  have hfifteen := congrArg UInt32.toNat hfits
  rw [UInt32.toNat_ofNat'] at hfifteen
  change _ % 4294967296 = 15 at hfifteen
  rw [List.length_take, List.length_drop]
  simp only [bufSize] at hlen
  omega

theorem returns_imeiTurns (n : ℕ) (buf imei : List UInt8) (ret : ℤ) (hbuf : buf.length ≤ bufSize)
    (himei : imei.length = 15) :
    Returns (imeiTurns n buf imei ret) fun r => r.2.1.length = 15 ∧ r.2.2.length ≤ bufSize := by
  induction n generalizing buf imei ret with
  | zero => exact returns_pure ⟨himei, hbuf⟩
  | succ n ih =>
    intro events r hrun hwithin
    rw [imeiTurns_succ] at hrun
    obtain ⟨_, more, rfl, hread⟩ :=
      (runs_perform_bind (Bc95Driver.Op.usartWrite IMEIGET) _ _ _).mp hrun
    obtain ⟨bs, rest, rfl, hrest⟩ :=
      (runs_perform_bind (Bc95Driver.Op.usartRead bufSize 100) _ _ _).mp hread
    rw [List.forall_mem_cons, List.forall_mem_cons] at hwithin
    obtain ⟨_, hbs, hwithin⟩ := hwithin
    have hover := overlay_length hbuf hbs
    cases htest : tested IMEIRTN (· = 15) buf bs with
    | some h =>
      rw [htest] at hrest
      exact ih _ _ _ hover (hit_length hbuf hbs htest) rest r hrest hwithin
    | none =>
      rw [htest] at hrest
      exact ih _ _ _ hover himei rest r hrest hwithin

theorem returns_configBc95 (config : NbModuConfig) {info : ModuleInfo} (h : Sized info) :
    Returns (configBc95 config info) fun r => Sized r.2 := by
  refine returns_bind (returns_any _) fun _ _ => ?_
  refine returns_bind (returns_any _) fun _ _ => ?_
  refine returns_bind (returns_any _) fun _ _ => ?_
  refine returns_bind (returns_any _) fun _ _ => ?_
  refine returns_bind (returns_any _) fun _ _ => ?_
  refine returns_bind (returns_any _) fun _ _ => ?_
  refine returns_bind (returns_imeiTurns 3 _ _ _ h.buf h.imei) fun ⟨_, imei, imeiBuf⟩ hinfo => ?_
  refine returns_bind (returns_any _) fun ⟨_, nband⟩ _ => ?_
  have hsized : Sized ⟨imei, nband, imeiBuf⟩ := ⟨hinfo.1, hinfo.2⟩
  refine returns_ite (fun _ => ?_) fun _ => returns_bind (returns_any _) fun _ _ =>
    returns_pure hsized
  refine returns_bind (returns_any _) fun ret _ => ?_
  refine returns_ite (fun _ => ?_) fun _ => returns_pure hsized
  exact returns_ite (fun _ => returns_bind (returns_any _) fun _ _ => returns_pure hsized)
    fun _ => returns_bind (returns_any _) fun _ _ => returns_pure hsized

theorem returns_statusManage (fuel : ℕ) (config : NbModuConfig) (loops interval : ℕ)
    (timeout : UInt64) {info : ModuleInfo} (h : Sized info) :
    Returns (statusManage fuel config loops interval timeout info) fun r => Sized r.2 := by
  have hturns : ∀ n status reConfig info, Sized info →
      Returns (statusTurns fuel config interval timeout n status reConfig info)
        fun r => Sized r.2 := by
    intro n
    induction n with
    | zero => exact fun status reConfig info h => returns_pure h
    | succ n ih =>
      intro status reConfig info h
      have hconfig : Returns (if reConfig then configBc95 config info
          else (pure (0, info) : Bc95 (ℤ × ModuleInfo))) fun r => Sized r.2 :=
        returns_ite (fun _ => returns_configBc95 config h) fun _ => returns_pure h
      refine returns_bind hconfig fun ⟨ret, info⟩ h => ?_
      refine returns_ite (fun _ => returns_pure h) fun _ => ?_
      refine returns_bind (returns_any _) fun ⟨ret, cgatt⟩ _ => ?_
      refine returns_ite (fun _ => ih _ _ _ h) fun _ => ?_
      refine returns_ite (fun _ => returns_pure h) fun _ => ?_
      refine returns_bind (returns_any _) fun last _ => ?_
      refine returns_bind (returns_any _) fun _ _ => ?_
      exact returns_bind (returns_any _) fun _ _ => ih _ _ _ h
  exact hturns loops .deviceOK false info h

end Info

section Simulation

/-- `q` is what is left of `p` after these calls. -/
def Residual {α : Type} (p : Bc95 α) (events : List Bc95Driver.Call) (q : Bc95 α) : Prop :=
  ∀ rest a, Runs q rest a → Runs p (events ++ rest) a

theorem Residual.refl {α : Type} (p : Bc95 α) : Residual p [] p := fun _ _ h => h

theorem Residual.call {α : Type} {p : Bc95 α} {events : List Bc95Driver.Call}
    {op : Bc95Driver.Op} {next : op.Res → Bc95 α} (h : Residual p events (.call op next))
    (r : op.Res) : Residual p (events ++ [⟨op, r⟩]) (next r) := by
  intro rest a hrun
  rw [List.append_assoc]
  exact h _ a (.call hrun)

theorem Residual.runs {α : Type} {p : Bc95 α} {events : List Bc95Driver.Call} {a : α}
    (h : Residual p events (.ret a)) : Runs p events a := by
  have hrun := h [] a (.ret a)
  rwa [List.append_nil] at hrun

/-- The operations that only take time. -/
def Idle : Bc95Driver.Op → Prop
  | .getTimestamp => True
  | .threadDelay _ => True
  | _ => False

/-- Where the thread is in the terms of the coarse steps: the phase, the calls of
the send or check under way, and the program it goes on with. -/
inductive At (config : NbModuConfig) :
    Phase → List Bc95Driver.Call → Sender (UInt64 × ModuleInfo) → Prop
  | ret {last : UInt64} {info : ModuleInfo} : Sized info →
      At config .popping [] (.ret (last, info))
  | hang {phase : Phase} {events : List Bc95Driver.Call} : At config phase events .hang
  | pop {ticks : ℕ} {next : ℤ × List UInt8 → Sender (UInt64 × ModuleInfo)} :
      (∀ ret, ret ≠ 0 → At config .popping [] (next (ret, []))) →
      (∀ msg, msg ≠ [] → At config (.sending msg) [] (next (0, msg))) →
      At config .popping [] (.call (.msgPop ticks) next)
  | setStatus {phase : Phase} {status : DeviceStatus}
      {next : Unit → Sender (UInt64 × ModuleInfo)} :
      At config phase [] (next ()) → At config phase [] (.call (.setDevicStatus status) next)
  | delay {phase : Phase} {ticks : ℕ} {next : Unit → Sender (UInt64 × ModuleInfo)} :
      At config phase [] (next ()) → At config phase [] (.call (.threadDelay ticks) next)
  | midLight {phase : Phase} {interval times stop : ℕ}
      {next : Unit → Sender (UInt64 × ModuleInfo)} :
      At config phase [] (next ()) →
      At config phase [] (.call (.midLightAction interval times stop) next)
  | idle {phase : Phase} {op : Bc95Driver.Op} {next : op.Res → Sender (UInt64 × ModuleInfo)} :
      Idle op → (∀ r, At config phase [] (next r)) → At config phase [] (.call (.bc95 op) next)
  | send {msg imei : List UInt8} {fuel : ℕ} {events : List Bc95Driver.Call} {q : Bc95 ℤ}
      {next : ℤ → Sender (UInt64 × ModuleInfo)} : imei.length = 15 →
      Residual (sendMessage fuel config imei msg) events q →
      (∀ ret, ret = 0 → At config .popping [] (next ret)) →
      (∀ ret, ret ≠ 0 → At config (.recovering msg) [] (next ret)) →
      At config (.sending msg) events (driver q >>= next)
  | recover {msg : List UInt8} {fuel : ℕ} {info : ModuleInfo} {events : List Bc95Driver.Call}
      {q : Bc95 (DeviceStatus × ModuleInfo)}
      {next : DeviceStatus × ModuleInfo → Sender (UInt64 × ModuleInfo)} : Sized info →
      Residual (statusManage fuel config 3 1000 60000 info) events q →
      (∀ r, Sized r.2 → At config (.sending msg) [] (next r)) →
      At config (.recovering msg) events (driver q >>= next)
  | check {fuel : ℕ} {info : ModuleInfo} {events : List Bc95Driver.Call}
      {q : Bc95 (DeviceStatus × ModuleInfo)}
      {next : DeviceStatus × ModuleInfo → Sender (UInt64 × ModuleInfo)} : Sized info →
      Residual (statusManage fuel config 3 1000 120000 info) events q →
      (∀ r, Sized r.2 → At config .popping [] (next r)) →
      At config .popping events (driver q >>= next)

variable {fromMillisecond : ℕ → ℕ} {config : NbModuConfig}

theorem bind_assoc {α β γ : Type} (p : Sender α) (f : α → Sender β) (g : β → Sender γ) :
    (p >>= f) >>= g = p >>= fun a => f a >>= g := by
  change (p.bind f).bind g = p.bind fun a => (f a).bind g
  induction p with
  | ret a => rfl
  | call op next ih => exact congrArg (Prog.call op) (funext ih)
  | hang => rfl

/-- The inner loop, up to what follows it. -/
theorem at_deliver (hms : TicksOfMilliseconds fromMillisecond) (fuel : ℕ) (msg : List UInt8)
    (n : ℕ) (failTimes : UInt32)
    {info : ModuleInfo} (h : Sized info) {next : ModuleInfo → Sender (UInt64 × ModuleInfo)}
    (hnext : ∀ info, Sized info → At config .popping [] (next info)) :
    At config (.sending msg) []
      (deliver fromMillisecond fuel config msg n failTimes info >>= next) := by
  have hsecond : fromMillisecond (1 * 1000) = 1000 := hms 1000 (by decide)
  induction n generalizing failTimes info with
  | zero => exact .hang
  | succ n ih =>
    rw [deliver, bind_assoc, hsecond]
    refine .send h.imei (Residual.refl _) (fun ret hret => ?_) fun ret hret => ?_
    · rw [if_neg (by simpa using hret)]
      exact .midLight (hnext info h)
    · rw [if_pos hret, bind_assoc]
      refine .recover h (Residual.refl _) fun ⟨status, info'⟩ h' => ?_
      refine .setStatus ?_
      change At config _ [] ((if status ≠ .deviceOK then _ else _) >>= next)
      by_cases hstatus : status ≠ .deviceOK
      · rw [if_pos hstatus]
        exact .delay (ih _ h')
      · rw [if_neg hstatus]
        exact ih _ h'

theorem at_turn (hms : TicksOfMilliseconds fromMillisecond) (fuel : ℕ) (last : UInt64)
    {info : ModuleInfo} (h : Sized info) :
    At config .popping [] (turn fromMillisecond fuel config last info) := by
  have hsecond : fromMillisecond (1 * 1000) = 1000 := hms 1000 (by decide)
  rw [turn, hsecond]
  refine .pop (fun ret hret => ?_) fun msg hmsg => ?_
  · change At config _ [] (if ret = 0 then _ else _)
    rw [if_neg hret]
    by_cases htimeout : ret = -RT_ETIMEOUT
    · rw [if_pos htimeout]
      refine .idle trivial fun t => ?_
      change At config _ [] (if t - last ≥ 3600000 then _ else _)
      by_cases hhour : t - last ≥ 3600000
      · rw [if_pos hhour]
        refine .check h (Residual.refl _) fun ⟨status, info'⟩ h' => ?_
        exact .setStatus (.idle trivial fun _ => .ret h')
      · rw [if_neg hhour]
        exact .ret h
    · rw [if_neg htimeout]
      exact .ret h
  · change At config _ [] (if msg.length > 0 then _ else _)
    rw [if_pos (List.length_pos_iff.mpr hmsg)]
    exact at_deliver hms fuel msg fuel 0 h fun info' h' => .ret h'

variable {fifoSize : UInt16} {s s' : State} {S : System}

/-- The two levels agree on all that is not under way. -/
structure Agree (s : State) (S : System) : Prop where
  front : S.front = s.front
  fifo : S.fifo = s.fifo
  pushed : S.pushed = s.pushed
  dropped : S.dropped = s.dropped
  popped : S.delivered ++ pending S.phase = s.popped

/-- The coarse state is at most one send or check behind, and time. -/
structure Related (config : NbModuConfig) (s : State) (S : System) : Prop where
  agree : Agree s S
  behind : ∃ events c, Chain Act S.channel events c ∧ Reads c [] s.channel ∧
    At config S.phase events s.rest

theorem Agree.move (h : Agree s S) (hfront : s'.front = s.front) (hfifo : s'.fifo = s.fifo)
    (hpushed : s'.pushed = s.pushed) (hdropped : s'.dropped = s.dropped)
    (hpopped : s'.popped = s.popped) : Agree s' S where
  front := h.front.trans hfront.symm
  fifo := h.fifo.trans hfifo.symm
  pushed := h.pushed.trans hpushed.symm
  dropped := h.dropped.trans hdropped.symm
  popped := h.popped.trans hpopped.symm

theorem reads_trans {c c' c'' : Channel} {bs : List UInt8} (h : Reads c [] c')
    (h' : Reads c' bs c'') : Reads c bs c'' := by
  generalize hnone : ([] : List UInt8) = taken at h
  induction h with
  | nil => exact h'
  | step hm _ ih => exact .step hm (ih h' hnone)
  | byte _ _ _ => exact absurd hnone.symm (List.cons_ne_nil _ _)

/-- Time that has passed belongs to the operation that follows. -/
theorem act_after_time {c c' c'' : Channel} {e : Bc95Driver.Call} (h : Reads c [] c')
    (hact : Act c' e c'') : Act c e c'' := by
  cases hact with
  | write bs hreads => exact .write bs (reads_trans h hreads)
  | read len timeout hlen hreads => exact .read len timeout hlen (reads_trans h hreads)
  | getTimestamp t hreads => exact .getTimestamp t (reads_trans h hreads)
  | threadDelay ticks hreads => exact .threadDelay ticks (reads_trans h hreads)
  | usartConfigure baudrate hreads => exact .usartConfigure baudrate (reads_trans h hreads)
  | resetPin level hreads => exact .resetPin level (reads_trans h hreads)
  | ucallWrite bs hreads => exact .ucallWrite bs (reads_trans h hreads)

theorem Idle.reads {op : Bc95Driver.Op} (h : Idle op) {r : op.Res} {c c' : Channel}
    (hact : Act c ⟨op, r⟩ c') : Reads c [] c' := by
  cases hact with
  | getTimestamp t hreads => exact hreads
  | threadDelay ticks hreads => exact hreads
  | _ => exact h.elim

theorem chain_snoc {c c' c'' : Channel} {events : List Bc95Driver.Call} {e : Bc95Driver.Call}
    (h : Chain Act c events c') (hact : Act c' e c'') : Chain Act c (events ++ [e]) c'' :=
  chain_append.mpr ⟨c', h, .cons hact (.nil c'')⟩

/-- A function of the driver that has not ended goes on with its next operation. -/
theorem driver_step {α : Type} {q : Bc95 α} {next : α → Sender (UInt64 × ModuleInfo)}
    (hq : ∀ a, q ≠ .ret a) (hrest : s.rest = driver q >>= next)
    (hstep : Operate fromMillisecond config s s') :
    ∃ (op : Bc95Driver.Op) (more : op.Res → Bc95 α) (r : op.Res) (c : Channel),
      q = .call op more ∧ Act s.channel ⟨op, r⟩ c ∧
        s' = { s with channel := c, rest := driver (more r) >>= next } := by
  rw [Operate, hrest] at hstep
  cases q with
  | ret a => exact absurd rfl (hq a)
  | hang => exact hstep.elim
  | call op more =>
    obtain ⟨r, c, hact, rfl⟩ := hstep
    exact ⟨op, more, r, c, rfl, hact, rfl⟩

/-- A step of the thread ends the send or check under way, or leaves the coarse
state as it is. -/
theorem At.operate {phase : Phase} {events : List Bc95Driver.Call}
    {rest : Sender (UInt64 × ModuleInfo)} (h : At config phase events rest)
    (hms : TicksOfMilliseconds fromMillisecond) (hfifo : 1 ≤ fifoSize.toNat) {c : Channel}
    (hreach : Pipeline.Reach fifoSize S)
    (hphase : S.phase = phase) (hrest : s.rest = rest) (hchain : Chain Act S.channel events c)
    (htime : Reads c [] s.channel) (hagree : Agree s S)
    (hstep : Operate fromMillisecond config s s') :
    ∃ S', Pipeline.Reach fifoSize S' ∧ Related config s' S' := by
  induction h generalizing S c with
  | @ret last info hinfo =>
    rw [Operate, hrest] at hstep
    obtain ⟨fuel, rfl⟩ := hstep
    exact ⟨S, hreach, hagree.move rfl rfl rfl rfl rfl, [], c, hchain, htime,
      hphase ▸ at_turn hms fuel last hinfo⟩
  | hang =>
    rw [Operate, hrest] at hstep
    exact hstep.elim
  | @pop ticks next hnone hsome =>
    rw [Operate, hrest] at hstep
    rcases hstep with ⟨out, f, hsafe, hpop, rfl⟩ | ⟨ret, hne, rfl⟩
    · rw [← hagree.fifo] at hsafe hpop
      obtain ⟨_, Q, haccount⟩ := hreach.account hfifo
      obtain ⟨hsize, hdata, _⟩ := haccount.pop hphase hsafe hpop
      have hpositive : 0 < out.msgSize := UInt16.pos_iff_ne_zero.mpr hsize
      have hpopped := hagree.popped
      rw [hphase] at hpopped
      refine ⟨_, hreach.step (.pop hphase hsafe hpop hpositive),
        ⟨hagree.front, rfl, hagree.pushed, hagree.dropped, ?_⟩, [], c, hchain, htime,
        hsome out.msgData hdata⟩
      rw [← hpopped]
      exact (List.append_assoc S.delivered [] [out.msgData]).symm
    · exact ⟨S, hreach, hagree.move rfl rfl rfl rfl rfl, [], c, hchain, htime,
        hphase ▸ hnone ret hne⟩
  | setStatus hnext =>
    rw [Operate, hrest] at hstep
    subst hstep
    exact ⟨S, hreach, hagree.move rfl rfl rfl rfl rfl, [], c, hchain, htime, hphase ▸ hnext⟩
  | delay hnext =>
    rw [Operate, hrest] at hstep
    subst hstep
    exact ⟨S, hreach, hagree.move rfl rfl rfl rfl rfl, [], c, hchain, htime, hphase ▸ hnext⟩
  | midLight hnext =>
    rw [Operate, hrest] at hstep
    subst hstep
    exact ⟨S, hreach, hagree.move rfl rfl rfl rfl rfl, [], c, hchain, htime, hphase ▸ hnext⟩
  | idle hidle hnext =>
    rw [Operate, hrest] at hstep
    obtain ⟨r, c', hact, rfl⟩ := hstep
    have htime' := reads_trans htime (hidle.reads hact)
    exact ⟨S, hreach, hagree.move rfl rfl rfl rfl rfl, [], c, hchain, htime',
      hphase ▸ hnext r⟩
  | @send msg imei fuel events q next himei hres hzero hfail ihzero ihfail =>
    by_cases hq : ∃ ret, q = .ret ret
    · obtain ⟨ret, rfl⟩ := hq
      have hpopped := hagree.popped
      rw [hphase] at hpopped
      by_cases hret : ret = 0
      · subst hret
        have hend := hreach.step (.deliver hphase himei hres.runs hchain)
        refine ihzero 0 rfl hend rfl hrest (.nil c) htime ⟨hagree.front, hagree.fifo,
          hagree.pushed, hagree.dropped, ?_⟩
        exact (List.append_nil _).trans hpopped
      · have hend := hreach.step (.fail hphase himei hres.runs hret hchain)
        exact ihfail ret hret hend rfl hrest (.nil c) htime ⟨hagree.front, hagree.fifo,
          hagree.pushed, hagree.dropped, hpopped⟩
    · obtain ⟨op, more, r, c', rfl, hact, rfl⟩ :=
        driver_step (fun ret heq => hq ⟨ret, heq⟩) hrest hstep
      exact ⟨S, hreach, hagree.move rfl rfl rfl rfl rfl, _, c',
        chain_snoc hchain (act_after_time htime hact), .nil c',
        hphase ▸ .send himei (hres.call r) hzero hfail⟩
  | @recover msg fuel info events q next hinfo hres hnext ih =>
    by_cases hq : ∃ r, q = .ret r
    · obtain ⟨r, rfl⟩ := hq
      have hpopped := hagree.popped
      rw [hphase] at hpopped
      have hsized := returns_statusManage fuel config 3 1000 60000 hinfo events r hres.runs
        (chain_within hchain)
      have hend := hreach.step (.recover hphase hres.runs hchain)
      exact ih r hsized hend rfl hrest (.nil c) htime ⟨hagree.front, hagree.fifo,
        hagree.pushed, hagree.dropped, hpopped⟩
    · obtain ⟨op, more, r, c', rfl, hact, rfl⟩ :=
        driver_step (fun ret heq => hq ⟨ret, heq⟩) hrest hstep
      exact ⟨S, hreach, hagree.move rfl rfl rfl rfl rfl, _, c',
        chain_snoc hchain (act_after_time htime hact), .nil c',
        hphase ▸ .recover hinfo (hres.call r) hnext⟩
  | @check fuel info events q next hinfo hres hnext ih =>
    by_cases hq : ∃ r, q = .ret r
    · obtain ⟨r, rfl⟩ := hq
      have hsized := returns_statusManage fuel config 3 1000 120000 hinfo events r hres.runs
        (chain_within hchain)
      have hend := hreach.step (.check hphase hres.runs hchain)
      exact ih r hsized hend hphase hrest (.nil c) htime ⟨hagree.front, hagree.fifo,
        hagree.pushed, hagree.dropped, hagree.popped⟩
    · obtain ⟨op, more, r, c', rfl, hact, rfl⟩ :=
        driver_step (fun ret heq => hq ⟨ret, heq⟩) hrest hstep
      exact ⟨S, hreach, hagree.move rfl rfl rfl rfl rfl, _, c',
        chain_snoc hchain (act_after_time htime hact), .nil c',
        hphase ▸ .check hinfo (hres.call r) hnext⟩

theorem Related.push (h : Related config s S) (d : Message) :
    Related config (s.push d) (S.push d) where
  agree := by
    have hagree := h.agree
    have hroom : HasRoom S.fifo (.push d) ↔ HasRoom s.fifo (.push d) := by rw [hagree.fifo]
    refine ⟨hagree.front, ?_, ?_, ?_, hagree.popped⟩
    · exact congrArg (fun f => after f (.push d)) hagree.fifo
    · exact congrArg (fun ms => ms ++ [d.val]) hagree.pushed
    · simp only [System.push, State.push, hroom, hagree.dropped]
  behind := h.behind

theorem Related.front (h : Related config s S) (t : TransparentMode.State) :
    Related config { s with front := t } { S with front := t } where
  agree := ⟨rfl, h.agree.fifo, h.agree.pushed, h.agree.dropped, h.agree.popped⟩
  behind := h.behind

theorem Related.step (h : Related config s S) (hms : TicksOfMilliseconds fromMillisecond)
    (hfifo : 1 ≤ fifoSize.toNat)
    (hreach : Pipeline.Reach fifoSize S) (hstep : Step fromMillisecond config s s') :
    ∃ S', Pipeline.Reach fifoSize S' ∧ Related config s' S' := by
  have hagree := h.agree
  cases hstep with
  | @loop e t hloop hpushed =>
    rw [← hagree.front] at hloop hpushed
    exact ⟨_, hreach.step (.loop hloop hpushed), h.front t⟩
  | @read e t d hloop hpushed hsafe =>
    rw [← hagree.front] at hloop hpushed
    rw [← hagree.fifo] at hsafe
    exact ⟨_, hreach.step (.read hloop hpushed hsafe), (h.push d).front t⟩
  | push d hd hsafe =>
    rw [← hagree.fifo] at hsafe
    exact ⟨_, hreach.step (.push d hd hsafe), h.push d⟩
  | time hreads =>
    obtain ⟨events, c, hchain, htime, hat⟩ := h.behind
    exact ⟨S, hreach, hagree.move rfl rfl rfl rfl rfl, events, c, hchain,
      reads_trans htime hreads, hat⟩
  | operate hoperate =>
    obtain ⟨events, c, hchain, htime, hat⟩ := h.behind
    exact hat.operate hms hfifo hreach rfl rfl hchain htime hagree hoperate

/-- Every run of the operations of thread_msgSend, with the loop, the pushes and the
replies between any two of them, is matched by a run in which each send and each
check is one step: the same messages are pushed, dropped, taken and queued, and
what the module has received differs by the operations of one send or check. -/
theorem operations_refine (hms : TicksOfMilliseconds fromMillisecond)
    (hfifo : 1 ≤ fifoSize.toNat) (h : Reach fromMillisecond fifoSize config s) :
    ∃ S, Pipeline.Reach fifoSize S ∧ S.front = s.front ∧ S.fifo = s.fifo ∧
      S.pushed = s.pushed ∧ S.dropped = s.dropped ∧ S.delivered ++ pending S.phase = s.popped ∧
      ∃ events c, Chain Act S.channel events c ∧ Reads c [] s.channel ∧
        At config S.phase events s.rest := by
  have hrelated : ∃ S, Pipeline.Reach fifoSize S ∧ Related config s S := by
    induction h with
    | @start rings f info events r c fuel last status hf hinfo hrun hchain =>
      have hsized := returns_configBc95 config hinfo events r hrun (chain_within hchain)
      exact ⟨_, .start hf hrun hchain, ⟨rfl, rfl, rfl, rfl, rfl⟩, [], c, .nil c, .nil c,
        at_turn hms fuel last hsized⟩
    | step _ hstep ih =>
      obtain ⟨S, hreach, hrelated⟩ := ih
      exact hrelated.step hms hfifo hreach hstep
  obtain ⟨S, hreach, hagree, hbehind⟩ := hrelated
  exact ⟨S, hreach, hagree.front, hagree.fifo, hagree.pushed, hagree.dropped, hagree.popped,
    hbehind⟩

/-- A function of the driver goes on to its end while the module hears it and answers. -/
theorem Reach.driver {α : Type} {p : Bc95 α} {events : List Bc95Driver.Call} {a : α}
    {next : α → Sender (UInt64 × ModuleInfo)} (hrun : Runs p events a)
    (h : Reach fromMillisecond fifoSize config s) (hrest : s.rest = driver p >>= next)
    {c : Channel} (hchain : Chain Act s.channel events c) :
    Reach fromMillisecond fifoSize config { s with channel := c, rest := next a } := by
  induction hrun generalizing s with
  | ret a =>
    obtain rfl := chain_nil.mp hchain
    have hsame : { s with rest := next a } = s := by
      change s.rest = next a at hrest
      rw [← hrest]
    rw [hsame]
    exact h
  | @call op more r events a hmore ih =>
    obtain ⟨c', hact, hchain⟩ := chain_cons.mp hchain
    have hnext : s.rest = .call (.bc95 op) fun r => driver (more r) >>= next := hrest
    have hstep : Operate fromMillisecond config s
        { s with channel := c', rest := driver (more r) >>= next } := by
      rw [Operate, hnext]
      exact ⟨r, c', hact, rfl⟩
    have hend := ih (h.step (.operate hstep)) rfl hchain
    exact hend

/-- The kernel's conversion at 1000 ticks a second. -/
def kernelTicks (ms : ℕ) : ℕ := (1000 * ms + 999) / 1000

theorem kernelTicks_eq : TicksOfMilliseconds kernelTicks := by
  intro ms _
  rw [kernelTicks]
  omega

theorem after_msgPop {f f' : Fifo} {timeout ret : ℤ} {out : Option Delivered}
    (h : MsgFifo.msgPop f timeout = some (ret, out, f')) : after f (.pop timeout) = f' := by
  simp only [after, h]

/-- Two messages are pushed. The first is taken, sent and acknowledged, a third one
comes in, and the second is taken. -/
theorem operations_refine_three :
    ∃ s, Reach kernelTicks 5 lDefaultNbMCFG s ∧ s.popped = [[7], [8]] ∧
      s.pushed = [[7], [8], [9]] ∧
      ∃ S, Pipeline.Reach 5 S ∧ S.front = s.front ∧ S.fifo = s.fifo ∧
      S.pushed = s.pushed ∧ S.dropped = s.dropped ∧ S.delivered ++ pending S.phase = s.popped ∧
      ∃ events c, Chain Act S.channel events c ∧ Reads c [] s.channel ∧
        At lDefaultNbMCFG S.phase events s.rest := by
  obtain ⟨events, r, c, hconfig, hchain, hline, hair, hfifo, hanswers⟩ := exists_configured
  have hcreated : Created (blankFifo 5) 490 5 := ⟨_, _, _, rfl⟩
  obtain ⟨units, hfresh⟩ := created_fresh hcreated (by decide)
  have hinfo : Sized bootInfo := ⟨rfl, by simp [bootInfo]⟩
  have hsafe : IndexSafeRun (blankFifo 5) [.push (byteMessage 7), .push (byteMessage 8), .pop 1000,
      .push (byteMessage 9), .pop 1000] := by decide +kernel
  generalize blankFifo 5 = f₀ at hcreated hfresh hsafe
  obtain ⟨hpush₁, hpush₂, hpop₁, hpush₃, hpop₂, _⟩ := hsafe
  obtain ⟨_, ⟨_, _, hsim⟩, _⟩ := (Simulates.start hfresh).push (byteMessage 7) hpush₁
  obtain ⟨_, ⟨_, _, hsim⟩, _⟩ := hsim.push (byteMessage 8) hpush₂
  obtain ⟨⟨data, size⟩, f, _, _, hpop, hdata, _, hsim⟩ := hsim.pop 1000 hpop₁
  obtain rfl : data = [7] := hdata
  have hafter : after (after (after f₀ (.push (byteMessage 7)))
      (.push (byteMessage 8))) (.pop 1000) = f := after_msgPop hpop
  rw [hafter] at hpush₃ hpop₂
  obtain ⟨_, ⟨_, _, hsim⟩, _⟩ := hsim.push (byteMessage 9) hpush₃
  obtain ⟨⟨data, size'⟩, f', _, _, hpop', hdata, _, _⟩ := hsim.pop 1000 hpop₂
  obtain rfl : data = [8] := hdata
  -- The thread is about to look into the FIFO when the two messages are pushed.
  let s : State := ⟨TransparentMode.start fun _ => [], f₀, c, [], 0, [], .deviceOK,
    turn kernelTicks 1 lDefaultNbMCFG 0 r.2⟩
  have hstart : Reach kernelTicks 5 lDefaultNbMCFG s := .start hcreated hinfo hconfig hchain
  have hready := (hstart.step (.push (byteMessage 7) (by decide) hpush₁)).step
    (.push (byteMessage 8) (by decide) hpush₂)
  have htaken := hready.step (.operate (Or.inl ⟨_, f, hpop₁, hpop, rfl⟩))
  obtain ⟨next, hnext, hend⟩ : ∃ next : ℤ → Sender (UInt64 × ModuleInfo),
      (deliver kernelTicks 1 lDefaultNbMCFG [7] 1 0 r.2 >>= fun info => pure ((0 : UInt64), info)) =
        driver (sendMessage 1 lDefaultNbMCFG r.2.imei [7]) >>= next ∧
      next 0 = .call (.midLightAction 50 8 300) fun _ => .ret (0, r.2) := by
    have hfirst : deliver kernelTicks 1 lDefaultNbMCFG [7] 1 0 r.2 =
      driver (sendMessage 1 lDefaultNbMCFG r.2.imei [7]) >>= _ := rfl
    exact ⟨_, by rw [hfirst, bind_assoc], rfl⟩
  have hsend : Runs (sendMessage 1 lDefaultNbMCFG r.2.imei [7])
      (MsgSend.attempt [7] ++ MsgSend.acknowledged 0) 0 := MsgSend.runs_attempt 0 2 [7] 0
  have hack := MsgSend.chain_attempt c [7] 0 hline hair hfifo
    (by rw [hanswers]; exact Nat.zero_le _)
  have hsent := htaken.driver hsend hnext hack
  rw [hend] at hsent
  -- The third message comes in while the light is set.
  have hlit := (hsent.step (.push (byteMessage 9) (by decide) hpush₃)).step (.operate rfl)
  have hagain := hlit.step (.operate ⟨1, rfl⟩)
  have hlast := hagain.step (.operate (Or.inl ⟨_, f', hpop₂, hpop', rfl⟩))
  exact ⟨_, hlast, rfl, rfl, operations_refine kernelTicks_eq (by decide) hlast⟩

end Simulation

end GemhoNbiot.SendThread
