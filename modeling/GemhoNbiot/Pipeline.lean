import GemhoNbiot.BurstDelivery
import GemhoNbiot.MsgSend
import GemhoNbiot.WireMessages

/-!
The way of a message through the whole program in transparent mode. The loop of
main_entry reads it from a user port and pushes it into the message FIFO, the
other threads push theirs, and thread_msgSend pops it and sends it until a send
returns 0, with checks of the module in between. A call of msg_push or msg_pop is
one step here. What the module behind BC95COM has received, read back line by
line, is each delivered message in the order of the pushes, once for each attempt.
-/
namespace GemhoNbiot.Pipeline

open Memmem Dataqueue MsgFifo FifoUnits FifoCreation FifoRefinement BurstDelivery
open ConfigUtils Commands Program Bc95Driver WireLines Bc95Writes MsgLines ReplyChannel
open MsgSend (Phase sendMessage emits_sendMessage chain_attempt runs_attempt)
open WireMessages
open TransparentMode (PortId)

section Repeats

variable {α : Type*}

/-- The elements in order, each of them at least once. -/
inductive Repeats : List α → List α → Prop
  | nil : Repeats [] []
  | again {xs ys : List α} (x : α) {k : ℕ} (hk : 0 < k) :
      Repeats xs ys → Repeats (xs ++ [x]) (ys ++ List.replicate k x)

end Repeats

/-- `pushed` are the messages given to msg_push so far, `dropped` counts those of
them that found no free unit. -/
structure System where
  front : TransparentMode.State
  fifo : Fifo
  phase : Phase
  channel : Channel
  pushed : List (List UInt8)
  dropped : ℕ
  delivered : List (List UInt8)

/-- The message that thread_msgSend works on. -/
def pending : Phase → List (List UInt8)
  | .popping => []
  | .sending msg => [msg]
  | .recovering msg => [msg]

def System.push (s : System) (d : Message) : System :=
  { s with
    fifo := after s.fifo (.push d)
    pushed := s.pushed ++ [d.val]
    dropped := if HasRoom s.fifo (.push d) then s.dropped else s.dropped + 1 }

theorem push_dropped (s : System) (d : Message) (h : HasRoom s.fifo (.push d)) :
    (s.push d).dropped = s.dropped := by
  rw [System.push, if_pos h]

/-- A step of the loop of main_entry, a push of another thread, time that passes,
or a step of thread_msgSend. No counter of a data queue wraps over live entries. -/
inductive Step (s : System) : System → Prop
  | loop {e : Option TransparentMode.Event} {t : TransparentMode.State} :
      TransparentMode.Step s.front e t → t.pushed = s.front.pushed → Step s { s with front := t }
  | read {e : Option TransparentMode.Event} {t : TransparentMode.State} {d : Message} :
      TransparentMode.Step s.front e t → t.pushed = s.front.pushed ++ [d.val] →
      IndexSafe s.fifo (.push d) → Step s { s.push d with front := t }
  | push (d : Message) : d.val ≠ [] → IndexSafe s.fifo (.push d) → Step s (s.push d)
  | time {c : Channel} : Reads s.channel [] c → Step s { s with channel := c }
  | pop {timeout : ℤ} {out : Delivered} {f : Fifo} :
      s.phase = .popping → IndexSafe s.fifo (.pop timeout) →
      msgPop s.fifo timeout = some (0, some out, f) → 0 < out.msgSize →
      Step s { s with fifo := f, phase := .sending out.msgData }
  | popEmpty {timeout : ℤ} {out : Delivered} {f : Fifo} :
      s.phase = .popping → IndexSafe s.fifo (.pop timeout) →
      msgPop s.fifo timeout = some (0, some out, f) → out.msgSize = 0 →
      Step s { s with fifo := f }
  | deliver {msg imei : List UInt8} {fuel : ℕ} {config : NbModuConfig}
      {events : List Bc95Driver.Call} {c : Channel} :
      s.phase = .sending msg → imei.length = 15 →
      Runs (sendMessage fuel config imei msg) events 0 → Chain Act s.channel events c →
      Step s { s with phase := .popping, channel := c, delivered := s.delivered ++ [msg] }
  | fail {msg imei : List UInt8} {fuel : ℕ} {config : NbModuConfig}
      {events : List Bc95Driver.Call} {ret : ℤ} {c : Channel} :
      s.phase = .sending msg → imei.length = 15 →
      Runs (sendMessage fuel config imei msg) events ret → ret ≠ 0 →
      Chain Act s.channel events c → Step s { s with phase := .recovering msg, channel := c }
  | recover {msg : List UInt8} {fuel : ℕ} {config : NbModuConfig} {info : ModuleInfo}
      {events : List Bc95Driver.Call} {r : DeviceStatus × ModuleInfo} {c : Channel} :
      s.phase = .recovering msg → Runs (statusManage fuel config 3 1000 60000 info) events r →
      Chain Act s.channel events c → Step s { s with phase := .sending msg, channel := c }
  | check {fuel : ℕ} {config : NbModuConfig} {info : ModuleInfo}
      {events : List Bc95Driver.Call} {r : DeviceStatus × ModuleInfo} {c : Channel} :
      s.phase = .popping → Runs (statusManage fuel config 3 1000 120000 info) events r →
      Chain Act s.channel events c → Step s { s with channel := c }

/-- config_bc95 has run when the threads start; the user ports hold no more than
what came in meanwhile. -/
inductive Reach (fifoSize : UInt16) : System → Prop
  | start {rings : PortId → List UInt8} {f : Fifo} {config : NbModuConfig} {info : ModuleInfo}
      {events : List Bc95Driver.Call} {r : ℤ × ModuleInfo} {c : Channel} :
      Created f 490 fifoSize → Runs (configBc95 config info) events r →
      Chain Act Channel.start events c →
      Reach fifoSize ⟨TransparentMode.start rings, f, .popping, c, [], 0, []⟩
  | step {s s' : System} : Reach fifoSize s → Step s s' → Reach fifoSize s'

section Queue

/-- Where the messages are, with `Q` those in the FIFO. -/
structure Account (fifoSize : ℕ) (s : System) (Q : List (List UInt8)) : Prop where
  sim : ∃ units free qs, Simulates s.fifo fifoSize 490 units free qs Q
  nonempty : ∀ m ∈ Q, m ≠ []
  order : (s.delivered ++ pending s.phase ++ Q).Sublist (s.pushed.map fun m => m.take 490)
  count : (s.delivered ++ pending s.phase ++ Q).length + s.dropped = s.pushed.length

variable {fifoSize : ℕ} {s : System} {Q : List (List UInt8)}

theorem hasRoom_iff {f : Fifo} {units free qs : List ℕ} {msgSize : UInt16}
    (h : Simulates f fifoSize msgSize units free qs Q) (d : Message) :
    HasRoom f (.push d) ↔ Q.length ≠ fifoSize := by
  constructor
  · exact length_ne_of_hasRoom h d
  · intro hne
    cases free with
    | nil =>
      have hrest := rest_length h.inv
      have hlen : Q.length = qs.length := by rw [← h.messages, List.length_map]
      rw [h.fifoSize_eq, List.length_nil] at hrest
      omega
    | cons u free =>
      obtain ⟨n, hpop⟩ := rtDataQueuePopNow_cons h.inv.pushQueue
      change (rtDataQueuePopNow f.handle.pushQueue).ret = RT_EOK
      rw [hpop]

theorem Account.queued_eq (h : Account fifoSize s Q) : queued s.fifo = Q := by
  obtain ⟨units, free, qs, hsim⟩ := h.sim
  exact (FifoRefinement.queued_eq hsim.inv.popQueue).trans hsim.messages

/-- A push into a full FIFO drops the oldest message. -/
theorem Account.push (h : Account fifoSize s Q) (hfifo : 0 < fifoSize) (d : Message)
    (hd : d.val ≠ []) (hsafe : IndexSafe s.fifo (.push d)) :
    ∃ Q', Account fifoSize (s.push d) Q' := by
  obtain ⟨units, free, qs, hsim⟩ := h.sim
  obtain ⟨_, ⟨free', qs', hnext⟩, _⟩ := hsim.push d hsafe
  have hclamp : clamp 490 d ≠ [] := by
    obtain ⟨b, rest, hb⟩ := List.exists_cons_of_ne_nil hd
    rw [clamp, hb]
    exact List.cons_ne_nil _ _
  have hroom := hasRoom_iff hsim d
  have hpushed : ((s.push d).pushed.map fun m => m.take 490) =
      (s.pushed.map fun m => m.take 490) ++ [clamp 490 d] := by
    rw [System.push, List.map_append]
    rfl
  by_cases hfull : Q.length = fifoSize
  · obtain ⟨m, Q, rfl⟩ := List.exists_cons_of_length_pos (hfull ▸ hfifo)
    rw [DropOldest.push_of_full fifoSize _ _ hfull] at hnext
    refine ⟨Q ++ [clamp 490 d], ⟨units, free', qs', hnext⟩, ?_, ?_, ?_⟩
    · intro m' hm'
      rcases List.mem_append.mp hm' with hm' | hm'
      · exact h.nonempty m' (List.mem_cons_of_mem _ hm')
      · rw [List.mem_singleton.mp hm']
        exact hclamp
    · rw [hpushed, ← List.append_assoc]
      refine List.Sublist.append (List.Sublist.trans ?_ h.order) (List.Sublist.refl _)
      exact List.Sublist.append (List.Sublist.refl _) (List.sublist_cons_self m Q)
    · have hcount := h.count
      have hdropped : (s.push d).dropped = s.dropped + 1 := if_neg fun hr => hroom.mp hr hfull
      rw [hdropped]
      simp only [System.push, List.length_append, List.length_cons, List.length_nil] at hcount ⊢
      omega
  · rw [DropOldest.push_of_room fifoSize _ _ hfull] at hnext
    refine ⟨Q ++ [clamp 490 d], ⟨units, free', qs', hnext⟩, ?_, ?_, ?_⟩
    · intro m' hm'
      rcases List.mem_append.mp hm' with hm' | hm'
      · exact h.nonempty m' hm'
      · rw [List.mem_singleton.mp hm']
        exact hclamp
    · rw [hpushed, ← List.append_assoc]
      exact List.Sublist.append h.order (List.Sublist.refl _)
    · have hcount := h.count
      rw [push_dropped s d (hroom.mpr hfull)]
      simp only [System.push, List.length_append, List.length_singleton] at hcount ⊢
      omega

/-- thread_msgSend takes the oldest message, which is not empty. -/
theorem Account.pop (h : Account fifoSize s Q) (hphase : s.phase = .popping) {timeout : ℤ}
    {out : Delivered} {f : Fifo} (hsafe : IndexSafe s.fifo (.pop timeout))
    (hpop : msgPop s.fifo timeout = some (0, some out, f)) :
    out.msgSize ≠ 0 ∧ out.msgData ≠ [] ∧
      ∃ Q', Account fifoSize { s with fifo := f, phase := .sending out.msgData } Q' := by
  obtain ⟨units, free, qs, hsim⟩ := h.sim
  cases Q with
  | nil =>
    have hnone := returned_nil hsim timeout
    rw [returned, hpop] at hnone
    exact absurd hnone (List.cons_ne_nil _ _)
  | cons m Q =>
    obtain ⟨out', f', free', qs', hpop', hdata, hsize, hnext⟩ := hsim.pop timeout hsafe
    rw [hpop] at hpop'
    obtain ⟨rfl, rfl⟩ : out = out' ∧ f = f' := by simpa using hpop'
    have hne := h.nonempty m List.mem_cons_self
    have hpos := List.length_pos_iff.mpr hne
    have hmove : s.delivered ++ pending s.phase ++ (m :: Q) =
        s.delivered ++ pending (.sending out.msgData) ++ Q := by
      rw [hphase, hdata]
      simp [pending]
    refine ⟨?_, hdata ▸ hne, Q, ⟨units, free', qs', hnext⟩, ?_, ?_, ?_⟩
    · intro hzero
      rw [hzero, UInt16.toNat_zero] at hsize
      omega
    · exact fun m' hm' => h.nonempty m' (List.mem_cons_of_mem _ hm')
    · have horder := h.order
      rwa [hmove] at horder
    · have hcount := h.count
      rwa [hmove] at hcount

/-- What thread_msgSend does with its message leaves the FIFO alone. -/
theorem Account.congr {s' : System} (h : Account fifoSize s Q) (hfifo : s'.fifo = s.fifo)
    (hpushed : s'.pushed = s.pushed) (hdropped : s'.dropped = s.dropped)
    (htaken : s'.delivered ++ pending s'.phase = s.delivered ++ pending s.phase) :
    Account fifoSize s' Q where
  sim := by
    rw [hfifo]
    exact h.sim
  nonempty := h.nonempty
  order := by
    rw [htaken, hpushed]
    exact h.order
  count := by
    rw [htaken, hpushed, hdropped]
    exact h.count

/-- The loop pushes nothing, or what it has just read. -/
theorem pushed_of_step {t t' : TransparentMode.State} {e : Option TransparentMode.Event}
    (h : TransparentMode.Step t e t') :
    t'.pushed = t.pushed ∨ ∃ buf, buf ≠ [] ∧ t'.pushed = t.pushed ++ [buf] := by
  cases h with
  | @endRead p buf _ =>
    by_cases hlen : buf.length > 0
    · exact Or.inr ⟨buf, List.length_pos_iff.mp hlen, if_pos hlen⟩
    · exact Or.inl (if_neg hlen)
  | _ => exact Or.inl rfl

theorem Account.step (h : Account fifoSize s Q) (hfifo : 0 < fifoSize) {s' : System}
    (hstep : Step s s') : ∃ Q', Account fifoSize s' Q' := by
  cases hstep with
  | loop _ _ => exact ⟨Q, h.congr rfl rfl rfl rfl⟩
  | @read e t d hloop hpushed hsafe =>
    have hd : d.val ≠ [] := by
      rcases pushed_of_step hloop with heq | ⟨buf, hne, heq⟩
      · rw [heq] at hpushed
        exact absurd hpushed.symm (by simp)
      · rw [heq, List.append_cancel_left_eq, List.singleton_inj] at hpushed
        rwa [← hpushed]
    obtain ⟨Q', hnext⟩ := h.push hfifo d hd hsafe
    exact ⟨Q', hnext.congr rfl rfl rfl rfl⟩
  | push d hd hsafe => exact h.push hfifo d hd hsafe
  | time _ => exact ⟨Q, h.congr rfl rfl rfl rfl⟩
  | pop hphase hsafe hpop _ => exact (h.pop hphase hsafe hpop).2.2
  | popEmpty hphase hsafe hpop hsize => exact absurd hsize (h.pop hphase hsafe hpop).1
  | deliver hphase _ _ _ =>
    refine ⟨Q, h.congr rfl rfl rfl ?_⟩
    rw [hphase]
    exact List.append_nil _
  | fail hphase _ _ _ _ =>
    refine ⟨Q, h.congr rfl rfl rfl ?_⟩
    rw [hphase]
    rfl
  | recover hphase _ _ =>
    refine ⟨Q, h.congr rfl rfl rfl ?_⟩
    rw [hphase]
    rfl
  | check _ _ _ => exact ⟨Q, h.congr rfl rfl rfl rfl⟩

end Queue

section Wire

theorem foldl_lines (i : Input) (ws : List (List UInt8)) (hi : i.line = []) (h : Lines ws) :
    ws.foldl Input.write i = ⟨i.lines ++ ws, []⟩ := by
  induction ws generalizing i with
  | nil =>
    rw [List.append_nil, ← hi]
    rfl
  | cons w ws ih =>
    rw [List.foldl_cons, write_line i w hi (h w List.mem_cons_self),
      ih _ rfl fun v hv => h v (List.mem_cons_of_mem _ hv), List.append_assoc]
    rfl

theorem foldl_attempts (i : Input) (cmd : List (List UInt8)) (k : ℕ) (hi : i.line = [])
    (h : Command ENDFLAG Line cmd) :
    (List.replicate k cmd).flatten.foldl Input.write i =
      ⟨i.lines ++ List.replicate k cmd.flatten, []⟩ := by
  induction k generalizing i with
  | zero =>
    rw [List.replicate_zero, List.replicate_zero, List.append_nil, ← hi]
    rfl
  | succ k ih =>
    rw [List.replicate_succ, List.flatten_cons, List.foldl_append, foldl_command i cmd hi h,
      ih _ rfl, List.replicate_succ, List.append_assoc]
    rfl

variable {c c' : Channel} {events : List Bc95Driver.Call}

/-- A send is one or more lines with the message. -/
theorem sendMessage_told {fuel : ℕ} {config : NbModuConfig} {imei msg : List UInt8} {ret : ℤ}
    (hrun : Runs (sendMessage fuel config imei msg) events ret) (himei : imei.length = 15)
    (hmsg : msg.length ≤ 490) (hchain : Chain Act c events c') (hc : c.input.line = []) :
    ∃ k, 0 < k ∧ messages c'.input.lines = messages c.input.lines ++ List.replicate k msg := by
  have hsent : msg.take MSG_MAXLEN = msg := List.take_of_length_le hmsg
  obtain ⟨pieces, hcmd, htext, hrun⟩ : ∃ pieces, Command ENDFLAG Line pieces ∧
      messageOf pieces.flatten = some msg ∧ Runs (sendAttempts fuel pieces 3) events ret := by
    unfold sendMessage at hrun
    by_cases hmode : config.sendMode = 0
    · rw [if_pos hmode, coapMsgSend, hsent] at hrun
      exact ⟨_, command_coapPieces msg, messageOf_coapLine msg hmsg, hrun⟩
    · rw [if_neg hmode, udpMsgSend, hsent] at hrun
      exact ⟨_, command_udpPieces config imei msg, messageOf_udpLine config imei msg himei hmsg,
        hrun⟩
  obtain ⟨k, _, hpos, hwrites⟩ := writes_sendAttempts fuel pieces 3 events ret hrun
  refine ⟨k, hpos (by omega), ?_⟩
  rw [chain_input hchain, hwrites, foldl_attempts c.input pieces k hc hcmd]
  rw [messages_append, messages, messages, List.filterMap_replicate_of_some htext]

/-- A check of the module adds no message. -/
theorem routines_told {config : NbModuConfig} {interval : ℕ} (hlines : Lines (writes events))
    (honly : Only (Routine config interval) events) (hchain : Chain Act c events c')
    (hc : c.input.line = []) : messages c'.input.lines = messages c.input.lines := by
  rw [chain_input hchain, foldl_lines c.input _ hc hlines, messages_append,
    messages_of_routines honly, List.append_nil]

/-- What the lines received by the module say. -/
structure Told (s : System) : Prop where
  line : s.channel.input.line = []
  told : ∃ ys k, messages s.channel.input.lines =
    ys ++ (pending s.phase).flatMap (List.replicate k) ∧ Repeats s.delivered ys ∧
      ∀ msg, s.phase = .recovering msg → 0 < k

variable {s s' : System}

/-- The channel changes, but not what is read in it. -/
theorem Told.silent (h : Told s) (hline : s'.channel.input.line = [])
    (hmessages : messages s'.channel.input.lines = messages s.channel.input.lines)
    (hpending : pending s'.phase = pending s.phase)
    (hphase : ∀ msg, s'.phase = .recovering msg → s.phase = .recovering msg)
    (hdelivered : s'.delivered = s.delivered) : Told s' where
  line := hline
  told := by
    obtain ⟨ys, k, htold, hrepeats, hk⟩ := h.told
    rw [hmessages, hpending, hdelivered]
    exact ⟨ys, k, htold, hrepeats, fun msg heq => hk msg (hphase msg heq)⟩

/-- Another send of the message under way. -/
theorem Told.sent (h : Told s) {msg : List UInt8} (hphase : s.phase = .sending msg) {c : Channel}
    {n : ℕ} (hn : 0 < n) (hmessages : messages c.input.lines =
      messages s.channel.input.lines ++ List.replicate n msg) :
    ∃ ys k, 0 < k ∧ messages c.input.lines = ys ++ List.replicate k msg ∧
      Repeats s.delivered ys := by
  obtain ⟨ys, k, htold, hrepeats, _⟩ := h.told
  refine ⟨ys, k + n, by omega, ?_, hrepeats⟩
  rw [hmessages, htold, hphase, List.append_assoc, List.replicate_add]
  simp [pending]

theorem Told.pop (h : Told s) (hphase : s.phase = .popping) (f : Fifo) (msg : List UInt8) :
    Told { s with fifo := f, phase := .sending msg } where
  line := h.line
  told := by
    obtain ⟨ys, k, htold, hrepeats, _⟩ := h.told
    refine ⟨ys, 0, ?_, hrepeats, nofun⟩
    rw [hphase] at htold
    exact htold

theorem Told.step {fifoSize : ℕ} {Q : List (List UInt8)} (h : Told s)
    (haccount : Account fifoSize s Q) (hstep : Step s s') : Told s' := by
  -- A message under way has been cut by the FIFO.
  have hshort : ∀ msg, s.phase = .sending msg → msg.length ≤ 490 := by
    intro msg hphase
    have hmem : msg ∈ s.delivered ++ pending s.phase ++ Q := by simp [hphase, pending]
    obtain ⟨m, _, hm⟩ := List.mem_map.mp (haccount.order.subset hmem)
    rw [← hm]
    exact List.length_take_le 490 m
  cases hstep with
  | loop _ _ => exact ⟨h.line, h.told⟩
  | read _ _ _ => exact ⟨h.line, h.told⟩
  | push d _ _ => exact ⟨h.line, h.told⟩
  | @time c hreads =>
    have hinput := hreads.input
    exact h.silent (hinput ▸ h.line) (by rw [hinput]) rfl (fun _ heq => heq) rfl
  | pop hphase _ _ _ => exact h.pop hphase _ _
  | popEmpty _ _ _ _ => exact ⟨h.line, h.told⟩
  | @deliver msg imei fuel config events c hphase himei hrun hchain =>
    have hline := line_of_pieces hchain (emits_sendMessage fuel config imei msg events 0 hrun)
      h.line
    obtain ⟨n, hn, hmessages⟩ := sendMessage_told hrun himei (hshort msg hphase) hchain h.line
    obtain ⟨ys, k, hk, htold, hrepeats⟩ := h.sent hphase hn hmessages
    refine ⟨hline, ys ++ List.replicate k msg, 0, ?_, hrepeats.again msg hk, nofun⟩
    exact htold.trans (List.append_nil _).symm
  | @fail msg imei fuel config events ret c hphase himei hrun _ hchain =>
    have hline := line_of_pieces hchain (emits_sendMessage fuel config imei msg events ret hrun)
      h.line
    obtain ⟨n, hn, hmessages⟩ := sendMessage_told hrun himei (hshort msg hphase) hchain h.line
    obtain ⟨ys, k, hk, htold, hrepeats⟩ := h.sent hphase hn hmessages
    refine ⟨hline, ys, k, ?_, hrepeats, fun _ _ => hk⟩
    rw [htold]
    simp [pending]
  | @recover msg fuel config info events r c hphase hrun hchain =>
    have hlines := emits_statusManage fuel config 3 1000 60000 info events r hrun
    have honly := only_statusManage fuel 3 60000 info events r hrun
    exact h.silent (line_of_pieces hchain hlines.pieces h.line)
      (routines_told hlines honly hchain h.line) (by rw [hphase]; rfl) nofun rfl
  | @check fuel config info events r c hphase hrun hchain =>
    have hlines := emits_statusManage fuel config 3 1000 120000 info events r hrun
    have honly := only_statusManage fuel 3 120000 info events r hrun
    exact h.silent (line_of_pieces hchain hlines.pieces h.line)
      (routines_told hlines honly hchain h.line) rfl (fun _ heq => heq) rfl

end Wire

section Delivery

variable {fifoSize : UInt16} {s : System}

theorem Reach.account (h : Reach fifoSize s) (hfifo : 1 ≤ fifoSize.toNat) :
    Told s ∧ ∃ Q, Account fifoSize.toNat s Q := by
  induction h with
  | @start rings f config info events r c hf hrun hchain =>
    have hlines := emits_configBc95 config info events r hrun
    have honly := @only_configBc95 config 0 info events r hrun
    obtain ⟨units, hfresh⟩ := created_fresh hf hfifo
    constructor
    · refine ⟨line_of_pieces hchain hlines.pieces rfl, [], 0, ?_, .nil, nofun⟩
      exact routines_told hlines honly hchain rfl
    · refine ⟨[], ⟨units, units, [], Simulates.start hfresh⟩, ?_, List.Sublist.refl _, rfl⟩
      exact fun m hm => absurd hm List.not_mem_nil
  | step _ hstep ih =>
    obtain ⟨htold, Q, haccount⟩ := ih
    exact ⟨htold.step haccount hstep, haccount.step hfifo hstep⟩

/-- In every run what the module has received says the delivered messages in
order, each at least once, and then the one under way as often as it was sent.
Delivered, under way and queued messages are messages pushed, cut to 490 bytes
and in the order of the pushes; the others were dropped by a push into a full
FIFO, one by each. -/
theorem received_in_order (hfifo : 1 ≤ fifoSize.toNat) (h : Reach fifoSize s) :
    (∃ ys k, messages s.channel.input.lines = ys ++ (pending s.phase).flatMap (List.replicate k) ∧
      Repeats s.delivered ys) ∧
      (s.delivered ++ pending s.phase ++ queued s.fifo).Sublist
        (s.pushed.map fun m => m.take 490) ∧
      (s.delivered ++ pending s.phase ++ queued s.fifo).length + s.dropped = s.pushed.length := by
  obtain ⟨⟨_, ys, k, htold, hrepeats, _⟩, Q, haccount⟩ := h.account hfifo
  rw [haccount.queued_eq]
  exact ⟨⟨ys, k, htold, hrepeats⟩, haccount.order, haccount.count⟩

/-- A burst on one port, read and sent to its end without a drop or a cut: the
module has received it, its messages in order and each at least once. -/
theorem burst_received (hfifo : 1 ≤ fifoSize.toNat) (h : Reach fifoSize s) (p : PortId)
    (burst : List UInt8) (hburst : Burst p burst s.front) (hread : AllRead p s.front)
    (hpushed : s.pushed = s.front.pushed) (hcut : ∀ m ∈ s.front.pushed, m.length ≤ 490)
    (hdropped : s.dropped = 0) (hphase : s.phase = .popping) (hqueued : queued s.fifo = []) :
    ∃ ms, ms.flatten = burst ∧ Repeats ms (messages s.channel.input.lines) := by
  obtain ⟨⟨_, ys, k, htold, hrepeats, _⟩, Q, haccount⟩ := h.account hfifo
  have hQ : Q = [] := haccount.queued_eq.symm.trans hqueued
  have hcount := haccount.count
  have horder := haccount.order
  have hall : (s.pushed.map fun m => m.take 490) = s.pushed.map id :=
    List.map_congr_left fun m hm => List.take_of_length_le (hcut m (hpushed ▸ hm))
  rw [hphase, hQ, hdropped, pending, List.append_nil, List.append_nil] at hcount
  rw [hphase, hQ, pending, List.append_nil, List.append_nil, hall, List.map_id] at horder
  have hdelivered := horder.eq_of_length hcount
  refine ⟨s.delivered, ?_, ?_⟩
  · rw [hdelivered, hpushed]
    exact hburst.pushed_flatten hread
  · rw [hphase, pending, List.flatMap_nil, List.append_nil] at htold
    rw [htold]
    exact hrepeats

end Delivery

section Unanswered

/-- A read of this call finds nothing. -/
def Quiet : Bc95Driver.Call → Prop
  | ⟨.usartRead _ _, bs⟩ => bs = []
  | _ => True

/-- The module gets what is written and says nothing. -/
theorem chain_of_quiet (c : Channel) (events : List Bc95Driver.Call) (h : ∀ e ∈ events, Quiet e) :
    Chain Act c events { c with input := (writes events).foldl Input.write c.input } := by
  induction events generalizing c with
  | nil => exact .nil c
  | cons e events ih =>
    have hrest := fun c => ih c fun e' he' => h e' (List.mem_cons_of_mem e he')
    obtain ⟨op, r⟩ := e
    cases op with
    | usartWrite bs => exact .cons (.write bs (.nil c)) (hrest _)
    | usartRead len timeout =>
      obtain rfl : r = [] := h _ List.mem_cons_self
      exact .cons (.read len timeout (Nat.zero_le _) (.nil c)) (hrest _)
    | getTimestamp => exact .cons (.getTimestamp r (.nil c)) (hrest _)
    | threadDelay ticks => exact .cons (.threadDelay ticks (.nil c)) (hrest _)
    | usartConfigure baudrate => exact .cons (.usartConfigure baudrate (.nil c)) (hrest _)
    | resetPin level => exact .cons (.resetPin level (.nil c)) (hrest _)
    | ucallWrite bs => exact .cons (.ucallWrite bs (.nil c)) (hrest _)

/-- Some run of the program gets no reply. -/
def Unanswered {α : Type} (p : Bc95 α) (a : α) : Prop :=
  ∃ events, Runs p events a ∧ ∀ e ∈ events, Quiet e

theorem unanswered_pure {α : Type} (a : α) : Unanswered (pure a) a :=
  ⟨[], .ret a, List.forall_mem_nil _⟩

theorem unanswered_bind {α β : Type} {p : Bc95 α} {f : α → Bc95 β} {a : α} {b : β}
    (hp : Unanswered p a) (hf : Unanswered (f a) b) : Unanswered (p >>= f) b := by
  obtain ⟨first, hfirst, hquiet⟩ := hp
  obtain ⟨rest, hrest, hquiet'⟩ := hf
  refine ⟨first ++ rest, (runs_bind p f _ b).mpr ⟨first, rest, a, rfl, hfirst, hrest⟩, ?_⟩
  intro e he
  rcases List.mem_append.mp he with he | he
  · exact hquiet e he
  · exact hquiet' e he

theorem unanswered_perform (op : Op) (r : Op.Res op) (h : Quiet ⟨op, r⟩) :
    Unanswered (Prog.perform op) r := by
  refine ⟨[⟨op, r⟩], .call (.ret r), ?_⟩
  rw [List.forall_mem_singleton]
  exact h

theorem unanswered_atcmdWaitOK (cmd : List UInt8) (timeout n : ℕ) :
    Unanswered (atcmdWaitOK cmd timeout n) (-1) := by
  induction n with
  | zero => exact unanswered_pure _
  | succ n ih =>
    have hwait : Unanswered (waitOK timeout) (-1) := by
      refine unanswered_bind (unanswered_perform (.usartRead bufSize timeout) [] rfl) ?_
      have hnone : ¬ memmem (padded []) OKSTR ≠ none := by decide +kernel
      rw [if_neg hnone]
      exact unanswered_pure _
    exact unanswered_bind (unanswered_perform (.usartWrite cmd) () trivial)
      (unanswered_bind hwait ih)

theorem unanswered_imeiTurns (n : ℕ) (buf imei : List UInt8) (ret : ℤ) :
    Unanswered (imeiTurns n buf imei ret) (ret, imei, buf) := by
  induction n with
  | zero => exact unanswered_pure _
  | succ n ih =>
    refine unanswered_bind (unanswered_perform (.usartWrite IMEIGET) () trivial) ?_
    exact unanswered_bind (unanswered_perform (.usartRead bufSize 100) [] rfl) ih

theorem unanswered_numberTurns (query marker : List UInt8) (fits : UInt32 → Bool) (n : ℕ)
    (buf : List UInt8) (value : ℤ) :
    Unanswered (numberTurns query marker fits n buf value) (-1, value) := by
  induction n with
  | zero => exact unanswered_pure _
  | succ n ih =>
    refine unanswered_bind (unanswered_perform (.usartWrite query) () trivial) ?_
    exact unanswered_bind (unanswered_perform (.usartRead bufSize 300) [] rfl) ih

/-- Without a module config_bc95 gives up. -/
theorem unanswered_configBc95 (config : NbModuConfig) (info : ModuleInfo) :
    Unanswered (configBc95 config info) (-1, info) := by
  refine unanswered_bind (unanswered_perform (.usartConfigure BC95ORGBAUDRATE) () trivial) ?_
  refine unanswered_bind (unanswered_perform (.resetPin false) () trivial) ?_
  refine unanswered_bind (unanswered_perform (.threadDelay 110) () trivial) ?_
  refine unanswered_bind (unanswered_perform (.resetPin true) () trivial) ?_
  refine unanswered_bind (unanswered_atcmdWaitOK _ _ _) ?_
  refine unanswered_bind (unanswered_bind (unanswered_perform (.usartConfigure BC95ORGBAUDRATE) ()
    trivial) (unanswered_bind (unanswered_atcmdWaitOK _ _ _) (unanswered_pure _))) ?_
  refine unanswered_bind (unanswered_imeiTurns _ _ _ _) ?_
  refine unanswered_bind (unanswered_numberTurns _ _ _ _ _ _) ?_
  exact unanswered_bind (unanswered_perform (.ucallWrite (bytes "INIT FAIL\r\n")) () trivial)
    (unanswered_pure _)

/-- The static data before config_bc95. -/
def bootInfo : ModuleInfo := ⟨List.replicate 15 0, 0, List.replicate bufSize 0⟩

theorem exists_configured :
    ∃ events r c, Runs (configBc95 lDefaultNbMCFG bootInfo) events r ∧
      Chain Act Channel.start events c ∧ c.input.line = [] ∧ c.air = [] ∧ c.fifo = [] ∧
      c.answers = [] := by
  obtain ⟨events, hrun, hquiet⟩ := unanswered_configBc95 lDefaultNbMCFG bootInfo
  have hchain := chain_of_quiet Channel.start events hquiet
  have hline := line_of_pieces hchain (emits_configBc95 _ _ events _ hrun).pieces rfl
  exact ⟨events, _, _, hrun, hchain, hline, rfl, rfl, rfl⟩

end Unanswered

section Messages

/-- The loop runs on its own as long as it pushes nothing. -/
theorem Reach.turns {fifoSize : UInt16} {s : System} (h : Reach fifoSize s)
    {t : TransparentMode.State} (hturns : Relation.ReflTransGen Turn s.front t) :
    Reach fifoSize { s with front := t } := by
  induction hturns with
  | refl => exact h
  | tail _ hturn ih =>
    obtain ⟨e, hstep, _, hpushed⟩ := hturn
    exact ih.step (.loop hstep hpushed)

/-- All of a burst on USERCOM has been read, pushed as the messages `ms`, sent and
acknowledged. The FIFO has four units. -/
structure AllSent (burst : List UInt8) (ms : List (List UInt8)) (s : System) : Prop where
  reach : Reach 4 s
  burst : Burst .user burst s.front
  allRead : AllRead .user s.front
  front : s.front.pushed = ms
  pushed : s.pushed = ms
  dropped : s.dropped = 0
  phase : s.phase = .popping
  delivered : s.delivered = ms
  sim : ∃ units free qs, Simulates s.fifo 4 490 units free qs []
  line : s.channel.input.line = []
  air : s.channel.air = []
  fifo : s.channel.fifo = []
  answers : s.channel.answers.length ≤ s.channel.input.lines.length

theorem indexSafe_four {f : Fifo} {units free qs : List ℕ} {Q : List (List UInt8)}
    (h : Simulates f 4 490 units free qs Q) (c : FifoRefinement.Call) : IndexSafe f c := by
  have hdvd : f.handle.fifoSize.toNat ∣ 65536 := by
    rw [h.fifoSize_eq]
    decide
  cases c with
  | push d => exact Or.inl (h.inv.popSize ▸ hdvd)
  | pop timeout => exact Or.inr (Or.inl (h.inv.pushSize ▸ hdvd))

/-- The next message comes in, is read, pushed, popped, sent and acknowledged. -/
theorem AllSent.next {burst : List UInt8} {ms : List (List UInt8)} {s : System}
    (h : AllSent burst ms s) (d : Message) (hd : d.val ≠ []) (hlen : d.val.length ≤ 490) :
    ∃ s', AllSent (burst ++ d.val) (ms ++ [d.val]) s' := by
  obtain ⟨units, free, qs, hsim⟩ := h.sim
  have hring : d.val.length ≤ TransparentMode.ringSize := by
    rw [TransparentMode.ringSize]
    omega
  have hclamp : clamp 490 d = d.val := List.take_of_length_le hlen
  -- The loop receives the bytes, reads them and pushes them.
  have hreceive := h.burst.receive d.val hd (by simpa [h.allRead.2] using hring)
  obtain ⟨t, hturns, hpc, hempty, hpushed, hfinish⟩ := turns_at_once h.allRead hd hring
  have hburst := (hreceive.turns hturns).read (.endRead hpc)
  have hfront : (t.finish d.val).pushed = ms ++ [d.val] := by
    rw [hfinish, hpushed, h.front]
  have hreceived : Reach 4
      { s with front := s.front.setPort .user ((s.front.port .user).isr d.val) } :=
    h.reach.step (.loop (.receive .user d.val hd) rfl)
  have hread := (hreceived.turns hturns).step
    (.read (d := d) (.endRead hpc) hfinish (indexSafe_four hsim _))
  -- It is popped and sent.
  obtain ⟨_, ⟨free', qs', hsim'⟩, _⟩ := hsim.push d (indexSafe_four hsim _)
  have hnext : DropOldest.push 4 [] (clamp 490 d) = [d.val] := by
    rw [DropOldest.push_of_room 4 _ _ (by decide), hclamp]
    rfl
  rw [hnext] at hsim'
  obtain ⟨out, f, free'', qs'', hpop, hdata, hsize, hpopped⟩ :=
    hsim'.pop 0 (indexSafe_four hsim' _)
  have hpos : 0 < out.msgSize := by
    rw [UInt16.lt_iff_toNat_lt, hsize]
    exact List.length_pos_iff.mpr hd
  have hsending := hread.step (.pop h.phase (indexSafe_four hsim' _) hpop hpos)
  have hsend : Runs (sendMessage 1 lDefaultNbMCFG (List.replicate 15 48) out.msgData)
      (MsgSend.attempt out.msgData ++ MsgSend.acknowledged 0) 0 := by
    have hsent : out.msgData.take MSG_MAXLEN = out.msgData :=
      List.take_of_length_le (hdata ▸ hlen)
    change Runs (sendAttempts 1 (coapPieces (out.msgData.take MSG_MAXLEN)) 3) _ 0
    rw [hsent]
    exact runs_attempt 0 2 out.msgData 0
  have hack := chain_attempt s.channel out.msgData 0 h.line h.air h.fifo h.answers
  have hdelivered := hsending.step (.deliver rfl rfl hsend hack)
  have hroom : HasRoom s.fifo (.push d) := (hasRoom_iff hsim d).mpr (by decide)
  refine ⟨_, hdelivered, hburst, ⟨rfl, hempty⟩, hfront, ?_, ?_, rfl, ?_,
    ⟨units, free'', qs'', hpopped⟩, rfl, h.air, h.fifo, ?_⟩
  · exact congrArg (· ++ [d.val]) h.pushed
  · exact (push_dropped _ d hroom).trans h.dropped
  · rw [← hdata, ← h.delivered]
    rfl
  · have hanswers := h.answers
    simp only [List.length_append, List.length_singleton]
    omega

/-- Three bytes and then two come in on USERCOM, and both messages are acknowledged by
a module that has not answered any command of config_bc95. -/
theorem exists_twoSent : ∃ s, AllSent [7, 8, 9, 10, 13] [[7, 8, 9], [10, 13]] s := by
  obtain ⟨events, r, c, hconfig, hchain, hline, hair, hfifo, hanswers⟩ := exists_configured
  have hcreated : Created (blankFifo 4) 490 4 := ⟨_, _, _, rfl⟩
  obtain ⟨units, hfresh⟩ := created_fresh hcreated (by decide)
  have hsim := Simulates.start hfresh
  generalize blankFifo 4 = f at hcreated hsim
  have hstart : AllSent [] [] ⟨TransparentMode.start fun _ => [], f, .popping, c, [], 0, []⟩ :=
    ⟨.start hcreated hconfig hchain, .start, ⟨rfl, rfl⟩, rfl, rfl, rfl, rfl, rfl,
      ⟨_, _, _, hsim⟩, hline, hair, hfifo, by rw [hanswers]; exact Nat.zero_le _⟩
  obtain ⟨s₁, hfirst⟩ := hstart.next ⟨[7, 8, 9], by decide⟩ (by decide) (by decide)
  exact hfirst.next ⟨[10, 13], by decide⟩ (by decide) (by decide)

/-- The module has received the two messages in lines of their own. -/
theorem received_in_order_two :
    ∃ s, Reach 4 s ∧ s.delivered = [[7, 8, 9], [10, 13]] ∧
      (∃ ys k, messages s.channel.input.lines =
        ys ++ (pending s.phase).flatMap (List.replicate k) ∧ Repeats s.delivered ys) ∧
      (s.delivered ++ pending s.phase ++ queued s.fifo).Sublist
        (s.pushed.map fun m => m.take 490) ∧
      (s.delivered ++ pending s.phase ++ queued s.fifo).length + s.dropped = s.pushed.length := by
  obtain ⟨s, h⟩ := exists_twoSent
  exact ⟨s, h.reach, h.delivered, received_in_order (by decide) h.reach⟩

theorem burst_received_two :
    ∃ s ms, Reach 4 s ∧ s.front.pushed = [[7, 8, 9], [10, 13]] ∧
      ms.flatten = [7, 8, 9, 10, 13] ∧ Repeats ms (messages s.channel.input.lines) := by
  obtain ⟨s, h⟩ := exists_twoSent
  have hcut : ∀ m ∈ s.front.pushed, m.length ≤ 490 := by
    rw [h.front]
    decide
  obtain ⟨units, free, qs, hsim⟩ := h.sim
  have hqueued : queued s.fifo = [] :=
    (FifoRefinement.queued_eq hsim.inv.popQueue).trans hsim.messages
  obtain ⟨ms, hms, hrepeats⟩ := burst_received (by decide) h.reach .user _ h.burst h.allRead
    (h.pushed.trans h.front.symm) hcut h.dropped h.phase hqueued
  exact ⟨s, ms, h.reach, h.front, hms, hrepeats⟩

end Messages

end GemhoNbiot.Pipeline
