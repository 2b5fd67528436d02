import GemhoNbiot.Bc95Driver
import GemhoNbiot.WireLines

/-!
What the driver functions write to BC95COM. Every run of get_CGATT, set_CGATT,
config_bc95 and BC95_statusManage writes whole lines. A run of coap_msgSend or
udp_msgSend writes the pieces of its command once for each attempt. The
statements are about every run, whatever the reads and the clock return, and
are put together along the sequence of the programs.
-/
namespace GemhoNbiot.Bc95Writes

open Memmem Stdio Commands Program Bc95Driver WireLines

/-- The bytes of the usart_write calls of a trace, call by call. -/
def writes (events : List Call) : List (List UInt8) :=
  events.filterMap fun e =>
    match e with
    | ⟨.usartWrite bs, _⟩ => some bs
    | _ => none

theorem writes_append (first rest : List Call) :
    writes (first ++ rest) = writes first ++ writes rest :=
  List.filterMap_append

/-- A text without CR or LF, and CR LF. -/
def Line (bs : List UInt8) : Prop :=
  ∃ text, bs = text ++ ENDFLAG ∧ 13 ∉ text ∧ 10 ∉ text

theorem line_of_printable (text : List UInt8) (h : Printable text) :
    Line (text ++ ENDFLAG) := by
  refine ⟨text, rfl, fun hcr => ?_, fun hlf => ?_⟩
  · exact absurd (h 13 hcr) (by decide)
  · exact absurd (h 10 hlf) (by decide)

/-- Every run of the program writes something in `Q`. -/
def Emits {α : Type} (p : Bc95 α) (Q : List (List UInt8) → Prop) : Prop :=
  Always p fun events => Q (writes events)

section Rules

variable {Q : List (List UInt8) → Prop} {α β : Type}

theorem emits_hang : Emits (.hang : Bc95 α) Q := always_hang

theorem emits_perform (op : Op) (h : ∀ r, Q (writes [⟨op, r⟩])) :
    Emits (Prog.perform op : Bc95 (Op.Res op)) Q :=
  always_perform op h

theorem emits_ite {c : Prop} [Decidable c] {p q : Bc95 α} (hp : c → Emits p Q)
    (hq : ¬ c → Emits q Q) : Emits (if c then p else q) Q :=
  always_ite hp hq

theorem emits_write {bs : List UInt8} (h : Q [bs]) : Emits (usartWrite bs) Q :=
  emits_perform (.usartWrite bs) fun _ => h

variable [Closed Q]

instance : Closed fun events : List Call => Q (writes events) where
  nil := Closed.nil
  append := by
    intro first rest hfirst hrest
    rw [writes_append]
    exact Closed.append _ _ hfirst hrest

theorem emits_pure (a : α) : Emits (pure a : Bc95 α) Q := always_pure a

theorem emits_bind {p : Bc95 α} {f : α → Bc95 β} (hp : Emits p Q) (hf : ∀ a, Emits (f a) Q) :
    Emits (p >>= f) Q :=
  always_bind hp hf

theorem emits_read (len timeout : ℕ) : Emits (usartRead len timeout) Q :=
  emits_perform (.usartRead len timeout) fun _ => Closed.nil

theorem emits_now : Emits getTimestamp Q := emits_perform .getTimestamp fun _ => Closed.nil

theorem emits_delay (ticks : ℕ) : Emits (threadDelay ticks) Q :=
  emits_perform (.threadDelay ticks) fun _ => Closed.nil

theorem emits_configure (baudrate : UInt32) : Emits (usartConfigure baudrate) Q :=
  emits_perform (.usartConfigure baudrate) fun _ => Closed.nil

theorem emits_resetPin (level : Bool) : Emits (resetPin level) Q :=
  emits_perform (.resetPin level) fun _ => Closed.nil

theorem emits_ucallWrite (bs : List UInt8) : Emits (Bc95Driver.ucallWrite bs) Q :=
  emits_perform (.ucallWrite bs) fun _ => Closed.nil

/-- wait_OK_timeout writes nothing. -/
theorem emits_waitOKTimeout (fuel : ℕ) (timeout : UInt64) :
    Emits (waitOKTimeout fuel timeout) Q := by
  have hloop : ∀ n last buf ret, Emits (waitOKLoop timeout last n buf ret) Q := by
    intro n
    induction n with
    | zero => exact fun last buf ret => emits_hang
    | succ n ih =>
      intro last buf ret
      refine emits_bind emits_now fun t => ?_
      refine emits_ite (fun _ => ?_) fun _ => emits_pure _
      refine emits_bind (emits_read _ _) fun bs => ?_
      refine emits_ite (fun _ => emits_pure _) fun _ => ?_
      exact emits_ite (fun _ => emits_pure _) fun _ => ih _ _ _
  exact emits_bind emits_now fun last => hloop fuel last [] 0

theorem emits_waitOK (timeout : ℕ) : Emits (waitOK timeout) Q :=
  emits_bind (emits_read _ _) fun _ => emits_pure _

end Rules

/-- The property of writing nothing. -/
instance : Closed fun ws : List (List UInt8) => ws = [] where
  nil := rfl
  append := by
    intro ws vs hws hvs
    rw [hws, hvs]
    rfl

/-- The property of writing whole lines only. -/
def Lines (ws : List (List UInt8)) : Prop := ∀ w ∈ ws, Line w

instance : Closed Lines where
  nil := fun w hw => by simp at hw
  append := by
    intro ws vs hws hvs w hw
    rcases List.mem_append.mp hw with hw | hw
    · exact hws w hw
    · exact hvs w hw

theorem lines_singleton {bs : List UInt8} (h : Line bs) : Lines [bs] := by
  intro w hw
  rw [List.mem_singleton.mp hw]
  exact h

/-- The property of writing the pieces of one command after the other. -/
def Pieces (ws : List (List UInt8)) : Prop :=
  ∃ cmds : List (List (List UInt8)), (∀ c ∈ cmds, Command ENDFLAG Line c) ∧ ws = cmds.flatten

instance : Closed Pieces where
  nil := ⟨[], by simp, rfl⟩
  append := by
    intro ws vs hws hvs
    obtain ⟨first, hfirst, rfl⟩ := hws
    obtain ⟨rest, hrest, rfl⟩ := hvs
    refine ⟨first ++ rest, fun c hc => ?_, by rw [List.flatten_append]⟩
    rcases List.mem_append.mp hc with hc | hc
    · exact hfirst c hc
    · exact hrest c hc

/-- A line written in one piece is a command. -/
theorem command_of_line {bs : List UInt8} (h : Line bs) : Command ENDFLAG Line [bs] where
  line := by simpa using h
  split := by
    obtain ⟨text, rfl, _⟩ := h
    exact ⟨[], _, rfl, List.suffix_append text ENDFLAG, by simp⟩

theorem Lines.pieces {ws : List (List UInt8)} (h : Lines ws) : Pieces ws := by
  refine ⟨ws.map fun w => [w], fun c hc => ?_, ?_⟩
  · obtain ⟨w, hw, rfl⟩ := List.mem_map.mp hc
    exact command_of_line (h w hw)
  · induction ws with
    | nil => rfl
    | cons w ws ih =>
      rw [List.map_cons, List.flatten_cons, ← ih fun v hv => h v (List.mem_cons_of_mem _ hv)]
      rfl

section Lines

theorem emits_atcmdWaitOK (cmd : List UInt8) (hcmd : Line cmd) (timeout n : ℕ) :
    Emits (atcmdWaitOK cmd timeout n) Lines := by
  induction n with
  | zero => exact emits_pure _
  | succ n ih =>
    refine emits_bind (emits_write (lines_singleton hcmd)) fun _ => ?_
    refine emits_bind (emits_waitOK _) fun ret => ?_
    exact emits_ite (fun _ => emits_pure _) fun _ => ih

theorem line_literal (text : List UInt8) (h : Printable text) (bs : List UInt8)
    (hbs : bs = text ++ ENDFLAG) : Line bs := by
  rw [hbs]
  exact line_of_printable text h

theorem line_ATSTR : Line ATSTR := line_literal (bytes "AT") (by decide) _ rfl
theorem line_IMEIGET : Line IMEIGET := line_literal (bytes "AT+CGSN=1") (by decide) _ rfl
theorem line_NBANDGET : Line NBANDGET := line_literal (bytes "AT+NBAND?") (by decide) _ rfl
theorem line_CGATTGET : Line CGATTGET := line_literal (bytes "AT+CGATT?") (by decide) _ rfl

theorem emits_imeiTurns (n : ℕ) (buf imei : List UInt8) (ret : ℤ) :
    Emits (imeiTurns n buf imei ret) Lines := by
  induction n generalizing buf imei ret with
  | zero => exact emits_pure _
  | succ n ih =>
    refine emits_bind (emits_write (lines_singleton line_IMEIGET)) fun _ => ?_
    refine emits_bind (emits_read _ _) fun bs => ?_
    simp only
    split
    · split
      · exact ih _ _ _
      · exact ih _ _ _
    · exact ih _ _ _

theorem emits_numberTurns (query marker : List UInt8) (hquery : Line query)
    (fits : UInt32 → Bool) (n : ℕ) (buf : List UInt8) (value : ℤ) :
    Emits (numberTurns query marker fits n buf value) Lines := by
  induction n generalizing buf value with
  | zero => exact emits_pure _
  | succ n ih =>
    refine emits_bind (emits_write (lines_singleton hquery)) fun _ => ?_
    refine emits_bind (emits_read _ _) fun bs => ?_
    simp only
    split
    · split
      · exact emits_pure _
      · exact ih _ _
    · exact ih _ _

theorem emits_getCGATT (cgatt : ℤ) : Emits (getCGATT cgatt) Lines :=
  emits_numberTurns _ _ line_CGATTGET _ _ _ _

theorem emits_setCGATT (cgatt : ℤ) : Emits (setCGATT cgatt) Lines := by
  have hset : Printable CGATTSET := by decide
  exact emits_atcmdWaitOK _ (line_of_printable _ (by simp [hset])) _ _

theorem emits_bc95CfgBaudRate (old new : UInt32) : Emits (bc95CfgBaudRate old new) Lines := by
  have hname : Printable (bytes "AT+NATSPEED=") := by decide
  have hrest : Printable (bytes ",3,0,2,1") := by decide
  have hline : Line (bytes "AT+NATSPEED=" ++ printD32 new ++ bytes ",3,0,2,1\r\n") := by
    refine line_literal (bytes "AT+NATSPEED=" ++ printD32 new ++ bytes ",3,0,2,1") ?_ _ ?_
    · simp [hname, hrest, printD32]
    · rw [List.append_assoc _ (bytes ",3,0,2,1") ENDFLAG]
      rfl
  refine emits_bind (emits_configure _) fun _ => ?_
  refine emits_bind (emits_atcmdWaitOK _ hline _ _) fun ret => ?_
  refine emits_ite (fun _ => emits_pure _) fun _ => ?_
  refine emits_bind (emits_configure _) fun _ => ?_
  exact emits_bind (emits_atcmdWaitOK _ line_ATSTR _ _) fun _ => emits_pure _

theorem printIp_printable (ip : Vector UInt8 4) : Printable (printIp ip) := by
  have hdot : Printable (bytes ".") := by decide
  simp [printIp, hdot]

theorem line_destinationCmd (config : ConfigUtils.NbModuConfig) : Line (destinationCmd config) := by
  have hname : Printable (bytes "AT+NCDP=") := by decide
  have hcomma : Printable (bytes ",") := by decide
  unfold destinationCmd
  by_cases hmode : config.sendMode = 1
  · rw [if_pos hmode]
    exact line_literal (bytes "AT+NSOCR=DGRAM,17,8888,1") (by decide) _ rfl
  · rw [if_neg hmode]
    exact line_of_printable _ (by simp [hname, hcomma, printIp_printable])

theorem emits_configBc95 (config : ConfigUtils.NbModuConfig) (info : ModuleInfo) :
    Emits (configBc95 config info) Lines := by
  refine emits_bind (emits_configure _) fun _ => ?_
  refine emits_bind (emits_resetPin _) fun _ => ?_
  refine emits_bind (emits_delay _) fun _ => ?_
  refine emits_bind (emits_resetPin _) fun _ => ?_
  refine emits_bind (emits_atcmdWaitOK _ line_ATSTR _ _) fun status => ?_
  refine emits_bind (emits_bc95CfgBaudRate _ _) fun ret => ?_
  refine emits_bind (emits_imeiTurns _ _ _ _) fun ⟨ret', imei, imeiBuf⟩ => ?_
  refine emits_bind (emits_numberTurns _ _ line_NBANDGET _ _ _ _)
    fun ⟨ret'', nband⟩ => ?_
  refine emits_ite (fun _ => ?_) fun _ => emits_bind (emits_ucallWrite _) fun _ => emits_pure _
  refine emits_bind (emits_atcmdWaitOK _ (line_destinationCmd config) _ _) fun ret => ?_
  refine emits_ite (fun _ => ?_) fun _ => emits_pure _
  exact emits_ite (fun _ => emits_bind (emits_ucallWrite _) fun _ => emits_pure _)
    fun _ => emits_bind (emits_ucallWrite _) fun _ => emits_pure _

theorem emits_pollCGATT (deadline : UInt64) (interval n : ℕ) (cgatt : ℤ) :
    Emits (pollCGATT deadline interval n cgatt) Lines := by
  induction n generalizing cgatt with
  | zero => exact emits_hang
  | succ n ih =>
    refine emits_bind emits_now fun t => ?_
    refine emits_ite (fun _ => ?_) fun _ => emits_pure _
    refine emits_bind (emits_getCGATT cgatt) fun ⟨ret, cgatt⟩ => ?_
    refine emits_ite (fun _ => emits_pure _) fun _ => ?_
    refine emits_ite (fun _ => emits_pure _) fun _ => ?_
    exact emits_bind (emits_delay _) fun _ => ih _

/-- BC95_statusManage writes whole lines. -/
theorem emits_statusManage (fuel : ℕ) (config : ConfigUtils.NbModuConfig) (loops interval : ℕ)
    (timeout : UInt64) (info : ModuleInfo) :
    Emits (statusManage fuel config loops interval timeout info) Lines := by
  have hturns : ∀ n status reConfig info,
      Emits (statusTurns fuel config interval timeout n status reConfig info) Lines := by
    intro n
    induction n with
    | zero => exact fun status reConfig info => emits_pure _
    | succ n ih =>
      intro status reConfig info
      have hconfig : Emits (if reConfig then configBc95 config info
          else (pure (0, info) : Bc95 (ℤ × ModuleInfo))) Lines :=
        emits_ite (fun _ => emits_configBc95 config info) fun _ => emits_pure _
      refine emits_bind hconfig fun ⟨ret, info⟩ => ?_
      refine emits_ite (fun _ => emits_pure _) fun _ => ?_
      refine emits_bind (emits_getCGATT 0) fun ⟨ret, cgatt⟩ => ?_
      refine emits_ite (fun _ => ih _ _ _) fun _ => ?_
      refine emits_ite (fun _ => emits_pure _) fun _ => ?_
      refine emits_bind emits_now fun last => ?_
      refine emits_bind (emits_setCGATT 1) fun _ => ?_
      exact emits_bind (emits_pollCGATT _ _ _ _) fun _ => ih _ _ _
  exact hturns loops .deviceOK false info

end Lines

section Pieces

/-- Pieces without control characters and a final CR LF are a command. -/
theorem command_of_printable (init : List (List UInt8)) (h : ∀ p ∈ init, p ≠ [] ∧ Printable p) :
    Command ENDFLAG Line (init ++ [ENDFLAG]) where
  line := by
    rw [List.flatten_append, List.flatten_singleton]
    refine line_of_printable _ fun b hb => ?_
    obtain ⟨p, hp, hbp⟩ := List.mem_flatten.mp hb
    exact (h p hp).2 b hbp
  split := by
    refine ⟨init, ENDFLAG, rfl, List.suffix_refl _, fun p hp => ⟨(h p hp).1, fun b hb heq => ?_⟩⟩
    obtain rfl : b = 10 := Option.some.inj heq
    exact absurd ((h p hp).2 10 hb) (by decide)

theorem hexBytes_printable (bs : List UInt8) :
    ∀ p ∈ bs.map (fun b => printX 2 b.toNat), p ≠ [] ∧ Printable p := by
  intro p hp
  obtain ⟨b, _, rfl⟩ := List.mem_map.mp hp
  exact ⟨printX_ne_nil 2 b.toNat, printable_printX 2 b.toNat⟩

theorem coapHeader_printable (len : ℕ) : coapHeader len ≠ [] ∧ Printable (coapHeader len) := by
  have hname : Printable (bytes "AT+NMGS=") := by decide
  have hzeros : Printable (bytes ",00") := by decide
  exact ⟨by simp [coapHeader, printX_ne_nil], by simp [coapHeader, hname, hzeros]⟩

theorem udpHeader_printable (config : ConfigUtils.NbModuConfig) (len : ℕ) :
    udpHeader config len ≠ [] ∧ Printable (udpHeader config len) := by
  have hname : Printable (bytes "AT+NSOST=0,") := by decide
  have hcomma : Printable (bytes ",") := by decide
  exact ⟨by simp [udpHeader, bytes], by simp [udpHeader, hname, hcomma, printIp_printable]⟩

theorem command_coapPieces (data : List UInt8) : Command ENDFLAG Line (coapPieces data) := by
  refine command_of_printable _ fun p hp => ?_
  rcases List.mem_cons.mp hp with rfl | hp
  · exact coapHeader_printable data.length
  · exact hexBytes_printable data p hp

theorem command_udpPieces (config : ConfigUtils.NbModuConfig) (imei data : List UInt8) :
    Command ENDFLAG Line (udpPieces config imei data) := by
  refine command_of_printable _ fun p hp => ?_
  rcases List.mem_append.mp hp with hp | hp
  · rcases List.mem_cons.mp hp with rfl | hp
    · exact udpHeader_printable config data.length
    · exact hexBytes_printable imei p hp
  · exact hexBytes_printable data p hp

theorem runs_usartWrite {bs : List UInt8} {events : List Call} {u : Unit}
    (h : Runs (usartWrite bs) events u) : events = [⟨.usartWrite bs, ()⟩] := by
  cases h with
  | call h =>
    cases h
    rfl

theorem writes_writeAll (pieces : List (List UInt8)) (events : List Call)
    (h : Runs (writeAll pieces) events ()) : writes events = pieces := by
  induction pieces generalizing events with
  | nil =>
    obtain ⟨rfl, _⟩ := (runs_pure () () events).mp h
    rfl
  | cons bs rest ih =>
    obtain ⟨first, last, _, rfl, hfirst, hlast⟩ := (runs_bind _ _ events ()).mp h
    obtain rfl := runs_usartWrite hfirst
    rw [writes_append, ih last hlast]
    rfl

/-- A run of the sending loop writes the pieces once for each attempt. -/
theorem writes_sendAttempts (fuel : ℕ) (pieces : List (List UInt8)) (n : ℕ) (events : List Call)
    (ret : ℤ) (h : Runs (sendAttempts fuel pieces n) events ret) :
    ∃ k, k ≤ n ∧ (0 < n → 0 < k) ∧ writes events = (List.replicate k pieces).flatten := by
  induction n generalizing events with
  | zero =>
    obtain ⟨rfl, _⟩ := (runs_pure _ _ events).mp h
    exact ⟨0, Nat.le_refl 0, fun hpos => hpos, rfl⟩
  | succ n ih =>
    obtain ⟨first, rest, _, rfl, hfirst, hrest⟩ := (runs_bind _ _ events ret).mp h
    obtain ⟨wait, last, code, rfl, hwait, hlast⟩ := (runs_bind _ _ rest ret).mp hrest
    have hwaits : Emits (waitOKTimeout fuel 5000) fun ws => ws = [] :=
      emits_waitOKTimeout fuel 5000
    have hsilent : writes wait = [] := hwaits wait code hwait
    rw [writes_append, writes_append, writes_writeAll pieces first hfirst, hsilent]
    by_cases hcode : code = 0
    · rw [if_pos hcode] at hlast
      obtain ⟨rfl, _⟩ := (runs_pure _ _ last).mp hlast
      exact ⟨1, by omega, fun _ => Nat.one_pos, by simp [writes]⟩
    · rw [if_neg hcode] at hlast
      obtain ⟨k, hk, _, hwrites⟩ := ih last hlast
      refine ⟨k + 1, by omega, fun _ => Nat.succ_pos k, ?_⟩
      rw [hwrites, List.replicate_succ, List.flatten_cons, List.nil_append]

theorem emits_sendAttempts (fuel : ℕ) (pieces : List (List UInt8))
    (h : Command ENDFLAG Line pieces) (n : ℕ) : Emits (sendAttempts fuel pieces n) Pieces := by
  intro events ret hrun
  obtain ⟨k, _, _, hwrites⟩ := writes_sendAttempts fuel pieces n events ret hrun
  refine ⟨List.replicate k pieces, fun c hc => ?_, hwrites⟩
  rw [List.eq_of_mem_replicate hc]
  exact h

theorem emits_coapMsgSend (fuel : ℕ) (data : List UInt8) (repeats : ℕ) :
    Emits (coapMsgSend fuel data repeats) Pieces :=
  emits_sendAttempts fuel _ (command_coapPieces _) repeats

theorem emits_udpMsgSend (fuel : ℕ) (config : ConfigUtils.NbModuConfig)
    (imei data : List UInt8) (repeats : ℕ) :
    Emits (udpMsgSend fuel config imei data repeats) Pieces :=
  emits_sendAttempts fuel _ (command_udpPieces _ _ _) repeats

end Pieces

section Runs

def writeEvent (w : List UInt8) : Call := ⟨.usartWrite w, ()⟩

theorem runs_writeAll (pieces : List (List UInt8)) :
    Runs (writeAll pieces) (pieces.map writeEvent) () := by
  induction pieces with
  | nil => exact .ret ()
  | cons w pieces ih => exact .call ih

/-- A wait whose first read finds the acknowledgement. -/
theorem runs_waitOKTimeout (fuel : ℕ) (timeout t₀ t₁ : UInt64) (bs : List UInt8)
    (ht : t₁ - t₀ ≤ timeout) (hok : memmem (padded bs) OKSTR ≠ none) :
    Runs (waitOKTimeout (fuel + 1) timeout)
      [⟨.getTimestamp, t₀⟩, ⟨.getTimestamp, t₁⟩, ⟨.usartRead 128 20, bs⟩] 0 := by
  have hread : Runs (do
      let bs ← usartRead 128 20
      if memmem (padded ([] ++ bs)) OKSTR ≠ none then pure 0
      else if memmem (padded ([] ++ bs)) ERRORSTR ≠ none then pure (-1)
      else waitOKLoop timeout t₀ fuel ([] ++ bs) (-1) : Bc95 ℤ) [⟨.usartRead 128 20, bs⟩] 0 := by
    refine .call ?_
    change Runs (if memmem (padded bs) OKSTR ≠ none then _ else _) [] 0
    rw [if_pos hok]
    exact .ret 0
  refine .call (.call ?_)
  change Runs (if t₁ - t₀ ≤ timeout then _ else _) [(⟨.usartRead 128 20, bs⟩ : Call)] 0
  rw [if_pos ht]
  exact hread

/-- A wait whose first read finds an error and no acknowledgement. -/
theorem runs_waitOKTimeout_error (fuel : ℕ) (timeout t₀ t₁ : UInt64) (bs : List UInt8)
    (ht : t₁ - t₀ ≤ timeout) (hok : memmem (padded bs) OKSTR = none)
    (herror : memmem (padded bs) ERRORSTR ≠ none) :
    Runs (waitOKTimeout (fuel + 1) timeout)
      [⟨.getTimestamp, t₀⟩, ⟨.getTimestamp, t₁⟩, ⟨.usartRead 128 20, bs⟩] (-1) := by
  have hread : Runs (do
      let bs ← usartRead 128 20
      if memmem (padded ([] ++ bs)) OKSTR ≠ none then pure 0
      else if memmem (padded ([] ++ bs)) ERRORSTR ≠ none then pure (-1)
      else waitOKLoop timeout t₀ fuel ([] ++ bs) (-1) : Bc95 ℤ)
        [⟨.usartRead 128 20, bs⟩] (-1) := by
    refine .call ?_
    change Runs (if memmem (padded bs) OKSTR ≠ none then _ else
      if memmem (padded bs) ERRORSTR ≠ none then _ else _) [] (-1)
    rw [if_neg (not_not_intro hok), if_pos herror]
    exact .ret (-1)
  refine .call (.call ?_)
  change Runs (if t₁ - t₀ ≤ timeout then _ else _) [(⟨.usartRead 128 20, bs⟩ : Call)] (-1)
  rw [if_pos ht]
  exact hread

end Runs

end GemhoNbiot.Bc95Writes
