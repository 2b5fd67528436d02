import GemhoNbiot.MsgLines

/-!
The command lines on BC95COM as a reader of the wire sees them. A line of
coap_msgSend or udp_msgSend stands for its message; every other line that the
driver writes is one of seven commands and stands for none. So the lines alone
tell the messages apart from the commands of the status checks.
-/
namespace GemhoNbiot.WireMessages

open Memmem Stdio ConfigUtils Commands Program Bc95Driver WireLines Bc95Writes MsgLines

/-- The message of a line: the last field of AT+NMGS without the zero and the
length, that of AT+NSOST without the IMEI. -/
def messageOf (line : List UInt8) : Option (List UInt8) :=
  if (bytes "AT+NMGS=").isPrefixOf line then (payloadOf line).map fun d => d.drop 3
  else if (bytes "AT+NSOST=").isPrefixOf line then (payloadOf line).map fun d => d.drop 15
  else none

/-- The messages of a sequence of lines. -/
def messages (lines : List (List UInt8)) : List (List UInt8) := lines.filterMap messageOf

theorem messages_append (lines rest : List (List UInt8)) :
    messages (lines ++ rest) = messages lines ++ messages rest :=
  List.filterMap_append

section MessageLines

theorem messageOf_coapLine (d : List UInt8) (h : d.length ≤ 490) :
    messageOf (coapLine d) = some d := by
  have hcarries := carries_coapLine d h
  obtain ⟨H, hline, _⟩ := hcarries.field
  have hname : (bytes "AT+NMGS=").isPrefixOf (coapLine d) = true := by
    rw [List.isPrefixOf_iff_prefix, hline]
    simp only [List.append_assoc]
    exact List.prefix_append _ _
  rw [messageOf, if_pos hname, hcarries.payloadOf_eq]
  rfl

theorem messageOf_udpLine (config : NbModuConfig) (imei d : List UInt8) (himei : imei.length = 15)
    (h : d.length ≤ 490) : messageOf (udpLine config imei d) = some d := by
  have hcarries := carries_udpLine config imei d himei h
  obtain ⟨H, hline, _⟩ := hcarries.field
  have hprefix : bytes "AT+NSOST=" <+: udpLine config imei d := by
    have hsplit : bytes "AT+NSOST=0," = bytes "AT+NSOST=" ++ bytes "0," := by rfl
    rw [hline, udpFields, hsplit]
    simp only [List.append_assoc]
    exact List.prefix_append _ _
  have hother : (bytes "AT+NMGS=").isPrefixOf (udpLine config imei d) = false := by
    obtain ⟨rest, hrest⟩ := hprefix
    rw [← hrest]
    rfl
  have hname : (bytes "AT+NSOST=").isPrefixOf (udpLine config imei d) = true :=
    List.isPrefixOf_iff_prefix.mpr hprefix
  rw [messageOf, hother, if_neg Bool.false_ne_true, if_pos hname, hcarries.payloadOf_eq,
    Option.map_some, ← himei, List.drop_left]

end MessageLines

/-- The commands of config_bc95 and BC95_statusManage. -/
inductive Query (config : NbModuConfig) : List UInt8 → Prop
  | attention : Query config ATSTR
  | imei : Query config IMEIGET
  | nband : Query config NBANDGET
  | cgatt : Query config CGATTGET
  | attach : Query config (CGATTSET ++ printD 1 ++ ENDFLAG)
  | speed : Query config (bytes "AT+NATSPEED=" ++ printD32 config.baudrate ++ bytes ",3,0,2,1\r\n")
  | destination : Query config (destinationCmd config)

/-- The operations of config_bc95 and BC95_statusManage; `interval` is the pause of
the latter between two looks at CGATT. -/
inductive Routine (config : NbModuConfig) (interval : ℕ) : Op → Prop
  | write {bs : List UInt8} (h : Query config bs) : Routine config interval (.usartWrite bs)
  | read (timeout : ℕ) : Routine config interval (.usartRead bufSize timeout)
  | getTimestamp : Routine config interval .getTimestamp
  | threadDelay {ticks : ℕ} (h : ticks = 110 ∨ ticks = interval) :
      Routine config interval (.threadDelay ticks)
  | usartConfigure (baudrate : UInt32) : Routine config interval (.usartConfigure baudrate)
  | resetPin (level : Bool) : Routine config interval (.resetPin level)
  | ucallWrite (bs : List UInt8) : Routine config interval (.ucallWrite bs)

/-- The property of having these calls only. -/
def Only (P : Op → Prop) (events : List Call) : Prop := ∀ e ∈ events, P e.1

instance (P : Op → Prop) : Closed (Only P) where
  nil := List.forall_mem_nil _
  append := fun _ _ hfirst hrest => List.forall_mem_append.mpr ⟨hfirst, hrest⟩

theorem only_perform {P : Op → Prop} {op : Op} (h : P op) : Always (Prog.perform op) (Only P) := by
  refine always_perform op fun r => ?_
  rw [Only, List.forall_mem_singleton]
  exact h

section Routines

variable {config : NbModuConfig} {interval : ℕ}

theorem only_atcmdWaitOK {cmd : List UInt8} (h : Query config cmd) (timeout n : ℕ) :
    Always (atcmdWaitOK cmd timeout n) (Only (Routine config interval)) := by
  induction n with
  | zero => exact always_pure _
  | succ n ih =>
    have hwait : Always (waitOK timeout) (Only (Routine config interval)) :=
      always_bind (only_perform (.read timeout)) fun _ => always_pure _
    refine always_bind (only_perform (.write h)) fun _ => always_bind hwait fun ret => ?_
    exact always_ite (fun _ => always_pure _) fun _ => ih

theorem only_imeiTurns (n : ℕ) (buf imei : List UInt8) (ret : ℤ) :
    Always (imeiTurns n buf imei ret) (Only (Routine config interval)) := by
  induction n generalizing buf imei ret with
  | zero => exact always_pure _
  | succ n ih =>
    refine always_bind (only_perform (.write .imei)) fun _ => ?_
    refine always_bind (only_perform (.read 100)) fun bs => ?_
    simp only
    split
    · split
      · exact ih _ _ _
      · exact ih _ _ _
    · exact ih _ _ _

theorem only_numberTurns {query : List UInt8} (h : Query config query) (marker : List UInt8)
    (fits : UInt32 → Bool) (n : ℕ) (buf : List UInt8) (value : ℤ) :
    Always (numberTurns query marker fits n buf value) (Only (Routine config interval)) := by
  induction n generalizing buf value with
  | zero => exact always_pure _
  | succ n ih =>
    refine always_bind (only_perform (.write h)) fun _ => ?_
    refine always_bind (only_perform (.read 300)) fun bs => ?_
    simp only
    split
    · split
      · exact always_pure _
      · exact ih _ _
    · exact ih _ _

theorem only_bc95CfgBaudRate (old : UInt32) :
    Always (bc95CfgBaudRate old config.baudrate) (Only (Routine config interval)) := by
  refine always_bind (only_perform (.usartConfigure _)) fun _ => ?_
  refine always_bind (only_atcmdWaitOK .speed _ _) fun ret => ?_
  refine always_ite (fun _ => always_pure _) fun _ => ?_
  refine always_bind (only_perform (.usartConfigure _)) fun _ => ?_
  exact always_bind (only_atcmdWaitOK .attention _ _) fun _ => always_pure _

theorem only_configBc95 (info : ModuleInfo) :
    Always (configBc95 config info) (Only (Routine config interval)) := by
  refine always_bind (only_perform (.usartConfigure _)) fun _ => ?_
  refine always_bind (only_perform (.resetPin _)) fun _ => ?_
  refine always_bind (only_perform (.threadDelay (Or.inl rfl))) fun _ => ?_
  refine always_bind (only_perform (.resetPin _)) fun _ => ?_
  refine always_bind (only_atcmdWaitOK .attention _ _) fun status => ?_
  refine always_bind (only_bc95CfgBaudRate _) fun ret => ?_
  refine always_bind (only_imeiTurns _ _ _ _) fun ⟨ret', imei, imeiBuf⟩ => ?_
  refine always_bind (only_numberTurns .nband _ _ _ _ _) fun ⟨ret'', nband⟩ => ?_
  have htell : ∀ (bs : List UInt8) (r : ℤ × ModuleInfo),
      Always (ucallWrite bs >>= fun _ => pure r) (Only (Routine config interval)) :=
    fun bs r => always_bind (only_perform (.ucallWrite bs)) fun _ => always_pure _
  refine always_ite (fun _ => ?_) fun _ => htell _ _
  refine always_bind (only_atcmdWaitOK .destination _ _) fun ret => ?_
  refine always_ite (fun _ => ?_) fun _ => always_pure _
  exact always_ite (fun _ => htell _ _) fun _ => htell _ _

theorem only_getCGATT (cgatt : ℤ) : Always (getCGATT cgatt) (Only (Routine config interval)) :=
  only_numberTurns .cgatt _ _ _ _ _

theorem only_pollCGATT (deadline : UInt64) (n : ℕ) (cgatt : ℤ) :
    Always (pollCGATT deadline interval n cgatt) (Only (Routine config interval)) := by
  induction n generalizing cgatt with
  | zero => exact always_hang
  | succ n ih =>
    refine always_bind (only_perform .getTimestamp) fun t => ?_
    refine always_ite (fun _ => ?_) fun _ => always_pure _
    refine always_bind (only_getCGATT cgatt) fun ⟨ret, cgatt⟩ => ?_
    refine always_ite (fun _ => always_pure _) fun _ => ?_
    refine always_ite (fun _ => always_pure _) fun _ => ?_
    exact always_bind (only_perform (.threadDelay (Or.inr rfl))) fun _ => ih _

theorem only_statusTurns (fuel : ℕ) (timeout : UInt64) (n : ℕ) (status : DeviceStatus)
    (reConfig : Bool) (info : ModuleInfo) :
    Always (statusTurns fuel config interval timeout n status reConfig info)
      (Only (Routine config interval)) := by
  induction n generalizing status reConfig info with
  | zero => exact always_pure _
  | succ n ih =>
    have hconfig : Always (if reConfig then configBc95 config info
        else (pure (0, info) : Bc95 (ℤ × ModuleInfo))) (Only (Routine config interval)) :=
      always_ite (fun _ => only_configBc95 info) fun _ => always_pure _
    refine always_bind hconfig fun ⟨ret, info⟩ => ?_
    refine always_ite (fun _ => always_pure _) fun _ => ?_
    refine always_bind (only_getCGATT 0) fun ⟨ret, cgatt⟩ => ?_
    refine always_ite (fun _ => ih _ _ _) fun _ => ?_
    refine always_ite (fun _ => always_pure _) fun _ => ?_
    refine always_bind (only_perform .getTimestamp) fun last => ?_
    refine always_bind (only_atcmdWaitOK .attach _ _) fun _ => ?_
    exact always_bind (only_pollCGATT _ _ _) fun _ => ih _ _ _

/-- BC95_statusManage makes no other calls. -/
theorem only_statusManage (fuel loops : ℕ) (timeout : UInt64) (info : ModuleInfo) :
    Always (statusManage fuel config loops interval timeout info)
      (Only (Routine config interval)) :=
  only_statusTurns fuel timeout loops .deviceOK false info

end Routines

section Silence

variable {config : NbModuConfig} {w : List UInt8}

theorem Query.messageOf_eq (h : Query config w) : messageOf w = none := by
  cases h with
  | attention => rfl
  | imei => rfl
  | nband => rfl
  | cgatt => rfl
  | attach => rfl
  | speed => rfl
  | destination =>
    unfold destinationCmd
    by_cases hmode : config.sendMode = 1
    · rw [if_pos hmode]
      rfl
    · rw [if_neg hmode]
      rfl

/-- The calls of config_bc95 and BC95_statusManage write no message. -/
theorem messages_of_routines {interval : ℕ} {events : List Call}
    (h : Only (Routine config interval) events) : messages (writes events) = [] := by
  rw [messages, List.filterMap_eq_nil_iff]
  intro w hw
  obtain ⟨e, he, hwrite⟩ := List.mem_filterMap.mp hw
  obtain ⟨op, r⟩ := e
  have hop := h _ he
  cases hop with
  | write hquery =>
    obtain rfl := Option.some.inj hwrite
    exact hquery.messageOf_eq
  | _ => exact absurd hwrite nofun

end Silence

end GemhoNbiot.WireMessages
