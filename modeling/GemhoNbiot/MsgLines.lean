import Mathlib.Data.List.DropRight
import GemhoNbiot.Bc95Writes
import GemhoNbiot.HexText

/-!
The command lines of coap_msgSend and udp_msgSend. The pieces written by one
attempt make up one line that declares the length of its last field, and that
field is the payload in hexadecimal: for CoAP a zero, the length of the message
and the message, for UDP the IMEI and the message. A reader of the line takes
the text after the last comma and gets the payload back.
-/
namespace GemhoNbiot.MsgLines

open Memmem Stdio ScanPrint HexText ConfigUtils Commands Program Bc95Driver WireLines Bc95Writes

/-- The part of a message that is sent. -/
def sent (data : List UInt8) : List UInt8 := data.take MSG_MAXLEN

def coapLine (d : List UInt8) : List UInt8 := (coapPieces d).flatten

def udpLine (config : NbModuConfig) (imei d : List UInt8) : List UInt8 :=
  (udpPieces config imei d).flatten

/-- A line of fields, a count and as many bytes in hexadecimal. -/
structure Carries (fields payload line : List UInt8) : Prop where
  oneLine : Line line
  short : payload.length ≤ 512
  field : ∃ H, line = fields ++ decimal payload.length ++ bytes "," ++ H ++ ENDFLAG ∧
    H.length = 2 * payload.length ∧ (∀ c ∈ H, isHexDigit c = true) ∧ unhex H = some payload

/-- The calls write the line once for each attempt, of which there are at most `n`. -/
def Attempts (n : ℕ) (line : List UInt8) (ws : List (List UInt8)) : Prop :=
  ∃ cmds : List (List (List UInt8)), ws = cmds.flatten ∧ cmds.length ≤ n ∧
    (0 < n → cmds ≠ []) ∧ ∀ c ∈ cmds, c.flatten = line

def coapPayload (d : List UInt8) : List UInt8 := 0 :: bigEndian d.length ++ d

def udpFields (config : NbModuConfig) : List UInt8 :=
  bytes "AT+NSOST=0," ++ printIp config.ip ++ bytes "," ++ decimal config.port.toNat ++ bytes ","

/-- The payload of a line: what its last field stands for. -/
def payloadOf (line : List UInt8) : Option (List UInt8) :=
  unhex ((line.rdrop ENDFLAG.length).rtakeWhile fun b => b ≠ 44)

section Buffers

/-- The first text of coap_msgSend fits in its buffer. -/
theorem coapHeader_length_lt (len : ℕ) (h : len ≤ MSG_MAXLEN) :
    (coapHeader len).length < bufSize := by
  have hname : (bytes "AT+NMGS=").length = 8 := by rfl
  have hzeros : (bytes ",00").length = 3 := by rfl
  have hmax : len ≤ 490 := h
  have hdec := decimal_length_le (len + 3) 3 (by omega) (by omega)
  have hhex : (printX 4 len).length = 4 := by
    rw [printX_four len (by omega), hexText_length, bigEndian]
    rfl
  rw [coapHeader, List.length_append, List.length_append, List.length_append, hname, hzeros, hhex,
    bufSize]
  omega

theorem printIp_length_le (ip : Vector UInt8 4) : (printIp ip).length ≤ 15 := by
  have hdot : (bytes ".").length = 1 := by rfl
  have hpart : ∀ b : UInt8, (decimal b.toNat).length ≤ 3 := by
    intro b
    have hb := b.toNat_lt
    exact decimal_length_le b.toNat 3 (by omega) (by omega)
  have h₀ := hpart (ip.get 0)
  have h₁ := hpart (ip.get 1)
  have h₂ := hpart (ip.get 2)
  have h₃ := hpart (ip.get 3)
  simp only [printIp, List.length_append, hdot]
  omega

/-- The first text of udp_msgSend fits in its buffer. -/
theorem udpHeader_length_lt (config : NbModuConfig) (len : ℕ) (h : len ≤ MSG_MAXLEN) :
    (udpHeader config len).length < bufSize := by
  have hname : (bytes "AT+NSOST=0,").length = 11 := by rfl
  have hcomma : (bytes ",").length = 1 := by rfl
  have hmax : len ≤ 490 := h
  have hport := config.port.toNat_lt
  have hip := printIp_length_le config.ip
  have hdec := decimal_length_le (len + 15) 3 (by omega) (by omega)
  have hportDec := decimal_length_le config.port.toNat 5 (by omega) (by omega)
  simp only [udpHeader, List.length_append, hname, hcomma, bufSize]
  omega

end Buffers

section Lines

theorem sent_length_le (data : List UInt8) : (sent data).length ≤ 490 :=
  List.length_take_le 490 data

/-- The concatenated pieces of a command with its bytes in hexadecimal. -/
theorem coapLine_eq (d : List UInt8) (h : d.length ≤ 490) :
    coapLine d = bytes "AT+NMGS=" ++ decimal (coapPayload d).length ++ bytes "," ++
      hexText (coapPayload d) ++ ENDFLAG := by
  have hlen : (coapPayload d).length = d.length + 3 := by simp [coapPayload, bigEndian]
  have hzeros : bytes ",00" = bytes "," ++ hexText [0] := by decide +kernel
  have hpayload : hexText (coapPayload d) = hexText [0] ++ (printX 4 d.length ++ hexText d) := by
    rw [printX_four d.length (by omega), ← hexText_append, ← hexText_append]
    rfl
  have hpieces : coapLine d = coapHeader d.length ++ (hexText d ++ ENDFLAG) := by
    rw [coapLine, coapPieces, List.cons_append, List.flatten_cons, List.flatten_append,
      List.flatten_singleton, hexText]
  rw [hpieces, hpayload, hlen, coapHeader, hzeros]
  simp only [List.append_assoc]

theorem udpLine_eq (config : NbModuConfig) (imei d : List UInt8) (h : imei.length = 15) :
    udpLine config imei d = udpFields config ++ decimal (imei ++ d).length ++ bytes "," ++
      hexText (imei ++ d) ++ ENDFLAG := by
  have hlen : (imei ++ d).length = d.length + 15 := by
    rw [List.length_append, h, Nat.add_comm]
  have hpieces : udpLine config imei d =
      udpHeader config d.length ++ (hexText imei ++ (hexText d ++ ENDFLAG)) := by
    rw [udpLine, udpPieces, List.cons_append, List.cons_append, List.flatten_cons,
      List.flatten_append, List.flatten_append, List.flatten_singleton, hexText, hexText,
      List.append_assoc]
  rw [hpieces, hlen, udpHeader, udpFields, hexText_append]
  simp only [List.append_assoc]

/-- A line with a payload in hexadecimal carries it. -/
theorem carries_of_eq (fields payload line : List UInt8) (hline : Line line)
    (hshort : payload.length ≤ 512)
    (heq : line = fields ++ decimal payload.length ++ bytes "," ++ hexText payload ++ ENDFLAG) :
    Carries fields payload line where
  oneLine := hline
  short := hshort
  field := ⟨hexText payload, heq, hexText_length payload, hexText_isHexDigit payload,
    unhex_hexText payload⟩

theorem carries_coapLine (d : List UInt8) (h : d.length ≤ 490) :
    Carries (bytes "AT+NMGS=") (coapPayload d) (coapLine d) := by
  refine carries_of_eq _ _ _ (command_coapPieces d).line ?_ (coapLine_eq d h)
  simp only [coapPayload, bigEndian, List.length_append, List.length_cons, List.length_nil]
  omega

theorem carries_udpLine (config : NbModuConfig) (imei d : List UInt8) (himei : imei.length = 15)
    (h : d.length ≤ 490) :
    Carries (udpFields config) (imei ++ d) (udpLine config imei d) := by
  refine carries_of_eq _ _ _ (command_udpPieces config imei d).line ?_
    (udpLine_eq config imei d himei)
  rw [List.length_append]
  omega

end Lines

section Decode

theorem rtakeWhile_field (front field : List UInt8) (h : 44 ∉ field) :
    (front ++ bytes "," ++ field).rtakeWhile (fun b => b ≠ 44) = field := by
  have hpass : ∀ b ∈ field.reverse, decide (b ≠ 44) = true := by
    intro b hb
    have hne : b ≠ 44 := by
      intro heq
      rw [heq, List.mem_reverse] at hb
      exact h hb
    simpa using hne
  have hcomma : (bytes ",").reverse = [44] := by rfl
  rw [List.rtakeWhile, List.reverse_append, List.reverse_append, hcomma,
    List.takeWhile_append_of_pos hpass, List.singleton_append,
    List.takeWhile_cons_of_neg (by simp), List.append_nil, List.reverse_reverse]

/-- The payload of a line that carries it is read back from the line alone. -/
theorem Carries.payloadOf_eq {fields payload line : List UInt8} (h : Carries fields payload line) :
    payloadOf line = some payload := by
  obtain ⟨field, rfl, _, hdigits, hunhex⟩ := h.field
  have hcomma : 44 ∉ field := by
    intro hmem
    exact absurd (hdigits 44 hmem) (by decide)
  have hdrop : (fields ++ decimal payload.length ++ bytes "," ++ field ++ ENDFLAG).rdrop
      ENDFLAG.length = fields ++ decimal payload.length ++ bytes "," ++ field :=
    List.rdrop_append_length
  rw [payloadOf, hdrop, rtakeWhile_field _ field hcomma, hunhex]

example : payloadOf (bytes "AT+NMGS=4,00000107\r\n") = some [0, 0, 1, 7] := by
  decide +kernel

theorem Carries.payload_eq {fields payload fields' payload' line : List UInt8}
    (h : Carries fields payload line) (h' : Carries fields' payload' line) :
    payload = payload' := by
  have heq := h.payloadOf_eq
  rw [h'.payloadOf_eq] at heq
  exact (Option.some.inj heq).symm

end Decode

section Attempts

theorem attempts_sendAttempts (fuel : ℕ) (pieces : List (List UInt8)) (n : ℕ)
    (events : List Call) (ret : ℤ) (h : Runs (sendAttempts fuel pieces n) events ret) :
    Attempts n pieces.flatten (writes events) := by
  obtain ⟨k, hk, hpos, hwrites⟩ := writes_sendAttempts fuel pieces n events ret h
  refine ⟨List.replicate k pieces, hwrites, by rwa [List.length_replicate], ?_, ?_⟩
  · intro hn hnil
    have hzero : k = 0 := by simpa using hnil
    exact absurd (hpos hn) (by omega)
  · intro c hc
    rw [List.eq_of_mem_replicate hc]

/-- Both encoders write one decodable line for each attempt, and the lines of
different messages differ. -/
theorem encoders_decodable (data : List UInt8) (config : NbModuConfig) (imei : List UInt8)
    (himei : imei.length = 15) :
    (∀ fuel n events ret, Runs (coapMsgSend fuel data n) events ret →
      Attempts n (coapLine (sent data)) (writes events)) ∧
    (∀ fuel n events ret, Runs (udpMsgSend fuel config imei data n) events ret →
      Attempts n (udpLine config imei (sent data)) (writes events)) ∧
    Carries (bytes "AT+NMGS=") (coapPayload (sent data)) (coapLine (sent data)) ∧
    (coapPayload (sent data)).length = (sent data).length + 3 ∧
    Carries (udpFields config) (imei ++ sent data) (udpLine config imei (sent data)) ∧
    (imei ++ sent data).length = (sent data).length + 15 ∧
    (∀ data', coapLine (sent data') = coapLine (sent data) → sent data' = sent data) ∧
    ∀ config' imei' data', imei'.length = 15 →
      udpLine config' imei' (sent data') = udpLine config imei (sent data) →
      sent data' = sent data := by
  have hcoap : ∀ data, Carries (bytes "AT+NMGS=") (coapPayload (sent data))
      (coapLine (sent data)) := fun data => carries_coapLine _ (sent_length_le data)
  have hudp := carries_udpLine config imei (sent data) himei (sent_length_le data)
  refine ⟨fun fuel n events ret hrun => attempts_sendAttempts fuel _ n events ret hrun,
    fun fuel n events ret hrun => attempts_sendAttempts fuel _ n events ret hrun,
    hcoap data, ?_, hudp, ?_, ?_, ?_⟩
  · simp [coapPayload, bigEndian]
  · rw [List.length_append, himei, Nat.add_comm]
  · intro data' heq
    have hdata' := hcoap data'
    rw [heq] at hdata'
    have hpayload := hdata'.payload_eq (hcoap data)
    exact List.append_inj_right hpayload rfl
  · intro config' imei' data' himei' heq
    have hudp' := carries_udpLine config' imei' (sent data') himei' (sent_length_le data')
    rw [heq] at hudp'
    exact List.append_inj_right (hudp'.payload_eq hudp) (by rw [himei', himei])

/-- The two lines of a message of five bytes. No other message has its CoAP line. -/
theorem encoders_decodable_five :
    Carries (bytes "AT+NMGS=") [0, 0, 5, 0, 13, 171, 255, 65]
        (bytes "AT+NMGS=8,000005000DABFF41\r\n") ∧
      Carries (udpFields lDefaultNbMCFG) (bytes "863703030000000" ++ [0, 13, 171, 255, 65])
        (bytes "AT+NSOST=0,117.60.157.137,5683,20,383633373033303330303030303030000DABFF41\r\n") ∧
      ∀ data, coapLine (sent data) = bytes "AT+NMGS=8,000005000DABFF41\r\n" →
        sent data = [0, 13, 171, 255, 65] := by
  have hcoapLine : coapLine (sent [0, 13, 171, 255, 65]) =
      bytes "AT+NMGS=8,000005000DABFF41\r\n" := by
    decide +kernel
  have hudpLine : udpLine lDefaultNbMCFG (bytes "863703030000000") (sent [0, 13, 171, 255, 65]) =
      bytes "AT+NSOST=0,117.60.157.137,5683,20,383633373033303330303030303030000DABFF41\r\n" := by
    decide +kernel
  obtain ⟨_, _, hcoap, _, hudp, _, hinj, _⟩ :=
    encoders_decodable [0, 13, 171, 255, 65] lDefaultNbMCFG (bytes "863703030000000") (by decide)
  rw [hcoapLine] at hcoap hinj
  rw [hudpLine] at hudp
  exact ⟨hcoap, hudp, hinj⟩

end Attempts

end GemhoNbiot.MsgLines
