import GemhoNbiot.Commands
import GemhoNbiot.Program

/-!
The functions of src/main.c that talk to the BC95 module, as programs over the
operations they call: the serial port BC95COM, the clock, delays, the reset pin
and the user ports. A loop that runs until the clock says so takes a bound on
its turns and hangs beyond it. Buffers are padded with zeros where the code
searches the whole buffer.
-/
namespace GemhoNbiot.Bc95Driver

open Memmem Stdio ConfigUtils Commands Program

inductive Op
  | usartWrite (bs : List UInt8)
  | usartRead (len timeout : ℕ)
  | getTimestamp
  | threadDelay (ticks : ℕ)
  | usartConfigure (baudrate : UInt32)
  | resetPin (level : Bool)
  | ucallWrite (bs : List UInt8)

/-- A read returns the bytes it stored. -/
abbrev Op.Res : Op → Type
  | .usartRead _ _ => List UInt8
  | .getTimestamp => UInt64
  | _ => Unit

abbrev Bc95 := Prog Op Op.Res

abbrev Call := Event Op Op.Res

def usartWrite (bs : List UInt8) : Bc95 Unit := Prog.perform (Op.usartWrite bs)
def usartRead (len timeout : ℕ) : Bc95 (List UInt8) := Prog.perform (Op.usartRead len timeout)
def getTimestamp : Bc95 UInt64 := Prog.perform Op.getTimestamp
def threadDelay (ticks : ℕ) : Bc95 Unit := Prog.perform (Op.threadDelay ticks)
def usartConfigure (baudrate : UInt32) : Bc95 Unit := Prog.perform (Op.usartConfigure baudrate)
def resetPin (level : Bool) : Bc95 Unit := Prog.perform (Op.resetPin level)
def ucallWrite (bs : List UInt8) : Bc95 Unit := Prog.perform (Op.ucallWrite bs)

def ATSTR : List UInt8 := bytes "AT\r\n"
def IMEIGET : List UInt8 := bytes "AT+CGSN=1\r\n"
def IMEIRTN : List UInt8 := bytes "+CGSN:"
def NBANDGET : List UInt8 := bytes "AT+NBAND?\r\n"
def NBANDRTN : List UInt8 := bytes "+NBAND:"
def CGATTGET : List UInt8 := bytes "AT+CGATT?\r\n"
def CGATTSET : List UInt8 := bytes "AT+CGATT="
def CGATTRTN : List UInt8 := bytes "+CGATT:"
def ENDOK : List UInt8 := bytes "\r\n\r\nOK"
def MSG_MAXLEN : ℕ := 490
def BC95ORGBAUDRATE : UInt32 := 9600

/-- sizeof(buf) of these functions. -/
def bufSize : ℕ := 128

/-- A zeroed buffer with these bytes at its start. -/
def padded (bs : List UInt8) : List UInt8 := bs ++ List.replicate (bufSize - bs.length) 0

/-- The loop of wait_OK_timeout: `buf` holds the bytes read so far. -/
def waitOKLoop (timeout last : UInt64) : ℕ → List UInt8 → ℤ → Bc95 ℤ
  | 0, _, _ => .hang
  | n + 1, buf, ret => do
    let t ← getTimestamp
    if t - last ≤ timeout then
      let bs ← usartRead (bufSize - buf.length) 20
      let buf := buf ++ bs
      if memmem (padded buf) OKSTR ≠ none then pure 0
      else if memmem (padded buf) ERRORSTR ≠ none then pure (-1)
      else waitOKLoop timeout last n buf (-1)
    else
      pure ret

def waitOKTimeout (fuel : ℕ) (timeout : UInt64) : Bc95 ℤ := do
  let last ← getTimestamp
  waitOKLoop timeout last fuel [] 0

def waitOK (timeout : ℕ) : Bc95 ℤ := do
  let bs ← usartRead bufSize timeout
  pure (if memmem (padded bs) OKSTR ≠ none then 0 else -1)

/-- One usart_write for each piece. -/
def writeAll : List (List UInt8) → Bc95 Unit
  | [] => pure ()
  | bs :: rest => do
    usartWrite bs
    writeAll rest

/-- The first write of coap_msgSend. -/
def coapHeader (len : ℕ) : List UInt8 :=
  bytes "AT+NMGS=" ++ decimal (len + 3) ++ bytes ",00" ++ printX 4 len

/-- The first write of udp_msgSend. -/
def udpHeader (config : NbModuConfig) (len : ℕ) : List UInt8 :=
  bytes "AT+NSOST=0," ++ printIp config.ip ++ bytes "," ++ decimal config.port.toNat ++
    bytes "," ++ decimal (len + 15) ++ bytes ","

/-- The pieces of the command of coap_msgSend. -/
def coapPieces (data : List UInt8) : List (List UInt8) :=
  coapHeader data.length :: data.map (fun b => printX 2 b.toNat) ++ [ENDFLAG]

/-- The pieces of the command of udp_msgSend. -/
def udpPieces (config : NbModuConfig) (imei data : List UInt8) : List (List UInt8) :=
  udpHeader config data.length :: imei.map (fun b => printX 2 b.toNat) ++
    data.map (fun b => printX 2 b.toNat) ++ [ENDFLAG]

/-- The loop of coap_msgSend and udp_msgSend with `n` attempts left. -/
def sendAttempts (fuel : ℕ) (pieces : List (List UInt8)) : ℕ → Bc95 ℤ
  | 0 => pure (-1)
  | n + 1 => do
    writeAll pieces
    let ret ← waitOKTimeout fuel 5000
    if ret = 0 then pure 0 else sendAttempts fuel pieces n

def coapMsgSend (fuel : ℕ) (data : List UInt8) (repeats : ℕ) : Bc95 ℤ :=
  sendAttempts fuel (coapPieces (data.take MSG_MAXLEN)) repeats

def udpMsgSend (fuel : ℕ) (config : NbModuConfig) (imei data : List UInt8) (repeats : ℕ) :
    Bc95 ℤ :=
  sendAttempts fuel (udpPieces config imei (data.take MSG_MAXLEN)) repeats

/-- ATCMD_waitOK with `n` turns left. -/
def atcmdWaitOK (cmd : List UInt8) (timeout : ℕ) : ℕ → Bc95 ℤ
  | 0 => pure (-1)
  | n + 1 => do
    usartWrite cmd
    let ret ← waitOK timeout
    if ret = 0 then pure 0 else atcmdWaitOK cmd timeout n

/-- What a read leaves in a buffer that is not cleared before it. -/
def overlay (buf bs : List UInt8) : List UInt8 := bs ++ buf.drop bs.length

/-- pEnd - pStart - strlen(marker), in the unsigned arithmetic of the code. -/
def gap (pStart pEnd : ℕ) (marker : List UInt8) : UInt32 :=
  UInt32.ofInt ((pEnd : ℤ) - pStart - marker.length)

/-- get_IMEI with `n` turns left: its buffer is static, and it does not stop at
the first good reply. -/
def imeiTurns : ℕ → List UInt8 → List UInt8 → ℤ → Bc95 (ℤ × List UInt8 × List UInt8)
  | 0, buf, imei, ret => pure (ret, imei, buf)
  | n + 1, buf, imei, ret => do
    usartWrite IMEIGET
    let bs ← usartRead bufSize 100
    let buf := overlay buf bs
    match bs.length, memmem buf IMEIRTN, memmem buf ENDOK with
    | _ + 1, some pStart, some pEnd =>
      if gap pStart pEnd IMEIRTN = 15 then
        imeiTurns n buf ((buf.drop (pStart + IMEIRTN.length)).take 15) 0
      else
        imeiTurns n buf imei ret
    | _, _, _ => imeiTurns n buf imei ret

def getIMEI (buf imei : List UInt8) : Bc95 (ℤ × List UInt8 × List UInt8) :=
  imeiTurns 3 buf imei (-1)

/-- get_NBAND and get_CGATT with `n` turns left: they send `query` and look for
the marker; `fits` is the test on the distance to the end. -/
def numberTurns (query marker : List UInt8) (fits : UInt32 → Bool) :
    ℕ → List UInt8 → ℤ → Bc95 (ℤ × ℤ)
  | 0, _, value => pure (-1, value)
  | n + 1, buf, value => do
    usartWrite query
    let bs ← usartRead bufSize 300
    let buf := overlay buf bs
    match bs.length, memmem buf marker, memmem buf ENDOK with
    | _ + 1, some pStart, some pEnd =>
      if fits (gap pStart pEnd marker) then
        pure (0, (buf.getD (pStart + marker.length) 0).toNat - 48)
      else
        numberTurns query marker fits n buf value
    | _, _, _ => numberTurns query marker fits n buf value

def getNBAND (nband : ℤ) : Bc95 (ℤ × ℤ) :=
  numberTurns NBANDGET NBANDRTN (· ≤ 3) 3 (padded []) nband

def getCGATT (cgatt : ℤ) : Bc95 (ℤ × ℤ) :=
  numberTurns CGATTGET CGATTRTN (· = 1) 3 (padded []) cgatt

/-- set_CGATT. -/
def setCGATT (cgatt : ℤ) : Bc95 ℤ :=
  atcmdWaitOK (CGATTSET ++ printD cgatt ++ ENDFLAG) 100 3

def bc95CfgBaudRate (old new : UInt32) : Bc95 ℤ := do
  usartConfigure old
  let ret ← atcmdWaitOK (bytes "AT+NATSPEED=" ++ printD32 new ++ bytes ",3,0,2,1\r\n") 30 60
  if ret ≠ 0 then
    pure (-1)
  else
    usartConfigure new
    let ret ← atcmdWaitOK ATSTR 30 3
    pure (if ret ≠ 0 then -1 else 0)

/-- `status |= ret`, where both are 0 or -1. -/
def orStatus (status ret : ℤ) : ℤ := if status = 0 ∧ ret = 0 then 0 else -1

/-- What config_bc95 reads from the module, and the static buffer of get_IMEI. -/
structure ModuleInfo where
  imei : List UInt8
  nband : ℤ
  imeiBuf : List UInt8

/-- The last command of config_bc95. -/
def destinationCmd (config : NbModuConfig) : List UInt8 :=
  if config.sendMode = 1 then bytes "AT+NSOCR=DGRAM,17,8888,1\r\n"
  else
    bytes "AT+NCDP=" ++ printIp config.ip ++ bytes "," ++ decimal config.port.toNat ++ ENDFLAG

def configBc95 (config : NbModuConfig) (info : ModuleInfo) : Bc95 (ℤ × ModuleInfo) := do
  usartConfigure BC95ORGBAUDRATE
  resetPin false
  threadDelay 110
  resetPin true
  let status ← atcmdWaitOK ATSTR 100 60
  let ret ← bc95CfgBaudRate BC95ORGBAUDRATE config.baudrate
  let status := orStatus status ret
  let (ret, imei, imeiBuf) ← getIMEI info.imeiBuf info.imei
  let status := orStatus status ret
  let (ret, nband) ← getNBAND info.nband
  let status := orStatus status ret
  let info : ModuleInfo := ⟨imei, nband, imeiBuf⟩
  if status = 0 then
    let ret ← atcmdWaitOK (destinationCmd config) 100 3
    if ret ≠ 0 then
      if config.sendMode = 1 then
        ucallWrite (bytes "UDP CONFIG FAIL\r\n")
        pure (-2, info)
      else
        ucallWrite (bytes "COAP CONFIG FAIL\r\n")
        pure (-3, info)
    else
      pure (0, info)
  else
    ucallWrite (bytes "INIT FAIL\r\n")
    pure (status, info)

/-- DeviceStatus. -/
inductive DeviceStatus
  | deviceOK
  | bc95DontWork
  | cgattTimeout
  | cgattGetFail
deriving DecidableEq

/-- The polling loop of BC95_statusManage: the status it ends with and whether
the module is to be set up again. -/
def pollCGATT (deadline : UInt64) (interval : ℕ) : ℕ → ℤ → Bc95 (DeviceStatus × Bool)
  | 0, _ => .hang
  | n + 1, cgatt => do
    let t ← getTimestamp
    if t ≤ deadline then
      let (ret, cgatt) ← getCGATT cgatt
      if ret ≠ 0 then
        pure (.bc95DontWork, true)
      else if cgatt = 1 then
        pure (.deviceOK, false)
      else
        threadDelay interval
        pollCGATT deadline interval n cgatt
    else
      pure (.cgattTimeout, true)

/-- BC95_statusManage with `n` turns of its loop left. -/
def statusTurns (fuel : ℕ) (config : NbModuConfig) (interval : ℕ) (timeout : UInt64) :
    ℕ → DeviceStatus → Bool → ModuleInfo → Bc95 (DeviceStatus × ModuleInfo)
  | 0, status, _, info => pure (status, info)
  | n + 1, _, reConfig, info => do
    let (ret, info) ← (if reConfig then configBc95 config info else pure (0, info))
    if ret ≠ 0 then
      pure (.bc95DontWork, info)
    else
      let (ret, cgatt) ← getCGATT 0
      if ret ≠ 0 then
        statusTurns fuel config interval timeout n .cgattGetFail true info
      else if cgatt = 1 then
        pure (.deviceOK, info)
      else
        let last ← getTimestamp
        let _ ← setCGATT 1
        let (status, reConfig) ← pollCGATT (last + timeout) interval fuel cgatt
        statusTurns fuel config interval timeout n status reConfig info

def statusManage (fuel : ℕ) (config : NbModuConfig) (loops interval : ℕ) (timeout : UInt64)
    (info : ModuleInfo) : Bc95 (DeviceStatus × ModuleInfo) :=
  statusTurns fuel config interval timeout loops .deviceOK false info

end GemhoNbiot.Bc95Driver
