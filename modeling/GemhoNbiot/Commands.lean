import GemhoNbiot.ConfigUtils
import GemhoNbiot.Stdio

/-!
The AT commands of src/main.c. Every handler gets the text before the first CR
LF of what was read and answers on both user ports with one UCALL_write. The
four pass-through commands, and the three settings of one number, are each one
definition at the values of the command. What the module answers to a
pass-through command is supplied from outside, one read after the other.
-/
namespace GemhoNbiot.Commands

open Memmem Stdio ConfigUtils

def OKSTR : List UInt8 := bytes "OK\r\n"
def ERRORSTR : List UInt8 := bytes "ERROR\r\n"
def ENDFLAG : List UInt8 := bytes "\r\n"
def UDCMD : List UInt8 := bytes "UNDEFINED CMD\r\n"
def VERSION : List UInt8 := bytes "1.0.d985ccf.2"

def ATCIMI : List UInt8 := bytes "AT+CIMI"
def ATCSQ : List UInt8 := bytes "AT+CSQ"
def ATNUESTATS : List UInt8 := bytes "AT+NUESTATS"
def ATCGATT : List UInt8 := bytes "AT+CGATT"
def ATVER : List UInt8 := bytes "AT+VER"
def ATMSGS : List UInt8 := bytes "AT+MSGS"
def ATMSGSEQ : List UInt8 := bytes "AT+MSGS="
def ATIPPORT : List UInt8 := bytes "AT+IPPORT"
def ATIPPORTEQ : List UInt8 := bytes "AT+IPPORT="
def ATRS232 : List UInt8 := bytes "AT+RS232"
def ATRS232EQ : List UInt8 := bytes "AT+RS232="
def ATSEMO : List UInt8 := bytes "AT+SEMO"
def ATSEMOEQ : List UInt8 := bytes "AT+SEMO="
def ATWDT : List UInt8 := bytes "AT+WDT"
def ATWDTEQ : List UInt8 := bytes "AT+WDT="
def ATIMEIBD : List UInt8 := bytes "AT+IMEIBD"
def ATSAVE : List UInt8 := bytes "AT+SAVE"
def ATDELO : List UInt8 := bytes "AT+DELO"

/-- What the commands work on: the configuration in use, the values read from
the module at start, the EEPROM with the byte writes it has taken so far and the
fates of those to come, what the next reads of BC95COM find, and everything
written to BC95COM and to the user ports so far. -/
structure Dev where
  config : NbModuConfig
  imei : List UInt8
  nband : ℤ
  eeprom : ℕ → UInt8
  stored : List (ℕ × UInt8)
  writeFates : List WriteFate
  answers : List (List UInt8)
  sent : List (List UInt8)
  replies : List (List UInt8)

namespace Dev

/-- UCALL_write: both user ports get the same bytes. -/
def ucallWrite (d : Dev) (bs : List UInt8) : Dev := { d with replies := d.replies ++ [bs] }

def bc95Write (d : Dev) (bs : List UInt8) : Dev := { d with sent := d.sent ++ [bs] }

/-- A read of BC95COM into a buffer of `size` bytes. -/
def bc95Read (d : Dev) (size : ℕ) : List UInt8 × Dev :=
  ((d.answers.headD []).take size, { d with answers := d.answers.tail })

/-- The loop of ATSAVE_cmd and ATDELO_cmd: up to three saves of the configuration. -/
def save (d : Dev) : ℤ × Dev :=
  let run := saveAttempts 3 d.config 0 d.writeFates
  (run.ret, { d with
    eeprom := storeAll d.eeprom run.stores
    stored := d.stored ++ run.stores
    writeFates := run.fates })

end Dev

/-- ATCIMI_cmd and its like: `word` is sent on as `line`, the answer is handed back. -/
def passThrough (word line : List UInt8) (size : ℕ) (d : Dev) (cmd : List UInt8) : ℤ × Dev :=
  if cmd.length > size - 1 then
    (0, d.ucallWrite ERRORSTR)
  else if cstr cmd = word then
    let (answer, d) := (d.bc95Write line).bc95Read size
    (0, d.ucallWrite answer)
  else
    (0, d.ucallWrite ERRORSTR)

def atcimiCmd : Dev → List UInt8 → ℤ × Dev := passThrough ATCIMI (ATCIMI ++ ENDFLAG) 128

def atcsqCmd : Dev → List UInt8 → ℤ × Dev := passThrough ATCSQ (ATCSQ ++ ENDFLAG) 128

def atnuestatsCmd : Dev → List UInt8 → ℤ × Dev :=
  passThrough ATNUESTATS (ATNUESTATS ++ ENDFLAG) 256

def atcgattCmd : Dev → List UInt8 → ℤ × Dev := passThrough ATCGATT (ATCGATT ++ bytes "?\r\n") 128

def atverCmd (d : Dev) (cmd : List UInt8) : ℤ × Dev :=
  if cmd.length > 128 - 1 then
    (0, d.ucallWrite ERRORSTR)
  else if cstr cmd = ATVER then
    (0, d.ucallWrite (bytes "+VER:" ++ VERSION ++ ENDFLAG))
  else
    (0, d.ucallWrite ERRORSTR)

section Settings

variable (wide : ℤ → ℤ)

/-- checkConfigRS232: the outputs are narrowed before they are checked. -/
def checkConfigRS232 (text : List UInt8) : Option (UInt32 × UInt8 × UInt8) :=
  match scanf (bytes ",,") (cstr text) with
  | [b, s, p] =>
    let baudrate := UInt32.ofInt (toInt wide b)
    let stopbit := (UInt32.ofInt (toInt wide s)).toUInt8
    let parity := (UInt32.ofInt (toInt wide p)).toUInt8
    if baudrate ≠ 4800 ∧ baudrate ≠ 9600 ∧ baudrate ≠ 57600 ∧ baudrate ≠ 115200 then none
    else if stopbit ≠ 1 ∧ stopbit ≠ 2 then none
    else if parity ≠ 0 ∧ parity ≠ 1 ∧ parity ≠ 2 then none
    else some (baudrate, stopbit, parity)
  | _ => none

/-- checkConfigIPORT. -/
def checkConfigIPORT (text : List UInt8) : Option (Vector ℤ 4 × ℤ) :=
  match scanf (bytes "...,") (cstr text) with
  | [a, b, c, e, p] =>
    let ip := #v[toInt wide a, toInt wide b, toInt wide c, toInt wide e]
    let port := toInt wide p
    if ip.any (fun z => z > 255 || z < 0) then none
    else if port < 0 ∨ port > 65535 then none
    else some (ip, port)
  | _ => none

/-- %d of a uint32_t argument. -/
def printD32 (x : UInt32) : List UInt8 := printD (x.toBitVec.toInt)

/-- %d.%d.%d.%d of an address. -/
def printIp (ip : Vector UInt8 4) : List UInt8 :=
  decimal (ip.get 0).toNat ++ bytes "." ++ decimal (ip.get 1).toNat ++ bytes "." ++
    decimal (ip.get 2).toNat ++ bytes "." ++ decimal (ip.get 3).toNat

def atrs232Cmd (d : Dev) (cmd : List UInt8) : ℤ × Dev :=
  if cmd.length > 128 - 1 then
    (0, d.ucallWrite ERRORSTR)
  else if cstr cmd = ATRS232 then
    (0, d.ucallWrite (bytes "+RS232:" ++ printD32 d.config.baudrate ++ bytes "," ++
      decimal d.config.stopbit.toNat ++ bytes "," ++ decimal d.config.parity.toNat ++ ENDFLAG))
  else if cmd.take ATRS232EQ.length = ATRS232EQ then
    match checkConfigRS232 wide (cmd.drop ATRS232EQ.length) with
    | some (baudrate, stopbit, parity) =>
      (0, { d with config := { d.config with baudrate, stopbit, parity } }.ucallWrite OKSTR)
    | none => (0, d.ucallWrite ERRORSTR)
  else
    (0, d.ucallWrite ERRORSTR)

def atipportCmd (d : Dev) (cmd : List UInt8) : ℤ × Dev :=
  if cmd.length > 128 - 1 then
    (0, d.ucallWrite ERRORSTR)
  else if cstr cmd = ATIPPORT then
    (0, d.ucallWrite (bytes "+IPPORT:" ++ printIp d.config.ip ++ bytes "," ++
      decimal d.config.port.toNat ++ ENDFLAG))
  else if cmd.take ATIPPORTEQ.length = ATIPPORTEQ then
    match checkConfigIPORT wide (cmd.drop ATIPPORTEQ.length) with
    | some (ip, port) =>
      (0, { d with config := { d.config with
        ip := ip.map fun z => UInt8.ofInt z
        port := UInt16.ofInt port } }.ucallWrite OKSTR)
    | none => (0, d.ucallWrite ERRORSTR)
  else
    (0, d.ucallWrite ERRORSTR)

/-- ATMSGS_cmd and its like: a setting of one number between `lo` and `hi`. -/
def setting (word wordEq name : List UInt8) (lo hi : ℤ) (get : NbModuConfig → UInt8)
    (set : UInt8 → NbModuConfig → NbModuConfig) (d : Dev) (cmd : List UInt8) : ℤ × Dev :=
  if cmd.length > 128 - 1 then
    (0, d.ucallWrite ERRORSTR)
  else if cstr cmd = word then
    (0, d.ucallWrite (name ++ decimal (get d.config).toNat ++ ENDFLAG))
  else if cmd.take wordEq.length = wordEq then
    match scanf [] (cstr (cmd.drop wordEq.length)) with
    | [z] =>
      let value := toInt wide z
      if value < lo ∨ value > hi then
        (0, d.ucallWrite ERRORSTR)
      else
        (0, { d with config := set (UInt8.ofInt value) d.config }.ucallWrite OKSTR)
    | _ => (0, d.ucallWrite ERRORSTR)
  else
    (0, d.ucallWrite ERRORSTR)

def atmsgsCmd : Dev → List UInt8 → ℤ × Dev :=
  setting wide ATMSGS ATMSGSEQ (bytes "+MSGS:") 1 5 (·.msgSave)
    fun v c => { c with msgSave := v }

def atsemoCmd : Dev → List UInt8 → ℤ × Dev :=
  setting wide ATSEMO ATSEMOEQ (bytes "+SEMO:") 0 1 (·.sendMode)
    fun v c => { c with sendMode := v }

def atwdtCmd : Dev → List UInt8 → ℤ × Dev :=
  setting wide ATWDT ATWDTEQ (bytes "+WDT:") 0 1 (·.watchdog)
    fun v c => { c with watchdog := v }

end Settings

def atimeibdCmd (d : Dev) (cmd : List UInt8) : ℤ × Dev :=
  if cmd.length > 64 - 1 then
    (0, d.ucallWrite ERRORSTR)
  else if cstr cmd = ATIMEIBD then
    (0, d.ucallWrite (bytes "+IMEIBD:" ++ cstr d.imei ++ bytes "," ++ printD d.nband ++ ENDFLAG))
  else
    (0, d.ucallWrite ERRORSTR)

/-- The text after the word is not looked at. -/
def atsaveCmd (d : Dev) (_cmd : List UInt8) : ℤ × Dev :=
  let (ret, d) := d.save
  (ret, d.ucallWrite (if ret = 0 then OKSTR else ERRORSTR))

def atdeloCmd (d : Dev) (_cmd : List UInt8) : ℤ × Dev :=
  let (ret, d) := { d with config := lDefaultNbMCFG }.save
  (ret, d.ucallWrite (if ret = 0 then OKSTR else ERRORSTR))

/-- The command words and their handlers, in the order they are tried. -/
def cmdExe (wide : ℤ → ℤ) : List (List UInt8 × (Dev → List UInt8 → ℤ × Dev)) :=
  [(ATCIMI, atcimiCmd), (ATCSQ, atcsqCmd), (ATNUESTATS, atnuestatsCmd), (ATCGATT, atcgattCmd),
    (ATVER, atverCmd), (ATRS232, atrs232Cmd wide), (ATIPPORT, atipportCmd wide),
    (ATIMEIBD, atimeibdCmd), (ATMSGS, atmsgsCmd wide), (ATSEMO, atsemoCmd wide),
    (ATWDT, atwdtCmd wide), (ATSAVE, atsaveCmd), (ATDELO, atdeloCmd)]

end GemhoNbiot.Commands
