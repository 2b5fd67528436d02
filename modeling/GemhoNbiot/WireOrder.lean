import GemhoNbiot.ConfigMode
import GemhoNbiot.Bc95Writes

/-!
BC95COM in configuration mode. The main thread runs turns of ghConfig and
thread_msgSend runs its calls one after the other; each usart_write is one step.
The main thread has the higher priority: thread_msgSend writes only while the
main thread waits in a read, and the main thread can go on at any moment. There
is no lock on the port, so a command of the main thread can come to stand
between the pieces of a message command, and nothing else can.
-/
namespace GemhoNbiot.WireOrder

open Memmem ConfigUtils Commands Program Bc95Driver ConfigMode WireLines Bc95Writes

/-- A call of thread_msgSend that writes to BC95COM. -/
inductive SendCall
  | coapMsgSend (data : List UInt8) (repeats : ℕ)
  | udpMsgSend (config : NbModuConfig) (imei data : List UInt8) (repeats : ℕ)
  | getCGATT (cgatt : ℤ)
  | setCGATT (cgatt : ℤ)
  | configBc95 (config : NbModuConfig) (info : ModuleInfo)

namespace SendCall

def IsMessage : SendCall → Prop
  | coapMsgSend _ _ => True
  | udpMsgSend _ _ _ _ => True
  | _ => False

/-- The operation calls of some finished run of the call. -/
def Run : SendCall → List Call → Prop
  | coapMsgSend data repeats, events =>
    ∃ fuel r, Runs (Bc95Driver.coapMsgSend fuel data repeats) events r
  | udpMsgSend config imei data repeats, events =>
    ∃ fuel r, Runs (Bc95Driver.udpMsgSend fuel config imei data repeats) events r
  | getCGATT cgatt, events => ∃ r, Runs (Bc95Driver.getCGATT cgatt) events r
  | setCGATT cgatt, events => ∃ r, Runs (Bc95Driver.setCGATT cgatt) events r
  | configBc95 config info, events => ∃ r, Runs (Bc95Driver.configBc95 config info) events r

theorem Run.pieces {c : SendCall} {events : List Call} (h : c.Run events) :
    Pieces (writes events) := by
  cases c with
  | coapMsgSend data repeats =>
    obtain ⟨fuel, r, hrun⟩ := h
    exact emits_coapMsgSend fuel data repeats events r hrun
  | udpMsgSend config imei data repeats =>
    obtain ⟨fuel, r, hrun⟩ := h
    exact emits_udpMsgSend fuel config imei data repeats events r hrun
  | getCGATT cgatt =>
    obtain ⟨r, hrun⟩ := h
    exact (emits_getCGATT cgatt events r hrun).pieces
  | setCGATT cgatt =>
    obtain ⟨r, hrun⟩ := h
    exact (emits_setCGATT cgatt events r hrun).pieces
  | configBc95 config info =>
    obtain ⟨r, hrun⟩ := h
    exact (emits_configBc95 config info events r hrun).pieces

theorem Run.lines {c : SendCall} {events : List Call} (h : c.Run events) (hc : ¬ c.IsMessage) :
    Lines (writes events) := by
  cases c with
  | coapMsgSend data repeats => exact absurd trivial hc
  | udpMsgSend config imei data repeats => exact absurd trivial hc
  | getCGATT cgatt =>
    obtain ⟨r, hrun⟩ := h
    exact emits_getCGATT cgatt events r hrun
  | setCGATT cgatt =>
    obtain ⟨r, hrun⟩ := h
    exact emits_setCGATT cgatt events r hrun
  | configBc95 config info =>
    obtain ⟨r, hrun⟩ := h
    exact emits_configBc95 config info events r hrun

end SendCall

/-- One turn of ghConfig, or one call of thread_msgSend, by its number. -/
inductive Invocation
  | main (n : ℕ)
  | send (n : ℕ) (c : SendCall)

namespace Invocation

def ofMain : Invocation → Bool
  | main _ => true
  | send _ _ => false

def IsMessage : Invocation → Prop
  | main _ => False
  | send _ c => c.IsMessage

end Invocation

/-- What has been written to BC95COM, each piece with the invocation that wrote
it, whether the main thread waits in a read, how many invocations there were,
and what the call of thread_msgSend under way has still to write. -/
structure Bus where
  wire : List (Invocation × List UInt8)
  mainWaits : Bool
  turns : ℕ
  calls : ℕ
  toWrite : Option (Invocation × List (List UInt8))

def Bus.start : Bus := ⟨[], true, 0, 0, none⟩

inductive Step (wide : ℤ → ℤ) (s : Bus) : Bus → Prop
  | wake : s.mainWaits = true → Step wide s { s with mainWaits := false }
  | wait : s.mainWaits = false → Step wide s { s with mainWaits := true }
  | turn (d : Dev) (user rs485 : List UInt8) (ws : List (List UInt8)) :
      s.mainWaits = false → (ghConfigTurn wide user rs485 d).sent = d.sent ++ ws →
      Step wide s { s with wire := s.wire ++ tagged (.main s.turns) ws, turns := s.turns + 1 }
  | call (c : SendCall) (events : List Call) :
      s.mainWaits = true → s.toWrite = none → c.Run events →
      Step wide s { s with
        toWrite := some (.send s.calls c, writes events)
        calls := s.calls + 1 }
  | write {i : Invocation} {w : List UInt8} {ws : List (List UInt8)} :
      s.mainWaits = true → s.toWrite = some (i, w :: ws) →
      Step wide s { s with wire := s.wire ++ [(i, w)], toWrite := some (i, ws) }
  | finish {i : Invocation} :
      s.mainWaits = true → s.toWrite = some (i, []) → Step wide s { s with toWrite := none }

inductive Reach (wide : ℤ → ℤ) : Bus → Prop
  | start : Reach wide Bus.start
  | step {s s' : Bus} : Reach wide s → Step wide s s' → Reach wide s'

section Invariant

/-- What the call under way has still to write. -/
def Bus.left (s : Bus) : List (Invocation × List UInt8) :=
  match s.toWrite with
  | none => []
  | some (i, ws) => tagged i ws

/-- Only message calls write pieces, and what thread_msgSend has written and
will write for the call under way is a sequence of commands. -/
structure Ordered (s : Bus) : Prop where
  whole : ∀ p ∈ s.wire ++ s.left, ¬ p.1.IsMessage → Line p.2
  sends : ∀ p ∈ s.left, p.1.ofMain = false
  commands : ∃ cmds : List (Invocation × List (List UInt8)),
    (∀ c ∈ cmds, Command ENDFLAG Line c.2) ∧
      others Invocation.ofMain (s.wire ++ s.left) = cmds.flatMap fun c => tagged c.1 c.2

theorem turn_lines {wide : ℤ → ℤ} {d : Dev} {user rs485 : List UInt8} {ws : List (List UInt8)}
    (h : (ghConfigTurn wide user rs485 d).sent = d.sent ++ ws) : Lines ws := by
  rcases ghConfigTurn_sent wide user rs485 d with hnone | ⟨text, hone, htext⟩
  · rw [h] at hnone
    rw [List.append_right_eq_self.mp hnone]
    exact Closed.nil
  · rw [h, List.append_cancel_left_eq] at hone
    rw [hone]
    exact lines_singleton (line_of_printable text htext)

theorem tagged_flatten (i : Invocation) (cmds : List (List (List UInt8))) :
    tagged i cmds.flatten = (cmds.map (Prod.mk i)).flatMap fun c => tagged c.1 c.2 := by
  induction cmds with
  | nil => rfl
  | cons c cmds ih =>
    rw [List.map_cons, List.flatMap_cons, ← ih, List.flatten_cons, tagged, List.map_append]
    rfl

theorem others_tagged_main (n : ℕ) (ws : List (List UInt8)) :
    others Invocation.ofMain (tagged (.main n) ws) = [] := by
  rw [others, List.filter_eq_nil_iff]
  intro p hp
  obtain ⟨w, _, rfl⟩ := List.mem_map.mp hp
  simp [Invocation.ofMain]

theorem others_tagged_send (n : ℕ) (c : SendCall) (ws : List (List UInt8)) :
    others Invocation.ofMain (tagged (.send n c) ws) = tagged (.send n c) ws := by
  rw [others, List.filter_eq_self]
  intro p hp
  obtain ⟨w, _, rfl⟩ := List.mem_map.mp hp
  rfl

theorem others_append (xs ys : List (Invocation × List UInt8)) :
    others Invocation.ofMain (xs ++ ys) =
      others Invocation.ofMain xs ++ others Invocation.ofMain ys :=
  List.filter_append xs ys

theorem ordered_start : Ordered Bus.start where
  whole := by simp [Bus.start, Bus.left]
  sends := by simp [Bus.start, Bus.left]
  commands := ⟨[], by simp, rfl⟩

/-- Only what is written and what is left to write matter. -/
theorem Ordered.same {s s' : Bus} (hs : Ordered s)
    (hwire : s'.wire ++ s'.left = s.wire ++ s.left) (hleft : ∀ p ∈ s'.left, p ∈ s.left) :
    Ordered s' where
  whole := by
    rw [hwire]
    exact hs.whole
  sends := fun p hp => hs.sends p (hleft p hp)
  commands := by
    rw [hwire]
    exact hs.commands

/-- A turn of ghConfig puts its line behind what is written. -/
theorem Ordered.turn {s : Bus} (hs : Ordered s) {ws : List (List UInt8)} (hws : Lines ws) :
    Ordered { s with wire := s.wire ++ tagged (.main s.turns) ws, turns := s.turns + 1 } where
  whole := by
    intro p hp hnot
    have hp' : p ∈ s.wire ++ tagged (.main s.turns) ws ++ s.left := hp
    rw [List.mem_append, List.mem_append] at hp'
    rcases hp' with (hp' | hp') | hp'
    · exact hs.whole p (List.mem_append_left _ hp') hnot
    · obtain ⟨w, hw, rfl⟩ := List.mem_map.mp hp'
      exact hws w hw
    · exact hs.whole p (List.mem_append_right _ hp') hnot
  sends := hs.sends
  commands := by
    obtain ⟨cmds, hcmds, heq⟩ := hs.commands
    refine ⟨cmds, hcmds, ?_⟩
    rw [← heq]
    change others Invocation.ofMain (s.wire ++ tagged (.main s.turns) ws ++ s.left) = _
    rw [others_append, others_append, others_tagged_main, List.append_nil, ← others_append]

/-- A call begins behind the last command of the call before it. -/
theorem Ordered.call {s : Bus} (hs : Ordered s) (hidle : s.toWrite = none) {c : SendCall}
    {events : List Call} (hrun : c.Run events) :
    Ordered { s with
      toWrite := some (.send s.calls c, writes events)
      calls := s.calls + 1 } := by
  have hleft : s.left = [] := by rw [Bus.left, hidle]
  have hwhole := hs.whole
  obtain ⟨cmds, hcmds, heq⟩ := hs.commands
  rw [hleft, List.append_nil] at hwhole heq
  refine ⟨fun p hp hnot => ?_, fun p hp => ?_, ?_⟩
  · rcases List.mem_append.mp hp with hp | hp
    · exact hwhole p hp hnot
    · obtain ⟨w, hw, rfl⟩ := List.mem_map.mp hp
      exact hrun.lines hnot w hw
  · obtain ⟨w, _, rfl⟩ := List.mem_map.mp hp
    rfl
  · obtain ⟨new, hnew, hwrites⟩ := hrun.pieces
    refine ⟨cmds ++ new.map (Prod.mk (.send s.calls c)), fun e he => ?_, ?_⟩
    · rcases List.mem_append.mp he with he | he
      · exact hcmds e he
      · obtain ⟨p, hp, rfl⟩ := List.mem_map.mp he
        exact hnew p hp
    · change others Invocation.ofMain (s.wire ++ tagged (.send s.calls c) (writes events)) = _
      rw [others_append, heq, others_tagged_send, hwrites, tagged_flatten, List.flatMap_append]

/-- Every step keeps the order. -/
theorem Ordered.step {wide : ℤ → ℤ} {s s' : Bus} (hs : Ordered s) (h : Step wide s s') :
    Ordered s' := by
  cases h with
  | wake _ => exact hs.same rfl fun _ hp => hp
  | wait _ => exact hs.same rfl fun _ hp => hp
  | turn d user rs485 ws _ hsent => exact hs.turn (turn_lines hsent)
  | call c events _ hidle hrun => exact hs.call hidle hrun
  | @write i w ws _ hw =>
    have hleft : s.left = (i, w) :: tagged i ws := by rw [Bus.left, hw]; rfl
    apply hs.same
    · rw [hleft]
      change s.wire ++ [(i, w)] ++ tagged i ws = _
      rw [List.append_assoc]
      rfl
    · intro p hp
      rw [hleft]
      exact List.mem_cons_of_mem _ hp
  | @finish i _ hw =>
    have hleft : s.left = [] := by rw [Bus.left, hw]; rfl
    apply hs.same
    · rw [hleft]
      rfl
    · intro p hp
      simp [Bus.left] at hp

theorem Reach.ordered {wide : ℤ → ℤ} {s : Bus} (h : Reach wide s) : Ordered s := by
  induction h with
  | start => exact ordered_start
  | step _ hstep ih => exact ih.step hstep

end Invariant

/-- Commands written without anything between their pieces are lines of single calls. -/
theorem separated_commands (cmds : List (Invocation × List (List UInt8)))
    (h : ∀ c ∈ cmds, Command ENDFLAG Line c.2) :
    Separated Line (cmds.flatMap fun c => tagged c.1 c.2) := by
  induction cmds with
  | nil => exact Separated.nil
  | cons c cmds ih =>
    rw [List.flatMap_cons]
    exact (Separated.command c.1 (h c List.mem_cons_self).line).append
      (ih fun c hc => h c (List.mem_cons_of_mem _ hc))

theorem Ordered.idle {s : Bus} (hs : Ordered s) (hidle : s.toWrite = none) :
    (∀ p ∈ s.wire, ¬ p.1.IsMessage → Line p.2) ∧
      ∃ cmds : List (Invocation × List (List UInt8)),
        (∀ c ∈ cmds, Command ENDFLAG Line c.2) ∧
          others Invocation.ofMain s.wire = cmds.flatMap fun c => tagged c.1 c.2 := by
  have hleft : s.left = [] := by rw [Bus.left, hidle]
  have hwhole := hs.whole
  have hcommands := hs.commands
  rw [hleft, List.append_nil] at hwhole hcommands
  exact ⟨hwhole, hcommands⟩

theorem Ordered.separated_iff {s : Bus} (hs : Ordered s) (hidle : s.toWrite = none) :
    Separated Line s.wire ↔ Uncut ENDFLAG Invocation.ofMain s.wire := by
  obtain ⟨hwhole, cmds, hcmds, heq⟩ := hs.idle hidle
  apply separated_iff_uncut Invocation.ofMain (by rfl : ENDFLAG.getLast? = some 10) _ _
    hcmds heq
  · intro l hl
    obtain ⟨text, rfl, _⟩ := hl
    exact List.suffix_append text ENDFLAG
  · intro p hp hmain
    refine hwhole p hp fun hmessage => ?_
    cases hi : p.1 with
    | main n => rw [hi] at hmessage; exact hmessage
    | send n c => simp [hi, Invocation.ofMain] at hmain

/-- When no call of thread_msgSend is under way: every write other than a piece
of a message command is a whole line; the writes of thread_msgSend alone are
lines of single invocations; and the whole wire is, exactly when no write of the
main thread stands directly behind a piece that does not end its line. -/
theorem wire_lines (wide : ℤ → ℤ) (s : Bus) (h : Reach wide s) (hidle : s.toWrite = none) :
    (∀ p ∈ s.wire, ¬ p.1.IsMessage → Line p.2) ∧
      Separated Line (s.wire.filter fun p => !p.1.ofMain) ∧
      (Separated Line s.wire ↔ Uncut ENDFLAG Invocation.ofMain s.wire) := by
  obtain ⟨hwhole, cmds, hcmds, heq⟩ := h.ordered.idle hidle
  have hsends := separated_commands cmds hcmds
  rw [← heq] at hsends
  exact ⟨hwhole, hsends, h.ordered.separated_iff hidle⟩

section Cut

/-- A message of one byte with two attempts; the first one is answered with ERROR. -/
def sevenMessage : SendCall := .coapMsgSend [7] 2

def sevenEvents : List Call :=
  (coapPieces [7]).map writeEvent ++
    [⟨.getTimestamp, (0 : UInt64)⟩, ⟨.getTimestamp, (0 : UInt64)⟩, ⟨.usartRead 128 20, ERRORSTR⟩] ++
    ((coapPieces [7]).map writeEvent ++
      [⟨.getTimestamp, (0 : UInt64)⟩, ⟨.getTimestamp, (0 : UInt64)⟩, ⟨.usartRead 128 20, OKSTR⟩])

theorem sevenMessage_run : sevenMessage.Run sevenEvents := by
  have hsecond : Runs (sendAttempts 1 (coapPieces [7]) 1) ((coapPieces [7]).map writeEvent ++
      [⟨.getTimestamp, (0 : UInt64)⟩, ⟨.getTimestamp, (0 : UInt64)⟩,
        ⟨.usartRead 128 20, OKSTR⟩]) 0 := by
    refine (runs_bind _ _ _ _).mpr ⟨_, _, (), rfl, runs_writeAll _, ?_⟩
    refine (runs_bind _ _ _ _).mpr ⟨_, [], 0, (List.append_nil _).symm, ?_, .ret 0⟩
    exact runs_waitOKTimeout 0 5000 0 0 OKSTR (by decide) (by decide +kernel)
  refine ⟨1, 0, (runs_bind _ _ _ _).mpr ⟨_, _, (), List.append_assoc _ _ _, runs_writeAll _, ?_⟩⟩
  have hagain : Runs (if (-1 : ℤ) = 0 then pure 0 else sendAttempts 1 (coapPieces [7]) 1)
      ((coapPieces [7]).map writeEvent ++ [⟨.getTimestamp, (0 : UInt64)⟩,
        ⟨.getTimestamp, (0 : UInt64)⟩, ⟨.usartRead 128 20, OKSTR⟩]) 0 := by
    rw [if_neg (by decide)]
    exact hsecond
  refine (runs_bind _ _ _ _).mpr ⟨_, _, -1, rfl, ?_, hagain⟩
  exact runs_waitOKTimeout_error 0 5000 0 0 ERRORSTR (by decide) (by decide +kernel)
    (by decide +kernel)

/-- The wire of a message whose first command is cut by AT+CSQ after its header. -/
def cutBus : Bus where
  wire := [(.send 0 sevenMessage, bytes "AT+NMGS=4,000001"), (.main 0, bytes "AT+CSQ\r\n"),
    (.send 0 sevenMessage, bytes "07"), (.send 0 sevenMessage, ENDFLAG),
    (.send 0 sevenMessage, bytes "AT+NMGS=4,000001"), (.send 0 sevenMessage, bytes "07"),
    (.send 0 sevenMessage, ENDFLAG)]
  mainWaits := true
  turns := 1
  calls := 1
  toWrite := none

/-- A device in configuration mode with nothing sent so far. -/
def idleDev : Dev := ⟨lDefaultNbMCFG, [], 0, fun _ => 0, [], [], [], [], []⟩

theorem cutBus_reach : Reach id cutBus := by
  have hturn : (ghConfigTurn id (bytes "AT+CSQ\r\n") [] idleDev).sent =
      idleDev.sent ++ [bytes "AT+CSQ\r\n"] := by decide
  have hwrites : writes sevenEvents = [bytes "AT+NMGS=4,000001", bytes "07", ENDFLAG,
      bytes "AT+NMGS=4,000001", bytes "07", ENDFLAG] := by decide
  have hstart : Reach id Bus.start := .start
  have hcall := hstart.step (.call sevenMessage sevenEvents rfl rfl sevenMessage_run)
  rw [hwrites] at hcall
  have hheader := hcall.step (.write rfl rfl)
  have hready := hheader.step (.wake rfl)
  have hsent := hready.step (.turn idleDev (bytes "AT+CSQ\r\n") [] [bytes "AT+CSQ\r\n"] rfl hturn)
  have hwaits := hsent.step (.wait rfl)
  have hfirst := (hwaits.step (.write rfl rfl)).step (.write rfl rfl)
  have hsecond := ((hfirst.step (.write rfl rfl)).step (.write rfl rfl)).step (.write rfl rfl)
  exact hsecond.step (.finish rfl rfl)

theorem wire_lines_cut :
    (∀ p ∈ cutBus.wire, ¬ p.1.IsMessage → Line p.2) ∧
      Separated Line (cutBus.wire.filter fun p => !p.1.ofMain) ∧
      (Separated Line cutBus.wire ↔ Uncut ENDFLAG Invocation.ofMain cutBus.wire) :=
  wire_lines id cutBus cutBus_reach rfl

/-- The header of the message and AT+CSQ stand on one line. -/
theorem wire_cut :
    ¬ ∀ (wide : ℤ → ℤ) (s : Bus), Reach wide s → s.toWrite = none → Separated Line s.wire := by
  intro hall
  have hsep := hall id cutBus cutBus_reach rfl
  have huncut := (cutBus_reach.ordered.separated_iff rfl).mp hsep
  have hends := huncut [] _ _ _ rfl rfl rfl
  exact absurd hends (by decide)

end Cut

end GemhoNbiot.WireOrder
