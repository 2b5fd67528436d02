import GemhoNbiot.SendThread

/-!
What thread_msgSend shows of itself, over any number of turns: the messages it takes,
the statuses it publishes, the sleeps between two sends of a message and the light
at the end of it. The counter of failures begins anew with each message, and the
n-th failure is followed by a sleep of what the kernel makes of 2^n minutes, at most
128, unless the module was found in order.
-/
namespace GemhoNbiot.BackOff

open ConfigUtils Program WireMessages SendThread
open Bc95Driver hiding Op threadDelay
open MsgSend (sendMessage)

section Marks

variable (fromMillisecond : ℕ → ℕ)

/-- The outer loop of thread_msgSend, `n` turns of it. -/
def turns (fuel : ℕ) (config : NbModuConfig) :
    ℕ → UInt64 → ModuleInfo → Sender (UInt64 × ModuleInfo)
  | 0, last, info => pure (last, info)
  | n + 1, last, info => do
    let (last, info) ← turn fromMillisecond fuel config last info
    turns fuel config n last info

inductive Mark
  | popped (msg : List UInt8)
  | published (status : DeviceStatus)
  | slept (ticks : ℕ)
  | sent
deriving DecidableEq

/-- The calls of the driver show nothing. -/
def markOf : Event Op Op.Res → Option Mark
  | ⟨.msgPop _, (ret, msg)⟩ => if ret = 0 ∧ msg.length > 0 then some (.popped msg) else none
  | ⟨.setDevicStatus status, _⟩ => some (.published status)
  | ⟨.threadDelay ticks, _⟩ => some (.slept ticks)
  | ⟨.midLightAction _ _ _, _⟩ => some .sent
  | _ => none

def marks (events : List (Event Op Op.Res)) : List Mark := events.filterMap markOf

/-- The status that is published after a failed send, and the sleep that follows;
`e.2` is the number of earlier failures. -/
def failure (e : DeviceStatus × ℕ) : List Mark :=
  .published e.1 ::
    if e.1 = .deviceOK then [] else [.slept (fromMillisecond (2 ^ min (e.2 + 1) 7 * 60 * 1000))]

/-- What a turn of the thread shows, if anything: the hourly check, or a message with
the statuses found after the sends of it that failed. -/
inductive Block
  | check (status : DeviceStatus)
  | message (msg : List UInt8) (statuses : List DeviceStatus)

def Block.marks : Block → List Mark
  | .check status => [.published status]
  | .message msg statuses =>
    .popped msg :: (statuses.zipIdx.flatMap (failure fromMillisecond) ++ [.sent])

/-- The marks of the failures of one message as the code counts them. -/
def counted : UInt32 → List DeviceStatus → List Mark
  | _, [] => []
  | failTimes, status :: statuses =>
    let failTimes := failTimes + 1
    if status ≠ .deviceOK then
      let failTimes := if failTimes ≥ 7 then 7 else failTimes
      .published status :: .slept (fromMillisecond (2 ^ failTimes.toNat * 60 * 1000)) ::
        counted failTimes statuses
    else
      .published status :: counted failTimes statuses

end Marks

section Silence

end Silence

section Runs

variable {fromMillisecond : ℕ → ℕ} {fuel : ℕ} {config : NbModuConfig}
  {events : List (Event Op Op.Res)}

/-- failTimes after `i` failures: it stays at 7 once a sleep has cut it. -/
structure Counts (failTimes : UInt32) (i : ℕ) : Prop where
  le : failTimes.toNat ≤ i
  min_eq : min failTimes.toNat 7 = min i 7

theorem Counts.succ {failTimes : UInt32} {i : ℕ} (h : Counts failTimes i) (hi : i + 1 < 2 ^ 32) :
    Counts (failTimes + 1) (i + 1) := by
  have hle := h.le
  have hmin := h.min_eq
  have hadd : (failTimes + 1).toNat = failTimes.toNat + 1 := by
    rw [UInt32.toNat_add]
    exact Nat.mod_eq_of_lt (by simpa using by omega)
  constructor
  · omega
  · omega

theorem Counts.cut {failTimes : UInt32} {i : ℕ} (h : Counts failTimes i) :
    (if failTimes ≥ 7 then 7 else failTimes).toNat = min i 7 := by
  have hmin := h.min_eq
  by_cases hcut : failTimes ≥ 7
  · have hge : 7 ≤ failTimes.toNat := UInt32.le_iff_toNat_le.mp hcut
    rw [if_pos hcut]
    change 7 = _
    omega
  · have hlt : ¬ 7 ≤ failTimes.toNat := fun hge => hcut (UInt32.le_iff_toNat_le.mpr hge)
    rw [if_neg hcut]
    omega

/-- Some run of the program shows these marks. -/
def Shows {α : Type} (p : Sender α) (l : List Mark) (a : α) : Prop :=
  ∃ events, Runs p events a ∧ marks events = l

end Runs

end GemhoNbiot.BackOff
