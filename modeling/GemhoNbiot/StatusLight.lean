import GemhoNbiot.Bc95Driver

/-!
status_entry and the light at PC14. A turn of the thread reads l_devStatus once and
flashes the light once, twice or three times for the failures. Whoever counts the
flashes up to a long enough darkness reads the statuses in force when the turns
began, however the delays of the thread stretch, as long as they do so by less than
a second and a half.
-/
namespace GemhoNbiot.StatusLight

open Program
open Bc95Driver (DeviceStatus)

/-- What the thread does; with the pin set the light is off. -/
inductive Op
  | getDevicStatus
  | setBits
  | resetBits
  | threadDelay (ticks : ℕ)

/-- A delay returns the ticks it has lasted. -/
abbrev Op.Res : Op → Type
  | .getDevicStatus => DeviceStatus
  | .threadDelay _ => ℕ
  | _ => Unit

abbrev Shower := Prog Op Op.Res

def getDevicStatus : Shower DeviceStatus := Prog.perform Op.getDevicStatus
def setBits : Shower Unit := Prog.perform Op.setBits
def resetBits : Shower Unit := Prog.perform Op.resetBits
def threadDelay (ticks : ℕ) : Shower ℕ := Prog.perform (Op.threadDelay ticks)

/-- The loops `for(int i=0; i<n; i++)` of status_entry. -/
def blink (blinkInter : ℕ) : ℕ → Shower Unit
  | 0 => pure ()
  | n + 1 => do
    resetBits
    let _ ← threadDelay blinkInter
    setBits
    let _ ← threadDelay blinkInter
    blink blinkInter n

/-- The branches on the status. -/
def display (status : DeviceStatus) : Shower Unit :=
  let blinkInter := 200
  if status = .deviceOK then setBits
  else if status = .bc95DontWork then blink blinkInter 1
  else if status = .cgattGetFail then blink blinkInter 2
  else if status = .cgattTimeout then blink blinkInter 3
  else pure ()

def turn : Shower Unit := do
  let status ← getDevicStatus
  display status
  let _ ← threadDelay 1500
  pure ()

/-- The first `n` turns of status_entry. -/
def statusEntry : ℕ → Shower Unit
  | 0 => pure ()
  | n + 1 => do
    turn
    statusEntry n

/-- Whether the light is on, tick by tick. -/
def levels (lit : Bool) : List (Event Op Op.Res) → List Bool
  | [] => []
  | ⟨.getDevicStatus, _⟩ :: events => levels lit events
  | ⟨.setBits, _⟩ :: events => levels false events
  | ⟨.resetBits, _⟩ :: events => levels true events
  | ⟨.threadDelay _, lasted⟩ :: events => List.replicate lasted lit ++ levels lit events

/-- Someone who counts the flashes: `dark` are the ticks since the last one. -/
structure Viewer where
  flashes : ℕ
  dark : ℕ
  lit : Bool

/-- One tick. The count is noted when it has been dark for `gap` ticks. -/
def Viewer.see (gap : ℕ) (v : Viewer) : Bool → Option ℕ × Viewer
  | true => (none, ⟨if v.lit then v.flashes else v.flashes + 1, 0, true⟩)
  | false =>
    if v.dark + 1 = gap ∧ 0 < v.flashes then (some v.flashes, ⟨0, v.dark + 1, false⟩)
    else (none, ⟨v.flashes, v.dark + 1, false⟩)

def Viewer.watch (gap : ℕ) (v : Viewer) : List Bool → List ℕ × Viewer
  | [] => ([], v)
  | l :: ls =>
    let (note, v) := v.see gap l
    let (notes, v) := watch gap v ls
    (note.toList ++ notes, v)

def code : DeviceStatus → Option ℕ
  | .deviceOK => none
  | .bc95DontWork => some 1
  | .cgattGetFail => some 2
  | .cgattTimeout => some 3

/-- What happens: setDevicStatus in another thread, or an operation of status_entry. -/
inductive Happening
  | publish (status : DeviceStatus)
  | own (e : Event Op Op.Res)

def Happening.event : Happening → Option (Event Op Op.Res)
  | .publish _ => none
  | .own e => some e

def own (history : List Happening) : List (Event Op Op.Res) := history.filterMap Happening.event

/-- What getDevicStatus returns is l_devStatus. -/
def Shared : DeviceStatus → List Happening → Prop
  | _, [] => True
  | _, .publish status :: history => Shared status history
  | devStatus, .own ⟨.getDevicStatus, r⟩ :: history => r = devStatus ∧ Shared devStatus history
  | devStatus, .own _ :: history => Shared devStatus history

/-- The statuses in force where the turns begin. -/
def inForce : DeviceStatus → List Happening → List DeviceStatus
  | _, [] => []
  | _, .publish status :: history => inForce status history
  | devStatus, .own ⟨.getDevicStatus, _⟩ :: history => devStatus :: inForce devStatus history
  | devStatus, .own _ :: history => inForce devStatus history

/-- rt_thread_delay may begin within a tick, and the thread may go on late. -/
def Timely (slack : ℕ) (events : List (Event Op Op.Res)) : Prop :=
  ∀ (ticks lasted : ℕ), ⟨.threadDelay ticks, lasted⟩ ∈ events →
    ticks ≤ lasted + 1 ∧ lasted ≤ ticks + slack

section Watching

variable {gap : ℕ}

theorem watch_append (v : Viewer) (xs ys : List Bool) :
    v.watch gap (xs ++ ys) = ((v.watch gap xs).1 ++ ((v.watch gap xs).2.watch gap ys).1,
      ((v.watch gap xs).2.watch gap ys).2) := by
  induction xs generalizing v with
  | nil => rfl
  | cons x xs ih =>
    simp only [List.cons_append, Viewer.watch]
    rw [ih, List.append_assoc]

/-- What is noted is never taken back. -/
theorem watch_prefix (v : Viewer) {xs ys : List Bool} (h : xs <+: ys) :
    (v.watch gap xs).1 <+: (v.watch gap ys).1 := by
  obtain ⟨rest, rfl⟩ := h
  rw [watch_append]
  exact List.prefix_append _ _

theorem watch_flash (k dark d : ℕ) (hd : 0 < d) :
    Viewer.watch gap ⟨k, dark, false⟩ (List.replicate d true) = ([], ⟨k + 1, 0, true⟩) := by
  have hstay : ∀ n, Viewer.watch gap ⟨k + 1, 0, true⟩ (List.replicate n true) =
      ([], ⟨k + 1, 0, true⟩) := by
    intro n
    induction n with
    | zero => rfl
    | succ n ih =>
      rw [List.replicate_succ, Viewer.watch]
      simp only [Viewer.see, if_true, ih, Option.toList_none, List.nil_append]
  obtain ⟨n, rfl⟩ := Nat.exists_eq_add_one_of_ne_zero (Nat.ne_of_gt hd)
  rw [List.replicate_succ, Viewer.watch]
  simp only [Viewer.see, Bool.false_eq_true, if_false, hstay, Option.toList_none, List.nil_append]

theorem watch_dark_of_lit (k dark d : ℕ) (hd : 0 < d) :
    Viewer.watch gap ⟨k, dark, true⟩ (List.replicate d false) =
      Viewer.watch gap ⟨k, dark, false⟩ (List.replicate d false) := by
  obtain ⟨n, rfl⟩ := Nat.exists_eq_add_one_of_ne_zero (Nat.ne_of_gt hd)
  rfl

/-- Between two flashes. -/
theorem watch_short (k dark d : ℕ) (h : dark + d < gap) :
    Viewer.watch gap ⟨k, dark, false⟩ (List.replicate d false) = ([], ⟨k, dark + d, false⟩) := by
  induction d generalizing dark with
  | zero => rfl
  | succ d ih =>
    rw [List.replicate_succ, Viewer.watch]
    simp only [Viewer.see, if_neg (show ¬ (dark + 1 = gap ∧ 0 < k) by omega),
      ih (dark + 1) (by omega), Option.toList_none, List.nil_append]
    rw [Nat.add_assoc, Nat.add_comm 1 d]

theorem watch_idle (dark d : ℕ) :
    Viewer.watch gap ⟨0, dark, false⟩ (List.replicate d false) = ([], ⟨0, dark + d, false⟩) := by
  induction d generalizing dark with
  | zero => rfl
  | succ d ih =>
    rw [List.replicate_succ, Viewer.watch]
    simp only [Viewer.see, if_neg (show ¬ (dark + 1 = gap ∧ 0 < 0) by omega),
      ih (dark + 1), Option.toList_none, List.nil_append]
    rw [Nat.add_assoc, Nat.add_comm 1 d]

/-- Behind the last flash of a turn. -/
theorem watch_long (k dark d : ℕ) (hk : 0 < k) (hdark : dark < gap) (h : gap ≤ dark + d) :
    Viewer.watch gap ⟨k, dark, false⟩ (List.replicate d false) =
      ([k], ⟨0, dark + d, false⟩) := by
  induction d generalizing dark with
  | zero => omega
  | succ d ih =>
    rw [List.replicate_succ, Viewer.watch]
    by_cases hend : dark + 1 = gap
    · simp only [Viewer.see, if_pos (And.intro hend hk), watch_idle, Option.toList_some,
        List.append_nil]
      rw [Nat.add_assoc, Nat.add_comm 1 d]
    · simp only [Viewer.see, if_neg (show ¬ (dark + 1 = gap ∧ 0 < k) by omega),
        ih (dark + 1) (by omega) (by omega), Option.toList_none, List.nil_append]
      rw [Nat.add_assoc, Nat.add_comm 1 d]

end Watching

section Turns

variable {gap slack : ℕ}

def readOf : Event Op Op.Res → Option DeviceStatus
  | ⟨.getDevicStatus, r⟩ => some r
  | _ => none

/-- What the thread has read of l_devStatus. -/
def reads (events : List (Event Op Op.Res)) : List DeviceStatus := events.filterMap readOf

theorem Timely.of_append {first rest : List (Event Op Op.Res)} (h : Timely slack (first ++ rest)) :
    Timely slack first ∧ Timely slack rest :=
  ⟨fun ticks lasted he => h ticks lasted (List.mem_append_left rest he),
    fun ticks lasted he => h ticks lasted (List.mem_append_right first he)⟩

theorem Timely.head {ticks lasted : ℕ} {events : List (Event Op Op.Res)}
    (h : Timely slack (⟨.threadDelay ticks, lasted⟩ :: events)) :
    ticks ≤ lasted + 1 ∧ lasted ≤ ticks + slack :=
  h ticks lasted List.mem_cons_self

theorem Timely.tail {e : Event Op Op.Res} {events : List (Event Op Op.Res)}
    (h : Timely slack (e :: events)) : Timely slack events :=
  fun ticks lasted he => h ticks lasted (List.mem_cons_of_mem e he)

/-- One flash, and the dark after it. -/
theorem blink_step {n : ℕ} {events : List (Event Op Op.Res)}
    (hrun : Runs (blink 200 (n + 1)) events ()) (ht : Timely slack events)
    (hgap : 200 + slack < gap) (k dark : ℕ) :
    ∃ d tail, Runs (blink 200 n) tail () ∧ Timely slack tail ∧ reads events = reads tail ∧
      199 ≤ d ∧ d < gap ∧ ∀ rest,
        Viewer.watch gap ⟨k, dark, false⟩ (levels false (events ++ rest)) =
          Viewer.watch gap ⟨k + 1, d, false⟩ (levels false (tail ++ rest)) := by
  obtain ⟨_, e₁, rfl, h₁⟩ := (runs_perform_bind Op.resetBits _ _ _).mp hrun
  obtain ⟨on, e₂, rfl, h₂⟩ := (runs_perform_bind (Op.threadDelay 200) _ _ _).mp h₁
  obtain ⟨_, e₃, rfl, h₃⟩ := (runs_perform_bind Op.setBits _ _ _).mp h₂
  obtain ⟨off, tail, rfl, h₄⟩ := (runs_perform_bind (Op.threadDelay 200) _ _ _).mp h₃
  have hon := ht.tail.head
  have hoff := ht.tail.tail.tail.head
  refine ⟨off, tail, h₄, ht.tail.tail.tail.tail, rfl, by omega, by omega, fun rest => ?_⟩
  change Viewer.watch gap ⟨k, dark, false⟩
    (List.replicate on true ++ (List.replicate off false ++ levels false (tail ++ rest))) = _
  rw [watch_append, watch_flash k dark on (by omega), watch_append,
    watch_dark_of_lit _ _ off (by omega), watch_short _ _ off (by omega), Nat.zero_add]
  rfl

theorem blink_watched {n : ℕ} {events : List (Event Op Op.Res)}
    (hrun : Runs (blink 200 n) events ()) (ht : Timely slack events)
    (hgap : 200 + slack < gap) (k dark : ℕ) (hlow : 199 ≤ dark) (hhigh : dark < gap) :
    reads events = [] ∧ ∃ d, 199 ≤ d ∧ d < gap ∧ ∀ rest,
      Viewer.watch gap ⟨k, dark, false⟩ (levels false (events ++ rest)) =
        Viewer.watch gap ⟨k + n, d, false⟩ (levels false rest) := by
  induction n generalizing events k dark with
  | zero =>
    obtain ⟨rfl, _⟩ := (runs_pure () () events).mp hrun
    exact ⟨rfl, dark, hlow, hhigh, fun rest => rfl⟩
  | succ n ih =>
    obtain ⟨d, tail, hrest, htail, hreads, hd, hd', hflash⟩ := blink_step hrun ht hgap k dark
    obtain ⟨hnone, d', hlow', hhigh', hwatch⟩ := ih hrest htail (k + 1) d hd hd'
    refine ⟨hreads.trans hnone, d', hlow', hhigh', fun rest => ?_⟩
    rw [hflash rest, hwatch rest, Nat.add_assoc, Nat.add_comm 1 n]

theorem reads_append (first rest : List (Event Op Op.Res)) :
    reads (first ++ rest) = reads first ++ reads rest :=
  List.filterMap_append

/-- The flashes of a status, then the long dark. -/
theorem flashes_watched {n : ℕ} {first : List (Event Op Op.Res)} {lasted : ℕ}
    (hrun : Runs (blink 200 (n + 1)) first ()) (ht : Timely slack first)
    (hgap : 200 + slack < gap) (hlong : gap ≤ 1698) (hlasted : 1500 ≤ lasted + 1) (dark : ℕ) :
    reads (first ++ [⟨.threadDelay 1500, lasted⟩]) = [] ∧ ∃ dark', ∀ rest,
      Viewer.watch gap ⟨0, dark, false⟩
          (levels false (first ++ [⟨.threadDelay 1500, lasted⟩] ++ rest)) =
        ((n + 1) :: (Viewer.watch gap ⟨0, dark', false⟩ (levels false rest)).1,
          (Viewer.watch gap ⟨0, dark', false⟩ (levels false rest)).2) := by
  obtain ⟨d, tail, hrest, htail, hreads, hlow, hhigh, hflash⟩ := blink_step hrun ht hgap 0 dark
  obtain ⟨hnone, d', hlow', hhigh', hwatch⟩ := blink_watched hrest htail hgap 1 d hlow hhigh
  refine ⟨?_, d' + lasted, fun rest => ?_⟩
  · rw [reads_append, hreads, hnone]
    rfl
  · rw [List.append_assoc, hflash, Nat.zero_add, hwatch]
    change Viewer.watch gap _ (List.replicate lasted false ++ levels false rest) = _
    rw [watch_append, watch_long _ _ _ (by omega) hhigh' (by omega), Nat.add_comm 1 n]
    rfl

theorem turn_watched {events : List (Event Op Op.Res)} (hrun : Runs turn events ())
    (ht : Timely slack events) (hgap : 200 + slack < gap) (hlong : gap ≤ 1698) (dark : ℕ) :
    ∃ status dark', reads events = [status] ∧ ∀ rest,
      Viewer.watch gap ⟨0, dark, false⟩ (levels false (events ++ rest)) =
        ((code status).toList ++ (Viewer.watch gap ⟨0, dark', false⟩ (levels false rest)).1,
          (Viewer.watch gap ⟨0, dark', false⟩ (levels false rest)).2) := by
  obtain ⟨status, e₁, rfl, h₁⟩ := (runs_perform_bind Op.getDevicStatus _ _ _).mp hrun
  obtain ⟨first, last, _, rfl, hfirst, hlast⟩ := (runs_bind _ _ _ _).mp h₁
  obtain ⟨lasted, e₂, rfl, hend⟩ := (runs_perform_bind (Op.threadDelay 1500) _ _ _).mp hlast
  obtain ⟨rfl, _⟩ := (runs_pure () () e₂).mp hend
  have hlasted := ht.tail.of_append.2.head.1
  have hfew := ht.tail.of_append.1
  refine ⟨status, ?_⟩
  cases status with
  | deviceOK =>
    rw [(@runs_perform Op Op.Res Op.setBits () first).mp hfirst]
    refine ⟨dark + lasted, rfl, fun rest => ?_⟩
    change Viewer.watch gap _ (List.replicate lasted false ++ levels false rest) = _
    rw [watch_append, watch_idle]
    rfl
  | bc95DontWork =>
    obtain ⟨hnone, dark', hwatch⟩ :=
      @flashes_watched gap slack 0 first lasted hfirst hfew hgap hlong hlasted dark
    exact ⟨dark', congrArg _ hnone, hwatch⟩
  | cgattTimeout =>
    obtain ⟨hnone, dark', hwatch⟩ :=
      @flashes_watched gap slack 2 first lasted hfirst hfew hgap hlong hlasted dark
    exact ⟨dark', congrArg _ hnone, hwatch⟩
  | cgattGetFail =>
    obtain ⟨hnone, dark', hwatch⟩ :=
      @flashes_watched gap slack 1 first lasted hfirst hfew hgap hlong hlasted dark
    exact ⟨dark', congrArg _ hnone, hwatch⟩

/-- Any number of turns. -/
theorem statusEntry_watched {n : ℕ} {events : List (Event Op Op.Res)}
    (hrun : Runs (statusEntry n) events ()) (ht : Timely slack events)
    (hgap : 200 + slack < gap) (hlong : gap ≤ 1698) (dark : ℕ) :
    (Viewer.watch gap ⟨0, dark, false⟩ (levels false events)).1 =
      (reads events).filterMap code := by
  induction n generalizing events dark with
  | zero =>
    obtain ⟨rfl, _⟩ := (runs_pure () () events).mp hrun
    rfl
  | succ n ih =>
    obtain ⟨first, rest, _, rfl, hfirst, hrest⟩ := (runs_bind _ _ _ _).mp hrun
    obtain ⟨status, dark', hreads, hwatch⟩ :=
      turn_watched hfirst ht.of_append.1 hgap hlong dark
    rw [hwatch rest, reads_append, hreads, ih hrest ht.of_append.2 dark']
    cases status <;> rfl

end Turns

section Sharing

/-- The thread reads the statuses in force. -/
theorem Shared.reads_own {devStatus : DeviceStatus} {history : List Happening}
    (h : Shared devStatus history) : reads (own history) = inForce devStatus history := by
  induction history generalizing devStatus with
  | nil => rfl
  | cons x history ih =>
    cases x with
    | publish status => exact ih h
    | own e =>
      obtain ⟨op, r⟩ := e
      cases op with
      | getDevicStatus =>
        obtain ⟨rfl, hrest⟩ := h
        exact congrArg (r :: ·) (ih hrest)
      | setBits => exact ih h
      | resetBits => exact ih h
      | threadDelay ticks => exact ih h

/-- At the end of any number of turns the notes of the viewer are the codes of the
statuses in force where the turns began, and at any moment they are the first of these. -/
theorem light_readable {gap slack n : ℕ} {history : List Happening}
    (hgap : 200 + slack < gap) (hlong : gap ≤ 1698)
    (hrun : Runs (statusEntry n) (own history) ()) (ht : Timely slack (own history))
    (hshared : Shared .deviceOK history) :
    (Viewer.watch gap ⟨0, 0, false⟩ (levels false (own history))).1 =
        (inForce .deviceOK history).filterMap code ∧
      ∀ seen, seen <+: levels false (own history) →
        (Viewer.watch gap ⟨0, 0, false⟩ seen).1 <+: (inForce .deviceOK history).filterMap code := by
  have hwhole := statusEntry_watched hrun ht hgap hlong 0
  rw [hshared.reads_own] at hwhole
  exact ⟨hwhole, fun seen hseen => hwhole ▸ watch_prefix _ hseen⟩

/-- Two turns. In the first one the module does not work, and while it flashes the
attachment fails too; its first delay lasts more than twice as long as it should. -/
def twoTurns : List Happening :=
  [.publish .bc95DontWork, .own ⟨.getDevicStatus, .bc95DontWork⟩, .own ⟨.resetBits, ()⟩,
    .own ⟨.threadDelay 200, (430 : ℕ)⟩, .publish .cgattGetFail, .own ⟨.setBits, ()⟩,
    .own ⟨.threadDelay 200, (199 : ℕ)⟩, .own ⟨.threadDelay 1500, (1700 : ℕ)⟩,
    .own ⟨.getDevicStatus, .cgattGetFail⟩, .own ⟨.resetBits, ()⟩,
    .own ⟨.threadDelay 200, (200 : ℕ)⟩, .own ⟨.setBits, ()⟩, .own ⟨.threadDelay 200, (390 : ℕ)⟩,
    .own ⟨.resetBits, ()⟩, .own ⟨.threadDelay 200, (260 : ℕ)⟩, .own ⟨.setBits, ()⟩,
    .own ⟨.threadDelay 200, (200 : ℕ)⟩, .own ⟨.threadDelay 1500, (1500 : ℕ)⟩]

/-- One flash and then two are counted, with delays up to 250 ticks longer. -/
theorem light_readable_two :
    (Viewer.watch 500 ⟨0, 0, false⟩ (levels false (own twoTurns))).1 = [1, 2] ∧
      ∀ seen, seen <+: levels false (own twoTurns) →
        (Viewer.watch 500 ⟨0, 0, false⟩ seen).1 <+: [1, 2] := by
  have hsecond : Runs (statusEntry 1) ((own twoTurns).drop 6) () :=
    .call (.call (.call (.call (.call (.call (.call (.call (.call (.call (.ret ()))))))))))
  have hrun : Runs (statusEntry 2) (own twoTurns) () :=
    .call (.call (.call (.call (.call (.call hsecond)))))
  refine @light_readable 500 250 2 twoTurns (by decide) (by decide) hrun ?_
    ⟨rfl, rfl, trivial⟩
  intro ticks lasted he
  have hdelays : 200 = ticks ∧ 430 = lasted ∨ 200 = ticks ∧ 199 = lasted ∨
      1500 = ticks ∧ 1700 = lasted ∨ 200 = ticks ∧ 200 = lasted ∨ 200 = ticks ∧ 390 = lasted ∨
      200 = ticks ∧ 260 = lasted ∨ 200 = ticks ∧ 200 = lasted ∨
      1500 = ticks ∧ 1500 = lasted := by
    simpa [own, twoTurns, Happening.event] using he
  omega

end Sharing

end GemhoNbiot.StatusLight
