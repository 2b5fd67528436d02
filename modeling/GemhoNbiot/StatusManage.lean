import GemhoNbiot.TraceLogic
import GemhoNbiot.Bc95Driver

/-!
BC95_statusManage as a program over the functions it calls: get_CGATT,
set_CGATT, config_bc95, the clock and a delay, each with any outcome. The
status it returns is what its last get_CGATT reported, and config_bc95 is only
called after a get_CGATT that did not report 1. The program over the serial
port in Bc95Driver is this one with each call carried out there.
-/
namespace GemhoNbiot.StatusManage

open Program TraceLogic Bc95Driver

/-- Where get_CGATT is called: at the top of a turn or in the polling loop. -/
inductive Site
  | turn
  | polling
deriving DecidableEq

/-- get_CGATT is given what nCGATT holds. -/
inductive Callee
  | getCGATT (site : Site) (nCGATT : ℤ)
  | setCGATT (cgatt : ℤ)
  | configBc95
  | getTimestamp
  | threadDelay (ticks : ℕ)

/-- get_CGATT leaves its result and nCGATT. -/
abbrev Callee.Res : Callee → Type
  | .getCGATT _ _ => ℤ × ℤ
  | .setCGATT _ => ℤ
  | .configBc95 => ℤ
  | .getTimestamp => UInt64
  | .threadDelay _ => Unit

abbrev Manage := Prog Callee Callee.Res

abbrev Outcome := Event Callee Callee.Res

def getCGATT (site : Site) (nCGATT : ℤ) : Manage (ℤ × ℤ) :=
  Prog.perform (Callee.getCGATT site nCGATT)
def setCGATT (cgatt : ℤ) : Manage ℤ := Prog.perform (Callee.setCGATT cgatt)
def configBc95 : Manage ℤ := Prog.perform Callee.configBc95
def getTimestamp : Manage UInt64 := Prog.perform Callee.getTimestamp
def threadDelay (ticks : ℕ) : Manage Unit := Prog.perform (Callee.threadDelay ticks)

/-- The polling loop with `n` tests of the clock left: the status and
bc95ReConfig it ends with. -/
def pollTurns (deadline : UInt64) (interval : ℕ) : ℕ → ℤ → Manage (DeviceStatus × Bool)
  | 0, _ => .hang
  | n + 1, nCGATT => do
    let t ← getTimestamp
    if t ≤ deadline then
      let r ← getCGATT .polling nCGATT
      if r.1 ≠ 0 then
        pure (.bc95DontWork, true)
      else if r.2 = 1 then
        pure (.deviceOK, false)
      else
        threadDelay interval
        pollTurns deadline interval n r.2
    else
      pure (.cgattTimeout, true)

/-- The for loop with `n` turns left. -/
def manageTurns (fuel interval : ℕ) (timeout : UInt64) :
    ℕ → DeviceStatus → Bool → Manage DeviceStatus
  | 0, status, _ => pure status
  | n + 1, _, reConfig => do
    let ret ← (if reConfig then configBc95 else pure 0)
    if ret ≠ 0 then
      pure .bc95DontWork
    else
      let r ← getCGATT .turn 0
      if r.1 ≠ 0 then
        manageTurns fuel interval timeout n .cgattGetFail true
      else if r.2 = 1 then
        pure .deviceOK
      else
        let last ← getTimestamp
        let _ ← setCGATT 1
        let s ← pollTurns (last + timeout) interval fuel r.2
        manageTurns fuel interval timeout n s.1 s.2

def statusManage (fuel loops interval : ℕ) (timeout : UInt64) : Manage DeviceStatus :=
  manageTurns fuel interval timeout loops .deviceOK false

section Observations

/-- The outcome of a get_CGATT call. -/
def cgattOf : Outcome → Option (ℤ × ℤ)
  | ⟨.getCGATT _ _, r⟩ => some r
  | _ => none

/-- The outcome of the last get_CGATT call. -/
def lastCgatt (calls : List Outcome) : Option (ℤ × ℤ) :=
  calls.foldl (fun last e => (cgattOf e).or last) none

/-- The last get_CGATT call succeeded and reported 1. -/
def Joined (calls : List Outcome) : Prop := lastCgatt calls = some (0, 1)

def isConfig : Outcome → Bool
  | ⟨.configBc95, _⟩ => true
  | _ => false

/-- A failing config_bc95, or a failing get_CGATT of the polling loop. -/
def Refusal : Outcome → Prop
  | ⟨.configBc95, ret⟩ => ret ≠ 0
  | ⟨.getCGATT .polling _, r⟩ => r.1 ≠ 0
  | _ => False

/-- Every call of config_bc95 comes after a get_CGATT that did not report 1, if
any came before it. -/
def ConfigAfter (calls : List Outcome) : Prop :=
  ∀ before e after, calls = before ++ e :: after → isConfig e → ¬ Joined before

/-- What a run that ends with this status has observed. -/
structure Reports (loops : ℕ) (calls : List Outcome) (status : DeviceStatus) : Prop where
  deviceOK_iff : status = .deviceOK ↔ Joined calls
  config_le : calls.countP isConfig ≤ loops - 1
  config_after : ConfigAfter calls
  dontWork : status = .bc95DontWork → ∃ before e, calls = before ++ [e] ∧ Refusal e

theorem lastCgatt_snoc (calls : List Outcome) (e : Outcome) :
    lastCgatt (calls ++ [e]) = (cgattOf e).or (lastCgatt calls) := by
  rw [lastCgatt, List.foldl_append]
  rfl

theorem joined_snoc {e : Outcome} (h : cgattOf e = none) (calls : List Outcome) :
    Joined (calls ++ [e]) ↔ Joined calls := by
  rw [Joined, lastCgatt_snoc, h, Option.none_or, Joined]

theorem joined_getCGATT (site : Site) (n : ℤ) (r : ℤ × ℤ) (calls : List Outcome) :
    Joined (calls ++ [⟨.getCGATT site n, r⟩]) ↔ r.1 = 0 ∧ r.2 = 1 := by
  rw [Joined, lastCgatt_snoc]
  exact Option.some_inj.trans Prod.ext_iff

theorem configAfter_snoc {calls : List Outcome} (h : ConfigAfter calls) (e : Outcome)
    (he : isConfig e → ¬ Joined calls) : ConfigAfter (calls ++ [e]) := by
  intro before e' after heq hconfig
  rcases List.eq_nil_or_concat after with rfl | ⟨after', last, rfl⟩
  · obtain ⟨rfl, hlast⟩ := List.append_inj' heq rfl
    obtain rfl := List.singleton_inj.mp hlast
    exact he hconfig
  · rw [List.concat_eq_append, ← List.cons_append, ← List.append_assoc] at heq
    exact h before e' after' (List.append_inj' heq rfl).1 hconfig

end Observations

section Runs

variable {m : ℕ} {calls : List Outcome} {e : Outcome}

/-- At most `m` calls of config_bc95, none of them after an observed 1. -/
structure Counted (m : ℕ) (calls : List Outcome) : Prop where
  config_le : calls.countP isConfig ≤ m
  config_after : ConfigAfter calls

theorem Counted.mono {m' : ℕ} (h : Counted m calls) (hm : m ≤ m') : Counted m' calls :=
  ⟨h.config_le.trans hm, h.config_after⟩

theorem Counted.snoc (h : Counted m calls) (he : isConfig e = false) :
    Counted m (calls ++ [e]) where
  config_le := by
    rw [List.countP_append, List.countP_singleton, he]
    exact h.config_le
  config_after := configAfter_snoc h.config_after e fun hconfig => by
    rw [he] at hconfig
    exact absurd hconfig (by decide)

theorem Counted.snoc_config (h : Counted m calls) (hj : ¬ Joined calls) (he : isConfig e = true) :
    Counted (m + 1) (calls ++ [e]) where
  config_le := by
    rw [List.countP_append, List.countP_singleton, he]
    exact Nat.succ_le_succ h.config_le
  config_after := configAfter_snoc h.config_after e fun _ => hj

/-- The status and bc95ReConfig tell what the last get_CGATT reported. -/
structure Observed (m : ℕ) (status : DeviceStatus) (reConfig : Bool) (calls : List Outcome) :
    Prop where
  counted : Counted m calls
  deviceOK_iff : status = .deviceOK ↔ Joined calls
  reConfig_imp : reConfig = true → ¬ Joined calls
  dontWork : status = .bc95DontWork → ∃ before e, calls = before ++ [e] ∧ Refusal e

theorem Observed.joined (h : Counted m calls) (hj : Joined calls) :
    Observed m .deviceOK false calls :=
  ⟨h, ⟨fun _ => hj, fun _ => rfl⟩, fun hfalse => by simp at hfalse, fun hne => by simp at hne⟩

theorem Observed.not_joined {status : DeviceStatus} {reConfig : Bool} (h : Counted m calls)
    (hj : ¬ Joined calls) (hok : status ≠ .deviceOK) (hwork : status ≠ .bc95DontWork) :
    Observed m status reConfig calls :=
  ⟨h, ⟨fun heq => absurd heq hok, fun h => absurd h hj⟩, fun _ => hj, fun heq => absurd heq hwork⟩

theorem Observed.refused {reConfig : Bool} (h : Counted m (calls ++ [e]))
    (hj : ¬ Joined (calls ++ [e])) (he : Refusal e) :
    Observed m .bc95DontWork reConfig (calls ++ [e]) :=
  ⟨h, ⟨fun heq => by simp at heq, fun h => absurd h hj⟩, fun _ => hj, fun _ => ⟨calls, e, rfl, he⟩⟩

/-- The polling loop, by induction on the tests of the clock left. -/
theorem pollTurns_observed (deadline : UInt64) (interval n : ℕ) (nCGATT : ℤ) :
    Triple (fun calls => Counted m calls ∧ ¬ Joined calls)
      (pollTurns deadline interval n nCGATT) (fun s calls => Observed m s.1 s.2 calls) := by
  induction n generalizing nCGATT with
  | zero => exact triple_hang
  | succ n ih =>
    refine triple_call (fun _ calls => Counted m calls ∧ ¬ Joined calls) ?_ fun t => ?_
    · intro calls t h
      exact ⟨h.1.snoc rfl, fun hj => h.2 ((joined_snoc rfl calls).mp hj)⟩
    refine triple_ite (fun _ => ?_) fun _ => ?_
    · refine triple_call (fun r calls => ∃ before, Counted m before ∧
        calls = before ++ [⟨.getCGATT .polling nCGATT, r⟩]) ?_ fun r => ?_
      · intro calls r h
        exact ⟨calls, h.1, rfl⟩
      refine triple_ite (fun hret => ?_) fun hret => triple_ite (fun hone => ?_) fun hone => ?_
      · apply triple_pure
        rintro _ ⟨before, h, rfl⟩
        refine Observed.refused (h.snoc rfl) (fun hj => hret ?_) hret
        exact ((joined_getCGATT _ _ _ _).mp hj).1
      · apply triple_pure
        rintro _ ⟨before, h, rfl⟩
        apply Observed.joined (h.snoc rfl)
        exact (joined_getCGATT _ _ _ _).mpr ⟨by simpa using hret, hone⟩
      · refine triple_call (fun _ calls => Counted m calls ∧ ¬ Joined calls) ?_ fun _ => ih r.2
        rintro _ _ ⟨before, h, rfl⟩
        refine ⟨(h.snoc rfl).snoc rfl, fun hj => hone ?_⟩
        exact ((joined_getCGATT _ _ _ _).mp ((joined_snoc rfl _).mp hj)).2
    · apply triple_pure
      intro calls h
      exact Observed.not_joined h.1 h.2 (by decide) (by decide)

/-- What a run reports from a status on with at most `m` calls of config_bc95. -/
def Ends (m : ℕ) (status : DeviceStatus) (calls : List Outcome) : Prop :=
  ∃ reConfig, Observed m status reConfig calls

/-- A turn that starts with bc95ReConfig set may add a call of config_bc95. -/
def Ready (m : ℕ) (reConfig : Bool) (calls : List Outcome) : Prop :=
  if reConfig then ∃ k, k + 1 = m ∧ Counted k calls ∧ ¬ Joined calls else Counted m calls

/-- The call of config_bc95 at the top of a turn. -/
theorem reConfig_counted (reConfig : Bool) :
    Triple (Ready m reConfig) (if reConfig then configBc95 else pure 0)
      (fun ret calls => if ret ≠ 0 then Ends m .bc95DontWork calls else Counted m calls) := by
  cases reConfig with
  | false =>
    apply triple_pure
    intro calls h
    rw [if_neg (not_not.mpr rfl)]
    exact h
  | true =>
    intro before events ret h hrun
    obtain ⟨k, rfl, hcount, hj⟩ := h
    rw [(@runs_perform Callee Callee.Res Callee.configBc95 ret events).mp hrun]
    have hsnoc : Counted (k + 1) (before ++ [⟨.configBc95, ret⟩]) := hcount.snoc_config hj rfl
    by_cases hret : ret ≠ 0
    · rw [if_pos hret]
      exact ⟨true, Observed.refused hsnoc (fun h => hj ((joined_snoc rfl _).mp h)) hret⟩
    · rw [if_neg hret]
      exact hsnoc

/-- One turn, given what the turns after it do. -/
theorem turn_ends {fuel interval n : ℕ} {timeout : UInt64} {M : ℕ} (hM : m ≤ M)
    (hrest : ∀ status reConfig, Triple (Observed m status reConfig)
      (manageTurns fuel interval timeout n status reConfig) (Ends M))
    (status : DeviceStatus) (reConfig : Bool) :
    Triple (Ready m reConfig)
      (manageTurns fuel interval timeout (n + 1) status reConfig) (Ends M) := by
  refine triple_bind _ (reConfig_counted reConfig) fun ret => ?_
  refine triple_ite (fun hret => ?_) fun hret => ?_
  · apply triple_pure
    intro calls h
    rw [if_pos hret] at h
    obtain ⟨reConfig, h⟩ := h
    exact ⟨reConfig, { h with counted := h.counted.mono hM }⟩
  refine triple_call (fun r calls => ∃ before, Counted m before ∧
      calls = before ++ [⟨.getCGATT .turn 0, r⟩]) ?_ fun r => ?_
  · intro calls r h
    rw [if_neg hret] at h
    exact ⟨calls, h, rfl⟩
  refine triple_ite (fun hret => ?_) fun hret => triple_ite (fun hone => ?_) fun hone => ?_
  · refine (hrest .cgattGetFail true).mono ?_ fun _ _ h => h
    rintro _ ⟨before, h, rfl⟩
    apply Observed.not_joined (h.snoc rfl) _ (by decide) (by decide)
    exact fun hj => hret ((joined_getCGATT _ _ _ _).mp hj).1
  · apply triple_pure
    rintro _ ⟨before, h, rfl⟩
    refine ⟨false, Observed.joined ((h.snoc rfl).mono hM) ?_⟩
    exact (joined_getCGATT _ _ _ _).mpr ⟨by simpa using hret, hone⟩
  · refine triple_call (fun _ calls => Counted m calls ∧ ¬ Joined calls) ?_ fun last => ?_
    · rintro _ t ⟨before, h, rfl⟩
      refine ⟨(h.snoc rfl).snoc rfl, fun hj => hone ?_⟩
      exact ((joined_getCGATT _ _ _ _).mp ((joined_snoc rfl _).mp hj)).2
    refine triple_call (fun _ calls => Counted m calls ∧ ¬ Joined calls) ?_ fun _ => ?_
    · intro calls ret h
      exact ⟨h.1.snoc rfl, fun hj => h.2 ((joined_snoc rfl _).mp hj)⟩
    exact triple_bind _ (pollTurns_observed _ _ _ _) fun s => hrest s.1 s.2

/-- The turns after the first one, by induction on their number. -/
theorem manageTurns_ends (fuel interval n m : ℕ) (timeout : UInt64) (status : DeviceStatus)
    (reConfig : Bool) :
    Triple (Observed m status reConfig) (manageTurns fuel interval timeout n status reConfig)
      (Ends (m + n)) := by
  induction n generalizing m status reConfig with
  | zero => exact triple_pure fun calls h => ⟨reConfig, h⟩
  | succ n ih =>
    have hturn := turn_ends (m := m + 1) (by omega) (ih (m + 1)) status reConfig
    rw [show m + (n + 1) = m + 1 + n by omega]
    refine hturn.mono ?_ fun _ _ h => h
    intro calls h
    cases reConfig with
    | false => exact h.counted.mono (Nat.le_succ m)
    | true => exact ⟨m, rfl, h.counted, h.reConfig_imp rfl⟩

theorem statusManage_ends (fuel loops interval : ℕ) (timeout : UInt64) (hloops : 1 ≤ loops) :
    Triple (· = []) (statusManage fuel loops interval timeout)
      (fun status calls => Reports loops calls status) := by
  obtain ⟨n, rfl⟩ := Nat.exists_eq_add_of_le' hloops
  have hrest := fun status reConfig =>
    manageTurns_ends fuel interval n 0 timeout status reConfig
  have hturns := turn_ends (Nat.zero_le (0 + n)) hrest .deviceOK false
  refine hturns.mono ?_ fun status calls h => ?_
  · rintro _ rfl
    refine ⟨Nat.le_refl 0, ?_⟩
    intro before e after heq
    simp at heq
  · obtain ⟨reConfig, h⟩ := h
    exact {
      deviceOK_iff := h.deviceOK_iff
      config_le := h.counted.config_le.trans (by omega)
      config_after := h.counted.config_after
      dontWork := h.dontWork
    }

/-- BC95_statusManage reports what it last observed. -/
theorem statusManage_reports (fuel loops interval : ℕ) (timeout : UInt64) (hloops : 1 ≤ loops)
    (calls : List Outcome) (status : DeviceStatus)
    (hrun : Runs (statusManage fuel loops interval timeout) calls status) :
    Reports loops calls status :=
  (statusManage_ends fuel loops interval timeout hloops).run hrun

/-- Not attached when first asked, the polling times out, set up again, attached. -/
theorem statusManage_reports_recovery :
    Reports 2 [⟨.getCGATT .turn 0, (0, 0)⟩, ⟨.getTimestamp, 10⟩, ⟨.setCGATT 1, 0⟩,
      ⟨.getTimestamp, 20⟩, ⟨.getCGATT .polling 0, (0, 0)⟩, ⟨.threadDelay 7, ()⟩,
      ⟨.getTimestamp, 200⟩, ⟨.configBc95, 0⟩, ⟨.getCGATT .turn 0, (0, 1)⟩] .deviceOK :=
  statusManage_reports 3 2 7 100 (by decide) _ _ (.call (.call (.call (.call (.call (.call
    (.call (.call (.call (.ret _))))))))))

end Runs

section Termination

variable {env : Env Callee Callee.Res} {fuel : ℕ} {timeout : UInt64}

def isTimestamp : Outcome → Bool
  | ⟨.getTimestamp, _⟩ => true
  | _ => false

/-- From any read of the clock on, `fuel` reads later the timeout has passed. -/
def ClockPasses (env : Env Callee Callee.Res) (fuel : ℕ) (timeout : UInt64) : Prop :=
  ∀ before more, fuel ≤ more.countP isTimestamp →
    env before .getTimestamp + timeout < env (before ++ more) .getTimestamp

theorem pollTurns_returns (hclock : ClockPasses env fuel timeout) (before : List Outcome)
    (interval n : ℕ) (more : List Outcome) (nCGATT : ℤ) (hle : more.countP isTimestamp ≤ fuel)
    (hn : fuel < more.countP isTimestamp + n) :
    Returns env (before ++ more)
      (pollTurns (env before .getTimestamp + timeout) interval n nCGATT) := by
  induction n generalizing more nCGATT with
  | zero => omega
  | succ n ih =>
    apply returns_call
    refine returns_ite (fun ht => ?_) fun _ => returns_pure _
    have hlt : more.countP isTimestamp < fuel := by
      by_contra hge
      exact absurd (hclock before more (Nat.le_of_not_lt hge)) (UInt64.not_lt.mpr ht)
    apply returns_call
    refine returns_ite (fun _ => returns_pure _) fun _ => ?_
    refine returns_ite (fun _ => returns_pure _) fun _ => ?_
    apply returns_call
    rw [List.append_assoc, List.append_assoc, List.append_assoc]
    apply ih
    · rw [List.countP_append]
      exact hlt
    · rw [List.countP_append]
      change fuel < more.countP isTimestamp + 1 + n
      omega

/-- With a clock that passes the timeout the function returns. -/
theorem statusManage_returns (hclock : ClockPasses env fuel timeout) (hfuel : 0 < fuel)
    (loops interval : ℕ) : Returns env [] (statusManage fuel loops interval timeout) := by
  suffices h : ∀ n before status reConfig,
      Returns env before (manageTurns fuel interval timeout n status reConfig) from
    h loops [] .deviceOK false
  intro n
  induction n with
  | zero => exact fun before status reConfig => returns_pure status
  | succ n ih =>
    intro before status reConfig
    refine returns_bind ?_ fun events ret _ => ?_
    · refine returns_ite (fun _ => ?_) fun _ => returns_pure 0
      exact ⟨_, _, (runs_perform _ _ _).mpr rfl, .cons _ (.nil _)⟩
    refine returns_ite (fun _ => returns_pure _) fun _ => returns_call ?_
    refine returns_ite (fun _ => ih _ _ _) fun _ => ?_
    refine returns_ite (fun _ => returns_pure _) fun _ => returns_call (returns_call ?_)
    refine returns_bind ?_ fun events s _ => ih _ _ _
    rw [List.append_assoc _ _ [_]]
    exact pollTurns_returns hclock _ interval fuel _ _ hfuel (by simp [isTimestamp])

end Termination

section Serial

open ConfigUtils

/-- The calls of BC95_statusManage over the serial port. -/
def overSerial (config : NbModuConfig) :
    (op : Callee) → ModuleInfo → Bc95 (Callee.Res op × ModuleInfo)
  | .getCGATT _ nCGATT, info => do
    let r ← Bc95Driver.getCGATT nCGATT
    pure (r, info)
  | .setCGATT cgatt, info => do
    let ret ← Bc95Driver.setCGATT cgatt
    pure (ret, info)
  | .configBc95, info => Bc95Driver.configBc95 config info
  | .getTimestamp, info => do
    let t ← Bc95Driver.getTimestamp
    pure (t, info)
  | .threadDelay ticks, info => do
    Bc95Driver.threadDelay ticks
    pure ((), info)

theorem pollTurns_serial (config : NbModuConfig) (deadline : UInt64) (interval n : ℕ)
    (nCGATT : ℤ) (info : ModuleInfo) :
    handle (overSerial config) (pollTurns deadline interval n nCGATT) info =
      pollCGATT deadline interval n nCGATT >>= fun s => pure (s, info) := by
  induction n generalizing nCGATT with
  | zero => rfl
  | succ n ih =>
    simp only [pollTurns, pollCGATT, getTimestamp, getCGATT, threadDelay, handle_perform_bind,
      overSerial, bind_assoc, pure_bind]
    refine congrArg _ (funext fun t => ?_)
    by_cases ht : t ≤ deadline
    · simp only [if_pos ht, handle_perform_bind, overSerial, bind_assoc, pure_bind]
      refine congrArg _ (funext fun r => ?_)
      by_cases hret : r.1 ≠ 0
      · simp only [if_pos hret]
        rfl
      by_cases hone : r.2 = 1
      · simp only [if_neg hret, if_pos hone]
        rfl
      simp only [if_neg hret, if_neg hone, handle_perform_bind, overSerial, bind_assoc, pure_bind]
      exact congrArg _ (funext fun _ => ih r.2)
    · simp only [if_neg ht]
      rfl

theorem manageTurns_serial (config : NbModuConfig) (fuel interval n : ℕ) (timeout : UInt64)
    (status : DeviceStatus) (reConfig : Bool) (info : ModuleInfo) :
    handle (overSerial config) (manageTurns fuel interval timeout n status reConfig) info =
      statusTurns fuel config interval timeout n status reConfig info := by
  induction n generalizing status reConfig info with
  | zero => rfl
  | succ n ih =>
    have hconfig : handle (overSerial config) (if reConfig then configBc95 else pure 0) info =
        if reConfig then Bc95Driver.configBc95 config info else pure (0, info) := by
      cases reConfig with
      | false => rfl
      | true => exact bind_pure (Bc95Driver.configBc95 config info)
    rw [manageTurns, statusTurns, handle_bind, hconfig]
    refine congrArg _ (funext fun r => ?_)
    by_cases hret : r.1 ≠ 0
    · simp only [if_pos hret]
      rfl
    simp only [if_neg hret, getCGATT, handle_perform_bind, overSerial, bind_assoc, pure_bind]
    refine congrArg _ (funext fun c => ?_)
    by_cases hfail : c.1 ≠ 0
    · simp only [if_pos hfail]
      exact ih _ _ _
    by_cases hone : c.2 = 1
    · simp only [if_neg hfail, if_pos hone]
      rfl
    simp only [if_neg hfail, if_neg hone, getTimestamp, setCGATT, handle_perform_bind, overSerial,
      bind_assoc, pure_bind]
    refine congrArg _ (funext fun last => congrArg _ (funext fun _ => ?_))
    rw [handle_bind, pollTurns_serial, bind_assoc]
    exact congrArg _ (funext fun s => ih s.1 s.2 r.2)

/-- The function of Bc95Driver is this one with its calls carried out over the
serial port. -/
theorem statusManage_serial (config : NbModuConfig) (fuel loops interval : ℕ) (timeout : UInt64)
    (info : ModuleInfo) :
    Bc95Driver.statusManage fuel config loops interval timeout info =
      handle (overSerial config) (statusManage fuel loops interval timeout) info :=
  (manageTurns_serial config fuel interval loops timeout .deviceOK false info).symm

/-- So a run over the serial port reports what its own calls observed. -/
theorem statusManage_serial_reports (config : NbModuConfig) (fuel loops interval : ℕ)
    (timeout : UInt64) (info info' : ModuleInfo) (hloops : 1 ≤ loops) (events : List Call)
    (status : DeviceStatus)
    (hrun : Runs (Bc95Driver.statusManage fuel config loops interval timeout info) events
      (status, info')) :
    ∃ calls, Handled (overSerial config) info calls events info' ∧ Reports loops calls status := by
  rw [statusManage_serial] at hrun
  obtain ⟨calls, hcalls, hhandled⟩ := (runs_handle _ _ info info' events status).mp hrun
  exact ⟨calls, hhandled, (statusManage_ends fuel loops interval timeout hloops).run hcalls⟩

end Serial

end GemhoNbiot.StatusManage
