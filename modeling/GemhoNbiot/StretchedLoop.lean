import GemhoNbiot.SharedDriver

/-!
The loop of main_entry into which a save of key_entry comes. Every loop of the
driver counts sEETimeout down and gives up when it finds it at 0. The save that
comes within a transfer has counted it down past 0, and main_entry goes on from
there: 2^32 turns until it gives up, where it has set 4096 or 40960.
-/
namespace GemhoNbiot.StretchedLoop

open Program TraceLogic SharedDriver
open I2cBus hiding standbyTrial standbyTrials sEEWaitEepromStandbyState seeI2cWrite waitAddressed
  waitEvent waitWhileBusy
open Eeprom hiding Step writeLoop saveConfig
open ConfigUtils hiding saveConfig

/-- The accesses of a loop that gives up: turns of a look and a decrement, until
the decrement finds 0. -/
inductive GivesUp : Accesses → Prop
  | last {op : Op} (r : op.Res) :
      GivesUp [⟨.bus op, r⟩, ⟨.loadTimeout, 0⟩, ⟨.storeTimeout (0 - 1), ()⟩]
  | turn {op : Op} (r : op.Res) {value : UInt32} {rest : Accesses} (hvalue : value ≠ 0)
      (hrest : GivesUp rest) :
      GivesUp (⟨.bus op, r⟩ :: ⟨.loadTimeout, value⟩ :: ⟨.storeTimeout (value - 1), ()⟩ :: rest)

theorem GivesUp.of_countDown {α : Type} {op : Op} (r : op.Res) {late : α} {again : Driver α}
    {accesses : Accesses} {a : α}
    (hrun : Runs (countDown >>= fun zero => if zero = true then pure late else again) accesses a)
    (hagain : ∀ rest, Runs again rest a → GivesUp rest) :
    GivesUp (⟨.bus op, r⟩ :: accesses) := by
  obtain ⟨value, rest, rfl, hrest⟩ := run_countDown hrun
  by_cases hzero : value = 0
  · subst hzero
    have hnil : rest = [] := ((runs_pure late a rest).mp hrest).1
    rw [hnil]
    exact .last r
  · rw [if_neg (by simpa using hzero)] at hrest
    exact .turn r hzero (hagain rest hrest)

theorem wait_givesUp {op : Op} {seen : op.Res → Bool} {looks : ℕ} {accesses : Accesses}
    (hrun : Runs (wait op seen looks) accesses false) : GivesUp accesses := by
  induction looks generalizing accesses with
  | zero => exact absurd hrun (not_runs_hang _ _)
  | succ looks ih =>
    obtain ⟨r, rest, rfl, hrest⟩ := (runs_perform_bind _ _ _ _).mp hrun
    by_cases hseen : seen r = true
    · rw [if_pos hseen] at hrest
      cases ((runs_pure _ _ _).mp hrest).2
    · rw [if_neg hseen] at hrest
      exact .of_countDown r hrest fun rest hagain => ih hagain

theorem waitAddressed_givesUp {looks : ℕ} {accesses : Accesses}
    (hrun : Runs (waitAddressed looks) accesses none) : GivesUp accesses := by
  induction looks generalizing accesses with
  | zero => exact absurd hrun (not_runs_hang _ _)
  | succ looks ih =>
    obtain ⟨tmpSR1, rest, rfl, hrest⟩ := (runs_perform_bind _ _ _ _).mp hrun
    refine @GivesUp.of_countDown _ .readSR1 tmpSR1 _ _ _ _ hrest fun rest hagain => ?_
    by_cases hseen : (tmpSR1.addr || tmpSR1.af) = true
    · rw [if_pos hseen] at hagain
      cases ((runs_pure _ _ _).mp hagain).2
    · rw [if_neg hseen] at hagain
      exact ih hagain

/-- How often sEETimeout-- was begun. -/
def countdowns (accesses : Accesses) : ℕ :=
  accesses.countP fun access =>
    match access with
    | ⟨.loadTimeout, _⟩ => true
    | _ => false

/-- The next access is the store of a sEETimeout-- that has been begun. -/
def midDecrement : Accesses → Bool
  | ⟨.storeTimeout _, _⟩ :: _ => true
  | _ => false

theorem countdowns_look {op : Op} (r : op.Res) (rest : Accesses) :
    countdowns (⟨.bus op, r⟩ :: rest) = countdowns rest := by
  simp [countdowns]

theorem countdowns_turn (value next : UInt32) (rest : Accesses) :
    countdowns (⟨.loadTimeout, value⟩ :: ⟨.storeTimeout next, ()⟩ :: rest) =
      countdowns rest + 1 := by
  simp [countdowns]

/-- Left alone, the loop counts down from what it finds in sEETimeout. -/
theorem GivesUp.countdowns_eq {accesses : Accesses} {s s' : State} (h : GivesUp accesses)
    (hchain : Chain Step s accesses s') :
    countdowns accesses = s.sEETimeout.toNat + 1 := by
  induction h generalizing s with
  | last r =>
    obtain ⟨s₁, hstep, hchain⟩ := chain_cons.mp hchain
    obtain ⟨chip, _, _, rfl⟩ := step_bus hstep
    have hzero : 0 = s.sEETimeout := (chain_countDown hchain).1
    rw [countdowns_look, countdowns_turn, ← hzero]
    rfl
  | turn r hvalue hrest ih =>
    obtain ⟨s₁, hstep, hchain⟩ := chain_cons.mp hchain
    obtain ⟨chip, _, _, rfl⟩ := step_bus hstep
    obtain ⟨rfl, hchain⟩ := chain_countDown hchain
    have hpred : s.sEETimeout.toNat = (s.sEETimeout - 1).toNat + 1 := timeout_pred hvalue
    rw [countdowns_look, countdowns_turn, ih hchain, hpred]

/-- What becomes of the loop when somebody has left sEETimeout at its largest
value between `before` and `after`. -/
def Stretched (all : Accesses) : Prop :=
  ∀ before after s s₁ s₂ s₃, before ++ after = all → Chain Step s before s₁ →
    Chain Step s₂ after s₃ → s₂.sEETimeout = 0 - 1 → after ≠ [] →
    countdowns all =
      if midDecrement after then s.sEETimeout.toNat + 1 else countdowns before + 2 ^ 32

/-- One turn; the rest of the loop is empty or a loop of its own. -/
theorem stretched_turn {op : Op} (r : op.Res) {value : UInt32} {rest : Accesses}
    (hloop : GivesUp (⟨.bus op, r⟩ :: ⟨.loadTimeout, value⟩ ::
      ⟨.storeTimeout (value - 1), ()⟩ :: rest))
    (hend : value = 0 ∧ rest = [] ∨ value ≠ 0 ∧ GivesUp rest ∧ Stretched rest) :
    Stretched
      (⟨.bus op, r⟩ :: ⟨.loadTimeout, value⟩ :: ⟨.storeTimeout (value - 1), ()⟩ :: rest) := by
  intro before after s s₁ s₂ s₃ hall hbefore hafter hlargest hne
  have hwhole : s₂.sEETimeout.toNat + 1 = 2 ^ 32 := by rw [hlargest]; rfl
  rcases List.append_eq_cons_iff.mp hall with ⟨rfl, rfl⟩ | ⟨before, rfl, hload⟩
  · -- before a look
    have hcount := hloop.countdowns_eq hafter
    rw [hwhole, ← Nat.zero_add (2 ^ 32)] at hcount
    exact hcount
  obtain ⟨s₀, hstep, hbefore⟩ := chain_cons.mp hbefore
  obtain ⟨chip, _, _, rfl⟩ := step_bus hstep
  rw [countdowns_look, countdowns_look]
  rcases List.append_eq_cons_iff.mp hload.symm with ⟨rfl, rfl⟩ | ⟨before, rfl, hstore⟩
  · -- between a look and its decrement
    obtain ⟨rfl, hafter⟩ := chain_countDown hafter
    have hne : s₂.sEETimeout ≠ 0 := by
      intro hzero
      rw [hzero] at hlargest
      cases hlargest
    obtain ⟨hzero, _⟩ | ⟨_, hrest, _⟩ := hend
    · exact absurd hzero hne
    · rw [countdowns_turn, hrest.countdowns_eq hafter]
      change (s₂.sEETimeout - 1).toNat + 1 + 1 = _
      rw [← timeout_pred hne, hwhole, ← Nat.zero_add (2 ^ 32)]
      rfl
  rcases List.append_eq_cons_iff.mp hstore.symm with ⟨rfl, rfl⟩ | ⟨before, rfl, hrest⟩
  · -- within the decrement
    obtain ⟨s₄, hload, _⟩ := chain_cons.mp hbefore
    obtain ⟨rfl, _⟩ := step_load hload
    obtain ⟨s₅, hstore, htail⟩ := chain_cons.mp hafter
    obtain rfl := step_store hstore
    rw [countdowns_turn]
    change countdowns rest + 1 = s.sEETimeout.toNat + 1
    obtain ⟨hzero, rfl⟩ | ⟨hpos, hrest, _⟩ := hend
    · have hlast : s.sEETimeout = 0 := hzero
      rw [hlast]
      rfl
    · have hpred : s.sEETimeout.toNat = (s.sEETimeout - 1).toNat + 1 := timeout_pred hpos
      rw [hrest.countdowns_eq htail, hpred]
  · -- after it
    obtain ⟨rfl, hbefore⟩ := chain_countDown hbefore
    rw [countdowns_turn, countdowns_turn]
    obtain ⟨_, rfl⟩ | ⟨hpos, _, hstretched⟩ := hend
    · exact absurd (List.append_eq_nil_iff.mp hrest.symm).2 hne
    · have hpred : s.sEETimeout.toNat = (s.sEETimeout - 1).toNat + 1 := timeout_pred hpos
      rw [hstretched before after _ s₁ s₂ s₃ hrest.symm hbefore hafter hlargest hne, hpred]
      cases midDecrement after with
      | false => exact Nat.add_right_comm _ _ _
      | true => rfl

theorem GivesUp.stretched {all : Accesses} (h : GivesUp all) : Stretched all := by
  induction h with
  | last r => exact stretched_turn r (.last r) (Or.inl ⟨rfl, rfl⟩)
  | turn r hvalue hrest ih =>
    exact stretched_turn r (.turn r hvalue hrest) (Or.inr ⟨hvalue, hrest, ih⟩)

/-- A save of key_entry that comes into a loop of a transfer of main_entry fails
and leaves the EEPROM and the bus alone, but a loop that gives up has then made
2^32 turns after it, unless the save came within a decrement of sEETimeout. -/
theorem preempted_loop (turns looks : ℕ) (b : NbModuConfig) (before after : Accesses) (ret : ℕ)
    (s s₁ s₂ s₃ : State)
    (hrun : (∃ op seen, Runs (wait op seen looks) (before ++ after) false) ∨
      Runs (waitAddressed looks) (before ++ after) none)
    (hbefore : Chain Step s before s₁) (hheld : s₁.held = true)
    (hkey : KeySave turns b s₁ ret s₂) (hafter : Chain Step s₂ after s₃) (hne : after ≠ []) :
    ret = sEE_FAIL ∧ s₂.chip = s₁.chip ∧ s₂.held = true ∧ s₂.sEETimeout = 0 - 1 ∧
      countdowns (before ++ after) =
        if midDecrement after then s.sEETimeout.toNat + 1 else countdowns before + 2 ^ 32 := by
  have hloop : GivesUp (before ++ after) := by
    rcases hrun with ⟨op, seen, hrun⟩ | hrun
    · exact wait_givesUp hrun
    · exact waitAddressed_givesUp hrun
  obtain ⟨rfl, rfl⟩ := hkey.held hheld
  exact ⟨rfl, rfl, hheld, rfl, hloop.stretched before after s s₁ _ s₃ rfl hbefore hafter rfl hne⟩

section Witness

theorem runs_countDown {α : Type} {f : Bool → Driver α} {value : UInt32} {rest : Accesses} {a : α}
    (h : Runs (f (value == 0)) rest a) :
    Runs (countDown >>= f) (⟨.loadTimeout, value⟩ :: ⟨.storeTimeout (value - 1), ()⟩ :: rest) a :=
  .call (.call h)

/-- A loop that sees nothing gives up in the end. -/
theorem exists_unseen (op : Op) (seen : op.Res → Bool) (r : op.Res) (chip : Chip)
    (hr : ¬ seen r = true) (hstep : Eeprom.Step chip ⟨op, r⟩ chip) (hbusy : ¬ NotBusy ⟨op, r⟩)
    (hheld : heldAfter true ⟨op, r⟩ = true) (n : ℕ) (sEETimeout : UInt32)
    (hn : sEETimeout.toNat = n) :
    ∃ accesses, Runs (wait op seen (n + 1)) (⟨.bus op, r⟩ :: accesses) false ∧
      Chain Step ⟨chip, true, sEETimeout⟩ (⟨.bus op, r⟩ :: accesses) ⟨chip, true, 0 - 1⟩ := by
  have hlook : ∀ value, Step ⟨chip, true, value⟩ ⟨.bus op, r⟩ ⟨chip, true, value⟩ := by
    intro value
    have h : Step ⟨chip, true, value⟩ ⟨.bus op, r⟩ ⟨chip, heldAfter true ⟨op, r⟩, value⟩ :=
      .bus hstep fun _ => hbusy
    rw [hheld] at h
    exact h
  induction n generalizing sEETimeout with
  | zero =>
    obtain rfl : sEETimeout = 0 := UInt32.toNat.inj hn
    refine ⟨[⟨.loadTimeout, 0⟩, ⟨.storeTimeout (0 - 1), ()⟩], ?_, ?_⟩
    · refine (runs_perform_bind _ _ _ _).mpr ⟨r, _, rfl, ?_⟩
      rw [if_neg hr]
      exact runs_countDown (.ret false)
    · exact .cons (hlook 0) (.cons .load (.cons .store (.nil _)))
  | succ n ih =>
    have hne : sEETimeout ≠ 0 := by
      rintro rfl
      cases hn
    have hpred : (sEETimeout - 1).toNat = n := by
      have h := timeout_pred hne
      omega
    obtain ⟨accesses, hrun, hchain⟩ := ih (sEETimeout - 1) hpred
    refine ⟨⟨.loadTimeout, sEETimeout⟩ :: ⟨.storeTimeout (sEETimeout - 1), ()⟩ ::
      ⟨.bus op, r⟩ :: accesses, ?_, ?_⟩
    · refine (runs_perform_bind _ _ _ _).mpr ⟨r, _, rfl, ?_⟩
      rw [if_neg hr]
      refine runs_countDown ?_
      rw [if_neg (by simpa using hne)]
      exact hrun
    · exact .cons (hlook _) (.cons .load (.cons .store hchain))

theorem runs_bind_ret {α β : Type} {p : Driver α} {f : α → Driver β} {accesses : Accesses} {a : α}
    {c : β} (hp : Runs p accesses a) (hf : Runs (f a) [] c) : Runs (p >>= f) accesses c :=
  (runs_bind _ _ _ _).mpr ⟨accesses, [], a, (List.append_nil _).symm, hp, hf⟩

/-- A save of key_entry within a transfer can run. -/
theorem keySave_held (b : NbModuConfig) (chip : Chip) (sEETimeout : UInt32) :
    KeySave (sEE_LONG_TIMEOUT + 1) b ⟨chip, true, sEETimeout⟩ sEE_FAIL ⟨chip, true, 0 - 1⟩ := by
  obtain ⟨w, ws, hws⟩ := List.exists_cons_of_ne_nil (recordWrites_ne_nil b)
  obtain ⟨accesses, hrun, hchain⟩ := exists_unseen (.getFlagStatus .busy) (fun busy => !busy) true
    chip nofun (.unseen trivial) nofun rfl sEE_LONG_TIMEOUT (UInt32.ofNat sEE_LONG_TIMEOUT)
    (UInt32.toNat_ofNat_of_lt' longTimeout_lt)
  refine ⟨_, ?_, .cons .store hchain⟩
  have hidle : Runs (sEEWaitEepromStandbyState (sEE_LONG_TIMEOUT + 1))
      (⟨.storeTimeout (UInt32.ofNat sEE_LONG_TIMEOUT), ()⟩ ::
        ⟨.bus (.getFlagStatus .busy), true⟩ :: accesses) sEE_TIMEOUT_UserCallback :=
    (runs_perform_bind _ _ _ _).mpr ⟨(), _, rfl, runs_bind_ret hrun (.ret _)⟩
  have hwrite : Runs (seeI2cWrite (sEE_LONG_TIMEOUT + 1) w.2 (UInt16.ofNat w.1)) _ sEE_FAIL :=
    runs_bind_ret hidle (.ret _)
  rw [saveConfig, hws]
  exact runs_bind_ret hwrite (.ret _)

/-- The loop that waits for the last byte, preempted before its first look. -/
theorem preempted_loop_long : ∃ s₁ s₂ after,
    KeySave (sEE_LONG_TIMEOUT + 1) lDefaultNbMCFG s₁ sEE_FAIL s₂ ∧
    Runs (waitEvent (2 ^ 32) .masterByteTransmitted) ([] ++ after) false ∧
    s₂.sEETimeout = 0 - 1 ∧ countdowns ([] ++ after) = countdowns [] + 2 ^ 32 := by
  let chip : Chip := ⟨fun _ => 255, 0, .loaded 0⟩
  obtain ⟨rest, hrun, hchain⟩ := exists_unseen (.checkEvent .masterByteTransmitted) id false chip
    nofun (.event nofun) nofun rfl (2 ^ 32 - 1) (0 - 1) rfl
  have hkey := keySave_held lDefaultNbMCFG chip (UInt32.ofNat sEE_FLAG_TIMEOUT)
  have hlong := preempted_loop (sEE_LONG_TIMEOUT + 1) (2 ^ 32) lDefaultNbMCFG [] _ sEE_FAIL _ _ _ _
    (Or.inl ⟨_, _, hrun⟩) (.nil _) rfl hkey hchain (List.cons_ne_nil _ _)
  exact ⟨_, _, _, hkey, hrun, hlong.2.2.2⟩

end Witness

end GemhoNbiot.StretchedLoop
