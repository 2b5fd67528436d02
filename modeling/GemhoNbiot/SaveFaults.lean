import GemhoNbiot.ConfigValid

/-!
Saves under write failures, read off the fates of the byte writes alone. An
attempt fails when one of its nineteen writes does; the next attempt goes on with
the fate behind that one. Three attempts fail exactly when each of them meets a
failing write, and a save that returns 0 ends with one complete pass over the
record, whatever the attempts before it have left.
-/
namespace GemhoNbiot.SaveFaults

open ConfigUtils CommandEffects

/-- One attempt over these fates meets a failing byte write. -/
def Fails (fates : List WriteFate) : Prop :=
  ∃ fate ∈ fates.take sizeofConfSaveUnit, fate.ret ≠ 0

/-- The fates behind the first failing write. -/
def afterFailure : List WriteFate → List WriteFate
  | [] => []
  | fate :: fates => if fate.ret = 0 then afterFailure fates else fates

/-- Each of `n` attempts meets a failing byte write. -/
def AllFail : ℕ → List WriteFate → Prop
  | 0, _ => True
  | n + 1, fates => Fails fates ∧ AllFail n (afterFailure fates)

/-- The first write of each of `n` attempts fails and stores nothing. -/
def Deaf (n : ℕ) (fates : List WriteFate) : Prop :=
  n ≤ fates.length ∧ ∀ fate ∈ fates.take n, fate.stores = false

instance (n : ℕ) (fates : List WriteFate) : Decidable (Deaf n fates) :=
  inferInstanceAs (Decidable (_ ∧ ∀ fate ∈ _, _))

instance (fates : List WriteFate) : Decidable (Fails fates) :=
  inferInstanceAs (Decidable (∃ fate ∈ fates.take sizeofConfSaveUnit, fate.ret ≠ 0))

theorem ret_eq_zero (fate : WriteFate) : fate.ret = 0 ↔ fate = .stored := by
  cases fate <;> simp [WriteFate.ret]

section Loop

variable (w : ℕ × UInt8) (ws : List (ℕ × UInt8)) (fates : List WriteFate)

theorem saveLoop_stored : saveLoop (w :: ws) (.stored :: fates) =
    ⟨(saveLoop ws fates).ret, w :: (saveLoop ws fates).stores, (saveLoop ws fates).fates⟩ := by
  simp [saveLoop, WriteFate.ret, WriteFate.stores]

theorem saveLoop_failed (fate : WriteFate) (h : fate ≠ .stored) :
    saveLoop (w :: ws) (fate :: fates) =
      ⟨fate.ret, if fate.stores then [w] else [], fates⟩ := by
  have hret : fate.ret ≠ 0 := (ret_eq_zero fate).not.mpr h
  simp [saveLoop, hret]

end Loop

/-- A write loop with a failure among its fates stops there. -/
theorem saveLoop_fails (ws : List (ℕ × UInt8)) (fates : List WriteFate)
    (h : ∃ fate ∈ fates.take ws.length, fate.ret ≠ 0) :
    (saveLoop ws fates).ret ≠ 0 ∧ (saveLoop ws fates).fates = afterFailure fates := by
  induction ws generalizing fates with
  | nil => simp at h
  | cons w ws ih =>
    cases fates with
    | nil => simp at h
    | cons fate fates =>
      by_cases hstored : fate = .stored
      · subst hstored
        have hrest : ∃ fate ∈ fates.take ws.length, fate.ret ≠ 0 := by
          simpa [WriteFate.ret] using h
        have hzero : WriteFate.stored.ret = 0 := rfl
        rw [saveLoop_stored, afterFailure, if_pos hzero]
        exact ih fates hrest
      · have hret : fate.ret ≠ 0 := (ret_eq_zero fate).not.mpr hstored
        rw [saveLoop_failed w ws fates fate hstored, afterFailure, if_neg hret]
        exact ⟨hret, rfl⟩

theorem saveLoop_completes (ws : List (ℕ × UInt8)) (fates : List WriteFate)
    (h : ¬ ∃ fate ∈ fates.take ws.length, fate.ret ≠ 0) : (saveLoop ws fates).ret = 0 := by
  induction ws generalizing fates with
  | nil => rfl
  | cons w ws ih =>
    cases fates with
    | nil => rw [ConfigValid.saveLoop_nil]
    | cons fate fates =>
      have hfate : fate = .stored := by
        by_contra hstored
        exact h ⟨fate, by simp, (ret_eq_zero fate).not.mpr hstored⟩
      subst hfate
      rw [saveLoop_stored]
      refine ih fates fun hfails => h ?_
      simpa [WriteFate.ret] using hfails

section Attempts

variable (c : NbModuConfig) (fates : List WriteFate)

theorem length_recordWrites : (recordWrites c).length = sizeofConfSaveUnit := by
  simp [recordWrites]

theorem saveConfig_fails (h : Fails fates) :
    (saveConfig c fates).ret ≠ 0 ∧ (saveConfig c fates).fates = afterFailure fates := by
  apply saveLoop_fails
  rwa [length_recordWrites]

theorem saveConfig_completes (h : ¬ Fails fates) : (saveConfig c fates).ret = 0 := by
  apply saveLoop_completes
  rwa [length_recordWrites]

theorem saveConfig_ok (h : (saveConfig c fates).ret = 0) :
    (saveConfig c fates).stores = recordWrites c :=
  ConcurrentSave.saveLoop_ok (recordWrites c) fates h

/-- The attempts return an error exactly when all of them meet a failing write. -/
theorem saveAttempts_ret (n : ℕ) (ret : ℤ) (hret : ret ≠ 0) :
    (saveAttempts n c ret fates).ret ≠ 0 ↔ AllFail n fates := by
  induction n generalizing ret fates with
  | zero => exact ⟨fun _ => trivial, fun _ => hret⟩
  | succ n ih =>
    rw [saveAttempts, AllFail]
    by_cases hfails : Fails fates
    · obtain ⟨hrun, hfates⟩ := saveConfig_fails c fates hfails
      simp only [if_neg hrun]
      rw [ih _ _ hrun, hfates]
      exact ⟨fun h => ⟨hfails, h⟩, fun h => h.2⟩
    · have hrun := saveConfig_completes c fates hfails
      simp only [hrun, if_true]
      exact ⟨fun h => absurd rfl h, fun h => absurd h.1 hfails⟩

/-- A save that returns 0 ends with a complete pass. -/
theorem saveAttempts_stores (n : ℕ) (ret : ℤ) (hret : ret ≠ 0)
    (h : (saveAttempts n c ret fates).ret = 0) :
    ∃ before, (saveAttempts n c ret fates).stores = before ++ recordWrites c := by
  induction n generalizing ret fates with
  | zero => exact absurd h hret
  | succ n ih =>
    rw [saveAttempts] at h ⊢
    by_cases hrun : (saveConfig c fates).ret = 0
    · simp only [hrun, if_true]
      exact ⟨[], saveConfig_ok c fates hrun⟩
    · simp only [if_neg hrun] at h ⊢
      obtain ⟨before, hbefore⟩ := ih _ _ hrun h
      exact ⟨(saveConfig c fates).stores ++ before, by rw [hbefore, List.append_assoc]⟩

/-- A write loop stores nothing exactly when its first write fails and is not taken. -/
theorem saveLoop_stores_nil (w : ℕ × UInt8) (ws : List (ℕ × UInt8)) (fate : WriteFate) :
    (saveLoop (w :: ws) (fate :: fates)).stores = [] ↔ fate.stores = false := by
  by_cases hstored : fate = .stored
  · subst hstored
    rw [saveLoop_stored]
    simp [WriteFate.stores]
  · rw [saveLoop_failed w ws fates fate hstored]
    simp

theorem deaf_cons (n : ℕ) (fate : WriteFate) :
    Deaf (n + 1) (fate :: fates) ↔ fate.stores = false ∧ Deaf n fates := by
  simp only [Deaf, List.length_cons, Nat.add_le_add_iff_right, List.take_succ_cons,
    List.forall_mem_cons]
  tauto

/-- The attempts store nothing exactly when the first write of each of them fails
and is not taken. -/
theorem saveAttempts_stores_nil (n : ℕ) (ret : ℤ) :
    (saveAttempts n c ret fates).stores = [] ↔ Deaf n fates := by
  induction n generalizing ret fates with
  | zero => simp [saveAttempts, Deaf]
  | succ n ih =>
    obtain ⟨w, ws, hwrites⟩ : ∃ w ws, recordWrites c = w :: ws :=
      List.exists_cons_of_length_pos (by rw [length_recordWrites]; decide)
    rw [saveAttempts]
    cases fates with
    | nil =>
      have hrun : saveConfig c [] = ⟨0, w :: ws, []⟩ := by
        rw [saveConfig, hwrites, ConfigValid.saveLoop_nil]
      simp [hrun, Deaf]
    | cons fate fates =>
      have hfirst := saveLoop_stores_nil fates w ws fate
      rw [← hwrites] at hfirst
      rw [deaf_cons]
      by_cases hstores : fate.stores = false
      · have hne : fate ≠ .stored := by
          intro heq
          rw [heq] at hstores
          exact absurd hstores (by decide)
        have hret : fate.ret ≠ 0 := (ret_eq_zero fate).not.mpr hne
        have hrun : saveConfig c (fate :: fates) = ⟨fate.ret, [], fates⟩ := by
          rw [saveConfig, hwrites, saveLoop_failed w ws fates fate hne, hstores]
          rfl
        simp only [hrun, if_neg hret, List.nil_append, ih, hstores, true_and]
      · have hrun : (saveConfig c (fate :: fates)).stores ≠ [] := hfirst.not.mpr hstores
        refine iff_of_false ?_ fun h => hstores h.1
        split_ifs with hret
        · exact hrun
        · exact fun hnil => hrun (List.append_eq_nil_iff.mp hnil).1

end Attempts

section Handlers

open Commands

variable (d : Dev)

/-- The reply to a save says whether it has failed. -/
theorem saveReply_error (replies : List (List UInt8)) (ret : ℤ) :
    replies ++ [if ret = 0 then OKSTR else ERRORSTR] = replies ++ [ERRORSTR] ↔ ret ≠ 0 := by
  rw [List.append_cancel_left_eq, List.cons.injEq]
  by_cases h : ret = 0
  · simp [h, SetCommands.OKSTR_ne_ERRORSTR]
  · simp [h]

theorem saveReply_ok (replies : List (List UInt8)) (ret : ℤ) :
    replies ++ [if ret = 0 then OKSTR else ERRORSTR] = replies ++ [OKSTR] ↔ ret = 0 := by
  rw [List.append_cancel_left_eq, List.cons.injEq]
  by_cases h : ret = 0
  · simp [h]
  · simp [h, SetCommands.OKSTR_ne_ERRORSTR.symm]

/-- The first attempt does not look at the return value it starts with. -/
theorem save_ret : d.save.1 ≠ 0 ↔ AllFail 3 d.writeFates :=
  saveAttempts_ret d.config d.writeFates 3 1 (by decide)

theorem save_record (h : d.save.1 = 0) : recordAt d.save.2.eeprom = d.config.record := by
  obtain ⟨before, hbefore⟩ := saveAttempts_stores d.config d.writeFates 3 1 (by decide) h
  have hstores : d.save.2.eeprom = storeAll d.eeprom (before ++ recordWrites d.config) := by
    rw [← hbefore]
    rfl
  rw [hstores, storeAll, LastWrite.applyAll_append]
  exact ConfigValid.recordAt_storeAll _ _

/-- A save that stores nothing has failed. -/
theorem save_unwritten : Unwritten d d.save.2 ↔ Deaf 3 d.writeFates := by
  rw [← saveAttempts_stores_nil d.config d.writeFates 3 0]
  constructor
  · intro h
    exact List.append_right_eq_self.mp h.stored
  · intro hnil
    have hstored : d.save.2.stored = d.stored ++ (saveAttempts 3 d.config 0 d.writeFates).stores :=
      rfl
    have heeprom : d.save.2.eeprom =
      storeAll d.eeprom (saveAttempts 3 d.config 0 d.writeFates).stores := rfl
    rw [hnil] at hstored heeprom
    exact ⟨heeprom, by rw [hstored, List.append_nil]⟩

theorem save_deaf (h : Deaf 3 d.writeFates) : d.save.1 ≠ 0 := by
  intro hret
  obtain ⟨before, hbefore⟩ := saveAttempts_stores d.config d.writeFates 3 1 (by decide) hret
  have hnil := (saveAttempts_stores_nil d.config d.writeFates 3 1).mpr h
  rw [hbefore] at hnil
  have hwrites := congrArg List.length (List.append_eq_nil_iff.mp hnil).2
  rw [length_recordWrites] at hwrites
  exact absurd hwrites (by decide)

end Handlers

end GemhoNbiot.SaveFaults
