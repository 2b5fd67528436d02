import GemhoNbiot.RecordBursts

/-!
AT+SAVE cut short. A failing byte write ends an attempt, a power cut ends
everything; either way the EEPROM holds the first bytes of the new record in
front of the rest of the old one. The CRC field is the old one until all of the
configuration is new, so such a record is intact only if the mixture has the
CRC of the old configuration. The CRC excludes this as long as the changed bits
lie within 32 consecutive positions, and not beyond.
-/
namespace GemhoNbiot.TornSave

open BitCrc Crc32 ConfigUtils RecordBursts

/-- The first `k` bytes of the new record and the rest of the old one. -/
def mixed (old new : NbModuConfig) (k : ℕ) : List UInt8 :=
  new.record.take k ++ old.record.drop k

/-- The configuration part of such a record. -/
def tornConfig (old new : NbModuConfig) (k : ℕ) : NbModuConfig :=
  NbModuConfig.ofBytes ((mixed old new k).take sizeofConfig)

theorem saveLoop_stores (ws : List (ℕ × UInt8)) (fates : List WriteFate) :
    ∃ m, (saveLoop ws fates).stores = ws.take m := by
  induction ws generalizing fates with
  | nil => exact ⟨0, rfl⟩
  | cons w ws ih =>
    rw [saveLoop]
    cases hfate : fates.headD .stored with
    | stored =>
      obtain ⟨m, hm⟩ := ih fates.tail
      exact ⟨m + 1, by simp [WriteFate.ret, WriteFate.stores, hm]⟩
    | notReady => exact ⟨0, by simp [WriteFate.ret, WriteFate.stores]⟩
    | timeout taken =>
      cases taken with
      | false => exact ⟨0, by simp [WriteFate.ret, WriteFate.stores]⟩
      | true => exact ⟨1, by simp [WriteFate.ret, WriteFate.stores]⟩

theorem mem_take_recordWrites (c : NbModuConfig) (m : ℕ) (w : ℕ × UInt8) :
    w ∈ (recordWrites c).take m ↔
      w.1 < m ∧ w.1 < sizeofConfSaveUnit ∧ w.2 = c.record.getD w.1 0 := by
  obtain ⟨i, b⟩ := w
  rw [recordWrites, ← List.map_take, List.take_range, List.mem_map]
  constructor
  · intro h
    obtain ⟨j, hj, heq⟩ := h
    obtain ⟨rfl, rfl⟩ := Prod.mk.inj heq
    rw [List.mem_range] at hj
    exact ⟨by omega, by omega, rfl⟩
  · intro h
    obtain ⟨hm, hsize, hb⟩ := h
    have hlt : i < min m sizeofConfSaveUnit := Nat.lt_min.mpr ⟨hm, hsize⟩
    exact ⟨i, List.mem_range.mpr hlt, by rw [show b = c.record.getD i 0 from hb]⟩

/-- The first `m` byte writes of a save. -/
theorem storeAll_take (c : NbModuConfig) (mem : ℕ → UInt8) (m i : ℕ)
    (hi : i < sizeofConfSaveUnit) :
    storeAll mem ((recordWrites c).take m) i = if i < m then c.record.getD i 0 else mem i := by
  by_cases hm : i < m
  · rw [if_pos hm]
    apply LastWrite.applyAll_of_mem
    · exact List.mem_map.mpr ⟨(i, c.record.getD i 0),
        (mem_take_recordWrites c m _).mpr ⟨hm, hi, rfl⟩, rfl⟩
    · intro w hw heq
      rw [((mem_take_recordWrites c m w).mp hw).2.2, heq]
  · rw [if_neg hm]
    refine LastWrite.applyAll_of_not_mem _ _ _ fun hin => ?_
    obtain ⟨w, hw, rfl⟩ := List.mem_map.mp hin
    exact hm ((mem_take_recordWrites c m w).mp hw).1

@[simp] theorem length_mixed (old new : NbModuConfig) (k : ℕ) :
    (mixed old new k).length = sizeofConfSaveUnit := by
  rw [mixed, List.length_append, List.length_take, List.length_drop,
    NbModuConfig.length_record, NbModuConfig.length_record]
  omega

theorem mixed_getD (old new : NbModuConfig) (k i : ℕ) (hi : i < sizeofConfSaveUnit) :
    (mixed old new k).getD i 0 = if i < k then new.record.getD i 0 else old.record.getD i 0 := by
  have hlen : (new.record.take k).length = min k sizeofConfSaveUnit := by
    rw [List.length_take, NbModuConfig.length_record]
  by_cases hk : i < k
  · rw [if_pos hk, mixed, List.getD_append _ _ _ _ (by omega), List.getD_eq_getElem?_getD,
      List.getElem?_take, if_pos hk, List.getD_eq_getElem?_getD]
  · rw [if_neg hk, mixed, List.getD_append_right _ _ _ _ (by omega), hlen,
      List.getD_eq_getElem?_getD, List.getElem?_drop, List.getD_eq_getElem?_getD]
    congr 2
    omega

theorem recordAt_eq_mixed (old new : NbModuConfig) (k : ℕ) (mem : ℕ → UInt8) :
    recordAt mem = mixed old new k ↔ ∀ i < sizeofConfSaveUnit,
      mem i = if i < k then new.record.getD i 0 else old.record.getD i 0 := by
  constructor
  · intro h i hi
    rw [← mixed_getD old new k i hi, ← h, List.getD_eq_getElem _ _ (by simpa using hi)]
    simp [recordAt]
  · intro h
    apply List.ext_getElem
    · rw [length_recordAt, length_mixed]
    · intro i hi hmix
      rw [length_recordAt] at hi
      rw [← List.getD_eq_getElem (mixed old new k) 0 hmix, mixed_getD old new k i hi, ← h i hi]
      simp [recordAt]

/-- Writing the first bytes of the new record over a mixed record. -/
theorem mixed_storeAll (old new : NbModuConfig) (k m : ℕ) (mem : ℕ → UInt8)
    (h : recordAt mem = mixed old new k) :
    recordAt (storeAll mem ((recordWrites new).take m)) = mixed old new (max k m) := by
  rw [recordAt_eq_mixed] at h ⊢
  intro i hi
  rw [storeAll_take new mem m i hi, h i hi]
  by_cases hm : i < m
  · rw [if_pos hm, if_pos (by omega)]
  · rw [if_neg hm]
    by_cases hk : i < k
    · rw [if_pos hk, if_pos (by omega)]
    · rw [if_neg hk, if_neg (by omega)]

/-- Wherever the attempts are cut, the record is a mixed one. -/
theorem mixed_saveAttempts (old new : NbModuConfig) (attempts : ℕ) (ret : ℤ)
    (fates : List WriteFate) (n k : ℕ) (mem : ℕ → UInt8)
    (h : recordAt mem = mixed old new k) :
    ∃ k', recordAt (storeAll mem ((saveAttempts attempts new ret fates).stores.take n)) =
      mixed old new k' := by
  induction attempts generalizing ret fates n k mem with
  | zero => exact ⟨k, by simpa [saveAttempts, storeAll] using h⟩
  | succ attempts ih =>
    obtain ⟨m, hm⟩ := saveLoop_stores (recordWrites new) fates
    have hfirst := mixed_storeAll old new k (min n m) mem h
    rw [← List.take_take, ← hm, ← saveConfig] at hfirst
    rw [saveAttempts]
    by_cases hret : (saveConfig new fates).ret = 0
    · exact ⟨_, by simpa only [hret, if_true] using hfirst⟩
    · obtain ⟨k', hrest⟩ := ih (saveConfig new fates).ret (saveConfig new fates).fates
        (n - (saveConfig new fates).stores.length) _ _ hfirst
      refine ⟨k', ?_⟩
      simp only [hret, if_false]
      rw [List.take_append, storeAll, LastWrite.applyAll_append]
      exact hrest

section Load

variable (old new : NbModuConfig) (k : ℕ)

/-- Once the configuration is new, the load gives it or the default. -/
theorem load_of_late_cut (config : NbModuConfig) (mem : ℕ → UInt8)
    (h : recordAt mem = mixed old new k) (hk : sizeofConfig ≤ k) :
    (loadConfig config mem []).2 = new ∨ (loadConfig config mem []).2 = lDefaultNbMCFG := by
  have htake : (mixed old new k).take sizeofConfig = new.toBytes := by
    have hle : sizeofConfig ≤ (new.record.take k).length := by
      rw [List.length_take, NbModuConfig.length_record]
      exact Nat.le_min.mpr ⟨hk, by decide⟩
    rw [mixed, List.take_append_of_le_length hle, List.take_take, Nat.min_eq_left hk]
    exact List.take_left' (NbModuConfig.length_toBytes new)
  rw [loadConfig_received, h, htake, NbModuConfig.ofBytes_toBytes]
  by_cases hintact : Intact (mixed old new k)
  · exact Or.inl (if_pos hintact)
  · exact Or.inr (if_neg hintact)

theorem toBytes_tornConfig :
    (tornConfig old new k).toBytes = (mixed old new k).take sizeofConfig := by
  apply NbModuConfig.toBytes_ofBytes
  rw [List.length_take, length_mixed]
  rfl

/-- Before that the CRC field is that of the old configuration. -/
theorem intact_mixed (hk : k ≤ sizeofConfig) :
    Intact (mixed old new k) ↔
      getCrc32 0 (tornConfig old new k).toBytes = getCrc32 0 old.toBytes := by
  have hdrop : (mixed old new k).drop sizeofConfig = old.record.drop sizeofConfig := by
    have hlen : (new.record.take k).length = k := by
      rw [List.length_take, NbModuConfig.length_record]
      exact Nat.min_eq_left (Nat.le_trans hk (by decide))
    rw [mixed, List.drop_append, hlen, List.drop_drop, Nat.add_sub_cancel' hk,
      List.drop_eq_nil_of_le (by omega), List.nil_append]
  have hold := intact_record old
  have htake : old.record.take sizeofConfig = old.toBytes :=
    List.take_left' (NbModuConfig.length_toBytes old)
  rw [Intact, htake] at hold
  rw [Intact, hdrop, ← hold, toBytes_tornConfig]

/-- The bits the cut save has changed. -/
def changed : List UInt8 := xorBytes old.record (mixed old new k)

theorem xorBytes_getD (as bs : List UInt8) (h : as.length = bs.length) (i : ℕ) :
    (xorBytes as bs).getD i 0 = as.getD i 0 ^^^ bs.getD i 0 := by
  have hlen : (xorBytes as bs).length = as.length := by
    rw [xorBytes, List.length_zipWith, ← h, Nat.min_self]
  by_cases hi : i < as.length
  · rw [List.getD_eq_getElem as _ hi, List.getD_eq_getElem bs _ (by omega),
      List.getD_eq_getElem (xorBytes as bs) _ (by omega)]
    simp [xorBytes]
  · rw [List.getD_eq_default as _ (by omega), List.getD_eq_default bs _ (by omega),
      List.getD_eq_default (xorBytes as bs) _ (by omega)]
    rfl

theorem length_changed : (changed old new k).length = sizeofConfSaveUnit := by
  rw [changed, xorBytes, List.length_zipWith, length_mixed, NbModuConfig.length_record,
    Nat.min_self]

theorem xorBytes_changed : xorBytes old.record (changed old new k) = mixed old new k := by
  have hold := NbModuConfig.length_record old
  have hmix := length_mixed old new k
  have hlen := length_changed old new k
  apply List.ext_getElem
  · rw [xorBytes, List.length_zipWith, hlen, hmix, hold, Nat.min_self]
  · intro i hi hm
    rw [← List.getD_eq_getElem _ 0 hi, ← List.getD_eq_getElem _ 0 hm,
      xorBytes_getD _ _ (hold.trans hlen.symm), changed, xorBytes_getD _ _ (hold.trans hmix.symm),
      ← UInt8.xor_assoc, UInt8.xor_self, UInt8.zero_xor]

theorem bitAt_changed (n : ℕ) (h : k ≤ n / 8) : bitAt (changed old new k) n = false := by
  have hold := NbModuConfig.length_record old
  have hmix := length_mixed old new k
  rw [bitAt, changed, xorBytes_getD _ _ (hold.trans hmix.symm)]
  by_cases hn : n / 8 < sizeofConfSaveUnit
  · rw [mixed_getD old new k _ hn, if_neg (by omega), UInt8.xor_self]
    simp
  · rw [List.getD_eq_default _ _ (by omega), List.getD_eq_default _ _ (by omega)]
    simp

/-- Without a changed bit the configuration is the old one. -/
theorem tornConfig_eq_old (h : ∀ n, bitAt (changed old new k) n = false) :
    tornConfig old new k = old := by
  have hzero : ∀ i, (changed old new k).getD i 0 = 0 := by
    intro i
    apply UInt8.toNat_inj.mp
    apply Nat.eq_of_testBit_eq
    intro j
    by_cases hj : j < 8
    · have hbit := h (8 * i + j)
      rw [bitAt, show (8 * i + j) / 8 = i by omega, show (8 * i + j) % 8 = j by omega] at hbit
      simpa using hbit
    · have hlt : ((changed old new k).getD i 0).toNat < 2 ^ j :=
        Nat.lt_of_lt_of_le (UInt8.toNat_lt _) (Nat.pow_le_pow_right (by decide) (by omega))
      rw [Nat.testBit_lt_two_pow hlt]
      simp
  have hmix : mixed old new k = old.record := by
    rw [← xorBytes_changed]
    have hlen := length_changed old new k
    have hold := NbModuConfig.length_record old
    apply List.ext_getElem
    · rw [xorBytes, List.length_zipWith, hlen, hold, Nat.min_self]
    · intro i hi hr
      rw [← List.getD_eq_getElem _ 0 hi, ← List.getD_eq_getElem _ 0 hr,
        xorBytes_getD _ _ (hold.trans hlen.symm), hzero, UInt8.xor_zero]
  have htake : old.record.take sizeofConfig = old.toBytes :=
    List.take_left' (NbModuConfig.length_toBytes old)
  rw [tornConfig, hmix, htake, NbModuConfig.ofBytes_toBytes]

/-- A mixture can only pass for intact when its changed bits do not lie within
32 consecutive positions, so at least five bytes were written. -/
theorem changed_of_intact (hintact : Intact (mixed old new k)) (hne : tornConfig old new k ≠ old) :
    ¬ Burst (changed old new k) ∧ 5 ≤ k := by
  have hburst : ¬ Burst (changed old new k) := by
    intro h
    refine not_intact_of_burst old.record (changed old new k) (NbModuConfig.length_record old)
      (length_changed old new k) (intact_record old) h ?_
    rwa [xorBytes_changed]
  refine ⟨hburst, ?_⟩
  by_contra hk
  refine hburst ⟨?_, 0, fun n hn => ?_⟩
  · by_contra hnone
    refine hne (tornConfig_eq_old old new k fun n => ?_)
    rw [Bool.eq_false_iff]
    exact fun hn => hnone ⟨n, hn⟩
  · by_contra hfar
    rw [bitAt_changed old new k n (by omega)] at hn
    exact Bool.false_ne_true hn

end Load

/-- After a cut save the next load leaves the old, the new or the default
configuration, or a mixture whose CRC is that of the old configuration; the
changed bits of such a mixture do not lie within 32 consecutive positions. -/
theorem loadConfig_after_cut (old new config : NbModuConfig) (mem : ℕ → UInt8)
    (hmem : recordAt mem = old.record) (fates : List WriteFate) (n : ℕ) :
    let cut := storeAll mem ((saveAttempts 3 new 0 fates).stores.take n)
    let loaded := (loadConfig config cut []).2
    loaded = old ∨ loaded = new ∨ loaded = lDefaultNbMCFG ∨
      ∃ k, 5 ≤ k ∧ k ≤ 14 ∧ recordAt cut = mixed old new k ∧ loaded = tornConfig old new k ∧
        getCrc32 0 (tornConfig old new k).toBytes = getCrc32 0 old.toBytes ∧
        ¬ Burst (changed old new k) := by
  intro cut loaded
  have hstart : recordAt mem = mixed old new 0 := by simpa [mixed] using hmem
  obtain ⟨k, hk⟩ := mixed_saveAttempts old new 3 0 fates n 0 mem hstart
  by_cases hlate : sizeofConfig ≤ k
  · rcases load_of_late_cut old new k config cut hk hlate with hnew | hdefault
    · exact Or.inr (Or.inl hnew)
    · exact Or.inr (Or.inr (Or.inl hdefault))
  · have hload : loaded = if Intact (mixed old new k) then tornConfig old new k
        else lDefaultNbMCFG := by
      rw [tornConfig, ← hk]
      exact loadConfig_received config cut
    have h15 : sizeofConfig = 15 := rfl
    by_cases hintact : Intact (mixed old new k)
    · rw [if_pos hintact] at hload
      by_cases hold : tornConfig old new k = old
      · exact Or.inl (hload.trans hold)
      · obtain ⟨hburst, hfive⟩ := changed_of_intact old new k hintact hold
        refine Or.inr (Or.inr (Or.inr ⟨k, hfive, by omega, hk, hload, ?_, hburst⟩))
        exact (intact_mixed old new k (by omega)).mp hintact
    · exact Or.inr (Or.inr (Or.inl (by rw [hload, if_neg hintact])))

def savedConfig : NbModuConfig := { lDefaultNbMCFG with watchdog := 1 }

/-- The exclusive or of its address and port with those of savedConfig is a
multiple of the CRC polynomial. -/
def collidingConfig : NbModuConfig :=
  { lDefaultNbMCFG with ip := #v[116, 60, 220, 184], port := 3880, sendMode := 1, watchdog := 1 }

def savedMemory : ℕ → UInt8 := fun i => savedConfig.record.getD i 0

/-- A save that fails at its third byte and is then cut after a retry. -/
theorem loadConfig_after_cut_retry :
    let cut := storeAll savedMemory
      ((saveAttempts 3 collidingConfig 0 [.stored, .stored, .notReady]).stores.take 5)
    (loadConfig savedConfig cut []).2 = savedConfig ∨
      (loadConfig savedConfig cut []).2 = collidingConfig ∨
      (loadConfig savedConfig cut []).2 = lDefaultNbMCFG ∨
      ∃ k, 5 ≤ k ∧ k ≤ 14 ∧ recordAt cut = mixed savedConfig collidingConfig k ∧
        (loadConfig savedConfig cut []).2 = tornConfig savedConfig collidingConfig k ∧
        getCrc32 0 (tornConfig savedConfig collidingConfig k).toBytes =
          getCrc32 0 savedConfig.toBytes ∧
        ¬ Burst (changed savedConfig collidingConfig k) :=
  loadConfig_after_cut savedConfig collidingConfig savedConfig savedMemory
    (recordAt_getD _ (NbModuConfig.length_record _)) [.stored, .stored, .notReady] 5

/-- Power is lost after the sixth byte: the new address and port pass with the
old send mode. -/
theorem loadConfig_after_cut_mixes :
    savedConfig.Valid ∧ collidingConfig.Valid ∧ recordAt savedMemory = savedConfig.record ∧
      let cut := storeAll savedMemory ((saveAttempts 3 collidingConfig 0 []).stores.take 6)
      (loadConfig savedConfig cut []).2 ≠ savedConfig ∧
        (loadConfig savedConfig cut []).2 ≠ collidingConfig ∧
        (loadConfig savedConfig cut []).2 ≠ lDefaultNbMCFG := by
  refine ⟨by decide, by decide, recordAt_getD _ (NbModuConfig.length_record _), ?_⟩
  decide +kernel

end GemhoNbiot.TornSave
