import GemhoNbiot.TornSave

/-!
Two saves at once: AT+SAVE in main_entry and the factory reset of key_entry.
Nothing excludes one from the other, so a run is any interleaving of their byte
writes. Each byte of the record ends as the call that wrote it last left it. If
key_entry preempts main_entry after k writes and runs to its end, the record is
k bytes of key_entry's record followed by the rest of main_entry's.
-/
namespace GemhoNbiot.ConcurrentSave

open ConfigUtils LastWrite

inductive Saver
  | main
  | key
deriving DecidableEq

/-- One byte write and who made it. -/
abbrev SaveRunOf := List (Saver × ℕ × UInt8)

theorem saveLoop_ok (ws : List (ℕ × UInt8)) (fates : List WriteFate)
    (h : (saveLoop ws fates).ret = 0) : (saveLoop ws fates).stores = ws := by
  induction ws generalizing fates with
  | nil => rfl
  | cons w ws ih =>
    rw [saveLoop] at h ⊢
    cases hfate : fates.headD .stored with
    | stored =>
      simp only [hfate, WriteFate.ret, WriteFate.stores, ne_eq, not_true_eq_false, if_true,
        if_false] at h ⊢
      rw [ih fates.tail h]
      rfl
    | notReady =>
      simp only [hfate] at h
      simp [WriteFate.ret] at h
    | timeout taken =>
      simp only [hfate] at h
      simp [WriteFate.ret] at h

theorem mem_recordWrites (c : NbModuConfig) (w : ℕ × UInt8) :
    w ∈ recordWrites c ↔ w.1 < sizeofConfSaveUnit ∧ w.2 = c.record.getD w.1 0 := by
  have hlen : (recordWrites c).length = sizeofConfSaveUnit := by simp [recordWrites]
  have htake := TornSave.mem_take_recordWrites c sizeofConfSaveUnit w
  rw [List.take_of_length_le hlen.le] at htake
  rw [htake]
  tauto

section Runs

variable {a b : NbModuConfig} {run : SaveRunOf}

/-- The record of the call a writer makes. -/
def recordOf (a b : NbModuConfig) : Saver → List UInt8
  | .main => a.record
  | .key => b.record

theorem final_byte (mem : ℕ → UInt8) (hmain : writesOf .main run = recordWrites a)
    (hkey : writesOf .key run = recordWrites b) (i : ℕ) (hi : i < sizeofConfSaveUnit) :
    ∃ w, lastWriter run i = some w ∧
      storeAll mem (run.map Prod.snd) i = (recordOf a b w).getD i 0 := by
  have hwritten : i ∈ (writesOf .main run).map Prod.fst := by
    rw [hmain]
    exact List.mem_map.mpr ⟨(i, a.record.getD i 0), (mem_recordWrites a _).mpr ⟨hi, rfl⟩, rfl⟩
  obtain ⟨w, hw⟩ := Option.isSome_iff_exists.mp (lastWriter_isSome run i .main hwritten)
  have hmem := applyAll_lastWriter mem run i w hw
  refine ⟨w, hw, ?_⟩
  cases w with
  | main =>
    rw [hmain] at hmem
    exact ((mem_recordWrites a _).mp hmem).2
  | key =>
    rw [hkey] at hmem
    exact ((mem_recordWrites b _).mp hmem).2

theorem recordAt_eq_record (c : NbModuConfig) (mem : ℕ → UInt8) :
    recordAt mem = c.record ↔ ∀ i < sizeofConfSaveUnit, mem i = c.record.getD i 0 := by
  have h := TornSave.recordAt_eq_mixed c c 0 mem
  simpa [TornSave.mixed] using h

/-- The record is that of one writer exactly when wherever it was not the last
to write, the two records agree. -/
theorem final_record (mem : ℕ → UInt8) (hmain : writesOf .main run = recordWrites a)
    (hkey : writesOf .key run = recordWrites b) (c : NbModuConfig) :
    recordAt (storeAll mem (run.map Prod.snd)) = c.record ↔
      ∀ i < sizeofConfSaveUnit, ∀ w, lastWriter run i = some w →
        (recordOf a b w).getD i 0 = c.record.getD i 0 := by
  rw [recordAt_eq_record]
  constructor
  · intro h i hi w hw
    obtain ⟨w', hw', hbyte⟩ := final_byte mem hmain hkey i hi
    obtain rfl : w = w' := Option.some.inj (hw.symm.trans hw')
    rw [← hbyte, h i hi]
  · intro h i hi
    obtain ⟨w, hw, hbyte⟩ := final_byte mem hmain hkey i hi
    rw [hbyte, h i hi w hw]

end Runs

/-- The run in which key_entry preempts main_entry after `k` byte writes. -/
def preempted (a b : NbModuConfig) (k : ℕ) : SaveRunOf :=
  ((recordWrites a).take k).map (Prod.mk .main) ++ (recordWrites b).map (Prod.mk .key) ++
    ((recordWrites a).drop k).map (Prod.mk .main)

theorem preempted_record (a b : NbModuConfig) (mem : ℕ → UInt8) (k : ℕ) :
    recordAt (storeAll mem ((preempted a b k).map Prod.snd)) = TornSave.mixed a b k := by
  rw [TornSave.recordAt_eq_mixed]
  intro i hi
  have hsnd : ∀ (w : Saver) (ws : List (ℕ × UInt8)), (ws.map (Prod.mk w)).map Prod.snd = ws := by
    intro w ws
    rw [List.map_map]
    exact List.map_id ws
  rw [preempted, List.map_append, List.map_append, hsnd, hsnd, hsnd, storeAll, applyAll_append]
  by_cases hk : i < k
  · rw [if_pos hk, applyAll_of_not_mem]
    · rw [applyAll_append]
      apply applyAll_of_mem
      · exact List.mem_map.mpr ⟨(i, b.record.getD i 0), (mem_recordWrites b _).mpr ⟨hi, rfl⟩, rfl⟩
      · intro w hw heq
        rw [((mem_recordWrites b w).mp hw).2, heq]
    · intro hin
      obtain ⟨w, hw, rfl⟩ := List.mem_map.mp hin
      rw [recordWrites, ← List.map_drop, List.mem_map] at hw
      obtain ⟨j, hj, rfl⟩ := hw
      obtain ⟨n, hn, rfl⟩ := List.getElem_of_mem hj
      rw [List.getElem_drop, List.getElem_range] at hk
      omega
  · rw [if_neg hk]
    apply applyAll_of_mem
    · rw [recordWrites, ← List.map_drop, List.map_map]
      refine List.mem_map.mpr ⟨i, ?_, rfl⟩
      rw [List.mem_iff_getElem]
      refine ⟨i - k, by rw [List.length_drop, List.length_range]; omega, ?_⟩
      rw [List.getElem_drop, List.getElem_range]
      omega
    · intro w hw heq
      rw [((mem_recordWrites a w).mp (List.mem_of_mem_drop hw)).2, heq]

/-- Two saves that both return 0, their byte writes interleaved in any way. -/
theorem concurrent_saves (a b : NbModuConfig) (fatesA fatesB : List WriteFate)
    (ha : (saveConfig a fatesA).ret = 0) (hb : (saveConfig b fatesB).ret = 0)
    (mem : ℕ → UInt8) (run : SaveRunOf)
    (hmain : writesOf .main run = (saveConfig a fatesA).stores)
    (hkey : writesOf .key run = (saveConfig b fatesB).stores) :
    let final := storeAll mem (run.map Prod.snd)
    (∀ i < sizeofConfSaveUnit, ∃ w, lastWriter run i = some w ∧
      final i = (recordOf a b w).getD i 0) ∧
    (∀ c : NbModuConfig, recordAt final = c.record ↔ ∀ i < sizeofConfSaveUnit, ∀ w,
      lastWriter run i = some w → (recordOf a b w).getD i 0 = c.record.getD i 0) ∧
    (∀ c config : NbModuConfig, recordAt final = c.record → readConfig config final [] = (0, c)) ∧
    (∀ k, run = preempted a b k → recordAt final = b.record.take k ++ a.record.drop k) := by
  intro final
  rw [saveConfig, saveLoop_ok _ _ ha] at hmain
  rw [saveConfig, saveLoop_ok _ _ hb] at hkey
  refine ⟨fun i hi => final_byte mem hmain hkey i hi, fun c => final_record mem hmain hkey c,
    fun c config h => readConfig_record config c final h, ?_⟩
  rintro k rfl
  exact preempted_record a b mem k

/-- The saves take turns: in the even cells key_entry writes last, in the odd ones
main_entry does. -/
def byTurns (a b : NbModuConfig) : SaveRunOf :=
  ((recordWrites a).zip (recordWrites b)).flatMap fun w =>
    if w.1.1 % 2 = 0 then [(.main, w.1), (.key, w.2)] else [(.key, w.2), (.main, w.1)]

/-- A factory reset and a save write by turns: each byte is that of its last writer,
and the record is neither of theirs. -/
theorem concurrent_saves_default :
    let run := byTurns TornSave.collidingConfig lDefaultNbMCFG
    let final := storeAll (fun _ => 0) (run.map Prod.snd)
    (∀ i < sizeofConfSaveUnit, ∃ w, lastWriter run i = some w ∧
      final i = (recordOf TornSave.collidingConfig lDefaultNbMCFG w).getD i 0) ∧
    recordAt final ≠ TornSave.collidingConfig.record ∧ recordAt final ≠ lDefaultNbMCFG.record := by
  intro run final
  have hmain : writesOf .main run = (saveConfig TornSave.collidingConfig []).stores := by
    decide +kernel
  have hkey : writesOf .key run = (saveConfig lDefaultNbMCFG []).stores := by decide +kernel
  obtain ⟨hlast, hrecord, _, _⟩ := concurrent_saves TornSave.collidingConfig lDefaultNbMCFG [] []
    rfl rfl (fun _ => 0) run hmain hkey
  refine ⟨hlast, fun h => ?_, fun h => ?_⟩
  · have hbyte := (hrecord TornSave.collidingConfig).mp h 0 (by decide) .key (by decide +kernel)
    revert hbyte
    decide +kernel
  · have hbyte := (hrecord lDefaultNbMCFG).mp h 3 (by decide) .main (by decide +kernel)
    revert hbyte
    decide +kernel

/-- key_entry preempts after the ninth byte: both saves succeed, the record is
neither of theirs and read_config rejects it. -/
theorem concurrent_saves_broken :
    let run := preempted TornSave.collidingConfig lDefaultNbMCFG 9
    let final := storeAll (fun _ => 0) (run.map Prod.snd)
    (saveConfig TornSave.collidingConfig []).ret = 0 ∧ (saveConfig lDefaultNbMCFG []).ret = 0 ∧
      writesOf .main run = (saveConfig TornSave.collidingConfig []).stores ∧
      writesOf .key run = (saveConfig lDefaultNbMCFG []).stores ∧
      recordAt final ≠ TornSave.collidingConfig.record ∧ recordAt final ≠ lDefaultNbMCFG.record ∧
      (readConfig lDefaultNbMCFG final []).1 = -1 := by
  refine ⟨rfl, rfl, rfl, rfl, ?_⟩
  decide +kernel

end GemhoNbiot.ConcurrentSave
