import GemhoNbiot.ConfigUtils

/-!
Error patterns over the configuration record. The bits of the record in the
order they are stored are the bits in the order the CRC takes them, the CRC
field included. A record is intact when its bits drive the register to a fixed
residue; an error pattern goes unnoticed exactly when its own bits drive the
zero register to zero, which no burst of at most 32 bits does.
-/
namespace GemhoNbiot.RecordBursts

open BitCrc Crc32 ConfigUtils

/-- Bit j of byte a is bit 8a+j of a byte string. -/
def bitAt (bs : List UInt8) (n : ℕ) : Bool := (bs.getD (n / 8) 0).toNat.testBit (n % 8)

/-- Some bit is set, and all set bits lie within 32 consecutive positions. -/
def Burst (bs : List UInt8) : Prop :=
  (∃ n, bitAt bs n = true) ∧ ∃ start, ∀ n, bitAt bs n = true → start ≤ n ∧ n < start + 32

def xorBytes (as bs : List UInt8) : List UInt8 := List.zipWith (· ^^^ ·) as bs

@[simp] theorem length_byteBits (b : UInt8) : (byteBits b).length = 8 := length_bitsOf 8 _

theorem length_messageBits (bs : List UInt8) : (messageBits bs).length = 8 * bs.length := by
  induction bs with
  | nil => rfl
  | cons b bs ih =>
    rw [messageBits, List.flatMap_cons, List.length_append, length_byteBits, List.length_cons,
      ← messageBits, ih]
    omega

theorem byteBits_xor (a b : UInt8) :
    byteBits (a ^^^ b) = List.zipWith Bool.xor (byteBits a) (byteBits b) := by
  rw [byteBits, byteBits, byteBits, bitsOf, bitsOf, bitsOf, List.zipWith_map,
    List.zipWith_self]
  apply List.map_congr_left
  intro i _
  rw [UInt8.toNat_xor, Nat.testBit_xor]

theorem messageBits_xor (as bs : List UInt8) (h : as.length = bs.length) :
    messageBits (xorBytes as bs) = List.zipWith Bool.xor (messageBits as) (messageBits bs) := by
  induction as generalizing bs with
  | nil =>
    cases bs with
    | nil => rfl
    | cons b bs => simp at h
  | cons a as ih =>
    cases bs with
    | nil => simp at h
    | cons b bs =>
      have hrest := ih bs (by simpa using h)
      simp only [messageBits, xorBytes] at hrest
      simp only [messageBits, xorBytes, List.zipWith_cons_cons, List.flatMap_cons]
      rw [List.zipWith_append (by simp), byteBits_xor, hrest]

theorem messageBits_getD (bs : List UInt8) (n : ℕ) :
    (messageBits bs).getD n false = bitAt bs n := by
  induction bs generalizing n with
  | nil => simp [messageBits, bitAt]
  | cons b bs ih =>
    rw [messageBits, List.flatMap_cons, ← messageBits]
    by_cases hn : n < 8
    · have hzero : n / 8 = 0 := by omega
      have hmod : n % 8 = n := by omega
      rw [List.getD_append _ _ _ _ (by simpa using hn), bitAt, hzero, hmod]
      simp [byteBits, bitsOf, hn]
    · have hdiv : n / 8 = (n - 8) / 8 + 1 := by omega
      have hmod : n % 8 = (n - 8) % 8 := by omega
      rw [List.getD_append_right _ _ _ _ (by simpa using hn), length_byteBits, ih, bitAt, bitAt,
        hdiv, hmod, List.getD_cons_succ]

/-- What the register holds after the bits of an intact record. -/
def residue : BitVec 32 := (shift Poly.toBitVec)^[32] 0xffffffff#32

theorem intact_iff (bs : List UInt8) (h : bs.length = sizeofConfSaveUnit) :
    Intact bs ↔ feed Poly.toBitVec 0xffffffff#32 (messageBits bs) = residue := by
  have hlen : (bs.drop sizeofConfig).length = 4 := by
    rw [List.length_drop, h]
    rfl
  have hcrc : messageBits (bs.drop sizeofConfig) =
      bitsOf 32 (BitVec.ofNat 32 (ofLe (bs.drop sizeofConfig))).toNat := by
    have hlt := ofLe_lt (bs.drop sizeofConfig)
    have hbits := messageBits_leBytes 4 (ofLe (bs.drop sizeofConfig))
    rw [← hlen, leBytes_ofLe, hlen] at hbits
    rw [hlen] at hlt
    rw [hbits, BitVec.toNat_ofNat, Nat.mod_eq_of_lt (by simpa using hlt)]
  have hsplit : messageBits bs =
      messageBits (bs.take sizeofConfig) ++ messageBits (bs.drop sizeofConfig) := by
    simp only [messageBits, ← List.flatMap_append, List.take_append_drop]
  have hinj := (shift_injective _ Poly_top).iterate 32
  rw [hsplit, feed_append, hcrc, feed_bitsOf, residue, hinj.eq_iff, Intact,
    ← UInt32.toBitVec_inj, getCrc32_toBitVec, UInt32.toBitVec_ofNat']
  constructor
  · intro heq
    rw [← heq, UInt32.toBitVec_zero, BitVec.zero_xor, ← BitVec.xor_assoc, BitVec.xor_self,
      BitVec.zero_xor]
  · intro heq
    have hcancel := congrArg (feed Poly.toBitVec 0xffffffff#32
      (messageBits (bs.take sizeofConfig)) ^^^ ·) heq
    simpa [← BitVec.xor_assoc] using hcancel.symm

/-- An error pattern on an intact record goes unnoticed exactly when its bits
drive the zero register to zero. -/
theorem intact_xor (bs e : List UInt8) (hbs : bs.length = sizeofConfSaveUnit)
    (he : e.length = sizeofConfSaveUnit) (h : Intact bs) :
    Intact (xorBytes bs e) ↔ feed Poly.toBitVec 0#32 (messageBits e) = 0#32 := by
  have hlen : (messageBits bs).length = (messageBits e).length := by
    rw [length_messageBits, length_messageBits, hbs, he]
  have hboth : (xorBytes bs e).length = sizeofConfSaveUnit := by
    rw [xorBytes, List.length_zipWith, hbs, he, Nat.min_self]
  have hlinear := feed_xor Poly.toBitVec 0xffffffff#32 0#32 _ _ hlen
  rw [BitVec.xor_zero, (intact_iff bs hbs).mp h, ← messageBits_xor bs e (hbs.trans he.symm)]
    at hlinear
  rw [intact_iff _ hboth, hlinear]
  constructor
  · intro heq
    have hcancel := congrArg (residue ^^^ ·) heq
    simpa [← BitVec.xor_assoc] using hcancel
  · intro heq
    rw [heq, BitVec.xor_zero]

/-- The bits outside the window of a burst are clear. -/
theorem messageBits_of_burst (bs : List UInt8) (h : Burst bs) :
    ∃ before after burst, burst.length ≤ 32 ∧ true ∈ burst ∧
      messageBits bs = List.replicate before false ++ burst ++ List.replicate after false := by
  obtain ⟨⟨n, hn⟩, start, hwindow⟩ := h
  have hclear : ∀ i, (i < start ∨ start + 32 ≤ i) → (messageBits bs).getD i false = false := by
    intro i hi
    rw [messageBits_getD, Bool.eq_false_iff]
    intro hset
    have hin := hwindow i hset
    omega
  have hbefore : (messageBits bs).take start =
      List.replicate ((messageBits bs).take start).length false := by
    rw [List.eq_replicate_iff]
    refine ⟨rfl, fun b hb => ?_⟩
    obtain ⟨i, hi, rfl⟩ := List.getElem_of_mem hb
    have hlt : i < start := by rw [List.length_take] at hi; omega
    have hget := hclear i (Or.inl hlt)
    rw [List.length_take] at hi
    rw [List.getElem_take]
    rwa [List.getD_eq_getElem _ _ (by omega)] at hget
  have hafter : (messageBits bs).drop (start + 32) =
      List.replicate ((messageBits bs).drop (start + 32)).length false := by
    rw [List.eq_replicate_iff]
    refine ⟨rfl, fun b hb => ?_⟩
    obtain ⟨i, hi, rfl⟩ := List.getElem_of_mem hb
    rw [List.length_drop] at hi
    have hget := hclear (start + 32 + i) (Or.inr (by omega))
    rw [List.getElem_drop]
    rwa [List.getD_eq_getElem _ _ (by omega)] at hget
  have hmem : true ∈ ((messageBits bs).drop start).take 32 := by
    have hin := hwindow n hn
    rw [← messageBits_getD] at hn
    have hlt : n < (messageBits bs).length := by
      by_contra hge
      rw [List.getD_eq_default _ _ (by omega)] at hn
      exact Bool.false_ne_true hn
    rw [List.getD_eq_getElem _ _ hlt] at hn
    rw [List.mem_iff_getElem]
    refine ⟨n - start, by rw [List.length_take, List.length_drop]; omega, ?_⟩
    rw [List.getElem_take, List.getElem_drop]
    simpa [show start + (n - start) = n by omega] using hn
  refine ⟨((messageBits bs).take start).length, ((messageBits bs).drop (start + 32)).length,
    ((messageBits bs).drop start).take 32, by rw [List.length_take]; omega, hmem, ?_⟩
  calc messageBits bs
      = (messageBits bs).take start ++ (((messageBits bs).drop start).take 32 ++
          ((messageBits bs).drop start).drop 32) := by
        rw [List.take_append_drop, List.take_append_drop]
    _ = _ := by
        rw [List.drop_drop, ← List.append_assoc, ← hbefore, ← hafter]

theorem not_intact_of_burst (bs e : List UInt8) (hbs : bs.length = sizeofConfSaveUnit)
    (he : e.length = sizeofConfSaveUnit) (h : Intact bs) (hburst : Burst e) :
    ¬ Intact (xorBytes bs e) := by
  obtain ⟨before, after, burst, hlen, hset, heq⟩ := messageBits_of_burst e hburst
  rw [intact_xor bs e hbs he h, heq]
  exact feed_burst_ne_zero Poly_top before after burst hlen hset

theorem readLoop_cases (mem : ℕ → UInt8) (as : List ℕ) (fates : List ReadFate) :
    readLoop mem as fates = (0, as.map mem) ∨ (readLoop mem as fates).1 = 2 := by
  induction as generalizing fates with
  | nil => exact Or.inl rfl
  | cons a as ih =>
    have hreceived : fates.headD .received = .received → readLoop mem (a :: as) fates =
        ((readLoop mem as fates.tail).1, mem a :: (readLoop mem as fates.tail).2) := by
      intro hfate
      rw [readLoop, hfate]
    cases hfate : fates.headD .received with
    | timeout => exact Or.inr (by rw [readLoop, hfate])
    | received =>
      rw [hreceived hfate]
      rcases ih fates.tail with heq | htwo
      · exact Or.inl (by rw [heq]; rfl)
      · exact Or.inr htwo

/-- Whatever the byte reads do, read_config rejects the record of `c` under an
error pattern that is a burst, and keeps the configuration variable. -/
theorem readConfig_detects_burst (c config : NbModuConfig) (mem : ℕ → UInt8) (e : List UInt8)
    (fates : List ReadFate) (he : e.length = sizeofConfSaveUnit) (hburst : Burst e)
    (hmem : recordAt mem = xorBytes c.record e) :
    (readConfig config mem fates).1 ≠ 0 ∧ (readConfig config mem fates).2 = config := by
  have hbroken : ¬ Intact (recordAt mem) := by
    rw [hmem]
    exact not_intact_of_burst c.record e (NbModuConfig.length_record c) he (intact_record c) hburst
  rcases readLoop_cases mem (List.range sizeofConfSaveUnit) fates with heq | htwo
  · have hread : readConfig config mem fates = (-1, config) := by
      rw [readConfig, heq]
      exact if_neg hbroken
    rw [hread]
    exact ⟨by simp, rfl⟩
  · have hread : readConfig config mem fates = (2, config) := by
      rw [readConfig]
      simp [htwo]
    rw [hread]
    exact ⟨by simp, rfl⟩

/-- The last bit of the configuration and the first bit of the CRC flipped. -/
theorem readConfig_detects_burst_across :
    (readConfig lDefaultNbMCFG (fun i => (xorBytes lDefaultNbMCFG.record
      (List.replicate 14 0 ++ [128, 1, 0, 0, 0])).getD i 0) []).1 ≠ 0 := by
  have hburst : Burst (List.replicate 14 0 ++ [128, 1, 0, 0, 0]) := by
    refine ⟨⟨119, by decide⟩, 119, fun n hn => ?_⟩
    by_cases hlt : n / 8 < 19
    · have hbits : ∀ a < 19, ∀ j < 8,
          ((List.replicate 14 0 ++ [128, 1, 0, 0, 0] : List UInt8).getD a 0).toNat.testBit j =
            true → (a = 14 ∧ j = 7) ∨ (a = 15 ∧ j = 0) := by decide
      have hat := hbits (n / 8) hlt (n % 8) (by omega) hn
      omega
    · rw [bitAt, List.getD_eq_default _ _ (by simp; omega)] at hn
      simp at hn
  exact (readConfig_detects_burst lDefaultNbMCFG lDefaultNbMCFG _ _ [] rfl hburst
    (recordAt_getD _ (by simp [xorBytes, sizeofConfSaveUnit]))).1

end GemhoNbiot.RecordBursts
