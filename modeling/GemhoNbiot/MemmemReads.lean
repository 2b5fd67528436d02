import Mathlib.Data.Int.Notation
import GemhoNbiot.Memmem
import GemhoNbiot.TraceLogic

/-!
memmem of src/utils.c over a memory: the two strings are ranges of addresses and
every byte it looks at is a load. memchr loads up to the byte it finds, memcmp
all the bytes it is given. The loads stay in the two ranges, the result is the
one of Memmem on their contents, so it is the first occurrence.
-/
namespace GemhoNbiot.MemmemReads

open Program TraceLogic

structure Load where
  address : ℕ

abbrev Loads := Prog Load (fun _ => UInt8)

def load (p : ℕ) : Loads UInt8 := Prog.perform (⟨p⟩ : Load)

def memchr (c : UInt8) : ℕ → ℕ → Loads (Option ℕ)
  | _, 0 => pure none
  | p, n + 1 => do
    let b ← load p
    if b = c then
      pure (some p)
    else
      memchr c (p + 1) n

/-- The sign of the result is that of the first difference. -/
def memcmp : ℕ → ℕ → ℕ → Loads ℤ
  | _, _, 0 => pure 0
  | p, q, n + 1 => do
    let x ← load p
    let y ← load q
    let rest ← memcmp (p + 1) (q + 1) n
    pure (if x = y then rest else (x.toNat : ℤ) - y.toNat)

/-- The for loop with cur and the number of positions up to last. -/
def memmemFor (cs sLen : ℕ) : ℕ → ℕ → Loads (Option ℕ)
  | _, 0 => pure none
  | cur, n + 1 => do
    let x ← load cur
    let y ← load cs
    if x = y then
      let order ← memcmp cur cs sLen
      if order = 0 then
        pure (some cur)
      else
        memmemFor cs sLen (cur + 1) n
    else
      memmemFor cs sLen (cur + 1) n

def memmem (l lLen s sLen : ℕ) : Loads (Option ℕ) :=
  if lLen = 0 ∨ sLen = 0 then
    pure none
  else if lLen < sLen then
    pure none
  else if sLen = 1 then do
    let c ← load s
    memchr c l lLen
  else
    memmemFor s sLen l (lLen - sLen + 1)

/-- Run a program of loads on a memory. -/
def onMemory {α : Type} (mem : ℕ → UInt8) (p : Loads α) : Option α × List Load :=
  exec (fun op => mem op.address) p

/-- The `n` bytes from `p` on. -/
def slice (mem : ℕ → UInt8) : ℕ → ℕ → List UInt8
  | _, 0 => []
  | p, n + 1 => mem p :: slice mem (p + 1) n

/-- Every load is in one of the two ranges. -/
def Inside (p m q n : ℕ) (loads : List Load) : Prop :=
  ∀ op ∈ loads, (p ≤ op.address ∧ op.address < p + m) ∨ (q ≤ op.address ∧ op.address < q + n)

section Slices

variable {mem : ℕ → UInt8}

@[simp] theorem slice_length (p n : ℕ) : (slice mem p n).length = n := by
  induction n generalizing p with
  | zero => rfl
  | succ n ih => simp [slice, ih]

theorem slice_ne_nil (mem : ℕ → UInt8) (p : ℕ) {n : ℕ} (hn : 0 < n) : slice mem p n ≠ [] := by
  intro hnil
  have hlen := congrArg List.length hnil
  rw [slice_length, List.length_nil] at hlen
  omega

theorem slice_drop (p i n : ℕ) : (slice mem p (i + n)).drop i = slice mem (p + i) n := by
  induction i generalizing p with
  | zero => simp
  | succ i ih =>
    rw [Nat.add_right_comm, slice, List.drop_succ_cons, ih, Nat.add_right_comm, Nat.add_assoc]

theorem slice_take (p k n : ℕ) : (slice mem p (k + n)).take k = slice mem p k := by
  induction k generalizing p with
  | zero => simp [slice]
  | succ k ih => rw [Nat.add_right_comm, slice, List.take_succ_cons, ih, slice]

theorem slice_getElem? (p n i : ℕ) (hi : i < n) : (slice mem p n)[i]? = some (mem (p + i)) := by
  induction n generalizing p i with
  | zero => omega
  | succ n ih =>
    cases i with
    | zero => rfl
    | succ i =>
      rw [slice, List.getElem?_cons_succ, ih (p + 1) i (by omega), Nat.add_right_comm,
        Nat.add_assoc]

theorem slice_eq_iff (p q n : ℕ) :
    slice mem p n = slice mem q n ↔ ∀ k < n, mem (p + k) = mem (q + k) := by
  constructor
  · intro heq k hk
    have hget := congrArg (fun bs : List UInt8 => bs[k]?) heq
    simpa [slice_getElem? _ _ _ hk] using hget
  · intro h
    apply List.ext_getElem?
    intro k
    by_cases hk : k < n
    · rw [slice_getElem? _ _ _ hk, slice_getElem? _ _ _ hk, h k hk]
    · rw [List.getElem?_eq_none (by simp; omega), List.getElem?_eq_none (by simp; omega)]

end Slices

section Runs

variable {mem : ℕ → UInt8}

theorem onMemory_pure {α : Type} (a : α) : onMemory mem (pure a) = (some a, []) :=
  exec_pure _ a

theorem onMemory_load {α : Type} (p : ℕ) (f : UInt8 → Loads α) :
    onMemory mem (load p >>= f) =
      ((onMemory mem (f (mem p))).1, ⟨p⟩ :: (onMemory mem (f (mem p))).2) :=
  exec_perform_bind (fun op : Load => mem op.address) ⟨p⟩ f

theorem onMemory_bind {α β : Type} {p : Loads β} {b : β} {loads : List Load} (f : β → Loads α)
    (hp : onMemory mem p = (some b, loads)) :
    onMemory mem (p >>= f) = ((onMemory mem (f b)).1, loads ++ (onMemory mem (f b)).2) :=
  exec_bind _ f hp

theorem Inside.append {p m q n : ℕ} {as bs : List Load} (h : Inside p m q n as)
    (h' : Inside p m q n bs) : Inside p m q n (as ++ bs) :=
  fun op hop => (List.mem_append.mp hop).elim (h op) (h' op)

theorem Inside.cons {p m q n a : ℕ} {loads : List Load}
    (ha : (p ≤ a ∧ a < p + m) ∨ (q ≤ a ∧ a < q + n)) (h : Inside p m q n loads) :
    Inside p m q n (⟨a⟩ :: loads) := by
  intro op hop
  rcases List.mem_cons.mp hop with rfl | hop
  · exact ha
  · exact h op hop

theorem Inside.nil {p m q n : ℕ} : Inside p m q n [] :=
  fun _ hop => absurd hop List.not_mem_nil

/-- A range may be replaced by a larger one. -/
theorem Inside.mono {p m q n p' m' q' n' : ℕ} {loads : List Load} (h : Inside p m q n loads)
    (hp : p' ≤ p) (hm : p + m ≤ p' + m') (hq : q' ≤ q) (hn : q + n ≤ q' + n') :
    Inside p' m' q' n' loads := by
  intro op hop
  rcases h op hop with hin | hin
  · exact Or.inl ⟨by omega, by omega⟩
  · exact Or.inr ⟨by omega, by omega⟩

/-- memchr stays in the first range, whatever the second one is. -/
theorem memchr_run (mem : ℕ → UInt8) (c : UInt8) (p n q m : ℕ) :
    ∃ loads, onMemory mem (memchr c p n) =
      (some ((Memmem.memchr (slice mem p n) c).map (p + ·)), loads) ∧ Inside p n q m loads := by
  induction n generalizing p with
  | zero => exact ⟨[], rfl, Inside.nil⟩
  | succ n ih =>
    rw [memchr, onMemory_load]
    by_cases hb : mem p = c
    · rw [if_pos hb, onMemory_pure]
      refine ⟨[⟨p⟩], ?_, Inside.cons (by omega) Inside.nil⟩
      simp [Memmem.memchr, slice, List.findIdx?_cons, hb]
    · obtain ⟨loads, hrun, hin⟩ := ih (p + 1)
      rw [if_neg hb, hrun]
      have hinside : Inside p (n + 1) q m loads :=
        hin.mono (by omega) (by omega) (by omega) (by omega)
      have hbeq : (mem p == c) = false := by simpa using hb
      have hindex : ∀ found : Option ℕ,
          (found.map (· + 1)).map (p + ·) = found.map (p + 1 + ·) := by
        intro found
        cases found with
        | none => rfl
        | some i => simp only [Option.map_some, Nat.add_comm i 1, Nat.add_assoc]
      refine ⟨⟨p⟩ :: loads, ?_, Inside.cons (by omega) hinside⟩
      simp only [Memmem.memchr, slice, List.findIdx?_cons, hbeq, Bool.false_eq_true, if_false,
        hindex]

theorem memcmp_run (mem : ℕ → UInt8) (p q n : ℕ) :
    ∃ order loads, onMemory mem (memcmp p q n) = (some order, loads) ∧
      (order = 0 ↔ slice mem p n = slice mem q n) ∧ Inside p n q n loads := by
  induction n generalizing p q with
  | zero => exact ⟨0, [], rfl, by simp [slice], Inside.nil⟩
  | succ n ih =>
    obtain ⟨rest, loads, hrun, hrest, hin⟩ := ih (p + 1) (q + 1)
    rw [memcmp, onMemory_load, onMemory_load, onMemory_bind _ hrun, onMemory_pure]
    refine ⟨_, _, rfl, ?_, ?_⟩
    · rw [slice, slice, List.cons.injEq]
      by_cases heq : mem p = mem q
      · rw [if_pos heq, hrest]
        exact ⟨fun h => ⟨heq, h⟩, fun h => h.2⟩
      · have hne : (mem p).toNat ≠ (mem q).toNat := fun h => heq (UInt8.toNat_inj.mp h)
        rw [if_neg heq]
        exact ⟨fun h => absurd h (by omega), fun h => absurd h.1 heq⟩
    · rw [List.append_nil]
      refine Inside.cons (by omega) (Inside.cons (by omega) ?_)
      exact hin.mono (by omega) (by omega) (by omega) (by omega)

/-- The test of the loop on the contents is the one of Memmem. -/
theorem loop_test (mem : ℕ → UInt8) (l s : ℕ) {lLen sLen i : ℕ} (hs : 0 < sLen)
    (hi : i + sLen ≤ lLen) :
    ((slice mem l lLen).getD i 0 = (slice mem s sLen).getD 0 0 ∧
        ((slice mem l lLen).drop i).take (slice mem s sLen).length = slice mem s sLen) ↔
      mem (l + i) = mem s ∧ slice mem (l + i) sLen = slice mem s sLen := by
  have hfirst : (slice mem l lLen).getD i 0 = mem (l + i) := by
    rw [List.getD_eq_getElem?_getD, slice_getElem? _ _ _ (by omega), Option.getD_some]
  have hneedle : (slice mem s sLen).getD 0 0 = mem s := by
    rw [List.getD_eq_getElem?_getD, slice_getElem? _ _ _ hs, Option.getD_some, Nat.add_zero]
  have hwindow : ((slice mem l lLen).drop i).take sLen = slice mem (l + i) sLen := by
    rw [show lLen = i + (sLen + (lLen - i - sLen)) by omega, slice_drop, slice_take]
  rw [hfirst, hneedle, slice_length, hwindow]

/-- The loop at index `i` with `n` positions left, the last of which still has
the length of the needle behind it. -/
theorem memmemFor_run {l s lLen sLen : ℕ} (hs : 0 < sLen) (n i : ℕ)
    (hi : i + n + sLen ≤ lLen + 1) :
    ∃ loads, onMemory mem (memmemFor s sLen (l + i) n) =
      (some ((Memmem.memmemLoop (slice mem l lLen) (slice mem s sLen) n i).map (l + ·)), loads) ∧
        Inside l lLen s sLen loads := by
  induction n generalizing i with
  | zero => exact ⟨[], rfl, Inside.nil⟩
  | succ n ih =>
    obtain ⟨later, hlater, hinLater⟩ := ih (i + 1) (by omega)
    have htest := loop_test mem l s hs (show i + sLen ≤ lLen by omega)
    rw [memmemFor, onMemory_load, onMemory_load, Memmem.memmemLoop]
    by_cases hfirst : mem (l + i) = mem s
    · obtain ⟨order, loads, hrun, horder, hin⟩ := memcmp_run mem (l + i) s sLen
      have hinCmp : Inside l lLen s sLen loads :=
        hin.mono (by omega) (by omega) (by omega) (by omega)
      rw [if_pos hfirst, onMemory_bind _ hrun]
      by_cases hzero : order = 0
      · rw [if_pos hzero, onMemory_pure, if_pos (htest.mpr ⟨hfirst, horder.mp hzero⟩)]
        refine ⟨_, rfl, Inside.cons (by omega) (Inside.cons (by omega) ?_)⟩
        exact hinCmp.append Inside.nil
      · have hno : ¬ ((slice mem l lLen).getD i 0 = (slice mem s sLen).getD 0 0 ∧
            ((slice mem l lLen).drop i).take (slice mem s sLen).length = slice mem s sLen) :=
          fun h => hzero (horder.mpr (htest.mp h).2)
        rw [if_neg hzero, if_neg hno, Nat.add_assoc, hlater]
        refine ⟨_, rfl, Inside.cons (by omega) (Inside.cons (by omega) ?_)⟩
        exact hinCmp.append hinLater
    · have hno : ¬ ((slice mem l lLen).getD i 0 = (slice mem s sLen).getD 0 0 ∧
          ((slice mem l lLen).drop i).take (slice mem s sLen).length = slice mem s sLen) :=
        fun h => hfirst (htest.mp h).1
      rw [if_neg hfirst, if_neg hno, Nat.add_assoc, hlater]
      exact ⟨_, rfl, Inside.cons (by omega) (Inside.cons (by omega) hinLater)⟩

end Runs

section Search

variable {mem : ℕ → UInt8} {l lLen s sLen : ℕ}

/-- memmem on a memory is memmem on the contents, and loads nothing else. -/
theorem memmem_run (mem : ℕ → UInt8) (l lLen s sLen : ℕ) :
    ∃ loads, onMemory mem (memmem l lLen s sLen) =
      (some ((Memmem.memmem (slice mem l lLen) (slice mem s sLen)).map (l + ·)), loads) ∧
        Inside l lLen s sLen loads := by
  unfold memmem Memmem.memmem
  rw [slice_length, slice_length]
  by_cases hzero : lLen = 0 ∨ sLen = 0
  · rw [if_pos hzero, if_pos hzero]
    exact ⟨[], rfl, Inside.nil⟩
  · rw [if_neg hzero, if_neg hzero]
    by_cases hshort : lLen < sLen
    · rw [if_pos hshort, if_pos hshort]
      exact ⟨[], rfl, Inside.nil⟩
    · rw [if_neg hshort, if_neg hshort]
      by_cases hone : sLen = 1
      · obtain ⟨loads, hrun, hin⟩ := memchr_run mem (mem s) l lLen s sLen
        have hneedle : (slice mem s sLen).getD 0 0 = mem s := by
          rw [List.getD_eq_getElem?_getD, slice_getElem? _ _ _ (by omega), Option.getD_some,
            Nat.add_zero]
        rw [if_pos hone, if_pos hone, onMemory_load, hrun, hneedle]
        exact ⟨_, rfl, Inside.cons (by omega) hin⟩
      · rw [if_neg hone, if_neg hone]
        exact memmemFor_run (by omega) (lLen - sLen + 1) 0 (by omega)

/-- The needle stands at index `i` of the haystack. -/
def OccursAt (mem : ℕ → UInt8) (l lLen s sLen i : ℕ) : Prop :=
  i + sLen ≤ lLen ∧ ∀ k < sLen, mem (l + i + k) = mem (s + k)

theorem occurs_iff (hs : 0 < sLen) (i : ℕ) :
    slice mem s sLen <+: (slice mem l lLen).drop i ↔ OccursAt mem l lLen s sLen i := by
  have hne := slice_ne_nil mem s hs
  have hwindow : i + sLen ≤ lLen →
      ((slice mem l lLen).drop i).take sLen = slice mem (l + i) sLen := by
    intro hle
    rw [show lLen = i + (sLen + (lLen - i - sLen)) by omega, slice_drop, slice_take]
  constructor
  · intro h
    have hle : i + sLen ≤ lLen := by simpa using Memmem.occurs_bound hne h
    have htake := (Memmem.occurs_iff_take i).mp h
    rw [slice_length, hwindow hle, slice_eq_iff] at htake
    exact ⟨hle, htake⟩
  · rintro ⟨hle, hbytes⟩
    apply (Memmem.occurs_iff_take i).mpr
    rw [slice_length, hwindow hle, slice_eq_iff]
    exact hbytes

/-- For every memory, haystack and needle: memmem ends, it loads only bytes of
the two strings, it returns the smallest index at which a needle of at least one
byte stands, and NULL when there is none. -/
theorem memmem_first (mem : ℕ → UInt8) (l lLen s sLen : ℕ) :
    ∃ r loads, onMemory mem (memmem l lLen s sLen) = (some r, loads) ∧
      Inside l lLen s sLen loads ∧
      (∀ i, r = some (l + i) ↔ 1 ≤ sLen ∧ OccursAt mem l lLen s sLen i ∧
        ∀ j < i, ¬ OccursAt mem l lLen s sLen j) ∧
      (r = none ↔ sLen = 0 ∨ ∀ i, ¬ OccursAt mem l lLen s sLen i) := by
  obtain ⟨loads, hrun, hin⟩ := memmem_run mem l lLen s sLen
  refine ⟨_, loads, hrun, hin, ?_⟩
  by_cases hs : sLen = 0
  · subst hs
    have hnone : Memmem.memmem (slice mem l lLen) (slice mem s 0) = none := by
      simp [Memmem.memmem, slice]
    rw [hnone]
    exact ⟨fun i => ⟨fun h => by simp at h, fun h => absurd h.1 (by omega)⟩,
      fun _ => Or.inl rfl, fun _ => rfl⟩
  · have hpos : 0 < sLen := by omega
    have hne := slice_ne_nil mem s hpos
    constructor
    · intro i
      have hsome : (Memmem.memmem (slice mem l lLen) (slice mem s sLen)).map (l + ·) =
          some (l + i) ↔ Memmem.memmem (slice mem l lLen) (slice mem s sLen) = some i := by
        simp
      simp only [hsome, Memmem.memmem_eq_some hne, occurs_iff hpos]
      exact ⟨fun h => ⟨hpos, h⟩, fun h => h.2⟩
    · simp only [Option.map_eq_none_iff, Memmem.memmem_eq_none hne, occurs_iff hpos]
      exact ⟨Or.inr, fun h => h.resolve_left hs⟩

end Search

end GemhoNbiot.MemmemReads
