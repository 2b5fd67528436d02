import GemhoNbiot.CommandLines
import GemhoNbiot.ScanPrint

/-!
The five settings a line can change. Each has a query form, its word alone, and
a set form, the word and an equals sign with integers after it. The handlers
share one shape: what they print and which integers they accept is all that
differs. RS232 narrows stopbit and parity to a byte before the range check, the
other four check the integer they have converted.
-/
namespace GemhoNbiot.SetCommands

open Memmem Stdio Commands ConfigUtils ConfigMode CommandLines ScanPrint

inductive SetCommand
  | rs232
  | ipport
  | msgs
  | semo
  | wdt
deriving DecidableEq

namespace SetCommand

def word : SetCommand → List UInt8
  | rs232 => ATRS232
  | ipport => ATIPPORT
  | msgs => ATMSGS
  | semo => ATSEMO
  | wdt => ATWDT

def wordEq : SetCommand → List UInt8
  | rs232 => ATRS232EQ
  | ipport => ATIPPORTEQ
  | msgs => ATMSGSEQ
  | semo => ATSEMOEQ
  | wdt => ATWDTEQ

/-- The separators of the sscanf format. -/
def seps : SetCommand → List UInt8
  | rs232 => bytes ",,"
  | ipport => bytes "...,"
  | _ => []

def handler (wide : ℤ → ℤ) : SetCommand → Dev → List UInt8 → ℤ × Dev
  | rs232 => atrs232Cmd wide
  | ipport => atipportCmd wide
  | msgs => atmsgsCmd wide
  | semo => atsemoCmd wide
  | wdt => atwdtCmd wide

/-- What the query form prints in front of the values. -/
def name : SetCommand → List UInt8
  | rs232 => bytes "+RS232:"
  | ipport => bytes "+IPPORT:"
  | msgs => bytes "+MSGS:"
  | semo => bytes "+SEMO:"
  | wdt => bytes "+WDT:"

/-- The values the query form prints. -/
def print (c : NbModuConfig) : SetCommand → List UInt8
  | rs232 => printD32 c.baudrate ++ bytes "," ++ decimal c.stopbit.toNat ++ bytes "," ++
      decimal c.parity.toNat
  | ipport => printIp c.ip ++ bytes "," ++ decimal c.port.toNat
  | msgs => decimal c.msgSave.toNat
  | semo => decimal c.sendMode.toNat
  | wdt => decimal c.watchdog.toNat

/-- The configuration `c` with the fields of the setting taken from `c'`. -/
def merge (c c' : NbModuConfig) : SetCommand → NbModuConfig
  | rs232 => { c with baudrate := c'.baudrate, stopbit := c'.stopbit, parity := c'.parity }
  | ipport => { c with ip := c'.ip, port := c'.port }
  | msgs => { c with msgSave := c'.msgSave }
  | semo => { c with sendMode := c'.sendMode }
  | wdt => { c with watchdog := c'.watchdog }

/-- The integer of a format with one %d, if it is between `lo` and `hi`. -/
def number (wide : ℤ → ℤ) (lo hi : ℤ) (text : List UInt8) : Option UInt8 :=
  match scanf [] (cstr text) with
  | [z] => if toInt wide z < lo ∨ toInt wide z > hi then none else some (UInt8.ofInt (toInt wide z))
  | _ => none

/-- The configuration after the set form with this text behind the equals sign. -/
def accept (wide : ℤ → ℤ) (c : NbModuConfig) (text : List UInt8) :
    SetCommand → Option NbModuConfig
  | rs232 => (checkConfigRS232 wide text).map fun (baudrate, stopbit, parity) =>
      { c with baudrate, stopbit, parity }
  | ipport => (checkConfigIPORT wide text).map fun (ip, port) =>
      { c with ip := ip.map fun z => UInt8.ofInt z, port := UInt16.ofInt port }
  | msgs => (number wide 1 5 text).map fun v => { c with msgSave := v }
  | semo => (number wide 0 1 text).map fun v => { c with sendMode := v }
  | wdt => (number wide 0 1 text).map fun v => { c with watchdog := v }

/-- The set form after its prefix was recognized. -/
def applySet (wide : ℤ → ℤ) (k : SetCommand) (d : Dev) (text : List UInt8) : Dev :=
  match accept wide d.config text k with
  | some c => { d with config := c }.ucallWrite OKSTR
  | none => d.ucallWrite ERRORSTR

/-- What the handlers of the five settings have in common. -/
def respond (wide : ℤ → ℤ) (k : SetCommand) (d : Dev) (cmd : List UInt8) : Dev :=
  if cmd.length > 128 - 1 then d.ucallWrite ERRORSTR
  else if cstr cmd = k.word then d.ucallWrite (k.name ++ print d.config k ++ ENDFLAG)
  else if cmd.take k.wordEq.length = k.wordEq then applySet wide k d (cmd.drop k.wordEq.length)
  else d.ucallWrite ERRORSTR

/-- The shape of ATMSGS_cmd, ATSEMO_cmd and ATWDT_cmd. -/
theorem setting_number (wide : ℤ → ℤ) (word wordEq name : List UInt8) (lo hi : ℤ)
    (get : NbModuConfig → UInt8) (put : UInt8 → NbModuConfig → NbModuConfig) (d : Dev)
    (cmd : List UInt8) :
    (setting wide word wordEq name lo hi get put d cmd).2 =
      if cmd.length > 128 - 1 then d.ucallWrite ERRORSTR
      else if cstr cmd = word then d.ucallWrite (name ++ decimal (get d.config).toNat ++ ENDFLAG)
      else if cmd.take wordEq.length = wordEq then
        match (number wide lo hi (cmd.drop wordEq.length)).map fun v => put v d.config with
        | some c => { d with config := c }.ucallWrite OKSTR
        | none => d.ucallWrite ERRORSTR
      else d.ucallWrite ERRORSTR := by
  unfold setting number
  split_ifs
  · rfl
  · rfl
  · match scanf [] (cstr (cmd.drop wordEq.length)) with
    | [] => rfl
    | [z] =>
      simp only
      split_ifs <;> rfl
    | _ :: _ :: _ => rfl
  · rfl

section Respond

variable (wide : ℤ → ℤ) (k : SetCommand) (d : Dev) (cmd : List UInt8)

theorem respond_long (hlen : cmd.length > 128 - 1) : respond wide k d cmd = d.ucallWrite ERRORSTR :=
  if_pos hlen

theorem respond_query (hlen : ¬ cmd.length > 128 - 1) (hword : cstr cmd = k.word) :
    respond wide k d cmd = d.ucallWrite (k.name ++ print d.config k ++ ENDFLAG) := by
  rw [respond, if_neg hlen, if_pos hword]

theorem respond_set (hlen : ¬ cmd.length > 128 - 1) (hword : cstr cmd ≠ k.word)
    (heq : cmd.take k.wordEq.length = k.wordEq) :
    respond wide k d cmd = applySet wide k d (cmd.drop k.wordEq.length) := by
  rw [respond, if_neg hlen, if_neg hword, if_pos heq]

theorem respond_other (hlen : ¬ cmd.length > 128 - 1) (hword : cstr cmd ≠ k.word)
    (heq : cmd.take k.wordEq.length ≠ k.wordEq) :
    respond wide k d cmd = d.ucallWrite ERRORSTR := by
  rw [respond, if_neg hlen, if_neg hword, if_neg heq]

theorem atrs232Cmd_eq : (atrs232Cmd wide d cmd).2 = respond wide rs232 d cmd := by
  unfold atrs232Cmd
  split_ifs with hlen hword heq
  · exact (respond_long wide rs232 d cmd hlen).symm
  · rw [respond_query wide rs232 d cmd hlen hword]
    simp only [name, print, List.append_assoc]
  · rw [respond_set wide rs232 d cmd hlen hword heq, applySet, accept, wordEq]
    cases checkConfigRS232 wide (cmd.drop ATRS232EQ.length) <;> rfl
  · exact (respond_other wide rs232 d cmd hlen hword heq).symm

theorem atipportCmd_eq : (atipportCmd wide d cmd).2 = respond wide ipport d cmd := by
  unfold atipportCmd
  split_ifs with hlen hword heq
  · exact (respond_long wide ipport d cmd hlen).symm
  · rw [respond_query wide ipport d cmd hlen hword]
    simp only [name, print, List.append_assoc]
  · rw [respond_set wide ipport d cmd hlen hword heq, applySet, accept, wordEq]
    cases checkConfigIPORT wide (cmd.drop ATIPPORTEQ.length) <;> rfl
  · exact (respond_other wide ipport d cmd hlen hword heq).symm

/-- The five handlers are the common shape. -/
theorem handler_eq : (k.handler wide d cmd).2 = respond wide k d cmd := by
  cases k with
  | rs232 => exact atrs232Cmd_eq wide d cmd
  | ipport => exact atipportCmd_eq wide d cmd
  | msgs => exact setting_number wide _ _ _ _ _ _ _ d cmd
  | semo => exact setting_number wide _ _ _ _ _ _ _ d cmd
  | wdt => exact setting_number wide _ _ _ _ _ _ _ d cmd

end Respond

theorem mem_cmdExe (wide : ℤ → ℤ) (k : SetCommand) : (k.word, k.handler wide) ∈ cmdExe wide := by
  cases k <;> simp [cmdExe, word, handler]

theorem word_prefix_wordEq (k : SetCommand) : k.word <+: k.wordEq := by
  cases k <;> decide

theorem word_mem_words (k : SetCommand) : k.word ∈ words :=
  mem_words (mem_cmdExe id k)

theorem word_ne_save (k : SetCommand) : k.word ≠ ATSAVE := by cases k <;> decide

theorem word_ne_delo (k : SetCommand) : k.word ≠ ATDELO := by cases k <;> decide

theorem word_ne_imeibd (k : SetCommand) : k.word ≠ ATIMEIBD := by cases k <;> decide

/-- A line of the set form is not taken for the query form. -/
theorem cstr_wordEq_ne (k : SetCommand) (payload : List UInt8) :
    cstr (k.wordEq ++ payload) ≠ k.word := by
  have hzero : 0 ∉ k.wordEq := by cases k <;> decide
  have hlt : k.word.length < k.wordEq.length := by cases k <;> decide
  rw [cstr_append _ _ hzero]
  intro heq
  have hlen := congrArg List.length heq
  rw [List.length_append] at hlen
  omega

/-- A set line that fits the buffer is answered by `applySet`. -/
theorem ghConfigTurn_set (wide : ℤ → ℤ) (k : SetCommand) (user rs485 payload : List UInt8)
    (hlen : (user ++ rs485).length ≤ bufSize)
    (htext : lineText (user ++ rs485) = some (k.wordEq ++ payload)) (d : Dev) :
    ghConfigTurn wide user rs485 d = applySet wide k d payload := by
  have hword : k.word <+: k.wordEq ++ payload :=
    (word_prefix_wordEq k).trans (List.prefix_append _ _)
  have hshort : ¬ (k.wordEq ++ payload).length > 128 - 1 := by
    have hbound := lineText_length htext
    rw [bufSize] at hlen
    omega
  rw [ghConfigTurn_word wide user rs485 _ htext _ (mem_cmdExe wide k) hword]
  simp only
  rw [handler_eq, respond_set wide k d _ hshort (cstr_wordEq_ne k payload) (List.take_left ..),
    List.drop_left]

end SetCommand

section Integers

open SetCommand

/-- The range of int. -/
def IsInt (z : ℤ) : Prop := -2147483648 ≤ z ∧ z ≤ 2147483647

instance (z : ℤ) : Decidable (IsInt z) := inferInstanceAs (Decidable (_ ∧ _))

/-- The integers a set command is documented to take. -/
def InRange : SetCommand → List ℤ → Prop
  | rs232, [b, s, p] => b ∈ [4800, 9600, 57600, 115200] ∧ s ∈ [1, 2] ∧ p ∈ [0, 1, 2]
  | ipport, [a, b, c, e, p] =>
    (0 ≤ a ∧ a ≤ 255) ∧ (0 ≤ b ∧ b ≤ 255) ∧ (0 ≤ c ∧ c ≤ 255) ∧ (0 ≤ e ∧ e ≤ 255) ∧
      0 ≤ p ∧ p ≤ 65535
  | msgs, [z] => 1 ≤ z ∧ z ≤ 5
  | semo, [z] => 0 ≤ z ∧ z ≤ 1
  | wdt, [z] => 0 ≤ z ∧ z ≤ 1
  | _, _ => False

/-- The fields of a setting as integers, in the order of its set form. -/
def values (c : NbModuConfig) : SetCommand → List ℤ
  | rs232 => [c.baudrate.toNat, c.stopbit.toNat, c.parity.toNat]
  | ipport => c.ip.toList.map (fun b => (b.toNat : ℤ)) ++ [(c.port.toNat : ℤ)]
  | msgs => [c.msgSave.toNat]
  | semo => [c.sendMode.toNat]
  | wdt => [c.watchdog.toNat]

/-- A stopbit or parity out of range whose low byte is in range, beside values
that are accepted. -/
def WrapsIntoRange : SetCommand → List ℤ → Prop
  | rs232, [b, s, p] => b ∈ [4800, 9600, 57600, 115200] ∧ s % 256 ∈ [1, 2] ∧
      p % 256 ∈ [0, 1, 2] ∧ ¬ (s ∈ [1, 2] ∧ p ∈ [0, 1, 2])
  | _, _ => False

/-- OK exactly for integers in range, and then these integers are stored. -/
structure Exact (k : SetCommand) (zs : List ℤ) (d d' : Dev) : Prop where
  ok_iff : d'.replies = d.replies ++ [OKSTR] ↔ InRange k zs
  stored : d'.replies = d.replies ++ [OKSTR] → values d'.config k = zs

theorem toInt_of_isInt (wide : ℤ → ℤ) {z : ℤ} (h : IsInt z) : toInt wide z = z := if_pos h

theorem toNat_ofInt8 (z : ℤ) : ((UInt8.ofInt z).toNat : ℤ) = z % 256 := by
  rw [UInt8.ofInt, UInt8.toNat_ofNat']
  omega

theorem toNat_ofInt16 (z : ℤ) : ((UInt16.ofInt z).toNat : ℤ) = z % 65536 := by
  rw [UInt16.ofInt, UInt16.toNat_ofNat']
  omega

theorem toNat_ofInt32 (z : ℤ) : ((UInt32.ofInt z).toNat : ℤ) = z % 4294967296 := by
  rw [UInt32.ofInt, UInt32.toNat_ofNat']
  omega

theorem toNat_narrow (z : ℤ) : (((UInt32.ofInt z).toUInt8).toNat : ℤ) = z % 256 := by
  have h := toNat_ofInt32 z
  rw [UInt32.toNat_toUInt8]
  omega

theorem ofInt32_eq {z : ℤ} (h : IsInt z) (x : UInt32) (hx : x.toNat < 2147483648) :
    UInt32.ofInt z = x ↔ z = x.toNat := by
  have hz := toNat_ofInt32 z
  unfold IsInt at h
  rw [← UInt32.toNat_inj]
  omega

theorem narrow_eq (z : ℤ) (x : UInt8) : (UInt32.ofInt z).toUInt8 = x ↔ z % 256 = x.toNat := by
  have hz := toNat_narrow z
  rw [← UInt8.toNat_inj]
  omega

/-- The check of checkConfigRS232 on the integers: it sees the low bytes only. -/
theorem checkConfigRS232_ints (wide : ℤ → ℤ) (text : List UInt8) (b s p : ℤ)
    (hscan : scanf (bytes ",,") (cstr text) = [b, s, p]) (hb : IsInt b) (hs : IsInt s)
    (hp : IsInt p) :
    checkConfigRS232 wide text =
      if b ∈ [4800, 9600, 57600, 115200] ∧ s % 256 ∈ [1, 2] ∧ p % 256 ∈ [0, 1, 2] then
        some (UInt32.ofInt b, (UInt32.ofInt s).toUInt8, (UInt32.ofInt p).toUInt8)
      else none := by
  unfold checkConfigRS232
  simp only [hscan, toInt_of_isInt wide hb, toInt_of_isInt wide hs, toInt_of_isInt wide hp,
    Ne, narrow_eq, ofInt32_eq hb 4800 (by decide), ofInt32_eq hb 9600 (by decide),
    ofInt32_eq hb 57600 (by decide), ofInt32_eq hb 115200 (by decide), List.mem_cons,
    List.not_mem_nil, or_false, UInt32.reduceToNat, UInt8.reduceToNat, Nat.cast_ofNat,
    Nat.cast_one, Nat.cast_zero]
  split_ifs with h1 h2 h3 h4 <;> first | rfl | omega

theorem checkConfigIPORT_ints (wide : ℤ → ℤ) (text : List UInt8) (v w x y z a b c e p : ℤ)
    (hscan : scanf (bytes "...,") (cstr text) = [v, w, x, y, z])
    (hints : [v, w, x, y, z].map (toInt wide) = [a, b, c, e, p]) :
    (InRange ipport [a, b, c, e, p] → checkConfigIPORT wide text = some (#v[a, b, c, e], p)) ∧
      (¬ InRange ipport [a, b, c, e, p] → checkConfigIPORT wide text = none) := by
  simp only [List.map_cons, List.map_nil, List.cons.injEq, and_true] at hints
  obtain ⟨hv, hw, hx, hy, hz⟩ := hints
  unfold checkConfigIPORT InRange
  simp only [hscan, hv, hw, hx, hy, hz]
  have hany : (#v[a, b, c, e].any fun z => z > 255 || z < 0) = true ↔
      (a > 255 ∨ a < 0) ∨ (b > 255 ∨ b < 0) ∨ (c > 255 ∨ c < 0) ∨ (e > 255 ∨ e < 0) := by
    simp [Vector.any, or_assoc]
  constructor
  · intro hrange
    rw [if_neg (by rw [hany]; omega), if_neg (by omega)]
  · intro hrange
    by_cases hip : (#v[a, b, c, e].any fun z => z > 255 || z < 0) = true
    · rw [if_pos hip]
    · rw [if_neg hip, if_pos]
      rw [hany] at hip
      omega

theorem map_toInt_of_isInt (wide : ℤ → ℤ) (zs : List ℤ) (hint : ∀ z ∈ zs, IsInt z) :
    zs.map (toInt wide) = zs :=
  (List.map_congr_left fun z hz => toInt_of_isInt wide (hint z hz)).trans (List.map_id' zs)

/-- An integer in a range of bytes is stored as it is. -/
theorem number_some (wide : ℤ → ℤ) {lo hi : ℤ} (text : List UInt8) (z : ℤ)
    (hscan : scanf [] (cstr text) = [z]) (hint : IsInt z) (h : lo ≤ z ∧ z ≤ hi) (hlo : 0 ≤ lo)
    (hhi : hi ≤ 255) : ∃ v, number wide lo hi text = some v ∧ [(v.toNat : ℤ)] = [z] := by
  refine ⟨UInt8.ofInt z, ?_, ?_⟩
  · unfold number
    simp only [hscan, toInt_of_isInt wide hint]
    rw [if_neg (by omega)]
  · rw [toNat_ofInt8, Int.emod_eq_of_lt (by omega) (by omega)]

theorem number_none_of_range (wide : ℤ → ℤ) {lo hi : ℤ} (text : List UInt8) (z : ℤ)
    (hscan : scanf [] (cstr text) = [z]) (hint : IsInt z) (h : ¬ (lo ≤ z ∧ z ≤ hi)) :
    number wide lo hi text = none := by
  unfold number
  simp only [hscan, toInt_of_isInt wide hint]
  rw [if_pos (by omega)]

theorem number_none (wide : ℤ → ℤ) (lo hi : ℤ) (text : List UInt8)
    (hlen : (scanf [] (cstr text)).length ≠ 1) : number wide lo hi text = none := by
  unfold number
  split
  · next z hscan => exact absurd (congrArg List.length hscan) hlen
  · rfl

/-- Nothing is accepted unless every %d of the format has converted. -/
theorem accept_none_of_length (wide : ℤ → ℤ) (c : NbModuConfig) (text : List UInt8)
    (k : SetCommand) (h : (scanf k.seps (cstr text)).length ≠ k.seps.length + 1) :
    accept wide c text k = none := by
  cases k with
  | rs232 =>
    have hcheck : checkConfigRS232 wide text = none := by
      unfold checkConfigRS232
      split
      · next b s p hscan => exact absurd (congrArg List.length hscan) h
      · rfl
    rw [accept, hcheck, Option.map_none]
  | ipport =>
    have hcheck : checkConfigIPORT wide text = none := by
      unfold checkConfigIPORT
      split
      · next a b c e p hscan => exact absurd (congrArg List.length hscan) h
      · rfl
    rw [accept, hcheck, Option.map_none]
  | _ => rw [accept, number_none wide _ _ text h, Option.map_none]

section Accept

variable (wide : ℤ → ℤ) (c : NbModuConfig) (text : List UInt8) (k : SetCommand) (zs : List ℤ)

/-- Integers in range are accepted and stored as they are. -/
theorem accept_of_inRange (hscan : scanf k.seps (cstr text) = zs) (hint : ∀ z ∈ zs, IsInt z)
    (hrange : InRange k zs) :
    ∃ c', accept wide c text k = some c' ∧ values c' k = zs ∧ merge c c' k = c' := by
  cases k with
  | rs232 =>
    match zs, hrange with
    | [b, s, p], ⟨hb, hs, hp⟩ =>
      have hcheck := checkConfigRS232_ints wide text b s p hscan (hint b (by simp))
        (hint s (by simp)) (hint p (by simp))
      simp only [List.mem_cons, List.not_mem_nil, or_false] at hb hs hp hcheck
      rw [if_pos (by omega)] at hcheck
      refine ⟨_, by rw [accept, hcheck, Option.map_some], ?_, rfl⟩
      simp only [values, toNat_ofInt32, toNat_narrow, List.cons.injEq, and_true]
      omega
  | ipport =>
    match zs, hrange with
    | [a, b, c', e, p], hrange =>
      have hcheck := (checkConfigIPORT_ints wide text _ _ _ _ _ a b c' e p hscan
        (map_toInt_of_isInt wide _ hint)).1 hrange
      refine ⟨_, by rw [accept, hcheck, Option.map_some], ?_, rfl⟩
      unfold InRange at hrange
      have hip : (#v[a, b, c', e].map fun z => UInt8.ofInt z).toList =
          [UInt8.ofInt a, UInt8.ofInt b, UInt8.ofInt c', UInt8.ofInt e] := by simp
      simp only [values, hip, List.map_cons, List.map_nil, List.cons_append, List.nil_append,
        toNat_ofInt8, toNat_ofInt16, List.cons.injEq, and_true]
      omega
  | _ =>
    match zs, hrange with
    | [z], hrange =>
      obtain ⟨v, hnumber, hvalue⟩ := number_some wide text z hscan (hint z (by simp)) hrange
        (by omega) (by omega)
      refine ⟨_, by rw [accept, hnumber, Option.map_some], ?_, rfl⟩
      exact hvalue

theorem eq_of_length_five {l : List ℤ} (h : l.length = 5) :
    ∃ a b c d e, l = [a, b, c, d, e] := by
  obtain ⟨a, rest, rfl⟩ := List.exists_of_length_succ l h
  obtain ⟨b, c, d, e, rfl⟩ := List.length_eq_four.mp (Nat.succ.inj h)
  exact ⟨a, b, c, d, e, rfl⟩

/-- Integers out of range are refused, unless the bytes they narrow to are in range. -/
theorem accept_none (hscan : scanf k.seps (cstr text) = zs) (hint : ∀ z ∈ zs, IsInt z)
    (hrange : ¬ InRange k zs) (hwraps : ¬ WrapsIntoRange k zs) :
    accept wide c text k = none := by
  by_cases hlen : (scanf k.seps (cstr text)).length = k.seps.length + 1
  · rw [hscan] at hlen
    cases k with
    | rs232 =>
      obtain ⟨b, s, p, rfl⟩ := List.length_eq_three.mp hlen
      have hcheck := checkConfigRS232_ints wide text b s p hscan (hint b (by simp))
        (hint s (by simp)) (hint p (by simp))
      unfold InRange at hrange
      unfold WrapsIntoRange at hwraps
      rw [if_neg (by tauto)] at hcheck
      rw [accept, hcheck, Option.map_none]
    | ipport =>
      obtain ⟨a, b, c', e, p, rfl⟩ := eq_of_length_five hlen
      have hcheck := (checkConfigIPORT_ints wide text _ _ _ _ _ a b c' e p hscan
        (map_toInt_of_isInt wide _ hint)).2 hrange
      rw [accept, hcheck, Option.map_none]
    | _ =>
      obtain ⟨z, rfl⟩ := List.length_eq_one_iff.mp hlen
      have hnumber := number_none_of_range wide text z hscan (hint z (by simp)) hrange
      rw [accept, hnumber, Option.map_none]
  · exact accept_none_of_length wide c text k hlen

/-- Integers that narrow into the range are accepted. -/
theorem accept_of_wraps (hscan : scanf k.seps (cstr text) = zs) (hint : ∀ z ∈ zs, IsInt z)
    (hwraps : WrapsIntoRange k zs) : accept wide c text k ≠ none ∧ ¬ InRange k zs := by
  cases k with
  | rs232 =>
    match zs, hwraps with
    | [b, s, p], ⟨hb, hs, hp, hout⟩ =>
      have hcheck := checkConfigRS232_ints wide text b s p hscan (hint b (by simp))
        (hint s (by simp)) (hint p (by simp))
      rw [if_pos ⟨hb, hs, hp⟩] at hcheck
      refine ⟨?_, fun hrange => hout hrange.2⟩
      rw [accept, hcheck, Option.map_some]
      exact Option.some_ne_none _
  | _ => exact hwraps.elim

end Accept

theorem OKSTR_ne_ERRORSTR : OKSTR ≠ ERRORSTR := by decide

theorem applySet_of_some {wide : ℤ → ℤ} {k : SetCommand} {d : Dev} {text : List UInt8}
    {c : NbModuConfig} (h : accept wide d.config text k = some c) :
    applySet wide k d text = { d with config := c }.ucallWrite OKSTR := by
  rw [applySet, h]

theorem applySet_of_none {wide : ℤ → ℤ} {k : SetCommand} {d : Dev} {text : List UInt8}
    (h : accept wide d.config text k = none) : applySet wide k d text = d.ucallWrite ERRORSTR := by
  rw [applySet, h]

theorem error_ne_ok (d : Dev) : (d.ucallWrite ERRORSTR).replies ≠ d.replies ++ [OKSTR] := by
  intro h
  have hlast : [ERRORSTR] = [OKSTR] := List.append_cancel_left h
  exact OKSTR_ne_ERRORSTR (List.cons.inj hlast).1.symm

end Integers

open SetCommand

/-- A set command with integers in the range of int takes exactly its documented
values and stores them, unless a stopbit or a parity wraps into range. -/
theorem set_exact_iff (wide : ℤ → ℤ) (k : SetCommand) (user rs485 payload : List UInt8)
    (zs : List ℤ) (d : Dev) (hlen : (user ++ rs485).length ≤ bufSize)
    (htext : lineText (user ++ rs485) = some (k.wordEq ++ payload))
    (hscan : scanf k.seps (cstr payload) = zs) (hint : ∀ z ∈ zs, IsInt z) :
    Exact k zs d (ghConfigTurn wide user rs485 d) ↔ ¬ WrapsIntoRange k zs := by
  rw [ghConfigTurn_set wide k user rs485 payload hlen htext d]
  constructor
  · intro h hwraps
    obtain ⟨haccept, hrange⟩ := accept_of_wraps wide d.config payload k zs hscan hint hwraps
    obtain ⟨c, hc⟩ := Option.ne_none_iff_exists'.mp haccept
    rw [applySet_of_some hc] at h
    exact hrange (h.ok_iff.mp rfl)
  · intro hwraps
    by_cases hrange : InRange k zs
    · obtain ⟨c, hc, hvalues, _⟩ := accept_of_inRange wide d.config payload k zs hscan hint hrange
      rw [applySet_of_some hc]
      exact ⟨⟨fun _ => hrange, fun _ => rfl⟩, fun _ => hvalues⟩
    · rw [applySet_of_none (accept_none wide d.config payload k zs hscan hint hrange hwraps)]
      exact ⟨⟨fun h => absurd h (error_ne_ok d), fun h => absurd h hrange⟩,
        fun h => absurd h (error_ne_ok d)⟩

/-- A negative stopbit is refused. -/
theorem set_exact_negative : Exact .rs232 [9600, -2, 0] someDev
    (ghConfigTurn id (bytes "AT+RS232=9600,-2,0\r\n") [] someDev) := by
  refine (set_exact_iff id .rs232 _ _ (bytes "9600,-2,0") _ _ ?_ ?_ ?_ ?_).mpr ?_
  · decide
  · decide +kernel
  · decide +kernel
  · decide
  · simp [WrapsIntoRange]

/-- The line AT+RS232=115200,257,512 is accepted. -/
theorem set_wraps :
    lineText (bytes "AT+RS232=115200,257,512\r\n") =
      some (SetCommand.rs232.wordEq ++ bytes "115200,257,512") ∧
    scanf SetCommand.rs232.seps (cstr (bytes "115200,257,512")) = [115200, 257, 512] ∧
    ¬ Exact .rs232 [115200, 257, 512] someDev
      (ghConfigTurn id (bytes "AT+RS232=115200,257,512\r\n") [] someDev) := by
  refine ⟨by decide +kernel, by decide +kernel, ?_⟩
  intro h
  have hok : (ghConfigTurn id (bytes "AT+RS232=115200,257,512\r\n") [] someDev).replies =
      someDev.replies ++ [OKSTR] := by decide +kernel
  have hrange := h.ok_iff.mp hok
  simp [InRange] at hrange

end GemhoNbiot.SetCommands
