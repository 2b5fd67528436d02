import GemhoNbiot.SetCommands

/-!
What the thirteen handlers can do. A query or a pass-through command answers and
leaves configuration and EEPROM alone; a set form replaces the fields of its own
setting when it answers OK; AT+SAVE and AT+DELO are the only ones that write the
EEPROM, and AT+DELO alone changes the configuration without reading the line.
-/
namespace GemhoNbiot.CommandEffects

open Memmem Stdio Commands ConfigUtils ConfigMode CommandLines SetCommands SetCommand

/-- Configuration, EEPROM and pending write fates are as before, and the EEPROM
has not been written. -/
structure Keeps (d d' : Dev) : Prop where
  config : d'.config = d.config
  eeprom : d'.eeprom = d.eeprom
  stored : d'.stored = d.stored
  writeFates : d'.writeFates = d.writeFates

/-- Every handler of cmdExe, by what it does. -/
inductive Kind (wide : ℤ → ℤ) : List UInt8 → (Dev → List UInt8 → ℤ × Dev) → Prop
  | passThrough (word text : List UInt8) (size : ℕ)
      (hword : word ∈ [ATCIMI, ATCSQ, ATNUESTATS, ATCGATT]) (hsize : size - 1 ≥ 127) :
      Kind wide word (passThrough word text size)
  | version : Kind wide ATVER atverCmd
  | imeibd : Kind wide ATIMEIBD atimeibdCmd
  | setting (k : SetCommand) : Kind wide k.word (k.handler wide)
  | save : Kind wide ATSAVE atsaveCmd
  | restore : Kind wide ATDELO atdeloCmd

theorem cmdExe_kind (wide : ℤ → ℤ) (c : List UInt8 × (Dev → List UInt8 → ℤ × Dev))
    (hc : c ∈ cmdExe wide) : Kind wide c.1 c.2 := by
  simp only [cmdExe, List.mem_cons, List.not_mem_nil, or_false] at hc
  rcases hc with rfl | rfl | rfl | rfl | rfl | rfl | rfl | rfl | rfl | rfl | rfl | rfl | rfl
  · exact .passThrough ATCIMI _ 128 (by simp) (by decide)
  · exact .passThrough ATCSQ _ 128 (by simp) (by decide)
  · exact .passThrough ATNUESTATS _ 256 (by simp) (by decide)
  · exact .passThrough ATCGATT _ 128 (by simp) (by decide)
  · exact .version
  · exact .setting .rs232
  · exact .setting .ipport
  · exact .imeibd
  · exact .setting .msgs
  · exact .setting .semo
  · exact .setting .wdt
  · exact .save
  · exact .restore

section Handlers

variable (wide : ℤ → ℤ) (d : Dev) (cmd : List UInt8)

/-- A command word alone is sent on and its answer handed back; any other text is
answered ERROR. -/
theorem passThrough_cases (word text : List UInt8) (size : ℕ) :
    (passThrough word text size d cmd).2 = d.ucallWrite ERRORSTR ∨
      cstr cmd = word ∧ (passThrough word text size d cmd).2 =
        ((d.bc95Write text).bc95Read size).2.ucallWrite ((d.bc95Write text).bc95Read size).1 := by
  unfold passThrough
  split_ifs with hlen hword
  · exact Or.inl rfl
  · exact Or.inr ⟨hword, rfl⟩
  · exact Or.inl rfl

theorem atverCmd_cases :
    (atverCmd d cmd).2 = d.ucallWrite ERRORSTR ∨
      cstr cmd = ATVER ∧
        (atverCmd d cmd).2 = d.ucallWrite (bytes "+VER:" ++ VERSION ++ ENDFLAG) := by
  unfold atverCmd
  split_ifs with hlen hword
  · exact Or.inl rfl
  · exact Or.inr ⟨hword, rfl⟩
  · exact Or.inl rfl

theorem atimeibdCmd_cases :
    (atimeibdCmd d cmd).2 = d.ucallWrite ERRORSTR ∨
      cstr cmd = ATIMEIBD ∧ ∃ r, (atimeibdCmd d cmd).2 = d.ucallWrite (bytes "+IMEIBD:" ++ r) := by
  unfold atimeibdCmd
  split_ifs with hlen hword
  · exact Or.inl rfl
  · refine Or.inr ⟨hword, cstr d.imei ++ bytes "," ++ printD d.nband ++ ENDFLAG, ?_⟩
    simp only [List.append_assoc]
  · exact Or.inl rfl

/-- A setting answers ERROR, prints its fields, or takes new ones. -/
theorem respond_cases (k : SetCommand) :
    respond wide k d cmd = d.ucallWrite ERRORSTR ∨
      cstr cmd = k.word ∧
        respond wide k d cmd = d.ucallWrite (k.name ++ print d.config k ++ ENDFLAG) ∨
      cmd.take k.wordEq.length = k.wordEq ∧
        ∃ c, accept wide d.config (cmd.drop k.wordEq.length) k = some c ∧
          respond wide k d cmd = { d with config := c }.ucallWrite OKSTR := by
  by_cases hlen : cmd.length > 128 - 1
  · exact Or.inl (respond_long wide k d cmd hlen)
  · by_cases hword : cstr cmd = k.word
    · exact Or.inr (Or.inl ⟨hword, respond_query wide k d cmd hlen hword⟩)
    · by_cases heq : cmd.take k.wordEq.length = k.wordEq
      · rw [respond_set wide k d cmd hlen hword heq]
        cases haccept : accept wide d.config (cmd.drop k.wordEq.length) k with
        | none => exact Or.inl (applySet_of_none haccept)
        | some c => exact Or.inr (Or.inr ⟨heq, c, rfl, applySet_of_some haccept⟩)
      · exact Or.inl (respond_other wide k d cmd hlen hword heq)

/-- What a set form accepts differs from the old configuration in its own fields. -/
theorem accept_merge (c c' : NbModuConfig) (text : List UInt8) (k : SetCommand)
    (h : accept wide c text k = some c') : merge c c' k = c' := by
  cases k with
  | rs232 =>
    obtain ⟨⟨b, s, p⟩, _, rfl⟩ := Option.map_eq_some_iff.mp h
    rfl
  | ipport =>
    obtain ⟨⟨ip, port⟩, _, rfl⟩ := Option.map_eq_some_iff.mp h
    rfl
  | _ =>
    obtain ⟨v, _, rfl⟩ := Option.map_eq_some_iff.mp h
    rfl

theorem keeps_ucallWrite (r : List UInt8) : Keeps d (d.ucallWrite r) := ⟨rfl, rfl, rfl, rfl⟩

theorem keeps_passThrough (word text : List UInt8) (size : ℕ) :
    Keeps d (passThrough word text size d cmd).2 := by
  rcases passThrough_cases d cmd word text size with h | ⟨_, h⟩ <;> rw [h]
  · exact keeps_ucallWrite d _
  · exact ⟨rfl, rfl, rfl, rfl⟩

theorem keeps_atverCmd : Keeps d (atverCmd d cmd).2 := by
  rcases atverCmd_cases d cmd with h | ⟨_, h⟩ <;> rw [h] <;> exact keeps_ucallWrite d _

theorem keeps_atimeibdCmd : Keeps d (atimeibdCmd d cmd).2 := by
  rcases atimeibdCmd_cases d cmd with h | ⟨_, _, h⟩ <;> rw [h] <;> exact keeps_ucallWrite d _

/-- The EEPROM has taken no byte. -/
structure Unwritten (d d' : Dev) : Prop where
  eeprom : d'.eeprom = d.eeprom
  stored : d'.stored = d.stored

theorem Keeps.unwritten {d d' : Dev} (h : Keeps d d') : Unwritten d d' := ⟨h.eeprom, h.stored⟩

/-- A setting never touches the EEPROM. -/
theorem respond_unwritten (k : SetCommand) : Unwritten d (respond wide k d cmd) := by
  rcases respond_cases wide d cmd k with h | ⟨_, h⟩ | ⟨_, c, _, h⟩ <;> rw [h] <;> exact ⟨rfl, rfl⟩

end Handlers

/-- Only AT+SAVE and AT+DELO write the EEPROM. -/
theorem unwritten_of_other (wide : ℤ → ℤ) (c : List UInt8 × (Dev → List UInt8 → ℤ × Dev))
    (hc : c ∈ cmdExe wide) (hsave : c.1 ≠ ATSAVE) (hdelo : c.1 ≠ ATDELO) (d : Dev)
    (cmd : List UInt8) : Unwritten d (c.2 d cmd).2 := by
  obtain ⟨word, fn⟩ := c
  have hkind : Kind wide word fn := cmdExe_kind wide _ hc
  cases hkind with
  | passThrough _ text size _ _ => exact (keeps_passThrough d cmd word text size).unwritten
  | version => exact (keeps_atverCmd d cmd).unwritten
  | imeibd => exact (keeps_atimeibdCmd d cmd).unwritten
  | setting k =>
    simp only [handler_eq]
    exact respond_unwritten wide d cmd k
  | save => exact absurd rfl hsave
  | restore => exact absurd rfl hdelo

end GemhoNbiot.CommandEffects
