import GemhoNbiot.ConfigMode

/-!
Which handler a read reaches. A command word has no carriage return, so it
begins the buffer exactly when it begins the text before the first CR LF, and no
word of cmdExe is a prefix of another. A read with a CR LF is therefore handed
to the one handler whose word begins the text, or is answered UNDEFINED CMD.
-/
namespace GemhoNbiot.CommandLines

open Memmem Stdio Commands ConfigMode

/-- The text in front of the first CR LF of a read. -/
def lineText (buf : List UInt8) : Option (List UInt8) :=
  (memmem buf ENDFLAG).map buf.take

theorem memmem_eq_zero {l s : List UInt8} (hs : s ≠ []) : memmem l s = some 0 ↔ s <+: l := by
  rw [memmem_eq_some hs]
  simp

/-- A prefix without carriage return does not reach into the CR LF. -/
theorem prefix_lineText {buf text word : List UInt8} (h : lineText buf = some text)
    (hword : 13 ∉ word) : word <+: text ↔ word <+: buf := by
  obtain ⟨pEnd, hpEnd, rfl⟩ := Option.map_eq_some_iff.mp h
  obtain ⟨hoccurs, _⟩ := (memmem_eq_some ENDFLAG_ne_nil pEnd).mp hpEnd
  constructor
  · intro hbegins
    exact hbegins.trans (List.take_prefix pEnd buf)
  · intro hbegins
    refine List.prefix_take_iff.mpr ⟨hbegins, ?_⟩
    by_contra hlong
    -- Otherwise the word would hold the carriage return at pEnd.
    have hlt : pEnd < word.length := by omega
    obtain ⟨rest, hrest⟩ := hoccurs
    have hcr : buf[pEnd]? = some 13 := by
      rw [← Nat.add_zero pEnd, ← List.getElem?_drop, ← hrest]
      rfl
    obtain ⟨after, rfl⟩ := hbegins
    rw [List.getElem?_append_left hlt] at hcr
    exact hword (List.mem_of_getElem? hcr)

theorem lineText_length {buf text : List UInt8} (h : lineText buf = some text) :
    text.length + 2 ≤ buf.length := by
  obtain ⟨pEnd, hpEnd, rfl⟩ := Option.map_eq_some_iff.mp h
  have hbound := occurs_bound ENDFLAG_ne_nil ((memmem_eq_some ENDFLAG_ne_nil pEnd).mp hpEnd).1
  have htwo : ENDFLAG.length = 2 := by decide
  rw [List.length_take]
  omega

/-- A text without carriage return that ends with CR LF. -/
theorem lineText_append (text rest : List UInt8) (h : 13 ∉ text) :
    lineText (text ++ ENDFLAG ++ rest) = some text := by
  have hfirst : memmem (text ++ ENDFLAG ++ rest) ENDFLAG = some text.length := by
    refine (memmem_eq_some ENDFLAG_ne_nil _).mpr ⟨?_, ?_⟩
    · rw [List.append_assoc, List.drop_left]
      exact List.prefix_append _ _
    · intro j hj hoccurs
      obtain ⟨after, hafter⟩ := hoccurs
      have hcr : (text ++ ENDFLAG ++ rest)[j]? = some 13 := by
        rw [← Nat.add_zero j, ← List.getElem?_drop, ← hafter]
        rfl
      rw [List.append_assoc, List.getElem?_append_left hj] at hcr
      exact h (List.mem_of_getElem? hcr)
  rw [lineText, hfirst, Option.map_some, List.append_assoc, List.take_left]

theorem lineText_line (text : List UInt8) (h : 13 ∉ text) : lineText (line text) = some text := by
  have hline := lineText_append text [] h
  rwa [List.append_nil] at hline

section Dispatch

/-- The handlers of a table none of whose words is a prefix of another. -/
def Incomparable (words : List (List UInt8)) : Prop :=
  words.Pairwise fun a b => ¬ a <+: b ∧ ¬ b <+: a

instance (words : List (List UInt8)) : Decidable (Incomparable words) :=
  inferInstanceAs (Decidable (List.Pairwise _ words))

variable {cmds : List (List UInt8 × (Dev → List UInt8 → ℤ × Dev))}

theorem dispatch_of_none (buf text : List UInt8) (hne : cmds ≠ [])
    (hwords : ∀ c ∈ cmds, c.1 ≠ []) (h : ∀ c ∈ cmds, ¬ c.1 <+: buf) (d : Dev) :
    dispatch buf text cmds d = d.ucallWrite UDCMD := by
  induction cmds with
  | nil => exact absurd rfl hne
  | cons c rest ih =>
    obtain ⟨word, fn⟩ := c
    have hword := hwords _ List.mem_cons_self
    rw [dispatch, if_neg ((memmem_eq_zero hword).not.mpr (h _ List.mem_cons_self))]
    by_cases hlast : rest.length = 0
    · rw [if_pos hlast]
    · rw [if_neg hlast]
      exact ih (by simpa using hlast) (fun c hc => hwords c (List.mem_cons_of_mem _ hc))
        fun c hc => h c (List.mem_cons_of_mem _ hc)

/-- Two prefixes of one list are comparable. -/
theorem prefixes_comparable {a b buf : List UInt8} (ha : a <+: buf) (hb : b <+: buf) :
    a <+: b ∨ b <+: a := by
  rcases Nat.le_total a.length b.length with hle | hle
  · exact Or.inl (List.prefix_of_prefix_length_le ha hb hle)
  · exact Or.inr (List.prefix_of_prefix_length_le hb ha hle)

theorem dispatch_of_mem (buf text : List UInt8) (hwords : ∀ c ∈ cmds, c.1 ≠ [])
    (hcmds : Incomparable (cmds.map Prod.fst)) (c : List UInt8 × (Dev → List UInt8 → ℤ × Dev))
    (hc : c ∈ cmds) (h : c.1 <+: buf) (d : Dev) :
    dispatch buf text cmds d = (c.2 d text).2 := by
  induction cmds with
  | nil => exact absurd hc List.not_mem_nil
  | cons first rest ih =>
    obtain ⟨word, fn⟩ := first
    rw [List.map_cons, Incomparable, List.pairwise_cons] at hcmds
    rw [dispatch]
    rcases List.mem_cons.mp hc with rfl | hrest
    · rw [if_pos ((memmem_eq_zero (hwords _ List.mem_cons_self)).mpr h)]
    · have hapart := hcmds.1 c.1 (List.mem_map_of_mem hrest)
      have hmiss : ¬ word <+: buf := fun hword =>
        (prefixes_comparable hword h).elim hapart.1 hapart.2
      have hlast : rest.length ≠ 0 := (List.length_pos_of_mem hrest).ne'
      rw [if_neg ((memmem_eq_zero (hwords _ List.mem_cons_self)).not.mpr hmiss), if_neg hlast]
      exact ih (fun c hc => hwords c (List.mem_cons_of_mem _ hc)) hcmds.2 hrest

end Dispatch

section Words

/-- The command words in the order of cmdExe. -/
def words : List (List UInt8) :=
  [ATCIMI, ATCSQ, ATNUESTATS, ATCGATT, ATVER, ATRS232, ATIPPORT, ATIMEIBD, ATMSGS, ATSEMO, ATWDT,
    ATSAVE, ATDELO]

theorem cmdExe_words (wide : ℤ → ℤ) : (cmdExe wide).map Prod.fst = words := rfl

theorem words_incomparable : Incomparable words := by decide +kernel

theorem word_ne_nil {word : List UInt8} (h : word ∈ words) : word ≠ [] := by
  have hall : words.all (fun w => !w.isEmpty) = true := by decide +kernel
  simpa using List.all_eq_true.mp hall word h

theorem cr_not_mem_word {word : List UInt8} (h : word ∈ words) : 13 ∉ word := by
  have hall : words.all (fun w => !w.contains 13) = true := by decide +kernel
  simpa using List.all_eq_true.mp hall word h

/-- At most one command word begins a text. -/
theorem word_unique {a b text : List UInt8} (ha : a ∈ words) (hb : b ∈ words)
    (hatext : a <+: text) (hbtext : b <+: text) : a = b := by
  have hapart : words.all (fun a => words.all fun b => decide (a <+: b → a = b)) = true := by
    decide +kernel
  have hall (a b : List UInt8) (ha : a ∈ words) (hb : b ∈ words) (h : a <+: b) : a = b :=
    of_decide_eq_true (List.all_eq_true.mp (List.all_eq_true.mp hapart a ha) b hb) h
  rcases prefixes_comparable hatext hbtext with h | h
  · exact hall a b ha hb h
  · exact (hall b a hb ha h).symm

theorem mem_words {wide : ℤ → ℤ} {c : List UInt8 × (Dev → List UInt8 → ℤ × Dev)}
    (hc : c ∈ cmdExe wide) : c.1 ∈ words := by
  rw [← cmdExe_words wide]
  exact List.mem_map_of_mem hc

end Words

/-- A text begins with the word of an entry of cmdExe or with no command word. -/
theorem entry_or_unknown (wide : ℤ → ℤ) (text : List UInt8) :
    (∃ c ∈ cmdExe wide, c.1 <+: text) ∨ ∀ w ∈ words, ¬ w <+: text := by
  by_cases hentry : ∃ c ∈ cmdExe wide, c.1 <+: text
  · exact Or.inl hentry
  · refine Or.inr fun w hw hbegins => ?_
    rw [← cmdExe_words wide] at hw
    obtain ⟨c, hc, rfl⟩ := List.mem_map.mp hw
    exact hentry ⟨c, hc, hbegins⟩

/-- A read whose text begins with a command word goes to the handler of the word. -/
theorem ghConfigTurn_word (wide : ℤ → ℤ) (user rs485 text : List UInt8)
    (htext : lineText (user ++ rs485) = some text)
    (c : List UInt8 × (Dev → List UInt8 → ℤ × Dev)) (hc : c ∈ cmdExe wide)
    (hword : c.1 <+: text) (d : Dev) :
    ghConfigTurn wide user rs485 d = (c.2 d text).2 := by
  have hwords : ∀ c ∈ cmdExe wide, c.1 ≠ [] := fun c hc => word_ne_nil (mem_words hc)
  have hbuf := (prefix_lineText htext (cr_not_mem_word (mem_words hc))).mp hword
  have hpos : (user ++ rs485).length ≠ 0 :=
    (Nat.lt_of_lt_of_le (List.length_pos_iff.mpr (hwords c hc)) hbuf.length_le).ne'
  obtain ⟨pEnd, hpEnd, rfl⟩ := Option.map_eq_some_iff.mp htext
  rw [ghConfigTurn]
  simp only [hpEnd, if_neg hpos]
  exact dispatch_of_mem _ _ hwords words_incomparable c hc hbuf d

theorem ghConfigTurn_unknown (wide : ℤ → ℤ) (user rs485 text : List UInt8)
    (htext : lineText (user ++ rs485) = some text) (h : ∀ w ∈ words, ¬ w <+: text) (d : Dev) :
    ghConfigTurn wide user rs485 d = d.ucallWrite UDCMD := by
  have hmiss : ∀ c ∈ cmdExe wide, ¬ c.1 <+: user ++ rs485 := by
    intro c hc hbuf
    exact h c.1 (mem_words hc) ((prefix_lineText htext (cr_not_mem_word (mem_words hc))).mpr hbuf)
  obtain ⟨pEnd, hpEnd, rfl⟩ := Option.map_eq_some_iff.mp htext
  have hpos : (user ++ rs485).length ≠ 0 := by
    intro hnil
    rw [List.length_eq_zero_iff.mp hnil] at hpEnd
    simp [memmem] at hpEnd
  rw [ghConfigTurn]
  simp only [hpEnd, if_neg hpos]
  exact dispatch_of_none _ _ (by simp [cmdExe]) (fun c hc => word_ne_nil (mem_words hc)) hmiss d

/-- A read with a CR LF is answered as its line is. -/
theorem ghConfigTurn_lineText (wide : ℤ → ℤ) (r text : List UInt8) (htext : lineText r = some text)
    (d : Dev) : ghConfigTurn wide r [] d = dispatch (line text) text (cmdExe wide) d := by
  have hread : lineText (r ++ []) = some text := by rw [List.append_nil, htext]
  have hwords : ∀ c ∈ cmdExe wide, c.1 ≠ [] := fun c hc => word_ne_nil (mem_words hc)
  have hline {w : List UInt8} (hw : w ∈ words) (h : w <+: line text) : w <+: text := by
    obtain ⟨rest, hrest⟩ := h
    rcases List.append_eq_append_iff.mp hrest with ⟨as, htext, _⟩ | ⟨as, hword, hflag⟩
    · exact ⟨as, htext.symm⟩
    · cases as with
      | nil => exact ⟨[], by rw [List.append_nil, hword, List.append_nil]⟩
      | cons b as =>
        -- The word would hold the carriage return behind the text.
        have hcr : b = 13 := (List.cons.inj hflag).1.symm
        exact absurd (by rw [hword, hcr]; simp) (cr_not_mem_word hw)
  rcases entry_or_unknown wide text with ⟨c, hc, hbegins⟩ | hunknown
  · rw [ghConfigTurn_word wide r [] text hread c hc hbegins]
    exact (dispatch_of_mem _ _ hwords words_incomparable c hc
      (hbegins.trans (List.prefix_append _ _)) d).symm
  · rw [ghConfigTurn_unknown wide r [] text hread hunknown]
    exact (dispatch_of_none _ _ (by simp [cmdExe]) hwords
      (fun c hc h => hunknown c.1 (mem_words hc) (hline (mem_words hc) h)) d).symm

/-- The texts that `executed` lists are those the loop dispatches: a run over reads
shorter than the buffer is the run of the command table over these texts. -/
theorem ghConfigUser_executed (wide : ℤ → ℤ) (reads : List (List UInt8))
    (hshort : ∀ r ∈ reads, r.length < bufSize) (d : Dev) :
    ghConfigUser wide reads d =
      (executed reads).foldl (fun d text => dispatch (line text) text (cmdExe wide) d) d := by
  induction reads generalizing d with
  | nil => rfl
  | cons r reads ih =>
    have hrest := ih (fun t ht => hshort t (List.mem_cons_of_mem _ ht))
    have hr := hshort r List.mem_cons_self
    simp only [executed] at hrest
    rw [ghConfigUser_cons, hrest, executed, List.filterMap_cons]
    cases htext : lineText r with
    | some text =>
      have hmap : (memmem r ENDFLAG).map r.take = some text := htext
      rw [ghConfigTurn_lineText wide r text htext, hmap]
      rfl
    | none =>
      have hnone : memmem r ENDFLAG = none := Option.map_eq_none_iff.mp htext
      have hturn : ghConfigTurn wide r [] d = d := by
        rw [ghConfigTurn, List.append_nil, hnone]
        simp only [if_neg (Nat.not_le.mpr hr), ite_self]
      rw [hturn, hnone]
      rfl

/-- One turn runs one handler on the text of its line, or answers itself, or
waits for more. -/
theorem ghConfigTurn_cases (wide : ℤ → ℤ) (user rs485 : List UInt8) (d : Dev) :
    (∃ c ∈ cmdExe wide, ∃ text, lineText (user ++ rs485) = some text ∧ c.1 <+: text ∧
      ghConfigTurn wide user rs485 d = (c.2 d text).2) ∨
    (∃ r, (r = UDCMD ∨ r = ERRORSTR) ∧ ghConfigTurn wide user rs485 d = d.ucallWrite r) ∨
    ghConfigTurn wide user rs485 d = d := by
  cases htext : lineText (user ++ rs485) with
  | some text =>
    rcases entry_or_unknown wide text with ⟨c, hc, hbegins⟩ | hunknown
    · exact Or.inl ⟨c, hc, text, rfl, hbegins,
        ghConfigTurn_word wide user rs485 text htext c hc hbegins d⟩
    · exact Or.inr (Or.inl ⟨UDCMD, Or.inl rfl,
        ghConfigTurn_unknown wide user rs485 text htext hunknown d⟩)
  | none =>
    have hnone : memmem (user ++ rs485) ENDFLAG = none := Option.map_eq_none_iff.mp htext
    rw [ghConfigTurn]
    simp only [hnone]
    split_ifs
    · exact Or.inr (Or.inr rfl)
    · exact Or.inr (Or.inl ⟨ERRORSTR, Or.inr rfl, rfl⟩)
    · exact Or.inr (Or.inr rfl)

end GemhoNbiot.CommandLines
