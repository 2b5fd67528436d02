import Mathlib.Tactic.SplitIfs
import GemhoNbiot.Commands

/-!
Configuration mode: ghConfig reads both user ports into one buffer and, where
the bytes read hold a CR LF, runs the command in front of the first one. The
byte count is reset at the top of the loop and the buffer is cleared after a
command, so every read stands alone: a partial line is forgotten, and so is
what follows the first line of a read. Lines are executed as sent exactly when
the non-empty reads are the lines.
-/
namespace GemhoNbiot.ConfigMode

open Memmem Stdio Commands ConfigUtils

/-- The search for a command word at the start of the buffer. -/
def dispatch (buf text : List UInt8) :
    List (List UInt8 × (Dev → List UInt8 → ℤ × Dev)) → Dev → Dev
  | [], d => d
  | (word, fn) :: rest, d =>
    if memmem buf word = some 0 then (fn d text).2
    else if rest.length = 0 then d.ucallWrite UDCMD
    else dispatch buf text rest d

/-- sizeof(buf) in ghConfig. -/
def bufSize : ℕ := 128

/-- One turn of the loop of ghConfig, with what the two reads returned. -/
def ghConfigTurn (wide : ℤ → ℤ) (user rs485 : List UInt8) (d : Dev) : Dev :=
  let buf := user ++ rs485
  if buf.length = 0 then d
  else
    match memmem buf ENDFLAG with
    | some pEnd => dispatch buf (buf.take pEnd) (cmdExe wide) d
    | none => if buf.length ≥ bufSize then d.ucallWrite ERRORSTR else d

def ghConfig (wide : ℤ → ℤ) (reads : List (List UInt8 × List UInt8)) (d : Dev) : Dev :=
  reads.foldl (fun d r => ghConfigTurn wide r.1 r.2 d) d

/-- The loop with nothing on USERCOM485. -/
def ghConfigUser (wide : ℤ → ℤ) (reads : List (List UInt8)) (d : Dev) : Dev :=
  ghConfig wide (reads.map fun r => (r, [])) d

/-- The command texts that the loop takes from its reads, in order. -/
def executed (reads : List (List UInt8)) : List (List UInt8) :=
  reads.filterMap fun r => (memmem r ENDFLAG).map r.take

def line (text : List UInt8) : List UInt8 := text ++ ENDFLAG

/-- A text that makes a line of less than 128 bytes with one CR LF, at its end. -/
structure CommandText (text : List UInt8) : Prop where
  short : (line text).length < bufSize
  single : memmem (line text) ENDFLAG = some text.length

/-- Every line is executed once and in order and gets one reply, and replies
and configuration are those of the run whose reads are the lines. -/
structure Framed (wide : ℤ → ℤ) (d : Dev) (texts reads : List (List UInt8)) : Prop where
  executed_eq : executed reads = texts
  one_reply : (ghConfigUser wide reads d).replies.length = d.replies.length + texts.length
  replies_eq : (ghConfigUser wide reads d).replies =
    (ghConfigUser wide (texts.map line) d).replies
  config_eq : (ghConfigUser wide reads d).config = (ghConfigUser wide (texts.map line) d).config

section Handlers

/-- The writes of a handler to BC95COM: none, or one whole line. -/
def SentOne (d d' : Dev) : Prop :=
  d'.sent = d.sent ∨ ∃ text, d'.sent = d.sent ++ [text ++ ENDFLAG] ∧ Printable text

/-- A handler answers with exactly one UCALL_write. -/
def Answers (fn : Dev → List UInt8 → ℤ × Dev) : Prop :=
  ∀ d cmd, (∃ r, (fn d cmd).2.replies = d.replies ++ [r]) ∧ SentOne d (fn d cmd).2

theorem passThrough_answers (word text : List UInt8) (size : ℕ) (h : Printable text) :
    Answers (passThrough word (text ++ ENDFLAG) size) := by
  intro d cmd
  unfold passThrough
  by_cases hlen : cmd.length > size - 1
  · rw [if_pos hlen]
    exact ⟨⟨_, rfl⟩, Or.inl rfl⟩
  · rw [if_neg hlen]
    by_cases hword : cstr cmd = word
    · rw [if_pos hword]
      exact ⟨⟨_, rfl⟩, Or.inr ⟨text, rfl, h⟩⟩
    · rw [if_neg hword]
      exact ⟨⟨_, rfl⟩, Or.inl rfl⟩

theorem atverCmd_answers : Answers atverCmd := by
  intro d cmd
  unfold atverCmd
  split_ifs <;> exact ⟨⟨_, rfl⟩, Or.inl rfl⟩

theorem atimeibdCmd_answers : Answers atimeibdCmd := by
  intro d cmd
  unfold atimeibdCmd
  split_ifs <;> exact ⟨⟨_, rfl⟩, Or.inl rfl⟩

theorem atrs232Cmd_answers (wide : ℤ → ℤ) : Answers (atrs232Cmd wide) := by
  intro d cmd
  unfold atrs232Cmd
  split_ifs
  · exact ⟨⟨_, rfl⟩, Or.inl rfl⟩
  · exact ⟨⟨_, rfl⟩, Or.inl rfl⟩
  · cases checkConfigRS232 wide (cmd.drop ATRS232EQ.length) <;> exact ⟨⟨_, rfl⟩, Or.inl rfl⟩
  · exact ⟨⟨_, rfl⟩, Or.inl rfl⟩

theorem atipportCmd_answers (wide : ℤ → ℤ) : Answers (atipportCmd wide) := by
  intro d cmd
  unfold atipportCmd
  split_ifs
  · exact ⟨⟨_, rfl⟩, Or.inl rfl⟩
  · exact ⟨⟨_, rfl⟩, Or.inl rfl⟩
  · cases checkConfigIPORT wide (cmd.drop ATIPPORTEQ.length) <;> exact ⟨⟨_, rfl⟩, Or.inl rfl⟩
  · exact ⟨⟨_, rfl⟩, Or.inl rfl⟩

theorem setting_answers (wide : ℤ → ℤ) (word wordEq name : List UInt8) (lo hi : ℤ)
    (get : NbModuConfig → UInt8) (set : UInt8 → NbModuConfig → NbModuConfig) :
    Answers (setting wide word wordEq name lo hi get set) := by
  intro d cmd
  unfold setting
  split_ifs
  · exact ⟨⟨_, rfl⟩, Or.inl rfl⟩
  · exact ⟨⟨_, rfl⟩, Or.inl rfl⟩
  · split
    · simp only
      split_ifs <;> exact ⟨⟨_, rfl⟩, Or.inl rfl⟩
    · exact ⟨⟨_, rfl⟩, Or.inl rfl⟩
  · exact ⟨⟨_, rfl⟩, Or.inl rfl⟩

theorem atsaveCmd_answers : Answers atsaveCmd := fun _ _ => ⟨⟨_, rfl⟩, Or.inl rfl⟩

theorem atdeloCmd_answers : Answers atdeloCmd := fun _ _ => ⟨⟨_, rfl⟩, Or.inl rfl⟩

theorem cmdExe_answers (wide : ℤ → ℤ) : ∀ c ∈ cmdExe wide, Answers c.2 := by
  intro c hc
  simp only [cmdExe, List.mem_cons, List.not_mem_nil, or_false] at hc
  rcases hc with rfl | rfl | rfl | rfl | rfl | rfl | rfl | rfl | rfl | rfl | rfl | rfl | rfl
  · exact passThrough_answers ATCIMI ATCIMI 128 (by decide)
  · exact passThrough_answers ATCSQ ATCSQ 128 (by decide)
  · exact passThrough_answers ATNUESTATS ATNUESTATS 256 (by decide)
  · exact passThrough_answers ATCGATT (ATCGATT ++ bytes "?") 128 (by decide)
  · exact atverCmd_answers
  · exact atrs232Cmd_answers wide
  · exact atipportCmd_answers wide
  · exact atimeibdCmd_answers
  · exact setting_answers wide _ _ _ _ _ _ _
  · exact setting_answers wide _ _ _ _ _ _ _
  · exact setting_answers wide _ _ _ _ _ _ _
  · exact atsaveCmd_answers
  · exact atdeloCmd_answers

/-- The search through the command table runs one handler or answers itself. -/
theorem dispatch_answers (buf text : List UInt8)
    (cmds : List (List UInt8 × (Dev → List UInt8 → ℤ × Dev))) (hne : cmds ≠ [])
    (hall : ∀ c ∈ cmds, Answers c.2) (d : Dev) :
    (∃ r, (dispatch buf text cmds d).replies = d.replies ++ [r]) ∧
      SentOne d (dispatch buf text cmds d) := by
  induction cmds with
  | nil => exact absurd rfl hne
  | cons c rest ih =>
    obtain ⟨word, fn⟩ := c
    rw [dispatch]
    by_cases hword : memmem buf word = some 0
    · rw [if_pos hword]
      exact hall (word, fn) List.mem_cons_self d text
    · rw [if_neg hword]
      by_cases hlast : rest.length = 0
      · rw [if_pos hlast]
        exact ⟨⟨UDCMD, rfl⟩, Or.inl rfl⟩
      · rw [if_neg hlast]
        exact ih (by simpa using hlast) fun c hc => hall c (List.mem_cons_of_mem _ hc)

theorem ghConfigTurn_sent (wide : ℤ → ℤ) (user rs485 : List UInt8) (d : Dev) :
    SentOne d (ghConfigTurn wide user rs485 d) := by
  unfold ghConfigTurn
  simp only
  split
  · exact Or.inl rfl
  · split
    · exact (dispatch_answers _ _ _ (by simp [cmdExe]) (cmdExe_answers wide) d).2
    · split
      · exact Or.inl rfl
      · exact Or.inl rfl

end Handlers

section Framing

variable (wide : ℤ → ℤ)

theorem ghConfigUser_cons (r : List UInt8) (reads : List (List UInt8)) (d : Dev) :
    ghConfigUser wide (r :: reads) d = ghConfigUser wide reads (ghConfigTurn wide r [] d) := rfl

theorem ghConfigTurn_nil (d : Dev) : ghConfigTurn wide [] [] d = d := rfl

/-- A read that is one line is dispatched with its text. -/
theorem ghConfigTurn_line (text : List UInt8) (h : CommandText text) (d : Dev) :
    ghConfigTurn wide (line text) [] d = dispatch (line text) text (cmdExe wide) d := by
  have hpos : (line text).length ≠ 0 := by simp [line, ENDFLAG, bytes]
  have htake : (line text).take text.length = text := by simp [line]
  rw [ghConfigTurn, List.append_nil, if_neg hpos, h.single]
  simp only [htake]

theorem ghConfigUser_filter (reads : List (List UInt8)) (d : Dev) :
    ghConfigUser wide (reads.filter (· ≠ [])) d = ghConfigUser wide reads d := by
  induction reads generalizing d with
  | nil => rfl
  | cons r reads ih =>
    by_cases hr : r = []
    · subst hr
      rw [List.filter_cons_of_neg (by simp), ghConfigUser_cons, ghConfigTurn_nil, ih]
    · rw [List.filter_cons_of_pos (by simpa using hr), ghConfigUser_cons, ghConfigUser_cons, ih]

theorem executed_filter (reads : List (List UInt8)) :
    executed (reads.filter (· ≠ [])) = executed reads := by
  induction reads with
  | nil => rfl
  | cons r reads ih =>
    by_cases hr : r = []
    · subst hr
      rw [List.filter_cons_of_neg (by simp), ih]
      rfl
    · rw [List.filter_cons_of_pos (by simpa using hr)]
      simp only [executed, List.filterMap_cons] at ih ⊢
      rw [ih]

theorem executed_lines (texts : List (List UInt8)) (h : ∀ t ∈ texts, CommandText t) :
    executed (texts.map line) = texts := by
  induction texts with
  | nil => rfl
  | cons t texts ih =>
    have htake : (line t).take t.length = t := by simp [line]
    have hrest := ih fun t ht => h t (List.mem_cons_of_mem _ ht)
    simp only [executed] at hrest
    rw [List.map_cons, executed, List.filterMap_cons, (h t List.mem_cons_self).single,
      Option.map_some, htake, hrest]

theorem replies_lines (texts : List (List UInt8)) (h : ∀ t ∈ texts, CommandText t) (d : Dev) :
    (ghConfigUser wide (texts.map line) d).replies.length = d.replies.length + texts.length := by
  induction texts generalizing d with
  | nil => rfl
  | cons t texts ih =>
    obtain ⟨⟨r, hr⟩, _⟩ := dispatch_answers (line t) t (cmdExe wide) (by simp [cmdExe])
      (cmdExe_answers wide) d
    rw [List.map_cons, ghConfigUser_cons, ghConfigTurn_line wide t (h t List.mem_cons_self),
      ih fun t ht => h t (List.mem_cons_of_mem _ ht), hr, List.length_append,
      List.length_singleton, List.length_cons]
    omega

/-- The bytes of a read that its turn uses. -/
def used (r : List UInt8) : ℕ :=
  match memmem r ENDFLAG with
  | some i => i + ENDFLAG.length
  | none => 0

theorem ENDFLAG_ne_nil : ENDFLAG ≠ [] := by decide

theorem used_le (r : List UInt8) : used r ≤ r.length := by
  unfold used
  cases h : memmem r ENDFLAG with
  | none => exact Nat.zero_le _
  | some i => exact occurs_bound ENDFLAG_ne_nil ((memmem_eq_some ENDFLAG_ne_nil i).mp h).1

theorem sum_used_le (reads : List (List UInt8)) :
    (reads.map used).sum ≤ (reads.map List.length).sum := by
  induction reads with
  | nil => exact Nat.le_refl _
  | cons r reads ih =>
    rw [List.map_cons, List.map_cons, List.sum_cons, List.sum_cons]
    exact Nat.add_le_add (used_le r) ih

theorem sum_used (reads : List (List UInt8)) :
    (reads.map used).sum = ((executed reads).map fun t => (line t).length).sum := by
  induction reads with
  | nil => rfl
  | cons r reads ih =>
    simp only [executed] at ih ⊢
    rw [List.map_cons, List.sum_cons, ih, List.filterMap_cons]
    cases h : memmem r ENDFLAG with
    | none => simp [used, h]
    | some i =>
      have hbound := occurs_bound ENDFLAG_ne_nil ((memmem_eq_some ENDFLAG_ne_nil i).mp h).1
      simp only [Option.map_some, List.map_cons, List.sum_cons, used, h, line,
        List.length_append, List.length_take]
      omega

/-- If the turns use every byte, the non-empty reads are the lines they execute. -/
theorem reads_of_used (reads : List (List UInt8))
    (h : (reads.map used).sum = (reads.map List.length).sum) :
    reads.filter (· ≠ []) = (executed reads).map line := by
  induction reads with
  | nil => rfl
  | cons r reads ih =>
    have hhead := used_le r
    have htail := sum_used_le reads
    simp only [List.map_cons, List.sum_cons] at h
    have hrest := ih (by omega)
    have hused : used r = r.length := by omega
    simp only [executed] at hrest ⊢
    rw [List.filterMap_cons]
    cases hm : memmem r ENDFLAG with
    | none =>
      have hnil : r = [] := by
        apply List.length_eq_zero_iff.mp
        rw [← hused, used, hm]
      rw [List.filter_cons_of_neg (by simp [hnil]), hrest]
      simp
    | some i =>
      have hlen : i + ENDFLAG.length = r.length := by rw [← hused, used, hm]
      obtain ⟨hoccurs, _⟩ := (memmem_eq_some ENDFLAG_ne_nil i).mp hm
      have hdrop : r.drop i = ENDFLAG := by
        refine (hoccurs.eq_of_length ?_).symm
        rw [List.length_drop]
        omega
      have hline : line (r.take i) = r := by rw [line, ← hdrop, List.take_append_drop]
      have hne : r ≠ [] := by
        intro hnil
        rw [hnil] at hlen
        simp [ENDFLAG, bytes] at hlen
      rw [List.filter_cons_of_pos (by simpa using hne), hrest]
      simp [hline]

/-- The lines are executed as sent exactly when the non-empty reads are the lines. -/
theorem framed_iff (d : Dev) (texts reads : List (List UInt8))
    (htexts : ∀ t ∈ texts, CommandText t)
    (hcut : reads.flatten = (texts.map line).flatten) :
    Framed wide d texts reads ↔ reads.filter (· ≠ []) = texts.map line := by
  constructor
  · intro h
    have hbytes := congrArg List.length hcut
    rw [List.length_flatten, List.length_flatten, List.map_map] at hbytes
    have hused : (reads.map used).sum = (reads.map List.length).sum := by
      rw [sum_used, h.executed_eq, hbytes]
      rfl
    rw [reads_of_used reads hused, h.executed_eq]
  · intro h
    have hrun : ghConfigUser wide reads d = ghConfigUser wide (texts.map line) d := by
      rw [← h, ghConfigUser_filter]
    refine ⟨?_, ?_, ?_, ?_⟩
    · rw [← executed_filter, h, executed_lines texts htexts]
    · rw [hrun, replies_lines wide texts htexts]
    · rw [hrun]
    · rw [hrun]

end Framing

def someDev : Dev :=
  ⟨lDefaultNbMCFG, List.replicate 15 49, 5, fun _ => 0, [], [], [], [], []⟩

theorem framed_whole_lines : Framed id someDev [ATVER, bytes "AT+SEMO=1"]
    [line ATVER, [], line (bytes "AT+SEMO=1")] := by
  refine (framed_iff id someDev _ _ ?_ (by decide)).mpr (by decide)
  intro t ht
  simp only [List.mem_cons, List.not_mem_nil, or_false] at ht
  rcases ht with rfl | rfl
  · exact ⟨by decide, by decide⟩
  · exact ⟨by decide, by decide⟩

/-- One line cut in two: the first half is forgotten, the second is not a command. -/
theorem framed_cut_line :
    CommandText (bytes "AT+SEMO=1") ∧
      [bytes "AT+SE", bytes "MO=1\r\n"].flatten = ([bytes "AT+SEMO=1"].map line).flatten ∧
      ¬ Framed id someDev [bytes "AT+SEMO=1"] [bytes "AT+SE", bytes "MO=1\r\n"] := by
  refine ⟨⟨by decide, by decide⟩, by decide, fun h => ?_⟩
  have hmode := congrArg NbModuConfig.sendMode h.config_eq
  revert hmode
  decide

end GemhoNbiot.ConfigMode
