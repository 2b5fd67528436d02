import GemhoNbiot.CommandAtomic
import GemhoNbiot.SavedConfig

/-!
The lines the parser takes, against the grammar of the command set. Dispatch is
by prefix and each handler looks at the rest of the line in its own way, so what
is accepted beyond the grammar is this: a command word with a zero byte behind it,
a set form whose payload begins with the numbers of its format (white space and a
sign in front of each, anything behind the last digit), and any line that begins
with AT+SAVE or AT+DELO. The last two handlers do not look at the line at all.
-/
namespace GemhoNbiot.CommandGrammar

open Memmem Stdio Commands ConfigUtils ConfigMode CommandLines ScanPrint SetCommands SetCommand
open CommandEffects SaveFaults CommandAtomic

/-- A command word alone, or a set prefix with the numbers and separators of its
format. -/
def Grammar (text : List UInt8) : Prop :=
  text ∈ words ∨ ∃ (k : SetCommand) (ss : List (List UInt8)),
    text = k.wordEq ++ joinWith k.seps ss ∧ ss.length = k.seps.length + 1 ∧
      ∀ s ∈ ss, DigitString s

/-- The line is turned down and nothing has happened. -/
structure Rejected (d d' : Dev) : Prop where
  reply : d'.replies = d.replies ++ [ERRORSTR] ∨ d'.replies = d.replies ++ [UDCMD]
  sent : d'.sent = d.sent
  config : d'.config = d.config
  unwritten : Unwritten d d'

/-- Lines outside the grammar are turned down, and for no line but the exact
AT+SAVE and AT+DELO the EEPROM takes a byte. -/
structure Strict (text : List UInt8) (d d' : Dev) : Prop where
  reject : ¬ Grammar text → Rejected d d'
  eeprom : text ≠ ATSAVE → text ≠ ATDELO → Unwritten d d'

/-- The integers a set form takes: those of the documented ranges, and for RS232
all that narrow to such integers. -/
def Admits : SetCommand → List ℤ → Prop
  | rs232, [b, s, p] => b % 4294967296 ∈ [4800, 9600, 57600, 115200] ∧ s % 256 ∈ [1, 2] ∧
      p % 256 ∈ [0, 1, 2]
  | rs232, _ => False
  | k, zs => InRange k zs

/-- What a handler takes, in the grammar or not. -/
inductive Taken (wide : ℤ → ℤ) (text : List UInt8) (d : Dev) : Prop
  | word (w : List UInt8) (hw : w ∈ words) (hsave : w ≠ ATSAVE) (hdelo : w ≠ ATDELO)
      (htext : cstr text = w) (himeibd : w = ATIMEIBD → text.length ≤ 63)
  | set (k : SetCommand) (payload : List UInt8) (zs : List ℤ) (htext : text = k.wordEq ++ payload)
      (hconverts : Converts k.seps payload zs) (hadmits : Admits k (zs.map (toInt wide)))
  | save (hbegins : ATSAVE <+: text) (heffect : ¬ Deaf 3 d.writeFates)
  | restore (hbegins : ATDELO <+: text)
      (heffect : ¬ (d.config = lDefaultNbMCFG ∧ Deaf 3 d.writeFates))

section Payloads

variable (wide : ℤ → ℤ) (c : NbModuConfig) (payload : List UInt8)

theorem checkConfigRS232_ne_none_iff (b s p : ℤ)
    (hscan : scanf (bytes ",,") (cstr payload) = [b, s, p]) :
    checkConfigRS232 wide payload ≠ none ↔
      Admits rs232 [toInt wide b, toInt wide s, toInt wide p] := by
  have hbaud (x : UInt32) : UInt32.ofInt (toInt wide b) = x ↔
      toInt wide b % 4294967296 = x.toNat := by
    have hz := toNat_ofInt32 (toInt wide b)
    rw [← UInt32.toNat_inj]
    omega
  unfold checkConfigRS232 Admits
  simp only [hscan, Ne, narrow_eq, hbaud, List.mem_cons, List.not_mem_nil, or_false,
    UInt32.reduceToNat, UInt8.reduceToNat, Nat.cast_ofNat, Nat.cast_one, Nat.cast_zero]
  split_ifs with h1 h2 h3
  · exact iff_of_false (by simp) (by omega)
  · exact iff_of_false (by simp) (by omega)
  · exact iff_of_false (by simp) (by omega)
  · exact iff_of_true (by simp) (by omega)

theorem checkConfigIPORT_ne_none_iff (a b e f p : ℤ)
    (hscan : scanf (bytes "...,") (cstr payload) = [a, b, e, f, p]) :
    checkConfigIPORT wide payload ≠ none ↔
      InRange ipport ([a, b, e, f, p].map (toInt wide)) := by
  obtain ⟨hsome, hnone⟩ := checkConfigIPORT_ints wide payload a b e f p _ _ _ _ _ hscan rfl
  by_cases hrange : InRange ipport ([a, b, e, f, p].map (toInt wide))
  · refine iff_of_true ?_ hrange
    rw [hsome hrange]
    exact Option.some_ne_none _
  · exact iff_of_false (fun h => h (hnone hrange)) hrange

theorem number_ne_none_iff (lo hi z : ℤ) (hscan : scanf [] (cstr payload) = [z]) :
    number wide lo hi payload ≠ none ↔ lo ≤ toInt wide z ∧ toInt wide z ≤ hi := by
  unfold number
  simp only [hscan]
  split_ifs with hrange
  · exact iff_of_false (fun h => h rfl) (by omega)
  · exact iff_of_true (Option.some_ne_none _) (by omega)

/-- The handler's verdict on the numbers that sscanf has converted. -/
theorem accept_ne_none_of_scan (k : SetCommand) (zs : List ℤ)
    (hscan : scanf k.seps (cstr payload) = zs) (hlen : zs.length = k.seps.length + 1) :
    accept wide c payload k ≠ none ↔ Admits k (zs.map (toInt wide)) := by
  cases k with
  | rs232 =>
    obtain ⟨b, s, p, rfl⟩ := List.length_eq_three.mp hlen
    rw [accept, Ne, Option.map_eq_none_iff]
    exact checkConfigRS232_ne_none_iff wide payload b s p hscan
  | ipport =>
    obtain ⟨a, b, e, f, p, rfl⟩ := eq_of_length_five hlen
    rw [accept, Ne, Option.map_eq_none_iff]
    exact checkConfigIPORT_ne_none_iff wide payload a b e f p hscan
  | msgs | semo | wdt =>
    obtain ⟨z, rfl⟩ := List.length_eq_one_iff.mp hlen
    rw [accept, Ne, Option.map_eq_none_iff]
    exact number_ne_none_iff wide payload _ _ z hscan

/-- A set form takes the payloads that begin with numbers it admits. -/
theorem accept_ne_none_iff (k : SetCommand) :
    accept wide c payload k ≠ none ↔
      ∃ zs, Converts k.seps payload zs ∧ Admits k (zs.map (toInt wide)) := by
  have hdigit := QueryRoundTrip.seps_not_digit k
  have hzero : 0 ∉ k.seps :=
    not_mem_of_printable _ (QueryRoundTrip.seps_printable k) 0 (by decide)
  have hconverts (zs : List ℤ) (hlen : zs.length = k.seps.length + 1) :
      scanf k.seps (cstr payload) = zs ↔ Converts k.seps payload zs := by
    rw [scanf_eq_iff k.seps _ zs hdigit hlen, converts_cstr_iff k.seps payload zs hzero]
  constructor
  · intro haccept
    have hlen : (scanf k.seps (cstr payload)).length = k.seps.length + 1 := by
      by_contra hlen
      exact haccept (accept_none_of_length wide c payload k hlen)
    exact ⟨_, (hconverts _ hlen).mp rfl,
      (accept_ne_none_of_scan wide c payload k _ rfl hlen).mp haccept⟩
  · rintro ⟨zs, htext, hadmits⟩
    obtain ⟨ss, _, _, hss, hlen, _⟩ := id htext
    have hzs : zs.length = k.seps.length + 1 := by rw [← hss.length_eq, hlen]
    exact (accept_ne_none_of_scan wide c payload k zs ((hconverts zs hzs).mpr htext) hzs).mpr
      hadmits

end Payloads

section Replies

variable (d : Dev)

theorem rejected_error : Rejected d (d.ucallWrite ERRORSTR) :=
  ⟨Or.inl rfl, rfl, rfl, rfl, rfl⟩

theorem rejected_unknown : Rejected d (d.ucallWrite UDCMD) :=
  ⟨Or.inr rfl, rfl, rfl, rfl, rfl⟩

/-- An answer that begins with a plus sign is neither ERROR nor UNDEFINED CMD. -/
theorem not_rejected_plus (r : List UInt8) (hplus : r.head? = some 43) :
    ¬ Rejected d (d.ucallWrite r) := by
  intro h
  rcases h.reply with hreply | hreply
  · have hr : [r] = [ERRORSTR] := List.append_cancel_left hreply
    rw [(List.cons.inj hr).1] at hplus
    exact absurd hplus (by decide)
  · have hr : [r] = [UDCMD] := List.append_cancel_left hreply
    rw [(List.cons.inj hr).1] at hplus
    exact absurd hplus (by decide)

theorem not_rejected_ok (d' : Dev) (h : d'.replies = d.replies ++ [OKSTR]) : ¬ Rejected d d' := by
  intro hrejected
  rcases hrejected.reply with hreply | hreply <;> rw [h] at hreply
  · exact OKSTR_ne_ERRORSTR (List.cons.inj (List.append_cancel_left hreply)).1
  · exact absurd (List.cons.inj (List.append_cancel_left hreply)).1 (by decide)

end Replies

theorem cstr_begins (text : List UInt8) : cstr text <+: text := List.takeWhile_prefix _

section Taken

variable {wide : ℤ → ℤ} {text : List UInt8} {d : Dev}

/-- A line that is taken begins with a command word. -/
theorem Taken.exists_word (h : Taken wide text d) : ∃ w ∈ words, w <+: text := by
  cases h with
  | word w hw _ _ htext _ => exact ⟨w, hw, htext ▸ cstr_begins text⟩
  | set k payload _ htext _ _ =>
    exact ⟨k.word, word_mem_words k, word_of_wordEq (htext ▸ List.prefix_append _ payload)⟩
  | save hbegins _ => exact ⟨ATSAVE, by simp [words], hbegins⟩
  | restore hbegins _ => exact ⟨ATDELO, delo_mem_words, hbegins⟩

theorem save_mem_words : ATSAVE ∈ words := by simp [words]

/-- The one way in which a line behind a given word can be taken. -/
theorem Taken.of_word (h : Taken wide text d) {w : List UInt8} (hw : w ∈ words)
    (hbegins : w <+: text) :
    (w ≠ ATSAVE ∧ w ≠ ATDELO ∧ cstr text = w ∧ (w = ATIMEIBD → text.length ≤ 63)) ∨
    (∃ k : SetCommand, k.word = w ∧ k.wordEq <+: text ∧
      accept wide d.config (text.drop k.wordEq.length) k ≠ none) ∨
    (w = ATSAVE ∧ ¬ Deaf 3 d.writeFates) ∨
    (w = ATDELO ∧ ¬ (d.config = lDefaultNbMCFG ∧ Deaf 3 d.writeFates)) := by
  cases h with
  | word w' hw' hsave hdelo htext himeibd =>
    obtain rfl := word_unique hw hw' hbegins (htext ▸ cstr_begins text)
    exact Or.inl ⟨hsave, hdelo, htext, himeibd⟩
  | set k payload zs htext hconverts hadmits =>
    have hset : k.wordEq <+: text := htext ▸ List.prefix_append _ payload
    obtain rfl := word_unique hw (word_mem_words k) hbegins (word_of_wordEq hset)
    refine Or.inr (Or.inl ⟨k, rfl, hset, ?_⟩)
    rw [htext, List.drop_left]
    exact (accept_ne_none_iff wide d.config payload k).mpr ⟨zs, hconverts, hadmits⟩
  | save hsave heffect =>
    obtain rfl := word_unique hw save_mem_words hbegins hsave
    exact Or.inr (Or.inr (Or.inl ⟨rfl, heffect⟩))
  | restore hdelo heffect =>
    obtain rfl := word_unique hw delo_mem_words hbegins hdelo
    exact Or.inr (Or.inr (Or.inr ⟨rfl, heffect⟩))

/-- A query word without a set form is taken only as it is, up to a zero byte. -/
theorem taken_query_iff {w : List UInt8} (hw : w ∈ words) (hbegins : w <+: text)
    (hset : ∀ k : SetCommand, k.word ≠ w) (hsave : w ≠ ATSAVE) (hdelo : w ≠ ATDELO) :
    Taken wide text d ↔ cstr text = w ∧ (w = ATIMEIBD → text.length ≤ 63) := by
  constructor
  · intro h
    rcases h.of_word hw hbegins with h | ⟨k, hk, _⟩ | ⟨heq, _⟩ | ⟨heq, _⟩
    · exact h.2.2
    · exact absurd hk (hset k)
    · exact absurd heq hsave
    · exact absurd heq hdelo
  · intro h
    exact .word w hw hsave hdelo h.1 h.2

/-- Behind the word of a setting there is nothing or its set form. -/
theorem taken_setting_iff (k : SetCommand) (hbegins : k.word <+: text) :
    Taken wide text d ↔ cstr text = k.word ∨ (k.wordEq <+: text ∧
      accept wide d.config (text.drop k.wordEq.length) k ≠ none) := by
  constructor
  · intro h
    rcases h.of_word (word_mem_words k) hbegins with h | ⟨k', _, h⟩ | ⟨heq, _⟩ | ⟨heq, _⟩
    · exact Or.inl h.2.2.1
    · obtain rfl := setting_of_wordEq hbegins h.1
      exact Or.inr h
    · exact absurd heq (word_ne_save k)
    · exact absurd heq (word_ne_delo k)
  · intro h
    rcases h with hzero | ⟨hset, haccept⟩
    · exact .word k.word (word_mem_words k) (word_ne_save k) (word_ne_delo k) hzero
        fun heq => absurd heq (word_ne_imeibd k)
    · obtain ⟨payload, rfl⟩ := hset
      rw [List.drop_left] at haccept
      obtain ⟨zs, hconverts, hadmits⟩ := (accept_ne_none_iff wide d.config payload k).mp haccept
      exact .set k payload zs rfl hconverts hadmits

theorem taken_save_iff (hbegins : ATSAVE <+: text) :
    Taken wide text d ↔ ¬ Deaf 3 d.writeFates := by
  constructor
  · intro h
    rcases h.of_word save_mem_words hbegins with hne | ⟨k, hk, _⟩ | ⟨_, hnot⟩ | ⟨heq, _⟩
    · exact absurd rfl hne.1
    · exact absurd hk (word_ne_save k)
    · exact hnot
    · exact absurd heq (by decide)
  · exact Taken.save hbegins

theorem taken_delo_iff (hbegins : ATDELO <+: text) :
    Taken wide text d ↔ ¬ (d.config = lDefaultNbMCFG ∧ Deaf 3 d.writeFates) := by
  constructor
  · intro h
    rcases h.of_word delo_mem_words hbegins with hne | ⟨k, hk, _⟩ | ⟨heq, _⟩ | ⟨_, hnot⟩
    · exact absurd rfl hne.2.1
    · exact absurd hk (word_ne_delo k)
    · exact absurd heq (by decide)
    · exact hnot
  · exact Taken.restore hbegins

end Taken

section Handlers

variable (wide : ℤ → ℤ) (text : List UInt8) (d : Dev)

theorem atsaveCmd_rejected_iff (hbegins : ATSAVE <+: text) :
    Rejected d (atsaveCmd d text).2 ↔ ¬ Taken wide text d := by
  rw [taken_save_iff hbegins, not_not]
  constructor
  · intro h
    exact (save_unwritten d).mp ⟨h.unwritten.eeprom, h.unwritten.stored⟩
  · intro hdeaf
    have hunwritten := (save_unwritten d).mpr hdeaf
    refine ⟨Or.inl ?_, rfl, rfl, hunwritten.eeprom, hunwritten.stored⟩
    exact (SavedConfig.atsaveCmd_error d text).mpr (save_deaf d hdeaf)

theorem atdeloCmd_rejected_iff (hbegins : ATDELO <+: text) :
    Rejected d (atdeloCmd d text).2 ↔ ¬ Taken wide text d := by
  rw [taken_delo_iff hbegins, not_not]
  have hiff := save_unwritten { d with config := lDefaultNbMCFG }
  constructor
  · intro h
    exact ⟨h.config.symm, hiff.mp ⟨h.unwritten.eeprom, h.unwritten.stored⟩⟩
  · rintro ⟨hconfig, hdeaf⟩
    have hunwritten := hiff.mpr hdeaf
    refine ⟨Or.inl ?_, rfl, hconfig.symm, hunwritten.eeprom, hunwritten.stored⟩
    rw [atdeloCmd_replies, if_neg (save_deaf { d with config := lDefaultNbMCFG } hdeaf)]

/-- A word that is sent on is never turned down. -/
theorem passThrough_rejected_iff (word line : List UInt8) (size : ℕ)
    (hword : word ∈ [ATCIMI, ATCSQ, ATNUESTATS, ATCGATT]) (hsize : size - 1 ≥ 127)
    (hbegins : word <+: text) (hlen : text.length ≤ 126) :
    Rejected d (passThrough word line size d text).2 ↔ ¬ Taken wide text d := by
  have hother : word ∈ words ∧ word ≠ ATSAVE ∧ word ≠ ATDELO ∧ word ≠ ATIMEIBD ∧
      ∀ k : SetCommand, k.word ≠ word := by
    simp only [List.mem_cons, List.not_mem_nil, or_false] at hword
    rcases hword with rfl | rfl | rfl | rfl <;>
      refine ⟨by simp [words], by decide, by decide, by decide, fun k => by cases k <;> decide⟩
  obtain ⟨hmem, hsave, hdelo, himeibd, hset⟩ := hother
  rw [taken_query_iff hmem hbegins hset hsave hdelo]
  unfold passThrough
  rw [if_neg (by omega)]
  by_cases hzero : cstr text = word
  · rw [if_pos hzero]
    refine iff_of_false ?_ fun hnot => hnot ⟨hzero, fun heq => absurd heq himeibd⟩
    intro h
    have hsent := congrArg List.length h.sent
    simp [Dev.ucallWrite, Dev.bc95Read, Dev.bc95Write] at hsent
  · rw [if_neg hzero]
    exact iff_of_true (rejected_error d) fun h => hzero h.1

theorem atverCmd_rejected_iff (hbegins : ATVER <+: text) (hlen : text.length ≤ 126) :
    Rejected d (atverCmd d text).2 ↔ ¬ Taken wide text d := by
  have hmem : ATVER ∈ words := by simp [words]
  have himeibd : ATVER ≠ ATIMEIBD := by decide
  rw [taken_query_iff hmem hbegins (fun k => by cases k <;> decide) (by decide) (by decide)]
  unfold atverCmd
  rw [if_neg (by omega)]
  by_cases hzero : cstr text = ATVER
  · rw [if_pos hzero]
    exact iff_of_false (not_rejected_plus d _ rfl)
      fun hnot => hnot ⟨hzero, fun heq => absurd heq himeibd⟩
  · rw [if_neg hzero]
    exact iff_of_true (rejected_error d) fun h => hzero h.1

theorem atimeibdCmd_rejected_iff (hbegins : ATIMEIBD <+: text) :
    Rejected d (atimeibdCmd d text).2 ↔ ¬ Taken wide text d := by
  have hmem : ATIMEIBD ∈ words := by simp [words]
  rw [taken_query_iff hmem hbegins word_ne_imeibd (by decide) (by decide)]
  unfold atimeibdCmd
  by_cases hlen : text.length > 64 - 1
  · rw [if_pos hlen]
    refine iff_of_true (rejected_error d) fun h => ?_
    have hshort := h.2 rfl
    omega
  · rw [if_neg hlen]
    by_cases hzero : cstr text = ATIMEIBD
    · rw [if_pos hzero]
      exact iff_of_false (not_rejected_plus d _ rfl) fun hnot => hnot ⟨hzero, fun _ => by omega⟩
    · rw [if_neg hzero]
      exact iff_of_true (rejected_error d) fun h => hzero h.1

theorem respond_rejected_iff (k : SetCommand) (hbegins : k.word <+: text)
    (hlen : text.length ≤ 126) : Rejected d (respond wide k d text) ↔ ¬ Taken wide text d := by
  have hlong : ¬ text.length > 128 - 1 := by omega
  rw [taken_setting_iff k hbegins, not_or]
  by_cases hzero : cstr text = k.word
  · rw [respond_query wide k d text hlong hzero]
    exact iff_of_false (not_rejected_plus d _ (by cases k <;> rfl)) fun hnot => hnot.1 hzero
  · by_cases heq : text.take k.wordEq.length = k.wordEq
    · have hset : k.wordEq <+: text := heq ▸ List.take_prefix _ text
      rw [respond_set wide k d text hlong hzero heq]
      cases haccept : accept wide d.config (text.drop k.wordEq.length) k with
      | none =>
        rw [applySet_of_none haccept]
        exact iff_of_true (rejected_error d) ⟨hzero, fun h => h.2 rfl⟩
      | some c =>
        rw [applySet_of_some haccept]
        exact iff_of_false (not_rejected_ok d _ rfl)
          fun hnot => hnot.2 ⟨hset, Option.some_ne_none c⟩
    · rw [respond_other wide k d text hlong hzero heq]
      refine iff_of_true (rejected_error d) ⟨hzero, fun h => ?_⟩
      exact heq (List.prefix_iff_eq_take.mp h.1).symm

/-- Every handler turns down exactly the lines that are not taken. -/
theorem handler_rejected_iff (word : List UInt8) (fn : Dev → List UInt8 → ℤ × Dev)
    (hkind : Kind wide word fn) (hbegins : word <+: text) (hlen : text.length ≤ 126) :
    Rejected d (fn d text).2 ↔ ¬ Taken wide text d := by
  cases hkind with
  | passThrough _ line size hword hsize =>
    exact passThrough_rejected_iff wide text d word line size hword hsize hbegins hlen
  | version => exact atverCmd_rejected_iff wide text d hbegins hlen
  | imeibd => exact atimeibdCmd_rejected_iff wide text d hbegins
  | setting k =>
    rw [handler_eq]
    exact respond_rejected_iff wide text d k hbegins hlen
  | save => exact atsaveCmd_rejected_iff wide text d hbegins
  | restore => exact atdeloCmd_rejected_iff wide text d hbegins

end Handlers

theorem turn_rejected_iff (wide : ℤ → ℤ) (user rs485 text : List UInt8) (d : Dev)
    (hlen : (user ++ rs485).length ≤ bufSize) (htext : lineText (user ++ rs485) = some text) :
    Rejected d (ghConfigTurn wide user rs485 d) ↔ ¬ Taken wide text d := by
  rcases entry_or_unknown wide text with ⟨c, hc, hbegins⟩ | hunknown
  · have hshort := lineText_length htext
    rw [ghConfigTurn_word wide user rs485 text htext c hc hbegins d]
    exact handler_rejected_iff wide text d c.1 c.2 (cmdExe_kind wide c hc) hbegins
      (by rw [bufSize] at hlen; omega)
  · rw [ghConfigTurn_unknown wide user rs485 text htext hunknown d]
    refine iff_of_true (rejected_unknown d) ?_
    intro htaken
    obtain ⟨w, hw, hbegins⟩ := htaken.exists_word
    exact hunknown w hw hbegins

/-- In the grammar AT+SAVE and AT+DELO have nothing behind them. -/
theorem grammar_eeprom_word {text w : List UInt8} (h : Grammar text) (hw : w ∈ [ATSAVE, ATDELO])
    (hbegins : w <+: text) : text = w := by
  have hmem : w ∈ words := by
    simp only [List.mem_cons, List.not_mem_nil, or_false] at hw
    rcases hw with rfl | rfl <;> simp [words]
  rcases h with htext | ⟨k, ss, rfl, _, _⟩
  · exact (word_unique hmem htext hbegins (List.prefix_refl text)).symm
  · have hk := word_unique hmem (word_mem_words k) hbegins
      (word_of_wordEq (List.prefix_append _ _))
    simp only [List.mem_cons, List.not_mem_nil, or_false] at hw
    rcases hw with rfl | rfl
    · exact absurd hk.symm (word_ne_save k)
    · exact absurd hk.symm (word_ne_delo k)

/-- A read is handled strictly by the grammar unless its line lies outside the
grammar and is taken all the same. -/
theorem turn_strict_iff (wide : ℤ → ℤ) (user rs485 text : List UInt8) (d : Dev)
    (hlen : (user ++ rs485).length ≤ bufSize) (htext : lineText (user ++ rs485) = some text) :
    Strict text d (ghConfigTurn wide user rs485 d) ↔ (Grammar text ∨ ¬ Taken wide text d) := by
  have hiff := turn_rejected_iff wide user rs485 text d hlen htext
  constructor
  · intro h
    by_cases hgrammar : Grammar text
    · exact Or.inl hgrammar
    · exact Or.inr (hiff.mp (h.reject hgrammar))
  · intro h
    rcases h with hgrammar | htaken
    · refine ⟨fun hnot => absurd hgrammar hnot, fun hsave hdelo => ?_⟩
      apply SavedConfig.ghConfigTurn_unwritten wide (user, rs485)
      have hspare (w : List UInt8) (hw : w ∈ [ATSAVE, ATDELO]) (hne : text ≠ w) :
          ¬ w <+: user ++ rs485 := by
        intro hbuf
        have hcr : 13 ∉ w := by
          simp only [List.mem_cons, List.not_mem_nil, or_false] at hw
          rcases hw with rfl | rfl <;> decide
        exact hne (grammar_eeprom_word hgrammar hw ((prefix_lineText htext hcr).mpr hbuf))
      exact ⟨hspare ATSAVE (by simp) hsave, hspare ATDELO (by simp) hdelo⟩
    · have hrejected := hiff.mpr htaken
      exact ⟨fun _ => hrejected, fun _ _ => hrejected.unwritten⟩

/-- A word cut short is unknown. -/
theorem turn_strict_unknown : Strict (bytes "AT+SAV") someDev
    (ghConfigTurn id (bytes "AT+SAV\r\n") [] someDev) := by
  have hnone : (words.any fun w => decide (w <+: bytes "AT+SAV")) = false := by decide +kernel
  refine (turn_strict_iff id _ _ _ _ (by decide +kernel) (by decide +kernel)).mpr (Or.inr ?_)
  intro htaken
  obtain ⟨w, hw, hbegins⟩ := htaken.exists_word
  exact List.any_eq_false.mp hnone w hw (decide_eq_true hbegins)

/-- The line AT+SAVEX saves. -/
theorem savex_not_strict : lineText (bytes "AT+SAVEX\r\n") = some (bytes "AT+SAVEX") ∧
    ¬ Grammar (bytes "AT+SAVEX") ∧
    ¬ Strict (bytes "AT+SAVEX") someDev (ghConfigTurn id (bytes "AT+SAVEX\r\n") [] someDev) := by
  have hbegins : ATSAVE <+: bytes "AT+SAVEX" := by decide +kernel
  have hne : bytes "AT+SAVEX" ≠ ATSAVE := by decide +kernel
  refine ⟨by decide +kernel, ?_, ?_⟩
  · intro h
    exact hne (grammar_eeprom_word h (by simp) hbegins)
  · intro h
    have hstored := (h.eeprom hne (by decide +kernel)).stored
    revert hstored
    decide +kernel

end GemhoNbiot.CommandGrammar
