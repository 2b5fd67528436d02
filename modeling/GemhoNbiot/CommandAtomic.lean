import GemhoNbiot.SaveFaults
import GemhoNbiot.QueryRoundTrip

/-!
What a reply tells about the configuration in use. Every handler but one decides
before it stores: an ERROR means that nothing has changed, and an OK to a set form
that only the fields of its setting have. AT+DELO stores the default first and
saves it then, so when all three attempts fail its ERROR comes with a changed
configuration.
-/
namespace GemhoNbiot.CommandAtomic

open Memmem Stdio Commands ConfigUtils ConfigMode CommandLines SetCommands SetCommand
open CommandEffects SaveFaults

/-- ERROR changes nothing, OK to a set form changes the fields of its setting
only, and no line but the set forms and AT+DELO changes anything. -/
structure Atomic (text : List UInt8) (d d' : Dev) : Prop where
  error : d'.replies = d.replies ++ [ERRORSTR] → d'.config = d.config
  set : ∀ k : SetCommand, k.wordEq <+: text → d'.replies = d.replies ++ [OKSTR] →
    ∃ c, d'.config = merge d.config c k
  keeps : (∀ k : SetCommand, ¬ k.wordEq <+: text) → ¬ ATDELO <+: text → d'.config = d.config

/-- The default is stored and then not saved. -/
def RestoreFails (text : List UInt8) (d : Dev) : Prop :=
  ATDELO <+: text ∧ AllFail 3 d.writeFates ∧ d.config ≠ lDefaultNbMCFG

theorem merge_self (c : NbModuConfig) (k : SetCommand) : merge c c k = c := by
  cases k <;> rfl

theorem Atomic.of_config {text : List UInt8} {d d' : Dev} (h : d'.config = d.config) :
    Atomic text d d' where
  error _ := h
  set k _ _ := ⟨d.config, h.trans (merge_self d.config k).symm⟩
  keeps _ _ := h

theorem word_of_wordEq {text : List UInt8} {k : SetCommand} (h : k.wordEq <+: text) :
    k.word <+: text :=
  (word_prefix_wordEq k).trans h

theorem delo_mem_words : ATDELO ∈ words := by simp [words]

/-- A text begins with the word of one setting at most. -/
theorem setting_of_wordEq {text : List UInt8} {k k' : SetCommand} (h : k.word <+: text)
    (h' : k'.wordEq <+: text) : k' = k := by
  have hword := word_unique (word_mem_words k') (word_mem_words k) (word_of_wordEq h') h
  revert hword
  cases k' <;> cases k <;> decide

theorem not_wordEq_of_delo {text : List UInt8} (h : ATDELO <+: text) (k : SetCommand) :
    ¬ k.wordEq <+: text := by
  intro hk
  exact word_ne_delo k (word_unique (word_mem_words k) delo_mem_words (word_of_wordEq hk) h)

theorem respond_atomic (wide : ℤ → ℤ) (k : SetCommand) (text : List UInt8) (d : Dev)
    (hword : k.word <+: text) : Atomic text d (respond wide k d text) := by
  rcases respond_cases wide d text k with heq | ⟨_, heq⟩ | ⟨hset, c, haccept, heq⟩
  · rw [heq]
    exact .of_config rfl
  · rw [heq]
    exact .of_config rfl
  · have hbegins : k.wordEq <+: text := hset ▸ List.take_prefix _ text
    rw [heq]
    refine ⟨?_, ?_, fun hnone => absurd hbegins (hnone k)⟩
    · intro herror
      have hlast : [OKSTR] = [ERRORSTR] := List.append_cancel_left herror
      exact absurd (List.cons.inj hlast).1 OKSTR_ne_ERRORSTR
    · intro k' hk' _
      obtain rfl := setting_of_wordEq hword hk'
      exact ⟨c, (accept_merge wide d.config c _ k' haccept).symm⟩

theorem atdeloCmd_replies (d : Dev) (cmd : List UInt8) :
    (atdeloCmd d cmd).2.replies = d.replies ++
      [if ({ d with config := lDefaultNbMCFG } : Dev).save.1 = 0 then OKSTR else ERRORSTR] := rfl

theorem atdeloCmd_config (d : Dev) (cmd : List UInt8) :
    (atdeloCmd d cmd).2.config = lDefaultNbMCFG := rfl

theorem atdeloCmd_error (d : Dev) (cmd : List UInt8) :
    (atdeloCmd d cmd).2.replies = d.replies ++ [ERRORSTR] ↔ AllFail 3 d.writeFates := by
  rw [atdeloCmd_replies, saveReply_error]
  exact save_ret { d with config := lDefaultNbMCFG }

theorem atdeloCmd_atomic_iff (text : List UInt8) (d : Dev) (h : ATDELO <+: text) :
    Atomic text d (atdeloCmd d text).2 ↔ ¬ RestoreFails text d := by
  constructor
  · intro hatomic hfails
    have hconfig := hatomic.error ((atdeloCmd_error d text).mpr hfails.2.1)
    exact hfails.2.2 (hconfig.symm.trans (atdeloCmd_config d text))
  · intro hok
    refine ⟨?_, fun k hk => absurd hk (not_wordEq_of_delo h k), fun _ hdelo => absurd h hdelo⟩
    intro herror
    by_contra hconfig
    refine hok ⟨h, (atdeloCmd_error d text).mp herror, fun hdefault => hconfig ?_⟩
    rw [atdeloCmd_config, hdefault]

/-- The handlers other than ATDELO_cmd. -/
theorem handler_atomic (wide : ℤ → ℤ) (word : List UInt8) (fn : Dev → List UInt8 → ℤ × Dev)
    (hkind : Kind wide word fn) (hdelo : word ≠ ATDELO) (text : List UInt8) (d : Dev)
    (hword : word <+: text) : Atomic text d (fn d text).2 := by
  cases hkind with
  | passThrough _ line size _ _ => exact .of_config (keeps_passThrough d text word line size).config
  | version => exact .of_config (keeps_atverCmd d text).config
  | imeibd => exact .of_config (keeps_atimeibdCmd d text).config
  | setting k =>
    rw [handler_eq]
    exact respond_atomic wide k text d hword
  | save => exact .of_config rfl
  | restore => exact absurd rfl hdelo

/-- A line is atomic on the configuration unless it is an AT+DELO whose three
attempts all fail on a device that did not have the default. -/
theorem turn_atomic_iff (wide : ℤ → ℤ) (user rs485 text : List UInt8) (d : Dev)
    (htext : lineText (user ++ rs485) = some text) :
    Atomic text d (ghConfigTurn wide user rs485 d) ↔ ¬ RestoreFails text d := by
  by_cases hdelo : ATDELO <+: text
  · have hmem : (ATDELO, atdeloCmd) ∈ cmdExe wide := by simp [cmdExe]
    rw [ghConfigTurn_word wide user rs485 text htext _ hmem hdelo d]
    exact atdeloCmd_atomic_iff text d hdelo
  · refine iff_of_true ?_ fun hfails => hdelo hfails.1
    rcases entry_or_unknown wide text with ⟨c, hc, hbegins⟩ | hunknown
    · rw [ghConfigTurn_word wide user rs485 text htext c hc hbegins d]
      exact handler_atomic wide c.1 c.2 (cmdExe_kind wide c hc)
        (fun heq => hdelo (heq ▸ hbegins)) text d hbegins
    · rw [ghConfigTurn_unknown wide user rs485 text htext hunknown d]
      exact .of_config rfl

/-- A device with a configuration of its own and an EEPROM that is not ready. -/
def deafDev : Dev :=
  { QueryRoundTrip.otherDev with writeFates := [.notReady, .notReady, .notReady] }

theorem turn_atomic_set : Atomic (bytes "AT+IPPORT=1.2.3.4,80") deafDev
    (ghConfigTurn id (bytes "AT+IPPORT=1.2.3.4,80\r\n") [] deafDev) :=
  (turn_atomic_iff id _ _ _ _ (by decide +kernel)).mpr fun h => absurd h.1 (by decide)

/-- AT+DELO answers ERROR and leaves the default behind. -/
theorem delo_not_atomic : lineText (ATDELO ++ ENDFLAG) = some ATDELO ∧
    ¬ Atomic ATDELO deafDev (ghConfigTurn id (ATDELO ++ ENDFLAG) [] deafDev) := by
  refine ⟨by decide +kernel, ?_⟩
  intro h
  have hconfig := h.error (by decide +kernel)
  revert hconfig
  decide +kernel

end GemhoNbiot.CommandAtomic
