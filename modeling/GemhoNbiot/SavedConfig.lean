import GemhoNbiot.SaveFaults

/-!
A save that was answered OK and the boots after it. The last attempt has written
the whole record, no command but AT+SAVE and AT+DELO writes the EEPROM, and a boot
reads back the record it finds. The answer is ERROR exactly when each of the three
attempts has met a failing byte write.
-/
namespace GemhoNbiot.SavedConfig

open Memmem Stdio Commands ConfigUtils ConfigMode CommandLines CommandEffects SaveFaults

/-- A read that starts neither with AT+SAVE nor with AT+DELO. -/
def SparesEeprom (r : List UInt8 × List UInt8) : Prop :=
  ¬ ATSAVE <+: r.1 ++ r.2 ∧ ¬ ATDELO <+: r.1 ++ r.2

instance (r : List UInt8 × List UInt8) : Decidable (SparesEeprom r) :=
  inferInstanceAs (Decidable (_ ∧ _))

theorem ghConfigTurn_unwritten (wide : ℤ → ℤ) (r : List UInt8 × List UInt8) (h : SparesEeprom r)
    (d : Dev) : Unwritten d (ghConfigTurn wide r.1 r.2 d) := by
  rcases ghConfigTurn_cases wide r.1 r.2 d with
    ⟨c, hc, text, htext, hbegins, heq⟩ | ⟨reply, _, heq⟩ | heq <;> rw [heq]
  · have hbuf : c.1 <+: r.1 ++ r.2 :=
      (prefix_lineText htext (cr_not_mem_word (mem_words hc))).mp hbegins
    have hsave : c.1 ≠ ATSAVE := fun hword => h.1 (hword ▸ hbuf)
    have hdelo : c.1 ≠ ATDELO := fun hword => h.2 (hword ▸ hbuf)
    exact unwritten_of_other wide c hc hsave hdelo d text
  · exact ⟨rfl, rfl⟩
  · exact ⟨rfl, rfl⟩

theorem ghConfig_eeprom (wide : ℤ → ℤ) (reads : List (List UInt8 × List UInt8))
    (h : ∀ r ∈ reads, SparesEeprom r) (d : Dev) : (ghConfig wide reads d).eeprom = d.eeprom := by
  induction reads generalizing d with
  | nil => rfl
  | cons r reads ih =>
    have hrest := ih (fun t ht => h t (List.mem_cons_of_mem _ ht)) (ghConfigTurn wide r.1 r.2 d)
    rw [ghConfig, List.foldl_cons, ← ghConfig, hrest,
      (ghConfigTurn_unwritten wide r (h r List.mem_cons_self) d).eeprom]

theorem loadConfig_record (config₀ c : NbModuConfig) (mem : ℕ → UInt8)
    (h : recordAt mem = c.record) : loadConfig config₀ mem [] = (0, c) := by
  rw [loadConfig, readConfig_record config₀ c mem h]
  rfl

theorem atsaveCmd_replies (d : Dev) (cmd : List UInt8) :
    (atsaveCmd d cmd).2.replies = d.replies ++ [if d.save.1 = 0 then OKSTR else ERRORSTR] := rfl

theorem atsaveCmd_ok (d : Dev) (cmd : List UInt8) :
    (atsaveCmd d cmd).2.replies = d.replies ++ [OKSTR] ↔ d.save.1 = 0 :=
  saveReply_ok d.replies d.save.1

theorem atsaveCmd_error (d : Dev) (cmd : List UInt8) :
    (atsaveCmd d cmd).2.replies = d.replies ++ [ERRORSTR] ↔ d.save.1 ≠ 0 :=
  saveReply_error d.replies d.save.1

/-- Whatever the EEPROM held and whichever byte writes fail: after an OK every
boot loads the saved configuration until the next AT+SAVE or AT+DELO, and ERROR
means that all three attempts have met a failing write. -/
theorem saved_survives (wide : ℤ → ℤ) (d : Dev) (cmd : List UInt8) :
    ((atsaveCmd d cmd).2.replies = d.replies ++ [OKSTR] →
      ∀ reads : List (List UInt8 × List UInt8), (∀ r ∈ reads, SparesEeprom r) →
        ∀ config₀, loadConfig config₀ (ghConfig wide reads (atsaveCmd d cmd).2).eeprom [] =
          (0, d.config)) ∧
      ((atsaveCmd d cmd).2.replies = d.replies ++ [ERRORSTR] ↔ AllFail 3 d.writeFates) := by
  constructor
  · intro hok reads hreads config₀
    have hrecord := save_record d ((atsaveCmd_ok d cmd).mp hok)
    rw [ghConfig_eeprom wide reads hreads]
    exact loadConfig_record config₀ d.config _ hrecord
  · rw [atsaveCmd_error, save_ret]

/-- A device whose first two save attempts are cut off. -/
def flakyDev : Dev := { someDev with writeFates := [.stored, .timeout true, .notReady] }

/-- The third attempt is complete, and a line changes the configuration in use
before the reboot. -/
theorem saved_survives_third_attempt :
    loadConfig lDefaultNbMCFG
      (ghConfig id [(bytes "AT+WDT=1\r\n", [])] (atsaveCmd flakyDev ATSAVE).2).eeprom [] =
        (0, lDefaultNbMCFG) :=
  (saved_survives id flakyDev ATSAVE).1 (by decide +kernel) _ (by decide +kernel) _

end GemhoNbiot.SavedConfig
