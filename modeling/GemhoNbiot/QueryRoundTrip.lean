import GemhoNbiot.SetCommands

/-!
Query and set form of one setting. What the query form prints behind the colon
is the setting's values in decimal, joined by the separators of the set form's
sscanf. The set form therefore converts these very integers, finds them in range
and stores them, and the other fields of the device it is sent to stay.
-/
namespace GemhoNbiot.QueryRoundTrip

open Memmem Stdio Commands ConfigUtils ConfigMode CommandLines ScanPrint SetCommands SetCommand

/-- The text of a reply between its first colon and the CR LF behind it. -/
def printed (reply : List UInt8) : Option (List UInt8) :=
  lineText ((reply.dropWhile (· ≠ 58)).drop 1)

/-- The decimal texts of the fields of a setting. -/
def fields (c : NbModuConfig) (k : SetCommand) : List (List UInt8) :=
  (values c k).map fun z => decimal z.toNat

theorem printD32_eq (x : UInt32) (h : x.toNat < 2147483648) : printD32 x = decimal x.toNat := by
  have hint : x.toBitVec.toInt = x.toNat := BitVec.toInt_eq_toNat_of_lt (by
    rw [UInt32.toNat_toBitVec]
    omega)
  rw [printD32, hint, printD, if_neg (by omega), Int.toNat_natCast]

theorem valid_baudrate_lt (c : NbModuConfig) (h : c.Valid) : c.baudrate.toNat < 1000000 := by
  have hb := h.1
  simp only [List.mem_cons, List.not_mem_nil, or_false] at hb
  rcases hb with hb | hb | hb | hb <;> rw [hb] <;> decide

theorem ip_four (c : NbModuConfig) : ∃ x y z w, c.ip = #v[x, y, z, w] :=
  ⟨_, _, _, _, vector_four c.ip⟩

/-- The query prints the fields with the separators of the set form. -/
theorem print_eq_joinWith (c : NbModuConfig) (h : c.Valid) (k : SetCommand) :
    print c k = joinWith k.seps (fields c k) := by
  cases k with
  | rs232 =>
    have hbaud := valid_baudrate_lt c h
    rw [print, printD32_eq _ (by omega)]
    show _ = joinWith [44, 44] [_, _, _]
    simp [joinWith, bytes]
  | ipport =>
    obtain ⟨x, y, z, w, hip⟩ := ip_four c
    simp only [print, printIp, fields, values, hip]
    show _ = joinWith [46, 46, 46, 44] [decimal x.toNat, decimal y.toNat, decimal z.toNat,
      decimal w.toNat, decimal c.port.toNat]
    simp [joinWith, bytes, Vector.get]
  | _ => rfl

theorem byte_lt (x : UInt8) : x.toNat < 256 := x.toNat_lt

/-- The fields of a valid configuration are what its set forms accept. -/
theorem inRange_values (c : NbModuConfig) (h : c.Valid) (k : SetCommand) :
    InRange k (values c k) := by
  obtain ⟨hbaud, hstop, hparity, hmode, hwdt, hsave⟩ := h
  simp only [List.mem_cons, List.not_mem_nil, or_false] at hbaud hstop hparity hmode hwdt hsave
  cases k with
  | rs232 =>
    refine ⟨?_, ?_, ?_⟩
    · rcases hbaud with hb | hb | hb | hb <;> rw [hb] <;> decide
    · rcases hstop with hs | hs <;> rw [hs] <;> decide
    · rcases hparity with hp | hp | hp <;> rw [hp] <;> decide
  | ipport =>
    obtain ⟨x, y, z, w, hip⟩ := ip_four c
    have hport : c.port.toNat < 65536 := c.port.toNat_lt
    have hx := byte_lt x
    have hy := byte_lt y
    have hz := byte_lt z
    have hw := byte_lt w
    rw [values, hip]
    show InRange ipport [(x.toNat : ℤ), y.toNat, z.toNat, w.toNat, c.port.toNat]
    unfold InRange
    omega
  | msgs =>
    show (1 : ℤ) ≤ c.msgSave.toNat ∧ (c.msgSave.toNat : ℤ) ≤ 5
    rcases hsave with hs | hs | hs | hs | hs <;> rw [hs] <;> decide
  | semo =>
    show (0 : ℤ) ≤ c.sendMode.toNat ∧ (c.sendMode.toNat : ℤ) ≤ 1
    rcases hmode with hm | hm <;> rw [hm] <;> decide
  | wdt =>
    show (0 : ℤ) ≤ c.watchdog.toNat ∧ (c.watchdog.toNat : ℤ) ≤ 1
    rcases hwdt with hw | hw <;> rw [hw] <;> decide

/-- The fields of a valid configuration have at most six digits. -/
theorem values_bound (c : NbModuConfig) (h : c.Valid) (k : SetCommand) :
    ∀ z ∈ values c k, 0 ≤ z ∧ z < 10 ^ 6 := by
  have hbaud := valid_baudrate_lt c h
  have hbyte (x : UInt8) : (0 : ℤ) ≤ x.toNat ∧ (x.toNat : ℤ) < 10 ^ 6 := by
    have hx := x.toNat_lt
    omega
  have hport : c.port.toNat < 65536 := c.port.toNat_lt
  intro z hz
  cases k with
  | rs232 =>
    simp only [values, List.mem_cons, List.not_mem_nil, or_false] at hz
    rcases hz with rfl | rfl | rfl
    · omega
    · exact hbyte _
    · exact hbyte _
  | ipport =>
    rw [values, List.mem_append, List.mem_map, List.mem_singleton] at hz
    rcases hz with ⟨b, _, rfl⟩ | rfl
    · exact hbyte b
    · omega
  | _ => exact List.mem_singleton.mp hz ▸ hbyte _

section Text

variable (c : NbModuConfig) (k : SetCommand)

theorem fields_digitString : ∀ s ∈ fields c k, DigitString s := by
  intro s hs
  obtain ⟨z, _, rfl⟩ := List.mem_map.mp hs
  exact decimal_digitString z.toNat

theorem fields_length : (fields c k).length = k.seps.length + 1 := by
  rw [fields, List.length_map]
  cases k with
  | ipport => simp [values, seps, bytes]
  | _ => rfl

theorem seps_not_digit : ∀ sep ∈ k.seps, isDigit sep = false := by
  have hall : k.seps.all (fun sep => !isDigit sep) = true := by cases k <;> decide
  intro sep hsep
  simpa using List.all_eq_true.mp hall sep hsep

theorem seps_printable : Printable k.seps := by
  cases k <;> decide

/-- The set form converts the printed text to the fields. -/
theorem scanf_print (h : c.Valid) : scanf k.seps (cstr (print c k)) = values c k := by
  have hprintable := printable_joinWith k.seps (fields c k) (seps_printable k)
    (fields_digitString c k)
  rw [print_eq_joinWith c h,
    cstr_eq_self _ (not_mem_of_printable _ hprintable 0 (by decide)),
    scanf_joinWith k.seps (fields c k) (seps_not_digit k) (fields_digitString c k)
      (fields_length c k), fields, List.map_map]
  refine (List.map_congr_left fun z hz => ?_).trans (List.map_id _)
  rw [Function.comp_apply, digitsValue_decimal, Int.toNat_of_nonneg (values_bound c h k z hz).1,
    id_eq]

theorem joinWith_length_le (seps : List UInt8) (ss : List (List UInt8)) (n : ℕ)
    (hss : ∀ s ∈ ss, s.length ≤ n) : (joinWith seps ss).length ≤ ss.length * (n + 1) := by
  induction seps generalizing ss with
  | nil =>
    cases ss with
    | nil => exact Nat.zero_le _
    | cons s ss =>
      have hs := hss s List.mem_cons_self
      rw [joinWith, List.length_cons, Nat.succ_mul]
      omega
  | cons sep seps ih =>
    cases ss with
    | nil => exact Nat.zero_le _
    | cons s ss =>
      have hs := hss s List.mem_cons_self
      have hrest := ih ss fun t ht => hss t (List.mem_cons_of_mem _ ht)
      rw [joinWith, List.length_append, List.length_cons, List.length_cons, Nat.succ_mul]
      omega

theorem print_length (h : c.Valid) : (print c k).length ≤ 35 := by
  have hdigits : ∀ s ∈ fields c k, s.length ≤ 6 := by
    intro s hs
    obtain ⟨z, hz, rfl⟩ := List.mem_map.mp hs
    have hbound := values_bound c h k z hz
    exact decimal_length_le z.toNat 6 (by decide) (by omega)
  have hlen := joinWith_length_le k.seps (fields c k) 6 hdigits
  have hfields : (fields c k).length ≤ 5 := by
    rw [fields_length]
    cases k <;> decide
  rw [print_eq_joinWith c h]
  omega

theorem cr_not_mem_print (h : c.Valid) : 13 ∉ print c k := by
  rw [print_eq_joinWith c h]
  exact not_mem_of_printable _ (printable_joinWith _ _ (seps_printable k)
    (fields_digitString c k)) 13 (by decide)

/-- The text behind the colon of the query's reply. -/
theorem printed_reply (h : c.Valid) :
    printed (k.name ++ print c k ++ ENDFLAG) = some (print c k) := by
  have hcolon : (k.name ++ (print c k ++ ENDFLAG)).dropWhile (· ≠ 58) =
      58 :: (print c k ++ ENDFLAG) := by
    cases k <;> rfl
  rw [printed, List.append_assoc, hcolon, List.drop_one, List.tail_cons]
  exact lineText_line (print c k) (cr_not_mem_print c k h)

end Text

/-- Equal values of a setting are equal fields. -/
theorem merge_congr (b c c' : NbModuConfig) (k : SetCommand) (h : values c k = values c' k) :
    merge b c k = merge b c' k := by
  cases k with
  | rs232 =>
    simp only [values, List.cons.injEq, Nat.cast_inj, UInt32.toNat_inj, UInt8.toNat_inj,
      and_true] at h
    rw [merge, merge, h.1, h.2.1, h.2.2]
  | ipport =>
    obtain ⟨hlist, hport⟩ := List.append_inj' h rfl
    have hip : c.ip = c'.ip := by
      apply Vector.toList_inj.mp
      refine (List.map_inj_right fun x y hxy => ?_).mp hlist
      exact UInt8.toNat_inj.mp (Nat.cast_inj.mp hxy)
    have hport' : c.port = c'.port :=
      UInt16.toNat_inj.mp (Nat.cast_inj.mp (List.singleton_inj.mp hport))
    rw [merge, merge, hip, hport']
  | _ =>
    simp only [values, List.cons.injEq, Nat.cast_inj, UInt8.toNat_inj, and_true] at h
    rw [merge, merge, h]

section Turns

variable (wide : ℤ → ℤ) (k : SetCommand)

/-- The answer to the query form. -/
theorem query_turn (d : Dev) : ghConfigTurn wide (line k.word) [] d =
    d.ucallWrite (k.name ++ print d.config k ++ ENDFLAG) := by
  have hcr : 13 ∉ k.word := cr_not_mem_word (word_mem_words k)
  have htext : lineText (line k.word ++ []) = some k.word := by
    rw [List.append_nil]
    exact lineText_line k.word hcr
  rw [ghConfigTurn_word wide _ [] _ htext _ (mem_cmdExe wide k) (List.prefix_refl _)]
  simp only
  rw [handler_eq, respond_query wide k d _ (by cases k <;> decide) (by cases k <;> decide)]

/-- The printed fields behind the set prefix reach the set form. -/
theorem set_turn (c : NbModuConfig) (h : c.Valid) (d : Dev) :
    ghConfigTurn wide (line (k.wordEq ++ print c k)) [] d = applySet wide k d (print c k) := by
  have hcr : 13 ∉ k.wordEq ++ print c k := by
    rw [List.mem_append, not_or]
    exact ⟨by cases k <;> decide, cr_not_mem_print c k h⟩
  have htext : lineText (line (k.wordEq ++ print c k) ++ []) = some (k.wordEq ++ print c k) := by
    rw [List.append_nil]
    exact lineText_line _ hcr
  have hlen : (line (k.wordEq ++ print c k) ++ []).length ≤ bufSize := by
    have hprint := print_length c k h
    have hword : k.wordEq.length ≤ 10 := by cases k <;> decide
    have hend : ENDFLAG.length = 2 := by decide
    rw [List.append_nil, line, List.length_append, List.length_append, bufSize]
    omega
  exact ghConfigTurn_set wide k _ [] _ hlen htext d

/-- The set form takes the printed fields for what they are. -/
theorem accept_print (c c' : NbModuConfig) (h : c.Valid) :
    accept wide c' (print c k) k = some (merge c' c k) := by
  have hint : ∀ z ∈ values c k, IsInt z := by
    intro z hz
    have hbound := values_bound c h k z hz
    unfold IsInt
    omega
  obtain ⟨c'', haccept, hvalues, hmerge⟩ := accept_of_inRange wide c' (print c k) k _
    (scanf_print c k h) hint (inRange_values c h k)
  rw [haccept, ← merge_congr c' c'' c k hvalues, hmerge]

end Turns

/-- The query prints a text that the set form of any device accepts, with the
fields of the setting restored and all others left. -/
theorem query_set_round_trip (wide : ℤ → ℤ) (k : SetCommand) (d d' : Dev)
    (h : d.config.Valid) :
    ∃ reply text, (ghConfigTurn wide (line k.word) [] d).replies = d.replies ++ [reply] ∧
      printed reply = some text ∧
      (ghConfigTurn wide (line (k.wordEq ++ text)) [] d').replies = d'.replies ++ [OKSTR] ∧
      (ghConfigTurn wide (line (k.wordEq ++ text)) [] d').config = merge d'.config d.config k := by
  refine ⟨k.name ++ print d.config k ++ ENDFLAG, print d.config k, ?_,
    printed_reply d.config k h, ?_⟩
  · rw [query_turn]
    rfl
  · rw [set_turn wide k d.config h, applySet_of_some (accept_print wide k d.config d'.config h)]
    exact ⟨rfl, rfl⟩

/-- A device whose configuration differs from the default everywhere. -/
def otherDev : Dev :=
  { someDev with config := ⟨#v[10, 0, 0, 7], 80, 1, 9600, 2, 1, 1, 3⟩ }

/-- The default address sent to another device. -/
theorem query_set_round_trip_default : ∃ reply text,
    (ghConfigTurn id (line ATIPPORT) [] someDev).replies = someDev.replies ++ [reply] ∧
      printed reply = some text ∧
      (ghConfigTurn id (line (ATIPPORTEQ ++ text)) [] otherDev).replies =
        otherDev.replies ++ [OKSTR] ∧
      (ghConfigTurn id (line (ATIPPORTEQ ++ text)) [] otherDev).config =
        merge otherDev.config lDefaultNbMCFG .ipport :=
  query_set_round_trip id .ipport someDev otherDev (by decide)

end GemhoNbiot.QueryRoundTrip
