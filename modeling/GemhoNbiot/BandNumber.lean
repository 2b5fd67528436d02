import GemhoNbiot.ReplyAttempts
import GemhoNbiot.ScanPrint

/-!
The number get_NBAND decodes. It takes the one character behind the marker for
the number and asks only that at most three characters stand before the end, so
a number of two digits loses its second one and an empty field is accepted. It
decodes the number of the reply it stops at exactly when that reply itself holds
the whole answer and the text is one digit or zeros.
-/
namespace GemhoNbiot.BandNumber

open Memmem Program Stdio ScanPrint Bc95Driver ReplyAttempts

/-- Bytes with neither marker, the marker, a decimal number, the end, any bytes. -/
def BandReply (bs : List UInt8) (n : ℕ) : Prop :=
  ∃ before digits after, bs = before ++ (NBANDRTN ++ (digits ++ (ENDOK ++ after))) ∧
    ¬ NBANDRTN <:+: before ∧ ¬ ENDOK <:+: before ∧ DigitString digits ∧ n = digitsValue digits

/-- What a call that made these calls and succeeded owes to the reply it
succeeded on, which is the last one it read. -/
structure DecodesBand (events : List Call) (ret nband : ℤ) : Prop where
  value_eq : ret = 0 → ∀ bs n, (replies events).getLast? = some bs → BandReply bs n → nband = n
  number : ret = 0 → ∀ bs, (replies events).getLast? = some bs → ∃ n, BandReply bs n

/-- One digit, or two or three zeros. -/
def OneDigit (text : List UInt8) : Prop :=
  (∃ d, text = [d] ∧ isDigit d = true) ∨ text = [48, 48] ∨ text = [48, 48, 48]

/-- The answer lies within the bytes just read, and its text is one digit or zeros. -/
structure Plain (h : Hit) : Prop where
  within : h.pEnd + ENDOK.length ≤ h.reply.length
  oneDigit : OneDigit (h.text NBANDRTN)

section FirstOccurrence

variable {before digits after : List UInt8}

theorem infix_of_occurs {s l r : List UInt8} {j : ℕ} (h : s <+: (l ++ r).drop j)
    (hj : j + s.length ≤ l.length) : s <:+: l :=
  ((occurs_append r hj).mp h).isInfix.trans (List.drop_suffix j l).isInfix

/-- The marker does not begin before the place where it stands. -/
theorem memmem_marker (hmarker : ¬ NBANDRTN <:+: before) (rest : List UInt8) :
    memmem (before ++ (NBANDRTN ++ rest)) NBANDRTN = some before.length := by
  refine (memmem_eq_some (by decide) _).mpr ⟨by simp, fun j hj hoccurs => ?_⟩
  by_cases hin : j + NBANDRTN.length ≤ before.length
  · exact hmarker (infix_of_occurs hoccurs hin)
  -- the first byte of the marker would also stand further on in it
  obtain ⟨k, hk⟩ : ∃ k, before.length = j + k := ⟨before.length - j, by omega⟩
  have hlt : k < NBANDRTN.length := by omega
  have hbyte := occurs_getElem? hoccurs hlt
  rw [← hk, List.getElem?_append_right (Nat.le_refl _), Nat.sub_self] at hbyte
  have honly : ∀ k (hk : k < NBANDRTN.length), 0 < k → some NBANDRTN[k] ≠ some 43 := by decide
  exact honly k hlt (by omega) hbyte.symm

/-- The end does not begin before the place where it stands behind the digits. -/
theorem memmem_end (hend : ¬ ENDOK <:+: before) (hdigits : ∀ d ∈ digits, isDigit d = true) :
    memmem (before ++ (NBANDRTN ++ (digits ++ (ENDOK ++ after)))) ENDOK =
      some (before.length + NBANDRTN.length + digits.length) := by
  have hsplit : before ++ (NBANDRTN ++ (digits ++ (ENDOK ++ after))) =
      (before ++ NBANDRTN ++ digits) ++ (ENDOK ++ after) := by simp
  refine (memmem_eq_some (by decide) _).mpr ⟨?_, fun j hj hoccurs => ?_⟩
  · rw [hsplit, ← List.length_append, ← List.length_append, List.drop_left]
    exact List.prefix_append _ _
  by_cases hin : j + ENDOK.length ≤ before.length
  · exact hend (infix_of_occurs hoccurs hin)
  by_cases hbefore : j < before.length
  · -- the marker's first byte would stand in the end
    obtain ⟨k, hk⟩ : ∃ k, before.length = j + k := ⟨before.length - j, by omega⟩
    have hlt : k < ENDOK.length := by omega
    have hbyte := occurs_getElem? hoccurs hlt
    rw [← hk, List.getElem?_append_right (Nat.le_refl _), Nat.sub_self] at hbyte
    have hnone : ∀ k (hk : k < ENDOK.length), some ENDOK[k] ≠ some 43 := by decide
    exact hnone k hlt hbyte.symm
  · -- a carriage return would stand in the marker or among the digits
    have hbyte := occurs_getElem? hoccurs (k := 0) (by decide)
    rw [Nat.add_zero, hsplit, List.getElem?_append_left (by simp; omega), List.append_assoc,
      List.getElem?_append_right (by omega)] at hbyte
    have hmem := List.mem_of_getElem? hbyte
    rcases List.mem_append.mp hmem with hmarker | hdigit
    · exact absurd hmarker (by decide)
    · exact absurd (hdigits _ hdigit) (by decide)

end FirstOccurrence

section Digits

theorem isDigit_bounds {d : UInt8} (h : isDigit d = true) : 48 ≤ d.toNat ∧ d.toNat ≤ 57 := by
  simpa [isDigit, UInt8.le_iff_toNat_le] using h

/-- The first digit is the number only for one digit and for zeros. -/
theorem oneDigit_iff {text : List UInt8} (hdigits : DigitString text) (hlen : text.length ≤ 3) :
    ((text.getD 0 0).toNat : ℤ) - 48 = digitsValue text ↔ OneDigit text := by
  obtain ⟨hne, hall⟩ := hdigits
  match text, hne, hlen with
  | [a], _, _ =>
    obtain ⟨ha, _⟩ := isDigit_bounds (hall a (by simp))
    refine ⟨fun _ => Or.inl ⟨a, rfl, hall a (by simp)⟩, fun _ => ?_⟩
    simp [digitsValue]
    omega
  | [a, b], _, _ =>
    obtain ⟨ha, _⟩ := isDigit_bounds (hall a (by simp))
    obtain ⟨hb, _⟩ := isDigit_bounds (hall b (by simp))
    simp [digitsValue, OneDigit, ← UInt8.toNat_inj]
    omega
  | [a, b, c], _, _ =>
    obtain ⟨ha, _⟩ := isDigit_bounds (hall a (by simp))
    obtain ⟨hb, _⟩ := isDigit_bounds (hall b (by simp))
    obtain ⟨hc, _⟩ := isDigit_bounds (hall c (by simp))
    simp [digitsValue, OneDigit, ← UInt8.toNat_inj]
    omega

theorem OneDigit.digitString {text : List UInt8} (h : OneDigit text) : DigitString text := by
  rcases h with ⟨d, rfl, hd⟩ | rfl | rfl
  · exact ⟨by simp, by simpa using hd⟩
  · decide
  · decide

end Digits

section Decoding

variable {fits : UInt32 → Bool} {h : Hit} {n : ℕ}

/-- The text that memmem delimits in a reply. -/
def fieldOf (bs : List UInt8) (pStart pEnd : ℕ) : List UInt8 :=
  (bs.drop (pStart + NBANDRTN.length)).take (pEnd - (pStart + NBANDRTN.length))

/-- A reply of the form is delimited by what memmem finds in it. -/
theorem bandReply_found {bs : List UInt8} (hreply : BandReply bs n) :
    ∃ pStart pEnd, memmem bs NBANDRTN = some pStart ∧ memmem bs ENDOK = some pEnd ∧
      pStart ≤ pEnd ∧ pEnd + ENDOK.length ≤ bs.length ∧ DigitString (fieldOf bs pStart pEnd) ∧
      n = digitsValue (fieldOf bs pStart pEnd) := by
  obtain ⟨before, digits, after, hbs, hmarker, hend, hdigits, rfl⟩ := hreply
  have hfield : fieldOf bs before.length (before.length + NBANDRTN.length + digits.length) =
      digits := by
    rw [fieldOf, hbs, Nat.add_sub_cancel_left, ← List.drop_drop, List.drop_left, List.drop_left,
      List.take_left]
  refine ⟨before.length, before.length + NBANDRTN.length + digits.length, ?_, ?_, by omega, ?_,
    by rwa [hfield], by rw [hfield]⟩
  · rw [hbs]
    exact memmem_marker hmarker _
  · rw [hbs]
    exact memmem_end hend hdigits.2
  · rw [hbs]
    simp
    omega

theorem bandReply_unique {bs : List UInt8} {m : ℕ} (hn : BandReply bs n) (hm : BandReply bs m) :
    n = m := by
  obtain ⟨pStart, pEnd, hstart, hend, _, _, _, rfl⟩ := bandReply_found hn
  obtain ⟨pStart', pEnd', hstart', hend', _, _, _, rfl⟩ := bandReply_found hm
  obtain rfl := Option.some_inj.mp (hstart.symm.trans hstart')
  obtain rfl := Option.some_inj.mp (hend.symm.trans hend')
  rfl

/-- What a reply of the form says about the positions found in the buffer. -/
theorem bandReply_hit (hpassed : Passed NBANDRTN fits h) (hreply : BandReply h.reply n) :
    h.pEnd + ENDOK.length ≤ h.reply.length ∧ DigitString (h.text NBANDRTN) ∧
      n = digitsValue (h.text NBANDRTN) := by
  obtain ⟨pStart, pEnd, hstart, hend, hle, hlen, hdigits, rfl⟩ := bandReply_found hreply
  obtain ⟨old, hbuf⟩ := hpassed.buf_eq
  rw [overlay] at hbuf
  have hbound := occurs_bound (by decide) ((memmem_eq_some (by decide) _).mp hstart).1
  rw [← memmem_append (by decide) (old.drop h.reply.length) hbound, ← hbuf,
    hpassed.marker_at] at hstart
  rw [← memmem_append (by decide) (old.drop h.reply.length) hlen, ← hbuf,
    hpassed.end_at] at hend
  obtain rfl := Option.some_inj.mp hstart
  obtain rfl := Option.some_inj.mp hend
  have htext : h.text NBANDRTN = fieldOf h.reply h.pStart h.pEnd := by
    rw [Hit.text, fieldOf, hbuf, List.drop_append_of_le_length hbound,
      List.take_append_of_le_length (by rw [List.length_drop]; omega)]
  rw [htext]
  exact ⟨hlen, hdigits, rfl⟩

/-- An answer within the reply makes it a reply of the form. -/
theorem hit_bandReply (hpassed : Passed NBANDRTN fits h) (hlayout : Layout NBANDRTN fits h)
    (hwithin : h.pEnd + ENDOK.length ≤ h.reply.length) (hdigits : DigitString (h.text NBANDRTN)) :
    BandReply h.reply (digitsValue (h.text NBANDRTN)) := by
  obtain ⟨old, hbuf⟩ := hpassed.buf_eq
  rw [overlay] at hbuf
  have hle := hlayout.le_end
  have hoccurs := hlayout.occurs
  have hbound : h.pStart + (NBANDRTN ++ (h.text NBANDRTN ++ ENDOK)).length ≤ h.reply.length := by
    rw [List.length_append, List.length_append, hlayout.text_length]
    omega
  rw [hbuf, occurs_append _ hbound] at hoccurs
  obtain ⟨after, hafter⟩ := hoccurs
  have hnone : ∀ s i, memmem h.buf s = some i → s ≠ [] → h.pStart ≤ i →
      ¬ s <:+: h.reply.take h.pStart := by
    intro s i hs hne hi hpart
    obtain ⟨u, v, huv⟩ := hpart
    have hpos := List.length_pos_iff.mpr hne
    have hlen := congrArg List.length huv
    rw [List.length_append, List.length_append, List.length_take] at hlen
    have hsplit :
        h.buf = u ++ (s ++ (v ++ (h.reply.drop h.pStart ++ old.drop h.reply.length))) := by
      rw [hbuf, ← List.append_assoc, ← List.append_assoc, ← List.append_assoc, huv,
        List.take_append_drop]
    refine ((memmem_eq_some hne i).mp hs).2 u.length (by omega) ?_
    rw [hsplit, List.drop_left]
    exact List.prefix_append _ _
  refine ⟨h.reply.take h.pStart, h.text NBANDRTN, after, ?_, ?_, ?_, hdigits, rfl⟩
  · rw [← List.append_assoc (h.text NBANDRTN), ← List.append_assoc NBANDRTN, hafter,
      List.take_append_drop]
  · exact hnone _ _ hpassed.marker_at (by decide) (Nat.le_refl _)
  · exact hnone _ _ hpassed.end_at (by decide) (by omega)

/-- The reply of a hit is of the form with the number delivered exactly where the
answer is plain. -/
theorem plain_iff (hpassed : Passed NBANDRTN fits h) (hlayout : Layout NBANDRTN fits h)
    (hshort : (h.text NBANDRTN).length ≤ 3) :
    (∃ n, BandReply h.reply n ∧
      ((h.buf.getD (h.pStart + NBANDRTN.length) 0).toNat : ℤ) - 48 = n) ↔ Plain h := by
  have hvalue : DigitString (h.text NBANDRTN) →
      h.buf.getD (h.pStart + NBANDRTN.length) 0 = (h.text NBANDRTN).getD 0 0 := by
    intro hdigits
    have hpos := List.length_pos_iff.mpr hdigits.1
    have hbyte : h.buf[h.pStart + NBANDRTN.length]? = (h.text NBANDRTN)[0]? := by
      rw [← Nat.add_zero (h.pStart + NBANDRTN.length), ← List.getElem?_drop, hlayout.drop_eq,
        List.getElem?_append_left hpos]
    rw [List.getD_eq_getElem?_getD, hbyte, List.getD_eq_getElem?_getD]
  constructor
  · intro hdecodes
    obtain ⟨n, hreply, hn⟩ := hdecodes
    obtain ⟨hwithin, hdigits, rfl⟩ := bandReply_hit hpassed hreply
    rw [hvalue hdigits] at hn
    exact ⟨hwithin, (oneDigit_iff hdigits hshort).mp hn⟩
  · intro hplain
    have hdigits := hplain.oneDigit.digitString
    refine ⟨_, hit_bandReply hpassed hlayout hplain.within hdigits, ?_⟩
    rw [hvalue hdigits]
    exact (oneDigit_iff hdigits hshort).mpr hplain.oneDigit

end Decoding

/-- get_NBAND decodes the band number exactly when the answer of each attempt
that passes its test lies within the bytes of that attempt and is one digit, or
zeros. -/
theorem getNBAND_decodes_iff (nband : ℤ) (events : List Call) (ret out : ℤ)
    (hrun : Runs (getNBAND nband) events (ret, out)) (hreads : ReadsFit events) :
    DecodesBand events ret out ↔
      ∀ h ∈ hits NBANDRTN (· ≤ 3) (padded []) (replies events), Plain h := by
  rcases numberTurns_hits hrun with ⟨hnone, rfl, -⟩ | ⟨h, hhits, hlast, rfl, rfl⟩
  · rw [hnone]
    exact ⟨fun _ h hmem => by simp at hmem, fun _ =>
      ⟨fun hret => absurd hret (by decide), fun hret => absurd hret (by decide)⟩⟩
  have hmem : h ∈ hits NBANDRTN (· ≤ 3) (padded []) (replies events) := by simp [hhits]
  have hpassed := (mem_hits hmem).2
  have hbuf := hits_length padded_nil_length hreads hmem
  have hlayout := hpassed.layout (by decide) hbuf fun g hg =>
    (UInt32.le_iff_toNat_le.mp (of_decide_eq_true hg)).trans (by decide)
  have hshort : (h.text NBANDRTN).length ≤ 3 := by
    have hfits := UInt32.le_iff_toNat_le.mp (of_decide_eq_true hlayout.fits_text)
    have hlen := hlayout.text_length
    have hend := hlayout.end_le
    rw [UInt32.toNat_ofNat'] at hfits
    simp only [bufSize] at hbuf
    change _ ≤ 3 at hfits
    omega
  rw [hhits]
  simp only [List.mem_singleton, forall_eq]
  rw [← plain_iff hpassed hlayout hshort]
  constructor
  · intro hdecodes
    obtain ⟨n, hn⟩ := hdecodes.number rfl h.reply hlast
    exact ⟨n, hn, hdecodes.value_eq rfl h.reply n hlast hn⟩
  · intro hreply
    obtain ⟨n, hn, hvalue⟩ := hreply
    constructor
    · intro _ bs m hbs hm
      obtain rfl := Option.some_inj.mp (hlast.symm.trans hbs)
      rw [hvalue, bandReply_unique hn hm]
    · intro _ bs hbs
      obtain rfl := Option.some_inj.mp (hlast.symm.trans hbs)
      exact ⟨n, hn⟩

/-- A get_NBAND whose first read is this reply. -/
def firstRead (bs : List UInt8) : List Call :=
  [⟨.usartWrite NBANDGET, ()⟩, ⟨.usartRead bufSize 300, bs⟩]

def band8 : List UInt8 := bytes "\r\n+NBAND:8\r\n\r\nOK\r\n"

theorem getNBAND_decodes_band8 : DecodesBand (firstRead band8) 0 8 := by
  have htest : tested NBANDRTN (· ≤ 3) (padded []) band8 =
      some ⟨band8, overlay (padded []) band8, 2, 10⟩ := by decide +kernel
  have hrun : Runs (getNBAND 0) (firstRead band8) (0, 8) := numberTurns_first htest
  refine (getNBAND_decodes_iff 0 _ 0 8 hrun ?_).mpr ?_
  · intro bs hbs
    obtain rfl := List.mem_singleton.mp hbs
    decide
  · intro h hmem
    change h ∈ (tested NBANDRTN (· ≤ 3) (padded []) band8).toList ++ [] at hmem
    rw [htest] at hmem
    obtain rfl := List.mem_singleton.mp hmem
    exact ⟨by decide, Or.inl ⟨56, by decide +kernel, by decide⟩⟩

def band20 : List UInt8 := bytes "\r\n+NBAND:20\r\n\r\nOK\r\n"
def bandNone : List UInt8 := bytes "\r\n+NBAND:\r\n\r\nOK\r\n"

/-- Band 20 is decoded as 2, and an empty field as -35. -/
theorem getNBAND_two_digits :
    (Runs (getNBAND 0) (firstRead band20) (0, 2) ∧ ReadsFit (firstRead band20) ∧
      BandReply band20 20 ∧ ¬ DecodesBand (firstRead band20) 0 2) ∧
    Runs (getNBAND 0) (firstRead bandNone) (0, -35) ∧ ReadsFit (firstRead bandNone) ∧
      ¬ DecodesBand (firstRead bandNone) 0 (-35) := by
  have hreply : BandReply band20 20 :=
    ⟨bytes "\r\n", bytes "20", bytes "\r\n", by decide, by decide, by decide, by decide,
      by decide⟩
  refine ⟨⟨?_, ?_, hreply, fun h => ?_⟩, ?_, ?_, fun h => ?_⟩
  · exact numberTurns_first (h := ⟨band20, overlay (padded []) band20, 2, 11⟩)
      (by decide +kernel)
  · intro bs hbs
    obtain rfl := List.mem_singleton.mp hbs
    decide
  · exact absurd (h.value_eq rfl band20 20 rfl hreply) (by decide)
  · exact numberTurns_first (h := ⟨bandNone, overlay (padded []) bandNone, 2, 9⟩)
      (by decide +kernel)
  · intro bs hbs
    obtain rfl := List.mem_singleton.mp hbs
    decide
  · obtain ⟨n, hn⟩ := h.number rfl bandNone rfl
    obtain ⟨pStart, pEnd, hstart, hend, _, _, hdigits, _⟩ := bandReply_found hn
    have hstart' : memmem bandNone NBANDRTN = some 2 := by decide
    have hend' : memmem bandNone ENDOK = some 9 := by decide
    obtain rfl := Option.some_inj.mp (hstart.symm.trans hstart')
    obtain rfl := Option.some_inj.mp (hend.symm.trans hend')
    exact absurd hdigits (by decide)

end GemhoNbiot.BandNumber
