import Mathlib.Data.List.Basic
import Mathlib.Tactic.ByContra

/-!
Several writers on one wire. Each call writes pieces, each piece is written
whole, and the pieces of a command together are one line. The wire separates
into lines of single calls exactly when no piece of another writer stands
directly behind a piece that does not end its line.
-/
namespace GemhoNbiot.WireLines

variable {τ α : Type*} (eol : List α)

/-- The pieces of one command: only the last one ends the line, and no other
piece holds the last byte of a line end. -/
structure Command (isLine : List α → Prop) (pieces : List (List α)) : Prop where
  line : isLine pieces.flatten
  split : ∃ init last, pieces = init ++ [last] ∧ eol <:+ last ∧
    ∀ p ∈ init, p ≠ [] ∧ ∀ b ∈ p, some b ≠ eol.getLast?

/-- The bytes on the wire, each with the call that wrote it. -/
def stream (wire : List (τ × List α)) : List (τ × α) :=
  wire.flatMap fun p => p.2.map (Prod.mk p.1)

theorem stream_append (wire rest : List (τ × List α)) :
    stream (wire ++ rest) = stream wire ++ stream rest :=
  List.flatMap_append

/-- The pieces of a command with the call that writes them. -/
def tagged (t : τ) (pieces : List (List α)) : List (τ × List α) := pieces.map (Prod.mk t)

theorem stream_tagged (t : τ) (pieces : List (List α)) :
    stream (tagged t pieces) = stream [(t, pieces.flatten)] := by
  induction pieces with
  | nil => rfl
  | cons p pieces ih =>
    simp only [stream, tagged, List.map_cons, List.flatMap_cons, List.flatMap_nil,
      List.append_nil, List.flatten_cons, List.map_append] at ih ⊢
    rw [ih]

/-- The wire is a sequence of lines, each written by one call. -/
def Separated (isLine : List α → Prop) (wire : List (τ × List α)) : Prop :=
  ∃ lines : List (τ × List α), (∀ l ∈ lines, isLine l.2) ∧ stream wire = stream lines

section Separated

variable {isLine : List α → Prop}

theorem Separated.nil : Separated isLine ([] : List (τ × List α)) := ⟨[], by simp, rfl⟩

theorem Separated.append {wire rest : List (τ × List α)} (h : Separated isLine wire)
    (h' : Separated isLine rest) : Separated isLine (wire ++ rest) := by
  obtain ⟨lines, hlines, hstream⟩ := h
  obtain ⟨lines', hlines', hstream'⟩ := h'
  refine ⟨lines ++ lines', fun l hl => ?_, ?_⟩
  · rcases List.mem_append.mp hl with hl | hl
    · exact hlines l hl
    · exact hlines' l hl
  · rw [stream_append, stream_append, hstream, hstream']

/-- The pieces of a command, with nothing between them, are one line. -/
theorem Separated.command (t : τ) {pieces : List (List α)} (h : isLine pieces.flatten) :
    Separated isLine (tagged t pieces) :=
  ⟨[(t, pieces.flatten)], by simpa using h, stream_tagged t pieces⟩

end Separated

/-- Where two bytes of different calls meet, the first one ends a line. -/
theorem boundary_ends_line (last : α) (lines : List (τ × List α))
    (hlines : ∀ l ∈ lines, ∃ init, l.2 = init ++ [last]) (xs ys : List (τ × α)) (t₁ t₂ : τ)
    (b₁ b₂ : α) (ht : t₁ ≠ t₂) (h : stream lines = xs ++ (t₁, b₁) :: (t₂, b₂) :: ys) :
    b₁ = last := by
  induction lines generalizing xs with
  | nil => simp [stream] at h
  | cons l lines ih =>
    obtain ⟨init, hinit⟩ := hlines l List.mem_cons_self
    rw [stream, List.flatMap_cons, ← stream] at h
    rcases List.append_eq_append_iff.mp h with ⟨as, has, hrest⟩ | ⟨as, has, hrest⟩
    · -- The boundary lies behind the first line.
      exact ih (fun l hl => hlines l (List.mem_cons_of_mem _ hl)) as hrest
    · cases as with
      | nil =>
        rw [List.nil_append] at hrest
        exact ih (fun l hl => hlines l (List.mem_cons_of_mem _ hl)) [] hrest.symm
      | cons a as =>
        obtain ⟨rfl, htail⟩ := List.cons.inj hrest
        cases as with
        | nil =>
          rw [hinit, List.map_append, List.map_singleton] at has
          have hend := (List.append_inj' has rfl).2
          simpa using (congrArg (List.map Prod.snd) hend).symm
        | cons a as =>
          obtain ⟨rfl, _⟩ := List.cons.inj htail
          have hmem₁ : (t₁, b₁) ∈ l.2.map (Prod.mk l.1) := by rw [has]; simp
          have hmem₂ : (t₂, b₂) ∈ l.2.map (Prod.mk l.1) := by rw [has]; simp
          obtain ⟨_, _, h₁⟩ := List.mem_map.mp hmem₁
          obtain ⟨_, _, h₂⟩ := List.mem_map.mp hmem₂
          exact absurd ((Prod.mk.inj h₁).1.symm.trans (Prod.mk.inj h₂).1) ht

section Owners

/-- No piece of a writer of whole lines stands directly behind a piece of the
other writer that does not end its line. -/
def Uncut (whole : τ → Bool) (wire : List (τ × List α)) : Prop :=
  ∀ before p m after, wire = before ++ p :: m :: after → whole p.1 = false → whole m.1 = true →
    eol <:+ p.2

variable {eol} {isLine : List α → Prop} (whole : τ → Bool)

theorem Uncut.tail {whole : τ → Bool} {p : τ × List α} {wire : List (τ × List α)}
    (h : Uncut eol whole (p :: wire)) : Uncut eol whole wire :=
  fun before q m after heq => h (p :: before) q m after (by rw [heq]; rfl)

theorem Uncut.drop {whole : τ → Bool} {first rest : List (τ × List α)}
    (h : Uncut eol whole (first ++ rest)) : Uncut eol whole rest := by
  induction first with
  | nil => exact h
  | cons p first ih => exact ih h.tail

/-- The pieces of the other writer, in order. -/
def others (wire : List (τ × List α)) : List (τ × List α) :=
  wire.filter fun p => !whole p.1

/-- On an uncut wire a command of the other writer that begins is written to its end. -/
theorem take_command (init : List (List α)) (last : List α) (t : τ)
    (rest : List (τ × List α)) (hinit : ∀ p ∈ init, ¬ eol <:+ p)
    {wire : List (τ × List α)} (huncut : Uncut eol whole wire)
    (hfirst : ∀ p ∈ wire.head?, whole p.1 = false)
    (h : others whole wire = tagged t (init ++ [last]) ++ rest) :
    ∃ wire', wire = tagged t (init ++ [last]) ++ wire' ∧ others whole wire' = rest := by
  induction init generalizing wire with
  | nil =>
    cases wire with
    | nil => simp [others, tagged] at h
    | cons p wire =>
      have hp : whole p.1 = false := hfirst p rfl
      rw [others, List.filter_cons_of_pos (by simp [hp])] at h
      obtain ⟨rfl, hrest⟩ := List.cons.inj h
      exact ⟨wire, rfl, hrest⟩
  | cons q init ih =>
    cases wire with
    | nil => simp [others, tagged] at h
    | cons p wire =>
      have hp : whole p.1 = false := hfirst p rfl
      rw [others, List.filter_cons_of_pos (by simp [hp])] at h
      obtain ⟨rfl, hrest⟩ := List.cons.inj h
      have hnext : ∀ m ∈ wire.head?, whole m.1 = false := by
        intro m hm
        obtain ⟨after, rfl⟩ : ∃ after, wire = m :: after := by
          cases wire with
          | nil => simp at hm
          | cons m' after => exact ⟨after, by simpa using hm⟩
        by_contra hwhole
        refine hinit q List.mem_cons_self (huncut [] (t, q) m after rfl hp ?_)
        simpa using hwhole
      obtain ⟨wire', rfl, hwire'⟩ :=
        ih (fun p hp => hinit p (List.mem_cons_of_mem _ hp)) huncut.tail hnext hrest
      exact ⟨wire', rfl, hwire'⟩

variable {last : α} {cmds : List (τ × List (List α))} {wire : List (τ × List α)}

theorem not_suffix_of_split (heol : eol.getLast? = some last) (q : List α)
    (hq : q ≠ [] ∧ ∀ b ∈ q, some b ≠ eol.getLast?) : ¬ eol <:+ q := by
  intro h
  obtain ⟨before, rfl⟩ := h
  refine hq.2 last ?_ heol.symm
  exact List.mem_append_right _ (List.mem_of_getLast? heol)

/-- A piece of the other writer ends its line or holds no last byte of a line end. -/
theorem piece_cases (hcmds : ∀ c ∈ cmds, Command eol isLine c.2)
    (hothers : others whole wire = cmds.flatMap fun c => tagged c.1 c.2) (p : τ × List α)
    (hp : p ∈ wire) (hnot : whole p.1 = false) :
    eol <:+ p.2 ∨ (p.2 ≠ [] ∧ ∀ b ∈ p.2, some b ≠ eol.getLast?) := by
  have hmem : p ∈ others whole wire := List.mem_filter.mpr ⟨hp, by simp [hnot]⟩
  rw [hothers, List.mem_flatMap] at hmem
  obtain ⟨c, hc, hpiece⟩ := hmem
  obtain ⟨q, hq, rfl⟩ := List.mem_map.mp hpiece
  obtain ⟨init, fin, hsplit, hfin, hinit⟩ := (hcmds c hc).split
  rw [hsplit, List.mem_append, List.mem_singleton] at hq
  rcases hq with hq | rfl
  · exact Or.inr (hinit q hq)
  · exact Or.inl hfin

theorem uncut_of_separated (heol : eol.getLast? = some last)
    (hline : ∀ l, isLine l → eol <:+ l) (hwhole : ∀ p ∈ wire, whole p.1 = true → isLine p.2)
    (hcmds : ∀ c ∈ cmds, Command eol isLine c.2)
    (hothers : others whole wire = cmds.flatMap fun c => tagged c.1 c.2)
    (h : Separated isLine wire) : Uncut eol whole wire := by
  rintro before p m after rfl hp hm
  obtain ⟨lines, hlines, hstream⟩ := h
  rcases piece_cases whole hcmds hothers p (by simp) hp with hends | ⟨hne, hbytes⟩
  · exact hends
  obtain ⟨init, b, hb⟩ : ∃ init b, p.2 = init ++ [b] :=
    ⟨_, _, (List.dropLast_append_getLast hne).symm⟩
  obtain ⟨c, rest, hc⟩ : ∃ c rest, m.2 = c :: rest := by
    have hsuffix := (hline _ (hwhole m (by simp) hm)).length_le
    have hpos : 0 < eol.length :=
      List.length_pos_iff.mpr fun hnil => by simp [hnil] at heol
    cases hmm : m.2 with
    | nil => rw [hmm, List.length_nil] at hsuffix; omega
    | cons c rest => exact ⟨c, rest, rfl⟩
  have hends : ∀ l ∈ lines, ∃ init, l.2 = init ++ [last] := by
    intro l hl
    obtain ⟨text, htext⟩ := hline _ (hlines l hl)
    obtain ⟨eol', rfl⟩ := List.getLast?_eq_some_iff.mp heol
    exact ⟨text ++ eol', by rw [← htext, List.append_assoc]⟩
  have hmeet : stream lines = (stream before ++ init.map (Prod.mk p.1)) ++
      (p.1, b) :: (m.1, c) :: (rest.map (Prod.mk m.1) ++ stream after) := by
    rw [← hstream]
    simp [stream, hb, hc]
  have htags : p.1 ≠ m.1 := by
    intro heq
    rw [heq, hm] at hp
    simp at hp
  have hlast := boundary_ends_line last lines hends _ _ _ _ _ _ htags hmeet
  refine absurd ?_ (hbytes b (by rw [hb]; simp))
  rw [hlast, heol]

theorem separated_of_uncut (heol : eol.getLast? = some last)
    (hcmds : ∀ c ∈ cmds, Command eol isLine c.2) (n : ℕ) (hn : wire.length ≤ n)
    (hwhole : ∀ p ∈ wire, whole p.1 = true → isLine p.2)
    (hothers : others whole wire = cmds.flatMap fun c => tagged c.1 c.2)
    (h : Uncut eol whole wire) : Separated isLine wire := by
  induction n generalizing wire cmds with
  | zero =>
    obtain rfl : wire = [] := List.length_eq_zero_iff.mp (by omega)
    exact Separated.nil
  | succ n ih =>
    cases wire with
    | nil => exact Separated.nil
    | cons p wire =>
      rw [List.length_cons] at hn
      by_cases hp : whole p.1 = true
      · -- A line of the writer of whole lines stands first.
        have hothers' : others whole wire = cmds.flatMap fun c => tagged c.1 c.2 := by
          rw [← hothers, others, others, List.filter_cons_of_neg (by simp [hp])]
        have hrest := ih hcmds (by omega)
          (fun q hq => hwhole q (List.mem_cons_of_mem _ hq)) hothers' h.tail
        have hline : isLine [p.2].flatten := by simpa using hwhole p List.mem_cons_self hp
        exact (Separated.command p.1 hline).append hrest
      · -- A command of the other writer begins and is written to its end.
        have hp' : whole p.1 = false := by simpa using hp
        cases cmds with
        | nil => simp [others, hp'] at hothers
        | cons c cmds =>
          obtain ⟨init, fin, hsplit, hfin, hinit⟩ := (hcmds c List.mem_cons_self).split
          rw [List.flatMap_cons, hsplit] at hothers
          have hhead : ∀ q ∈ (p :: wire).head?, whole q.1 = false := by
            intro q hq
            obtain rfl : p = q := by simpa using hq
            exact hp'
          obtain ⟨wire', hwire, hrest⟩ := take_command whole init fin c.1 _
            (fun q hq => not_suffix_of_split heol q (hinit q hq)) h hhead hothers
          have hlen := congrArg List.length hwire
          rw [List.length_cons, List.length_append, tagged, List.length_map, List.length_append,
            List.length_singleton] at hlen
          rw [hwire] at h hwhole ⊢
          rw [← hsplit] at h hwhole ⊢
          have hrest := ih (fun c hc => hcmds c (List.mem_cons_of_mem _ hc)) (by omega)
            (fun q hq => hwhole q (List.mem_append_right _ hq)) hrest h.drop
          exact (Separated.command c.1 (hcmds c List.mem_cons_self).line).append hrest

/-- The wire separates into lines of single calls exactly when it is uncut. -/
theorem separated_iff_uncut (heol : eol.getLast? = some last)
    (hline : ∀ l, isLine l → eol <:+ l) (hwhole : ∀ p ∈ wire, whole p.1 = true → isLine p.2)
    (hcmds : ∀ c ∈ cmds, Command eol isLine c.2)
    (hothers : others whole wire = cmds.flatMap fun c => tagged c.1 c.2) :
    Separated isLine wire ↔ Uncut eol whole wire :=
  ⟨uncut_of_separated whole heol hline hwhole hcmds hothers,
    separated_of_uncut whole heol hcmds wire.length (Nat.le_refl _) hwhole hothers⟩

end Owners

end GemhoNbiot.WireLines
