import GemhoNbiot.Bc95Writes
import GemhoNbiot.DropOldest

/-!
The module behind BC95COM. It collects the bytes written to it into command
lines and answers every complete line with one final reply, OK or ERROR, in the
order of the lines and after any delay. The reply bytes travel to the receive
FIFO of the port, where usart_read finds them. Bytes are followed with the number
of the line they answer; the code sees the bytes only.
-/
namespace GemhoNbiot.ReplyChannel

open Memmem Commands Program Bc95Driver WireLines Bc95Writes

/-- The complete command lines the module has received, and the line begun. -/
structure Input where
  lines : List (List UInt8)
  line : List UInt8

namespace Input

def put (i : Input) (b : UInt8) : Input :=
  if b = 10 ∧ i.line.getLast? = some 13 then ⟨i.lines ++ [i.line ++ [b]], []⟩
  else ⟨i.lines, i.line ++ [b]⟩

def write (i : Input) (bs : List UInt8) : Input := bs.foldl put i

end Input

/-- A reply byte and the number of the line that it answers. -/
abbrev ReplyByte := ℕ × UInt8

/-- RT_SERIAL_RB_BUFSZ less the slot that tells full from empty. -/
def fifoSize : ℕ := 511

/-- `answers` are the final replies given so far, true for OK; `air` holds the
reply bytes on their way to the FIFO. -/
structure Channel where
  input : Input
  answers : List Bool
  air : List ReplyByte
  fifo : List ReplyByte

def Channel.start : Channel := ⟨⟨[], []⟩, [], [], []⟩

/-- A reply: some text and the final OK or ERROR. -/
def reply (i : ℕ) (text : List UInt8) (ok : Bool) : List ReplyByte :=
  (text ++ if ok then OKSTR else ERRORSTR).map (Prod.mk i)

/-- The module answers the next line, or a reply byte arrives. Only a final OK
has a K in it. -/
inductive ModuleStep (c : Channel) : Channel → Prop
  | answer (text : List UInt8) (ok : Bool) :
      c.answers.length < c.input.lines.length → 75 ∉ text →
      ModuleStep c { c with
        answers := c.answers ++ [ok]
        air := c.air ++ reply c.answers.length text ok }
  | arrive {p : ReplyByte} {rest : List ReplyByte} :
      c.air = p :: rest →
      ModuleStep c { c with air := rest, fifo := DropOldest.push fifoSize c.fifo p }

/-- usart_read takes bytes out of the FIFO one by one while the module goes on.
With no bytes taken this is time that passes. -/
inductive Reads : Channel → List UInt8 → Channel → Prop
  | nil (c : Channel) : Reads c [] c
  | step {c c' c'' : Channel} {bs : List UInt8} :
      ModuleStep c c' → Reads c' bs c'' → Reads c bs c''
  | byte {c c' : Channel} {p : ReplyByte} {rest : List ReplyByte} {bs : List UInt8} :
      c.fifo = p :: rest → Reads { c with fifo := rest } bs c' → Reads c (p.2 :: bs) c'

/-- The effect of one operation call; every operation can take time. -/
inductive Act (c : Channel) : Call → Channel → Prop
  | write {c' : Channel} (bs : List UInt8) :
      Reads c [] c' → Act c ⟨.usartWrite bs, ()⟩ { c' with input := c'.input.write bs }
  | read {c' : Channel} {bs : List UInt8} (len timeout : ℕ) :
      bs.length ≤ len → Reads c bs c' → Act c ⟨.usartRead len timeout, bs⟩ c'
  | getTimestamp {c' : Channel} (t : UInt64) : Reads c [] c' → Act c ⟨.getTimestamp, t⟩ c'
  | threadDelay {c' : Channel} (ticks : ℕ) : Reads c [] c' → Act c ⟨.threadDelay ticks, ()⟩ c'
  | usartConfigure {c' : Channel} (baudrate : UInt32) :
      Reads c [] c' → Act c ⟨.usartConfigure baudrate, ()⟩ c'
  | resetPin {c' : Channel} (level : Bool) : Reads c [] c' → Act c ⟨.resetPin level, ()⟩ c'
  | ucallWrite {c' : Channel} (bs : List UInt8) :
      Reads c [] c' → Act c ⟨.ucallWrite bs, ()⟩ c'

/-- A line that had no answer yet, or whose reply had not been read to its end. -/
def Channel.Outstanding (c : Channel) (i : ℕ) : Prop :=
  (c.answers.length ≤ i ∧ i < c.input.lines.length) ∨ ∃ b, (i, b) ∈ c.air ++ c.fifo

section Origin

/-- There are no more answers than lines, and a K belongs to a line answered OK. -/
structure Sound (c : Channel) : Prop where
  answered : c.answers.length ≤ c.input.lines.length
  tagged : ∀ p ∈ c.air ++ c.fifo, p.2 = 75 → c.answers[p.1]? = some true

/-- What holds of a channel that has evolved from `c₀`: no answer or line is
undone, and reply bytes not seen in `c₀` answer lines not answered in `c₀`. -/
structure Since (c₀ c : Channel) : Prop where
  answers : c₀.answers <+: c.answers
  lines : c₀.input.lines <+: c.input.lines
  origin : ∀ p ∈ c.air ++ c.fifo, c₀.answers.length ≤ p.1 ∨ p ∈ c₀.air ++ c₀.fifo

theorem sound_start : Sound Channel.start where
  answered := Nat.le_refl _
  tagged := by simp [Channel.start]

theorem Since.refl (c : Channel) : Since c c where
  answers := List.prefix_refl _
  lines := List.prefix_refl _
  origin := fun _ hp => Or.inr hp

theorem mem_push {p q : ReplyByte} {fifo : List ReplyByte}
    (h : p ∈ DropOldest.push fifoSize fifo q) : p ∈ fifo ∨ p = q := by
  rw [DropOldest.push, List.mem_append, List.mem_singleton] at h
  rcases h with h | h
  · by_cases hfull : fifo.length = fifoSize
    · rw [if_pos hfull] at h
      exact Or.inl (List.mem_of_mem_tail h)
    · rw [if_neg hfull] at h
      exact Or.inl h
  · exact Or.inr h

/-- A byte that arrives was on its way. -/
theorem mem_of_arrive {c : Channel} {p q : ReplyByte} {rest : List ReplyByte}
    (hair : c.air = q :: rest) (hp : p ∈ rest ++ DropOldest.push fifoSize c.fifo q) :
    p ∈ c.air ++ c.fifo := by
  rw [hair]
  rcases List.mem_append.mp hp with hp | hp
  · exact List.mem_append_left _ (List.mem_cons_of_mem _ hp)
  · rcases mem_push hp with hp | rfl
    · exact List.mem_append_right _ hp
    · exact List.mem_append_left _ List.mem_cons_self

theorem mem_of_take {c : Channel} {p q : ReplyByte} {rest : List ReplyByte}
    (hfifo : c.fifo = p :: rest) (hq : q ∈ c.air ++ rest) : q ∈ c.air ++ c.fifo := by
  rw [hfifo]
  rcases List.mem_append.mp hq with hq | hq
  · exact List.mem_append_left _ hq
  · exact List.mem_append_right _ (List.mem_cons_of_mem _ hq)

/-- A K in a reply is in its final OK. -/
theorem reply_ok {i : ℕ} {text : List UInt8} {ok : Bool} (htext : 75 ∉ text) {p : ReplyByte}
    (hp : p ∈ reply i text ok) : p.1 = i ∧ (p.2 = 75 → ok = true) := by
  obtain ⟨b, hb, rfl⟩ := List.mem_map.mp hp
  refine ⟨rfl, fun hb' => ?_⟩
  simp only at hb'
  rw [hb', List.mem_append] at hb
  rcases hb with hb | hb
  · exact absurd hb htext
  · cases ok with
    | true => rfl
    | false => exact absurd hb (by decide)

theorem Sound.module {c c' : Channel} (hc : Sound c) (h : ModuleStep c c') : Sound c' := by
  cases h with
  | answer text ok hpending htext =>
    refine ⟨?_, fun p hp hk => ?_⟩
    · change (c.answers ++ [ok]).length ≤ c.input.lines.length
      rw [List.length_append, List.length_singleton]
      omega
    · change (c.answers ++ [ok])[p.1]? = some true
      have hp' : p ∈ (c.air ++ reply c.answers.length text ok) ++ c.fifo := hp
      rw [List.mem_append, List.mem_append] at hp'
      have hold : p ∈ c.air ++ c.fifo → (c.answers ++ [ok])[p.1]? = some true := by
        intro hmem
        have hval := hc.tagged p hmem hk
        obtain ⟨hlt, _⟩ := List.getElem?_eq_some_iff.mp hval
        rw [List.getElem?_append_left hlt]
        exact hval
      rcases hp' with (hp' | hp') | hp'
      · exact hold (List.mem_append_left _ hp')
      · obtain ⟨hi, hok⟩ := reply_ok htext hp'
        rw [hi, hok hk, List.getElem?_append_right (Nat.le_refl _), Nat.sub_self]
        rfl
      · exact hold (List.mem_append_right _ hp')
  | arrive hair => exact ⟨hc.answered, fun p hp hk => hc.tagged p (mem_of_arrive hair hp) hk⟩

theorem Since.module {c₀ c c' : Channel} (hc : Since c₀ c) (h : ModuleStep c c') :
    Since c₀ c' := by
  cases h with
  | answer text ok hpending htext =>
    refine ⟨hc.answers.trans (List.prefix_append _ _), hc.lines, fun p hp => ?_⟩
    have hp' : p ∈ (c.air ++ reply c.answers.length text ok) ++ c.fifo := hp
    rw [List.mem_append, List.mem_append] at hp'
    rcases hp' with (hp' | hp') | hp'
    · exact hc.origin p (List.mem_append_left _ hp')
    · rw [(reply_ok htext hp').1]
      exact Or.inl hc.answers.length_le
    · exact hc.origin p (List.mem_append_right _ hp')
  | arrive hair => exact ⟨hc.answers, hc.lines, fun p hp => hc.origin p (mem_of_arrive hair hp)⟩

theorem Sound.take {c : Channel} {p : ReplyByte} {rest : List ReplyByte} (hc : Sound c)
    (h : c.fifo = p :: rest) : Sound { c with fifo := rest } where
  answered := hc.answered
  tagged := fun q hq hk => hc.tagged q (mem_of_take h hq) hk

theorem Since.take {c₀ c : Channel} {p : ReplyByte} {rest : List ReplyByte} (hc : Since c₀ c)
    (h : c.fifo = p :: rest) : Since c₀ { c with fifo := rest } where
  answers := hc.answers
  lines := hc.lines
  origin := fun q hq => hc.origin q (mem_of_take h hq)

theorem Reads.keep {c₀ c c' : Channel} {bs : List UInt8} (h : Reads c bs c') (hc : Sound c)
    (hs : Since c₀ c) : Sound c' ∧ Since c₀ c' := by
  induction h with
  | nil => exact ⟨hc, hs⟩
  | step hm _ ih => exact ih (hc.module hm) (hs.module hm)
  | byte hfifo _ ih => exact ih (hc.take hfifo) (hs.take hfifo)

theorem put_lines (i : Input) (b : UInt8) : i.lines <+: (i.put b).lines := by
  unfold Input.put
  split
  · exact List.prefix_append _ _
  · exact List.prefix_refl _

theorem write_lines (i : Input) (bs : List UInt8) : i.lines <+: (i.write bs).lines := by
  induction bs generalizing i with
  | nil => exact List.prefix_refl _
  | cons b bs ih => exact (put_lines i b).trans (ih (i.put b))

/-- Every operation call keeps both. -/
theorem Act.keep {c₀ c c' : Channel} {e : Call} (h : Act c e c') (hc : Sound c)
    (hs : Since c₀ c) : Sound c' ∧ Since c₀ c' := by
  cases h with
  | @write c' bs hreads =>
    obtain ⟨hc', hs'⟩ := hreads.keep hc hs
    have hlines := write_lines c'.input bs
    exact ⟨⟨hc'.answered.trans hlines.length_le, hc'.tagged⟩,
      ⟨hs'.answers, hs'.lines.trans hlines, hs'.origin⟩⟩
  | read len timeout _ hreads => exact hreads.keep hc hs
  | getTimestamp t hreads => exact hreads.keep hc hs
  | threadDelay ticks hreads => exact hreads.keep hc hs
  | usartConfigure baudrate hreads => exact hreads.keep hc hs
  | resetPin level hreads => exact hreads.keep hc hs
  | ucallWrite bs hreads => exact hreads.keep hc hs

theorem chain_keep {c₀ c c' : Channel} {events : List Call} (h : Chain Act c events c')
    (hc : Sound c) (hs : Since c₀ c) : Sound c' ∧ Since c₀ c' :=
  h.invariant (fun _ _ _ hact hkeep => hact.keep hkeep.1 hkeep.2) ⟨hc, hs⟩

/-- Line `i` was answered OK, and either had no answer in `c₀` or had reply
bytes there that were not read. -/
def Evidence (c₀ c : Channel) (i : ℕ) : Prop :=
  c.answers[i]? = some true ∧ (c₀.answers.length ≤ i ∨ ∃ b, (i, b) ∈ c₀.air ++ c₀.fifo)

theorem Evidence.mono {c₀ c c' : Channel} {i : ℕ} (h : Evidence c₀ c i) (hs : Since c c') :
    Evidence c₀ c' i := by
  obtain ⟨rest, hrest⟩ := hs.answers
  obtain ⟨hlt, _⟩ := List.getElem?_eq_some_iff.mp h.1
  refine ⟨?_, h.2⟩
  rw [← hrest, List.getElem?_append_left hlt]
  exact h.1

/-- A K that a read returns is evidence. -/
theorem Reads.evidence {c₀ c c' : Channel} {bs : List UInt8} (h : Reads c bs c') (hc : Sound c)
    (hs : Since c₀ c) (hk : 75 ∈ bs) : ∃ i, Evidence c₀ c' i := by
  induction h with
  | nil => simp at hk
  | step hm _ ih => exact ih (hc.module hm) (hs.module hm) hk
  | @byte c c' p rest bs hfifo hreads ih =>
    rcases List.mem_cons.mp hk with hp | hk
    · have hmem : p ∈ c.air ++ c.fifo := by rw [hfifo]; simp
      have hnow : Evidence c₀ c p.1 := by
        refine ⟨hc.tagged p hmem hp.symm, ?_⟩
        rcases hs.origin p hmem with hnew | hold
        · exact Or.inl hnew
        · exact Or.inr ⟨p.2, hold⟩
      have hkept : Sound c' ∧ Since c c' :=
        hreads.keep (hc.take hfifo) ((Since.refl c).take hfifo)
      exact ⟨p.1, hnow.mono hkept.2⟩
    · exact ih (hc.take hfifo) (hs.take hfifo) hk

end Origin

section Lines

theorem write_append (i : Input) (bs cs : List UInt8) :
    i.write (bs ++ cs) = (i.write bs).write cs :=
  List.foldl_append

theorem write_text (i : Input) (text : List UInt8) (h : 10 ∉ text) :
    i.write text = ⟨i.lines, i.line ++ text⟩ := by
  induction text generalizing i with
  | nil => rw [List.append_nil]; rfl
  | cons b text ih =>
    have hb : ¬ (b = 10 ∧ i.line.getLast? = some 13) :=
      fun hb => h (by rw [hb.1]; exact List.mem_cons_self)
    have hput : i.put b = ⟨i.lines, i.line ++ [b]⟩ := by rw [Input.put, if_neg hb]
    change (i.put b).write text = _
    rw [hput, ih _ fun hmem => h (List.mem_cons_of_mem _ hmem), List.append_assoc]
    rfl

/-- A line written between lines is one line of the module. -/
theorem write_line (i : Input) (bs : List UInt8) (hi : i.line = []) (h : Line bs) :
    i.write bs = ⟨i.lines ++ [bs], []⟩ := by
  obtain ⟨text, rfl, _, hlf⟩ := h
  have htext : 10 ∉ text ++ [13] := by simpa using hlf
  have hsplit : text ++ ENDFLAG = (text ++ [13]) ++ [10] := by
    rw [List.append_assoc]
    rfl
  rw [hsplit, write_append, write_text i _ htext, hi]
  simp [Input.write, Input.put]

theorem foldl_write (i : Input) (ws : List (List UInt8)) :
    ws.foldl Input.write i = i.write ws.flatten := by
  induction ws generalizing i with
  | nil => rfl
  | cons w ws ih => rw [List.foldl_cons, ih, List.flatten_cons, write_append]

theorem foldl_command (i : Input) (cmd : List (List UInt8)) (hi : i.line = [])
    (h : Command ENDFLAG Line cmd) :
    cmd.foldl Input.write i = ⟨i.lines ++ [cmd.flatten], []⟩ := by
  rw [foldl_write, write_line i _ hi h.line]

theorem Reads.input {c c' : Channel} {bs : List UInt8} (h : Reads c bs c') :
    c'.input = c.input := by
  induction h with
  | nil => rfl
  | step hm _ ih =>
    rw [ih]
    cases hm with
    | answer _ _ _ _ => rfl
    | arrive _ => rfl
  | byte _ _ ih => rw [ih]

theorem chain_input {c c' : Channel} {events : List Call} (h : Chain Act c events c') :
    c'.input = (writes events).foldl Input.write c.input := by
  induction h with
  | nil => rfl
  | @cons c c' c'' e events hact _ ih =>
    rw [ih]
    cases hact with
    | write bs hreads => rw [← hreads.input]; rfl
    | read len timeout _ hreads => rw [← hreads.input]; rfl
    | getTimestamp t hreads => rw [← hreads.input]; rfl
    | threadDelay ticks hreads => rw [← hreads.input]; rfl
    | usartConfigure baudrate hreads => rw [← hreads.input]; rfl
    | resetPin level hreads => rw [← hreads.input]; rfl
    | ucallWrite bs hreads => rw [← hreads.input]; rfl

/-- Whole commands leave no line begun. -/
theorem line_of_pieces {c c' : Channel} {events : List Call} (h : Chain Act c events c')
    (hwrites : Pieces (writes events)) (hc : c.input.line = []) : c'.input.line = [] := by
  obtain ⟨cmds, hcmds, heq⟩ := hwrites
  rw [chain_input h, heq]
  generalize c.input = i at hc
  clear h heq
  induction cmds generalizing i with
  | nil => exact hc
  | cons cmd cmds ih =>
    rw [List.flatten_cons, List.foldl_append,
      foldl_command i cmd hc (hcmds cmd List.mem_cons_self)]
    exact ih (fun cmd' hmem => hcmds cmd' (List.mem_cons_of_mem _ hmem)) _ rfl

end Lines

section Exchanges

theorem chain_writes (c : Channel) (ws : List (List UInt8)) :
    Chain Act c (ws.map writeEvent) { c with input := ws.foldl Input.write c.input } := by
  induction ws generalizing c with
  | nil => exact .nil c
  | cons w ws ih => exact .cons (.write w (.nil c)) (ih { c with input := c.input.write w })

theorem chain_command (c : Channel) (cmd : List (List UInt8)) (hc : c.input.line = [])
    (h : Command ENDFLAG Line cmd) :
    Chain Act c (cmd.map writeEvent)
      { c with input := ⟨c.input.lines ++ [cmd.flatten], []⟩ } := by
  have hchain := chain_writes c cmd
  rw [foldl_command c.input cmd hc h] at hchain
  exact hchain

/-- What is on its way arrives and is read. -/
theorem reads_air (c : Channel) (hfifo : c.fifo = []) :
    Reads c (c.air.map Prod.snd) { c with air := [] } := by
  obtain ⟨input, answers, air, fifo⟩ := c
  obtain rfl : fifo = [] := hfifo
  induction air with
  | nil => exact .nil _
  | cons p rest ih => exact .step (.arrive rfl) (.byte rfl ih)

/-- The next line is answered and the reply read at once. -/
theorem reads_reply (c : Channel) (hair : c.air = []) (hfifo : c.fifo = [])
    (hpending : c.answers.length < c.input.lines.length) (text : List UInt8) (ok : Bool)
    (htext : 75 ∉ text) :
    Reads c (text ++ if ok then OKSTR else ERRORSTR)
      { c with answers := c.answers ++ [ok] } := by
  obtain ⟨input, answers, air, fifo⟩ := c
  obtain rfl : air = [] := hair
  obtain rfl : fifo = [] := hfifo
  have hread := reads_air ⟨input, answers ++ [ok], [] ++ reply answers.length text ok, []⟩ rfl
  have hbytes : (reply answers.length text ok).map Prod.snd =
      text ++ if ok then OKSTR else ERRORSTR := by
    rw [reply, List.map_map]
    exact List.map_id _
  rw [List.nil_append, hbytes] at hread
  exact .step (.answer text ok hpending htext) hread

end Exchanges

end GemhoNbiot.ReplyChannel
