import GemhoNbiot.TransparentMode

/-!
Empty USERCOM reads and the RS485 port. Every finished read of a port has taken
one token of its semaphore and every interrupt has released one, so the tokens
left are the interrupts not yet matched by a read. During a streak of empty
USERCOM reads no byte may arrive and be found, so the streak feeds on the
tokens left at its start; and it uses all of them up when the line stays quiet.
-/
namespace GemhoNbiot.IdleReads

open TransparentMode

/-- A finished read other than an empty one of USERCOM ends a streak. -/
def Idle : Event → Prop
  | .receive _ _ => True
  | .read p bs => p = .user ∧ bs = []

section Tokens

theorem interrupts_append (p : PortId) (as bs : List Event) :
    interrupts p (as ++ bs) = interrupts p as + interrupts p bs :=
  List.countP_append

theorem reads_append (p : PortId) (as bs : List Event) :
    reads p (as ++ bs) = reads p as + reads p bs :=
  List.countP_append

theorem received_append (p : PortId) (as bs : List Event) :
    received p (as ++ bs) = received p as + received p bs := by
  rw [received, List.map_append, List.sum_append, received, received]

/-- Tokens, finished reads and the read under way account for all interrupts. -/
theorem tokens {s₀ s : State} {events : List Event} (h : Run s₀ events s)
    (hpc : s₀.pc = .takeUser) (p : PortId) :
    (s.port p).sem + reads p events + s.pc.inRead p =
      (s₀.port p).sem + interrupts p events := by
  induction h with
  | nil => simp [reads, interrupts, hpc, Pc.inRead]
  | @snoc events s s' e _ hstep ih =>
    rw [reads_append, interrupts_append]
    cases hstep with
    | receive q bs hbs =>
      by_cases hq : q = p
      · subst hq
        simp [State.setPort, Port.isr, reads, interrupts] at ih ⊢
        omega
      · simp [State.setPort, Function.update_of_ne (Ne.symm hq), reads, interrupts, hq] at ih ⊢
        omega
    | takeUser hpc' hsem =>
      cases p <;> simp [State.take, State.setPort, hpc', Pc.inRead, reads, interrupts] at ih ⊢ <;>
        omega
    | missUser hpc' hsem => simpa [hpc', Pc.inRead, reads, interrupts] using ih
    | takeRs485 hpc' hsem =>
      cases p <;> simp [State.take, State.setPort, hpc', Pc.inRead, reads, interrupts] at ih ⊢ <;>
        omega
    | missRs485 hpc' hsem => simpa [hpc', Pc.inRead, reads, interrupts] using ih
    | @getByte q buf b rest hpc' hlen hring =>
      by_cases hq : p = q
      · subst hq
        simpa [State.setPort, hpc', Pc.inRead, reads, interrupts] using ih
      · simpa [State.setPort, Function.update_of_ne hq, hpc', Pc.inRead, reads, interrupts]
          using ih
    | endDeviceRead hpc' hend => simpa [hpc', Pc.inRead, reads, interrupts] using ih
    | readAgain hpc' hlen => simpa [hpc', Pc.inRead, reads, interrupts] using ih
    | @endRead q buf hpc' =>
      by_cases hq : q = p <;> simp [State.finish, hpc', Pc.inRead, reads, interrupts, hq] at ih ⊢
      all_goals omega

theorem interrupts_le_received {s₀ s : State} {events : List Event} (h : Run s₀ events s)
    (p : PortId) : interrupts p events ≤ received p events := by
  induction h with
  | nil => simp [interrupts, received]
  | @snoc events s s' e _ hstep ih =>
    rw [interrupts_append, received_append]
    cases hstep with
    | receive q bs hbs =>
      have hpos := List.length_pos_iff.mpr hbs
      by_cases hq : q = p <;> simp [interrupts, received, hq] at ih ⊢
      all_goals omega
    | endRead hpc' => simpa [interrupts, received] using ih
    | _ => simpa [interrupts, received] using ih

end Tokens

/-- The state of the loop during a streak that began with `tokens` tokens and
has seen `n` empty reads: as long as no byte has arrived the reads have been
paid from the tokens, and once one has arrived the next read is not empty. -/
structure Streak (tokens n : ℕ) (s : State) : Prop where
  le : n ≤ tokens
  checking : s.pc = .checking .user [] → n + 1 ≤ tokens
  paid : (s.port .user).ring ≠ [] ∨ (∃ buf, buf ≠ [] ∧
    (s.pc = .reading .user buf ∨ s.pc = .checking .user buf)) ∨
    n + (s.port .user).sem + s.pc.inRead .user ≤ tokens

theorem Streak.step {tokens n : ℕ} {s s' : State} {e : Option Event} (h : Streak tokens n s)
    (hstep : Step s e s') (hidle : ∀ ev ∈ e, Idle ev) :
    Streak tokens (n + reads .user e.toList) s' := by
  obtain ⟨hle, hchecking, hpaid⟩ := h
  cases hstep with
  | receive q bs hbs =>
    cases q with
    | user => exact ⟨by simpa [reads] using hle, by simpa [reads, State.setPort] using hchecking,
        Or.inl (by simpa [State.setPort] using isr_ring_ne_nil (s.port .user) bs hbs)⟩
    | rs485 => exact ⟨by simpa [reads] using hle, by simpa [reads, State.setPort] using hchecking,
        by simpa [reads, State.setPort] using hpaid⟩
  | takeUser hpc hsem =>
    refine ⟨by simpa [reads] using hle, by simp, ?_⟩
    simp [hpc, Pc.inRead, reads, State.take, State.setPort] at hpaid ⊢
    rcases hpaid with hring | hpay
    · exact Or.inl hring
    · exact Or.inr (by omega)
  | missUser hpc hsem =>
    refine ⟨by simpa [reads] using hle, by simp, ?_⟩
    simpa [hpc, Pc.inRead, reads] using hpaid
  | takeRs485 hpc hsem =>
    refine ⟨by simpa [reads] using hle, by simp, ?_⟩
    simpa [hpc, Pc.inRead, reads, State.take, State.setPort] using hpaid
  | missRs485 hpc hsem =>
    refine ⟨by simpa [reads] using hle, by simp, ?_⟩
    simpa [hpc, Pc.inRead, reads] using hpaid
  | @getByte q buf b rest hpc hlen hring =>
    refine ⟨by simpa [reads] using hle, by simp, ?_⟩
    cases q with
    | user => exact Or.inr (Or.inl ⟨buf ++ [b], by simp, Or.inl rfl⟩)
    | rs485 => simpa [hpc, Pc.inRead, reads, State.setPort] using hpaid
  | @endDeviceRead q buf hpc hend =>
    -- An empty device read of USERCOM found the ring empty, so the read was paid for.
    refine ⟨by simpa [reads] using hle, ?_, ?_⟩
    · intro hnew
      obtain ⟨rfl, rfl⟩ : q = .user ∧ buf = [] := by simpa using hnew
      have hempty : (s.port .user).ring = [] := by simpa [bufSize] using hend
      simp [hpc, hempty, Pc.inRead] at hpaid
      simp [reads]
      omega
    · simpa [hpc, Pc.inRead, reads] using hpaid
  | @readAgain q buf hpc hlen =>
    refine ⟨by simpa [reads] using hle, by simp, ?_⟩
    simpa [hpc, Pc.inRead, reads] using hpaid
  | @endRead q buf hpc =>
    obtain ⟨rfl, rfl⟩ := hidle (.read q buf) rfl
    have hroom := hchecking hpc
    refine ⟨by simpa [reads] using hroom, by simp [State.finish], ?_⟩
    simp [hpc, Pc.inRead, reads, State.finish] at hpaid ⊢
    rcases hpaid with hring | hpay
    · exact Or.inl hring
    · exact Or.inr (by omega)

theorem Streak.run {tokens n : ℕ} {s s' : State} {events : List Event} (h : Streak tokens n s)
    (hrun : Run s events s') (hidle : ∀ ev ∈ events, Idle ev) :
    Streak tokens (n + reads .user events) s' := by
  induction hrun with
  | nil => simpa [reads] using h
  | @snoc events s' s'' e _ hstep ih =>
    have hbefore := ih fun ev hev => hidle ev (List.mem_append_left _ hev)
    have hafter := hbefore.step hstep fun ev hev =>
      hidle ev (List.mem_append_right _ (Option.mem_toList.mpr hev))
    rwa [Nat.add_assoc, ← reads_append] at hafter

/-- A streak of empty USERCOM reads is no longer than the number of tokens left
when it begins, and these are at most the bytes received less the reads done. -/
theorem empty_reads_le (rings : PortId → List UInt8) (before streak : List Event)
    (s s' : State) (hbefore : Run (start rings) before s) (hpc : s.pc = .takeUser)
    (hstreak : Run s streak s') (hidle : ∀ ev ∈ streak, Idle ev) :
    reads .user streak ≤ (s.port .user).sem ∧
      (s.port .user).sem + reads .user before = interrupts .user before ∧
      interrupts .user before ≤ received .user before := by
  have hbegin : Streak (s.port .user).sem 0 s :=
    ⟨Nat.zero_le _, by simp [hpc], Or.inr (Or.inr (by simp [hpc, Pc.inRead]))⟩
  have htokens := tokens hbefore rfl .user
  refine ⟨?_, ?_, interrupts_le_received hbefore .user⟩
  · simpa using (hbegin.run hstreak hidle).le
  · simpa [start, hpc, Pc.inRead] using htokens

/-- While the line is quiet every token left costs one empty read, and the
RS485 port keeps waiting. -/
theorem empty_reads_attained (s : State) (hpc : s.pc = .takeUser)
    (hring : (s.port .user).ring = []) (n : ℕ) (hn : n ≤ (s.port .user).sem) :
    ∃ s', Run s (List.replicate n (.read .user [])) s' ∧ s'.pc = .takeUser ∧
      s'.port .user = ⟨[], (s.port .user).sem - n⟩ ∧ s'.port .rs485 = s.port .rs485 := by
  induction n with
  | zero => exact ⟨s, .nil, hpc, by rw [← hring, Nat.sub_zero], rfl⟩
  | succ n ih =>
    obtain ⟨s', hrun, hpc', huser, hrs485⟩ := ih (by omega)
    have hpos : 0 < (s'.port .user).sem := by rw [huser]; simp only; omega
    have htake := hrun.snoc (.takeUser hpc' hpos)
    have hempty := htake.snoc (.endDeviceRead rfl
      (Or.inr (by simp [State.take, State.setPort, huser])))
    have hend := hempty.snoc (.endRead rfl)
    refine ⟨_, by simpa [List.replicate_succ'] using hend, rfl, ?_, ?_⟩
    · simp [State.finish, State.take, State.setPort, huser, Nat.sub_sub]
    · simpa [State.finish, State.take, State.setPort] using hrs485

/-- Three bytes on USERCOM read as one message, with a byte waiting on RS485. -/
theorem message_of_three : ∃ s, Run (start fun _ => [])
    [.receive .user [1], .receive .user [2], .receive .user [3], .receive .rs485 [9],
      .read .user [1, 2, 3]] s ∧ s.pc = .takeUser ∧ s.port .user = ⟨[], 2⟩ ∧
      s.port .rs485 = ⟨[9], 1⟩ := by
  have hstart : Run (start fun _ => []) [] (start fun _ => []) := .nil
  have hreceived := (((hstart.snoc (.receive .user [1] (by simp))).snoc
    (.receive .user [2] (by simp))).snoc (.receive .user [3] (by simp))).snoc
    (.receive .rs485 [9] (by simp))
  have htake := hreceived.snoc (.takeUser rfl (by decide))
  have hbytes := ((htake.snoc (.getByte rfl (by decide) rfl)).snoc
    (.getByte rfl (by decide) rfl)).snoc (.getByte rfl (by decide) rfl)
  have hend := (hbytes.snoc (.endDeviceRead rfl (Or.inr rfl))).snoc (.endRead rfl)
  exact ⟨_, hend, rfl, rfl, rfl⟩

/-- The bound at the message of three. -/
theorem empty_reads_le_three : ∃ s s', Run s [.read .user [], .read .user []] s' ∧
    reads .user [.read .user [], .read .user []] ≤ (s.port .user).sem := by
  obtain ⟨s, hrun, hpc, huser, hrs485⟩ := message_of_three
  obtain ⟨s', hstreak, _⟩ := empty_reads_attained s hpc (by rw [huser]) 2 (by simp [huser])
  exact ⟨s, s', hstreak, (empty_reads_le _ _ _ s s' hrun hpc hstreak (by simp [Idle])).1⟩

/-- Two consecutive empty USERCOM reads with a byte waiting on RS485. -/
theorem empty_reads_starve : ∃ before s s', Run (start fun _ => []) before s ∧
    s.port .rs485 = ⟨[9], 1⟩ ∧ Run s [.read .user [], .read .user []] s' ∧
    s'.port .rs485 = ⟨[9], 1⟩ := by
  obtain ⟨s, hrun, hpc, huser, hrs485⟩ := message_of_three
  obtain ⟨s', hstreak, _, _, hwaiting⟩ :=
    empty_reads_attained s hpc (by rw [huser]) 2 (by simp [huser])
  exact ⟨_, s, s', hrun, hrs485, hstreak, hwaiting.trans hrs485⟩

end GemhoNbiot.IdleReads
