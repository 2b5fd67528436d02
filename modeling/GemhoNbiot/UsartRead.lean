import Mathlib.Algebra.GroupWithZero.Nat
import Mathlib.Data.Int.Notation
import GemhoNbiot.TraceLogic

/-!
usart_read of src/usart_utils.c over rt_device_read, the millisecond clock and a
delay. The environment is a stream of bytes of which each device read takes the
next ones, as many as it likes up to the number asked for, and a clock that does
not go back. The read stores the next bytes of the stream, and one that ends
before its buffer is full has seen the timeout pass since its last byte.
-/
namespace GemhoNbiot.UsartRead

open Program TraceLogic

inductive Op
  | deviceRead (len : ℕ)
  | getTimestamp
  | threadDelay (ticks : ℕ)

/-- A device read returns the bytes it stored. -/
abbrev Op.Res : Op → Type
  | .deviceRead _ => List UInt8
  | .getTimestamp => UInt64
  | .threadDelay _ => Unit

abbrev Reader := Prog Op Op.Res

abbrev Call := Event Op Op.Res

def deviceRead (len : ℕ) : Reader (List UInt8) := Prog.perform (Op.deviceRead len)
def getTimestamp : Reader UInt64 := Prog.perform Op.getTimestamp
def threadDelay (ticks : ℕ) : Reader Unit := Prog.perform (Op.threadDelay ticks)

/-- The conversion of a size_t to int. -/
def toCInt (n : ℕ) : ℤ :=
  if n % 4294967296 < 2147483648 then (n % 4294967296 : ℕ)
  else (n % 4294967296 : ℕ) - 4294967296

/-- The buffer behind `d`: an object of the program, so its size fits an int. -/
structure Buffer where
  bytes : List UInt8
  size_lt : bytes.length < 2 ^ 31

/-- The bytes `bs` stored at data + cnt. -/
def store (data : List UInt8) (cnt : ℕ) (bs : List UInt8) : List UInt8 :=
  data.take cnt ++ bs ++ data.drop (cnt + bs.length)

/-- The if after the device read: the new uLastRcvTime and cnt. -/
def account (timeout : Int32) (last : UInt64) (cnt : ℕ) (ret : ℤ) : Reader (UInt64 × ℕ) :=
  if ret > 0 then do
    let t ← getTimestamp
    pure (t, cnt + ret.toNat)
  else if timeout ≠ 0 then do
    threadDelay 1
    pure (last, cnt)
  else
    pure (last, cnt)

/-- The condition of the if that leaves the loop. -/
def exitTest (len : ℕ) (timeout : Int32) (last : UInt64) (cnt : ℕ) : Reader Bool :=
  if timeout ≠ -1 then do
    let t ← getTimestamp
    pure (decide (t - last ≥ UInt64.ofInt timeout.toInt) || decide (cnt ≥ len))
  else
    pure (decide (cnt ≥ len))

/-- The loop with `n` turns left; `last` is uLastRcvTime. -/
def readTurns (len : ℕ) (timeout : Int32) :
    ℕ → UInt64 → ℕ → List UInt8 → Reader (ℤ × List UInt8)
  | 0, _, _, _ => .hang
  | n + 1, last, cnt, data => do
    let bs ← deviceRead (len - cnt)
    let data := store data cnt bs
    let (last, cnt) ← account timeout last cnt (toCInt bs.length)
    let done ← exitTest len timeout last cnt
    if done then pure (toCInt cnt, data) else readTurns len timeout n last cnt data

/-- usart_read on a handle, which is NULL where the port was not opened. -/
def usartRead (fuel : ℕ) (opened : Bool) (d : Buffer) (timeout : Int32) :
    Reader (ℤ × List UInt8) :=
  if !opened then
    pure (-1, d.bytes)
  else do
    let last ← getTimestamp
    readTurns d.bytes.length timeout fuel last 0 d.bytes

/-- The bytes still to come and the clock. -/
structure Port where
  stream : List UInt8
  clock : UInt64

/-- What each call does to the port. -/
inductive Step : Port → Call → Port → Prop
  | deviceRead {len : ℕ} {bs rest : List UInt8} {clock : UInt64} (hlen : bs.length ≤ len) :
      Step ⟨bs ++ rest, clock⟩ ⟨.deviceRead len, bs⟩ ⟨rest, clock⟩
  | getTimestamp {stream : List UInt8} {clock t : UInt64} (ht : clock ≤ t) :
      Step ⟨stream, clock⟩ ⟨.getTimestamp, t⟩ ⟨stream, t⟩
  | threadDelay {ticks : ℕ} (s : Port) : Step s ⟨.threadDelay ticks, ()⟩ s

section Time

/-- A device read that returned bytes. -/
def Received : Call → Prop
  | ⟨.deviceRead _, bs⟩ => bs ≠ []
  | _ => False

/-- The clock value taken after the last device read that returned bytes. -/
def AfterLastRead (calls : List Call) (u : UInt64) : Prop :=
  ∃ before e after, calls = before ++ e :: ⟨.getTimestamp, u⟩ :: after ∧ Received e ∧
    ∀ e ∈ after, ¬ Received e

/-- At the exit test, the last call, `timeout` milliseconds have passed since the
start and since the clock value taken after the last bytes. -/
def TimedOut (timeout : Int32) (calls : List Call) : Prop :=
  ∃ before t, calls = before ++ [⟨.getTimestamp, t⟩] ∧
    (∀ start rest, calls = ⟨.getTimestamp, start⟩ :: rest →
      (start.toNat : ℤ) + timeout.toInt ≤ t.toNat) ∧
    ∀ u, AfterLastRead calls u → (u.toNat : ℤ) + timeout.toInt ≤ t.toNat

end Time

section Calls

variable {calls : List Call} {e : Call} {u : UInt64}

theorem afterLastRead_snoc (h : AfterLastRead (calls ++ [e]) u) :
    ¬ Received e ∧ (AfterLastRead calls u ∨
      e = ⟨.getTimestamp, u⟩ ∧ ∃ before r, calls = before ++ [r] ∧ Received r) := by
  obtain ⟨before, r, after, heq, hr, hafter⟩ := h
  rcases List.eq_nil_or_concat after with rfl | ⟨after', last, rfl⟩
  · have hsplit : calls ++ [e] = (before ++ [r]) ++ [⟨.getTimestamp, u⟩] := by rw [heq]; simp
    obtain ⟨hcalls, hlast⟩ := List.append_inj' hsplit rfl
    obtain rfl := List.singleton_inj.mp hlast
    exact ⟨fun h => h, Or.inr ⟨rfl, before, r, hcalls, hr⟩⟩
  · rw [List.concat_eq_append] at heq hafter
    have hsplit : calls ++ [e] = (before ++ r :: ⟨.getTimestamp, u⟩ :: after') ++ [last] := by
      rw [heq]; simp
    obtain ⟨hcalls, hlast⟩ := List.append_inj' hsplit rfl
    obtain rfl := List.singleton_inj.mp hlast
    refine ⟨hafter e (by simp), Or.inl ⟨before, r, after', hcalls, hr, fun c hc => ?_⟩⟩
    exact hafter c (List.mem_append_left _ hc)

/-- What `last` knows of the calls so far: they are not waiting for the clock
value that belongs to a device read. -/
structure Settled (last : UInt64) (calls : List Call) : Prop where
  started : ∃ start rest, calls = ⟨.getTimestamp, start⟩ :: rest ∧ start ≤ last
  after_eq : ∀ u, AfterLastRead calls u → u = last
  not_received : ∀ before r, calls = before ++ [r] → ¬ Received r

theorem Settled.snoc {last : UInt64} (h : Settled last calls) (he : ¬ Received e) :
    Settled last (calls ++ [e]) where
  started := by
    obtain ⟨start, rest, rfl, hle⟩ := h.started
    exact ⟨start, rest ++ [e], rfl, hle⟩
  after_eq := by
    intro u hu
    rcases (afterLastRead_snoc hu).2 with hold | ⟨_, before, r, hcalls, hr⟩
    · exact h.after_eq u hold
    · exact absurd hr (h.not_received before r hcalls)
  not_received := by
    intro before r heq
    obtain ⟨_, hlast⟩ := List.append_inj' heq rfl
    obtain rfl := List.singleton_inj.mp hlast
    exact he

/-- Bytes and the clock value taken after them. -/
theorem Settled.received {last t : UInt64} (h : Settled last calls) (he : Received e)
    (ht : last ≤ t) : Settled t (calls ++ [e] ++ [⟨.getTimestamp, t⟩]) where
  started := by
    obtain ⟨start, rest, rfl, hle⟩ := h.started
    exact ⟨start, rest ++ [e] ++ [⟨.getTimestamp, t⟩], by simp, UInt64.le_trans hle ht⟩
  after_eq := by
    intro u hu
    rcases (afterLastRead_snoc hu).2 with hold | ⟨heq, _⟩
    · exact absurd he (afterLastRead_snoc hold).1
    · exact (eq_of_heq (Sigma.mk.inj heq).2).symm
  not_received := by
    intro before r heq
    obtain ⟨_, hlast⟩ := List.append_inj' heq rfl
    obtain rfl := List.singleton_inj.mp hlast
    exact fun h => h

/-- The exit test that finds the timeout passed. -/
theorem Settled.timedOut {last t : UInt64} {timeout : Int32} (h : Settled last calls)
    (ht : last ≤ t) (htimeout : 0 ≤ timeout) (hpassed : t - last ≥ UInt64.ofInt timeout.toInt) :
    TimedOut timeout (calls ++ [⟨.getTimestamp, t⟩]) := by
  have hpos : (0 : ℤ) ≤ timeout.toInt := Int32.le_iff_toInt_le.mp htimeout
  have hlt : timeout.toInt < 2 ^ 31 := timeout.toInt_lt
  have hdiff : (last.toNat : ℤ) + timeout.toInt ≤ t.toNat := by
    have hle := UInt64.le_iff_toNat_le.mp ht
    have hge := UInt64.le_iff_toNat_le.mp hpassed
    rw [UInt64.toNat_sub_of_le _ _ ht, UInt64.ofInt, UInt64.toNat_ofNat'] at hge
    omega
  refine ⟨calls, t, rfl, ?_, ?_⟩
  · intro start rest heq
    obtain ⟨start', rest', rfl, hle⟩ := h.started
    obtain ⟨hstart, _⟩ := List.cons.inj heq
    obtain rfl := eq_of_heq (Sigma.mk.inj hstart).2
    have hle' := UInt64.le_iff_toNat_le.mp hle
    omega
  · intro u hu
    rcases (afterLastRead_snoc hu).2 with hold | ⟨_, before, r, hcalls, hr⟩
    · rw [h.after_eq u hold]
      exact hdiff
    · exact absurd hr (h.not_received before r hcalls)

end Calls

section Loop

variable {d : Buffer} {s₀ s : Port} {timeout : Int32} {last : UInt64} {cnt : ℕ}
  {data : List UInt8} {calls : List Call}

/-- The head of the loop: the buffer starts with the bytes that have left the
stream, and keeps its old bytes behind them. -/
structure Held (d : Buffer) (s₀ : Port) (last : UInt64) (cnt : ℕ) (data : List UInt8)
    (s : Port) (calls : List Call) : Prop where
  settled : Settled last calls
  last_le : last ≤ s.clock
  cnt_le : cnt ≤ d.bytes.length
  stored : ∃ got, s₀.stream = got ++ s.stream ∧ got.length = cnt ∧ data = got ++ d.bytes.drop cnt

/-- A device read has stored `bs` and uLastRcvTime and cnt do not yet count it. -/
structure Pending (d : Buffer) (s₀ : Port) (last : UInt64) (cnt : ℕ) (data bs : List UInt8)
    (s : Port) (calls : List Call) : Prop where
  before : ∃ before len, calls = before ++ [⟨.deviceRead len, bs⟩] ∧ Settled last before
  last_le : last ≤ s.clock
  fits : cnt + bs.length ≤ d.bytes.length
  stored : ∃ got, s₀.stream = got ++ bs ++ s.stream ∧ got.length = cnt ∧
    data = got ++ bs ++ d.bytes.drop (cnt + bs.length)

/-- What a call that returns `k` and leaves this buffer has done. -/
def Right (d : Buffer) (timeout : Int32) (s₀ : Port) (r : ℤ × List UInt8) (s : Port)
    (calls : List Call) : Prop :=
  ∃ n : ℕ, r.1 = n ∧ n ≤ d.bytes.length ∧ s₀.stream = r.2.take n ++ s.stream ∧
    r.2 = r.2.take n ++ d.bytes.drop n ∧ r.2.length = d.bytes.length ∧
    (n < d.bytes.length → TimedOut timeout calls)

theorem toCInt_eq {n : ℕ} (h : n < 2 ^ 31) : toCInt n = n := by
  have hmod : n % 4294967296 = n := Nat.mod_eq_of_lt (by omega)
  rw [toCInt, hmod, if_pos (by omega)]

theorem Held.read {len : ℕ} {bs : List UInt8} {s' : Port} (h : Held d s₀ last cnt data s calls)
    (hlen : len = d.bytes.length - cnt) (hstep : Step s ⟨.deviceRead len, bs⟩ s') :
    Pending d s₀ last cnt (store data cnt bs) bs s' (calls ++ [⟨.deviceRead len, bs⟩]) := by
  obtain ⟨got, hstream, hgot, hdata⟩ := h.stored
  have hcnt := h.cnt_le
  have hlast := h.last_le
  cases hstep with
  | @deviceRead _ _ rest clock hbs =>
    refine ⟨⟨calls, len, rfl, h.settled⟩, hlast, by omega, got, by simpa using hstream, hgot, ?_⟩
    have htake : data.take cnt = got := by rw [hdata, ← hgot, List.take_left]
    have hdrop : data.drop (cnt + bs.length) = d.bytes.drop (cnt + bs.length) := by
      rw [← List.drop_drop, hdata, ← hgot, List.drop_left, List.drop_drop]
    rw [store, htake, hdrop]

/-- Empty reads change nothing. -/
theorem Pending.empty (h : Pending d s₀ last cnt data [] s calls) :
    Held d s₀ last cnt data s calls := by
  obtain ⟨before, len, rfl, hsettled⟩ := h.before
  obtain ⟨got, hstream, hgot, hdata⟩ := h.stored
  exact ⟨hsettled.snoc fun hne => hne rfl, h.last_le, h.fits, got, by simpa using hstream, hgot,
    by simpa using hdata⟩

theorem Pending.received {bs : List UInt8} {t : UInt64} {s' : Port}
    (h : Pending d s₀ last cnt data bs s calls) (hne : bs ≠ [])
    (hstep : Step s ⟨.getTimestamp, t⟩ s') :
    Held d s₀ t (cnt + bs.length) data s' (calls ++ [⟨.getTimestamp, t⟩]) := by
  obtain ⟨before, len, rfl, hsettled⟩ := h.before
  obtain ⟨got, hstream, hgot, hdata⟩ := h.stored
  have hlast := h.last_le
  cases hstep with
  | getTimestamp ht =>
    exact ⟨hsettled.received hne (UInt64.le_trans hlast ht), UInt64.le_refl t, h.fits,
      got ++ bs, hstream, by simp [hgot], hdata⟩

theorem Held.delay {s' : Port} {ticks : ℕ} (h : Held d s₀ last cnt data s calls)
    (hstep : Step s ⟨.threadDelay ticks, ()⟩ s') :
    Held d s₀ last cnt data s' (calls ++ [⟨.threadDelay ticks, ()⟩]) := by
  cases hstep with
  | threadDelay => exact ⟨h.settled.snoc fun h => h, h.last_le, h.cnt_le, h.stored⟩

/-- A read of the clock that brings no new bytes. -/
theorem Held.clock {s' : Port} {t : UInt64} (h : Held d s₀ last cnt data s calls)
    (hstep : Step s ⟨.getTimestamp, t⟩ s') :
    Held d s₀ last cnt data s' (calls ++ [⟨.getTimestamp, t⟩]) ∧ last ≤ t := by
  have hlast := h.last_le
  cases hstep with
  | getTimestamp ht =>
    have hle := UInt64.le_trans hlast ht
    exact ⟨⟨h.settled.snoc fun h => h, hle, h.cnt_le, h.stored⟩, hle⟩

/-- uLastRcvTime and cnt after the if. -/
theorem account_held (bs : List UInt8) :
    Triple (Along Step s₀ (Pending d s₀ last cnt data bs))
      (account timeout last cnt (toCInt bs.length))
      (fun a => Along Step s₀ (Held d s₀ a.1 a.2 data)) := by
  have hint : ∀ {s calls}, Pending d s₀ last cnt data bs s calls → toCInt bs.length = bs.length :=
    fun h => toCInt_eq (Nat.lt_of_le_of_lt (Nat.le_of_add_left_le h.fits) d.size_lt)
  have hempty : ¬ toCInt bs.length > 0 → ∀ {s calls}, Pending d s₀ last cnt data bs s calls →
      Held d s₀ last cnt data s calls := by
    intro hneg s calls h
    rw [hint h] at hneg
    obtain rfl : bs = [] := List.length_eq_zero_iff.mp (by omega)
    exact h.empty
  refine triple_ite (fun hpos => ?_) fun hneg => triple_ite (fun _ => ?_) fun _ => ?_
  · refine triple_step (fun t => Held d s₀ t (cnt + (toCInt bs.length).toNat) data) ?_ fun t => ?_
    · intro calls s t s' h hstep
      rw [hint h] at hpos ⊢
      exact h.received (by rintro rfl; simp at hpos) hstep
    · exact triple_along_pure fun s calls h => h
  · refine triple_step (fun _ => Held d s₀ last cnt data) ?_ fun _ => ?_
    · exact fun calls s _ s' h hstep => (hempty hneg h).delay hstep
    · exact triple_along_pure fun s calls h => h
  · exact triple_along_pure fun s calls h => hempty hneg h

/-- The loop goes on with the same bytes, or has its reason to end. -/
theorem exitTest_held (htimeout : 0 ≤ timeout) :
    Triple (Along Step s₀ (Held d s₀ last cnt data)) (exitTest d.bytes.length timeout last cnt)
      (fun done => Along Step s₀ fun s calls => Held d s₀ last cnt data s calls ∧
        (done = true → cnt < d.bytes.length → TimedOut timeout calls)) := by
  refine triple_ite (fun _ => ?_) fun hne => ?_
  · refine triple_step (fun t s calls => Held d s₀ last cnt data s calls ∧
      (t - last ≥ UInt64.ofInt timeout.toInt → TimedOut timeout calls)) ?_ fun t => ?_
    · intro calls s t s' h hstep
      obtain ⟨hheld, hle⟩ := h.clock hstep
      exact ⟨hheld, h.settled.timedOut hle htimeout⟩
    · apply triple_along_pure
      intro s calls h
      refine ⟨h.1, fun hdone hlt => h.2 ?_⟩
      simpa [Nat.not_le.mpr hlt] using hdone
  · rw [not_not.mp hne] at htimeout
    exact absurd htimeout (by decide)

/-- The loop, by induction on its turns. -/
theorem readTurns_right (htimeout : 0 ≤ timeout) (n : ℕ) (last : UInt64) (cnt : ℕ)
    (data : List UInt8) :
    Triple (Along Step s₀ (Held d s₀ last cnt data))
      (readTurns d.bytes.length timeout n last cnt data)
      (fun r => Along Step s₀ (Right d timeout s₀ r)) := by
  induction n generalizing last cnt data with
  | zero => exact triple_hang
  | succ n ih =>
    refine triple_step (fun bs => Pending d s₀ last cnt (store data cnt bs) bs) ?_ fun bs => ?_
    · exact fun calls s bs s' h hstep => h.read rfl hstep
    refine triple_bind _ (account_held bs) fun a => ?_
    refine triple_bind _ (exitTest_held htimeout) fun done => triple_ite (fun hdone => ?_)
      fun _ => ?_
    · apply triple_along_pure
      intro s calls h
      obtain ⟨hheld, hexit⟩ := h
      obtain ⟨got, hstream, hgot, hdata⟩ := hheld.stored
      have htake : (store data cnt bs).take a.2 = got := by rw [hdata, ← hgot, List.take_left]
      have hint : toCInt a.2 = a.2 := toCInt_eq (Nat.lt_of_le_of_lt hheld.cnt_le d.size_lt)
      have hlength : (store data cnt bs).length = d.bytes.length := by
        have hcnt := hheld.cnt_le
        rw [hdata, List.length_append, hgot, List.length_drop]
        omega
      refine ⟨a.2, ?_, hheld.cnt_le, ?_, ?_, hlength, hexit hdone⟩
      · dsimp only
        exact hint
      · rw [htake]
        exact hstream
      · rw [htake]
        exact hdata
    · exact (ih a.1 a.2 (store data cnt bs)).mono (fun calls h s hchain => (h s hchain).1)
        fun _ _ h => h

/-- One call, from any state of the port. -/
theorem usartRead_right (fuel : ℕ) (htimeout : 0 ≤ timeout) {r : ℤ × List UInt8}
    {s' : Port} (hrun : Runs (usartRead fuel true d timeout) calls r)
    (hport : Chain Step s calls s') : Right d timeout s r s' calls := by
  have hturns : Triple (Along Step s fun s₁ calls => s₁ = s ∧ calls = [])
      (usartRead fuel true d timeout) (fun r => Along Step s (Right d timeout s r)) := by
    refine triple_step (fun t => Held d s t 0 d.bytes) ?_ fun t => readTurns_right htimeout _ _ _ _
    rintro _ s₁ t s₂ ⟨rfl, rfl⟩ hstep
    cases hstep with
    | getTimestamp ht =>
      refine ⟨⟨⟨t, [], rfl, UInt64.le_refl t⟩, ?_, ?_⟩, UInt64.le_refl t, Nat.zero_le _, [], rfl,
        rfl, rfl⟩
      · intro u hu
        obtain ⟨before, e, after, heq, _⟩ := hu
        have hlen := congrArg List.length heq
        simp at hlen
        omega
      · intro before r heq
        obtain ⟨_, hlast⟩ := List.append_inj' (heq : [] ++ [_] = before ++ [r]) rfl
        obtain rfl := List.singleton_inj.mp hlast
        exact fun h => h
  exact hturns [] calls r (fun s₁ hnil => ⟨(chain_nil.mp hnil).symm, rfl⟩) hrun s' hport

end Loop

section Successive

/-- One call of usart_read: its arguments, the calls it made and what it left. -/
structure ReadCall where
  d : Buffer
  timeout : Int32
  calls : List Call
  ret : ℤ
  data : List UInt8

/-- The bytes the caller finds in its buffer. -/
def ReadCall.received (c : ReadCall) : List UInt8 := c.data.take c.ret.toNat

/-- Calls of usart_read on an open port, one after the other. -/
inductive Successive : Port → List ReadCall → Port → Prop
  | nil (s : Port) : Successive s [] s
  | cons {s s' s'' : Port} {c : ReadCall} {cs : List ReadCall} (fuel : ℕ) :
      Runs (usartRead fuel true c.d c.timeout) c.calls (c.ret, c.data) →
      Chain Step s c.calls s' → Successive s' cs s'' → Successive s (c :: cs) s''

/-- The count fits the buffer, the buffer keeps its size and its old bytes behind those
received, and a count below its size is due to the timeout. -/
structure Kept (c : ReadCall) : Prop where
  count : ∃ n : ℕ, c.ret = n ∧ n ≤ c.d.bytes.length
  length_eq : c.data.length = c.d.bytes.length
  data_eq : c.data = c.received ++ c.d.bytes.drop c.ret.toNat
  timedOut : c.ret < c.d.bytes.length → TimedOut c.timeout c.calls

/-- Successive calls cut the stream into what they deliver. -/
theorem usartRead_partitions (s s' : Port) (cs : List ReadCall) (hcalls : Successive s cs s')
    (htimeout : ∀ c ∈ cs, 0 ≤ c.timeout) :
    (∀ c ∈ cs, Kept c) ∧ s.stream = (cs.map ReadCall.received).flatten ++ s'.stream := by
  induction hcalls with
  | nil s => exact ⟨fun c hc => by simp at hc, rfl⟩
  | @cons s s₁ s' c cs fuel hrun hport _ ih =>
    obtain ⟨hrest, hstream⟩ := ih fun c hc => htimeout c (List.mem_cons_of_mem _ hc)
    obtain ⟨n, hret, hn, hnext, hdata, hlength, hexit⟩ :=
      usartRead_right fuel (htimeout c List.mem_cons_self) hrun hport
    have hnat : c.ret.toNat = n := by
      rw [show c.ret = n from hret]
      rfl
    have hreceived : c.received = c.data.take n := by rw [ReadCall.received, hnat]
    refine ⟨fun c' hc' => ?_, ?_⟩
    · rcases List.mem_cons.mp hc' with rfl | hc'
      · refine ⟨⟨n, hret, hn⟩, hlength, ?_, fun hlt => hexit ?_⟩
        · rw [hreceived, hnat]
          exact hdata
        · rw [show c'.ret = n from hret] at hlt
          exact Int.ofNat_lt.mp hlt
      · exact hrest c' hc'
    · rw [List.map_cons, List.flatten_cons, hreceived, List.append_assoc, ← hstream]
      exact hnext

/-- A call that fills its buffer and one that times out. -/
def fullRead : ReadCall where
  d := ⟨[0, 0], by decide⟩
  timeout := 10
  calls := [⟨.getTimestamp, 0⟩, ⟨.deviceRead 2, [1]⟩, ⟨.getTimestamp, 1⟩, ⟨.getTimestamp, 1⟩,
    ⟨.deviceRead 1, [2]⟩, ⟨.getTimestamp, 5⟩, ⟨.getTimestamp, 5⟩]
  ret := 2
  data := [1, 2]

def shortRead : ReadCall where
  d := ⟨[9, 9], by decide⟩
  timeout := 3
  calls := [⟨.getTimestamp, 5⟩, ⟨.deviceRead 2, []⟩, ⟨.threadDelay 1, ()⟩, ⟨.getTimestamp, 6⟩,
    ⟨.deviceRead 2, [3]⟩, ⟨.getTimestamp, 7⟩, ⟨.getTimestamp, 7⟩, ⟨.deviceRead 1, []⟩,
    ⟨.threadDelay 1, ()⟩, ⟨.getTimestamp, 10⟩]
  ret := 1
  data := [3, 9]

theorem step_read (bs : List UInt8) {len : ℕ} {rest : List UInt8} {clock : UInt64}
    (hlen : bs.length ≤ len) : Step ⟨bs ++ rest, clock⟩ ⟨.deviceRead len, bs⟩ ⟨rest, clock⟩ :=
  .deviceRead hlen

theorem usartRead_partitions_two :
    (∀ c ∈ [fullRead, shortRead], Kept c) ∧
      [1, 2, 3, 4] = ([fullRead, shortRead].map ReadCall.received).flatten ++ [4] := by
  have hfull : Runs (usartRead 9 true fullRead.d fullRead.timeout) fullRead.calls (2, [1, 2]) :=
    .call (.call (.call (.call (.call (.call (.call (.ret _)))))))
  have hshort : Runs (usartRead 9 true shortRead.d shortRead.timeout) shortRead.calls
      (1, [3, 9]) :=
    .call (.call (.call (.call (.call (.call (.call (.call (.call (.call (.ret _))))))))))
  have hport : Chain Step ⟨[1, 2, 3, 4], 0⟩ fullRead.calls ⟨[3, 4], 5⟩ :=
    .cons (.getTimestamp (by decide)) (.cons (step_read [1] (by decide))
      (.cons (.getTimestamp (by decide)) (.cons (.getTimestamp (by decide))
      (.cons (step_read [2] (by decide)) (.cons (.getTimestamp (by decide))
      (.cons (.getTimestamp (by decide)) (.nil _)))))))
  have hport' : Chain Step ⟨[3, 4], 5⟩ shortRead.calls ⟨[4], 10⟩ :=
    .cons (.getTimestamp (by decide)) (.cons (step_read [] (by decide))
      (.cons (.threadDelay _) (.cons (.getTimestamp (by decide))
      (.cons (step_read [3] (by decide)) (.cons (.getTimestamp (by decide))
      (.cons (.getTimestamp (by decide)) (.cons (step_read [] (by decide))
      (.cons (.threadDelay _) (.cons (.getTimestamp (by decide)) (.nil _))))))))))
  exact usartRead_partitions _ _ [fullRead, shortRead]
    (.cons 9 hfull hport (.cons 9 hshort hport' (.nil _))) (by decide)

end Successive

end GemhoNbiot.UsartRead
