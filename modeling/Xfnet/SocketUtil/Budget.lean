import Xfnet.SocketUtil
import Mathlib.Algebra.Order.BigOperators.Group.List
import Mathlib.Algebra.Order.Ring.Nat

/-!
# The time that `SocketUtil::Select` takes

`Select` passes its `uint32_t timeout_ms` to `poll`, whose timeout is an `int`, and starts again
with the whole timeout when `poll` is interrupted. Here every answer of `poll` comes with the time
it took (`TimedPoll`): at most the timeout of that `poll` when it is not negative, and any time
when it is.

* `spent_le`: below `2 ^ 31` a call of `k` polls takes at most `k` times the timeout.
* `select_keeps_budget_iff`: what `poll` has to answer for the call to take at most the timeout,
  whatever time the polls take.
-/

namespace Xfnet.SocketUtil

open Loops

/-- An answer of `poll`, and the milliseconds that it took. -/
structure TimedPoll where
  outcome : PollOutcome
  ms : ℕ
  deriving DecidableEq

/-- A `poll` with the timeout `t` may take `ms` milliseconds. -/
def mayTake (t : ℤ) (ms : ℕ) : Bool := decide (t < 0 ∨ (ms : ℤ) ≤ t)

/-- `int SocketUtil::Select(int fd, int events, uint32_t timeout_ms)`, with the time of its polls:
each is `poll(fds, 1, timeout_ms)`, with the timeout converted to `int`. -/
def selectTimed (timeout_ms : BitVec 32) : Loop Errno TimedPoll ℤ :=
  select.observed TimedPoll.outcome fun _ p => mayTake timeout_ms.toInt p.ms

/-- The milliseconds spent in the polls. -/
def spent (polls : List TimedPoll) : ℕ := (polls.map TimedPoll.ms).sum

/-- A call of `Select` in which `poll` gives these answers takes at most `timeout_ms`, whatever
time each `poll` takes. -/
def KeepsBudget (timeout_ms : BitVec 32) (errno : Errno) (outcomes : List PollOutcome) : Prop :=
  ∀ polls a, polls.map TimedPoll.outcome = outcomes →
    (selectTimed timeout_ms).call errno polls = some a → spent polls ≤ timeout_ms.toNat

section Budget

variable {timeout_ms : BitVec 32} {errno : Errno} {polls : List TimedPoll} {a : Act Errno ℤ}

/-- `Select` polls again after an interrupt only. -/
theorem eintr_of_goesOn {p : PollOutcome} (h : select.GoesOn p) : p = .failed .eintr := by
  obtain ⟨errno, e, hb⟩ := h
  change selectBody errno p = _ at hb
  cases p with
  | ready revents soError =>
    simp only [selectBody] at hb
    split_ifs at hb
  | timedOut => cases hb
  | failed e' =>
    simp only [selectBody] at hb
    split_ifs at hb with he
    rw [not_not.mp he]

/-- Every `poll` of a call has the whole timeout. -/
theorem mayTake_of_call (h : (selectTimed timeout_ms).call errno polls = some a) {p : TimedPoll}
    (hp : p ∈ polls) : mayTake timeout_ms.toInt p.ms = true :=
  (Loop.observed_call.mp h).2 p hp

theorem ms_le_of_mayTake (hlt : timeout_ms.toNat < 2 ^ 31) {ms : ℕ}
    (h : mayTake timeout_ms.toInt ms = true) : ms ≤ timeout_ms.toNat := by
  rw [mayTake, decide_eq_true_eq, BitVec.toInt_eq_toNat_of_lt (by omega)] at h
  omega

/-- **The bound that the loop does keep**: below `2 ^ 31` milliseconds, one timeout for each
`poll`. -/
theorem spent_le (hlt : timeout_ms.toNat < 2 ^ 31)
    (h : (selectTimed timeout_ms).call errno polls = some a) :
    spent polls ≤ polls.length * timeout_ms.toNat := by
  have hms : ∀ ms ∈ polls.map TimedPoll.ms, ms ≤ timeout_ms.toNat := by
    intro ms hmem
    obtain ⟨p, hp, rfl⟩ := List.mem_map.mp hmem
    exact ms_le_of_mayTake hlt (mayTake_of_call h hp)
  simpa [spent] using List.sum_le_card_nsmul _ _ hms

/-- A time that every `poll` may take: the timeout, or, for a timeout that is negative as an
`int`, one millisecond more. -/
def slowest (timeout_ms : BitVec 32) : ℕ :=
  if timeout_ms.toNat < 2 ^ 31 then timeout_ms.toNat else timeout_ms.toNat + 1

theorem mayTake_slowest (timeout_ms : BitVec 32) :
    mayTake timeout_ms.toInt (slowest timeout_ms) = true := by
  rw [mayTake, slowest, decide_eq_true_eq]
  split_ifs with h
  · right
    rw [BitVec.toInt_eq_toNat_of_lt (by omega)]
  · left
    exact BitVec.toInt_neg_iff.mpr (by omega)

/-- Every `poll` of a call may be as slow as that. -/
theorem call_slowest {outcomes : List PollOutcome} (h : select.call errno outcomes = some a) :
    (selectTimed timeout_ms).call errno (outcomes.map fun o => ⟨o, slowest timeout_ms⟩) =
      some a := by
  refine Loop.observed_call.mpr ⟨?_, ?_⟩
  · rwa [List.map_map, show TimedPoll.outcome ∘ (fun o => ⟨o, slowest timeout_ms⟩) = id from rfl,
      List.map_id]
  · rintro p hp
    obtain ⟨o, -, rfl⟩ := List.mem_map.mp hp
    exact mayTake_slowest timeout_ms

theorem spent_slowest (outcomes : List PollOutcome) :
    spent (outcomes.map fun o => ⟨o, slowest timeout_ms⟩) =
      outcomes.length * slowest timeout_ms := by
  rw [spent, List.map_map, show TimedPoll.ms ∘ (fun o : PollOutcome => ⟨o, slowest timeout_ms⟩) =
    Function.const _ (slowest timeout_ms) from rfl, List.map_const, List.sum_replicate_nat]

/-- **When `Select` respects its timeout.** `interrupted` are the answers before the last one, all
of them interrupts; the call has returned with the last one, or goes on. -/
theorem select_keeps_budget_iff {interrupted : List PollOutcome} {last : PollOutcome}
    (h : select.call errno (interrupted ++ [last]) = some a) :
    (∀ p ∈ interrupted, p = .failed .eintr) ∧
      (KeepsBudget timeout_ms errno (interrupted ++ [last]) ↔
        timeout_ms = 0 ∨ timeout_ms.toNat < 2 ^ 31 ∧ interrupted = []) := by
  refine ⟨fun p hp => eintr_of_goesOn (Loop.goesOn_of_feed h p hp), fun hkeeps => ?_, ?_⟩
  · have hsum := hkeeps _ a (by simp [Function.comp_def]) (call_slowest h)
    rw [spent_slowest, List.length_append, List.length_singleton, Nat.add_mul, Nat.one_mul] at hsum
    by_cases hlt : timeout_ms.toNat < 2 ^ 31
    · rw [slowest, if_pos hlt] at hsum
      rcases Nat.mul_eq_zero.mp (Nat.le_zero.mp (Nat.le_of_add_le_add_right
        (hsum.trans_eq (Nat.zero_add _).symm))) with hnil | hzero
      · exact .inr ⟨hlt, List.length_eq_zero_iff.mp hnil⟩
      · exact .inl (BitVec.eq_of_toNat_eq (by simpa using hzero))
    · rw [slowest, if_neg hlt] at hsum
      omega
  · rintro hcond polls b hpolls hcall
    have hlt : timeout_ms.toNat < 2 ^ 31 := by
      rcases hcond with rfl | ⟨hlt, -⟩
      · decide
      · exact hlt
    have hle := spent_le hlt hcall
    rcases hcond with rfl | ⟨-, rfl⟩
    · simpa using hle
    · have hlen : polls.length = 1 := by simpa using congrArg List.length hpolls
      rwa [hlen, Nat.one_mul] at hle

/-- A wait of 100 ms that no signal interrupts. -/
theorem select_keeps_budget_hundred :
    KeepsBudget 100 .eagain ([] ++ [PollOutcome.timedOut]) :=
  (select_keeps_budget_iff (a := .returned 0 .etimedout) (by decide)).2.mpr
    (.inr ⟨by decide, rfl⟩)

/-- **A signal after 100 of 100 ms**: the second `poll` waits another 100 ms. -/
theorem interrupt_doubles_wait : ¬∀ (timeout_ms : BitVec 32) (errno : Errno)
    (polls : List TimedPoll) (a : Act Errno ℤ),
    (selectTimed timeout_ms).call errno polls = some a → spent polls ≤ timeout_ms.toNat := by
  intro h
  exact absurd (h 100 .eagain [⟨.failed .eintr, 100⟩, ⟨.timedOut, 100⟩] (.returned 0 .etimedout)
    (by decide)) (by decide)

/-- **A timeout of `2 ^ 31` ms** is negative for `poll`, which then waits as long as it takes. -/
example : ∃ a, (selectTimed (2 ^ 31)).call .eagain [⟨.ready pollIn .eagain, 2 ^ 31 + 1⟩] =
    some a := ⟨.returned 1 .eagain, by decide⟩

end Budget

end Xfnet.SocketUtil
