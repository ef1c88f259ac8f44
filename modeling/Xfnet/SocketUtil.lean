import Xfnet.Foundations.Loops
import Xfnet.Kernel

/-!
# `SocketUtil::Select`

The wait for one descriptor: a loop around `poll` that goes on after an interrupt.
-/

namespace Xfnet.SocketUtil

open Loops

/-- What `poll` on one descriptor answers: the events, with the error `GetError` then finds on the
socket; no event within the timeout; or an error. -/
inductive PollOutcome
  | ready (revents : ℕ) (soError : Errno)
  | timedOut
  | failed (e : Errno)
  deriving DecidableEq

/-- One iteration of `int SocketUtil::Select(int fd, int events, uint32_t timeout_ms)`; the state
is `errno`. -/
def selectBody (errno : Errno) : PollOutcome → Flow Errno ℤ
  | .ready revents soError =>
    if revents &&& (pollErr ||| pollHup) ≠ 0 then
      .ret (if soError = .econnreset then -2 else -1) soError
    else if 0 < revents then .ret revents errno
    else .abort
  | .timedOut => .ret 0 .etimedout
  | .failed e => if e ≠ .eintr then .ret (-1) e else .next e

/-- The loop. A positive result of `poll` comes with events. -/
def select : Loop Errno PollOutcome ℤ where
  guard _ := true
  done := -1
  allows
    | _, .ready revents _ => decide (0 < revents)
    | _, _ => true
  body := selectBody

/-- `poll` reports that the connection was reset. -/
def PollOutcome.resets : PollOutcome → Bool
  | .ready revents soError => revents &&& (pollErr ||| pollHup) ≠ 0 ∧ soError = .econnreset
  | _ => false

/-- What stands behind each code of `Select`. -/
theorem selectBody_code {errno e : Errno} {p : PollOutcome} {r : ℤ}
    (h : selectBody errno p = .ret r e) (hr : r ≤ 0) :
    (r = 0 ∧ p = .timedOut) ∨ (r = -2 ∧ p.resets = true) ∨
      (r = -1 ∧ p ≠ .timedOut ∧ p.resets = false) := by
  cases p with
  | ready revents soError =>
    simp only [selectBody] at h
    split_ifs at h with herr hreset hpos
    · cases h
      exact .inr (.inl ⟨rfl, by simpa [PollOutcome.resets] using ⟨herr, hreset⟩⟩)
    · cases h
      exact .inr (.inr ⟨rfl, nofun, by simp [PollOutcome.resets, hreset]⟩)
    · cases h
      omega
  | timedOut =>
    cases h
    exact .inl ⟨rfl, rfl⟩
  | failed e' =>
    simp only [selectBody] at h
    split_ifs at h
    cases h
    exact .inr (.inr ⟨rfl, nofun, rfl⟩)

/-- `Select` answers with the events, or with one of its three codes. -/
theorem select_spec : select.Spec (fun _ => True) (fun r _ => 0 < r ∨ r ∈ [(0 : ℤ), -1, -2]) := by
  refine ⟨fun _ _ hg => by simp [select] at hg, fun _ _ _ _ _ _ _ => trivial,
    fun errno p r e _ _ _ hb => ?_, fun errno p _ _ hallow hb => ?_⟩
  · change selectBody errno p = _ at hb
    cases p with
    | ready revents soError =>
      simp only [selectBody] at hb
      split_ifs at hb with h₁ h₂ h₃ <;> cases hb
      · exact .inr (by simp)
      · exact .inr (by simp)
      · exact .inl (by omega)
    | timedOut => cases hb; simp
    | failed e' =>
      simp only [selectBody] at hb
      split_ifs at hb
      cases hb
      exact .inr (by simp)
  · change selectBody errno p = _ at hb
    cases p with
    | ready revents soError =>
      simp only [select, decide_eq_true_eq] at hallow
      simp only [selectBody] at hb
      split_ifs at hb
    | timedOut => cases hb
    | failed e' =>
      simp only [selectBody] at hb
      split_ifs at hb

end Xfnet.SocketUtil
