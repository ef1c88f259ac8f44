import Xfnet.SocketUtil
import Xfnet.Stream.Cursor

/-!
# `Stream::Send` and `Stream::Recv` with a timeout

The blocking transfers: a loop around `write` or `read` that waits in `SocketUtil::Select` whenever
the kernel would block. An activation is either at its system call or in that wait, so its events
are those of the system call and those of `poll`.

The local cursor of these functions advances by what was transferred (`Timed.advance`), so the
cursor of a buffer of `n` bytes at `base` is always `(base + k, n - k)` after `k` bytes (`At`).
-/

namespace Xfnet.Stream

open Loops SocketUtil

/-- The local cursor, `errno`, and whether the activation waits in `Select`. -/
structure Timed where
  data : ℕ
  size : ℕ
  errno : Errno
  waiting : Bool
  deriving DecidableEq

/-- What the kernel answers: to the system call, or to `poll`. -/
inductive TimedEvent
  | io (o : Syscall)
  | poll (p : PollOutcome)
  deriving DecidableEq

/-- The number of bytes an event moves. -/
def TimedEvent.count : TimedEvent → ℕ
  | .io (.moves c) => c
  | _ => 0

/-- The cursor at the entry of a call. -/
def Timed.fresh (base n : ℕ) (errno : Errno) : Timed := ⟨base, n, errno, false⟩

/-- `data = (char*)data + wsize; size -= wsize;` -/
def Timed.advance (s : Timed) (wsize : ℕ) : Timed :=
  { s with data := s.data + wsize, size := s.size - wsize }

/-- One iteration of the transfer, or of the wait inside it; `onZero` is what the call returns for
a result of zero, when zero is not just a transfer of no bytes. -/
def timedBody (onZero : Option ℤ) (s : Timed) : TimedEvent → Flow Timed ℤ
  | .io (.moves c) =>
    match onZero with
    | some r => if 0 < c then .next (s.advance c) else .ret r s
    | none => .next (s.advance c)
  | .io (.fails e) =>
    if e = .eagain then .next { s with errno := e, waiting := true }
    else if e ≠ .eintr then .ret (-1) { s with errno := e }
    else .next { s with errno := e }
  | .poll p =>
    match selectBody s.errno p with
    | .next e => .next { s with errno := e }
    | .ret events e =>
      if events ≤ 0 then .ret events { s with errno := e, waiting := false }
      else .next { s with errno := e, waiting := false }
    | .abort => .abort

/-- `poll` reports that the connection was reset. -/
def TimedEvent.resets : TimedEvent → Bool
  | .poll p => p.resets
  | .io _ => false

/-- A return in the wait is one of `Select`. -/
theorem selectBody_of_timedBody {onZero : Option ℤ} {s s' : Timed} {p : PollOutcome} {r : ℤ}
    (h : timedBody onZero s (.poll p) = .ret r s') :
    r ≤ 0 ∧ ∃ e, selectBody s.errno p = .ret r e := by
  simp only [timedBody] at h
  split at h
  · cases h
  · next events e hselect =>
    split at h
    · next hle =>
      cases h
      exact ⟨hle, e, hselect⟩
    · cases h
  · cases h

/-- The loop. The kernel moves at least `least` bytes, and at most what it was asked for. -/
def timedLoop (least : ℕ) (onZero : Option ℤ) : Loop Timed TimedEvent ℤ where
  guard s := decide (0 < s.size)
  done := 1
  allows
    | s, .io (.moves c) => !s.waiting && decide (least ≤ c ∧ c ≤ s.size)
    | s, .io (.fails _) => !s.waiting
    | s, .poll p => s.waiting && select.allows s.errno p
  body := timedBody onZero

/-- `int Stream::Send(const void* data, ssize_t size, uint32_t timeout_ms)`. -/
def sendTimed : Loop Timed TimedEvent ℤ := timedLoop 1 none

/-- `int Stream::Recv(void* buf, size_t size, uint32_t timeout_ms)`. -/
def recvTimed : Loop Timed TimedEvent ℤ := timedLoop 0 (some (-2))

section Progress

variable {least base n k : ℕ} {onZero : Option ℤ} {s : Timed} {e : TimedEvent}
  {a : Act Timed ℤ}

/-- The cursor after `k` of the `n` bytes at `base`. -/
structure Timed.At (base n k : ℕ) (s : Timed) : Prop where
  data : s.data = base + k
  size : s.size + k = n

/-- An activation that has moved `k` of the `n` bytes at `base`; it has returned `1` exactly when
these are all. -/
def Progress (base n k : ℕ) : Act Timed ℤ → Prop :=
  Loop.Holds (fun s => s.At base n k ∧ 0 < s.size) fun r s => s.At base n k ∧ (r = 1 ↔ k = n)

theorem progress_enter (h : s.At base n k) :
    Progress base n k ((timedLoop least onZero).enter s) := by
  by_cases hs : 0 < s.size
  · rw [Loop.enter_of_guard (by simpa [timedLoop] using hs)]
    exact ⟨h, hs⟩
  · rw [Loop.enter_of_not_guard (by simpa [timedLoop] using hs)]
    have := h.size
    exact ⟨h, by simp [timedLoop]; omega⟩

theorem progress_fresh (errno : Errno) :
    Progress base n 0 ((timedLoop least onZero).enter (.fresh base n errno)) :=
  progress_enter ⟨rfl, rfl⟩

/-- **One event**: an activation that has moved `k` bytes has then moved as many more as the event
moved, from the address its cursor points at. -/
theorem progress_step (hone : onZero ≠ some 1) (h : s.At base n k)
    (hs : 0 < s.size) (hstep : (timedLoop least onZero).step (.running s) e = some a) :
    e.count ≤ s.size ∧ Progress base n (k + e.count) a := by
  obtain ⟨hallow, rfl⟩ := Loop.step_running hstep
  have hlt : k < n := by have := h.size; omega
  -- a return before the end
  have hret : ∀ (r : ℤ) (t : Timed), r ≠ 1 → t.data = s.data → t.size = s.size →
      Progress base n k (.returned r t) := fun r t hr hd hn =>
    ⟨⟨hd.trans h.data, hn ▸ h.size⟩, by simp only [hr, false_iff]; omega⟩
  match e with
  | .io (.moves c) =>
    simp only [timedLoop, Bool.and_eq_true, decide_eq_true_eq] at hallow
    have hadv : (s.advance c).At base n (k + c) := by
      have h₁ := h.data
      have h₂ := h.size
      constructor <;> simp only [Timed.advance] <;> omega
    refine ⟨hallow.2.2, ?_⟩
    show Progress base n (k + c)
      ((timedLoop least onZero).settle (timedBody onZero s (.io (.moves c))))
    cases hz : onZero with
    | none => exact progress_enter hadv
    | some r =>
      simp only [timedBody]
      split_ifs with hc
      · exact progress_enter hadv
      · obtain rfl : c = 0 := by omega
        exact hret r s (fun hr => hone (hz.trans (by rw [hr]))) rfl rfl
  | .io (.fails e) =>
    refine ⟨Nat.zero_le _, ?_⟩
    show Progress base n k ((timedLoop least onZero).settle (timedBody onZero s (.io (.fails e))))
    simp only [timedBody]
    split_ifs
    · exact progress_enter ⟨h.data, h.size⟩
    · exact hret _ _ (by decide) rfl rfl
    · exact progress_enter ⟨h.data, h.size⟩
  | .poll p =>
    refine ⟨Nat.zero_le _, ?_⟩
    simp only [timedLoop, Bool.and_eq_true] at hallow
    show Progress base n k ((timedLoop least onZero).settle (timedBody onZero s (.poll p)))
    simp only [timedBody]
    cases hb : selectBody s.errno p with
    | next e => exact progress_enter ⟨h.data, h.size⟩
    | ret events e =>
      dsimp only
      split_ifs with he
      · exact hret _ _ (by omega) rfl rfl
      · exact progress_enter ⟨h.data, h.size⟩
    | abort => exact absurd hb (select_spec.safe s.errno p trivial rfl hallow.2)

/-- **A call**: it has moved as many bytes as its events moved together. -/
theorem progress_feed (hone : onZero ≠ some 1) {b : Act Timed ℤ} {es : List TimedEvent}
    (ha : Progress base n k a) (h : (timedLoop least onZero).feed a es = some b) :
    Progress base n (k + (es.map TimedEvent.count).sum) b := by
  induction es generalizing a k with
  | nil =>
    obtain rfl : a = b := by simpa using h
    simpa using ha
  | cons e es ih =>
    obtain ⟨a', hstep, hrest⟩ := Loop.feed_cons h
    rw [List.map_cons, List.sum_cons, ← Nat.add_assoc]
    match a, ha with
    | .running s, ⟨hat, hs⟩ => exact ih (progress_step hone hat hs hstep).2 hrest
    | .returned r s, _ => cases hstep
    | .aborted, ha => exact ha.elim

end Progress

end Xfnet.Stream
