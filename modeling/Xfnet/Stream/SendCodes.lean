import Xfnet.Stream.Timed

/-!
# The result codes of `Stream::Send` with a timeout

`Send` hands on what `Select` returns, and `Select` has one code more than `Send` documents: it
answers `-2` for a connection that was reset. So a reset found by the wait is no `-1`, although the
same reset found by `write` is.
-/

namespace Xfnet.Stream

open Loops SocketUtil

/-- The documented result of a call on these events for `n` bytes: `1` when all were sent, `0` when
the wait ended in a timeout, `-1` for an error. -/
def documented (n : ℕ) (es : List TimedEvent) : ℤ :=
  if (es.map TimedEvent.count).sum = n then 1
  else if es.getLast? = some (.poll .timedOut) then 0
  else -1

section

variable {least : ℕ} {onZero : Option ℤ} {s s' : Timed} {e : TimedEvent} {r : ℤ}

/-- A reset ends the call. -/
theorem resets_of_goesOn (h : (timedLoop least onZero).GoesOn e) : e.resets = false := by
  obtain ⟨s, s', hb⟩ := h
  change timedBody onZero s e = .next s' at hb
  match e with
  | .io o => rfl
  | .poll (.ready revents soError) =>
    by_contra hreset
    have hresets : revents &&& (pollErr ||| pollHup) ≠ 0 ∧ soError = .econnreset := by
      simpa [TimedEvent.resets, PollOutcome.resets] using hreset
    simp [timedBody, selectBody, hresets.1, hresets.2] at hb
  | .poll .timedOut => rfl
  | .poll (.failed e) => rfl

/-- **What `Send` returns before the end**, for the event that made it return. -/
theorem code_of_timedBody (h : timedBody none s e = .ret r s') :
    (r = 0 ∧ e = .poll .timedOut) ∨ (r = -2 ∧ e.resets = true) ∨
      (r = -1 ∧ e ≠ .poll .timedOut ∧ e.resets = false) := by
  cases e with
  | io o =>
    cases o with
    | moves c => simp [timedBody] at h
    | fails e =>
      simp only [timedBody] at h
      split_ifs at h
      cases h
      exact .inr (.inr ⟨rfl, by simp, rfl⟩)
  | poll p =>
    obtain ⟨hle, e, hselect⟩ := selectBody_of_timedBody h
    rcases selectBody_code hselect hle with ⟨hr, rfl⟩ | ⟨hr, hreset⟩ | ⟨hr, htimed, hreset⟩
    · exact .inl ⟨hr, rfl⟩
    · exact .inr (.inl ⟨hr, hreset⟩)
    · exact .inr (.inr ⟨hr, by simpa using htimed, hreset⟩)

end

/-- **The documented codes**: a call returns what the header says exactly when no wait of it found
the connection reset. `sendTimed` is the case `least = 1`; a `write` that takes no byte changes
nothing. -/
theorem send_codes_iff {least base n : ℕ} {errno : Errno} {es : List TimedEvent} {r : ℤ}
    {s' : Timed}
    (h : (timedLoop least none).call (.fresh base n errno) es = some (.returned r s')) :
    r = documented n es ↔ ∀ e ∈ es, e.resets = false := by
  -- `1` stands for all bytes
  have hone : r = 1 ↔ (es.map TimedEvent.count).sum = n := by
    have hfresh : Progress base n 0 ((timedLoop least none).enter (.fresh base n errno)) :=
      progress_fresh errno
    simpa using (progress_feed (by decide) hfresh h).2
  rcases Loop.returned_of_call h with ⟨rfl, hall⟩ | ⟨es', e, s, rfl, -, -, hb, hall⟩
  · have hsum := hone.mp rfl
    have hcode : documented n es = 1 := by rw [documented, if_pos hsum]
    exact ⟨fun _ e he => resets_of_goesOn (hall e he), fun _ => hcode.symm⟩
  · have hbefore : (∀ e' ∈ es' ++ [e], e'.resets = false) ↔ e.resets = false := by
      refine ⟨fun h => h e (by simp), fun he e' hmem => ?_⟩
      rcases List.mem_append.mp hmem with hmem | hmem
      · exact resets_of_goesOn (hall e' hmem)
      · exact List.mem_singleton.mp hmem ▸ he
    have hcode := code_of_timedBody hb
    have hsum : ((es' ++ [e]).map TimedEvent.count).sum ≠ n := fun hsum => by
      have := hone.mpr hsum
      omega
    rw [hbefore, documented, if_neg hsum]
    rcases hcode with ⟨rfl, rfl⟩ | ⟨rfl, hreset⟩ | ⟨rfl, htimed, hreset⟩
    · simp [TimedEvent.resets, PollOutcome.resets]
    · rw [hreset]
      split_ifs <;> decide
    · simp [htimed, hreset]

/-- Two of three bytes, in two writes with an interrupt between them, then a timeout. -/
theorem send_codes_timeout : (0 : ℤ) = documented 3
    [.io (.moves 1), .io (.fails .eintr), .io (.moves 1), .io (.fails .eagain), .poll .timedOut] :=
  (@send_codes_iff 1 64 3 .eagain _ 0 ⟨66, 1, .etimedout, false⟩ (by decide)).mpr (by decide)

/-- A full send buffer, and a reset while the call waits for room. -/
theorem reset_in_wait : ¬∀ (base n : ℕ) (errno : Errno) (es : List TimedEvent) (r : ℤ) (s' : Timed),
    sendTimed.call (.fresh base n errno) es = some (.returned r s') → r = documented n es := by
  intro h
  have hcode := h 64 1 .eagain
    [.io (.fails .eagain), .poll (.ready (pollErr ||| pollHup) .econnreset)] (-2)
    ⟨64, 1, .econnreset, false⟩ (by decide)
  revert hcode
  decide

end Xfnet.Stream
