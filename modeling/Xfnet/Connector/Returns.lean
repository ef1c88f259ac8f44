import Xfnet.Connector
import Xfnet.Foundations.Progress

/-!
# How long `Connector::Connect` takes

`Connect` goes back to `connect` after an interrupt and after each wait. But the second call finds
the handshake under way, which is an error to it, or at its end. So one call of `Connect` makes five
calls of `socket`, `connect`, `poll` and `close` at most, besides the waits that are interrupted,
and waits in `Select` once (`connect_returns`). The options that it sets and reads on the way are
not counted.
-/

namespace Xfnet.Connector

open Loops Transition SocketUtil

/-- The end of a wait that was not interrupted. -/
def Event.waits : Event → Bool
  | .poll p => p ≠ .failed .eintr
  | _ => false

/-- A call of `socket`, `connect`, `poll` or `close`, other than a wait that is interrupted. -/
def Event.counts : Event → Bool
  | .complete _ => false
  | .poll p => p ≠ .failed .eintr
  | _ => true

/-- A handshake does not end with the error for one that is under way, or for an interrupt. -/
def Ends (_ : Attempt) : Event → Prop
  | .complete (some e) => e ≠ .eintr ∧ e ≠ einprogress
  | _ => True

instance (s : Attempt) : DecidablePred (Ends s)
  | .complete (some _) => inferInstanceAs (Decidable (_ ∧ _))
  | .complete none | .socket _ | .connect _ | .poll _ | .close => isTrue trivial

namespace Attempt

/-- The calls that are still to come at most. -/
def left (s : Attempt) : ℕ :=
  match s.place with
  | .opening => 5
  | .connecting => if s.sock = .idle then 4 else 2
  | .waiting => 3
  | .closing => 1
  | .returned _ => 0

/-- The waits that are still to come at most. -/
def waits (s : Attempt) : ℕ :=
  match s.place with
  | .opening | .waiting => 1
  | .connecting => if s.sock = .idle then 1 else 0
  | .closing | .returned _ => 0

/-- What the next `connect` relies on. -/
structure Ready (s : Attempt) : Prop where
  failed : ∀ e, s.sock = .failed e → e ≠ .eintr ∧ e ≠ einprogress
  opened : s.place = .connecting → s.sock ≠ .absent ∧ s.sock ≠ .closed

end Attempt

variable {s s' : Attempt} {l : Event}

/-- One event takes from what is still to come what it is. -/
structure Spends (s : Attempt) (l : Event) (s' : Attempt) : Prop where
  left : s'.left + (if l.counts then 1 else 0) ≤ s.left
  waits : s'.waits + (if l.waits then 1 else 0) ≤ s.waits

/-- After an event that ends the loop only `close` is left. -/
theorem ready_of_ended (hend : s'.place = .closing ∨ ∃ valid, s'.place = .returned valid)
    (hsock : ∀ e, s'.sock = .failed e → e ≠ .eintr ∧ e ≠ einprogress) (hleft : 2 ≤ s.left)
    (hwaits : (if l.waits then 1 else 0) ≤ s.waits) : s'.Ready ∧ Spends s l s' := by
  have hleft' : s'.left ≤ 1 := by
    rcases hend with hend | ⟨valid, hend⟩ <;> simp [Attempt.left, hend]
  have hwaits' : s'.waits = 0 := by
    rcases hend with hend | ⟨valid, hend⟩ <;> simp [Attempt.waits, hend]
  refine ⟨⟨hsock, fun hplace => ?_⟩, ?_, ?_⟩
  · rcases hend with hend | ⟨valid, hend⟩ <;> cases hplace.symm.trans hend
  · split_ifs <;> omega
  · rwa [hwaits', Nat.zero_add]

theorem afterConnect_error {e : Errno} (hintr : e ≠ .eintr) (hunder : e ≠ einprogress) :
    afterConnect (.fails e) = .closing := by
  rw [afterConnect, if_neg hunder, if_pos hintr]

/-- **`connect`** ends the loop, or begins the handshake. -/
theorem ready_connect {o : ConnectOutcome} (h : s.Ready) (hn : next s (.connect o) = some s') :
    s'.Ready ∧ Spends s (.connect o) s' := by
  obtain ⟨hplace, hn⟩ := Option.ite_none_right_eq_some.mp hn
  obtain ⟨sock, hsock, rfl⟩ := Option.map_eq_some_iff.mp hn
  have hleft : s.left = if s.sock = .idle then 4 else 2 := by rw [Attempt.left, hplace]
  have hwaits : s.waits = if s.sock = .idle then 1 else 0 := by rw [Attempt.waits, hplace]
  have htwo : 2 ≤ s.left := by
    rw [hleft]
    split_ifs <;> omega
  have hended {o : ConnectOutcome} {errno : Errno}
      (hend : afterConnect o = .closing ∨ ∃ valid, afterConnect o = .returned valid)
      (hfailed : ∀ e, sock = .failed e → e ≠ .eintr ∧ e ≠ einprogress) :
      Attempt.Ready { s.moveTo sock with place := afterConnect o, errno := errno } ∧
        Spends s (.connect o) { s.moveTo sock with place := afterConnect o, errno := errno } :=
    ready_of_ended hend hfailed htwo (Nat.zero_le _)
  cases hs : s.sock with
  | idle =>
    rw [hs] at hsock hleft hwaits
    cases o with
    | done =>
      obtain rfl := Option.some.inj hsock
      exact hended (.inr ⟨true, rfl⟩) (by simp)
    | fails e =>
      obtain rfl := Option.some.inj hsock
      by_cases hunder : e = einprogress
      · subst hunder
        refine ⟨⟨by simp [Attempt.moveTo], by simp [afterConnect]⟩, ?_, ?_⟩
        · rw [hleft]
          simp [Attempt.left, afterConnect, Event.counts]
        · rw [hwaits]
          simp [Attempt.waits, afterConnect, Event.waits]
      · by_cases hintr : e = .eintr
        · subst hintr
          refine ⟨⟨by simp [Attempt.moveTo], by simp [Attempt.moveTo]⟩, ?_, ?_⟩
          · rw [hleft]
            simp [Attempt.left, afterConnect, Attempt.moveTo, hunder, Event.counts]
          · simp [Attempt.waits, afterConnect, Attempt.moveTo, hunder, Event.waits]
        · exact hended (.inl (afterConnect_error hintr hunder)) (by simp [hunder, hintr])
  | inProgress =>
    rw [hs] at hsock
    cases o with
    | done => cases hsock
    | fails e =>
      obtain ⟨rfl, hsock⟩ := Option.ite_none_right_eq_some.mp hsock
      obtain rfl := Option.some.inj hsock
      exact hended (.inl rfl) (by simp)
  | established =>
    rw [hs] at hsock
    cases o with
    | done =>
      obtain rfl := Option.some.inj hsock
      exact hended (.inr ⟨true, rfl⟩) (by simp)
    | fails e => cases hsock
  | failed e' =>
    rw [hs] at hsock
    cases o with
    | done => cases hsock
    | fails e =>
      obtain ⟨rfl, hsock⟩ := Option.ite_none_right_eq_some.mp hsock
      obtain rfl := Option.some.inj hsock
      obtain ⟨hintr, hunder⟩ := h.failed e hs
      exact hended (.inl (afterConnect_error hintr hunder)) (by simp [hunder, hintr])
  | absent => exact absurd hs (h.opened hplace).1
  | closed => exact absurd hs (h.opened hplace).2

/-- **`poll`** ends the loop, or the handshake has ended. -/
theorem ready_poll {p : PollOutcome} (h : s.Ready) (hn : next s (.poll p) = some s') :
    s'.Ready ∧ Spends s (.poll p) s' := by
  obtain ⟨⟨hplace, hpolls⟩, hn⟩ := Option.ite_none_right_eq_some.mp hn
  obtain ⟨q, hq, rfl⟩ := Option.map_eq_some_iff.mp hn
  have hleft : s.left = 3 := by rw [Attempt.left, hplace]
  have hwaits : s.waits = 1 := by rw [Attempt.waits, hplace]
  have hone : (if Event.waits (.poll p) then 1 else 0) ≤ s.waits := by
    rw [hwaits]
    split_ifs <;> omega
  cases p with
  | ready revents soError =>
    simp only [afterPoll, selectBody] at hq
    obtain ⟨hended, hpos⟩ : s.sock.ended = true ∧ 0 < revents := by simpa [Sock.polls] using hpolls
    split_ifs at hq with herr hreset
    · cases hq
      exact ready_of_ended (.inl rfl) h.failed (by omega) hone
    · cases hq
      exact ready_of_ended (.inl rfl) h.failed (by omega) hone
    · cases hq
      have hnot : ¬(revents : ℤ) ≤ 0 := by omega
      have hsock : s.sock ≠ .idle ∧ s.sock ≠ .absent ∧ s.sock ≠ .closed := by
        refine ⟨?_, ?_, ?_⟩ <;> intro hs <;> simp [hs, Sock.ended] at hended
      simp only [if_neg hnot]
      refine ⟨⟨h.failed, fun _ => hsock.2⟩, ?_, ?_⟩
      · simp [Attempt.left, hplace, hsock.1, Event.counts]
      · simp [Attempt.waits, hplace, hsock.1, Event.waits]
  | timedOut =>
    cases hq
    exact ready_of_ended (.inl rfl) h.failed (by omega) hone
  | failed e =>
    simp only [afterPoll, selectBody] at hq
    split_ifs at hq with he
    · cases hq
      exact ready_of_ended (.inl rfl) h.failed (by omega) hone
    · cases hq
      obtain rfl : e = .eintr := not_not.mp he
      refine ⟨⟨h.failed, by simp⟩, ?_, ?_⟩
      · simp [Attempt.left, hplace, Event.counts]
      · simp [Attempt.waits, hplace, Event.waits]

/-- **One step** of `Connect`, or of the handshake. -/
theorem ready_step (h : s.Ready) (hends : Ends s l) (hn : next s l = some s') :
    s'.Ready ∧ Spends s l s' := by
  cases l with
  | socket ok =>
    obtain ⟨hplace, he⟩ := Option.ite_none_right_eq_some.mp hn
    obtain rfl := Option.some.inj he
    cases ok with
    | true =>
      refine ⟨⟨by simp, by simp⟩, ?_, ?_⟩
      · simp [Attempt.left, hplace, Event.counts]
      · simp [Attempt.waits, hplace, Event.waits]
    | false =>
      have hleft : s.left = 5 := by rw [Attempt.left, hplace]
      exact ready_of_ended (.inr ⟨false, rfl⟩) h.failed (by omega) (Nat.zero_le _)
  | connect o => exact ready_connect h hn
  | poll p => exact ready_poll h hn
  | complete error =>
    obtain ⟨hsock, he⟩ := Option.ite_none_right_eq_some.mp hn
    obtain rfl := Option.some.inj he
    have hidle : s.sock ≠ .idle ∧ Sock.ofError error ≠ .idle := by
      rw [hsock]
      cases error <;> simp [Sock.ofError]
    refine ⟨⟨fun e he => ?_, fun _ => ?_⟩, ?_, ?_⟩
    · cases error with
      | none => cases he
      | some e' =>
        cases he
        exact hends
    · cases error <;> simp [Attempt.moveTo, Sock.ofError]
    · simp [Attempt.left, Attempt.moveTo, hidle, Event.counts]
    · simp [Attempt.waits, Attempt.moveTo, hidle, Event.waits]
  | close =>
    obtain ⟨hplace, he⟩ := Option.ite_none_right_eq_some.mp hn
    obtain rfl := Option.some.inj he
    refine ⟨⟨by simp, by simp⟩, ?_, ?_⟩
    · simp [Attempt.left, hplace, Event.counts]
    · simp [Attempt.waits, hplace, Event.waits]

theorem ready_of_reachable (h : connect.Reachable Ends s) : s.Ready := by
  apply System.Reachable.invariant (I := Attempt.Ready) _ _ h
  · rintro _ ⟨errno, rfl⟩
    exact ⟨by simp, by simp⟩
  · exact fun s l s' _ hready hends hn => (ready_step hready hends hn).1

/-- **`Connect` is never stuck**: the kernel has an answer to each call. -/
theorem exists_next (h : s.Ready) (hret : ∀ valid, s.place ≠ .returned valid) :
    ∃ l s', l.counts = true ∧ Ends s l ∧ next s l = some s' := by
  cases hplace : s.place with
  | opening => exact ⟨.socket true, _, rfl, trivial, if_pos hplace⟩
  | connecting =>
    obtain ⟨o, sock, hsock⟩ : ∃ o sock, s.sock.connect o = some sock := by
      cases hs : s.sock with
      | idle => exact ⟨.done, _, rfl⟩
      | inProgress => exact ⟨.fails ealready, .inProgress, rfl⟩
      | established => exact ⟨.done, _, rfl⟩
      | failed e => exact ⟨.fails e, .failed e, if_pos rfl⟩
      | absent => exact absurd hs (h.opened hplace).1
      | closed => exact absurd hs (h.opened hplace).2
    have hsome : (next s (.connect o)).isSome = true := by simp [next, hplace, hsock]
    obtain ⟨s', hn⟩ := Option.isSome_iff_exists.mp hsome
    exact ⟨.connect o, s', rfl, trivial, hn⟩
  | waiting =>
    cases hended : s.sock.ended with
    | true =>
      have hpolls : s.sock.polls (.ready 4 .eagain) = true := by simp [Sock.polls, hended]
      exact ⟨.poll (.ready 4 .eagain), _, rfl, trivial, if_pos ⟨hplace, hpolls⟩⟩
    | false =>
      have hpolls : s.sock.polls .timedOut = true := by simp [Sock.polls, hended]
      exact ⟨.poll .timedOut, _, rfl, trivial, if_pos ⟨hplace, hpolls⟩⟩
  | closing => exact ⟨.close, _, rfl, trivial, if_pos hplace⟩
  | returned valid => exact absurd hplace (hret valid)

/-- **`Connect` returns**, whenever the handshake ends and however often its wait is interrupted: it
makes five calls of `socket`, `connect`, `poll` and `close` at most, other than the interrupted
waits, and waits once; and until it has returned the next one has an answer. -/
theorem connect_returns {ls : List Event} (h : connect.Reachable Ends s)
    (hrun : connect.exec Ends s ls = some s') :
    connect.tally (fun _ l => l.counts) s ls ≤ 5 ∧ connect.tally (fun _ l => l.waits) s ls ≤ 1 ∧
      ((∀ valid, s'.place ≠ .returned valid) →
        ∃ l s'', l.counts = true ∧ Ends s' l ∧ next s' l = some s'') := by
  have hready := ready_of_reachable h
  have hcounts (s : Attempt) (l : Event) (s' : Attempt) (hready : s.Ready) (hends : Ends s l)
      (hn : connect.next s l = some s') :
      s'.Ready ∧ s'.left + (if l.counts then 1 else 0) ≤ s.left :=
    (ready_step hready hends hn).imp_right Spends.left
  have hwaits (s : Attempt) (l : Event) (s' : Attempt) (hready : s.Ready) (hends : Ends s l)
      (hn : connect.next s l = some s') :
      s'.Ready ∧ s'.waits + (if l.waits then 1 else 0) ≤ s.waits :=
    (ready_step hready hends hn).imp_right Spends.waits
  obtain ⟨hready', hcounts⟩ := System.tally_add_le hcounts hready hrun
  obtain ⟨-, hwaits⟩ := System.tally_add_le hwaits hready hrun
  have hfive : s.left ≤ 5 := by
    rw [Attempt.left]
    split
    all_goals try split_ifs
    all_goals omega
  have hone : s.waits ≤ 1 := by
    rw [Attempt.waits]
    split
    all_goals try split_ifs
    all_goals omega
  exact ⟨(Nat.le_add_right _ _).trans (hcounts.trans hfive),
    (Nat.le_add_right _ _).trans (hwaits.trans hone), exists_next hready'⟩

/-- A wait that is interrupted does not count; the handshake fails in it. -/
theorem connect_returns_refused : ∃ s',
    connect.exec Ends ⟨.opening, .absent, .eagain, 0, false, false⟩
        [.socket true, .connect (.fails einprogress), .poll (.failed .eintr),
          .complete (some (.other 111)), .poll (.ready 4 .eagain), .connect (.fails (.other 111)),
          .close] = some s' ∧ s'.place = .returned false ∧
      connect.tally (fun _ l => l.counts) ⟨.opening, .absent, .eagain, 0, false, false⟩
        [.socket true, .connect (.fails einprogress), .poll (.failed .eintr),
          .complete (some (.other 111)), .poll (.ready 4 .eagain), .connect (.fails (.other 111)),
          .close] ≤ 5 :=
  ⟨_, rfl, rfl, (connect_returns (.start ⟨.eagain, rfl⟩) rfl).1⟩

end Xfnet.Connector
