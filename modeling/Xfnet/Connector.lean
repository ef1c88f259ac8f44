import Xfnet.Foundations.Transition
import Xfnet.SocketUtil

/-!
# `Connector::Connect`

The socket does not wait for the caller: once a `connect` has begun the handshake, it ends in the
background, whatever the caller does. `Connect` calls `connect` again to learn how it ended, and
takes every error but `EINPROGRESS` and `EINTR` for a failed attempt. One of them is `EALREADY`, the
answer to a second call while the handshake is under way, as after an interrupt. So the attempt is
given up while it may still succeed, and an established connection can be closed
(`established_closed`).
-/

namespace Xfnet.Connector

open Loops Transition SocketUtil

def einprogress : Errno := .other 115

def ealready : Errno := .other 114

/-- The socket of the attempt, as the kernel sees it. -/
inductive Sock
  | absent
  | idle
  | inProgress
  | established
  | failed (e : Errno)
  | closed
  deriving DecidableEq

inductive ConnectOutcome
  | done
  | fails (e : Errno)
  deriving DecidableEq

/-- What `connect` answers, and the socket after it. -/
def Sock.connect : Sock → ConnectOutcome → Option Sock
  | .idle, .done => some .established
  | .idle, .fails e => some (if e = einprogress ∨ e = .eintr then .inProgress else .failed e)
  | .inProgress, .fails e => if e = ealready then some .inProgress else none
  | .established, .done => some .established
  | .failed e, .fails e' => if e' = e then some (.failed e) else none
  | _, _ => none

/-- The end of a handshake. -/
def Sock.ofError : Option Errno → Sock
  | none => .established
  | some e => .failed e

/-- The handshake has ended. -/
def Sock.ended : Sock → Bool
  | .established => true
  | .failed _ => true
  | _ => false

/-- What `poll` answers: events once the handshake has ended, and no timeout from then on. -/
def Sock.polls (s : Sock) : PollOutcome → Bool
  | .ready revents _ => s.ended && decide (0 < revents)
  | .timedOut => !s.ended
  | .failed _ => true

/-- Where `Connect` is: at `socket`, at `connect`, at `poll` in `Select`, at `close`, or returned,
with a valid stream or an invalid one. -/
inductive Place
  | opening
  | connecting
  | waiting
  | closing
  | returned (valid : Bool)
  deriving DecidableEq

/-- The body of the loop, for the answer of `connect`. -/
def afterConnect : ConnectOutcome → Place
  | .done => .returned true
  | .fails e => if e = einprogress then .waiting else if e ≠ .eintr then .closing else .connecting

/-- The body of the loop, for the answer of `poll`. `none` is a failed assertion of `Select`. -/
def afterPoll (errno : Errno) (p : PollOutcome) : Option (Place × Errno) :=
  match selectBody errno p with
  | .next e => some (.waiting, e)
  | .ret events e => some (if events ≤ 0 then .closing else .connecting, e)
  | .abort => none

/-- One call of `Connect`: its place, the socket, `errno`, how often the descriptor was closed,
whether a wait has timed out, and whether the handshake has succeeded before that. -/
structure Attempt where
  place : Place
  sock : Sock
  errno : Errno
  closed : ℕ
  timedOut : Bool
  succeeded : Bool
  deriving DecidableEq

/-- The system calls with their answers, and the end of the handshake in the background. -/
inductive Event
  | socket (ok : Bool)
  | connect (o : ConnectOutcome)
  | poll (p : PollOutcome)
  | complete (error : Option Errno)
  | close
  deriving DecidableEq

/-- The socket changes. -/
def Attempt.moveTo (s : Attempt) (sock : Sock) : Attempt :=
  { s with
    sock := sock
    succeeded := s.succeeded || (sock = .established && !s.timedOut) }

def next (s : Attempt) : Event → Option Attempt
  | .socket ok =>
    if s.place = .opening then
      some (if ok then { s with place := .connecting, sock := .idle }
        else { s with place := .returned false })
    else none
  | .connect o =>
    if s.place = .connecting then
      (s.sock.connect o).map fun sock =>
        { s.moveTo sock with
          place := afterConnect o
          errno := match o with
            | .done => s.errno
            | .fails e => e }
    else none
  | .poll p =>
    if s.place = .waiting ∧ s.sock.polls p = true then
      (afterPoll s.errno p).map fun q =>
        { s with place := q.1, errno := q.2, timedOut := s.timedOut || p = .timedOut }
    else none
  | .complete error =>
    if s.sock = .inProgress then
      some (s.moveTo (.ofError error))
    else none
  | .close =>
    if s.place = .closing then
      some { s with place := .returned false, sock := .closed, closed := s.closed + 1 }
    else none

/-- `Stream Connector::Connect(const Address& addr, uint32_t timeout_ms)`. -/
def connect : System Attempt Event where
  init s := ∃ errno, s = ⟨.opening, .absent, errno, 0, false, false⟩
  next := next

/-- The handshake does not succeed once the attempt has been given up for another reason than a
timeout, and the wait does not fail, or find an error or a hang-up, on an established connection. -/
def Kept (s : Attempt) : Event → Prop
  | .complete none => s.place = .closing → s.timedOut = true
  | .poll (.failed e) => s.sock = .established → e = .eintr
  | .poll (.ready revents _) => s.sock = .established → revents &&& (pollErr ||| pollHup) = 0
  | _ => True

instance (s : Attempt) : DecidablePred (Kept s) := fun l => by
  unfold Kept
  split <;> infer_instance

/-! ## Runs -/

variable {s s' : Attempt}

/-- What holds at each place of `Connect`. -/
def Attempt.At (s : Attempt) : Place → Prop
  | .opening => s.sock = .absent ∧ s.closed = 0 ∧ s.timedOut = false ∧ s.succeeded = false
  | .closing => s.closed = 0 ∧ s.succeeded = false
  | .returned true => s.closed = 0 ∧ s.succeeded = true ∧ s.sock = .established
  | .returned false =>
    s.succeeded = false ∧ (s.sock = .absent ∧ s.closed = 0 ∨ s.sock = .closed ∧ s.closed = 1)
  | _ => s.closed = 0 ∧ s.timedOut = false ∧ (s.succeeded = true ↔ s.sock = .established)

def Attempt.Ok (s : Attempt) : Prop := s.At s.place

/-- An attempt that has not succeeded goes on, or is given up. -/
theorem ok_of_place (hplace : s.place = .connecting ∨ s.place = .waiting ∨ s.place = .closing)
    (hclosed : s.closed = 0) (htimed : s.place = .closing ∨ s.timedOut = false)
    (hsock : s.sock ≠ .established) (hsucceeded : s.succeeded = false) : s.Ok := by
  unfold Attempt.Ok
  rcases hplace with hplace | hplace | hplace <;> rw [hplace] at htimed ⊢
  · exact ⟨hclosed, htimed.resolve_left nofun, by simp [hsock, hsucceeded]⟩
  · exact ⟨hclosed, htimed.resolve_left nofun, by simp [hsock, hsucceeded]⟩
  · exact ⟨hclosed, hsucceeded⟩

theorem afterConnect_fails (e : Errno) : afterConnect (.fails e) = .connecting ∨
    afterConnect (.fails e) = .waiting ∨ afterConnect (.fails e) = .closing := by
  simp only [afterConnect]
  split_ifs <;> simp

/-- The kernel fails a `connect` only while there is no connection. -/
theorem connect_fails {sock sock' : Sock} {e : Errno} (h : sock.connect (.fails e) = some sock') :
    sock ≠ .established ∧ sock' ≠ .established := by
  cases sock with
  | idle =>
    simp only [Sock.connect] at h
    split_ifs at h <;> cases h <;> exact ⟨nofun, nofun⟩
  | inProgress =>
    obtain ⟨-, he⟩ := Option.ite_none_right_eq_some.mp h
    cases he
    exact ⟨nofun, nofun⟩
  | failed e' =>
    obtain ⟨-, he⟩ := Option.ite_none_right_eq_some.mp h
    cases he
    exact ⟨nofun, nofun⟩
  | established => cases h
  | absent => cases h
  | closed => cases h

/-- `connect` returns. -/
theorem ok_connect {o : ConnectOutcome} (hok : s.Ok) (hn : next s (.connect o) = some s') :
    s'.Ok := by
  obtain ⟨hplace, hn⟩ := Option.ite_none_right_eq_some.mp hn
  obtain ⟨sock, hsock, rfl⟩ := Option.map_eq_some_iff.mp hn
  rw [Attempt.Ok, hplace] at hok
  obtain ⟨hclosed, htimed, hsucceeded⟩ := hok
  cases o with
  | done =>
    obtain rfl : sock = .established := by
      cases hs : s.sock <;> rw [hs] at hsock <;> cases hsock <;> rfl
    exact ⟨hclosed, by simp [Attempt.moveTo, htimed], rfl⟩
  | fails e =>
    obtain ⟨hbefore, hafter⟩ := connect_fails hsock
    have hnot : s.succeeded = false := by simpa [hbefore] using hsucceeded
    exact ok_of_place (afterConnect_fails e) hclosed (.inr htimed) hafter
      (by simp [Attempt.moveTo, hnot, hafter])

/-- `poll` returns. -/
theorem ok_poll {p : PollOutcome} (hok : s.Ok) (hkept : Kept s (.poll p))
    (hn : next s (.poll p) = some s') : s'.Ok := by
  obtain ⟨⟨hplace, hpolls⟩, hn⟩ := Option.ite_none_right_eq_some.mp hn
  obtain ⟨q, hq, rfl⟩ := Option.map_eq_some_iff.mp hn
  rw [Attempt.Ok, hplace] at hok
  obtain ⟨hclosed, htimed, hsucceeded⟩ := hok
  -- the wait ends the attempt
  have hgiven (hsock : s.sock ≠ .established) (errno : Errno) (timedOut : Bool) :
      Attempt.Ok { s with place := .closing, errno := errno, timedOut := timedOut } :=
    ⟨hclosed, by simpa [hsock] using hsucceeded⟩
  cases p with
  | ready revents soError =>
    obtain ⟨hended, hpos⟩ : s.sock.ended = true ∧ 0 < revents := by simpa [Sock.polls] using hpolls
    simp only [afterPoll, selectBody] at hq
    split_ifs at hq with herr hreset
    · cases hq
      exact hgiven (fun hs => herr (hkept hs)) _ _
    · cases hq
      exact hgiven (fun hs => herr (hkept hs)) _ _
    · cases hq
      have hnot : ¬(revents : ℤ) ≤ 0 := by omega
      simp only [Attempt.Ok, if_neg hnot]
      exact ⟨hclosed, by simpa using htimed, hsucceeded⟩
  | timedOut =>
    cases hq
    exact hgiven (fun hs => by simp [hs, Sock.polls, Sock.ended] at hpolls) _ _
  | failed e =>
    simp only [afterPoll, selectBody] at hq
    split_ifs at hq with he
    · cases hq
      exact hgiven (fun hs => he (hkept hs)) _ _
    · cases hq
      exact ⟨hclosed, by simpa using htimed, hsucceeded⟩

/-- The handshake ends. -/
theorem ok_complete {error : Option Errno} (hok : s.Ok) (hkept : Kept s (.complete error))
    (hsock : s.sock = .inProgress) :
    (s.moveTo (.ofError error)).Ok := by
  rw [Attempt.Ok] at hok
  obtain ⟨hplace, hclosed, htimed, hsucceeded⟩ :
      (s.place = .connecting ∨ s.place = .waiting ∨ s.place = .closing) ∧ s.closed = 0 ∧
        (s.place = .closing ∨ s.timedOut = false) ∧ s.succeeded = false := by
    have hnot (h : s.succeeded = true ↔ s.sock = .established) : s.succeeded = false := by
      simpa [hsock] using h
    match hp : s.place with
    | .opening =>
      rw [hp] at hok
      cases hsock.symm.trans hok.1
    | .connecting =>
      rw [hp] at hok
      exact ⟨.inl rfl, hok.1, .inr hok.2.1, hnot hok.2.2⟩
    | .waiting =>
      rw [hp] at hok
      exact ⟨.inr (.inl rfl), hok.1, .inr hok.2.1, hnot hok.2.2⟩
    | .closing =>
      rw [hp] at hok
      exact ⟨.inr (.inr rfl), hok.1, .inl rfl, hok.2⟩
    | .returned true =>
      rw [hp] at hok
      cases hsock.symm.trans hok.2.2
    | .returned false =>
      rw [hp] at hok
      rcases hok.2 with ⟨h, -⟩ | ⟨h, -⟩ <;> cases hsock.symm.trans h
  cases error with
  | some e =>
    have hstill : (s.moveTo (.ofError (some e))).succeeded = false := by
      simp [Attempt.moveTo, Sock.ofError, hsucceeded]
    exact ok_of_place hplace hclosed htimed nofun hstill
  | none =>
    show (s.moveTo .established).At s.place
    have hrunning (htimed : s.timedOut = false) :
        (s.moveTo .established).succeeded = true ↔ Sock.established = .established := by
      simp [Attempt.moveTo, htimed]
    rcases hplace with hp | hp | hp <;> rw [hp] at htimed ⊢
    · have htimed := htimed.resolve_left nofun
      exact ⟨hclosed, htimed, hrunning htimed⟩
    · have htimed := htimed.resolve_left nofun
      exact ⟨hclosed, htimed, hrunning htimed⟩
    · exact ⟨hclosed, by simp [Attempt.moveTo, hsucceeded, hkept hp]⟩

/-- **One step of `Connect`**, or of the handshake. -/
theorem ok_step {l : Event} (hok : s.Ok) (hkept : Kept s l) (hn : next s l = some s') : s'.Ok := by
  cases l with
  | socket ok =>
    obtain ⟨hplace, he⟩ := Option.ite_none_right_eq_some.mp hn
    rw [Attempt.Ok, hplace] at hok
    obtain ⟨hsock, hclosed, htimed, hsucceeded⟩ := hok
    cases ok with
    | true =>
      cases he
      exact ⟨hclosed, htimed, by simp [hsucceeded]⟩
    | false =>
      cases he
      exact ⟨hsucceeded, .inl ⟨hsock, hclosed⟩⟩
  | connect o => exact ok_connect hok hn
  | poll p => exact ok_poll hok hkept hn
  | complete error =>
    obtain ⟨hsock, he⟩ := Option.ite_none_right_eq_some.mp hn
    obtain rfl := Option.some.inj he
    exact ok_complete hok hkept hsock
  | close =>
    obtain ⟨hplace, he⟩ := Option.ite_none_right_eq_some.mp hn
    cases he
    rw [Attempt.Ok, hplace] at hok
    exact ⟨hok.2, .inr ⟨rfl, by simp [hok.1]⟩⟩

theorem ok_of_reachable (h : connect.Reachable Kept s) : s.Ok := by
  refine System.Reachable.invariant (I := Attempt.Ok) ?_ ?_ h
  · rintro _ ⟨errno, rfl⟩
    exact ⟨rfl, rfl, rfl, rfl⟩
  · exact fun s l s' _ hok hkept hn => ok_step hok hkept hn

/-- **What `Connect` makes of a handshake**, in the runs that keep what has been given up and what
has been established: it returns a valid stream exactly if the handshake succeeded before a wait
timed out, on the established connection and without closing it; otherwise it closes the descriptor
once, if there is one. -/
theorem connect_result {valid : Bool} (h : connect.Reachable Kept s)
    (hret : s.place = .returned valid) :
    (valid = true ↔ s.succeeded = true) ∧
      (valid = true → s.sock = .established ∧ s.closed = 0) ∧
      (valid = false → s.closed = if s.sock = .absent then 0 else 1) := by
  have hok := ok_of_reachable h
  rw [Attempt.Ok, hret] at hok
  cases valid with
  | true => exact ⟨by simp [hok.2.1], fun _ => ⟨hok.2.2, hok.1⟩, nofun⟩
  | false =>
    obtain ⟨hsucceeded, hclosed⟩ := hok
    refine ⟨by simp [hsucceeded], nofun, fun _ => ?_⟩
    rcases hclosed with ⟨hsock, hclosed⟩ | ⟨hsock, hclosed⟩ <;> simp [hsock, hclosed]

/-- An interrupted wait, the end of the handshake, and the second `connect`. -/
theorem connect_result_valid : ∃ s, connect.Reachable Kept s ∧ s.place = .returned true ∧
    s.sock = .established ∧ s.closed = 0 := by
  obtain ⟨s, hrun, hret⟩ : ∃ s,
      connect.exec Kept ⟨.opening, .absent, .eagain, 0, false, false⟩
        [.socket true, .connect (.fails einprogress), .poll (.failed .eintr), .complete none,
          .poll (.ready 4 .eagain), .connect .done] = some s ∧ s.place = .returned true :=
    ⟨_, rfl, rfl⟩
  have hreach := System.reachable_of_exec (M := connect) ⟨.eagain, rfl⟩ hrun
  exact ⟨s, hreach, hret, (connect_result hreach hret).2.1 rfl⟩

/-- Any other step leaves `Connect` with nothing to do but close an established connection. -/
theorem closes_of_not_kept {l : Event} (h : connect.Reachable Kept s) (hnot : ¬Kept s l)
    (hn : next s l = some s') :
    s'.place = .closing ∧ s'.sock = .established ∧ s'.succeeded = true := by
  have hok := ok_of_reachable h
  have hpoll {p : PollOutcome} {e : Errno} {code : ℤ} (hsock : s.sock = .established)
      (hcode : selectBody s.errno p = .ret code e) (hle : code ≤ 0)
      (hn : next s (.poll p) = some s') :
      s'.place = .closing ∧ s'.sock = .established ∧ s'.succeeded = true := by
    obtain ⟨⟨hplace, -⟩, hn⟩ := Option.ite_none_right_eq_some.mp hn
    rw [Attempt.Ok, hplace] at hok
    simp only [afterPoll, hcode, if_pos hle, Option.map_some, Option.some.injEq] at hn
    subst hn
    exact ⟨rfl, hsock, hok.2.2.mpr hsock⟩
  match l with
  | .complete none =>
    obtain ⟨hplace, htimed⟩ : s.place = .closing ∧ s.timedOut = false := by simpa [Kept] using hnot
    obtain ⟨-, he⟩ := Option.ite_none_right_eq_some.mp hn
    cases he
    exact ⟨hplace, rfl, by simp [Attempt.moveTo, Sock.ofError, htimed]⟩
  | .poll (.failed e) =>
    obtain ⟨hsock, he⟩ : s.sock = .established ∧ e ≠ .eintr := by simpa [Kept] using hnot
    have hcode : selectBody s.errno (.failed e) = .ret (-1) e := if_pos he
    exact hpoll hsock hcode (by decide) hn
  | .poll (.ready revents soError) =>
    obtain ⟨hsock, herr⟩ : s.sock = .established ∧ revents &&& (pollErr ||| pollHup) ≠ 0 := by
      simpa [Kept] using hnot
    have hcode : selectBody s.errno (.ready revents soError) =
        .ret (if soError = .econnreset then -2 else -1) soError := if_pos herr
    exact hpoll hsock hcode (by split_ifs <;> decide) hn
  | .poll .timedOut => exact absurd trivial hnot
  | .complete (some e) => exact absurd trivial hnot
  | .socket ok => exact absurd trivial hnot
  | .connect o => exact absurd trivial hnot
  | .close => exact absurd trivial hnot

/-- The first `connect` is interrupted, the second one finds the handshake under way, and it
succeeds before `close`. -/
theorem established_closed : ¬∀ (s : Attempt) (valid : Bool), connect.Reachable Free s →
    s.place = .returned valid → (valid = true ↔ s.succeeded = true) := by
  intro h
  obtain ⟨s, hrun, hret, hsucceeded⟩ : ∃ s,
      connect.exec Free ⟨.opening, .absent, .eagain, 0, false, false⟩
        [.socket true, .connect (.fails .eintr), .connect (.fails ealready), .complete none,
          .close] = some s ∧ s.place = .returned false ∧ s.succeeded = true :=
    ⟨_, rfl, rfl, rfl⟩
  have hreach := System.reachable_of_exec (M := connect) ⟨.eagain, rfl⟩ hrun
  exact absurd ((h s false hreach hret).mpr hsucceeded) (by decide)

end Xfnet.Connector
