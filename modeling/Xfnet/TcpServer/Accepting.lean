import Xfnet.EventLoop.Group
import Xfnet.Foundations.Progress
import Xfnet.SocketUtil

/-!
# From the listening socket to the loops

The accept thread of a `TcpServer`, system call by system call: `Acceptor::Accept` tries `accept4`,
waits in `SocketUtil::Select` when there is nothing to accept, and tries once more; each connection
goes to the callback with the loop whose turn it is. Meanwhile the kernel completes handshakes, and
another thread may call `Stop`.

The connections are handed over in the order in which they came, each of them once
(`connections_in_order`), and none waits for more than three steps of the accept thread for each
one in front of it (`accepted_soon`).
-/

namespace Xfnet.TcpServer.Accepting

open EventLoopGroup Loops SocketUtil Transition

/-- `SocketUtil::EVENT_READ`. -/
def eventRead : ℕ := pollIn ||| pollPri

/-- What `accept4` answers: the first connection that waits, or an error. -/
inductive AcceptOutcome
  | connection
  | fails (e : Errno)
  deriving DecidableEq

/-- Where the accept thread is: at the test of `m_state`, at one of the two `accept4`, in `Select`
between them, in the callback, out of the loop, or in a failed assertion. -/
inductive Place
  | loop
  | accepting
  | selecting
  | retrying
  | creating
  | exited
  | aborted
  deriving DecidableEq

/-- The connections that ever came and those that wait in the listening socket, whether `Stop` has
set `m_state`, the accept thread with its `errno`, and the loops, with the connections given to the
callback so far. -/
structure State (L C : Type*) where
  arrived : List C
  pending : List C
  stopping : Bool
  place : Place
  errno : Errno
  table : LoopTable L
  dispatched : List (Dispatch L C)

/-- A handshake is completed, another thread calls `Stop`, or the accept thread moves. -/
inductive Label (C : Type*)
  | arrive (c : C)
  | stop
  | test
  | accept4 (o : AcceptOutcome)
  | poll (p : PollOutcome)
  | created

variable {L C : Type*}

namespace State

/-- `TcpServer::Accept` with a valid stream, up to the callback. -/
def dispatch (s : State L C) (stream : C) (pending : List C) : State L C :=
  match s.table.accept (some stream) with
  | some (ds, table) =>
    { s with
      pending := pending
      place := .creating
      table := table
      dispatched := s.dispatched ++ ds }
  | none => { s with pending := pending, place := .aborted }

/-- `accept4`, with the place to go on from when it fails. There is nothing to accept only where
nothing waits. -/
def accept4 (s : State L C) (failed : Place) : AcceptOutcome → Option (State L C)
  | .connection =>
    match s.pending with
    | [] => none
    | stream :: pending => some (s.dispatch stream pending)
  | .fails e =>
    if e = .eagain ∧ s.pending ≠ [] then none else some { s with errno := e, place := failed }

/-- An iteration of `Select`, and what `Acceptor::Accept` does with its result. -/
def select (s : State L C) (p : PollOutcome) : State L C :=
  match selectBody s.errno p with
  | .next e => { s with errno := e }
  | .ret events e =>
    if 0 < events ∧ events.toNat &&& eventRead ≠ 0 then { s with errno := e, place := .retrying }
    else { s with errno := e, place := .loop }
  | .abort => { s with place := .aborted }

def next (s : State L C) : Label C → Option (State L C)
  | .arrive c => some { s with arrived := s.arrived ++ [c], pending := s.pending ++ [c] }
  | .stop => some { s with stopping := true }
  | .test =>
    if s.place = .loop then some { s with place := if s.stopping then .exited else .accepting }
    else none
  | .accept4 o =>
    if s.place = .accepting then s.accept4 .selecting o
    else if s.place = .retrying then s.accept4 .loop o
    else none
  | .poll p =>
    if s.place = .selecting ∧ SocketUtil.select.allows s.errno p = true then some (s.select p)
    else none
  | .created => if s.place = .creating then some { s with place := .loop } else none

end State

/-- A server that has been started with the loops of `table`. -/
def server (table : LoopTable L) (C : Type*) : System (State L C) (Label C) where
  init s := ∃ errno, s = ⟨[], [], false, .loop, errno, table, []⟩
  next := State.next

/-! ## What a step does -/

section Steps

variable {s s' : State L C} {l : Label C}

/-- **The steps**, with what they change of the connections and the place of the accept thread. -/
inductive Step (s : State L C) : Label C → State L C → Prop
  | arrive {c : C} : Step s (.arrive c)
      { s with arrived := s.arrived ++ [c], pending := s.pending ++ [c] }
  | stop : Step s .stop { s with stopping := true }
  | test : s.place = .loop → Step s .test
      { s with place := if s.stopping then .exited else .accepting }
  | connection {c : C} {pending : List C} : s.place = .accepting ∨ s.place = .retrying →
      s.pending = c :: pending → Step s (.accept4 .connection) (s.dispatch c pending)
  | empty {e : Errno} : s.place = .accepting → (e = .eagain → s.pending = []) →
      Step s (.accept4 (.fails e)) { s with errno := e, place := .selecting }
  | fails {e : Errno} : s.place = .retrying → (e = .eagain → s.pending = []) →
      Step s (.accept4 (.fails e)) { s with errno := e, place := .loop }
  | poll {p : PollOutcome} {errno : Errno} {place : Place} : s.place = .selecting →
      place = .selecting ∨ place = .retrying ∨ place = .loop →
      s.select p = { s with errno := errno, place := place } →
      Step s (.poll p) { s with errno := errno, place := place }
  | created : s.place = .creating → Step s .created { s with place := .loop }

/-- `Select` ends with one of its results; its assertion holds. -/
theorem select_cases (s : State L C) {p : PollOutcome}
    (h : SocketUtil.select.allows s.errno p = true) (hplace : s.place = .selecting) :
    ∃ errno place, (place = .selecting ∨ place = .retrying ∨ place = .loop) ∧
      s.select p = { s with errno := errno, place := place } := by
  unfold State.select
  cases hbody : selectBody s.errno p with
  | next e => exact ⟨e, s.place, .inl hplace, rfl⟩
  | ret events e =>
    dsimp only
    split_ifs
    · exact ⟨e, .retrying, .inr (.inl rfl), rfl⟩
    · exact ⟨e, .loop, .inr (.inr rfl), rfl⟩
  | abort => exact absurd hbody (select_spec.safe s.errno p trivial rfl h)

theorem step_of_accept4 {failed : Place} {o : AcceptOutcome}
    (hn : s.accept4 failed o = some s') :
    (∃ c pending, s.pending = c :: pending ∧ o = .connection ∧ s' = s.dispatch c pending) ∨
      ∃ e, o = .fails e ∧ (e = .eagain → s.pending = []) ∧
        s' = { s with errno := e, place := failed } := by
  cases o with
  | connection =>
    unfold State.accept4 at hn
    dsimp only at hn
    split at hn
    · cases hn
    · next c pending hpending =>
      exact .inl ⟨c, pending, hpending, rfl, (Option.some.inj hn).symm⟩
  | fails e =>
    obtain ⟨hnot, he⟩ := Option.ite_none_left_eq_some.mp hn
    refine .inr ⟨e, rfl, fun heagain => ?_, (Option.some.inj he).symm⟩
    by_contra hpending
    exact hnot ⟨heagain, hpending⟩

theorem step_of_next (hn : s.next l = some s') : Step s l s' := by
  cases l with
  | arrive c =>
    obtain rfl := Option.some.inj hn
    exact .arrive
  | stop =>
    obtain rfl := Option.some.inj hn
    exact .stop
  | test =>
    obtain ⟨hplace, he⟩ := Option.ite_none_right_eq_some.mp hn
    obtain rfl := Option.some.inj he
    exact .test hplace
  | accept4 o =>
    simp only [State.next] at hn
    split_ifs at hn with h₁ h₂
    · obtain ⟨c, pending, hpending, rfl, rfl⟩ | ⟨e, rfl, he, rfl⟩ := step_of_accept4 hn
      · exact .connection (.inl h₁) hpending
      · exact .empty h₁ he
    · obtain ⟨c, pending, hpending, rfl, rfl⟩ | ⟨e, rfl, he, rfl⟩ := step_of_accept4 hn
      · exact .connection (.inr h₂) hpending
      · exact .fails h₂ he
  | poll p =>
    obtain ⟨⟨hplace, hallows⟩, he⟩ := Option.ite_none_right_eq_some.mp hn
    obtain rfl := Option.some.inj he
    obtain ⟨errno, place, hcases, hselect⟩ := select_cases s hallows hplace
    rw [hselect]
    exact .poll hplace hcases hselect
  | created =>
    obtain ⟨hplace, he⟩ := Option.ite_none_right_eq_some.mp hn
    obtain rfl := Option.some.inj he
    exact .created hplace

/-- The callback gets the connection and the next loop; no assertion fails. -/
theorem dispatch_eq (hb : s.table.Started) (c : C) (pending : List C) :
    ∃ loop, getEventLoop s.table.loops (s.table.nextLoopIndex % s.table.loopNum) = some loop ∧
      s.dispatch c pending =
        { s with
          pending := pending
          place := .creating
          table := s.table.advance
          dispatched :=
            s.dispatched ++ [⟨s.table.nextLoopIndex % s.table.loopNum, loop, c⟩] } := by
  obtain ⟨loop, -, hnext⟩ := nextLoop_of_started hb
  refine ⟨loop, ?_, ?_⟩
  · unfold LoopTable.nextLoop at hnext
    obtain ⟨-, hmap⟩ := Option.ite_none_left_eq_some.mp hnext
    obtain ⟨loop', hget, he⟩ := Option.map_eq_some_iff.mp hmap
    rw [hget, (Prod.mk.inj (Prod.mk.inj he).2).1]
  · rw [State.dispatch, LoopTable.accept, hnext]
    rfl

end Steps

/-! ## Whole runs -/

/-- The connections are those that came, in their order, each with the loop whose turn it was. -/
structure Ok (table : LoopTable L) (s : State L C) : Prop where
  place : s.place ≠ .aborted
  exited : s.place = .exited → s.stopping = true
  order : s.dispatched.map Dispatch.stream ++ s.pending = s.arrived
  started : s.table.Started
  loops : s.table.loops = table.loops
  loopNum : s.table.loopNum = table.loopNum
  counter : s.table.nextLoopIndex = table.nextLoopIndex + BitVec.ofNat 32 s.dispatched.length
  indices : s.dispatched.map Dispatch.index =
    indices table.nextLoopIndex table.loopNum s.dispatched.length
  dispatched : ∀ d ∈ s.dispatched, getEventLoop table.loops d.index = some d.loop

section Runs

variable {table : LoopTable L} {s s' : State L C} {l : Label C} {ls : List (Label C)}

/-- A step that only moves the accept thread. -/
theorem Ok.moves (h : Ok table s) (errno : Errno) {place : Place} (hplace : place ≠ .aborted)
    (hexited : place = .exited → s.stopping = true) :
    Ok table { s with errno := errno, place := place } :=
  ⟨hplace, hexited, h.order, h.started, h.loops, h.loopNum, h.counter, h.indices, h.dispatched⟩

theorem Ok.dispatch (h : Ok table s) {c : C} {pending : List C}
    (hpending : s.pending = c :: pending) :
    Ok table (s.dispatch c pending) ∧
      (s.dispatch c pending).dispatched.length = s.dispatched.length + 1 ∧
      (s.dispatch c pending).place = .creating ∧
      (s.dispatch c pending).arrived = s.arrived ∧
      (s.dispatch c pending).stopping = s.stopping := by
  obtain ⟨loop, hget, he⟩ := dispatch_eq h.started c pending
  rw [he]
  refine ⟨⟨nofun, nofun, ?_, h.started.advance, h.loops, h.loopNum, ?_, ?_, ?_⟩,
    List.length_append, rfl, rfl, rfl⟩
  · show (s.dispatched ++ [_]).map Dispatch.stream ++ pending = s.arrived
    rw [List.map_append, List.append_assoc, ← h.order, hpending]
    rfl
  · show s.table.nextLoopIndex + 1 = _
    rw [h.counter, List.length_append, BitVec.add_assoc, BitVec.ofNat_add]
    rfl
  · show (s.dispatched ++ [_]).map Dispatch.index = EventLoopGroup.indices _ _ (_ ++ [_]).length
    rw [List.map_append, h.indices, List.length_append, EventLoopGroup.indices,
      EventLoopGroup.indices, List.length_singleton, List.range_succ, List.map_append, h.counter,
      h.loopNum]
    rfl
  · show ∀ d ∈ s.dispatched ++ [_], _
    rw [List.forall_mem_append, List.forall_mem_singleton, ← h.loops]
    exact ⟨h.loops ▸ h.dispatched, hget⟩

theorem ok_step (h : Ok table s) (hn : s.next l = some s') : Ok table s' := by
  cases step_of_next hn with
  | @arrive c =>
    refine ⟨h.place, h.exited, ?_, h.started, h.loops, h.loopNum, h.counter, h.indices,
      h.dispatched⟩
    show s.dispatched.map Dispatch.stream ++ (s.pending ++ [c]) = s.arrived ++ [c]
    rw [← List.append_assoc, h.order]
  | stop =>
    exact ⟨h.place, fun _ => rfl, h.order, h.started, h.loops, h.loopNum, h.counter, h.indices,
      h.dispatched⟩
  | test hplace =>
    by_cases hstop : s.stopping = true
    · rw [if_pos hstop]
      exact h.moves s.errno nofun fun _ => hstop
    · rw [if_neg hstop]
      exact h.moves s.errno nofun nofun
  | connection hplace hpending => exact (h.dispatch hpending).1
  | empty hplace he => exact h.moves _ nofun nofun
  | fails hplace he => exact h.moves _ nofun nofun
  | poll hplace hcases hselect =>
    rcases hcases with rfl | rfl | rfl <;> exact h.moves _ nofun nofun
  | created hplace => exact h.moves s.errno nofun nofun

theorem ok_of_reachable (hb : table.Started) (hr : (server table C).Reachable Free s) :
    Ok table s := by
  refine System.Reachable.invariant (I := Ok table) ?_ (fun s l s' _ h _ hn => ok_step h hn) hr
  rintro s ⟨errno, rfl⟩
  refine ⟨nofun, nofun, rfl, hb, rfl, rfl, ?_, rfl, nofun⟩
  show _ = _ + 0#32
  rw [BitVec.add_zero]

/-- The `accept4` that the accept thread may still make when it is told to stop. -/
def Place.left : Place → ℕ
  | .accepting => 1
  | .selecting => 1
  | .retrying => 1
  | _ => 0

/-- `Stop` lets one more connection through at most. -/
theorem left_step (h : Ok table s) (hstop : s.stopping = true) (hn : s.next l = some s') :
    s'.stopping = true ∧
      s'.dispatched.length + s'.place.left ≤ s.dispatched.length + s.place.left := by
  cases step_of_next hn with
  | arrive => exact ⟨hstop, le_rfl⟩
  | stop => exact ⟨rfl, le_rfl⟩
  | test hplace =>
    rw [if_pos hstop]
    exact ⟨hstop, Nat.add_le_add_left (Nat.zero_le _) _⟩
  | connection hplace hpending =>
    obtain ⟨-, hlen, hcreating, -, hstopping⟩ := h.dispatch hpending
    refine ⟨hstopping.trans hstop, ?_⟩
    rw [hlen, hcreating]
    rcases hplace with hplace | hplace <;> rw [hplace] <;> exact le_rfl
  | empty hplace he =>
    rw [hplace]
    exact ⟨hstop, le_rfl⟩
  | fails hplace he => exact ⟨hstop, Nat.add_le_add_left (Nat.zero_le _) _⟩
  | poll hplace hcases hselect =>
    rw [hplace]
    refine ⟨hstop, Nat.add_le_add_left ?_ _⟩
    rcases hcases with rfl | rfl | rfl
    · exact Nat.le_refl 1
    · exact Nat.le_refl 1
    · exact Nat.zero_le 1
  | created hplace => exact ⟨hstop, Nat.add_le_add_left (Nat.zero_le _) _⟩

/-- **From the socket to the loops**, whatever the system calls answer: no assertion fails, the
connections are given to the callback in the order in which they came, each of them once, with the
loops in turn, and after `Stop` there is one more at most. -/
theorem connections_in_order (hb : table.Started) (hr : (server table C).Reachable Free s) :
    s.place ≠ .aborted ∧ s.dispatched.map Dispatch.stream ++ s.pending = s.arrived ∧
      s.dispatched.map Dispatch.index =
        indices table.nextLoopIndex table.loopNum s.dispatched.length ∧
      (∀ d ∈ s.dispatched, getEventLoop table.loops d.index = some d.loop) ∧
      ∀ s' ls, s.stopping = true → (server table C).exec Free s ls = some s' →
        s'.dispatched.length ≤ s.dispatched.length + 1 := by
  have h := ok_of_reachable hb hr
  refine ⟨h.place, h.order, h.indices, h.dispatched, fun s' ls hstop hrun => ?_⟩
  have hleft : s'.dispatched.length + s'.place.left ≤ s.dispatched.length + s.place.left := by
    refine System.exec_rel (R := fun s s' : State L C => Ok table s → s.stopping = true →
      s'.dispatched.length + s'.place.left ≤ s.dispatched.length + s.place.left)
      (fun _ _ _ => le_rfl) ?_ hrun h hstop
    intro s l s₁ s' _ hn hrest h hstop
    obtain ⟨hstop', hle⟩ := left_step h hstop hn
    exact (hrest (ok_step h hn) hstop').trans hle
  have hone : s.place.left ≤ 1 := by
    cases s.place <;> decide
  omega

end Runs

/-- A connection comes in and is given to the first of two loops; the next one comes after `Stop`
and stays in the socket. -/
theorem connections_in_order_two : ∃ s : State String ℕ,
    (server (LoopTable.fresh ["a", "b"]) ℕ).Reachable Free s ∧ s.pending = [8] ∧
      s.dispatched.map Dispatch.stream ++ s.pending = s.arrived := by
  have hrun : (((server (LoopTable.fresh ["a", "b"]) ℕ).exec Free
      ⟨[], [], false, .loop, .eagain, LoopTable.fresh ["a", "b"], []⟩
      [.test, .accept4 (.fails .eagain), .arrive 7, .poll (.ready pollIn .eagain),
        .accept4 .connection, .stop, .arrive 8, .created, .test]).map State.pending) =
      some [8] := by decide
  obtain ⟨s, hs, hpending⟩ := Option.map_eq_some_iff.mp hrun
  have hr := System.reachable_of_exec (M := server (LoopTable.fresh ["a", "b"]) ℕ) ⟨.eagain, rfl⟩ hs
  exact ⟨s, hr, hpending,
    (connections_in_order (LoopTable.started_fresh (by decide) (by decide)) hr).2.1⟩

/-! ## The wait of a connection -/

/-- `poll` tells of something to read. -/
def reads : PollOutcome → Bool
  | .ready revents _ => revents &&& (pollErr ||| pollHup) = 0 ∧ revents &&& eventRead ≠ 0
  | _ => false

/-- Nobody calls `Stop`, `accept4` fails only with `EAGAIN`, and `poll` is interrupted or tells of
the connections that wait. -/
def Serves (s : State L C) : Label C → Prop
  | .stop => False
  | .accept4 (.fails e) => e = .eagain
  | .poll p => s.pending ≠ [] → reads p = true ∨ p = .failed .eintr
  | _ => True

instance (s : State L C) : DecidablePred (Serves s)
  | .arrive _ => isTrue trivial
  | .stop => isFalse id
  | .test => isTrue trivial
  | .accept4 .connection => isTrue trivial
  | .accept4 (.fails e) => inferInstanceAs (Decidable (e = .eagain))
  | .poll p =>
    inferInstanceAs (Decidable (s.pending ≠ [] → reads p = true ∨ p = .failed .eintr))
  | .created => isTrue trivial

/-- A step of the accept thread, an interrupted `poll` apart. -/
def Label.works : Label C → Bool
  | .arrive _ => false
  | .stop => false
  | .poll (.failed .eintr) => false
  | _ => true

/-- The steps to the next `accept4` that succeeds, where a connection waits. -/
def Place.ahead : Place → ℕ
  | .loop => 2
  | .accepting => 1
  | .selecting => 2
  | .retrying => 1
  | .creating => 3
  | .exited => 0
  | .aborted => 0

/-- The steps until `k + 1` connections are given to the callback. -/
def State.ahead (k : ℕ) (s : State L C) : ℕ :=
  if s.dispatched.length ≤ k then 3 * (k - s.dispatched.length) + s.place.ahead else 0

section Waits

variable {table : LoopTable L} {s s' : State L C} {l : Label C} {ls : List (Label C)} {k : ℕ}

/-- As long as the connection at `k` is not given to the callback, connections wait. -/
theorem Ok.pending_ne_nil (h : Ok table s) (hk : k < s.arrived.length)
    (hd : s.dispatched.length ≤ k) : s.pending ≠ [] := by
  rintro hpending
  have hlen := congrArg List.length h.order
  rw [hpending, List.append_nil, List.length_map] at hlen
  omega

theorem select_of_reads {p : PollOutcome} (hp : reads p = true) :
    ∃ errno, s.select p = { s with errno := errno, place := .retrying } := by
  cases p with
  | ready revents soError =>
    obtain ⟨hok, hread⟩ := of_decide_eq_true hp
    have hpos : 0 < revents := by
      rw [Nat.pos_iff_ne_zero]
      rintro rfl
      exact hread rfl
    refine ⟨s.errno, ?_⟩
    rw [State.select, selectBody, if_neg (not_not.mpr hok), if_pos hpos]
    exact if_pos ⟨by exact_mod_cast hpos, hread⟩
  | timedOut => cases hp
  | failed e => cases hp

/-- A step that only moves the accept thread. -/
theorem ahead_moves (hd : s.dispatched.length ≤ k) (errno : Errno) (place : Place) :
    State.ahead k { s with errno := errno, place := place } =
      3 * (k - s.dispatched.length) + place.ahead := if_pos hd

/-- Nothing that came or was given to the callback is forgotten. -/
theorem lengths_step (h : Ok table s) (hn : s.next l = some s') :
    s.arrived.length ≤ s'.arrived.length ∧ s.dispatched.length ≤ s'.dispatched.length := by
  cases step_of_next hn with
  | arrive =>
    refine ⟨?_, le_rfl⟩
    rw [List.length_append]
    exact Nat.le_add_right _ _
  | stop => exact ⟨le_rfl, le_rfl⟩
  | test hplace => exact ⟨le_rfl, le_rfl⟩
  | connection hplace hpending =>
    obtain ⟨-, hlen, -, harrived, -⟩ := h.dispatch hpending
    exact ⟨harrived ▸ le_rfl, hlen ▸ Nat.le_succ _⟩
  | empty hplace he => exact ⟨le_rfl, le_rfl⟩
  | fails hplace he => exact ⟨le_rfl, le_rfl⟩
  | poll hplace hcases hselect => exact ⟨le_rfl, le_rfl⟩
  | created hplace => exact ⟨le_rfl, le_rfl⟩

theorem stopping_step (h : Ok table s) (hstop : s.stopping = false) (hserves : Serves s l)
    (hn : s.next l = some s') : s'.stopping = false := by
  cases step_of_next hn with
  | arrive => exact hstop
  | stop => exact hserves.elim
  | test hplace => exact hstop
  | connection hplace hpending =>
    obtain ⟨-, -, -, -, hstopping⟩ := h.dispatch hpending
    exact hstopping.trans hstop
  | empty hplace he => exact hstop
  | fails hplace he => exact hstop
  | poll hplace hcases hselect => exact hstop
  | created hplace => exact hstop

/-- **A step brings the connection at `k` nearer to the callback**, or is not one of the thread. -/
theorem ahead_step (h : Ok table s) (hstop : s.stopping = false) (hk : k < s.arrived.length)
    (hserves : Serves s l) (hn : s.next l = some s') (hd : s.dispatched.length ≤ k) :
    s'.ahead k + (if l.works then 1 else 0) ≤ s.ahead k := by
  have hpending := h.pending_ne_nil hk hd
  have hahead : s.ahead k = 3 * (k - s.dispatched.length) + s.place.ahead := if_pos hd
  rw [hahead]
  cases step_of_next hn with
  | arrive => exact hahead.le
  | stop => exact hserves.elim
  | test hplace =>
    rw [hstop, if_neg Bool.false_ne_true, hplace, ← hstop, ahead_moves hd]
    exact le_rfl
  | connection hplace hcons =>
    obtain ⟨-, hlen, hcreating, -, -⟩ := h.dispatch hcons
    have hone : s.place.ahead = 1 := by
      rcases hplace with hplace | hplace <;> rw [hplace] <;> rfl
    have hthree : Place.creating.ahead = 3 := rfl
    have hworks : (Label.accept4 .connection : Label C).works = true := rfl
    rw [State.ahead, hlen, hcreating, hone, hthree, if_pos hworks]
    split_ifs <;> omega
  | empty hplace he => exact absurd (he hserves) hpending
  | fails hplace he => exact absurd (he hserves) hpending
  | @poll p errno place hplace hcases hselect =>
    rw [ahead_moves hd, hplace]
    rcases hserves hpending with hp | rfl
    · obtain ⟨e, he⟩ := select_of_reads (s := s) hp
      obtain rfl : place = .retrying := congrArg State.place (hselect.symm.trans he)
      split_ifs
      · exact le_rfl
      · exact Nat.le_succ _
    · obtain rfl : place = .selecting := (congrArg State.place hselect).symm.trans hplace
      exact le_rfl
  | created hplace =>
    rw [ahead_moves hd, hplace]
    exact le_rfl

/-- The accept thread is never stuck while a connection waits. -/
theorem works_of_ok (h : Ok table s) (hstop : s.stopping = false) (hpending : s.pending ≠ []) :
    ∃ l s', l.works = true ∧ Serves s l ∧ s.next l = some s' := by
  obtain ⟨c, pending, hcons⟩ := List.exists_cons_of_ne_nil hpending
  cases hplace : s.place with
  | loop => exact ⟨.test, _, rfl, trivial, if_pos hplace⟩
  | accepting =>
    refine ⟨.accept4 .connection, s.dispatch c pending, rfl, trivial, ?_⟩
    rw [State.next, if_pos hplace, State.accept4, hcons]
  | selecting =>
    exact ⟨.poll (.ready pollIn s.errno), _, rfl, fun _ => .inl rfl, if_pos ⟨hplace, rfl⟩⟩
  | retrying =>
    refine ⟨.accept4 .connection, s.dispatch c pending, rfl, trivial, ?_⟩
    rw [State.next, if_neg (by rw [hplace]; decide), if_pos hplace, State.accept4, hcons]
  | creating => exact ⟨.created, _, rfl, trivial, if_pos hplace⟩
  | exited => exact absurd (h.exited hplace) (Bool.eq_false_iff.mp hstop)
  | aborted => exact absurd hplace h.place

/-- **No connection waits for long** while nobody calls `Stop` and the system calls do what they are
there for: from any moment on, the accept thread makes three steps at most for a connection and each
of those in front of it, interrupted polls not counted, and until then it always has a step to
make. -/
theorem accepted_soon (hb : table.Started) (hr : (server table C).Reachable Free s)
    (hstop : s.stopping = false) (hk : k < s.arrived.length)
    (hrun : (server table C).exec Serves s ls = some s') :
    (server table C).tally (fun s l => l.works && decide (s.dispatched.length ≤ k)) s ls ≤
        3 * (k + 1 - s.dispatched.length) ∧
      (s'.dispatched.length ≤ k →
        ∃ l s'', l.works = true ∧ Serves s' l ∧ s'.next l = some s'') := by
  have hstep (s : State L C) (l : Label C) (s' : State L C)
      (hI : Ok table s ∧ s.stopping = false ∧ k < s.arrived.length) (hserves : Serves s l)
      (hn : s.next l = some s') :
      (Ok table s' ∧ s'.stopping = false ∧ k < s'.arrived.length) ∧
        s'.ahead k + (if l.works && decide (s.dispatched.length ≤ k) then 1 else 0) ≤
          s.ahead k := by
    obtain ⟨h, hstop, hk⟩ := hI
    obtain ⟨harrived, hdispatched⟩ := lengths_step h hn
    refine ⟨⟨ok_step h hn, stopping_step h hstop hserves hn, hk.trans_le harrived⟩, ?_⟩
    by_cases hd : s.dispatched.length ≤ k
    · rw [decide_eq_true hd, Bool.and_true]
      exact ahead_step h hstop hk hserves hn hd
    · rw [decide_eq_false hd, Bool.and_false, State.ahead, if_neg (by omega)]
      exact Nat.zero_le _
  obtain ⟨⟨h', hstop', hk'⟩, htally⟩ :=
    System.tally_add_le hstep ⟨ok_of_reachable hb hr, hstop, hk⟩ hrun
  refine ⟨(Nat.le_add_right _ _).trans (htally.trans ?_), fun hd =>
    works_of_ok h' hstop' (h'.pending_ne_nil hk' hd)⟩
  have hthree : s.place.ahead ≤ 3 := by
    cases s.place <;> decide
  unfold State.ahead
  split_ifs <;> omega

end Waits

/-- The thread waits in `Select` while two connections come in, and it is interrupted there. -/
theorem accepted_soon_interrupted : ∃ s s' : State String ℕ,
    (server (LoopTable.fresh ["a"]) ℕ).exec Serves s
        [.poll (.failed .eintr), .poll (.ready pollIn .eagain), .accept4 .connection, .created,
          .test, .accept4 .connection] = some s' ∧
      (server (LoopTable.fresh ["a"]) ℕ).tally
        (fun s l => l.works && decide (s.dispatched.length ≤ 1)) s
        [.poll (.failed .eintr), .poll (.ready pollIn .eagain), .accept4 .connection, .created,
          .test, .accept4 .connection] ≤ 3 * (1 + 1 - s.dispatched.length) := by
  have hexec : (server (LoopTable.fresh ["a"]) ℕ).exec Free
      ⟨[], [], false, .loop, .eagain, LoopTable.fresh ["a"], []⟩
      [.test, .accept4 (.fails .eagain), .arrive 7, .arrive 8] =
        some ⟨[7, 8], [7, 8], false, .selecting, .eagain, LoopTable.fresh ["a"], []⟩ := rfl
  have hr : (server (LoopTable.fresh ["a"]) ℕ).Reachable Free
      ⟨[7, 8], [7, 8], false, .selecting, .eagain, LoopTable.fresh ["a"], []⟩ :=
    System.reachable_of_exec ⟨.eagain, rfl⟩ hexec
  exact ⟨_, _, rfl,
    (accepted_soon (LoopTable.started_fresh (by decide) (by decide)) hr rfl (by decide) rfl).1⟩

end Xfnet.TcpServer.Accepting
