import Xfnet.EventLoop.Group
import Xfnet.EventLoop.Registry
import Xfnet.Foundations.Script

/-!
# Shutdown of a server

The main thread runs `Start` and then `Stop`, one instruction after another, beside the accept
thread and the threads of the loops. What the threads use (the listening descriptor, the epoll
descriptors) is opened before they start and closed after they are joined, so it is there for as
long as they run (`shutdown_order`).

An assertion that fails, a `std::thread` that is joined or replaced against the rules of C++, and a
system call on a descriptor that is not open are steps like others, which the state records.
-/

namespace Xfnet.TcpServer.Shutdown

open EventLoop EventLoopGroup Script Transition

variable {n : ℕ}

/-- What the main thread does, for a server with `n` loops. -/
inductive Instr (n : ℕ)
  | openAcceptor
  | setLoopNum
  | openSelector (i : Fin n)
  | startThread (i : Fin n)
  | setLoopStarted (i : Fin n)
  | swapLoops
  | startAcceptThread
  | setStarted
  | checkStarted
  | setStopping
  | joinAcceptThread
  | stopping (i : Fin n)
  | joinThread (i : Fin n)
  | closeSelector (i : Fin n)
  | setLoopStopped (i : Fin n)
  | closeAcceptor
  | setStopped
  deriving DecidableEq

/-- `EventLoop::Start`. -/
def loopStart (i : Fin n) : List (Instr n) := [.openSelector i, .startThread i, .setLoopStarted i]

/-- `EventLoop::Join`. -/
def loopJoin (i : Fin n) : List (Instr n) := [.joinThread i, .closeSelector i, .setLoopStopped i]

/-- `EventLoopGroup::Start`. -/
def groupStart (n : ℕ) : List (Instr n) := (List.finRange n).flatMap loopStart ++ [.swapLoops]

/-- `EventLoopGroup::Stop`. -/
def groupStop (n : ℕ) : List (Instr n) :=
  (List.finRange n).map .stopping ++ (List.finRange n).flatMap loopJoin

/-- `TcpServer::Start`. -/
def serverStart (n : ℕ) : List (Instr n) :=
  [.openAcceptor, .setLoopNum] ++ groupStart n ++ [.startAcceptThread, .setStarted]

/-- `TcpServer::Stop`. -/
def serverStop (n : ℕ) : List (Instr n) :=
  [.checkStarted, .setStopping, .joinAcceptThread] ++ groupStop n ++ [.closeAcceptor, .setStopped]

def program (n : ℕ) : List (Instr n) := serverStart n ++ serverStop n

/-- Where the accept thread is: in the test of its loop, in `Accept` (at `accept4`, at the `Select`
after it failed, at the second `accept4`, with a stream, in the callback that registers the handler
with a loop), or out. It is `absent` before it starts and after it is joined. -/
inductive AcceptPc (n : ℕ)
  | absent
  | test
  | accept
  | poll
  | retry
  | dispatch
  | register (i : Fin n)
  | exited
  deriving DecidableEq

/-- Where the thread of a loop is: in the test of its loop, at `epoll_wait`, among the handlers of
the events it returned, or out. -/
inductive LoopPc
  | absent
  | test
  | select
  | handle
  | exited
  deriving DecidableEq

/-- What the main thread has still to do, `m_state`, whether the listening descriptor is open, the
table of the loops, the accept thread, and for each loop its `m_state`, whether its epoll descriptor
is open, and its thread. `failed` records a step that must not happen. -/
structure State (n : ℕ) where
  todo : List (Instr n)
  state : RunState
  acceptor : Bool
  table : LoopTable (Fin n)
  acceptPc : AcceptPc n
  loopState : Fin n → RunState
  selector : Fin n → Bool
  loopPc : Fin n → LoopPc
  failed : Bool

/-- A step of the main thread, of the accept thread or of a loop's thread; `ok` is the answer of the
system call, and for a loop `more` says that its handlers have another call to make. -/
inductive Label (n : ℕ)
  | main (ok : Bool)
  | accept (ok : Bool)
  | loop (i : Fin n) (more : Bool)

namespace State

/-- The step is only right under the condition. -/
@[simp] def needs (s : State n) (ok : Bool) : State n := { s with failed := s.failed || !ok }

@[simp] def setSelector (s : State n) (i : Fin n) (b : Bool) : State n :=
  { s with selector := Function.update s.selector i b }

@[simp] def setLoopPc (s : State n) (i : Fin n) (pc : LoopPc) : State n :=
  { s with loopPc := Function.update s.loopPc i pc }

@[simp] def setLoopState (s : State n) (i : Fin n) (state : RunState) : State n :=
  { s with loopState := Function.update s.loopState i state }

/-- An instruction of the main thread. A join waits for the thread to exit. -/
def exec (s : State n) : Instr n → Option (State n)
  | .openAcceptor => some { s with acceptor := true }
  | .setLoopNum => some { s with table := { s.table with loopNum := BitVec.ofNat 32 n } }
  | .openSelector i => some ((s.needs (!s.selector i)).setSelector i true)
  | .startThread i => some ((s.needs (s.loopPc i = .absent)).setLoopPc i .test)
  | .setLoopStarted i => some (s.setLoopState i .started)
  | .swapLoops => some { s with table := { s.table with loops := List.finRange n } }
  | .startAcceptThread =>
    some { s.needs (s.acceptPc = .absent) with acceptPc := .test }
  | .setStarted => some { s with state := .started }
  | .checkStarted => some (if s.state = .started then s else { s with todo := [] })
  | .setStopping => some { s with state := .stopping }
  | .joinAcceptThread =>
    match s.acceptPc with
    | .exited => some { s with acceptPc := .absent }
    | .absent => some (s.needs false)
    | _ => none
  | .stopping i => some (if s.loopState i = .started then s.setLoopState i .stopping else s)
  | .joinThread i =>
    match s.loopPc i with
    | .exited => some (s.setLoopPc i .absent)
    | .absent => some (s.needs false)
    | _ => none
  | .closeSelector i => some (s.setSelector i false)
  | .setLoopStopped i => some (s.setLoopState i .stopped)
  | .closeAcceptor => some { s with acceptor := false }
  | .setStopped => some { s with state := .stopped }

/-- The main thread goes on. Where `m_acceptor.Open` fails, `Start` returns `false`. -/
def main (s : State n) (ok : Bool) : Option (State n) :=
  match s.todo with
  | [] => none
  | .openAcceptor :: rest =>
    if ok then { s with todo := rest }.exec .openAcceptor
    else some { s with todo := serverStop n }
  | a :: rest => { s with todo := rest }.exec a

/-- `AcceptThread`. -/
def accept (s : State n) (ok : Bool) : Option (State n) :=
  match s.acceptPc with
  | .test => some { s with acceptPc := if s.state = .stopping then .exited else .accept }
  | .accept => some { s.needs s.acceptor with acceptPc := if ok then .dispatch else .poll }
  | .poll => some { s.needs s.acceptor with acceptPc := if ok then .retry else .test }
  | .retry => some { s.needs s.acceptor with acceptPc := if ok then .dispatch else .test }
  | .dispatch =>
    match s.table.nextLoop with
    | some (_, i, table) => some { s with acceptPc := .register i, table := table }
    | none => some { s.needs false with acceptPc := .test }
  | .register i => some { s.needs (s.selector i) with acceptPc := .test }
  | _ => none

/-- `LoopThread`, with handlers that make calls of their own loop. -/
def loop (s : State n) (i : Fin n) (more : Bool) : Option (State n) :=
  match s.loopPc i with
  | .test => some (s.setLoopPc i (if s.loopState i = .stopping then .exited else .select))
  | .select => some ((s.needs (s.selector i)).setLoopPc i .handle)
  | .handle => some (if more then s.needs (s.selector i) else s.setLoopPc i .test)
  | _ => none

def next (s : State n) : Label n → Option (State n)
  | .main ok => s.main ok
  | .accept ok => s.accept ok
  | .loop i more => s.loop i more

end State

/-- A server that was just constructed, with the main thread before `Start` and `Stop`. -/
def server (n : ℕ) : System (State n) (Label n) where
  init s := s = ⟨program n, .stopped, false, ⟨0, 0, []⟩, .absent, fun _ => .stopped, fun _ => false,
    fun _ => .absent, false⟩
  next := State.next

/-! ## The order of the instructions -/

/-- The place of an instruction in the program. -/
def rank : Instr n → ℕ
  | .openAcceptor => 0
  | .setLoopNum => 1
  | .openSelector i => 3 * i + 2
  | .startThread i => 3 * i + 3
  | .setLoopStarted i => 3 * i + 4
  | .swapLoops => 3 * n + 2
  | .startAcceptThread => 3 * n + 3
  | .setStarted => 3 * n + 4
  | .checkStarted => 3 * n + 5
  | .setStopping => 3 * n + 6
  | .joinAcceptThread => 3 * n + 7
  | .stopping i => i + (3 * n + 8)
  | .joinThread i => 3 * i + (4 * n + 8)
  | .closeSelector i => 3 * i + (4 * n + 9)
  | .setLoopStopped i => 3 * i + (4 * n + 10)
  | .closeAcceptor => 7 * n + 8
  | .setStopped => 7 * n + 9

theorem mem_program (a : Instr n) : a ∈ program n := by
  cases a <;> simp [program, serverStart, serverStop, groupStart, groupStop, loopStart, loopJoin]

theorem spans_loopStart (i : Fin n) : Spans rank (3 * i + 2) (3 * (i + 1) + 2) (loopStart i) :=
  .cons rfl (by omega) (.cons rfl (by omega) (.cons rfl (by omega) .nil))

theorem spans_loopJoin (i : Fin n) :
    Spans rank (3 * i + (4 * n + 8)) (3 * (i + 1) + (4 * n + 8)) (loopJoin i) :=
  .cons rfl (by omega) (.cons rfl (by omega) (.cons rfl (by omega) .nil))

theorem spans_stopping :
    Spans rank (3 * n + 8) (4 * n + 8) ((List.finRange n).map Instr.stopping) := by
  have h : Spans rank (3 * n + 8) (1 * n + (3 * n + 8))
      ((List.finRange n).flatMap fun i => [Instr.stopping i]) :=
    .flatMap fun i => .cons (by simp only [rank, Nat.one_mul]) (by omega) .nil
  rw [← List.map_eq_flatMap] at h
  convert h using 1
  omega

theorem spans_serverStart : Spans rank 0 (3 * n + 5) (serverStart n) := by
  have hlast : Spans rank (3 * n + 2) (3 * n + 3) [(.swapLoops : Instr n)] :=
    .cons rfl (by omega) .nil
  have hgroup : Spans rank 2 (3 * n + 3) (groupStart n) :=
    .append (.flatMap spans_loopStart) hlast (by omega) (by omega)
  have hthread : Spans rank (3 * n + 3) (3 * n + 5) [(.startAcceptThread : Instr n), .setStarted] :=
    .cons rfl (by omega) (.cons rfl (by omega) .nil)
  exact .append (.cons rfl (by omega) (.cons rfl (by omega) hgroup)) hthread (by omega) (by omega)

theorem spans_serverStop : Spans rank (3 * n + 5) (7 * n + 10) (serverStop n) := by
  have hjoin : Spans rank (4 * n + 8) (7 * n + 8)
      ((List.finRange n).flatMap (loopJoin (n := n))) := by
    convert Spans.flatMap spans_loopJoin using 1
    omega
  have hgroup : Spans rank (3 * n + 8) (7 * n + 8) (groupStop n) :=
    .append spans_stopping hjoin (by omega) (by omega)
  have hlast : Spans rank (7 * n + 8) (7 * n + 10) [(.closeAcceptor : Instr n), .setStopped] :=
    .cons rfl (by omega) (.cons rfl (by omega) .nil)
  exact .append (.cons rfl (by omega) (.cons rfl (by omega) (.cons rfl (by omega) hgroup))) hlast
    (by omega) (by omega)

theorem ordered_program : Ordered rank (program n) :=
  (spans_serverStart.append spans_serverStop (by omega) (by omega)).ordered

/-! ## What an instruction does -/

/-- What the threads rely on: the descriptors, the threads themselves, and `STATE_STARTED`. -/
inductive Resource (n : ℕ)
  | acceptor
  | selector (i : Fin n)
  | loopThread (i : Fin n)
  | acceptThread
  | running

@[simp] def acquire : Resource n → Instr n
  | .acceptor => .openAcceptor
  | .selector i => .openSelector i
  | .loopThread i => .startThread i
  | .acceptThread => .startAcceptThread
  | .running => .setStarted

@[simp] def release : Resource n → Instr n
  | .acceptor => .closeAcceptor
  | .selector i => .closeSelector i
  | .loopThread i => .joinThread i
  | .acceptThread => .joinAcceptThread
  | .running => .setStopping

theorem acquire_lt_release (r : Resource n) : rank (acquire r) < rank (release r) := by
  cases r <;> simp only [acquire, release, rank] <;> omega

@[simp] def State.Has (s : State n) : Resource n → Prop
  | .acceptor => s.acceptor = true
  | .selector i => s.selector i = true
  | .loopThread i => s.loopPc i ≠ .absent
  | .acceptThread => s.acceptPc ≠ .absent
  | .running => s.state = .started

/-- The main thread may do the instruction. -/
structure Ready (s : State n) (a : Instr n) : Prop where
  acquires : ∀ r, a = acquire r → ¬s.Has r
  releases : ∀ r, a = release r → s.Has r
  check : a = .checkStarted → s.state = .started
  stopped : a = .setStopped → s.state ≠ .started

/-- What an instruction does to what the threads rely on. -/
structure Executed (s : State n) (a : Instr n) (s' : State n) : Prop where
  todo : s'.todo = s.todo
  has : ∀ r, s'.Has r ↔ a = acquire r ∨ a ≠ release r ∧ s.Has r
  loopNum : s'.table.loopNum = if a = .setLoopNum then BitVec.ofNat 32 n else s.table.loopNum
  loops : s'.table.loops = if a = .swapLoops then List.finRange n else s.table.loops
  failed : s'.failed = s.failed

section Steps

variable {s s' : State n} {a : Instr n}

theorem executed_of_exec (hr : Ready s a) (h : s.exec a = some s') : Executed s a s' := by
  cases a with
  | openAcceptor =>
    obtain rfl := Option.some.inj h
    refine ⟨rfl, fun r => ?_, rfl, rfl, rfl⟩
    cases r <;> simp
  | setLoopNum =>
    obtain rfl := Option.some.inj h
    refine ⟨rfl, fun r => ?_, rfl, rfl, rfl⟩
    cases r <;> simp
  | openSelector i =>
    obtain rfl := Option.some.inj h
    have hclosed : s.selector i = false := by simpa [State.Has] using hr.acquires (.selector i) rfl
    refine ⟨rfl, fun r => ?_, rfl, rfl, by simp [hclosed]⟩
    cases r with
    | selector j =>
      rcases eq_or_ne i j with rfl | hij
      · simp
      · simp [hij, hij.symm]
    | _ => simp
  | startThread i =>
    obtain rfl := Option.some.inj h
    have habsent : s.loopPc i = .absent := by
      simpa [State.Has] using hr.acquires (.loopThread i) rfl
    refine ⟨rfl, fun r => ?_, rfl, rfl, by simp [habsent]⟩
    cases r with
    | loopThread j =>
      rcases eq_or_ne i j with rfl | hij
      · simp
      · simp [hij, hij.symm]
    | _ => simp
  | setLoopStarted i =>
    obtain rfl := Option.some.inj h
    refine ⟨rfl, fun r => ?_, rfl, rfl, rfl⟩
    cases r <;> simp
  | swapLoops =>
    obtain rfl := Option.some.inj h
    refine ⟨rfl, fun r => ?_, rfl, rfl, rfl⟩
    cases r <;> simp
  | startAcceptThread =>
    obtain rfl := Option.some.inj h
    have habsent : s.acceptPc = .absent := by simpa [State.Has] using hr.acquires .acceptThread rfl
    refine ⟨rfl, fun r => ?_, rfl, rfl, by simp [habsent]⟩
    cases r <;> simp
  | setStarted =>
    obtain rfl := Option.some.inj h
    refine ⟨rfl, fun r => ?_, rfl, rfl, rfl⟩
    cases r <;> simp
  | checkStarted =>
    obtain rfl : s = s' := by simpa [State.exec, hr.check rfl] using h
    refine ⟨rfl, fun r => ?_, rfl, rfl, rfl⟩
    cases r <;> simp
  | setStopping =>
    obtain rfl := Option.some.inj h
    refine ⟨rfl, fun r => ?_, rfl, rfl, rfl⟩
    cases r <;> simp
  | joinAcceptThread =>
    have hthere : s.acceptPc ≠ .absent := hr.releases .acceptThread rfl
    simp only [State.exec] at h
    split at h
    · obtain rfl := Option.some.inj h
      refine ⟨rfl, fun r => ?_, rfl, rfl, rfl⟩
      cases r <;> simp
    · next habsent => exact absurd habsent hthere
    · cases h
  | stopping i =>
    obtain rfl := Option.some.inj h
    split
    · refine ⟨rfl, fun r => ?_, rfl, rfl, rfl⟩
      cases r <;> simp
    · refine ⟨rfl, fun r => ?_, rfl, rfl, rfl⟩
      cases r <;> simp
  | joinThread i =>
    have hthere : s.loopPc i ≠ .absent := hr.releases (.loopThread i) rfl
    simp only [State.exec] at h
    split at h
    · obtain rfl := Option.some.inj h
      refine ⟨rfl, fun r => ?_, rfl, rfl, rfl⟩
      cases r with
      | loopThread j =>
        rcases eq_or_ne i j with rfl | hij
        · simp
        · simp [hij, hij.symm]
      | _ => simp
    · next habsent => exact absurd habsent hthere
    · cases h
  | closeSelector i =>
    obtain rfl := Option.some.inj h
    refine ⟨rfl, fun r => ?_, rfl, rfl, rfl⟩
    cases r with
    | selector j =>
      rcases eq_or_ne i j with rfl | hij
      · simp
      · simp [hij, hij.symm]
    | _ => simp
  | setLoopStopped i =>
    obtain rfl := Option.some.inj h
    refine ⟨rfl, fun r => ?_, rfl, rfl, rfl⟩
    cases r <;> simp
  | closeAcceptor =>
    obtain rfl := Option.some.inj h
    refine ⟨rfl, fun r => ?_, rfl, rfl, rfl⟩
    cases r <;> simp
  | setStopped =>
    obtain rfl := Option.some.inj h
    refine ⟨rfl, fun r => ?_, rfl, rfl, rfl⟩
    cases r <;> simp [hr.stopped]

end Steps

/-! ## Runs -/

/-- The invariant of a server whose acceptor was opened. -/
structure Running (s : State n) : Prop where
  suffix : s.todo <:+ program n
  held : Held acquire release s.todo s.Has
  loopNum : .setLoopNum ∉ s.todo → s.table.loopNum = BitVec.ofNat 32 n
  loops : .swapLoops ∉ s.todo → s.table.loops = List.finRange n
  ok : s.failed = false

/-- The invariant of a server whose acceptor could not be opened: `Stop` will find that it is not
started. -/
structure Refused (s : State n) : Prop where
  todo : s.todo = serverStop n ∨ s.todo = []
  nothing : ∀ r, ¬s.Has r
  ok : s.failed = false

section Runs

variable {s s' : State n} {a : Instr n} {rest : List (Instr n)}

/-- The main thread may do what comes next. -/
theorem Running.ready (h : Running s) (htodo : s.todo = a :: rest) : Ready s a := by
  have hsuffix : a :: rest <:+ program n := htodo ▸ h.suffix
  have hheld : Held acquire release (a :: rest) s.Has := htodo ▸ h.held
  refine ⟨fun r ha => hheld.not_of_acquire ha,
    fun r ha => hheld.of_release ordered_program hsuffix acquire_lt_release ha, ?_, ?_⟩
  · rintro rfl
    refine (hheld .running).mpr ⟨ordered_program.not_mem_of_lt hsuffix ?_,
      ordered_program.mem hsuffix (List.mem_cons_self ..) (mem_program _) ?_⟩
    all_goals simp only [acquire, release, rank]; omega
  · rintro rfl hstarted
    refine ordered_program.not_mem_of_lt hsuffix ?_ ((hheld .running).mp hstarted).2
    simp only [release, rank]
    omega

/-- One instruction. -/
theorem Running.exec (h : Running s) (htodo : s.todo = a :: rest)
    (hexec : { s with todo := rest }.exec a = some s') : Running s' := by
  have hready := h.ready htodo
  have he : Executed { s with todo := rest } a s' :=
    executed_of_exec ⟨hready.acquires, hready.releases, hready.check, hready.stopped⟩ hexec
  have htodo' : s'.todo = rest := he.todo
  have hsuffix : a :: rest <:+ program n := htodo ▸ h.suffix
  have hheld : Held acquire release (a :: rest) s.Has := htodo ▸ h.held
  refine ⟨htodo' ▸ (List.suffix_cons a rest).trans hsuffix, ?_, ?_, ?_, he.failed.trans h.ok⟩
  · rw [htodo']
    exact hheld.step ordered_program hsuffix (fun r => mem_program _) acquire_lt_release he.has
  · intro hdone
    rw [he.loopNum]
    split
    · rfl
    · next hne => exact h.loopNum (by simpa [htodo, Ne.symm hne] using htodo' ▸ hdone)
  · intro hdone
    rw [he.loops]
    split
    · rfl
    · next hne => exact h.loops (by simpa [htodo, Ne.symm hne] using htodo' ▸ hdone)

/-- While a loop's thread is there, its epoll descriptor is open. -/
theorem Running.selector_of_loopThread (h : Running s) {i : Fin n} (hi : s.loopPc i ≠ .absent) :
    s.selector i = true := by
  refine (h.held (.selector i)).mpr (((h.held (.loopThread i)).mp hi).mono ordered_program h.suffix
    ?_ ?_ (mem_program _) (mem_program _))
  all_goals simp only [acquire, release, rank]; omega

/-- While the accept thread is there, the listening descriptor is open. -/
theorem Running.acceptor_of_acceptThread (h : Running s) (ha : s.acceptPc ≠ .absent) :
    s.acceptor = true := by
  refine (h.held .acceptor).mpr (((h.held .acceptThread).mp ha).mono ordered_program h.suffix
    ?_ ?_ (mem_program _) (mem_program _))
  all_goals simp only [acquire, release, rank]; omega

/-- While the accept thread is there, all epoll descriptors are open. -/
theorem Running.selector_of_acceptThread (h : Running s) (ha : s.acceptPc ≠ .absent) (i : Fin n) :
    s.selector i = true := by
  refine (h.held (.selector i)).mpr (((h.held .acceptThread).mp ha).mono ordered_program h.suffix
    ?_ ?_ (mem_program _) (mem_program _))
  all_goals simp only [acquire, release, rank]; omega

/-- While the accept thread is there, the table has all loops. -/
theorem Running.table_of_acceptThread (h : Running s) (hn : 0 < n) (hn' : n ≤ 2147483647)
    (ha : s.acceptPc ≠ .absent) : s.table.Started := by
  have hdone := ((h.held .acceptThread).mp ha).1
  have hloops := h.loops (ordered_program.not_mem h.suffix hdone (mem_program _)
    (by simp only [acquire, rank]; omega))
  have hloopNum := h.loopNum (ordered_program.not_mem h.suffix hdone (mem_program _)
    (by simp only [acquire, rank]; omega))
  refine ⟨?_, ?_⟩
  · rw [hloopNum, hloops, BitVec.toNat_ofNat, List.length_finRange]
    omega
  · rw [hloops, ← List.length_pos_iff, List.length_finRange]
    exact hn

/-- The accept thread goes on. -/
theorem Running.of_acceptPc (h : Running s) (hthere : s.acceptPc ≠ .absent) (pc : AcceptPc n)
    (hpc : pc ≠ .absent) (table : LoopTable (Fin n)) (hloopNum : table.loopNum = s.table.loopNum)
    (hloops : table.loops = s.table.loops) : Running { s with acceptPc := pc, table := table } := by
  refine ⟨h.suffix, fun r => ?_, fun hdone => hloopNum.trans (h.loopNum hdone),
    fun hdone => hloops.trans (h.loops hdone), h.ok⟩
  cases r with
  | acceptThread => exact (iff_of_true hpc hthere).trans (h.held .acceptThread)
  | acceptor => exact h.held .acceptor
  | selector i => exact h.held (.selector i)
  | loopThread i => exact h.held (.loopThread i)
  | running => exact h.held .running

/-- A loop's thread goes on. -/
theorem Running.of_loopPc (h : Running s) {i : Fin n} (hthere : s.loopPc i ≠ .absent) (pc : LoopPc)
    (hpc : pc ≠ .absent) : Running (s.setLoopPc i pc) := by
  refine ⟨h.suffix, fun r => ?_, h.loopNum, h.loops, h.ok⟩
  cases r with
  | loopThread j =>
    refine Iff.trans ?_ (h.held (.loopThread j))
    by_cases hj : j = i
    · subst hj
      simp [hpc, hthere]
    · simp [hj]
  | acceptor => exact h.held .acceptor
  | selector i => exact h.held (.selector i)
  | acceptThread => exact h.held .acceptThread
  | running => exact h.held .running

theorem State.needs_true (s : State n) : s.needs true = s := by simp

theorem Running.accept (h : Running s) (hn : 0 < n) (hn' : n ≤ 2147483647) {ok : Bool}
    (hstep : s.accept ok = some s') : Running s' := by
  have hthere : s.acceptPc ≠ .absent := by
    intro habsent
    simp [State.accept, habsent] at hstep
  have hacceptor := h.acceptor_of_acceptThread hthere
  unfold State.accept at hstep
  split at hstep
  · obtain rfl := Option.some.inj hstep
    exact h.of_acceptPc hthere _ (by split <;> nofun) s.table rfl rfl
  · rw [hacceptor, State.needs_true] at hstep
    obtain rfl := Option.some.inj hstep
    exact h.of_acceptPc hthere _ (by split <;> nofun) s.table rfl rfl
  · rw [hacceptor, State.needs_true] at hstep
    obtain rfl := Option.some.inj hstep
    exact h.of_acceptPc hthere _ (by split <;> nofun) s.table rfl rfl
  · rw [hacceptor, State.needs_true] at hstep
    obtain rfl := Option.some.inj hstep
    exact h.of_acceptPc hthere _ (by split <;> nofun) s.table rfl rfl
  · -- the callback is called with a loop of the table
    obtain ⟨i, -, hnext⟩ := nextLoop_of_started (h.table_of_acceptThread hn hn' hthere)
    rw [hnext] at hstep
    obtain rfl := Option.some.inj hstep
    exact h.of_acceptPc hthere (.register i) nofun s.table.advance rfl rfl
  · next i _ =>
    rw [h.selector_of_acceptThread hthere i, State.needs_true] at hstep
    obtain rfl := Option.some.inj hstep
    exact h.of_acceptPc hthere .test nofun s.table rfl rfl
  · cases hstep

theorem Running.loop (h : Running s) {i : Fin n} {more : Bool} (hstep : s.loop i more = some s') :
    Running s' := by
  have hthere : s.loopPc i ≠ .absent := by
    intro habsent
    simp [State.loop, habsent] at hstep
  have hselector := h.selector_of_loopThread hthere
  unfold State.loop at hstep
  rw [hselector, State.needs_true] at hstep
  split at hstep
  · obtain rfl := Option.some.inj hstep
    exact h.of_loopPc hthere _ (by split <;> nofun)
  · obtain rfl := Option.some.inj hstep
    exact h.of_loopPc hthere .handle nofun
  · obtain rfl := Option.some.inj hstep
    split
    · exact h
    · exact h.of_loopPc hthere .test nofun
  · cases hstep

theorem Running.main (h : Running s) {ok : Bool} (hstep : s.main ok = some s') :
    Running s' ∨ Refused s' := by
  unfold State.main at hstep
  split at hstep
  · cases hstep
  · next rest htodo =>
    split at hstep
    · exact .inl (h.exec htodo hstep)
    · obtain rfl := Option.some.inj hstep
      refine .inr ⟨.inl rfl, fun r hr => ?_, h.ok⟩
      have hfirst : .openAcceptor ∈ s.todo := htodo ▸ List.mem_cons_self ..
      refine ((h.held r).mp hr).1 ?_
      cases r with
      | acceptor => exact hfirst
      | _ =>
        refine ordered_program.mem h.suffix hfirst (mem_program _) ?_
        simp only [acquire, rank]
        omega
  · next a rest _ htodo => exact .inl (h.exec htodo hstep)

/-- A server that is not started is not stopped either. -/
theorem Refused.next (h : Refused s) {l : Label n} (hstep : s.next l = some s') : Refused s' := by
  cases l with
  | main ok =>
    rcases h.todo with htodo | htodo
    · have hstate : s.state ≠ .started := h.nothing .running
      obtain rfl : { s with todo := [] } = s' := by
        simpa [State.next, State.main, htodo, serverStop, State.exec, hstate] using hstep
      exact ⟨.inr rfl, h.nothing, h.ok⟩
    · simp [State.next, State.main, htodo] at hstep
  | accept ok =>
    have habsent : s.acceptPc = .absent := by simpa using h.nothing .acceptThread
    simp [State.next, State.accept, habsent] at hstep
  | loop i more =>
    have habsent : s.loopPc i = .absent := by simpa using h.nothing (.loopThread i)
    simp [State.next, State.loop, habsent] at hstep

theorem running_or_refused (hn : 0 < n) (hn' : n ≤ 2147483647)
    (h : (server n).Reachable Free s) : Running s ∨ Refused s := by
  refine System.Reachable.invariant (I := fun s => Running s ∨ Refused s) ?_ ?_ h
  · rintro s rfl
    refine .inl ⟨List.suffix_rfl, fun r => ?_, fun hdone => absurd (mem_program _) hdone,
      fun hdone => absurd (mem_program _) hdone, rfl⟩
    refine iff_of_false ?_ fun hb => hb.1 (mem_program _)
    cases r <;> simp
  · rintro s l s' - (hrun | hrefused) - hstep
    · cases l with
      | main ok => exact hrun.main hstep
      | accept ok => exact .inl (hrun.accept hn hn' hstep)
      | loop i more => exact .inl (hrun.loop hstep)
    · exact .inr (hrefused.next hstep)

/-- **The order of the shutdown**, in every interleaving: no assertion fails and no system call
finds its descriptor closed, and when `Stop` has returned all threads have exited and been joined
and all descriptors are closed. -/
theorem shutdown_order (hn : 0 < n) (hn' : n ≤ 2147483647) (h : (server n).Reachable Free s) :
    s.failed = false ∧ (s.todo = [] → s.acceptPc = .absent ∧ (∀ i, s.loopPc i = .absent) ∧
      s.acceptor = false ∧ ∀ i, s.selector i = false) := by
  have hnothing : s.failed = false ∧ (s.todo = [] → ∀ r, ¬s.Has r) := by
    rcases running_or_refused hn hn' h with hrun | hrefused
    · refine ⟨hrun.ok, fun hdone r hr => ?_⟩
      simpa [hdone] using ((hrun.held r).mp hr).2
    · exact ⟨hrefused.ok, fun _ => hrefused.nothing⟩
  refine ⟨hnothing.1, fun hdone => ?_⟩
  have hgone := hnothing.2 hdone
  exact ⟨by simpa using hgone .acceptThread, fun i => by simpa using hgone (.loopThread i),
    by simpa using hgone .acceptor, fun i => by simpa using hgone (.selector i)⟩

/-- Two loops: each gets a connection, and one of the handlers makes a call of its loop when the
server is stopping already. -/
theorem shutdown_order_two : ∃ s : State 2, (server 2).Reachable Free s ∧ s.todo = [] ∧
    s.failed = false ∧ s.acceptPc = .absent ∧ (∀ i, s.loopPc i = .absent) ∧
    s.acceptor = false ∧ ∀ i, s.selector i = false := by
  obtain ⟨s, hrun, hdone⟩ : ∃ s : State 2,
      (server 2).exec Free ⟨program 2, .stopped, false, ⟨0, 0, []⟩, .absent, fun _ => .stopped,
          fun _ => false, fun _ => .absent, false⟩
        (List.replicate 11 (.main true) ++ List.replicate 8 (.accept true) ++
          [.loop 0 false, .loop 0 false, .loop 0 true, .loop 0 false, .loop 1 false, .main true,
            .main true, .accept true, .main true, .main true, .main true, .loop 0 false,
            .loop 1 false, .loop 1 true, .main true, .loop 1 false, .loop 1 false] ++
          List.replicate 7 (.main true)) = some s ∧ s.todo = [] :=
    ⟨_, rfl, rfl⟩
  have hreach := System.reachable_of_exec rfl hrun
  obtain ⟨hok, hgone⟩ := shutdown_order Nat.two_pos (by decide) hreach
  exact ⟨s, hreach, hdone, hok, hgone hdone⟩

theorem accept_isSome (s : State n) (ok : Bool) (h : s.acceptPc ≠ .absent)
    (h' : s.acceptPc ≠ .exited) : (s.accept ok).isSome := by
  unfold State.accept
  split
  any_goals rfl
  · split <;> rfl
  · cases hpc : s.acceptPc <;> simp_all

theorem loop_isSome (s : State n) (i : Fin n) (more : Bool) (h : s.loopPc i ≠ .absent)
    (h' : s.loopPc i ≠ .exited) : (s.loop i more).isSome := by
  unfold State.loop
  cases hpc : s.loopPc i <;> simp_all

/-- No state is stuck before `Stop` has returned. -/
theorem exists_next (htodo : s.todo ≠ []) : ∃ l, (s.next l).isSome := by
  obtain ⟨a, rest, hcons⟩ := List.exists_cons_of_ne_nil htodo
  by_cases ha : s.acceptPc = .absent ∨ s.acceptPc = .exited
  · by_cases hl : ∀ i, s.loopPc i = .absent ∨ s.loopPc i = .exited
    · refine ⟨.main true, ?_⟩
      simp only [State.next, State.main, hcons]
      cases a with
      | joinAcceptThread => rcases ha with ha | ha <;> simp [State.exec, ha]
      | joinThread i => rcases hl i with hi | hi <;> simp [State.exec, hi]
      | _ => rfl
    · obtain ⟨i, hi⟩ := not_forall.mp hl
      obtain ⟨habsent, hexited⟩ := not_or.mp hi
      exact ⟨.loop i false, loop_isSome s i false habsent hexited⟩
  · obtain ⟨habsent, hexited⟩ := not_or.mp ha
    exact ⟨.accept true, accept_isSome s true habsent hexited⟩

end Runs

end Xfnet.TcpServer.Shutdown
