import Mathlib.Algebra.Order.BigOperators.Group.Finset
import Xfnet.Foundations.Counting
import Xfnet.Foundations.Progress
import Xfnet.TcpServer.Shutdown

/-!
# A server that is started and stopped again and again

The main thread calls `Start` and `Stop` in rounds. Each round finds the server as the first one
did, and leaves nothing open and nothing running (`rounds_order`).

`Stop` also comes to its end: once it has set `STATE_STOPPING` only a bounded number of steps is
left, apart from those of loops it has not told yet and from the calls that handlers make, and until
it returns there is always one of them that can be taken (`stop_returns`).
-/

namespace Xfnet.TcpServer.Shutdown

open Counting EventLoop EventLoopGroup Script Transition

variable {n : ℕ}

/-- `Start` is called, or a thread takes a step. -/
inductive RoundLabel (n : ℕ)
  | start
  | step (l : Label n)

/-- `Start` asserts that the server is stopped. Its group gets new loops; the destructors of those
before assert that they are stopped, and their threads must not be there any more. -/
def State.start (s : State n) : Option (State n) :=
  match s.todo with
  | [] => some
      { s.needs (s.state = .stopped ∧ ∀ i, s.loopState i = .stopped ∧ s.loopPc i = .absent) with
        todo := program n
        loopState := fun _ => .stopped
        selector := fun _ => false
        loopPc := fun _ => .absent }
  | _ => none

/-- A server whose main thread goes on with `Start` when `Stop` has returned. -/
def rounds (n : ℕ) : System (State n) (RoundLabel n) where
  init := (server n).init
  next
    | s, .start => s.start
    | s, .step l => s.next l

/-! ## The states of the server and of its loops -/

/-- `m_state` of the server and of each loop, by what the main thread has still to do. -/
structure Stages (s : State n) : Prop where
  server : s.state = stage .setStarted .setStopping .setStopped .stopped .started .stopping s.todo
  loops : ∀ i, s.loopState i =
    stage (.setLoopStarted i) (.stopping i) (.setLoopStopped i) .stopped .started .stopping s.todo

section Steps

variable {s s' : State n} {a : Instr n} {rest : List (Instr n)}

/-- What an instruction does to the states. -/
theorem states_of_exec (hcheck : a = .checkStarted → s.state = .started)
    (hstopping : ∀ i, a = .stopping i → s.loopState i = .started) (h : s.exec a = some s') :
    s'.todo = s.todo ∧
    s'.state = (if a = .setStarted then .started else if a = .setStopping then .stopping
      else if a = .setStopped then .stopped else s.state) ∧
    ∀ i, s'.loopState i = if a = .setLoopStarted i then .started
      else if a = .stopping i then .stopping else if a = .setLoopStopped i then .stopped
      else s.loopState i := by
  cases a with
  | setLoopStarted j =>
    obtain rfl := Option.some.inj h
    refine ⟨rfl, by simp, fun i => ?_⟩
    rcases eq_or_ne i j with rfl | hij
    · simp
    · simp [hij, hij.symm]
  | stopping j =>
    obtain rfl := Option.some.inj h
    rw [if_pos (hstopping j rfl)]
    refine ⟨rfl, by simp, fun i => ?_⟩
    rcases eq_or_ne i j with rfl | hij
    · simp
    · simp [hij, hij.symm]
  | setLoopStopped j =>
    obtain rfl := Option.some.inj h
    refine ⟨rfl, by simp, fun i => ?_⟩
    rcases eq_or_ne i j with rfl | hij
    · simp
    · simp [hij, hij.symm]
  | checkStarted =>
    simp only [State.exec, if_pos (hcheck rfl)] at h
    obtain rfl := Option.some.inj h
    exact ⟨rfl, by simp, fun i => by simp⟩
  | joinAcceptThread =>
    simp only [State.exec] at h
    split at h
    · obtain rfl := Option.some.inj h
      exact ⟨rfl, by simp, fun i => by simp⟩
    · obtain rfl := Option.some.inj h
      exact ⟨rfl, by simp, fun i => by simp⟩
    · cases h
  | joinThread j =>
    simp only [State.exec] at h
    split at h
    · obtain rfl := Option.some.inj h
      exact ⟨rfl, by simp, fun i => by simp⟩
    · obtain rfl := Option.some.inj h
      exact ⟨rfl, by simp, fun i => by simp⟩
    · cases h
  | _ =>
    obtain rfl := Option.some.inj h
    exact ⟨rfl, by simp, fun i => by simp⟩

/-- The states along the program: one instruction. -/
theorem Stages.exec (hst : Stages s) (hrun : Running s) (htodo : s.todo = a :: rest)
    (h : { s with todo := rest }.exec a = some s') : Stages s' := by
  have hsuffix : a :: rest <:+ program n := htodo ▸ hrun.suffix
  have hready := hrun.ready htodo
  have hlast {x y z : Instr n} (hxy : rank x < rank y) (hyz : rank y < rank z) :
      stage x y z RunState.stopped .started .stopping rest =
        if a = x then .started else if a = y then .stopping else if a = z then .stopped
          else stage x y z .stopped .started .stopping (a :: rest) :=
    stage_step ordered_program hsuffix (mem_program y) (mem_program z) hxy hyz
  have hstarted (i : Fin n) (ha : a = .stopping i) : s.loopState i = .started := by
    rw [hst.loops i, htodo, ha, stage, if_neg, if_pos (List.mem_cons_self ..)]
    rw [← ha]
    refine ordered_program.not_mem_of_lt hsuffix ?_
    simp only [ha, rank]
    omega
  obtain ⟨htodo', hserver, hloops⟩ :=
    states_of_exec (s := { s with todo := rest }) hready.check hstarted h
  refine ⟨?_, fun i => ?_⟩
  · rw [hserver, htodo', hlast (by simp only [rank]; omega) (by simp only [rank]; omega), ← htodo,
      ← hst.server]
  · rw [hloops, htodo', hlast (by simp only [rank]; omega) (by simp only [rank]; omega), ← htodo,
      ← hst.loops i]

theorem Stages.of_same (hst : Stages s) (htodo : s'.todo = s.todo) (hstate : s'.state = s.state)
    (hloops : s'.loopState = s.loopState) : Stages s' :=
  ⟨by rw [hstate, htodo, hst.server], fun i => by rw [hloops, htodo, hst.loops i]⟩

/-- The accept thread does not assign to the states. -/
theorem Stages.accept (hst : Stages s) {ok : Bool} (h : s.accept ok = some s') : Stages s' := by
  unfold State.accept at h
  split at h
  any_goals
    obtain rfl := Option.some.inj h
    exact hst.of_same rfl rfl rfl
  · split at h <;> obtain rfl := Option.some.inj h
    · exact hst.of_same rfl rfl rfl
    · exact hst.of_same rfl rfl rfl
  · cases h

/-- Nor do the threads of the loops. -/
theorem Stages.loop (hst : Stages s) {i : Fin n} {more : Bool} (h : s.loop i more = some s') :
    Stages s' := by
  unfold State.loop at h
  split at h
  · obtain rfl := Option.some.inj h
    exact hst.of_same rfl rfl rfl
  · obtain rfl := Option.some.inj h
    exact hst.of_same rfl rfl rfl
  · obtain rfl := Option.some.inj h
    split
    · exact hst.of_same rfl rfl rfl
    · exact hst.of_same rfl rfl rfl
  · cases h

/-! ## Rounds -/

/-- The server and its loops are stopped. -/
def State.Stopped (s : State n) : Prop := s.state = .stopped ∧ ∀ i, s.loopState i = .stopped

/-- The invariant of all rounds. -/
inductive Round (s : State n) : Prop
  | running : Running s → Stages s → Round s
  | refused : Refused s → s.Stopped → Round s

/-- A round begins. -/
theorem Round.of_program (htodo : s.todo = program n) (hnothing : ∀ r, ¬s.Has r)
    (hstopped : s.Stopped) (hok : s.failed = false) : Round s := by
  refine .running ⟨htodo ▸ List.suffix_rfl, fun r => ?_, fun hdone => ?_, fun hdone => ?_, hok⟩
    ⟨?_, fun i => ?_⟩
  · exact iff_of_false (hnothing r) fun hb => hb.1 (htodo ▸ mem_program _)
  · exact absurd (htodo ▸ mem_program _) hdone
  · exact absurd (htodo ▸ mem_program _) hdone
  · rw [hstopped.1, htodo, stage, if_pos (mem_program _)]
  · rw [hstopped.2 i, htodo, stage, if_pos (mem_program _)]

/-- **Between two rounds** nothing is open, nothing runs, and everything is stopped. -/
theorem Round.finished (h : Round s) (htodo : s.todo = []) :
    (∀ r, ¬s.Has r) ∧ s.Stopped ∧ s.failed = false := by
  cases h with
  | running hrun hst =>
    refine ⟨fun r hr => ?_, ⟨?_, fun i => ?_⟩, hrun.ok⟩
    · simpa [htodo] using ((hrun.held r).mp hr).2
    · simpa [htodo, stage] using hst.server
    · simpa [htodo, stage] using hst.loops i
  | refused hrefused hstopped => exact ⟨hrefused.nothing, hstopped, hrefused.ok⟩

theorem Round.start (h : Round s) (hstart : s.start = some s') : Round s' := by
  unfold State.start at hstart
  split at hstart
  · next htodo =>
    obtain ⟨hnothing, hstopped, hok⟩ := h.finished htodo
    have habsent (i : Fin n) : s.loopPc i = .absent := by simpa using hnothing (.loopThread i)
    obtain rfl := Option.some.inj hstart
    refine .of_program rfl (fun r => ?_) ⟨hstopped.1, fun i => rfl⟩ ?_
    · cases r with
      | selector i => exact nofun
      | loopThread i => exact fun hr => hr rfl
      | acceptor => exact hnothing .acceptor
      | acceptThread => exact hnothing .acceptThread
      | running => exact hnothing .running
    · simp [hok, hstopped.1, hstopped.2, habsent]
  · cases hstart

/-- Before the first instruction nothing is open, nothing runs, and everything is stopped. -/
theorem Running.untouched (hrun : Running s) (hst : Stages s) (hfirst : .openAcceptor ∈ s.todo) :
    (∀ r, ¬s.Has r) ∧ s.Stopped := by
  have hmem {a : Instr n} (hlt : 0 < rank a) : a ∈ s.todo :=
    ordered_program.mem hrun.suffix hfirst (mem_program a) hlt
  refine ⟨fun r hr => ((hrun.held r).mp hr).1 ?_, ?_, fun i => ?_⟩
  · cases r with
    | acceptor => exact hfirst
    | _ => exact hmem (by simp only [acquire, rank]; omega)
  · rw [hst.server, stage, if_pos (hmem (by simp only [rank]; omega))]
  · rw [hst.loops i, stage, if_pos (hmem (by simp only [rank]; omega))]

theorem Round.main (h : Round s) {ok : Bool} (hstep : s.main ok = some s') : Round s' := by
  cases h with
  | running hrun hst =>
    unfold State.main at hstep
    split at hstep
    · cases hstep
    · next rest htodo =>
      split at hstep
      · exact .running (hrun.exec htodo hstep) (hst.exec hrun htodo hstep)
      · -- the acceptor could not be opened
        obtain rfl := Option.some.inj hstep
        obtain ⟨hnothing, hstopped⟩ := hrun.untouched hst (htodo ▸ List.mem_cons_self ..)
        refine .refused ⟨.inl rfl, fun r => ?_, hrun.ok⟩ hstopped
        have hr := hnothing r
        cases r <;> exact hr
    · next a rest _ htodo => exact .running (hrun.exec htodo hstep) (hst.exec hrun htodo hstep)
  | refused hrefused hstopped =>
    refine .refused (hrefused.next (l := .main ok) hstep) ?_
    rcases hrefused.todo with htodo | htodo
    · have hstate : s.state ≠ .started := hrefused.nothing .running
      obtain rfl : { s with todo := [] } = s' := by
        simpa [State.main, htodo, serverStop, State.exec, hstate] using hstep
      exact hstopped
    · simp [State.main, htodo] at hstep

/-- **One step** of a round. -/
theorem Round.next (h : Round s) (hn : 0 < n) (hn' : n ≤ 2147483647) {l : Label n}
    (hstep : s.next l = some s') : Round s' := by
  cases l with
  | main ok => exact h.main hstep
  | accept ok =>
    cases h with
    | running hrun hst => exact .running (hrun.accept hn hn' hstep) (hst.accept hstep)
    | refused hrefused _ =>
      have habsent : s.acceptPc = .absent := by simpa using hrefused.nothing .acceptThread
      simp [State.next, State.accept, habsent] at hstep
  | loop i more =>
    cases h with
    | running hrun hst => exact .running (hrun.loop hstep) (hst.loop hstep)
    | refused hrefused _ =>
      have habsent : s.loopPc i = .absent := by simpa using hrefused.nothing (.loopThread i)
      simp [State.next, State.loop, habsent] at hstep

theorem round_of_reachable (hn : 0 < n) (hn' : n ≤ 2147483647)
    (h : (rounds n).Reachable Free s) : Round s := by
  refine System.Reachable.invariant (I := Round) ?_ ?_ h
  · rintro s rfl
    refine .of_program rfl (fun r => ?_) ⟨rfl, fun i => rfl⟩ rfl
    cases r <;> simp
  · intro s l s' _ hround _ hstep
    cases l with
    | start => exact hround.start hstep
    | step l => exact hround.next hn hn' hstep

/-- **Every round is like the first**, in every interleaving: no assertion fails and no system call
finds its descriptor closed, and when `Stop` has returned the server and its loops are stopped, all
threads have exited and been joined, and all descriptors are closed. -/
theorem rounds_order (hn : 0 < n) (hn' : n ≤ 2147483647) (h : (rounds n).Reachable Free s) :
    s.failed = false ∧ (s.todo = [] → s.state = .stopped ∧ s.acceptor = false ∧
      s.acceptPc = .absent ∧
      ∀ i, s.loopState i = .stopped ∧ s.loopPc i = .absent ∧ s.selector i = false) := by
  have hround := round_of_reachable hn hn' h
  refine ⟨?_, fun htodo => ?_⟩
  · cases hround with
    | running hrun _ => exact hrun.ok
    | refused hrefused _ => exact hrefused.ok
  · obtain ⟨hnothing, ⟨hstate, hloops⟩, -⟩ := hround.finished htodo
    exact ⟨hstate, by simpa using hnothing .acceptor, by simpa using hnothing .acceptThread,
      fun i => ⟨hloops i, by simpa using hnothing (.loopThread i),
        by simpa using hnothing (.selector i)⟩⟩

/-- Two rounds with one loop: the port is taken in the first. -/
theorem rounds_order_two : ∃ s : State 1, (rounds 1).Reachable Free s ∧ s.todo = [] ∧
    s.failed = false ∧ s.state = .stopped ∧ s.acceptor = false := by
  obtain ⟨s, hrun, hdone⟩ : ∃ s : State 1,
      (rounds 1).exec Free ⟨program 1, .stopped, false, ⟨0, 0, []⟩, .absent, fun _ => .stopped,
          fun _ => false, fun _ => .absent, false⟩
        ([.step (.main false), .step (.main true), .start] ++
          List.replicate 10 (.step (.main true)) ++ [.step (.accept true), .step (.main true),
            .step (.main true), .step (.loop 0 false)] ++
          List.replicate 5 (.step (.main true))) = some s ∧ s.todo = [] :=
    ⟨_, rfl, rfl⟩
  have hreach := System.reachable_of_exec rfl hrun
  obtain ⟨hok, hgone⟩ := rounds_order Nat.one_pos (by decide) hreach
  obtain ⟨hstate, hacceptor, -⟩ := hgone hdone
  exact ⟨s, hreach, hdone, hok, hstate, hacceptor⟩

end Steps

/-! ## `Stop` returns -/

/-- The steps that the accept thread has still to make at most, once the server is stopping. -/
def AcceptPc.steps : AcceptPc n → ℕ
  | absent => 0
  | test => 1
  | accept => 6
  | poll => 5
  | retry => 4
  | dispatch => 3
  | register _ => 2
  | exited => 0

/-- The same for a loop that is stopping, but for the calls its handlers make. -/
def LoopPc.steps : LoopPc → ℕ
  | absent => 0
  | test => 1
  | select => 3
  | handle => 2
  | exited => 0

namespace State

/-- What a loop adds: one that has not been told to stop can be anywhere when it is. -/
def loopSteps (s : State n) (i : Fin n) : ℕ :=
  if s.loopState i = .started then 3 else (s.loopPc i).steps

/-- The steps that are left of `Stop`. -/
def steps (s : State n) : ℕ := s.todo.length + s.acceptPc.steps + ∑ i, s.loopSteps i

/-- The step is one of those that are left: any of the main thread or of the accept thread, and one
of a loop that is stopping, unless a handler makes another call. -/
def counts (s : State n) : Label n → Bool
  | .main _ => true
  | .accept _ => true
  | .loop i more => !more && decide (s.loopState i = .stopping)

end State

/-- `Stop` has set `STATE_STOPPING`. -/
structure Stopping (s : State n) : Prop where
  running : Running s
  stages : Stages s
  told : .setStopping ∉ s.todo

section Stop

variable {s s' : State n} {a : Instr n} {rest : List (Instr n)}

/-- What is left comes after `STATE_STOPPING`. -/
theorem Stopping.le_rank (h : Stopping s) (htodo : s.todo = a :: rest) : 3 * n + 6 ≤ rank a := by
  by_contra hlt
  refine h.told (ordered_program.mem h.running.suffix (htodo ▸ List.mem_cons_self ..)
    (mem_program _) ?_)
  show rank a < 3 * n + 6
  omega

theorem Stopping.length_le (h : Stopping s) : s.todo.length ≤ 4 * n + 3 := by
  have hlast : .setStopping :: (.joinAcceptThread :: groupStop n ++
      [.closeAcceptor, .setStopped]) <:+ program n := by
    refine ⟨serverStart n ++ [.checkStarted], ?_⟩
    simp [program, serverStop]
  rcases List.suffix_or_suffix_of_suffix h.running.suffix hlast with hsuffix | hsuffix
  · rcases List.suffix_cons_iff.mp hsuffix with heq | hrest
    · exact absurd (heq ▸ List.mem_cons_self ..) h.told
    · refine hrest.length_le.trans ?_
      simp [groupStop, loopJoin]
      omega
  · exact absurd (hsuffix.subset (List.mem_cons_self ..)) h.told

theorem steps_le_three (pc : LoopPc) : pc.steps ≤ 3 := by
  cases pc <;> decide

theorem loopSteps_le_three (s : State n) (i : Fin n) : s.loopSteps i ≤ 3 := by
  unfold State.loopSteps
  split
  · exact le_rfl
  · exact steps_le_three _

/-- A step of the main thread leaves no more steps to the loops. -/
theorem steps_of_main (htodo : s.todo = a :: s'.todo)
    (haccept : s'.acceptPc.steps ≤ s.acceptPc.steps)
    (hloops : ∀ i, s'.loopSteps i ≤ s.loopSteps i) : s'.steps + 1 ≤ s.steps := by
  have hsum : ∑ i, s'.loopSteps i ≤ ∑ i, s.loopSteps i := Finset.sum_le_sum fun i _ => hloops i
  unfold State.steps
  rw [htodo, List.length_cons]
  omega

/-- An instruction does not add to what is left of the threads. -/
theorem Stopping.exec (h : Stopping s) (htodo : s.todo = a :: rest)
    (hexec : { s with todo := rest }.exec a = some s') : Stopping s' ∧ s'.steps + 1 ≤ s.steps := by
  have hlast := h.le_rank htodo
  have hready := h.running.ready htodo
  have htodo' : s'.todo = rest := (executed_of_exec (s := { s with todo := rest })
    ⟨hready.acquires, hready.releases, hready.check, hready.stopped⟩ hexec).todo
  refine ⟨⟨h.running.exec htodo hexec, h.stages.exec h.running htodo hexec, ?_⟩, ?_⟩
  · rw [htodo']
    exact fun hmem => h.told (htodo ▸ List.mem_cons_of_mem a hmem)
  have hfirst : s.todo = a :: s'.todo := htodo' ▸ htodo
  have hleft := steps_of_main hfirst
  cases a with
  | stopping i =>
    obtain rfl := Option.some.inj hexec
    refine hleft ?_ fun j => ?_
    · split <;> exact le_rfl
    · split
      · next hstarted =>
        rcases eq_or_ne j i with rfl | hij
        · rw [State.loopSteps, State.loopSteps, if_pos hstarted]
          simp [steps_le_three]
        · simp [State.loopSteps, hij]
      · exact le_rfl
  | setLoopStopped i =>
    obtain rfl := Option.some.inj hexec
    refine hleft le_rfl fun j => ?_
    rcases eq_or_ne j i with rfl | hij
    · have hnot : RunState.stopped ≠ .started := nofun
      simp only [State.loopSteps, State.setLoopState, Function.update_self, if_neg hnot]
      split
      · exact steps_le_three _
      · exact le_rfl
    · simp [State.loopSteps, hij]
  | joinThread i =>
    simp only [State.exec] at hexec
    split at hexec
    · next hexited =>
      obtain rfl := Option.some.inj hexec
      refine hleft le_rfl fun j => ?_
      rcases eq_or_ne j i with rfl | hij
      · simp [State.loopSteps, hexited, LoopPc.steps]
      · simp [State.loopSteps, hij]
    · obtain rfl := Option.some.inj hexec
      exact hleft le_rfl fun j => le_rfl
    · cases hexec
  | joinAcceptThread =>
    simp only [State.exec] at hexec
    split at hexec
    · obtain rfl := Option.some.inj hexec
      exact hleft (Nat.zero_le _) fun j => le_rfl
    · obtain rfl := Option.some.inj hexec
      exact hleft le_rfl fun j => le_rfl
    · cases hexec
  | closeSelector i =>
    obtain rfl := Option.some.inj hexec
    exact hleft le_rfl fun j => le_rfl
  | closeAcceptor =>
    obtain rfl := Option.some.inj hexec
    exact hleft le_rfl fun j => le_rfl
  | setStopped =>
    obtain rfl := Option.some.inj hexec
    exact hleft le_rfl fun j => le_rfl
  | setStopping => exact absurd (htodo ▸ List.mem_cons_self ..) h.told
  | _ =>
    simp only [rank] at hlast
    omega

/-- While the accept thread is there, it will find that the server is stopping. -/
theorem Stopping.state (h : Stopping s) (hthere : s.acceptPc ≠ .absent) : s.state = .stopping := by
  have hjoin : .joinAcceptThread ∈ s.todo := ((h.running.held .acceptThread).mp hthere).2
  have hlast : .setStopped ∈ s.todo := ordered_program.mem h.running.suffix hjoin (mem_program _)
    (by simp only [rank]; omega)
  have hfirst : .setStarted ∉ s.todo := ordered_program.not_mem h.running.suffix h.told
    (mem_program _) (by simp only [rank]; omega)
  rw [h.stages.server, stage, if_neg hfirst, if_neg h.told, if_pos hlast]

/-- While a loop's thread is there, the loop is started or stopping. -/
theorem Stopping.loopState (h : Stopping s) {i : Fin n} (hthere : s.loopPc i ≠ .absent) :
    s.loopState i = if .stopping i ∈ s.todo then .started else .stopping := by
  have hjoin : .joinThread i ∈ s.todo := ((h.running.held (.loopThread i)).mp hthere).2
  have hlast : .setLoopStopped i ∈ s.todo := ordered_program.mem h.running.suffix hjoin
    (mem_program _) (by simp only [rank]; omega)
  have hfirst : .setLoopStarted i ∉ s.todo := ordered_program.not_mem h.running.suffix h.told
    (mem_program _) (by simp only [rank]; omega)
  rw [h.stages.loops i, stage, if_neg hfirst, if_pos hlast]

/-- Each step of the accept thread brings it closer to its end. -/
theorem steps_of_accept (hstate : s.state = .stopping) {ok : Bool} (h : s.accept ok = some s') :
    s'.todo = s.todo ∧ (∀ i, s'.loopSteps i = s.loopSteps i) ∧
      s'.acceptPc.steps + 1 ≤ s.acceptPc.steps := by
  unfold State.accept at h
  split at h
  · next hpc =>
    obtain rfl := Option.some.inj h
    exact ⟨rfl, fun i => rfl, by simp [hpc, hstate, AcceptPc.steps]⟩
  · next hpc =>
    obtain rfl := Option.some.inj h
    exact ⟨rfl, fun i => rfl, by cases ok <;> simp [hpc, AcceptPc.steps]⟩
  · next hpc =>
    obtain rfl := Option.some.inj h
    exact ⟨rfl, fun i => rfl, by cases ok <;> simp [hpc, AcceptPc.steps]⟩
  · next hpc =>
    obtain rfl := Option.some.inj h
    exact ⟨rfl, fun i => rfl, by cases ok <;> simp [hpc, AcceptPc.steps]⟩
  · next hpc =>
    split at h
    · obtain rfl := Option.some.inj h
      exact ⟨rfl, fun i => rfl, by simp [hpc, AcceptPc.steps]⟩
    · obtain rfl := Option.some.inj h
      exact ⟨rfl, fun i => rfl, by simp [hpc, AcceptPc.steps]⟩
  · next i hpc =>
    obtain rfl := Option.some.inj h
    exact ⟨rfl, fun i => rfl, by simp [hpc, AcceptPc.steps]⟩
  · cases h

theorem Stopping.accept (h : Stopping s) {ok : Bool} (hn : 0 < n) (hn' : n ≤ 2147483647)
    (hstep : s.accept ok = some s') : Stopping s' ∧ s'.steps + 1 ≤ s.steps := by
  have hthere : s.acceptPc ≠ .absent := by
    intro habsent
    simp [State.accept, habsent] at hstep
  obtain ⟨htodo, hloops, haccept⟩ := steps_of_accept (h.state hthere) hstep
  refine ⟨⟨h.running.accept hn hn' hstep, h.stages.accept hstep, htodo ▸ h.told⟩, ?_⟩
  have hsum : ∑ i, s'.loopSteps i = ∑ i, s.loopSteps i := Finset.sum_congr rfl fun i _ => hloops i
  unfold State.steps
  rw [htodo, hsum]
  omega

/-- Each step of a loop brings it closer to its end, once it has been told to stop and unless a
handler makes another call. -/
theorem steps_of_loop {i : Fin n} {more : Bool}
    (hstate : s.loopState i = .started ∨ s.loopState i = .stopping)
    (h : s.loop i more = some s') : s'.todo = s.todo ∧ s'.acceptPc = s.acceptPc ∧
      (∀ j, j ≠ i → s'.loopSteps j = s.loopSteps j) ∧
      s'.loopSteps i + (if s.counts (.loop i more) then 1 else 0) ≤ s.loopSteps i := by
  -- where the thread is does not matter for a loop that has not been told
  have hthread (pc : LoopPc)
      (hpc : s.loopState i = .stopping → pc.steps + (if more then 0 else 1) ≤ (s.loopPc i).steps) :
      (s.setLoopPc i pc).todo = s.todo ∧ (s.setLoopPc i pc).acceptPc = s.acceptPc ∧
        (∀ j, j ≠ i → (s.setLoopPc i pc).loopSteps j = s.loopSteps j) ∧
        (s.setLoopPc i pc).loopSteps i + (if s.counts (.loop i more) then 1 else 0) ≤
          s.loopSteps i := by
    refine ⟨rfl, rfl, fun j hj => by simp [State.loopSteps, hj], ?_⟩
    rcases hstate with hstate | hstate
    · simp [State.loopSteps, State.counts, hstate]
    · have hle := hpc hstate
      cases more <;> simpa [State.loopSteps, State.counts, hstate] using hle
  unfold State.loop at h
  split at h
  · next hpc =>
    obtain rfl := Option.some.inj h
    refine hthread _ fun hstopping => ?_
    rw [if_pos hstopping, hpc]
    cases more <;> decide
  · next hpc =>
    obtain rfl := Option.some.inj h
    refine hthread .handle fun _ => ?_
    rw [hpc]
    cases more <;> decide
  · next hpc =>
    obtain rfl := Option.some.inj h
    cases more with
    | true => exact ⟨rfl, rfl, fun j _ => rfl, le_rfl⟩
    | false =>
      refine hthread .test fun _ => ?_
      rw [hpc]
      decide
  · cases h

theorem Stopping.loop (h : Stopping s) {i : Fin n} {more : Bool}
    (hstep : s.loop i more = some s') : Stopping s' ∧
      s'.steps + (if s.counts (.loop i more) then 1 else 0) ≤ s.steps := by
  have hthere : s.loopPc i ≠ .absent := by
    intro habsent
    simp [State.loop, habsent] at hstep
  have hstate : s.loopState i = .started ∨ s.loopState i = .stopping := by
    rw [h.loopState hthere]
    split <;> simp
  obtain ⟨htodo, haccept, hothers, hone⟩ := steps_of_loop hstate hstep
  refine ⟨⟨h.running.loop hstep, h.stages.loop hstep, htodo ▸ h.told⟩, ?_⟩
  have hsum := sum_agree i hothers
  unfold State.steps
  rw [htodo, haccept]
  omega

/-- **One step** while the server stops. -/
theorem Stopping.next (h : Stopping s) (hn : 0 < n) (hn' : n ≤ 2147483647) {l : Label n}
    (hstep : s.next l = some s') :
    Stopping s' ∧ s'.steps + (if s.counts l then 1 else 0) ≤ s.steps := by
  cases l with
  | main ok =>
    replace hstep : s.main ok = some s' := hstep
    unfold State.main at hstep
    split at hstep
    · cases hstep
    · next rest htodo =>
      have hlast := h.le_rank htodo
      simp only [rank] at hlast
      omega
    · next a rest _ htodo => exact h.exec htodo hstep
  | accept ok => exact h.accept hn hn' hstep
  | loop i more => exact h.loop hstep

/-- Until `Stop` returns there is a step that counts. -/
theorem Stopping.exists_next (h : Stopping s) (htodo : s.todo ≠ []) :
    ∃ l, s.counts l = true ∧ (s.next l).isSome := by
  obtain ⟨a, rest, hcons⟩ := List.exists_cons_of_ne_nil htodo
  have hready := h.running.ready hcons
  have hmain (hexec : ({ s with todo := rest }.exec a).isSome) :
      ∃ l, s.counts l = true ∧ (s.next l).isSome := by
    refine ⟨.main true, rfl, ?_⟩
    simp only [State.next, State.main, hcons]
    cases a <;> exact hexec
  cases a with
  | joinAcceptThread =>
    have hthere : s.acceptPc ≠ .absent := hready.releases .acceptThread rfl
    by_cases hexited : s.acceptPc = .exited
    · exact hmain (by simp [State.exec, hexited])
    · exact ⟨.accept true, rfl, accept_isSome s true hthere hexited⟩
  | joinThread i =>
    have hthere : s.loopPc i ≠ .absent := hready.releases (.loopThread i) rfl
    by_cases hexited : s.loopPc i = .exited
    · exact hmain (by simp [State.exec, hexited])
    · -- the loop was told to stop before its thread is joined
      have htold : .stopping i ∉ s.todo := by
        rw [hcons]
        refine ordered_program.not_mem_of_lt (hcons ▸ h.running.suffix) ?_
        simp only [rank]
        omega
      have hstate := h.loopState hthere
      rw [if_neg htold] at hstate
      exact ⟨.loop i false, by simp [State.counts, hstate], loop_isSome s i false hthere hexited⟩
  | _ => exact hmain rfl

/-- **`Stop` returns**, where the threads are all given their turns and handlers make finitely many
calls: from when it has set `STATE_STOPPING` no run makes more than `7 * n + 9` of the steps that
count, and until it has returned one of them can be taken. -/
theorem stop_returns (hn : 0 < n) (hn' : n ≤ 2147483647) (h : (rounds n).Reachable Free s)
    (hstopping : s.state = .stopping) {ls : List (Label n)}
    (hrun : (server n).exec Free s ls = some s') :
    (server n).tally State.counts s ls ≤ 7 * n + 9 ∧
      (s'.todo ≠ [] → ∃ l, s'.counts l = true ∧ (s'.next l).isSome) := by
  have hstop : Stopping s := by
    cases round_of_reachable hn hn' h with
    | running hrunning hstages =>
      refine ⟨hrunning, hstages, fun hmem => ?_⟩
      have hserver := hstages.server
      rw [hstopping, stage, if_pos hmem] at hserver
      split at hserver <;> cases hserver
    | refused _ hstopped =>
      have hserver := hstopped.1
      rw [hstopping] at hserver
      cases hserver
  obtain ⟨hstop', htally⟩ := System.tally_add_le (I := Stopping) (p := State.counts)
    (f := State.steps) (fun s l s' hI _ hn₁ => hI.next hn hn' hn₁) hstop hrun
  refine ⟨?_, hstop'.exists_next⟩
  have hlength := hstop.length_le
  have haccept : s.acceptPc.steps ≤ 6 := by
    cases s.acceptPc <;> simp [AcceptPc.steps]
  have hloops : ∑ i, s.loopSteps i ≤ n * 3 := by
    have hle := Finset.sum_le_sum fun i (_ : i ∈ Finset.univ) => loopSteps_le_three s i
    simpa using hle
  unfold State.steps at htally
  omega

/-- One loop: `Stop` waits for the accept thread, which takes one more connection. -/
theorem stop_returns_one : ∃ s s' : State 1, (rounds 1).Reachable Free s ∧ s.state = .stopping ∧
    (server 1).tally State.counts s (List.replicate 3 (.accept true)) = 3 ∧
      (server 1).tally State.counts s (List.replicate 3 (.accept true)) ≤ 16 ∧
      ∃ l, s'.counts l = true ∧ (s'.next l).isSome := by
  obtain ⟨s, hs, hstopping, htally, s', hrun, htodo⟩ : ∃ s : State 1,
      (rounds 1).exec Free ⟨program 1, .stopped, false, ⟨0, 0, []⟩, .absent, fun _ => .stopped,
          fun _ => false, fun _ => .absent, false⟩
        (List.replicate 8 (.step (.main true)) ++ [.step (.accept true)] ++
          List.replicate 2 (.step (.main true))) = some s ∧ s.state = .stopping ∧
      (server 1).tally State.counts s (List.replicate 3 (.accept true)) = 3 ∧
      ∃ s', (server 1).exec Free s (List.replicate 3 (.accept true)) = some s' ∧ s'.todo ≠ [] :=
    ⟨_, rfl, rfl, rfl, _, rfl, nofun⟩
  have hreach := System.reachable_of_exec rfl hs
  obtain ⟨hbound, hgoes⟩ := stop_returns Nat.one_pos (by decide) hreach hstopping hrun
  exact ⟨s, s', hreach, hstopping, htally, hbound, hgoes htodo⟩

end Stop

end Xfnet.TcpServer.Shutdown
