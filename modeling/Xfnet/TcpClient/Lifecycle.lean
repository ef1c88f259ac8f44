import Xfnet.EventLoop.Group
import Xfnet.EventLoop.Registry
import Xfnet.Foundations.Progress
import Xfnet.TcpClient.Retry

/-!
# A client that is started and stopped again and again

The owner of a `TcpClient` calls `Start` and `Stop` in turn, one statement after another, beside the
connect thread and the threads that call `Add`, which may be called at any time. The queues outlive
the rounds: an address that a round has not got round to waits for the next one, and none is lost
between them. The callback is called only while the loops run (`client_rounds`).

`Stop` waits for the connect thread, and that takes no more steps than it needs to empty
`m_failed_queue` (`client_stop_returns`).
-/

namespace Xfnet.TcpClient.Lifecycle

open BlockingQueue EventLoop EventLoopGroup Transition

variable {n : ℕ} {A : Type*}

/-- The statement of `Start` or of `Stop` that the owner comes to. -/
inductive OwnerPc
  | idle
  /-- `m_loop_num = work_thread_num;` -/
  | setLoopNum
  /-- `m_loop_group.Start(work_thread_num)` -/
  | startGroup
  /-- `m_connect_thread.Start(ConnectThread, this)` -/
  | startThread
  | setStarted
  /-- `if(m_state != STATE_STARTED)` -/
  | checkStarted
  | setStopping
  /-- `m_connect_thread.Join();` -/
  | joinThread
  /-- `m_loop_group.Stop();` -/
  | stopGroup
  | setStopped
  deriving DecidableEq

/-- The owner, `m_state`, the table of the loops and whether they run, whether there is a connect
thread to join, and the queues with the place of that thread. `failed` records an assertion or a
rule of `std::thread` that is broken, and a call of the callback with a loop that does not run. -/
structure State (n : ℕ) (A : Type*) where
  owner : OwnerPc
  state : RunState
  table : LoopTable (Fin n)
  running : Bool
  joinable : Bool
  client : Client A
  failed : Bool

/-- The owner calls `Start` or `Stop` or takes a step; or another thread calls `Add`, or the connect
thread takes a step. -/
inductive Label (A : Type*)
  | start
  | stop
  | owner
  | client (l : TcpClient.Label A)

namespace State

/-- The step is only right under the condition. -/
@[simp] def needs (s : State n A) (ok : Bool) : State n A := { s with failed := s.failed || !ok }

/-- A statement of the owner. -/
def ownerStep (s : State n A) : Option (State n A) :=
  match s.owner with
  | .idle => none
  | .setLoopNum =>
    some { s with owner := .startGroup, table := { s.table with loopNum := BitVec.ofNat 32 n } }
  | .startGroup =>
    some { s.needs (!s.running) with
      owner := .startThread
      running := true
      table := { s.table with loops := List.finRange n } }
  | .startThread =>
    some { s.needs (!s.joinable) with
      owner := .setStarted
      joinable := true
      client := { s.client with thread := .loop } }
  | .setStarted => some { s with owner := .idle, state := .started }
  | .checkStarted =>
    some { s with owner := if s.state = .started then .setStopping else .idle }
  | .setStopping =>
    some { s with
      owner := .joinThread
      state := .stopping
      client := { s.client with stopping := true } }
  | .joinThread =>
    match s.client.thread with
    | .exited => some { s.needs s.joinable with owner := .stopGroup, joinable := false }
    | _ => none
  | .stopGroup => some { s with owner := .setStopped, running := false }
  | .setStopped =>
    some { s with
      owner := .idle
      state := .stopped
      client := { s.client with stopping := false } }

/-- What the callback finds: `Add` takes the next loop of the group. -/
def callback (s : State n A) : State n A :=
  match s.table.nextLoop with
  | some (_, _, table) => { s.needs s.running with table := table }
  | none => s.needs false

/-- A step of the connect thread, or of `Add`. -/
def clientStep (s : State n A) (l : TcpClient.Label A) : Option (State n A) :=
  match l with
  | .stop => none
  | .add addr => (s.client.next (.add addr)).map fun c => { s with client := c }
  | .create ok =>
    if s.joinable then (s.client.next (.create ok)).map fun c => { s.callback with client := c }
    else none
  | l => if s.joinable then (s.client.next l).map fun c => { s with client := c } else none

def next (s : State n A) : Label A → Option (State n A)
  | .start =>
    if s.owner = .idle then
      some { s.needs (s.state = .stopped) with owner := .setLoopNum }
    else none
  | .stop => if s.owner = .idle then some { s with owner := .checkStarted } else none
  | .owner => s.ownerStep
  | .client l => s.clientStep l

end State

/-- A client that was just constructed, with `n` for `work_thread_num`. -/
def rounds (n : ℕ) (A : Type*) : System (State n A) (Label A) where
  init s := s = ⟨.idle, .stopped, ⟨0, 0, []⟩, false, false,
    ⟨⟨[], defaultCapacity⟩, ⟨[], defaultCapacity⟩, false, .exited, [], [], []⟩, false⟩
  next := State.next

/-- `Start` is called only when the client is stopped, as it asserts. -/
def Alternates (s : State n A) : Label A → Prop
  | .start => s.state = .stopped
  | _ => True

instance (s : State n A) : DecidablePred (Alternates s)
  | .start => inferInstanceAs (Decidable (s.state = .stopped))
  | .stop | .owner | .client _ => isTrue trivial

/-! ## What holds in every round -/

/-- The values of `m_state` where the owner is. -/
def OwnerPc.states : OwnerPc → List RunState
  | .idle | .checkStarted => [.stopped, .started]
  | .setLoopNum | .startGroup | .startThread | .setStarted => [.stopped]
  | .setStopping => [.started]
  | .joinThread | .stopGroup | .setStopped => [.stopping]

/-- Whether the loops run. -/
def OwnerPc.runs (state : RunState) : OwnerPc → Bool
  | .startThread | .setStarted | .setStopping | .joinThread | .stopGroup => true
  | .idle | .checkStarted => state = .started
  | _ => false

/-- Whether there is a connect thread. -/
def OwnerPc.joins (state : RunState) : OwnerPc → Bool
  | .setStarted | .setStopping | .joinThread => true
  | .idle | .checkStarted => state = .started
  | _ => false

/-- The invariant of all rounds. -/
structure Ok (s : State n A) : Prop where
  ok : s.failed = false
  state : s.state ∈ s.owner.states
  running : s.running = s.owner.runs s.state
  joinable : s.joinable = s.owner.joins s.state
  loopNum : s.owner = .startGroup ∨ s.running = true → s.table.loopNum = BitVec.ofNat 32 n
  loops : s.running = true → s.table.loops = List.finRange n
  stopping : s.client.stopping = decide (s.state = .stopping)
  exited : s.joinable = true → s.client.thread = .exited → s.state = .stopping
  absent : s.joinable = false → s.client.thread = .exited
  accounted : (s.client.added : Multiset A) = s.client.kept + s.client.dropped

section Steps

variable {s s' : State n A} {c c' : Client A} {l : TcpClient.Label A}

/-- The connect thread does not assign to `m_state`, and leaves its loop only when told to. -/
theorem exited_of_next (hl : l ≠ .stop) (hn : c.next l = some c') :
    c'.stopping = c.stopping ∧
      (c'.thread = .exited → c.thread = .exited ∨ c.stopping = true) := by
  cases l with
  | stop => exact absurd rfl hl
  | add addr =>
    obtain ⟨q, -, rfl⟩ := Option.map_eq_some_iff.mp hn
    exact ⟨rfl, .inl⟩
  | test =>
    simp only [Client.next] at hn
    split at hn
    · obtain rfl := Option.some.inj hn
      refine ⟨rfl, fun hexited => .inr ?_⟩
      by_contra hstop
      rw [if_neg hstop] at hexited
      cases hexited
    · cases hn
  | push =>
    simp only [Client.next] at hn
    split at hn
    · obtain ⟨q, -, rfl⟩ := Option.map_eq_some_iff.mp hn
      exact ⟨rfl, by simp⟩
    · cases hn
  | fail =>
    simp only [Client.next] at hn
    split at hn
    · obtain ⟨q, -, rfl⟩ := Option.map_eq_some_iff.mp hn
      exact ⟨rfl, by simp⟩
    · cases hn
  | connect valid =>
    simp only [Client.next] at hn
    split at hn
    · cases valid <;> obtain rfl := Option.some.inj hn <;> exact ⟨rfl, by simp⟩
    · cases hn
  | create ok =>
    simp only [Client.next] at hn
    split at hn
    · cases ok <;> obtain rfl := Option.some.inj hn <;> exact ⟨rfl, by simp⟩
    · cases hn
  | pop | popTimeout | tryPop =>
    simp only [Client.next] at hn
    split at hn <;> first
      | cases hn; done
      | obtain rfl := Option.some.inj hn; exact ⟨rfl, by simp⟩

/-- The callback gets a loop of the group, and the loop runs. -/
theorem callback_eq (h : Ok s) (hn : 0 < n) (hn' : n ≤ 2147483647) (hrunning : s.running = true) :
    s.callback = { s with table := s.table.advance } := by
  have hloopNum := h.loopNum (.inr hrunning)
  have hstarted : s.table.Started := by
    refine ⟨?_, ?_⟩
    · rw [hloopNum, h.loops hrunning, List.length_finRange, BitVec.toNat_ofNat]
      omega
    · rw [h.loops hrunning, ← List.length_pos_iff, List.length_finRange]
      exact hn
  obtain ⟨loop, -, hnext⟩ := nextLoop_of_started hstarted
  rw [State.callback, hnext]
  simp [hrunning]

/-- The queues and the connect thread go on. -/
theorem Ok.client (h : Ok s) (hc : s.client.next l = some c') (hl : l ≠ .stop)
    (hthere : s.joinable = true ∨ c'.thread = s.client.thread) : Ok { s with client := c' } := by
  obtain ⟨hstopping, hexited⟩ := exited_of_next hl hc
  refine ⟨h.ok, h.state, h.running, h.joinable, h.loopNum, h.loops, hstopping.trans h.stopping,
    fun hjoin hexit => ?_, fun habsent => ?_, (accounted_step h.accounted hc).1⟩
  · rcases hexited hexit with hexit | hstop
    · exact h.exited hjoin hexit
    · exact of_decide_eq_true (h.stopping.symm.trans hstop)
  · rcases hthere with hjoin | hsame
    · exact absurd (hjoin.symm.trans habsent) nofun
    · exact hsame.trans (h.absent habsent)

/-- There is a connect thread only while the loops run. -/
theorem Ok.running_of_joinable (h : Ok s) (hjoin : s.joinable = true) : s.running = true := by
  rw [h.joinable] at hjoin
  rw [h.running]
  cases howner : s.owner <;> rw [howner] at hjoin <;> first
    | rfl
    | exact hjoin

theorem Ok.clientStep (h : Ok s) (hn : 0 < n) (hn' : n ≤ 2147483647)
    (hstep : s.clientStep l = some s') : Ok s' := by
  cases l with
  | stop => cases hstep
  | add addr =>
    obtain ⟨c, hc, rfl⟩ := Option.map_eq_some_iff.mp hstep
    refine h.client hc nofun (.inr ?_)
    obtain ⟨q, -, rfl⟩ := Option.map_eq_some_iff.mp hc
    rfl
  | create ok =>
    obtain ⟨hjoin, hmap⟩ := Option.ite_none_right_eq_some.mp hstep
    obtain ⟨c, hc, rfl⟩ := Option.map_eq_some_iff.mp hmap
    rw [callback_eq h hn hn' (h.running_of_joinable hjoin)]
    have hadvance : Ok { s with table := s.table.advance } :=
      ⟨h.ok, h.state, h.running, h.joinable, h.loopNum, h.loops, h.stopping, h.exited, h.absent,
        h.accounted⟩
    exact hadvance.client hc nofun (.inl hjoin)
  | _ =>
    obtain ⟨hjoin, hmap⟩ := Option.ite_none_right_eq_some.mp hstep
    obtain ⟨c, hc, rfl⟩ := Option.map_eq_some_iff.mp hmap
    exact h.client hc nofun (.inl hjoin)

theorem Ok.ownerStep (h : Ok s) (hstep : s.ownerStep = some s') : Ok s' := by
  obtain ⟨owner, state, table, running, joinable, client, failed⟩ := s
  obtain ⟨hok, hstate, hrunning, hjoinable, hloopNum, hloops, hstopping, hexited, habsent,
    haccounted⟩ := h
  cases owner with
  | idle => cases hstep
  | setLoopNum =>
    obtain rfl := Option.some.inj hstep
    exact ⟨hok, hstate, hrunning, hjoinable, fun _ => rfl, hloops, hstopping, hexited, habsent,
      haccounted⟩
  | startGroup =>
    obtain rfl := Option.some.inj hstep
    obtain rfl : running = false := hrunning
    exact ⟨by simpa using hok, hstate, rfl, hjoinable, fun _ => hloopNum (.inl rfl), fun _ => rfl,
      hstopping, hexited, habsent, haccounted⟩
  | startThread =>
    obtain rfl := Option.some.inj hstep
    obtain rfl : joinable = false := hjoinable
    refine ⟨by simpa using hok, hstate, hrunning, rfl, fun _ => hloopNum (.inr hrunning), hloops,
      hstopping, by simp, by simp, ?_⟩
    have hexit : client.thread = .exited := habsent rfl
    simp only [Client.kept, hexit] at haccounted
    exact haccounted
  | setStarted =>
    obtain rfl := Option.some.inj hstep
    obtain rfl : state = .stopped := List.mem_singleton.mp hstate
    refine ⟨hok, List.mem_cons_of_mem _ (List.mem_singleton.mpr rfl), hrunning, hjoinable,
      fun _ => hloopNum (.inr hrunning), hloops, hstopping, fun hjoin hexit => ?_, habsent,
      haccounted⟩
    cases hexited hjoin hexit
  | checkStarted =>
    obtain rfl := Option.some.inj hstep
    by_cases hstarted : state = .started
    · subst hstarted
      exact ⟨hok, List.mem_singleton.mpr rfl, hrunning, hjoinable,
        fun _ => hloopNum (.inr hrunning), hloops, hstopping, hexited, habsent, haccounted⟩
    · rw [if_neg hstarted]
      exact ⟨hok, hstate, hrunning, hjoinable, fun h => hloopNum (h.imp_left (by simp)), hloops,
        hstopping, hexited, habsent, haccounted⟩
  | setStopping =>
    obtain rfl := Option.some.inj hstep
    exact ⟨hok, List.mem_singleton.mpr rfl, hrunning, hjoinable, fun _ => hloopNum (.inr hrunning),
      hloops, rfl, fun _ _ => rfl, habsent, haccounted⟩
  | joinThread =>
    simp only [State.ownerStep] at hstep
    split at hstep
    · next hexit =>
      obtain rfl := Option.some.inj hstep
      obtain rfl : joinable = true := hjoinable
      exact ⟨by simpa using hok, hstate, hrunning, rfl, fun _ => hloopNum (.inr hrunning), hloops,
        hstopping, by simp, fun _ => hexit, haccounted⟩
    · cases hstep
  | stopGroup =>
    obtain rfl := Option.some.inj hstep
    exact ⟨hok, hstate, rfl, hjoinable, by simp, by simp, hstopping, hexited, habsent, haccounted⟩
  | setStopped =>
    obtain rfl := Option.some.inj hstep
    obtain rfl : joinable = false := hjoinable
    obtain rfl : running = false := hrunning
    exact ⟨hok, List.mem_cons_self, rfl, rfl, by simp, by simp, rfl, by simp, habsent, haccounted⟩

theorem Ok.next (h : Ok s) (hn : 0 < n) (hn' : n ≤ 2147483647) {l : Label A}
    (hc : Alternates s l) (hstep : s.next l = some s') : Ok s' := by
  cases l with
  | start =>
    obtain ⟨hidle, he⟩ := Option.ite_none_right_eq_some.mp hstep
    obtain rfl := Option.some.inj he
    have hstopped : s.state = .stopped := hc
    have hrunning := h.running
    have hjoinable := h.joinable
    rw [hidle, hstopped] at hrunning hjoinable
    exact ⟨by simpa [hstopped] using h.ok, List.mem_singleton.mpr hstopped, hrunning, hjoinable,
      fun hor => h.loopNum (hor.imp_left nofun), h.loops, h.stopping, h.exited, h.absent,
      h.accounted⟩
  | stop =>
    obtain ⟨hidle, he⟩ := Option.ite_none_right_eq_some.mp hstep
    obtain rfl := Option.some.inj he
    have hstate := h.state
    have hrunning := h.running
    have hjoinable := h.joinable
    rw [hidle] at hstate hrunning hjoinable
    exact ⟨h.ok, hstate, hrunning, hjoinable, fun hor => h.loopNum (hor.imp_left nofun), h.loops,
      h.stopping, h.exited, h.absent, h.accounted⟩
  | owner => exact h.ownerStep hstep
  | client l => exact h.clientStep hn hn' hstep

/-! ## Between two rounds -/

/-- `Stop` has returned, or is called once more. -/
structure Parked (s : State n A) : Prop where
  state : s.state = .stopped
  owner : s.owner = .idle ∨ s.owner = .checkStarted

/-- The step is not a call of `Start`. -/
def Rests (_ : State n A) : Label A → Prop
  | .start => False
  | _ => True

instance (s : State n A) : DecidablePred (Rests s)
  | .start => isFalse id
  | .stop | .owner | .client _ => isTrue trivial

/-- Only `Add` has done anything. -/
structure Waited (c c' : Client A) : Prop where
  thread : c'.thread = c.thread
  failedQueue : c'.failedQueue = c.failedQueue
  handed : c'.handed = c.handed
  dropped : c'.dropped = c.dropped
  connectQueue : c.connectQueue.queue <+: c'.connectQueue.queue

theorem Waited.refl (c : Client A) : Waited c c := ⟨rfl, rfl, rfl, rfl, List.prefix_refl _⟩

theorem Waited.trans {c'' : Client A} (h : Waited c c') (h' : Waited c' c'') : Waited c c'' :=
  ⟨h'.thread.trans h.thread, h'.failedQueue.trans h.failedQueue, h'.handed.trans h.handed,
    h'.dropped.trans h.dropped, h.connectQueue.trans h'.connectQueue⟩

theorem Parked.joinable (hparked : Parked s) (h : Ok s) : s.joinable = false := by
  rw [h.joinable, hparked.state]
  rcases hparked.owner with howner | howner <;> rw [howner] <;> rfl

theorem Parked.running (hparked : Parked s) (h : Ok s) : s.running = false := by
  rw [h.running, hparked.state]
  rcases hparked.owner with howner | howner <;> rw [howner] <;> rfl

theorem Parked.next (hparked : Parked s) (h : Ok s) {l : Label A} (hc : Rests s l)
    (hstep : s.next l = some s') : Parked s' ∧ Waited s.client s'.client := by
  cases l with
  | start => exact hc.elim
  | stop =>
    obtain ⟨-, he⟩ := Option.ite_none_right_eq_some.mp hstep
    obtain rfl := Option.some.inj he
    exact ⟨⟨hparked.state, .inr rfl⟩, .refl _⟩
  | owner =>
    have hstopped := hparked.state
    rcases hparked.owner with howner | howner
    · simp [State.next, State.ownerStep, howner] at hstep
    · obtain rfl : { s with owner := .idle } = s' := by
        simpa [State.next, State.ownerStep, howner, hstopped] using hstep
      exact ⟨⟨hparked.state, .inl rfl⟩, .refl _⟩
  | client l =>
    have habsent := hparked.joinable h
    have hno (b : Option (State n A)) : (if s.joinable then b else none) ≠ some s' := by
      rw [habsent]
      nofun
    cases l with
    | add addr =>
      obtain ⟨c, hc, rfl⟩ := Option.map_eq_some_iff.mp hstep
      obtain ⟨⟨q, r⟩, hpush, rfl⟩ := Option.map_eq_some_iff.mp hc
      refine ⟨⟨hparked.state, hparked.owner⟩, rfl, rfl, rfl, rfl, ?_⟩
      exact queue_of_push hpush ▸ List.prefix_append _ _
    | stop => cases hstep
    | _ => exact absurd hstep (hno _)

end Steps

section Runs

variable {s s' : State n A} {ls : List (Label A)}

theorem ok_of_reachable (hn : 0 < n) (hn' : n ≤ 2147483647)
    (h : (rounds n A).Reachable Alternates s) : Ok s := by
  refine h.invariant (I := Ok) ?_ fun s l s' _ hok hc hstep => hok.next hn hn' hc hstep
  rintro s rfl
  exact ⟨rfl, List.mem_cons_self, rfl, rfl, nofun, nofun, rfl, nofun, fun _ => rfl, rfl⟩

/-- **Rounds of `Start` and `Stop`**, whatever else happens and in whatever order: no assertion
fails, the callback is called only while the loops run, and every address that was ever added is in
one of the queues, in progress, handed over, or dropped after an attempt that failed. When `Stop`
has returned, nothing runs and none is in progress, and until the next `Start` they all stay where
they are while new ones come in. -/
theorem client_rounds (hn : 0 < n) (hn' : n ≤ 2147483647)
    (h : (rounds n A).Reachable Alternates s) :
    s.failed = false ∧ (s.client.added : Multiset A) = s.client.kept + s.client.dropped ∧
      (s.owner = .idle → s.state = .stopped → s.running = false ∧ s.joinable = false ∧
        (s.client.added : Multiset A) = s.client.connectQueue.queue + s.client.failedQueue.queue +
          s.client.handed + s.client.dropped ∧
        ∀ s' ls, (rounds n A).exec Rests s ls = some s' → Waited s.client s'.client) := by
  have hok := ok_of_reachable hn hn' h
  refine ⟨hok.ok, hok.accounted, fun hidle hstopped => ?_⟩
  have hparked : Parked s := ⟨hstopped, .inl hidle⟩
  refine ⟨hparked.running hok, hparked.joinable hok, ?_, fun s' ls hrun => ?_⟩
  · have hacc := hok.accounted
    simp only [Client.kept, hok.absent (hparked.joinable hok), ConnectThread.addr, add_zero] at hacc
    exact hacc
  · refine System.exec_rel
      (R := fun s s' : State n A => Ok s → Parked s → Waited s.client s'.client)
      (fun s _ _ => .refl _) ?_ hrun hok hparked
    intro s l s₁ s' hc hstep hrest hok hparked
    obtain ⟨hparked', hwaited⟩ := hparked.next hok hc hstep
    have hmay : Alternates s l := by
      cases l with
      | start => exact hc.elim
      | _ => trivial
    exact hwaited.trans (hrest (hok.next hn hn' hmay hstep) hparked')

/-- An address that the first round did not get round to is handed over in the second. -/
theorem client_rounds_two : ∃ s : State 1 ℕ, (rounds 1 ℕ).Reachable Alternates s ∧
    s.client.handed = [7] ∧ s.client.connectQueue.queue = [8] ∧
      (s.client.added : Multiset ℕ) = s.client.connectQueue.queue + s.client.failedQueue.queue +
        s.client.handed + s.client.dropped := by
  obtain ⟨s, hrun, hidle, hstopped, hhanded, hqueue⟩ : ∃ s : State 1 ℕ,
      (rounds 1 ℕ).exec Alternates ⟨.idle, .stopped, ⟨0, 0, []⟩, false, false,
          ⟨⟨[], defaultCapacity⟩, ⟨[], defaultCapacity⟩, false, .exited, [], [], []⟩, false⟩
        [.start, .owner, .owner, .owner, .owner, .client (.add 7), .stop, .owner, .owner,
          .client .test, .owner, .owner, .owner, .client (.add 8), .start, .owner, .owner, .owner,
          .owner, .client .test, .client .pop, .client (.connect true), .client (.create true),
          .stop, .owner, .owner, .client .test, .owner, .owner, .owner] = some s ∧
      s.owner = .idle ∧ s.state = .stopped ∧ s.client.handed = [7] ∧
        s.client.connectQueue.queue = [8] :=
    ⟨_, rfl, rfl, rfl, rfl, rfl⟩
  have hreach := System.reachable_of_exec rfl hrun
  obtain ⟨-, -, hrests⟩ := client_rounds Nat.one_pos (by decide) hreach
  exact ⟨s, hreach, hhanded, hqueue, (hrests hidle hstopped).2.2.1⟩

end Runs

/-! ## `Stop` returns -/

/-- The steps that the connect thread makes at most before it sees that it is to stop, with `k`
addresses in `m_failed_queue`. -/
def steps (k : ℕ) : ConnectThread A → ℕ
  | .loop => 1
  | .popping => 2 * k + 5
  | .migrating => 2 * k + 2
  | .requeuing _ => 2 * k + 3
  | .connecting _ => 4
  | .adding _ => 3
  | .failing _ => 2
  | .exited => 0

/-- The statements that are left of `Stop`. -/
def OwnerPc.left : OwnerPc → ℕ
  | .joinThread => 3
  | .stopGroup => 2
  | .setStopped => 1
  | _ => 0

/-- The steps that are left of `Stop`, with those of the connect thread. -/
def State.left (s : State n A) : ℕ :=
  if s.state = .stopping then s.owner.left + steps s.client.failedQueue.queue.length s.client.thread
  else 0

/-- A step of the owner or of the connect thread. -/
def Label.counts : Label A → Bool
  | .client (.add _) => false
  | _ => true

section Stop

variable {s s' : State n A} {c c' : Client A} {l : TcpClient.Label A} {ls : List (Label A)}

/-- **The connect thread** comes nearer to its end. -/
theorem steps_lt (hstop : c.stopping = true) (hn : c.next l = some c') (hl : l ≠ .stop)
    (hadd : ∀ addr, l ≠ .add addr) :
    steps c'.failedQueue.queue.length c'.thread + 1 ≤
      steps c.failedQueue.queue.length c.thread := by
  cases l with
  | stop => exact absurd rfl hl
  | add addr => exact absurd rfl (hadd addr)
  | test =>
    simp only [Client.next] at hn
    split at hn
    · next hthread =>
      obtain rfl := Option.some.inj hn
      rw [if_pos hstop, hthread]
      exact le_rfl
    · cases hn
  | pop =>
    simp only [Client.next] at hn
    split at hn
    · next hthread _ =>
      obtain rfl := Option.some.inj hn
      simp only [hthread, steps]
      omega
    · cases hn
  | popTimeout =>
    simp only [Client.next] at hn
    split at hn
    · next hthread =>
      obtain rfl := Option.some.inj hn
      simp only [hthread, steps]
      omega
    · cases hn
  | tryPop =>
    simp only [Client.next] at hn
    split at hn
    · next q addr hthread hpop =>
      obtain rfl := Option.some.inj hn
      have hcons := queue_of_handed hpop
      simp only [hthread, steps, hcons, List.length_cons]
      omega
    · next hthread _ =>
      obtain rfl := Option.some.inj hn
      simp only [hthread, steps]
      omega
    · cases hn
  | push =>
    simp only [Client.next] at hn
    split at hn
    · next addr hthread =>
      obtain ⟨q, -, rfl⟩ := Option.map_eq_some_iff.mp hn
      simp only [hthread, steps]
      exact le_rfl
    · cases hn
  | connect valid =>
    simp only [Client.next] at hn
    split at hn
    · next addr hthread =>
      cases valid <;> obtain rfl := Option.some.inj hn <;> simp only [hthread, steps] <;> decide
    · cases hn
  | create ok =>
    simp only [Client.next] at hn
    split at hn
    · next addr hthread =>
      cases ok <;> obtain rfl := Option.some.inj hn <;> simp only [hthread, steps] <;> decide
    · cases hn
  | fail =>
    simp only [Client.next] at hn
    split at hn
    · next addr hthread =>
      obtain ⟨q, -, rfl⟩ := Option.map_eq_some_iff.mp hn
      simp only [hthread, steps]
      exact le_rfl
    · cases hn

theorem left_of_stopping (hstate : s.state = .stopping) :
    s.left = s.owner.left + steps s.client.failedQueue.queue.length s.client.thread :=
  if_pos hstate

theorem left_clientStep (h : Ok s) (hn : 0 < n) (hn' : n ≤ 2147483647)
    (hstate : s.state = .stopping) (hstep : s.clientStep l = some s') :
    s'.left + (if Label.counts (.client l) then 1 else 0) ≤ s.left := by
  have hstop : s.client.stopping = true := by
    rw [h.stopping, hstate]
    rfl
  have hleft := left_of_stopping hstate
  rw [hleft]
  cases l with
  | stop => cases hstep
  | add addr =>
    obtain ⟨c, hc, rfl⟩ := Option.map_eq_some_iff.mp hstep
    obtain ⟨q, -, rfl⟩ := Option.map_eq_some_iff.mp hc
    exact hleft.le
  | create ok =>
    obtain ⟨hjoin, hmap⟩ := Option.ite_none_right_eq_some.mp hstep
    obtain ⟨c, hc, rfl⟩ := Option.map_eq_some_iff.mp hmap
    have hlt := steps_lt hstop hc nofun nofun
    rw [callback_eq h hn hn' (h.running_of_joinable hjoin)]
    show (if s.state = .stopping then s.owner.left + steps c.failedQueue.queue.length c.thread
      else 0) + 1 ≤ _
    rw [if_pos hstate]
    omega
  | _ =>
    obtain ⟨hjoin, hmap⟩ := Option.ite_none_right_eq_some.mp hstep
    obtain ⟨c, hc, rfl⟩ := Option.map_eq_some_iff.mp hmap
    have hlt := steps_lt hstop hc nofun nofun
    show (if s.state = .stopping then s.owner.left + steps c.failedQueue.queue.length c.thread
      else 0) + 1 ≤ _
    rw [if_pos hstate]
    omega

theorem left_ownerStep (h : Ok s) (hstate : s.state = .stopping) (hstep : s.ownerStep = some s') :
    s'.left + 1 ≤ s.left := by
  have hstates := h.state
  rw [hstate] at hstates
  rw [left_of_stopping hstate]
  cases howner : s.owner with
  | joinThread =>
    simp only [State.ownerStep, howner] at hstep
    split at hstep
    · next hexit =>
      obtain rfl := Option.some.inj hstep
      show (if s.state = .stopping then 2 + steps s.client.failedQueue.queue.length s.client.thread
        else 0) + 1 ≤ 3 + _
      rw [if_pos hstate, Nat.add_right_comm]
    · cases hstep
  | stopGroup =>
    simp only [State.ownerStep, howner] at hstep
    obtain rfl := Option.some.inj hstep
    show (if s.state = .stopping then 1 + steps s.client.failedQueue.queue.length s.client.thread
      else 0) + 1 ≤ 2 + _
    rw [if_pos hstate, Nat.add_right_comm]
  | setStopped =>
    simp only [State.ownerStep, howner] at hstep
    obtain rfl := Option.some.inj hstep
    exact Nat.le_add_right 1 _
  | _ => simp [howner, OwnerPc.states] at hstates

theorem exists_complete_push {q : Content A} (addr : A) (hroom : q.queue.length < q.capacity) :
    ∃ q', complete (.push addr) q = some q' := by
  refine ⟨(⟨q.queue ++ [addr], q.capacity⟩, .accepted), ?_⟩
  rw [complete, body, Content.push, Content.pushOr, if_neg (Nat.not_le.mpr hroom)]

/-- **The connect thread is never stuck**, if there is room in the queues. -/
theorem exists_next_thread (hthread : c.thread ≠ .exited)
    (hroom : c.connectQueue.queue.length < c.connectQueue.capacity)
    (hroom' : c.failedQueue.queue.length < c.failedQueue.capacity) :
    ∃ l c', l ≠ .stop ∧ (∀ addr, l ≠ .add addr) ∧ c.next l = some c' := by
  cases hc : c.thread with
  | loop => exact ⟨.test, _, by simp, by simp, by rw [Client.next, hc]⟩
  | popping => exact ⟨.popTimeout, _, by simp, by simp, by rw [Client.next, hc]⟩
  | migrating =>
    cases hq : c.failedQueue with
    | mk queue capacity =>
      cases queue with
      | nil => exact ⟨.tryPop, _, by simp, by simp, by rw [Client.next, hc, hq]; rfl⟩
      | cons addr queue => exact ⟨.tryPop, _, by simp, by simp, by rw [Client.next, hc, hq]; rfl⟩
  | requeuing addr =>
    obtain ⟨q, hq⟩ := exists_complete_push addr hroom
    exact ⟨.push, _, by simp, by simp, by rw [Client.next, hc]; exact congrArg (Option.map _) hq⟩
  | connecting addr => exact ⟨.connect true, _, by simp, by simp, by rw [Client.next, hc]; rfl⟩
  | adding addr => exact ⟨.create true, _, by simp, by simp, by rw [Client.next, hc]; rfl⟩
  | failing addr =>
    obtain ⟨q, hq⟩ := exists_complete_push addr hroom'
    exact ⟨.fail, _, by simp, by simp, by rw [Client.next, hc]; exact congrArg (Option.map _) hq⟩
  | exited => exact absurd hc hthread

theorem exists_clientStep (hjoin : s.joinable = true) (hl : l ≠ .stop)
    (hn : s.client.next l = some c') : ∃ s', s.clientStep l = some s' := by
  have hmap (f : Client A → State n A) :
      (if s.joinable then (s.client.next l).map f else none) = some (f c') := by
    rw [if_pos hjoin, hn, Option.map_some]
  cases l with
  | stop => exact absurd rfl hl
  | add addr => exact ⟨_, congrArg (Option.map _) hn⟩
  | _ => exact ⟨_, hmap _⟩

/-- There is room for another address in both queues. -/
structure Room (c : Client A) : Prop where
  connectQueue : c.connectQueue.queue.length < c.connectQueue.capacity
  failedQueue : c.failedQueue.queue.length < c.failedQueue.capacity

theorem exists_next (h : Ok s) (hstate : s.state = .stopping) (hroom : Room s.client) :
    ∃ l s', l.counts = true ∧ s.next l = some s' := by
  have hstates := h.state
  rw [hstate] at hstates
  cases howner : s.owner with
  | joinThread =>
    have hjoin : s.joinable = true := by
      rw [h.joinable, howner]
      rfl
    by_cases hexit : s.client.thread = .exited
    · have hs : ∃ s', s.ownerStep = some s' := by
        simp only [State.ownerStep, howner, hexit]
        exact ⟨_, rfl⟩
      exact ⟨.owner, hs.choose, rfl, hs.choose_spec⟩
    · obtain ⟨l, c', hl, hadd, hn⟩ :=
        exists_next_thread hexit hroom.connectQueue hroom.failedQueue
      obtain ⟨s', hs'⟩ := exists_clientStep hjoin hl hn
      refine ⟨.client l, s', ?_, hs'⟩
      cases l with
      | add addr => exact absurd rfl (hadd addr)
      | _ => rfl
  | stopGroup | setStopped =>
    have hs : ∃ s', s.ownerStep = some s' := by
      simp only [State.ownerStep, howner]
      exact ⟨_, rfl⟩
    exact ⟨.owner, hs.choose, rfl, hs.choose_spec⟩
  | _ => simp [howner, OwnerPc.states] at hstates

/-- `Stop` has not returned. -/
def Stops (s : State n A) (_ : Label A) : Prop := s.state = .stopping

instance (s : State n A) (l : Label A) : Decidable (Stops s l) :=
  inferInstanceAs (Decidable (s.state = .stopping))

/-- **`Stop` returns**, whatever is added meanwhile: the owner and the connect thread make no more
steps than the second needs to empty `m_failed_queue` once, and until then one of them can take
one, if there is room in the queues. -/
theorem client_stop_returns (hn : 0 < n) (hn' : n ≤ 2147483647)
    (h : (rounds n A).Reachable Alternates s) (hstate : s.state = .stopping)
    (hrun : (rounds n A).exec Stops s ls = some s') :
    (rounds n A).tally (fun _ l => l.counts) s ls ≤ 2 * s.client.failedQueue.queue.length + 8 ∧
      (s'.state = .stopping → Room s'.client →
        ∃ l s'', l.counts = true ∧ s'.next l = some s'') := by
  have hstep (s : State n A) (l : Label A) (s' : State n A) (hok : Ok s) (hc : Stops s l)
      (hstep : s.next l = some s') :
      Ok s' ∧ s'.left + (if l.counts then 1 else 0) ≤ s.left := by
    have hidle : s.owner ≠ .idle := by
      intro hidle
      have hstates := hok.state
      rw [show s.state = .stopping from hc, hidle] at hstates
      simp [OwnerPc.states] at hstates
    cases l with
    | start => exact absurd (Option.ite_none_right_eq_some.mp hstep).1 hidle
    | stop => exact absurd (Option.ite_none_right_eq_some.mp hstep).1 hidle
    | owner => exact ⟨hok.ownerStep hstep, left_ownerStep hok hc hstep⟩
    | client l =>
      exact ⟨hok.clientStep hn hn' hstep, left_clientStep hok hn hn' hc hstep⟩
  obtain ⟨hok', htally⟩ := System.tally_add_le hstep (ok_of_reachable hn hn' h) hrun
  refine ⟨(Nat.le_add_right _ _).trans (htally.trans ?_), fun hstate' hroom =>
    exists_next hok' hstate' hroom⟩
  have howner : s.owner.left ≤ 3 := by
    cases s.owner <;> decide
  have hthread : steps s.client.failedQueue.queue.length s.client.thread ≤
      2 * s.client.failedQueue.queue.length + 5 := by
    cases s.client.thread <;> simp only [steps] <;> omega
  rw [left_of_stopping hstate]
  omega

/-- The connect thread waits when `Stop` is called, and finds a refused address to bring back. -/
theorem client_stop_returns_refused : ∃ s s' : State 1 ℕ,
    (rounds 1 ℕ).Reachable Alternates s ∧ s.client.failedQueue.queue = [7] ∧
      (rounds 1 ℕ).exec Stops s
        [.client .popTimeout, .client .tryPop, .client .push, .client .tryPop, .client .test] =
          some s' ∧
      (rounds 1 ℕ).tally (fun _ l => l.counts) s
        [.client .popTimeout, .client .tryPop, .client .push, .client .tryPop, .client .test] ≤ 10 ∧
      ∃ l s'', l.counts = true ∧ s'.next l = some s'' := by
  obtain ⟨s, hrun, hstate, hfailed, s', hrun', hstate', hroom⟩ : ∃ s : State 1 ℕ,
      (rounds 1 ℕ).exec Alternates ⟨.idle, .stopped, ⟨0, 0, []⟩, false, false,
          ⟨⟨[], defaultCapacity⟩, ⟨[], defaultCapacity⟩, false, .exited, [], [], []⟩, false⟩
        [.start, .owner, .owner, .owner, .owner, .client (.add 7), .client .test, .client .pop,
          .client (.connect true), .client (.create false), .client .fail, .client .test, .stop,
          .owner, .owner] = some s ∧ s.state = .stopping ∧ s.client.failedQueue.queue = [7] ∧
      ∃ s', (rounds 1 ℕ).exec Stops s
        [.client .popTimeout, .client .tryPop, .client .push, .client .tryPop, .client .test] =
          some s' ∧ s'.state = .stopping ∧ Room s'.client :=
    ⟨_, rfl, rfl, rfl, _, rfl, rfl, by decide, by decide⟩
  have hreach := System.reachable_of_exec rfl hrun
  obtain ⟨hbound, hgoes⟩ := client_stop_returns Nat.one_pos (by decide) hreach hstate hrun'
  rw [hfailed] at hbound
  exact ⟨s, s', hreach, hfailed, hrun', hbound, hgoes hstate' hroom⟩

end Stop

end Xfnet.TcpClient.Lifecycle
