import Xfnet.EventLoop.Group
import Xfnet.EventLoop.Registry

/-!
# What `TcpServer::Start` reports

`Start` opens the acceptor, then the loops, then the accept thread. It looks at the results of
`socket` and `bind` only: `Acceptor::Open` ignores that of `listen`, `EventLoopGroup::Start` those
of its loops, and nobody asks for at least one loop. So `Start` returns `true` for a server that
cannot serve; `start_truthful_iff` says exactly when it does not.
-/

namespace Xfnet.TcpServer

open EventLoop EventLoopGroup

variable {Fd : Type*} [DecidableEq Fd]

/-- What an open descriptor stands for. -/
inductive Descriptor
  | socket (bound listening : Bool)
  | epoll
  deriving DecidableEq

/-- The open descriptors of the server. -/
abbrev Kernel (Fd : Type*) := Fd → Option Descriptor

/-- The descriptor, if there is one, stands for `d` from now on, or is closed. -/
def Kernel.set (k : Kernel Fd) (fd : Option Fd) (d : Option Descriptor) : Kernel Fd :=
  fun f => if fd = some f then d else k f

/-- What the system calls answer, `none` for `-1`: `socket`, `bind`, `listen`, and `epoll_create1`
in the loop of the given number. Descriptors that are open together differ. The options of the
socket (`SetReuseAddr`, `SetNoDelay`, `SetKeepAlive`) are set without a look at the result. -/
structure Answers (Fd : Type*) where
  socket : Option Fd
  bind : Bool
  listen : Bool
  epoll : ℕ → Option Fd
  socket_ne_epoll : ∀ fd i, socket = some fd → epoll i ≠ some fd
  epoll_injective : ∀ fd i j, epoll i = some fd → epoll j = some fd → i = j

/-- An event loop: `m_state`, `m_epoll_fd`, and whether its thread runs. -/
structure Loop (Fd : Type*) where
  state : RunState
  epoll : Option Fd
  running : Bool
  deriving DecidableEq

/-- `NewEventLoop`. -/
def newEventLoop : Loop Fd := ⟨.stopped, none, false⟩

/-- A server: `m_state`, `m_fd` of the acceptor, whether the accept thread runs, the loops with the
counter to choose one, and the open descriptors. -/
structure Server (Fd : Type*) where
  state : RunState
  acceptor : Option Fd
  accepting : Bool
  table : LoopTable (Loop Fd)
  kernel : Kernel Fd

/-- `Acceptor::Open`, with `m_fd` and the descriptors after it. -/
def openAcceptor (k : Kernel Fd) (a : Answers Fd) : Bool × Option Fd × Kernel Fd :=
  match a.socket with
  | none => (false, none, k)
  | some fd =>
    let k := k.set (some fd) (some (.socket false false))
    if a.bind then (true, some fd, k.set (some fd) (some (.socket true a.listen)))
    else (false, none, k.set (some fd) none)

/-- `EventLoop::Start` on a new loop. The result of `m_selector.Open()` is not looked at. -/
def Loop.start (epoll : Option Fd) (k : Kernel Fd) : Loop Fd × Kernel Fd :=
  (⟨.started, epoll, true⟩, k.set epoll (some .epoll))

/-- The loop of `EventLoopGroup::Start`. -/
def startLoops (epoll : ℕ → Option Fd) (k : Kernel Fd) : ℕ → List (Loop Fd) × Kernel Fd
  | 0 => ([], k)
  | i + 1 =>
    let (loops, k) := startLoops epoll k i
    let (loop, k) := Loop.start (epoll i) k
    (loops ++ [loop], k)

/-- `EventLoopGroup::Start`; `none` when `resize` throws, for a count that is negative. -/
def startGroup (epoll : ℕ → Option Fd) (k : Kernel Fd) (loopCount : BitVec 32) :
    Option (List (Loop Fd) × Kernel Fd) :=
  if loopCount.toInt < 0 then none else some (startLoops epoll k loopCount.toInt.toNat)

/-- `TcpServer::Start`: the server after it with what it returned, `none` when it threw; nothing
when an assertion fails. The old loops are destroyed, which they must be stopped for. -/
def Server.start (s : Server Fd) (a : Answers Fd) (workThreadNum : BitVec 32) :
    Option (Server Fd × Option Bool) :=
  if s.state = .stopped then
    match openAcceptor s.kernel a with
    | (false, fd, k) => some ({ s with acceptor := fd, kernel := k }, some false)
    | (true, fd, k) =>
      let table := { s.table with loopNum := workThreadNum }
      match startGroup a.epoll k workThreadNum with
      | none => some ({ s with acceptor := fd, table := table, kernel := k }, none)
      | some (loops, k) =>
        if ∀ loop ∈ s.table.loops, loop.state = .stopped then
          some (⟨.started, fd, true, { table with loops := loops }, k⟩, some true)
        else none
  else none

/-! ## The truth -/

/-- Nothing is open and nothing runs. -/
structure Server.Stopped (s : Server Fd) : Prop where
  state : s.state = .stopped
  acceptor : s.acceptor = none
  accepting : s.accepting = false
  loops : ∀ loop ∈ s.table.loops, loop = newEventLoop
  kernel : ∀ fd, s.kernel fd = none

/-- The constructor of `TcpServer`. -/
def newServer : Server Fd := ⟨.stopped, none, false, ⟨0, 0, []⟩, fun _ => none⟩

omit [DecidableEq Fd] in
theorem stopped_newServer : (newServer : Server Fd).Stopped :=
  ⟨rfl, rfl, rfl, nofun, fun _ => rfl⟩

/-- A connection can be registered with the loop, whose thread runs. -/
structure Server.Live (s : Server Fd) (loop : Loop Fd) : Prop where
  state : loop.state = .started
  running : loop.running = true
  epoll : ∃ fd, loop.epoll = some fd ∧ s.kernel fd = some .epoll

/-- The server listens, has a loop, and every connection finds a live one, in any run of
`Accept`. -/
structure Server.Serving (s : Server Fd) : Prop where
  listening : ∃ fd, s.acceptor = some fd ∧ s.kernel fd = some (.socket true true)
  nonempty : s.table.loops ≠ []
  live : ∀ loop ∈ s.table.loops, s.Live loop
  dispatch : ∀ streams : List (Option Fd), ∃ ds, s.table.calls LoopTable.accept streams = some ds ∧
    ∀ d ∈ ds, s.Live d.loop

/-- What the result of `Start` says about the server. -/
def Server.Truthful (s : Server Fd) : Option Bool → Prop
  | some true => s.Serving
  | some false => s.Stopped
  | none => True

/-- `socket` or `bind` fails, or the number of loops is negative, or all goes well. -/
def Answers.Sound (a : Answers Fd) (workThreadNum : BitVec 32) : Prop :=
  a.socket = none ∨ a.bind = false ∨ workThreadNum.toInt < 0 ∨
    (a.listen = true ∧ 0 < workThreadNum.toInt ∧
      ∀ i < workThreadNum.toInt.toNat, (a.epoll i).isSome)

/-! ## The loops -/

section Group

variable {epoll : ℕ → Option Fd} {k : Kernel Fd}

theorem startLoops_fst (n : ℕ) : (startLoops epoll k n).1 =
    (List.range n).map fun i => ⟨.started, epoll i, true⟩ := by
  induction n with
  | zero => rfl
  | succ n ih => simp [startLoops, Loop.start, ih, List.range_succ]

theorem mem_startLoops {n : ℕ} {loop : Loop Fd} :
    loop ∈ (startLoops epoll k n).1 ↔ ∃ i < n, loop = ⟨.started, epoll i, true⟩ := by
  simp only [startLoops_fst, List.mem_map, List.mem_range, eq_comm]

/-- The descriptors of the loops are open. -/
theorem startLoops_snd_epoll {n i : ℕ} {fd : Fd} (hi : i < n) (hfd : epoll i = some fd) :
    (startLoops epoll k n).2 fd = some .epoll := by
  induction n with
  | zero => exact absurd hi (Nat.not_lt_zero i)
  | succ n ih =>
    show (startLoops epoll k n).2.set (epoll n) (some .epoll) fd = some .epoll
    unfold Kernel.set
    split
    · rfl
    · next hne =>
      have hin : i ≠ n := by
        rintro rfl
        exact hne hfd
      exact ih (by omega)

/-- Other descriptors are as they were. -/
theorem startLoops_snd_of_ne {n : ℕ} {fd : Fd} (hfd : ∀ i, epoll i ≠ some fd) :
    (startLoops epoll k n).2 fd = k fd := by
  induction n with
  | zero => rfl
  | succ n ih =>
    show (startLoops epoll k n).2.set (epoll n) (some .epoll) fd = k fd
    rw [Kernel.set, if_neg (hfd n)]
    exact ih

end Group

/-! ## The report -/

section Report

variable {s : Server Fd} {a : Answers Fd} {n : BitVec 32}

/-- A failure of `socket` or `bind` leaves nothing behind. -/
theorem stopped_of_openAcceptor (hs : s.Stopped) (h : a.socket = none ∨ a.bind = false) :
    ∃ s', s.start a n = some (s', some false) ∧ s'.Stopped := by
  cases hsocket : a.socket with
  | none =>
    refine ⟨{ s with acceptor := none }, ?_, hs.state, rfl, hs.accepting, hs.loops, hs.kernel⟩
    simp [Server.start, hs.state, openAcceptor, hsocket]
  | some fd =>
    have hbind : a.bind = false := h.resolve_left (by simp [hsocket])
    refine ⟨⟨s.state, none, s.accepting, s.table,
      (s.kernel.set (some fd) (some (.socket false false))).set (some fd) none⟩, ?_,
      hs.state, rfl, hs.accepting, hs.loops, fun fd' => ?_⟩
    · simp [Server.start, hs.state, openAcceptor, hsocket, hbind]
    · simp [Kernel.set, hs.kernel fd']

/-- The server that `Start` leaves when it returns `true`. -/
def Server.afterStart (s : Server Fd) (a : Answers Fd) (n : BitVec 32) (fd : Fd) : Server Fd :=
  let (loops, k) := startLoops a.epoll ((s.kernel.set (some fd) (some (.socket false false))).set
    (some fd) (some (.socket true a.listen))) n.toInt.toNat
  ⟨.started, some fd, true, ⟨s.table.nextLoopIndex, n, loops⟩, k⟩

theorem start_of_bound {fd : Fd} (hs : s.Stopped) (hsocket : a.socket = some fd)
    (hbind : a.bind = true) :
    (n.toInt < 0 → ∃ s', s.start a n = some (s', none)) ∧
      (0 ≤ n.toInt → s.start a n = some (s.afterStart a n fd, some true)) := by
  have hold : ∀ loop ∈ s.table.loops, loop.state = .stopped := by
    intro loop hloop
    rw [hs.loops loop hloop]
    rfl
  constructor
  · intro hneg
    simp only [Server.start, hs.state, openAcceptor, hsocket, hbind, startGroup, hneg, if_true,
      Option.some.injEq, Prod.mk.injEq, and_true, exists_eq']
  · intro hpos
    simp only [Server.start, hs.state, openAcceptor, hsocket, hbind, startGroup,
      if_neg (not_lt.mpr hpos), if_pos hold, if_true]
    rfl

omit [DecidableEq Fd] in
theorem toNat_of_nonneg (hn : 0 ≤ n.toInt) : n.toNat = n.toInt.toNat := by
  rw [BitVec.toInt_eq_toNat_of_msb, Int.toNat_natCast]
  rw [BitVec.msb_eq_toInt, decide_eq_false_iff_not]
  omega

section After

variable {fd : Fd}

theorem afterStart_kernel (hsocket : a.socket = some fd) :
    (s.afterStart a n fd).kernel fd = some (.socket true a.listen) := by
  have hother := startLoops_snd_of_ne
    (k := (s.kernel.set (some fd) (some (.socket false false))).set (some fd)
      (some (.socket true a.listen)))
    (n := n.toInt.toNat) fun i => a.socket_ne_epoll fd i hsocket
  rw [Kernel.set, if_pos rfl] at hother
  exact hother

theorem mem_afterStart {loop : Loop Fd} : loop ∈ (s.afterStart a n fd).table.loops ↔
    ∃ i < n.toInt.toNat, loop = ⟨.started, a.epoll i, true⟩ := mem_startLoops

theorem afterStart_started (hn : 0 < n.toInt) : (s.afterStart a n fd).table.Started := by
  have hlen : (s.afterStart a n fd).table.loops.length = n.toInt.toNat := by
    simp only [Server.afterStart, startLoops_fst, List.length_map, List.length_range]
  refine ⟨(toNat_of_nonneg hn.le).trans hlen.symm, ?_⟩
  rw [← List.length_pos_iff, hlen]
  omega

/-- What is behind the `true` of `Start`. -/
theorem serving_iff (hsocket : a.socket = some fd) (hn : 0 ≤ n.toInt) :
    (s.afterStart a n fd).Serving ↔
      a.listen = true ∧ 0 < n.toInt ∧ ∀ i < n.toInt.toNat, (a.epoll i).isSome := by
  constructor
  · intro h
    refine ⟨?_, ?_, fun i hi => ?_⟩
    · obtain ⟨fd', hfd, hk⟩ := h.listening
      obtain rfl : fd = fd' := Option.some.inj hfd
      simpa [afterStart_kernel hsocket] using hk
    · obtain ⟨loop, hloop⟩ := List.exists_mem_of_ne_nil _ h.nonempty
      obtain ⟨i, hi, -⟩ := mem_afterStart.mp hloop
      omega
    · obtain ⟨fd', hepoll, -⟩ := (h.live _ (mem_afterStart.mpr ⟨i, hi, rfl⟩)).epoll
      exact Option.isSome_iff_exists.mpr ⟨fd', hepoll⟩
  · rintro ⟨hlisten, hpos, hepoll⟩
    have hlive : ∀ loop ∈ (s.afterStart a n fd).table.loops, (s.afterStart a n fd).Live loop := by
      intro loop hloop
      obtain ⟨i, hi, rfl⟩ := mem_afterStart.mp hloop
      obtain ⟨fd', hfd⟩ := Option.isSome_iff_exists.mp (hepoll i hi)
      exact ⟨rfl, rfl, fd', hfd, startLoops_snd_epoll hi hfd⟩
    have hstarted : (s.afterStart a n fd).table.Started := afterStart_started hpos
    refine ⟨⟨fd, rfl, ?_⟩, hstarted.nonempty, hlive, fun streams => ?_⟩
    · rw [afterStart_kernel hsocket, hlisten]
    · obtain ⟨ds, hcalls, hloops, -⟩ := calls_accept hstarted streams
      exact ⟨ds, hcalls, fun d hd => hlive d.loop (hloops d hd)⟩

end After

/-- **When `Start` reports the truth**, from any stopped server: exactly when `socket` or `bind`
fails, when it throws, or when all goes well and there is a loop. -/
theorem start_truthful_iff (hs : s.Stopped) :
    ∃ s' r, s.start a n = some (s', r) ∧ (s'.Truthful r ↔ a.Sound n) := by
  by_cases hopen : a.socket = none ∨ a.bind = false
  · obtain ⟨s', hstart, hstopped⟩ := stopped_of_openAcceptor (n := n) hs hopen
    refine ⟨s', some false, hstart, iff_of_true hstopped ?_⟩
    rcases hopen with h | h
    · exact .inl h
    · exact .inr (.inl h)
  · obtain ⟨hsocket, hbind⟩ := not_or.mp hopen
    obtain ⟨fd, hfd⟩ := Option.ne_none_iff_exists'.mp hsocket
    obtain ⟨hthrow, hreturn⟩ := start_of_bound (n := n) hs hfd (by simpa using hbind)
    rcases lt_or_ge n.toInt 0 with hneg | hpos
    · obtain ⟨s', hstart⟩ := hthrow hneg
      exact ⟨s', none, hstart, iff_of_true trivial (.inr (.inr (.inl hneg)))⟩
    · refine ⟨_, some true, hreturn hpos, (serving_iff hfd hpos).trans ?_⟩
      simp [Answers.Sound, hsocket, hbind, not_lt.mpr hpos]

/-- The socket is `3`, the epoll descriptors come after it, and `listen` answers as given. -/
def answers (listen : Bool) : Answers ℕ where
  socket := some 3
  bind := true
  listen := listen
  epoll i := some (i + 4)
  socket_ne_epoll fd i h h' := by
    cases h
    cases h'
  epoll_injective fd i j h h' := by
    have he := Option.some.inj (h.trans h'.symm)
    omega

/-- A new server with two loops, where all goes well. -/
theorem start_truthful_two : ∃ s : Server ℕ,
    newServer.start (answers true) 2 = some (s, some true) ∧ s.Serving := by
  obtain ⟨s, r, hstart, hiff⟩ := start_truthful_iff (a := answers true) (n := 2) stopped_newServer
  obtain rfl : r = some true := by
    have hr : (newServer.start (answers true) 2).map Prod.snd = some (some true) := by decide
    rw [hstart] at hr
    exact Option.some.inj hr
  refine ⟨s, hstart, hiff.mpr (.inr (.inr (.inr ⟨rfl, by decide, fun i _ => rfl⟩)))⟩

/-- `listen` fails, and `Start` returns `true`. -/
theorem listen_ignored : ¬∀ (s s' : Server ℕ) (a : Answers ℕ) (n : BitVec 32) (r : Option Bool),
    s.Stopped → s.start a n = some (s', r) → s'.Truthful r := by
  intro h
  obtain ⟨s', hstart, hfd, hkernel⟩ : ∃ s' : Server ℕ,
      newServer.start (answers false) 2 = some (s', some true) ∧ s'.acceptor = some 3 ∧
        s'.kernel 3 = some (.socket true false) :=
    ⟨_, rfl, rfl, rfl⟩
  obtain ⟨fd, hfd', hlistening⟩ := (h _ _ _ _ _ stopped_newServer hstart).listening
  obtain rfl := Option.some.inj (hfd.symm.trans hfd')
  rw [hkernel] at hlistening
  cases hlistening

end Report

end Xfnet.TcpServer
