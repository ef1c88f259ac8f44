import Xfnet.EventLoop.Registration
import Xfnet.Foundations.Mutex
import Xfnet.Foundations.Outbox
import Xfnet.Stream.Nonblocking

/-!
# The send queue of the example server

`TestEventHandler::Send`, called by any threads (the loop thread calls it in `HandleRead`), and
`TestEventHandler::HandleWrite` of the loop thread, one lock, one unlock and one system call at a
time. `m_send_datas` and the interest of the
handler are under `m_mutex`; `m_send_ptr` and `m_send_size` belong to the loop thread, which sends
without the lock and takes it to pick the front packet, to pop it, and to switch `EVENT_WRITE` off
when there is none.

The whole is an outbox (`refines_outbox`): a packet is posted where it is pushed, taken where it is
picked, and finished where `Stream::Send` returns `1`.
-/

namespace Xfnet.SendQueue

open EventLoop Loops Mutex Transition Xfnet.Stream

/-- `EventHandler::EVENT_WRITE`. -/
def eventWrite : ℕ := epollOut

/-- `EventHandler::EVENT_READWRITE`. -/
def eventReadWrite : ℕ := eventRead ||| eventWrite

/-- The events include `EVENT_WRITE`. -/
def watchesWrite (events : ℕ) : Bool := decide (events &&& eventWrite = eventWrite)

theorem watchesWrite_read : watchesWrite eventRead = false := by decide

theorem watchesWrite_readWrite : watchesWrite eventReadWrite = true := by decide

/-- Who can hold `m_mutex`. -/
inductive Holder (T : Type*)
  | loop
  | sender (t : T)
  deriving DecidableEq

/-- An element of `m_send_datas`. The number tells packets with the same bytes apart. -/
structure Packet where
  number : ℕ
  data : List UInt8
  deriving DecidableEq

/-- Where the loop thread is: outside `HandleWrite`, or before one of its statements. -/
inductive LoopPc
  | idle
  /-- `if(m_send_size == 0)` -/
  | top
  | lockPick
  /-- `if(m_send_datas.empty())` -/
  | picking
  /-- `m_loop->Modify(this, EVENT_READ);` -/
  | watchRead
  | unlockBreak
  | unlockPick
  /-- at `write` in `m_stream.Send(m_send_ptr, m_send_size)` -/
  | sending
  /-- `m_loop->Unregister(this);` -/
  | unregistering
  | lockPop
  /-- `m_send_datas.pop_front();` -/
  | popping
  | unlockPop
  /-- an assertion has failed -/
  | aborted
  deriving DecidableEq

/-- Where another thread is: outside `Send`, or before one of its statements. -/
inductive SenderPc
  | idle
  | locking (data : List UInt8)
  /-- `m_send_datas.push_back(data);` -/
  | pushing (data : List UInt8)
  /-- `m_loop->Modify(this, EVENT_READWRITE);` -/
  | modifying
  | unlocking
  deriving DecidableEq

def LoopPc.locked : LoopPc → Bool
  | picking | watchRead | unlockBreak | unlockPick | popping | unlockPop => true
  | _ => false

def SenderPc.locked : SenderPc → Bool
  | pushing _ | modifying | unlocking => true
  | _ => false

/-- The handler. `sendPtr` is the packet that `m_send_ptr` points into, and `sendCursor` the place
in it with `m_send_size`. All packets that were ever pushed are in `queued`, and those for which
`Stream::Send` returned `1` in `completed`. -/
structure State (T : Type*) where
  registered : Bool
  interest : ℕ
  mutex : Option (Holder T)
  sendDatas : List Packet
  sendPtr : Packet
  sendCursor : Transfer
  pc : LoopPc
  senders : T → SenderPc
  queued : List Packet
  completed : List Packet

/-- A thread calls `Send`, or takes its next step; the loop thread calls `HandleWrite`, takes its
next step, or gets an answer from `write`. When the step is `Modify`, `ok` is its result. -/
inductive Label (T : Type*)
  | send (t : T) (data : List UInt8)
  | sender (t : T) (ok : Bool)
  | handleWrite
  | loop (ok : Bool)
  | write (o : Syscall)

namespace State

variable {T : Type*}

/-- The handler after `Register(handler, EVENT_READ)`. -/
def registeredHandler (T : Type*) : State T where
  registered := true
  interest := eventRead
  mutex := none
  sendDatas := []
  sendPtr := ⟨0, []⟩
  sendCursor := .fresh 0 0 (.other 0)
  pc := .idle
  senders _ := .idle
  queued := []
  completed := []

/-- `m_loop->Modify(this, events)`. It can succeed for a registered handler only. -/
def modify (s : State T) (events : ℕ) (ok : Bool) : Option (State T) :=
  if ok then
    if s.registered then some { s with interest := events } else none
  else some s

/-- What follows `Stream::Send`. -/
def afterSend (s : State T) : Act Transfer ℤ → State T
  | .running t => { s with sendCursor := t, pc := .sending }
  | .returned r t =>
    if r < 0 then { s with sendCursor := t, pc := .unregistering }
    else if r = 0 then { s with sendCursor := t, pc := .idle }
    else if t.size = 0 then
      { s with sendCursor := t, pc := .lockPop, completed := s.completed ++ [s.sendPtr] }
    else { s with sendCursor := t, pc := .aborted }
  | .aborted => { s with pc := .aborted }

/-- The next step of `HandleWrite`, where it is not a system call of `Stream::Send`. -/
def loopStep (s : State T) (ok : Bool) : Option (State T) :=
  match s.pc with
  | .top =>
    if s.sendCursor.size = 0 then some { s with pc := .lockPick }
    else some (s.afterSend (send.enter s.sendCursor))
  | .lockPick =>
    if s.mutex.isNone then some { s with mutex := some .loop, pc := .picking } else none
  | .picking =>
    match s.sendDatas with
    | [] => some { s with pc := .watchRead }
    | packet :: _ =>
      some { s with
        sendPtr := packet
        sendCursor := .fresh 0 packet.data.length s.sendCursor.errno
        pc := .unlockPick }
  | .watchRead => (s.modify eventRead ok).map fun s => { s with pc := .unlockBreak }
  | .unlockBreak => some { s with mutex := none, pc := .idle }
  | .unlockPick => some ({ s with mutex := none }.afterSend (send.enter s.sendCursor))
  | .unregistering => some { s with registered := false, pc := .idle }
  | .lockPop =>
    if s.mutex.isNone then some { s with mutex := some .loop, pc := .popping } else none
  | .popping =>
    match s.sendDatas with
    | [] => some { s with pc := .aborted }
    | _ :: rest => some { s with sendDatas := rest, pc := .unlockPop }
  | .unlockPop => some { s with mutex := none, pc := .top }
  | .idle | .sending | .aborted => none

variable [DecidableEq T]

def setSender (s : State T) (t : T) (p : SenderPc) : State T :=
  { s with senders := Function.update s.senders t p }

/-- The next step of `Send` of the thread. -/
def senderStep (s : State T) (t : T) (ok : Bool) : Option (State T) :=
  match s.senders t with
  | .idle => none
  | .locking data =>
    if s.mutex.isNone then
      some ({ s with mutex := some (.sender t) }.setSender t (.pushing data))
    else none
  | .pushing data =>
    let packet : Packet := ⟨s.queued.length, data⟩
    some ({ s with
      sendDatas := s.sendDatas ++ [packet]
      queued := s.queued ++ [packet] }.setSender t .modifying)
  | .modifying => (s.modify eventReadWrite ok).map fun s => s.setSender t .unlocking
  | .unlocking => some ({ s with mutex := none }.setSender t .idle)

def next (s : State T) : Label T → Option (State T)
  | .send t data =>
    if s.senders t = .idle ∧ s.registered then some (s.setSender t (.locking data)) else none
  | .sender t ok => s.senderStep t ok
  | .handleWrite =>
    if s.pc = .idle ∧ s.registered then some { s with pc := .top } else none
  | .loop ok => s.loopStep ok
  | .write o =>
    if s.pc = .sending then (send.step (.running s.sendCursor) o).map s.afterSend else none

end State

/-- A handler on which any of the threads `T` call `Send`. -/
def handler (T : Type*) [DecidableEq T] : System (State T) (Label T) where
  init s := s = .registeredHandler T
  next := State.next

/-- No `Modify` fails. -/
def Succeeds {T : Type*} (_ : State T) : Label T → Prop
  | .sender _ ok | .loop ok => ok = true
  | _ => True

instance {T : Type*} (s : State T) : DecidablePred (Succeeds s)
  | .sender _ ok | .loop ok => inferInstanceAs (Decidable (ok = true))
  | .send .. | .handleWrite | .write _ => isTrue trivial

/-! ## `Stream::Send` -/

section Sent

variable {t : Transfer} {o : Syscall} {a : Act Transfer ℤ}

/-- Where `Stream::Send` is: waiting for `write` with bytes left, stopped before the end of the
packet, or done with the whole packet. -/
inductive Sent : Act Transfer ℤ → Prop
  | more {t : Transfer} : 0 < t.size → Sent (.running t)
  | stopped {r : ℤ} {t : Transfer} : r ≤ 0 → 0 < t.size → Sent (.returned r t)
  | whole {t : Transfer} : t.size = 0 → Sent (.returned 1 t)

theorem sent_enter (t : Transfer) : Sent (send.enter t) := by
  by_cases ht : 0 < t.size
  · rw [Loop.enter_of_guard (by simpa [send] using ht)]
    exact .more ht
  · rw [Loop.enter_of_not_guard (by simpa [send] using ht)]
    exact .whole (Nat.eq_zero_of_not_pos ht)

theorem sent_step (ht : 0 < t.size) (h : send.step (.running t) o = some a) : Sent a := by
  obtain ⟨-, rfl⟩ := Loop.step_running h
  rcases body_cases none t o with ⟨r, hb, hr⟩ | hb | ⟨w, -, -, hb⟩
  · have hret : send.body t o = .ret r (t.kernel o) := hb
    rw [hret]
    refine .stopped ?_ (by rwa [Transfer.kernel_size])
    simp only [Option.getD_none, List.mem_cons, List.not_mem_nil, or_false] at hr
    omega
  · have hnext : send.body t o = .next (t.kernel o) := hb
    rw [hnext]
    exact sent_enter _
  · have hnext : send.body t o = .next ((t.kernel o).advance w) := hb
    rw [hnext]
    exact sent_enter _

end Sent

/-! ## The invariant -/

namespace State

variable {T : Type*}

/-- Who is between a lock and its unlock. -/
def inside (s : State T) : Holder T → Bool
  | .loop => s.pc.locked
  | .sender t => (s.senders t).locked

/-- What the place of the loop thread says about the members. -/
def LoopFacts (s : State T) : Prop :=
  match s.pc with
  | .lockPick | .picking | .lockPop | .popping | .unlockPop => s.sendCursor.size = 0
  | .watchRead | .unlockBreak => s.sendCursor.size = 0 ∧ s.sendDatas = []
  | .sending => 0 < s.sendCursor.size
  | .aborted => False
  | .idle | .top | .unlockPick | .unregistering => True

structure Inv (s : State T) : Prop where
  guarded : Guarded s.mutex s.inside
  facts : s.LoopFacts
  numbers : s.queued.map Packet.number = List.range s.queued.length

/-- Whether the front packet is being sent. It is taken where it is picked, and finished where
`Stream::Send` returns `1`. -/
def phase (s : State T) : Outbox.Phase Packet :=
  match s.pc with
  | .lockPop | .popping => .served
  | .unlockPick => .serving s.sendPtr
  | _ => if s.sendCursor.size = 0 then .ready else .serving s.sendPtr

/-- The packets in the queue that are not completed. A completed one is still its front until the
loop thread pops it. -/
def uncompleted (s : State T) : List Packet :=
  match s.pc with
  | .lockPop | .popping => s.sendDatas.tail
  | _ => s.sendDatas

/-- The holder of the mutex is about to watch `EVENT_WRITE`. -/
def arming (s : State T) : Bool :=
  match s.mutex with
  | some (.sender t) => decide (s.senders t = .modifying)
  | _ => false

/-- The handler as an outbox, whose switch is `EVENT_WRITE`. -/
def outbox (s : State T) : Outbox.State Packet where
  posted := s.queued
  waiting := s.sendDatas
  done := s.completed
  phase := s.phase
  armed := watchesWrite s.interest || s.arming

end State

section Steps

variable {T : Type*} {s s' : State T} {t : T} {ok : Bool} {a : Act Transfer ℤ}

/-- Where `Stream::Send` leaves the loop thread: in the packet, or at its end. -/
theorem afterSend_cases (s : State T) (h : Sent a) :
    (∃ u pc, 0 < u.size ∧ (pc = .sending ∨ pc = .unregistering ∨ pc = .idle) ∧
        s.afterSend a = { s with sendCursor := u, pc := pc }) ∨
      ∃ u : Transfer, u.size = 0 ∧ s.afterSend a =
        { s with sendCursor := u, pc := .lockPop, completed := s.completed ++ [s.sendPtr] } := by
  cases h with
  | @more u hu => exact .inl ⟨u, .sending, hu, .inl rfl, rfl⟩
  | @stopped r u hr hu =>
    rcases hr.lt_or_eq with hneg | rfl
    · exact .inl ⟨u, .unregistering, hu, .inr (.inl rfl), if_pos hneg⟩
    · exact .inl ⟨u, .idle, hu, .inr (.inr rfl), rfl⟩
  | @whole u hu => exact .inr ⟨u, hu, if_pos hu⟩

/-- `Modify` touches the interest only. -/
theorem modify_cases {events : ℕ} (h : s.modify events true = some s') :
    s' = { s with interest := events } := by
  simp only [State.modify, if_true, Option.ite_none_right_eq_some, Option.some.injEq] at h
  exact h.2.symm

/-- What a step keeps: the invariant, and that the handler moves as an outbox, or not at all. -/
def Advances (s s' : State T) : Prop :=
  s'.Inv ∧ (s'.outbox = s.outbox ∨ ∃ k, s.outbox.next k = some s'.outbox)

/-! ### The loop thread -/

/-- Who is inside when the loop thread is not. -/
def State.loopOutside (s : State T) : Holder T → Bool
  | .loop => false
  | .sender t => (s.senders t).locked

/-- The loop thread takes the mutex. -/
theorem guarded_lock (h : Guarded s.mutex s.inside) (hfree : s.mutex.isNone = true) {pc : LoopPc}
    (hpc : pc.locked = true) :
    Guarded (some .loop) (State.inside { s with mutex := some .loop, pc := pc }) := by
  refine h.acquire (Option.isNone_iff_eq_none.mp hfree) hpc fun j hj => ?_
  cases j with
  | loop => exact absurd rfl hj
  | sender t => rfl

/-- The loop thread gives the mutex back. -/
theorem guarded_unlock (h : Guarded s.mutex s.inside) (hpc : s.pc.locked = true) :
    Guarded none s.loopOutside := by
  refine h.release (k := .loop) hpc rfl fun j hj => ?_
  cases j with
  | loop => exact absurd rfl hj
  | sender t => rfl

/-- The loop thread goes on where it holds the mutex as before. -/
theorem guarded_goOn (h : Guarded s.mutex s.inside) (hsenders : s'.senders = s.senders)
    (hpc : s'.pc.locked = s.pc.locked) : Guarded s.mutex s'.inside := by
  refine h.keep fun j => ?_
  cases j with
  | loop => exact hpc
  | sender t => exact congrArg SenderPc.locked (congrFun hsenders t)

/-- The loop thread goes on without the mutex. -/
theorem guarded_outside {mutex : Option (Holder T)} (h : Guarded mutex s.loopOutside)
    (hsenders : s'.senders = s.senders) (hpc : s'.pc.locked = false) : Guarded mutex s'.inside := by
  refine h.keep fun j => ?_
  cases j with
  | loop => exact hpc
  | sender t => exact congrArg SenderPc.locked (congrFun hsenders t)

theorem guarded_loopOutside (h : Guarded s.mutex s.inside) (hpc : s.pc.locked = false) :
    Guarded s.mutex s.loopOutside := by
  refine h.keep fun j => ?_
  cases j with
  | loop => exact hpc.symm
  | sender t => rfl

theorem phase_of_size {u : Transfer} {pc : LoopPc} (hu : 0 < u.size)
    (hpc : pc = .sending ∨ pc = .unregistering ∨ pc = .idle) :
    State.phase { s with sendCursor := u, pc := pc } = .serving s.sendPtr := by
  rcases hpc with rfl | rfl | rfl <;> exact if_neg hu.ne'

/-- **`Stream::Send`** stays in the packet, or finishes it. -/
theorem advances_afterSend (ha : Sent a) (hguarded : Guarded s.mutex s.loopOutside)
    (hnumbers : s.queued.map Packet.number = List.range s.queued.length)
    (hphase : s.phase = .serving s.sendPtr) : Advances s (s.afterSend a) := by
  rcases afterSend_cases s ha with ⟨u, pc, hu, hpc, heq⟩ | ⟨u, hu, heq⟩
  · rw [heq]
    have hphase' := phase_of_size (s := s) hu hpc
    refine ⟨⟨guarded_outside hguarded rfl ?_, ?_, hnumbers⟩, .inl ?_⟩
    · rcases hpc with rfl | rfl | rfl <;> rfl
    · rcases hpc with rfl | rfl | rfl
      · exact hu
      · trivial
      · trivial
    · exact Outbox.State.ext rfl rfl rfl (hphase'.trans hphase.symm) rfl
  · rw [heq]
    exact ⟨⟨guarded_outside hguarded rfl rfl, hu, hnumbers⟩,
      .inr ⟨.finish, Outbox.next_finish hphase⟩⟩

/-- **A step of the loop thread** that is not a system call of `Stream::Send`. -/
theorem advances_loopStep (hi : s.Inv) (ho : s.outbox.Orderly) (h : s.loopStep true = some s') :
    Advances s s' := by
  obtain ⟨registered, interest, mutex, sendDatas, sendPtr, sendCursor, pc, senders, queued,
    completed⟩ := s
  obtain ⟨hguarded, hfacts, hnumbers⟩ := hi
  cases pc with
  | idle | sending | aborted => cases h
  | top =>
    simp only [State.loopStep] at h
    split at h
    · next hsize =>
      cases h
      exact ⟨⟨guarded_goOn hguarded rfl rfl, hsize, hnumbers⟩, .inl rfl⟩
    · next hsize =>
      cases h
      exact advances_afterSend (sent_enter _) (guarded_loopOutside hguarded rfl) hnumbers
        (if_neg hsize)
  | lockPick =>
    obtain ⟨hfree, h⟩ := Option.ite_none_right_eq_some.mp h
    cases h
    obtain rfl := Option.isNone_iff_eq_none.mp hfree
    exact ⟨⟨guarded_lock hguarded rfl rfl, hfacts, hnumbers⟩, .inl rfl⟩
  | picking =>
    cases sendDatas with
    | nil =>
      cases h
      exact ⟨⟨guarded_goOn hguarded rfl rfl, ⟨hfacts, rfl⟩, hnumbers⟩, .inl rfl⟩
    | cons packet rest =>
      cases h
      exact ⟨⟨guarded_goOn hguarded rfl rfl, trivial, hnumbers⟩,
        .inr ⟨.take, Outbox.next_take (if_pos hfacts) rfl⟩⟩
  | watchRead =>
    obtain ⟨s₁, hmodify, h⟩ := Option.map_eq_some_iff.mp h
    obtain rfl := modify_cases hmodify
    cases h
    obtain ⟨hsize, rfl⟩ := hfacts
    obtain rfl := hguarded.holder_eq (k := .loop) rfl
    refine ⟨⟨guarded_goOn hguarded rfl rfl, ⟨hsize, rfl⟩, hnumbers⟩, .inr ⟨.disarm, ?_⟩⟩
    rw [Outbox.next_disarm (if_pos hsize) rfl]
    refine congrArg some (Outbox.State.ext rfl rfl rfl rfl ?_)
    simp only [State.outbox, watchesWrite_read]
    rfl
  | unlockBreak =>
    cases h
    obtain rfl := hguarded.holder_eq (k := .loop) rfl
    exact ⟨⟨guarded_outside (guarded_unlock hguarded rfl) rfl rfl, trivial, hnumbers⟩, .inl rfl⟩
  | unlockPick =>
    cases h
    obtain rfl := hguarded.holder_eq (k := .loop) rfl
    have hout := guarded_unlock hguarded rfl
    exact advances_afterSend (sent_enter _) hout hnumbers rfl
  | unregistering =>
    cases h
    exact ⟨⟨guarded_goOn hguarded rfl rfl, trivial, hnumbers⟩, .inl rfl⟩
  | lockPop =>
    obtain ⟨hfree, h⟩ := Option.ite_none_right_eq_some.mp h
    cases h
    obtain rfl := Option.isNone_iff_eq_none.mp hfree
    exact ⟨⟨guarded_lock hguarded rfl rfl, hfacts, hnumbers⟩, .inl rfl⟩
  | popping =>
    cases sendDatas with
    | nil => exact absurd rfl (ho.served rfl)
    | cons packet rest =>
      cases h
      have hsize : sendCursor.size = 0 := hfacts
      refine ⟨⟨guarded_goOn hguarded rfl rfl, hfacts, hnumbers⟩, .inr ⟨.remove, ?_⟩⟩
      rw [Outbox.next_remove rfl rfl]
      exact congrArg some (Outbox.State.ext rfl rfl rfl (if_pos hsize).symm rfl)
  | unlockPop =>
    cases h
    obtain rfl := hguarded.holder_eq (k := .loop) rfl
    exact ⟨⟨guarded_outside (guarded_unlock hguarded rfl) rfl rfl, trivial, hnumbers⟩, .inl rfl⟩

/-! ### The other threads -/

variable [DecidableEq T] {p : SenderPc} {data : List UInt8}

@[simp] theorem senders_setSender (s : State T) (t : T) (p : SenderPc) :
    (s.setSender t p).senders t = p :=
  Function.update_self ..

theorem senders_setSender_of_ne {u : T} (h : u ≠ t) : (s.setSender t p).senders u = s.senders u :=
  Function.update_of_ne h ..

theorem inside_setSender_of_ne {j : Holder T} (h : j ≠ .sender t) :
    (s.setSender t p).inside j = s.inside j := by
  cases j with
  | loop => rfl
  | sender u => exact congrArg SenderPc.locked (senders_setSender_of_ne fun e => h (e ▸ rfl))

theorem inside_setSender (s : State T) (t : T) (p : SenderPc) :
    (s.setSender t p).inside (.sender t) = p.locked :=
  congrArg SenderPc.locked (senders_setSender s t p)

/-- A thread goes on where it holds the mutex as before. -/
theorem guarded_setSender (h : Guarded s.mutex s.inside)
    (hp : p.locked = (s.senders t).locked) : Guarded s.mutex (s.setSender t p).inside := by
  refine h.keep fun j => ?_
  by_cases hj : j = .sender t
  · subst hj
    rw [inside_setSender, hp]
    rfl
  · exact inside_setSender_of_ne hj

omit [DecidableEq T] in
/-- Whoever is about to watch `EVENT_WRITE` holds the mutex. -/
theorem arming_iff (h : Guarded s.mutex s.inside) :
    s.arming = true ↔ ∃ t, s.senders t = .modifying := by
  constructor
  · intro ha
    unfold State.arming at ha
    split at ha
    · next t _ => exact ⟨t, of_decide_eq_true ha⟩
    · cases ha
  · rintro ⟨t, ht⟩
    have hin : s.inside (.sender t) = true := congrArg SenderPc.locked ht
    rw [State.arming, h.holder_eq hin]
    exact decide_eq_true ht

/-- A thread that neither comes to its `Modify` nor leaves it does not move the outbox. -/
theorem outbox_setSender {mutex : Option (Holder T)} (h : Guarded s.mutex s.inside)
    (h' : Guarded mutex (s.setSender t p).inside) (hs : s.senders t ≠ .modifying)
    (hp : p ≠ .modifying) : ({ s with mutex := mutex }.setSender t p).outbox = s.outbox := by
  have harming : ({ s with mutex := mutex }.setSender t p).arming = s.arming := by
    rw [Bool.eq_iff_iff, arming_iff h, arming_iff h']
    refine exists_congr fun u => ?_
    by_cases hu : u = t
    · subst hu
      rw [senders_setSender]
      exact ⟨fun e => absurd e hp, fun e => absurd e hs⟩
    · rw [senders_setSender_of_ne hu]
  exact Outbox.State.ext rfl rfl rfl rfl (congrArg (_ || ·) harming)

/-- **A step of a call of `Send`.** -/
theorem advances_senderStep (hi : s.Inv) (h : s.senderStep t true = some s') : Advances s s' := by
  have hguarded := hi.guarded
  cases hp : s.senders t with
  | idle =>
    simp only [State.senderStep, hp] at h
    cases h
  | locking data =>
    simp only [State.senderStep, hp, Option.ite_none_right_eq_some, Option.some.injEq] at h
    obtain ⟨hfree, rfl⟩ := h
    have hguarded' : Guarded (some (.sender t)) (s.setSender t (.pushing data)).inside :=
      hguarded.acquire (Option.isNone_iff_eq_none.mp hfree) (inside_setSender ..)
        fun j hj => inside_setSender_of_ne hj
    exact ⟨⟨hguarded', hi.facts, hi.numbers⟩,
      .inl (outbox_setSender hguarded hguarded' (by rw [hp]; nofun) nofun)⟩
  | pushing data =>
    simp only [State.senderStep, hp, Option.some.injEq] at h
    subst h
    have hin : s.inside (.sender t) = true := congrArg SenderPc.locked hp
    have hguarded' : Guarded s.mutex (s.setSender t .modifying).inside :=
      guarded_setSender hguarded (by rw [hp]; rfl)
    refine ⟨⟨hguarded', ?_, ?_⟩, .inr ⟨.post ⟨s.queued.length, data⟩, ?_⟩⟩
    · -- the loop thread is not between its look at the queue and its unlock
      have hfacts := hi.facts
      have hout : s.pc.locked = false := by
        by_contra hlocked
        have hloop : s.inside .loop = true := Bool.eq_true_of_not_eq_false hlocked
        cases hguarded.eq_of_inside hin hloop
      unfold State.LoopFacts at hfacts ⊢
      cases hpc : s.pc <;> rw [hpc] at hfacts hout <;> first | exact hfacts | cases hout
    · show (s.queued ++ _).map Packet.number = List.range (s.queued ++ _).length
      rw [List.map_append, hi.numbers, List.length_append, List.length_singleton,
        List.range_succ, List.map_singleton]
    · have harming : (s.setSender t .modifying).arming = true :=
        (arming_iff hguarded').mpr ⟨t, senders_setSender ..⟩
      have harmed (watched : Bool) : true = (watched || (s.setSender t .modifying).arming) := by
        rw [harming, Bool.or_true]
      exact congrArg some (Outbox.State.ext rfl rfl rfl rfl (harmed _))
  | modifying =>
    simp only [State.senderStep, hp] at h
    obtain ⟨s₁, hmodify, h⟩ := Option.map_eq_some_iff.mp h
    obtain rfl := modify_cases hmodify
    cases h
    have hguarded' : Guarded s.mutex (s.setSender t .unlocking).inside :=
      guarded_setSender hguarded (by rw [hp]; rfl)
    -- the interest takes over from the thread that was about to set it
    have harming : s.arming = true := (arming_iff hguarded).mpr ⟨t, hp⟩
    refine ⟨⟨hguarded', hi.facts, hi.numbers⟩, .inl (Outbox.State.ext rfl rfl rfl rfl ?_)⟩
    simp only [State.outbox, State.setSender, watchesWrite_readWrite, harming, Bool.true_or,
      Bool.or_true]
  | unlocking =>
    simp only [State.senderStep, hp, Option.some.injEq] at h
    subst h
    have hguarded' : Guarded none (s.setSender t .idle).inside :=
      hguarded.release (k := .sender t) (congrArg SenderPc.locked hp) (inside_setSender ..)
        fun j hj => inside_setSender_of_ne hj
    exact ⟨⟨hguarded', hi.facts, hi.numbers⟩,
      .inl (outbox_setSender hguarded hguarded' (by rw [hp]; nofun) nofun)⟩

/-! ### All steps -/

variable {l : Label T}

/-- **Every step** in which no `Modify` fails. -/
theorem advances_next (hi : s.Inv) (ho : s.outbox.Orderly) (hc : Succeeds s l)
    (hn : s.next l = some s') : Advances s s' := by
  cases l with
  | send t data =>
    obtain ⟨⟨hidle, -⟩, h⟩ := Option.ite_none_right_eq_some.mp hn
    cases h
    have hguarded' : Guarded s.mutex (s.setSender t (.locking data)).inside :=
      guarded_setSender hi.guarded (by rw [hidle]; rfl)
    exact ⟨⟨hguarded', hi.facts, hi.numbers⟩,
      .inl (outbox_setSender hi.guarded hguarded' (by rw [hidle]; nofun) nofun)⟩
  | sender t ok =>
    obtain rfl : ok = true := hc
    exact advances_senderStep hi hn
  | handleWrite =>
    obtain ⟨⟨hidle, -⟩, h⟩ := Option.ite_none_right_eq_some.mp hn
    cases h
    have hout : Guarded s.mutex s.loopOutside := guarded_loopOutside hi.guarded (by rw [hidle]; rfl)
    refine ⟨⟨guarded_outside hout rfl rfl, trivial, hi.numbers⟩, .inl ?_⟩
    have hphase : s.phase = State.phase { s with pc := .top } := by rw [State.phase, hidle]; rfl
    exact Outbox.State.ext rfl rfl rfl hphase.symm rfl
  | loop ok =>
    obtain rfl : ok = true := hc
    exact advances_loopStep hi ho hn
  | write o =>
    obtain ⟨hpc, h⟩ := Option.ite_none_right_eq_some.mp hn
    obtain ⟨a, hstep, rfl⟩ := Option.map_eq_some_iff.mp h
    have hfacts := hi.facts
    rw [State.LoopFacts, hpc] at hfacts
    have hout : Guarded s.mutex s.loopOutside := guarded_loopOutside hi.guarded (by rw [hpc]; rfl)
    refine advances_afterSend (sent_step hfacts hstep) hout hi.numbers ?_
    rw [State.phase, hpc]
    exact if_neg hfacts.ne'

end Steps

section Runs

variable {T : Type*} {s : State T}

theorem inv_registeredHandler (T : Type*) : (State.registeredHandler T).Inv where
  guarded j := by cases j <;> exact ⟨nofun, nofun⟩
  facts := trivial
  numbers := rfl

theorem outbox_registeredHandler (T : Type*) :
    (Outbox.system Packet).init (State.registeredHandler T).outbox := ⟨rfl, rfl, rfl, rfl⟩

variable [DecidableEq T]

/-- **Every reachable state** keeps the invariant, and is orderly as an outbox. -/
theorem inv_of_reachable (h : (handler T).Reachable Succeeds s) : s.Inv ∧ s.outbox.Orderly := by
  refine h.invariant (I := fun s => s.Inv ∧ s.outbox.Orderly) ?_ ?_
  · rintro _ rfl
    exact ⟨inv_registeredHandler T, Outbox.orderly_init (outbox_registeredHandler T)⟩
  · intro s l s' _ hI hc hn
    obtain ⟨hinv, hout⟩ := advances_next hI.1 hI.2 hc hn
    refine ⟨hinv, ?_⟩
    rcases hout with heq | ⟨k, hk⟩
    · exact heq ▸ hI.2
    · exact Outbox.orderly_step hI.2 hk

/-- **The handler is an outbox**, whatever the threads do and in whatever order. -/
theorem refines_outbox :
    Refines (handler T) Succeeds (Outbox.system Packet) Free State.outbox where
  init := by
    rintro _ rfl
    exact outbox_registeredHandler T
  step s l s' hr hc hn := by
    obtain ⟨hi, ho⟩ := inv_of_reachable hr
    rcases (advances_next hi ho hc hn).2 with heq | ⟨k, hk⟩
    · exact .inl heq
    · exact .inr ⟨k, trivial, hk⟩

/-- Neither assertion of `HandleWrite` fails. -/
theorem not_aborted (h : (handler T).Reachable Succeeds s) : s.pc ≠ .aborted := by
  intro hpc
  have hfacts := (inv_of_reachable h).1.facts
  rwa [State.LoopFacts, hpc] at hfacts

omit [DecidableEq T] in
theorem undone_outbox (s : State T) : s.outbox.undone = s.uncompleted := by
  unfold Outbox.State.undone State.uncompleted State.outbox State.phase
  cases s.pc <;> by_cases hsize : s.sendCursor.size = 0 <;> simp [hsize]

end Runs

end Xfnet.SendQueue
