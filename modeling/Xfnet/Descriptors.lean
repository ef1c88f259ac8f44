import Xfnet.Connector
import Xfnet.Foundations.Ownership

/-!
# Who owns a descriptor

`Stream` and `Timer` own the descriptor in their `m_fd` and close it when they are destroyed. The
move constructors take it out of another object, and a `StreamHandler` or `TimerHandler` moves one
into its member. Before there is an object, the descriptor is in a local variable of
`Connector::Connect` or `Acceptor::Accept`. `AddTimer` has a local `Timer` on all of its exits.

Here every call is a sequence of steps that others can come between, and any live object can be
moved from or destroyed at any time. The kernel hands out any descriptor that is not open. This is
linear ownership (`refines_ownership`).
-/

namespace Xfnet.Descriptors

open Connector Ownership SocketUtil Transition

inductive Kind
  | stream
  | timer
  deriving DecidableEq

/-- A live `Stream` or `Timer`, which may be the member of a handler. `fd` is `m_fd`, or `none` for
`INVALID_SOCKET`. -/
structure Object (Fd : Type*) where
  kind : Kind
  inHandler : Bool
  fd : Option (Handle Fd)

/-- Where a call of `AddTimer` is, after the construction of its `timer`. -/
inductive AddTimerPlace (O : Type*)
  /-- `if(timer.fd() == INVALID_SOCKET)`, `timerfd_settime` -/
  | created
  /-- `NewTimerHandler(&m_loop, timer, m_handler_queue)` -/
  | armed
  /-- `m_loop.Register(handler, EventHandler::EVENT_READ)` -/
  | registering (handler : O)
  /-- `~handler`, which nobody else owns -/
  | dropping (handler : O)
  /-- `~timer` -/
  | leaving

/-- Where a call is: in `Connect`, in one of the two calls of `accept4` around `Select`, before
`return Stream(fd)`, or in `AddTimer`. -/
inductive Call (Fd O : Type*)
  | idle
  | connect (place : Place) (fd : Handle Fd) (errno : Errno)
  | acceptWait
  | acceptAgain
  | returning (fd : Option (Handle Fd))
  | addTimer (place : AddTimerPlace O) (timer : O)

/-- Where `Connect` is after an answer of `connect` or `poll`. -/
def Call.ofPlace {Fd O : Type*} (fd : Handle Fd) (errno : Errno) : Place → Call Fd O
  | .returned true => .returning (some fd)
  | place => .connect place fd errno

/-- The descriptors of the process, the live objects, and the calls under way. -/
structure State (Fd O C : Type*) where
  table : Table Fd
  objects : O → Option (Object Fd)
  calls : C → Call Fd O

/-- The steps of the calls, with what the system calls answer: a descriptor, if any, for `socket`,
`accept4` and `timerfd_create`. Objects are also moved from and destroyed outside of the calls, and
descriptors are opened and closed by others. -/
inductive Label (Fd O C : Type*)
  | socket (c : C) (fd : Option Fd) (errno : Errno)
  | connect (c : C) (o : ConnectOutcome)
  | poll (c : C) (p : PollOutcome)
  | close (c : C)
  | accept (c : C) (timed : Bool) (fd : Option Fd)
  | selected (c : C) (readable : Bool)
  | acceptAgain (c : C) (fd : Option Fd)
  | returnStream (c : C) (o : O)
  | addTimer (c : C) (timer : O) (fd : Option Fd)
  | settime (c : C) (ok : Bool)
  | newTimerHandler (c : C) (handler : O)
  | registered (c : C) (ok kept : Bool)
  | dropHandler (c : C)
  | leave (c : C)
  | move (other this : O)
  | newHandler (other this : O)
  | destroy (o : O)
  | foreign (fd : Fd) (used : Bool)

namespace State

variable {Fd O C : Type*} [DecidableEq Fd] [DecidableEq O] [DecidableEq C]

def setObject (s : State Fd O C) (o : O) (x : Option (Object Fd)) : State Fd O C :=
  { s with objects := Function.update s.objects o x }

def setCall (s : State Fd O C) (c : C) (x : Call Fd O) : State Fd O C :=
  { s with calls := Function.update s.calls c x }

/-- A system call that makes a descriptor: any that is not open, or none. -/
def openFd (s : State Fd O C) : Option Fd → Option (Table Fd × Option (Handle Fd))
  | none => some (s.table, none)
  | some fd =>
    if s.table.slots fd = none then some (s.table.grant fd, some ⟨fd, s.table.granted⟩) else none

/-- `m_fd = other.m_fd; other.m_fd = INVALID_SOCKET;` -/
def moveTo (s : State Fd O C) (other this : O) (inHandler : Bool) : Option (State Fd O C) :=
  match s.objects other, s.objects this with
  | some x, none =>
    some ((s.setObject this (some { x with inHandler := inHandler })).setObject other
      (some { x with fd := none }))
  | _, _ => none

/-- `~Stream()` and `~Timer()`. -/
def destroy (s : State Fd O C) (o : O) : Option (State Fd O C) :=
  match s.objects o with
  | some ⟨_, _, some fd⟩ => some ({ s with table := s.table.release fd }.setObject o none)
  | some ⟨_, _, none⟩ => some (s.setObject o none)
  | none => none

def next (s : State Fd O C) : Label Fd O C → Option (State Fd O C)
  | .socket c fd errno =>
    match s.calls c, s.openFd fd with
    | .idle, some (table, none) => some ({ s with table := table }.setCall c (.returning none))
    | .idle, some (table, some fd) =>
      some ({ s with table := table }.setCall c (.connect .connecting fd errno))
    | _, _ => none
  | .connect c o =>
    match s.calls c with
    | .connect .connecting fd errno =>
      let errno := match o with
        | .done => errno
        | .fails e => e
      some (s.setCall c (.ofPlace fd errno (afterConnect o)))
    | _ => none
  | .poll c p =>
    match s.calls c with
    | .connect .waiting fd errno =>
      (afterPoll errno p).map fun q => s.setCall c (.ofPlace fd q.2 q.1)
    | _ => none
  | .close c =>
    match s.calls c with
    | .connect .closing fd _ =>
      some ({ s with table := s.table.release fd }.setCall c (.returning none))
    | _ => none
  | .accept c timed fd =>
    match s.calls c, s.openFd fd with
    | .idle, some (table, none) =>
      some ({ s with table := table }.setCall c (if timed then .acceptWait else .returning none))
    | .idle, some (table, some fd) =>
      some ({ s with table := table }.setCall c (.returning (some fd)))
    | _, _ => none
  | .selected c readable =>
    match s.calls c with
    | .acceptWait => some (s.setCall c (if readable then .acceptAgain else .returning none))
    | _ => none
  | .acceptAgain c fd =>
    match s.calls c, s.openFd fd with
    | .acceptAgain, some (table, fd) => some ({ s with table := table }.setCall c (.returning fd))
    | _, _ => none
  | .returnStream c o =>
    match s.calls c, s.objects o with
    | .returning fd, none => some ((s.setObject o (some ⟨.stream, false, fd⟩)).setCall c .idle)
    | _, _ => none
  | .addTimer c timer fd =>
    match s.calls c, s.objects timer, s.openFd fd with
    | .idle, none, some (table, fd) =>
      some (({ s with table := table }.setObject timer (some ⟨.timer, false, fd⟩)).setCall c
        (.addTimer .created timer))
    | _, _, _ => none
  | .settime c ok =>
    match s.calls c with
    | .addTimer .created timer =>
      match s.objects timer with
      | some ⟨_, _, none⟩ => some (s.setCall c (.addTimer .leaving timer))
      | some ⟨_, _, some _⟩ =>
        some (s.setCall c (.addTimer (if ok then .armed else .leaving) timer))
      | none => none
    | _ => none
  | .newTimerHandler c handler =>
    match s.calls c with
    | .addTimer .armed timer =>
      (s.moveTo timer handler true).map fun s =>
        s.setCall c (.addTimer (.registering handler) timer)
    | _ => none
  | .registered c ok kept =>
    -- a handler that is refused stays in `m_handlers`, or has no owner but the local one
    match s.calls c with
    | .addTimer (.registering handler) timer =>
      some (s.setCall c (.addTimer (if ok || kept then .leaving else .dropping handler) timer))
    | _ => none
  | .dropHandler c =>
    match s.calls c with
    | .addTimer (.dropping handler) timer =>
      (s.destroy handler).map fun s => s.setCall c (.addTimer .leaving timer)
    | _ => none
  | .leave c =>
    match s.calls c with
    | .addTimer .leaving timer => (s.destroy timer).map fun s => s.setCall c .idle
    | _ => none
  | .move other this => s.moveTo other this false
  | .newHandler other this => s.moveTo other this true
  | .destroy o => s.destroy o
  | .foreign fd used =>
    if s.table.slots fd = if used then none else some none then
      some { s with table := s.table.foreign fd used }
    else none

end State

/-- A process in which none of the calls has begun. -/
def process (Fd O C : Type*) [DecidableEq Fd] [DecidableEq O] [DecidableEq C] :
    System (State Fd O C) (Label Fd O C) where
  init s := s = ⟨.empty Fd, fun _ => none, fun _ => .idle⟩
  next := State.next

/-- Who can hold a descriptor: a live object, or a call that has obtained it. -/
inductive Holder (O C : Type*)
  | object (o : O)
  | call (c : C)
  deriving DecidableEq

/-- The local `fd` of a call. -/
def Call.fd {Fd O : Type*} : Call Fd O → Option (Handle Fd)
  | .connect _ fd _ => some fd
  | .returning fd => fd
  | _ => none

namespace State

variable {Fd O C : Type*}

def held (s : State Fd O C) : Holder O C → Option (Handle Fd)
  | .object o => (s.objects o).bind Object.fd
  | .call c => (s.calls c).fd

/-- The descriptors and who holds them. -/
def ownership (s : State Fd O C) : Ownership.State Fd (Holder O C) := ⟨s.table, s.held⟩

end State

section Steps

variable {Fd O C : Type*} [DecidableEq Fd] [DecidableEq O] [DecidableEq C] {s s' s₁ : State Fd O C}
  {o other this : O} {c : C} {x : Call Fd O} {fd : Option Fd} {table : Table Fd}
  {got : Option (Handle Fd)} {h : Holder O C}

omit [DecidableEq Fd] in
theorem held_setObject (s : State Fd O C) (o : O) (x : Option (Object Fd)) :
    (s.setObject o x).held = Function.update s.held (.object o) (x.bind Object.fd) := by
  funext h
  cases h with
  | call c => rfl
  | object o' =>
    by_cases ho : o' = o
    · subst ho
      simp [State.held, State.setObject]
    · have hne : Holder.object o' ≠ (.object o : Holder O C) := fun e => ho (Holder.object.inj e)
      simp [State.held, State.setObject, Function.update_of_ne ho, Function.update_of_ne hne]

omit [DecidableEq Fd] in
theorem held_setCall (s : State Fd O C) (c : C) (x : Call Fd O) :
    (s.setCall c x).held = Function.update s.held (.call c) x.fd := by
  funext h
  cases h with
  | object o => rfl
  | call c' =>
    by_cases hc : c' = c
    · subst hc
      simp [State.held, State.setCall]
    · have hne : Holder.call c' ≠ (.call c : Holder O C) := fun e => hc (Holder.call.inj e)
      simp [State.held, State.setCall, Function.update_of_ne hc, Function.update_of_ne hne]

/-! ### Steps of ownership -/

/-- The step is one of ownership, or none. -/
def Owns (s s' : State Fd O C) : Prop :=
  s'.ownership = s.ownership ∨ ∃ k, s.ownership.next k = some s'.ownership

omit [DecidableEq Fd] [DecidableEq O] [DecidableEq C] in
theorem ownership_eq {held : Holder O C → Option (Handle Fd)} (htable : s.table = table)
    (hheld : s.held = held) : s.ownership = ⟨table, held⟩ := by
  rw [State.ownership, htable, hheld]

/-- The call goes on with the descriptor that it has. -/
theorem owns_setCall (hx : x.fd = (s.calls c).fd) : Owns s (s.setCall c x) := by
  refine .inl (ownership_eq rfl ?_)
  rw [held_setCall, hx]
  exact Function.update_eq_self ..

/-- The same after a step of an object. -/
theorem Owns.setCall (hs : Owns s s₁) (hx : x.fd = (s₁.calls c).fd) : Owns s (s₁.setCall c x) := by
  have heq : (s₁.setCall c x).ownership = s₁.ownership := by
    refine ownership_eq rfl ?_
    rw [held_setCall, hx]
    exact Function.update_eq_self ..
  rw [Owns, heq]
  exact hs

/-- A descriptor is obtained, or none. -/
theorem owns_openFd (hopen : s.openFd fd = some (table, got)) (hh : s.held h = none)
    (htable : s'.table = table) (hheld : s'.held = Function.update s.held h got) : Owns s s' := by
  cases fd with
  | none =>
    cases hopen
    refine .inl (ownership_eq htable ?_)
    rw [hheld, ← hh]
    exact Function.update_eq_self ..
  | some fd =>
    obtain ⟨hfree, hopen⟩ := Option.ite_none_right_eq_some.mp hopen
    cases hopen
    refine .inr ⟨.acquire h fd, ?_⟩
    rw [ownership_eq htable hheld]
    exact if_pos ⟨hfree, hh⟩

/-- The same for a call. -/
theorem owns_obtain (hopen : s.openFd fd = some (table, got)) (hcall : (s.calls c).fd = none)
    (hx : x.fd = got) : Owns s ({ s with table := table }.setCall c x) := by
  refine owns_openFd (h := .call c) hopen hcall rfl ?_
  rw [held_setCall, hx]
  rfl

/-- A descriptor goes to a holder that has none. -/
theorem owns_transfer (h h' : Holder O C) (hne : h ≠ h') (hh' : s.held h' = none)
    (htable : s'.table = s.table)
    (hheld : s'.held = Function.update (Function.update s.held h' (s.held h)) h none) :
    Owns s s' := by
  refine .inr ⟨.transfer h h', ?_⟩
  rw [ownership_eq htable hheld]
  exact if_pos ⟨hne, hh'⟩

/-- A descriptor is closed by its holder. -/
theorem owns_release {d : Handle Fd} (hd : s.held h = some d)
    (htable : s'.table = s.table.release d) (hheld : s'.held = Function.update s.held h none) :
    Owns s s' := by
  refine .inr ⟨.release h, ?_⟩
  rw [ownership_eq htable hheld]
  simp only [Ownership.State.next, State.ownership, hd]

/-- **The move constructors.** -/
theorem owns_moveTo {inHandler : Bool} (h : s.moveTo other this inHandler = some s') :
    Owns s s' ∧ s'.calls = s.calls := by
  simp only [State.moveTo] at h
  split at h
  · next y hother hthis =>
    cases h
    have hne : other ≠ this := by
      rintro rfl
      rw [hother] at hthis
      cases hthis
    refine ⟨owns_transfer (.object other) (.object this) ?_ ?_ rfl ?_, rfl⟩
    · exact fun e => hne (Holder.object.inj e)
    · simp [State.held, hthis]
    · rw [held_setObject, held_setObject]
      simp [State.held, hother]
  · cases h

/-- **The destructors.** -/
theorem owns_destroy (h : s.destroy o = some s') : Owns s s' ∧ s'.calls = s.calls := by
  simp only [State.destroy] at h
  split at h
  · next kind inHandler d ho =>
    cases h
    refine ⟨owns_release (h := .object o) (d := d) (by simp [State.held, ho]) rfl ?_, rfl⟩
    exact held_setObject { s with table := s.table.release d } o none
  · next kind inHandler ho =>
    cases h
    refine ⟨.inl (ownership_eq rfl ?_), rfl⟩
    have hnone : s.held (.object o) = (none : Option (Object Fd)).bind Object.fd := by
      simp [State.held, ho]
    rw [held_setObject, ← hnone]
    exact Function.update_eq_self ..
  · cases h

/-! ### All steps -/

omit [DecidableEq Fd] [DecidableEq O] [DecidableEq C] in
theorem fd_ofPlace (d : Handle Fd) (errno : Errno) (place : Place) :
    (Call.ofPlace d errno place : Call Fd O).fd = some d := by
  cases place with
  | returned valid => cases valid <;> rfl
  | _ => rfl

/-- **Every step** of the process is one of ownership, or none. -/
theorem owns_next {l : Label Fd O C} (hn : s.next l = some s') : Owns s s' := by
  cases l with
  | socket c fd errno =>
    simp only [State.next] at hn
    split at hn
    · next table hcall hopen =>
      cases hn
      exact owns_obtain hopen (by rw [hcall]; rfl) rfl
    · next table d hcall hopen =>
      cases hn
      exact owns_obtain hopen (by rw [hcall]; rfl) rfl
    · cases hn
  | connect c o =>
    simp only [State.next] at hn
    split at hn
    · next d errno hcall =>
      cases hn
      refine owns_setCall ?_
      rw [fd_ofPlace, hcall]
      rfl
    · cases hn
  | poll c p =>
    simp only [State.next] at hn
    split at hn
    · next d errno hcall =>
      obtain ⟨q, -, rfl⟩ := Option.map_eq_some_iff.mp hn
      refine owns_setCall ?_
      rw [fd_ofPlace, hcall]
      rfl
    · cases hn
  | close c =>
    simp only [State.next] at hn
    split at hn
    · next d errno hcall =>
      cases hn
      refine owns_release (h := .call c) (d := d) (by simp [State.held, hcall, Call.fd]) rfl ?_
      exact held_setCall { s with table := s.table.release d } c (.returning none)
    · cases hn
  | accept c timed fd =>
    simp only [State.next] at hn
    split at hn
    · next table hcall hopen =>
      cases hn
      exact owns_obtain hopen (by rw [hcall]; rfl) (by cases timed <;> rfl)
    · next table d hcall hopen =>
      cases hn
      exact owns_obtain hopen (by rw [hcall]; rfl) rfl
    · cases hn
  | selected c readable =>
    simp only [State.next] at hn
    split at hn
    · next hcall =>
      cases hn
      refine owns_setCall ?_
      rw [hcall]
      cases readable <;> rfl
    · cases hn
  | acceptAgain c fd =>
    simp only [State.next] at hn
    split at hn
    · next table got hcall hopen =>
      cases hn
      exact owns_obtain hopen (by rw [hcall]; rfl) rfl
    · cases hn
  | returnStream c o =>
    simp only [State.next] at hn
    split at hn
    · next fd hcall ho =>
      cases hn
      refine owns_transfer (.call c) (.object o) nofun (by simp [State.held, ho]) rfl ?_
      rw [held_setCall, held_setObject]
      simp [State.held, hcall, Call.fd]
    · cases hn
  | addTimer c timer fd =>
    simp only [State.next] at hn
    split at hn
    · next table got hcall htimer hopen =>
      cases hn
      have hobject : Owns s ({ s with table := table }.setObject timer
          (some ⟨.timer, false, got⟩)) := by
        refine owns_openFd (h := .object timer) hopen (by simp [State.held, htimer]) rfl ?_
        exact held_setObject { s with table := table } timer (some ⟨.timer, false, got⟩)
      refine hobject.setCall ?_
      show none = (s.calls c).fd
      rw [hcall]
      rfl
    · cases hn
  | settime c ok =>
    simp only [State.next] at hn
    split at hn
    · next timer hcall =>
      split at hn
      · cases hn
        exact owns_setCall (by rw [hcall]; rfl)
      · cases hn
        exact owns_setCall (by rw [hcall]; rfl)
      · cases hn
    · cases hn
  | newTimerHandler c handler =>
    simp only [State.next] at hn
    split at hn
    · next timer hcall =>
      obtain ⟨s₁, hmove, rfl⟩ := Option.map_eq_some_iff.mp hn
      obtain ⟨howns, hcalls⟩ := owns_moveTo hmove
      exact howns.setCall (by rw [hcalls, hcall]; rfl)
    · cases hn
  | registered c ok kept =>
    simp only [State.next] at hn
    split at hn
    · next handler timer hcall =>
      cases hn
      exact owns_setCall (by rw [hcall]; rfl)
    · cases hn
  | dropHandler c =>
    simp only [State.next] at hn
    split at hn
    · next handler timer hcall =>
      obtain ⟨s₁, hdestroy, rfl⟩ := Option.map_eq_some_iff.mp hn
      obtain ⟨howns, hcalls⟩ := owns_destroy hdestroy
      exact howns.setCall (by rw [hcalls, hcall]; rfl)
    · cases hn
  | leave c =>
    simp only [State.next] at hn
    split at hn
    · next timer hcall =>
      obtain ⟨s₁, hdestroy, rfl⟩ := Option.map_eq_some_iff.mp hn
      obtain ⟨howns, hcalls⟩ := owns_destroy hdestroy
      exact howns.setCall (by rw [hcalls, hcall]; rfl)
    · cases hn
  | move other this => exact (owns_moveTo hn).1
  | newHandler other this => exact (owns_moveTo hn).1
  | destroy o => exact (owns_destroy hn).1
  | foreign fd used =>
    obtain ⟨hslot, h⟩ := Option.ite_none_right_eq_some.mp hn
    cases h
    exact .inr ⟨.foreign fd used, if_pos hslot⟩

end Steps

section Runs

variable {Fd O C : Type*} [DecidableEq Fd] [DecidableEq O] [DecidableEq C] {s : State Fd O C}

/-- **The process is one of ownership**, in all interleavings of its calls. -/
theorem refines_ownership : Refines (process Fd O C) Free (Ownership.system Fd (Holder O C)) Free
    State.ownership where
  init := by
    rintro _ rfl
    refine ownership_eq rfl ?_
    funext h
    cases h <;> rfl
  step s l s' _ _ hn := by
    rcases owns_next hn with heq | ⟨k, hk⟩
    · exact .inl heq
    · exact .inr ⟨k, trivial, hk⟩

/-- **Descriptors are owned linearly**, in every state that any interleaving of the calls reaches:
no two objects hold the same descriptor; what they hold is open; whatever was obtained and is open
has one holder, an object or the call that obtained it; it is not closed while it has one, and
closed once when it has none; and no call of `close` closes anything else. -/
theorem descriptors_linear (h : (process Fd O C).Reachable Free s) :
    (∀ o₁ o₂ d₁ d₂, s.held (.object o₁) = some d₁ → s.held (.object o₂) = some d₂ →
        d₁.name = d₂.name → o₁ = o₂) ∧
      (∀ o d, s.held (.object o) = some d → s.table.slots d.name = some (some d.grant)) ∧
      (∀ fd n, s.table.slots fd = some (some n) → ∃! holder, s.held holder = some ⟨fd, n⟩) ∧
      (∀ n, s.table.released n ≤ 1 ∧
        (∀ holder fd, s.held holder = some ⟨fd, n⟩ → s.table.released n = 0) ∧
        (n < s.table.granted → (∀ holder fd, s.held holder ≠ some ⟨fd, n⟩) →
          s.table.released n = 1)) ∧
      s.table.strays = 0 := by
  have hlinear : Linear s.ownership := linear (refines_ownership.reachable h)
  refine ⟨fun o₁ o₂ d₁ d₂ h₁ h₂ hname => ?_, fun o d hd => hlinear.live (.object o) d hd,
    fun fd n hat => ?_, fun n => ⟨hlinear.released_le_one n, fun holder fd hd => ?_,
      fun hn hnone => ?_⟩, hlinear.ok.strays⟩
  · exact Holder.object.inj (hlinear.holder_eq h₁ h₂ hname)
  · obtain ⟨holder, hholder⟩ := hlinear.covered fd n hat
    exact ⟨holder, hholder, fun other hother => hlinear.unique _ _ _ hother hholder⟩
  · exact hlinear.released_of_held hd
  · exact hlinear.released_of_not_held hn hnone

/-- One thread connects and moves its stream into a handler, while another one adds a timer that
cannot be registered, whose descriptor is then used by somebody else. -/
theorem descriptors_linear_two : ∃ s : State ℕ ℕ Bool,
    (process ℕ ℕ Bool).Reachable Free s ∧ s.held (.object 3) = some ⟨5, 0⟩ ∧
      s.table.slots 5 = some (some 0) ∧ s.table.released 0 = 0 ∧ s.table.strays = 0 := by
  have hrun : ((process ℕ ℕ Bool).exec Free ⟨.empty ℕ, fun _ => none, fun _ => .idle⟩
      [.socket true (some 5) (.other 0), .addTimer false 0 (some 6), .settime false true,
        .connect true .done, .newTimerHandler false 1, .returnStream true 2,
        .registered false false false, .newHandler 2 3, .dropHandler false, .leave false,
        .destroy 2, .foreign 6 true]).map (fun s => s.held (.object 3)) = some (some ⟨5, 0⟩) := by
    decide +kernel
  obtain ⟨s, hexec, hheld⟩ := Option.map_eq_some_iff.mp hrun
  have hr : (process ℕ ℕ Bool).Reachable Free s := System.reachable_of_exec rfl hexec
  obtain ⟨-, hopen, -, hreleased, hstrays⟩ := descriptors_linear hr
  exact ⟨s, hr, hheld, hopen 3 ⟨5, 0⟩ hheld, (hreleased 0).2.1 (.object 3) 5 hheld, hstrays⟩

end Runs

end Xfnet.Descriptors
