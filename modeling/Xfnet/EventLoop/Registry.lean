import Mathlib.Data.Fintype.Basic
import Mathlib.Data.Finset.Insert
import Xfnet.Foundations.Transition

/-!
# The registry of an event loop

`EventLoop` keeps its handlers twice: `m_handlers` owns them, and the interest set of the epoll
descriptor points to them. `Register` and `Unregister` update the first under `m_mutex` and the
second after it, so a call of either is two steps of its thread. `Modify` only concerns the second.

A handler is an address. The object there lives as long as it has an owner: `m_handlers`, the local
`h_ptr` of an `Unregister` in progress, or a `shared_ptr` of the user. Its descriptor is its own
(`Stream`, `Timer`): it is closed with the object, and the kernel then drops its entry from the
interest set. An assertion that fails ends the program, so the step is not there.
-/

namespace Xfnet.EventLoop

open Transition

/-- `m_state`. -/
inductive RunState
  | stopped
  | started
  | stopping
  deriving DecidableEq

/-- A call of a thread between its two halves: `Stop` before `Join`, `Register` and `Unregister`
before `epoll_ctl`. -/
inductive Call (H : Type*)
  | idle
  | stopping
  | registering (h : H) (events : ℕ)
  | unregistering (h : H)
  deriving DecidableEq

/-- The handler that the caller of `Register` owns while the call runs. -/
@[simp] def Call.argument {H : Type*} : Call H → Option H
  | registering h _ => some h
  | _ => none

/-- The event loop, the kernel and the handlers: `m_state`, whether `m_epoll_fd` is open,
`m_handlers`, the interest set with pointer and events of each descriptor, the descriptor of each
live handler, the open descriptors, the handlers some user owns, and for each thread its call in
progress and the result of its last one. -/
structure Registry (T H Fd : Type*) where
  state : RunState
  epoll : Bool
  handlers : Finset H
  interest : Fd → Option (H × ℕ)
  fd : H → Option Fd
  opened : Finset Fd
  users : Finset H
  call : T → Call H
  result : T → Bool

/-- The steps of the threads, with the outcome of the system call where there is one, and those of
the users with their handlers. -/
inductive Label (T H Fd : Type*)
  | start (t : T) (ok : Bool)
  | stop (t : T)
  | join (t : T)
  | register (t : T) (h : H) (events : ℕ)
  | unregister (t : T) (h : H)
  | ctl (t : T) (ok : Bool)
  | modify (t : T) (h : H) (events : ℕ) (ok : Bool)
  | create (h : H) (fd : Fd)
  | retain (h : H)
  | release (h : H)

variable {T H Fd : Type*} [DecidableEq T] [Fintype T] [DecidableEq H] [DecidableEq Fd]

namespace Registry

/-- A call ends with the given result. -/
def finish (s : Registry T H Fd) (t : T) (result : Bool) : Registry T H Fd :=
  { s with call := Function.update s.call t .idle, result := Function.update s.result t result }

/-- The handler has an owner. -/
def Owned (s : Registry T H Fd) (h : H) : Prop :=
  h ∈ s.handlers ∨ h ∈ s.users ∨ ∃ t, s.call t = .unregistering h

instance (s : Registry T H Fd) : DecidablePred s.Owned := fun _ =>
  inferInstanceAs (Decidable (_ ∨ _))

/-- An owner of `h` is gone. With the last one the handler is destroyed and its descriptor closed,
which takes it out of the interest set. -/
def drop (s : Registry T H Fd) (h : H) : Registry T H Fd :=
  if s.Owned h then s
  else
    { s with
      fd := Function.update s.fd h none
      opened := s.opened.filter fun f => s.fd h ≠ some f
      interest := fun f => if s.fd h = some f then none else s.interest f }

/-- `Start`, where the result of `m_selector.Open()` is not looked at and `m_thread.Start` returns
`true`. -/
def start (s : Registry T H Fd) (t : T) (ok : Bool) : Option (Registry T H Fd) :=
  if s.epoll then none else some { s.finish t true with epoll := ok, state := .started }

/-- `Stop` up to `Join`. -/
def stop (s : Registry T H Fd) (t : T) : Option (Registry T H Fd) :=
  if s.state = .started then
    some { s with state := .stopping, call := Function.update s.call t .stopping }
  else some s

/-- `Join`, once the loop thread has ended. -/
def join (s : Registry T H Fd) (t : T) : Option (Registry T H Fd) :=
  if s.call t = .stopping then
    some { s with
      state := .stopped
      epoll := false
      interest := fun _ => none
      call := Function.update s.call t .idle }
  else none

/-- `Register` up to the end of its critical section. The caller owns the handler it passes. -/
def register (s : Registry T H Fd) (t : T) (h : H) (events : ℕ) : Option (Registry T H Fd) :=
  if h ∈ s.users then
    if h ∈ s.handlers then some (s.finish t false)
    else
      some { s with
        handlers := insert h s.handlers
        call := Function.update s.call t (.registering h events) }
  else none

/-- `Unregister` up to the end of its critical section. -/
def unregister (s : Registry T H Fd) (t : T) (h : H) : Option (Registry T H Fd) :=
  if h ∈ s.handlers then
    some { s with
      handlers := s.handlers.erase h
      call := Function.update s.call t (.unregistering h) }
  else some (s.finish t true)

/-- `m_selector.Register`: the kernel refuses a descriptor that is in the set, and may refuse any
other. -/
def ctlAdd (s : Registry T H Fd) (t : T) (h : H) (events : ℕ) (ok : Bool) :
    Option (Registry T H Fd) :=
  match s.fd h, s.epoll with
  | some f, true =>
    if ok then
      if s.interest f = none then
        some { s.finish t true with interest := Function.update s.interest f (some (h, events)) }
      else none
    else some (s.finish t false)
  | _, _ => none

/-- `m_selector.Unregister`: the kernel refuses only a descriptor that is not in the set. Then
`h_ptr` goes out of scope. -/
def ctlDel (s : Registry T H Fd) (t : T) (h : H) (ok : Bool) : Option (Registry T H Fd) :=
  match s.fd h, s.epoll with
  | some f, true =>
    if ok = (s.interest f).isSome then
      some (Registry.drop
        { s.finish t ok with interest := Function.update s.interest f none } h)
    else none
  | _, _ => none

/-- `Modify`: the kernel refuses a descriptor that is not in the set, and may refuse any other. -/
def modify (s : Registry T H Fd) (t : T) (h : H) (events : ℕ) (ok : Bool) :
    Option (Registry T H Fd) :=
  match s.fd h, s.epoll with
  | some f, true =>
    if ok then
      if (s.interest f).isSome then
        some { s.finish t true with interest := Function.update s.interest f (some (h, events)) }
      else none
    else some (s.finish t false)
  | _, _ => none

def next (s : Registry T H Fd) : Label T H Fd → Option (Registry T H Fd)
  | .start t ok => if s.call t = .idle then s.start t ok else none
  | .stop t => if s.call t = .idle then s.stop t else none
  | .join t => s.join t
  | .register t h events => if s.call t = .idle then s.register t h events else none
  | .unregister t h => if s.call t = .idle then s.unregister t h else none
  | .ctl t ok =>
    match s.call t with
    | .registering h events => s.ctlAdd t h events ok
    | .unregistering h => s.ctlDel t h ok
    | _ => none
  | .modify t h events ok => if s.call t = .idle then s.modify t h events ok else none
  | .create h f =>
    if s.fd h = none ∧ f ∉ s.opened then
      some { s with
        fd := Function.update s.fd h (some f)
        opened := insert f s.opened
        users := insert h s.users }
    else none
  | .retain h => if s.fd h = none then none else some { s with users := insert h s.users }
  | .release h =>
    if h ∈ s.users ∧ ∀ t, (s.call t).argument ≠ some h then
      some (Registry.drop { s with users := s.users.erase h } h)
    else none

end Registry

/-- `EventLoop()`. -/
def Registry.constructed {T H Fd : Type*} : Registry T H Fd :=
  ⟨.stopped, false, ∅, fun _ => none, fun _ => none, ∅, ∅, fun _ => .idle, fun _ => false⟩

/-- An event loop that has been constructed, with no handler anywhere. -/
def eventLoop (T H Fd : Type*) [DecidableEq T] [Fintype T] [DecidableEq H] [DecidableEq Fd] :
    System (Registry T H Fd) (Label T H Fd) where
  init s := s = ⟨.stopped, false, ∅, fun _ => none, fun _ => none, ∅, ∅, fun _ => .idle,
    fun _ => false⟩
  next := Registry.next

/-! ## Losing an owner -/

section Drop

variable {T H Fd : Type*} [Fintype T] [DecidableEq H] [DecidableEq Fd] {s : Registry T H Fd}
  {h h' : H} {f : Fd} {e : H × ℕ}

@[simp] theorem handlers_drop : (s.drop h).handlers = s.handlers := by
  unfold Registry.drop
  split <;> rfl

@[simp] theorem users_drop : (s.drop h).users = s.users := by
  unfold Registry.drop
  split <;> rfl

@[simp] theorem call_drop : (s.drop h).call = s.call := by
  unfold Registry.drop
  split <;> rfl

theorem owned_drop : (s.drop h).Owned h' ↔ s.Owned h' := by
  unfold Registry.Owned
  rw [handlers_drop, users_drop, call_drop]

theorem fd_drop_of_ne (hne : h' ≠ h) : (s.drop h).fd h' = s.fd h' := by
  unfold Registry.drop
  split
  · rfl
  · exact Function.update_of_ne hne ..

theorem fd_of_drop (hf : (s.drop h).fd h' = some f) : s.fd h' = some f := by
  by_cases hne : h' = h
  · subst hne
    unfold Registry.drop at hf
    split at hf
    · exact hf
    · change Function.update s.fd h' none h' = some f at hf
      rw [Function.update_self] at hf
      cases hf
  · rwa [fd_drop_of_ne hne] at hf

theorem interest_of_drop (he : (s.drop h).interest f = some e) : s.interest f = some e := by
  unfold Registry.drop at he
  split at he
  · exact he
  · exact (Option.ite_none_left_eq_some.mp he).2

/-- Only the entry under the handler's own descriptor can go. -/
theorem interest_drop (hf : s.Owned h ∨ s.fd h ≠ some f) :
    (s.drop h).interest f = s.interest f := by
  unfold Registry.drop
  split
  · rfl
  · next hnot => exact if_neg (hf.resolve_left hnot)

end Drop

/-! ## What a step can do -/

section Steps

namespace Registry

/-- The epoll half of `Register` and `Modify` where it succeeds. -/
def put (s : Registry T H Fd) (t : T) (f : Fd) (h : H) (events : ℕ) : Registry T H Fd :=
  { s.finish t true with interest := Function.update s.interest f (some (h, events)) }

/-- The epoll half of `Unregister`. -/
def delete (s : Registry T H Fd) (t : T) (f : Fd) : Registry T H Fd :=
  { s.finish t (s.interest f).isSome with interest := Function.update s.interest f none }

end Registry

/-- **The steps of the registry**, with the conditions under which each is taken. -/
inductive Step (s : Registry T H Fd) : Label T H Fd → Registry T H Fd → Prop
  | start {t : T} {ok : Bool} : s.call t = .idle → s.epoll = false →
      Step s (.start t ok) { s.finish t true with epoll := ok, state := .started }
  | stop {t : T} : s.call t = .idle → s.state = .started → Step s (.stop t)
      { s with state := .stopping, call := Function.update s.call t .stopping }
  | stopped {t : T} : s.call t = .idle → Step s (.stop t) s
  | join {t : T} : s.call t = .stopping → Step s (.join t)
      { s with
        state := .stopped
        epoll := false
        interest := fun _ => none
        call := Function.update s.call t .idle }
  | insert {t : T} {h : H} {events : ℕ} : s.call t = .idle → h ∈ s.users → h ∉ s.handlers →
      Step s (.register t h events)
        { s with
          handlers := insert h s.handlers
          call := Function.update s.call t (.registering h events) }
  | erase {t : T} {h : H} : s.call t = .idle → h ∈ s.handlers → Step s (.unregister t h)
      { s with
        handlers := s.handlers.erase h
        call := Function.update s.call t (.unregistering h) }
  | add {t : T} {h : H} {events : ℕ} {f : Fd} : s.call t = .registering h events →
      s.fd h = some f → s.epoll = true → s.interest f = none →
      Step s (.ctl t true) (s.put t f h events)
  | addFails {t : T} {h : H} {events : ℕ} : s.call t = .registering h events →
      Step s (.ctl t false) (s.finish t false)
  | delete {t : T} {h : H} {f : Fd} : s.call t = .unregistering h → s.fd h = some f →
      s.epoll = true → Step s (.ctl t (s.interest f).isSome) ((s.delete t f).drop h)
  | modify {t : T} {h : H} {events : ℕ} {f : Fd} : s.call t = .idle → s.fd h = some f →
      s.epoll = true → (s.interest f).isSome →
      Step s (.modify t h events true) (s.put t f h events)
  | nothing {t : T} {l : Label T H Fd} {result : Bool} : s.call t = .idle →
      Step s l (s.finish t result)
  | create {h : H} {f : Fd} : s.fd h = none → f ∉ s.opened → Step s (.create h f)
      { s with
        fd := Function.update s.fd h (some f)
        opened := insert f s.opened
        users := insert h s.users }
  | retain {h : H} : s.fd h ≠ none → Step s (.retain h) { s with users := insert h s.users }
  | release {h : H} : h ∈ s.users → (∀ t, (s.call t).argument ≠ some h) →
      Step s (.release h) (Registry.drop { s with users := s.users.erase h } h)

variable {s s' : Registry T H Fd} {l : Label T H Fd} {t : T} {h : H} {events : ℕ} {ok : Bool}

theorem step_of_ctlAdd (hcall : s.call t = .registering h events)
    (hn : s.ctlAdd t h events ok = some s') : Step s (.ctl t ok) s' := by
  unfold Registry.ctlAdd at hn
  split at hn
  · next f hfd hepoll =>
    cases ok with
    | true =>
      obtain ⟨hnone, he⟩ := Option.ite_none_right_eq_some.mp hn
      obtain rfl := Option.some.inj he
      exact .add hcall hfd hepoll hnone
    | false =>
      obtain rfl := Option.some.inj hn
      exact .addFails hcall
  · cases hn

theorem step_of_ctlDel (hcall : s.call t = .unregistering h) (hn : s.ctlDel t h ok = some s') :
    Step s (.ctl t ok) s' := by
  unfold Registry.ctlDel at hn
  split at hn
  · next f hfd hepoll =>
    obtain ⟨rfl, he⟩ := Option.ite_none_right_eq_some.mp hn
    obtain rfl := Option.some.inj he
    exact .delete hcall hfd hepoll
  · cases hn

theorem step_of_modify (hcall : s.call t = .idle) (hn : s.modify t h events ok = some s') :
    Step s (.modify t h events ok) s' := by
  unfold Registry.modify at hn
  split at hn
  · next f hfd hepoll =>
    cases ok with
    | true =>
      obtain ⟨hsome, he⟩ := Option.ite_none_right_eq_some.mp hn
      obtain rfl := Option.some.inj he
      exact .modify hcall hfd hepoll hsome
    | false =>
      obtain rfl := Option.some.inj hn
      exact .nothing hcall
  · cases hn

theorem step_of_next (hn : s.next l = some s') : Step s l s' := by
  cases l with
  | start t ok =>
    obtain ⟨hcall, hn⟩ := Option.ite_none_right_eq_some.mp hn
    obtain ⟨hepoll, he⟩ := Option.ite_none_left_eq_some.mp hn
    obtain rfl := Option.some.inj he
    exact .start hcall (by simpa using hepoll)
  | stop t =>
    obtain ⟨hcall, hn⟩ := Option.ite_none_right_eq_some.mp hn
    unfold Registry.stop at hn
    split at hn
    · next hstate =>
      obtain rfl := Option.some.inj hn
      exact .stop hcall hstate
    · obtain rfl := Option.some.inj hn
      exact .stopped hcall
  | join t =>
    obtain ⟨hcall, he⟩ := Option.ite_none_right_eq_some.mp hn
    obtain rfl := Option.some.inj he
    exact .join hcall
  | register t h events =>
    obtain ⟨hcall, hn⟩ := Option.ite_none_right_eq_some.mp hn
    obtain ⟨husers, hn⟩ := Option.ite_none_right_eq_some.mp hn
    split at hn
    · obtain rfl := Option.some.inj hn
      exact .nothing hcall
    · next hnew =>
      obtain rfl := Option.some.inj hn
      exact .insert hcall husers hnew
  | unregister t h =>
    obtain ⟨hcall, hn⟩ := Option.ite_none_right_eq_some.mp hn
    unfold Registry.unregister at hn
    split at hn
    · next hin =>
      obtain rfl := Option.some.inj hn
      exact .erase hcall hin
    · obtain rfl := Option.some.inj hn
      exact .nothing hcall
  | ctl t ok =>
    simp only [Registry.next] at hn
    split at hn
    · next hcall => exact step_of_ctlAdd hcall hn
    · next hcall => exact step_of_ctlDel hcall hn
    · cases hn
  | modify t h events ok =>
    obtain ⟨hcall, hn⟩ := Option.ite_none_right_eq_some.mp hn
    exact step_of_modify hcall hn
  | create h f =>
    obtain ⟨⟨hfree, hf⟩, he⟩ := Option.ite_none_right_eq_some.mp hn
    obtain rfl := Option.some.inj he
    exact .create hfree hf
  | retain h =>
    obtain ⟨hlive, he⟩ := Option.ite_none_left_eq_some.mp hn
    obtain rfl := Option.some.inj he
    exact .retain hlive
  | release h =>
    obtain ⟨⟨husers, hcall⟩, he⟩ := Option.ite_none_right_eq_some.mp hn
    obtain rfl := Option.some.inj he
    exact .release husers hcall

end Steps

end Xfnet.EventLoop
