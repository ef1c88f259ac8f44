import Xfnet.Kernel
import Xfnet.EventLoop.Lifetime

/-!
# The dispatch loop

`LoopThread` calls `Select` until `m_state` says that the loop is stopping, and `Select` calls the
methods of the handlers that one `epoll_wait` reported. It keeps their pointers, not shares of
them: while the batch lasts, nothing but `m_handlers` and the users keeps the handlers alive.

The other threads, and the loop thread inside a method, take the steps of the registry in between.
Where none of them takes the last owner of a handler that the batch still has a call for, each
method is called on a live handler (`calls_owned`); otherwise it can be called on one that is gone
(`calls_removed`).
-/

namespace Xfnet.EventLoop

open Transition

/-- `MAX_EVENTS`. -/
def maxEvents : ℕ := 1024

/-- The methods that `Select` calls on a handler. -/
inductive Method
  | read
  | write
  | error
  deriving DecidableEq

namespace Method

/-- The event bits a method is called for. -/
def bits : Method → ℕ
  | read => epollIn ||| epollPri
  | write => epollOut
  | error => epollErr ||| epollHup

/-- The methods that `Select` comes to later for the same event. -/
def after : Method → List Method
  | read => [write, error]
  | write => [error]
  | error => []

end Method

/-- The event is one of those the method is called for. -/
def reports (events : ℕ) (m : Method) : Bool := events &&& m.bits ≠ 0

/-- Where the loop thread is: not running, at the test of `m_state`, at `epoll_wait`, or at the
test for a method or inside it, with the handler and event at hand and those after it. -/
inductive Select (H : Type*)
  | ended
  | top
  | waiting
  | testing (m : Method) (h : H) (events : ℕ) (rest : List (H × ℕ))
  | inside (m : Method) (h : H) (events : ℕ) (rest : List (H × ℕ))

namespace Select

variable {H : Type*}

/-- The next round of the `for` loop. -/
def entry : List (H × ℕ) → Select H
  | [] => top
  | (h, events) :: rest => testing .read h events rest

/-- What follows a method that returned `true`, or was not called. -/
def proceed (m : Method) (h : H) (events : ℕ) (rest : List (H × ℕ)) : Select H :=
  match m with
  | .read => testing .write h events rest
  | .write => testing .error h events rest
  | .error => entry rest

/-- The handler that a method is about to be called on. -/
def callee : Select H → Option H
  | testing m h events _ => if reports events m then some h else none
  | _ => none

/-- The handler of an event that is reported to one of the given methods. -/
def due (ms : List Method) (h : H) (events : ℕ) : List H :=
  if ms.any (reports events) then [h] else []

/-- The handlers of the batch on which some method will be called. -/
def pending : Select H → List H
  | testing m h events rest => due (m :: m.after) h events ++ remaining rest
  | inside _ _ _ rest => remaining rest
  | _ => []
where
  remaining : List (H × ℕ) → List H
    | [] => []
    | (h, events) :: rest => due [.read, .write, .error] h events ++ remaining rest

/-- The handler whose method runs, if another one follows when it returns `true`. -/
def later : Select H → List H
  | inside m h events _ => due m.after h events
  | _ => []

/-- The handlers of the batch at hand. -/
def handlers : Select H → List H
  | testing _ h _ rest => h :: rest.map Prod.fst
  | inside _ h _ rest => h :: rest.map Prod.fst
  | _ => []

end Select

/-- The registry, the loop thread, and the handlers that were destroyed since the last
`epoll_wait`. -/
structure Dispatch (T H Fd : Type*) where
  reg : Registry T H Fd
  select : Select H
  stale : H → Bool

/-- The steps: those of the registry, and those of the loop thread with the answers of
`epoll_wait` and of the methods. -/
inductive Move (T H Fd : Type*)
  | registry (l : Label T H Fd)
  | test
  | wait (batch : List (Fd × ℕ))
  | call
  | skip
  | returned (result : Bool)

/-- The thread that takes a step. -/
def Label.thread {T H Fd : Type*} : Label T H Fd → Option T
  | start t _ => some t
  | stop t => some t
  | join t => some t
  | register t _ _ => some t
  | unregister t _ => some t
  | ctl t _ => some t
  | modify t _ _ _ => some t
  | _ => none

variable {T H Fd : Type*}

/-- `TimerManager::RemoveTimer`. -/
def removeTimer (t : T) (timer : H) : Label T H Fd := .unregister t timer

/-- What `epoll_wait` may report: events of different descriptors in the interest set, each one
asked for, or an error or a hang-up. -/
def Registry.Harvest [DecidableEq Fd] (s : Registry T H Fd) (batch : List (Fd × ℕ)) : Prop :=
  batch.length ≤ maxEvents ∧ (batch.map Prod.fst).Nodup ∧
    ∀ e ∈ batch, (s.interest e.1).any fun p =>
      e.2 ≠ 0 ∧ e.2 &&& (p.2 ||| epollErr ||| epollHup) = e.2

instance [DecidableEq Fd] (s : Registry T H Fd) : DecidablePred s.Harvest :=
  fun _ => inferInstanceAs (Decidable (_ ∧ _))

/-- The pointers that `epoll_wait` puts with the events. -/
def Registry.pointers (s : Registry T H Fd) (batch : List (Fd × ℕ)) : List (H × ℕ) :=
  batch.filterMap fun e => (s.interest e.1).map fun p => (p.1, e.2)

namespace Dispatch

variable [DecidableEq T]

/-- The loop thread takes a step of the registry only from inside a method. It runs from `Start`
to its end, which `Join` waits for. -/
def Permits (s : Dispatch T H Fd) (loop : T) (l : Label T H Fd) : Bool :=
  match l, s.select with
  | .start .., .ended => true
  | .join _, .ended => true
  | .start .., _ => false
  | .join _, _ => false
  | _, .inside .. => true
  | _, _ => l.thread ≠ some loop

/-- The registry takes a step. -/
def advance (s : Dispatch T H Fd) (l : Label T H Fd) (reg : Registry T H Fd) : Dispatch T H Fd where
  reg := reg
  select :=
    match l with
    | .start .. => .top
    | _ => s.select
  stale h := s.stale h || (s.reg.fd h).isSome && (reg.fd h).isNone

variable [Fintype T] [DecidableEq H] [DecidableEq Fd]

def next (loop : T) (s : Dispatch T H Fd) : Move T H Fd → Option (Dispatch T H Fd)
  | .registry l => if s.Permits loop l then (s.reg.next l).map (s.advance l) else none
  | .test =>
    match s.select with
    | .top =>
      some { s with select := if s.reg.state = .stopping then .ended else .waiting }
    | _ => none
  | .wait batch =>
    match s.select with
    | .waiting =>
      if s.reg.epoll = true ∧ s.reg.Harvest batch then
        some { s with select := .entry (s.reg.pointers batch), stale := fun _ => false }
      else none
    | _ => none
  | .call =>
    match s.select with
    | .testing m h events rest =>
      if reports events m then some { s with select := .inside m h events rest } else none
    | _ => none
  | .skip =>
    match s.select with
    | .testing m h events rest =>
      if reports events m then none else some { s with select := .proceed m h events rest }
    | _ => none
  | .returned result =>
    match s.select with
    | .inside m h events rest =>
      if s.reg.call loop = .idle then
        some { s with select := if result then .proceed m h events rest else .entry rest }
      else none
    | _ => none

end Dispatch

/-- An event loop with its thread. -/
def dispatch (H Fd : Type*) [DecidableEq T] [Fintype T] [DecidableEq H] [DecidableEq Fd]
    (loop : T) : System (Dispatch T H Fd) (Move T H Fd) where
  init s := (eventLoop T H Fd).init s.reg ∧ s.select = .ended ∧ s.stale = fun _ => false
  next := Dispatch.next loop

/-- **The steps of the loop and its registry**, with the conditions under which each is taken. -/
inductive Moves [DecidableEq T] [Fintype T] [DecidableEq H] [DecidableEq Fd] (loop : T)
    (s : Dispatch T H Fd) : Move T H Fd → Dispatch T H Fd → Prop
  | registry {l : Label T H Fd} {reg : Registry T H Fd} : s.Permits loop l = true →
      s.reg.next l = some reg → Moves loop s (.registry l) (s.advance l reg)
  | ended : s.select = .top → s.reg.state = .stopping →
      Moves loop s .test { s with select := .ended }
  | again : s.select = .top → s.reg.state ≠ .stopping →
      Moves loop s .test { s with select := .waiting }
  | wait {batch : List (Fd × ℕ)} : s.select = .waiting → s.reg.epoll = true →
      s.reg.Harvest batch → Moves loop s (.wait batch)
        { s with select := .entry (s.reg.pointers batch), stale := fun _ => false }
  | call {m : Method} {h : H} {events : ℕ} {rest : List (H × ℕ)} :
      s.select = .testing m h events rest → reports events m = true →
      Moves loop s .call { s with select := .inside m h events rest }
  | skip {m : Method} {h : H} {events : ℕ} {rest : List (H × ℕ)} :
      s.select = .testing m h events rest → reports events m = false →
      Moves loop s .skip { s with select := .proceed m h events rest }
  | proceed {m : Method} {h : H} {events : ℕ} {rest : List (H × ℕ)} :
      s.select = .inside m h events rest → s.reg.call loop = .idle →
      Moves loop s (.returned true) { s with select := .proceed m h events rest }
  | leave {m : Method} {h : H} {events : ℕ} {rest : List (H × ℕ)} :
      s.select = .inside m h events rest → s.reg.call loop = .idle →
      Moves loop s (.returned false) { s with select := .entry rest }

theorem moves_of_next [DecidableEq T] [Fintype T] [DecidableEq H] [DecidableEq Fd] {loop : T}
    {s s' : Dispatch T H Fd} {l : Move T H Fd} (hn : s.next loop l = some s') :
    Moves loop s l s' := by
  cases l with
  | registry l =>
    obtain ⟨hpermits, hn⟩ := Option.ite_none_right_eq_some.mp hn
    obtain ⟨reg, hreg, rfl⟩ := Option.map_eq_some_iff.mp hn
    exact .registry hpermits hreg
  | test =>
    simp only [Dispatch.next] at hn
    split at hn
    · next hc =>
      obtain rfl := Option.some.inj hn
      by_cases hstate : s.reg.state = .stopping
      · rw [if_pos hstate]
        exact .ended hc hstate
      · rw [if_neg hstate]
        exact .again hc hstate
    · cases hn
  | wait batch =>
    simp only [Dispatch.next] at hn
    split at hn
    · next hc =>
      obtain ⟨⟨hepoll, hbatch⟩, he⟩ := Option.ite_none_right_eq_some.mp hn
      obtain rfl := Option.some.inj he
      exact .wait hc hepoll hbatch
    · cases hn
  | call =>
    simp only [Dispatch.next] at hn
    split at hn
    · next hc =>
      obtain ⟨hrep, he⟩ := Option.ite_none_right_eq_some.mp hn
      obtain rfl := Option.some.inj he
      exact .call hc hrep
    · cases hn
  | skip =>
    simp only [Dispatch.next] at hn
    split at hn
    · next hc =>
      obtain ⟨hrep, he⟩ := Option.ite_none_left_eq_some.mp hn
      obtain rfl := Option.some.inj he
      exact .skip hc (Bool.eq_false_of_not_eq_true hrep)
    · cases hn
  | returned result =>
    simp only [Dispatch.next] at hn
    split at hn
    · next hc =>
      obtain ⟨hcall, he⟩ := Option.ite_none_right_eq_some.mp hn
      obtain rfl := Option.some.inj he
      cases result with
      | true => exact .proceed hc hcall
      | false => exact .leave hc hcall
    · cases hn

/-! ## When a handler is destroyed -/

/-- The step takes the last owner of `h`. -/
def Registry.Ends (s : Registry T H Fd) (h : H) : Label T H Fd → Prop
  | .ctl t _ => s.call t = .unregistering h ∧ h ∉ s.handlers ∧ h ∉ s.users ∧
      ∀ u, u ≠ t → s.call u ≠ .unregistering h
  | .release h' => h' = h ∧ h ∉ s.handlers ∧ ∀ u, s.call u ≠ .unregistering h
  | _ => False

/-- A live handler has an owner. -/
def Tight (s : Registry T H Fd) : Prop := ∀ h, s.fd h ≠ none → s.Owned h

section Destruction

variable {s s' : Registry T H Fd} {l : Label T H Fd} {t : T} {h : H}

theorem fd_drop_self [Fintype T] [DecidableEq H] [DecidableEq Fd] :
    (s.drop h).fd h = if s.Owned h then s.fd h else none := by
  unfold Registry.drop
  split
  · rfl
  · exact Function.update_self ..

theorem fd_drop_of_unowned [Fintype T] [DecidableEq H] [DecidableEq Fd] (hmap : h ∉ s.handlers)
    (husers : h ∉ s.users) (hcalls : ∀ u, s.call u ≠ .unregistering h) :
    (s.drop h).fd h = none := by
  rw [fd_drop_self]
  apply if_neg
  rintro (hm | hm | ⟨u, hu⟩)
  · exact hmap hm
  · exact husers hm
  · exact hcalls u hu

theorem Tight.drop [Fintype T] [DecidableEq H] [DecidableEq Fd]
    (hs : ∀ h', h' ≠ h → s.fd h' ≠ none → s.Owned h') : Tight (s.drop h) := by
  intro h' hfd
  rw [owned_drop]
  by_cases hne : h' = h
  · subst hne
    rw [fd_drop_self] at hfd
    by_contra hnot
    exact hfd (if_neg hnot)
  · rw [fd_drop_of_ne hne] at hfd
    exact hs h' hne hfd

theorem not_owned_of_drop [Fintype T] [DecidableEq H] [DecidableEq Fd] {h' : H}
    (hlive : s.fd h ≠ none) (hgone : (s.drop h').fd h = none) : h' = h ∧ ¬s.Owned h := by
  by_cases hne : h = h'
  · subst hne
    refine ⟨rfl, fun ho => hlive ?_⟩
    rwa [fd_drop_self, if_pos ho] at hgone
  · rw [fd_drop_of_ne hne] at hgone
    exact absurd hgone hlive

variable [DecidableEq T]

/-- An owner stays when a call begins or ends, unless the call was the owner. -/
theorem owned_setCall {c : Call H} (ho : s.Owned h) (ht : s.call t ≠ .unregistering h) :
    h ∈ s.handlers ∨ h ∈ s.users ∨ ∃ u, Function.update s.call t c u = .unregistering h :=
  ho.imp_right (Or.imp_right (exists_update ht))

theorem Tight.setCall {c : Call H} (hs : Tight s) (ht : ∀ h, s.call t ≠ .unregistering h) :
    Tight { s with call := Function.update s.call t c } :=
  fun h hfd => owned_setCall (hs h hfd) (ht h)

variable [Fintype T] [DecidableEq H] [DecidableEq Fd]

theorem tight_step (hs : Tight s) (hstep : Step s l s') : Tight s' := by
  cases hstep with
  | @start t ok hcall => exact hs.setCall (t := t) (c := .idle) (by simp [hcall])
  | @stop t hcall => exact hs.setCall (t := t) (c := .stopping) (by simp [hcall])
  | stopped => exact hs
  | @join t hcall => exact hs.setCall (t := t) (c := .idle) (by simp [hcall])
  | @insert t h events hcall =>
    intro h' hfd
    have ho := owned_setCall (t := t) (c := .registering h events) (hs h' hfd) (by simp [hcall])
    exact ho.imp_left Finset.mem_insert_of_mem
  | @erase t h hcall hin =>
    intro h' hfd
    by_cases hne : h' = h
    · -- the call holds what it takes out of the map
      subst hne
      exact .inr (.inr ⟨t, Function.update_self ..⟩)
    · have ho := owned_setCall (t := t) (c := .unregistering h) (hs h' hfd) (by simp [hcall])
      exact ho.imp_left fun hm => Finset.mem_erase.mpr ⟨hne, hm⟩
  | @add t h events f hcall => exact hs.setCall (t := t) (c := .idle) (by simp [hcall])
  | @addFails t h events hcall => exact hs.setCall (t := t) (c := .idle) (by simp [hcall])
  | @delete t h f hcall =>
    refine Tight.drop fun h' hne hfd => owned_setCall (hs h' hfd) ?_
    rw [hcall]
    exact fun he => hne (Call.unregistering.inj he).symm
  | @modify t h events f hcall => exact hs.setCall (t := t) (c := .idle) (by simp [hcall])
  | @nothing t l result hcall => exact hs.setCall (t := t) (c := .idle) (by simp [hcall])
  | @create h f hfree =>
    intro h' hfd
    by_cases hne : h' = h
    · subst hne
      exact .inr (.inl (Finset.mem_insert_self ..))
    · have hlive : s.fd h' ≠ none := (Function.update_of_ne hne ..).symm.trans_ne hfd
      exact (hs h' hlive).imp_right (Or.imp_left Finset.mem_insert_of_mem)
  | retain hlive =>
    intro h' hfd
    exact (hs h' hfd).imp_right (Or.imp_left Finset.mem_insert_of_mem)
  | @release h husers =>
    refine Tight.drop fun h' hne hfd => (hs h' hfd).imp_right (Or.imp_left fun hm => ?_)
    exact Finset.mem_erase.mpr ⟨hne, hm⟩

theorem tight_of_reachable {C : Registry T H Fd → Label T H Fd → Prop}
    (h : (eventLoop T H Fd).Reachable C s) : Tight s := by
  refine System.Reachable.invariant (I := Tight) ?_ ?_ h
  · rintro s rfl h hfd
    exact absurd rfl hfd
  · intro s l s' _ hs _ hn
    exact tight_step hs (step_of_next hn)

/-- **Only the loss of the last owner destroys a handler.** -/
theorem ends_of_gone (hstep : Step s l s') (hlive : s.fd h ≠ none) (hgone : s'.fd h = none) :
    s.Ends h l := by
  cases hstep with
  | start => exact absurd hgone hlive
  | stop => exact absurd hgone hlive
  | stopped => exact absurd hgone hlive
  | join => exact absurd hgone hlive
  | insert => exact absurd hgone hlive
  | erase => exact absurd hgone hlive
  | add => exact absurd hgone hlive
  | addFails => exact absurd hgone hlive
  | @delete t h' f hcall =>
    obtain ⟨rfl, hnot⟩ := not_owned_of_drop (s := s.delete t f) hlive hgone
    refine ⟨hcall, fun hm => hnot (.inl hm), fun hm => hnot (.inr (.inl hm)), fun u hne hu => ?_⟩
    exact hnot (.inr (.inr ⟨u, (Function.update_of_ne hne ..).trans hu⟩))
  | modify => exact absurd hgone hlive
  | nothing => exact absurd hgone hlive
  | @create h' f hfree =>
    by_cases hne : h = h'
    · exact absurd hfree (hne ▸ hlive)
    · exact absurd ((Function.update_of_ne hne ..).symm.trans hgone) hlive
  | retain => exact absurd hgone hlive
  | @release h' husers =>
    obtain ⟨rfl, hnot⟩ :=
      not_owned_of_drop (s := { s with users := s.users.erase h' }) hlive hgone
    exact ⟨rfl, fun hm => hnot (.inl hm), fun u hu => hnot (.inr (.inr ⟨u, hu⟩))⟩

/-- A handler that loses its last owner is destroyed. -/
theorem gone_of_ends (hn : s.next l = some s') (he : s.Ends h l) : s'.fd h = none := by
  cases l with
  | ctl t ok =>
    obtain ⟨hcall, hmap, husers, hothers⟩ := he
    simp only [Registry.next, hcall] at hn
    unfold Registry.ctlDel at hn
    split at hn
    · obtain ⟨-, he⟩ := Option.ite_none_right_eq_some.mp hn
      obtain rfl := Option.some.inj he
      refine fd_drop_of_unowned hmap husers fun u hu => ?_
      by_cases hne : u = t
      · subst hne
        cases (Function.update_self ..).symm.trans hu
      · exact hothers u hne ((Function.update_of_ne hne ..).symm.trans hu)
    · cases hn
  | release h' =>
    obtain ⟨rfl, hmap, hcalls⟩ := he
    obtain ⟨-, he⟩ := Option.ite_none_right_eq_some.mp hn
    obtain rfl := Option.some.inj he
    exact fd_drop_of_unowned hmap (fun hm => (Finset.mem_erase.mp hm).1 rfl) hcalls
  | _ => exact he.elim

end Destruction

/-! ## Runs that spare the batch -/

/-- No step of the registry takes the last owner of a handler that the batch still has a call for,
and a method whose own handler is gone does not go on where another call would follow. -/
def Spares (s : Dispatch T H Fd) : Move T H Fd → Prop
  | .registry l => ∀ h ∈ s.select.pending, ¬s.reg.Ends h l
  | .returned true => ∀ h ∈ s.select.later, s.stale h = false
  | _ => True

/-- What the batch holds was live when it was reported, and what it has a call for still is the
same handler. -/
structure Safe (s : Dispatch T H Fd) : Prop where
  live : ∀ h ∈ s.select.handlers, s.stale h = false → s.reg.fd h ≠ none
  fresh : ∀ h ∈ s.select.pending, s.stale h = false

section Batch

open Select

variable {H : Type*} {m : Method} {ms : List Method} {h h' : H} {events : ℕ}
  {rest : List (H × ℕ)}

theorem mem_due : h' ∈ due ms h events ↔ h' = h ∧ ∃ m ∈ ms, reports events m = true := by
  unfold due
  rw [← List.any_eq_true]
  split
  · next hany => simp [hany]
  · next hany => simp [hany]

theorem pending_entry : (entry rest).pending = pending.remaining rest := by
  cases rest with
  | nil => rfl
  | cons e rest => rfl

theorem handlers_entry : (entry rest).handlers = rest.map Prod.fst := by
  cases rest with
  | nil => rfl
  | cons e rest => rfl

theorem pending_proceed :
    (proceed m h events rest).pending = due m.after h events ++ pending.remaining rest := by
  cases m with
  | read => rfl
  | write => rfl
  | error => exact pending_entry

theorem handlers_proceed (hm : h' ∈ (proceed m h events rest).handlers) :
    h' ∈ h :: rest.map Prod.fst := by
  cases m with
  | read => exact hm
  | write => exact hm
  | error => exact List.mem_cons_of_mem _ (handlers_entry ▸ hm)

theorem pending_of_callee {c : Select H} (hc : c.callee = some h) : h ∈ c.pending := by
  cases c with
  | testing m h₀ events rest =>
    obtain ⟨hrep, he⟩ := Option.ite_none_right_eq_some.mp hc
    obtain rfl := Option.some.inj he
    exact List.mem_append_left _ (mem_due.mpr ⟨rfl, m, List.mem_cons_self .., hrep⟩)
  | ended => cases hc
  | top => cases hc
  | waiting => cases hc
  | inside => cases hc

theorem mem_remaining (hm : h ∈ pending.remaining rest) : h ∈ rest.map Prod.fst := by
  induction rest with
  | nil => exact hm
  | cons e rest ih =>
    rcases List.mem_append.mp hm with hdue | hrest
    · exact List.mem_cons.mpr (.inl (mem_due.mp hdue).1)
    · exact List.mem_cons_of_mem _ (ih hrest)

/-- A call is due only on a handler of the batch. -/
theorem handlers_of_pending {c : Select H} (hm : h ∈ c.pending) : h ∈ c.handlers := by
  cases c with
  | ended => exact hm
  | top => exact hm
  | waiting => exact hm
  | testing m h₀ events rest =>
    rcases List.mem_append.mp hm with hdue | hrest
    · exact List.mem_cons.mpr (.inl (mem_due.mp hdue).1)
    · exact List.mem_cons_of_mem _ (mem_remaining hrest)
  | inside m h₀ events rest => exact List.mem_cons_of_mem _ (mem_remaining hm)

theorem pointers_of_mem {s : Registry T H Fd} {batch : List (Fd × ℕ)}
    (hm : h ∈ (s.pointers batch).map Prod.fst) : ∃ f mask, s.interest f = some (h, mask) := by
  obtain ⟨p, hp, rfl⟩ := List.mem_map.mp hm
  obtain ⟨e, -, he⟩ := List.mem_filterMap.mp hp
  obtain ⟨⟨h, mask⟩, hi, rfl⟩ := Option.map_eq_some_iff.mp he
  exact ⟨e.1, mask, hi⟩

end Batch

section Runs

variable {s s' : Dispatch T H Fd} {h : H} {loop : T}

/-- The loop thread moves on to handlers that it had at hand before. -/
theorem Safe.proceed (hs : Safe s) {c : Select H} (hh : ∀ h ∈ c.handlers, h ∈ s.select.handlers)
    (hp : ∀ h ∈ c.pending, s.stale h = false) : Safe { s with select := c } :=
  ⟨fun h hm => hs.live h (hh h hm), hp⟩

theorem stale_advance (l : Label T H Fd) {reg : Registry T H Fd} :
    (s.advance l reg).stale h = false ↔
      s.stale h = false ∧ (s.reg.fd h = none ∨ reg.fd h ≠ none) := by
  cases hs : s.reg.fd h with
  | none => simp [Dispatch.advance, hs]
  | some f => simp [Dispatch.advance, hs, Option.isSome_iff_ne_none]

variable [DecidableEq T] [Fintype T] [DecidableEq H] [DecidableEq Fd]

theorem refines_eventLoop {C : Dispatch T H Fd → Move T H Fd → Prop} :
    Refines (dispatch H Fd loop) C (eventLoop T H Fd) Free Dispatch.reg := by
  refine ⟨fun s hi => hi.1, fun s l s' _ _ hn => ?_⟩
  cases moves_of_next hn with
  | @registry l reg hpermits hreg => exact .inr ⟨l, trivial, hreg⟩
  | ended => exact .inl rfl
  | again => exact .inl rfl
  | wait => exact .inl rfl
  | call => exact .inl rfl
  | skip => exact .inl rfl
  | proceed => exact .inl rfl
  | leave => exact .inl rfl

/-- A step of the registry that spares the batch. -/
theorem Safe.advance {l : Label T H Fd} {reg : Registry T H Fd} (hs : Safe s)
    (hspares : ∀ h ∈ s.select.pending, ¬s.reg.Ends h l) (hn : s.reg.next l = some reg) :
    Safe { s.advance l reg with select := s.select } := by
  refine ⟨fun h hm hstale => ?_, fun h hm => ?_⟩
  · obtain ⟨hold, hgone⟩ := (stale_advance l).mp hstale
    exact hgone.resolve_left (hs.live h hm hold)
  · have hold := hs.fresh h hm
    have hlive := hs.live h (handlers_of_pending hm) hold
    refine (stale_advance l).mpr ⟨hold, .inr fun hgone => ?_⟩
    exact hspares h hm (ends_of_gone (step_of_next hn) hlive hgone)

/-- **One step keeps the batch**, where it spares the batch. -/
theorem safe_step {l : Move T H Fd} (hinv : Inv s.reg) (hs : Safe s) (hspares : Spares s l)
    (hstep : Moves loop s l s') : Safe s' := by
  cases hstep with
  | @registry l reg hpermits hreg =>
    have hsafe := hs.advance hspares hreg
    cases l with
    | start t ok => exact ⟨nofun, nofun⟩
    | _ => exact hsafe
  | ended => exact ⟨nofun, nofun⟩
  | again => exact ⟨nofun, nofun⟩
  | wait =>
    refine ⟨fun h hm _ => ?_, fun _ _ => rfl⟩
    rw [handlers_entry] at hm
    obtain ⟨f, mask, hi⟩ := pointers_of_mem hm
    simp [hinv.entry f h mask hi]
  | call hc hrep =>
    refine hs.proceed (fun h' hm => by rwa [hc]) fun h' hm => hs.fresh h' ?_
    rw [hc]
    exact List.mem_append_right _ hm
  | skip hc hrep =>
    refine hs.proceed (fun h' hm => hc ▸ handlers_proceed hm) fun h' hm => hs.fresh h' ?_
    rw [pending_proceed] at hm
    rw [hc]
    refine List.mem_append.mpr ((List.mem_append.mp hm).imp_left fun hdue => ?_)
    obtain ⟨rfl, m, hm, hrep⟩ := mem_due.mp hdue
    exact mem_due.mpr ⟨rfl, m, List.mem_cons_of_mem _ hm, hrep⟩
  | proceed hc hcall =>
    refine hs.proceed (fun h' hm => hc ▸ handlers_proceed hm) fun h' hm => ?_
    rw [pending_proceed] at hm
    rcases List.mem_append.mp hm with hlater | hrest
    · exact hspares h' (hc ▸ hlater)
    · exact hs.fresh h' (hc ▸ hrest)
  | leave hc hcall =>
    refine hs.proceed (fun h' hm => ?_) fun h' hm => hs.fresh h' ?_
    · rw [hc]
      exact List.mem_cons_of_mem _ (handlers_entry ▸ hm)
    · rw [pending_entry] at hm
      rwa [hc]

/-- A step that does not spare the batch leaves it with a call for a handler that is gone. -/
theorem stale_of_not_spares {l : Move T H Fd} (hinv : Inv s.reg) (hnot : ¬Spares s l)
    (hn : s.next loop l = some s') : ∃ h ∈ s'.select.pending, s'.stale h = true := by
  cases moves_of_next hn with
  | @registry l reg hpermits hreg =>
    simp only [Spares, not_forall, not_not] at hnot
    obtain ⟨h, hm, he⟩ := hnot
    have hlive : s.reg.fd h ≠ none := by
      apply hinv.live h
      cases l with
      | ctl t ok => exact .inr (.inr ⟨t, he.1⟩)
      | release h' =>
        obtain ⟨⟨husers, -⟩, -⟩ := Option.ite_none_right_eq_some.mp hreg
        exact .inr (.inl (he.1 ▸ husers))
      | _ => exact he.elim
    refine ⟨h, ?_, Bool.eq_true_of_not_eq_false fun hstale => ?_⟩
    · cases l with
      | start => exact he.elim
      | _ => exact hm
    · exact ((stale_advance l).mp hstale).2.elim hlive fun hsome => hsome (gone_of_ends hreg he)
  | proceed hc hcall =>
    simp only [Spares, not_forall] at hnot
    obtain ⟨h, hm, hstale⟩ := hnot
    refine ⟨h, ?_, Bool.eq_true_of_not_eq_false hstale⟩
    rw [hc] at hm
    rw [pending_proceed]
    exact List.mem_append_left _ hm
  | ended => exact absurd trivial hnot
  | again => exact absurd trivial hnot
  | wait => exact absurd trivial hnot
  | call => exact absurd trivial hnot
  | skip => exact absurd trivial hnot
  | leave => exact absurd trivial hnot

/-- **Every method is called on a live handler** in the runs that spare the batch: it has an owner,
and it is the one that `epoll_wait` reported. -/
theorem calls_owned (h : (dispatch H Fd loop).Reachable Spares s) :
    ∀ h, s.select.callee = some h → s.reg.Owned h ∧ s.stale h = false := by
  have hsafe : Safe s := by
    refine System.Reachable.invariant (I := Safe) ?_ ?_ h
    · rintro s ⟨-, hend, -⟩
      refine ⟨?_, ?_⟩ <;> rw [hend] <;> exact nofun
    · intro s l s' hr hs hc hn
      exact safe_step (inv_of_reachable (refines_eventLoop.reachable hr)) hs hc (moves_of_next hn)
  intro h' hc
  have hpending := pending_of_callee hc
  have hstale := hsafe.fresh h' hpending
  refine ⟨?_, hstale⟩
  exact tight_of_reachable (refines_eventLoop.reachable h) h'
    (hsafe.live h' (handlers_of_pending hpending) hstale)

instance (s : Registry T H Fd) (h : H) : DecidablePred (s.Ends h)
  | .ctl .. => inferInstanceAs (Decidable (_ ∧ _ ∧ _ ∧ _))
  | .release _ => inferInstanceAs (Decidable (_ ∧ _ ∧ _))
  | .start .. => isFalse id
  | .stop _ => isFalse id
  | .join _ => isFalse id
  | .register .. => isFalse id
  | .unregister .. => isFalse id
  | .modify .. => isFalse id
  | .create .. => isFalse id
  | .retain _ => isFalse id

instance (s : Dispatch T H Fd) : DecidablePred (Spares s)
  | .registry l => inferInstanceAs (Decidable (∀ h ∈ s.select.pending, ¬s.reg.Ends h l))
  | .returned true => inferInstanceAs (Decidable (∀ h ∈ s.select.later, s.stale h = false))
  | .returned false => isTrue trivial
  | .test => isTrue trivial
  | .wait _ => isTrue trivial
  | .call => isTrue trivial
  | .skip => isTrue trivial

/-- A handler unregisters itself in its method, which returns `false`, and the batch goes on to the
next one. -/
theorem calls_owned_next : ∃ s : Dispatch Bool ℕ ℕ,
    (dispatch ℕ ℕ false).Reachable Spares s ∧ s.select.callee = some 2 ∧ s.reg.Owned 2 ∧
      s.stale 2 = false := by
  obtain ⟨s, hrun, hc⟩ : ∃ s : Dispatch Bool ℕ ℕ,
      (dispatch ℕ ℕ false).exec Spares ⟨.constructed, .ended, fun _ => false⟩
        [.registry (.start true true), .registry (.create 1 10), .registry (.create 2 11),
          .registry (.register true 1 3), .registry (.ctl true true),
          .registry (.register true 2 3), .registry (.ctl true true), .registry (.release 1),
          .registry (.release 2), .test, .wait [(10, 1), (11, 1)], .call,
          .registry (.unregister false 1), .registry (.ctl false true), .returned false] =
        some s ∧ s.select.callee = some 2 :=
    ⟨_, rfl, rfl⟩
  have hreach : (dispatch ℕ ℕ false).Reachable Spares s := by
    refine System.reachable_of_exec ?_ hrun
    exact ⟨rfl, rfl, rfl⟩
  exact ⟨s, hreach, hc, calls_owned hreach 2 hc⟩

/-- The main thread removes a timer after `epoll_wait` reported it. -/
theorem calls_removed : ¬∀ s : Dispatch Bool ℕ ℕ, (dispatch ℕ ℕ false).Reachable Free s →
    ∀ h, s.select.callee = some h → s.reg.Owned h ∧ s.stale h = false := by
  intro h
  obtain ⟨s, hrun, hc, hstale⟩ : ∃ s : Dispatch Bool ℕ ℕ,
      (dispatch ℕ ℕ false).exec Free ⟨.constructed, .ended, fun _ => false⟩
        [.registry (.start true true), .registry (.create 1 10),
          .registry (.register true 1 3), .registry (.ctl true true), .registry (.release 1),
          .test, .wait [(10, 1)], .registry (removeTimer true 1), .registry (.ctl true true)] =
        some s ∧ s.select.callee = some 1 ∧ s.stale 1 = true :=
    ⟨_, rfl, rfl, rfl⟩
  have hreach : (dispatch ℕ ℕ false).Reachable Free s := by
    refine System.reachable_of_exec ?_ hrun
    exact ⟨rfl, rfl, rfl⟩
  have hfresh := (h s hreach 1 hc).2
  rw [hstale] at hfresh
  cases hfresh

end Runs

end Xfnet.EventLoop
