import Xfnet.EventLoop.Lifetime
import Xfnet.Kernel
import Xfnet.Timer.Interval

/-!
# When a registration fails

`EventLoop::Register` inserts the handler in `m_handlers` and then asks the kernel, and it does not
take the handler out again when the kernel refuses. So the two ways to fail differ: a duplicate
leaves everything as it was, a refusal leaves the handler in `m_handlers`, and with it the
descriptor open, for a caller that was told `false`.
-/

namespace Xfnet.EventLoop

open Transition TimerManager

variable {T H Fd : Type*} [DecidableEq T] [Fintype T] [DecidableEq H] [DecidableEq Fd]

/-- `EventHandler::EVENT_READ`. -/
def eventRead : ℕ := epollIn ||| epollPri

namespace Registry

/-- A whole call of `Register`, where `epoll_ctl` answers `ok` if it comes to that. -/
def registerCall (s : Registry T H Fd) (t : T) (h : H) (events : ℕ) (ok : Bool) :
    Option (Registry T H Fd × Bool) :=
  match s.next (.register t h events) with
  | some s' =>
    if s'.call t = .idle then some (s', s'.result t)
    else (s'.next (.ctl t ok)).map fun s'' => (s'', s''.result t)
  | none => none

/-- `CreateEventHandler` of a server or a client: the handler takes over the descriptor, and the
local `handler` goes out of scope at the end. -/
def createEventHandler (s : Registry T H Fd) (t : T) (h : H) (f : Fd) (events : ℕ) (ok : Bool) :
    Option (Registry T H Fd × Bool) := do
  let s₁ ← s.next (.create h f)
  let (s₂, registered) ← s₁.registerCall t h events ok
  let s₃ ← s₂.next (.release h)
  some (s₃, registered)

/-- `AddTimer`: `timerfd_create` gives the descriptor `f` if `created`, and `timerfd_settime`, which
takes no invalid time, sets it if `armed`. The result is the handler, or the null pointer. -/
def addTimer (s : Registry T H Fd) (t : T) (h : H) (f : Fd) (intervalMs : BitVec 32)
    (created armed ok : Bool) : Option (Registry T H Fd × Option H) :=
  if created = false then some (s, none)
  else if f ∈ s.opened then none
  else if armed = false then
    -- `~Timer` closes the descriptor
    some ({ s with opened := (insert f s.opened).erase f }, none)
  else if (initTime intervalMs).itValue.Valid then
    (s.createEventHandler t h f eventRead ok).map fun p => (p.1, if p.2 then some h else none)
  else none

/-- The same handlers in the loop, the same interest set, and the same descriptors open. -/
structure Untouched (s s' : Registry T H Fd) : Prop where
  handlers : s'.handlers = s.handlers
  interest : s'.interest = s.interest
  opened : s'.opened = s.opened

end Registry

variable {s s' : Registry T H Fd} {t : T} {h : H} {f : Fd} {events : ℕ} {ok registered : Bool}

/-- **The outcomes of `Register`**: a duplicate, a refusal, and an entry in both places. -/
theorem registerCall_cases (hcall : s.registerCall t h events ok = some (s', registered)) :
    (h ∈ s.handlers ∧ registered = false ∧ s' = s.finish t false) ∨
      (h ∉ s.handlers ∧ ok = false ∧ registered = false ∧ s'.handlers = insert h s.handlers) ∨
      (h ∉ s.handlers ∧ ok = true ∧ registered = true) := by
  unfold Registry.registerCall at hcall
  split at hcall
  · next s₁ hregister =>
    obtain ⟨-, hregister⟩ := Option.ite_none_right_eq_some.mp hregister
    obtain ⟨-, hregister⟩ := Option.ite_none_right_eq_some.mp hregister
    split at hregister
    · next hdup =>
      cases hregister
      have hidle : (s.finish t false).call t = .idle := Function.update_self ..
      rw [if_pos hidle] at hcall
      cases hcall
      exact .inl ⟨hdup, Function.update_self .., rfl⟩
    · next hnew =>
      cases hregister
      have hpending : Function.update s.call t (.registering h events) t = .registering h events :=
        Function.update_self ..
      have hbusy : Function.update s.call t (.registering h events) t ≠ .idle := by
        rw [hpending]
        nofun
      rw [if_neg hbusy] at hcall
      obtain ⟨s₂, hctl, heq⟩ := Option.map_eq_some_iff.mp hcall
      cases heq
      simp only [Registry.next, hpending, Registry.ctlAdd] at hctl
      split at hctl
      · cases ok with
        | true =>
          obtain ⟨-, hput⟩ := Option.ite_none_right_eq_some.mp hctl
          cases hput
          exact .inr (.inr ⟨hnew, rfl, Function.update_self ..⟩)
        | false =>
          cases hctl
          exact .inr (.inl ⟨hnew, rfl, Function.update_self .., rfl⟩)
      · cases hctl
  · cases hcall

/-- **`Register` alone.** -/
theorem registerCall_untouched_iff (hcall : s.registerCall t h events ok = some (s', registered)) :
    (registered = false → s.Untouched s') ↔ h ∈ s.handlers ∨ ok = true := by
  rcases registerCall_cases hcall with ⟨hdup, -, rfl⟩ | ⟨hnew, rfl, rfl, hins⟩ | ⟨-, rfl, rfl⟩
  · exact ⟨fun _ => .inl hdup, fun _ _ => ⟨rfl, rfl, rfl⟩⟩
  · refine ⟨fun hsame => ?_, fun h => ?_⟩
    · have hhandlers := (hsame rfl).handlers
      rw [hins] at hhandlers
      exact absurd (hhandlers ▸ Finset.mem_insert_self h s.handlers) hnew
    · exact absurd (h.resolve_left hnew) (by decide)
  · exact ⟨fun _ => .inr rfl, fun _ => nofun⟩

/-- A callback that creates a handler registers it, or leaves it in `m_handlers`. -/
theorem createEventHandler_cases (hinv : Inv s)
    (hcreate : s.createEventHandler t h f events ok = some (s', registered)) :
    registered = ok ∧ h ∉ s.handlers ∧ (ok = false → h ∈ s'.handlers) := by
  simp only [Registry.createEventHandler, Option.bind_eq_bind, Option.bind_eq_some_iff,
    Option.some.injEq] at hcreate
  obtain ⟨s₁, hnew, ⟨s₂, r⟩, hcall, s₃, hrelease, heq⟩ := hcreate
  cases heq
  obtain ⟨⟨hfree, -⟩, hnew⟩ := Option.ite_none_right_eq_some.mp hnew
  cases hnew
  obtain ⟨-, hrelease⟩ := Option.ite_none_right_eq_some.mp hrelease
  cases hrelease
  have hfresh : h ∉ s.handlers := fun hmem => hinv.live h (.inl hmem) hfree
  rcases registerCall_cases hcall with ⟨hdup, -⟩ | ⟨-, rfl, rfl, hins⟩ | ⟨-, rfl, rfl⟩
  · exact absurd hdup hfresh
  · refine ⟨rfl, hfresh, fun _ => ?_⟩
    rw [handlers_drop]
    exact hins ▸ Finset.mem_insert_self h _
  · exact ⟨rfl, hfresh, nofun⟩

/-- **A callback that creates a handler.** -/
theorem createEventHandler_untouched_iff (hinv : Inv s)
    (hcreate : s.createEventHandler t h f events ok = some (s', registered)) :
    (registered = false → s.Untouched s') ↔ ok = true := by
  obtain ⟨rfl, hfresh, hstays⟩ := createEventHandler_cases hinv hcreate
  refine ⟨fun hsame => ?_, fun htrue hfalse => absurd htrue (by simp [hfalse])⟩
  cases hok : registered with
  | true => rfl
  | false => exact absurd ((hsame hok).handlers ▸ hstays hok) hfresh

/-- **`AddTimer`.** -/
theorem addTimer_untouched_iff {intervalMs : BitVec 32} {created armed : Bool} {timer : Option H}
    (hinv : Inv s) (htimer : s.addTimer t h f intervalMs created armed ok = some (s', timer)) :
    (timer = none → s.Untouched s') ↔ created = false ∨ armed = false ∨ ok = true := by
  unfold Registry.addTimer at htimer
  split_ifs at htimer with hcreated hopened harmed
  · cases htimer
    exact ⟨fun _ => .inl hcreated, fun _ _ => ⟨rfl, rfl, rfl⟩⟩
  · cases htimer
    exact ⟨fun _ => .inr (.inl harmed), fun _ _ => ⟨rfl, rfl, Finset.erase_insert hopened⟩⟩
  · obtain ⟨⟨s₁, registered⟩, hcreate, heq⟩ := Option.map_eq_some_iff.mp htimer
    cases heq
    have hiff := createEventHandler_untouched_iff hinv hcreate
    have hnull : (if registered = true then some h else none) = none ↔ registered = false := by
      cases registered <;> simp
    rw [or_iff_right hcreated, or_iff_right harmed, ← hiff]
    exact imp_congr_left hnull

/-- **Failures that leave nothing behind**: `Register` fails without a trace for a duplicate only,
and what it is part of only when it fails before `Register`. The calls on `u` are made in a state of
a run, where a handler that is being created is not in the loop. -/
theorem register_atomic_iff {u u₁ u₂ : Registry T H Fd} {h' : H} {made created armed : Bool}
    {intervalMs : BitVec 32} {timer : Option H}
    (hcall : s.registerCall t h events ok = some (s', registered))
    (hu : (eventLoop T H Fd).Reachable Free u)
    (hcreate : u.createEventHandler t h' f events ok = some (u₁, made))
    (htimer : u.addTimer t h' f intervalMs created armed ok = some (u₂, timer)) :
    ((registered = false → s.Untouched s') ↔ h ∈ s.handlers ∨ ok = true) ∧
      ((made = false → u.Untouched u₁) ↔ ok = true) ∧
      ((timer = none → u.Untouched u₂) ↔ created = false ∨ armed = false ∨ ok = true) := by
  have hinv : Inv u := inv_of_reachable hu
  exact ⟨registerCall_untouched_iff hcall, createEventHandler_untouched_iff hinv hcreate,
    addTimer_untouched_iff hinv htimer⟩

/-- A handler that is registered already, and a timer that cannot be set, leave nothing behind; a
new handler that the kernel refuses does. -/
theorem register_atomic_refusals : ∃ (u s' u₁ u₂ : Registry Unit ℕ ℕ),
    (eventLoop Unit ℕ ℕ).Reachable Free u ∧
      u.registerCall () 1 eventRead false = some (s', false) ∧ u.Untouched s' ∧
      u.createEventHandler () 2 11 eventRead false = some (u₁, false) ∧ ¬u.Untouched u₁ ∧
      u.addTimer () 2 11 100 true false false = some (u₂, none) ∧ u.Untouched u₂ := by
  obtain ⟨u, s', u₁, u₂, hrun, hcall, hcreate, htimer, hmem⟩ : ∃ u s' u₁ u₂ : Registry Unit ℕ ℕ,
      (eventLoop Unit ℕ ℕ).exec Free .constructed
          [.start () true, .create 1 10, .register () 1 eventRead, .ctl () true] = some u ∧
        u.registerCall () 1 eventRead false = some (s', false) ∧
        u.createEventHandler () 2 11 eventRead false = some (u₁, false) ∧
        u.addTimer () 2 11 100 true false false = some (u₂, none) ∧ 1 ∈ u.handlers :=
    ⟨_, _, _, _, rfl, rfl, rfl, rfl, by decide⟩
  have hreach := System.reachable_of_exec rfl hrun
  obtain ⟨hregister, hcreated, hadded⟩ := register_atomic_iff hcall hreach hcreate htimer
  refine ⟨u, s', u₁, u₂, hreach, hcall, hregister.mpr (.inl hmem) rfl, hcreate, fun hsame => ?_,
    htimer, hadded.mpr (.inr (.inl rfl)) rfl⟩
  exact absurd (hcreated.mp fun _ => hsame) (by decide)

/-- The kernel refuses the descriptor (`ENOSPC`, `ENOMEM`) after the insertion. -/
theorem refused_handler_stays : ¬∀ (s s' : Registry Unit ℕ ℕ) (t : Unit) (h events : ℕ) (ok : Bool),
    (eventLoop Unit ℕ ℕ).Reachable Free s → s.registerCall t h events ok = some (s', false) →
      s.Untouched s' := by
  intro hatomic
  obtain ⟨s, s', hrun, hcall, hbefore, hafter⟩ : ∃ s s' : Registry Unit ℕ ℕ,
      (eventLoop Unit ℕ ℕ).exec Free .constructed [.start () true, .create 1 10] = some s ∧
        s.registerCall () 1 eventRead false = some (s', false) ∧ s.handlers = ∅ ∧
        s'.handlers = {1} :=
    ⟨_, _, rfl, rfl, rfl, by decide⟩
  have hsame := hatomic s s' () 1 eventRead false (System.reachable_of_exec rfl hrun) hcall
  have hempty : ({1} : Finset ℕ) = ∅ := hafter.symm.trans (hsame.handlers.trans hbefore)
  exact absurd hempty (by decide)

end Xfnet.EventLoop
