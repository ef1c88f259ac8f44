import Mathlib.Data.Finset.Insert
import Xfnet.EventLoop.Dispatch
import Xfnet.Timer.WorkThreads

/-!
# Timers and their callbacks

A `TimerManager` with its timers, from `AddTimer` to the callback: the loop thread harvests the
descriptors that are ready, reads them one by one and pushes their handlers, and the work threads
run the callbacks of the handlers they pop. Any threads, work threads in a callback among them, add,
set and remove timers meanwhile.

A timer is a `TimerHandler` object, and its address serves for a later one once it has no owner any
more. A method called on an object that is gone has no meaning, so the step is not there.
-/

namespace Xfnet.TimerManager.Timers

open Counting Monitor Transition BlockingQueue

/-- How a `TimerHandler` lies in memory: its size and the offset of `m_timer`, which comes behind
the base class. -/
structure Layout where
  size : ℕ
  timer : ℕ
  timer_pos : 0 < timer
  timer_lt : timer < size

/-- Objects at the two addresses share no byte. -/
def Layout.Apart (L : Layout) (a b : ℕ) : Prop := a + L.size ≤ b ∨ b + L.size ≤ a

instance (L : Layout) (a b : ℕ) : Decidable (L.Apart a b) := inferInstanceAs (Decidable (_ ∨ _))

/-- On a machine with pointers of 8 bytes: the base class has the table of virtual functions, the
`weak_ptr` of `enable_shared_from_this` and `m_loop`; `m_timer` has `m_fd`, `m_cb` and `m_arg`. -/
def lp64 : Layout := ⟨64, 32, by decide, by decide⟩

/-- A call of a thread between its two halves: `AddTimer` in `Register` and `RemoveTimer` in
`Unregister`, before `epoll_ctl`. Both own the handler. -/
inductive Call (H : Type*)
  | idle
  | adding (h : H)
  | removing (h : H)
  deriving DecidableEq

def Call.handler {H : Type*} : Call H → Option H
  | idle => none
  | adding h => some h
  | removing h => some h

/-- A call of `m_cb`, for the timer of which handler and with which arguments. -/
structure Invocation (H : Type*) where
  handler : H
  timer : ℕ
  arg : ℕ
  deriving DecidableEq

/-- The threads around the queue; the handlers ever created, each with its address, its interval,
its `m_arg` and what `AddTimer` returned for it (`none` before it returns and for the null pointer);
`m_handlers` and the interest set of the loop; the events of the current `Select` still to be looked
at and the handler whose `HandleRead` runs; for each caller its call in progress and what `SetTimer`
or `RemoveTimer` last returned; the timers for which `RemoveTimer` found the handler and returned
`true`; the callback each work thread is in, and all callbacks called so far. -/
structure State (n : ℕ) (U H : Type*) where
  manager : Manager n H
  created : Finset H
  address : H → ℕ
  interval : H → ℕ
  arg : H → ℕ
  handle : H → Option ℕ
  handlers : Finset H
  interest : Finset H
  batch : List H
  reading : Option H
  call : U → Call H
  result : U → Bool
  removed : Finset H
  running : Fin n → Option H
  calls : List (Invocation H)

/-- The steps of the callers `u`, of the loop thread and of the work threads `i`. -/
inductive Label (n : ℕ) (U H : Type*)
  | add (u : U) (h : H) (address interval arg : ℕ)
  | register (u : U) (ok : Bool)
  | set (u : U) (timer : ℕ) (h : H) (interval : ℕ) (ok : Bool)
  | remove (u : U) (timer : ℕ) (found : Option H)
  | unregister (u : U)
  | select (batch : List H)
  | expire (woken : Option (Thread n))
  | skip
  | handled
  | work (l : TimerManager.Label n H)
  | run (i : Fin n)
  | finish (i : Fin n)

variable {n : ℕ} {U H : Type*} [DecidableEq H] (L : Layout)

namespace State

/-- The handler has an owner: `m_handlers`, a local variable of `AddTimer`, `Unregister`,
`HandleRead` or `WorkThread`, or an entry of the queue. -/
def Owned (s : State n U H) (h : H) : Prop :=
  h ∈ s.handlers ∨ (∃ u, (s.call u).handler = some h) ∨ s.reading = some h ∨
    0 < inFlight (some h) s.manager.queue ∨ ∃ i, s.running i = some h

variable [Fintype U]

instance (s : State n U H) : DecidablePred s.Owned := fun _ => inferInstanceAs (Decidable (_ ∨ _))

variable [DecidableEq U]

/-- The `this` of the handler's `Timer`. -/
def timer (s : State n U H) (h : H) : ℕ := s.address h + L.timer

/-- The caller's call returns `result`. -/
def answer (s : State n U H) (u : U) (result : Bool) : State n U H :=
  { s with call := Function.update s.call u .idle, result := Function.update s.result u result }

/-- `AddTimer` up to the critical section of `Register`, where a descriptor was made and set. -/
def add (s : State n U H) (u : U) (h : H) (address interval arg : ℕ) : Option (State n U H) :=
  if h ∉ s.created ∧ ∀ h' ∈ s.created, s.Owned h' → L.Apart address (s.address h') then
    some { s with
      created := insert h s.created
      address := Function.update s.address h address
      interval := Function.update s.interval h interval
      arg := Function.update s.arg h arg
      handlers := insert h s.handlers
      call := Function.update s.call u (.adding h) }
  else none

/-- The epoll half of `AddTimer`, and its return. -/
def register (s : State n U H) (u : U) (ok : Bool) : Option (State n U H) :=
  match s.call u with
  | .adding h =>
    if ok then
      some { s with
        interest := insert h s.interest
        handle := Function.update s.handle h (some (s.address h))
        call := Function.update s.call u .idle }
    else some { s with call := Function.update s.call u .idle }
  | _ => none

/-- `SetTimer`, which takes the pointer for that of a handler. -/
def set (s : State n U H) (u : U) (timer : ℕ) (h : H) (interval : ℕ) (ok : Bool) :
    Option (State n U H) :=
  if s.Owned h ∧ s.address h = timer then
    if ok then
      some { s.answer u true with interval := Function.update s.interval h interval }
    else some (s.answer u false)
  else none

/-- `RemoveTimer` up to the end of the critical section of `Unregister`, with what `find` finds
under the pointer. -/
def remove (s : State n U H) (u : U) (timer : ℕ) : Option H → Option (State n U H)
  | some h =>
    if h ∈ s.handlers ∧ s.address h = timer then
      some { s with
        handlers := s.handlers.erase h
        call := Function.update s.call u (.removing h) }
    else none
  | none => if ∀ h ∈ s.handlers, s.address h ≠ timer then some (s.answer u true) else none

/-- The epoll half of `RemoveTimer`: the kernel refuses only a descriptor that is not in the set. -/
def unregister (s : State n U H) (u : U) : Option (State n U H) :=
  match s.call u with
  | .removing h =>
    if h ∈ s.interest then
      some { s.answer u true with
        interest := s.interest.erase h
        removed := insert h s.removed }
    else some (s.answer u false)
  | _ => none

/-- `epoll_wait`. A descriptor closed with its handler is not in the set any more. -/
def select (s : State n U H) (batch : List H) : Option (State n U H) :=
  if s.batch = [] ∧ s.reading = none ∧ batch.length ≤ EventLoop.maxEvents ∧ batch.Nodup ∧
      ∀ h ∈ batch, h ∈ s.interest ∧ s.Owned h then
    some { s with batch := batch }
  else none

/-- `HandleRead` where `read` finds that the timer expired, up to the first critical section of its
`Push`. -/
def expire (s : State n U H) (woken : Option (Thread n)) : Option (State n U H) :=
  match s.batch with
  | [] => none
  | h :: batch =>
    if s.reading = none ∧ s.Owned h ∧ s.interval h ≠ 0 then
      (s.manager.next (.queue (.call .loop (.push (some h)) woken))).map fun manager =>
        { s with manager := manager, batch := batch, reading := some h }
    else none

/-- `HandleRead` where `read` fails. -/
def skip (s : State n U H) : Option (State n U H) :=
  match s.batch with
  | [] => none
  | h :: batch => if s.reading = none ∧ s.Owned h then some { s with batch := batch } else none

/-- `HandleRead` returns. -/
def handled (s : State n U H) : Option (State n U H) :=
  (s.manager.next (.queue (.leave .loop))).map fun manager =>
    { s with manager := manager, reading := none }

/-- What the threads do beside `HandleRead` and the callbacks: the loop's waits in `Push`, `Stop`,
and the work threads between two callbacks. -/
def permits (s : State n U H) : TimerManager.Label n H → Bool
  | .queue (.call .loop _ _) => false
  | .queue (.leave .loop) => false
  | .queue (.call (.worker i) _ _) => s.running i = none
  | .run _ => false
  | _ => true

def work (s : State n U H) (l : TimerManager.Label n H) : Option (State n U H) :=
  if s.permits l then (s.manager.next l).map fun manager => { s with manager := manager } else none

/-- `HandleTimeout` calls the callback of the handler that the work thread popped. -/
def run (s : State n U H) (i : Fin n) : Option (State n U H) :=
  match s.manager.queue.pc (.worker i) with
  | .returned (.handed (some h)) =>
    (s.manager.next (.run i)).map fun manager =>
      { s with
        manager := manager
        running := Function.update s.running i (some h)
        calls := s.calls ++ [⟨h, s.timer L h, s.arg h⟩] }
  | _ => none

/-- The callback returns, and the `handler` of this turn of the loop goes out of scope. -/
def finish (s : State n U H) (i : Fin n) : Option (State n U H) :=
  if s.running i = none then none
  else some { s with running := Function.update s.running i none }

def next (s : State n U H) : Label n U H → Option (State n U H)
  | .add u h address interval arg =>
    if s.call u = .idle then s.add L u h address interval arg else none
  | .register u ok => s.register u ok
  | .set u timer h interval ok =>
    if s.call u = .idle then s.set u timer h interval ok else none
  | .remove u timer found => if s.call u = .idle then s.remove u timer found else none
  | .unregister u => s.unregister u
  | .select batch => s.select batch
  | .expire woken => s.expire woken
  | .skip => s.skip
  | .handled => s.handled
  | .work l => s.work l
  | .run i => s.run L i
  | .finish i => s.finish i

end State

/-- A manager right after `Start`, without timers. -/
def State.fresh (n : ℕ) (U H : Type*) : State n U H where
  manager := ⟨⟨⟨[], defaultCapacity⟩, fun _ => .idle, []⟩, 0, [], ∅⟩
  created := ∅
  address _ := 0
  interval _ := 0
  arg _ := 0
  handle _ := none
  handlers := ∅
  interest := ∅
  batch := []
  reading := none
  call _ := .idle
  result _ := false
  removed := ∅
  running _ := none
  calls := []

def timers (n : ℕ) (U H : Type*) [DecidableEq U] [Fintype U] [DecidableEq H] :
    System (State n U H) (Label n U H) where
  init s := s = .fresh n U H
  next := State.next L

/-! ## What a step can do -/

section Steps

variable [DecidableEq U]

/-- **The steps**, each with the conditions under which it is taken and all that it changes. -/
inductive Step (s : State n U H) : Label n U H → State n U H → Prop
  | add {u : U} {h : H} {address interval arg : ℕ} : s.call u = .idle → h ∉ s.created →
      (∀ h' ∈ s.created, s.Owned h' → L.Apart address (s.address h')) →
      Step s (.add u h address interval arg)
        { s with
          created := insert h s.created
          address := Function.update s.address h address
          interval := Function.update s.interval h interval
          arg := Function.update s.arg h arg
          handlers := insert h s.handlers
          call := Function.update s.call u (.adding h) }
  | registered {u : U} {h : H} : s.call u = .adding h → Step s (.register u true)
      { s with
        interest := insert h s.interest
        handle := Function.update s.handle h (some (s.address h))
        call := Function.update s.call u .idle }
  | refused {u : U} {h : H} : s.call u = .adding h →
      Step s (.register u false) { s with call := Function.update s.call u .idle }
  | set {u : U} {timer interval : ℕ} {h : H} : s.call u = .idle → s.Owned h →
      s.address h = timer → Step s (.set u timer h interval true)
        { s.answer u true with interval := Function.update s.interval h interval }
  | unset {u : U} {timer interval : ℕ} {h : H} : s.call u = .idle → s.Owned h →
      s.address h = timer → Step s (.set u timer h interval false) (s.answer u false)
  | found {u : U} {timer : ℕ} {h : H} : s.call u = .idle → h ∈ s.handlers → s.address h = timer →
      Step s (.remove u timer (some h))
        { s with
          handlers := s.handlers.erase h
          call := Function.update s.call u (.removing h) }
  | missing {u : U} {timer : ℕ} : s.call u = .idle → (∀ h ∈ s.handlers, s.address h ≠ timer) →
      Step s (.remove u timer none) (s.answer u true)
  | removed {u : U} {h : H} : s.call u = .removing h → h ∈ s.interest → Step s (.unregister u)
      { s.answer u true with interest := s.interest.erase h, removed := insert h s.removed }
  | unknown {u : U} {h : H} : s.call u = .removing h → h ∉ s.interest →
      Step s (.unregister u) (s.answer u false)
  | select {batch : List H} : s.batch = [] → s.reading = none →
      batch.length ≤ EventLoop.maxEvents → batch.Nodup →
      (∀ h ∈ batch, h ∈ s.interest ∧ s.Owned h) → Step s (.select batch) { s with batch := batch }
  | expire {woken : Option (Thread n)} {h : H} {batch : List H} {manager : Manager n H} :
      s.batch = h :: batch → s.reading = none → s.Owned h → s.interval h ≠ 0 →
      s.manager.next (.queue (.call .loop (.push (some h)) woken)) = some manager →
      Step s (.expire woken)
        { s with manager := manager, batch := batch, reading := some h }
  | skip {h : H} {batch : List H} : s.batch = h :: batch → s.reading = none → s.Owned h →
      Step s .skip { s with batch := batch }
  | handled {manager : Manager n H} : s.manager.next (.queue (.leave .loop)) = some manager →
      Step s .handled { s with manager := manager, reading := none }
  | work {l : TimerManager.Label n H} {manager : Manager n H} : s.permits l →
      s.manager.next l = some manager → Step s (.work l) { s with manager := manager }
  | run {i : Fin n} {h : H} {manager : Manager n H} :
      s.manager.queue.pc (.worker i) = .returned (.handed (some h)) →
      s.manager.next (.run i) = some manager → Step s (.run i)
        { s with
          manager := manager
          running := Function.update s.running i (some h)
          calls := s.calls ++ [⟨h, s.timer L h, s.arg h⟩] }
  | finish {i : Fin n} : s.running i ≠ none →
      Step s (.finish i) { s with running := Function.update s.running i none }

variable {L} [Fintype U] {s s' : State n U H} {l : Label n U H}

theorem step_of_next (h : s.next L l = some s') : Step L s l s' := by
  cases l with
  | add u h₀ address interval arg =>
    obtain ⟨hcall, hadd⟩ := Option.ite_none_right_eq_some.mp h
    obtain ⟨⟨hnew, hapart⟩, he⟩ := Option.ite_none_right_eq_some.mp hadd
    obtain rfl := Option.some.inj he
    exact .add hcall hnew hapart
  | register u ok =>
    simp only [State.next, State.register] at h
    split at h
    · next h₀ hcall =>
      cases ok with
      | true =>
        obtain rfl := Option.some.inj h
        exact .registered hcall
      | false =>
        obtain rfl := Option.some.inj h
        exact .refused hcall
    · cases h
  | set u timer h₀ interval ok =>
    obtain ⟨hcall, hset⟩ := Option.ite_none_right_eq_some.mp h
    obtain ⟨⟨howned, haddress⟩, he⟩ := Option.ite_none_right_eq_some.mp hset
    cases ok with
    | true =>
      obtain rfl := Option.some.inj he
      exact .set hcall howned haddress
    | false =>
      obtain rfl := Option.some.inj he
      exact .unset hcall howned haddress
  | remove u timer found =>
    obtain ⟨hcall, hremove⟩ := Option.ite_none_right_eq_some.mp h
    cases found with
    | some h₀ =>
      obtain ⟨⟨hin, haddress⟩, he⟩ := Option.ite_none_right_eq_some.mp hremove
      obtain rfl := Option.some.inj he
      exact .found hcall hin haddress
    | none =>
      obtain ⟨hnone, he⟩ := Option.ite_none_right_eq_some.mp hremove
      obtain rfl := Option.some.inj he
      exact .missing hcall hnone
  | unregister u =>
    simp only [State.next, State.unregister] at h
    split at h
    · next h₀ hcall =>
      split at h
      · next hin =>
        obtain rfl := Option.some.inj h
        exact .removed hcall hin
      · next hout =>
        obtain rfl := Option.some.inj h
        exact .unknown hcall hout
    · cases h
  | select batch =>
    obtain ⟨⟨hempty, hreading, hlength, hnodup, hready⟩, he⟩ := Option.ite_none_right_eq_some.mp h
    obtain rfl := Option.some.inj he
    exact .select hempty hreading hlength hnodup hready
  | expire woken =>
    simp only [State.next, State.expire] at h
    split at h
    · cases h
    · next h₀ batch hbatch =>
      obtain ⟨⟨hreading, howned, harmed⟩, hmap⟩ := Option.ite_none_right_eq_some.mp h
      obtain ⟨manager, hmanager, rfl⟩ := Option.map_eq_some_iff.mp hmap
      exact .expire hbatch hreading howned harmed hmanager
  | skip =>
    simp only [State.next, State.skip] at h
    split at h
    · cases h
    · next h₀ batch hbatch =>
      obtain ⟨⟨hreading, howned⟩, he⟩ := Option.ite_none_right_eq_some.mp h
      obtain rfl := Option.some.inj he
      exact .skip hbatch hreading howned
  | handled =>
    obtain ⟨manager, hmanager, rfl⟩ := Option.map_eq_some_iff.mp h
    exact .handled hmanager
  | work l =>
    obtain ⟨hpermits, hmap⟩ := Option.ite_none_right_eq_some.mp h
    obtain ⟨manager, hmanager, rfl⟩ := Option.map_eq_some_iff.mp hmap
    exact .work hpermits hmanager
  | run i =>
    simp only [State.next, State.run] at h
    split at h
    · next h₀ hpc =>
      obtain ⟨manager, hmanager, rfl⟩ := Option.map_eq_some_iff.mp h
      exact .run hpc hmanager
    · cases h
  | finish i =>
    obtain ⟨hrunning, he⟩ := Option.ite_none_left_eq_some.mp h
    obtain rfl := Option.some.inj he
    exact .finish hrunning

/-- **The threads around the queue are those of the manager**, so what holds of it in every run
holds here. -/
theorem refines_manager : Refines (timers L n U H) Free (manager n H) Free State.manager where
  init s hs := by
    obtain rfl := hs
    rfl
  step s l s' _ _ hn := by
    have hnext {l : TimerManager.Label n H} {m : Manager n H} (h : s.manager.next l = some m) :
        ∃ k, Free s.manager k ∧ (manager n H).next s.manager k = some m := ⟨l, trivial, h⟩
    cases step_of_next hn with
    | expire _ _ _ _ hmanager => exact .inr (hnext hmanager)
    | handled hmanager => exact .inr (hnext hmanager)
    | work _ hmanager => exact .inr (hnext hmanager)
    | run _ hmanager => exact .inr (hnext hmanager)
    | _ => exact .inl rfl

end Steps

/-! ## Owners -/

section Owners

variable {L} {s s' : State n U H} {l : Label n U H} {h : H}

/-- What the threads do beside `HandleRead` puts no handler on its way. -/
theorem inFlight_work {l : TimerManager.Label n H} {m : Manager n H} (hp : s.permits l)
    (hm : s.manager.next l = some m) (h : H) :
    inFlight (some h) m.queue ≤ inFlight (some h) s.manager.queue := by
  have hstep := inFlight_next hm (some h)
  rwa [if_neg, add_zero] at hstep
  cases l with
  | queue ql =>
    obtain ⟨hallows, -⟩ := queue_next hm
    cases ql with
    | call t op woken =>
      cases t with
      | loop => cases hp
      | main =>
        obtain rfl : op = .push none := only_of_allows hallows
        exact nofun
      | worker i =>
        obtain rfl : op = .pop := only_of_allows hallows
        exact nofun
    | _ => exact nofun
  | _ => exact nofun

/-- `HandleRead` puts the handler it is called for on its way. -/
theorem inFlight_expire {h₀ : H} {woken : Option (Thread n)} {m : Manager n H}
    (hm : s.manager.next (.queue (.call .loop (.push (some h₀)) woken)) = some m) (h : H) :
    inFlight (some h) m.queue ≤ inFlight (some h) s.manager.queue + if h₀ = h then 1 else 0 := by
  have hiff : (TimerManager.Label.queue (.call .loop (.push (some h₀)) woken)).pushes =
      some (some h) ↔ h₀ = h := (Option.some_inj.trans Option.some_inj)
  rw [← if_congr hiff rfl rfl]
  exact inFlight_next hm (some h)

/-- Each owner after the step, traced back to one before it. -/
theorem State.Owned.of_parts (ho : s'.Owned h) (hmap : h ∈ s'.handlers → s.Owned h)
    (hcall : ∀ u, (s'.call u).handler = some h → s.Owned h)
    (hreading : s'.reading = some h → s.Owned h)
    (hqueue : 0 < inFlight (some h) s'.manager.queue → s.Owned h)
    (hrunning : ∀ i, s'.running i = some h → s.Owned h) : s.Owned h := by
  rcases ho with ho | ⟨u, ho⟩ | ho | ho | ⟨i, ho⟩
  · exact hmap ho
  · exact hcall u ho
  · exact hreading ho
  · exact hqueue ho
  · exact hrunning i ho

theorem State.owned_of_map (s : State n U H) (ho : h ∈ s.handlers) : s.Owned h := .inl ho

theorem State.owned_of_call (s : State n U H) (u : U) (ho : (s.call u).handler = some h) :
    s.Owned h := .inr (.inl ⟨u, ho⟩)

theorem State.owned_of_reading (s : State n U H) (ho : s.reading = some h) : s.Owned h :=
  .inr (.inr (.inl ho))

theorem State.owned_of_inFlight (s : State n U H) (ho : 0 < inFlight (some h) s.manager.queue) :
    s.Owned h := .inr (.inr (.inr (.inl ho)))

theorem State.owned_of_running (s : State n U H) (i : Fin n) (ho : s.running i = some h) :
    s.Owned h := .inr (.inr (.inr (.inr ⟨i, ho⟩)))

variable [DecidableEq U]

theorem State.owned_of_call_update (s : State n U H) {u : U} {c : Call H}
    (hc : c.handler = some h → s.Owned h) (u' : U)
    (ho : (Function.update s.call u c u').handler = some h) : s.Owned h :=
  forall_update (Q := fun _ (c : Call H) => c.handler = some h → s.Owned h) s.owned_of_call hc u' ho

/-- A caller's call that ends. -/
theorem owned_of_answer {u : U} (ho : s'.Owned h)
    (hcall : s'.call = Function.update s.call u .idle)
    (hmap : s'.handlers = s.handlers) (hreading : s'.reading = s.reading)
    (hmanager : s'.manager = s.manager) (hrunning : s'.running = s.running) : s.Owned h := by
  refine ho.of_parts ?_ ?_ ?_ ?_ ?_
  · exact hmap ▸ s.owned_of_map
  · exact hcall ▸ s.owned_of_call_update nofun
  · exact hreading ▸ s.owned_of_reading
  · exact hmanager ▸ s.owned_of_inFlight
  · exact hrunning ▸ s.owned_of_running

/-- **A handler has no new owner after its last one**: only `AddTimer` makes one. -/
theorem owned_step (hstep : Step L s l s') (ho : s'.Owned h) :
    s.Owned h ∨ ∃ u address interval arg, l = .add u h address interval arg := by
  cases hstep with
  | @add u h₀ address interval arg hcall hnew hapart =>
    by_cases hne : h = h₀
    · subst hne
      exact .inr ⟨_, _, _, _, rfl⟩
    · refine .inl (ho.of_parts (fun hin => ?_) (s.owned_of_call_update fun he => ?_)
        s.owned_of_reading s.owned_of_inFlight s.owned_of_running)
      · exact s.owned_of_map (Finset.mem_of_mem_insert_of_ne hin hne)
      · exact absurd (Option.some.inj he).symm hne
  | registered hcall => exact .inl (owned_of_answer ho rfl rfl rfl rfl rfl)
  | refused hcall => exact .inl (owned_of_answer ho rfl rfl rfl rfl rfl)
  | set hcall howned haddress => exact .inl (owned_of_answer ho rfl rfl rfl rfl rfl)
  | unset hcall howned haddress => exact .inl (owned_of_answer ho rfl rfl rfl rfl rfl)
  | @found u timer h₀ hcall hin haddress =>
    refine .inl (ho.of_parts (fun he => s.owned_of_map (Finset.mem_of_mem_erase he))
      (s.owned_of_call_update fun he => ?_) s.owned_of_reading s.owned_of_inFlight
      s.owned_of_running)
    obtain rfl := Option.some.inj he
    exact s.owned_of_map hin
  | missing hcall hnone => exact .inl (owned_of_answer ho rfl rfl rfl rfl rfl)
  | removed hcall hin => exact .inl (owned_of_answer ho rfl rfl rfl rfl rfl)
  | unknown hcall hout => exact .inl (owned_of_answer ho rfl rfl rfl rfl rfl)
  | select hempty hreading hlength hnodup hready => exact .inl ho
  | @expire woken h₀ batch m hbatch hreading howned harmed hm =>
    refine .inl (ho.of_parts s.owned_of_map s.owned_of_call (fun he => ?_) (fun hpos => ?_)
      s.owned_of_running)
    · obtain rfl := Option.some.inj he
      exact howned
    · by_cases hne : h = h₀
      · subst hne
        exact howned
      · have hle := inFlight_expire hm h
        rw [if_neg (Ne.symm hne)] at hle
        exact s.owned_of_inFlight (hpos.trans_le hle)
  | skip hbatch hreading howned => exact .inl ho
  | handled hm =>
    have hle := inFlight_next hm (some h)
    refine .inl (ho.of_parts s.owned_of_map s.owned_of_call nofun (fun hpos => ?_)
      s.owned_of_running)
    exact s.owned_of_inFlight (hpos.trans_le hle)
  | work hpermits hm =>
    refine .inl (ho.of_parts s.owned_of_map s.owned_of_call s.owned_of_reading (fun hpos => ?_)
      s.owned_of_running)
    exact s.owned_of_inFlight (hpos.trans_le (inFlight_work hpermits hm h))
  | @run i h₀ m hpc hm =>
    have hle := inFlight_next hm (some h)
    refine .inl (ho.of_parts s.owned_of_map s.owned_of_call s.owned_of_reading (fun hpos => ?_)
      (forall_update (Q := fun _ r => r = some h → s.Owned h) s.owned_of_running fun he => ?_))
    · exact s.owned_of_inFlight (hpos.trans_le hle)
    · -- the handler a work thread runs is the one it had popped
      obtain rfl := Option.some.inj he
      exact s.owned_of_inFlight (Nat.lt_of_lt_of_eq (Nat.succ_pos _) (inFlight_run hpc hm))
  | finish hrunning =>
    exact .inl (ho.of_parts s.owned_of_map s.owned_of_call s.owned_of_reading s.owned_of_inFlight
      (forall_update (Q := fun _ r => r = some h → s.Owned h) s.owned_of_running nofun))

end Owners

end Xfnet.TimerManager.Timers
