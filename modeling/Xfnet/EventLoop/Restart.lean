import Xfnet.EventLoop.Interleaving

/-!
# Restarting a loop

`Stop` closes the epoll descriptor, and with it goes the interest set; `m_handlers` stays. A handler
that was registered then is in `m_handlers` after the next `Start` as well, without events and
without a way to register it again (`outlives_stop`). Where every `Stop` finds `m_handlers` empty
the two agree, over any number of restarts (`restarted`).
-/

namespace Xfnet.EventLoop

open Counting Transition

variable {T H Fd : Type*}

/-- `epoll_create1` succeeds, and `epoll_ctl` refuses only what it may. -/
def Succeeds (s : Registry T H Fd) : Label T H Fd → Prop
  | .start _ ok => ok = true
  | .ctl t false => MayRefuse s (s.call t)
  | _ => True

/-- The calls come one at a time. -/
def InSequence (s : Registry T H Fd) (l : Label T H Fd) : Prop :=
  (l.begins → ∀ t, s.call t = .idle) ∧ Succeeds s l

/-- `Stop` finds no handler. -/
def FindsEmpty (s : Registry T H Fd) : Label T H Fd → Prop
  | .join _ => s.handlers = ∅
  | _ => True

/-- Between the calls, the handlers of a started loop are watched, and a stopped loop has none. -/
def Consistent (s : Registry T H Fd) : Prop :=
  (∀ t, s.call t = .idle) →
    (s.state = .started → ∀ h ∈ s.handlers, ∃ f events, s.interest f = some (h, events)) ∧
      (s.state = .stopped → s.handlers = ∅)

/-- Only one thread is in the middle of a call. -/
def Alone (s : Registry T H Fd) : Prop :=
  ∀ t u, s.call t ≠ .idle → s.call u ≠ .idle → t = u

/-- A stopped loop has no handlers, and a call that finds it stopped does not end. -/
structure Rests (s : Registry T H Fd) : Prop where
  epoll : s.state = .stopped → s.epoll = false
  empty : s.state = .stopped → (∀ t, s.call t = .idle) → s.handlers = ∅

section Decidable

variable [Fintype T] [DecidableEq H] (s : Registry T H Fd)

instance : DecidablePred (Succeeds s)
  | .start _ ok => inferInstanceAs (Decidable (ok = true))
  | .ctl t false => inferInstanceAs (Decidable (MayRefuse s (s.call t)))
  | .ctl _ true => isTrue trivial
  | .stop _ => isTrue trivial
  | .join _ => isTrue trivial
  | .register .. => isTrue trivial
  | .unregister .. => isTrue trivial
  | .modify .. => isTrue trivial
  | .create .. => isTrue trivial
  | .retain _ => isTrue trivial
  | .release _ => isTrue trivial

instance (l : Label T H Fd) : Decidable (InSequence s l) :=
  inferInstanceAs (Decidable ((_ → ∀ t, s.call t = .idle) ∧ Succeeds s l))

instance : DecidablePred (FindsEmpty s)
  | .join _ => inferInstanceAs (Decidable (s.handlers = ∅))
  | .start .. => isTrue trivial
  | .ctl .. => isTrue trivial
  | .stop _ => isTrue trivial
  | .register .. => isTrue trivial
  | .unregister .. => isTrue trivial
  | .modify .. => isTrue trivial
  | .create .. => isTrue trivial
  | .retain _ => isTrue trivial
  | .release _ => isTrue trivial

end Decidable

section Runs

variable [DecidableEq T] {s s' : Registry T H Fd} {l : Label T H Fd} {t : T} {h : H}

/-- A thread begins a call while nobody is in the middle of one, or goes on with its own. -/
theorem Alone.setCall {c : Call H} (ha : Alone s)
    (ht : s.call t ≠ .idle ∨ ∀ u, s.call u = .idle) (hcall : s'.call = Function.update s.call t c) :
    Alone s' := by
  have honly {u : T} (hu : s'.call u ≠ .idle) : u = t := by
    by_contra hne
    rw [hcall, Function.update_of_ne hne] at hu
    rcases ht with hbusy | hidle
    · exact hne (ha u t hu hbusy)
    · exact hu (hidle u)
  exact fun u v hu hv => (honly hu).trans (honly hv).symm

variable [Fintype T] [DecidableEq H] [DecidableEq Fd]

/-- What a step does to the calls in progress. -/
theorem step_call (hstep : Step s l s') : s'.call = s.call ∨
    ∃ t c, s'.call = Function.update s.call t c ∧ (s.call t ≠ .idle ∨ l.begins = true) := by
  cases hstep with
  | start hcall hepoll => exact .inr ⟨_, _, rfl, .inr rfl⟩
  | stop hcall hstate => exact .inr ⟨_, _, rfl, .inr rfl⟩
  | stopped hcall => exact .inl rfl
  | join hcall => exact .inr ⟨_, _, rfl, .inl (by simp [hcall])⟩
  | insert hcall husers hnew => exact .inr ⟨_, _, rfl, .inr rfl⟩
  | erase hcall hin => exact .inr ⟨_, _, rfl, .inr rfl⟩
  | add hcall hfd hepoll hnone => exact .inr ⟨_, _, rfl, .inl (by simp [hcall])⟩
  | addFails hcall => exact .inr ⟨_, _, rfl, .inl (by simp [hcall])⟩
  | delete hcall hfd hepoll => exact .inr ⟨_, _, call_drop, .inl (by simp [hcall])⟩
  | modify hcall hfd hepoll hsome => exact .inr ⟨_, _, rfl, .inr rfl⟩
  | @nothing t _ result hcall => exact .inl (Function.update_eq_self_iff.mpr hcall.symm)
  | create hfree hf => exact .inl rfl
  | retain hlive => exact .inl rfl
  | release husers hcall => exact .inl call_drop

theorem alone_step (ha : Alone s) (hc : InSequence s l) (hstep : Step s l s') : Alone s' := by
  rcases step_call hstep with hsame | ⟨t, c, hcall, ht⟩
  · rw [Alone, hsame]
    exact ha
  · exact ha.setCall (ht.imp_right hc.1) hcall

omit [DecidableEq T] [DecidableEq Fd] in
/-- A call that is alone finds the interest set as its map half left it. -/
theorem inOrder_of_alone (ha : Alone s) (hb : ∀ h, s.BalancedAt h) : InOrder s l := by
  cases l with
  | ctl t ok =>
    show FindsPlace s (s.call t)
    cases hcall : s.call t with
    | idle => trivial
    | stopping => trivial
    | registering h events =>
      have hbal := hb h
      unfold Registry.BalancedAt at hbal
      have hpos : 0 < count fun u => (s.call u).argument = some h :=
        count_pos (t := t) (by simp [hcall])
      rw [count_of_forall_not (p := fun u => s.call u = .unregistering h) fun u hu => ?_] at hbal
      · intro hsome
        rw [if_pos hsome] at hbal
        split at hbal <;> omega
      · obtain rfl := ha u t (by simp [hu]) (by simp [hcall])
        rw [hcall] at hu
        cases hu
    | unregistering h =>
      have hbal := hb h
      unfold Registry.BalancedAt at hbal
      have hpos : 0 < count fun u => s.call u = .unregistering h := count_pos (t := t) hcall
      rw [count_of_forall_not (p := fun u => (s.call u).argument = some h) fun u hu => ?_] at hbal
      · show (s.events h).isSome = true
        by_contra hnone
        rw [if_neg hnone] at hbal
        omega
      · have hbusy : s.call u ≠ .idle := by
          intro hidle
          simp [hidle] at hu
        obtain rfl := ha u t hbusy (by simp [hcall])
        simp [hcall] at hu
  | _ => trivial

omit [Fintype T] [DecidableEq H] [DecidableEq Fd] in
theorem idle_of_join (ha : Alone s) (hcall : s.call t = .stopping) (u : T) :
    Function.update s.call t .idle u = .idle := by
  by_cases hut : u = t
  · rw [hut, Function.update_self]
  · rw [Function.update_of_ne hut]
    by_contra hu
    exact hut (ha u t hu (by simp [hcall]))

omit [DecidableEq T] [Fintype T] [DecidableEq H] [DecidableEq Fd] in
theorem regular_or_stops (hc : Succeeds s l) :
    Regular s l ∨ (∃ t, l = .stop t) ∨ ∃ t, l = .join t := by
  cases l with
  | stop t => exact .inr (.inl ⟨t, rfl⟩)
  | join t => exact .inr (.inr ⟨t, rfl⟩)
  | ctl t ok =>
    cases ok with
    | true => exact .inl trivial
    | false => exact .inl hc
  | _ => exact .inl trivial

/-- **One step keeps the balance**, restarts included. -/
theorem balanced_restart (hinv : Inv s) (ha : Alone s) (hb : ∀ h, s.BalancedAt h)
    (hc : Succeeds s l) (he : FindsEmpty s l) (hstep : Step s l s') : ∀ h, s'.BalancedAt h := by
  rcases regular_or_stops hc with hregular | ⟨t, rfl⟩ | ⟨t, rfl⟩
  · exact balanced_step hinv hb hregular (inOrder_of_alone ha hb) hstep
  · intro h
    cases hstep with
    | stop hcall hstate =>
      exact balancedAt_other (hb h) (t := t) (c := .stopping) rfl Iff.rfl rfl (by simp [hcall])
        (by simp)
    | stopped hcall => exact hb h
    | @nothing u _ result hcall =>
      exact balancedAt_other (hb h) (t := u) (c := .idle) rfl Iff.rfl rfl (by simp [hcall])
        (by simp)
  · intro h
    cases hstep with
    | join hcall =>
      -- the map and the interest set are both empty, and no call is in progress
      have hidle := idle_of_join ha hcall
      have hempty : s.handlers = ∅ := he
      unfold Registry.BalancedAt
      rw [count_of_forall_not fun u hu => by simp [hidle u] at hu,
        count_of_forall_not fun u hu => by simp [hidle u] at hu]
      simp [hempty, Registry.events]
    | @nothing u _ result hcall =>
      exact balancedAt_other (hb h) (t := u) (c := .idle) rfl Iff.rfl rfl (by simp [hcall])
        (by simp)

omit [DecidableEq T] [Fintype T] [DecidableEq H] [DecidableEq Fd] in
/-- A step that changes neither the state nor the handlers, and ends no call. -/
theorem Rests.of_agree (hr : Rests s) (hstate : s'.state = s.state) (hepoll : s'.epoll = s.epoll)
    (hmap : s'.handlers = s.handlers) (hidle : (∀ t, s'.call t = .idle) → ∀ t, s.call t = .idle) :
    Rests s' := by
  refine ⟨fun h => ?_, fun h hi => ?_⟩
  · rw [hepoll]
    exact hr.epoll (hstate ▸ h)
  · rw [hmap]
    exact hr.empty (hstate ▸ h) (hidle hi)

omit [DecidableEq T] [Fintype T] [DecidableEq H] [DecidableEq Fd] in
/-- A call that uses the epoll descriptor. -/
theorem Rests.of_epoll (hr : Rests s) (hepoll : s.epoll = true) (hstate : s'.state = s.state) :
    Rests s' := by
  have hnot : s'.state ≠ .stopped := by
    intro h
    rw [hr.epoll (hstate ▸ h)] at hepoll
    cases hepoll
  exact ⟨fun h => absurd h hnot, fun h => absurd h hnot⟩

omit [DecidableEq T] in
theorem state_drop (h : H) : (s.drop h).state = s.state ∧ (s.drop h).epoll = s.epoll := by
  unfold Registry.drop
  split <;> exact ⟨rfl, rfl⟩

/-- A stopped loop has no handlers, and no call on one ends there. -/
theorem rests_step (ha : Alone s) (hb : ∀ h, s.BalancedAt h) (hr : Rests s) (hc : Succeeds s l)
    (he : FindsEmpty s l) (hstep : Step s l s') : Rests s' := by
  cases hstep with
  | start hcall hepoll => exact ⟨nofun, nofun⟩
  | stop hcall hstate => exact ⟨nofun, nofun⟩
  | stopped hcall => exact hr
  | join hcall => exact ⟨fun _ => rfl, fun _ _ => he⟩
  | @insert t h events hcall husers hnew =>
    exact ⟨hr.epoll, fun _ hidle => absurd (hidle t) (by simp)⟩
  | @erase t h hcall hin =>
    exact ⟨hr.epoll, fun _ hidle => absurd (hidle t) (by simp)⟩
  | add hcall hfd hepoll hnone => exact hr.of_epoll hepoll rfl
  | @addFails t h events hcall =>
    have horder : InOrder s (.ctl t false) := inOrder_of_alone ha hb
    simp only [Succeeds, InOrder, hcall] at hc horder
    exact absurd hc horder
  | delete hcall hfd hepoll => exact hr.of_epoll hepoll (state_drop _).1
  | modify hcall hfd hepoll hsome => exact hr.of_epoll hepoll rfl
  | @nothing t _ result hcall =>
    refine hr.of_agree rfl rfl rfl fun hidle u => ?_
    by_cases hut : u = t
    · rw [hut, hcall]
    · exact (Function.update_of_ne hut ..).symm.trans (hidle u)
  | create hfree hf => exact hr.of_agree rfl rfl rfl id
  | retain hlive => exact hr.of_agree rfl rfl rfl id
  | release husers hcall =>
    refine hr.of_agree (state_drop _).1 (state_drop _).2 handlers_drop fun hidle u => ?_
    rw [call_drop] at hidle
    exact hidle u

theorem restarts_of_reachable
    (h : (eventLoop T H Fd).Reachable (fun s l => InSequence s l ∧ FindsEmpty s l) s) :
    Alone s ∧ (∀ h, s.BalancedAt h) ∧ Rests s := by
  refine System.Reachable.invariant (I := fun s => Alone s ∧ (∀ h, s.BalancedAt h) ∧ Rests s)
    ?_ ?_ h
  · rintro s rfl
    refine ⟨fun t u ht => absurd rfl ht, fun h => ?_, fun _ => rfl, fun _ _ => rfl⟩
    unfold Registry.BalancedAt
    rw [count_of_forall_not nofun, count_of_forall_not nofun]
    rfl
  · rintro s l s' hr ⟨ha, hb, hrest⟩ ⟨hc, he⟩ hn
    have hstep := step_of_next hn
    exact ⟨alone_step ha hc hstep, balanced_restart (inv_of_reachable hr) ha hb hc.2 he hstep,
      rests_step ha hb hrest hc.2 he hstep⟩

/-- **Restarts**, in runs where every `Stop` finds `m_handlers` empty: between the calls, every
handler of a started loop is in the interest set, and a stopped loop has none. -/
theorem restarted
    (h : (eventLoop T H Fd).Reachable (fun s l => InSequence s l ∧ FindsEmpty s l) s) :
    Consistent s := by
  intro hidle
  obtain ⟨-, hb, hrest⟩ := restarts_of_reachable h
  refine ⟨fun _ h₀ hmap => ?_, fun hstopped => hrest.empty hstopped hidle⟩
  rw [← isSome_events_iff (inv_of_reachable h)]
  have hbal := hb h₀
  unfold Registry.BalancedAt at hbal
  rw [if_pos hmap, count_of_forall_not fun t ht => by simp [hidle t] at ht,
    count_of_forall_not fun t ht => by simp [hidle t] at ht] at hbal
  by_contra hnone
  rw [if_neg hnone] at hbal
  omega

/-- A handler is unregistered before the `Stop` and registered again after the `Start`. -/
theorem restarted_twice : ∃ s : Registry Unit ℕ ℕ,
    (eventLoop Unit ℕ ℕ).Reachable (fun s l => InSequence s l ∧ FindsEmpty s l) s ∧
      ∃ f events, s.interest f = some (1, events) := by
  obtain ⟨s, hrun, hin, hstate, hidle⟩ : ∃ s : Registry Unit ℕ ℕ,
      (eventLoop Unit ℕ ℕ).exec (fun s l => InSequence s l ∧ FindsEmpty s l) .constructed
        [.create 1 10, .start () true, .register () 1 5, .ctl () true, .unregister () 1,
          .ctl () true, .stop (), .join (), .start () true, .register () 1 5, .ctl () true] =
            some s ∧ 1 ∈ s.handlers ∧ s.state = .started ∧ ∀ t, s.call t = .idle :=
    ⟨_, rfl, by decide, rfl, by decide⟩
  have hreach := System.reachable_of_exec rfl hrun
  exact ⟨s, hreach, (restarted hreach hidle).1 hstate 1 hin⟩

/-- A handler that is registered at the `Stop` is in `m_handlers` after the next `Start` and not in
the interest set. -/
theorem outlives_stop : ¬∀ s : Registry Unit ℕ ℕ,
    (eventLoop Unit ℕ ℕ).Reachable InSequence s → Consistent s := by
  intro h
  obtain ⟨s, hrun, hin, hnone, hstate, hidle⟩ : ∃ s : Registry Unit ℕ ℕ,
      (eventLoop Unit ℕ ℕ).exec InSequence
        .constructed
        [.create 1 10, .start () true, .register () 1 5, .ctl () true, .stop (), .join (),
          .start () true] = some s ∧ 1 ∈ s.handlers ∧ s.interest = (fun _ => none) ∧
        s.state = .started ∧ ∀ t, s.call t = .idle :=
    ⟨_, rfl, by decide, rfl, rfl, by decide⟩
  obtain ⟨f, events, hf⟩ := (h s (System.reachable_of_exec rfl hrun) hidle).1 hstate 1 hin
  rw [hnone] at hf
  cases hf

end Runs

end Xfnet.EventLoop
