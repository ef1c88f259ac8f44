import Xfnet.EventLoop.Registry

/-!
# Lifetime of the handlers

In every run the interest set points to live handlers only, each with its own descriptor (`Inv`):
a descriptor closed with its handler takes the entry along. Which owner keeps such a handler alive
is another matter. Where the calls come one at a time it is `m_handlers`, or the `Unregister` in
progress (`lifetime`).
-/

namespace Xfnet.EventLoop

open Transition

variable {T H Fd : Type*}

/-! ## Live handlers -/

/-- What holds in every run: owned handlers live, live ones have open descriptors of their own, and
an entry of the interest set is under the descriptor of the handler it points to. -/
structure Inv (s : Registry T H Fd) : Prop where
  live : ∀ h, s.Owned h → s.fd h ≠ none
  argument : ∀ t h, (s.call t).argument = some h → h ∈ s.users
  opened : ∀ h f, s.fd h = some f → f ∈ s.opened
  injective : ∀ h h' f, s.fd h = some f → s.fd h' = some f → h = h'
  entry : ∀ f h events, s.interest f = some (h, events) → s.fd h = some f

section Live

variable {s s' : Registry T H Fd} {t : T} {h h' : H} {f : Fd} {e : H × ℕ}

/-- A change of owners and entries only. -/
theorem Inv.of_owners (hinv : Inv s) (hfd : s'.fd = s.fd) (hopened : s'.opened = s.opened)
    (howned : ∀ h, s'.Owned h → s.Owned h)
    (hargument : ∀ t h, (s'.call t).argument = some h → h ∈ s'.users)
    (hentry : ∀ f h events, s'.interest f = some (h, events) → s.fd h = some f) : Inv s' := by
  refine ⟨fun h ho => ?_, hargument, ?_, ?_, ?_⟩
  · rw [hfd]
    exact hinv.live h (howned h ho)
  · rw [hfd, hopened]
    exact hinv.opened
  · rw [hfd]
    exact hinv.injective
  · rw [hfd]
    exact hentry

theorem Inv.drop [Fintype T] [DecidableEq H] [DecidableEq Fd] (hinv : Inv s) (h : H) :
    Inv (s.drop h) := by
  refine ⟨fun h' ho => ?_, fun t h' ha => ?_, fun h' f hf => ?_, fun h₁ h₂ f hf₁ hf₂ => ?_,
    fun f h' events he => ?_⟩
  · rw [owned_drop] at ho
    by_cases hne : h' = h
    · subst hne
      unfold Registry.drop
      rw [if_pos ho]
      exact hinv.live h' ho
    · rw [fd_drop_of_ne hne]
      exact hinv.live h' ho
  · rw [call_drop] at ha
    rw [users_drop]
    exact hinv.argument t h' ha
  · have hold := fd_of_drop hf
    unfold Registry.drop at hf ⊢
    split at hf
    · next ho =>
      rw [if_pos ho]
      exact hinv.opened h' f hold
    · next hnot =>
      rw [if_neg hnot]
      refine Finset.mem_filter.mpr ⟨hinv.opened h' f hold, fun he => ?_⟩
      obtain rfl := hinv.injective h h' f he hold
      change Function.update s.fd h none h = some f at hf
      rw [Function.update_self] at hf
      cases hf
  · exact hinv.injective h₁ h₂ f (fd_of_drop hf₁) (fd_of_drop hf₂)
  · have hold := hinv.entry f h' events (interest_of_drop he)
    by_cases hne : h' = h
    · subst hne
      unfold Registry.drop at he ⊢
      split at he
      · next ho => rwa [if_pos ho]
      · exact absurd hold (Option.ite_none_left_eq_some.mp he).1
    · rwa [fd_drop_of_ne hne]

/-- A user gives up a handler that it does not pass to a `Register` in progress. -/
theorem Inv.release [DecidableEq H] (hinv : Inv s) (hcall : ∀ t, (s.call t).argument ≠ some h) :
    Inv { s with users := s.users.erase h } := by
  refine hinv.of_owners rfl rfl (fun h' ho => ?_) (fun t h' ha => ?_) hinv.entry
  · exact ho.imp_right (Or.imp_left Finset.mem_of_mem_erase)
  · refine Finset.mem_erase.mpr ⟨?_, hinv.argument t h' ha⟩
    rintro rfl
    exact hcall t ha

variable [DecidableEq T]

/-- The owners where a call of `t` begins or ends. -/
theorem owned_update {c : Call H} (ho : h ∈ s.handlers ∨ h ∈ s.users ∨
    ∃ u, Function.update s.call t c u = .unregistering h) : s.Owned h ∨ c = .unregistering h := by
  rcases ho with ho | ho | ⟨u, hu⟩
  · exact .inl (.inl ho)
  · exact .inl (.inr (.inl ho))
  · by_cases hut : u = t
    · subst hut
      rw [Function.update_self] at hu
      exact .inr hu
    · rw [Function.update_of_ne hut] at hu
      exact .inl (.inr (.inr ⟨u, hu⟩))

theorem argument_update {c : Call H} (hinv : Inv s) (hc : ∀ h, c.argument = some h → h ∈ s.users)
    (u : T) (h : H) (hu : (Function.update s.call t c u).argument = some h) : h ∈ s.users := by
  by_cases hut : u = t
  · subst hut
    rw [Function.update_self] at hu
    exact hc h hu
  · rw [Function.update_of_ne hut] at hu
    exact hinv.argument u h hu

/-- A call that begins or ends, and owns no handler. -/
theorem Inv.setCall {c : Call H} (hinv : Inv s) (t : T) (hc : ∀ h, c ≠ .unregistering h)
    (ha : c.argument = none) : Inv { s with call := Function.update s.call t c } := by
  refine hinv.of_owners rfl rfl (fun h ho => ?_) (argument_update hinv fun h he => ?_) hinv.entry
  · exact (owned_update (s := s) ho).resolve_right (hc h)
  · rw [ha] at he
    cases he

theorem Inv.finish (hinv : Inv s) (t : T) (result : Bool) : Inv (s.finish t result) := by
  have hcall := hinv.setCall (c := .idle) t nofun rfl
  exact ⟨hcall.live, hcall.argument, hcall.opened, hcall.injective, hcall.entry⟩

variable [DecidableEq Fd]

theorem Inv.put {events : ℕ} (hinv : Inv s) (hfd : s.fd h = some f) :
    Inv (s.put t f h events) := by
  refine (hinv.finish t true).of_owners rfl rfl (fun _ => id) (hinv.finish t true).argument ?_
  intro f' h' events' he
  by_cases hf : f' = f
  · subst hf
    change Function.update s.interest f' (some (h, events)) f' = _ at he
    rw [Function.update_self] at he
    obtain ⟨rfl, -⟩ := Prod.mk.inj (Option.some.inj he)
    exact hfd
  · exact hinv.entry f' h' events' ((Function.update_of_ne hf ..).symm.trans he)

theorem Inv.delete (hinv : Inv s) (t : T) (f : Fd) : Inv (s.delete t f) := by
  have hfinish := hinv.finish t (s.interest f).isSome
  refine hfinish.of_owners rfl rfl (fun _ => id) hfinish.argument fun f' h' events he => ?_
  by_cases hf : f' = f
  · subst hf
    change Function.update s.interest f' none f' = _ at he
    rw [Function.update_self] at he
    cases he
  · exact hinv.entry f' h' events ((Function.update_of_ne hf ..).symm.trans he)

variable [Fintype T] [DecidableEq H]

/-- **One step keeps the handlers live.** -/
theorem inv_step {l : Label T H Fd} (hinv : Inv s) (h : Step s l s') : Inv s' := by
  cases h with
  | @start t ok hcall hepoll =>
    have hfinish := hinv.finish t true
    exact ⟨hfinish.live, hfinish.argument, hfinish.opened, hfinish.injective, hfinish.entry⟩
  | @stop t hcall hstate =>
    have hstop := hinv.setCall (c := .stopping) t nofun rfl
    exact ⟨hstop.live, hstop.argument, hstop.opened, hstop.injective, hstop.entry⟩
  | stopped hcall => exact hinv
  | @join t hcall =>
    have hjoin := hinv.setCall (c := .idle) t nofun rfl
    exact ⟨hjoin.live, hjoin.argument, hjoin.opened, hjoin.injective, nofun⟩
  | @insert t h events hcall husers hnew =>
    refine hinv.of_owners rfl rfl (fun h' ho => ?_) (argument_update hinv fun h' ha => ?_)
      hinv.entry
    · rcases ho with ho | ho
      · rcases Finset.mem_insert.mp ho with rfl | ho
        · exact .inr (.inl husers)
        · exact .inl ho
      · exact (owned_update (s := s) (.inr ho)).resolve_right nofun
    · obtain rfl : h = h' := Option.some.inj ha
      exact husers
  | @erase t h hcall hin =>
    refine hinv.of_owners rfl rfl (fun h' ho => ?_) (argument_update hinv nofun) hinv.entry
    have ho' := ho.imp_left fun hm => Finset.mem_of_mem_erase hm
    rcases owned_update (s := s) ho' with ho | he
    · exact ho
    · obtain rfl := Call.unregistering.inj he
      exact .inl hin
  | add hcall hfd hepoll hnone => exact hinv.put hfd
  | addFails hcall => exact hinv.finish _ _
  | delete hcall hfd hepoll => exact (hinv.delete _ _).drop _
  | modify hcall hfd hepoll hsome => exact hinv.put hfd
  | nothing hcall => exact hinv.finish _ _
  | @create h f hfree hf =>
    refine ⟨fun h' ho => ?_, fun t h' ha => ?_, fun h' f' hf' => ?_, fun h₁ h₂ f' hf₁ hf₂ => ?_,
      fun f' h' events he => ?_⟩
    · by_cases hne : h' = h
      · subst hne
        simp
      · refine (Function.update_of_ne hne ..).trans_ne (hinv.live h' ?_)
        exact ho.imp_right (Or.imp_left fun hm => (Finset.mem_insert.mp hm).resolve_left hne)
    · exact Finset.mem_insert_of_mem (hinv.argument t h' ha)
    · by_cases hne : h' = h
      · subst hne
        obtain rfl : f = f' := by simpa using hf'
        exact Finset.mem_insert_self ..
      · exact Finset.mem_insert_of_mem
          (hinv.opened h' f' ((Function.update_of_ne hne ..).symm.trans hf'))
    · -- the descriptor of the new handler is the one no other handler has
      have hother {u : H} (hu : u ≠ h) (hfu : Function.update s.fd h (some f) u = some f') :
          s.fd u = some f' := (Function.update_of_ne hu ..).symm.trans hfu
      have hnew {u : H} (hu : u ≠ h) (hfh : Function.update s.fd h (some f) h = some f')
          (hfu : Function.update s.fd h (some f) u = some f') : False := by
        obtain rfl : f = f' := by simpa using hfh
        exact hf (hinv.opened u f (hother hu hfu))
      by_cases h₁h : h₁ = h
      · by_cases h₂h : h₂ = h
        · exact h₁h.trans h₂h.symm
        · exact (hnew h₂h (h₁h ▸ hf₁) hf₂).elim
      · by_cases h₂h : h₂ = h
        · exact (hnew h₁h (h₂h ▸ hf₂) hf₁).elim
        · exact hinv.injective h₁ h₂ f' (hother h₁h hf₁) (hother h₂h hf₂)
    · have hold := hinv.entry f' h' events he
      have hne : h' ≠ h := fun heq => by simp [heq, hfree] at hold
      exact (Function.update_of_ne hne ..).trans hold
  | @retain h hlive =>
    refine ⟨fun h' ho => ?_, fun t h' ha => ?_, hinv.opened, hinv.injective, hinv.entry⟩
    · by_cases hne : h' = h
      · exact hne ▸ hlive
      · refine hinv.live h' (ho.imp_right (Or.imp_left fun hm => ?_))
        exact (Finset.mem_insert.mp hm).resolve_left hne
    · exact Finset.mem_insert_of_mem (hinv.argument t h' ha)
  | release husers hcall => exact (hinv.release hcall).drop _

theorem inv_of_reachable {C : Registry T H Fd → Label T H Fd → Prop}
    (h : (eventLoop T H Fd).Reachable C s) : Inv s := by
  refine System.Reachable.invariant (I := Inv) ?_ ?_ h
  · rintro s rfl
    exact ⟨by simp [Registry.Owned], nofun, nofun, nofun, nofun⟩
  · intro s l s' _ hinv _ hn
    exact inv_step hinv (step_of_next hn)

end Live

/-! ## One call at a time -/

/-- The step begins a call of the loop. -/
def Label.begins : Label T H Fd → Bool
  | start .. => true
  | stop _ => true
  | register .. => true
  | unregister .. => true
  | modify .. => true
  | _ => false

/-- The step begins a call on a handler. -/
def Label.onHandler : Label T H Fd → Bool
  | register .. => true
  | unregister .. => true
  | modify .. => true
  | _ => false

/-- The calls come one at a time, and those on handlers only while the loop is started. -/
def OneAtATime (s : Registry T H Fd) (l : Label T H Fd) : Prop :=
  (l.begins → ∀ t, s.call t = .idle) ∧ (l.onHandler → s.state = .started)

instance [Fintype T] [DecidableEq H] (s : Registry T H Fd) (l : Label T H Fd) :
    Decidable (OneAtATime s l) := inferInstanceAs (Decidable (_ ∧ _))

/-- `m_handlers`, or the call in progress, owns what the interest set points to. -/
structure Kept (s : Registry T H Fd) : Prop where
  registering : ∀ t h events, s.call t = .registering h events → h ∈ s.handlers
  entry : ∀ f h events, s.interest f = some (h, events) →
    h ∈ s.handlers ∨ ∃ t, s.call t = .unregistering h

/-- The events for which a handler is in the interest set. -/
def Registry.events (s : Registry T H Fd) (h : H) : Option ℕ :=
  (s.fd h).bind fun f => (s.interest f).map Prod.snd

/-- The handler a step works on. -/
def Registry.subject (s : Registry T H Fd) : Label T H Fd → Option H
  | .register _ h _ => some h
  | .unregister _ h => some h
  | .modify _ h _ _ => some h
  | .ctl t _ =>
    match s.call t with
    | .registering h _ => some h
    | .unregistering h => some h
    | _ => none
  | _ => none

section OneByOne

variable {s s' : Registry T H Fd} {l : Label T H Fd} {t : T} {h h' : H} {f : Fd}

theorem Kept.drop [Fintype T] [DecidableEq H] [DecidableEq Fd] (hk : Kept s) (h : H) :
    Kept (s.drop h) := by
  refine ⟨fun t h' events hc => ?_, fun f h' events he => ?_⟩
  · rw [call_drop] at hc
    rw [handlers_drop]
    exact hk.registering t h' events hc
  · rw [handlers_drop, call_drop]
    exact hk.entry f h' events (interest_of_drop he)

/-- An entry under another descriptor does not matter to a handler. -/
theorem events_of_interest (hinv : Inv s) (hfd : s.fd h = some f) (hne : h' ≠ h)
    (hfd' : s'.fd h' = s.fd h') (hi : ∀ f', f' ≠ f → s'.interest f' = s.interest f') :
    s'.events h' = s.events h' := by
  unfold Registry.events
  rw [hfd']
  cases hf' : s.fd h' with
  | none => rfl
  | some f' =>
    have hf : f' ≠ f := by
      rintro rfl
      exact hne (hinv.injective h' h f' hf' hfd)
    exact congrArg (Option.map Prod.snd) (hi f' hf)

theorem isSome_events_iff (hinv : Inv s) :
    (s.events h).isSome ↔ ∃ f events, s.interest f = some (h, events) := by
  constructor
  · intro hsome
    obtain ⟨events, he⟩ := Option.isSome_iff_exists.mp hsome
    obtain ⟨f, hfd, hi⟩ := Option.bind_eq_some_iff.mp he
    obtain ⟨⟨h', events'⟩, hi', rfl⟩ := Option.map_eq_some_iff.mp hi
    obtain rfl := hinv.injective h' h f (hinv.entry f h' events' hi') hfd
    exact ⟨f, events', hi'⟩
  · rintro ⟨f, events, hi⟩
    simp [Registry.events, hinv.entry f h events hi, hi]

theorem events_drop_of_ne [Fintype T] [DecidableEq H] [DecidableEq Fd] (hinv : Inv s)
    (hne : h' ≠ h) : (s.drop h).events h' = s.events h' := by
  cases hfd : s.fd h with
  | none =>
    unfold Registry.events
    rw [fd_drop_of_ne hne]
    cases s.fd h' with
    | none => rfl
    | some f => exact congrArg (Option.map Prod.snd) (interest_drop (.inr (by simp [hfd])))
  | some f =>
    refine events_of_interest hinv hfd hne (fd_drop_of_ne hne) fun f' hf => interest_drop (.inr ?_)
    rw [hfd]
    exact fun he => hf (Option.some.inj he).symm

variable [DecidableEq T]

theorem exists_update {c : Call H} (ht : s.call t ≠ .unregistering h)
    (hu : ∃ u, s.call u = .unregistering h) :
    ∃ u, Function.update s.call t c u = .unregistering h := by
  obtain ⟨u, hu⟩ := hu
  have hne : u ≠ t := fun he => ht (he ▸ hu)
  exact ⟨u, (Function.update_of_ne hne ..).trans hu⟩

/-- A call of a thread that held no handler back begins or ends. -/
theorem Kept.setCall {c : Call H} (hk : Kept s) (ht : ∀ h, s.call t ≠ .unregistering h)
    (hc : ∀ h events, c ≠ .registering h events) :
    Kept { s with call := Function.update s.call t c } := by
  refine ⟨fun u h' events hu => ?_, fun f h' events he => ?_⟩
  · by_cases hut : u = t
    · subst hut
      exact absurd ((Function.update_self ..).symm.trans hu) (hc h' events)
    · exact hk.registering u h' events ((Function.update_of_ne hut ..).symm.trans hu)
  · exact (hk.entry f h' events he).imp_right (exists_update (ht h'))

variable [DecidableEq Fd]

/-- An entry is added or changed in favour of a handler that is kept. -/
theorem Kept.put {events : ℕ} (hk : Kept s) (ht : ∀ h, s.call t ≠ .unregistering h)
    (hh : h ∈ s.handlers ∨ ∃ u, s.call u = .unregistering h) : Kept (s.put t f h events) := by
  have hset := hk.setCall (c := .idle) ht nofun
  refine ⟨hset.registering, fun f' h' events' he => ?_⟩
  by_cases hf : f' = f
  · subst hf
    obtain ⟨rfl, -⟩ : h = h' ∧ events = events' := by simpa [Registry.put] using he
    exact hh.imp_right (exists_update (ht h))
  · exact hset.entry f' h' events' ((Function.update_of_ne hf ..).symm.trans he)

theorem events_put {events : ℕ} (hfd : s.fd h = some f) :
    (s.put t f h events).events h = some events := by
  simp [Registry.events, Registry.put, Registry.finish, hfd]

theorem events_put_of_ne {events : ℕ} (hinv : Inv s) (hfd : s.fd h = some f) (hne : h' ≠ h) :
    (s.put t f h events).events h' = s.events h' :=
  events_of_interest hinv hfd hne rfl fun _ hf => Function.update_of_ne hf ..

theorem events_delete_of_ne (hinv : Inv s) (hfd : s.fd h = some f) (hne : h' ≠ h) :
    (s.delete t f).events h' = s.events h' :=
  events_of_interest hinv hfd hne rfl fun _ hf => Function.update_of_ne hf ..

variable [Fintype T] [DecidableEq H]

/-- **One step keeps the owners**, where the calls come one at a time. -/
theorem kept_step (hinv : Inv s) (hk : Kept s) (hc : OneAtATime s l) (hstep : Step s l s') :
    Kept s' := by
  cases hstep with
  | @start t ok hcall hepoll =>
    have hset := hk.setCall (t := t) (c := .idle) (by simp [hcall]) nofun
    exact ⟨hset.registering, hset.entry⟩
  | @stop t hcall hstate =>
    have hset := hk.setCall (t := t) (c := .stopping) (by simp [hcall]) nofun
    exact ⟨hset.registering, hset.entry⟩
  | stopped hcall => exact hk
  | @join t hcall =>
    have hset := hk.setCall (t := t) (c := .idle) (by simp [hcall]) nofun
    exact ⟨hset.registering, nofun⟩
  | @insert t h events hcall husers hnew =>
    refine ⟨fun u h' events' hu => ?_, fun f h' events' he => ?_⟩
    · by_cases hut : u = t
      · subst hut
        obtain ⟨rfl, -⟩ : h = h' ∧ events = events' := by simpa using hu
        exact Finset.mem_insert_self ..
      · exact Finset.mem_insert_of_mem
          (hk.registering u h' events' ((Function.update_of_ne hut ..).symm.trans hu))
    · exact (hk.entry f h' events' he).imp Finset.mem_insert_of_mem
        (exists_update (by simp [hcall]))
  | @erase t h hcall hin =>
    refine ⟨fun u h' events hu => ?_, fun f h' events he => ?_⟩
    · -- nobody else is in the middle of a call
      by_cases hut : u = t
      · subst hut
        cases (Function.update_self ..).symm.trans hu
      · have hidle := (Function.update_of_ne hut ..).symm.trans hu
        rw [hc.1 rfl u] at hidle
        cases hidle
    · by_cases hne : h' = h
      · subst hne
        exact .inr ⟨t, Function.update_self ..⟩
      · exact (hk.entry f h' events he).imp (fun hm => Finset.mem_erase.mpr ⟨hne, hm⟩)
          (exists_update (by simp [hcall]))
  | @add t h events f hcall hfd hepoll hnone =>
    exact hk.put (by simp [hcall]) (.inl (hk.registering t h events hcall))
  | @addFails t h events hcall =>
    have hset := hk.setCall (t := t) (c := .idle) (by simp [hcall]) nofun
    exact ⟨hset.registering, hset.entry⟩
  | @delete t h f hcall hfd hepoll =>
    refine Kept.drop ⟨fun u h' events hu => ?_, fun f' h' events he => ?_⟩ h
    · by_cases hut : u = t
      · subst hut
        cases (Function.update_self ..).symm.trans hu
      · exact hk.registering u h' events ((Function.update_of_ne hut ..).symm.trans hu)
    · -- the entry that `h_ptr` kept is the one deleted
      have hf : f' ≠ f := by
        rintro rfl
        cases (Function.update_self ..).symm.trans he
      have hold := (Function.update_of_ne hf ..).symm.trans he
      have hne : h' ≠ h := by
        rintro rfl
        exact hf (Option.some.inj ((hinv.entry f' h' events hold).symm.trans hfd))
      refine (hk.entry f' h' events hold).imp_right fun ⟨u, hu⟩ => ⟨u, ?_⟩
      have hut : u ≠ t := by
        rintro rfl
        exact hne (Call.unregistering.inj (hu.symm.trans hcall))
      exact (Function.update_of_ne hut ..).trans hu
  | @modify t h events f hcall hfd hepoll hsome =>
    -- the entry under the descriptor of `h` points to `h` already
    obtain ⟨⟨h', events'⟩, he⟩ := Option.isSome_iff_exists.mp hsome
    obtain rfl := hinv.injective h' h f (hinv.entry f h' events' he) hfd
    exact hk.put (by simp [hcall]) (hk.entry f h' events' he)
  | @nothing t l result hcall =>
    have hset := hk.setCall (t := t) (c := .idle) (by simp [hcall]) nofun
    exact ⟨hset.registering, hset.entry⟩
  | create hfree hf => exact ⟨hk.registering, hk.entry⟩
  | retain hlive => exact ⟨hk.registering, hk.entry⟩
  | @release h husers hcall =>
    have hrelease : Kept { s with users := s.users.erase h } := ⟨hk.registering, hk.entry⟩
    exact hrelease.drop h

/-- **The frame of an operation**: whatever it does to its own handler, every other one keeps its
place in the map and its events. -/
theorem frame (hinv : Inv s) (hstep : Step s l s') (hsub : s.subject l = some h) (hne : h' ≠ h) :
    (h' ∈ s'.handlers ↔ h' ∈ s.handlers) ∧ s'.events h' = s.events h' := by
  cases hstep with
  | start hcall hepoll => cases hsub
  | stop hcall hstate => cases hsub
  | stopped hcall => cases hsub
  | join hcall => cases hsub
  | insert hcall husers hnew =>
    obtain rfl := Option.some.inj hsub
    exact ⟨by simp [hne], rfl⟩
  | erase hcall hin =>
    obtain rfl := Option.some.inj hsub
    exact ⟨by simp [hne], rfl⟩
  | add hcall hfd hepoll hnone =>
    simp only [Registry.subject, hcall] at hsub
    obtain rfl := Option.some.inj hsub
    exact ⟨Iff.rfl, events_put_of_ne hinv hfd hne⟩
  | addFails hcall => exact ⟨Iff.rfl, rfl⟩
  | delete hcall hfd hepoll =>
    simp only [Registry.subject, hcall] at hsub
    obtain rfl := Option.some.inj hsub
    exact ⟨by rw [handlers_drop]; rfl,
      (events_drop_of_ne (hinv.delete _ _) hne).trans (events_delete_of_ne hinv hfd hne)⟩
  | modify hcall hfd hepoll hsome =>
    obtain rfl := Option.some.inj hsub
    exact ⟨Iff.rfl, events_put_of_ne hinv hfd hne⟩
  | nothing hcall => exact ⟨Iff.rfl, rfl⟩
  | create hfree hf => cases hsub
  | retain hlive => cases hsub
  | release husers hcall => cases hsub

theorem kept_of_reachable (h : (eventLoop T H Fd).Reachable OneAtATime s) : Kept s := by
  refine System.Reachable.invariant (I := Kept) ?_ ?_ h
  · rintro s rfl
    exact ⟨nofun, nofun⟩
  · intro s l s' hr hk hc hn
    exact kept_step (inv_of_reachable hr) hk hc (step_of_next hn)

/-- **Lifetime of the handlers**, where the calls come one at a time: at every point what the
interest set points to is owned by `m_handlers` or by the `Unregister` in progress, and an
operation on one handler leaves the map entry and the events of every other as they are. -/
theorem lifetime (h : (eventLoop T H Fd).Reachable OneAtATime s) :
    (∀ f h events, s.interest f = some (h, events) →
        h ∈ s.handlers ∨ ∃ t, s.call t = .unregistering h) ∧
      ∀ l s' h h', s.next l = some s' → s.subject l = some h → h' ≠ h →
        (h' ∈ s'.handlers ↔ h' ∈ s.handlers) ∧ s'.events h' = s.events h' := by
  refine ⟨(kept_of_reachable h).entry, fun l s' h₀ h' hn hsub hne => ?_⟩
  exact frame (inv_of_reachable h) (step_of_next hn) hsub hne

/-- Two handlers are registered and given up by the user; in the middle of `Unregister` of the
first, the interest set still points to it. -/
theorem lifetime_between_halves : ∃ s : Registry Unit ℕ ℕ,
    (eventLoop Unit ℕ ℕ).Reachable OneAtATime s ∧ s.interest 10 = some (1, 5) ∧ 1 ∉ s.handlers ∧
      (∃ t, s.call t = .unregistering 1) ∧
      ∀ l s' h, s.next l = some s' → s.subject l = some 1 → h ≠ 1 →
        (h ∈ s'.handlers ↔ h ∈ s.handlers) ∧ s'.events h = s.events h := by
  obtain ⟨s, hrun, hentry, hnot⟩ : ∃ s : Registry Unit ℕ ℕ,
      (eventLoop Unit ℕ ℕ).exec OneAtATime .constructed
        [.start () true, .create 1 10, .create 2 11, .register () 1 5, .ctl () true,
          .register () 2 5, .ctl () true, .release 1, .release 2, .unregister () 1] = some s ∧
        s.interest 10 = some (1, 5) ∧ 1 ∉ s.handlers :=
    ⟨_, rfl, rfl, by decide⟩
  have hreach := System.reachable_of_exec rfl hrun
  have hlife := lifetime hreach
  exact ⟨s, hreach, hentry, hnot, (hlife.1 10 1 5 hentry).resolve_left hnot,
    fun l s' h => hlife.2 l s' 1 h⟩

end OneByOne

end Xfnet.EventLoop
