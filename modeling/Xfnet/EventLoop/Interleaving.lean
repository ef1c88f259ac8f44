import Xfnet.Foundations.Counting
import Xfnet.EventLoop.Lifetime

/-!
# Interleaved registrations

`m_mutex` covers the map half of `Register` and `Unregister` only. The two halves of a call change
the map and the interest set by the same handler, so while no `epoll_ctl` fails the two differ by
the calls in progress (`BalancedAt`), and agree where there are none (`interleaved`). But a call
that overtakes another between its halves makes an `epoll_ctl` fail, and then they differ for good
(`overtaken`).
-/

namespace Xfnet.EventLoop

open Counting Transition

variable {T H Fd : Type*}

/-- `epoll_ctl` may refuse what a call asks for: an addition only with `EEXIST`. -/
def MayRefuse (s : Registry T H Fd) : Call H → Prop
  | .registering h _ => (s.events h).isSome
  | _ => True

/-- Calls of `Register` and `Unregister` while the loop is started, and the kernel refuses only
what it may. -/
def Regular (s : Registry T H Fd) : Label T H Fd → Prop
  | .stop _ => False
  | .join _ => False
  | .ctl t false => MayRefuse s (s.call t)
  | _ => True

/-- An addition finds the descriptor outside the interest set, a deletion inside. -/
def FindsPlace (s : Registry T H Fd) : Call H → Prop
  | .registering h _ => ¬(s.events h).isSome
  | .unregistering h => (s.events h).isSome
  | _ => True

/-- The epoll halves come in the order of the map halves. -/
def InOrder (s : Registry T H Fd) : Label T H Fd → Prop
  | .ctl t _ => FindsPlace s (s.call t)
  | _ => True

section Decidable

variable (s : Registry T H Fd)

instance : DecidablePred (MayRefuse s)
  | .registering h _ => inferInstanceAs (Decidable ((s.events h).isSome = true))
  | .idle => isTrue trivial
  | .stopping => isTrue trivial
  | .unregistering _ => isTrue trivial

instance : DecidablePred (Regular s)
  | .stop _ => isFalse id
  | .join _ => isFalse id
  | .ctl t false => inferInstanceAs (Decidable (MayRefuse s (s.call t)))
  | .ctl _ true => isTrue trivial
  | .start .. => isTrue trivial
  | .register .. => isTrue trivial
  | .unregister .. => isTrue trivial
  | .modify .. => isTrue trivial
  | .create .. => isTrue trivial
  | .retain _ => isTrue trivial
  | .release _ => isTrue trivial

instance : DecidablePred (FindsPlace s)
  | .registering h _ => inferInstanceAs (Decidable (¬(s.events h).isSome = true))
  | .unregistering h => inferInstanceAs (Decidable ((s.events h).isSome = true))
  | .idle => isTrue trivial
  | .stopping => isTrue trivial

instance : DecidablePred (InOrder s)
  | .ctl t _ => inferInstanceAs (Decidable (FindsPlace s (s.call t)))
  | .stop _ => isTrue trivial
  | .join _ => isTrue trivial
  | .start .. => isTrue trivial
  | .register .. => isTrue trivial
  | .unregister .. => isTrue trivial
  | .modify .. => isTrue trivial
  | .create .. => isTrue trivial
  | .retain _ => isTrue trivial
  | .release _ => isTrue trivial

end Decidable

section Balance

variable [Fintype T] [DecidableEq H] {s s' : Registry T H Fd} {l : Label T H Fd} {t : T} {h : H}
  {f : Fd}

/-- The place of a handler in the map and in the interest set, with the calls in progress on it. -/
def Registry.BalancedAt (s : Registry T H Fd) (h : H) : Prop :=
  (if h ∈ s.handlers then 1 else 0) + (count fun t => s.call t = .unregistering h) =
    (if (s.events h).isSome then 1 else 0) + count fun t => (s.call t).argument = some h

theorem balancedAt_congr (hb : s.BalancedAt h) (hmap : h ∈ s'.handlers ↔ h ∈ s.handlers)
    (hcall : s'.call = s.call) (hevents : s'.events h = s.events h) : s'.BalancedAt h := by
  unfold Registry.BalancedAt
  rw [if_congr hmap rfl rfl, hcall, hevents]
  exact hb

variable [DecidableEq T]

/-- A step that puts `t` to the call `c` keeps the balance if it does so on its own. -/
theorem balancedAt_setCall {c : Call H} {e : Option ℕ} (hb : s.BalancedAt h)
    (hcall : s'.call = Function.update s.call t c) (he : s'.events h = e)
    (hstep : (if h ∈ s'.handlers then 1 else 0) + (if c = .unregistering h then 1 else 0) +
        ((if (s.events h).isSome then 1 else 0) +
          if (s.call t).argument = some h then 1 else 0) =
      (if h ∈ s.handlers then 1 else 0) + (if s.call t = .unregistering h then 1 else 0) +
        ((if e.isSome then 1 else 0) + if c.argument = some h then 1 else 0)) :
    s'.BalancedAt h := by
  have hdel := count_update (fun c => c = .unregistering h) s.call t c
  have hadd := count_update (fun c : Call H => c.argument = some h) s.call t c
  unfold Registry.BalancedAt at hb ⊢
  rw [hcall, he]
  omega

/-- A step of `t` on another handler. -/
theorem balancedAt_other {c : Call H} (hb : s.BalancedAt h)
    (hcall : s'.call = Function.update s.call t c)
    (hmap : h ∈ s'.handlers ↔ h ∈ s.handlers) (hevents : s'.events h = s.events h)
    (hold : s.call t ≠ .unregistering h ∧ (s.call t).argument ≠ some h)
    (hnew : c ≠ .unregistering h ∧ c.argument ≠ some h) : s'.BalancedAt h := by
  apply balancedAt_setCall hb hcall hevents
  rw [if_congr hmap rfl rfl, if_neg hold.1, if_neg hold.2, if_neg hnew.1, if_neg hnew.2]

variable [DecidableEq Fd]

theorem events_delete (hfd : s.fd h = some f) : ((s.delete t f).drop h).events h = none := by
  unfold Registry.events
  cases hfd' : ((s.delete t f).drop h).fd h with
  | none => rfl
  | some f' =>
    obtain rfl : f = f' := Option.some.inj (hfd.symm.trans (fd_of_drop (s := s.delete t f) hfd'))
    cases hi : ((s.delete t f).drop h).interest f with
    | none => simp [hi]
    | some e => simpa [Registry.delete] using interest_of_drop hi

/-- **One step keeps the balance**, where the halves come in order. -/
theorem balanced_step (hinv : Inv s) (hb : ∀ h, s.BalancedAt h) (hr : Regular s l)
    (ho : InOrder s l) (hstep : Step s l s') : ∀ h, s'.BalancedAt h := by
  intro h
  cases hstep with
  | @start t ok hcall hepoll =>
    exact balancedAt_other (hb h) (t := t) (c := .idle) rfl Iff.rfl rfl (by simp [hcall])
      (by simp)
  | stop hcall hstate => exact hr.elim
  | stopped hcall => exact hb h
  | join hcall => exact hr.elim
  | @insert t h₀ events hcall husers hnew =>
    by_cases hne : h = h₀
    · subst hne
      refine balancedAt_setCall (hb h) (t := t) (c := .registering h events) (e := s.events h)
        rfl rfl ?_
      rw [hcall, if_pos (Finset.mem_insert_self ..), if_neg hnew]
      simp [Nat.add_comm]
    · exact balancedAt_other (hb h) (t := t) (c := .registering h₀ events) rfl (by simp [hne]) rfl
        (by simp [hcall]) (by simp [Ne.symm hne])
  | @erase t h₀ hcall hin =>
    by_cases hne : h = h₀
    · subst hne
      refine balancedAt_setCall (hb h) (t := t) (c := .unregistering h) (e := s.events h)
        rfl rfl ?_
      rw [hcall, if_neg (Finset.notMem_erase h s.handlers), if_pos hin]
      simp
    · exact balancedAt_other (hb h) (t := t) (c := .unregistering h₀) rfl (by simp [hne]) rfl
        (by simp [hcall]) (by simp [Ne.symm hne])
  | @add t h₀ events f hcall hfd hepoll hnone =>
    by_cases hne : h = h₀
    · subst hne
      have hold : s.events h = none := by simp [Registry.events, hfd, hnone]
      apply balancedAt_setCall (hb h) (t := t) (c := .idle) rfl (events_put hfd)
      have hmap : h ∈ (s.put t f h events).handlers ↔ h ∈ s.handlers := Iff.rfl
      rw [hcall, hold, if_congr hmap rfl rfl]
      simp
    · exact balancedAt_other (hb h) (t := t) (c := .idle) rfl Iff.rfl
        (events_put_of_ne hinv hfd hne) (by simp [hcall, Ne.symm hne]) (by simp)
  | @addFails t h₀ events hcall =>
    simp only [Regular, InOrder, hcall] at hr ho
    exact absurd hr ho
  | @delete t h₀ f hcall hfd hepoll =>
    by_cases hne : h = h₀
    · subst hne
      apply balancedAt_setCall (hb h) (t := t) (c := .idle) call_drop (events_delete hfd)
      have hin : (s.events h).isSome := by simpa only [InOrder, hcall, FindsPlace] using ho
      have hmap : h ∈ ((s.delete t f).drop h).handlers ↔ h ∈ s.handlers := by
        rw [handlers_drop]
        rfl
      rw [hcall, if_pos hin, if_congr hmap rfl rfl]
      simp
    · exact balancedAt_other (hb h) (t := t) (c := .idle) call_drop (by rw [handlers_drop]; rfl)
        ((events_drop_of_ne (hinv.delete _ _) hne).trans (events_delete_of_ne hinv hfd hne))
        (by simp [hcall, Ne.symm hne]) (by simp)
  | @modify t h₀ events f hcall hfd hepoll hsome =>
    by_cases hne : h = h₀
    · subst hne
      have hold : (s.events h).isSome := by simpa [Registry.events, hfd] using hsome
      apply balancedAt_setCall (hb h) (t := t) (c := .idle) rfl (events_put hfd)
      rw [hcall, if_pos hold]
      rfl
    · exact balancedAt_other (hb h) (t := t) (c := .idle) rfl Iff.rfl
        (events_put_of_ne hinv hfd hne) (by simp [hcall]) (by simp)
  | @nothing t l result hcall =>
    exact balancedAt_other (hb h) (t := t) (c := .idle) rfl Iff.rfl rfl (by simp [hcall])
      (by simp)
  | @create h₀ f hfree hf =>
    refine balancedAt_congr (hb h) Iff.rfl rfl ?_
    by_cases hne : h = h₀
    · subst hne
      -- a new descriptor is not in the interest set
      have hnone : s.interest f = none := by
        cases hi : s.interest f with
        | none => rfl
        | some e => exact absurd (hinv.opened _ f (hinv.entry f e.1 e.2 hi)) hf
      simp [Registry.events, hfree, hnone]
    · simp [Registry.events, hne]
  | retain hlive => exact hb h
  | @release h₀ husers hcall =>
    refine balancedAt_congr (hb h) (by rw [handlers_drop]) call_drop ?_
    by_cases hne : h = h₀
    · subst hne
      by_cases hown : Registry.Owned { s with users := s.users.erase h } h
      · unfold Registry.drop
        rw [if_pos hown]
        rfl
      · -- a handler without owner is in neither place
        have hnone : s.events h = none := by
          have hbal := hb h
          unfold Registry.BalancedAt at hbal
          rw [if_neg fun hm => hown (.inl hm),
            count_of_forall_not fun t ht => hown (.inr (.inr ⟨t, ht⟩)),
            count_of_forall_not hcall] at hbal
          by_contra hsome
          rw [if_pos (Option.isSome_iff_ne_none.mpr hsome)] at hbal
          omega
        unfold Registry.drop
        rw [if_neg hown, hnone]
        simp [Registry.events]
    · exact events_drop_of_ne (hinv.release hcall) hne

theorem balanced_of_reachable
    (h : (eventLoop T H Fd).Reachable (fun s l => Regular s l ∧ InOrder s l) s) :
    ∀ h, s.BalancedAt h := by
  refine System.Reachable.invariant (I := fun s => ∀ h, s.BalancedAt h) ?_ ?_ h
  · rintro s rfl h
    unfold Registry.BalancedAt
    rw [count_of_forall_not nofun, count_of_forall_not nofun]
    rfl
  · intro s l s' hr hb hc hn
    exact balanced_step (inv_of_reachable hr) hb hc.1 hc.2 (step_of_next hn)

/-- **Where the halves come in order**, whenever no call is in progress the handlers in
`m_handlers` are those in the interest set. -/
theorem interleaved (h : (eventLoop T H Fd).Reachable (fun s l => Regular s l ∧ InOrder s l) s)
    (hidle : ∀ t, s.call t = .idle) :
    ∀ h, h ∈ s.handlers ↔ ∃ f events, s.interest f = some (h, events) := by
  intro h₀
  rw [← isSome_events_iff (inv_of_reachable h)]
  have hbal := balanced_of_reachable h h₀
  unfold Registry.BalancedAt at hbal
  rw [count_of_forall_not fun t ht => by simp [hidle t] at ht,
    count_of_forall_not fun t ht => by simp [hidle t] at ht] at hbal
  by_cases hmap : h₀ ∈ s.handlers
  · rw [if_pos hmap] at hbal
    refine ⟨fun _ => ?_, fun _ => hmap⟩
    by_contra hnone
    rw [if_neg hnone] at hbal
    omega
  · rw [if_neg hmap] at hbal
    refine ⟨fun hm => absurd hm hmap, fun hsome => ?_⟩
    rw [if_pos hsome] at hbal
    omega

/-- Two threads register and unregister a handler without overtaking each other. -/
theorem interleaved_in_turn : ∃ s : Registry Bool ℕ ℕ,
    (eventLoop Bool ℕ ℕ).Reachable (fun s l => Regular s l ∧ InOrder s l) s ∧ 1 ∈ s.handlers ∧
      ∃ f events, s.interest f = some (1, events) := by
  obtain ⟨s, hrun, hin, hidle⟩ : ∃ s : Registry Bool ℕ ℕ,
      (eventLoop Bool ℕ ℕ).exec (fun s l => Regular s l ∧ InOrder s l) .constructed
        [.start true true, .create 1 10, .register true 1 5, .ctl true true, .unregister false 1,
          .ctl false true, .register false 1 5, .ctl false true] = some s ∧
        1 ∈ s.handlers ∧ ∀ t, s.call t = .idle :=
    ⟨_, rfl, by decide, by decide⟩
  have hreach := System.reachable_of_exec rfl hrun
  exact ⟨s, hreach, hin, (interleaved hreach hidle 1).mp hin⟩

/-- An `Unregister` between the halves of a `Register` deletes what is not there yet. The handler
then stays in the interest set and not in `m_handlers`. -/
theorem overtaken : ¬∀ s : Registry Bool ℕ ℕ, (eventLoop Bool ℕ ℕ).Reachable Regular s →
    (∀ t, s.call t = .idle) →
      ∀ h, h ∈ s.handlers ↔ ∃ f events, s.interest f = some (h, events) := by
  intro h
  obtain ⟨s, hrun, hnot, hentry, hidle⟩ : ∃ s : Registry Bool ℕ ℕ,
      (eventLoop Bool ℕ ℕ).exec Regular
        .constructed
        [.start true true, .create 1 10, .register true 1 5, .unregister false 1,
          .ctl false false, .ctl true true] = some s ∧
        1 ∉ s.handlers ∧ s.interest 10 = some (1, 5) ∧ ∀ t, s.call t = .idle :=
    ⟨_, rfl, by decide, rfl, by decide⟩
  have hreach := System.reachable_of_exec rfl hrun
  exact hnot ((h s hreach hidle 1).mpr ⟨10, 5, hentry⟩)

end Balance

end Xfnet.EventLoop
