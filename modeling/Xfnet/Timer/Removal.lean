import Xfnet.Timer.Expiry

/-!
# A timer after `RemoveTimer`

`RemoveTimer` takes the handler out of `m_handlers` and its descriptor out of the interest set. What
it does not see is an expiry that was harvested before: an event of the current `Select`, an entry
of the queue or a handler that a work thread has popped. The queue owns its handlers, so these
callbacks still come (`removal`), but no more than these.
-/

namespace Xfnet.TimerManager.Timers

open Transition BlockingQueue

variable {n : ℕ} {U H : Type*} [DecidableEq H] {L : Layout}

/-- How often the callback of the timer was called. -/
def State.started (s : State n U H) (h : H) : ℕ := (s.calls.map Invocation.handler).count h

/-- The expiries of the timer on their way from the interest set to its callback. -/
def State.pending (s : State n U H) (h : H) : ℕ :=
  s.batch.count h + inFlight (some h) s.manager.queue

/-- The timer is out of the interest set, and no `AddTimer` will put it there. -/
structure State.Off (s : State n U H) (h : H) : Prop where
  created : h ∈ s.created
  interest : h ∉ s.interest
  call : ∀ u, s.call u ≠ .adding h

/-- A handler enters the interest set once, through the `AddTimer` that created it. -/
structure Registering (s : State n U H) : Prop where
  interest : ∀ h ∈ s.interest, h ∈ s.created ∧ ∀ u, s.call u ≠ .adding h
  adding : ∀ u h, s.call u = .adding h → h ∈ s.created
  once : ∀ u u' h, s.call u = .adding h → s.call u' = .adding h → u = u'
  removed : ∀ h ∈ s.removed, s.Off h

section Steps

variable {s s' : State n U H} {l : Label n U H} {h : H}

omit [DecidableEq H] in
/-- A step after which no more handlers enter the interest set than before. -/
theorem Registering.of_le (hreg : Registering s) (hcreated : s'.created = s.created)
    (hinterest : s'.interest ⊆ s.interest)
    (hcall : ∀ u h, s'.call u = .adding h → s.call u = .adding h)
    (hremoved : ∀ h ∈ s'.removed, s'.Off h) : Registering s' := by
  refine ⟨fun h hin => ?_, fun u h hadding => ?_, fun u u' h hadding hadding' => ?_, hremoved⟩
  · obtain ⟨hin', hnot⟩ := hreg.interest h (hinterest hin)
    exact ⟨hcreated ▸ hin', fun u hadding => hnot u (hcall u h hadding)⟩
  · exact hcreated ▸ hreg.adding u h (hcall u h hadding)
  · exact hreg.once u u' h (hcall u h hadding) (hcall u' h hadding')

variable [DecidableEq U]

omit [DecidableEq H] in
theorem adding_of_update {u u' : U} {c : Call H}
    (h' : Function.update s.call u c u' = .adding h) (hc : ∀ h, c ≠ .adding h) :
    s.call u' = .adding h := by
  by_cases hu : u' = u
  · subst hu
    rw [Function.update_self] at h'
    exact absurd h' (hc h)
  · rwa [Function.update_of_ne hu] at h'

theorem State.Off.step (hoff : s.Off h) (hstep : Step L s l s') : s'.Off h := by
  obtain ⟨hcreated, hinterest, hcall⟩ := hoff
  have hcalls {u : U} {c : Call H} (hc : c ≠ .adding h) (u' : U) :
      Function.update s.call u c u' ≠ .adding h :=
    Counting.forall_update (Q := fun _ (c : Call H) => c ≠ .adding h) hcall hc u'
  cases hstep with
  | @add u h₀ _ _ _ _ hnew _ =>
    have hne : h₀ ≠ h := fun he => hnew (he ▸ hcreated)
    exact ⟨Finset.mem_insert_of_mem hcreated, hinterest, hcalls fun he => hne (Call.adding.inj he)⟩
  | @registered u h₀ hadding =>
    have hne : h ≠ h₀ := fun he => hcall u (he ▸ hadding)
    exact ⟨hcreated, fun hin => hinterest (Finset.mem_of_mem_insert_of_ne hin hne), hcalls nofun⟩
  | refused _ => exact ⟨hcreated, hinterest, hcalls nofun⟩
  | set _ _ _ => exact ⟨hcreated, hinterest, hcalls nofun⟩
  | unset _ _ _ => exact ⟨hcreated, hinterest, hcalls nofun⟩
  | found _ _ _ => exact ⟨hcreated, hinterest, hcalls nofun⟩
  | missing _ _ => exact ⟨hcreated, hinterest, hcalls nofun⟩
  | removed _ _ =>
    exact ⟨hcreated, fun hin => hinterest (Finset.mem_of_mem_erase hin), hcalls nofun⟩
  | unknown _ _ => exact ⟨hcreated, hinterest, hcalls nofun⟩
  | _ => exact ⟨hcreated, hinterest, hcall⟩

/-- `AddTimer` inserts a new handler. -/
theorem Registering.add {u : U} {h₀ : H} (hreg : Registering s) (hnew : h₀ ∉ s.created)
    (hcreated : s'.created = insert h₀ s.created) (hinterest : s'.interest = s.interest)
    (hcall : s'.call = Function.update s.call u (.adding h₀))
    (hremoved : ∀ h ∈ s'.removed, s'.Off h) : Registering s' := by
  have hself {h : H} {u' : U} (hadding : s'.call u' = .adding h) :
      u' = u ∧ h = h₀ ∨ s.call u' = .adding h := by
    rw [hcall] at hadding
    by_cases hu : u' = u
    · subst hu
      rw [Function.update_self] at hadding
      exact .inl ⟨rfl, (Call.adding.inj hadding).symm⟩
    · rw [Function.update_of_ne hu] at hadding
      exact .inr hadding
  have hnone {u' : U} (hadding : s.call u' = .adding h₀) : False :=
    hnew (hreg.adding u' h₀ hadding)
  refine ⟨fun h hin => ?_, fun u' h hadding => ?_, fun u₁ u₂ h h₁ h₂ => ?_, hremoved⟩
  · obtain ⟨hin', hnot⟩ := hreg.interest h (hinterest ▸ hin)
    refine ⟨hcreated ▸ Finset.mem_insert_of_mem hin', fun u' hadding => ?_⟩
    rcases hself hadding with ⟨-, rfl⟩ | hadding
    · exact hnew hin'
    · exact hnot u' hadding
  · rw [hcreated]
    rcases hself hadding with ⟨-, rfl⟩ | hadding
    · exact Finset.mem_insert_self ..
    · exact Finset.mem_insert_of_mem (hreg.adding u' h hadding)
  · rcases hself h₁ with ⟨rfl, rfl⟩ | h₁'
    · rcases hself h₂ with ⟨rfl, -⟩ | h₂'
      · rfl
      · exact (hnone h₂').elim
    · rcases hself h₂ with ⟨-, rfl⟩ | h₂'
      · exact (hnone h₁').elim
      · exact hreg.once u₁ u₂ h h₁' h₂'

theorem Registering.step (hreg : Registering s) (hstep : Step L s l s') : Registering s' := by
  have hoff : ∀ h ∈ s.removed, s'.Off h := fun h hin => (hreg.removed h hin).step hstep
  cases hstep with
  | add hcall hnew hapart => exact hreg.add hnew rfl rfl rfl hoff
  | @registered u h₀ hcall =>
    have hidle {u' : U} {h : H} (hadding : Function.update s.call u .idle u' = .adding h) :
        s.call u' = .adding h := adding_of_update hadding nofun
    refine ⟨fun h hin => ?_, fun u' h hadding => hreg.adding u' h (hidle hadding),
      fun u₁ u₂ h h₁ h₂ => hreg.once u₁ u₂ h (hidle h₁) (hidle h₂), hoff⟩
    rcases Finset.mem_insert.mp hin with rfl | hin
    · -- the only `AddTimer` for it is the one that returns
      refine ⟨hreg.adding u h hcall, fun u' hadding => ?_⟩
      obtain rfl := hreg.once u' u h (hidle hadding) hcall
      have hself : Function.update s.call u' .idle u' = .adding h := hadding
      rw [Function.update_self] at hself
      cases hself
    · obtain ⟨hin', hnot⟩ := hreg.interest h hin
      exact ⟨hin', fun u' hadding => hnot u' (hidle hadding)⟩
  | refused _ => exact hreg.of_le rfl subset_rfl (fun _ _ hc => adding_of_update hc nofun) hoff
  | set _ _ _ => exact hreg.of_le rfl subset_rfl (fun _ _ hc => adding_of_update hc nofun) hoff
  | unset _ _ _ => exact hreg.of_le rfl subset_rfl (fun _ _ hc => adding_of_update hc nofun) hoff
  | found _ _ _ => exact hreg.of_le rfl subset_rfl (fun _ _ hc => adding_of_update hc nofun) hoff
  | missing _ _ => exact hreg.of_le rfl subset_rfl (fun _ _ hc => adding_of_update hc nofun) hoff
  | @removed u h₀ hcall hin =>
    refine hreg.of_le rfl (Finset.erase_subset ..) (fun _ _ hc => adding_of_update hc nofun)
      fun h hh => ?_
    rcases Finset.mem_insert.mp hh with rfl | hh
    · -- the handler was in the interest set, so no `AddTimer` is about to put it there
      obtain ⟨hcreated, hnot⟩ := hreg.interest h hin
      exact ⟨hcreated, Finset.notMem_erase h s.interest, fun u' hadding =>
        hnot u' (adding_of_update (u := u) (c := .idle) hadding nofun)⟩
    · exact hoff h hh
  | unknown _ _ => exact hreg.of_le rfl subset_rfl (fun _ _ hc => adding_of_update hc nofun) hoff
  | _ => exact hreg.of_le rfl subset_rfl (fun _ _ => id) hoff

/-- **A step on its way**: each call of the callback of a timer that is off takes one of the
expiries that were pending, and none joins them. -/
theorem State.Off.pending_step (hoff : s.Off h) (hstep : Step L s l s') :
    s'.started h + s'.pending h ≤ s.started h + s.pending h := by
  unfold State.started State.pending
  cases hstep with
  | @select batch hempty hreading hlength hnodup hready =>
    have hnone : batch.count h = 0 :=
      List.count_eq_zero.mpr fun hin => hoff.interest (hready h hin).1
    simp only [hempty, hnone, List.count_nil, le_refl]
  | @expire woken h₀ batch m hbatch hreading howned harmed hm =>
    have hle := inFlight_expire hm h
    rw [hbatch, List.count_cons]
    simp only [beq_iff_eq]
    omega
  | @skip h₀ batch hbatch hreading howned =>
    rw [hbatch, List.count_cons]
    simp only
    omega
  | handled hm =>
    have hle := inFlight_next hm (some h)
    exact Nat.add_le_add_left (Nat.add_le_add_left hle _) _
  | work hpermits hm =>
    exact Nat.add_le_add_left (Nat.add_le_add_left (inFlight_work hpermits hm h) _) _
  | @run i h₀ m hpc hm =>
    have hle := inFlight_next hm (some h)
    rw [List.map_append, List.count_append]
    by_cases hne : h₀ = h
    · subst hne
      have htaken := inFlight_run hpc hm
      simp only [List.map_cons, List.map_nil, List.count_singleton_self]
      omega
    · simp only [List.map_cons, List.map_nil, List.count_singleton, beq_iff_eq, if_neg hne]
      exact Nat.add_le_add_left (Nat.add_le_add_left hle _) _
  | _ => exact le_refl _

variable [Fintype U]

theorem registering_of_reachable (hr : (timers L n U H).Reachable Free s) : Registering s := by
  refine System.Reachable.invariant (I := Registering) ?_
    (fun s l s' _ hreg _ hn => hreg.step (step_of_next hn)) hr
  rintro s rfl
  exact ⟨nofun, nofun, nofun, nofun⟩

/-- The same over a run. -/
theorem State.Off.pending_exec {ls : List (Label n U H)} (hoff : s.Off h)
    (hrun : (timers L n U H).exec Free s ls = some s') :
    s'.started h + s'.pending h ≤ s.started h + s.pending h := by
  refine System.exec_rel (R := fun s s' : State n U H =>
    s.Off h → s'.started h + s'.pending h ≤ s.started h + s.pending h) (fun s _ => le_refl _) ?_
    hrun hoff
  intro s l s₁ s' _ hn hrest hoff
  have hstep : Step L s l s₁ := step_of_next hn
  exact (hrest (hoff.step hstep)).trans (hoff.pending_step hstep)

/-- **Removal**, in every run: when `RemoveTimer` has found a timer and returned `true`, its
callback is called for the expiries still on their way at that moment at most. -/
theorem removal {ls : List (Label n U H)} (hr : (timers L n U H).Reachable Free s)
    (hremoved : h ∈ s.removed) (hrun : (timers L n U H).exec Free s ls = some s') :
    s'.started h ≤ s.started h + s.pending h :=
  (Nat.le_add_right _ _).trans
    (((registering_of_reachable hr).removed h hremoved).pending_exec hrun)

end Steps

/-! ## An expiry in the queue -/

/-- A timer that is removed while an expiry waits in the queue. -/
def removedQueued : List (Label 1 Unit ℕ) :=
  [.add () 0 4096 500 7, .register () true, .select [0], .expire none, .handled,
    .remove () 4096 (some 0), .unregister ()]

/-- Its callback is called once more, and that is all. -/
theorem removal_queued : ∃ s s' : State 1 Unit ℕ, (timers lp64 1 Unit ℕ).Reachable Free s ∧
    s.result () = true ∧ s'.started 0 = 1 ∧ s'.started 0 ≤ s.started 0 + s.pending 0 := by
  obtain ⟨s, hrun, hremoved, hresult, s', hrun', hstarted⟩ : ∃ s : State 1 Unit ℕ,
      (timers lp64 1 Unit ℕ).exec Free (.fresh 1 Unit ℕ) removedQueued = some s ∧
        0 ∈ s.removed ∧ s.result () = true ∧ ∃ s' : State 1 Unit ℕ,
          (timers lp64 1 Unit ℕ).exec Free s
            [.work (.queue (.call (.worker 0) .pop none)), .run 0, .finish 0] = some s' ∧
            s'.started 0 = 1 :=
    ⟨_, rfl, by decide, rfl, _, rfl, rfl⟩
  have hr : (timers lp64 1 Unit ℕ).Reachable Free s := System.reachable_of_exec rfl hrun
  exact ⟨s, s', hr, hresult, hstarted, removal hr hremoved hrun'⟩

/-- So `RemoveTimer` can return `true` before a work thread calls the callback. -/
theorem called_after_removal : ¬∀ (s s' : State 1 Unit ℕ) (ls : List (Label 1 Unit ℕ)),
    (timers lp64 1 Unit ℕ).Reachable Free s → 0 ∈ s.removed →
      (timers lp64 1 Unit ℕ).exec Free s ls = some s' → s'.started 0 = s.started 0 := by
  intro hfinal
  obtain ⟨s, hrun, hremoved, hnone, s', hrun', hstarted⟩ : ∃ s : State 1 Unit ℕ,
      (timers lp64 1 Unit ℕ).exec Free (.fresh 1 Unit ℕ) removedQueued = some s ∧
        0 ∈ s.removed ∧ s.started 0 = 0 ∧ ∃ s' : State 1 Unit ℕ,
          (timers lp64 1 Unit ℕ).exec Free s
            [.work (.queue (.call (.worker 0) .pop none)), .run 0] = some s' ∧ s'.started 0 = 1 :=
    ⟨_, rfl, by decide, rfl, _, rfl, rfl⟩
  have hcount := hfinal s s' _ (System.reachable_of_exec rfl hrun) hremoved hrun'
  rw [hnone, hstarted] at hcount
  cases hcount

end Xfnet.TimerManager.Timers
