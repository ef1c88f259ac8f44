import Xfnet.Queue.Fifo

/-!
# Wake-ups of the queue

What a consumer can take is what the queue holds: every push adds one value and notifies
`m_not_empty_cond`, and a consumer that waited takes one. What a producer can take are the free
slots; here every pop notifies `m_not_full_cond`, but `SetCapacity` changes the slots and notifies
nobody.

A wake-up can be lost in two ways. A wait with a deadline returns `false` on a timeout without a
look at the queue, also when it had been notified (`timed_out_strands`); where the waiters that do
so can be spared, no wake-up is lost (`no_lost_wakeup`). And a larger capacity makes room for
producers that go on sleeping (`enlarged_strands`); where the producers already notified fill the
room, none is left behind (`producers_served`).
-/

namespace Xfnet.BlockingQueue

open Counting Monitor Transition

universe u

variable {T : Type*} {α : Type u}

/-- The values that a consumer can take. -/
def items (c : Content α) : ℕ := c.queue.length

/-- The slots that a producer can take. -/
def slots (c : Content α) : ℕ := c.capacity - c.queue.length

section Bookkeeping

variable {op : Op α}

theorem mayWait_pops_of_waits (h : (blockingQueue α).Waits op .notEmpty) :
    op.MayWait ∧ op.Pops := by
  obtain ⟨c, hb⟩ := h
  cases blocked_of_body hb with
  | empty hwait hpops _ => exact ⟨hwait, hpops⟩

theorem mayWait_pushes_of_waits (h : (blockingQueue α).Waits op .notFull) :
    op.MayWait ∧ ∃ v, op.pushes = some v := by
  obtain ⟨c, hb⟩ := h
  cases blocked_of_body hb with
  | @full v hwait hv _ => exact ⟨hwait, v, hv⟩

/-- The bookkeeping of `m_not_empty_cond`. -/
theorem accounts_notEmpty (P : T → Op α → Prop) :
    Accounts (blockingQueue α) P .notEmpty items := by
  constructor
  · intro op c hb
    cases blocked_of_body hb with
    | empty _ _ hempty => simp [items, hempty]
  · intro op c k hw hb
    cases blocked_of_body hb with
    | full _ hv _ => exact absurd (mayWait_pops_of_waits hw).2 (not_pops_of_pushes hv)
    | empty => rfl
  · intro t op c c' r n _ hw hb
    obtain ⟨hwait, hpops⟩ := mayWait_pops_of_waits hw
    cases did_of_body hb with
    | accepted hv _ => exact absurd hpops (not_pops_of_pushes hv)
    | handed _ hcons => simp [items, hcons]
    | refused hnot => exact absurd hwait hnot
    | size he => exact absurd hpops (by simp [he, Op.Pops])
    | resized he => exact absurd hpops (by simp [he, Op.Pops])
  · intro t op c c' r n _ hb
    cases did_of_body hb with
    | accepted _ _ => simp [items]
    | handed _ hcons => simp [items, hcons]
    | refused _ => simp
    | size _ => simp
    | resized _ => simp [items]

/-- The bookkeeping of `m_not_full_cond`, for all operations but `SetCapacity`. -/
theorem accounts_notFull : Accounts (blockingQueue α) (FixedCapacity (T := T)) .notFull slots := by
  constructor
  · intro op c hb
    cases blocked_of_body hb with
    | full _ _ hfull => exact Nat.sub_eq_zero_of_le hfull
  · intro op c k hw hb
    obtain ⟨-, v, hv⟩ := mayWait_pushes_of_waits hw
    cases blocked_of_body hb with
    | full _ _ _ => rfl
    | empty _ hpops _ => exact absurd hpops (not_pops_of_pushes hv)
  · intro t op c c' r n hfixed hw hb
    obtain ⟨hwait, v, hv⟩ := mayWait_pushes_of_waits hw
    cases did_of_body hb with
    | accepted _ hfree =>
      simp only [slots, List.length_append, List.length_singleton]
      omega
    | handed hpops _ => exact absurd hpops (not_pops_of_pushes hv)
    | refused hnot => exact absurd hwait hnot
    | size he => simp [he, Op.pushes] at hv
    | resized he => exact absurd he (hfixed _)
  · intro t op c c' r n hfixed hb
    cases did_of_body hb with
    | accepted _ _ =>
      simp only [slots, List.length_append, List.length_singleton]
      omega
    | handed _ hcons =>
      simp only [slots, hcons, List.length_cons, if_true]
      omega
    | refused _ => exact Nat.le_add_right _ _
    | size _ => exact Nat.le_add_right _ _
    | resized he => exact absurd he (hfixed _)

end Bookkeeping

/-! ## A fixed capacity -/

section Fixed

variable [DecidableEq T] [Fintype T] {capacity : ℕ} {s : State T α}

/-- The runs with a fixed capacity in which every notified waiter that reports a timeout can be
spared. -/
def Spared (s : State T α) (l : Label T (Op α)) : Prop :=
  Only FixedCapacity s l ∧ Spares .notEmpty items s l ∧ Spares .notFull slots s l

instance (s : State T α) (l : Label T (Op α)) : Decidable (Spared s l) :=
  inferInstanceAs (Decidable (_ ∧ _ ∧ _))

/-- **No wake-up is lost** where the notified waiters that report a timeout can be spared: neither
a consumer sleeps over a value nor a producer over a free slot when no notified one is still to
run. -/
theorem no_lost_wakeup (h : (queue T α capacity).Reachable Spared s) :
    ¬Stranded .notEmpty items s ∧ ¬Stranded .notFull slots s := by
  have hitems : KeepsUp .notEmpty items s :=
    (accounts_notEmpty FixedCapacity).keepsUp (h.mono fun _ _ hc => ⟨hc.1, hc.2.1⟩)
  have hslots : KeepsUp .notFull slots s :=
    accounts_notFull.keepsUp (h.mono fun _ _ hc => ⟨hc.1, hc.2.2⟩)
  exact ⟨hitems.not_stranded, hslots.not_stranded⟩

/-- Two consumers are notified, one after the other, and then the first reports a timeout: it can be
spared since nobody is left asleep. -/
theorem no_lost_wakeup_spared : ∃ s : State (Fin 3) ℕ,
    (queue (Fin 3) ℕ 2).Reachable Spared s ∧ s.pc 0 = .returned .refused ∧
      s.pc 1 = .awake .pop .notEmpty true ∧ ¬Stranded .notEmpty items s ∧
      ¬Stranded .notFull slots s := by
  obtain ⟨s, hrun, hout, hnot⟩ : ∃ s : State (Fin 3) ℕ,
      (queue (Fin 3) ℕ 2).exec Spared ⟨⟨[], 2⟩, fun _ => .idle, []⟩
        [.call 0 .popFor none, .call 1 .pop none, .call 2 (.push 5) (some 0), .leave 2,
          .call 2 (.push 6) (some 1), .resume 0 true none] = some s ∧
        s.pc 0 = .returned .refused ∧ s.pc 1 = .awake .pop .notEmpty true :=
    ⟨_, rfl, rfl, rfl⟩
  have hreach := System.reachable_of_exec rfl hrun
  exact ⟨s, hreach, hout, hnot, no_lost_wakeup hreach⟩

/-- A consumer that was notified reports a timeout: the value stays, and the other consumer sleeps
on. -/
theorem timed_out_strands : ¬∀ (capacity : ℕ) (s : State (Fin 3) ℕ), 1 ≤ capacity →
    (queue (Fin 3) ℕ capacity).Reachable (Only FixedCapacity) s →
      ¬Stranded .notEmpty items s ∧ ¬Stranded .notFull slots s := by
  intro h
  obtain ⟨s, hrun, hdata, hout, hasleep, hpushed⟩ : ∃ s : State (Fin 3) ℕ,
      (queue (Fin 3) ℕ 1).exec (Only FixedCapacity) ⟨⟨[], 1⟩, fun _ => .idle, []⟩
        [.call 0 .popFor none, .call 1 .pop none, .call 2 (.push 5) (some 0),
          .resume 0 true none] = some s ∧ s.data = ⟨[5], 1⟩ ∧ s.pc 0 = .returned .refused ∧
        s.pc 1 = .asleep .pop .notEmpty ∧ s.pc 2 = .returned .accepted :=
    ⟨_, rfl, rfl, rfl, rfl, rfl⟩
  refine (h 1 s le_rfl (System.reachable_of_exec rfl hrun)).1 ⟨?_, ⟨1, ?_⟩, ?_⟩
  · rw [hdata]
    exact Nat.one_pos
  · rw [hasleep]
    rfl
  · intro t
    match t with
    | 0 => simp [hout]
    | 1 => simp [hasleep]
    | 2 => simp [hpushed]

end Fixed

/-! ## A capacity that changes -/

section Resized

variable [DecidableEq T] [Fintype T] {capacity : ℕ} {s s' : State T α} {l : Label T (Op α)}

/-- Every operation but those with a deadline. -/
def Untimed (_ : T) (op : Op α) : Prop := timeout op = none

instance (t : T) (op : Op α) : Decidable (Untimed t op) :=
  match op with
  | .pushFor _ => isFalse nofun
  | .popFor => isFalse nofun
  | .push _ => isTrue rfl
  | .tryPush _ => isTrue rfl
  | .tryPop => isTrue rfl
  | .pop => isTrue rfl
  | .size => isTrue rfl
  | .setCapacity _ => isTrue rfl

/-- `SetCapacity` makes no more room than the producers that were notified fill, unless nobody
sleeps. -/
def Serves (s : State T α) : Label T (Op α) → Prop
  | .call _ (.setCapacity capacity) _ => ∀ u, (s.pc u).SleepsOn .notFull →
      capacity - s.data.queue.length ≤ count fun u => (s.pc u).NotifiedOn .notFull
  | _ => True

instance (s : State T α) : DecidablePred (Serves s)
  | .call _ op _ =>
    match op with
    | .setCapacity capacity => inferInstanceAs (Decidable (∀ u, (s.pc u).SleepsOn .notFull →
        capacity - s.data.queue.length ≤ count fun u => (s.pc u).NotifiedOn .notFull))
    | .push _ => isTrue trivial
    | .pushFor _ => isTrue trivial
    | .tryPush _ => isTrue trivial
    | .tryPop => isTrue trivial
    | .pop => isTrue trivial
    | .popFor => isTrue trivial
    | .size => isTrue trivial
  | .wake _ => isTrue trivial
  | .resume .. => isTrue trivial
  | .leave _ => isTrue trivial

/-- The runs without deadlines in which `SetCapacity` serves the producers. -/
def Served (s : State T α) (l : Label T (Op α)) : Prop := Only Untimed s l ∧ Serves s l

instance (s : State T α) (l : Label T (Op α)) : Decidable (Served s l) :=
  inferInstanceAs (Decidable (_ ∧ _))

omit [DecidableEq T] [Fintype T] in
/-- The threads that wait are not in `SetCapacity`. -/
theorem waitsOk_fixedCapacity {t : T} {p : Pc (Op α) Cond (Ret α)}
    (h : WaitsOk (blockingQueue α) Untimed t p) : WaitsOk (blockingQueue α) FixedCapacity t p := by
  intro op k hp
  obtain ⟨-, d, hb⟩ := h op k hp
  refine ⟨?_, d, hb⟩
  rintro c rfl
  cases hb

omit [DecidableEq T] [Fintype T] in
theorem fixedCapacity_or_resizes (s : State T α) (l : Label T (Op α)) :
    Only FixedCapacity s l ∨ ∃ t c woken, l = .call t (.setCapacity c) woken := by
  cases l with
  | call t op woken =>
    by_cases hop : FixedCapacity t op
    · exact .inl hop
    · obtain ⟨c, rfl⟩ : ∃ c, op = .setCapacity c := by simpa [FixedCapacity] using hop
      exact .inr ⟨t, c, woken, rfl⟩
  | wake t => exact .inl trivial
  | resume t timedOut woken => exact .inl trivial
  | leave t => exact .inl trivial

omit [Fintype T] in
/-- `SetCapacity` notifies nobody. -/
theorem resized_of_step {t : T} {c : ℕ} {woken : Option T}
    (h : Step (blockingQueue α) s (.call t (.setCapacity c) woken) s') :
    s.pc t = .idle ∧ s'.data = ⟨s.data.queue, c⟩ ∧
      s'.pc = Function.update s.pc t (.returned .void) := by
  cases h with
  | sleep hs hb =>
    cases hs
    cases hb
  | done hs hb hn =>
    cases hs with
    | call hpc =>
      cases hb
      cases hn
      exact ⟨hpc, rfl, rfl⟩

/-- **Room is kept up with**, also when the capacity changes: one step. -/
theorem keepsUp_slots_step (h : Step (blockingQueue α) s l s') (hc : Served s l)
    (hw : ∀ t, WaitsOk (blockingQueue α) Untimed t (s.pc t)) (hk : KeepsUp .notFull slots s) :
    KeepsUp .notFull slots s' := by
  rcases fixedCapacity_or_resizes s l with hfixed | ⟨t, c, woken, rfl⟩
  · have hheeds : Heeds Cond.notFull s l := heeds_of_untimed _ (fun _ _ hop => hop) hw h
    exact accounts_notFull.keepsUp_step h hfixed hheeds.spares
      (fun t => waitsOk_fixedCapacity (hw t)) hk
  · obtain ⟨hidle, hdata, hpc⟩ := resized_of_step h
    intro u hu
    have hne : u ≠ t := by
      rintro rfl
      simp [hpc] at hu
    have hcount := count_update (Pc.NotifiedOn Cond.notFull) s.pc t (.returned .void)
    have hserved := hc.2 u (by simpa [hpc, hne] using hu)
    rw [hpc, hdata]
    simp only [hidle, Pc.notifiedOn_idle, Pc.notifiedOn_returned, if_false, add_zero] at hcount
    exact hserved.trans hcount.ge

/-- **No producer is left behind** where the producers that `SetCapacity` finds notified fill the
room it makes. -/
theorem producers_served (h : (queue T α capacity).Reachable Served s) :
    ¬Stranded .notFull slots s := by
  refine KeepsUp.not_stranded (System.Reachable.invariant (I := KeepsUp .notFull slots) ?_ ?_ h)
  · rintro s rfl t ht
    exact ht.elim
  · intro s l s' hr hk hc hn
    have hw := waitsOk_of_reachable (hr.mono fun _ _ hc => hc.1)
    exact keepsUp_slots_step (step_of_next hn) hc hw hk

/-- A producer sleeps on a full queue; the capacity is set again when a pop has notified it. -/
theorem producers_served_resized : ∃ s : State Bool ℕ,
    (queue Bool ℕ 1).Reachable Served s ∧ s.data.capacity = 3 ∧
      s.pc true = .awake (.push 6) .notFull true ∧ ¬Stranded .notFull slots s := by
  obtain ⟨s, hrun, hcapacity, hnot⟩ : ∃ s : State Bool ℕ,
      (queue Bool ℕ 1).exec Served ⟨⟨[], 1⟩, fun _ => .idle, []⟩
        [.call true (.push 5) none, .leave true, .call true (.push 6) none,
          .call false .tryPop (some true), .leave false, .call false (.setCapacity 3) none] =
            some s ∧ s.data.capacity = 3 ∧ s.pc true = .awake (.push 6) .notFull true :=
    ⟨_, rfl, rfl, rfl⟩
  have hreach := System.reachable_of_exec rfl hrun
  exact ⟨s, hreach, hcapacity, hnot, producers_served hreach⟩

/-- The capacity is raised while a producer sleeps: there is room, and it sleeps on. -/
theorem enlarged_strands : ¬∀ (capacity : ℕ) (s : State Bool ℕ),
    (queue Bool ℕ capacity).Reachable (Only Untimed) s → ¬Stranded .notFull slots s := by
  intro h
  obtain ⟨s, hrun, hdata, hasleep, hpc⟩ : ∃ s : State Bool ℕ,
      (queue Bool ℕ 1).exec (Only Untimed) ⟨⟨[], 1⟩, fun _ => .idle, []⟩
        [.call true (.push 5) none, .leave true, .call true (.push 6) none,
          .call false (.setCapacity 2) none] = some s ∧ s.data = ⟨[5], 2⟩ ∧
        s.pc true = .asleep (.push 6) .notFull ∧ s.pc false = .returned .void :=
    ⟨_, rfl, rfl, rfl, rfl⟩
  refine h 1 s (System.reachable_of_exec rfl hrun) ⟨?_, ⟨true, ?_⟩, ?_⟩
  · rw [hdata]
    exact Nat.one_pos
  · rw [hasleep]
    rfl
  · intro t
    cases t with
    | true => simp [hasleep]
    | false => simp [hpc]

end Resized

end Xfnet.BlockingQueue
