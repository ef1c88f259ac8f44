import Xfnet.Queue.Lossless
import Xfnet.Timer.Removal

/-!
# From the expirations of a timer to its callbacks

The kernel counts the expirations of each timer until `HandleRead` reads the counter, and the loop
sees the descriptor in `epoll_wait` for as long as the counter is not zero. `HandleRead` reads the
whole counter and pushes the handler once, so expirations may be served together, but no callback
comes without one, and none is forgotten: a callback is called, or on its way, for every time the
counter was read (`callbacks_of_expirations`). `SetTimer` sets the counter back.
-/

namespace Xfnet.TimerManager

open Counting Monitor Transition BlockingQueue

/-! ## Handlers between the loop thread and the work threads -/

section Manager

variable {n : ℕ} {H : Type*} {s s' : Manager n H} {l : Label n H}

theorem patient_of_program {t : Thread n} {op : Op (Option H)} (h : Program t op) : op.Patient := by
  cases t with
  | loop =>
    obtain ⟨h, rfl⟩ := h
    trivial
  | main =>
    obtain rfl : op = .push none := h
    trivial
  | worker i =>
    obtain rfl : op = .pop := h
    trivial

/-- The threads that only push carry nothing back. -/
theorem carried_of_pusher (hr : (manager n H).Reachable Free s) {t : Thread n}
    (ht : ∀ i, t ≠ .worker i) {r : Ret (Option H)} (hpc : s.queue.pc t = .returned r) :
    carried (s.queue.pc t) = none := by
  obtain ⟨op, d, d', hprogram, hcompletes⟩ :=
    returnsOk_of_reachable (refines_queue.reachable hr) t r hpc
  have hpush : ∃ v, op = .push v := by
    cases t with
    | loop =>
      obtain ⟨h, rfl⟩ := hprogram
      exact ⟨_, rfl⟩
    | main => exact ⟨none, hprogram⟩
    | worker i => exact absurd rfl (ht i)
  obtain ⟨v, rfl⟩ := hpush
  rw [hpc]
  cases hcompletes with
  | body hb =>
    obtain ⟨-, rfl, -⟩ := push_done hb
    rfl
  | timeout ht => cases ht

variable [DecidableEq H]

/-- **A handler is pushed, on its way, or its callback has been run**, and only a push makes more
of them. -/
theorem inFlight_add_ran (hr : (manager n H).Reachable Free s) (h : s.next l = some s') (j : H) :
    inFlight (some j) s'.queue + s'.ran.count j =
      inFlight (some j) s.queue + s.ran.count j + if l.pushes = some (some j) then 1 else 0 := by
  have hqueue := refines_queue.reachable hr
  have hstep (ql : Monitor.Label (Thread n) (Op (Option H)))
      {q : BlockingQueue.State (Thread n) (Option H)} (hc : Only Program s.queue ql)
      (hq : s.queue.next (blockingQueue (Option H)) ql = some q) :=
    inFlight_eq (step_of_next hq) hc (waitsOk_of_reachable hqueue)
      (fun t op => patient_of_program) (some j)
  cases l with
  | queue ql =>
    obtain ⟨hallows, q, hq, rfl⟩ := queue_next h
    have heq := hstep ql (only_of_allows hallows) hq
    have hleaves : leaves s.queue ql ≠ some (some j) := by
      cases ql with
      | leave t =>
        have hnot : ∀ i, t ≠ .worker i := by
          rintro i rfl
          cases hallows
        have hreturned : ∃ r, s.queue.pc t = .returned r := by
          cases step_of_next hq with
          | sleep hs => cases hs
          | done hs => cases hs
          | leave hpc => exact ⟨_, hpc⟩
        obtain ⟨r, hpc⟩ := hreturned
        show carried (s.queue.pc t) ≠ _
        rw [carried_of_pusher hr hnot hpc]
        simp
      | _ => simp [leaves]
    rw [if_neg hleaves, add_zero] at heq
    show inFlight _ q + s.ran.count j = _
    rw [heq, add_right_comm]
    rfl
  | run i =>
    obtain ⟨k, hpc, rfl⟩ := run_next h
    have heq := hstep (.leave (.worker i)) trivial (look_queue hpc)
    have hleaves : leaves s.queue (.leave (.worker i)) = some (some k) := by
      show carried (s.queue.pc (.worker i)) = _
      rw [hpc]
      rfl
    have hpushes :
        callPushes (.leave (Thread.worker i) : Monitor.Label (Thread n) (Op (Option H))) ≠
          some (some j) := by simp [callPushes]
    rw [hleaves, if_neg hpushes] at heq
    have hiff : some (some k) = some (some j) ↔ k = j := Option.some_inj.trans Option.some_inj
    rw [if_congr hiff rfl rfl] at heq
    show inFlight _ (s.look i).queue + (s.ran ++ [k]).count j = _ + 0
    rw [List.count_append, List.count_singleton]
    simp only [beq_iff_eq]
    omega
  | exit i =>
    obtain ⟨hpc, rfl⟩ := exit_next h
    have heq := hstep (.leave (.worker i)) trivial (look_queue hpc)
    have hleaves : leaves s.queue (.leave (.worker i)) ≠ some (some j) := by
      show carried (s.queue.pc (.worker i)) ≠ _
      simp [hpc, carried]
    have hpushes :
        callPushes (.leave (Thread.worker i) : Monitor.Label (Thread n) (Op (Option H))) ≠
          some (some j) := by simp [callPushes]
    rw [if_neg hleaves, if_neg hpushes] at heq
    show inFlight _ (s.look i).queue + s.ran.count j = _ + 0
    omega

end Manager

namespace Timers

variable {n : ℕ} {U H : Type*} [DecidableEq H] {L : Layout}

/-! ## The kernel's timers -/

/-- The timer whose counter the step reads. -/
def State.expiring (s : State n U H) : Label n U H → Option H
  | .expire _ => s.batch.head?
  | _ => none

/-- The timers with the counters of the kernel: what the next `read` of a timer would return, and
of its past how often it expired, how many of these expirations `SetTimer` has discarded, and how
often a `read` was successful. -/
structure Ticking (n : ℕ) (U H : Type*) where
  timers : State n U H
  counter : H → ℕ
  expirations : H → ℕ
  discarded : H → ℕ
  reads : H → ℕ

/-- A timer expires, or one of the threads moves. -/
inductive Tick (n : ℕ) (U H : Type*)
  | expires (h : H)
  | moves (l : Label n U H)

namespace Ticking

/-- What the kernel answers: `epoll_wait` reports the timers that have expired since they were last
read, and `read` fails for the others. -/
def permits (s : Ticking n U H) : Label n U H → Bool
  | .select batch => batch.all fun h => 0 < s.counter h
  | .expire woken => (s.timers.expiring (.expire woken)).any fun h => 0 < s.counter h
  | .skip => s.timers.batch.head?.any fun h => s.counter h = 0
  | _ => true

/-- The `read` of a timer's counter sets it to zero. -/
def read (s : Ticking n U H) (h : H) : Ticking n U H :=
  { s with
    counter := Function.update s.counter h 0
    reads := Function.update s.reads h (s.reads h + 1) }

/-- So does `timerfd_settime`. -/
def settime (s : Ticking n U H) (h : H) : Ticking n U H :=
  { s with
    counter := Function.update s.counter h 0
    discarded := Function.update s.discarded h (s.discarded h + s.counter h) }

/-- The counters after a step. -/
def count (s : Ticking n U H) : Label n U H → Ticking n U H
  | .expire woken => (s.timers.expiring (.expire woken)).elim s s.read
  | .set _ _ h _ true => s.settime h
  | _ => s

variable [DecidableEq U] [Fintype U]

/-- A timer expires while it is set and its descriptor is open. -/
def next (L : Layout) (s : Ticking n U H) : Tick n U H → Option (Ticking n U H)
  | .expires h =>
    if h ∈ s.timers.created ∧ s.timers.Owned h ∧ s.timers.interval h ≠ 0 then
      some { s with
        counter := Function.update s.counter h (s.counter h + 1)
        expirations := Function.update s.expirations h (s.expirations h + 1) }
    else none
  | .moves l =>
    if s.permits l then
      (s.timers.next L l).map fun timers => { s.count l with timers := timers }
    else none

end Ticking

/-- A manager right after `Start`. -/
def ticking (L : Layout) (n : ℕ) (U H : Type*) [DecidableEq U] [Fintype U] [DecidableEq H] :
    System (Ticking n U H) (Tick n U H) where
  init s := s = ⟨.fresh n U H, fun _ => 0, fun _ => 0, fun _ => 0, fun _ => 0⟩
  next := Ticking.next L

/-- The step is no `SetTimer` for `h`. -/
def Unset (h : H) (_ : Ticking n U H) : Tick n U H → Prop
  | .moves (.set _ _ h' _ _) => h' ≠ h
  | _ => True

instance (h : H) (s : Ticking n U H) : DecidablePred (Unset h s)
  | .moves (.set _ _ h' _ _) => inferInstanceAs (Decidable (h' ≠ h))
  | .expires _ => isTrue trivial
  | .moves (.add ..) => isTrue trivial
  | .moves (.register ..) => isTrue trivial
  | .moves (.remove ..) => isTrue trivial
  | .moves (.unregister ..) => isTrue trivial
  | .moves (.select ..) => isTrue trivial
  | .moves (.expire ..) => isTrue trivial
  | .moves .skip => isTrue trivial
  | .moves .handled => isTrue trivial
  | .moves (.work ..) => isTrue trivial
  | .moves (.run ..) => isTrue trivial
  | .moves (.finish ..) => isTrue trivial

/-! ## What a step does -/

section Steps

variable [DecidableEq U] [Fintype U] {s s' : Ticking n U H} {l : Tick n U H} {h : H}

/-- The callbacks of a timer, called or on their way. -/
def State.served (s : State n U H) (h : H) : ℕ :=
  s.started h + inFlight (some h) s.manager.queue

theorem calls_eq_ran {s : State n U H} (hr : (timers L n U H).Reachable Free s) :
    s.calls.map Invocation.handler = s.manager.ran := by
  refine System.Reachable.invariant
    (I := fun s : State n U H => s.calls.map Invocation.handler = s.manager.ran) ?_ ?_ hr
  · rintro s rfl
    rfl
  intro s l s' _ hsame _ hn
  cases step_of_next hn with
  | expire _ _ _ _ hm =>
    obtain ⟨-, q, -, rfl⟩ := queue_next hm
    exact hsame
  | handled hm =>
    obtain ⟨-, q, -, rfl⟩ := queue_next hm
    exact hsame
  | @work l m hp hm =>
    cases l with
    | queue ql =>
      obtain ⟨-, q, -, rfl⟩ := queue_next hm
      exact hsame
    | run i => cases hp
    | exit i =>
      obtain ⟨-, rfl⟩ := exit_next hm
      exact hsame
  | @run i h m hpc hm =>
    obtain ⟨k, hpc', rfl⟩ := run_next hm
    obtain rfl : h = k := by
      have hreturned := Pc.returned.inj (hpc.symm.trans hpc')
      cases hreturned
      rfl
    show (s.calls ++ [_]).map Invocation.handler = s.manager.ran ++ [h]
    rw [List.map_append, hsame]
    rfl
  | _ => exact hsame

omit [DecidableEq H] [DecidableEq U] [Fintype U] in
/-- What the threads do beside `HandleRead` pushes no handler. -/
theorem pushes_of_permits {s : State n U H} {l : TimerManager.Label n H} {m : Manager n H}
    (hp : s.permits l) (hm : s.manager.next l = some m) (h : H) : l.pushes ≠ some (some h) := by
  cases l with
  | queue ql =>
    obtain ⟨hallows, -⟩ := queue_next hm
    cases ql with
    | call t op woken =>
      cases t with
      | loop => cases hp
      | main =>
        obtain rfl : op = .push none := only_of_allows hallows
        exact nofun
      | worker i =>
        obtain rfl : op = .pop := only_of_allows hallows
        exact nofun
    | _ => exact nofun
  | _ => exact nofun

theorem served_eq {s : State n U H} (hr : (timers L n U H).Reachable Free s) (h : H) :
    s.served h = inFlight (some h) s.manager.queue + s.manager.ran.count h := by
  rw [State.served, State.started, calls_eq_ran hr, Nat.add_comm]

/-- **Only a successful `read` brings a callback on its way**, and none is lost. -/
theorem served_step {s s' : State n U H} {l : Label n U H}
    (hr : (timers L n U H).Reachable Free s) (hn : s.next L l = some s') (h : H) :
    s'.served h = s.served h + if s.expiring l = some h then 1 else 0 := by
  have hr' : (timers L n U H).Reachable Free s' := hr.step trivial hn
  have hmanager := refines_manager.reachable hr
  rw [served_eq hr, served_eq hr']
  cases step_of_next hn with
  | @expire woken h₀ batch m hbatch hreading howned harmed hm =>
    have hiff : (TimerManager.Label.queue (.call .loop (.push (some h₀)) woken)).pushes =
        some (some h) ↔ s.expiring (.expire woken) = some h := by
      show some (some h₀) = _ ↔ s.batch.head? = _
      rw [hbatch]
      exact Option.some_inj
    rw [← if_congr hiff rfl rfl]
    exact inFlight_add_ran hmanager hm h
  | handled hm => exact inFlight_add_ran hmanager hm h
  | work hp hm =>
    have heq := inFlight_add_ran hmanager hm h
    rw [if_neg (pushes_of_permits hp hm h)] at heq
    exact heq
  | run hpc hm => exact inFlight_add_ran hmanager hm h
  | _ => rfl

/-! ## Whole runs -/

/-- The timers alone make the same steps. -/
theorem refines_timers :
    Refines (ticking L n U H) Free (timers L n U H) Free Ticking.timers where
  init s hs := by
    obtain rfl := hs
    rfl
  step s l s' _ _ hn := by
    cases l with
    | expires h =>
      obtain ⟨-, he⟩ := Option.ite_none_right_eq_some.mp hn
      obtain rfl := Option.some.inj he
      exact .inl rfl
    | moves l =>
      obtain ⟨-, hmap⟩ := Option.ite_none_right_eq_some.mp hn
      obtain ⟨t, ht, rfl⟩ := Option.map_eq_some_iff.mp hmap
      exact .inr ⟨l, trivial, ht⟩

/-- Every `read` has its callback and its expirations. -/
structure Counted (s : Ticking n U H) (h : H) : Prop where
  served : s.timers.served h = s.reads h
  expirations : s.reads h + s.discarded h + s.counter h ≤ s.expirations h

omit [DecidableEq U] [Fintype U] in
/-- What the kernel does with the counters of a timer: a `read` takes some expirations. -/
theorem count_reads {l : Label n U H} (hp : s.permits l) (h : H) :
    (s.count l).reads h = s.reads h + (if s.timers.expiring l = some h then 1 else 0) ∧
      (s.count l).expirations = s.expirations ∧
      (s.count l).reads h + (s.count l).discarded h + (s.count l).counter h ≤
        s.reads h + s.discarded h + s.counter h := by
  cases l with
  | expire woken =>
    obtain ⟨h₀, hhead, hpos⟩ := (Option.any_eq_true _ _).mp hp
    replace hpos : 0 < s.counter h₀ := of_decide_eq_true hpos
    have hcount : s.count (.expire woken) = s.read h₀ := by
      rw [Ticking.count, hhead]
      rfl
    rw [hcount, hhead]
    by_cases hh : h₀ = h
    · subst hh
      simp only [Ticking.read, Function.update_self, if_true, true_and]
      omega
    · have hne : some h₀ ≠ some h := fun he => hh (Option.some.inj he)
      simp only [Ticking.read, Function.update_of_ne (Ne.symm hh), if_neg hne, add_zero, true_and,
        le_refl]
  | set u timer h₀ interval ok =>
    cases ok with
    | false => exact ⟨rfl, rfl, le_rfl⟩
    | true =>
      by_cases hh : h = h₀
      · subst hh
        simp only [Ticking.count, Ticking.settime, State.expiring, Function.update_self]
        refine ⟨rfl, trivial, ?_⟩
        omega
      · simp only [Ticking.count, Ticking.settime, State.expiring, Function.update_of_ne hh]
        exact ⟨rfl, trivial, le_rfl⟩
  | _ => exact ⟨rfl, rfl, le_rfl⟩

omit [DecidableEq U] [Fintype U] in
/-- Only a `read` and `SetTimer` set a counter back. -/
theorem count_counter {l : Label n U H} (hset : Unset h s (.moves l))
    (hread : s.timers.expiring l ≠ some h) : (s.count l).counter h = s.counter h := by
  cases l with
  | expire woken =>
    rw [Ticking.count]
    cases hhead : s.timers.expiring (.expire woken) with
    | none => rfl
    | some h₀ =>
      have hh : h ≠ h₀ := fun he => hread (hhead.trans (congrArg some he.symm))
      exact Function.update_of_ne hh ..
  | set u timer h₀ interval ok =>
    cases ok with
    | false => rfl
    | true => exact Function.update_of_ne (Ne.symm hset) ..
  | _ => rfl

theorem counted_step (hr : (ticking L n U H).Reachable Free s) (hc : ∀ h, Counted s h)
    (hn : s.next L l = some s') (h : H) : Counted s' h := by
  cases l with
  | expires h₀ =>
    obtain ⟨-, he⟩ := Option.ite_none_right_eq_some.mp hn
    obtain rfl := Option.some.inj he
    refine ⟨(hc h).served, ?_⟩
    have hle := (hc h).expirations
    show s.reads h + s.discarded h + Function.update s.counter h₀ (s.counter h₀ + 1) h ≤
      Function.update s.expirations h₀ (s.expirations h₀ + 1) h
    by_cases hh : h = h₀
    · subst hh
      rw [Function.update_self, Function.update_self]
      omega
    · rw [Function.update_of_ne hh, Function.update_of_ne hh]
      exact hle
  | moves l =>
    obtain ⟨hp, hmap⟩ := Option.ite_none_right_eq_some.mp hn
    obtain ⟨t, ht, rfl⟩ := Option.map_eq_some_iff.mp hmap
    obtain ⟨hreads, hexpirations, hle⟩ := count_reads hp h
    refine ⟨?_, ?_⟩
    · show t.served h = (s.count l).reads h
      rw [served_step (refines_timers.reachable hr) ht h, hreads, (hc h).served]
    · show (s.count l).reads h + (s.count l).discarded h + (s.count l).counter h ≤
        (s.count l).expirations h
      rw [hexpirations]
      exact hle.trans (hc h).expirations

theorem counted_of_reachable (hr : (ticking L n U H).Reachable Free s) (h : H) : Counted s h := by
  refine System.Reachable.invariant (I := fun s => ∀ h, Counted s h) ?_
    (fun s l s' hr hc _ hn => counted_step hr hc hn) hr h
  rintro s rfl h
  refine ⟨?_, le_rfl⟩
  show 0 + inFlight (some h) (State.fresh n U H).manager.queue = 0
  rw [inFlight_of_idle rfl fun _ => rfl]

/-- An expiration stays in the counter until it is read. -/
theorem counter_step (hset : Unset h s l) (hn : s.next L l = some s') :
    s.reads h ≤ s'.reads h ∧
      (0 < s.counter h → 0 < s'.counter h ∨ s.reads h < s'.reads h) := by
  cases l with
  | expires h₀ =>
    obtain ⟨-, he⟩ := Option.ite_none_right_eq_some.mp hn
    obtain rfl := Option.some.inj he
    refine ⟨le_rfl, fun hpos => .inl ?_⟩
    show 0 < Function.update s.counter h₀ (s.counter h₀ + 1) h
    by_cases hh : h = h₀
    · subst hh
      rw [Function.update_self]
      exact Nat.succ_pos _
    · rwa [Function.update_of_ne hh]
  | moves l =>
    obtain ⟨hp, hmap⟩ := Option.ite_none_right_eq_some.mp hn
    obtain ⟨t, ht, rfl⟩ := Option.map_eq_some_iff.mp hmap
    have hreads := (count_reads hp h).1
    show s.reads h ≤ (s.count l).reads h ∧
      (0 < s.counter h → 0 < (s.count l).counter h ∨ s.reads h < (s.count l).reads h)
    by_cases hread : s.timers.expiring l = some h
    · rw [hreads, if_pos hread]
      exact ⟨Nat.le_succ _, fun _ => .inr (Nat.lt_succ_self _)⟩
    · rw [hreads, if_neg hread, count_counter hset hread]
      exact ⟨le_rfl, .inl⟩

/-- The same over a run. -/
theorem counter_exec {ls : List (Tick n U H)}
    (hrun : (ticking L n U H).exec (Unset h) s ls = some s') :
    s.reads h ≤ s'.reads h ∧
      (0 < s.counter h → 0 < s'.counter h ∨ s.reads h < s'.reads h) := by
  refine System.exec_rel (R := fun s s' : Ticking n U H => s.reads h ≤ s'.reads h ∧
    (0 < s.counter h → 0 < s'.counter h ∨ s.reads h < s'.reads h)) (fun s => ⟨le_rfl, .inl⟩) ?_ hrun
  intro s l s₁ s' hset hn hrest
  obtain ⟨hle, hkept⟩ := counter_step hset hn
  refine ⟨hle.trans hrest.1, fun hpos => ?_⟩
  rcases hkept hpos with hpos' | hlt
  · exact (hrest.2 hpos').imp_right fun hlt => hle.trans_lt hlt
  · exact .inr (hlt.trans_le hrest.1)

/-- **The callbacks of a timer**, in every run: those called and those on their way are as many as
the successful reads of its counter, and not more than its expirations; and after an expiration,
once the counter is zero without a `SetTimer`, there is one more of them. -/
theorem callbacks_of_expirations (hr : (ticking L n U H).Reachable Free s) (h : H) :
    s.timers.served h = s.reads h ∧
      s.reads h + s.discarded h + s.counter h ≤ s.expirations h ∧
      ∀ s₁ s₂ ls, s.next L (.expires h) = some s₁ →
        (ticking L n U H).exec (Unset h) s₁ ls = some s₂ → s₂.counter h = 0 →
        s.timers.served h < s₂.timers.served h := by
  have hcounted := counted_of_reachable hr h
  refine ⟨hcounted.served, hcounted.expirations, fun s₁ s₂ ls hn hrun hzero => ?_⟩
  have hr₁ : (ticking L n U H).Reachable Free s₁ :=
    hr.step (show Free s (Tick.expires h) from trivial) hn
  have hr₂ : (ticking L n U H).Reachable Free s₂ := by
    refine System.exec_rel (R := fun s s' : Ticking n U H =>
      (ticking L n U H).Reachable Free s → (ticking L n U H).Reachable Free s') (fun s => id)
      (fun s l s₁ s' _ hn hrest hr => hrest (hr.step trivial hn)) hrun hr₁
  obtain ⟨-, he⟩ := Option.ite_none_right_eq_some.mp hn
  obtain rfl := Option.some.inj he
  have hpos : 0 < Function.update s.counter h (s.counter h + 1) h := by
    rw [Function.update_self]
    exact Nat.succ_pos _
  rcases (counter_exec hrun).2 hpos with hpos' | hlt
  · omega
  · rw [hcounted.served, (counted_of_reachable hr₂ h).served]
    exact hlt

/-- A timer expires twice before it is read, and its callback is called once. -/
theorem callbacks_of_expirations_twice : ∃ s s₂ : Ticking 1 Unit ℕ,
    (ticking lp64 1 Unit ℕ).Reachable Free s ∧ s.expirations 0 = 1 ∧
      s.timers.served 0 < s₂.timers.served 0 ∧ s₂.timers.started 0 = 1 := by
  obtain ⟨s, hrun, hexpirations, s₁, hn, s₂, hrun', hcounter, hstarted⟩ :
      ∃ s : Ticking 1 Unit ℕ, (ticking lp64 1 Unit ℕ).exec Free
          ⟨.fresh 1 Unit ℕ, fun _ => 0, fun _ => 0, fun _ => 0, fun _ => 0⟩
          [.moves (.add () 0 4096 500 7), .moves (.register () true), .expires 0] = some s ∧
        s.expirations 0 = 1 ∧ ∃ s₁, s.next lp64 (.expires 0) = some s₁ ∧
          ∃ s₂, (ticking lp64 1 Unit ℕ).exec (Unset 0) s₁
            [.moves (.select [0]), .moves (.expire none), .moves .handled,
              .moves (.work (.queue (.call (.worker 0) .pop none))), .moves (.run 0)] = some s₂ ∧
            s₂.counter 0 = 0 ∧ s₂.timers.started 0 = 1 :=
    ⟨_, rfl, rfl, _, rfl, _, rfl, rfl, rfl⟩
  have hr : (ticking lp64 1 Unit ℕ).Reachable Free s := System.reachable_of_exec rfl hrun
  exact ⟨s, s₂, hr, hexpirations,
    (callbacks_of_expirations hr 0).2.2 s₁ s₂ _ hn hrun' hcounter, hstarted⟩

end Steps

end Timers

end Xfnet.TimerManager
