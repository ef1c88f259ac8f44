import Xfnet.Foundations.Pool
import Xfnet.Queue.WakeUp
import Xfnet.Timer.WorkThreads

/-!
# Shutdown of the timer manager

Seen from the handlers that pass through it, a manager is a pool of workers stopped by one sentinel
each: the null handlers of `Stop` (`refines_pool`). What is left is that the threads do not sleep
over an entry, which is the bookkeeping of `m_not_empty_cond`.
-/

namespace Xfnet.TimerManager

open Counting Monitor Transition BlockingQueue

variable {n : ℕ} {H : Type*}

/-! ## The sentinels of `Stop` -/

/-- One for a thread in the middle of an operation. -/
def pending (p : Pc (Op (Option H)) Cond (Ret (Option H))) : ℕ := if p.waiting.isSome then 1 else 0

/-- The null handlers in the queue's history and the one `Stop` waits to push are those it has
begun to push. -/
def Posting (s : Manager n H) : Prop :=
  Pool.State.sentinels (accepted s.queue.log) + pending (s.queue.pc .main) ≤ s.posted ∧
    s.posted ≤ n

section Steps

variable {s s' : Manager n H} {l : Label n H} {ql : Monitor.Label (Thread n) (Op (Option H))}
  {q q' : BlockingQueue.State (Thread n) (Option H)} {t : Thread n} {op : Op (Option H)}

theorem pending_update_of_ne {p : Pc (Op (Option H)) Cond (Ret (Option H))} (ht : t ≠ .main) :
    pending (Function.update q.pc t p .main) = pending (q.pc .main) := by
  rw [Function.update_of_ne ht.symm]

theorem Starts.pending_main (h : Starts q ql .main op) :
    pending (q.pc .main) + Manager.posts ql = 1 := by
  cases h with
  | call hpc => simp [hpc, pending, Pc.waiting, Manager.posts]
  | resume hpc => simp [hpc, pending, Pc.waiting, Manager.posts]

/-- An operation of the manager's threads that completes, and its entry in the log. -/
theorem program_done {c c' : Content (Option H)} {r : Ret (Option H)} {k : Option Cond}
    (hp : Program t op) (h : body op c = .done c' r k) :
    (∃ v, (t = .loop ∧ v ≠ none ∨ t = .main ∧ v = none) ∧ op = .push v ∧ r = .accepted ∧
        c'.queue = c.queue ++ [v]) ∨
      ∃ i v, t = .worker i ∧ op = .pop ∧ r = .handed v ∧ c.queue = v :: c'.queue := by
  cases t with
  | loop =>
    obtain ⟨h', rfl⟩ := hp
    obtain ⟨hqueue, rfl, -⟩ := push_done h
    exact .inl ⟨_, .inl ⟨rfl, by simp⟩, rfl, rfl, hqueue⟩
  | main =>
    obtain rfl : op = .push none := hp
    obtain ⟨hqueue, rfl, -⟩ := push_done h
    exact .inl ⟨_, .inr ⟨rfl, rfl⟩, rfl, rfl, hqueue⟩
  | worker i =>
    obtain rfl : op = .pop := hp
    obtain ⟨v, hqueue, rfl, -⟩ := pop_done h
    exact .inr ⟨i, v, rfl, rfl, rfl, hqueue⟩

theorem Notified.pending_eq {pc pc' : Thread n → Pc (Op (Option H)) Cond (Ret (Option H))}
    {k : Option Cond} (h : Notified pc k pc') (t : Thread n) :
    pending (pc' t) = pending (pc t) := h.apply_eq pending (fun _ _ => rfl) t

/-- A step of the queue adds at most the sentinel whose push it begins. -/
theorem posting_queue (h : Step (blockingQueue (Option H)) q ql q') (hc : Only Program q ql)
    (hw : ∀ t, WaitsOk (blockingQueue (Option H)) Program t (q.pc t)) :
    Pool.State.sentinels (accepted q'.log) + pending (q'.pc .main) ≤
      Pool.State.sentinels (accepted q.log) + pending (q.pc .main) + Manager.posts ql := by
  -- a step that completes nothing, of any thread
  have hquiet {t : Thread n} {p : Pc (Op (Option H)) Cond (Ret (Option H))}
      (hp : t = .main → pending p ≤ pending (q.pc .main) + Manager.posts ql) :
      pending (Function.update q.pc t p .main) ≤ pending (q.pc .main) + Manager.posts ql := by
    by_cases ht : t = .main
    · subst ht
      rw [Function.update_self]
      exact hp rfl
    · rw [pending_update_of_ne ht]
      exact Nat.le_add_right _ _
  rw [add_assoc]
  cases h with
  | @sleep _ t op k hs hb =>
    refine Nat.add_le_add_left (hquiet fun ht => ?_) _
    subst ht
    rw [Starts.pending_main hs]
    rfl
  | @wake t op k hpc =>
    refine Nat.add_le_add_left (hquiet fun ht => ?_) _
    subst ht
    rw [hpc]
    exact Nat.le_add_right _ _
  | @leave t r hpc => exact Nat.add_le_add_left (hquiet fun _ => Nat.zero_le _) _
  | @timeout t op k b r _ hpc ht =>
    rw [timeout_of_program (hw t op k (by rw [hpc]; rfl)).1] at ht
    cases ht
  | @done _ t op c r k pc hs hb hn =>
    rw [Notified.pending_eq hn, accepted_concat]
    rcases program_done (hs.allowed hc hw) hb with
      ⟨v, ⟨rfl, hv⟩ | ⟨rfl, rfl⟩, rfl, rfl, -⟩ | ⟨i, v, rfl, rfl, rfl, -⟩
    · show Pool.State.sentinels (_ ++ [v]) + _ ≤ _
      rw [Pool.sentinels_concat, if_neg hv]
      exact Nat.add_le_add_left (hquiet (t := .loop) nofun) _
    · show Pool.State.sentinels (_ ++ [none]) + _ ≤ _
      rw [Pool.sentinels_concat, if_pos rfl, Function.update_self, Starts.pending_main hs]
      rfl
    · show Pool.State.sentinels (_ ++ []) + _ ≤ _
      rw [List.append_nil]
      exact Nat.add_le_add_left (hquiet (t := .worker i) nofun) _

theorem posts_le (h : s.allows ql) (hle : s.posted ≤ n) : s.posted + Manager.posts ql ≤ n := by
  unfold Manager.posts
  split
  · next op woken =>
    cases op with
    | push v =>
      cases v with
      | none => exact Nat.succ_le_of_lt (by simpa [Manager.allows] using h)
      | some v => cases h
    | _ => cases h
  · exact hle

theorem look_main (s : Manager n H) (i : Fin n) :
    (s.look i).queue.pc .main = s.queue.pc .main := by
  have hne : Thread.main ≠ .worker i := nofun
  simp only [Manager.look, Function.update_of_ne hne]

theorem posting_of_reachable (h : (manager n H).Reachable Free s) : Posting s := by
  refine System.Reachable.invariant (I := Posting) ?_ ?_ h
  · rintro s rfl
    exact ⟨Nat.le_refl 0, Nat.zero_le n⟩
  · intro s l s' hr ⟨hcount, hle⟩ _ hn
    cases l with
    | queue ql =>
      obtain ⟨hallows, q, hq, rfl⟩ := queue_next hn
      have hstep := posting_queue (step_of_next hq) (only_of_allows hallows)
        (waitsOk_of_reachable (refines_queue.reachable hr))
      exact ⟨hstep.trans (Nat.add_le_add_right hcount _), posts_le hallows hle⟩
    | run i =>
      obtain ⟨j, -, rfl⟩ := run_next hn
      exact ⟨by rwa [look_main], hle⟩
    | exit i =>
      obtain ⟨-, rfl⟩ := exit_next hn
      exact ⟨by rwa [look_main], hle⟩

end Steps

/-! ## The manager as a pool -/

/-- The value that `Pop` has handed to a thread which has not looked at it yet. -/
def hand : Pc (Op (Option H)) Cond (Ret (Option H)) → Option (Option H)
  | .returned (.handed v) => some v
  | _ => none

/-- The entry a work thread popped. -/
def takenEntry : Thread n × Op (Option H) × Ret (Option H) → Option (Fin n × Option H)
  | (.worker i, _, .handed v) => some (i, v)
  | _ => none

/-- What a manager is as a pool. -/
def Manager.pool (s : Manager n H) : Pool.State (Fin n) H where
  entries := accepted s.queue.log
  taken := s.queue.log.filterMap takenEntry
  waiting := s.queue.data.queue
  held i := hand (s.queue.pc (.worker i))
  ran := s.ran
  gone := s.exited

/-- A work thread that has exited does nothing any more. -/
def Rests (s : Manager n H) : Prop := ∀ i ∈ s.exited, s.queue.pc (.worker i) = .idle

section Simulation

variable {s s' : Manager n H} {l : Label n H} {ql : Monitor.Label (Thread n) (Op (Option H))}
  {q q' : BlockingQueue.State (Thread n) (Option H)} {t : Thread n} {op : Op (Option H)}
  {pc pc' : Thread n → Pc (Op (Option H)) Cond (Ret (Option H))}
  {p : Pc (Op (Option H)) Cond (Ret (Option H))}

theorem Notified.hand_eq {k : Option Cond} (h : Notified pc k pc') (t : Thread n) :
    hand (pc' t) = hand (pc t) := h.apply_eq hand (fun _ _ => rfl) t

/-- A thread that goes on without a value from `Pop`. -/
theorem hand_update (h : hand p = hand (pc t)) :
    (fun i : Fin n => hand (Function.update pc t p (.worker i))) =
      fun i => hand (pc (.worker i)) := by
  funext i
  by_cases hi : .worker i = t
  · subst hi
    rw [Function.update_self, h]
  · rw [Function.update_of_ne hi]

theorem hand_update_worker (i : Fin n) :
    (fun j : Fin n => hand (Function.update pc (.worker i) p (.worker j))) =
      Function.update (fun j => hand (pc (.worker j))) i (hand p) := by
  funext j
  by_cases hj : j = i
  · subst hj
    rw [Function.update_self, Function.update_self]
  · have hne : Thread.worker j ≠ .worker i := fun he => hj (Thread.worker.inj he)
    rw [Function.update_of_ne hne, Function.update_of_ne hj]

theorem Starts.hand_eq (h : Starts q ql t op) : hand (q.pc t) = none := by
  cases h with
  | call hpc => rw [hpc]; rfl
  | resume hpc => rw [hpc]; rfl

/-- A step of the queue, seen from the pool: nothing, an entry put, or one taken by a work thread
that is free. -/
inductive Passes (gone : Finset (Fin n)) (q q' : BlockingQueue.State (Thread n) (Option H)) : Prop
  | nothing : q'.log = q.log → q'.data = q.data →
      (fun i : Fin n => hand (q'.pc (.worker i))) = (fun i => hand (q.pc (.worker i))) →
      Passes gone q q'
  | puts {v : Option H} {t : Thread n} : q'.log = q.log ++ [(t, .push v, .accepted)] →
      q'.data.queue = q.data.queue ++ [v] →
      (fun i : Fin n => hand (q'.pc (.worker i))) = (fun i => hand (q.pc (.worker i))) →
      Passes gone q q'
  | takes {i : Fin n} {v : Option H} : q'.log = q.log ++ [(.worker i, .pop, .handed v)] →
      q.data.queue = v :: q'.data.queue → i ∉ gone → hand (q.pc (.worker i)) = none →
      (fun j : Fin n => hand (q'.pc (.worker j))) =
        Function.update (fun j => hand (q.pc (.worker j))) i (some v) →
      Passes gone q q'

theorem passes_of_step {gone : Finset (Fin n)} (h : Step (blockingQueue (Option H)) q ql q')
    (hc : Only Program q ql) (hw : ∀ t, WaitsOk (blockingQueue (Option H)) Program t (q.pc t))
    (hleave : ∀ i, ql ≠ .leave (.worker i))
    (hfree : ∀ i op, Starts q ql (.worker i) op → i ∉ gone) : Passes gone q q' := by
  cases h with
  | sleep hs hb => exact .nothing rfl rfl (hand_update (Starts.hand_eq hs).symm)
  | wake hpc => exact .nothing rfl rfl (hand_update (by rw [hpc]; rfl))
  | @leave t r hpc =>
    refine .nothing rfl rfl (funext fun i => ?_)
    have hne : .worker i ≠ t := fun he => hleave i (he ▸ rfl)
    simp only [Function.update_of_ne hne]
  | @timeout t op k b r _ hpc ht =>
    rw [timeout_of_program (hw t op k (by rw [hpc]; rfl)).1] at ht
    cases ht
  | @done _ t op c r k pc hs hb hn =>
    have hhand : (fun i : Fin n => hand (pc (.worker i))) =
        fun i => hand (Function.update q.pc t (.returned r) (.worker i)) :=
      funext fun i => Notified.hand_eq hn _
    rcases program_done (hs.allowed hc hw) hb with
      ⟨v, -, rfl, rfl, hqueue⟩ | ⟨i, v, rfl, rfl, rfl, hqueue⟩
    · exact .puts rfl hqueue (hhand.trans (hand_update (Starts.hand_eq hs).symm))
    · exact .takes rfl hqueue (hfree i _ hs) (Starts.hand_eq hs)
        (hhand.trans (hand_update_worker i))

theorem starts_free (h : s.allows ql) (hr : Rests s) (i : Fin n) (op : Op (Option H))
    (hs : Starts s.queue ql (.worker i) op) : i ∉ s.exited := by
  intro hi
  cases hs with
  | call _ =>
    cases op with
    | pop => exact absurd hi (by simpa [Manager.allows] using h)
    | _ => cases h
  | resume hpc =>
    rw [hr i hi] at hpc
    cases hpc

theorem look_idle {i u : Fin n} (h : s.queue.pc (.worker u) = .idle ∨ u = i) :
    (s.look i).queue.pc (.worker u) = .idle := by
  by_cases hui : u = i
  · subst hui
    exact Function.update_self ..
  · have hne : Thread.worker u ≠ .worker i := fun he => hui (Thread.worker.inj he)
    exact (Function.update_of_ne hne ..).trans (h.resolve_right hui)

theorem rests_of_reachable (h : (manager n H).Reachable Free s) : Rests s := by
  refine System.Reachable.invariant (I := Rests) ?_ ?_ h
  · rintro s rfl i hi
    cases hi
  · intro s l s' _ hrests _ hn
    cases l with
    | queue ql =>
      obtain ⟨hallows, q, hq, rfl⟩ := queue_next hn
      intro i hi
      exact (step_of_next hq).idle (hrests i hi) fun op hs => starts_free hallows hrests i op hs hi
    | run i =>
      obtain ⟨j, hpc, rfl⟩ := run_next hn
      exact fun u hu => look_idle (.inl (hrests u hu))
    | exit i =>
      obtain ⟨hpc, rfl⟩ := exit_next hn
      exact fun u hu => look_idle ((Finset.mem_insert.mp hu).symm.imp_left (hrests u))

/-- **The manager is a pool** with the null handlers as sentinels. -/
theorem refines_pool : Refines (manager n H) Free (Pool.pool (Fin n) H) Free Manager.pool where
  init s hs := by
    obtain rfl := hs
    rfl
  step s l s' hr _ hn := by
    have hposting := (posting_of_reachable (hr.step trivial hn))
    cases l with
    | queue ql =>
      obtain ⟨hallows, q, hq, rfl⟩ := queue_next hn
      have hpasses := passes_of_step (step_of_next hq) (only_of_allows hallows)
        (waitsOk_of_reachable (refines_queue.reachable hr)) (fun i he => by cases he; cases hallows)
        (starts_free hallows (rests_of_reachable hr))
      cases hpasses with
      | nothing hlog hdata hheld =>
        refine .inl ?_
        simp only [Manager.pool, hlog, hdata, hheld]
      | @puts v t hlog hqueue hheld =>
        refine .inr ⟨.put v, trivial, ?_⟩
        have haccepted : accepted q.log = accepted s.queue.log ++ [v] := by
          rw [hlog, accepted_concat]
          rfl
        have htaken : q.log.filterMap takenEntry = s.queue.log.filterMap takenEntry := by
          have hnone : takenEntry (t, Op.push v, Ret.accepted) = none := by cases t <;> rfl
          rw [hlog, filterMap_concat, hnone, Option.toList_none, List.append_nil]
        have hle : Pool.State.sentinels (accepted s.queue.log ++ [v]) ≤ Fintype.card (Fin n) := by
          rw [← haccepted, Fintype.card_fin]
          exact (Nat.le_add_right _ _).trans (hposting.1.trans hposting.2)
        simp only [Pool.pool, Pool.State.next, Manager.pool, if_pos hle, haccepted, htaken, hqueue,
          hheld]
      | @takes i v hlog hqueue hfree hnone hheld =>
        refine .inr ⟨.take i, trivial, ?_⟩
        have haccepted : accepted q.log = accepted s.queue.log := by
          rw [hlog, accepted_concat]
          exact List.append_nil _
        have htaken : q.log.filterMap takenEntry =
            s.queue.log.filterMap takenEntry ++ [(i, v)] := by
          rw [hlog, filterMap_concat]
          rfl
        simp only [Pool.pool, Pool.State.next, Manager.pool, hqueue, haccepted, htaken, hheld]
        rw [if_pos ⟨hfree, hnone⟩]
    | run i =>
      obtain ⟨j, hpc, rfl⟩ := run_next hn
      refine .inr ⟨.run i, trivial, ?_⟩
      have hheld : hand (s.queue.pc (.worker i)) = some (some j) := by rw [hpc]; rfl
      simp only [Pool.pool, Pool.State.next, Manager.pool, Manager.look, hheld, hand_update_worker]
      rfl
    | exit i =>
      obtain ⟨hpc, rfl⟩ := exit_next hn
      refine .inr ⟨.leave i, trivial, ?_⟩
      have hheld : hand (s.queue.pc (.worker i)) = some none := by rw [hpc]; rfl
      simp only [Pool.pool, Pool.State.next, Manager.pool, Manager.look, hheld, hand_update_worker]
      rfl

end Simulation

/-! ## Who can move -/

/-- The steps a work thread takes by itself: all but a spurious wake-up. -/
def Label.Of (i : Fin n) : Label n H → Prop
  | .queue (.call t _ _) => t = .worker i
  | .queue (.resume t _ _) => t = .worker i
  | .run j => j = i
  | .exit j => j = i
  | _ => False

/-- No work thread can take a step. -/
def Manager.Stuck (s : Manager n H) : Prop := ∀ i l, Label.Of i l → s.next l = none

section Progress

variable {s : Manager n H} {i : Fin n}

/-- **A work thread that has not exited and does not sleep can take a step.** -/
theorem exists_step (hr : (manager n H).Reachable Free s) (hi : i ∉ s.exited)
    (hsleep : ∀ op k, s.queue.pc (.worker i) ≠ .asleep op k) :
    ∃ l s', Label.Of i l ∧ s.next l = some s' := by
  have henter (op : Op (Option H)) :=
    exists_enter (blockingQueue (Option H)) s.queue (.worker i) op
  cases hpc : s.queue.pc (.worker i) with
  | idle =>
    obtain ⟨woken, q, hq⟩ := henter .pop
    have hallows : s.allows (.call (.worker i) .pop woken) := by simpa [Manager.allows] using hi
    have hq' : s.queue.next (blockingQueue (Option H)) (.call (.worker i) .pop woken) = some q := by
      simp only [State.next, hpc]
      exact hq
    exact ⟨.queue (.call (.worker i) .pop woken), _, rfl, next_queue hallows hq'⟩
  | awake op k b =>
    obtain ⟨woken, q, hq⟩ := henter op
    have hallows : s.allows (.resume (.worker i) false woken) := rfl
    have hq' : s.queue.next (blockingQueue (Option H)) (.resume (.worker i) false woken) =
        some q := by
      simp only [State.next, hpc]
      exact hq
    exact ⟨.queue (.resume (.worker i) false woken), _, rfl, next_queue hallows hq'⟩
  | asleep op k => exact absurd hpc (hsleep op k)
  | returned r =>
    -- what `Pop` returned is a handler or the null pointer
    obtain ⟨op, c, c', hp, hcomp⟩ :=
      returnsOk_of_reachable (refines_queue.reachable hr) (.worker i) r hpc
    obtain rfl : op = .pop := hp
    cases hcomp with
    | timeout ht => cases ht
    | body hb =>
      obtain ⟨v, -, rfl, -⟩ := pop_done hb
      cases v with
      | none => exact ⟨.exit i, _, rfl, by simp only [Manager.next, hpc]; rfl⟩
      | some j => exact ⟨.run i, _, rfl, by simp only [Manager.next, hpc]; rfl⟩

/-- Only a work thread waits for the queue to become non-empty. -/
theorem worker_of_waits {t : Thread n} {op : Op (Option H)} (hp : Program t op)
    (hw : (blockingQueue (Option H)).Waits op .notEmpty) : ∃ i, t = .worker i := by
  obtain ⟨c, hb⟩ := hw
  cases blocked_of_body hb with
  | empty _ hpops _ =>
    cases t with
    | loop =>
      obtain ⟨h, rfl⟩ := hp
      exact hpops.elim
    | main =>
      obtain rfl : op = .push none := hp
      exact hpops.elim
    | worker i => exact ⟨i, rfl⟩

/-- **No handler is slept over**: when no work thread can take a step and one has not exited, the
queue is empty. -/
theorem empty_of_stuck (hr : (manager n H).Reachable Free s) (h : s.Stuck) (hi : i ∉ s.exited) :
    s.queue.data.queue = [] ∧ hand (s.queue.pc (.worker i)) = none := by
  have hqueue := refines_queue.reachable hr
  have hwaits := waitsOk_of_reachable hqueue
  -- whoever has not exited sleeps
  have hasleep : ∀ j, j ∉ s.exited → ∃ op k, s.queue.pc (.worker j) = .asleep op k := by
    intro j hj
    by_contra hsleep
    push Not at hsleep
    obtain ⟨l, s', hl, hn⟩ := exists_step hr hj hsleep
    rw [h j l hl] at hn
    cases hn
  obtain ⟨op, k, hpc⟩ := hasleep i hi
  refine ⟨?_, by rw [hpc]; rfl⟩
  have hkeeps := (accounts_notEmpty Program).keepsUp_of_untimed
    (fun _ _ => timeout_of_program) hqueue
  have hk : k = .notEmpty := by
    obtain ⟨hop, c, hb⟩ := hwaits (.worker i) op k (by rw [hpc]; rfl)
    obtain rfl : op = .pop := hop
    have hblocked : Blocked .pop c k := blocked_of_body hb
    cases hblocked with
    | full _ hv _ => cases hv
    | empty => rfl
  have hnone : (count fun t => (s.queue.pc t).NotifiedOn .notEmpty) = 0 := by
    refine count_of_forall_not fun t ht => ?_
    obtain ⟨op', hop'⟩ := Pc.waiting_of_notifiedOn ht
    obtain ⟨hprogram, hw⟩ := hwaits t op' _ hop'
    obtain ⟨j, rfl⟩ := worker_of_waits hprogram hw
    by_cases hj : j ∈ s.exited
    · simp [rests_of_reachable hr j hj] at ht
    · obtain ⟨op'', k', hpc'⟩ := hasleep j hj
      simp [hpc'] at ht
  have hlen := hkeeps (.worker i) (by rw [hpc]; exact hk)
  rw [hnone] at hlen
  exact List.eq_nil_of_length_eq_zero (Nat.le_zero.mp hlen)

end Progress

/-! ## Shutdown -/

section Shutdown

variable {s : Manager n H}

/-- The handlers that a work thread popped, in order. -/
def popped (s : Manager n H) (i : Fin n) : List (Option H) :=
  handed (s.queue.log.filter fun e => e.1 = .worker i)

theorem popped_eq (s : Manager n H) (i : Fin n) : popped s i = s.pool.takenBy i := by
  unfold popped Pool.State.takenBy
  show (s.queue.log.filter _).filterMap handedBy =
    ((s.queue.log.filterMap takenEntry).filter _).map Prod.snd
  rw [List.filterMap_filter, List.filter_filterMap, List.map_filterMap]
  congr 1
  funext ⟨t, op, r⟩
  cases t with
  | worker j =>
    cases r with
    | handed v => by_cases hj : j = i <;> simp [handedBy, takenEntry, hj, Option.filter]
    | _ => simp [handedBy, takenEntry]
  | _ => simp [takenEntry]

/-- **Shutdown of the timer manager**, for any number of work threads and every interleaving. A
work thread takes nothing after a null handler. Once all have exited, no null handler is left in
the queue and the callbacks run are those of the handlers enqueued before the last null one. And as
long as one has not exited, not all can be stuck with all null handlers pushed. -/
theorem shutdown (h : (manager n H).Reachable Free s) :
    (∀ i, ∃ hs : List H, popped s i = hs.map some ∨ popped s i = hs.map some ++ [none]) ∧
      (s.exited = Finset.univ → none ∉ s.queue.data.queue ∧
        ∀ before after, accepted s.queue.log = before ++ none :: after → none ∉ after →
          s.ran.Perm before.reduceOption) ∧
      ¬((accepted s.queue.log).countP Option.isNone = n ∧ s.Stuck ∧ ∃ i, i ∉ s.exited) := by
  have hpool : Pool.Ok s.pool := Pool.ok_of_reachable (refines_pool.reachable h)
  refine ⟨fun i => ?_, hpool.all_gone, ?_⟩
  · obtain ⟨hs, hs'⟩ := hpool.takenBy i
    rw [popped_eq, hs']
    split
    · exact ⟨hs, .inr rfl⟩
    · exact ⟨hs, .inl (List.append_nil _)⟩
  · rintro ⟨hput, hstuck, i, hi⟩
    obtain ⟨hempty, hhand⟩ := empty_of_stuck h hstuck hi
    have hput' : Pool.State.sentinels s.pool.entries = Fintype.card (Fin n) :=
      hput.trans (Fintype.card_fin n).symm
    rcases hpool.all_stopped hput' hempty i with hgone | hheld
    · exact hi hgone
    · rw [show s.pool.held i = none from hhand] at hheld
      cases hheld

/-- Two work threads and a handler that expires between the two null handlers. -/
theorem shutdown_late_handler : ∃ s : Manager 2 ℕ, (manager 2 ℕ).Reachable Free s ∧
    s.exited = Finset.univ ∧ s.ran.Perm [5, 6] ∧ none ∉ s.queue.data.queue := by
  obtain ⟨s, hrun, hexited, haccepted⟩ : ∃ s : Manager 2 ℕ,
      (manager 2 ℕ).exec Free ⟨⟨⟨[], defaultCapacity⟩, fun _ => .idle, []⟩, 0, [], ∅⟩
        [.queue (.call .loop (.push (some 5)) none), .queue (.leave .loop),
          .queue (.call (.worker 0) .pop none), .run 0, .queue (.call (.worker 1) .pop none),
          .queue (.call .main (.push none) (some (.worker 1))), .queue (.leave .main),
          .queue (.call .loop (.push (some 6)) none), .queue (.resume (.worker 1) false none),
          .queue (.call (.worker 0) .pop none), .run 0, .exit 1,
          .queue (.call .main (.push none) none), .queue (.call (.worker 0) .pop none), .exit 0] =
        some s ∧ s.exited = Finset.univ ∧ accepted s.queue.log = [some 5, none, some 6, none] :=
    ⟨_, rfl, by decide, rfl⟩
  have hreach : (manager 2 ℕ).Reachable Free s := System.reachable_of_exec rfl hrun
  obtain ⟨hnone, hran⟩ := (shutdown hreach).2.1 hexited
  exact ⟨s, hreach, hexited, hran [some 5, none, some 6] [] haccepted (by simp), hnone⟩

end Shutdown

end Xfnet.TimerManager
