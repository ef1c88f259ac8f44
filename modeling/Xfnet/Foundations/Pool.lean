import Mathlib.Data.List.ReduceOption
import Xfnet.Foundations.Counting
import Xfnet.Foundations.Transition

/-!
# A pool of workers stopped by sentinels

Workers take entries from the front of a queue. An entry is a job or a sentinel: a worker runs the
jobs it takes, and leaves when it takes a sentinel. At most one sentinel is put for each worker,
and jobs may be put at any moment, also between the sentinels and behind them.

Nobody takes anything after a sentinel (`Ok.takenBy`), and when all workers have left, the entries
up to the last sentinel are exactly those taken, each job of them run once (`Ok.all_gone`).
-/

namespace Pool

open Counting Transition

universe u v

/-- Everything put so far, what was taken from it and by whom, what still waits, what each worker
holds, the jobs run, and the workers that have left. A sentinel is `none`. -/
structure State (W : Type u) (J : Type v) where
  entries : List (Option J)
  taken : List (W × Option J)
  waiting : List (Option J)
  held : W → Option (Option J)
  ran : List J
  gone : Finset W

inductive Label (W : Type u) (J : Type v)
  | put (v : Option J)
  | take (w : W)
  | run (w : W)
  | leave (w : W)

variable {W : Type u} {J : Type v} [DecidableEq W] [Fintype W]

namespace State

def sentinels (l : List (Option J)) : ℕ := l.countP Option.isNone

def next (s : State W J) : Label W J → Option (State W J)
  | .put v =>
    if sentinels (s.entries ++ [v]) ≤ Fintype.card W then
      some { s with entries := s.entries ++ [v], waiting := s.waiting ++ [v] }
    else none
  | .take w =>
    match s.waiting with
    | [] => none
    | v :: rest =>
      if w ∉ s.gone ∧ s.held w = none then
        some { s with
          taken := s.taken ++ [(w, v)]
          waiting := rest
          held := Function.update s.held w (some v) }
      else none
  | .run w =>
    match s.held w with
    | some (some j) =>
      some { s with held := Function.update s.held w none, ran := s.ran ++ [j] }
    | _ => none
  | .leave w =>
    match s.held w with
    | some none =>
      some { s with held := Function.update s.held w none, gone := insert w s.gone }
    | _ => none

/-- The worker has taken a sentinel. -/
def Stopped (s : State W J) (w : W) : Prop := w ∈ s.gone ∨ s.held w = some none

instance (s : State W J) : DecidablePred s.Stopped := fun w =>
  match h : s.held w with
  | some none => isTrue (.inr h)
  | none => decidable_of_iff (w ∈ s.gone) (by simp [Stopped, h])
  | some (some _) => decidable_of_iff (w ∈ s.gone) (by simp [Stopped, h])

/-- What `w` took, in order. -/
def takenBy (s : State W J) (w : W) : List (Option J) :=
  (s.taken.filter fun e => e.1 = w).map Prod.snd

/-- The job a worker holds. -/
def job (s : State W J) (w : W) : Multiset J :=
  match s.held w with
  | some (some j) => {j}
  | _ => 0

end State

/-- The pool starts with nothing put and every worker free. -/
def pool (W : Type u) (J : Type v) [DecidableEq W] [Fintype W] :
    System (State W J) (Label W J) where
  init s := s = ⟨[], [], [], fun _ => none, [], ∅⟩
  next := State.next

/-! ## The invariant -/

structure Ok (s : State W J) : Prop where
  order : s.taken.map Prod.snd ++ s.waiting = s.entries
  sentinels : State.sentinels s.entries ≤ Fintype.card W
  stopped : State.sentinels (s.taken.map Prod.snd) = count s.Stopped
  takenBy : ∀ w, ∃ js : List J, s.takenBy w = js.map some ++ if s.Stopped w then [none] else []
  ran : ((s.taken.map Prod.snd).reduceOption : Multiset J) = s.ran + ∑ w, s.job w
  last : (∀ w, s.Stopped w) → ∀ v ∈ (s.taken.map Prod.snd).getLast?, v = none
  gone : ∀ w ∈ s.gone, s.held w = none

section Steps

variable {s s' : State W J} {w : W}

theorem sentinels_concat (l : List (Option J)) (v : Option J) :
    State.sentinels (l ++ [v]) = State.sentinels l + if v = none then 1 else 0 := by
  unfold State.sentinels
  rw [List.countP_append]
  cases v <;> simp

theorem Ok.put {v : Option J} (h : Ok s)
    (hle : State.sentinels (s.entries ++ [v]) ≤ Fintype.card W) :
    Ok { s with entries := s.entries ++ [v], waiting := s.waiting ++ [v] } :=
  ⟨by rw [← List.append_assoc, h.order], hle, h.stopped, h.takenBy, h.ran, h.last, h.gone⟩

theorem Ok.take {v : Option J} {rest : List (Option J)} (h : Ok s) (hw : s.waiting = v :: rest)
    (hgone : w ∉ s.gone) (hheld : s.held w = none) :
    Ok { s with
      taken := s.taken ++ [(w, v)]
      waiting := rest
      held := Function.update s.held w (some v) } := by
  set s' : State W J := { s with
    taken := s.taken ++ [(w, v)]
    waiting := rest
    held := Function.update s.held w (some v) } with hs'
  have hmap : s'.taken.map Prod.snd = s.taken.map Prod.snd ++ [v] := by simp [hs']
  have hnot : ¬s.Stopped w := by simp [State.Stopped, hgone, hheld]
  have hself : s'.Stopped w ↔ v = none := by simp [State.Stopped, hs', hgone]
  have hother : ∀ u, u ≠ w → (s'.Stopped u ↔ s.Stopped u) := fun u hu =>
    by simp [State.Stopped, hs', hu]
  refine ⟨?_, h.sentinels, ?_, fun u => ?_, ?_, fun hall => ?_, ?_⟩
  · rw [hmap, List.append_assoc, ← h.order, hw]
    rfl
  · have hcount := count_agree w hother
    rw [if_neg hnot, if_congr hself rfl rfl, add_zero] at hcount
    rw [hmap, sentinels_concat, h.stopped, hcount]
  · obtain ⟨js, hjs⟩ := h.takenBy u
    by_cases hu : u = w
    · subst hu
      have hby : s'.takenBy u = s.takenBy u ++ [v] := by simp [State.takenBy, hs']
      rw [hby, hjs, if_neg hnot, List.append_nil]
      cases v with
      | none => exact ⟨js, by rw [if_pos (hself.mpr rfl)]⟩
      | some j => exact ⟨js ++ [j], by rw [if_neg (by simp [hself])]; simp⟩
    · have hby : s'.takenBy u = s.takenBy u := by simp [State.takenBy, hs', Ne.symm hu]
      exact ⟨js, by rw [hby, hjs, if_congr (hother u hu) rfl rfl]⟩
  · have hsum := sum_agree (f := s.job) (g := s'.job) w fun u hu => by
      simp [State.job, hs', hu]
    have hold : s.job w = 0 := by simp [State.job, hheld]
    rw [hold, add_zero] at hsum
    rw [hmap, hsum, List.reduceOption_append, ← Multiset.coe_add, h.ran, add_assoc]
    congr 2
    cases v <;> simp [State.job, hs']
  · intro u hu
    rw [hmap, List.getLast?_concat] at hu
    exact (Option.some.inj hu) ▸ hself.mp (hall w)
  · intro u hu
    have hne : u ≠ w := fun he => hgone (he ▸ hu)
    exact (Function.update_of_ne hne ..).trans (h.gone u hu)

/-- What a worker does with the entry it holds leaves what was taken as it is. -/
theorem Ok.finish {v : Option J} (h : Ok s) (hheld : s.held w = some v) (ran : List J)
    (gone : Finset W) (hran : ran = s.ran ++ v.toList)
    (hgone : ∀ u, u ∈ gone ↔ u ∈ s.gone ∨ u = w ∧ v = none) :
    Ok { s with held := Function.update s.held w none, ran := ran, gone := gone } := by
  set s' : State W J :=
    { s with held := Function.update s.held w none, ran := ran, gone := gone } with hs'
  have hsame : ∀ u, s'.Stopped u ↔ s.Stopped u := by
    intro u
    by_cases hu : u = w
    · subst hu
      simp [State.Stopped, hs', hgone, hheld]
    · simp [State.Stopped, hs', hgone, hu]
  refine ⟨h.order, h.sentinels, ?_, fun u => ?_, ?_, fun hall => h.last fun u => ?_, ?_⟩
  · rw [count_congr hsame]
    exact h.stopped
  · obtain ⟨js, hjs⟩ := h.takenBy u
    exact ⟨js, hjs.trans (by rw [if_congr (hsame u) rfl rfl])⟩
  · have hsum := sum_agree (f := s.job) (g := s'.job) w fun u hu => by
      simp [State.job, hs', hu]
    have hnew : s'.job w = 0 := by simp [State.job, hs']
    have hold : s.job w = (v.toList : Multiset J) := by
      cases v <;> simp [State.job, hheld]
    rw [hnew, add_zero, hold] at hsum
    show ((s.taken.map Prod.snd).reduceOption : Multiset J) = (ran : Multiset J) + ∑ u, s'.job u
    rw [h.ran, hran, ← hsum, ← Multiset.coe_add, add_assoc, add_comm (∑ u, s'.job u)]
  · exact (hsame u).mp (hall u)
  · intro u hu
    by_cases huw : u = w
    · subst huw
      exact Function.update_self ..
    · refine (Function.update_of_ne huw ..).trans (h.gone u ?_)
      simpa [huw] using (hgone u).mp hu

/-- **One step of the pool keeps the invariant.** -/
theorem ok_next {l : Label W J} (h : Ok s) (hn : s.next l = some s') : Ok s' := by
  cases l with
  | put v =>
    obtain ⟨hle, he⟩ := Option.ite_none_right_eq_some.mp hn
    obtain rfl := Option.some.inj he
    exact h.put hle
  | take w =>
    simp only [State.next] at hn
    split at hn
    · cases hn
    · next v rest hw =>
      obtain ⟨⟨hgone, hheld⟩, he⟩ := Option.ite_none_right_eq_some.mp hn
      obtain rfl := Option.some.inj he
      exact h.take hw hgone hheld
  | run w =>
    simp only [State.next] at hn
    split at hn
    · next j hj =>
      obtain rfl := Option.some.inj hn
      exact h.finish hj _ _ rfl (by simp)
    · cases hn
  | leave w =>
    simp only [State.next] at hn
    split at hn
    · next hj =>
      obtain rfl := Option.some.inj hn
      exact h.finish hj _ _ (by simp) (by simp [or_comm])
    · cases hn

theorem ok_of_reachable (h : (pool W J).Reachable Free s) : Ok s := by
  refine System.Reachable.invariant (I := Ok) ?_ (fun s l s' _ hok _ hn => ok_next hok hn) h
  rintro s rfl
  refine ⟨rfl, Nat.zero_le _, ?_, fun w => ⟨[], ?_⟩, ?_, fun _ v hv => ?_, fun w hw => ?_⟩
  · exact (count_of_forall_not fun w => by simp [State.Stopped]).symm
  · simp [State.takenBy, State.Stopped]
  · simp [State.job]
  · cases hv
  · rfl

end Steps

/-! ## When the workers stop -/

section Stopping

variable {s : State W J}

/-- Whoever has not stopped leaves a sentinel for someone: once all sentinels are put, either one
waits or everybody has stopped. -/
theorem Ok.all_stopped (h : Ok s) (hput : State.sentinels s.entries = Fintype.card W)
    (hwaiting : s.waiting = []) : ∀ w, s.Stopped w := by
  have horder := h.order
  rw [hwaiting, List.append_nil] at horder
  apply forall_of_card_le_count
  rw [← h.stopped, horder, hput]

/-- A list has one last occurrence of a value. -/
theorem eq_of_last {β : Type*} {b : β} {l l' r r' : List β} (h : l ++ b :: r = l' ++ b :: r')
    (hr : b ∉ r) (hr' : b ∉ r') : l' = l := by
  rcases List.append_eq_append_iff.mp h with ⟨m, rfl, hm⟩ | ⟨m, rfl, hm⟩
  · cases m with
    | nil => exact List.append_nil l
    | cons c m =>
      obtain ⟨-, rfl⟩ := List.cons.inj hm
      exact absurd (by simp) hr
  · cases m with
    | nil => exact (List.append_nil l').symm
    | cons c m =>
      obtain ⟨-, rfl⟩ := List.cons.inj hm
      exact absurd (by simp) hr'

/-- **When all workers have left**, no sentinel waits, and the entries up to the last sentinel are
those that were taken, every job of them run once. -/
theorem Ok.all_gone (h : Ok s) (hgone : s.gone = Finset.univ) :
    none ∉ s.waiting ∧ ∀ before after, s.entries = before ++ none :: after → none ∉ after →
      s.ran.Perm before.reduceOption := by
  have hmem : ∀ w, w ∈ s.gone := fun w => hgone ▸ Finset.mem_univ w
  have hall : ∀ w, s.Stopped w := fun w => .inl (hmem w)
  have hnone : none ∉ s.waiting := by
    have hstopped := h.stopped
    rw [count_of_forall hall] at hstopped
    have hle := h.sentinels
    rw [← h.order, State.sentinels, List.countP_append] at hle
    have hzero : s.waiting.countP Option.isNone = 0 := by
      unfold State.sentinels at hstopped
      omega
    intro hin
    exact absurd (List.countP_eq_zero.mp hzero none hin) (by simp)
  refine ⟨hnone, fun before after hentries hafter => ?_⟩
  have hran : ((s.taken.map Prod.snd).reduceOption : Multiset J) = s.ran := by
    rw [h.ran, Finset.sum_eq_zero fun w _ => by simp [State.job, h.gone w (hmem w)], add_zero]
  have hin : none ∈ s.taken.map Prod.snd := by
    have hentry : none ∈ s.taken.map Prod.snd ++ s.waiting := by simp [h.order, hentries]
    exact (List.mem_append.mp hentry).resolve_right hnone
  -- the last entry taken is a sentinel, and none comes behind it
  obtain ⟨front, hfront⟩ : ∃ front, s.taken.map Prod.snd = front ++ [none] := by
    obtain ⟨v, hv⟩ := Option.ne_none_iff_exists'.mp
      (mt List.getLast?_eq_none_iff.mp (List.ne_nil_of_mem hin))
    obtain rfl := h.last hall v hv
    exact List.getLast?_eq_some_iff.mp hv
  have hbefore : before = front := by
    have heq : front ++ none :: s.waiting = before ++ none :: after := by
      rw [← hentries, ← h.order, hfront, List.append_assoc]
      rfl
    exact eq_of_last heq hnone hafter
  rw [hbefore, ← Multiset.coe_eq_coe, ← hran, hfront, List.reduceOption_append]
  simp

end Stopping

end Pool
