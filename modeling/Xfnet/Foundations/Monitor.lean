import Xfnet.Foundations.Counting
import Xfnet.Foundations.Transition

/-!
# Monitors

A monitor is data behind one mutex with condition variables. An operation runs its body while it
holds the mutex: the body completes and may notify one condition, or it waits on a condition and
is run again from its start once the waiting thread has the mutex back (a wait in a `while` loop).

A waiting thread is woken by a notification, spuriously or by its deadline. Once it has the mutex
again a wait with a deadline may report a timeout, also when the thread had been notified; the
operation then returns without a further look at the data.

Two results hold for any monitor: the operations take effect one after another in the order of
their critical sections (`legal_of_reachable`), and a condition whose notifications keep up with
what its waiters can take never has a sleeper that was passed over (`Accounts.keepsUp`). A waiter
that was notified and reports a timeout all the same takes the notification with it; the second
result is for the runs in which it can be spared (`Spares`).
-/

namespace Monitor

open Counting Transition

universe u v w x y

/-- What the body of an operation does while it holds the mutex. -/
inductive Outcome (K : Type u) (D : Type v) (R : Type w)
  | wait (k : K)
  | done (d : D) (r : R) (notify : Option K)

/-- The operations of a monitor: what each does with the data, and what it returns when its wait
times out (`none` for a wait without deadline). -/
structure Spec (Op : Type u) (K : Type v) (D : Type w) (R : Type x) where
  body : Op → D → Outcome K D R
  timeout : Op → Option R

/-- Where a thread is. -/
inductive Pc (Op : Type u) (K : Type v) (R : Type w)
  | idle
  | asleep (op : Op) (k : K)
  | awake (op : Op) (k : K) (notified : Bool)
  | returned (r : R)

/-- The data, the threads, and the operations completed so far in the order of their last critical
sections. -/
structure State (T : Type u) (Op : Type v) (K : Type w) (D : Type x) (R : Type y) where
  data : D
  pc : T → Pc Op K R
  log : List (T × Op × R)

/-- Critical sections carry the thread that a notification in them wakes. -/
inductive Label (T : Type u) (Op : Type v)
  | call (t : T) (op : Op) (woken : Option T)
  | wake (t : T)
  | resume (t : T) (timedOut : Bool) (woken : Option T)
  | leave (t : T)

variable {T : Type u} {Op : Type v} {K : Type w} {D : Type x} {R : Type y}

namespace Pc

/-- The thread waits on `k` and nothing has woken it. -/
def SleepsOn (k : K) : Pc Op K R → Prop
  | asleep _ k' => k' = k
  | _ => False

/-- The thread was notified on `k` and has not had the mutex since. -/
def NotifiedOn (k : K) : Pc Op K R → Prop
  | awake _ k' true => k' = k
  | _ => False

/-- The operation a waiting thread is in, with the condition it waits on. -/
def waiting : Pc Op K R → Option (Op × K)
  | asleep op k => some (op, k)
  | awake op k _ => some (op, k)
  | _ => none

instance [DecidableEq K] (k : K) : DecidablePred (SleepsOn k : Pc Op K R → Prop)
  | asleep _ k' => inferInstanceAs (Decidable (k' = k))
  | idle => isFalse id
  | awake .. => isFalse id
  | returned _ => isFalse id

instance [DecidableEq K] (k : K) : DecidablePred (NotifiedOn k : Pc Op K R → Prop)
  | awake _ k' true => inferInstanceAs (Decidable (k' = k))
  | awake _ _ false => isFalse id
  | idle => isFalse id
  | asleep .. => isFalse id
  | returned _ => isFalse id

@[simp] theorem sleepsOn_idle (k : K) : ¬(idle : Pc Op K R).SleepsOn k := id

@[simp] theorem sleepsOn_asleep (op : Op) (k k' : K) :
    (asleep op k' : Pc Op K R).SleepsOn k ↔ k' = k := Iff.rfl

@[simp] theorem sleepsOn_awake (op : Op) (k k' : K) (b : Bool) :
    ¬(awake op k' b : Pc Op K R).SleepsOn k := id

@[simp] theorem sleepsOn_returned (k : K) (r : R) : ¬(returned r : Pc Op K R).SleepsOn k := id

@[simp] theorem notifiedOn_idle (k : K) : ¬(idle : Pc Op K R).NotifiedOn k := id

@[simp] theorem notifiedOn_asleep (op : Op) (k k' : K) :
    ¬(asleep op k' : Pc Op K R).NotifiedOn k := id

@[simp] theorem notifiedOn_awake (op : Op) (k k' : K) (b : Bool) :
    (awake op k' b : Pc Op K R).NotifiedOn k ↔ b = true ∧ k' = k := by
  cases b <;> simp [NotifiedOn]

@[simp] theorem notifiedOn_returned (k : K) (r : R) :
    ¬(returned r : Pc Op K R).NotifiedOn k := id

theorem waiting_of_notifiedOn {k : K} {p : Pc Op K R} (h : p.NotifiedOn k) :
    ∃ op, p.waiting = some (op, k) := by
  cases p with
  | awake op k' b =>
    obtain ⟨-, rfl⟩ := (notifiedOn_awake op k k' b).mp h
    exact ⟨op, rfl⟩
  | idle => exact h.elim
  | asleep op k' => exact h.elim
  | returned r => exact h.elim

end Pc

section Steps

variable [DecidableEq T] [Fintype T] [DecidableEq K] (S : Spec Op K D R)

/-- `notify_one`: the chosen sleeper is woken, and nobody only when nobody sleeps on `k`. -/
def notifyOne (pc : T → Pc Op K R) (k : K) : Option T → Option (T → Pc Op K R)
  | some t =>
    match pc t with
    | .asleep op k' => if k' = k then some (Function.update pc t (.awake op k' true)) else none
    | _ => none
  | none => if ∃ t, (pc t).SleepsOn k then none else some pc

namespace State

/-- The operation returns, and with it the mutex is released. -/
def finish (s : State T Op K D R) (t : T) (op : Op) (r : R) : State T Op K D R :=
  { s with pc := Function.update s.pc t (.returned r), log := s.log ++ [(t, op, r)] }

/-- The body of an operation, from its start, by a thread that holds the mutex. -/
def enter (s : State T Op K D R) (t : T) (op : Op) (woken : Option T) :
    Option (State T Op K D R) :=
  match S.body op s.data with
  | .wait k => some { s with pc := Function.update s.pc t (.asleep op k) }
  | .done d r none => some { s.finish t op r with data := d }
  | .done d r (some k) =>
    (notifyOne (s.finish t op r).pc k woken).map fun pc =>
      { s.finish t op r with data := d, pc := pc }

def next (s : State T Op K D R) : Label T Op → Option (State T Op K D R)
  | .call t op woken =>
    match s.pc t with
    | .idle => s.enter S t op woken
    | _ => none
  | .wake t =>
    match s.pc t with
    | .asleep op k => some { s with pc := Function.update s.pc t (.awake op k false) }
    | _ => none
  | .resume t timedOut woken =>
    match s.pc t with
    | .awake op _ _ =>
      if timedOut then (S.timeout op).map (s.finish t op) else s.enter S t op woken
    | _ => none
  | .leave t =>
    match s.pc t with
    | .returned _ => some { s with pc := Function.update s.pc t .idle }
    | _ => none

end State

/-- The runs of a monitor whose threads start idle. -/
def system (d : D) : System (State T Op K D R) (Label T Op) where
  init s := s = ⟨d, fun _ => .idle, []⟩
  next := State.next S

/-- Calls are only those that `P` allows the thread. -/
def Only (P : T → Op → Prop) (_ : State T Op K D R) : Label T Op → Prop
  | .call t op _ => P t op
  | _ => True

instance (P : T → Op → Prop) [∀ t op, Decidable (P t op)] (s : State T Op K D R)
    (l : Label T Op) : Decidable (Only P s l) :=
  match l with
  | .call t op _ => inferInstanceAs (Decidable (P t op))
  | .wake _ => isTrue trivial
  | .resume .. => isTrue trivial
  | .leave _ => isTrue trivial

/-! ## What a step can do -/

/-- The thread that starts the body of an operation, at a call or after a wait. -/
inductive Starts (s : State T Op K D R) : Label T Op → T → Op → Prop
  | call {t : T} {op : Op} {woken : Option T} : s.pc t = .idle → Starts s (.call t op woken) t op
  | resume {t : T} {op : Op} {k : K} {b : Bool} {woken : Option T} : s.pc t = .awake op k b →
      Starts s (.resume t false woken) t op

/-- `pc'` is `pc` after a notification on the given condition, if any. -/
inductive Notified (pc : T → Pc Op K R) : Option K → (T → Pc Op K R) → Prop
  | silent : Notified pc none pc
  | nobody {k : K} : (∀ t, ¬(pc t).SleepsOn k) → Notified pc (some k) pc
  | woken {t : T} {op : Op} {k : K} : pc t = .asleep op k →
      Notified pc (some k) (Function.update pc t (.awake op k true))

/-- **The steps of a monitor**, with all that each of them changes. -/
inductive Step (s : State T Op K D R) : Label T Op → State T Op K D R → Prop
  | sleep {l : Label T Op} {t : T} {op : Op} {k : K} : Starts s l t op →
      S.body op s.data = .wait k →
      Step s l { s with pc := Function.update s.pc t (.asleep op k) }
  | done {l : Label T Op} {t : T} {op : Op} {d : D} {r : R} {n : Option K}
      {pc : T → Pc Op K R} : Starts s l t op → S.body op s.data = .done d r n →
      Notified (Function.update s.pc t (.returned r)) n pc →
      Step s l ⟨d, pc, s.log ++ [(t, op, r)]⟩
  | timeout {t : T} {op : Op} {k : K} {b : Bool} {r : R} {woken : Option T} :
      s.pc t = .awake op k b → S.timeout op = some r →
      Step s (.resume t true woken) (s.finish t op r)
  | wake {t : T} {op : Op} {k : K} : s.pc t = .asleep op k →
      Step s (.wake t) { s with pc := Function.update s.pc t (.awake op k false) }
  | leave {t : T} {r : R} : s.pc t = .returned r →
      Step s (.leave t) { s with pc := Function.update s.pc t .idle }

variable {S} {s s' : State T Op K D R} {l : Label T Op}

theorem notified_of_notifyOne {pc pc' : T → Pc Op K R} {k : K} {woken : Option T}
    (h : notifyOne pc k woken = some pc') : Notified pc (some k) pc' := by
  cases woken with
  | none =>
    obtain ⟨hn, rfl⟩ : (∀ t, ¬(pc t).SleepsOn k) ∧ pc = pc' := by simpa [notifyOne] using h
    exact .nobody hn
  | some t =>
    simp only [notifyOne] at h
    split at h
    · next op k' hpc =>
      obtain ⟨rfl, he⟩ := Option.ite_none_right_eq_some.mp h
      obtain rfl := Option.some.inj he
      exact .woken hpc
    · cases h

theorem step_of_enter {t : T} {op : Op} {woken : Option T} (hs : Starts s l t op)
    (h : s.enter S t op woken = some s') : Step S s l s' := by
  unfold State.enter at h
  split at h
  · next k hb =>
    obtain rfl := Option.some.inj h
    exact .sleep hs hb
  · next d r hb =>
    obtain rfl := Option.some.inj h
    exact .done hs hb .silent
  · next d r k hb =>
    obtain ⟨pc, hpc, rfl⟩ := Option.map_eq_some_iff.mp h
    exact .done hs hb (notified_of_notifyOne hpc)

theorem step_of_next (h : s.next S l = some s') : Step S s l s' := by
  cases l with
  | call t op woken =>
    simp only [State.next] at h
    split at h
    · next hpc => exact step_of_enter (.call hpc) h
    · cases h
  | wake t =>
    simp only [State.next] at h
    split at h
    · next op k hpc =>
      obtain rfl := Option.some.inj h
      exact .wake hpc
    · cases h
  | resume t timedOut woken =>
    simp only [State.next] at h
    split at h
    · next op k b hpc =>
      cases timedOut with
      | false => exact step_of_enter (.resume hpc) h
      | true =>
        obtain ⟨r, hr, rfl⟩ := Option.map_eq_some_iff.mp h
        exact .timeout hpc hr
    · cases h
  | leave t =>
    simp only [State.next] at h
    split at h
    · next r hpc =>
      obtain rfl := Option.some.inj h
      exact .leave hpc
    · cases h

theorem notifyOne_nobody {pc : T → Pc Op K R} {k : K} (h : ∀ t, ¬(pc t).SleepsOn k) :
    notifyOne pc k none = some pc := by
  simp only [notifyOne, if_neg (not_exists.mpr h)]

/-- A notification is always possible: someone is chosen among the sleepers if there is one. -/
theorem exists_notifyOne (pc : T → Pc Op K R) (k : K) :
    ∃ woken pc', notifyOne pc k woken = some pc' := by
  by_cases h : ∃ t, (pc t).SleepsOn k
  · obtain ⟨t, ht⟩ := h
    cases hpc : pc t with
    | asleep op k' =>
      have hk : k' = k := by simpa [hpc] using ht
      exact ⟨some t, _, by simp only [notifyOne, hpc, if_pos hk]; rfl⟩
    | idle => simp [hpc] at ht
    | awake op k' b => simp [hpc] at ht
    | returned r => simp [hpc] at ht
  · exact ⟨none, pc, notifyOne_nobody (not_exists.mp h)⟩

/-- **A body never blocks the monitor**: some choice of the thread to notify lets it run. -/
theorem exists_enter (S : Spec Op K D R) (s : State T Op K D R) (t : T) (op : Op) :
    ∃ woken s', s.enter S t op woken = some s' := by
  unfold State.enter
  split
  · exact ⟨none, _, rfl⟩
  · exact ⟨none, _, rfl⟩
  · next d r k _ =>
    obtain ⟨woken, pc, h⟩ := exists_notifyOne (s.finish t op r).pc k
    exact ⟨woken, _, by rw [h]; rfl⟩

end Steps

/-! ## The operations one after another -/

/-- The operation takes the data from `d` to `d'` and returns `r`: by its body, or without effect
by a timeout. -/
inductive Spec.Completes (S : Spec Op K D R) (op : Op) (d : D) (r : R) : D → Prop
  | body {d' : D} {n : Option K} : S.body op d = .done d' r n → S.Completes op d r d'
  | timeout : S.timeout op = some r → S.Completes op d r d

/-- The completed operations, allowed by `P`, are a sequential run from `d`. -/
inductive Spec.Legal (S : Spec Op K D R) (P : T → Op → Prop) (d : D) :
    List (T × Op × R) → D → Prop
  | nil : S.Legal P d [] d
  | snoc {log : List (T × Op × R)} {d₁ d₂ : D} {t : T} {op : Op} {r : R} : S.Legal P d log d₁ →
      P t op → S.Completes op d₁ r d₂ → S.Legal P d (log ++ [(t, op, r)]) d₂

/-- The operation may wait on `k`. -/
def Spec.Waits (S : Spec Op K D R) (op : Op) (k : K) : Prop := ∃ d, S.body op d = .wait k

section Sequential

variable {S : Spec Op K D R} {P : T → Op → Prop} {d : D} {s s' : State T Op K D R}
  {l : Label T Op}

/-- The waiting threads are in operations they were allowed to call, on a condition these wait
on. -/
def WaitsOk (S : Spec Op K D R) (P : T → Op → Prop) (t : T) (p : Pc Op K R) : Prop :=
  ∀ op k, p.waiting = some (op, k) → P t op ∧ S.Waits op k

theorem Starts.allowed {t : T} {op : Op} (h : Starts s l t op) (hc : Only P s l)
    (hw : ∀ t, WaitsOk S P t (s.pc t)) : P t op := by
  cases h with
  | call _ => exact hc
  | @resume t op k b _ hpc => exact (hw t op k (by rw [hpc]; rfl)).1

variable [DecidableEq T]

/-- A notification is not seen by what does not tell a sleeper from a notified thread. -/
theorem Notified.apply_eq {β : Type*} {pc pc' : T → Pc Op K R} {n : Option K}
    (h : Notified pc n pc') (f : Pc Op K R → β)
    (hf : ∀ op k, f (.awake op k true) = f (.asleep op k)) (t : T) : f (pc' t) = f (pc t) := by
  cases h with
  | silent => rfl
  | nobody _ => rfl
  | @woken u op k hu =>
    by_cases htu : t = u
    · subst htu
      rw [Function.update_self, hu, hf]
    · rw [Function.update_of_ne htu]

theorem Notified.waiting_eq {pc pc' : T → Pc Op K R} {n : Option K} (h : Notified pc n pc')
    (t : T) : (pc' t).waiting = (pc t).waiting := h.apply_eq Pc.waiting (fun _ _ => rfl) t

theorem Notified.of_not_asleep {pc pc' : T → Pc Op K R} {n : Option K} (h : Notified pc n pc')
    {t : T} (ht : ∀ op k, pc t ≠ .asleep op k) : pc' t = pc t := by
  cases h with
  | silent => rfl
  | nobody _ => rfl
  | @woken u op k hu =>
    have htu : t ≠ u := by
      rintro rfl
      exact ht op k hu
    exact Function.update_of_ne htu ..

theorem Notified.returned {pc pc' : T → Pc Op K R} {n : Option K} (h : Notified pc n pc') {t : T}
    {r : R} (ht : pc' t = .returned r) : pc t = .returned r := by
  have hreturned := h.apply_eq (fun p => p = .returned r) (fun _ _ => by simp) t
  exact hreturned.mp ht

/-- An idle thread that calls nothing stays idle. -/
theorem Step.idle {u : T} (h : Step S s l s') (hu : s.pc u = .idle)
    (hs : ∀ op, ¬Starts s l u op) : s'.pc u = .idle := by
  have hother {t : T} {p : Pc Op K R} (ht : u ≠ t) : Function.update s.pc t p u = .idle :=
    (Function.update_of_ne ht ..).trans hu
  cases h with
  | @sleep _ t op k hs' hb =>
    apply hother
    rintro rfl
    exact hs op hs'
  | @done _ t op d r n pc hs' hb hn =>
    have hold : Function.update s.pc t (.returned r) u = .idle := by
      apply hother
      rintro rfl
      exact hs op hs'
    exact (hn.of_not_asleep fun op k => by simp [hold]).trans hold
  | timeout hpc ht => exact hother fun he => by simp [← he, hu] at hpc
  | wake hpc => exact hother fun he => by simp [← he, hu] at hpc
  | leave hpc => exact hother fun he => by simp [← he, hu] at hpc

theorem waitsOk_step (h : Step S s l s') (hc : Only P s l) (hw : ∀ t, WaitsOk S P t (s.pc t)) :
    ∀ t, WaitsOk S P t (s'.pc t) := by
  cases h with
  | @sleep _ t op k hs hb =>
    refine forall_update hw fun op' k' he => ?_
    obtain ⟨rfl, rfl⟩ : op = op' ∧ k = k' := by simpa [Pc.waiting] using he
    exact ⟨hs.allowed hc hw, s.data, hb⟩
  | @done _ t op d' r n pc hs hb hn =>
    intro u op' k' he
    rw [hn.waiting_eq] at he
    exact forall_update hw (fun _ _ he => by simp [Pc.waiting] at he) u op' k' he
  | timeout hpc ht => exact forall_update hw fun _ _ he => by simp [Pc.waiting] at he
  | @wake t op k hpc =>
    refine forall_update hw fun op' k' he => hw t op' k' ?_
    rw [hpc]
    exact he
  | leave hpc => exact forall_update hw fun _ _ he => by simp [Pc.waiting] at he

theorem legal_step (h : Step S s l s') (hc : Only P s l) (hw : ∀ t, WaitsOk S P t (s.pc t))
    (hl : S.Legal P d s.log s.data) : S.Legal P d s'.log s'.data := by
  cases h with
  | sleep hs hb => exact hl
  | done hs hb hn => exact hl.snoc (hs.allowed hc hw) (.body hb)
  | @timeout t op k b r _ hpc ht =>
    exact hl.snoc (hw t op k (by rw [hpc]; rfl)).1 (.timeout ht)
  | wake hpc => exact hl
  | leave hpc => exact hl

/-- What a thread returned with is the result of an operation it was allowed to call. -/
def ReturnsOk (S : Spec Op K D R) (P : T → Op → Prop) (t : T) (p : Pc Op K R) : Prop :=
  ∀ r, p = .returned r → ∃ op d d', P t op ∧ S.Completes op d r d'

theorem returnsOk_step (h : Step S s l s') (hc : Only P s l) (hw : ∀ t, WaitsOk S P t (s.pc t))
    (hr : ∀ t, ReturnsOk S P t (s.pc t)) : ∀ t, ReturnsOk S P t (s'.pc t) := by
  cases h with
  | sleep hs hb => exact forall_update hr nofun
  | wake hpc => exact forall_update hr nofun
  | leave hpc => exact forall_update hr nofun
  | @timeout t op k b r _ hpc ht =>
    refine forall_update hr fun r' he => ?_
    obtain rfl := Pc.returned.inj he
    exact ⟨op, s.data, s.data, (hw t op k (by rw [hpc]; rfl)).1, .timeout ht⟩
  | @done _ t op d r n pc hs hb hn =>
    intro u r' he
    have hret : ∀ u, ReturnsOk S P u (Function.update s.pc t (.returned r) u) := by
      refine forall_update hr fun r' he => ?_
      obtain rfl := Pc.returned.inj he
      exact ⟨op, s.data, d, hs.allowed hc hw, .body hb⟩
    exact hret u r' (hn.returned he)

variable [Fintype T] [DecidableEq K]

theorem waitsOk_of_reachable (h : (system S d).Reachable (Only P) s) :
    ∀ t, WaitsOk S P t (s.pc t) := by
  refine System.Reachable.invariant (I := fun s => ∀ t, WaitsOk S P t (s.pc t)) ?_ ?_ h
  · rintro s rfl t op k he
    cases he
  · intro s l s' _ hw hc hn
    exact waitsOk_step (step_of_next hn) hc hw

theorem returnsOk_of_reachable (h : (system S d).Reachable (Only P) s) :
    ∀ t, ReturnsOk S P t (s.pc t) := by
  refine System.Reachable.invariant (I := fun s => ∀ t, ReturnsOk S P t (s.pc t)) ?_ ?_ h
  · rintro s rfl t r he
    cases he
  · intro s l s' hr hret hc hn
    exact returnsOk_step (step_of_next hn) hc (waitsOk_of_reachable hr) hret

/-- **The operations take effect one after another**, in the order of their last critical
sections. -/
theorem legal_of_reachable (h : (system S d).Reachable (Only P) s) :
    S.Legal P d s.log s.data := by
  refine System.Reachable.invariant (I := fun s => S.Legal P d s.log s.data) ?_ ?_ h
  · rintro s rfl
    exact .nil
  · intro s l s' hr hl hc hn
    exact legal_step (step_of_next hn) hc (waitsOk_of_reachable hr) hl

end Sequential

/-! ## Wake-ups -/

/-- No waiter that was notified on `k` reports a timeout. -/
def Heeds (k : K) (s : State T Op K D R) : Label T Op → Prop
  | .resume t true _ => ¬(s.pc t).NotifiedOn k
  | _ => True

/-- A waiter that was notified on `k` reports a timeout only when nobody sleeps on `k` or the others
that were notified are enough. -/
def Spares [Fintype T] [DecidableEq K] (k : K) (avail : D → ℕ) (s : State T Op K D R) :
    Label T Op → Prop
  | .resume t true _ => (s.pc t).NotifiedOn k → ∀ u, (s.pc u).SleepsOn k →
      avail s.data < count fun u => (s.pc u).NotifiedOn k
  | _ => True

instance [Fintype T] [DecidableEq K] (k : K) (avail : D → ℕ) (s : State T Op K D R) :
    DecidablePred (Spares k avail s)
  | .resume t true _ => inferInstanceAs (Decidable ((s.pc t).NotifiedOn k →
      ∀ u, (s.pc u).SleepsOn k → avail s.data < count fun u => (s.pc u).NotifiedOn k))
  | .resume _ false _ => isTrue trivial
  | .call .. => isTrue trivial
  | .wake _ => isTrue trivial
  | .leave _ => isTrue trivial

theorem Heeds.spares [Fintype T] [DecidableEq K] {k : K} {avail : D → ℕ} {s : State T Op K D R}
    {l : Label T Op} (h : Heeds k s l) : Spares k avail s l := by
  cases l with
  | resume t timedOut woken =>
    cases timedOut with
    | true => exact fun ht => absurd ht h
    | false => trivial
  | call t op woken => trivial
  | wake t => trivial
  | leave t => trivial

/-- The bookkeeping of a condition: `avail` says how many of the operations that wait on `k` could
complete. A waiter that completes takes one of these, and an operation that adds one notifies. -/
structure Accounts (S : Spec Op K D R) (P : T → Op → Prop) [DecidableEq K] (k : K)
    (avail : D → ℕ) : Prop where
  wait : ∀ {op d}, S.body op d = .wait k → avail d = 0
  stay : ∀ {op d k'}, S.Waits op k → S.body op d = .wait k' → k' = k
  take : ∀ {t op d d' r n}, P t op → S.Waits op k → S.body op d = .done d' r n → avail d' < avail d
  give : ∀ {t op d d' r n}, P t op → S.body op d = .done d' r n →
    avail d' ≤ avail d + if n = some k then 1 else 0

/-- While somebody sleeps on `k`, enough notified threads are still to run. -/
def KeepsUp [Fintype T] [DecidableEq K] (k : K) (avail : D → ℕ) (s : State T Op K D R) : Prop :=
  ∀ t, (s.pc t).SleepsOn k → avail s.data ≤ count fun u => (s.pc u).NotifiedOn k

/-- **A lost wake-up**: an operation that waits on `k` could complete, somebody sleeps on `k`, and
no thread that was notified is still to run. -/
def Stranded (k : K) (avail : D → ℕ) (s : State T Op K D R) : Prop :=
  0 < avail s.data ∧ (∃ t, (s.pc t).SleepsOn k) ∧ ∀ t, ¬(s.pc t).NotifiedOn k

theorem KeepsUp.not_stranded [Fintype T] [DecidableEq K] {k : K} {avail : D → ℕ}
    {s : State T Op K D R} (h : KeepsUp k avail s) : ¬Stranded k avail s := by
  rintro ⟨havail, ⟨t, ht⟩, hnone⟩
  have hle := h t ht
  rw [count_of_forall_not hnone] at hle
  omega

section WakeUps

variable [DecidableEq T] [Fintype T] [DecidableEq K] {S : Spec Op K D R}
  {P : T → Op → Prop} {d : D} {s s' : State T Op K D R} {l : Label T Op} {k : K} {avail : D → ℕ}

/-- While somebody still sleeps on `k`, a notification on `k` adds a notified thread. -/
theorem Notified.count_eq {pc pc' : T → Pc Op K R} {n : Option K} (h : Notified pc n pc') {t : T}
    (ht : (pc' t).SleepsOn k) :
    (pc t).SleepsOn k ∧ (count fun u => (pc' u).NotifiedOn k) =
      (count fun u => (pc u).NotifiedOn k) + if n = some k then 1 else 0 := by
  cases h with
  | silent => exact ⟨ht, by simp⟩
  | @nobody k' hn =>
    refine ⟨ht, ?_⟩
    rw [if_neg]
    · rfl
    · rintro he
      obtain rfl := Option.some.inj he
      exact hn t ht
  | @woken u op k' hu =>
    have hne : t ≠ u := by
      rintro rfl
      simp at ht
    rw [Function.update_of_ne hne] at ht
    refine ⟨ht, ?_⟩
    have := count_update (Pc.NotifiedOn k) pc u (.awake op k' true)
    simpa [hu] using this

omit [DecidableEq T] [Fintype T] [DecidableEq K] in
/-- A notified thread that starts an operation resumes the one it waited in. -/
theorem Starts.waiting_of_notifiedOn {t : T} {op : Op} (h : Starts s l t op)
    (ht : (s.pc t).NotifiedOn k) : (s.pc t).waiting = some (op, k) := by
  cases h with
  | call hpc => simp [hpc] at ht
  | @resume _ op k₀ b _ hpc =>
    obtain ⟨op', hop⟩ := Pc.waiting_of_notifiedOn ht
    obtain ⟨rfl, rfl⟩ : op = op' ∧ k₀ = k := by simpa [hpc, Pc.waiting] using hop
    exact hop

/-- **Notifications keep up**: one step. -/
theorem Accounts.keepsUp_step (ha : Accounts S P k avail) (h : Step S s l s') (hc : Only P s l)
    (hh : Spares k avail s l) (hw : ∀ t, WaitsOk S P t (s.pc t)) (hk : KeepsUp k avail s) :
    KeepsUp k avail s' := by
  -- a thread that no longer sleeps and is not notified leaves the count as it was
  have hquiet {t : T} {p : Pc Op K R} (hp : ¬p.SleepsOn k) (hp' : ¬p.NotifiedOn k)
      (ht : ¬(s.pc t).NotifiedOn k) {u : T} (hu : (Function.update s.pc t p u).SleepsOn k) :
      avail s.data ≤ count fun u => (Function.update s.pc t p u).NotifiedOn k := by
    have hne : u ≠ t := by
      rintro rfl
      rw [Function.update_self] at hu
      exact hp hu
    rw [Function.update_of_ne hne] at hu
    have hcount := count_update (Pc.NotifiedOn k) s.pc t p
    rw [if_neg hp', if_neg ht] at hcount
    exact (hk u hu).trans hcount.ge
  cases h with
  | @sleep _ t op k' hs hb =>
    intro u hu
    by_cases hkk : k' = k
    · subst hkk
      rw [ha.wait hb]
      exact Nat.zero_le _
    · refine hquiet hkk id ?_ hu
      -- a thread that was notified on `k` would wait on `k` again
      intro ht
      exact hkk (ha.stay (hw t op k (hs.waiting_of_notifiedOn ht)).2 hb)
  | @done _ t op d' r n pc hs hb hn =>
    intro u hu
    obtain ⟨hu', hcount⟩ := hn.count_eq hu
    have hne : u ≠ t := by
      rintro rfl
      rw [Function.update_self] at hu'
      exact hu'
    rw [Function.update_of_ne hne] at hu'
    have hold := hk u hu'
    have hret := count_update (Pc.NotifiedOn k) s.pc t (.returned r)
    have hP := hs.allowed hc hw
    have hgive := ha.give hP hb
    rw [if_neg (Pc.notifiedOn_returned k r)] at hret
    show avail d' ≤ count fun u => (pc u).NotifiedOn k
    by_cases ht : (s.pc t).NotifiedOn k
    · -- the thread was notified: it takes one of what is available
      have htake : avail d' < avail s.data :=
        ha.take hP (hw t op k (hs.waiting_of_notifiedOn ht)).2 hb
      rw [if_pos ht] at hret
      omega
    · rw [if_neg ht] at hret
      omega
  | @timeout t op k' b r _ hpc ht =>
    intro u hu
    by_cases hnot : (s.pc t).NotifiedOn k
    · -- the others that were notified are enough
      have hne : u ≠ t := by
        rintro rfl
        simp [State.finish] at hu
      have hu' : (s.pc u).SleepsOn k := by simpa [State.finish, hne] using hu
      have hcount := count_update (Pc.NotifiedOn k) s.pc t (.returned r)
      rw [if_neg (Pc.notifiedOn_returned k r), if_pos hnot] at hcount
      have hlt := hh hnot u hu'
      show avail s.data ≤ count fun u => (Function.update s.pc t (.returned r) u).NotifiedOn k
      omega
    · exact hquiet id id hnot hu
  | @wake t op k' hpc =>
    intro u hu
    exact hquiet id id (by simp [hpc]) hu
  | @leave t r hpc =>
    intro u hu
    exact hquiet id id (by simp [hpc]) hu

/-- **Notifications keep up** in every run in which the notified waiters that report a timeout can
be spared. -/
theorem Accounts.keepsUp (ha : Accounts S P k avail)
    (h : (system S d).Reachable (fun s l => Only P s l ∧ Spares k avail s l) s) :
    KeepsUp k avail s := by
  refine System.Reachable.invariant (I := KeepsUp k avail) ?_ ?_ h
  · rintro s rfl t ht
    exact ht.elim
  · intro s l s' hr hk hc hn
    have hw := waitsOk_of_reachable (hr.mono fun _ _ h => h.1)
    exact ha.keepsUp_step (step_of_next hn) hc.1 hc.2 hw hk

omit [Fintype T] [DecidableEq K] in
/-- Without deadlines nobody reports a timeout. -/
theorem heeds_of_untimed (k : K) (hP : ∀ t op, P t op → S.timeout op = none)
    (hw : ∀ t, WaitsOk S P t (s.pc t)) (h : Step S s l s') : Heeds k s l := by
  cases h with
  | @timeout t op k' b r _ hpc ht =>
    have hallowed := (hw t op k' (by rw [hpc]; rfl)).1
    rw [hP t op hallowed] at ht
    cases ht
  | sleep hs hb => cases hs <;> trivial
  | done hs hb hn => cases hs <;> trivial
  | wake hpc => trivial
  | leave hpc => trivial

/-- Notifications keep up where every wait is without a deadline. -/
theorem Accounts.keepsUp_of_untimed (ha : Accounts S P k avail)
    (hP : ∀ t op, P t op → S.timeout op = none) (h : (system S d).Reachable (Only P) s) :
    KeepsUp k avail s := by
  refine ha.keepsUp (h.of_steps fun s l s' hr hc hn => ⟨hc, ?_⟩)
  exact (heeds_of_untimed k hP (waitsOk_of_reachable hr) (step_of_next hn)).spares

end WakeUps

end Monitor
