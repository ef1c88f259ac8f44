import Xfnet.Foundations.Linearizability
import Xfnet.Foundations.Monitor

/-!
# The history of a monitor

The calls and returns of a monitor, recorded along its runs. An operation takes effect where its
thread completes it under the mutex. Where the last of its waits times out, it takes effect, with
no change to the data, at the moment when it began that wait: there it could not complete. Both
are after the call and before the return, so the operations linearize the history in this order
(`linearizable`).
-/

namespace Monitor

open Counting Linearizability Transition

universe u v w x y

variable {T : Type u} {Op : Type v} {K : Type w} {D : Type x} {R : Type y}

/-! ## One operation at a time -/

/-- What an operation does when it is alone: its body completes, or it would have to wait and gives
up. -/
inductive Spec.Answers (S : Spec Op K D R) (op : Op) (d : D) (r : R) : D → Prop
  | body {d' : D} {n : Option K} : S.body op d = .done d' r n → S.Answers op d r d'
  | timeout {k : K} : S.timeout op = some r → S.body op d = .wait k → S.Answers op d r d

/-- The operations take the data from `d` to the given one, each when the one before it is done. -/
inductive Spec.InTurn (S : Spec Op K D R) (d : D) : List (T × Op × R) → D → Prop
  | nil : S.InTurn d [] d
  | snoc {log : List (T × Op × R)} {d₁ d₂ : D} {t : T} {op : Op} {r : R} : S.InTurn d log d₁ →
      S.Answers op d₁ r d₂ → S.InTurn d (log ++ [(t, op, r)]) d₂

/-- The same for slots. Where an operation had to wait, it has a slot for the case that it gives
up. -/
inductive Spec.Provisional (S : Spec Op K D R) (d : D) : List (Slot T Op R) → D → Prop
  | nil : S.Provisional d [] d
  | done {slots : List (Slot T Op R)} {d₁ d₂ : D} {e : Slot T Op R} {n : Option K} :
      S.Provisional d slots d₁ → S.body e.op d₁ = .done d₂ e.result n → e.kept →
      S.Provisional d (slots ++ [e]) d₂
  | waits {slots : List (Slot T Op R)} {d₁ : D} {e : Slot T Op R} {k : K} :
      S.Provisional d slots d₁ → S.timeout e.op = some e.result → S.body e.op d₁ = .wait k →
      S.Provisional d (slots ++ [e]) d₁

namespace Spec.Provisional

variable {S : Spec Op K D R} {d d' : D} {slots : List (Slot T Op R)}

/-- A slot that is not kept changes nothing. -/
theorem filter (h : S.Provisional d slots d') (p : Slot T Op R → Bool)
    (hp : ∀ e ∈ slots, e.kept → p e) : S.Provisional d (slots.filter p) d' := by
  induction h with
  | nil => exact .nil
  | @done slots d₁ d₂ e n _ hb hkept ih =>
    have he : p e := hp e (List.mem_append_right _ (List.mem_singleton_self _)) hkept
    rw [List.filter_append, List.filter_singleton, he]
    exact (ih fun e' he' => hp e' (List.mem_append_left _ he')).done hb hkept
  | @waits slots d₁ e k _ ht hb ih =>
    have hrest := ih fun e' he' => hp e' (List.mem_append_left _ he')
    rw [List.filter_append, List.filter_singleton]
    cases p e with
    | true => exact hrest.waits ht hb
    | false => simpa using hrest

theorem keep (h : S.Provisional d slots d') (id : ℕ) :
    S.Provisional d (slots.map (Slot.keep id)) d' := by
  induction h with
  | nil => exact .nil
  | @done slots d₁ d₂ e n _ hb hkept ih =>
    rw [List.map_append, List.map_singleton, Slot.keep]
    split
    · exact ih.done hb rfl
    · exact ih.done hb hkept
  | @waits slots d₁ e k _ ht hb ih =>
    rw [List.map_append, List.map_singleton, Slot.keep]
    split
    · exact ih.waits ht hb
    · exact ih.waits ht hb

/-- **The kept slots are a sequential run.** -/
theorem inTurn (h : S.Provisional d slots d') :
    S.InTurn d ((ordered slots).map Entry.operation) d' := by
  induction h with
  | nil => exact .nil
  | @done slots d₁ d₂ e n _ hb hkept ih =>
    rw [ordered_concat, if_pos hkept, List.map_append]
    exact ih.snoc (.body hb)
  | @waits slots d₁ e k _ ht hb ih =>
    rw [ordered_concat]
    split
    · rw [List.map_append]
      exact ih.snoc (.timeout ht hb)
    · rwa [List.append_nil]

end Spec.Provisional

/-! ## The bookkeeping of the slots -/

/-- The threads but those in `except` that wait with a deadline have a slot. -/
def Covered (S : Spec Op K D R) (slots : List (Slot T Op R)) (phase : T → Phase Op R)
    (except : T → Prop) : Prop :=
  ∀ t id op r, ¬except t → phase t = .called id op → S.timeout op = some r →
    ∃ e ∈ slots, e.id = id ∧ e.result = r

/-- The slots of a history, for the data as it is. -/
structure Booked (S : Spec Op K D R) (d : D) (events : List (Event T Op R))
    (slots : List (Slot T Op R)) (phase : T → Phase Op R) (data : D) : Prop where
  recorded : Recorded events slots phase
  run : S.Provisional d slots data
  covered : Covered S slots phase fun _ => False

section Bookkeeping

variable {S : Spec Op K D R} {d data data' : D} {events : List (Event T Op R)}
  {slots slots' : List (Slot T Op R)} {phase : T → Phase Op R} {t : T} {id : ℕ} {op : Op} {r : R}
  {k : K} {n : Option K}

/-- The slots of the other threads stay. -/
theorem Covered.of_stays (h : Covered S slots phase (· = t))
    (hrec : Recorded events slots phase) (ht : phase t = .called id op)
    (hstays : ∀ e ∈ slots, e.id ≠ id → e ∈ slots') : Covered S slots' phase (· = t) := by
  intro u id' op' r hut hu hr
  obtain ⟨e, he, rfl, hres⟩ := h u id' op' r hut hu hr
  refine ⟨e, hstays e he ?_, rfl, hres⟩
  rintro rfl
  exact hut (hrec.apart u t _ (by rw [hu]; rfl) (by rw [ht]; rfl))

/-- The operation has to wait. -/
theorem Booked.sleep (hrec : Recorded events slots phase) (hrun : S.Provisional d slots data)
    (hcov : Covered S slots phase (· = t)) (ht : phase t = .called id op)
    (hb : S.body op data = .wait k) : ∃ slots', Booked S d events slots' phase data := by
  have hok := hrec.phases t
  rw [ht] at hok
  obtain ⟨hcall, hnew, hnot⟩ := hok
  have hdrop := hrec.drop ht
  have hrun' := hrun.filter (fun e => e.id ≠ id) fun e he hkept =>
    decide_eq_true (hnew e he hkept)
  have hmem : ∀ e ∈ slots, e.id ≠ id → e ∈ slots.filter fun e => e.id ≠ id :=
    fun e he hne => List.mem_filter.mpr ⟨he, decide_eq_true hne⟩
  have hcov' := hcov.of_stays hrec ht hmem
  cases hr : S.timeout op with
  | none =>
    refine ⟨_, hdrop, hrun', fun u id' op' r _ hu hr' => ?_⟩
    by_cases hut : u = t
    · subst hut
      rw [ht] at hu
      cases hu
      rw [hr] at hr'
      cases hr'
    · exact hcov' u id' op' r hut hu hr'
  | some r =>
    refine ⟨_, hdrop.put hcall (fun e he => of_decide_eq_true (List.mem_filter.mp he).2) hnot r,
      hrun'.waits hr hb, fun u id' op' r' _ hu hr' => ?_⟩
    by_cases hut : u = t
    · subst hut
      rw [ht] at hu
      cases hu
      rw [hr] at hr'
      cases hr'
      exact ⟨_, List.mem_append_right _ (List.mem_singleton_self _), rfl, rfl⟩
    · obtain ⟨e, he, hres⟩ := hcov' u id' op' r' hut hu hr'
      exact ⟨e, List.mem_append_left _ he, hres⟩

variable [DecidableEq T]

/-- A thread whose operation has taken effect needs no slot for it. -/
theorem Covered.done (h : Covered S slots phase (· = t)) :
    Covered S slots (Function.update phase t (.done id r)) fun _ => False := by
  intro u id' op' r' _ hu hr
  by_cases hut : u = t
  · subst hut
    rw [Function.update_self] at hu
    cases hu
  · rw [Function.update_of_ne hut] at hu
    exact h u id' op' r' hut hu hr

/-- The operation completes. -/
theorem Booked.complete (hrec : Recorded events slots phase) (hrun : S.Provisional d slots data)
    (hcov : Covered S slots phase (· = t)) (ht : phase t = .called id op)
    (hb : S.body op data = .done data' r n) :
    ∃ slots', Booked S d events slots' (Function.update phase t (.done id r)) data' := by
  have hok := hrec.phases t
  rw [ht] at hok
  have hdrop := hrec.drop ht
  have hrun' := hrun.filter (fun e => e.id ≠ id) fun e he hkept =>
    decide_eq_true (hok.2.1 e he hkept)
  refine ⟨_, hdrop.effect ht (fun e he => of_decide_eq_true (List.mem_filter.mp he).2) r,
    hrun'.done hb rfl, (hcov.of_stays hrec ht fun e he hne => ?_).done⟩
  exact List.mem_append_left _ (List.mem_filter.mpr ⟨he, decide_eq_true hne⟩)

/-- The wait times out. -/
theorem Booked.expire (h : Booked S d events slots phase data) (ht : phase t = .called id op)
    (hr : S.timeout op = some r) :
    ∃ slots', Booked S d events slots' (Function.update phase t (.done id r)) data := by
  obtain ⟨e, he, hid, rfl⟩ := h.covered t id op r not_false ht hr
  have hcov : Covered S slots phase (· = t) := fun u id op r _ => h.covered u id op r not_false
  refine ⟨_, h.recorded.keep ht he hid, h.run.keep id,
    (hcov.of_stays h.recorded ht fun e he hne => ?_).done⟩
  have hsame : e.keep id = e := if_neg hne
  exact hsame ▸ List.mem_map_of_mem he

end Bookkeeping

/-! ## The history -/

/-- A monitor, its history so far, and the number of the operation that each thread is in. -/
structure Observed (T : Type u) (Op : Type v) (K : Type w) (D : Type x) (R : Type y) where
  state : State T Op K D R
  events : List (Event T Op R)
  number : T → ℕ

/-- Where the thread is in its operation, the number of which is `id`. -/
def Pc.phase (id : ℕ) : Pc Op K R → Phase Op R
  | idle => .idle
  | asleep op _ => .called id op
  | awake op _ _ => .called id op
  | returned r => .done id r

namespace Observed

def phase (s : Observed T Op K D R) (t : T) : Phase Op R := (s.state.pc t).phase (s.number t)

def Ok (S : Spec Op K D R) (d : D) (s : Observed T Op K D R) : Prop :=
  ∃ slots, Booked S d s.events slots s.phase s.state.data

variable [DecidableEq T]

/-- The event of a step, if it has one. -/
def record (s : Observed T Op K D R) : Label T Op → Observed T Op K D R
  | .call t op _ =>
    { s with
      events := s.events ++ [.call s.events.length t op]
      number := Function.update s.number t s.events.length }
  | .leave t =>
    match s.state.pc t with
    | .returned r => { s with events := s.events ++ [.ret (s.number t) r] }
    | _ => s
  | _ => s

variable [Fintype T] [DecidableEq K] (S : Spec Op K D R)

def next (s : Observed T Op K D R) (l : Label T Op) : Option (Observed T Op K D R) :=
  (s.state.next S l).map fun state => { s.record l with state := state }

end Observed

/-- The runs of a monitor, with their histories. -/
def observed [DecidableEq T] [Fintype T] [DecidableEq K] (S : Spec Op K D R) (d : D) :
    System (Observed T Op K D R) (Label T Op) where
  init s := s = ⟨⟨d, fun _ => .idle, []⟩, [], fun _ => 0⟩
  next := Observed.next S

section Steps

variable [DecidableEq T] {S : Spec Op K D R} {d : D} {s s' : Observed T Op K D R}
  {state : State T Op K D R} {l : Label T Op} {id : ℕ}

/-- One thread moves. -/
theorem ok_of_update (s : Observed T Op K D R) (t : T) (p : Pc Op K R)
    (h : ∃ slots, Booked S d s'.events slots (Function.update s.phase t (p.phase id)) s'.state.data)
    (hnumber : s'.number = Function.update s.number t id)
    (hpc : ∀ id u, (s'.state.pc u).phase id = (Function.update s.state.pc t p u).phase id) :
    s'.Ok S d := by
  have hphase : s'.phase = Function.update s.phase t (p.phase id) := by
    funext u
    rw [Observed.phase, hpc, hnumber]
    by_cases hut : u = t
    · subst hut
      rw [Function.update_self, Function.update_self, Function.update_self]
    · rw [Function.update_of_ne hut, Function.update_of_ne hut, Function.update_of_ne hut,
        Observed.phase]
  rwa [Observed.Ok, hphase]

/-- One thread moves within its operation, or leaves it. -/
theorem ok_of_goOn (s : Observed T Op K D R) (t : T) (p : Pc Op K R)
    (h : ∃ slots, Booked S d s'.events slots
      (Function.update s.phase t (p.phase (s.number t))) s'.state.data)
    (hnumber : s'.number = s.number)
    (hpc : ∀ id u, (s'.state.pc u).phase id = (Function.update s.state.pc t p u).phase id) :
    s'.Ok S d :=
  ok_of_update s t p h (hnumber.trans (Function.update_eq_self ..).symm) hpc

/-- One thread moves, and is as far in its operation as it was. -/
theorem ok_of_same (s : Observed T Op K D R) (t : T) (p : Pc Op K R)
    (h : ∃ slots, Booked S d s'.events slots s.phase s'.state.data)
    (hp : p.phase (s.number t) = s.phase t) (hnumber : s'.number = s.number)
    (hpc : ∀ id u, (s'.state.pc u).phase id = (Function.update s.state.pc t p u).phase id) :
    s'.Ok S d := by
  refine ok_of_goOn s t p ?_ hnumber hpc
  rwa [hp, Function.update_eq_self]

omit [DecidableEq T] in
theorem phase_of_awake {t : T} {op : Op} {k : K} {b : Bool} (hpc : s.state.pc t = .awake op k b) :
    s.phase t = .called (s.number t) op := by
  rw [Observed.phase, hpc]
  rfl

/-- **One step** of the monitor, with its event. -/
theorem observed_step (h : Step S s.state l state) (hi : s.Ok S d) :
    ({ s.record l with state := state } : Observed T Op K D R).Ok S d := by
  obtain ⟨slots, hrec, hrun, hcov⟩ := hi
  have hothers (t : T) : Covered S slots s.phase (· = t) :=
    fun u id op r _ => hcov u id op r not_false
  -- the others are covered also when a thread has just called its operation
  have hcalled (t : T) (op : Op) : Covered S slots
      (Function.update s.phase t (.called s.events.length op)) (· = t) := by
    intro u id op' r hut hu
    rw [Function.update_of_ne hut] at hu
    exact hcov u id op' r not_false hu
  cases h with
  | @sleep _ t op k hs hb =>
    cases hs with
    | call hpc =>
      have hsleep :=
        Booked.sleep (hrec.call t op) hrun (hcalled t op) (Function.update_self ..) hb
      exact ok_of_update s t (.asleep op k) hsleep rfl fun _ _ => rfl
    | resume hpc =>
      have hsleep := Booked.sleep hrec hrun (hothers t) (phase_of_awake hpc) hb
      exact ok_of_same s t (.asleep op k) hsleep (phase_of_awake hpc).symm rfl fun _ _ => rfl
  | @done _ t op d' r n pc hs hb hn =>
    have hpc' : ∀ id u, (pc u).phase id =
        (Function.update s.state.pc t (.returned r) u).phase id :=
      fun id => hn.apply_eq (Pc.phase id) fun _ _ => rfl
    cases hs with
    | call hpc =>
      have hdone :=
        Booked.complete (hrec.call t op) hrun (hcalled t op) (Function.update_self ..) hb
      rw [Function.update_idem] at hdone
      exact ok_of_update s t (.returned r) hdone rfl hpc'
    | resume hpc =>
      have hdone := Booked.complete hrec hrun (hothers t) (phase_of_awake hpc) hb
      exact ok_of_goOn s t (.returned r) hdone rfl hpc'
  | @timeout t op k b r woken hpc ht =>
    have hexpire := Booked.expire ⟨hrec, hrun, hcov⟩ (phase_of_awake hpc) ht
    exact ok_of_goOn s t (.returned r) hexpire rfl fun _ _ => rfl
  | @wake t op k hpc =>
    have hphase : s.phase t = .called (s.number t) op := by
      rw [Observed.phase, hpc]
      rfl
    exact ok_of_same s t (.awake op k false) ⟨slots, hrec, hrun, hcov⟩ hphase.symm rfl
      fun _ _ => rfl
  | @leave t r hpc =>
    have hdone : s.phase t = .done (s.number t) r := by
      rw [Observed.phase, hpc]
      rfl
    have hrecord : s.record (.leave t) =
        { s with events := s.events ++ [.ret (s.number t) r] } := by
      simp only [Observed.record, hpc]
    have hcov' : Covered S slots (Function.update s.phase t .idle) fun _ => False := by
      intro u id op r' _ hu
      by_cases hut : u = t
      · subst hut
        rw [Function.update_self] at hu
        cases hu
      · rw [Function.update_of_ne hut] at hu
        exact hcov u id op r' not_false hu
    rw [hrecord]
    exact ok_of_goOn s t .idle ⟨slots, hrec.ret hdone, hrun, hcov'⟩ rfl fun _ _ => rfl

end Steps

/-- **Every history of a monitor is linearizable**: its operations can be put in an order, true to
real time, in which each has the result that it has when it is alone. -/
theorem linearizable [DecidableEq T] [Fintype T] [DecidableEq K] {S : Spec Op K D R} {d : D}
    {s : Observed T Op K D R} (h : (observed S d).Reachable Free s) :
    Linearizable (fun log => ∃ d', S.InTurn d log d') s.events := by
  have hok : s.Ok S d := by
    refine h.invariant (I := Observed.Ok S d) ?_ ?_
    · rintro _ rfl
      exact ⟨[], .start, .nil, nofun⟩
    · intro s l s' _ hi _ hn
      obtain ⟨state, hnext, rfl⟩ := Option.map_eq_some_iff.mp hn
      exact observed_step (step_of_next hnext) hi
  obtain ⟨slots, hrec, hrun, -⟩ := hok
  exact ⟨_, hrec.linearizes ⟨s.state.data, hrun.inTurn⟩⟩

end Monitor
