import Xfnet.Foundations.Transition

/-!
# Loops driven by the environment

The loop of a function that makes one system call in each iteration: the environment answers the
call with an event, and the body goes on, returns, or fails an assertion. `Loop.allows` is the
rule the environment keeps, `Loop.body` is the code.

* `Loop.step` runs one iteration, which is the unit other threads can interleave with.
* `Loop.call` runs one call of the function on the events of that call, `Loop.calls` a sequence of
  calls, each resumed in the state the call before it left.
* `Loop.resumable` is the transition system of one caller that resumes the function for as long as
  the result asks for it, `Loop.after` where that caller is after a list of steps.

`Loop.Spec` is the invariant rule: what the body preserves holds at every return of every call.
-/

namespace Loops

universe u v w

/-- What one iteration does: go on, return a result, or fail an assertion. -/
inductive Flow (σ : Type u) (ρ : Type w)
  | next (s : σ)
  | ret (r : ρ) (s : σ)
  | abort
  deriving DecidableEq

/-- An activation of the function: in its loop, returned, or ended by a failed assertion. -/
inductive Act (σ : Type u) (ρ : Type w)
  | running (s : σ)
  | returned (r : ρ) (s : σ)
  | aborted
  deriving DecidableEq

/-- What the function returned, when it has. -/
def Act.result {σ : Type u} {ρ : Type w} : Act σ ρ → Option ρ
  | .returned r _ => some r
  | _ => none

theorem Act.result_eq_some {σ : Type u} {ρ : Type w} {a : Act σ ρ} {r : ρ} :
    a.result = some r ↔ ∃ s, a = .returned r s := by
  cases a <;> simp [result, eq_comm]

/-- A loop `while (guard) body; return done`, whose body is driven by the events of `ε`. -/
structure Loop (σ : Type u) (ε : Type v) (ρ : Type w) where
  guard : σ → Bool
  done : ρ
  allows : σ → ε → Bool
  body : σ → ε → Flow σ ρ

namespace Loop

variable {σ : Type u} {ε : Type v} {ρ : Type w} (L : Loop σ ε ρ)

/-- Evaluate the guard: enter the body once more, or leave the loop. -/
def enter (s : σ) : Act σ ρ := if L.guard s then .running s else .returned L.done s

/-- The activation after an iteration. -/
def settle : Flow σ ρ → Act σ ρ
  | .next s => L.enter s
  | .ret r s => .returned r s
  | .abort => .aborted

/-- One iteration, on an event the environment may answer with. -/
def step : Act σ ρ → ε → Option (Act σ ρ)
  | .running s, e => if L.allows s e then some (L.settle (L.body s e)) else none
  | _, _ => none

/-- The iterations of a list of events. -/
def feed : Act σ ρ → List ε → Option (Act σ ρ)
  | a, [] => some a
  | a, e :: es => (L.step a e).bind fun a' => feed a' es

/-- One call of the function. -/
def call (s : σ) (es : List ε) : Option (Act σ ρ) := L.feed (L.enter s) es

/-- A sequence of calls that all return: each is made in the state the one before it left, and
every result but the last asks for another call. -/
def calls (again : ρ → Bool) : σ → List (List ε) → Option (List (ρ × σ))
  | _, [] => some []
  | s, es :: rest =>
    match L.call s es with
    | some (.returned r s') =>
      if again r || rest.isEmpty then (calls again s' rest).map ((r, s') :: ·) else none
    | _ => none

/-- One caller that resumes the function while its result asks for it. `none` resumes. -/
def resumable (again : ρ → Bool) (s₀ : σ) : Transition.System (Act σ ρ) (Option ε) where
  init a := a = L.enter s₀
  next
    | a, some e => L.step a e
    | .returned r s, none => if again r then some (L.enter s) else none
    | _, none => none

/-- Where such a caller is after the steps `ls`. -/
def after (again : ρ → Bool) (s₀ : σ) (ls : List (Option ε)) : Option (Act σ ρ) :=
  (L.resumable again s₀).exec Transition.Free (L.enter s₀) ls

/-- The loop among events of which the code sees only a part, with a rule about the whole. -/
def observed {κ : Type*} (see : κ → ε) (rule : σ → κ → Bool) : Loop σ κ ρ where
  guard := L.guard
  done := L.done
  allows s e := L.allows s (see e) && rule s e
  body s e := L.body s (see e)

variable {L}

theorem enter_of_guard {s : σ} (h : L.guard s = true) : L.enter s = .running s := by
  simp [enter, h]

theorem enter_of_not_guard {s : σ} (h : L.guard s = false) : L.enter s = .returned L.done s := by
  simp [enter, h]

/-- An activation that is in its loop went on. -/
theorem settle_running {f : Flow σ ρ} {s : σ} (h : L.settle f = .running s) : f = .next s := by
  cases f with
  | next s' =>
    simp only [settle, enter] at h
    split at h
    · cases h
      rfl
    · cases h
  | ret r s' => cases h
  | abort => cases h

/-- An activation that has just returned left the loop by its guard or by its body. -/
theorem settle_returned {f : Flow σ ρ} {r : ρ} {s : σ} (h : L.settle f = .returned r s) :
    (r = L.done ∧ f = .next s) ∨ f = .ret r s := by
  cases f with
  | next s' =>
    simp only [settle, enter] at h
    split at h
    · cases h
    · cases h
      exact .inl ⟨rfl, rfl⟩
  | ret r' s' =>
    cases h
    exact .inr rfl
  | abort => cases h

theorem step_running {s : σ} {e : ε} {a : Act σ ρ} (h : L.step (.running s) e = some a) :
    L.allows s e = true ∧ a = L.settle (L.body s e) := by
  simp only [step, Option.ite_none_right_eq_some, Option.some.injEq] at h
  exact ⟨h.1, h.2.symm⟩

@[simp] theorem feed_nil (a : Act σ ρ) : L.feed a [] = some a := rfl

theorem feed_cons {a b : Act σ ρ} {e : ε} {es : List ε} (h : L.feed a (e :: es) = some b) :
    ∃ a', L.step a e = some a' ∧ L.feed a' es = some b := by
  rwa [feed, Option.bind_eq_some_iff] at h

theorem feed_append (a : Act σ ρ) (es es' : List ε) :
    L.feed a (es ++ es') = (L.feed a es).bind fun b => L.feed b es' := by
  induction es generalizing a with
  | nil => rfl
  | cons e es ih => simp only [List.cons_append, feed, Option.bind_assoc, ih]

/-- A returned activation takes no more events. -/
theorem feed_returned {r : ρ} {s : σ} {es : List ε} {b : Act σ ρ}
    (h : L.feed (.returned r s) es = some b) : es = [] ∧ b = .returned r s := by
  cases es with
  | nil => exact ⟨rfl, by simpa using h.symm⟩
  | cons e es =>
    obtain ⟨a', hstep, -⟩ := feed_cons h
    simp [step] at hstep

/-- Events that follow an iteration find the loop at its body again. -/
theorem feed_settle {f : Flow σ ρ} {es : List ε} {b : Act σ ρ}
    (h : L.feed (L.settle f) es = some b) :
    es = [] ∨ ∃ s, f = .next s ∧ L.guard s = true ∧ L.feed (.running s) es = some b := by
  cases f with
  | next s =>
    rw [settle] at h
    cases hg : L.guard s with
    | true => exact .inr ⟨s, rfl, hg, enter_of_guard hg ▸ h⟩
    | false => exact .inl (feed_returned (enter_of_not_guard hg ▸ h)).1
  | ret r s => exact .inl (feed_returned h).1
  | abort =>
    cases es with
    | nil => exact .inl rfl
    | cons e es =>
      obtain ⟨a', hstep, -⟩ := feed_cons h
      cases hstep

/-- A call whose first event makes the body return. -/
theorem call_of_ret {s s' : σ} {e : ε} {r : ρ} (hg : L.guard s = true)
    (hallow : L.allows s e = true) (hb : L.body s e = .ret r s') :
    L.call s [e] = some (.returned r s') := by
  rw [call, enter_of_guard hg, feed, step, if_pos hallow, hb]
  rfl

theorem calls_cons {again : ρ → Bool} {s : σ} {es : List ε} {rest : List (List ε)}
    {rs : List (ρ × σ)} (h : L.calls again s (es :: rest) = some rs) :
    ∃ r s' rs', L.call s es = some (.returned r s') ∧ (again r = true ∨ rest = []) ∧
      L.calls again s' rest = some rs' ∧ rs = (r, s') :: rs' := by
  rw [calls] at h
  split at h
  · next r s' hcall =>
    split at h
    · next hagain =>
      obtain ⟨rs', hrest, rfl⟩ := Option.map_eq_some_iff.mp h
      exact ⟨r, s', rs', hcall, by simpa using hagain, hrest, rfl⟩
    · simp at h
  · simp at h

/-- The event is one on which the body can go on. -/
def GoesOn (L : Loop σ ε ρ) (e : ε) : Prop := ∃ s s', L.body s e = .next s'

/-- **Where a result comes from**: the guard failed at the end, or the last event made the body
return; the body went on with every event before. `I` is what these iterations keep. -/
theorem returned_of_feed {I : σ → Prop}
    (hI : ∀ s e s', I s → L.guard s = true → L.allows s e = true → L.body s e = .next s' → I s')
    {s s' : σ} {es : List ε} {r : ρ} (hs : I s)
    (h : L.feed (L.enter s) es = some (.returned r s')) :
    (r = L.done ∧ I s' ∧ L.guard s' = false ∧ ∀ e ∈ es, L.GoesOn e) ∨
      ∃ es' e s₁, es = es' ++ [e] ∧ I s₁ ∧ L.guard s₁ = true ∧ L.allows s₁ e = true ∧
        L.body s₁ e = .ret r s' ∧ ∀ e ∈ es', L.GoesOn e := by
  induction es generalizing s with
  | nil =>
    cases hg : L.guard s with
    | true => simp [enter_of_guard hg] at h
    | false =>
      rw [enter_of_not_guard hg, feed_nil] at h
      cases h
      exact .inl ⟨rfl, hs, hg, nofun⟩
  | cons e es ih =>
    obtain ⟨a, hstep, hrest⟩ := feed_cons h
    cases hg : L.guard s with
    | false => simp [enter_of_not_guard hg, step] at hstep
    | true =>
      rw [enter_of_guard hg] at hstep
      obtain ⟨hallow, rfl⟩ := step_running hstep
      cases hb : L.body s e with
      | next s₁ =>
        rw [hb] at hrest
        have hon : L.GoesOn e := ⟨s, s₁, hb⟩
        rcases ih (hI s e s₁ hs hg hallow hb) hrest with
          ⟨hr, hs', hg', hall⟩ | ⟨es', e', s₂, rfl, hs₂, hg₂, hallow₂, hb₂, hall⟩
        · exact .inl ⟨hr, hs', hg', List.forall_mem_cons.mpr ⟨hon, hall⟩⟩
        · exact .inr ⟨e :: es', e', s₂, rfl, hs₂, hg₂, hallow₂, hb₂,
            List.forall_mem_cons.mpr ⟨hon, hall⟩⟩
      | ret r' s₁ =>
        rw [hb] at hrest
        obtain ⟨rfl, hret⟩ := feed_returned hrest
        cases hret
        exact .inr ⟨[], e, s, rfl, hs, hg, hallow, hb, nofun⟩
      | abort =>
        rw [hb] at hrest
        cases es with
        | nil => cases hrest
        | cons e es =>
          obtain ⟨a', hstep', -⟩ := feed_cons hrest
          cases hstep'

/-- The body went on with every event that another one follows. -/
theorem goesOn_of_feed {a b : Act σ ρ} {es : List ε} {e : ε}
    (h : L.feed a (es ++ [e]) = some b) : ∀ e' ∈ es, L.GoesOn e' := by
  induction es generalizing a with
  | nil => nofun
  | cons e₀ es ih =>
    obtain ⟨a', hstep, hrest⟩ := feed_cons h
    refine List.forall_mem_cons.mpr ⟨?_, ih hrest⟩
    cases a with
    | running s =>
      obtain ⟨-, rfl⟩ := step_running hstep
      cases hb : L.body s e₀ with
      | next s' => exact ⟨s, s', hb⟩
      | ret r s' =>
        rw [hb] at hrest
        exact absurd (feed_returned hrest).1 (by simp)
      | abort =>
        rw [hb, settle, feed.eq_def] at hrest
        cases es <;> cases hrest
    | returned r s => cases hstep
    | aborted => cases hstep

/-- The same for one call, of which nothing else is known. -/
theorem returned_of_call {s s' : σ} {es : List ε} {r : ρ}
    (h : L.call s es = some (.returned r s')) :
    (r = L.done ∧ ∀ e ∈ es, L.GoesOn e) ∨ ∃ es' e s₁, es = es' ++ [e] ∧ L.guard s₁ = true ∧
      L.allows s₁ e = true ∧ L.body s₁ e = .ret r s' ∧ ∀ e ∈ es', L.GoesOn e := by
  have hI : ∀ s e s', True → L.guard s = true → L.allows s e = true →
      L.body s e = .next s' → True := fun _ _ _ _ _ _ _ => trivial
  rcases returned_of_feed hI trivial h with
    ⟨hr, -, -, hall⟩ | ⟨es', e, s₁, hes, -, hg, hallow, hb, hall⟩
  · exact .inl ⟨hr, hall⟩
  · exact .inr ⟨es', e, s₁, hes, hg, hallow, hb, hall⟩

section Observed

variable {κ : Type*} {see : κ → ε} {rule : κ → Bool}

theorem observed_settle (f : Flow σ ρ) :
    (L.observed see fun _ => rule).settle f = L.settle f := by
  cases f <;> rfl

theorem observed_step (a : Act σ ρ) (e : κ) :
    (L.observed see fun _ => rule).step a e = if rule e then L.step a (see e) else none := by
  cases a with
  | running s =>
    simp only [step, observed_settle]
    simp only [observed, Bool.and_eq_true]
    cases rule e <;> simp
  | returned r s => simp [step]
  | aborted => simp [step]

/-- A rule about single events only selects among the lists of events. -/
theorem observed_feed {a b : Act σ ρ} {es : List κ} :
    (L.observed see fun _ => rule).feed a es = some b ↔
      L.feed a (es.map see) = some b ∧ ∀ e ∈ es, rule e = true := by
  induction es generalizing a with
  | nil => simp
  | cons e es ih =>
    rw [feed, observed_step, List.map_cons, feed, List.forall_mem_cons]
    cases hr : rule e with
    | false => simp
    | true =>
      cases hs : L.step a (see e) with
      | none => simp
      | some a' => simpa using ih

theorem observed_call {s : σ} {b : Act σ ρ} {es : List κ} :
    (L.observed see fun _ => rule).call s es = some b ↔
      L.call s (es.map see) = some b ∧ ∀ e ∈ es, rule e = true := observed_feed

end Observed

/-! ## The invariant rule -/

/-- `I` holds of the states inside the loop, `Q` of every result with the state it leaves. -/
def Holds (I : σ → Prop) (Q : ρ → σ → Prop) : Act σ ρ → Prop
  | .running s => I s
  | .returned r s => Q r s
  | .aborted => False

/-- The body keeps `I` on every event the environment allows, and returns only with `Q`. -/
structure Spec (L : Loop σ ε ρ) (I : σ → Prop) (Q : ρ → σ → Prop) : Prop where
  done : ∀ s, I s → L.guard s = false → Q L.done s
  next : ∀ s e s', I s → L.guard s = true → L.allows s e = true → L.body s e = .next s' → I s'
  ret : ∀ s e r s', I s → L.guard s = true → L.allows s e = true → L.body s e = .ret r s' → Q r s'
  safe : ∀ s e, I s → L.guard s = true → L.allows s e = true → L.body s e ≠ .abort

namespace Spec

variable {I : σ → Prop} {Q : ρ → σ → Prop}

/-- The states inside the loop also meet the guard. -/
def Inside (L : Loop σ ε ρ) (I : σ → Prop) (s : σ) : Prop := I s ∧ L.guard s = true

theorem enter (h : L.Spec I Q) {s : σ} (hs : I s) : Holds (Inside L I) Q (L.enter s) := by
  cases hg : L.guard s with
  | true => rw [enter_of_guard hg]; exact ⟨hs, hg⟩
  | false => rw [enter_of_not_guard hg]; exact h.done s hs hg

theorem step (h : L.Spec I Q) {a a' : Act σ ρ} {e : ε} (ha : Holds (Inside L I) Q a)
    (hstep : L.step a e = some a') : Holds (Inside L I) Q a' := by
  cases a with
  | running s =>
    obtain ⟨hallow, rfl⟩ := step_running hstep
    cases hb : L.body s e with
    | next s' => exact h.enter (h.next s e s' ha.1 ha.2 hallow hb)
    | ret r s' => exact h.ret s e r s' ha.1 ha.2 hallow hb
    | abort => exact absurd hb (h.safe s e ha.1 ha.2 hallow)
  | returned r s => simp [Loop.step] at hstep
  | aborted => exact ha.elim

theorem feed (h : L.Spec I Q) {a b : Act σ ρ} {es : List ε} (ha : Holds (Inside L I) Q a)
    (hfeed : L.feed a es = some b) : Holds (Inside L I) Q b := by
  induction es generalizing a with
  | nil =>
    obtain rfl : a = b := by simpa using hfeed
    exact ha
  | cons e es ih =>
    obtain ⟨a', hstep, hrest⟩ := feed_cons hfeed
    exact ih (h.step ha hstep) hrest

/-- **What a call returns.** -/
theorem call (h : L.Spec I Q) {s s' : σ} {es : List ε} {r : ρ} (hs : I s)
    (hcall : L.call s es = some (.returned r s')) : Q r s' :=
  h.feed (h.enter hs) hcall

/-- **What a sequence of calls returns.** -/
theorem calls (h : L.Spec I Q) {again : ρ → Bool} (hagain : ∀ r s, Q r s → again r = true → I s)
    {s : σ} (hs : I s) {scripts : List (List ε)} {rs : List (ρ × σ)}
    (hcalls : L.calls again s scripts = some rs) : ∀ p ∈ rs, Q p.1 p.2 := by
  induction scripts generalizing s rs with
  | nil =>
    obtain rfl : rs = [] := by simpa [Loop.calls] using hcalls.symm
    simp
  | cons es rest ih =>
    obtain ⟨r, s', rs', hcall, hnext, hrest, rfl⟩ := calls_cons hcalls
    have hr : Q r s' := h.call hs hcall
    refine List.forall_mem_cons.mpr ⟨hr, ?_⟩
    rcases hnext with hnext | rfl
    · exact ih (hagain r s' hr hnext) hrest
    · obtain rfl : rs' = [] := by simpa [Loop.calls] using hrest.symm
      simp

/-- **What a caller sees** in every state of every sequence of resumed calls. -/
theorem resumable (h : L.Spec I Q) {again : ρ → Bool}
    (hagain : ∀ r s, Q r s → again r = true → I s) {s₀ : σ} (h₀ : I s₀) {a : Act σ ρ}
    (ha : (L.resumable again s₀).Reachable Transition.Free a) : Holds (Inside L I) Q a := by
  refine Transition.System.Reachable.invariant (I := Holds (Inside L I) Q) ?_ ?_ ha
  · rintro _ rfl
    exact h.enter h₀
  · intro a l a' _ hI _ hn
    cases l with
    | some e => exact h.step hI hn
    | none =>
      cases a with
      | returned r s =>
        simp only [Loop.resumable, Option.ite_none_right_eq_some, Option.some.injEq] at hn
        obtain ⟨hr, rfl⟩ := hn
        exact h.enter (hagain r s hI hr)
      | running s => simp [Loop.resumable] at hn
      | aborted => exact hI.elim

end Spec

end Loop

end Loops
