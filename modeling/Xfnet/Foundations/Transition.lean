import Mathlib.Logic.Relation
import Mathlib.Data.Option.Basic

/-!
# Labelled transition systems

A system is a set of initial states and a partial function that takes a state and a label to the
next state. The label carries every choice the environment makes at a step (which thread moves,
what a system call answers), so the step itself is a function and a run can be computed
(`System.exec`).

Results about runs are stated for runs under a condition: `System.Reachable M C s` says that `s`
is reached by steps that all meet `C`, a predicate on the state before the step and its label.
With `C = Free` these are all runs. An invariant is proved once, by `System.Reachable.invariant`,
from what one step preserves, and `System.history` is the rule for an invariant that speaks of the
labels of the run too; `Refines` carries reachability along a map of states.
-/

namespace Transition

universe u v w x

/-- A transition system: where runs start, and the step a label stands for. -/
structure System (σ : Type u) (ℓ : Type v) where
  init : σ → Prop
  next : σ → ℓ → Option σ

/-- The condition every step meets. -/
def Free {σ : Type u} {ℓ : Type v} : σ → ℓ → Prop := fun _ _ => True

instance {σ : Type u} {ℓ : Type v} (s : σ) (l : ℓ) : Decidable (Free s l) := isTrue trivial

namespace System

variable {σ : Type u} {ℓ : Type v} (M : System σ ℓ) (C : σ → ℓ → Prop)

/-- The state after a list of labels, when every one of them is possible and meets `C`. -/
def exec [∀ s l, Decidable (C s l)] : σ → List ℓ → Option σ
  | s, [] => some s
  | s, l :: ls => if C s l then (M.next s l).bind fun s' => exec s' ls else none

/-- States reached from an initial one by steps that all meet `C`. -/
inductive Reachable : σ → Prop
  | start {s : σ} : M.init s → Reachable s
  | step {s : σ} {l : ℓ} {s' : σ} : Reachable s → C s l → M.next s l = some s' → Reachable s'

variable {M C}

/-- **Computed runs**: a relation that every step extends to the left holds between the ends. -/
theorem exec_rel [∀ s l, Decidable (C s l)] {R : σ → σ → Prop} (hrefl : ∀ s, R s s)
    (hstep : ∀ s l s₁ s', C s l → M.next s l = some s₁ → R s₁ s' → R s s') {s s' : σ} {ls : List ℓ}
    (he : M.exec C s ls = some s') : R s s' := by
  induction ls generalizing s with
  | nil =>
    obtain rfl : s = s' := by simpa [System.exec] using he
    exact hrefl s
  | cons l ls ih =>
    obtain ⟨hc, he⟩ := Option.ite_none_right_eq_some.mp he
    obtain ⟨s₁, hn, hrest⟩ := Option.bind_eq_some_iff.mp he
    exact hstep s l s₁ s' hc hn (ih hrest)

namespace Reachable

/-- **Invariants of a run**: what holds at the start and is preserved by every step from a
reachable state holds in every reachable state. -/
theorem invariant {I : σ → Prop} (h₀ : ∀ s, M.init s → I s)
    (hstep : ∀ s l s', M.Reachable C s → I s → C s l → M.next s l = some s' → I s')
    {s : σ} (h : M.Reachable C s) : I s := by
  induction h with
  | start hi => exact h₀ _ hi
  | step hr hc hn ih => exact hstep _ _ _ hr ih hc hn

/-- Steps that meet one condition from reachable states may be known to meet another. -/
theorem of_steps {D : σ → ℓ → Prop}
    (hCD : ∀ s l s', M.Reachable C s → C s l → M.next s l = some s' → D s l) {s : σ}
    (h : M.Reachable C s) : M.Reachable D s := by
  induction h with
  | start hi => exact .start hi
  | step hr hc hn ih => exact .step ih (hCD _ _ _ hr hc hn) hn

theorem mono {D : σ → ℓ → Prop} (hCD : ∀ s l, C s l → D s l) {s : σ} (h : M.Reachable C s) :
    M.Reachable D s := h.of_steps fun s l _ _ hc _ => hCD s l hc

theorem free {s : σ} (h : M.Reachable C s) : M.Reachable Free s := h.mono fun _ _ _ => trivial

/-- Runs that start from states that another system with the same steps reaches. -/
theorem of_init {N : System σ ℓ} (hinit : ∀ s, N.init s → M.Reachable C s)
    (hnext : N.next = M.next) {s : σ} (h : N.Reachable C s) : M.Reachable C s := by
  induction h with
  | start hi => exact hinit _ hi
  | step hr hc hn ih => exact .step ih hc (hnext ▸ hn)

/-- A computed run stays among the reachable states. -/
theorem exec [∀ s l, Decidable (C s l)] {s s' : σ} {ls : List ℓ} (h : M.Reachable C s)
    (he : M.exec C s ls = some s') : M.Reachable C s' := by
  refine exec_rel (R := fun s s' => M.Reachable C s → M.Reachable C s') (fun s => id) ?_ he h
  intro s l s₁ s' hc hn hrest hs
  exact hrest (.step hs hc hn)

end Reachable

/-- A computed run from an initial state. -/
theorem reachable_of_exec [∀ s l, Decidable (C s l)] {s s' : σ} {ls : List ℓ} (hi : M.init s)
    (he : M.exec C s ls = some s') : M.Reachable C s' :=
  (Reachable.start hi).exec he

/-- **Invariants of a run and its history**: `I ls s` speaks of the labels `ls` that led to `s`. -/
theorem history [∀ s l, Decidable (C s l)] {I : List ℓ → σ → Prop} {s₀ : σ} (hi : M.init s₀)
    (h₀ : I [] s₀)
    (hstep : ∀ ls s l s', M.Reachable C s → I ls s → C s l → M.next s l = some s' →
      I (ls ++ [l]) s')
    {ls : List ℓ} {s : σ} (he : M.exec C s₀ ls = some s) : I ls s := by
  have hrest : ∀ (ls done : List ℓ) (t : σ), M.Reachable C t → I done t →
      M.exec C t ls = some s → I (done ++ ls) s := by
    intro ls
    induction ls with
    | nil =>
      intro done t _ hI he
      obtain rfl : t = s := by simpa [System.exec] using he
      rwa [List.append_nil]
    | cons l ls ih =>
      intro done t hr hI he
      obtain ⟨hc, he⟩ := Option.ite_none_right_eq_some.mp he
      obtain ⟨t', hn, he⟩ := Option.bind_eq_some_iff.mp he
      rw [List.append_cons]
      exact ih (done ++ [l]) t' (.step hr hc hn) (hstep done t l t' hr hI hc hn) he
  exact hrest ls [] s₀ (.start hi) h₀ he

end System

/-! ## Refinement -/

/-- `M` refines `N` along `f`: every step of `M` from a reachable state is, through `f`, a step of
`N` or none at all. -/
structure Refines {σ : Type u} {ℓ : Type v} {τ : Type w} {κ : Type x} (M : System σ ℓ)
    (C : σ → ℓ → Prop) (N : System τ κ) (D : τ → κ → Prop) (f : σ → τ) : Prop where
  init : ∀ s, M.init s → N.init (f s)
  step : ∀ s l s', M.Reachable C s → C s l → M.next s l = some s' →
    f s' = f s ∨ ∃ k, D (f s) k ∧ N.next (f s) k = some (f s')

/-- **Refinement carries reachability**, and with it every invariant of `N`. -/
theorem Refines.reachable {σ : Type u} {ℓ : Type v} {τ : Type w} {κ : Type x} {M : System σ ℓ}
    {C : σ → ℓ → Prop} {N : System τ κ} {D : τ → κ → Prop} {f : σ → τ} (h : Refines M C N D f)
    {s : σ} (hs : M.Reachable C s) : N.Reachable D (f s) := by
  induction hs with
  | start hi => exact .start (h.init _ hi)
  | @step s l s' hr hc hn ih =>
    rcases h.step s l s' hr hc hn with e | ⟨k, hk, hn'⟩
    · exact e ▸ ih
    · exact .step ih hk hn'

end Transition
