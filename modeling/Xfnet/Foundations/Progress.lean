import Mathlib.Data.Nat.Notation
import Mathlib.Order.Nat
import Xfnet.Foundations.Transition

/-!
# Steps that a run can make

Where every step of some kind lowers a rank and no step raises it, a run makes no more steps of that
kind than the rank it starts with (`tally_add_le`), however many others it makes in between.
-/

namespace Transition.System

variable {σ ℓ : Type*} {M : System σ ℓ} {C : σ → ℓ → Prop}

/-- How many of the steps, taken from `s` on, are of the kind `p`. -/
def tally (M : System σ ℓ) (p : σ → ℓ → Bool) : σ → List ℓ → ℕ
  | _, [] => 0
  | s, l :: ls => (if p s l then 1 else 0) + ((M.next s l).map fun s' => M.tally p s' ls).getD 0

/-- **The rank bounds the steps** of a run through states that satisfy `I`. -/
theorem tally_add_le [∀ s l, Decidable (C s l)] {p : σ → ℓ → Bool} {I : σ → Prop} {f : σ → ℕ}
    (hstep : ∀ s l s', I s → C s l → M.next s l = some s' →
      I s' ∧ f s' + (if p s l then 1 else 0) ≤ f s)
    {s s' : σ} {ls : List ℓ} (hI : I s) (he : M.exec C s ls = some s') :
    I s' ∧ M.tally p s ls + f s' ≤ f s := by
  induction ls generalizing s with
  | nil =>
    obtain rfl : s = s' := by simpa [System.exec] using he
    exact ⟨hI, (Nat.zero_add _).le⟩
  | cons l ls ih =>
    obtain ⟨hc, he⟩ := Option.ite_none_right_eq_some.mp he
    obtain ⟨s₁, hn, hrest⟩ := Option.bind_eq_some_iff.mp he
    obtain ⟨hI₁, hle⟩ := hstep s l s₁ hI hc hn
    obtain ⟨hI', htally⟩ := ih hI₁ hrest
    refine ⟨hI', ?_⟩
    rw [tally, hn, Option.map_some, Option.getD_some]
    omega

end Transition.System
