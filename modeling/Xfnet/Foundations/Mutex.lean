import Mathlib.Data.Option.Basic

/-!
# Who holds a mutex

The place of a thread in its code says whether it is inside a critical section. `Guarded` says that
the holder of the mutex is the one that is inside, and nobody is when the mutex is free. There is
one rule for each thing that a step can do to it.
-/

namespace Mutex

variable {K : Type*} {holder : Option K} {inside inside' : K → Bool} {j k : K}

/-- The holder is who is inside. -/
def Guarded (holder : Option K) (inside : K → Bool) : Prop :=
  ∀ k, holder = some k ↔ inside k = true

namespace Guarded

theorem holder_eq (h : Guarded holder inside) (hk : inside k = true) : holder = some k :=
  (h k).mpr hk

/-- **Mutual exclusion.** -/
theorem eq_of_inside (h : Guarded holder inside) (hj : inside j = true) (hk : inside k = true) :
    j = k :=
  Option.some.inj ((h.holder_eq hj).symm.trans (h.holder_eq hk))

theorem acquire (h : Guarded holder inside) (hfree : holder = none) (hk : inside' k = true)
    (hothers : ∀ j, j ≠ k → inside' j = inside j) : Guarded (some k) inside' := by
  subst hfree
  intro j
  constructor
  · rintro ⟨⟩
    exact hk
  · intro hj
    by_contra hne
    have hjk : j ≠ k := fun e => hne (congrArg some e.symm)
    rw [hothers j hjk] at hj
    cases h.holder_eq hj

theorem release (h : Guarded holder inside) (hin : inside k = true) (hk : inside' k = false)
    (hothers : ∀ j, j ≠ k → inside' j = inside j) : Guarded none inside' := by
  intro j
  refine ⟨nofun, fun hj => ?_⟩
  by_cases hjk : j = k
  · rw [hjk, hk] at hj
    cases hj
  · rw [hothers j hjk] at hj
    exact absurd (h.eq_of_inside hj hin) hjk

theorem keep (h : Guarded holder inside) (hsame : ∀ j, inside' j = inside j) :
    Guarded holder inside' := fun j => (h j).trans (by rw [hsame j])

end Guarded

end Mutex
