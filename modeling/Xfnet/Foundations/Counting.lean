import Mathlib.Algebra.BigOperators.Group.Finset.Piecewise
import Mathlib.Data.Fintype.Card

/-!
# Counting over a finite type

Sums and counts over a finite type when one value changes.
-/

namespace Counting

variable {T : Type*}

theorem forall_update [DecidableEq T] {β : Type*} {Q : T → β → Prop} {f : T → β} {t : T} {b : β}
    (hf : ∀ u, Q u (f u)) (hb : Q t b) : ∀ u, Q u (Function.update f t b u) := by
  intro u
  by_cases hut : u = t
  · subst hut
    rwa [Function.update_self]
  · rw [Function.update_of_ne hut]
    exact hf u

variable [Fintype T]

/-- The number of elements that satisfy `p`. -/
def count (p : T → Prop) [DecidablePred p] : ℕ := (Finset.univ.filter p).card

/-- Two families that differ on `t` at most have the same sum without it. -/
theorem sum_agree [DecidableEq T] {M : Type*} [AddCommMonoid M] {f g : T → M} (t : T)
    (h : ∀ u, u ≠ t → g u = f u) : (∑ u, g u) + f t = (∑ u, f u) + g t := by
  have hrest : ∑ u ∈ Finset.univ.erase t, g u = ∑ u ∈ Finset.univ.erase t, f u :=
    Finset.sum_congr rfl fun u hu => h u (Finset.ne_of_mem_erase hu)
  calc (∑ u, g u) + f t
      = (g t + ∑ u ∈ Finset.univ.erase t, g u) + f t := by
        rw [Finset.add_sum_erase _ _ (Finset.mem_univ t)]
    _ = (f t + ∑ u ∈ Finset.univ.erase t, f u) + g t := by
        rw [hrest, add_right_comm, add_comm (g t), add_right_comm, add_right_comm]
    _ = (∑ u, f u) + g t := by rw [Finset.add_sum_erase _ _ (Finset.mem_univ t)]

theorem count_agree [DecidableEq T] {p q : T → Prop} [DecidablePred p] [DecidablePred q] (t : T)
    (h : ∀ u, u ≠ t → (q u ↔ p u)) :
    count q + (if p t then 1 else 0) = count p + (if q t then 1 else 0) := by
  unfold count
  rw [Finset.card_filter, Finset.card_filter]
  exact sum_agree t fun u hu => if_congr (h u hu) rfl rfl

theorem count_congr {p q : T → Prop} [DecidablePred p] [DecidablePred q] (h : ∀ u, q u ↔ p u) :
    count q = count p := by
  unfold count
  exact congrArg Finset.card (Finset.filter_congr fun u _ => h u)

theorem count_update [DecidableEq T] {β : Type*} (p : β → Prop) [DecidablePred p] (f : T → β)
    (t : T) (b : β) :
    count (fun u => p (Function.update f t b u)) + (if p (f t) then 1 else 0) =
      count (fun u => p (f u)) + (if p b then 1 else 0) := by
  have h := count_agree (p := fun u => p (f u)) (q := fun u => p (Function.update f t b u)) t
    fun u hu => by rw [Function.update_of_ne hu]
  simpa using h

/-- All elements are counted only if all satisfy `p`. -/
theorem forall_of_card_le_count {p : T → Prop} [DecidablePred p] (h : Fintype.card T ≤ count p) :
    ∀ t, p t := by
  intro t
  have huniv : Finset.univ.filter p = Finset.univ :=
    Finset.eq_univ_of_card _ (le_antisymm (Finset.card_le_univ _) h)
  exact (Finset.mem_filter.mp (huniv ▸ Finset.mem_univ t)).2

theorem count_of_forall_not {p : T → Prop} [DecidablePred p] (h : ∀ t, ¬p t) : count p = 0 := by
  unfold count
  rw [Finset.filter_false_of_mem fun t _ => h t, Finset.card_empty]

theorem count_pos {p : T → Prop} [DecidablePred p] {t : T} (h : p t) : 0 < count p :=
  Finset.card_pos.mpr ⟨t, Finset.mem_filter.mpr ⟨Finset.mem_univ t, h⟩⟩

theorem count_of_forall {p : T → Prop} [DecidablePred p] (h : ∀ t, p t) :
    count p = Fintype.card T := by
  unfold count
  rw [Finset.filter_true_of_mem fun t _ => h t, Finset.card_univ]

end Counting
