import Mathlib.Data.Int.CardIntervalMod
import Mathlib.Tactic.Ring

/-!
# Round robin by a wrapping counter

A counter that wraps at `W` chooses among `n` places by its value modulo `n`. Before the first
wrap the places are chosen in turn. At a wrap that does not end a turn the first places are chosen
again: the choices stay even exactly as long as `Even` says (`balanced_iff`).
-/

namespace RoundRobin

variable {n W k : ℕ}

/-- How often place `i` is chosen by the first `k` values of the counter. -/
def hits (n W k i : ℕ) : ℕ := k.count fun j => j % W % n = i

/-- No place is chosen two times more than another. -/
def Balanced (n W k : ℕ) : Prop := ∀ i < n, ∀ j < n, hits n W k i ≤ hits n W k j + 1

/-- A wrap ends a turn, or there is none, or there is one and a turn ends now. -/
def Even (n W k : ℕ) : Prop := n ∣ W ∨ k < W ∨ (k / W = 1 ∧ n ∣ k % W)

instance (n W k : ℕ) : Decidable (Even n W k) := inferInstanceAs (Decidable (_ ∨ _ ∨ _ ∧ _))

/-- Place `i` is among the first of a turn that are chosen once more. -/
def extra (i r : ℕ) : ℕ := if i < r then 1 else 0

theorem extra_le_one (i r : ℕ) : extra i r ≤ 1 := by
  unfold extra
  split <;> omega

theorem extra_of_lt {i r : ℕ} (h : i < r) : extra i r = 1 := if_pos h

theorem extra_of_le {i r : ℕ} (h : r ≤ i) : extra i r = 0 := if_neg (not_lt.mpr h)

/-- Before the first wrap. -/
theorem hits_of_le {i : ℕ} (hi : i < n) (hk : k ≤ W) : hits n W k i = k / n + extra i (k % n) := by
  have hcount := Nat.count_modEq_card k (Nat.zero_lt_of_lt hi) i
  rw [Nat.mod_eq_of_lt hi] at hcount
  rw [extra, ← hcount, hits, Nat.count_eq_card_filter_range, Nat.count_eq_card_filter_range]
  refine congrArg Finset.card (Finset.filter_congr fun j hj => ?_)
  rw [Nat.mod_eq_of_lt ((Finset.mem_range.mp hj).trans_le hk), Nat.ModEq, Nat.mod_eq_of_lt hi]

/-- Every period of the counter makes the same choices. -/
theorem hits_add_mul (q m i : ℕ) : hits n W (q * W + m) i = q * hits n W W i + hits n W m i := by
  induction q with
  | zero => rw [Nat.zero_mul, Nat.zero_mul, Nat.zero_add, Nat.zero_add]
  | succ q ih =>
    have hperiod : hits n W (W + (q * W + m)) i = hits n W W i + hits n W (q * W + m) i := by
      unfold hits
      rw [Nat.count_add]
      simp only [Nat.add_mod_left]
    calc hits n W ((q + 1) * W + m) i
        = hits n W (W + (q * W + m)) i := by
          rw [Nat.succ_mul, Nat.add_comm (q * W) W, Nat.add_assoc]
      _ = (q + 1) * hits n W W i + hits n W m i := by
        rw [hperiod, ih]
        ring

/-- **The choices after any number of wraps**: what all places have in common, once more for the
places at the start of a turn in each period, and once more for those of the turn in progress. -/
theorem hits_eq {i : ℕ} (hi : i < n) (hW : 0 < W) : hits n W k i =
    k / W * (W / n) + k % W / n + (k / W * extra i (W % n) + extra i (k % W % n)) := by
  have hsplit : k / W * W + k % W = k := Nat.div_add_mod' k W
  calc hits n W k i
      = k / W * hits n W W i + hits n W (k % W) i := by rw [← hits_add_mul, hsplit]
    _ = _ := by
      rw [hits_of_le hi le_rfl, hits_of_le hi (Nat.mod_lt k hW).le]
      ring

theorem balanced_of_even (hW : 0 < W) (h : Even n W k) : Balanced n W k := by
  intro i hi j hj
  have hi1 := extra_le_one i (k % W % n)
  rw [hits_eq hi hW, hits_eq hj hW]
  rcases h with hdvd | hk | ⟨hk, hdvd⟩
  · rw [Nat.mod_eq_zero_of_dvd hdvd, extra_of_le (Nat.zero_le i)]
    omega
  · rw [Nat.div_eq_of_lt hk]
    omega
  · have hi2 := extra_le_one i (W % n)
    rw [hk, Nat.mod_eq_zero_of_dvd hdvd, extra_of_le (Nat.zero_le i)]
    omega

/-- The first place and the last one are out of balance when a turn was cut short. -/
theorem even_of_balanced (hn : 0 < n) (hW : 0 < W) (h : Balanced n W k) : Even n W k := by
  have hlast : n - 1 < n := Nat.sub_lt hn Nat.one_pos
  have hle := h 0 hn (n - 1) hlast
  have hrest {m : ℕ} : m % n ≤ n - 1 := Nat.le_sub_one_of_lt (Nat.mod_lt m hn)
  rw [hits_eq hn hW, hits_eq hlast hW, extra_of_le hrest, extra_of_le hrest] at hle
  by_cases hcut : n ∣ W
  · exact .inl hcut
  have hfirst : extra 0 (W % n) = 1 := extra_of_lt (Nat.emod_pos_of_not_dvd hcut)
  rw [hfirst] at hle
  have hwraps : k / W + extra 0 (k % W % n) ≤ 1 := by omega
  rcases Nat.eq_zero_or_pos (k / W) with hzero | hpos
  · exact .inr (.inl ((Nat.div_eq_zero_iff_lt hW).mp hzero))
  · refine .inr (.inr ⟨by omega, ?_⟩)
    by_contra hdvd
    have hone : extra 0 (k % W % n) = 1 := extra_of_lt (Nat.emod_pos_of_not_dvd hdvd)
    omega

theorem balanced_iff (hn : 0 < n) (hW : 0 < W) : Balanced n W k ↔ Even n W k :=
  ⟨even_of_balanced hn hW, balanced_of_even hW⟩

end RoundRobin
