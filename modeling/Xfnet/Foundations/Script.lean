import Mathlib.Data.List.FinRange
import Mathlib.Data.List.Infix
import Mathlib.Data.List.Pairwise

/-!
# Straight-line programs

A thread runs a list of instructions and has some suffix of it still to do. The order of the
instructions is given by ranks. What one instruction acquires and a later one releases is held
exactly while the first is done and the second still to do (`Held.step`), so what is held follows
from where the thread is.
-/

namespace Script

variable {I R : Type*} {rank : I → ℕ} {p t : List I} {a b : I}

/-- The instructions come in the order of their ranks. -/
def Ordered (rank : I → ℕ) (p : List I) : Prop := p.Pairwise fun a b => rank a < rank b

/-- What comes after an instruction that is still to do is still to do. -/
theorem Ordered.mem (hp : Ordered rank p) (ht : t <:+ p) (ha : a ∈ t) (hb : b ∈ p)
    (hlt : rank a < rank b) : b ∈ t := by
  obtain ⟨done, rfl⟩ := ht
  rcases List.mem_append.mp hb with hdone | hrest
  · have := (List.pairwise_append.mp hp).2.2 b hdone a ha
    omega
  · exact hrest

/-- What comes before an instruction that is done is done. -/
theorem Ordered.not_mem (hp : Ordered rank p) (ht : t <:+ p) (hb : b ∉ t) (hmem : b ∈ p)
    (hlt : rank a < rank b) : a ∉ t := fun ha => hb (hp.mem ht ha hmem hlt)

theorem Ordered.head_lt (hp : Ordered rank p) (ht : a :: t <:+ p) (hb : b ∈ t) :
    rank a < rank b :=
  List.rel_of_pairwise_cons (hp.sublist ht.sublist) hb

theorem Ordered.head_not_mem (hp : Ordered rank p) (ht : a :: t <:+ p) : a ∉ t :=
  fun ha => (hp.head_lt ht ha).ne rfl

/-- What comes before the next instruction is done. -/
theorem Ordered.not_mem_of_lt (hp : Ordered rank p) (ht : a :: t <:+ p) (hlt : rank b < rank a) :
    b ∉ a :: t := by
  intro hb
  rcases List.mem_cons.mp hb with rfl | hmem
  · omega
  · exact (hp.head_lt ht hmem).not_gt hlt

/-! ## Programs put together -/

/-- The instructions are in order, with ranks from `lo` to below `hi`. -/
structure Spans (rank : I → ℕ) (lo hi : ℕ) (p : List I) : Prop where
  ordered : Ordered rank p
  bounds : ∀ a ∈ p, lo ≤ rank a ∧ rank a < hi

namespace Spans

variable {lo mid hi k n : ℕ} {q : List I}

theorem nil : Spans rank lo hi [] := ⟨List.Pairwise.nil, nofun⟩

theorem cons (ha : rank a = lo) (hlt : lo < hi) (hq : Spans rank (lo + 1) hi q) :
    Spans rank lo hi (a :: q) := by
  refine ⟨List.pairwise_cons.mpr ⟨fun b hb => ?_, hq.ordered⟩, fun b hb => ?_⟩
  · have := (hq.bounds b hb).1
    omega
  · rcases List.mem_cons.mp hb with rfl | hmem
    · omega
    · have := hq.bounds b hmem
      omega

theorem append (hp : Spans rank lo mid p) (hq : Spans rank mid hi q) (hlo : lo ≤ mid)
    (hhi : mid ≤ hi) : Spans rank lo hi (p ++ q) := by
  refine ⟨List.pairwise_append.mpr ⟨hp.ordered, hq.ordered, fun a ha b hb => ?_⟩, fun a ha => ?_⟩
  · exact (hp.bounds a ha).2.trans_le (hq.bounds b hb).1
  · rcases List.mem_append.mp ha with h | h
    · exact ⟨(hp.bounds a h).1, (hp.bounds a h).2.trans_le hhi⟩
    · exact ⟨hlo.trans (hq.bounds a h).1, (hq.bounds a h).2⟩

/-- A loop whose bodies all span `k` ranks. -/
theorem flatMap {f : Fin n → List I}
    (h : ∀ i : Fin n, Spans rank (k * i + lo) (k * (i + 1) + lo) (f i)) :
    Spans rank lo (k * n + lo) ((List.finRange n).flatMap f) := by
  refine ⟨List.pairwise_flatMap.mpr ⟨fun i _ => (h i).ordered, ?_⟩, fun a ha => ?_⟩
  · refine (List.pairwise_lt_finRange n).imp fun {i j} hij a ha b hb => ?_
    have hle : k * (i + 1) ≤ k * j := Nat.mul_le_mul_left k hij
    have hi := (h i).bounds a ha
    have hj := (h j).bounds b hb
    omega
  · obtain ⟨i, -, hmem⟩ := List.mem_flatMap.mp ha
    have hle : k * (i + 1) ≤ k * n := Nat.mul_le_mul_left k i.isLt
    have hi := (h i).bounds a hmem
    omega

end Spans

/-! ## What is held -/

/-- `up` is done, and `down` is still to do. -/
def Between (up down : I) (t : List I) : Prop := up ∉ t ∧ down ∈ t

theorem Between.mono {up up' down down' : I} (hp : Ordered rank p) (ht : t <:+ p)
    (hup : rank up' < rank up) (hdown : rank down < rank down') (hmem : up ∈ p) (hmem' : down' ∈ p)
    (h : Between up down t) : Between up' down' t :=
  ⟨hp.not_mem ht h.1 hmem hup, hp.mem ht h.2 hmem' hdown⟩

/-- Each resource is held between its two instructions. -/
def Held (up down : R → I) (t : List I) (held : R → Prop) : Prop :=
  ∀ r, held r ↔ Between (up r) (down r) t

section Held

variable {up down : R → I} {held held' : R → Prop} {r : R}

theorem Held.not_of_acquire (h : Held up down (a :: t) held) (ha : a = up r) : ¬held r :=
  fun hr => ((h r).mp hr).1 (by simp [ha])

theorem Held.of_release (hp : Ordered rank p) (ht : a :: t <:+ p)
    (hlt : ∀ r, rank (up r) < rank (down r)) (h : Held up down (a :: t) held) (ha : a = down r) :
    held r :=
  (h r).mpr ⟨hp.not_mem_of_lt ht (ha ▸ hlt r), by simp [ha]⟩

theorem Held.step (hp : Ordered rank p)
    (ht : a :: t <:+ p) (hdown : ∀ r, down r ∈ p) (hlt : ∀ r, rank (up r) < rank (down r))
    (h : Held up down (a :: t) held)
    (hstep : ∀ r, held' r ↔ a = up r ∨ a ≠ down r ∧ held r) : Held up down t held' := by
  intro r
  have hnew : a ∉ t := hp.head_not_mem ht
  have hne : up r ≠ down r := fun he => (hlt r).ne (congrArg rank he)
  rw [hstep r]
  by_cases hup : a = up r
  · have hrest : down r ∈ a :: t := hp.mem ht (by simp [hup]) (hdown r) (hlt r)
    refine iff_of_true (.inl hup) ⟨hup ▸ hnew, ?_⟩
    exact List.mem_of_ne_of_mem (by simpa [hup] using hne.symm) hrest
  · by_cases hlast : a = down r
    · refine iff_of_false ?_ fun hb => hnew (hlast ▸ hb.2)
      rintro (he | ⟨he, -⟩)
      · exact hup he
      · exact he hlast
    · have hup' : up r ≠ a := Ne.symm hup
      have hlast' : down r ≠ a := Ne.symm hlast
      rw [h r]
      simp [Between, hup, hlast, hup', hlast']

end Held

/-! ## A value that goes through stages -/

section Stages

variable {α : Type*} [DecidableEq I] {x y z : I} {v₀ v₁ v₂ : α}

/-- A variable that the instructions `x`, `y` and `z` assign to, the last of them its first value
again. -/
def stage (x y z : I) (v₀ v₁ v₂ : α) (t : List I) : α :=
  if x ∈ t then v₀ else if y ∈ t then v₁ else if z ∈ t then v₂ else v₀

theorem stage_step (hp : Ordered rank p) (ht : a :: t <:+ p) (hy : y ∈ p) (hz : z ∈ p)
    (hxy : rank x < rank y) (hyz : rank y < rank z) :
    stage x y z v₀ v₁ v₂ t = if a = x then v₁ else if a = y then v₂ else if a = z then v₀
      else stage x y z v₀ v₁ v₂ (a :: t) := by
  have hnew : a ∉ t := hp.head_not_mem ht
  have hlater {b : I} (hb : b ∈ p) (hlt : rank a < rank b) : b ∈ t := by
    have hmem := hp.mem ht (List.mem_cons_self ..) hb hlt
    exact List.mem_of_ne_of_mem (fun he => hlt.ne (congrArg rank he.symm)) hmem
  have hearlier {b : I} (hlt : rank b < rank a) : b ∉ t := fun hb =>
    hp.not_mem_of_lt ht hlt (List.mem_cons_of_mem a hb)
  unfold stage
  by_cases hx : a = x
  · subst hx
    rw [if_neg hnew, if_pos (hlater hy hxy), if_pos rfl]
  rw [if_neg hx]
  by_cases hy' : a = y
  · subst hy'
    rw [if_neg (hearlier hxy), if_neg hnew, if_pos (hlater hz hyz), if_pos rfl]
  rw [if_neg hy']
  by_cases hz' : a = z
  · subst hz'
    rw [if_neg (hearlier (hxy.trans hyz)), if_neg (hearlier hyz), if_neg hnew, if_pos rfl]
  · simp [hz', Ne.symm hx, Ne.symm hy', Ne.symm hz']

end Stages

end Script
