import Mathlib.Data.List.Basic
import Mathlib.Logic.Function.Basic
import Mathlib.Logic.Nontrivial.Basic

/-!
# Memory as a function, and the addresses of a buffer

A memory is a function from addresses; a buffer of `n` cells at `a` is the list of addresses
`List.range' a n`. `read` is what a buffer holds and `write` stores a list at an address.
Programs that only move cells about are best compared by the addresses they touch: two lists of
addresses that read the same in every memory are equal (`eq_of_forall_map_eq`).
-/

namespace Memory

variable {β : Type*}

/-- What the `n` cells at `a` hold. -/
def read (m : ℕ → β) (a n : ℕ) : List β := (List.range' a n).map m

/-- The memory after the cells of `bs` are stored at `a`. -/
def write (m : ℕ → β) (a : ℕ) (bs : List β) : ℕ → β :=
  fun x => if a ≤ x then bs[x - a]?.getD (m x) else m x

@[simp] theorem read_zero (m : ℕ → β) (a : ℕ) : read m a 0 = [] := rfl

@[simp] theorem length_read (m : ℕ → β) (a n : ℕ) : (read m a n).length = n := by simp [read]

theorem read_append (m : ℕ → β) (a n k : ℕ) :
    read m a n ++ read m (a + n) k = read m a (n + k) := by
  rw [read, read, ← List.map_append, List.range'_append_1, read]

theorem read_prefix (m : ℕ → β) (a : ℕ) {n k : ℕ} (h : n ≤ k) : read m a n <+: read m a k :=
  ⟨read m (a + n) (k - n), by rw [read_append, Nat.add_sub_cancel' h]⟩

theorem write_of_lt (m : ℕ → β) {a x : ℕ} (bs : List β) (h : x < a) : write m a bs x = m x :=
  if_neg (by omega)

theorem write_add (m : ℕ → β) (a i : ℕ) (bs : List β) (h : i < bs.length) :
    write m a bs (a + i) = bs[i] := by
  simp [write, h]

/-- Storing behind a buffer's filled part appends to what it holds. -/
theorem read_write_append (m : ℕ → β) (a n : ℕ) (bs : List β) :
    read (write m (a + n) bs) a (n + bs.length) = read m a n ++ bs := by
  rw [← read_append]
  congr 1
  · refine List.map_congr_left fun x hx => write_of_lt m bs ?_
    rw [List.mem_range'_1] at hx
    omega
  · apply List.ext_getElem (by simp)
    intro i hi hi'
    simp only [read, List.getElem_map, List.getElem_range', Nat.one_mul]
    exact write_add m (a + n) i bs hi'

/-- **Addresses are determined by what they read**: two lists of addresses that read the same in
every memory are the same list. -/
theorem eq_of_forall_map_eq {α : Type*} [DecidableEq α] [Nontrivial β] {l l' : List α}
    (h : ∀ f : α → β, l.map f = l'.map f) : l = l' := by
  obtain ⟨x, y, hxy⟩ := exists_pair_ne β
  have hlen : l.length = l'.length := by simpa using congrArg List.length (h fun _ => x)
  apply List.ext_getElem hlen
  intro i hi hi'
  have hmap := h fun a => if a = l[i] then x else y
  have hi'' : i < (l.map fun a => if a = l[i] then x else y).length := by simpa using hi
  have key := List.getElem_of_eq hmap hi''
  simp only [List.getElem_map, if_pos] at key
  by_contra hne
  rw [if_neg (Ne.symm hne)] at key
  exact hxy key

/-! ## Frames of a stream -/

/-- Two sequences of frames with the same lengths, cut from the front of one stream, are equal. -/
theorem eq_of_flatten_prefix {α : Type*} {xs ys : List (List α)} {stream : List α}
    (hlen : xs.map List.length = ys.map List.length) (hx : xs.flatten <+: stream)
    (hy : ys.flatten <+: stream) : xs = ys := by
  induction xs generalizing ys stream with
  | nil => exact (List.map_eq_nil_iff.mp hlen.symm).symm
  | cons x xs ih =>
    obtain ⟨y, ys, rfl⟩ : ∃ y ys', ys = y :: ys' := by
      cases ys with
      | nil => simp at hlen
      | cons y ys => exact ⟨y, ys, rfl⟩
    simp only [List.map_cons, List.cons.injEq] at hlen
    rw [List.flatten_cons] at hx hy
    obtain ⟨u, rfl⟩ := hx
    obtain ⟨v, hv⟩ := hy
    simp only [List.append_assoc] at hv
    obtain ⟨rfl, hrest⟩ := List.append_inj hv hlen.1.symm
    rw [ih hlen.2 ⟨u, rfl⟩ ⟨v, hrest⟩]

/-! ## Cells here and there -/

section Scatter

variable {as as' : List ℕ} {bs : List β} {m : ℕ → β} {x : ℕ}

/-- The memory after the cells of `bs` are stored one after another at the addresses `as`. -/
def scatter (m : ℕ → β) : List ℕ → List β → ℕ → β
  | a :: as, b :: bs => scatter (Function.update m a b) as bs
  | _, _ => m

theorem scatter_of_not_mem (hx : x ∉ as) : scatter m as bs x = m x := by
  induction as generalizing m bs with
  | nil => cases bs <;> rfl
  | cons a as ih =>
    obtain ⟨hne, hrest⟩ := not_or.mp (mt List.mem_cons.mpr hx)
    cases bs with
    | nil => rfl
    | cons b bs => rw [scatter, ih hrest, Function.update_of_ne hne]

/-- Different addresses hold what was stored at them. -/
theorem map_scatter (hnodup : as.Nodup) (hlen : as.length = bs.length) :
    as.map (scatter m as bs) = bs := by
  induction as generalizing m bs with
  | nil => exact (List.length_eq_zero_iff.mp hlen.symm).symm
  | cons a as ih =>
    obtain ⟨hnew, hnodup⟩ := List.nodup_cons.mp hnodup
    cases bs with
    | nil => cases hlen
    | cons b bs =>
      rw [List.map_cons, scatter, ih hnodup (Nat.succ.inj hlen), scatter_of_not_mem hnew,
        Function.update_self]

/-- Other addresses hold what they held. -/
theorem map_scatter_of_disjoint (h : ∀ a ∈ as', a ∉ as) : as'.map (scatter m as bs) = as'.map m :=
  List.map_congr_left fun a ha => scatter_of_not_mem (h a ha)

end Scatter

end Memory
