import Xfnet.Stream.Vectored

/-!
# `UpdateIov` and the end of its array

`UpdateIov` takes entries off the front for as long as the rest of `size` covers them. When `size`
is the sum of the lengths it covers them all, and the loop looks at the entry behind the last one.
So it stays inside the array exactly when some byte is left (`updateIov_inBounds_iff`).
-/

namespace Xfnet.Stream

/-- The number of entries that `UpdateIov` dereferences, from `iov` on. -/
def entriesRead : List Iovec → ℤ → ℕ
  | [], _ => 1
  | v :: iov, size =>
    if size ≥ toSsize v.iovLen then entriesRead iov (toSsize (size - v.iovLen)) + 1 else 1

/-- On an array `entries` in front of `after`, the loop ends, dereferences entries of the array
only, and leaves the entries of the bytes behind the first `size`. -/
structure InBounds (entries after : List Iovec) (size : ℕ) : Prop where
  read : entriesRead (entries ++ after) size ≤ entries.length
  ends : ∃ iov iovcnt, updateIov (entries ++ after) entries.length size = some (iov, iovcnt) ∧
    0 ≤ iovcnt ∧ iovcnt ≤ entries.length ∧
    positions (iov.take iovcnt.toNat) = (positions entries).drop size

section Entries

variable {entries : List Iovec} {size : ℕ}

/-- The loop ends in the array with a byte to spare, or looks at every entry and runs on. -/
theorem entriesRead_append (after : List Iovec) (h : size ≤ (positions entries).length)
    (hmax : (positions entries).length ≤ ssizeMax) :
    (size < (positions entries).length ∧
        entriesRead (entries ++ after) size ≤ entries.length) ∨
      (size = (positions entries).length ∧
        entriesRead (entries ++ after) size = entriesRead after 0 + entries.length) := by
  induction entries generalizing size with
  | nil =>
    obtain rfl : size = 0 := by simpa using h
    exact .inr ⟨rfl, rfl⟩
  | cons v entries ih =>
    simp only [positions_cons, List.length_append, List.length_range'] at h hmax ⊢
    rw [List.cons_append, entriesRead, toSsize_of_le (by omega) (by omega)]
    by_cases hle : v.iovLen ≤ size
    · -- the entry is used up
      have hsize : toSsize ((size : ℤ) - v.iovLen) = ((size - v.iovLen : ℕ) : ℤ) := by
        rw [toSsize_of_le (by omega) (by omega)]
        omega
      rw [if_pos (by omega), hsize, List.length_cons]
      have hrest : size - v.iovLen ≤ (positions entries).length := by omega
      rcases ih hrest (by omega) with ⟨hlt, hread⟩ | ⟨hall, hread⟩
      · exact .inl ⟨by omega, by omega⟩
      · exact .inr ⟨by omega, by omega⟩
    · rw [if_neg (by omega), List.length_cons]
      exact .inl ⟨by omega, by omega⟩

theorem entriesRead_pos (iov : List Iovec) (size : ℤ) : 0 < entriesRead iov size := by
  cases iov with
  | nil => exact Nat.one_pos
  | cons v iov =>
    rw [entriesRead]
    split <;> omega

end Entries

/-- **`UpdateIov` stays inside its array** exactly when `size` does not use up all entries, whatever
lies behind the array. The kernel takes only arrays whose total length is a `ssize_t`. -/
theorem updateIov_inBounds_iff (entries after : List Iovec) (size : ℕ)
    (hsize : size ≤ (positions entries).length) (hmax : (positions entries).length ≤ ssizeMax) :
    InBounds entries after size ↔ size < (positions entries).length := by
  rcases entriesRead_append after hsize hmax with ⟨hlt, hread⟩ | ⟨hall, hread⟩
  · refine iff_of_true ⟨hread, ?_⟩ hlt
    rcases updateIov_append after hsize hmax with ⟨cur, -, hrun, hpos⟩ | ⟨hall, -⟩
    · refine ⟨cur ++ after, cur.length, hrun, by omega, ?_, ?_⟩
      · have := updateIov_le hrun
        omega
      · rw [Int.toNat_natCast, List.take_left' rfl, hpos]
    · omega
  · refine iff_of_false (fun hin => ?_) (by omega)
    have hpos := entriesRead_pos after 0
    have hle := hin.read
    omega

/-- Four bytes of an empty entry, one of three bytes, another empty one and one of two bytes. -/
theorem updateIov_inBounds_across :
    InBounds [⟨8, 0⟩, ⟨64, 3⟩, ⟨72, 0⟩, ⟨80, 2⟩] [⟨0, 0⟩] 4 :=
  (updateIov_inBounds_iff [⟨8, 0⟩, ⟨64, 3⟩, ⟨72, 0⟩, ⟨80, 2⟩] [⟨0, 0⟩] 4 (by decide)
    (by decide)).mpr (by decide)

/-- After all three bytes of a single entry the loop looks at the memory behind it. -/
theorem updateIov_leaves_array : ¬∀ (entries after : List Iovec) (size : ℕ), entries ≠ [] →
    size ≤ (positions entries).length → (positions entries).length ≤ ssizeMax →
      InBounds entries after size := by
  intro h
  have hread : entriesRead [⟨64, 3⟩, ⟨0, 1⟩] 3 ≤ 1 :=
    (h [⟨64, 3⟩] [⟨0, 1⟩] 3 (by decide) (by decide) (by decide)).read
  exact absurd hread (by decide +kernel)

end Xfnet.Stream
