import Mathlib.Algebra.Order.Ring.Int

/-!
# Decimal texts

Numbers in base ten without leading zeros, and rows of such numbers with a separator between them.
Reading is defined as the inverse of writing, so a text that is read is the only one of its value
(`read_eq_some_iff`, `readRow_eq_some_iff`).
-/

namespace Decimal

def text (n : ℕ) : List Char := Nat.toDigits 10 n

/-- The value of a text, if it is the decimal text of a number. -/
def read (cs : List Char) : Option ℕ :=
  if text (Nat.ofDigitChars 10 cs 0) = cs then some (Nat.ofDigitChars 10 cs 0) else none

variable {n : ℕ} {ns : List ℕ} {cs : List Char} {sep : Char}

theorem read_eq_some_iff : read cs = some n ↔ cs = text n := by
  rw [read, Option.ite_none_right_eq_some, Option.some.injEq]
  constructor
  · rintro ⟨htext, rfl⟩
    exact htext.symm
  · rintro rfl
    have hvalue : Nat.ofDigitChars 10 (text n) 0 = n := Nat.ofDigitChars_ten_toDigits
    rw [hvalue]
    exact ⟨rfl, rfl⟩

@[simp] theorem read_text (n : ℕ) : read (text n) = some n := read_eq_some_iff.mpr rfl

theorem text_inj {m : ℕ} : text m = text n ↔ m = n := by
  rw [← read_eq_some_iff, read_text, Option.some.injEq]

theorem length_text_pos (n : ℕ) : 0 < (text n).length := Nat.length_toDigits_pos

theorem length_text_le_iff {k : ℕ} (hk : 0 < k) : (text n).length ≤ k ↔ n < 10 ^ k :=
  Nat.length_toDigits_le_iff (by decide) hk

theorem not_mem_text (hsep : sep.isDigit = false) : sep ∉ text n := by
  intro hmem
  rw [Nat.isDigit_of_mem_toDigits (by decide) (by decide) hmem] at hsep
  cases hsep

/-! ## Rows -/

/-- The numbers with a separator between them. -/
def row (sep : Char) (ns : List ℕ) : List Char := [sep].intercalate (ns.map text)

def readRow (sep : Char) (cs : List Char) : Option (List ℕ) := (cs.splitOn sep).mapM read

theorem mapM_read_eq_some_iff {css : List (List Char)} :
    css.mapM read = some ns ↔ css = ns.map text := by
  induction css generalizing ns with
  | nil => cases ns <;> simp
  | cons cs css ih =>
    simp only [List.mapM_cons, Option.bind_eq_bind, Option.bind_eq_some_iff, Option.pure_def,
      Option.some.injEq, read_eq_some_iff, ih]
    constructor
    · rintro ⟨n, rfl, ns', rfl, rfl⟩
      rfl
    · intro h
      cases ns with
      | nil => cases h
      | cons n ns =>
        obtain ⟨rfl, rfl⟩ := List.cons.inj h
        exact ⟨n, rfl, ns, rfl, rfl⟩

/-- **A row is read from its text only.** -/
theorem readRow_eq_some_iff (hsep : sep.isDigit = false) (hns : ns ≠ []) :
    readRow sep cs = some ns ↔ cs = row sep ns := by
  rw [readRow, mapM_read_eq_some_iff, row]
  constructor
  · intro h
    rw [← h, List.intercalate_splitOn]
  · rintro rfl
    refine List.splitOn_intercalate sep (fun cs hcs => ?_) (by simpa using hns)
    obtain ⟨n, -, rfl⟩ := List.mem_map.mp hcs
    exact not_mem_text hsep

theorem row_singleton : row sep [n] = text n := List.intercalate_singleton

theorem row_cons {m : ℕ} : row sep (m :: n :: ns) = text m ++ sep :: row sep (n :: ns) := by
  simp [row, List.intercalate_cons_cons]

theorem not_mem_row {c : Char} (hc : c.isDigit = false) (hne : c ≠ sep) : c ∉ row sep ns := by
  induction ns with
  | nil => simp [row]
  | cons m ns ih =>
    cases ns with
    | nil =>
      rw [row_singleton]
      exact not_mem_text hc
    | cons n ns =>
      rw [row_cons, List.mem_append, List.mem_cons, not_or, not_or]
      exact ⟨not_mem_text hc, hne, ih⟩

/-- **The last separator** tells where a text was cut. -/
theorem append_cons_inj {c : Char} {xs ys us vs : List Char} (hys : c ∉ ys) (hvs : c ∉ vs) :
    xs ++ c :: ys = us ++ c :: vs ↔ xs = us ∧ ys = vs := by
  constructor
  · intro h
    rcases List.append_eq_append_iff.mp h with ⟨ws, rfl, hws⟩ | ⟨ws, rfl, hws⟩
    · cases ws with
      | nil => simpa using hws
      | cons w ws =>
        obtain ⟨rfl, rfl⟩ := List.cons.inj hws
        simp at hys
    · cases ws with
      | nil => simpa [eq_comm] using hws
      | cons w ws =>
        obtain ⟨rfl, rfl⟩ := List.cons.inj hws
        simp at hvs
  · rintro ⟨rfl, rfl⟩
    rfl

end Decimal
