import Xfnet.Foundations.Progress

/-!
# Waiting in a line

Those who wait stand in a line. The first one is taken out, others join the line at its end or get
in somewhere before it, and a wait ends when one is taken. Whoever stands at position `i` is taken
by the time that more than `i` have been, not counting those who got in since (`taken_of_lt`), and
is not overtaken by those who join the line behind (`not_overtaken`). A system has its line
somewhere in its state (`Lined`), not necessarily in one piece.
-/

namespace WaitingLine

open Transition

variable {A : Type*}

/-- What happens to a line. -/
inductive Op (A : Type*)
  | insert (a : A)
  | take (a : A)
  | join (a : A)
  | stay

namespace Op

def taken : Op A → Option A
  | take a => some a
  | _ => none

def inserted : Op A → Option A
  | insert a => some a
  | _ => none

end Op

/-- The line before and after. -/
inductive Moves : List A → Op A → List A → Prop
  | insert {l r : List A} {a : A} : Moves (l ++ r) (.insert a) (l ++ a :: r)
  | take {l : List A} {a : A} : Moves (a :: l) (.take a) l
  | join {l : List A} {a : A} : Moves l (.join a) (l ++ [a])
  | stay {l : List A} : Moves l .stay l

/-- Who is not taken moves up, and back only for one who gets in. -/
theorem Moves.position {l l' : List A} {op : Op A} {a : A} {i : ℕ} (h : Moves l op l')
    (hi : l[i]? = some a) (hne : op.taken ≠ some a) : ∃ j, l'[j]? = some a ∧
      j + (if op.taken.isSome then 1 else 0) ≤ i + if op.inserted.isSome then 1 else 0 := by
  cases h with
  | @insert l r b =>
    by_cases hlt : i < l.length
    · refine ⟨i, ?_, Nat.le_succ i⟩
      rw [List.getElem?_append_left hlt] at hi ⊢
      exact hi
    · refine ⟨i + 1, ?_, le_refl _⟩
      rw [List.getElem?_append_right (by omega)] at hi ⊢
      rwa [show i + 1 - l.length = i - l.length + 1 by omega, List.getElem?_cons_succ]
  | @take _ b =>
    cases i with
    | zero => exact absurd hi hne
    | succ i => exact ⟨i, hi, le_refl _⟩
  | join =>
    obtain ⟨hlt, -⟩ := List.getElem?_eq_some_iff.mp hi
    exact ⟨i, (List.getElem?_append_left hlt).trans hi, le_refl _⟩
  | stay => exact ⟨i, hi, le_refl _⟩

/-- `a` is in the line, and `b` only behind it. -/
def Behind (a b : A) (l : List A) : Prop :=
  a ∈ l ∧ ∀ front back, l = front ++ b :: back → a ∈ front

/-- Who is behind stays behind. -/
theorem Moves.behind {l l' : List A} {op : Op A} {a b : A} (h : Moves l op l')
    (hbehind : Behind a b l) (ha : op.taken ≠ some a) (hb : op.inserted ≠ some b) :
    op.taken ≠ some b ∧ Behind a b l' := by
  obtain ⟨hmem, hfront⟩ := hbehind
  cases h with
  | @insert l r c =>
    refine ⟨nofun, ?_, fun front back he => ?_⟩
    · rcases List.mem_append.mp hmem with hmem | hmem
      · exact List.mem_append_left _ hmem
      · exact List.mem_append_right _ (List.mem_cons_of_mem _ hmem)
    · rcases List.append_eq_append_iff.mp he with ⟨m, rfl, hm⟩ | ⟨m, rfl, hm⟩
      · cases m with
        | nil => exact absurd (congrArg some (List.cons.inj hm).1) hb
        | cons d m =>
          obtain ⟨rfl, rfl⟩ := List.cons.inj hm
          have hin := hfront (l ++ m) back (List.append_assoc ..).symm
          rcases List.mem_append.mp hin with hin | hin
          · exact List.mem_append_left _ hin
          · exact List.mem_append_right _ (List.mem_cons_of_mem _ hin)
      · cases m with
        | nil => exact absurd (congrArg some (List.cons.inj hm).1.symm) hb
        | cons d m =>
          obtain ⟨rfl, rfl⟩ := List.cons.inj hm
          exact hfront front (m ++ r) (List.append_assoc ..)
  | @take l c =>
    have hne : a ≠ c := fun he => ha (congrArg some he.symm)
    refine ⟨fun he => ?_, (List.mem_cons.mp hmem).resolve_left hne, fun front back he => ?_⟩
    · obtain rfl : c = b := Option.some.inj he
      exact absurd (hfront [] _ rfl) List.not_mem_nil
    · have hin := hfront (c :: front) back (congrArg (c :: ·) he)
      exact (List.mem_cons.mp hin).resolve_left hne
  | @join l c =>
    refine ⟨nofun, List.mem_append_left _ hmem, fun front back he => ?_⟩
    rcases List.append_eq_append_iff.mp he with ⟨m, rfl, hm⟩ | ⟨m, rfl, hm⟩
    · exact List.mem_append_left _ hmem
    · cases m with
      | nil => exact (List.append_nil front) ▸ hmem
      | cons d m =>
        obtain ⟨rfl, rfl⟩ := List.cons.inj hm
        exact hfront front m rfl
  | stay => exact ⟨nofun, hmem, hfront⟩

/-! ## The line of a system -/

section Systems

variable {σ ℓ : Type*} {M : System σ ℓ} {line : σ → List A} {op : σ → ℓ → Op A}

/-- Every step of the system does one thing to its line. -/
def Lined (M : System σ ℓ) (line : σ → List A) (op : σ → ℓ → Op A) : Prop :=
  ∀ s l s', M.next s l = some s' → Moves (line s) (op s l) (line s')

variable {C : σ → ℓ → Prop} [∀ s l, Decidable (C s l)] [DecidableEq A] {s s' : σ} {ls : List ℓ}
  {a : A} {i : ℕ}

/-- **The position after a run** in which `a` was not taken. -/
theorem Lined.position (h : Lined M line op) (hi : (line s)[i]? = some a)
    (hrun : M.exec C s ls = some s')
    (hnever : M.tally (fun s l => (op s l).taken = some a) s ls = 0) :
    ∃ j, (line s')[j]? = some a ∧ j + M.tally (fun s l => (op s l).taken.isSome) s ls ≤
      i + M.tally (fun s l => (op s l).inserted.isSome) s ls := by
  induction ls generalizing s i with
  | nil =>
    obtain rfl : s = s' := by simpa [System.exec] using hrun
    exact ⟨i, hi, le_refl _⟩
  | cons l ls ih =>
    obtain ⟨-, he⟩ := Option.ite_none_right_eq_some.mp hrun
    obtain ⟨s₁, hn, hrest⟩ := Option.bind_eq_some_iff.mp he
    simp only [System.tally, hn, Option.map_some, Option.getD_some] at hnever ⊢
    obtain ⟨hfirst, hlater⟩ := Nat.add_eq_zero_iff.mp hnever
    have hne : (op s l).taken ≠ some a := fun he => by simp [he] at hfirst
    obtain ⟨j, hj, hle⟩ := (h s l s₁ hn).position hi hne
    obtain ⟨k, hk, hle'⟩ := ih hj hrest hlater
    exact ⟨k, hk, by omega⟩

/-- **Nobody waits forever**: at the latest when all those in front have been taken, and those who
got in. -/
theorem Lined.taken_of_lt (h : Lined M line op) (hi : (line s)[i]? = some a)
    (hrun : M.exec C s ls = some s')
    (hlt : i + M.tally (fun s l => (op s l).inserted.isSome) s ls <
      M.tally (fun s l => (op s l).taken.isSome) s ls) :
    0 < M.tally (fun s l => (op s l).taken = some a) s ls := by
  refine Nat.pos_of_ne_zero fun hnever => ?_
  obtain ⟨j, -, hle⟩ := h.position hi hrun hnever
  omega

/-- **Nobody is overtaken** by one who was not in front. -/
theorem Lined.not_overtaken {b : A} (h : Lined M line op) (hbehind : Behind a b (line s))
    (hrun : M.exec C s ls = some s')
    (hnew : M.tally (fun s l => (op s l).inserted = some b) s ls = 0)
    (hb : 0 < M.tally (fun s l => (op s l).taken = some b) s ls) :
    0 < M.tally (fun s l => (op s l).taken = some a) s ls := by
  refine Nat.pos_of_ne_zero fun hnever => hb.ne' ?_
  clear hb
  induction ls generalizing s with
  | nil => rfl
  | cons l ls ih =>
    obtain ⟨-, he⟩ := Option.ite_none_right_eq_some.mp hrun
    obtain ⟨s₁, hn, hrest⟩ := Option.bind_eq_some_iff.mp he
    simp only [System.tally, hn, Option.map_some, Option.getD_some] at hnew hnever ⊢
    obtain ⟨hnew₁, hnew₂⟩ := Nat.add_eq_zero_iff.mp hnew
    obtain ⟨hfirst, hlater⟩ := Nat.add_eq_zero_iff.mp hnever
    have ha : (op s l).taken ≠ some a := fun he => by simp [he] at hfirst
    have hinsert : (op s l).inserted ≠ some b := fun he => by simp [he] at hnew₁
    obtain ⟨hnot, hbehind'⟩ := (h s l s₁ hn).behind hbehind ha hinsert
    rw [ih hbehind' hrest hnew₂ hlater, if_neg (by simpa using hnot)]

end Systems

end WaitingLine
