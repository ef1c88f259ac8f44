import Mathlib.Algebra.Order.Ring.Nat
import Mathlib.Logic.Equiv.Basic
import Xfnet.Foundations.Transition

/-!
# Ownership of names that are used again

Names are granted one at a time from a table, which hands out any name that is not in use, so a name
stands for different grants at different times. A holder has a name only, and gives back whatever it
stands for. `Handle` adds the grant that the name came from, which no step looks at: it is there to
say what should have been given back.

Holders acquire a handle, transfer it to another holder, and release it. `Linear` says that this
keeps one holder for each grant in use: no name is held twice, every name held stands for the grant
that it came from, and every grant that is not held any more was released once.
-/

namespace Ownership

open Transition

universe u v

variable {R : Type u} {H : Type v}

/-- A name, and the number of the grant that it came from. -/
structure Handle (R : Type u) where
  name : R
  grant : ℕ
  deriving DecidableEq

/-- Who uses each name (nobody, somebody outside, or a grant), the number of grants so far, how
often each was released, and the releases of a name that stood for something else. -/
structure Table (R : Type u) where
  slots : R → Option (Option ℕ)
  granted : ℕ
  released : ℕ → ℕ
  strays : ℕ

namespace Table

/-- The name stands for the grant. -/
def At (t : Table R) (r : R) (n : ℕ) : Prop := t.slots r = some (some n)

/-- No name in use. -/
def empty (R : Type u) : Table R := ⟨fun _ => none, 0, fun _ => 0, 0⟩

variable [DecidableEq R]

def grant (t : Table R) (r : R) : Table R :=
  { t with
    slots := Function.update t.slots r (some (some t.granted))
    granted := t.granted + 1 }

/-- What the name stands for is given back, whatever it is. -/
def release (t : Table R) (d : Handle R) : Table R :=
  { t with
    slots := Function.update t.slots d.name none
    released := Function.update t.released d.grant (t.released d.grant + 1)
    strays := if t.slots d.name = some (some d.grant) then t.strays else t.strays + 1 }

/-- Somebody outside starts or stops to use the name. -/
def foreign (t : Table R) (r : R) (used : Bool) : Table R :=
  { t with slots := Function.update t.slots r (if used then some none else none) }

/-- Every grant is in use under one name, or was released once. -/
structure Ok (t : Table R) : Prop where
  placed : ∀ r r' n, t.At r n → t.At r' n → r = r'
  used : ∀ r n, t.At r n → n < t.granted ∧ t.released n = 0
  gone : ∀ n < t.granted, (∀ r, ¬t.At r n) → t.released n = 1
  beyond : ∀ n, t.granted ≤ n → t.released n = 0
  strays : t.strays = 0

variable {t : Table R} {r r' : R} {d : Handle R} {n m : ℕ} {used : Bool}

omit [DecidableEq R] in
theorem At.unique (h : t.At r n) (h' : t.At r m) : n = m := by
  simpa using h.symm.trans h'

theorem at_grant : (t.grant r).At r' n ↔ if r' = r then n = t.granted else t.At r' n := by
  simp only [At, grant, Function.update_apply]
  split_ifs
  · simp [eq_comm]
  · rfl

theorem at_release : (t.release d).At r n ↔ r ≠ d.name ∧ t.At r n := by
  simp only [At, release, Function.update_apply]
  split_ifs with h <;> simp [h]

/-- What is outside changes nothing for the grants. -/
theorem at_foreign (h : t.slots r = none ∨ t.slots r = some none) :
    (t.foreign r used).At r' n ↔ t.At r' n := by
  simp only [At, foreign, Function.update_apply]
  split_ifs with hr hused
  · subst hr
    rcases h with h | h <;> simp [h]
  · subst hr
    rcases h with h | h <;> simp [h]
  · rfl

omit [DecidableEq R] in
theorem ok_empty : (empty R).Ok :=
  ⟨nofun, nofun, fun n hn => absurd hn (Nat.not_lt_zero n), fun _ _ => rfl, rfl⟩

theorem Ok.grant (h : t.Ok) (hfree : t.slots r = none) : (t.grant r).Ok := by
  have hnot (n : ℕ) : ¬t.At r n := by simp [At, hfree]
  refine ⟨fun r₁ r₂ n h₁ h₂ => ?_, fun r₁ n h₁ => ?_, fun n hn hgone => ?_, fun n hn => ?_,
    h.strays⟩
  · rw [at_grant] at h₁ h₂
    split_ifs at h₁ h₂ with e₁ e₂ e₂
    · exact e₁.trans e₂.symm
    · have := (h.used r₂ n h₂).1
      omega
    · have := (h.used r₁ n h₁).1
      omega
    · exact h.placed r₁ r₂ n h₁ h₂
  · rw [at_grant] at h₁
    split_ifs at h₁ with e₁
    · subst h₁
      exact ⟨Nat.lt_succ_self _, h.beyond _ le_rfl⟩
    · exact ⟨Nat.lt_succ_of_lt (h.used r₁ n h₁).1, (h.used r₁ n h₁).2⟩
  · have hne : n ≠ t.granted := fun e => hgone r (at_grant.mpr (by rw [if_pos rfl, e]))
    refine h.gone n (lt_of_le_of_ne (Nat.lt_succ_iff.mp hn) hne) fun r₁ h₁ => hgone r₁ ?_
    have hr₁ : r₁ ≠ r := fun e => hnot n (e ▸ h₁)
    rw [at_grant, if_neg hr₁]
    exact h₁
  · exact h.beyond n (Nat.le_of_succ_le hn)

theorem Ok.release (h : t.Ok) (hd : t.At d.name d.grant) : (t.release d).Ok := by
  have hreleased (n : ℕ) : (t.release d).released n =
      if n = d.grant then t.released d.grant + 1 else t.released n := Function.update_apply ..
  have hused := h.used d.name d.grant hd
  refine ⟨fun r₁ r₂ n h₁ h₂ => ?_, fun r₁ n h₁ => ?_, fun n hn hgone => ?_, fun n hn => ?_, ?_⟩
  · exact h.placed r₁ r₂ n (at_release.mp h₁).2 (at_release.mp h₂).2
  · obtain ⟨hne, h₁⟩ := at_release.mp h₁
    have hn : n ≠ d.grant := fun e => hne (h.placed _ _ _ h₁ (e ▸ hd))
    rw [hreleased, if_neg hn]
    exact h.used r₁ n h₁
  · rw [hreleased]
    split_ifs with e
    · rw [hused.2]
    · refine h.gone n hn fun r₁ h₁ => hgone r₁ (at_release.mpr ⟨fun hr => e ?_, h₁⟩)
      exact At.unique (hr ▸ h₁) hd
  · have hle : t.granted ≤ n := hn
    rw [hreleased, if_neg (by omega)]
    exact h.beyond n hle
  · exact (if_pos hd).trans h.strays

theorem Ok.foreign (h : t.Ok) (hr : t.slots r = none ∨ t.slots r = some none) :
    (t.foreign r used).Ok := by
  refine ⟨fun r₁ r₂ n h₁ h₂ => ?_, fun r₁ n h₁ => ?_, fun n hn hgone => ?_, h.beyond, h.strays⟩
  · exact h.placed r₁ r₂ n ((at_foreign hr).mp h₁) ((at_foreign hr).mp h₂)
  · exact h.used r₁ n ((at_foreign hr).mp h₁)
  · exact h.gone n hn fun r₁ h₁ => hgone r₁ ((at_foreign hr).mpr h₁)

end Table

/-! ## Holders -/

/-- The table, and what each holder has. -/
structure State (R : Type u) (H : Type v) where
  table : Table R
  held : H → Option (Handle R)

inductive Label (R : Type u) (H : Type v)
  | acquire (h : H) (r : R)
  | transfer (h h' : H)
  | release (h : H)
  | foreign (r : R) (used : Bool)

/-- Every grant in use has one holder, and holders have nothing else. -/
structure Linear (s : State R H) : Prop where
  ok : s.table.Ok
  live : ∀ h d, s.held h = some d → s.table.At d.name d.grant
  unique : ∀ h h' d, s.held h = some d → s.held h' = some d → h = h'
  covered : ∀ r n, s.table.At r n → ∃ h, s.held h = some ⟨r, n⟩

section Linear

variable {s : State R H} {h h' : H} {d e : Handle R}

/-- **No name is held twice.** -/
theorem Linear.holder_eq (hs : Linear s) (hd : s.held h = some d) (he : s.held h' = some e)
    (hname : d.name = e.name) : h = h' := by
  have hgrant : d.grant = e.grant := (hs.live h d hd).unique (hname ▸ hs.live h' e he)
  obtain rfl : d = e := by
    cases d
    cases e
    simp_all
  exact hs.unique h h' d hd he

/-- A grant is not released while somebody holds it. -/
theorem Linear.released_of_held (hs : Linear s) {r : R} {n : ℕ} (hd : s.held h = some ⟨r, n⟩) :
    s.table.released n = 0 := (hs.ok.used r n (hs.live h ⟨r, n⟩ hd)).2

/-- **Every grant is released once** when nobody holds it any more. -/
theorem Linear.released_of_not_held (hs : Linear s) {n : ℕ} (hn : n < s.table.granted)
    (hnone : ∀ h r, s.held h ≠ some ⟨r, n⟩) : s.table.released n = 1 := by
  refine hs.ok.gone n hn fun r hat => ?_
  obtain ⟨h, hd⟩ := hs.covered r n hat
  exact hnone h r hd

theorem Linear.released_le_one (hs : Linear s) (n : ℕ) : s.table.released n ≤ 1 := by
  by_cases hn : n < s.table.granted
  · by_cases hheld : ∃ h r, s.held h = some ⟨r, n⟩
    · obtain ⟨h, r, hd⟩ := hheld
      rw [hs.released_of_held hd]
      exact Nat.zero_le 1
    · exact (hs.released_of_not_held hn fun h r hd => hheld ⟨h, r, hd⟩).le
  · rw [hs.ok.beyond n (not_lt.mp hn)]
    exact Nat.zero_le 1

/-- Holders can be renamed. -/
theorem linear_comp (hs : Linear s) (f : H ≃ H) : Linear ⟨s.table, s.held ∘ f⟩ := by
  refine ⟨hs.ok, fun h d hd => hs.live _ d hd, fun h h' d hd hd' => ?_, fun r n hat => ?_⟩
  · exact f.injective (hs.unique _ _ d hd hd')
  · obtain ⟨h, hd⟩ := hs.covered r n hat
    exact ⟨f.symm h, by simpa using hd⟩

/-- A transfer exchanges a holder with one that has nothing. -/
theorem transfer_eq_swap [DecidableEq H] (hne : h ≠ h') (hh' : s.held h' = none) :
    Function.update (Function.update s.held h' (s.held h)) h none = s.held ∘ Equiv.swap h h' := by
  funext k
  by_cases hk : k = h
  · subst hk
    rw [Function.update_self, Function.comp_apply, Equiv.swap_apply_left, hh']
  · rw [Function.update_of_ne hk, Function.comp_apply]
    by_cases hk' : k = h'
    · subst hk'
      rw [Function.update_self, Equiv.swap_apply_right]
    · rw [Function.update_of_ne hk', Equiv.swap_apply_of_ne_of_ne hk hk']

end Linear

variable [DecidableEq R] [DecidableEq H]

def State.next (s : State R H) : Label R H → Option (State R H)
  | .acquire h r =>
    if s.table.slots r = none ∧ s.held h = none then
      some ⟨s.table.grant r, Function.update s.held h (some ⟨r, s.table.granted⟩)⟩
    else none
  | .transfer h h' =>
    if h ≠ h' ∧ s.held h' = none then
      some ⟨s.table, Function.update (Function.update s.held h' (s.held h)) h none⟩
    else none
  | .release h =>
    match s.held h with
    | some d => some ⟨s.table.release d, Function.update s.held h none⟩
    | none => some s
  | .foreign r used =>
    if s.table.slots r = if used then none else some none then
      some { s with table := s.table.foreign r used }
    else none

/-- Nothing is held at first. Names may be in use by others. -/
def system (R : Type u) (H : Type v) [DecidableEq R] [DecidableEq H] :
    System (State R H) (Label R H) where
  init s := s = ⟨.empty R, fun _ => none⟩
  next := State.next

section Steps

variable {s s' : State R H} {h h' : H} {r : R} {d e : Handle R} {l : Label R H} {n : ℕ}

theorem linear_acquire (hs : Linear s) (hfree : s.table.slots r = none) (hh : s.held h = none) :
    Linear ⟨s.table.grant r, Function.update s.held h (some ⟨r, s.table.granted⟩)⟩ := by
  have hnot (n : ℕ) : ¬s.table.At r n := by simp [Table.At, hfree]
  have hold {k : H} {d : Handle R} (hk : s.held k = some d) : d.name ≠ r :=
    fun e => hnot d.grant (e ▸ hs.live k d hk)
  refine ⟨hs.ok.grant hfree, fun k d hk => ?_, fun k k' d hk hk' => ?_, fun r' n hat => ?_⟩
  · simp only [Function.update_apply] at hk
    show (s.table.grant r).At d.name d.grant
    rw [Table.at_grant]
    split_ifs at hk with e
    · cases hk
      rw [if_pos rfl]
    · rw [if_neg (hold hk)]
      exact hs.live k d hk
  · simp only [Function.update_apply] at hk hk'
    split_ifs at hk hk' with e e' e'
    · exact e.trans e'.symm
    · cases hk
      exact absurd rfl (hold hk')
    · cases hk'
      exact absurd rfl (hold hk)
    · exact hs.unique k k' d hk hk'
  · have hat' := Table.at_grant.mp hat
    split_ifs at hat' with e
    · subst e hat'
      exact ⟨h, Function.update_self ..⟩
    · obtain ⟨k, hk⟩ := hs.covered r' n hat'
      have hne : k ≠ h := by
        rintro rfl
        rw [hh] at hk
        cases hk
      exact ⟨k, (Function.update_of_ne hne ..).trans hk⟩

theorem linear_release (hs : Linear s) (hd : s.held h = some d) :
    Linear ⟨s.table.release d, Function.update s.held h none⟩ := by
  have hkeep {k : H} {e : Handle R} (hk : Function.update s.held h none k = some e) :
      k ≠ h ∧ s.held k = some e := by
    rw [Function.update_apply] at hk
    split_ifs at hk with e
    exact ⟨e, hk⟩
  refine ⟨hs.ok.release (hs.live h d hd), fun k e hk => ?_, fun k k' e hk hk' => ?_,
    fun r n hat => ?_⟩
  · obtain ⟨hne, hk⟩ := hkeep hk
    exact Table.at_release.mpr ⟨fun hname => hne (hs.holder_eq hk hd hname), hs.live k e hk⟩
  · exact hs.unique k k' e (hkeep hk).2 (hkeep hk').2
  · obtain ⟨hname, hat⟩ := Table.at_release.mp hat
    obtain ⟨k, hk⟩ := hs.covered r n hat
    have hne : k ≠ h := by
      rintro rfl
      rw [hd] at hk
      cases hk
      exact hname rfl
    exact ⟨k, (Function.update_of_ne hne ..).trans hk⟩

omit [DecidableEq H] in
theorem linear_foreign {used : Bool} (hs : Linear s)
    (hr : s.table.slots r = none ∨ s.table.slots r = some none) :
    Linear { s with table := s.table.foreign r used } :=
  ⟨hs.ok.foreign hr, fun h d hd => (Table.at_foreign hr).mpr (hs.live h d hd), hs.unique,
    fun r n hat => hs.covered r n ((Table.at_foreign hr).mp hat)⟩

theorem linear_step (hs : Linear s) (hn : s.next l = some s') : Linear s' := by
  cases l with
  | acquire h r =>
    obtain ⟨⟨hfree, hh⟩, h⟩ := Option.ite_none_right_eq_some.mp hn
    cases h
    exact linear_acquire hs hfree hh
  | transfer h h' =>
    obtain ⟨⟨hne, hh'⟩, h⟩ := Option.ite_none_right_eq_some.mp hn
    cases h
    rw [transfer_eq_swap hne hh']
    exact linear_comp hs _
  | release h =>
    simp only [State.next] at hn
    split at hn
    · next d hd =>
      cases hn
      exact linear_release hs hd
    · cases hn
      exact hs
  | foreign r used =>
    obtain ⟨hr, h⟩ := Option.ite_none_right_eq_some.mp hn
    cases h
    refine linear_foreign hs ?_
    cases used
    · exact .inr hr
    · exact .inl hr

/-- **Ownership is linear** after any steps. -/
theorem linear (h : (system R H).Reachable Free s) : Linear s := by
  refine h.invariant (I := Linear) ?_ fun s l s' _ hs _ hn => linear_step hs hn
  rintro _ rfl
  exact ⟨Table.ok_empty, nofun, nofun, nofun⟩

end Steps

end Ownership
