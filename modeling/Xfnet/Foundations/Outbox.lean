import Xfnet.Foundations.Transition
import Mathlib.Data.List.Basic

/-!
# Outboxes

Items are posted to a queue and served from its front, one at a time, by a server that is told of
work by a switch: posting arms it, and the server disarms it when it finds nothing to serve. Every
operation here is one step. What an implementation that takes more steps, under a lock, refines is
this.

The front stays in the queue while it is served, and until it is removed afterwards, so an item is
in one of the phases of `Phase`.
-/

namespace Outbox

open Transition

universe u

variable {α : Type u}

/-- Whether the front is being served: not yet, at the moment, or no more. -/
inductive Phase (α : Type u)
  | ready
  | serving (a : α)
  | served
  deriving DecidableEq

/-- What has ever been posted, what is in the queue, what has been served, and the switch. -/
@[ext] structure State (α : Type u) where
  posted : List α
  waiting : List α
  done : List α
  phase : Phase α
  armed : Bool

inductive Label (α : Type u)
  | post (a : α)
  | take
  | finish
  | remove
  | disarm

namespace State

def next (s : State α) : Label α → Option (State α)
  | .post a =>
    some { s with posted := s.posted ++ [a], waiting := s.waiting ++ [a], armed := true }
  | .take =>
    match s.phase, s.waiting with
    | .ready, a :: _ => some { s with phase := .serving a }
    | _, _ => none
  | .finish =>
    match s.phase with
    | .serving a => some { s with done := s.done ++ [a], phase := .served }
    | _ => none
  | .remove =>
    match s.phase, s.waiting with
    | .served, _ :: rest => some { s with waiting := rest, phase := .ready }
    | _, _ => none
  | .disarm =>
    match s.phase, s.waiting with
    | .ready, [] => some { s with armed := false }
    | _, _ => none

/-- The part of the queue that has not been served. -/
def undone (s : State α) : List α :=
  match s.phase with
  | .served => s.waiting.tail
  | _ => s.waiting

/-- What the outbox is for: items are served in the order in which they were posted, one at a time,
and nothing waits while the switch is off. -/
structure Orderly (s : State α) : Prop where
  order : s.done ++ s.undone = s.posted
  front : ∀ a, s.phase = .serving a → s.waiting.head? = some a
  served : s.phase = .served → s.waiting ≠ []
  armed : s.waiting ≠ [] → s.armed = true

end State

/-- The outbox, empty at first. -/
def system (α : Type u) : System (State α) (Label α) where
  init s := s.posted = [] ∧ s.waiting = [] ∧ s.done = [] ∧ s.phase = .ready
  next := State.next

section Runs

variable {s s' : State α} {l : Label α} {a : α} {rest : List α}

theorem next_take (hphase : s.phase = .ready) (hwaiting : s.waiting = a :: rest) :
    s.next .take = some { s with phase := .serving a } := by
  rw [State.next, hphase, hwaiting]

theorem next_finish (hphase : s.phase = .serving a) :
    s.next .finish = some { s with done := s.done ++ [a], phase := .served } := by
  rw [State.next, hphase]

theorem next_remove (hphase : s.phase = .served) (hwaiting : s.waiting = a :: rest) :
    s.next .remove = some { s with waiting := rest, phase := .ready } := by
  rw [State.next, hphase, hwaiting]

theorem next_disarm (hphase : s.phase = .ready) (hwaiting : s.waiting = []) :
    s.next .disarm = some { s with armed := false } := by
  rw [State.next, hphase, hwaiting]

theorem orderly_init (h : (system α).init s) : s.Orderly := by
  obtain ⟨hposted, hwaiting, hdone, hphase⟩ := h
  refine ⟨?_, fun a ha => ?_, fun hserved => ?_, fun hne => absurd hwaiting hne⟩
  · rw [State.undone, hphase, hposted, hwaiting, hdone]
    rfl
  · rw [hphase] at ha
    cases ha
  · rw [hphase] at hserved
    cases hserved

theorem orderly_step (h : s.Orderly) (hn : s.next l = some s') : s'.Orderly := by
  obtain ⟨posted, waiting, done, phase, armed⟩ := s
  obtain ⟨horder, hfront, hserved, harmed⟩ := h
  cases l with
  | post a =>
    cases hn
    refine ⟨?_, fun b hb => ?_, fun _ => by simp, fun _ => rfl⟩
    · rw [← horder, List.append_assoc]
      congr 1
      cases phase with
      | served => exact List.tail_append_of_ne_nil (hserved rfl)
      | ready => rfl
      | serving b => rfl
    · simp only [List.head?_append]
      rw [hfront b hb]
      rfl
  | take =>
    cases phase <;> cases waiting <;> cases hn
    exact ⟨horder, fun b hb => by cases hb; rfl, nofun, harmed⟩
  | finish =>
    cases phase <;> cases hn
    next a =>
      -- the item that moves to `done` is the front
      have hhead : waiting.head? = some a := hfront a rfl
      obtain ⟨rest, rfl⟩ := List.head?_eq_some_iff.mp hhead
      refine ⟨?_, nofun, fun _ => List.cons_ne_nil _ _, harmed⟩
      simpa [State.undone] using horder
  | remove =>
    cases phase <;> cases waiting <;> cases hn
    exact ⟨horder, nofun, nofun, fun _ => harmed (List.cons_ne_nil _ _)⟩
  | disarm =>
    cases phase <;> cases waiting <;> cases hn
    exact ⟨horder, nofun, nofun, fun hne => absurd rfl hne⟩

/-- **Items as words**: the words of what has been served, with the beginning of the next one, are
the beginning of the words of what has been posted. -/
theorem State.Orderly.flatMap_prefix {β : Type*} {f : α → List β} {part : List β} (h : s.Orderly)
    (hpart : part <+: s.undone.head?.elim [] f) :
    s.done.flatMap f ++ part <+: s.posted.flatMap f := by
  rw [← h.order, List.flatMap_append]
  refine List.prefix_append_right_inj _ |>.mpr (hpart.trans ?_)
  cases s.undone with
  | nil => exact List.nil_prefix
  | cons a rest => exact List.prefix_append _ _

end Runs

end Outbox
