import Xfnet.Foundations.Loops
import Xfnet.Foundations.Memory

/-!
# Two functions at the ends of a pipe

A `Mover` is a loop that moves the bytes at certain addresses one after another, a few at a time, on
the answers of its environment, and that is called again as long as its result asks for it. Two of
them, one that takes bytes out of a memory and one that stores them in another, run at the ends of a
FIFO. If each moves the bytes at its addresses once and in order (`Mover.Lawful`), then what was
sent is what was received followed by what is still on its way (`ok_of_reachable`), whichever two
they are and wherever the stream is cut.
-/

namespace Pipe

open Loops Transition

universe u v

variable {ρ : Type u} {β : Type v}

/-- A loop that moves bytes: when it is called again, where it starts, the addresses it has moved,
those its cursor describes, and those that an answer moves. -/
structure Mover (ρ : Type u) where
  σ : Type
  ε : Type
  loop : Loop σ ε ρ
  again : ρ → Bool
  start : σ
  moved : σ → List ℕ
  described : σ → List ℕ
  touches : σ → ε → List ℕ

namespace Mover

variable (A : Mover ρ)

/-- One caller that calls again for as long as it is asked to. -/
def system : System (Act A.σ ρ) (Option A.ε) := A.loop.resumable A.again A.start

def movedBy : Act A.σ ρ → List ℕ
  | .running s => A.moved s
  | .returned _ s => A.moved s
  | .aborted => []

def describedBy : Act A.σ ρ → List ℕ
  | .running s => A.described s
  | .returned _ s => A.described s
  | .aborted => []

def touchedBy : Act A.σ ρ → Option A.ε → List ℕ
  | .running s, some e => A.touches s e
  | _, _ => []

/-- What an iteration has moved. -/
def Adds (s : A.σ) (e : A.ε) : Flow A.σ ρ → Prop
  | .next s' => A.moved s' = A.moved s ++ A.touches s e
  | .ret _ s' => A.moved s' = A.moved s ++ A.touches s e
  | .abort => True

/-- **The bytes at `all` are moved** once and in order, and all of them when the loop is done; the
cursor describes those that are not moved yet. -/
structure Lawful (all : List ℕ) (I : A.σ → Prop) : Prop where
  spec : A.loop.Spec I fun r s => I s ∧ (r = A.loop.done → A.moved s = all)
  start : I A.start
  moved_start : A.moved A.start = []
  rest : ∀ s, I s → A.moved s ++ A.described s = all
  adds : ∀ s e, I s → A.loop.guard s = true → A.loop.allows s e = true →
    A.Adds s e (A.loop.body s e)

end Mover

section Laws

variable {A : Mover ρ} {all : List ℕ} {I : A.σ → Prop} {a a' : Act A.σ ρ} {l : Option A.ε}

theorem movedBy_enter (s : A.σ) : A.movedBy (A.loop.enter s) = A.moved s := by
  unfold Loop.enter
  split <;> rfl

namespace Mover.Lawful

theorem holds (h : A.Lawful all I) (ha : A.system.Reachable Free a) :
    Loop.Holds (Loop.Spec.Inside A.loop I)
      (fun r s => I s ∧ (r = A.loop.done → A.moved s = all)) a :=
  h.spec.resumable (fun _ _ hQ _ => hQ.1) h.start ha

theorem not_aborted (h : A.Lawful all I) (ha : A.system.Reachable Free a) : a ≠ .aborted := by
  rintro rfl
  exact h.holds ha

theorem movedBy_append (h : A.Lawful all I) (ha : A.system.Reachable Free a) :
    A.movedBy a ++ A.describedBy a = all := by
  have hholds := h.holds ha
  cases a with
  | running s => exact h.rest s hholds.1
  | returned r s => exact h.rest s hholds.1
  | aborted => exact hholds.elim

theorem movedBy_prefix (h : A.Lawful all I) (ha : A.system.Reachable Free a) :
    A.movedBy a <+: all := ⟨_, h.movedBy_append ha⟩

theorem movedBy_done (h : A.Lawful all I) (ha : A.system.Reachable Free a)
    (hdone : a.result = some A.loop.done) : A.movedBy a = all := by
  obtain ⟨s, rfl⟩ := Act.result_eq_some.mp hdone
  exact (h.holds ha).2 rfl

theorem movedBy_start (h : A.Lawful all I) : A.movedBy (A.loop.enter A.start) = [] :=
  (movedBy_enter A.start).trans h.moved_start

/-- **One step** moves what it touches. -/
theorem movedBy_step (h : A.Lawful all I) (ha : A.system.Reachable Free a)
    (hn : A.system.next a l = some a') : A.movedBy a' = A.movedBy a ++ A.touchedBy a l := by
  have hholds := h.holds ha
  cases l with
  | some e =>
    cases a with
    | running s =>
      obtain ⟨hallow, rfl⟩ := Loop.step_running hn
      have hadds := h.adds s e hholds.1 hholds.2 hallow
      cases hb : A.loop.body s e with
      | next s' =>
        rw [hb] at hadds
        exact (movedBy_enter s').trans hadds
      | ret r s' =>
        rw [hb] at hadds
        exact hadds
      | abort => exact absurd hb (h.spec.safe s e hholds.1 hholds.2 hallow)
    | returned r s => cases hn
    | aborted => exact hholds.elim
  | none =>
    cases a with
    | running s => cases hn
    | returned r s =>
      obtain ⟨-, rfl⟩ : A.again r = true ∧ A.loop.enter s = a' := by
        simpa [Mover.system, Loop.resumable] using hn
      rw [movedBy_enter]
      exact (List.append_nil _).symm
    | aborted => cases hn

end Mover.Lawful

end Laws

/-! ## Both ends -/

/-- The two functions, the bytes on their way, and the memory of the receiver. -/
structure State (A B : Mover ρ) (β : Type v) where
  sender : Act A.σ ρ
  receiver : Act B.σ ρ
  queue : List β
  mem : ℕ → β

/-- Both have been called, and nothing has moved. -/
def State.fresh (A B : Mover ρ) (mem : ℕ → β) : State A B β :=
  ⟨A.loop.enter A.start, B.loop.enter B.start, [], mem⟩

/-- A step of either end. -/
inductive Label (A B : Mover ρ)
  | send (l : Option A.ε)
  | recv (l : Option B.ε)

section Both

variable {A B : Mover ρ}

def next (src : ℕ → β) (s : State A B β) : Label A B → Option (State A B β)
  | .send l => (A.system.next s.sender l).map fun a =>
      { s with sender := a, queue := s.queue ++ (A.touchedBy s.sender l).map src }
  | .recv l =>
    let as := B.touchedBy s.receiver l
    if as.length ≤ s.queue.length then
      (B.system.next s.receiver l).map fun b =>
        { s with
          receiver := b
          queue := s.queue.drop as.length
          mem := Memory.scatter s.mem as (s.queue.take as.length) }
    else none

/-- Bytes go from the memory `src` to a memory that was `mem`. -/
def pipe (A B : Mover ρ) (src mem : ℕ → β) : System (State A B β) (Label A B) where
  init s := s = .fresh A B mem
  next := next src

variable {sent received : List ℕ} {I : A.σ → Prop} {J : B.σ → Prop} {src mem : ℕ → β}
  {s s' : State A B β}

/-- What was sent is what was received and what is on its way. -/
structure Ok (src mem : ℕ → β) (s : State A B β) : Prop where
  sender : A.system.Reachable Free s.sender
  receiver : B.system.Reachable Free s.receiver
  bytes : (B.movedBy s.receiver).map s.mem ++ s.queue = (A.movedBy s.sender).map src
  others : ∀ x, x ∉ B.movedBy s.receiver → s.mem x = mem x

theorem ok_step (hA : A.Lawful sent I) (hB : B.Lawful received J) (hnodup : received.Nodup)
    (hok : Ok src mem s) {l : Label A B} (h : next src s l = some s') : Ok src mem s' := by
  cases l with
  | send l =>
    obtain ⟨a, hn, rfl⟩ := Option.map_eq_some_iff.mp h
    refine ⟨.step hok.sender trivial hn, hok.receiver, ?_, hok.others⟩
    show _ ++ (s.queue ++ _) = _
    rw [hA.movedBy_step hok.sender hn, List.map_append, ← hok.bytes, List.append_assoc]
  | recv l =>
    obtain ⟨hle, h⟩ := Option.ite_none_right_eq_some.mp h
    obtain ⟨b, hn, rfl⟩ := Option.map_eq_some_iff.mp h
    have hreach : B.system.Reachable Free b := .step hok.receiver trivial hn
    have hmoved := hB.movedBy_step hok.receiver hn
    -- the addresses are new ones, each different from the others
    have hnew : (B.movedBy s.receiver ++ B.touchedBy s.receiver l).Nodup := by
      rw [← hmoved]
      exact hnodup.sublist (hB.movedBy_prefix hreach).sublist
    obtain ⟨-, hdistinct, hdisjoint⟩ := List.nodup_append.mp hnew
    have hlen : (B.touchedBy s.receiver l).length =
        (s.queue.take (B.touchedBy s.receiver l).length).length := by
      rw [List.length_take, Nat.min_eq_left hle]
    refine ⟨hok.sender, hreach, ?_, fun x hx => ?_⟩
    · show (B.movedBy b).map _ ++ s.queue.drop _ = _
      rw [hmoved, List.map_append, Memory.map_scatter hdistinct hlen,
        Memory.map_scatter_of_disjoint fun x hx hx' => hdisjoint x hx x hx' rfl, List.append_assoc,
        List.take_append_drop]
      exact hok.bytes
    · rw [hmoved, List.mem_append, not_or] at hx
      exact (Memory.scatter_of_not_mem hx.2).trans (hok.others x hx.1)

/-- **What was sent is what was received, followed by what is on its way.** -/
theorem ok_of_reachable (hA : A.Lawful sent I) (hB : B.Lawful received J)
    (hnodup : received.Nodup) (h : (pipe A B src mem).Reachable Free s) : Ok src mem s := by
  refine System.Reachable.invariant (I := Ok src mem) ?_
    (fun s l s' _ hok _ hn => ok_step hA hB hnodup hok hn) h
  rintro s rfl
  refine ⟨.start rfl, .start rfl, ?_, fun x _ => rfl⟩
  show (B.movedBy (B.loop.enter B.start)).map mem ++ [] = (A.movedBy (A.loop.enter A.start)).map src
  rw [hA.movedBy_start, hB.movedBy_start]
  rfl

/-- A receiver that is done holds the beginning of what the sender has to send. -/
theorem Ok.prefix_of_done (hok : Ok src mem s) (hA : A.Lawful sent I) (hB : B.Lawful received J)
    (hdone : s.receiver.result = some B.loop.done) : received.map s.mem <+: sent.map src := by
  have hmoved := hB.movedBy_done hok.receiver hdone
  have hbytes := hok.bytes
  rw [hmoved] at hbytes
  exact (List.prefix_append _ _).trans (hbytes ▸ (hA.movedBy_prefix hok.sender).map src)

end Both

end Pipe
