import Xfnet.Foundations.Programs
import Xfnet.Queue.WakeUp

/-!
# Producers and consumers get through

Threads that each push some values, or pop some, through one queue that has room for at least one
value. However they interleave they come to an end, and what they got done by then depends on the
numbers of the pushes and the pops alone (`producers_consumers`): each side goes as far as the
other and the capacity let it, so that everybody gets through just when neither leaves the other
with too much.
-/

namespace Xfnet.BlockingQueue

open Counting Monitor Transition

universe u

variable {T : Type*} {α : Type u}

def Op.isPush : Op α → Bool
  | push _ => true
  | _ => false

def Op.isPop : Op α → Bool
  | pop => true
  | _ => false

/-- The program of a producer or of a consumer. -/
def OneSided (prog : List (Op α)) : Prop :=
  (∀ op ∈ prog, op.isPush = true) ∨ ∀ op ∈ prog, op.isPop = true

theorem OneSided.push_or_pop {prog : List (Op α)} (h : OneSided prog) {op : Op α}
    (hop : op ∈ prog) : (∃ v, op = .push v) ∨ op = .pop := by
  rcases h with hpush | hpop
  · cases op with
    | push v => exact .inl ⟨v, rfl⟩
    | _ => cases hpush _ hop
  · cases op with
    | pop => exact .inr rfl
    | _ => cases hpop _ hop

theorem Op.isPop_of_isPush {op : Op α} (h : op.isPush = true) : op.isPop = false := by
  cases op <;> first | rfl | cases h

theorem Op.isPush_of_isPop {op : Op α} (h : op.isPop = true) : op.isPush = false := by
  cases op <;> first | rfl | cases h

/-! ## What is done -/

/-- Completed pushes took their value in and completed pops handed one out. -/
theorem lengths_of_legal {P : T → Op α → Prop}
    (hP : ∀ t op, P t op → (∃ v, op = .push v) ∨ op = .pop)
    {c c' : Content α} {log : List (T × Op α × Ret α)}
    (h : (blockingQueue α).Legal P c log c') :
    (accepted log).length = log.countP (fun e => e.2.1.isPush) ∧
      (handed log).length = log.countP fun e => e.2.1.isPop := by
  induction h with
  | nil => exact ⟨rfl, rfl⟩
  | @snoc log c₁ c₂ t op r _ hop hc ih =>
    obtain ⟨hacc, hhand⟩ := ih
    simp only [accepted_concat, handed_concat, List.length_append, List.countP_append, hacc, hhand,
      List.countP_singleton]
    rcases hP t op hop with ⟨v, rfl⟩ | rfl
    · cases hc with
      | body hb =>
        obtain ⟨-, rfl, -⟩ := push_done hb
        exact ⟨rfl, rfl⟩
      | timeout ht => cases ht
    · cases hc with
      | body hb =>
        obtain ⟨v, -, rfl, -⟩ := pop_done hb
        exact ⟨rfl, rfl⟩
      | timeout ht => cases ht

section Runs

variable [DecidableEq T] [Fintype T] {capacity : ℕ} {prog : T → List (Op α)}

/-- The threads in use of the queue, each with its program. -/
abbrev Crew (T : Type*) (α : Type u) := Programs T (Op α) Cond (Content α) (Ret α)

variable {s : Crew T α}

/-- What the threads got done, and what holds of the queue: `pushes` and `pops` are those of all
programs. -/
structure Balance (capacity pushes pops : ℕ) (s : Crew T α) : Prop where
  pushes : s.pending Op.isPush + (accepted s.state.log).length = pushes
  pops : s.pending Op.isPop + (handed s.state.log).length = pops
  held : (accepted s.state.log).length = (handed s.state.log).length + s.state.data.queue.length
  bound : s.state.data.queue.length ≤ capacity
  fixed : s.state.data.capacity = capacity
  notEmpty : KeepsUp .notEmpty items s.state
  notFull : KeepsUp .notFull slots s.state

theorem balance (hprog : ∀ t, OneSided (prog t))
    (h : (programs (blockingQueue α) ⟨[], capacity⟩ prog).Reachable Free s) :
    Balance capacity (∑ t, (prog t).countP Op.isPush) (∑ t, (prog t).countP Op.isPop) s := by
  obtain ⟨hstate, -⟩ := reachable_state h
  have hP : ∀ t op, op ∈ prog t → (∃ v, op = .push v) ∨ op = .pop :=
    fun t _ hop => (hprog t).push_or_pop hop
  have hfixed : ∀ t op, op ∈ prog t → FixedCapacity t op := by
    intro t op hop
    rcases hP t op hop with ⟨v, rfl⟩ | rfl <;> simp [FixedCapacity]
  have huntimed : ∀ t op, op ∈ prog t → (blockingQueue α).timeout op = none := by
    intro t op hop
    rcases hP t op hop with ⟨v, rfl⟩ | rfl <;> rfl
  have hslots : KeepsUp Cond.notFull slots s.state := by
    refine accounts_notFull.keepsUp (hstate.of_steps fun s l s' hr hc hn => ⟨hc.mono hfixed, ?_⟩)
    exact (heeds_of_untimed _ huntimed (waitsOk_of_reachable hr) (step_of_next hn)).spares
  have hfifo := fifo_of_reachable (hstate.mono fun _ _ hc => hc.mono hfixed)
  obtain ⟨hacc, hhand⟩ := lengths_of_legal hP (legal_of_reachable hstate)
  refine ⟨?_, ?_, ?_, hfifo.bound, hfifo.fixed, ?_, hslots⟩
  · rw [hacc]
    exact pending_add_completed h
  · rw [hhand]
    exact pending_add_completed h
  · rw [← hfifo.order, List.length_append]
  · exact (accounts_notEmpty _).keepsUp_of_untimed huntimed hstate

/-- A thread that sleeps in a push found the queue full, one that sleeps in a pop found it empty. -/
theorem Balance.stuck {pushes pops : ℕ} (hb : Balance capacity pushes pops s)
    (hq : s.Quiet (blockingQueue α)) {t : T} {op : Op α} {k : Cond}
    (hpc : s.state.pc t = .asleep op k) :
    (k = .notFull → s.state.data.queue.length = capacity) ∧
      (k = .notEmpty → s.state.data.queue.length = 0) := by
  have hnone : ∀ u k, ¬(s.state.pc u).NotifiedOn k := by
    intro u k
    rcases asleep_or_through hq u with ⟨op, k', he⟩ | ⟨he, -⟩ <;> simp [he]
  refine ⟨?_, ?_⟩
  · rintro rfl
    have hle := hb.notFull t (by simp [hpc])
    rw [count_of_forall_not fun u => hnone u _] at hle
    have hbound := hb.bound
    have hfixed := hb.fixed
    simp only [slots] at hle
    omega
  · rintro rfl
    have hle := hb.notEmpty t (by simp [hpc])
    rw [count_of_forall_not fun u => hnone u _] at hle
    exact Nat.le_zero.mp hle

/-- **Who is left**: a producer that sleeps over a full queue, a consumer that sleeps over an empty
one, or a thread that is through. -/
theorem sides (hprog : ∀ t, OneSided (prog t))
    (h : (programs (blockingQueue α) ⟨[], capacity⟩ prog).Reachable Free s)
    (hq : s.Quiet (blockingQueue α)) (t : T) :
    (∃ op, s.state.pc t = .asleep op .notFull ∧ ∀ op' ∈ op :: s.todo t, op'.isPush = true) ∨
      (∃ op, s.state.pc t = .asleep op .notEmpty ∧ ∀ op' ∈ op :: s.todo t, op'.isPop = true) ∨
      s.state.pc t = .idle ∧ s.todo t = [] := by
  obtain ⟨hstate, htodo⟩ := reachable_state h
  rcases asleep_or_through hq t with ⟨op, k, hpc⟩ | hthrough
  · obtain ⟨hop, hwaits⟩ := waitsOk_of_reachable hstate t op k (by rw [hpc]; rfl)
    have hmem : ∀ op' ∈ op :: s.todo t, op' ∈ prog t := List.forall_mem_cons.mpr ⟨hop, htodo t⟩
    cases k with
    | notFull =>
      obtain ⟨-, v, hv⟩ := mayWait_pushes_of_waits hwaits
      refine .inl ⟨op, hpc, fun op' hop' => ?_⟩
      rcases hprog t with hpush | hpop
      · exact hpush op' (hmem op' hop')
      · have := hpop op hop
        cases op <;> simp_all [Op.isPop, Op.pushes]
    | notEmpty =>
      obtain ⟨-, hpops⟩ := mayWait_pops_of_waits hwaits
      refine .inr (.inl ⟨op, hpc, fun op' hop' => ?_⟩)
      rcases hprog t with hpush | hpop
      · have := hpush op hop
        cases op <;> simp_all [Op.isPush, Op.Pops]
      · exact hpop op' (hmem op' hop')
  · exact .inr (.inr hthrough)

/-- **Who gets through**: threads that only push or only pop, over a queue with room for one value
at least. A run has at most three steps for each operation and two for each spurious wake-up; when
nothing but spurious wake-ups is left, the pushes that completed are all of them, or as many as the
pops and the capacity allow, and the pops that completed are all of them, or as many as there are
pushes. So everybody is through just when there are enough pushes for the pops, and no more than
the queue can hold after them. -/
theorem producers_consumers (hcapacity : 1 ≤ capacity) (hprog : ∀ t, OneSided (prog t))
    {ls : List (Move T)}
    (h : (programs (blockingQueue α) ⟨[], capacity⟩ prog).exec Free
      ⟨⟨⟨[], capacity⟩, fun _ => .idle, []⟩, prog⟩ ls = some s) :
    ls.length ≤ 3 * ∑ t, (prog t).length + 2 * ls.countP Move.spurious ∧
      (s.Quiet (blockingQueue α) →
        (accepted s.state.log).length = min (∑ t, (prog t).countP Op.isPush)
          (∑ t, (prog t).countP Op.isPop + capacity) ∧
        (handed s.state.log).length = min (∑ t, (prog t).countP Op.isPush)
          (∑ t, (prog t).countP Op.isPop) ∧
        ((∀ t, s.state.pc t = .idle ∧ s.todo t = []) ↔
          ∑ t, (prog t).countP Op.isPop ≤ ∑ t, (prog t).countP Op.isPush ∧
          ∑ t, (prog t).countP Op.isPush ≤ ∑ t, (prog t).countP Op.isPop + capacity)) := by
  have hlen := length_le_of_exec h
  rw [steps_start] at hlen
  refine ⟨by omega, fun hq => ?_⟩
  have hreach := System.reachable_of_exec rfl h
  have hb := balance hprog hreach
  have hside := sides hprog hreach hq
  have hpush : s.pending Op.isPush = 0 ∨ s.state.data.queue.length = capacity := by
    by_cases hfull : ∃ t op, s.state.pc t = .asleep op .notFull
    · obtain ⟨t, op, hpc⟩ := hfull
      exact .inr ((hb.stuck hq hpc).1 rfl)
    · refine .inl (pending_eq_zero fun t => ?_)
      rcases hside t with ⟨op, hpc, -⟩ | ⟨op, hpc, hall⟩ | hthrough
      · exact absurd ⟨t, op, hpc⟩ hfull
      · exact .inl ⟨op, _, hpc, fun op' hop' => Op.isPush_of_isPop (hall op' hop')⟩
      · exact .inr hthrough
  have hpop : s.pending Op.isPop = 0 ∨ s.state.data.queue.length = 0 := by
    by_cases hempty : ∃ t op, s.state.pc t = .asleep op .notEmpty
    · obtain ⟨t, op, hpc⟩ := hempty
      exact .inr ((hb.stuck hq hpc).2 rfl)
    · refine .inl (pending_eq_zero fun t => ?_)
      rcases hside t with ⟨op, hpc, hall⟩ | ⟨op, hpc, -⟩ | hthrough
      · exact .inl ⟨op, _, hpc, fun op' hop' => Op.isPop_of_isPush (hall op' hop')⟩
      · exact absurd ⟨t, op, hpc⟩ hempty
      · exact .inr hthrough
  have hthrough : (∀ t, s.state.pc t = .idle ∧ s.todo t = []) ↔
      s.pending Op.isPush = 0 ∧ s.pending Op.isPop = 0 := by
    refine ⟨fun hall => ⟨pending_eq_zero fun t => .inr (hall t),
      pending_eq_zero fun t => .inr (hall t)⟩, fun hzero t => ?_⟩
    rcases hside t with ⟨op, hpc, hall⟩ | ⟨op, hpc, hall⟩ | hidle
    · simp [not_of_pending_eq_zero hzero.1 hpc] at hall
    · simp [not_of_pending_eq_zero hzero.2 hpc] at hall
    · exact hidle
  obtain ⟨hpushes, hpops, hheld, hbound, -, -, -⟩ := hb
  rw [hthrough]
  omega

/-- Threads that are all through leave nothing to do. -/
theorem quiet_of_through (h : ∀ t, s.state.pc t = .idle ∧ s.todo t = []) :
    s.Quiet (blockingQueue α) := by
  intro m s' hn
  cases m with
  | call t woken => simp [Programs.next, (h t).2] at hn
  | wake t => rfl
  | resume t timedOut woken => simp [Programs.next, State.next, (h t).1] at hn
  | leave t => simp [Programs.next, State.next, (h t).1] at hn

/-- A consumer waits for the first value, and the producer of two for its slot. -/
theorem producers_consumers_both_wait : ∃ s : Crew Bool ℕ,
    (∀ t, s.state.pc t = .idle ∧ s.todo t = []) ∧ (accepted s.state.log).length = 2 ∧
      (handed s.state.log).length = 1 := by
  let prog : Bool → List (Op ℕ) := fun t => bif t then [.push 5, .push 6] else [.pop]
  obtain ⟨s, hrun, hthrough⟩ : ∃ s : Crew Bool ℕ,
      (programs (blockingQueue ℕ) ⟨[], 1⟩ prog).exec Free ⟨⟨⟨[], 1⟩, fun _ => .idle, []⟩, prog⟩
        [.call false none, .call true (some false), .leave true, .call true none,
          .resume false false (some true), .leave false, .resume true false none, .leave true] =
            some s ∧ ∀ t, s.state.pc t = .idle ∧ s.todo t = [] :=
    ⟨_, rfl, Bool.forall_bool.mpr ⟨⟨rfl, rfl⟩, rfl, rfl⟩⟩
  have hsided : ∀ t, OneSided (prog t) :=
    Bool.forall_bool.mpr ⟨.inr (by decide), .inl (by decide)⟩
  obtain ⟨-, hdone⟩ := producers_consumers le_rfl hsided hrun
  obtain ⟨haccepted, hhanded, -⟩ := hdone (quiet_of_through hthrough)
  exact ⟨s, hthrough, haccepted, hhanded⟩

end Runs

end Xfnet.BlockingQueue
