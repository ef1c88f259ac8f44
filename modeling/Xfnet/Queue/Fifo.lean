import Xfnet.Queue.Blocking

/-!
# The queue is a bounded FIFO

The values taken in and the values handed out are read off the completed operations, in the order
of their critical sections. With a fixed capacity the first are the second followed by what the
queue holds (`bounded_fifo`).
-/

namespace Xfnet.BlockingQueue

open Monitor Transition

universe u

variable {T : Type*} {α : Type u}

/-- The value a completed operation took in. -/
def acceptedBy : T × Op α × Ret α → Option α
  | (_, op, .accepted) => op.pushes
  | _ => none

/-- The value a completed operation handed out. -/
def handedBy : T × Op α × Ret α → Option α
  | (_, _, .handed v) => some v
  | _ => none

def accepted (log : List (T × Op α × Ret α)) : List α := log.filterMap acceptedBy

def handed (log : List (T × Op α × Ret α)) : List α := log.filterMap handedBy

theorem filterMap_concat {β γ : Type*} (f : β → Option γ) (l : List β) (b : β) :
    (l ++ [b]).filterMap f = l.filterMap f ++ (f b).toList := by
  rw [List.filterMap_append]
  cases h : f b <;> simp [h]

theorem accepted_concat (log : List (T × Op α × Ret α)) (e : T × Op α × Ret α) :
    accepted (log ++ [e]) = accepted log ++ (acceptedBy e).toList := filterMap_concat _ log e

theorem handed_concat (log : List (T × Op α × Ret α)) (e : T × Op α × Ret α) :
    handed (log ++ [e]) = handed log ++ (handedBy e).toList := filterMap_concat _ log e

/-- Every operation but `SetCapacity`. -/
def FixedCapacity (_ : T) (op : Op α) : Prop := ∀ capacity, op ≠ .setCapacity capacity

instance (t : T) (op : Op α) : Decidable (FixedCapacity t op) :=
  match op with
  | .setCapacity capacity => isFalse fun h => h capacity rfl
  | .push _ => isTrue nofun
  | .pushFor _ => isTrue nofun
  | .tryPush _ => isTrue nofun
  | .tryPop => isTrue nofun
  | .pop => isTrue nofun
  | .popFor => isTrue nofun
  | .size => isTrue nofun

/-- The queue of the given capacity, with nothing in it. -/
def queue (T : Type*) [DecidableEq T] [Fintype T] (α : Type u) (capacity : ℕ) :
    System (State T α) (Label T (Op α)) :=
  system (blockingQueue α) ⟨[], capacity⟩

/-! ## One operation after another -/

/-- **One operation** with a fixed capacity: what it took in enters at the back, what it handed
out leaves at the front, and one that returns `false` does neither. -/
theorem completes_fifo {c c' : Content α} {t : T} {op : Op α} {r : Ret α}
    (hop : FixedCapacity t op) (hc : (blockingQueue α).Completes op c r c') :
    (handedBy (t, op, r)).toList ++ c'.queue = c.queue ++ (acceptedBy (t, op, r)).toList ∧
      c'.capacity = c.capacity ∧
      (c.queue.length ≤ c.capacity → c'.queue.length ≤ c.capacity) ∧ (r = .refused → c' = c) := by
  cases hc with
  | body hb =>
    cases did_of_body hb with
    | @accepted v hv hfree =>
      simpa [acceptedBy, handedBy, hv] using fun _ => Nat.succ_le_of_lt hfree
    | @handed v rest hpops hcons =>
      have hle : rest.length + 1 ≤ c.capacity → rest.length ≤ c.capacity := Nat.le_of_succ_le
      simpa [acceptedBy, handedBy, hcons] using hle
    | refused _ => simp [acceptedBy, handedBy]
    | size _ => simp [acceptedBy, handedBy]
    | resized he => exact absurd he (hop _)
  | timeout ht =>
    obtain rfl := refused_of_timeout ht
    simp [acceptedBy, handedBy]

/-- An operation that does not have to wait, as a single step on the content. -/
def complete (op : Op α) (c : Content α) : Option (Content α × Ret α) :=
  match body op c with
  | .wait _ => none
  | .done c' r _ => some (c', r)

/-- The operations taken as single steps are those that the threads of the monitor complete. -/
theorem completes_of_complete {op : Op α} {c c' : Content α} {r : Ret α}
    (h : complete op c = some (c', r)) : (blockingQueue α).Completes op c r c' := by
  unfold complete at h
  split at h
  · cases h
  · next hb =>
    obtain ⟨rfl, rfl⟩ := Prod.mk.inj (Option.some.inj h)
    exact .body hb

/-- The content after the completed operations `log`. -/
structure Content.Fifo (capacity : ℕ) (log : List (T × Op α × Ret α)) (c : Content α) : Prop where
  order : handed log ++ c.queue = accepted log
  bound : c.queue.length ≤ capacity
  fixed : c.capacity = capacity

theorem fifo_of_legal {capacity : ℕ} {log : List (T × Op α × Ret α)} {c : Content α}
    (h : (blockingQueue α).Legal FixedCapacity ⟨[], capacity⟩ log c) : c.Fifo capacity log := by
  induction h with
  | nil => exact ⟨rfl, Nat.zero_le _, rfl⟩
  | @snoc log c c' t op r _ hop hc ih =>
    obtain ⟨horder, hcapacity, hbound, -⟩ := completes_fifo hop hc
    refine ⟨?_, ?_, hcapacity.trans ih.fixed⟩
    · rw [handed_concat, accepted_concat, List.append_assoc, horder, ← List.append_assoc, ih.order]
    · exact ih.fixed ▸ hbound (ih.fixed.symm ▸ ih.bound)

/-! ## Every interleaving -/

section Runs

variable [DecidableEq T] {capacity : ℕ} {s s' : State T α} {l : Label T (Op α)}

/-- A step completes at most one operation; the content is as it was unless one completes and
returns something else than `false`. -/
theorem step_data (h : Step (blockingQueue α) s l s') (hc : Only FixedCapacity s l)
    (hw : ∀ t, WaitsOk (blockingQueue α) FixedCapacity t (s.pc t)) :
    s'.log = s.log ∧ s'.data = s.data ∨
      ∃ t op r, s'.log = s.log ++ [(t, op, r)] ∧ (r = .refused → s'.data = s.data) := by
  cases h with
  | sleep hs hb => exact .inl ⟨rfl, rfl⟩
  | @done _ t op c r n pc hs hb hn =>
    exact .inr ⟨t, op, r, rfl, (completes_fifo (hs.allowed hc hw) (.body hb)).2.2.2⟩
  | @timeout t op k b r _ hpc ht => exact .inr ⟨t, op, r, rfl, fun _ => rfl⟩
  | wake hpc => exact .inl ⟨rfl, rfl⟩
  | leave hpc => exact .inl ⟨rfl, rfl⟩

variable [Fintype T]

theorem fifo_of_reachable (h : (queue T α capacity).Reachable (Only FixedCapacity) s) :
    s.data.Fifo capacity s.log := fifo_of_legal (legal_of_reachable h)

/-- **The queue is a bounded FIFO**, for any number of threads and every interleaving: the values
handed out followed by the content are the values accepted, the size is within the capacity, and
the content changes only when an operation completes that does not return `false`. -/
theorem bounded_fifo (h : (queue T α capacity).Reachable (Only FixedCapacity) s) :
    handed s.log ++ s.data.queue = accepted s.log ∧ s.data.queue.length ≤ capacity ∧
      ∀ l s', Only FixedCapacity s l → (queue T α capacity).next s l = some s' →
        s'.log = s.log ∧ s'.data = s.data ∨
          ∃ t op r, s'.log = s.log ++ [(t, op, r)] ∧ (r = .refused → s'.data = s.data) := by
  have hfifo := fifo_of_reachable h
  refine ⟨hfifo.order, hfifo.bound, fun l s' hc hn => ?_⟩
  exact step_data (step_of_next hn) hc (waitsOk_of_reachable h)

/-- A consumer that waits on an empty queue of capacity `1` gets the value of a producer. -/
theorem bounded_fifo_handover : ∃ s : State Bool ℕ,
    (queue Bool ℕ 1).Reachable (Only FixedCapacity) s ∧ handed s.log = [5] ∧
      handed s.log ++ s.data.queue = accepted s.log := by
  obtain ⟨s, hrun, hhanded⟩ : ∃ s : State Bool ℕ,
      (queue Bool ℕ 1).exec (Only FixedCapacity) ⟨⟨[], 1⟩, fun _ => .idle, []⟩
        [.call true .pop none, .call false (.push 5) (some true), .resume true false none] =
          some s ∧ handed s.log = [5] :=
    ⟨_, rfl, rfl⟩
  have hreach := System.reachable_of_exec rfl hrun
  exact ⟨s, hreach, hhanded, (bounded_fifo hreach).1⟩

end Runs

end Xfnet.BlockingQueue
