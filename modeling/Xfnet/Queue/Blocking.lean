import Xfnet.Foundations.Monitor

/-!
# The blocking queue

`BlockingQueue` as a monitor: a deque with a capacity behind `m_mutex`, with the conditions
`m_not_empty_cond` and `m_not_full_cond`. The length of a deadline does not matter here, since a
wait with a deadline may time out at any moment.
-/

namespace Xfnet.BlockingQueue

open Monitor

universe u

variable {α : Type u}

inductive Cond
  | notEmpty
  | notFull
  deriving DecidableEq

/-- `m_queue` and `m_capacity`. -/
structure Content (α : Type u) where
  queue : List α
  capacity : ℕ

/-- `pushFor` and `popFor` are the overloads with a timeout. -/
inductive Op (α : Type u)
  | push (v : α)
  | pushFor (v : α)
  | tryPush (v : α)
  | tryPop
  | pop
  | popFor
  | size
  | setCapacity (capacity : ℕ)

/-- What an operation returns: a push that took its value in, a pop with the value it hands out,
the `false` of either, or what the other operations return. -/
inductive Ret (α : Type u)
  | accepted
  | handed (v : α)
  | refused
  | size (n : ℕ)
  | void

/-- The default of `m_capacity`. -/
def defaultCapacity : ℕ := 18446744073709551615

namespace Content

/-- The body of the pushes, which differ in what they do on a full queue. -/
def pushOr (c : Content α) (v : α) (full : Outcome Cond (Content α) (Ret α)) :
    Outcome Cond (Content α) (Ret α) :=
  if c.queue.length ≥ c.capacity then full
  else .done { c with queue := c.queue ++ [v] } .accepted (some .notEmpty)

/-- The body of the pops, which differ in what they do on an empty queue. -/
def popOr (c : Content α) (empty : Outcome Cond (Content α) (Ret α)) :
    Outcome Cond (Content α) (Ret α) :=
  match c.queue with
  | [] => empty
  | v :: rest => .done { c with queue := rest } (.handed v) (some .notFull)

def push (c : Content α) (v : α) : Outcome Cond (Content α) (Ret α) := c.pushOr v (.wait .notFull)

def tryPush (c : Content α) (v : α) : Outcome Cond (Content α) (Ret α) :=
  c.pushOr v (.done c .refused none)

def tryPop (c : Content α) : Outcome Cond (Content α) (Ret α) := c.popOr (.done c .refused none)

def pop (c : Content α) : Outcome Cond (Content α) (Ret α) := c.popOr (.wait .notEmpty)

def size (c : Content α) : Outcome Cond (Content α) (Ret α) :=
  .done c (.size c.queue.length) none

def setCapacity (c : Content α) (capacity : ℕ) : Outcome Cond (Content α) (Ret α) :=
  .done { c with capacity := capacity } .void none

end Content

/-- The operations, each run under the mutex. -/
def body : Op α → Content α → Outcome Cond (Content α) (Ret α)
  | .push v, c => c.push v
  | .pushFor v, c => c.push v
  | .tryPush v, c => c.tryPush v
  | .tryPop, c => c.tryPop
  | .pop, c => c.pop
  | .popFor, c => c.pop
  | .size, c => c.size
  | .setCapacity capacity, c => c.setCapacity capacity

/-- The waits with a deadline return `false` when it passes. -/
def timeout : Op α → Option (Ret α)
  | .pushFor _ => some .refused
  | .popFor => some .refused
  | _ => none

def blockingQueue (α : Type u) : Spec (Op α) Cond (Content α) (Ret α) := ⟨body, timeout⟩

theorem refused_of_timeout {op : Op α} {r : Ret α}
    (h : (blockingQueue α).timeout op = some r) : r = .refused := by
  cases op with
  | pushFor v => exact (Option.some.inj h).symm
  | popFor => exact (Option.some.inj h).symm
  | _ => cases h

/-- A queue in use by the threads `T`. -/
abbrev State (T : Type*) (α : Type u) := Monitor.State T (Op α) Cond (Content α) (Ret α)

/-! ## What the bodies do -/

/-- The value an operation pushes. -/
def Op.pushes : Op α → Option α
  | push v => some v
  | pushFor v => some v
  | tryPush v => some v
  | _ => none

/-- The operation pops. -/
def Op.Pops : Op α → Prop
  | tryPop => True
  | pop => True
  | popFor => True
  | _ => False

/-- The operation waits where it cannot complete. -/
def Op.MayWait : Op α → Prop
  | push _ => True
  | pushFor _ => True
  | pop => True
  | popFor => True
  | _ => False

theorem not_pops_of_pushes {op : Op α} {v : α} (h : op.pushes = some v) : ¬op.Pops := by
  cases op <;> simp_all [Op.pushes, Op.Pops]

/-- What a completed body did: take a value in, hand the first one out, or neither. -/
inductive Did (op : Op α) (c : Content α) : Content α → Ret α → Option Cond → Prop
  | accepted {v : α} : op.pushes = some v → c.queue.length < c.capacity →
      Did op c { c with queue := c.queue ++ [v] } .accepted (some .notEmpty)
  | handed {v : α} {rest : List α} : op.Pops → c.queue = v :: rest →
      Did op c { c with queue := rest } (.handed v) (some .notFull)
  | refused : ¬op.MayWait → Did op c c .refused none
  | size : op = .size → Did op c c (.size c.queue.length) none
  | resized {capacity : ℕ} : op = .setCapacity capacity →
      Did op c { c with capacity := capacity } .void none

/-- Why a body waits. -/
inductive Blocked (op : Op α) (c : Content α) : Cond → Prop
  | full {v : α} : op.MayWait → op.pushes = some v → c.capacity ≤ c.queue.length →
      Blocked op c .notFull
  | empty : op.MayWait → op.Pops → c.queue = [] → Blocked op c .notEmpty

/-- What an outcome says about the operation and the content before it. -/
def Outcome.Ok (op : Op α) (c : Content α) : Outcome Cond (Content α) (Ret α) → Prop
  | .wait k => Blocked op c k
  | .done c' r n => Did op c c' r n

theorem pushOr_ok {op : Op α} {v : α} {c : Content α} {o : Outcome Cond (Content α) (Ret α)}
    (hop : op.pushes = some v) (hfull : c.capacity ≤ c.queue.length → Outcome.Ok op c o) :
    Outcome.Ok op c (c.pushOr v o) := by
  unfold Content.pushOr
  split
  · next h => exact hfull h
  · next h => exact .accepted hop (not_le.mp h)

theorem popOr_ok {op : Op α} {c : Content α} {o : Outcome Cond (Content α) (Ret α)}
    (hop : op.Pops) (hempty : c.queue = [] → Outcome.Ok op c o) :
    Outcome.Ok op c (c.popOr o) := by
  unfold Content.popOr
  split
  · next h => exact hempty h
  · next h => exact .handed hop h

/-- **The bodies**, one case per operation. -/
theorem body_ok (op : Op α) (c : Content α) : Outcome.Ok op c (body op c) := by
  cases op with
  | push v => exact pushOr_ok rfl fun h => .full trivial rfl h
  | pushFor v => exact pushOr_ok rfl fun h => .full trivial rfl h
  | tryPush v => exact pushOr_ok rfl fun _ => .refused id
  | tryPop => exact popOr_ok trivial fun _ => .refused id
  | pop => exact popOr_ok trivial fun h => .empty trivial trivial h
  | popFor => exact popOr_ok trivial fun h => .empty trivial trivial h
  | size => exact .size rfl
  | setCapacity capacity => exact .resized rfl

theorem did_of_body {op : Op α} {c c' : Content α} {r : Ret α} {n : Option Cond}
    (h : body op c = .done c' r n) : Did op c c' r n := by
  have := body_ok op c
  rwa [h] at this

theorem blocked_of_body {op : Op α} {c : Content α} {k : Cond} (h : body op c = .wait k) :
    Blocked op c k := by
  have := body_ok op c
  rwa [h] at this

theorem push_done {v : α} {c c' : Content α} {r : Ret α} {n : Option Cond}
    (h : body (.push v) c = .done c' r n) :
    c'.queue = c.queue ++ [v] ∧ r = .accepted ∧ n = some .notEmpty := by
  cases did_of_body h with
  | accepted hv _ =>
    obtain rfl := Option.some.inj hv
    exact ⟨rfl, rfl, rfl⟩
  | handed hpops _ => exact hpops.elim
  | refused hwait => exact absurd trivial hwait
  | size he => cases he
  | resized he => cases he

theorem pop_done {c c' : Content α} {r : Ret α} {n : Option Cond} (h : body .pop c = .done c' r n) :
    ∃ v, c.queue = v :: c'.queue ∧ r = .handed v ∧ n = some .notFull := by
  cases did_of_body h with
  | accepted hv _ => cases hv
  | @handed v rest _ hcons => exact ⟨v, hcons, rfl, rfl⟩
  | refused hwait => exact absurd trivial hwait
  | size he => cases he
  | resized he => cases he

end Xfnet.BlockingQueue
