import Mathlib.Data.Multiset.AddSub
import Mathlib.Tactic.Abel
import Xfnet.Queue.Fifo

/-!
# The addresses of a TCP client

`TcpClient::Add` queues an address; the connect thread takes it from there to the callback that
makes a handler for the connection, by way of `m_failed_queue` when the callback refuses. Steps of
the connect thread interleave with those of the threads that call `Add` and `Stop`. The operations
of the queues are single steps, since they take effect one after another.

An address is only dropped where `Connector::Connect` gives no valid stream (`accounted`), so none
is where it always does (`added_conserved`).
-/

namespace Xfnet.TcpClient

open Transition BlockingQueue

variable {A : Type*}

/-- Where the connect thread is: at the test of `m_state` in `ConnectThread`, or in `Connect` with
the address in its local variable `addr`. -/
inductive ConnectThread (A : Type*)
  | loop
  | popping
  | migrating
  | requeuing (addr : A)
  | connecting (addr : A)
  | adding (addr : A)
  | failing (addr : A)
  | exited
  deriving DecidableEq

/-- The queues, whether `Stop` has set `m_state`, the connect thread; and the addresses ever added,
handed over to the callback with success, and dropped. -/
structure Client (A : Type*) where
  connectQueue : Content A
  failedQueue : Content A
  stopping : Bool
  thread : ConnectThread A
  added : List A
  handed : List A
  dropped : List A

/-- Steps of other threads (`add`, `stop`) and of the connect thread, with the outcome of the wait
for an address, of the connection attempt and of the callback. -/
inductive Label (A : Type*)
  | add (addr : A)
  | stop
  | test
  | pop
  | popTimeout
  | tryPop
  | push
  | connect (valid : Bool)
  | create (ok : Bool)
  | fail
  deriving DecidableEq

namespace Client

def next (s : Client A) : Label A → Option (Client A)
  | .add addr =>
    (complete (.push addr) s.connectQueue).map fun c =>
      { s with connectQueue := c.1, added := s.added ++ [addr] }
  | .stop => some { s with stopping := true }
  | .test =>
    match s.thread with
    | .loop => some { s with thread := if s.stopping then .exited else .popping }
    | _ => none
  | .pop =>
    match s.thread, complete .popFor s.connectQueue with
    | .popping, some (c, .handed addr) =>
      some { s with connectQueue := c, thread := .connecting addr }
    | _, _ => none
  | .popTimeout =>
    match s.thread with
    | .popping => some { s with thread := .migrating }
    | _ => none
  | .tryPop =>
    match s.thread, complete .tryPop s.failedQueue with
    | .migrating, some (c, .handed addr) =>
      some { s with failedQueue := c, thread := .requeuing addr }
    | .migrating, some (_, .refused) => some { s with thread := .loop }
    | _, _ => none
  | .push =>
    match s.thread with
    | .requeuing addr =>
      (complete (.push addr) s.connectQueue).map fun c =>
        { s with connectQueue := c.1, thread := .migrating }
    | _ => none
  | .connect valid =>
    match s.thread with
    | .connecting addr =>
      if valid then some { s with thread := .adding addr }
      else some { s with thread := .loop, dropped := s.dropped ++ [addr] }
    | _ => none
  | .create ok =>
    match s.thread with
    | .adding addr =>
      if ok then some { s with thread := .loop, handed := s.handed ++ [addr] }
      else some { s with thread := .failing addr }
    | _ => none
  | .fail =>
    match s.thread with
    | .failing addr =>
      (complete (.push addr) s.failedQueue).map fun c =>
        { s with failedQueue := c.1, thread := .loop }
    | _ => none

end Client

/-- A started client with nothing added. -/
def client (A : Type*) : System (Client A) (Label A) where
  init s := s = ⟨⟨[], defaultCapacity⟩, ⟨[], defaultCapacity⟩, false, .loop, [], [], []⟩
  next := Client.next

/-- The address in progress inside `Connect`. -/
def ConnectThread.addr : ConnectThread A → Multiset A
  | requeuing addr => {addr}
  | connecting addr => {addr}
  | adding addr => {addr}
  | failing addr => {addr}
  | _ => 0

/-- Where the addresses are that the client still knows of. -/
def Client.kept (s : Client A) : Multiset A :=
  s.connectQueue.queue + s.failedQueue.queue + s.thread.addr + s.handed

/-- Every address added is in one of the queues, in progress, or handed over. -/
def Client.Conserved (s : Client A) : Prop := (s.added : Multiset A) = s.kept

/-! ## What the queues do -/

section Queues

variable {c c' : Content A} {r : Ret A} {addr : A}

theorem coe_of_push (h : complete (.push addr) c = some (c', r)) :
    (c'.queue : Multiset A) = c.queue + {addr} := by
  cases completes_of_complete h with
  | body hb => rw [(push_done hb).1, ← Multiset.coe_add, Multiset.coe_singleton]
  | timeout ht => cases ht

/-- What a pop hands out it takes from the queue. -/
theorem coe_of_handed {op : Op A} (hop : FixedCapacity () op)
    (h : complete op c = some (c', .handed addr)) :
    (c.queue : Multiset A) = c'.queue + {addr} := by
  have hcons : addr :: c'.queue = c.queue :=
    (completes_fifo hop (completes_of_complete h)).1.trans (List.append_nil _)
  rw [← hcons, ← Multiset.cons_coe, ← Multiset.singleton_add, add_comm]

theorem coe_concat (l : List A) (addr : A) :
    ((l ++ [addr] : List A) : Multiset A) = l + {addr} := by
  rw [← Multiset.coe_add, Multiset.coe_singleton]

end Queues

/-! ## Conservation -/

section Runs

variable {s s' : Client A} {l : Label A}

/-- **One step keeps account of every address**, and drops none but for a failed connection
attempt. -/
theorem accounted_step (h : (s.added : Multiset A) = s.kept + s.dropped)
    (hn : s.next l = some s') : (s'.added : Multiset A) = s'.kept + s'.dropped ∧
      (l ≠ .connect false → s'.dropped = s.dropped) := by
  cases l with
  | add addr =>
    obtain ⟨⟨c, r⟩, hpush, rfl⟩ := Option.map_eq_some_iff.mp hn
    refine ⟨?_, fun _ => rfl⟩
    simp only [Client.kept] at h ⊢
    rw [coe_concat, h, coe_of_push hpush]
    abel
  | stop =>
    obtain rfl := Option.some.inj hn
    exact ⟨h, fun _ => rfl⟩
  | test =>
    simp only [Client.next] at hn
    split at hn
    · next hthread =>
      obtain rfl := Option.some.inj hn
      refine ⟨?_, fun _ => rfl⟩
      simp only [Client.kept, hthread] at h ⊢
      rw [h]
      split <;> rfl
    · cases hn
  | pop =>
    simp only [Client.next] at hn
    split at hn
    · next c addr hthread hpop =>
      obtain rfl := Option.some.inj hn
      have hop : FixedCapacity () (.popFor : Op A) := fun _ => nofun
      refine ⟨?_, fun _ => rfl⟩
      simp only [Client.kept, hthread, ConnectThread.addr] at h ⊢
      rw [h, coe_of_handed hop hpop]
      abel
    · cases hn
  | popTimeout =>
    simp only [Client.next] at hn
    split at hn
    · next hthread =>
      obtain rfl := Option.some.inj hn
      simp only [Client.kept, hthread] at h
      exact ⟨h, fun _ => rfl⟩
    · cases hn
  | tryPop =>
    simp only [Client.next] at hn
    split at hn
    · next c addr hthread hpop =>
      obtain rfl := Option.some.inj hn
      have hop : FixedCapacity () (.tryPop : Op A) := fun _ => nofun
      refine ⟨?_, fun _ => rfl⟩
      simp only [Client.kept, hthread, ConnectThread.addr] at h ⊢
      rw [h, coe_of_handed hop hpop]
      abel
    · next hthread _ =>
      obtain rfl := Option.some.inj hn
      simp only [Client.kept, hthread] at h
      exact ⟨h, fun _ => rfl⟩
    · cases hn
  | push =>
    simp only [Client.next] at hn
    split at hn
    · next addr hthread =>
      obtain ⟨⟨c, r⟩, hpush, rfl⟩ := Option.map_eq_some_iff.mp hn
      refine ⟨?_, fun _ => rfl⟩
      simp only [Client.kept, hthread, ConnectThread.addr] at h ⊢
      rw [h, coe_of_push hpush]
      abel
    · cases hn
  | connect valid =>
    simp only [Client.next] at hn
    split at hn
    · next addr hthread =>
      simp only [Client.kept, hthread] at h
      cases valid with
      | true =>
        obtain rfl := Option.some.inj hn
        exact ⟨h, fun _ => rfl⟩
      | false =>
        -- the one exit of `Connect` that leaves the address behind
        obtain rfl := Option.some.inj hn
        refine ⟨?_, fun hl => absurd rfl hl⟩
        simp only [Client.kept, ConnectThread.addr] at h ⊢
        rw [h, coe_concat]
        abel
    · cases hn
  | create ok =>
    simp only [Client.next] at hn
    split at hn
    · next addr hthread =>
      simp only [Client.kept, hthread] at h
      cases ok with
      | true =>
        obtain rfl := Option.some.inj hn
        refine ⟨?_, fun _ => rfl⟩
        simp only [Client.kept, ConnectThread.addr] at h ⊢
        rw [h, coe_concat]
        abel
      | false =>
        obtain rfl := Option.some.inj hn
        exact ⟨h, fun _ => rfl⟩
    · cases hn
  | fail =>
    simp only [Client.next] at hn
    split at hn
    · next addr hthread =>
      obtain ⟨⟨c, r⟩, hpush, rfl⟩ := Option.map_eq_some_iff.mp hn
      refine ⟨?_, fun _ => rfl⟩
      simp only [Client.kept, hthread, ConnectThread.addr] at h ⊢
      rw [h, coe_of_push hpush]
      abel
    · cases hn

/-- Every address added is kept or was dropped. -/
theorem accounted (h : (client A).Reachable Free s) :
    (s.added : Multiset A) = s.kept + s.dropped := by
  refine System.Reachable.invariant
    (I := fun s : Client A => (s.added : Multiset A) = s.kept + s.dropped) ?_ ?_ h
  · rintro s rfl
    rfl
  · intro s l s' _ hacc _ hn
    exact (accounted_step hacc hn).1

/-- Nothing is lost exactly where nothing was dropped. -/
theorem conserved_iff (h : (client A).Reachable Free s) : s.Conserved ↔ s.dropped = [] := by
  unfold Client.Conserved
  rw [accounted h, add_eq_left, Multiset.coe_eq_zero]

/-- Every connection attempt yields a valid stream. -/
def Connects (_ : Client A) (l : Label A) : Prop := l ≠ .connect false

instance [DecidableEq A] (s : Client A) (l : Label A) : Decidable (Connects s l) :=
  inferInstanceAs (Decidable (l ≠ .connect false))

/-- **No address is lost or duplicated** in a run in which every connection attempt yields a valid
stream. -/
theorem added_conserved (h : (client A).Reachable Connects s) : s.Conserved := by
  apply (conserved_iff h.free).mpr
  refine System.Reachable.invariant (I := fun s : Client A => s.dropped = []) ?_ ?_ h
  · rintro s rfl
    rfl
  · intro s l s' hr hd hc hn
    exact ((accounted_step (accounted hr.free) hn).2 hc).trans hd

/-- The callback refuses once; the address goes round by `m_failed_queue` and is handed over. -/
theorem added_conserved_retry : ∃ s : Client ℕ, (client ℕ).Reachable Connects s ∧
    s.handed = [7] ∧ s.Conserved := by
  obtain ⟨s, hrun, hhanded⟩ : ∃ s : Client ℕ,
      (client ℕ).exec Connects
        ⟨⟨[], defaultCapacity⟩, ⟨[], defaultCapacity⟩, false, .loop, [], [], []⟩
        [.test, .add 7, .pop, .connect true, .create false, .fail, .test, .popTimeout, .tryPop,
          .push, .tryPop, .test, .pop, .connect true, .create true] = some s ∧ s.handed = [7] :=
    ⟨_, rfl, rfl⟩
  have hreach := System.reachable_of_exec rfl hrun
  exact ⟨s, hreach, hhanded, added_conserved hreach⟩

/-- One address whose connection attempt fails is in none of the places where it could be. -/
theorem failed_connect_loses : ¬∀ s : Client ℕ, (client ℕ).Reachable Free s → s.Conserved := by
  intro h
  obtain ⟨s, hrun, hdropped⟩ : ∃ s : Client ℕ,
      (client ℕ).exec Free
        ⟨⟨[], defaultCapacity⟩, ⟨[], defaultCapacity⟩, false, .loop, [], [], []⟩
        [.test, .add 7, .pop, .connect false] = some s ∧ s.dropped = [7] :=
    ⟨_, rfl, rfl⟩
  have hreach := System.reachable_of_exec rfl hrun
  have := (conserved_iff hreach).mp (h s hreach)
  rw [hdropped] at this
  cases this

end Runs

end Xfnet.TcpClient
