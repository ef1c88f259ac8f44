import Xfnet.Foundations.WaitingLine
import Xfnet.TcpClient.Addresses

/-!
# When a TCP client gets round to an address

`Connect` takes an address from `m_connect_queue`, and puts one that the callback refused in
`m_failed_queue`, which goes over to `m_connect_queue` address by address when a wait times out.
The two queues are one waiting line (`lined`): going over changes nothing in it, a refused address
joins it at its end, and a new one gets in where `m_connect_queue` ends. So a refused address is not
tried again before those that wait, and none waits for more attempts than there are addresses in
front of it (`attempted_in_turn`).
-/

namespace Xfnet.TcpClient

open Transition BlockingQueue WaitingLine

variable {A : Type*}

/-- The address that is on its way to the end of `m_connect_queue`. -/
def ConnectThread.requeued : ConnectThread A → List A
  | requeuing addr => [addr]
  | _ => []

/-- The address that is on its way to the end of `m_failed_queue`. -/
def ConnectThread.refused : ConnectThread A → List A
  | failing addr => [addr]
  | _ => []

namespace Client

/-- The addresses that wait for an attempt. -/
def line (s : Client A) : List A :=
  s.connectQueue.queue ++ (s.thread.requeued ++ (s.failedQueue.queue ++ s.thread.refused))

/-- What a step does to them: `Add` brings one in, `Connect` takes one, and one that the callback
refuses comes back. -/
def op (s : Client A) : Label A → WaitingLine.Op A
  | .add addr => .insert addr
  | .pop => (s.connectQueue.queue.head?.map .take).getD .stay
  | .create false =>
    match s.thread with
    | .adding addr => .join addr
    | _ => .stay
  | _ => .stay

/-- The address of the attempt that a step begins. -/
def attempted (s : Client A) (l : Label A) : Option A := (s.op l).taken

end Client

/-- The address that a step adds. -/
def Label.added : Label A → Option A
  | .add addr => some addr
  | _ => none

theorem inserted_op (s : Client A) (l : Label A) : (s.op l).inserted = l.added := by
  cases l with
  | pop =>
    unfold Client.op
    cases s.connectQueue.queue <;> rfl
  | create ok =>
    unfold Client.op
    cases ok with
    | true => rfl
    | false => cases s.thread <;> rfl
  | _ => rfl

section Steps

variable {c c' : Content A} {r : Ret A} {addr : A}

theorem queue_of_push (h : complete (.push addr) c = some (c', r)) :
    c'.queue = c.queue ++ [addr] := by
  cases completes_of_complete h with
  | body hb => exact (push_done hb).1
  | timeout ht => cases ht

theorem queue_of_handed {op : BlockingQueue.Op A} (h : complete op c = some (c', .handed addr)) :
    c.queue = addr :: c'.queue := by
  have hop : FixedCapacity () op := by
    rintro capacity rfl
    cases h
  exact ((completes_fifo hop (completes_of_complete h)).1.trans (List.append_nil _)).symm

/-- **The two queues are one line.** -/
theorem lined (A : Type*) : Lined (client A) Client.line Client.op := by
  intro s l s' hn
  change s.next l = some s' at hn
  cases l with
  | add addr =>
    obtain ⟨⟨c, r⟩, hpush, rfl⟩ := Option.map_eq_some_iff.mp hn
    show Moves (s.connectQueue.queue ++ _) (.insert addr) (c.queue ++ _)
    rw [queue_of_push hpush, List.append_assoc]
    exact .insert
  | stop =>
    obtain rfl := Option.some.inj hn
    exact .stay
  | test =>
    simp only [Client.next] at hn
    split at hn
    · next hthread =>
      obtain rfl := Option.some.inj hn
      unfold Client.line
      rw [hthread]
      split <;> exact .stay
    · cases hn
  | pop =>
    simp only [Client.next] at hn
    split at hn
    · next c addr hthread hpop =>
      obtain rfl := Option.some.inj hn
      have hcons := queue_of_handed hpop
      unfold Client.line Client.op
      rw [hcons, hthread]
      exact .take
    · cases hn
  | popTimeout =>
    simp only [Client.next] at hn
    split at hn
    · next hthread =>
      obtain rfl := Option.some.inj hn
      unfold Client.line
      rw [hthread]
      exact .stay
    · cases hn
  | tryPop =>
    simp only [Client.next] at hn
    split at hn
    · next c addr hthread hpop =>
      obtain rfl := Option.some.inj hn
      have hcons := queue_of_handed hpop
      unfold Client.line
      rw [hcons, hthread]
      exact .stay
    · next hthread _ =>
      obtain rfl := Option.some.inj hn
      unfold Client.line
      rw [hthread]
      exact .stay
    · cases hn
  | push =>
    simp only [Client.next] at hn
    split at hn
    · next addr hthread =>
      obtain ⟨⟨c, r⟩, hpush, rfl⟩ := Option.map_eq_some_iff.mp hn
      unfold Client.line
      rw [hthread]
      show Moves (s.connectQueue.queue ++ ([addr] ++ _)) .stay (c.queue ++ _)
      rw [queue_of_push hpush, List.append_assoc]
      exact .stay
    · cases hn
  | connect valid =>
    simp only [Client.next] at hn
    split at hn
    · next addr hthread =>
      unfold Client.line
      rw [hthread]
      cases valid <;> obtain rfl := Option.some.inj hn <;> exact .stay
    · cases hn
  | create ok =>
    simp only [Client.next] at hn
    split at hn
    · next addr hthread =>
      unfold Client.line Client.op
      rw [hthread]
      cases ok with
      | true =>
        obtain rfl := Option.some.inj hn
        exact .stay
      | false =>
        obtain rfl := Option.some.inj hn
        show Moves (s.connectQueue.queue ++ ([] ++ (s.failedQueue.queue ++ []))) (.join addr)
          (s.connectQueue.queue ++ ([] ++ (s.failedQueue.queue ++ [addr])))
        rw [List.nil_append, List.nil_append, List.append_nil, ← List.append_assoc]
        exact .join
    · cases hn
  | fail =>
    simp only [Client.next] at hn
    split at hn
    · next addr hthread =>
      obtain ⟨⟨c, r⟩, hpush, rfl⟩ := Option.map_eq_some_iff.mp hn
      unfold Client.line
      rw [hthread]
      show Moves (s.connectQueue.queue ++ ([] ++ (s.failedQueue.queue ++ [addr]))) .stay
        (s.connectQueue.queue ++ ([] ++ (c.queue ++ [])))
      rw [queue_of_push hpush, List.append_nil]
      exact .stay
    · cases hn

end Steps

/-! ## Whole runs -/

section Runs

variable [DecidableEq A] {s s' : Client A} {ls : List (Label A)}

/-- **The client gets round to every address**, whatever becomes of the attempts and however long
the callback goes on refusing: the address at position `i` is attempted when there have been more
attempts than `i` and the number of addresses added since, and before every address behind it. -/
theorem attempted_in_turn (hrun : (client A).exec Free s ls = some s') :
    (∀ addr i, s.line[i]? = some addr →
        i + (client A).tally (fun _ l => l.added.isSome) s ls <
          (client A).tally (fun s l => (s.attempted l).isSome) s ls →
        0 < (client A).tally (fun s l => s.attempted l = some addr) s ls) ∧
      ∀ addr addr', Behind addr addr' s.line →
        (client A).tally (fun _ l => l.added = some addr') s ls = 0 →
        0 < (client A).tally (fun s l => s.attempted l = some addr') s ls →
        0 < (client A).tally (fun s l => s.attempted l = some addr) s ls := by
  have hlined := lined A
  refine ⟨fun addr i hi hlt => hlined.taken_of_lt hi hrun ?_,
    fun addr addr' hbehind hnew hlater => hlined.not_overtaken hbehind hrun ?_ hlater⟩
  · simp only [inserted_op]
    exact hlt
  · simp only [inserted_op]
    exact hnew

/-- Of two addresses the first is refused; it waits behind the other, which is attempted before it
is tried again. -/
theorem attempted_in_turn_refused : ∃ s : Client ℕ, (client ℕ).Reachable Free s ∧
    s.line = [8, 7] ∧ ∃ s' ls, (client ℕ).exec Free s ls = some s' ∧
      0 < (client ℕ).tally (fun s l => s.attempted l = some 7) s ls ∧
      0 < (client ℕ).tally (fun s l => s.attempted l = some 8) s ls := by
  obtain ⟨s, hrun, hline, s', hrun', hnew, hagain⟩ : ∃ s : Client ℕ,
      (client ℕ).exec Free
        ⟨⟨[], defaultCapacity⟩, ⟨[], defaultCapacity⟩, false, .loop, [], [], []⟩
        [.add 7, .add 8, .test, .pop, .connect true, .create false, .fail] = some s ∧
      s.line = [8, 7] ∧ ∃ s', (client ℕ).exec Free s
        [.test, .pop, .connect true, .create true, .test, .popTimeout, .tryPop, .push, .tryPop,
          .test, .pop] = some s' ∧
        (client ℕ).tally (fun _ l => l.added = some 7) s
          [.test, .pop, .connect true, .create true, .test, .popTimeout, .tryPop, .push, .tryPop,
            .test, .pop] = 0 ∧
        0 < (client ℕ).tally (fun s l => s.attempted l = some 7) s
          [.test, .pop, .connect true, .create true, .test, .popTimeout, .tryPop, .push, .tryPop,
            .test, .pop] :=
    ⟨_, rfl, rfl, _, rfl, by decide, by decide⟩
  have hbehind : Behind 8 7 s.line := by
    rw [hline]
    refine ⟨List.mem_cons_self, fun front back he => ?_⟩
    cases front with
    | nil => exact absurd (List.cons.inj he).1 (by decide)
    | cons a front => exact (List.cons.inj he).1 ▸ List.mem_cons_self
  exact ⟨s, System.reachable_of_exec rfl hrun, hline, s', _, hrun', hagain,
    (attempted_in_turn hrun').2 8 7 hbehind hnew hagain⟩

end Runs

end Xfnet.TcpClient
