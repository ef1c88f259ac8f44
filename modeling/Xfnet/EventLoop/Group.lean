import Xfnet.Foundations.RoundRobin
import Mathlib.Data.BitVec

/-!
# Loop groups

`TcpServer` and `TcpClient` send each new connection to a loop of their group, in turn by the
32-bit counter `m_next_loop_index`. The index is always one of the group (`calls_accept`). The
counter wraps at `2 ^ 32`, and the loops stay evenly used exactly as long as its wraps cut no turn
short (`connections_in_turn_iff`).
-/

namespace Xfnet.EventLoopGroup

open RoundRobin

variable {L Stream : Type*}

/-- The loops of a group, with the counter `m_next_loop_index` and the number `m_loop_num` by which
one of them is chosen. -/
structure LoopTable (L : Type*) where
  nextLoopIndex : BitVec 32
  loopNum : BitVec 32
  loops : List L

/-- `GetEventLoop`, unless its assertion fails. -/
def getEventLoop (loops : List L) (index : BitVec 32) : Option L := loops[index.toNat]?

/-- `m_next_loop_index++`. -/
def LoopTable.advance (b : LoopTable L) : LoopTable L :=
  { b with nextLoopIndex := b.nextLoopIndex + 1 }

/-- The loop for the next connection, with the index passed to `GetEventLoop`, unless an assertion
fails. -/
def LoopTable.nextLoop (b : LoopTable L) : Option (BitVec 32 × L × LoopTable L) :=
  if b.loopNum = 0 then none
  else
    let index := b.nextLoopIndex % b.loopNum
    (getEventLoop b.loops index).map fun loop => (index, loop, b.advance)

/-- A connection on its way: the index passed to `GetEventLoop`, and the loop and the stream passed
to `m_create_eventhandler_func`, whose answer the call returns. -/
structure Dispatch (L Stream : Type*) where
  index : BitVec 32
  loop : L
  stream : Stream

/-- `TcpClient::Add`, with the stream of a connection. -/
def LoopTable.add (b : LoopTable L) (stream : Stream) :
    Option (List (Dispatch L Stream) × LoopTable L) :=
  b.nextLoop.map fun (index, loop, b') => ([⟨index, loop, stream⟩], b')

/-- `TcpServer::Accept`, with the stream that the acceptor hands over if it is valid. -/
def LoopTable.accept (b : LoopTable L) :
    Option Stream → Option (List (Dispatch L Stream) × LoopTable L)
  | none => some ([], b)
  | some stream => b.nextLoop.map fun (index, loop, b') => ([⟨index, loop, stream⟩], b')

/-- The connections dispatched by one call after another. -/
def LoopTable.calls {C : Type*}
    (call : LoopTable L → C → Option (List (Dispatch L Stream) × LoopTable L)) :
    LoopTable L → List C → Option (List (Dispatch L Stream))
  | _, [] => some []
  | b, c :: cs => (call b c).bind fun (ds, b') => (calls call b' cs).map (ds ++ ·)

/-- The table of a started server or client: its group has the loops it was started with. -/
structure LoopTable.Started (b : LoopTable L) : Prop where
  loopNum : b.loopNum.toNat = b.loops.length
  nonempty : b.loops ≠ []

theorem LoopTable.Started.advance {b : LoopTable L} (hb : b.Started) : b.advance.Started :=
  ⟨hb.loopNum, hb.nonempty⟩

/-- The table after the first `Start`, which gives `m_loop_num` the number of loops. -/
def LoopTable.fresh (loops : List L) : LoopTable L := ⟨0, BitVec.ofNat 32 loops.length, loops⟩

theorem LoopTable.started_fresh {loops : List L} (hne : loops ≠ [])
    (hsize : loops.length ≤ 2147483647) : (fresh loops).Started := by
  refine ⟨?_, hne⟩
  show (BitVec.ofNat 32 loops.length).toNat = loops.length
  rw [BitVec.toNat_ofNat]
  omega

/-! ## One connection after another -/

/-- **A connection always finds its loop** in a started group. -/
theorem nextLoop_of_started {b : LoopTable L} (hb : b.Started) : ∃ loop ∈ b.loops,
    b.nextLoop = some (b.nextLoopIndex % b.loopNum, loop, b.advance) := by
  have hpos : 0 < b.loopNum.toNat := hb.loopNum ▸ List.length_pos_iff.mpr hb.nonempty
  have hlt : (b.nextLoopIndex % b.loopNum).toNat < b.loops.length := by
    rw [BitVec.toNat_umod, ← hb.loopNum]
    exact Nat.mod_lt _ hpos
  refine ⟨b.loops[(b.nextLoopIndex % b.loopNum).toNat], List.getElem_mem hlt, ?_⟩
  have hne : b.loopNum ≠ 0 := by
    intro h
    simp [h] at hpos
  rw [LoopTable.nextLoop, if_neg hne]
  simp only [getEventLoop, List.getElem?_eq_getElem hlt, Option.map_some]

/-- The first `k` indices from the counter value `c` on. -/
def indices (c n : BitVec 32) (k : ℕ) : List (BitVec 32) :=
  (List.range k).map fun j => (c + BitVec.ofNat 32 j) % n

theorem indices_succ (c n : BitVec 32) (k : ℕ) :
    indices c n (k + 1) = c % n :: indices (c + 1) n k := by
  have hshift (j : ℕ) : c + BitVec.ofNat 32 (j + 1) = c + 1 + BitVec.ofNat 32 j := by
    rw [BitVec.ofNat_add, BitVec.add_assoc, BitVec.add_comm 1]
    rfl
  simp only [indices, List.range_succ_eq_map, List.map_cons, List.map_map, Function.comp_def,
    Nat.succ_eq_add_one, hshift]
  rw [BitVec.ofNat_eq_ofNat, BitVec.add_zero]

/-- **No assertion fails in a run of calls**: each connection goes to a loop of the group, and the
indices are those of the counter. -/
theorem calls_accept {b : LoopTable L} (hb : b.Started) (streams : List (Option Stream)) :
    ∃ ds, b.calls LoopTable.accept streams = some ds ∧ (∀ d ∈ ds, d.loop ∈ b.loops) ∧
      ds.map Dispatch.index =
        indices b.nextLoopIndex b.loopNum (streams.countP Option.isSome) := by
  induction streams generalizing b with
  | nil => exact ⟨[], rfl, by simp, rfl⟩
  | cons stream streams ih =>
    cases stream with
    | none =>
      obtain ⟨ds, hcalls, hloops, hindices⟩ := ih hb
      exact ⟨ds, by simp [LoopTable.calls, LoopTable.accept, hcalls], hloops, hindices⟩
    | some stream =>
      obtain ⟨loop, hloop, hnext⟩ := nextLoop_of_started hb
      obtain ⟨ds, hcalls, hloops, hindices⟩ := ih hb.advance
      refine ⟨⟨b.nextLoopIndex % b.loopNum, loop, stream⟩ :: ds, ?_, ?_, ?_⟩
      · simp [LoopTable.calls, LoopTable.accept, hnext, hcalls]
      · exact List.forall_mem_cons.mpr ⟨hloop, hloops⟩
      · rw [List.map_cons, hindices, List.countP_cons_of_pos rfl, indices_succ]
        rfl

theorem calls_add (b : LoopTable L) (streams : List Stream) :
    b.calls LoopTable.add streams = b.calls LoopTable.accept (streams.map some) := by
  induction streams generalizing b with
  | nil => rfl
  | cons stream streams ih => simp only [LoopTable.calls, List.map_cons, ih]; rfl

/-! ## Balance -/

/-- The indices are below `n`, and no loop is chosen two times more than another. -/
structure InTurn (n : ℕ) (indices : List (BitVec 32)) : Prop where
  lt : ∀ index ∈ indices, index.toNat < n
  balanced : ∀ i < n, ∀ j < n,
    (indices.map BitVec.toNat).count i ≤ (indices.map BitVec.toNat).count j + 1

theorem lt_of_mem_indices {c n : BitVec 32} (hn : 0 < n.toNat) (k : ℕ) :
    ∀ index ∈ indices c n k, index.toNat < n.toNat := by
  intro index hmem
  obtain ⟨j, -, rfl⟩ := List.mem_map.mp hmem
  rw [BitVec.toNat_umod]
  exact Nat.mod_lt _ hn

theorem count_indices (n : BitVec 32) (k i : ℕ) :
    ((indices 0 n k).map BitVec.toNat).count i = hits n.toNat (2 ^ 32) k i := by
  rw [indices, List.map_map, List.count, List.countP_map, hits, Nat.count]
  refine List.countP_congr fun j _ => ?_
  simp

theorem inTurn_indices_iff {n : BitVec 32} (hn : 0 < n.toNat) (k : ℕ) :
    InTurn n.toNat (indices 0 n k) ↔ Even n.toNat (2 ^ 32) k := by
  rw [← balanced_iff hn (by decide)]
  constructor
  · intro h i hi j hj
    simpa only [count_indices] using h.balanced i hi j hj
  · intro h
    refine ⟨lt_of_mem_indices hn k, fun i hi j hj => ?_⟩
    simpa only [count_indices] using h i hi j hj

theorem inTurn_accept_iff {loops : List L} (hne : loops ≠ []) (hsize : loops.length ≤ 2147483647)
    (streams : List (Option Stream)) :
    ∃ ds, (LoopTable.fresh loops).calls LoopTable.accept streams = some ds ∧
      (InTurn loops.length (ds.map Dispatch.index) ↔
        Even loops.length (2 ^ 32) (streams.countP Option.isSome)) := by
  have hb := LoopTable.started_fresh hne hsize
  obtain ⟨ds, hcalls, -, hindices⟩ := calls_accept hb streams
  have hn : (LoopTable.fresh loops).loopNum.toNat = loops.length := hb.loopNum
  have hpos : 0 < (LoopTable.fresh loops).loopNum.toNat := hn ▸ List.length_pos_iff.mpr hne
  refine ⟨ds, hcalls, ?_⟩
  rw [hindices, ← hn]
  exact inTurn_indices_iff hpos _

/-- **Round robin**: for a group of any size that an `int` can ask for, no assertion fails in a run
of `Accept` or of `Add`, and the connections are spread evenly over the loops exactly when the
wraps of the counter cut no turn short. -/
theorem connections_in_turn_iff (loops : List L) (hne : loops ≠ [])
    (hsize : loops.length ≤ 2147483647) :
    (∀ streams : List (Option Stream), ∃ ds,
      (LoopTable.fresh loops).calls LoopTable.accept streams = some ds ∧
        (InTurn loops.length (ds.map Dispatch.index) ↔
          Even loops.length (2 ^ 32) (streams.countP Option.isSome))) ∧
    ∀ streams : List Stream, ∃ ds,
      (LoopTable.fresh loops).calls LoopTable.add streams = some ds ∧
        (InTurn loops.length (ds.map Dispatch.index) ↔
          Even loops.length (2 ^ 32) streams.length) := by
  refine ⟨inTurn_accept_iff hne hsize, fun streams => ?_⟩
  obtain ⟨ds, hcalls, hiff⟩ := inTurn_accept_iff hne hsize (streams.map some)
  refine ⟨ds, (calls_add _ streams).trans hcalls, hiff.trans ?_⟩
  simp [List.countP_map, Function.comp_def]

/-- Seven connections to three loops, after two calls of `Accept` that found none. -/
theorem connections_in_turn_three : ∃ ds,
    (LoopTable.fresh ["a", "b", "c"]).calls LoopTable.accept
        (none :: none :: List.replicate 7 (some ())) = some ds ∧
      InTurn 3 (ds.map Dispatch.index) := by
  obtain ⟨ds, hcalls, hiff⟩ := (connections_in_turn_iff ["a", "b", "c"] (by decide)
    (by decide)).1 (none :: none :: List.replicate 7 (some ()))
  exact ⟨ds, hcalls, hiff.mpr (by decide)⟩

/-- Three loops: the counter wraps after `3 * 1431655765 + 1` connections, and the first loop gets
the next one as well. -/
theorem wrap_cuts_turn : ¬∀ (loops : List Unit) (streams : List (Option Unit)), loops ≠ [] →
    loops.length ≤ 2147483647 → ∃ ds,
      (LoopTable.fresh loops).calls LoopTable.accept streams = some ds ∧
        InTurn loops.length (ds.map Dispatch.index) := by
  intro h
  obtain ⟨ds, hcalls, hturn⟩ := h [(), (), ()] (List.replicate 4294967297 (some ()))
    (by decide) (by decide)
  have hne : [(), (), ()] ≠ [] := nofun
  obtain ⟨ds', hcalls', hiff⟩ := inTurn_accept_iff hne (by decide)
    (List.replicate 4294967297 (some ()))
  obtain rfl := Option.some.inj (hcalls.symm.trans hcalls')
  have heven := hiff.mp hturn
  simp only [List.countP_replicate, Option.isSome_some, if_true] at heven
  revert heven
  decide

end Xfnet.EventLoopGroup
