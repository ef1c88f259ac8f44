import Xfnet.Foundations.Progress
import Xfnet.Stream.Overloads
import Xfnet.Tools.SendQueue

/-!
# The replies on the wire

What the kernel takes from a handler on which any threads call `Send` while the loop thread is in
`HandleWrite`. The packets do not mix: the wire carries them whole, one after another and in the
order in which they were queued, and at its end a part of the one in progress (`wire_in_order`).
-/

namespace Xfnet.SendQueue

open EventLoop Loops Mutex Transition Xfnet.Stream

/-- The handler, and the bytes that the kernel has taken from it. -/
structure Wired (T : Type*) where
  handler : State T
  wire : List UInt8

section Definitions

variable {T : Type*}

/-- The byte that `m_send_ptr` points at after `a` bytes. Behind the packet comes other memory. -/
def State.byte (beyond : ℕ → UInt8) (s : State T) (a : ℕ) : UInt8 :=
  s.sendPtr.data.getD a (beyond a)

/-- The bytes that the kernel takes in a step. -/
def State.taken (beyond : ℕ → UInt8) (s : State T) : Label T → List UInt8
  | .write o => (List.range' s.sendCursor.data o.count).map (s.byte beyond)
  | _ => []

/-- The handler on a connection. -/
def wired (T : Type*) [DecidableEq T] (beyond : ℕ → UInt8) : System (Wired T) (Label T) where
  init s := s = ⟨.registeredHandler T, []⟩
  next s l := (s.handler.next l).map fun h => ⟨h, s.wire ++ s.handler.taken beyond l⟩

/-- No `Modify` fails, and `write` takes nothing, half or all of the rest, which fits an `int`. -/
def Takes (s : Wired T) : Label T → Prop
  | .sender _ ok | .loop ok => ok = true
  | .write o => o.Halves s.handler.sendCursor.size ∧ o.count < 2 ^ 31
  | _ => True

instance (s : Wired T) : DecidablePred (Takes s)
  | .sender _ ok | .loop ok => inferInstanceAs (Decidable (ok = true))
  | .write _ => inferInstanceAs (Decidable (_ ∧ _))
  | .send .. | .handleWrite => isTrue trivial

theorem Takes.succeeds {s : Wired T} {l : Label T} (h : Takes s l) : Succeeds s.handler l := by
  cases l with
  | sender t ok => exact h
  | loop ok => exact h
  | send t data => trivial
  | handleWrite => trivial
  | write o => trivial

end Definitions

/-! ## What a step does to the packet in progress -/

/-- The statement that comes next, where it needs no case distinction. -/
def LoopPc.follows : LoopPc → Option LoopPc
  | .top => some .lockPick
  | .lockPick => some .picking
  | .watchRead => some .unlockBreak
  | .unlockBreak => some .idle
  | .lockPop => some .popping
  | .unlockPop => some .top
  | _ => none

/-- A step of a call of `Send`. -/
def Label.sends {T : Type*} : Label T → Bool
  | .send .. => true
  | .sender .. => true
  | _ => false

/-- **The steps**, with what they change of the packets and of the place of the loop thread. -/
inductive Step {T : Type*} (s : State T) : Label T → State T → Prop
  | calls {l : Label T} {more : List Packet} {s' : State T} : l.sends = true → s'.pc = s.pc →
      s'.sendPtr = s.sendPtr → s'.sendCursor = s.sendCursor → s'.completed = s.completed →
      s'.registered = s.registered → s'.queued = s.queued ++ more →
      s'.uncompleted = s.uncompleted ++ more → Step s l s'
  | handleWrite : s.pc = .idle → s.registered = true → Step s .handleWrite { s with pc := .top }
  | goes {ok : Bool} {pc : LoopPc} {mutex : Option (Holder T)} {interest : ℕ} :
      s.pc.follows = some pc → (s.pc = .top → s.sendCursor.size = 0) →
      Step s (.loop ok) { s with pc := pc, mutex := mutex, interest := interest }
  | nothing {ok : Bool} : s.pc = .picking → s.sendDatas = [] →
      Step s (.loop ok) { s with pc := .watchRead }
  | picks {ok : Bool} {packet : Packet} {rest : List Packet} : s.pc = .picking →
      s.sendDatas = packet :: rest → Step s (.loop ok)
        { s with
          sendPtr := packet
          sendCursor := .fresh 0 packet.data.length s.sendCursor.errno
          pc := .unlockPick }
  | enters {ok : Bool} {mutex : Option (Holder T)} :
      s.pc = .unlockPick ∨ s.pc = .top ∧ s.sendCursor.size ≠ 0 →
      Step s (.loop ok) ({ s with mutex := mutex }.afterSend (send.enter s.sendCursor))
  | pops {ok : Bool} {packet : Packet} {rest : List Packet} : s.pc = .popping →
      s.sendDatas = packet :: rest →
      Step s (.loop ok) { s with sendDatas := rest, pc := .unlockPop }
  | unregisters {ok : Bool} : s.pc = .unregistering →
      Step s (.loop ok) { s with registered := false, pc := .idle }
  | write {o : Syscall} {a : Act Transfer ℤ} : s.pc = .sending →
      send.step (.running s.sendCursor) o = some a → Step s (.write o) (s.afterSend a)

section Steps

variable {T : Type*} {s s' : State T} {l : Label T}

theorem step_of_loopStep (ho : s.outbox.Orderly) (h : s.loopStep true = some s') :
    Step s (.loop true) s' := by
  have hat {p : LoopPc} (hpc : s.pc = p) :
      State.loopStep { s with pc := p } true = some s' := hpc ▸ h
  cases hpc : s.pc with
  | idle => cases hat hpc
  | top =>
    have h := hat hpc
    simp only [State.loopStep] at h
    split at h
    · next hsize =>
      obtain rfl := Option.some.inj h
      exact .goes (congrArg LoopPc.follows hpc) fun _ => hsize
    · next hsize =>
      obtain rfl := Option.some.inj h
      exact .enters (.inr ⟨hpc, hsize⟩)
  | lockPick =>
    obtain ⟨-, h⟩ := Option.ite_none_right_eq_some.mp (hat hpc)
    obtain rfl := Option.some.inj h
    exact .goes (congrArg LoopPc.follows hpc) (by simp [hpc])
  | picking =>
    have h := hat hpc
    simp only [State.loopStep] at h
    split at h
    · next hdatas =>
      obtain rfl := Option.some.inj h
      exact .nothing hpc hdatas
    · next hdatas =>
      obtain rfl := Option.some.inj h
      exact .picks hpc hdatas
  | watchRead =>
    obtain ⟨s₁, hmodify, h⟩ := Option.map_eq_some_iff.mp (hat hpc)
    obtain rfl := modify_cases hmodify
    obtain rfl := h
    exact .goes (congrArg LoopPc.follows hpc) (by simp [hpc])
  | unlockBreak =>
    obtain rfl := Option.some.inj (hat hpc)
    exact .goes (congrArg LoopPc.follows hpc) (by simp [hpc])
  | unlockPick =>
    obtain rfl := Option.some.inj (hat hpc)
    exact .enters (.inl hpc)
  | sending => cases hat hpc
  | unregistering =>
    obtain rfl := Option.some.inj (hat hpc)
    exact .unregisters hpc
  | lockPop =>
    obtain ⟨-, h⟩ := Option.ite_none_right_eq_some.mp (hat hpc)
    obtain rfl := Option.some.inj h
    exact .goes (congrArg LoopPc.follows hpc) (by simp [hpc])
  | popping =>
    have h := hat hpc
    simp only [State.loopStep] at h
    split at h
    · next hdatas =>
      have hphase : s.outbox.phase = .served := by
        show s.phase = _
        rw [State.phase, hpc]
      exact absurd hdatas (ho.served hphase)
    · next hdatas =>
      obtain rfl := Option.some.inj h
      exact .pops hpc hdatas
  | unlockPop =>
    obtain rfl := Option.some.inj (hat hpc)
    exact .goes (congrArg LoopPc.follows hpc) (by simp [hpc])
  | aborted => cases hat hpc

theorem uncompleted_append (ho : s.outbox.Orderly) (packet : Packet) :
    State.uncompleted { s with sendDatas := s.sendDatas ++ [packet] } =
      s.uncompleted ++ [packet] := by
  unfold State.uncompleted
  have hserved (hpc : s.phase = .served) : (s.sendDatas ++ [packet]).tail =
      s.sendDatas.tail ++ [packet] := List.tail_append_of_ne_nil (ho.served hpc)
  cases hpc : s.pc <;> first
    | rfl
    | exact hserved (by rw [State.phase, hpc])

variable [DecidableEq T] {t : T}

theorem step_of_senderStep (ho : s.outbox.Orderly) (h : s.senderStep t true = some s') :
    Step s (.sender t true) s' := by
  cases hp : s.senders t with
  | idle =>
    simp only [State.senderStep, hp] at h
    cases h
  | locking data =>
    simp only [State.senderStep, hp, Option.ite_none_right_eq_some, Option.some.injEq] at h
    obtain ⟨-, rfl⟩ := h
    exact .calls rfl rfl rfl rfl rfl rfl (List.append_nil _).symm (List.append_nil _).symm
  | pushing data =>
    simp only [State.senderStep, hp, Option.some.injEq] at h
    subst h
    exact .calls rfl rfl rfl rfl rfl rfl rfl (uncompleted_append ho _)
  | modifying =>
    simp only [State.senderStep, hp] at h
    obtain ⟨s₁, hmodify, rfl⟩ := Option.map_eq_some_iff.mp h
    obtain rfl := modify_cases hmodify
    exact .calls rfl rfl rfl rfl rfl rfl (List.append_nil _).symm (List.append_nil _).symm
  | unlocking =>
    simp only [State.senderStep, hp, Option.some.injEq] at h
    subst h
    exact .calls rfl rfl rfl rfl rfl rfl (List.append_nil _).symm (List.append_nil _).symm

theorem step_of_next (ho : s.outbox.Orderly) (hc : Succeeds s l) (hn : s.next l = some s') :
    Step s l s' := by
  cases l with
  | send t data =>
    obtain ⟨-, h⟩ := Option.ite_none_right_eq_some.mp hn
    obtain rfl := Option.some.inj h
    exact .calls rfl rfl rfl rfl rfl rfl (List.append_nil _).symm (List.append_nil _).symm
  | sender t ok =>
    obtain rfl : ok = true := hc
    exact step_of_senderStep ho hn
  | handleWrite =>
    obtain ⟨⟨hidle, hregistered⟩, h⟩ := Option.ite_none_right_eq_some.mp hn
    obtain rfl := Option.some.inj h
    exact .handleWrite hidle hregistered
  | loop ok =>
    obtain rfl : ok = true := hc
    exact step_of_loopStep ho hn
  | write o =>
    obtain ⟨hpc, h⟩ := Option.ite_none_right_eq_some.mp hn
    obtain ⟨a, hstep, rfl⟩ := Option.map_eq_some_iff.mp h
    exact .write hpc hstep

end Steps

/-! ## Packets on the wire -/

/-- The part of the packet in progress that has been sent. -/
def State.part {T : Type*} (s : State T) : List UInt8 :=
  match s.phase with
  | .serving packet => packet.data.take s.sendCursor.moved.length
  | _ => []

/-- The cursor is sound in the packet in progress, and the wire carries what it should. -/
structure Carries {T : Type*} (s : State T) (wire : List UInt8) : Prop where
  sound : s.phase = .serving s.sendPtr → s.sendCursor.Sound 0 s.sendPtr.data.length
  wire : wire = s.completed.flatMap Packet.data ++ s.part

section Wire

variable {T : Type*} {s s' : State T} {l : Label T} {wire : List UInt8} {beyond : ℕ → UInt8}

/-- A step that does nothing to the packet in progress. -/
theorem Carries.frame (h : Carries s wire) (hphase : s'.phase = s.phase)
    (hptr : s'.sendPtr = s.sendPtr) (hcursor : s'.sendCursor = s.sendCursor)
    (hcompleted : s'.completed = s.completed) : Carries s' wire := by
  refine ⟨?_, ?_⟩
  · rw [hphase, hptr, hcursor]
    exact h.sound
  · rw [hcompleted, State.part, hphase, hcursor]
    exact h.wire

/-- No packet is in progress. -/
theorem Carries.between (hphase : s.phase ≠ .serving s.sendPtr) (hpart : s.part = [])
    (hwire : wire = s.completed.flatMap Packet.data) : Carries s wire :=
  ⟨fun h => absurd h hphase, by rw [hpart, List.append_nil, hwire]⟩

/-- The cursor with which `Stream::Send` goes on or returns. -/
def Leaves (u : Transfer) (a : Act Transfer ℤ) : Prop :=
  a = send.enter u ∨ ∃ r ≤ 0, a = .returned r u

theorem sendCursor_afterSend {u : Transfer} {a : Act Transfer ℤ} (ha : Leaves u a) :
    (s.afterSend a).sendCursor = u := by
  have hreturned (r : ℤ) : (s.afterSend (.returned r u)).sendCursor = u := by
    unfold State.afterSend
    dsimp only
    split_ifs <;> rfl
  rcases ha with rfl | ⟨r, -, rfl⟩
  · cases hg : send.guard u with
    | true =>
      rw [Loop.enter_of_guard hg]
      rfl
    | false =>
      rw [Loop.enter_of_not_guard hg]
      exact hreturned _
  · exact hreturned r

/-- **`Stream::Send`** has sent one part more, or all of the packet. -/
theorem carries_afterSend {u : Transfer} {a : Act Transfer ℤ} (ha : Sent a) (hu : Leaves u a)
    (hsound : u.Sound 0 s.sendPtr.data.length)
    (hwire : wire = s.completed.flatMap Packet.data ++ s.sendPtr.data.take u.moved.length) :
    Carries (s.afterSend a) wire := by
  have hcursor := sendCursor_afterSend (s := s) hu
  rcases afterSend_cases s ha with ⟨v, pc, hv, hpc, heq⟩ | ⟨v, hv, heq⟩
  · rw [heq] at hcursor ⊢
    obtain rfl : v = u := hcursor
    have hphase := phase_of_size (s := s) hv hpc
    refine ⟨fun _ => hsound, ?_⟩
    rw [State.part, hphase]
    exact hwire
  · rw [heq] at hcursor ⊢
    obtain rfl : v = u := hcursor
    refine .between nofun rfl ?_
    have hall : v.moved.length = s.sendPtr.data.length := by
      have := hsound.length
      omega
    rw [hwire, hall, List.take_length]
    show _ = (s.completed ++ [s.sendPtr]).flatMap Packet.data
    rw [List.flatMap_append, List.flatMap_singleton]

/-- **A `write`** on a sound cursor. -/
theorem leaves_of_step {u : Transfer} {o : Syscall} {a : Act Transfer ℤ} {n : ℕ}
    (hsound : u.Sound 0 n) (hu : 0 < u.size) (hfits : o.count < 2 ^ 31) (ho : o.Halves u.size)
    (hstep : send.step (.running u) o = some a) :
    ∃ v : Transfer, Leaves v a ∧ v.Sound 0 n ∧ v.moved = u.moved ++ List.range' u.data o.count := by
  obtain ⟨hallow, rfl⟩ := Loop.step_running hstep
  have hzero : ∀ r ∈ (none : Option ℤ), r ≤ 0 := nofun
  obtain ⟨v, hv, hmoved, hnext | ⟨r, hr, hret⟩⟩ :=
    body_of_halves (fun _ => le_rfl) hzero hsound hu hfits ho hallow
  · refine ⟨v, .inl ?_, hv, hmoved⟩
    rw [show send.body u o = .next v from hnext]
    rfl
  · refine ⟨v, .inr ⟨r, hr, ?_⟩, hv, hmoved⟩
    rw [show send.body u o = .ret r v from hret]
    rfl

/-- The bytes between two places of a sound cursor. -/
theorem bytes_eq (s : State T) {k c : ℕ} (h : k + c ≤ s.sendPtr.data.length) :
    s.sendPtr.data.take k ++ (List.range' k c).map (s.byte beyond) =
      s.sendPtr.data.take (k + c) := by
  rw [List.take_add]
  congr 1
  refine List.ext_getElem ?_ fun i hi hi' => ?_
  · rw [List.length_map, List.length_range', List.length_take, List.length_drop]
    omega
  · rw [List.length_map, List.length_range'] at hi
    rw [List.getElem_map, List.getElem_range', List.getElem_take, List.getElem_drop, State.byte,
      Nat.one_mul, List.getD_eq_getElem?_getD, List.getElem?_eq_getElem (by omega),
      Option.getD_some]

/-- The packet in progress, when there is one. -/
theorem part_of_serving (hphase : s.phase = .serving s.sendPtr) :
    s.part = s.sendPtr.data.take s.sendCursor.moved.length := by
  rw [State.part, hphase]

theorem phase_of_follows {pc : LoopPc} {mutex : Option (Holder T)} {interest : ℕ}
    (h : s.pc.follows = some pc) :
    State.phase { s with pc := pc, mutex := mutex, interest := interest } = s.phase := by
  unfold State.phase
  cases hpc : s.pc <;> rw [hpc] at h <;> cases h <;> rfl

theorem Carries.quiet {bytes : List UInt8} (hbytes : bytes = []) (h : Carries s wire) :
    Carries s (wire ++ bytes) := by
  rwa [hbytes, List.append_nil]

theorem carries_step (hfacts : s.LoopFacts) (h : Carries s wire) (hc : Takes ⟨s, wire⟩ l)
    (hstep : Step s l s') : Carries s' (wire ++ s.taken beyond l) := by
  cases hstep with
  | calls hl hpc hptr hcursor hcompleted hregistered hqueued hun =>
    have htaken : s.taken beyond l = [] := by
      cases l <;> first
        | rfl
        | cases hl
    refine .quiet htaken ?_
    exact h.frame (by unfold State.phase; rw [hpc, hcursor, hptr]) hptr hcursor hcompleted
  | handleWrite hpc hregistered =>
    refine .quiet rfl ?_
    exact h.frame (by rw [State.phase, State.phase, hpc]) rfl rfl rfl
  | goes hfollows hsize =>
    refine .quiet rfl ?_
    exact h.frame (phase_of_follows hfollows) rfl rfl rfl
  | nothing hpc hdatas =>
    refine .quiet rfl ?_
    exact h.frame (by rw [State.phase, State.phase, hpc]) rfl rfl rfl
  | @picks _ packet rest hpc hdatas =>
    rw [State.LoopFacts, hpc] at hfacts
    have hready : s.phase = .ready := by
      rw [State.phase, hpc]
      exact if_pos hfacts
    refine .quiet rfl ?_
    refine ⟨fun _ => .fresh 0 _ _, ?_⟩
    rw [h.wire, State.part, hready]
    rfl
  | enters hpc =>
    have hphase : s.phase = .serving s.sendPtr := by
      rcases hpc with hpc | ⟨hpc, hsize⟩
      · rw [State.phase, hpc]
      · rw [State.phase, hpc]
        exact if_neg hsize
    refine .quiet rfl ?_
    refine carries_afterSend (sent_enter _) (.inl rfl) (h.sound hphase) ?_
    rw [h.wire, part_of_serving hphase]
  | @pops _ packet rest hpc hdatas =>
    rw [State.LoopFacts, hpc] at hfacts
    have hserved : s.phase = .served := by rw [State.phase, hpc]
    have hready : State.phase { s with sendDatas := rest, pc := .unlockPop } = .ready :=
      if_pos hfacts
    refine .quiet rfl ?_
    refine .between (by simp [hready]) (by rw [State.part, hready]) ?_
    rw [h.wire, State.part, hserved]
    exact List.append_nil _
  | unregisters hpc =>
    refine .quiet rfl ?_
    exact h.frame (by rw [State.phase, State.phase, hpc]) rfl rfl rfl
  | @write o a hpc hsend =>
    rw [State.LoopFacts, hpc] at hfacts
    have hphase : s.phase = .serving s.sendPtr := by
      rw [State.phase, hpc]
      exact if_neg hfacts.ne'
    have hsound := h.sound hphase
    obtain ⟨v, hleaves, hv, hmoved⟩ := leaves_of_step hsound hfacts hc.2 hc.1 hsend
    have hlen : v.moved.length = s.sendCursor.moved.length + o.count := by
      rw [hmoved, List.length_append, List.length_range']
    have hle := hv.length
    refine carries_afterSend (sent_step hfacts hsend) hleaves hv ?_
    rw [h.wire, part_of_serving hphase, List.append_assoc, hlen, State.taken, hsound.data hfacts,
      Nat.zero_add, bytes_eq s (by omega)]

theorem carries_registeredHandler (T : Type*) : Carries (.registeredHandler T) [] :=
  .between nofun rfl rfl

/-- What has been sent is of the front packet. -/
theorem part_prefix (ho : s.outbox.Orderly) :
    s.part <+: s.uncompleted.head?.elim [] Packet.data := by
  rw [← undone_outbox]
  cases hphase : s.phase with
  | ready =>
    rw [State.part, hphase]
    exact List.nil_prefix
  | served =>
    rw [State.part, hphase]
    exact List.nil_prefix
  | serving packet =>
    have hundone : s.outbox.undone = s.sendDatas := by
      show Outbox.State.undone _ = _
      rw [Outbox.State.undone, show s.outbox.phase = .serving packet from hphase]
      rfl
    have hfront : s.sendDatas.head? = some packet := ho.front packet hphase
    rw [State.part, hphase, hundone, hfront]
    exact List.take_prefix _ _

variable [DecidableEq T] {w : Wired T}

/-- The handler does not depend on the wire. -/
theorem refines_handler (beyond : ℕ → UInt8) :
    Refines (wired T beyond) Takes (handler T) Succeeds Wired.handler where
  init := by
    rintro _ rfl
    rfl
  step s l s' _ hc hn := by
    obtain ⟨h, hnext, rfl⟩ := Option.map_eq_some_iff.mp hn
    exact .inr ⟨l, hc.succeeds, hnext⟩

theorem carries_of_reachable (hr : (wired T beyond).Reachable Takes w) :
    Carries w.handler w.wire := by
  refine hr.invariant (I := fun w => Carries w.handler w.wire) ?_ ?_
  · rintro _ rfl
    exact carries_registeredHandler T
  · intro w l w' hr h hc hn
    obtain ⟨hi, ho⟩ := inv_of_reachable ((refines_handler beyond).reachable hr)
    obtain ⟨s', hnext, rfl⟩ := Option.map_eq_some_iff.mp hn
    exact carries_step hi.facts h hc (step_of_next ho hc.succeeds hnext)

/-- **The packets do not mix** on the wire, whatever the threads do and in whatever order, as long
as every `write` takes nothing, half or all of the rest and no `Modify` fails: the wire carries the
completed packets, whole and in the order in which all were queued, and a part of the next one. When
there is no other, it carries all. -/
theorem wire_in_order (hr : (wired T beyond).Reachable Takes w) :
    (∃ part, part <+: w.handler.uncompleted.head?.elim [] Packet.data ∧
        w.wire = w.handler.completed.flatMap Packet.data ++ part) ∧
      w.handler.completed ++ w.handler.uncompleted = w.handler.queued ∧
      w.wire <+: w.handler.queued.flatMap Packet.data ∧
      (w.handler.uncompleted = [] → w.wire = w.handler.queued.flatMap Packet.data) := by
  obtain ⟨-, ho⟩ := inv_of_reachable ((refines_handler beyond).reachable hr)
  have hwire := (carries_of_reachable hr).wire
  have hpart := part_prefix ho
  have horder : w.handler.completed ++ w.handler.uncompleted = w.handler.queued := by
    rw [← undone_outbox]
    exact ho.order
  refine ⟨⟨w.handler.part, hpart, hwire⟩, horder, ?_, fun hnil => ?_⟩
  · rw [hwire]
    refine ho.flatMap_prefix ?_
    rw [undone_outbox]
    exact hpart
  · rw [hnil] at hpart
    rw [hwire, ← horder, hnil, List.prefix_nil.mp hpart, List.append_nil, List.append_nil]

/-- Another thread queues a packet while the first is sent in halves. -/
theorem wire_in_order_two : ∃ w : Wired Bool,
    (wired Bool fun _ => 0).Reachable Takes w ∧ w.wire = [1, 2, 3] ∧
      w.wire <+: w.handler.queued.flatMap Packet.data := by
  have hrun : (((wired Bool fun _ => 0).exec Takes ⟨.registeredHandler Bool, []⟩
      [.send true [1, 2], .sender true true, .sender true true, .sender true true,
        .sender true true, .handleWrite, .loop true, .loop true, .loop true, .loop true,
        .write (.moves 1), .send false [3, 4], .sender false true, .sender false true,
        .write (.moves 1), .sender false true, .sender false true, .loop true, .loop true,
        .loop true, .loop true, .loop true, .loop true, .loop true, .write (.moves 1)]).map
          Wired.wire) = some [1, 2, 3] := by
    decide +kernel
  obtain ⟨w, hexec, hwire⟩ := Option.map_eq_some_iff.mp hrun
  have hr : (wired Bool fun _ => 0).Reachable Takes w := System.reachable_of_exec rfl hexec
  exact ⟨w, hr, hwire, (wire_in_order hr).2.2.1⟩

end Wire

end Xfnet.SendQueue
