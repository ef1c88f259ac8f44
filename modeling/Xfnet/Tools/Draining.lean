import Xfnet.Foundations.Progress
import Xfnet.Tools.Wire

/-!
# How soon a reply is sent

While the connection takes bytes and the selector reports a handler that is watched for
`EVENT_WRITE`, a packet waits for the packets in front of it, and for nothing else: the loop thread
takes seven statements and the `write` calls for each of them (`sent_soon`), and until then it can
always go on, or a thread inside `Send` that holds the mutex can. A `write` that is interrupted or
refused does nothing, and may come any number of times. Neither is it counted (`State.works`), nor
the way back to it: the call of `HandleWrite` and the test of its loop with a packet half sent.
-/

namespace Xfnet.SendQueue

open EventLoop Loops Mutex Transition Xfnet.Stream

/-- The statements and the `write` calls between two packets, at most. -/
def cost (packet : Packet) : ℕ := packet.data.length + 7

namespace State

variable {T : Type*}

/-- The packets up to the one at `k` that are not completed. -/
def due (k : ℕ) (s : State T) : List Packet := s.uncompleted.take (k + 1 - s.completed.length)

/-- The steps until the next packet, one of `n` bytes, is completed. -/
def toCompletion (s : State T) (n : ℕ) : ℕ :=
  match s.pc with
  | .idle => if s.sendCursor.size = 0 then n + 5 else s.sendCursor.size
  | .top => if s.sendCursor.size = 0 then n + 4 else s.sendCursor.size
  | .lockPick => n + 3
  | .picking => n + 2
  | .unlockPick => n + 1
  | .sending => s.sendCursor.size
  | .lockPop => n + 7
  | .popping => n + 6
  | .unlockPop => n + 5
  | .watchRead | .unlockBreak | .unregistering | .aborted => 0

/-- The steps until the packet at `k` is completed. -/
def ahead (k : ℕ) (s : State T) : ℕ :=
  match s.due k with
  | [] => 0
  | packet :: rest => s.toCompletion packet.data.length + (rest.map cost).sum

/-- A step of the loop thread that counts: one on its way, other than an interrupted or refused
`write` and the way back to it. -/
def works (s : State T) : Label T → Bool
  | .handleWrite => s.sendCursor.size = 0
  | .loop _ => s.pc ≠ .top ∨ s.sendCursor.size = 0
  | .write o => 0 < o.count
  | _ => false

end State

/-- A step that does something, and does not begin another call of `Send`. -/
def Label.goesOn {T : Type*} : Label T → Bool
  | .send .. => false
  | .write o => 0 < o.count
  | _ => true

/-- The selector reports `EVENT_WRITE` only to a handler that is watched for it, and `write` fails
only because of an interrupt or because the connection takes no more for now. -/
def Serves {T : Type*} (w : Wired T) (l : Label T) : Prop :=
  Takes w l ∧
    match l with
    | .handleWrite => watchesWrite w.handler.interest = true
    | .write (.fails e) => e = .eintr ∨ e = .eagain
    | _ => True

instance {T : Type*} (w : Wired T) : DecidablePred (Serves w)
  | .handleWrite => inferInstanceAs (Decidable (_ ∧ _))
  | .write (.fails e) => inferInstanceAs (Decidable (_ ∧ (e = .eintr ∨ e = .eagain)))
  | .write (.moves _) | .send .. | .sender .. | .loop _ => inferInstanceAs (Decidable (_ ∧ True))

section Steps

variable {T : Type*} {s s' : State T} {l : Label T} {k : ℕ} {packet : Packet} {rest : List Packet}

theorem ahead_eq (hdue : s.due k = packet :: rest) :
    s.ahead k = s.toCompletion packet.data.length + (rest.map cost).sum := by
  rw [State.ahead, hdue]

theorem ahead_of_lockPop (hpc : s.pc = .lockPop) : s.ahead k = ((s.due k).map cost).sum := by
  cases hdue : s.due k with
  | nil =>
    rw [State.ahead, hdue]
    rfl
  | cons packet rest =>
    rw [ahead_eq hdue, State.toCompletion, hpc, List.map_cons, List.sum_cons]
    rfl

/-- A step that does nothing to the packets. -/
theorem due_frame (hcompleted : s'.completed = s.completed) (hun : s'.uncompleted = s.uncompleted) :
    s'.due k = s.due k := by
  rw [State.due, State.due, hcompleted, hun]

theorem uncompleted_of_follows {pc : LoopPc} {mutex : Option (Holder T)} {interest : ℕ}
    (h : s.pc.follows = some pc) :
    State.uncompleted { s with pc := pc, mutex := mutex, interest := interest } =
      s.uncompleted := by
  unfold State.uncompleted
  cases hpc : s.pc <;> rw [hpc] at h <;> cases h <;> rfl

theorem sendDatas_ne_nil (hdue : s.due k ≠ []) : s.sendDatas ≠ [] := by
  rintro hnil
  refine hdue ?_
  have hun : s.uncompleted = [] := by
    unfold State.uncompleted
    split <;> rw [hnil] <;> rfl
  rw [State.due, hun, List.take_nil]

theorem head_of_due (hdue : s.due k = packet :: rest) : s.uncompleted.head? = some packet := by
  have htake := congrArg List.head? hdue
  rw [State.due, List.head?_take] at htake
  split_ifs at htake
  · cases htake
  · exact htake

/-- The next packet is the front one, when one is in progress. -/
theorem due_of_serving (ho : s.outbox.Orderly) (hphase : s.phase = .serving s.sendPtr)
    (hdue : s.due k = packet :: rest) : s.sendPtr = packet ∧ s.sendDatas = s.uncompleted := by
  have hundone : s.uncompleted = s.sendDatas := by
    rw [← undone_outbox, Outbox.State.undone, show s.outbox.phase = .serving s.sendPtr from hphase]
    rfl
  have hfront : s.sendDatas.head? = some s.sendPtr := ho.front _ hphase
  have hhead := head_of_due hdue
  rw [hundone, hfront] at hhead
  exact ⟨Option.some.inj hhead, hundone.symm⟩

/-- What the steps of a run preserve. -/
structure Ready (k : ℕ) (s : State T) : Prop where
  registered : s.registered = true
  place : s.pc ≠ .unregistering
  queued : k < s.queued.length

theorem Ready.afterSend {a : Act Transfer ℤ} {u : Transfer} (h : Ready k s)
    (hu : a = send.enter u ∨ a = .returned 0 u) : Ready k (s.afterSend a) := by
  rcases hu with rfl | rfl
  · by_cases hsize : 0 < u.size
    · rw [Loop.enter_of_guard (by simpa [send] using hsize)]
      exact ⟨h.registered, by simp [State.afterSend], h.queued⟩
    · rw [Loop.enter_of_not_guard (by simpa [send] using hsize)]
      have heq : s.afterSend (.returned 1 u) =
          { s with sendCursor := u, pc := .lockPop, completed := s.completed ++ [s.sendPtr] } :=
        if_pos (Nat.eq_zero_of_not_pos hsize)
      rw [show send.done = 1 from rfl, heq]
      exact ⟨h.registered, by simp, h.queued⟩
  · exact ⟨h.registered, by simp [State.afterSend], h.queued⟩

/-- **`Stream::Send`** goes on with `u`, or has completed the packet. -/
theorem ahead_afterSend {a : Act Transfer ℤ} {u : Transfer} (ha : Sent a)
    (hu : a = send.enter u ∨ a = .returned 0 u) (hdatas : s.sendDatas = s.uncompleted)
    (hdue : s.due k = packet :: rest) :
    (s.afterSend a).ahead k = u.size + (rest.map cost).sum := by
  have hsame (pc : LoopPc) (hpc : pc = .sending ∨ pc = .idle) :
      State.due k { s with sendCursor := u, pc := pc } = packet :: rest := by
    rw [← hdue]
    refine due_frame rfl (Eq.trans ?_ hdatas)
    rcases hpc with rfl | rfl <;> rfl
  rcases hu with rfl | rfl
  · by_cases hsize : 0 < u.size
    · rw [Loop.enter_of_guard (by simpa [send] using hsize)]
      exact ahead_eq (hsame .sending (.inl rfl))
    · rw [Loop.enter_of_not_guard (by simpa [send] using hsize)]
      have hzero : u.size = 0 := Nat.eq_zero_of_not_pos hsize
      have heq : s.afterSend (.returned 1 u) =
          { s with sendCursor := u, pc := .lockPop, completed := s.completed ++ [s.sendPtr] } :=
        if_pos hzero
      rw [show send.done = 1 from rfl, heq, ahead_of_lockPop rfl, hzero, Nat.zero_add]
      congr 2
      show s.sendDatas.tail.take (k + 1 - (s.completed ++ [s.sendPtr]).length) = rest
      rw [State.due, ← hdatas] at hdue
      rw [List.length_append, List.length_singleton, ← Nat.sub_sub, ← List.tail_take_eq_take_tail,
        hdue, List.tail_cons]
  · have hsize : 0 < u.size := by
      cases ha
      assumption
    refine (ahead_eq (hsame .idle (.inr rfl))).trans ?_
    congr 1
    exact if_neg hsize.ne'

/-- **A `write`** that takes bytes, or is to be tried again. -/
theorem serves_write {wire : List UInt8} {o : Syscall} {a : Act Transfer ℤ} {n : ℕ}
    (hsound : s.sendCursor.Sound 0 n) (hu : 0 < s.sendCursor.size)
    (hserves : Serves ⟨s, wire⟩ (.write o)) (hstep : send.step (.running s.sendCursor) o = some a) :
    ∃ v : Transfer, (a = send.enter v ∨ a = .returned 0 v) ∧ v.Sound 0 n ∧
      v.size + o.count = s.sendCursor.size := by
  obtain ⟨⟨hhalves, hfits⟩, hfails⟩ := hserves
  obtain ⟨v, hleaves, hv, hmoved⟩ := leaves_of_step hsound hu hfits hhalves hstep
  have hlen : v.moved.length = s.sendCursor.moved.length + o.count := by
    rw [hmoved, List.length_append, List.length_range']
  have hulen := hsound.length
  have hvlen := hv.length
  refine ⟨v, hleaves.imp_right ?_, hv, by omega⟩
  rintro ⟨r, hr, rfl⟩
  congr 1
  obtain ⟨hallow, hsettle⟩ := Loop.step_running hstep
  obtain ⟨rfl, -⟩ | hbody := Loop.settle_returned hsettle.symm
  · exact absurd hr (by decide)
  · cases o with
    | moves c =>
      have hc : 0 < c := (of_decide_eq_true hallow).1
      exact absurd ((body_moves hc hfits).symm.trans hbody) nofun
    | fails e =>
      have hfailed := (body_fails none _ e).symm.trans hbody
      rcases hfails with rfl | rfl
      · exact absurd hfailed nofun
      · exact (Flow.ret.inj hfailed).1.symm

theorem due_ne_nil (ho : s.outbox.Orderly) (hk : k < s.queued.length)
    (hd : s.completed.length ≤ k) : ∃ packet rest, s.due k = packet :: rest := by
  have hlen := congrArg List.length ho.order
  rw [undone_outbox, List.length_append] at hlen
  replace hlen : s.completed.length + s.uncompleted.length = s.queued.length := hlen
  refine List.exists_cons_of_ne_nil fun hnil => ?_
  have hzero := congrArg List.length hnil
  rw [State.due, List.length_take, List.length_nil] at hzero
  omega

end Steps

/-! ## Every step -/

section Serving

variable {T : Type*} {s s' : State T} {wire : List UInt8} {l : Label T} {k : ℕ}

/-- The size of the cursor of a packet in progress. -/
theorem size_le (h : Carries s wire)
    (hphase : s.phase = .serving s.sendPtr) : s.sendCursor.size ≤ s.sendPtr.data.length := by
  have := (h.sound hphase).length
  omega

theorem phase_of_enters
    (hpc : s.pc = .unlockPick ∨ s.pc = .top ∧ s.sendCursor.size ≠ 0) :
    s.phase = .serving s.sendPtr := by
  rcases hpc with hpc | ⟨hpc, hsize⟩
  · rw [State.phase, hpc]
  · rw [State.phase, hpc]
    exact if_neg hsize

theorem phase_of_sending (hfacts : s.LoopFacts) (hpc : s.pc = .sending) :
    0 < s.sendCursor.size ∧ s.phase = .serving s.sendPtr := by
  rw [State.LoopFacts, hpc] at hfacts
  refine ⟨hfacts, ?_⟩
  rw [State.phase, hpc]
  exact if_neg (Nat.pos_iff_ne_zero.mp hfacts)

theorem sendPtr_mem (ho : s.outbox.Orderly) (hphase : s.phase = .serving s.sendPtr) :
    s.sendPtr ∈ s.queued := by
  have hfront : s.sendDatas.head? = some s.sendPtr := ho.front _ hphase
  have hundone : s.outbox.undone = s.sendDatas := by
    rw [Outbox.State.undone, show s.outbox.phase = .serving s.sendPtr from hphase]
    rfl
  have horder : s.completed ++ s.outbox.undone = s.queued := ho.order
  rw [← horder, hundone]
  exact List.mem_append_right _ (List.mem_of_head? hfront)

theorem ready_step (hfacts : s.LoopFacts) (hcarries : Carries s wire)
    (h : Ready k s) (hserves : Serves ⟨s, wire⟩ l) (hstep : Step s l s') : Ready k s' := by
  cases hstep with
  | calls hl hpc hptr hcursor hcompleted hregistered hqueued hun =>
    refine ⟨hregistered.trans h.registered, hpc ▸ h.place, ?_⟩
    rw [hqueued, List.length_append]
    exact Nat.lt_add_right _ h.queued
  | handleWrite hpc hregistered => exact ⟨h.registered, nofun, h.queued⟩
  | @goes _ pc _ _ hfollows hsize =>
    refine ⟨h.registered, ?_, h.queued⟩
    rintro rfl
    cases hpc : s.pc <;> rw [hpc] at hfollows <;> cases hfollows
  | nothing hpc hdatas => exact ⟨h.registered, nofun, h.queued⟩
  | picks hpc hdatas => exact ⟨h.registered, nofun, h.queued⟩
  | enters hpc => exact Ready.afterSend ⟨h.registered, h.place, h.queued⟩ (.inl rfl)
  | pops hpc hdatas => exact ⟨h.registered, nofun, h.queued⟩
  | unregisters hpc => exact absurd hpc h.place
  | write hpc hsend =>
    obtain ⟨hsize, hphase⟩ := phase_of_sending hfacts hpc
    obtain ⟨v, hv, -, -⟩ := serves_write (hcarries.sound hphase) hsize hserves hsend
    exact h.afterSend hv

/-- A step brings the loop thread nearer to the next packet. -/
theorem ahead_le {packet : Packet} {rest : List Packet} {c : ℕ}
    (hdue : s.due k = packet :: rest) (hdue' : s'.due k = packet :: rest)
    (hle : s'.toCompletion packet.data.length + c ≤ s.toCompletion packet.data.length) :
    s'.ahead k + c ≤ s.ahead k := by
  rw [ahead_eq hdue, ahead_eq hdue']
  omega

/-- A step that does nothing to the packets brings the loop thread nearer to the next one. -/
theorem ahead_frame {packet : Packet} {rest : List Packet} {c : ℕ}
    (hdue : s.due k = packet :: rest) (hcompleted : s'.completed = s.completed)
    (hun : s'.uncompleted = s.uncompleted)
    (hle : s'.toCompletion packet.data.length + c ≤ s.toCompletion packet.data.length) :
    s'.ahead k + c ≤ s.ahead k :=
  ahead_le hdue ((due_frame hcompleted hun).trans hdue) hle

theorem toCompletion_of_follows {pc : LoopPc} {mutex : Option (Holder T)} {interest n : ℕ}
    {ok : Bool} (hfacts : s.LoopFacts) (hdatas : s.sendDatas ≠ []) (h : s.pc.follows = some pc)
    (hsize : s.pc = .top → s.sendCursor.size = 0) :
    s.works (.loop ok) = true ∧
      State.toCompletion { s with pc := pc, mutex := mutex, interest := interest } n + 1 ≤
        s.toCompletion n := by
  cases hpc : s.pc with
  | top =>
    rw [hpc] at h
    obtain rfl := Option.some.inj h
    simp only [State.toCompletion, State.works, hpc, hsize hpc]
    exact ⟨rfl, le_rfl⟩
  | unlockPop =>
    rw [hpc] at h
    obtain rfl := Option.some.inj h
    rw [State.LoopFacts, hpc] at hfacts
    simp only [State.toCompletion, State.works, hpc, hfacts]
    exact ⟨rfl, le_rfl⟩
  | watchRead | unlockBreak =>
    rw [State.LoopFacts, hpc] at hfacts
    exact absurd hfacts.2 hdatas
  | lockPick | lockPop =>
    rw [hpc] at h
    obtain rfl := Option.some.inj h
    simp only [State.toCompletion, State.works, hpc]
    exact ⟨rfl, le_rfl⟩
  | _ =>
    rw [hpc] at h
    cases h

/-- **Every step** brings the packet at `k` nearer to its completion, or is not one on the way. -/
theorem ahead_step (hfacts : s.LoopFacts) (ho : s.outbox.Orderly)
    (hcarries : Carries s wire) (h : Ready k s) (hserves : Serves ⟨s, wire⟩ l)
    (hstep : Step s l s') (hd : s.completed.length ≤ k) :
    s'.ahead k + (if s.works l then 1 else 0) ≤ s.ahead k := by
  obtain ⟨packet, rest, hdue⟩ := due_ne_nil ho h.queued hd
  have hdatas := sendDatas_ne_nil (hdue ▸ List.cons_ne_nil packet rest)
  cases hstep with
  | calls hl hpc hptr hcursor hcompleted hregistered hqueued hun =>
    have hworks : s.works l = false := by
      cases l <;> first
        | rfl
        | cases hl
    have hlen := congrArg List.length ho.order
    rw [undone_outbox, List.length_append] at hlen
    replace hlen : s.completed.length + s.uncompleted.length =
      s.queued.length := hlen
    have hqueued := h.queued
    refine ahead_le hdue ?_ ?_
    · rw [State.due, hcompleted, hun, List.take_append_of_le_length (by omega)]
      exact hdue
    · rw [hworks, State.toCompletion, State.toCompletion, hpc, hcursor]
      exact le_rfl
  | handleWrite hpc hregistered =>
    refine ahead_frame hdue rfl ?_ ?_
    · unfold State.uncompleted
      rw [hpc]
    · simp only [State.toCompletion, State.works, hpc, decide_eq_true_eq]
      split_ifs <;> omega
  | @goes _ pc mutex interest hfollows hsize =>
    obtain ⟨hworks, hlt⟩ := toCompletion_of_follows hfacts hdatas hfollows hsize
    refine ahead_frame hdue rfl (uncompleted_of_follows hfollows) ?_
    rw [hworks]
    exact hlt
  | nothing hpc hnil => exact absurd hnil hdatas
  | @picks _ front datas hpc hcons =>
    have hun : s.uncompleted = front :: datas := by
      unfold State.uncompleted
      rw [hpc]
      exact hcons
    have hhead := head_of_due hdue
    rw [hun] at hhead
    obtain rfl : front = packet := Option.some.inj hhead
    refine ahead_frame hdue rfl ?_ ?_
    · rw [hun]
      exact hcons
    · simp only [State.toCompletion, State.works, hpc]
      exact le_rfl
  | @enters _ mutex hpc =>
    have hphase := phase_of_enters hpc
    obtain ⟨rfl, hun⟩ := due_of_serving ho hphase hdue
    have hsize := size_le hcarries hphase
    have hahead := ahead_afterSend (s := { s with mutex := mutex }) (sent_enter s.sendCursor)
      (.inl rfl) hun hdue
    rw [ahead_eq hdue, hahead]
    rcases hpc with hpc | ⟨hpc, hne⟩
    · simp only [State.toCompletion, State.works, hpc]
      split_ifs <;> omega
    · simp only [State.toCompletion, State.works, hpc, if_neg hne]
      simp [hne]
  | @pops _ front datas hpc hcons =>
    refine ahead_frame hdue rfl ?_ ?_
    · unfold State.uncompleted
      rw [hpc, hcons]
      rfl
    · simp only [State.toCompletion, State.works, hpc]
      exact le_rfl
  | unregisters hpc => exact absurd hpc h.place
  | @write o a hpc hsend =>
    obtain ⟨hsize, hphase⟩ := phase_of_sending hfacts hpc
    obtain ⟨v, hv, -, hmoved⟩ := serves_write (hcarries.sound hphase) hsize hserves hsend
    obtain ⟨-, hun⟩ := due_of_serving ho hphase hdue
    rw [ahead_eq hdue, ahead_afterSend (sent_step hsize hsend) hv hun hdue, State.toCompletion, hpc]
    simp only [State.works, decide_eq_true_eq]
    split_ifs <;> omega

/-! ### Nobody is stuck -/

section Stuck

variable [DecidableEq T] {t : T}

theorem senderStep_of_locked (hregistered : s.registered = true)
    (hlocked : (s.senders t).locked = true) : ∃ s', s.senderStep t true = some s' := by
  cases hp : s.senders t with
  | idle | locking =>
    rw [hp] at hlocked
    cases hlocked
  | pushing data =>
    simp only [State.senderStep, hp]
    exact ⟨_, rfl⟩
  | modifying =>
    simp only [State.senderStep, hp, State.modify, hregistered, if_true]
    exact ⟨_, rfl⟩
  | unlocking =>
    simp only [State.senderStep, hp]
    exact ⟨_, rfl⟩

/-- The loop thread takes the mutex, or the thread that holds it goes on. -/
theorem free_or_senderStep (hguarded : Guarded s.mutex s.inside) (hregistered : s.registered = true)
    (hpc : s.pc.locked = false) :
    s.mutex.isNone = true ∨ ∃ t s', s.senderStep t true = some s' := by
  cases hmutex : s.mutex with
  | none => exact .inl rfl
  | some holder =>
    have hinside := (hguarded holder).mp hmutex
    cases holder with
    | loop => exact absurd (hpc.symm.trans hinside) nofun
    | sender t => exact .inr ⟨t, senderStep_of_locked hregistered hinside⟩

/-- **As long as there is a packet**, the loop thread or a thread in `Send` can go on. -/
theorem goesOn_of_ready (hi : s.Inv) (ho : s.outbox.Orderly) (hcarries : Carries s wire)
    (h : Ready k s) (hdatas : s.sendDatas ≠ [])
    (hsmall : ∀ packet ∈ s.queued, packet.data.length < 2 ^ 31) :
    ∃ l s', l.goesOn = true ∧ Serves ⟨s, wire⟩ l ∧ s.next l = some s' := by
  have hsender : (∃ t s', s.senderStep t true = some s') →
      ∃ l s', l.goesOn = true ∧ Serves ⟨s, wire⟩ l ∧ s.next l = some s' := by
    rintro ⟨t, s', hs'⟩
    exact ⟨.sender t true, s', rfl, ⟨rfl, trivial⟩, hs'⟩
  have hloop : (∃ s', s.loopStep true = some s') →
      ∃ l s', l.goesOn = true ∧ Serves ⟨s, wire⟩ l ∧ s.next l = some s' := by
    rintro ⟨s', hs'⟩
    exact ⟨.loop true, s', rfl, ⟨rfl, trivial⟩, hs'⟩
  have hfacts := hi.facts
  have hregistered := h.registered
  cases hpc : s.pc with
  | idle =>
    have harmed : (watchesWrite s.interest || s.arming) = true := ho.armed hdatas
    rcases Bool.or_eq_true_iff.mp harmed with hwatched | harming
    · exact ⟨.handleWrite, _, rfl, ⟨trivial, hwatched⟩, if_pos ⟨hpc, hregistered⟩⟩
    · obtain ⟨t, ht⟩ := (arming_iff hi.guarded).mp harming
      exact hsender ⟨t, senderStep_of_locked hregistered (by rw [ht]; rfl)⟩
  | lockPick | lockPop =>
    rcases free_or_senderStep hi.guarded hregistered (by rw [hpc]; rfl) with hfree | hstep
    · refine hloop ?_
      simp only [State.loopStep, hpc, hfree, if_true]
      exact ⟨_, rfl⟩
    · exact hsender hstep
  | top =>
    refine hloop ?_
    simp only [State.loopStep, hpc]
    split_ifs
    · exact ⟨_, rfl⟩
    · exact ⟨_, rfl⟩
  | picking | popping =>
    refine hloop ?_
    obtain ⟨packet, rest, hcons⟩ := List.exists_cons_of_ne_nil hdatas
    simp only [State.loopStep, hpc, hcons]
    exact ⟨_, rfl⟩
  | unlockPick | unlockPop | unlockBreak =>
    refine hloop ?_
    simp only [State.loopStep, hpc]
    exact ⟨_, rfl⟩
  | watchRead =>
    rw [State.LoopFacts, hpc] at hfacts
    exact absurd hfacts.2 hdatas
  | sending =>
    obtain ⟨hsize, hphase⟩ := phase_of_sending hfacts hpc
    have hlt := hsmall _ (sendPtr_mem ho hphase)
    have hle := size_le hcarries hphase
    have hallow : send.allows s.sendCursor (.moves s.sendCursor.size) = true :=
      decide_eq_true ⟨hsize, le_rfl⟩
    refine ⟨.write (.moves s.sendCursor.size),
      s.afterSend (send.settle (send.body s.sendCursor (.moves s.sendCursor.size))),
      decide_eq_true hsize, ⟨⟨.inr (.inr rfl), hle.trans_lt hlt⟩, trivial⟩, ?_⟩
    rw [State.next, if_pos hpc, Loop.step, if_pos hallow]
    rfl
  | unregistering => exact absurd hpc h.place
  | aborted =>
    rw [State.LoopFacts, hpc] at hfacts
    exact hfacts.elim

end Stuck

/-! ### The wait of a packet -/

theorem completed_le (h : Step s l s') : s.completed.length ≤ s'.completed.length := by
  have hsend (s : State T) (a : Act Transfer ℤ) :
      s.completed.length ≤ (s.afterSend a).completed.length := by
    unfold State.afterSend
    split
    · exact le_rfl
    · split_ifs
      · exact le_rfl
      · exact le_rfl
      · rw [List.length_append]
        exact Nat.le_add_right _ _
      · exact le_rfl
    · exact le_rfl
  cases h with
  | calls hl hpc hptr hcursor hcompleted hregistered hqueued hun => rw [hcompleted]
  | handleWrite hpc hregistered => exact le_rfl
  | goes hfollows hsize => exact le_rfl
  | nothing hpc hnil => exact le_rfl
  | picks hpc hcons => exact le_rfl
  | @enters _ mutex hpc => exact hsend { s with mutex := mutex } _
  | pops hpc hcons => exact le_rfl
  | unregisters hpc => exact le_rfl
  | write hpc hstep => exact hsend _ _

theorem toCompletion_le (hfacts : s.LoopFacts) (ho : s.outbox.Orderly) (hcarries : Carries s wire)
    {packet : Packet} {rest : List Packet} (hdue : s.due k = packet :: rest) :
    s.toCompletion packet.data.length ≤ cost packet := by
  have hserving (hphase : s.phase = .serving s.sendPtr) :
      s.sendCursor.size ≤ packet.data.length := by
    obtain ⟨rfl, -⟩ := due_of_serving ho hphase hdue
    exact size_le hcarries hphase
  unfold State.toCompletion cost
  cases hpc : s.pc with
  | idle | top =>
    dsimp only
    split_ifs with hsize
    · omega
    · have hle := hserving (by rw [State.phase, hpc]; exact if_neg hsize)
      omega
  | sending =>
    have hle := hserving (phase_of_sending hfacts hpc).2
    dsimp only
    omega
  | _ =>
    dsimp only
    omega

/-- What the packets up to the one at `k` cost. -/
theorem ahead_le_cost (hfacts : s.LoopFacts) (ho : s.outbox.Orderly) (hcarries : Carries s wire) :
    s.ahead k ≤ ((s.due k).map cost).sum := by
  cases hdue : s.due k with
  | nil =>
    rw [State.ahead, hdue]
    exact Nat.zero_le _
  | cons packet rest =>
    rw [ahead_eq hdue, List.map_cons, List.sum_cons]
    exact Nat.add_le_add_right (toCompletion_le hfacts ho hcarries hdue) _

variable [DecidableEq T] {w w' : Wired T} {ls : List (Label T)} {beyond : ℕ → UInt8}

/-- **A reply is sent soon**, while the connection takes bytes and no `Modify` fails: until the
packet at `k` is completed, the loop thread makes no more steps that count than the packets up to it
cost, whatever else is queued meanwhile. Until then somebody can go on, and afterwards they are on
the wire. -/
theorem sent_soon (hr : (wired T beyond).Reachable Takes w)
    (hregistered : w.handler.registered = true) (hplace : w.handler.pc ≠ .unregistering)
    (hk : k < w.handler.queued.length) (hrun : (wired T beyond).exec Serves w ls = some w') :
    (wired T beyond).tally
        (fun w l => w.handler.works l && decide (w.handler.completed.length ≤ k)) w ls ≤
          ((w.handler.due k).map cost).sum ∧
      (w'.handler.completed.length ≤ k →
        (∀ packet ∈ w'.handler.queued, packet.data.length < 2 ^ 31) →
        ∃ l w'', l.goesOn = true ∧ Serves w' l ∧ (wired T beyond).next w' l = some w'') ∧
      (k < w'.handler.completed.length →
        (w'.handler.queued.take (k + 1)).flatMap Packet.data <+: w'.wire) := by
  have hstep (w : Wired T) (l : Label T) (w' : Wired T)
      (hI : (wired T beyond).Reachable Takes w ∧ Ready k w.handler) (hserves : Serves w l)
      (hn : (wired T beyond).next w l = some w') :
      ((wired T beyond).Reachable Takes w' ∧ Ready k w'.handler) ∧
        w'.handler.ahead k +
            (if w.handler.works l && decide (w.handler.completed.length ≤ k) then 1 else 0) ≤
          w.handler.ahead k := by
    obtain ⟨hr, h⟩ := hI
    obtain ⟨hi, ho⟩ := inv_of_reachable ((refines_handler beyond).reachable hr)
    have hcarries := carries_of_reachable hr
    obtain ⟨s', hnext, rfl⟩ := Option.map_eq_some_iff.mp hn
    have hmoves := step_of_next ho hserves.1.succeeds hnext
    refine ⟨⟨.step hr hserves.1 hn, ready_step hi.facts hcarries h hserves hmoves⟩, ?_⟩
    by_cases hd : w.handler.completed.length ≤ k
    · rw [decide_eq_true hd, Bool.and_true]
      exact ahead_step hi.facts ho hcarries h hserves hmoves hd
    · have hle := completed_le hmoves
      have hnone : s'.due k = [] := by
        rw [State.due, show k + 1 - s'.completed.length = 0 by omega, List.take_zero]
      rw [decide_eq_false hd, Bool.and_false, State.ahead, hnone]
      exact Nat.zero_le _
  obtain ⟨⟨hr', h'⟩, htally⟩ := System.tally_add_le hstep ⟨hr, hregistered, hplace, hk⟩ hrun
  obtain ⟨hi, ho⟩ := inv_of_reachable ((refines_handler beyond).reachable hr)
  obtain ⟨hi', ho'⟩ := inv_of_reachable ((refines_handler beyond).reachable hr')
  refine ⟨?_, fun hd hsmall => ?_, fun hd => ?_⟩
  · have hcost := ahead_le_cost (k := k) hi.facts ho (carries_of_reachable hr)
    omega
  · obtain ⟨packet, rest, hdue⟩ := due_ne_nil ho' h'.queued hd
    obtain ⟨l, s', hl, hserves, hn⟩ := goesOn_of_ready hi' ho' (carries_of_reachable hr') h'
      (sendDatas_ne_nil (by rw [hdue]; exact List.cons_ne_nil _ _)) hsmall
    exact ⟨l, _, hl, hserves, congrArg (Option.map _) hn⟩
  · have horder : w'.handler.completed ++ w'.handler.uncompleted = w'.handler.queued := by
      rw [← undone_outbox]
      exact ho'.order
    rw [(carries_of_reachable hr').wire, ← horder, List.take_append_of_le_length hd]
    exact ((List.take_prefix _ _).flatMap _).trans (List.prefix_append _ _)

end Serving

/-- The steps of the loop thread that send two bytes in halves, the second one after an interrupt
and a refusal. Four of them do not count: these two, and the two that lead back to `write`. -/
def halves : List (Label Bool) :=
  [.handleWrite, .loop true, .loop true, .loop true, .loop true, .write (.moves 1),
    .write (.fails .eintr), .write (.fails .eagain), .handleWrite, .loop true, .write (.moves 1)]

theorem sent_soon_halves : ∃ w w' : Wired Bool,
    (wired Bool fun _ => 0).exec Serves w halves = some w' ∧
      (wired Bool fun _ => 0).tally
        (fun w l => w.handler.works l && decide (w.handler.completed.length ≤ 0)) w halves ≤ 9 := by
  have hruns : (((wired Bool fun _ => 0).exec Takes ⟨.registeredHandler Bool, []⟩
      [.send true [1, 2], .sender true true, .sender true true, .sender true true,
        .sender true true]).bind fun w =>
          ((wired Bool fun _ => 0).exec Serves w halves).map fun _ =>
            (w.handler.registered, w.handler.pc, w.handler.queued.length,
              ((w.handler.due 0).map cost).sum)) = some (true, .idle, 1, 9) := by
    decide +kernel
  obtain ⟨w, hfirst, hruns⟩ := Option.bind_eq_some_iff.mp hruns
  obtain ⟨w', hrun, hw⟩ := Option.map_eq_some_iff.mp hruns
  simp only [Prod.mk.injEq] at hw
  obtain ⟨hregistered, hpc, hqueued, hcost⟩ := hw
  have hr : (wired Bool fun _ => 0).Reachable Takes w := System.reachable_of_exec rfl hfirst
  have hsent := sent_soon (k := 0) hr hregistered (by rw [hpc]; nofun) (by omega) hrun
  exact ⟨w, w', hrun, hcost ▸ hsent.1⟩

end Xfnet.SendQueue
