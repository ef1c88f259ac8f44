import Xfnet.Tools.Echo

/-!
# Steps of the echo server

The handler of `server_example.cpp` does not look ahead: its steps are the same when more bytes are
to come (`next_more`), so that the stream it echoes can be made up while it runs. And it never
forgets to send: while it is registered, `EVENT_WRITE` is set as long as a packet is in the queue
(`keeps_step`).
-/

namespace Xfnet.TestEventHandler

open Framing Loops Xfnet.Stream Transition

/-! ## A stream that gets longer -/

/-- More bytes are to come. -/
def State.more (s : State) (rest : List UInt8) : State := { s with incoming := s.incoming ++ rest }

section More

variable {s s' : State} {rest : List UInt8}

@[simp] theorem more_nil (s : State) : s.more [] = s := by rw [State.more, List.append_nil]

theorem more_more (s : State) (rest rest' : List UInt8) :
    (s.more rest).more rest' = s.more (rest ++ rest') := by
  simp only [State.more, List.append_assoc]

theorem Halves.more {l : Label} (h : Halves s l) (rest : List UInt8) :
    Halves (s.more rest) l := by
  cases l <;> exact h

theorem afterBody_more (s : State) (rest : List UInt8) (a : Act Transfer ℤ) :
    (s.more rest).afterBody a = (s.afterBody a).map (State.more · rest) := by
  cases a with
  | running t => rfl
  | returned r t =>
    simp only [State.afterBody]
    split_ifs <;> rfl
  | aborted => rfl

theorem unpack_more (s : State) (rest : List UInt8) (errno : Errno) (bodySize : ℤ) :
    (s.more rest).unpack errno bodySize = (s.unpack errno bodySize).map (State.more · rest) := by
  rcases lt_or_ge bodySize 0 with hneg | hpos
  · rw [unpack_of_neg _ _ hneg, unpack_of_neg _ _ hneg]
    rfl
  · rw [unpack_of_nonneg _ _ hpos, unpack_of_nonneg _ _ hpos]
    exact afterBody_more
      { s with
        pktData := s.packet bodySize.toNat
        bodyCursor := .fresh headSize bodySize.toNat errno } rest _

theorem afterHead_more (s : State) (rest : List UInt8) (a : Act Transfer ℤ) :
    (s.more rest).afterHead a = (s.afterHead a).map (State.more · rest) := by
  cases a with
  | running t => rfl
  | returned r t =>
    simp only [State.afterHead]
    split_ifs
    · rfl
    · rfl
    · exact unpack_more { s with headCursor := t } rest t.errno (decode s.head)
    · rfl
  | aborted => rfl

theorem handleRead_more (s : State) (rest : List UInt8) :
    (s.more rest).handleRead = s.handleRead.map (State.more · rest) := by
  by_cases h : s.headCursor.size ≠ 0
  · have h' : (s.more rest).headCursor.size ≠ 0 := h
    rw [State.handleRead, if_pos h', State.handleRead, if_pos h]
    exact afterHead_more { s with pc := .reading } rest _
  · have h' : ¬(s.more rest).headCursor.size ≠ 0 := h
    rw [State.handleRead, if_neg h', State.handleRead, if_neg h]
    exact afterBody_more { s with pc := .reading } rest _

/-- What `read` delivers does not depend on the bytes further behind, unless the stream ends. -/
theorem receive_more (rest : List UInt8) {buf buf' : List UInt8} {t : Transfer} {o : Syscall}
    (ho : o ≠ .moves 0) (h : s.receive buf t o = some buf') :
    (s.more rest).receive buf t o = some buf' ∧
      (s.more rest).incoming.drop o.count = s.incoming.drop o.count ++ rest := by
  obtain ⟨⟨hle, -⟩, hstore⟩ := Option.ite_none_right_eq_some.mp h
  have hmore : (s.more rest).incoming = s.incoming ++ rest := rfl
  have hle' : o.count ≤ (s.more rest).incoming.length := by
    rw [hmore, List.length_append]
    omega
  refine ⟨?_, by rw [hmore, List.drop_append_of_le_length hle]⟩
  rw [State.receive, if_pos ⟨hle', fun he => absurd he ho⟩, hmore,
    List.take_append_of_le_length hle]
  exact hstore

theorem read_more {o : Syscall} (ho : o ≠ .moves 0) (h : s.read o = some s') :
    (s.more rest).read o = some (s'.more rest) := by
  unfold State.read at h ⊢
  split at h
  · next hsize =>
    obtain ⟨head, hreceive, hbind⟩ := Option.bind_eq_some_iff.mp h
    obtain ⟨a, hstep, hafter⟩ := Option.bind_eq_some_iff.mp hbind
    obtain ⟨hreceive', hdrop⟩ := receive_more rest ho hreceive
    have hmore := afterHead_more { s with head := head, incoming := s.incoming.drop o.count } rest a
    rw [if_pos (show (s.more rest).headCursor.size ≠ 0 from hsize)]
    show ((s.more rest).receive s.head s.headCursor o).bind _ = _
    rw [hreceive', Option.bind_some]
    show (recv.step (.running s.headCursor) o).bind _ = _
    rw [hstep, Option.bind_some, hdrop]
    rw [hafter] at hmore
    exact hmore
  · next hsize =>
    obtain ⟨pktData, hreceive, hbind⟩ := Option.bind_eq_some_iff.mp h
    obtain ⟨a, hstep, hafter⟩ := Option.bind_eq_some_iff.mp hbind
    obtain ⟨hreceive', hdrop⟩ := receive_more rest ho hreceive
    have hmore :=
      afterBody_more { s with pktData := pktData, incoming := s.incoming.drop o.count } rest a
    rw [if_neg (show ¬(s.more rest).headCursor.size ≠ 0 from hsize)]
    show ((s.more rest).receive s.pktData s.bodyCursor o).bind _ = _
    rw [hreceive', Option.bind_some]
    show (recv.step (.running s.bodyCursor) o).bind _ = _
    rw [hstep, Option.bind_some, hdrop]
    rw [hafter] at hmore
    exact hmore

theorem pick_more (s : State) (rest : List UInt8) (l : List (List UInt8)) :
    (s.more rest).pick l = (s.pick l).more rest := by
  induction l with
  | nil => rfl
  | cons data l ih =>
    by_cases h : data = []
    · rw [State.pick, if_pos h, State.pick, if_pos h]
      exact ih
    · rw [State.pick, if_neg h, State.pick, if_neg h]
      rfl

theorem afterSend_more (s : State) (rest : List UInt8) (l : List (List UInt8))
    (a : Act Transfer ℤ) :
    (s.more rest).afterSend l a = (s.afterSend l a).map (State.more · rest) := by
  cases a with
  | running t => rfl
  | returned r t =>
    simp only [State.afterSend]
    split_ifs
    · rfl
    · rfl
    · exact congrArg some (pick_more { s with sendCursor := t } rest l)
    · rfl
  | aborted => rfl

theorem write_more {o : Syscall} (h : s.write o = some s') :
    (s.more rest).write o = some (s'.more rest) := by
  cases hdatas : s.sendDatas with
  | nil => simp [State.write, hdatas] at h
  | cons data l =>
    have hdatas' : (s.more rest).sendDatas = data :: l := hdatas
    simp only [State.write, hdatas] at h
    obtain ⟨bytes, htransmit, hbind⟩ := Option.bind_eq_some_iff.mp h
    obtain ⟨a, hstep, hafter⟩ := Option.bind_eq_some_iff.mp hbind
    have hmore :=
      afterSend_more { s with sendDatas := data :: l, wire := s.wire ++ bytes } rest l a
    simp only [State.write, hdatas']
    show (State.transmit data s.sendCursor o).bind _ = _
    rw [htransmit, Option.bind_some]
    show (Stream.send.step (.running s.sendCursor) o).bind _ = _
    rw [hstep, Option.bind_some]
    rw [hafter] at hmore
    exact hmore

theorem handleWrite_more (s : State) (rest : List UInt8) :
    (s.more rest).handleWrite = s.handleWrite.more rest := by
  by_cases h : s.sendCursor.size = 0
  · rw [State.handleWrite, if_pos (show (s.more rest).sendCursor.size = 0 from h),
      State.handleWrite, if_pos h]
    exact pick_more s rest _
  · rw [State.handleWrite, if_neg (show ¬(s.more rest).sendCursor.size = 0 from h),
      State.handleWrite, if_neg h]
    rfl

/-- **Steps do not depend on bytes further behind**, unless the stream ends. -/
theorem next_more {l : Label} (hl : l ≠ .read (.moves 0)) (h : s.next l = some s') :
    (s.more rest).next l = some (s'.more rest) := by
  cases l with
  | readable =>
    obtain ⟨hc, h⟩ := Option.ite_none_right_eq_some.mp h
    refine (if_pos hc).trans ?_
    rw [handleRead_more, h]
    rfl
  | read o =>
    obtain ⟨hc, h⟩ := Option.ite_none_right_eq_some.mp h
    exact (if_pos hc).trans (read_more (fun he => hl (he ▸ rfl)) h)
  | writable =>
    obtain ⟨hc, h⟩ := Option.ite_none_right_eq_some.mp h
    obtain rfl := Option.some.inj h
    exact (if_pos hc).trans (congrArg some (handleWrite_more s rest))
  | write o =>
    obtain ⟨hc, h⟩ := Option.ite_none_right_eq_some.mp h
    exact (if_pos hc).trans (write_more h)
  | error =>
    obtain ⟨hc, h⟩ := Option.ite_none_right_eq_some.mp h
    obtain rfl := Option.some.inj h
    exact if_pos hc

/-! ## What the invariant says -/

variable {bodies bodies' : List (List UInt8)}

/-- More frames are to come. -/
theorem Inv.more (h : Inv bodies s) (bodies' : List (List UInt8)) :
    Inv (bodies ++ bodies') (s.more (protocol.stream bodies')) := by
  obtain ⟨done, todo, rfl, hp, hsend⟩ := h
  refine ⟨done, todo ++ bodies', List.append_assoc .., ?_, ?_⟩
  · cases hp with
    | head hlen hsize hsound hbytes =>
      refine .head hlen hsize hsound ?_
      rw [Format.stream_append, ← hbytes, List.append_assoc]
      rfl
    | body hlen hdone htodo hpktLen hsize hsound hbytes =>
      refine .body hlen hdone (congrArg (· ++ bodies') htodo) hpktLen hsize hsound ?_
      rw [Format.stream_append, ← hbytes, List.append_assoc]
      rfl
  · refine ⟨fun data hdata => ?_, hsend.front, hsend.busy, hsend.order⟩
    obtain ⟨b, hb, hframe⟩ := hsend.frames data hdata
    exact ⟨b, List.mem_append_left _ hb, hframe⟩

/-- What has gone out is a front part of the frames. -/
theorem Inv.wire_prefix (h : Inv bodies s) : s.wire <+: protocol.stream bodies := by
  obtain ⟨done, todo, rfl, -, hsend⟩ := h
  rw [Format.stream_append, ← hsend.order, List.append_assoc]
  exact List.prefix_append ..

/-- Everything has gone out when nothing is to come and nothing is queued. -/
theorem Inv.wire_eq (h : Inv bodies s) (hincoming : s.incoming = []) (hdatas : s.sendDatas = []) :
    s.wire = protocol.stream bodies := by
  obtain ⟨done, todo, rfl, hp, hsend⟩ := h
  have horder := hsend.order
  obtain rfl := hp.eq_nil hincoming
  unfold State.unsent at horder
  rwa [hdatas, List.flatten_nil, List.drop_nil, List.append_nil, ← List.append_nil done] at horder

/-- `EVENT_WRITE` is set while a packet is in the queue of a registered handler. -/
def State.Watches (s : State) : Prop :=
  s.registered = true → s.sendDatas ≠ [] → s.writes = true

/-- What every step keeps: `EVENT_WRITE` is set where it has to be, and what has gone out stays. -/
structure State.Keeps (s s' : State) : Prop where
  watches : s.Watches → s'.Watches
  wire : s.wire <+: s'.wire

/-- Nothing is watched behind `Unregister`. -/
theorem keeps_unregister (h : s.wire <+: s'.wire) : s.Keeps s'.unregister :=
  ⟨fun _ hreg => absurd hreg Bool.false_ne_true, h⟩

theorem keeps_pick {l : List (List UInt8)}
    (h : l ≠ [] → s.Watches → s.registered = true → s.writes = true) : s.Keeps (s.pick l) := by
  induction l with
  | nil => exact ⟨fun _ _ he => absurd rfl he, List.prefix_rfl⟩
  | cons data l ih =>
    have hwrites : s.Watches → s.registered = true → s.writes = true := h nofun
    unfold State.pick
    split
    · exact ih fun _ => hwrites
    · exact ⟨fun hw hreg _ => hwrites hw hreg, List.prefix_rfl⟩

theorem keeps_afterBody {a : Act Transfer ℤ} (h : s.afterBody a = some s') : s.Keeps s' := by
  cases a with
  | running t =>
    obtain rfl := Option.some.inj h
    exact ⟨id, List.prefix_rfl⟩
  | returned r t =>
    simp only [State.afterBody] at h
    split_ifs at h
    · obtain rfl := Option.some.inj h
      exact keeps_unregister List.prefix_rfl
    · obtain rfl := Option.some.inj h
      exact ⟨id, List.prefix_rfl⟩
    · obtain rfl := Option.some.inj h
      exact ⟨fun _ _ _ => rfl, List.prefix_rfl⟩
  | aborted => cases h

theorem keeps_unpack {errno : Errno} {bodySize : ℤ} (h : s.unpack errno bodySize = some s') :
    s.Keeps s' := by
  unfold State.unpack at h
  split_ifs at h
  obtain ⟨hwatches, hwire⟩ := keeps_afterBody h
  exact ⟨hwatches, hwire⟩

theorem keeps_afterHead {a : Act Transfer ℤ} (h : s.afterHead a = some s') : s.Keeps s' := by
  cases a with
  | running t =>
    obtain rfl := Option.some.inj h
    exact ⟨id, List.prefix_rfl⟩
  | returned r t =>
    simp only [State.afterHead] at h
    split_ifs at h
    · obtain rfl := Option.some.inj h
      exact keeps_unregister List.prefix_rfl
    · obtain rfl := Option.some.inj h
      exact ⟨id, List.prefix_rfl⟩
    · obtain ⟨hwatches, hwire⟩ := keeps_unpack h
      exact ⟨hwatches, hwire⟩
  | aborted => cases h

theorem keeps_afterSend {l : List (List UInt8)} {a : Act Transfer ℤ} (hdatas : s.sendDatas ≠ [])
    (h : s.afterSend l a = some s') : s.Keeps s' := by
  cases a with
  | running t =>
    obtain rfl := Option.some.inj h
    exact ⟨id, List.prefix_rfl⟩
  | returned r t =>
    simp only [State.afterSend] at h
    split_ifs at h
    · obtain rfl := Option.some.inj h
      exact keeps_unregister List.prefix_rfl
    · obtain rfl := Option.some.inj h
      exact ⟨id, List.prefix_rfl⟩
    · obtain rfl := Option.some.inj h
      obtain ⟨hwatches, hwire⟩ := keeps_pick (s := { s with sendCursor := t }) (l := l)
        fun _ hw hreg => hw hreg hdatas
      exact ⟨hwatches, hwire⟩
  | aborted => cases h

/-- **One step** of the handler. -/
theorem keeps_step {l : Label} (h : s.next l = some s') : s.Keeps s' := by
  cases l with
  | readable =>
    obtain ⟨-, h⟩ := Option.ite_none_right_eq_some.mp h
    unfold State.handleRead at h
    split at h
    · obtain ⟨hwatches, hwire⟩ := keeps_afterHead h
      exact ⟨hwatches, hwire⟩
    · obtain ⟨hwatches, hwire⟩ := keeps_afterBody h
      exact ⟨hwatches, hwire⟩
  | read o =>
    obtain ⟨-, h⟩ := Option.ite_none_right_eq_some.mp h
    unfold State.read at h
    split at h
    · obtain ⟨head, -, hbind⟩ := Option.bind_eq_some_iff.mp h
      obtain ⟨a, -, hafter⟩ := Option.bind_eq_some_iff.mp hbind
      obtain ⟨hwatches, hwire⟩ := keeps_afterHead hafter
      exact ⟨hwatches, hwire⟩
    · obtain ⟨pktData, -, hbind⟩ := Option.bind_eq_some_iff.mp h
      obtain ⟨a, -, hafter⟩ := Option.bind_eq_some_iff.mp hbind
      obtain ⟨hwatches, hwire⟩ := keeps_afterBody hafter
      exact ⟨hwatches, hwire⟩
  | writable =>
    obtain ⟨-, h⟩ := Option.ite_none_right_eq_some.mp h
    obtain rfl := Option.some.inj h
    unfold State.handleWrite
    split
    · exact keeps_pick fun hne hw hreg => hw hreg hne
    · exact ⟨id, List.prefix_rfl⟩
  | write o =>
    obtain ⟨-, h⟩ := Option.ite_none_right_eq_some.mp h
    cases hdatas : s.sendDatas with
    | nil => simp [State.write, hdatas] at h
    | cons data l =>
      simp only [State.write, hdatas] at h
      obtain ⟨bytes, -, hbind⟩ := Option.bind_eq_some_iff.mp h
      obtain ⟨a, -, hafter⟩ := Option.bind_eq_some_iff.mp hbind
      obtain ⟨hwatches, hwire⟩ := keeps_afterSend (List.cons_ne_nil data l) hafter
      have hne : s.sendDatas ≠ [] := by simp [hdatas]
      exact ⟨fun hw => hwatches fun hreg _ => hw hreg hne, (List.prefix_append ..).trans hwire⟩
  | error =>
    obtain ⟨-, h⟩ := Option.ite_none_right_eq_some.mp h
    obtain rfl := Option.some.inj h
    exact keeps_unregister List.prefix_rfl

/-- When all the frames have gone out, none is left anywhere. -/
theorem Inv.drained (h : Inv bodies s) (hwire : s.wire = protocol.stream bodies) :
    s.incoming = [] ∧ s.sendDatas = [] := by
  obtain ⟨done, todo, rfl, hp, hsend⟩ := h
  have hlength := congrArg List.length (hwire ▸ hsend.order)
  rw [Format.stream_append, List.length_append, List.length_append] at hlength
  obtain rfl : todo = [] := Format.eq_nil_of_length_lt (F := protocol) (by
    have := protocol.headSize_pos
    omega)
  have hunsent : s.unsent = [] := List.eq_nil_of_length_eq_zero (by omega)
  refine ⟨?_, ?_⟩
  · cases hp with
    | head hlen hsize hsound hbytes => exact (List.append_eq_nil_iff.mp (hbytes.trans rfl)).2
    | body hlen hdone htodo => cases htodo
  · cases hdatas : s.sendDatas with
    | nil => rfl
    | cons data l =>
      unfold State.unsent at hunsent
      split at hunsent
      · obtain ⟨b, -, rfl⟩ := hsend.frames data (hdatas ▸ List.mem_cons_self ..)
        rw [List.drop_zero, hdatas, List.flatten_cons] at hunsent
        exact absurd (List.append_eq_nil_iff.mp hunsent).1 (frame_ne_nil b)
      · next hsize =>
        -- the front packet has not gone out as a whole
        obtain ⟨data', l', hfront, hsound⟩ := hsend.front (Nat.pos_of_ne_zero hsize)
        have hmoved := hsound.length
        have hdrop := congrArg List.length hunsent
        rw [hfront, List.flatten_cons, List.length_drop, List.length_append, List.length_nil]
          at hdrop
        omega

end More

end Xfnet.TestEventHandler
