import Xfnet.Foundations.Scanning
import Xfnet.Tools.Echo

/-!
# The echo server on any input

What `TestEventHandler` does with bytes that nobody promises to be frames. Any input begins with
some complete frames, and behind them may come a header that ends none. The handler sends back the
frames and no other byte (`echo_any_input`): it keeps a frame that has not ended to itself, and it
is lost exactly when it reads the last byte of a header for which `resize` throws.

A header that announces `-4` to `-1` is left out. `resize` does not throw for it, and what comes of
it is up to an assertion, which not every build has.
-/

namespace Xfnet.TestEventHandler

open Framing Loops Xfnet.Stream Transition

/-! ## Headers -/

theorem encode_decode {l : List UInt8} (hl : l.length = headSize) (h : 0 ≤ decode l) :
    encode (decode l).toNat = l := by
  obtain ⟨a, b, c, d, rfl⟩ : ∃ a b c d : UInt8, l = [a, b, c, d] := by
    match l, hl with
    | [a, b, c, d], _ => exact ⟨a, b, c, d, rfl⟩
  have ha := a.toNat_lt
  have hb := b.toNat_lt
  have hc := c.toNat_lt
  have hd := d.toNat_lt
  have hvalue : [a, b, c, d].foldr (fun byte n => byte.toNat + 2 ^ 8 * n) 0 =
      a.toNat + 2 ^ 8 * (b.toNat + 2 ^ 8 * (c.toNat + 2 ^ 8 * d.toNat)) := by
    simp only [List.foldr_cons, List.foldr_nil, mul_zero, add_zero]
  rw [decode, hvalue] at h ⊢
  generalize hv : a.toNat + 2 ^ 8 * (b.toNat + 2 ^ 8 * (c.toNat + 2 ^ 8 * d.toNat)) = v at h ⊢
  have hv' : toInt32 v = v := toInt32_of_nonneg (by omega) h
  rw [hv', Int.toNat_natCast, encode]
  simp only [List.cons.injEq, and_true]
  refine ⟨?_, ?_, ?_, ?_⟩ <;> apply UInt8.toNat_inj.mp <;> rw [UInt8.toNat_ofNat'] <;> omega

/-- `m_body_size`, unless it is negative. -/
def reader : Reader protocol where
  size l := if 0 ≤ decode l then some (decode l).toNat else none
  head_of_size l n hl h := by
    obtain ⟨hpos, he⟩ := Option.ite_none_right_eq_some.mp h
    obtain rfl := Option.some.inj he
    exact encode_decode hl hpos

theorem decode_lt (l : List UInt8) : decode l < 2 ^ 31 := toInt32_lt_max _

theorem size_encode {n : ℕ} (h : n < 2 ^ 31) : reader.size (encode n) = some n := by
  show (if 0 ≤ decode (encode n) then some (decode (encode n)).toNat else none) = some n
  rw [decode_encode h, if_pos (Int.natCast_nonneg n), Int.toNat_natCast]

theorem admits_iff {b : List UInt8} : reader.Admits b ↔ b.length < 2 ^ 31 := by
  refine ⟨fun h => ?_, size_encode⟩
  obtain ⟨hpos, he⟩ := Option.ite_none_right_eq_some.mp h
  have hlt := decode_lt (protocol.head b.length)
  have hlen := Option.some.inj he
  omega

/-! ## What `HandleRead` has read of a frame -/

/-- The bytes of `raw` are the filled part of `m_head` or `m_pkt_data` and those still to come. -/
inductive Filling (raw : List UInt8) (s : State) : Prop
  | head : s.head.length = headSize → 0 < s.headCursor.size → s.headCursor.Sound 0 headSize →
      s.head.take (0 + s.headCursor.moved.length) ++ s.incoming = raw → Filling raw s
  | body {n : ℕ} : s.head.length = headSize → s.headCursor.size = 0 → n < 2 ^ 31 →
      s.pktData.length = headSize + n → raw.take headSize = encode n → 0 < s.bodyCursor.size →
      s.bodyCursor.Sound headSize n →
      s.pktData.take (headSize + s.bodyCursor.moved.length) ++ s.incoming = raw → Filling raw s

/-- A step of `HandleRead`: the frames read to their end are put in the queue. -/
def Takes (raw : List UInt8) (s s' : State) : Prop :=
  ∃ pushed raw', raw = protocol.stream pushed ++ raw' ∧ (∀ b ∈ pushed, reader.Admits b) ∧
    Filling raw' s' ∧ s'.sendDatas = s.sendDatas ++ pushed.map protocol.frame ∧
    s'.sendCursor = s.sendCursor ∧ s'.wire = s.wire ∧ s'.pc ≠ .writing

section Reading

variable {raw buf : List UInt8} {s s' : State} {o : Syscall} {t : Transfer} {n : ℕ}

/-- Nothing is put in the queue. -/
theorem Takes.of_filling (h : Filling raw s') (hdatas : s'.sendDatas = s.sendDatas)
    (hcursor : s'.sendCursor = s.sendCursor) (hwire : s'.wire = s.wire) (hpc : s'.pc ≠ .writing) :
    Takes raw s s' :=
  ⟨[], raw, rfl, nofun, h, hdatas.trans (List.append_nil _).symm, hcursor, hwire, hpc⟩

/-- What follows the `Recv` of a body of `n` bytes. It never fails. -/
theorem takes_afterBody {a : Act Transfer ℤ} (hmoved : Moved headSize n t o a)
    (hhead : s.head.length = headSize) (hdone : s.headCursor.size = 0) (hn : n < 2 ^ 31)
    (hlen : s.pktData.length = headSize + n) (hsize : raw.take headSize = encode n)
    (hbytes : s.pktData.take (headSize + (t.moved.length + o.count)) ++ s.incoming = raw)
    (hpc : s.pc ≠ .writing) : ∃ s', s.afterBody a = some s' ∧ Takes raw s s' := by
  cases hmoved with
  | @more u hsound hsize' hcount =>
    rw [← hcount] at hbytes
    exact ⟨_, rfl,
      .of_filling (.body hhead hdone hn hlen hsize hsize' hsound hbytes) rfl rfl rfl hpc⟩
  | @stopped r u hr hsound hsize' hcount hzero =>
    rw [hzero, add_zero, ← hcount] at hbytes
    simp only [State.afterBody]
    split_ifs with h₁ h₂ h₃
    · exact ⟨_, rfl, .of_filling (.body hhead hdone hn hlen hsize hsize' hsound hbytes) rfl rfl rfl
        (by simp [State.unregister])⟩
    · exact ⟨_, rfl, .of_filling (.body hhead hdone hn hlen hsize hsize' hsound hbytes) rfl rfl rfl
        (by simp)⟩
    all_goals omega
  | @full u hsize' hcount =>
    -- the packet is complete
    have hbody : (s.pktData.drop headSize).length = n := by
      rw [List.length_drop, hlen, Nat.add_sub_cancel_left]
    rw [hcount, List.take_of_length_le hlen.le] at hbytes
    have hframe : s.pktData = protocol.frame (s.pktData.drop headSize) := by
      rw [← hbytes, List.take_append_of_le_length (by omega)] at hsize
      show _ = encode _ ++ _
      rw [hbody, ← hsize, List.take_append_drop]
    simp only [State.afterBody, hsize', if_true]
    refine ⟨_, rfl, [s.pktData.drop headSize], s.incoming, ?_, ?_, ?_, ?_, rfl, rfl, hpc⟩
    · rw [← hbytes, Format.stream_cons, ← hframe, List.append_assoc]
      rfl
    · rw [List.forall_mem_singleton, admits_iff, hbody]
      exact hn
    · exact .head hhead protocol.headSize_pos (.fresh 0 headSize _) rfl
    · show s.sendDatas ++ [s.pktData] = _
      rw [List.map_singleton, ← hframe]

/-- What follows the `Recv` of the head. It fails when the head announces a negative size. -/
theorem takes_afterHead {a : Act Transfer ℤ} (hmoved : Moved 0 headSize t o a)
    (hhead : s.head.length = headSize)
    (hbytes : s.head.take (0 + (t.moved.length + o.count)) ++ s.incoming = raw)
    (hpc : s.pc ≠ .writing) : (∃ s', s.afterHead a = some s' ∧ Takes raw s s') ∨
      s.afterHead a = none ∧ decode s.head < 0 ∧ raw = s.head ++ s.incoming := by
  cases hmoved with
  | @more u hsound hsize hcount =>
    rw [← hcount] at hbytes
    exact .inl ⟨_, rfl, .of_filling (.head hhead hsize hsound hbytes) rfl rfl rfl hpc⟩
  | @stopped r u hr hsound hsize hcount hzero =>
    rw [hzero, add_zero, ← hcount] at hbytes
    simp only [State.afterHead]
    split_ifs with h₁ h₂ h₃
    · exact .inl ⟨_, rfl, .of_filling (.head hhead hsize hsound hbytes) rfl rfl rfl
        (by simp [State.unregister])⟩
    · exact .inl ⟨_, rfl, .of_filling (.head hhead hsize hsound hbytes) rfl rfl rfl (by simp)⟩
    all_goals omega
  | @full u hsize hcount =>
    rw [hcount, zero_add, List.take_of_length_le hhead.le] at hbytes
    by_cases hneg : decode s.head < 0
    · refine .inr ⟨?_, hneg, hbytes.symm⟩
      rw [State.afterHead, if_neg (by decide), if_neg (by decide), if_pos hsize]
      exact unpack_of_neg _ _ hneg
    · have hpos : 0 ≤ decode s.head := by omega
      have hlt : (decode s.head).toNat < 2 ^ 31 := by
        have := decode_lt s.head
        omega
      have hraw : raw.take headSize = encode (decode s.head).toNat := by
        rw [encode_decode hhead hpos, ← hbytes, List.take_left' hhead]
      have hpacket : (s.packet (decode s.head).toNat).take (headSize + (0 + 0)) ++ s.incoming =
          raw := by
        rw [add_zero, add_zero, take_packet, encode_decode hhead hpos]
        exact hbytes
      have hbody := takes_afterBody
        (a := recv.enter (.fresh headSize (decode s.head).toNat u.errno))
        (s := { s with
          headCursor := u
          pktData := s.packet (decode s.head).toNat
          bodyCursor := .fresh headSize (decode s.head).toNat u.errno })
        (moved_enter (.fresh headSize (decode s.head).toNat u.errno) .eagain) hhead hsize
        hlt (length_packet s _) hraw hpacket hpc
      rw [State.afterHead, if_neg (by decide), if_neg (by decide), if_pos hsize,
        unpack_of_nonneg _ _ hpos]
      exact .inl hbody

/-- What a `read` may answer: nothing, half or all of what was asked for, of the bytes that have
come in, and zero only at the end of the stream. -/
def Answers (s : State) (o : Syscall) : Prop :=
  o.Halves s.recvCursor.size ∧ o.count ≤ s.incoming.length ∧ (o = .moves 0 → s.incoming = [])

/-- Such a `read` stores its bytes in the buffer, behind the others. -/
theorem filled_of_answers {base : ℕ} (ht : 0 < t.size) (hsound : t.Sound base n) (hn : n < 2 ^ 31)
    (hlen : buf.length = base + n)
    (hbytes : buf.take (base + t.moved.length) ++ s.incoming = raw) (ho : o.Halves t.size)
    (hle : o.count ≤ s.incoming.length) (hzero : o = .moves 0 → s.incoming = []) :
    ∃ buf' a, s.receive buf t o = some buf' ∧ recv.step (.running t) o = some a ∧
      Moved base n t o a ∧ buf'.length = base + n ∧
      buf'.take (base + (t.moved.length + o.count)) ++ s.incoming.drop o.count = raw := by
  have hcount : o.count ≤ t.size := by
    rcases ho with h | h | h <;> omega
  have hfits : t.data + (s.incoming.take o.count).length ≤ buf.length := by
    have := hsound.length
    rw [List.length_take_of_le hle, hsound.data ht]
    omega
  have hreceive : ∃ buf', s.receive buf t o = some buf' :=
    ⟨_, (if_pos ⟨hle, hzero⟩).trans (if_pos hfits)⟩
  have hstep : ∃ a, recv.step (.running t) o = some a := by
    refine ⟨_, if_pos ?_⟩
    cases o with
    | moves c => exact decide_eq_true ⟨Nat.zero_le c, hcount⟩
    | fails e => rfl
  obtain ⟨buf', hbuf'⟩ := hreceive
  obtain ⟨a, ha⟩ := hstep
  obtain ⟨hlen', hbytes'⟩ := filled_of_receive ht hsound hbytes hbuf'
  exact ⟨buf', a, hbuf', ha, moved_of_step (by simp) (by simp) hsound ht hn ho ha,
    hlen'.trans hlen, hbytes'⟩

/-- **A system call of `HandleRead`** fails only with the last byte of a header that announces a
negative size. -/
theorem takes_read (hf : Filling raw s) (ho : Answers s o) (hpc : s.pc ≠ .writing) :
    (∃ s', s.read o = some s' ∧ Takes raw s s') ∨
      s.read o = none ∧ ∃ head : List UInt8, head.length = headSize ∧ decode head < 0 ∧
        raw = head ++ s.incoming.drop o.count := by
  obtain ⟨ho, hle, hzero⟩ := ho
  unfold State.recvCursor at ho
  cases hf with
  | head hlen hsize hsound hbytes =>
    rw [if_pos hsize.ne'] at ho
    obtain ⟨head, a, hreceive, hstep, hmoved, hlen', hbytes'⟩ := filled_of_answers hsize hsound
      (by decide) (hlen.trans (zero_add _).symm) hbytes ho hle hzero
    have hread : s.read o =
        { s with head := head, incoming := s.incoming.drop o.count }.afterHead a := by
      rw [State.read, if_pos hsize.ne', hreceive, Option.bind_some, hstep, Option.bind_some]
    have hlen'' : head.length = headSize := hlen'.trans (zero_add _)
    rw [hread]
    rcases takes_afterHead (s := { s with head := head, incoming := s.incoming.drop o.count })
      hmoved hlen'' hbytes' hpc with h | ⟨h, hneg, hraw⟩
    · exact .inl h
    · exact .inr ⟨h, head, hlen'', hneg, hraw⟩
  | @body n hlen hdone hn hpktLen hraw hsize hsound hbytes =>
    rw [if_neg (not_not.mpr hdone)] at ho
    obtain ⟨pktData, a, hreceive, hstep, hmoved, hlen', hbytes'⟩ := filled_of_answers hsize hsound
      hn hpktLen hbytes ho hle hzero
    have hread : s.read o =
        { s with pktData := pktData, incoming := s.incoming.drop o.count }.afterBody a := by
      rw [State.read, if_neg (not_not.mpr hdone), hreceive, Option.bind_some, hstep,
        Option.bind_some]
    rw [hread]
    exact .inl (takes_afterBody
      (s := { s with pktData := pktData, incoming := s.incoming.drop o.count }) hmoved hlen hdone
      hn hlen' hraw hbytes' hpc)

/-- `HandleRead` is called. -/
theorem takes_handleRead (hf : Filling raw s) (h : s.handleRead = some s') : Takes raw s s' := by
  unfold State.handleRead at h
  cases hf with
  | head hlen hsize hsound hbytes =>
    rw [if_pos hsize.ne'] at h
    rcases takes_afterHead (s := { s with pc := .reading }) (moved_enter hsound .eagain) hlen hbytes
      nofun with ⟨s₁, h₁, htakes⟩ | ⟨hnone, -⟩
    · obtain rfl := Option.some.inj (h₁.symm.trans h)
      exact htakes
    · exact absurd (hnone.symm.trans h) nofun
  | @body n hlen hdone hn hpktLen hraw hsize hsound hbytes =>
    rw [if_neg (not_not.mpr hdone)] at h
    obtain ⟨s₁, h₁, htakes⟩ := takes_afterBody (s := { s with pc := .reading })
      (moved_enter hsound .eagain) hlen hdone hn hpktLen hraw hbytes nofun
    obtain rfl := Option.some.inj (h₁.symm.trans h)
    exact htakes

theorem afterBody_incoming {a : Act Transfer ℤ} (h : s.afterBody a = some s') :
    s'.incoming = s.incoming := by
  cases a with
  | running t => exact Option.some.inj h ▸ rfl
  | returned r t =>
    simp only [State.afterBody] at h
    split_ifs at h <;> exact Option.some.inj h ▸ rfl
  | aborted => cases h

theorem unpack_incoming {errno : Errno} {bodySize : ℤ} (h : s.unpack errno bodySize = some s') :
    s'.incoming = s.incoming := by
  unfold State.unpack at h
  split_ifs at h
  have hkept := afterBody_incoming h
  exact hkept

theorem afterHead_incoming {a : Act Transfer ℤ} (h : s.afterHead a = some s') :
    s'.incoming = s.incoming := by
  cases a with
  | running t => exact Option.some.inj h ▸ rfl
  | returned r t =>
    simp only [State.afterHead] at h
    split_ifs at h
    · exact Option.some.inj h ▸ rfl
    · exact Option.some.inj h ▸ rfl
    · have hkept := unpack_incoming h
      exact hkept
  | aborted => cases h

theorem incoming_read (h : s.read o = some s') : s'.incoming = s.incoming.drop o.count := by
  unfold State.read at h
  split at h
  all_goals
    obtain ⟨buf, -, h⟩ := Option.bind_eq_some_iff.mp h
    obtain ⟨a, -, h⟩ := Option.bind_eq_some_iff.mp h
  · exact afterHead_incoming h
  · exact afterBody_incoming h

/-- What `read` answered. -/
theorem answers_of_read (ho : o.Halves s.recvCursor.size) (h : s.read o = some s') :
    Answers s o := by
  have hreceive : ∃ buf t buf', s.receive buf t o = some buf' := by
    unfold State.read at h
    split at h
    all_goals
      obtain ⟨buf', hbuf', -⟩ := Option.bind_eq_some_iff.mp h
      exact ⟨_, _, buf', hbuf'⟩
  obtain ⟨buf, t, buf', hbuf'⟩ := hreceive
  exact ⟨ho, (Option.ite_none_right_eq_some.mp hbuf').1⟩

end Reading

/-! ## Whole runs -/

/-- The size that is announced behind the complete frames, once the header has come in. -/
def announced (input : List UInt8) : Option ℤ :=
  if headSize ≤ (reader.leftover input).length then
    some (decode ((reader.leftover input).take headSize))
  else none

/-- `resize` throws for the size that is announced behind the complete frames. -/
def Poisoned (input : List UInt8) : Prop := ∃ n, announced input = some n ∧ headSize + n < 0

/-- The frames `done` have been queued, and `raw` is what has been read or is to come behind. -/
structure Received (input : List UInt8) (done : List (List UInt8)) (raw : List UInt8)
    (s : State) : Prop where
  bytes : input = protocol.stream done ++ raw
  admits : ∀ b ∈ done, reader.Admits b
  filling : Filling raw s
  sending : Sending (reader.frames input) (protocol.stream done) s

section Runs

variable {input raw : List UInt8} {done : List (List UInt8)} {s s' : State} {l : Label}
  {o : Syscall}

theorem Received.frames (h : Received input done raw s) :
    reader.frames input = done ++ reader.frames raw ∧
      reader.leftover input = reader.leftover raw := by
  rw [h.bytes]
  exact Reader.frames_stream_append h.admits raw

theorem Received.takes (h : Received input done raw s) (ht : Takes raw s s') :
    ∃ done' raw', Received input done' raw' s' := by
  obtain ⟨pushed, raw', rfl, hadmits, hfilling, hdatas, hcursor, hwire, hpc⟩ := ht
  have hadmits' : ∀ b ∈ done ++ pushed, reader.Admits b :=
    List.forall_mem_append.mpr ⟨h.admits, hadmits⟩
  have hinput : input = protocol.stream (done ++ pushed) ++ raw' := by
    rw [Format.stream_append, List.append_assoc]
    exact h.bytes
  have hmem : ∀ b ∈ pushed, b ∈ reader.frames input := by
    intro b hb
    rw [hinput, (Reader.frames_stream_append hadmits' raw').1]
    exact List.mem_append_left _ (List.mem_append_right _ hb)
  refine ⟨done ++ pushed, raw', hinput, hadmits', hfilling, ?_⟩
  rw [Format.stream_append]
  exact h.sending.push hmem hdatas hcursor hwire hpc

theorem Filling.of_sameInput (hf : Filling raw s) (h : SameInput s s') : Filling raw s' := by
  obtain ⟨hhead, hheadCursor, hpkt, hbodyCursor, hincoming⟩ := h
  cases hf with
  | head hlen hsize hsound hbytes =>
    rw [← hheadCursor] at hsize hsound
    rw [← hhead] at hlen
    rw [← hhead, ← hheadCursor, ← hincoming] at hbytes
    exact .head hlen hsize hsound hbytes
  | body hlen hdone hn hpktLen hraw hsize hsound hbytes =>
    rw [← hhead] at hlen
    rw [← hheadCursor] at hdone
    rw [← hpkt] at hpktLen
    rw [← hbodyCursor] at hsize hsound
    rw [← hpkt, ← hbodyCursor, ← hincoming] at hbytes
    exact .body hlen hdone hn hpktLen hraw hsize hsound hbytes

/-- **One step** of the server on any input. -/
theorem received_step (hsmall : ∀ b ∈ reader.frames input, b.length + headSize < 2 ^ 31)
    (h : Received input done raw s) (hl : Halves s l) (hn : s.next l = some s') :
    ∃ done' raw', Received input done' raw' s' := by
  have hwrites (hw : Sending (reader.frames input) (protocol.stream done) s' ∧ SameInput s s') :
      ∃ done' raw', Received input done' raw' s' :=
    ⟨done, raw, h.bytes, h.admits, h.filling.of_sameInput hw.2, hw.1⟩
  cases l with
  | readable =>
    obtain ⟨-, hn⟩ := Option.ite_none_right_eq_some.mp hn
    exact h.takes (takes_handleRead h.filling hn)
  | read o =>
    obtain ⟨hpc, hn⟩ := Option.ite_none_right_eq_some.mp hn
    have hpc' : s.pc ≠ .writing := by rw [hpc]; nofun
    rcases takes_read h.filling (answers_of_read hl hn) hpc' with ⟨s₁, h₁, ht⟩ | ⟨hnone, -⟩
    · obtain rfl := Option.some.inj (h₁.symm.trans hn)
      exact h.takes ht
    · exact absurd (hnone.symm.trans hn) nofun
  | writable =>
    obtain ⟨-, hn⟩ := Option.ite_none_right_eq_some.mp hn
    obtain rfl := Option.some.inj hn
    exact hwrites (sending_handleWrite h.sending)
  | write o =>
    obtain ⟨hpc, hn⟩ := Option.ite_none_right_eq_some.mp hn
    exact hwrites (sending_write h.sending hsmall hl hpc hn)
  | error =>
    obtain ⟨-, hn⟩ := Option.ite_none_right_eq_some.mp hn
    obtain rfl := Option.some.inj hn
    have hsend := h.sending
    exact hwrites ⟨⟨hsend.frames, hsend.front, nofun, hsend.order⟩, rfl, rfl, rfl, rfl, rfl⟩

theorem received_of_reachable (hsmall : ∀ b ∈ reader.frames input, b.length + headSize < 2 ^ 31)
    (hr : (server input).Reachable Halves s) : ∃ done raw, Received input done raw s := by
  refine System.Reachable.invariant (I := fun s => ∃ done raw, Received input done raw s) ?_
    (fun s l s' _ ⟨done, raw, h⟩ hl hn => received_step hsmall h hl hn) hr
  rintro s ⟨head, hhead, rfl⟩
  exact ⟨[], input, rfl, nofun, .head hhead protocol.headSize_pos (.fresh 0 headSize _) rfl,
    nofun, nofun, nofun, rfl⟩

/-- What has been read of a frame that has not ended is no frame. -/
theorem Filling.cut_eq_none (hf : Filling raw s) (h : s.incoming = []) : reader.cut raw = none := by
  cases hf with
  | head hlen hsize hsound hbytes =>
    have hmoved := hsound.length
    apply Reader.cut_of_short
    rw [← hbytes, h, List.append_nil, List.length_take]
    show _ < headSize
    omega
  | @body n hlen hdone hn hpktLen hraw hsize hsound hbytes =>
    have hmoved := hsound.length
    refine Reader.cut_of_lt (n := n) ?_ ?_
    · show reader.size (raw.take headSize) = some n
      rw [hraw, size_encode hn]
    · rw [← hbytes, h, List.append_nil, List.length_take]
      show _ < headSize + n
      omega

/-- A header that announces a negative size ends what can be read. -/
theorem Received.announced_eq {head : List UInt8} {r : List UInt8} (h : Received input done raw s)
    (hlen : head.length = headSize) (hneg : decode head < 0) (hraw : raw = head ++ r) :
    reader.frames input = done ∧ announced input = some (decode head) := by
  obtain ⟨hframes, hleftover⟩ := h.frames
  have htake : raw.take headSize = head := by rw [hraw, List.take_left' hlen]
  have hcut : reader.cut raw = none := by
    apply Reader.cut_of_size
    show (if 0 ≤ decode (raw.take headSize) then _ else none) = none
    rw [htake, if_neg (by omega)]
  obtain ⟨hnil, hraw'⟩ := Reader.frames_of_cut_eq_none hcut
  refine ⟨by rw [hframes, hnil, List.append_nil], ?_⟩
  have hle : headSize ≤ raw.length := by
    rw [hraw, List.length_append, hlen]
    exact Nat.le_add_right _ _
  rw [announced, hleftover, hraw', if_pos hle, htake]

/-- Such a header is never read to its end. -/
theorem Received.length_lt (h : Received input done raw s) {m : ℤ}
    (hannounced : announced input = some m) (hneg : m < 0) :
    input.length < (protocol.stream (reader.frames input)).length + headSize +
      s.incoming.length := by
  obtain ⟨hframes, hleftover⟩ := h.frames
  have hinput := congrArg List.length h.bytes
  rw [List.length_append] at hinput
  rw [hframes, Format.stream_append, List.length_append]
  cases h.filling with
  | head hlen hsize hsound hbytes =>
    have hmoved := hsound.length
    rw [← hbytes, List.length_append, List.length_take] at hinput
    omega
  | @body n hlen hdone hn hpktLen hraw hsize hsound hbytes =>
    have hmoved := hsound.length
    cases hcut : reader.cut raw with
    | none =>
      -- the header in front is a good one
      have hraw' := (Reader.frames_of_cut_eq_none hcut).2
      rw [announced, hleftover, hraw', hraw, decode_encode hn] at hannounced
      obtain ⟨-, hm⟩ := Option.ite_none_right_eq_some.mp hannounced
      have := Option.some.inj hm
      omega
    | some p =>
      obtain ⟨b, r⟩ := p
      have hb : b.length = n := by
        obtain ⟨hframe, hadmits⟩ := Reader.cut_eq_some hcut
        have htake : raw.take headSize = encode b.length := by
          rw [hframe, Format.frame, List.append_assoc]
          exact List.take_left' rfl
        have hsame := size_encode (admits_iff.mp hadmits)
        rw [← htake, hraw, size_encode hn] at hsame
        exact (Option.some.inj hsame).symm
      rw [(Reader.scan_of_cut hcut).1, Format.stream_cons, List.length_append,
        Format.length_frame, hb]
      rw [← hbytes, List.length_append, List.length_take] at hinput
      have hhead : protocol.headSize = headSize := rfl
      omega

/-- **The echo of any input**, in every run on whole and half transfers, as long as the frames fit
an `int`, and the one that is announced behind them does so too or makes `resize` throw: what goes
out is a front part of the complete frames in front, and all of them when everything has come in and
the queue is empty. `HandleRead` fails exactly when it reads the last byte of a header behind them
for which `resize` throws. -/
theorem echo_any_input (hsmall : ∀ b ∈ reader.frames input, b.length + headSize < 2 ^ 31)
    (hroom : ∀ n, announced input = some n → headSize + n < 0 ∨ 0 ≤ n ∧ headSize + n < 2 ^ 31)
    (hr : (server input).Reachable Halves s) :
    protocol.stream (reader.frames input) ++ reader.leftover input = input ∧
      s.wire <+: protocol.stream (reader.frames input) ∧
      (s.incoming = [] → s.sendDatas = [] → s.wire = protocol.stream (reader.frames input)) ∧
      ∀ o, s.pc = .reading → Answers s o → (s.next (.read o) = none ↔
        Poisoned input ∧ input.length + o.count =
          (protocol.stream (reader.frames input)).length + headSize + s.incoming.length) := by
  obtain ⟨done, raw, h⟩ := received_of_reachable hsmall hr
  have horder := h.sending.order
  refine ⟨Reader.stream_frames_append input, ?_, fun hincoming hdatas => ?_,
    fun o hpc ho => ⟨fun hnone => ?_, fun ⟨hpoisoned, hlen⟩ => ?_⟩⟩
  · rw [h.frames.1, Format.stream_append, ← horder, List.append_assoc]
    exact List.prefix_append _ _
  · have hnil := (Reader.frames_of_cut_eq_none (h.filling.cut_eq_none hincoming)).1
    rw [h.frames.1, hnil, List.append_nil, ← horder, State.unsent, hdatas, List.flatten_nil,
      List.drop_nil, List.append_nil]
  · have hread : s.read o = none := (if_pos hpc).symm.trans hnone
    have hpc' : s.pc ≠ .writing := by rw [hpc]; nofun
    rcases takes_read h.filling ho hpc' with ⟨s', hs', -⟩ | ⟨-, head, hhead, hneg, hraw⟩
    · exact absurd (hs'.symm.trans hread) nofun
    · obtain ⟨hframes, hannounced⟩ := h.announced_eq hhead hneg hraw
      have hthrows : headSize + decode head < 0 :=
        (hroom _ hannounced).resolve_right fun hpos => by omega
      have hlen := congrArg List.length h.bytes
      have hle := ho.2.1
      rw [hraw, List.length_append, List.length_append, List.length_drop, hhead] at hlen
      refine ⟨⟨_, hannounced, hthrows⟩, ?_⟩
      rw [hframes]
      omega
  · by_contra hsome
    obtain ⟨s', hn⟩ := Option.ne_none_iff_exists'.mp hsome
    have hr' : (server input).Reachable Halves s' :=
      hr.step (show Halves s (.read o) from ho.1) hn
    obtain ⟨done', raw', h'⟩ := received_of_reachable hsmall hr'
    obtain ⟨n, hannounced, hthrows⟩ := hpoisoned
    have hlt := h'.length_lt hannounced (by omega)
    have hincoming := incoming_read ((if_pos hpc).symm.trans hn)
    have hle := ho.2.1
    rw [hincoming, List.length_drop] at hlt
    omega

/-- A frame of four bytes, and then the size `-5`: the frame is sent back, and the first read of
the whole header fails. -/
theorem echo_any_input_negative : ∃ s : State,
    (server (protocol.stream [[5, 6, 7, 8]] ++ [251, 255, 255, 255])).Reachable Halves s ∧
      s.wire <+: protocol.stream [[5, 6, 7, 8]] ∧ s.next (.read (.moves 4)) = none := by
  have hrun : ((server (protocol.stream [[5, 6, 7, 8]] ++ [251, 255, 255, 255])).exec Halves
      (.fresh [0, 0, 0, 0] (protocol.stream [[5, 6, 7, 8]] ++ [251, 255, 255, 255]))
      [.readable, .read (.moves 4), .read (.moves 2), .read (.moves 2), .read (.fails .eagain),
        .writable, .write (.moves 8), .readable]).map
        (fun s => (s.pc, s.recvCursor.size, s.incoming)) =
          some (.reading, 4, [251, 255, 255, 255]) := by
    decide +kernel
  obtain ⟨s, hexec, hs⟩ := Option.map_eq_some_iff.mp hrun
  obtain ⟨hpc, hs⟩ := Prod.mk.inj hs
  obtain ⟨hsize, hincoming⟩ := Prod.mk.inj hs
  have hr : (server (protocol.stream [[5, 6, 7, 8]] ++ [251, 255, 255, 255])).Reachable Halves s :=
    System.reachable_of_exec ⟨_, rfl, rfl⟩ hexec
  have hframes : reader.frames (protocol.stream [[5, 6, 7, 8]] ++ [251, 255, 255, 255]) =
      [[5, 6, 7, 8]] := by
    decide +kernel
  have hannounced : announced (protocol.stream [[5, 6, 7, 8]] ++ [251, 255, 255, 255]) =
      some (-5) := by
    decide +kernel
  have hsmall : ∀ b ∈ reader.frames (protocol.stream [[5, 6, 7, 8]] ++ [251, 255, 255, 255]),
      b.length + headSize < 2 ^ 31 := by
    rw [hframes]
    decide
  have hroom : ∀ n, announced (protocol.stream [[5, 6, 7, 8]] ++ [251, 255, 255, 255]) = some n →
      headSize + n < 0 ∨ 0 ≤ n ∧ headSize + n < 2 ^ 31 := by
    intro n hn
    obtain rfl := Option.some.inj (hannounced.symm.trans hn)
    decide
  obtain ⟨-, hwire, -, hfails⟩ := echo_any_input hsmall hroom hr
  have hanswers : Answers s (.moves 4) := by
    rw [Answers, hsize, hincoming]
    decide
  refine ⟨s, hr, hframes ▸ hwire,
    (hfails _ hpc hanswers).mpr ⟨⟨-5, hannounced, by decide⟩, ?_⟩⟩
  rw [hframes, hincoming]
  decide

end Runs

end Xfnet.TestEventHandler
