import Xfnet.Foundations.Framing
import Xfnet.Foundations.Transition
import Xfnet.Stream.Nonblocking

/-!
# The echo server of the examples

`TestEventHandler` of `server_example.cpp` on one connection, system call by system call. The
protocol is `[body_size][body]`; `HandleRead` puts the frames together, in `m_head` first and then
in `m_pkt_data`, and `HandleWrite` sends them back from `m_send_datas`. Both keep their place over
calls that would block in the cursors they pass to `Stream::Recv` and `Stream::Send`.

What goes out is always the front part of what comes in (`echo`), as long as the cursors are right:
on whole and half transfers.
-/

namespace Xfnet.TestEventHandler

open Framing Loops Xfnet.Stream Transition

/-- `HEAD_SIZE`. -/
def headSize : ℕ := 4

/-! ## The protocol -/

/-- An `int` in memory. -/
def encode (n : ℕ) : List UInt8 :=
  [UInt8.ofNat n, UInt8.ofNat (n / 2 ^ 8), UInt8.ofNat (n / 2 ^ 16), UInt8.ofNat (n / 2 ^ 24)]

/-- The `int` that memory holds. -/
def decode (bytes : List UInt8) : ℤ :=
  toInt32 (bytes.foldr (fun byte n => byte.toNat + 2 ^ 8 * n) 0 : ℕ)

theorem decode_encode {n : ℕ} (h : n < 2 ^ 31) : decode (encode n) = n := by
  have hvalue : (encode n).foldr (fun byte n => byte.toNat + 2 ^ 8 * n) 0 = n := by
    simp only [encode, List.foldr_cons, List.foldr_nil, UInt8.toNat_ofNat']
    omega
  rw [decode, hvalue, toInt32_of_lt h]

/-- `[body_size][body]`. -/
def protocol : Format UInt8 := ⟨headSize, encode, fun _ => rfl, by decide⟩

/-! ## The handler -/

/-- Where the loop thread is. -/
inductive Pc
  | idle
  | reading
  | writing
  deriving DecidableEq

/-- The members of the handler, whether it is registered and with `EVENT_WRITE`, where the loop
thread is, and the socket: the bytes still to come in and those that have gone out. -/
structure State where
  head : List UInt8
  headCursor : Transfer
  pktData : List UInt8
  bodyCursor : Transfer
  sendDatas : List (List UInt8)
  sendCursor : Transfer
  registered : Bool
  writes : Bool
  pc : Pc
  incoming : List UInt8
  wire : List UInt8
  deriving DecidableEq

/-- The loop thread calls `HandleRead`, `HandleWrite` or `HandleError`, or a system call in one of
the first two answers. -/
inductive Label
  | readable
  | read (o : Syscall)
  | writable
  | write (o : Syscall)
  | error

namespace State

/-- The constructor. It leaves `m_head` as it is. -/
def fresh (head incoming : List UInt8) : State where
  head := head
  headCursor := .fresh 0 headSize (.other 0)
  pktData := []
  bodyCursor := .fresh 0 0 (.other 0)
  sendDatas := []
  sendCursor := .fresh 0 0 (.other 0)
  registered := true
  writes := false
  pc := .idle
  incoming := incoming
  wire := []

/-- `m_loop->Unregister(this)`, which ends both kinds of events, and the callback returns. -/
def unregister (s : State) : State := { s with registered := false, writes := false, pc := .idle }

/-- `HandleError`, as `EventHandler` has it. -/
def handleError (s : State) : State := s.unregister

/-- `Send`. -/
def send (s : State) (data : List UInt8) : State :=
  { s with sendDatas := s.sendDatas ++ [data], writes := true }

/-- `m_pkt_data` after `resize` and the assignment of the size to its first bytes. -/
def packet (s : State) (bodySize : ℕ) : List UInt8 :=
  encode bodySize ++ ((s.pktData ++ List.replicate (headSize + bodySize) 0).take
    (headSize + bodySize)).drop headSize

/-! ### `HandleRead` -/

/-- What follows the `Recv` of the body. -/
def afterBody (s : State) : Act Transfer ℤ → Option State
  | .running t => some { s with bodyCursor := t }
  | .returned r t =>
    if r < 0 then some ({ s with bodyCursor := t }).unregister
    else if r = 0 then some { s with bodyCursor := t, pc := .idle }
    else if t.size = 0 then
      some { s.send s.pktData with bodyCursor := t, headCursor := .fresh 0 headSize t.errno }
    else none
  | .aborted => none

/-- `m_pkt_data` and the cursor of the body are set up, and the loop turns to the next `Recv`.
`m_body_size` is an `ssize_t`, as is the sum. -/
def unpack (s : State) (errno : Errno) (bodySize : ℤ) : Option State :=
  -- `resize` throws
  if headSize + bodySize < 0 then none
  -- `Recv` returns `1` at once, and the assertion that `m_body_size` is zero fails
  else if bodySize < 0 then none
  else
    let bodyCursor := Transfer.fresh headSize bodySize.toNat errno
    { s with
      pktData := s.packet bodySize.toNat
      bodyCursor := bodyCursor }.afterBody (recv.enter bodyCursor)

/-- What follows the `Recv` of the head. -/
def afterHead (s : State) : Act Transfer ℤ → Option State
  | .running t => some { s with headCursor := t }
  | .returned r t =>
    if r < 0 then some ({ s with headCursor := t }).unregister
    else if r = 0 then some { s with headCursor := t, pc := .idle }
    else if t.size = 0 then { s with headCursor := t }.unpack t.errno (decode s.head)
    else none
  | .aborted => none

/-- The cursor of the `Recv` that `HandleRead` is in. -/
def recvCursor (s : State) : Transfer :=
  if s.headCursor.size ≠ 0 then s.headCursor else s.bodyCursor

/-- `read`, which stores the next bytes of the stream where the cursor points. It returns zero only
at the end of the stream. -/
def receive (s : State) (buf : List UInt8) (t : Transfer) (o : Syscall) : Option (List UInt8) :=
  if o.count ≤ s.incoming.length ∧ (o = .moves 0 → s.incoming = []) then
    store buf t.data (s.incoming.take o.count)
  else none

def read (s : State) (o : Syscall) : Option State :=
  if s.headCursor.size ≠ 0 then
    (s.receive s.head s.headCursor o).bind fun head =>
      (recv.step (.running s.headCursor) o).bind
        { s with head := head, incoming := s.incoming.drop o.count }.afterHead
  else
    (s.receive s.pktData s.bodyCursor o).bind fun pktData =>
      (recv.step (.running s.bodyCursor) o).bind
        { s with pktData := pktData, incoming := s.incoming.drop o.count }.afterBody

/-- `HandleRead` up to its first system call. -/
def handleRead (s : State) : Option State :=
  if s.headCursor.size ≠ 0 then { s with pc := .reading }.afterHead (recv.enter s.headCursor)
  else { s with pc := .reading }.afterBody (recv.enter s.bodyCursor)

/-! ### `HandleWrite` -/

/-- The turn of the loop that finds `m_send_size` zero: the next packet, or nothing to send. A
packet without bytes would be sent without a system call. -/
def pick (s : State) : List (List UInt8) → State
  | [] => { s with sendDatas := [], writes := false, pc := .idle }
  | data :: rest =>
    if data = [] then pick s rest
    else
      { s with
        sendDatas := data :: rest
        sendCursor := .fresh 0 data.length s.sendCursor.errno
        pc := .writing }

/-- What follows `Stream::Send`, where `rest` is the queue without its front. -/
def afterSend (s : State) (rest : List (List UInt8)) : Act Transfer ℤ → Option State
  | .running t => some { s with sendCursor := t }
  | .returned r t =>
    if r < 0 then some ({ s with sendCursor := t }).unregister
    else if r = 0 then some { s with sendCursor := t, pc := .idle }
    else if t.size = 0 then some (pick { s with sendCursor := t } rest)
    else none
  | .aborted => none

/-- `write`, which takes the bytes from where the cursor points in the front packet. -/
def transmit (data : List UInt8) (t : Transfer) (o : Syscall) : Option (List UInt8) :=
  if t.data + o.count ≤ data.length then some ((data.drop t.data).take o.count) else none

def write (s : State) (o : Syscall) : Option State :=
  match s.sendDatas with
  | [] => none
  | data :: rest =>
    (transmit data s.sendCursor o).bind fun bytes =>
      (Stream.send.step (.running s.sendCursor) o).bind
        ({ s with wire := s.wire ++ bytes }.afterSend rest)

/-- `HandleWrite` up to its first system call. -/
def handleWrite (s : State) : State :=
  if s.sendCursor.size = 0 then s.pick s.sendDatas else { s with pc := .writing }

def next (s : State) : Label → Option State
  | .readable => if s.pc = .idle ∧ s.registered then s.handleRead else none
  | .read o => if s.pc = .reading then s.read o else none
  | .writable => if s.pc = .idle ∧ s.registered ∧ s.writes then some s.handleWrite else none
  | .write o => if s.pc = .writing then s.write o else none
  | .error => if s.pc = .idle ∧ s.registered then some s.handleError else none

end State

/-- A connection on which `incoming` comes in. -/
def server (incoming : List UInt8) : System State Label where
  init s := ∃ head : List UInt8, head.length = headSize ∧ s = .fresh head incoming
  next := State.next

/-- Every system call moves nothing, half of its request or all of it. -/
def Halves (s : State) : Label → Prop
  | .read o => o.Halves s.recvCursor.size
  | .write o => o.Halves s.sendCursor.size
  | _ => True

instance (s : State) : DecidablePred (Halves s)
  | .read o => inferInstanceAs (Decidable (o.Halves _))
  | .write o => inferInstanceAs (Decidable (o.Halves _))
  | .readable => isTrue trivial
  | .writable => isTrue trivial
  | .error => isTrue trivial

/-! ## What a step does -/

/-- The bytes in the queue that have not gone out. -/
def State.unsent (s : State) : List UInt8 :=
  s.sendDatas.flatten.drop (if s.sendCursor.size = 0 then 0 else s.sendCursor.moved.length)

/-- The bytes of `todo` are the filled part of `m_head` or `m_pkt_data` and those still to come. -/
inductive Parsing (todo : List (List UInt8)) (s : State) : Prop
  | head : s.head.length = headSize → 0 < s.headCursor.size → s.headCursor.Sound 0 headSize →
      s.head.take (0 + s.headCursor.moved.length) ++ s.incoming = protocol.stream todo →
      Parsing todo s
  | body {b : List UInt8} {rest : List (List UInt8)} : s.head.length = headSize →
      s.headCursor.size = 0 → todo = b :: rest → s.pktData.length = headSize + b.length →
      0 < s.bodyCursor.size → s.bodyCursor.Sound headSize b.length →
      s.pktData.take (headSize + s.bodyCursor.moved.length) ++ s.incoming = protocol.stream todo →
      Parsing todo s

/-- What has gone out and what has not are the bytes `queued` so far. -/
structure Sending (bodies : List (List UInt8)) (queued : List UInt8) (s : State) : Prop where
  frames : ∀ data ∈ s.sendDatas, ∃ b ∈ bodies, data = protocol.frame b
  front : 0 < s.sendCursor.size →
    ∃ data rest, s.sendDatas = data :: rest ∧ s.sendCursor.Sound 0 data.length
  busy : s.pc = .writing → 0 < s.sendCursor.size
  order : s.wire ++ s.unsent = queued

/-- The frames of `bodies` up to some point have been queued, those behind it are being parsed. -/
def Inv (bodies : List (List UInt8)) (s : State) : Prop :=
  ∃ done todo, bodies = done ++ todo ∧ Parsing todo s ∧ Sending bodies (protocol.stream done) s

/-- A step of `HandleRead`: some frames of `todo` are put in the queue. -/
def Reads (todo : List (List UInt8)) (s s' : State) : Prop :=
  ∃ pushed todo', todo = pushed ++ todo' ∧ Parsing todo' s' ∧
    s'.sendDatas = s.sendDatas ++ pushed.map protocol.frame ∧ s'.sendCursor = s.sendCursor ∧
    s'.wire = s.wire ∧ s'.pc ≠ .writing

section Reading

variable {todo rest : List (List UInt8)} {b buf buf' total : List UInt8} {s s' : State}
  {o : Syscall} {t : Transfer} {base n : ℕ}

/-- The bytes that `read` delivers extend the filled part. -/
theorem filled_of_receive (ht : 0 < t.size) (hsound : t.Sound base n)
    (hbytes : buf.take (base + t.moved.length) ++ s.incoming = total)
    (h : s.receive buf t o = some buf') : buf'.length = buf.length ∧
      buf'.take (base + (t.moved.length + o.count)) ++ s.incoming.drop o.count = total := by
  obtain ⟨⟨hle, -⟩, hstore⟩ := Option.ite_none_right_eq_some.mp h
  have hlen : (s.incoming.take o.count).length = o.count := List.length_take_of_le hle
  have htake := take_of_store hstore
  rw [hlen, hsound.data ht] at htake
  refine ⟨length_of_store hstore, ?_⟩
  rw [← add_assoc, htake, List.append_assoc, List.take_append_drop]
  exact hbytes

/-- What follows the `Recv` of the body of `b`, in a call of `HandleRead`. -/
theorem reads_afterBody {a : Act Transfer ℤ} (hmoved : Moved headSize b.length t o a)
    (hhead : s.head.length = headSize) (hdone : s.headCursor.size = 0)
    (hlen : s.pktData.length = headSize + b.length)
    (hbytes : s.pktData.take (headSize + (t.moved.length + o.count)) ++ s.incoming =
      protocol.stream (b :: rest)) (hpc : s.pc ≠ .writing) (h : s.afterBody a = some s') :
    Reads (b :: rest) s s' := by
  cases hmoved with
  | @more u hsound hsize hcount =>
    obtain rfl := Option.some.inj h
    rw [← hcount] at hbytes
    exact ⟨[], b :: rest, rfl, .body hhead hdone rfl hlen hsize hsound hbytes,
      (List.append_nil _).symm, rfl, rfl, hpc⟩
  | @stopped r u hr hsound hsize hcount hzero =>
    rw [hzero, add_zero, ← hcount] at hbytes
    simp only [State.afterBody] at h
    split_ifs at h with h₁ h₂ h₃
    · obtain rfl := Option.some.inj h
      exact ⟨[], b :: rest, rfl, .body hhead hdone rfl hlen hsize hsound hbytes,
        (List.append_nil _).symm, rfl, rfl, nofun⟩
    · obtain rfl := Option.some.inj h
      exact ⟨[], b :: rest, rfl, .body hhead hdone rfl hlen hsize hsound hbytes,
        (List.append_nil _).symm, rfl, rfl, nofun⟩
    · omega
  | @full u hsize hcount =>
    -- the packet is complete, and is the frame
    rw [hcount, List.take_of_length_le hlen.le] at hbytes
    obtain ⟨hpkt, hincoming⟩ := Format.frame_of_stream hbytes hlen
    simp only [State.afterBody, hsize, if_true] at h
    obtain rfl := Option.some.inj h
    refine ⟨[b], rest, rfl, .head hhead protocol.headSize_pos (.fresh 0 headSize _) hincoming, ?_,
      rfl, rfl, hpc⟩
    show s.sendDatas ++ [s.pktData] = _
    rw [hpkt]
    rfl

theorem length_packet (s : State) (bodySize : ℕ) :
    (s.packet bodySize).length = headSize + bodySize := by
  have hle : headSize + bodySize ≤ s.pktData.length + (headSize + bodySize) := Nat.le_add_left ..
  rw [State.packet, List.length_append, List.length_drop, List.length_take, List.length_append,
    List.length_replicate, Nat.min_eq_left hle]
  show headSize + _ = _
  omega

theorem take_packet (s : State) (bodySize : ℕ) :
    (s.packet bodySize).take headSize = encode bodySize := List.take_left' rfl

theorem unpack_of_nonneg (s : State) (errno : Errno) {bodySize : ℤ} (h : 0 ≤ bodySize) :
    s.unpack errno bodySize =
      { s with
        pktData := s.packet bodySize.toNat
        bodyCursor := .fresh headSize bodySize.toNat errno }.afterBody
          (recv.enter (.fresh headSize bodySize.toNat errno)) := by
  rw [State.unpack, if_neg (by omega), if_neg (by omega)]

/-- No negative size gets as far as a system call. -/
theorem unpack_of_neg (s : State) (errno : Errno) {bodySize : ℤ} (h : bodySize < 0) :
    s.unpack errno bodySize = none := by
  rw [State.unpack, if_pos h, ite_self]

/-- What follows the `Recv` of the head. -/
theorem reads_afterHead {a : Act Transfer ℤ} (hmoved : Moved 0 headSize t o a)
    (hsmall : ∀ b ∈ todo, b.length < 2 ^ 31) (hhead : s.head.length = headSize)
    (hbytes : s.head.take (0 + (t.moved.length + o.count)) ++ s.incoming = protocol.stream todo)
    (hpc : s.pc ≠ .writing) (h : s.afterHead a = some s') : Reads todo s s' := by
  cases hmoved with
  | @more u hsound hsize hcount =>
    obtain rfl := Option.some.inj h
    rw [← hcount] at hbytes
    exact ⟨[], todo, rfl, .head hhead hsize hsound hbytes, (List.append_nil _).symm, rfl, rfl, hpc⟩
  | @stopped r u hr hsound hsize hcount hzero =>
    rw [hzero, add_zero, ← hcount] at hbytes
    simp only [State.afterHead] at h
    split_ifs at h with h₁ h₂ h₃
    · obtain rfl := Option.some.inj h
      exact ⟨[], todo, rfl, .head hhead hsize hsound hbytes, (List.append_nil _).symm, rfl, rfl,
        nofun⟩
    · obtain rfl := Option.some.inj h
      exact ⟨[], todo, rfl, .head hhead hsize hsound hbytes, (List.append_nil _).symm, rfl, rfl,
        nofun⟩
    · omega
  | @full u hsize hcount =>
    -- the head is complete, and tells the length of the next body
    rw [hcount, zero_add, List.take_of_length_le hhead.le] at hbytes
    obtain ⟨b, rest, rfl, hencoded, hincoming⟩ := Format.head_of_stream hbytes hhead
    have hdecode : decode s.head = b.length := by
      rw [hencoded]
      exact decode_encode (hsmall b (List.mem_cons_self ..))
    have hunpack : { s with headCursor := u }.unpack u.errno b.length = some s' := by
      rw [← hdecode]
      simpa [State.afterHead, hsize] using h
    rw [unpack_of_nonneg _ _ (Int.natCast_nonneg _), Int.toNat_natCast] at hunpack
    have hpacket : (s.packet b.length).take (headSize + (0 + 0)) ++ s.incoming =
        protocol.stream (b :: rest) := by
      rw [add_zero, add_zero, take_packet, hincoming, Format.stream_cons, Format.frame,
        List.append_assoc]
      rfl
    exact reads_afterBody
      (s := { s with
        headCursor := u
        pktData := s.packet b.length
        bodyCursor := .fresh headSize b.length u.errno })
      (moved_enter (.fresh headSize b.length u.errno) .eagain) hhead hsize
      (length_packet s b.length) hpacket hpc hunpack

/-- **A system call of `HandleRead`.** -/
theorem reads_read (hp : Parsing todo s) (hsmall : ∀ b ∈ todo, b.length < 2 ^ 31)
    (ho : o.Halves s.recvCursor.size) (hpc : s.pc ≠ .writing) (h : s.read o = some s') :
    Reads todo s s' := by
  unfold State.read State.recvCursor at *
  cases hp with
  | head hlen hsize hsound hbytes =>
    rw [if_pos hsize.ne'] at h ho
    obtain ⟨head, hreceive, hbind⟩ := Option.bind_eq_some_iff.mp h
    obtain ⟨a, hstep, hafter⟩ := Option.bind_eq_some_iff.mp hbind
    obtain ⟨hlen', hbytes'⟩ := filled_of_receive hsize hsound hbytes hreceive
    have hmoved := moved_of_step (by simp) (by simp) hsound hsize (by decide) ho hstep
    exact reads_afterHead (s := { s with head := head, incoming := s.incoming.drop o.count }) hmoved
      hsmall (hlen'.trans hlen) hbytes' hpc hafter
  | @body b rest hlen hdone htodo hpktLen hsize hsound hbytes =>
    subst htodo
    rw [if_neg (not_not.mpr hdone)] at h ho
    obtain ⟨pktData, hreceive, hbind⟩ := Option.bind_eq_some_iff.mp h
    obtain ⟨a, hstep, hafter⟩ := Option.bind_eq_some_iff.mp hbind
    obtain ⟨hlen', hbytes'⟩ := filled_of_receive hsize hsound hbytes hreceive
    have hmoved := moved_of_step (by simp) (by simp) hsound hsize
      (hsmall b (List.mem_cons_self ..)) ho hstep
    exact reads_afterBody (s := { s with pktData := pktData, incoming := s.incoming.drop o.count })
      hmoved hlen hdone (hlen'.trans hpktLen) hbytes' hpc hafter

/-- `HandleRead` is called. -/
theorem reads_handleRead (hp : Parsing todo s) (hsmall : ∀ b ∈ todo, b.length < 2 ^ 31)
    (h : s.handleRead = some s') : Reads todo s s' := by
  unfold State.handleRead at h
  cases hp with
  | head hlen hsize hsound hbytes =>
    rw [if_pos hsize.ne'] at h
    exact reads_afterHead (s := { s with pc := .reading }) (moved_enter hsound .eagain) hsmall hlen
      hbytes nofun h
  | @body b rest hlen hdone htodo hpktLen hsize hsound hbytes =>
    subst htodo
    rw [if_neg (not_not.mpr hdone)] at h
    exact reads_afterBody (s := { s with pc := .reading }) (moved_enter hsound .eagain) hlen hdone
      hpktLen hbytes nofun h

end Reading

section Writing

variable {bodies rest pushed : List (List UInt8)} {data bytes queued : List UInt8} {s s' : State}
  {o : Syscall} {t : Transfer}

/-- Nothing of what `HandleRead` works on changes. -/
def SameInput (s s' : State) : Prop :=
  s'.head = s.head ∧ s'.headCursor = s.headCursor ∧ s'.pktData = s.pktData ∧
    s'.bodyCursor = s.bodyCursor ∧ s'.incoming = s.incoming

theorem Parsing.of_sameInput {todo : List (List UInt8)} (hp : Parsing todo s)
    (h : SameInput s s') : Parsing todo s' := by
  obtain ⟨hhead, hheadCursor, hpkt, hbodyCursor, hincoming⟩ := h
  cases hp with
  | head hlen hsize hsound hbytes =>
    rw [← hheadCursor] at hsize hsound
    rw [← hhead] at hlen
    rw [← hhead, ← hheadCursor, ← hincoming] at hbytes
    exact .head hlen hsize hsound hbytes
  | body hlen hdone htodo hpktLen hsize hsound hbytes =>
    rw [← hhead] at hlen
    rw [← hheadCursor] at hdone
    rw [← hpkt] at hpktLen
    rw [← hbodyCursor] at hsize hsound
    rw [← hpkt, ← hbodyCursor, ← hincoming] at hbytes
    exact .body hlen hdone htodo hpktLen hsize hsound hbytes

theorem frame_ne_nil (b : List UInt8) : protocol.frame b ≠ [] := nofun

theorem sameInput_pick (s : State) (rest : List (List UInt8)) : SameInput s (s.pick rest) := by
  induction rest with
  | nil => exact ⟨rfl, rfl, rfl, rfl, rfl⟩
  | cons data rest ih =>
    unfold State.pick
    split
    · exact ih
    · exact ⟨rfl, rfl, rfl, rfl, rfl⟩

/-- The next packet is taken from its first byte. -/
theorem sending_pick (hs : s.sendCursor.size = 0)
    (hframes : ∀ data ∈ rest, ∃ b ∈ bodies, data = protocol.frame b)
    (horder : s.wire ++ rest.flatten = queued) : Sending bodies queued (s.pick rest) := by
  cases rest with
  | nil =>
    have hidle : ∀ {P : Prop}, 0 < s.sendCursor.size → P := fun h => absurd hs h.ne'
    refine ⟨nofun, hidle, nofun, ?_⟩
    unfold State.unsent
    rw [State.pick, if_pos hs]
    exact horder
  | cons data rest =>
    obtain ⟨b, -, rfl⟩ := hframes data (List.mem_cons_self ..)
    have hlen : 0 < (protocol.frame b).length := List.length_pos_of_ne_nil (frame_ne_nil b)
    rw [State.pick, if_neg (frame_ne_nil b)]
    refine ⟨hframes, fun _ => ⟨_, rest, rfl, .fresh 0 _ _⟩, fun _ => hlen, ?_⟩
    unfold State.unsent
    rw [if_neg (show (Transfer.fresh 0 (protocol.frame b).length s.sendCursor.errno).size ≠ 0 from
      hlen.ne')]
    exact horder

theorem take_drop_append {m c : ℕ} (h : m + c ≤ data.length) (l : List UInt8) :
    (data.drop m).take c ++ (data ++ l).drop (m + c) = (data ++ l).drop m := by
  rw [List.drop_append_of_le_length h, List.drop_append_of_le_length (by omega),
    ← List.append_assoc, ← List.drop_drop, List.take_append_drop]

/-- What follows a `Stream::Send` of the front packet. -/
theorem sending_afterSend {a : Act Transfer ℤ} (hmoved : Moved 0 data.length t o a)
    (hdatas : s.sendDatas = data :: rest)
    (hframes : ∀ data ∈ s.sendDatas, ∃ b ∈ bodies, data = protocol.frame b)
    (horder : s.wire ++ (data ++ rest.flatten).drop (t.moved.length + o.count) = queued)
    (h : s.afterSend rest a = some s') : Sending bodies queued s' ∧ SameInput s s' := by
  have hkept {u : Transfer} {s' : State} (hsound : u.Sound 0 data.length) (hsize : 0 < u.size)
      (hcount : u.moved.length = t.moved.length + o.count) (hdatas' : s'.sendDatas = s.sendDatas)
      (hcursor : s'.sendCursor = u) (hwire : s'.wire = s.wire) : Sending bodies queued s' := by
    refine ⟨hdatas' ▸ hframes, fun _ => ⟨data, rest, hdatas'.trans hdatas, hcursor ▸ hsound⟩,
      fun _ => hcursor ▸ hsize, ?_⟩
    unfold State.unsent
    rw [hcursor, if_neg hsize.ne', hdatas', hdatas, hwire, hcount]
    exact horder
  cases hmoved with
  | more hsound hsize hcount =>
    obtain rfl := Option.some.inj h
    exact ⟨hkept hsound hsize hcount rfl rfl rfl, rfl, rfl, rfl, rfl, rfl⟩
  | @stopped r u hr hsound hsize hcount hzero =>
    have hcount' : u.moved.length = t.moved.length + o.count := by rw [hcount, hzero, add_zero]
    simp only [State.afterSend] at h
    split_ifs at h with h₁ h₂ h₃
    · obtain rfl := Option.some.inj h
      exact ⟨hkept hsound hsize hcount' rfl rfl rfl, rfl, rfl, rfl, rfl, rfl⟩
    · obtain rfl := Option.some.inj h
      exact ⟨hkept hsound hsize hcount' rfl rfl rfl, rfl, rfl, rfl, rfl, rfl⟩
    · omega
  | @full u hsize hcount =>
    simp only [State.afterSend, hsize, if_true] at h
    obtain rfl := Option.some.inj h
    rw [hcount, List.drop_left] at horder
    refine ⟨sending_pick hsize (fun d hd => hframes d ?_) horder, sameInput_pick _ rest⟩
    rw [hdatas]
    exact List.mem_cons_of_mem _ hd

/-- **A system call of `HandleWrite`.** -/
theorem sending_write (hsend : Sending bodies queued s)
    (hsmall : ∀ b ∈ bodies, b.length + headSize < 2 ^ 31) (ho : o.Halves s.sendCursor.size)
    (hpc : s.pc = .writing) (h : s.write o = some s') :
    Sending bodies queued s' ∧ SameInput s s' := by
  have hsize := hsend.busy hpc
  obtain ⟨data, rest, hdatas, hsound⟩ := hsend.front hsize
  have hdata : data.length < 2 ^ 31 := by
    obtain ⟨b, hb, rfl⟩ := hsend.frames data (hdatas ▸ List.mem_cons_self ..)
    rw [Format.length_frame, add_comm]
    exact hsmall b hb
  simp only [State.write, hdatas] at h
  obtain ⟨bytes, htransmit, hbind⟩ := Option.bind_eq_some_iff.mp h
  obtain ⟨a, hstep, hafter⟩ := Option.bind_eq_some_iff.mp hbind
  obtain ⟨hle, he⟩ := Option.ite_none_right_eq_some.mp htransmit
  obtain rfl := Option.some.inj he
  have hmoved := moved_of_step (fun _ => le_rfl) (by simp) hsound hsize hdata ho hstep
  rw [hsound.data hsize, zero_add] at hafter hle
  have horder := hsend.order
  unfold State.unsent at horder
  rw [if_neg hsize.ne', hdatas, List.flatten_cons, ← take_drop_append hle, ← List.append_assoc]
    at horder
  exact sending_afterSend
    (s := { s with
      sendDatas := data :: rest
      wire := s.wire ++ (data.drop s.sendCursor.moved.length).take o.count })
    hmoved rfl (hdatas ▸ hsend.frames) horder hafter

/-- `HandleWrite` is called. -/
theorem sending_handleWrite (hsend : Sending bodies queued s) :
    Sending bodies queued s.handleWrite ∧ SameInput s s.handleWrite := by
  unfold State.handleWrite
  split
  · next hsize =>
    have horder := hsend.order
    unfold State.unsent at horder
    rw [if_pos hsize, List.drop_zero] at horder
    exact ⟨sending_pick hsize hsend.frames horder, sameInput_pick s _⟩
  · next hsize =>
    exact ⟨⟨hsend.frames, hsend.front, fun _ => Nat.pos_of_ne_zero hsize, hsend.order⟩,
      rfl, rfl, rfl, rfl, rfl⟩

/-- The frames that `HandleRead` puts in the queue go behind the others. -/
theorem Sending.push (hsend : Sending bodies queued s) (hpushed : ∀ b ∈ pushed, b ∈ bodies)
    (hdatas : s'.sendDatas = s.sendDatas ++ pushed.map protocol.frame)
    (hcursor : s'.sendCursor = s.sendCursor) (hwire : s'.wire = s.wire) (hpc : s'.pc ≠ .writing) :
    Sending bodies (queued ++ protocol.stream pushed) s' := by
  refine ⟨fun data hdata => ?_, fun hsize => ?_, fun he => absurd he hpc, ?_⟩
  · rcases List.mem_append.mp (hdatas ▸ hdata) with hdata | hdata
    · exact hsend.frames data hdata
    · obtain ⟨b, hb, rfl⟩ := List.mem_map.mp hdata
      exact ⟨b, hpushed b hb, rfl⟩
  · rw [hcursor] at hsize
    obtain ⟨data, rest, hfront, hsound⟩ := hsend.front hsize
    exact ⟨data, rest ++ pushed.map protocol.frame, by rw [hdatas, hfront]; rfl, hcursor ▸ hsound⟩
  · have hle : (if s.sendCursor.size = 0 then 0 else s.sendCursor.moved.length) ≤
        s.sendDatas.flatten.length := by
      split
      · exact Nat.zero_le _
      · next hsize =>
        obtain ⟨data, rest, hfront, hsound⟩ := hsend.front (Nat.pos_of_ne_zero hsize)
        have hlen := hsound.length
        rw [hfront, List.flatten_cons, List.length_append]
        omega
    have horder := hsend.order
    unfold State.unsent at horder ⊢
    rw [hcursor, hwire, hdatas, List.flatten_append, List.drop_append_of_le_length hle,
      ← List.append_assoc, horder]
    rfl

end Writing

/-! ## Whole runs -/

section Runs

variable {bodies : List (List UInt8)} {s s' : State} {l : Label}

/-- **One step** of the server keeps the bytes in order. -/
theorem inv_step (hsmall : ∀ b ∈ bodies, b.length + headSize < 2 ^ 31) (hinv : Inv bodies s)
    (hl : Halves s l) (hn : s.next l = some s') : Inv bodies s' := by
  obtain ⟨done, todo, rfl, hp, hsend⟩ := hinv
  have hshort : ∀ b ∈ todo, b.length < 2 ^ 31 := fun b hb =>
    (Nat.le_add_right _ _).trans_lt (hsmall b (List.mem_append_right _ hb))
  have hreads (h : Reads todo s s') : Inv (done ++ todo) s' := by
    obtain ⟨pushed, todo', rfl, hp', hdatas, hcursor, hwire, hpc⟩ := h
    refine ⟨done ++ pushed, todo', (List.append_assoc ..).symm, hp', ?_⟩
    rw [Format.stream_append]
    exact hsend.push (fun b hb => List.mem_append_right _ (List.mem_append_left _ hb)) hdatas
      hcursor hwire hpc
  have hwrites (h : Sending (done ++ todo) (protocol.stream done) s' ∧ SameInput s s') :
      Inv (done ++ todo) s' := ⟨done, todo, rfl, hp.of_sameInput h.2, h.1⟩
  cases l with
  | readable =>
    obtain ⟨-, h⟩ := Option.ite_none_right_eq_some.mp hn
    exact hreads (reads_handleRead hp hshort h)
  | read o =>
    obtain ⟨hpc, h⟩ := Option.ite_none_right_eq_some.mp hn
    exact hreads (reads_read hp hshort hl (by rw [hpc]; nofun) h)
  | writable =>
    obtain ⟨-, h⟩ := Option.ite_none_right_eq_some.mp hn
    obtain rfl := Option.some.inj h
    exact hwrites (sending_handleWrite hsend)
  | write o =>
    obtain ⟨hpc, h⟩ := Option.ite_none_right_eq_some.mp hn
    exact hwrites (sending_write hsend hsmall hl hpc h)
  | error =>
    obtain ⟨-, h⟩ := Option.ite_none_right_eq_some.mp hn
    obtain rfl := Option.some.inj h
    exact hwrites ⟨⟨hsend.frames, hsend.front, nofun, hsend.order⟩, rfl, rfl, rfl, rfl, rfl⟩

theorem inv_fresh {head : List UInt8} (hhead : head.length = headSize) :
    Inv bodies (.fresh head (protocol.stream bodies)) :=
  ⟨[], bodies, rfl, .head hhead protocol.headSize_pos (.fresh 0 headSize _) rfl,
    nofun, nofun, nofun, rfl⟩

/-- When everything has come in, no frame is left half parsed. -/
theorem Parsing.eq_nil {todo : List (List UInt8)} (hp : Parsing todo s) (h : s.incoming = []) :
    todo = [] := by
  cases hp with
  | head hlen hsize hsound hbytes =>
    have hmoved := hsound.length
    rw [h, List.append_nil] at hbytes
    apply Format.eq_nil_of_length_lt (F := protocol)
    show _ < headSize
    rw [← hbytes, List.length_take]
    omega
  | @body b rest hlen hdone htodo hpktLen hsize hsound hbytes =>
    -- the last byte of the body has not been stored yet
    have hmoved := hsound.length
    have hlength := congrArg List.length hbytes
    rw [h, List.append_nil, htodo, Format.stream_cons, List.length_append, Format.length_frame,
      List.length_take] at hlength
    have hhead : protocol.headSize = headSize := rfl
    omega

/-- **The echo law**, for frames of all lengths that fit an `int` and in every run on whole and half
transfers: what has gone out is a front part of what comes in, and all of it when everything has
come in and the queue is empty. -/
theorem echo (hsmall : ∀ b ∈ bodies, b.length + headSize < 2 ^ 31)
    (hr : (server (protocol.stream bodies)).Reachable Halves s) :
    s.wire <+: protocol.stream bodies ∧
      (s.incoming = [] → s.sendDatas = [] → s.wire = protocol.stream bodies) := by
  have hinv : Inv bodies s := by
    refine System.Reachable.invariant (I := Inv bodies) ?_
      (fun s l s' _ hinv hl hn => inv_step hsmall hinv hl hn) hr
    rintro s ⟨head, hhead, rfl⟩
    exact inv_fresh hhead
  obtain ⟨done, todo, rfl, hp, hsend⟩ := hinv
  have horder := hsend.order
  rw [Format.stream_append]
  refine ⟨?_, fun hincoming hdatas => ?_⟩
  · rw [← horder, List.append_assoc]
    exact List.prefix_append _ _
  · obtain rfl := hp.eq_nil hincoming
    unfold State.unsent at horder
    rw [hdatas, List.flatten_nil, List.drop_nil, List.append_nil] at horder
    exact horder.trans (List.append_nil _).symm

/-- A body of four bytes and an empty one, received and sent back in halves. -/
theorem echo_halves : ∃ s : State,
    (server (protocol.stream [[5, 6, 7, 8], []])).Reachable Halves s ∧ s.sendDatas = [] ∧
      s.wire = protocol.stream [[5, 6, 7, 8], []] := by
  have hrun : ((server (protocol.stream [[5, 6, 7, 8], []])).exec Halves
      (.fresh [0, 0, 0, 0] (protocol.stream [[5, 6, 7, 8], []]))
      [.readable, .read (.moves 2), .read (.fails .eagain), .readable, .read (.moves 1),
        .read (.moves 1), .read (.moves 4), .read (.moves 4), .read (.fails .eagain), .writable,
        .write (.moves 4), .write (.moves 2), .write (.fails .eagain), .writable,
        .write (.moves 2), .write (.moves 4)]).map (fun s => (s.incoming, s.sendDatas)) =
          some ([], []) := by
    decide +kernel
  obtain ⟨s, hexec, hs⟩ := Option.map_eq_some_iff.mp hrun
  obtain ⟨hincoming, hdatas⟩ := Prod.mk.inj hs
  have hr : (server (protocol.stream [[5, 6, 7, 8], []])).Reachable Halves s :=
    System.reachable_of_exec ⟨_, rfl, rfl⟩ hexec
  exact ⟨s, hr, hdatas, (echo (by decide) hr).2 hincoming hdatas⟩

/-- A body of one byte: the kernel accepts the frame in four bytes and one, and what goes out last
is not the body. -/
theorem echo_garbled : ∃ s : State, (server (protocol.stream [[9]])).Reachable Free s ∧
    s.wire = [1, 0, 0, 0, 0] ∧ ¬s.wire <+: protocol.stream [[9]] := by
  have hrun : ((server (protocol.stream [[9]])).exec Free
      (.fresh [0, 0, 0, 0] (protocol.stream [[9]]))
      [.readable, .read (.moves 4), .read (.moves 1), .read (.fails .eagain), .writable,
        .write (.moves 4), .write (.moves 1)]).map State.wire = some [1, 0, 0, 0, 0] := by
    decide +kernel
  obtain ⟨s, hexec, hwire⟩ := Option.map_eq_some_iff.mp hrun
  have hr : (server (protocol.stream [[9]])).Reachable Free s :=
    System.reachable_of_exec ⟨_, rfl, rfl⟩ hexec
  refine ⟨s, hr, hwire, ?_⟩
  rw [hwire]
  decide

end Runs

end Xfnet.TestEventHandler
