import Xfnet.Stream.Timed
import Xfnet.Tools.EchoSteps

/-!
# The example client and the echo server

`main` of `client_example.cpp` on one connection to the echo server: it makes up frames of random
lengths, sends each with the timed `Send`, waits for it to come back with the timed `Recv`, and
asserts that it got what it sent. Both programs run against each other one system call at a time,
with any interleaving and any transfers that leave the server's cursors right.

The bytes of the frame that the client has still to send count as bytes that the server has still to
receive (`State.more`), so that the invariant of the server is that of a stream of whole frames.
-/

namespace Xfnet.ClientExample

open Framing Loops Xfnet.Stream Transition
open TestEventHandler (encode headSize protocol)

/-! ## The client -/

/-- `MAX_SIZE`. -/
def maxSize : ℕ := 4096

/-- `MAX`. -/
def rounds : ℕ := 1024

/-- Where `main` is: at the top of its loop, in `Send` or `Recv`, behind the loop, or in the
assertion that failed. -/
inductive Phase
  | top
  | sending (t : Timed)
  | receiving (t : Timed)
  | left
  | failed

/-- `buf`, `buf2`, `i` and `len`, how many bytes have been taken from the connection, and where
`main` is. -/
structure State where
  buf : List UInt8
  buf2 : List UInt8
  round : ℕ
  len : ℕ
  taken : ℕ
  phase : Phase

namespace State

/-- The assertion, and what follows it. -/
def compare (s : State) : State :=
  if s.buf.take (s.len + headSize) = s.buf2.take (s.len + headSize) then
    { s with
      buf2 := List.replicate (s.len + headSize) 0xcc ++ s.buf2.drop (s.len + headSize)
      round := s.round + 1
      phase := .top }
  else { s with phase := .failed }

/-- What follows `Recv`. -/
def afterRecv (s : State) : Act Timed ℤ → State
  | .running t => { s with phase := .receiving t }
  | .returned r _ => if r = 0 ∨ r = -1 ∨ r = -2 then { s with phase := .left } else s.compare
  | .aborted => { s with phase := .failed }

/-- What follows `Send`. -/
def afterSend (s : State) : Act Timed ℤ → State
  | .running t => { s with phase := .sending t }
  | .returned r t =>
    if r = 1 then s.afterRecv (recvTimed.enter (.fresh 0 (s.len + headSize) t.errno))
    else { s with phase := .left }
  | .aborted => { s with phase := .failed }

/-- The length of a body, from `rand()`. -/
def bodyLength (random : ℕ) : ℕ :=
  if random % maxSize < 512 then random % maxSize + 512 else random % maxSize

/-- `*(int*)buf = len;` -/
def makeUp (s : State) (len : ℕ) : State :=
  { s with len := len, buf := encode len ++ s.buf.drop headSize }

/-- The loop up to the first system call of `Send`. -/
def begin (s : State) (random : ℕ) (errno : Errno) : State :=
  if s.round < rounds then
    (s.makeUp (bodyLength random)).afterSend
      (sendTimed.enter (.fresh 0 (bodyLength random + headSize) errno))
  else { s with phase := .left }

end State

/-- The client and the handler of its connection. The bytes that the client sends come in at the
handler. -/
structure Session where
  client : State
  server : TestEventHandler.State

/-- The client starts the next turn of its loop, or its system call answers, or the loop thread of
the server takes a step. -/
inductive Label
  | begin (random : ℕ) (errno : Errno)
  | send (e : TimedEvent)
  | recv (e : TimedEvent)
  | server (l : TestEventHandler.Label)

namespace Session

/-- The bytes on their way back. -/
def back (s : Session) : List UInt8 := s.server.wire.drop s.client.taken

/-- The server's stream ends when the client has left its loop. -/
def allows (s : Session) : TestEventHandler.Label → Bool
  | .read (.moves 0) =>
    match s.client.phase with
    | .left => true
    | .failed => true
    | _ => false
  | _ => true

def next (s : Session) : Label → Option Session
  | .begin random errno =>
    match s.client.phase with
    | .top => some { s with client := s.client.begin random errno }
    | _ => none
  | .send e =>
    match s.client.phase with
    | .sending t =>
      if t.data + e.count ≤ s.client.buf.length then
        (sendTimed.step (.running t) e).map fun a =>
          ⟨s.client.afterSend a, s.server.more ((s.client.buf.drop t.data).take e.count)⟩
      else none
    | _ => none
  | .recv e =>
    match s.client.phase with
    | .receiving t =>
      if e.count ≤ s.back.length ∧
          (e = .io (.moves 0) → s.back = [] ∧ s.server.registered = false) then
        (store s.client.buf2 t.data (s.back.take e.count)).bind fun buf2 =>
          (recvTimed.step (.running t) e).map fun a =>
            { s with client :=
              { s.client with
                buf2 := buf2
                taken := s.client.taken + e.count }.afterRecv a }
      else none
    | _ => none
  | .server l =>
    if s.allows l then (s.server.next l).map fun server => { s with server := server } else none

end Session

/-- A client whose connection the server has just taken. -/
def session : System Session Label where
  init s := ∃ buf buf2 head : List UInt8, buf.length = maxSize + headSize ∧
    buf2.length = maxSize + headSize ∧ head.length = headSize ∧
    s = ⟨⟨buf, buf2, 0, 0, 0, .top⟩, .fresh head []⟩
  next := Session.next

/-- The server's transfers move nothing, half of their request or all of it. -/
def Halves (s : Session) : Label → Prop
  | .server l => TestEventHandler.Halves s.server l
  | _ => True

instance (s : Session) : DecidablePred (Halves s)
  | .server l => inferInstanceAs (Decidable (TestEventHandler.Halves s.server l))
  | .begin _ _ => isTrue trivial
  | .send _ => isTrue trivial
  | .recv _ => isTrue trivial

/-! ## What a session keeps -/

open TestEventHandler (Inv)

/-- The bodies' lengths fit an `int`, also with a head. -/
def Short (bodies : List (List UInt8)) : Prop := ∀ b ∈ bodies, b.length + headSize < 2 ^ 31

/-- The frame in `buf`. -/
def State.frame (s : State) : List UInt8 := s.buf.take (s.len + headSize)

/-- The rounds so far were on the bodies `past`, the current one is on `b`. -/
structure Round (past : List (List UInt8)) (b : List UInt8) (s : Session) : Prop where
  short : Short (past ++ [b])
  frame : s.client.frame = protocol.frame b
  length : b.length = s.client.len

/-- Where the client is in its round. For the server the frame is on its way from the moment it is
made up. -/
inductive Within (s : Session) : Prop
  | top {past : List (List UInt8)} : s.client.phase = .top → Short past → Inv past s.server →
      s.client.taken = (protocol.stream past).length → Within s
  | sending {past : List (List UInt8)} {b : List UInt8} {t : Timed} {k : ℕ} :
      s.client.phase = .sending t → Round past b s → t.At 0 (s.client.len + headSize) k →
      0 < t.size → Inv (past ++ [b]) (s.server.more ((protocol.frame b).drop k)) →
      s.client.taken = (protocol.stream past).length → Within s
  | receiving {past : List (List UInt8)} {b : List UInt8} {t : Timed} {k : ℕ} :
      s.client.phase = .receiving t → Round past b s → t.At 0 (s.client.len + headSize) k →
      0 < t.size → Inv (past ++ [b]) s.server →
      s.client.taken = (protocol.stream past).length + k →
      s.client.buf2.take k = (protocol.frame b).take k → Within s
  | left : s.client.phase = .left → Within s

/-- The sizes, and what the server keeps on its own. -/
structure Bounds (s : Session) : Prop where
  buf : s.client.buf.length = maxSize + headSize
  buf2 : s.client.buf2.length = maxSize + headSize
  len : s.client.len ≤ maxSize
  taken : s.client.taken ≤ s.server.wire.length
  watches : s.server.Watches

structure Ok (s : Session) : Prop where
  bounds : Bounds s
  within : Within s

section Steps

variable {s s' : Session} {past : List (List UInt8)} {b : List UInt8} {k : ℕ} {a : Act Timed ℤ}

theorem Round.length_frame (h : Round past b s) :
    (protocol.frame b).length = s.client.len + headSize := by
  rw [Format.length_frame, h.length, Nat.add_comm]
  rfl

theorem take_drop_of_prefix {l l' : List UInt8} (h : l <+: l') {i c : ℕ} (hle : i + c ≤ l.length) :
    (l.drop i).take c = (l'.drop i).take c := by
  obtain ⟨rest, rfl⟩ := h
  rw [List.drop_append_of_le_length (by omega),
    List.take_append_of_le_length (by rw [List.length_drop]; omega)]

/-- What `Recv` may return. -/
theorem recv_code {t t' : Timed} {e : TimedEvent} {r : ℤ}
    (h : recvTimed.step (.running t) e = some (.returned r t')) :
    r = 1 ∨ r = 0 ∨ r = -1 ∨ r = -2 := by
  obtain ⟨-, hsettle⟩ := Loop.step_running h
  rcases Loop.settle_returned hsettle.symm with ⟨hdone, -⟩ | hb
  · exact .inl hdone
  · refine .inr ?_
    replace hb : timedBody (some (-2)) t e = .ret r t' := hb
    cases e with
    | io o =>
      cases o with
      | moves c =>
        simp only [timedBody] at hb
        split at hb
        · cases hb
        · cases hb
          exact .inr (.inr rfl)
      | fails e =>
        simp only [timedBody] at hb
        split_ifs at hb
        cases hb
        exact .inr (.inl rfl)
    | poll p =>
      obtain ⟨hle, e, hselect⟩ := selectBody_of_timedBody hb
      rcases SocketUtil.selectBody_code hselect hle with ⟨hr, -⟩ | ⟨hr, -⟩ | ⟨hr, -, -⟩
      · exact .inl hr
      · exact .inr (.inr hr)
      · exact .inr (.inl hr)

/-- **The assertion holds** when the whole frame has come back. -/
theorem ok_compare (hbounds : Bounds s) (hround : Round past b s)
    (hinv : Inv (past ++ [b]) s.server)
    (htaken : s.client.taken = (protocol.stream past).length + (s.client.len + headSize))
    (hbuf2 : s.client.buf2.take (s.client.len + headSize) = protocol.frame b) :
    Ok { s with client := s.client.compare } := by
  have hequal : s.client.buf.take (s.client.len + headSize) =
      s.client.buf2.take (s.client.len + headSize) := hround.frame.trans hbuf2.symm
  rw [State.compare, if_pos hequal]
  refine ⟨⟨hbounds.buf, ?_, hbounds.len, hbounds.taken, hbounds.watches⟩,
    .top rfl hround.short hinv ?_⟩
  · have hlen := hbounds.len
    simp only [List.length_append, List.length_replicate, List.length_drop, hbounds.buf2]
    omega
  · show s.client.taken = _
    rw [Format.stream_append, List.length_append, htaken, Format.stream_cons, List.length_append,
      hround.length_frame]
    rfl

/-- What follows `Recv`, which has moved `k` bytes. -/
theorem ok_afterRecv (hbounds : Bounds s) (hround : Round past b s)
    (hprog : Progress 0 (s.client.len + headSize) k a)
    (hcode : ∀ r t, a = .returned r t → r = 1 ∨ r = 0 ∨ r = -1 ∨ r = -2)
    (hinv : Inv (past ++ [b]) s.server)
    (htaken : s.client.taken = (protocol.stream past).length + k)
    (hbuf2 : s.client.buf2.take k = (protocol.frame b).take k) :
    Ok { s with client := s.client.afterRecv a } := by
  have hbounds' (phase : Phase) : Bounds { s with client := { s.client with phase := phase } } :=
    ⟨hbounds.buf, hbounds.buf2, hbounds.len, hbounds.taken, hbounds.watches⟩
  cases a with
  | running t =>
    refine ⟨hbounds' _, .receiving rfl ?_ hprog.1 hprog.2 hinv htaken hbuf2⟩
    exact ⟨hround.short, hround.frame, hround.length⟩
  | returned r t =>
    by_cases hr : r = 0 ∨ r = -1 ∨ r = -2
    · rw [State.afterRecv, if_pos hr]
      exact ⟨hbounds' _, .left rfl⟩
    · -- the only other code is for a whole frame
      have hone : r = 1 := (hcode r t rfl).resolve_right hr
      have hk : k = s.client.len + headSize := hprog.2.mp hone
      rw [hk] at hbuf2 htaken
      rw [← hround.length_frame, List.take_length, hround.length_frame] at hbuf2
      rw [State.afterRecv, if_neg hr]
      exact ok_compare hbounds hround hinv htaken hbuf2
  | aborted => exact hprog.elim

/-- What follows `Send`, which has moved `k` bytes. -/
theorem ok_afterSend (hbounds : Bounds s) (hround : Round past b s)
    (hprog : Progress 0 (s.client.len + headSize) k a)
    (hinv : Inv (past ++ [b]) (s.server.more ((protocol.frame b).drop k)))
    (htaken : s.client.taken = (protocol.stream past).length) :
    Ok { s with client := s.client.afterSend a } := by
  have hbounds' (phase : Phase) : Bounds { s with client := { s.client with phase := phase } } :=
    ⟨hbounds.buf, hbounds.buf2, hbounds.len, hbounds.taken, hbounds.watches⟩
  cases a with
  | running t =>
    refine ⟨hbounds' _, .sending rfl ?_ hprog.1 hprog.2 hinv htaken⟩
    exact ⟨hround.short, hround.frame, hround.length⟩
  | returned r t =>
    by_cases hr : r = 1
    · -- the whole frame has been sent
      have hk : k = s.client.len + headSize := hprog.2.mp hr
      rw [hk, ← hround.length_frame, List.drop_length, TestEventHandler.more_nil] at hinv
      rw [State.afterSend, if_pos hr]
      have hguard : 0 < s.client.len + headSize := Nat.succ_pos _
      refine ok_afterRecv hbounds hround (progress_fresh t.errno) (fun r t' he => ?_) hinv htaken
        rfl
      rw [Loop.enter_of_guard (by simpa [recvTimed, timedLoop, Timed.fresh] using hguard)] at he
      cases he
    · rw [State.afterSend, if_neg hr]
      exact ⟨hbounds' _, .left rfl⟩
  | aborted => exact hprog.elim

theorem bodyLength_lt (random : ℕ) : State.bodyLength random < maxSize := by
  have hmod := Nat.mod_lt random (show 0 < maxSize by decide)
  have hsize : 1024 < maxSize := by decide
  unfold State.bodyLength
  split <;> omega

/-- **The next round** is on a new frame. -/
theorem ok_begin (hok : Ok s) (htop : s.client.phase = .top) (random : ℕ) (errno : Errno) :
    Ok { s with client := s.client.begin random errno } := by
  obtain ⟨hbounds, hwithin⟩ := hok
  cases hwithin with
  | @top past _ hshort hinv htaken =>
    unfold State.begin
    split
    · have hlt := bodyLength_lt random
      obtain ⟨b, hb⟩ : ∃ b, b = (s.client.buf.drop headSize).take (State.bodyLength random) :=
        ⟨_, rfl⟩
      have hlength : b.length = State.bodyLength random := by
        rw [hb, List.length_take, List.length_drop, hbounds.buf]
        simp only [maxSize] at hlt ⊢
        omega
      have hframe : (s.client.makeUp (State.bodyLength random)).frame = protocol.frame b := by
        rw [Format.frame, hlength, hb, State.frame, Nat.add_comm]
        show (encode (State.bodyLength random) ++ _).take
          ((encode (State.bodyLength random)).length + State.bodyLength random) = _
        rw [List.take_length_add_append]
        rfl
      have hround :
          Round past b { s with client := s.client.makeUp (State.bodyLength random) } := by
        refine ⟨fun b' hb' => ?_, hframe, hlength⟩
        rcases List.mem_append.mp hb' with hpast | hnew
        · exact hshort b' hpast
        · obtain rfl := List.mem_singleton.mp hnew
          have hsize : maxSize + headSize < 2 ^ 31 := by decide
          omega
      have hstream : protocol.stream [b] = protocol.frame b := List.append_nil _
      have hbuf : (s.client.makeUp (State.bodyLength random)).buf.length = maxSize + headSize := by
        rw [State.makeUp, List.length_append, List.length_drop, hbounds.buf]
        rfl
      exact ok_afterSend
        (s := { s with client := s.client.makeUp (State.bodyLength random) })
        ⟨hbuf, hbounds.buf2, hlt.le, hbounds.taken, hbounds.watches⟩ hround
        (progress_fresh errno) (hstream ▸ hinv.more [b]) htaken
    · refine ⟨⟨hbounds.buf, hbounds.buf2, hbounds.len, hbounds.taken, hbounds.watches⟩, .left rfl⟩
  | sending hphase => rw [htop] at hphase; cases hphase
  | receiving hphase => rw [htop] at hphase; cases hphase
  | left hphase => rw [htop] at hphase; cases hphase

/-- **An answer to the client's `write`**, or to the wait around it. -/
theorem ok_send (hok : Ok s) {e : TimedEvent} (h : s.next (.send e) = some s') : Ok s' := by
  obtain ⟨hbounds, hwithin⟩ := hok
  simp only [Session.next] at h
  split at h
  · next t hphase =>
    obtain ⟨hle, h⟩ := Option.ite_none_right_eq_some.mp h
    obtain ⟨a, hstep, rfl⟩ := Option.map_eq_some_iff.mp h
    cases hwithin with
    | @sending past b t' k hphase' hround hat hsize hinv htaken =>
      obtain rfl : t = t' := by rw [hphase] at hphase'; cases hphase'; rfl
      obtain ⟨hcount, hprog⟩ := progress_step (by decide) hat hsize hstep
      have hdata := hat.data
      have hat := hat.size
      rw [zero_add] at hdata
      -- the bytes sent are the next ones of the frame
      have hbytes : (s.client.buf.drop t.data).take e.count =
          ((protocol.frame b).drop k).take e.count := by
        rw [hdata, ← hround.frame, State.frame, List.drop_take, List.take_take]
        congr 1
        omega
      refine ok_afterSend
        (s := ⟨s.client, s.server.more ((s.client.buf.drop t.data).take e.count)⟩)
        ⟨hbounds.buf, hbounds.buf2, hbounds.len, hbounds.taken, hbounds.watches⟩
        ⟨hround.short, hround.frame, hround.length⟩ hprog ?_ htaken
      rw [TestEventHandler.more_more, hbytes, ← List.drop_drop, List.take_append_drop]
      exact hinv
    | top hphase' => rw [hphase] at hphase'; cases hphase'
    | receiving hphase' => rw [hphase] at hphase'; cases hphase'
    | left hphase' => rw [hphase] at hphase'; cases hphase'
  · cases h

/-- **An answer to the client's `read`**, or to the wait around it. -/
theorem ok_recv (hok : Ok s) {e : TimedEvent} (h : s.next (.recv e) = some s') : Ok s' := by
  obtain ⟨hbounds, hwithin⟩ := hok
  simp only [Session.next] at h
  split at h
  · next t hphase =>
    obtain ⟨⟨hle, -⟩, h⟩ := Option.ite_none_right_eq_some.mp h
    obtain ⟨buf2, hstore, h⟩ := Option.bind_eq_some_iff.mp h
    obtain ⟨a, hstep, rfl⟩ := Option.map_eq_some_iff.mp h
    cases hwithin with
    | @receiving past b t' k hphase' hround hat hsize hinv htaken hbuf2 =>
      obtain rfl : t = t' := by rw [hphase] at hphase'; cases hphase'; rfl
      obtain ⟨hcount, hprog⟩ := progress_step (by decide) hat hsize hstep
      have hdata := hat.data
      rw [zero_add] at hdata
      rw [Session.back, List.length_drop] at hle
      have hbound := hbounds.taken
      -- the bytes that come back are the next ones of the frame
      have hbytes : s.back.take e.count = ((protocol.frame b).drop k).take e.count := by
        rw [Session.back, take_drop_of_prefix hinv.wire_prefix (by omega), Format.stream_append,
          htaken, List.drop_length_add_append, Format.stream_cons]
        show ((protocol.frame b ++ []).drop k).take e.count = _
        rw [List.append_nil]
      have hlength : (s.back.take e.count).length = e.count := by
        rw [Session.back, List.length_take, List.length_drop]
        omega
      have htake := take_of_store hstore
      rw [hlength, hdata, hbuf2, hbytes, ← List.take_add] at htake
      refine ok_afterRecv
        (s := { s with client :=
          { s.client with
            buf2 := buf2
            taken := s.client.taken + e.count } })
        ⟨hbounds.buf, (length_of_store hstore).trans hbounds.buf2, hbounds.len, ?_, hbounds.watches⟩
        ⟨hround.short, hround.frame, hround.length⟩ hprog (fun r t' he => recv_code (he ▸ hstep))
        hinv ?_ htake
      · show s.client.taken + e.count ≤ s.server.wire.length
        omega
      · show s.client.taken + e.count = _
        omega
    | top hphase' => rw [hphase] at hphase'; cases hphase'
    | sending hphase' => rw [hphase] at hphase'; cases hphase'
    | left hphase' => rw [hphase] at hphase'; cases hphase'
  · cases h

/-- **A step of the server.** -/
theorem ok_server (hok : Ok s) {l : TestEventHandler.Label}
    (hl : TestEventHandler.Halves s.server l) (h : s.next (.server l) = some s') : Ok s' := by
  obtain ⟨hbounds, hwithin⟩ := hok
  obtain ⟨hallow, h⟩ := Option.ite_none_right_eq_some.mp h
  obtain ⟨server, hnext, rfl⟩ := Option.map_eq_some_iff.mp h
  obtain ⟨hwatches, hwire⟩ := TestEventHandler.keeps_step hnext
  have hbounds' : Bounds { s with server := server } :=
    ⟨hbounds.buf, hbounds.buf2, hbounds.len, hbounds.taken.trans hwire.length_le,
      hwatches hbounds.watches⟩
  cases hwithin with
  | top hphase hshort hinv htaken =>
    exact ⟨hbounds', .top hphase hshort (TestEventHandler.inv_step hshort hinv hl hnext) htaken⟩
  | @sending past b t k hphase hround hat hsize hinv htaken =>
    refine ⟨hbounds', .sending hphase ⟨hround.short, hround.frame, hround.length⟩ hat hsize ?_
      htaken⟩
    have hread : l ≠ .read (.moves 0) := by
      rintro rfl
      simp [Session.allows, hphase] at hallow
    exact TestEventHandler.inv_step hround.short hinv (hl.more _)
      (TestEventHandler.next_more hread hnext)
  | @receiving past b t k hphase hround hat hsize hinv htaken hbuf2 =>
    refine ⟨hbounds', .receiving hphase ⟨hround.short, hround.frame, hround.length⟩ hat hsize ?_
      htaken hbuf2⟩
    exact TestEventHandler.inv_step hround.short hinv hl hnext
  | left hphase => exact ⟨hbounds', .left hphase⟩

/-- **Every step** of a session. -/
theorem ok_step {l : Label} (hok : Ok s) (hl : Halves s l) (h : s.next l = some s') : Ok s' := by
  cases l with
  | begin random errno =>
    simp only [Session.next] at h
    split at h
    · next htop =>
      obtain rfl := Option.some.inj h
      exact ok_begin hok htop random errno
    · cases h
  | send e => exact ok_send hok h
  | recv e => exact ok_recv hok h
  | server l => exact ok_server hok hl h

theorem ok_of_reachable (h : session.Reachable Halves s) : Ok s := by
  refine System.Reachable.invariant (I := Ok) ?_ (fun s l s' _ hok hl hn => ok_step hok hl hn) h
  rintro s ⟨buf, buf2, head, hbuf, hbuf2, hhead, rfl⟩
  refine ⟨⟨hbuf, hbuf2, Nat.zero_le _, Nat.zero_le _, fun _ h => absurd rfl h⟩, ?_⟩
  have hshort : Short [] := nofun
  exact .top rfl hshort (TestEventHandler.inv_fresh hhead) rfl

/-- **The client gets back what it sent**, whatever the random numbers and however the two programs
interleave, on whole and half transfers of the server: the assertion never fails, nothing is left
on the connection or in the server between two rounds, and while the client waits for bytes that are
not on their way a handler that is registered has some to read, or some to send and watches for
room. -/
theorem session_echoes (h : session.Reachable Halves s) :
    s.client.phase ≠ .failed ∧
      (s.client.phase = .top → s.back = [] ∧ s.server.incoming = [] ∧ s.server.sendDatas = []) ∧
      ∀ t, s.client.phase = .receiving t → s.back = [] → s.server.registered = true →
        s.server.incoming ≠ [] ∨ s.server.sendDatas ≠ [] ∧ s.server.writes = true := by
  obtain ⟨hbounds, hwithin⟩ := ok_of_reachable h
  have htaken := hbounds.taken
  cases hwithin with
  | @top past hphase hshort hinv htaken' =>
    rw [hphase]
    refine ⟨nofun, fun _ => ?_, nofun⟩
    have hwire : s.server.wire = protocol.stream past :=
      hinv.wire_prefix.eq_of_length_le (htaken'.symm.trans_le htaken)
    obtain ⟨hincoming, hdatas⟩ := hinv.drained hwire
    exact ⟨by rw [Session.back, htaken', hwire, List.drop_length], hincoming, hdatas⟩
  | sending hphase =>
    rw [hphase]
    exact ⟨nofun, nofun, nofun⟩
  | @receiving past b t k hphase hround hat hsize hinv htaken' hbuf2 =>
    rw [hphase]
    refine ⟨nofun, nofun, fun t' _ hback hreg => ?_⟩
    by_cases hdatas : s.server.sendDatas = []
    · refine .inl fun hincoming => ?_
      -- the bytes that the client still waits for have gone out
      have hwire := congrArg List.length (hinv.wire_eq hincoming hdatas)
      have hdrop := congrArg List.length hback
      have hframe := hround.length_frame
      have hat := hat.size
      rw [Format.stream_append, List.length_append, Format.stream_cons, List.length_append] at hwire
      rw [Session.back, List.length_drop, List.length_nil] at hdrop
      omega
    · exact .inr ⟨hdatas, hbounds.watches hreg hdatas⟩
  | left hphase =>
    rw [hphase]
    exact ⟨nofun, nofun, nofun⟩

/-- One round with a body of 512 bytes, which comes back in two parts. -/
theorem session_echoes_round : ∃ s : Session, session.Reachable Halves s ∧ s.client.round = 1 ∧
    s.back = [] ∧ s.server.sendDatas = [] := by
  have hrun : (session.exec Halves
      ⟨⟨List.replicate 4100 7, List.replicate 4100 0, 0, 0, 0, .top⟩, .fresh [0, 0, 0, 0] []⟩
      [.begin 0 .eagain, .send (.io (.moves 516)), .server .readable, .server (.read (.moves 4)),
        .server (.read (.moves 512)), .server (.read (.fails .eagain)), .server .writable,
        .server (.write (.moves 258)), .recv (.io (.moves 100)), .server (.write (.moves 258)),
        .recv (.io (.moves 416))]).map
          (fun s => (s.client.round, match s.client.phase with | .top => true | _ => false)) =
            some (1, true) := by
    decide +kernel
  obtain ⟨s, hexec, hs⟩ := Option.map_eq_some_iff.mp hrun
  obtain ⟨hround, hphase⟩ := Prod.mk.inj hs
  have hreach : session.Reachable Halves s := System.reachable_of_exec
    ⟨_, _, _, List.length_replicate, List.length_replicate, rfl, rfl⟩ hexec
  have htop : s.client.phase = .top := by
    cases hp : s.client.phase <;> simp [hp] at hphase ⊢
  obtain ⟨-, hdone, -⟩ := session_echoes hreach
  obtain ⟨hback, -, hdatas⟩ := hdone htop
  exact ⟨s, hreach, hround, hback, hdatas⟩

end Steps

end Xfnet.ClientExample
