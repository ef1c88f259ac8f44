import Xfnet.Foundations.Memory
import Xfnet.Foundations.Transition
import Xfnet.Stream.Timed

/-!
# The timed round trip

Two sides run against each other over a FIFO pipe: one makes a sequence of `sendTimed` calls, the
other a sequence of `recvTimed` calls on buffers of the same sizes. A step of either side is one
system call, with any answer the kernel may give; the sides interleave freely.

Both sides keep the same invariant (`Side.Ok`): the bytes a call has moved are the front part of
its buffer. With the conservation of the bytes on the pipe this gives the round trip
(`timed_round_trip`).
-/

namespace Xfnet.Stream

open Loops Transition

/-- A call that has returned: its buffer, its result, the bytes it moved, and what the buffer held
at the return. -/
structure Result where
  buf : ℕ × ℕ
  ret : ℤ
  bytes : List UInt8
  holds : List UInt8
  deriving DecidableEq

/-- A thread that makes one call after another: the buffers of the calls to come, the call in
progress with the bytes it has moved, and the calls that have returned. -/
structure Side where
  todo : List (ℕ × ℕ)
  active : Option ((ℕ × ℕ) × Timed)
  bytes : List UInt8
  results : List Result
  deriving DecidableEq

namespace Side

def fresh (bufs : List (ℕ × ℕ)) : Side := ⟨bufs, none, [], []⟩

/-- The call on `buf`, which has moved `bytes`, goes on or returns. -/
def proceed (side : Side) (mem : ℕ → UInt8) (buf : ℕ × ℕ) (bytes : List UInt8) :
    Act Timed ℤ → Option Side
  | .running t => some { side with active := some (buf, t), bytes := bytes }
  | .returned r _ => some { side with
      active := none
      bytes := []
      results := side.results ++ [⟨buf, r, bytes, Memory.read mem buf.1 buf.2⟩] }
  | .aborted => none

/-- Enter the next call. -/
def call (L : Loop Timed TimedEvent ℤ) (side : Side) (mem : ℕ → UInt8) (errno : Errno) :
    Option Side :=
  match side.active, side.todo with
  | none, buf :: rest =>
    proceed { side with todo := rest } mem buf [] (L.enter (.fresh buf.1 buf.2 errno))
  | _, _ => none

/-- One event of the call in progress, which moves `bytes`. -/
def event (L : Loop Timed TimedEvent ℤ) (side : Side) (mem : ℕ → UInt8) (e : TimedEvent)
    (bytes : List UInt8) : Option Side :=
  match side.active with
  | some (buf, t) => (L.step (.running t) e).bind (side.proceed mem buf (side.bytes ++ bytes))
  | none => none

/-- All bytes the side has moved, in order. -/
def total (side : Side) : List UInt8 := (side.results.map Result.bytes).flatten ++ side.bytes

end Side

/-- Both sides, the bytes in the pipe, the receiver's memory, and the ranges stored by each call of
the receiver with the buffer of that call. -/
structure Link where
  send : Side
  recv : Side
  pipe : List UInt8
  mem : ℕ → UInt8
  stores : List ((ℕ × ℕ) × (ℕ × ℕ))

inductive LinkStep
  | callSend (errno : Errno)
  | sendEvent (e : TimedEvent)
  | callRecv (errno : Errno)
  | recvEvent (e : TimedEvent)

/-- The sender takes bytes from its memory `src` into the pipe, the receiver takes bytes from the
front of the pipe into its own memory. -/
def Link.next (src : ℕ → UInt8) (s : Link) : LinkStep → Option Link
  | .callSend errno => (s.send.call sendTimed src errno).map fun side => { s with send := side }
  | .sendEvent e =>
    s.send.active.bind fun c =>
      let bytes := Memory.read src c.2.data e.count
      (s.send.event sendTimed src e bytes).map fun side =>
        { s with send := side, pipe := s.pipe ++ bytes }
  | .callRecv errno => (s.recv.call recvTimed s.mem errno).map fun side => { s with recv := side }
  | .recvEvent e =>
    s.recv.active.bind fun c =>
      if e.count ≤ s.pipe.length then
        let bytes := s.pipe.take e.count
        let mem := Memory.write s.mem c.2.data bytes
        (s.recv.event recvTimed mem e bytes).map fun side =>
          { s with
            recv := side
            pipe := s.pipe.drop e.count
            mem := mem
            stores := s.stores ++ [(c.1, (c.2.data, e.count))] }
      else none

/-- The messages are the buffers `sends` of the memory `src`; the receiver uses the buffers
`recvs`, in a memory that holds anything. -/
def link (src : ℕ → UInt8) (sends recvs : List (ℕ × ℕ)) : System Link LinkStep where
  init s := ∃ mem, s = ⟨.fresh sends, .fresh recvs, [], mem, []⟩
  next := Link.next src

/-! ## One side -/

/-- A call that returned: it moved the front part of its buffer, all of it exactly when it
returned `1`. -/
structure Result.Ok (r : Result) : Prop where
  moved : r.bytes <+: r.holds
  length : r.holds.length = r.buf.2
  one : r.ret = 1 ↔ r.bytes.length = r.buf.2

theorem Result.Ok.bytes_eq {r : Result} (h : r.Ok) (hr : r.ret = 1) : r.bytes = r.holds :=
  h.moved.eq_of_length ((h.one.mp hr).trans h.length.symm)

/-- The invariant of a side whose memory is `mem` and whose calls are on `bufs`. -/
structure Side.Ok (mem : ℕ → UInt8) (bufs : List (ℕ × ℕ)) (side : Side) : Prop where
  bufs : side.results.map Result.buf ++ (side.active.map Prod.fst).toList ++ side.todo = bufs
  results : ∀ r ∈ side.results, r.Ok
  active : ∀ buf t, side.active = some (buf, t) → t.At buf.1 buf.2 side.bytes.length ∧
    0 < t.size ∧ side.bytes = Memory.read mem buf.1 side.bytes.length
  idle : side.active = none → side.bytes = []

section Sides

variable {least : ℕ} {onZero : Option ℤ} {mem : ℕ → UInt8} {bufs : List (ℕ × ℕ)}
  {side side' : Side}

theorem Side.Ok.fresh (mem : ℕ → UInt8) (bufs : List (ℕ × ℕ)) : (Side.fresh bufs).Ok mem bufs :=
  ⟨rfl, by simp [Side.fresh], by simp [Side.fresh], fun _ => rfl⟩

/-- What `proceed` does to the total, and the invariant it leaves. -/
theorem Side.proceed_ok {buf : ℕ × ℕ} {bytes : List UInt8} {a : Act Timed ℤ}
    (hbufs : side.results.map Result.buf ++ [buf] ++ side.todo = bufs)
    (hres : ∀ r ∈ side.results, r.Ok) (ha : Progress buf.1 buf.2 bytes.length a)
    (hbytes : bytes = Memory.read mem buf.1 bytes.length)
    (h : side.proceed mem buf bytes a = some side') :
    side'.Ok mem bufs ∧ side'.total = (side.results.map Result.bytes).flatten ++ bytes ∧
      ∃ rs, side'.results = side.results ++ rs ∧
        ∀ r ∈ rs, r.holds = Memory.read mem r.buf.1 r.buf.2 := by
  cases a with
  | running t =>
    obtain rfl := Option.some.inj h
    refine ⟨⟨by simpa using hbufs, hres, ?_, by simp⟩, rfl, [], by simp, by simp⟩
    intro buf' t' he
    obtain ⟨rfl, rfl⟩ : buf = buf' ∧ t = t' := by simpa using he
    exact ⟨ha.1, ha.2, hbytes⟩
  | returned r t =>
    obtain rfl := Option.some.inj h
    obtain ⟨hat, hone⟩ := ha
    have hok : Result.Ok ⟨buf, r, bytes, Memory.read mem buf.1 buf.2⟩ := by
      refine ⟨?_, by simp, hone⟩
      have hle : bytes.length ≤ buf.2 := by have := hat.size; omega
      exact hbytes ▸ Memory.read_prefix mem buf.1 hle
    refine ⟨⟨by simpa using hbufs, ?_, by simp, fun _ => rfl⟩, by simp [Side.total],
      _, rfl, by simp⟩
    intro r' hr'
    rcases List.mem_append.mp hr' with hr' | hr'
    · exact hres r' hr'
    · obtain rfl := List.mem_singleton.mp hr'
      exact hok
  | aborted => exact ha.elim

theorem Side.call_ok {errno : Errno} (hok : side.Ok mem bufs)
    (h : side.call (timedLoop least onZero) mem errno = some side') :
    side'.Ok mem bufs ∧ side'.total = side.total ∧
      ∃ rs, side'.results = side.results ++ rs ∧
        ∀ r ∈ rs, r.holds = Memory.read mem r.buf.1 r.buf.2 := by
  unfold Side.call at h
  split at h
  · next buf rest hactive htodo =>
    have hbufs := hok.bufs
    rw [hactive, htodo] at hbufs
    have hrest : ({ side with todo := rest } : Side).results.map Result.buf ++ [buf] ++ rest =
        bufs := by simpa using hbufs
    have := Side.proceed_ok hrest hok.results (progress_fresh errno) rfl h
    simpa [Side.total, hok.idle hactive] using this
  · cases h

/-- **An event of a side**, in the memory `mem'` it leaves: the bytes moved follow, in the buffer
of the call, the ones moved before. -/
theorem Side.event_ok (hone : onZero ≠ some 1) {mem' : ℕ → UInt8} {e : TimedEvent}
    {buf : ℕ × ℕ} {t : Timed} {bytes : List UInt8} (hok : side.Ok mem bufs)
    (hactive : side.active = some (buf, t)) (hcount : bytes.length = e.count)
    (hread : Memory.read mem' buf.1 (side.bytes.length + bytes.length) = side.bytes ++ bytes)
    (h : side.event (timedLoop least onZero) mem' e bytes = some side') :
    (e.count ≤ t.size ∧ side'.Ok mem' bufs) ∧ side'.total = side.total ++ bytes ∧
      ∃ rs, side'.results = side.results ++ rs ∧
        ∀ r ∈ rs, r.holds = Memory.read mem' r.buf.1 r.buf.2 := by
  obtain ⟨hat, hsize, -⟩ := hok.active buf t hactive
  simp only [Side.event, hactive] at h
  obtain ⟨a, hstep, hproceed⟩ := Option.bind_eq_some_iff.mp h
  obtain ⟨hle, hprog⟩ := progress_step hone hat hsize hstep
  have hbufs := hok.bufs
  rw [hactive] at hbufs
  rw [← hcount, ← List.length_append] at hprog
  have := Side.proceed_ok (by simpa using hbufs) hok.results hprog
    (by rw [List.length_append, hread]) hproceed
  refine ⟨⟨hle, this.1⟩, ?_, this.2.2⟩
  rw [this.2.1, Side.total, List.append_assoc]

end Sides

/-! ## Both sides -/

/-- The invariant of the link: both sides, and the bytes sent are the bytes received followed by
those in the pipe. -/
structure Link.Ok (src : ℕ → UInt8) (sends recvs : List (ℕ × ℕ)) (s : Link) : Prop where
  send : s.send.Ok src sends
  recv : s.recv.Ok s.mem recvs
  messages : ∀ r ∈ s.send.results, r.holds = Memory.read src r.buf.1 r.buf.2
  stream : s.send.total = s.recv.total ++ s.pipe
  stores : ∀ st ∈ s.stores, st.1.1 ≤ st.2.1 ∧ st.2.1 + st.2.2 ≤ st.1.1 + st.1.2

section Both

variable {src : ℕ → UInt8} {sends recvs : List (ℕ × ℕ)} {s s' : Link}

theorem Link.messages_append {rs : List Result}
    (h : ∀ r ∈ s.send.results, r.holds = Memory.read src r.buf.1 r.buf.2)
    (hrs : ∀ r ∈ rs, r.holds = Memory.read src r.buf.1 r.buf.2) :
    ∀ r ∈ s.send.results ++ rs, r.holds = Memory.read src r.buf.1 r.buf.2 :=
  fun r hr => (List.mem_append.mp hr).elim (h r) (hrs r)

/-- **One step of the link keeps the invariant.** -/
theorem Link.next_ok {l : LinkStep} (h : s.Ok src sends recvs)
    (hnext : Link.next src s l = some s') : s'.Ok src sends recvs := by
  cases l with
  | callSend errno =>
    obtain ⟨side, hcall, rfl⟩ := Option.map_eq_some_iff.mp hnext
    obtain ⟨hok, htotal, rs, hrs, hholds⟩ := Side.call_ok h.send hcall
    exact ⟨hok, h.recv, hrs ▸ Link.messages_append h.messages hholds, htotal.trans h.stream,
      h.stores⟩
  | sendEvent e =>
    obtain ⟨⟨buf, t⟩, hactive, hmap⟩ := Option.bind_eq_some_iff.mp hnext
    obtain ⟨side, hevent, rfl⟩ := Option.map_eq_some_iff.mp hmap
    obtain ⟨hat, -, hbytes⟩ := h.send.active buf t hactive
    have hread : Memory.read src buf.1 (s.send.bytes.length +
        (Memory.read src t.data e.count).length) =
        s.send.bytes ++ Memory.read src t.data e.count := by
      rw [Memory.length_read, ← Memory.read_append, ← hbytes, hat.data]
    obtain ⟨⟨-, hok⟩, htotal, rs, hrs, hholds⟩ :=
      Side.event_ok (by decide) h.send hactive (Memory.length_read ..) hread hevent
    refine ⟨hok, h.recv, hrs ▸ Link.messages_append h.messages hholds, ?_, h.stores⟩
    exact htotal.trans (by rw [h.stream, List.append_assoc])
  | callRecv errno =>
    obtain ⟨side, hcall, rfl⟩ := Option.map_eq_some_iff.mp hnext
    obtain ⟨hok, htotal, -⟩ := Side.call_ok h.recv hcall
    exact ⟨h.send, hok, h.messages, h.stream.trans (by rw [htotal]), h.stores⟩
  | recvEvent e =>
    obtain ⟨⟨buf, t⟩, hactive, hif⟩ := Option.bind_eq_some_iff.mp hnext
    obtain ⟨hle, hmap⟩ := Option.ite_none_right_eq_some.mp hif
    obtain ⟨side, hevent, rfl⟩ := Option.map_eq_some_iff.mp hmap
    obtain ⟨hat, hsize, hbytes⟩ := h.recv.active buf t hactive
    have hcount : (s.pipe.take e.count).length = e.count := by simpa using hle
    have hread : Memory.read (Memory.write s.mem t.data (s.pipe.take e.count)) buf.1
        (s.recv.bytes.length + (s.pipe.take e.count).length) =
        s.recv.bytes ++ s.pipe.take e.count := by
      rw [hat.data, Memory.read_write_append, ← hbytes]
    obtain ⟨⟨hfits, hok⟩, htotal, -⟩ :=
      Side.event_ok (by decide) h.recv hactive hcount hread hevent
    refine ⟨h.send, hok, h.messages, ?_, fun st hst => ?_⟩
    · rw [htotal, List.append_assoc, List.take_append_drop]
      exact h.stream
    · rcases List.mem_append.mp hst with hst | hst
      · exact h.stores st hst
      · obtain rfl := List.mem_singleton.mp hst
        have h₁ := hat.data
        have h₂ := hat.size
        simp only at hfits ⊢
        omega

theorem Link.ok_of_reachable (h : (link src sends recvs).Reachable Free s) :
    s.Ok src sends recvs := by
  refine System.Reachable.invariant (I := Link.Ok src sends recvs) ?_ ?_ h
  · rintro s ⟨mem, rfl⟩
    exact ⟨.fresh src sends, .fresh mem recvs, by simp [Side.fresh], rfl, by simp⟩
  · intro s l s' _ hok _ hn
    exact Link.next_ok hok hn

/-- The buffers of the calls that returned are the first ones. -/
theorem Side.Ok.take_buf {mem : ℕ → UInt8} {bufs : List (ℕ × ℕ)} {side : Side}
    (h : side.Ok mem bufs) {j : ℕ} (hj : j ≤ side.results.length) :
    (side.results.take j).map Result.buf = bufs.take j := by
  rw [← h.bufs, List.append_assoc, List.take_append_of_le_length (by simpa using hj),
    List.map_take]

/-- The first calls, when they all returned `1`, moved whole buffers. -/
theorem Side.Ok.take_length {mem : ℕ → UInt8} {bufs : List (ℕ × ℕ)} {side : Side}
    (h : side.Ok mem bufs) {j : ℕ} (hj : j ≤ side.results.length)
    (hone : ∀ r ∈ side.results.take j, r.ret = 1) :
    ((side.results.take j).map Result.bytes).map List.length = (bufs.map Prod.snd).take j := by
  rw [← List.map_take, ← h.take_buf hj, List.map_map, List.map_map]
  exact List.map_congr_left fun r hr =>
    (h.results r (List.mem_of_mem_take hr)).one.mp (hone r hr)

theorem Side.take_prefix_total (side : Side) (j : ℕ) :
    ((side.results.take j).map Result.bytes).flatten <+: side.total := by
  refine ⟨((side.results.drop j).map Result.bytes).flatten ++ side.bytes, ?_⟩
  rw [← List.append_assoc, ← List.flatten_append, ← List.map_append, List.take_append_drop,
    Side.total]

/-- **The timed round trip**: when the first `j` calls of `Send` and of `Recv` all returned `1`,
the `j` buffers of the receiver held the `j` messages when `Recv` returned. No byte is ever stored
outside the buffer of the call, and what any `Send` put on the wire is a prefix of its message. -/
theorem timed_round_trip (hsize : recvs.map Prod.snd = sends.map Prod.snd)
    (h : (link src sends recvs).Reachable Free s) :
    (∀ j, j ≤ s.send.results.length → j ≤ s.recv.results.length →
        (∀ r ∈ s.send.results.take j, r.ret = 1) → (∀ r ∈ s.recv.results.take j, r.ret = 1) →
        (s.recv.results.take j).map Result.holds =
          (sends.take j).map fun m => Memory.read src m.1 m.2) ∧
      (∀ st ∈ s.stores, st.1.1 ≤ st.2.1 ∧ st.2.1 + st.2.2 ≤ st.1.1 + st.1.2) ∧
      (∀ r ∈ s.send.results, r.bytes <+: Memory.read src r.buf.1 r.buf.2) ∧
      ∀ buf t, s.send.active = some (buf, t) → s.send.bytes <+: Memory.read src buf.1 buf.2 := by
  have hok := Link.ok_of_reachable h
  refine ⟨fun j hs hr hsent hrecvd => ?_, hok.stores, fun r hr => ?_, fun buf t hactive => ?_⟩
  · -- the same frames are cut from the front of the same stream
    have hframes : (s.send.results.take j).map Result.bytes =
        (s.recv.results.take j).map Result.bytes := by
      refine Memory.eq_of_flatten_prefix ?_ (s.send.take_prefix_total j)
        ((s.recv.take_prefix_total j).trans ⟨s.pipe, hok.stream.symm⟩)
      rw [hok.send.take_length hs hsent, hok.recv.take_length hr hrecvd, hsize]
    calc (s.recv.results.take j).map Result.holds
        = (s.recv.results.take j).map Result.bytes := List.map_congr_left fun r hr =>
          ((hok.recv.results r (List.mem_of_mem_take hr)).bytes_eq (hrecvd r hr)).symm
      _ = (s.send.results.take j).map Result.bytes := hframes.symm
      _ = (s.send.results.take j).map fun r => Memory.read src r.buf.1 r.buf.2 :=
        List.map_congr_left fun r hr => by
          have hmem := List.mem_of_mem_take hr
          rw [(hok.send.results r hmem).bytes_eq (hsent r hr), hok.messages r hmem]
      _ = (sends.take j).map fun m => Memory.read src m.1 m.2 := by
        rw [← hok.send.take_buf hs, List.map_map]
        rfl
  · rw [← hok.messages r hr]
    exact (hok.send.results r hr).moved
  · obtain ⟨hat, -, hbytes⟩ := hok.send.active buf t hactive
    rw [hbytes]
    exact Memory.read_prefix src buf.1 (by have := hat.size; omega)

/-- Messages of two bytes and of three. The last byte of the first and the first byte of the second
are in the pipe together, and the receiver waits in the middle of either. -/
theorem timed_round_trip_messages : ∃ s,
    (link UInt8.ofNat [(7, 2), (20, 3)] [(0, 2), (2, 3)]).Reachable Free s ∧
      s.send.results.length = 2 ∧
      (s.recv.results.take 2).map Result.holds = [[7, 8], [20, 21, 22]] := by
  obtain ⟨s, hrun, hsent, hrecvd, hlen⟩ : ∃ s,
      (link UInt8.ofNat [(7, 2), (20, 3)] [(0, 2), (2, 3)]).exec Free
          ⟨.fresh [(7, 2), (20, 3)], .fresh [(0, 2), (2, 3)], [], fun _ => 0, []⟩
          [.callSend .eagain, .sendEvent (.io (.moves 1)), .callRecv .eagain,
            .recvEvent (.io (.moves 1)), .recvEvent (.io (.fails .eagain)),
            .sendEvent (.io (.moves 1)), .callSend .eagain, .sendEvent (.io (.moves 1)),
            .recvEvent (.poll (.failed .eintr)), .recvEvent (.poll (.ready pollIn .eagain)),
            .recvEvent (.io (.moves 1)), .callRecv .eagain, .recvEvent (.io (.moves 1)),
            .recvEvent (.io (.fails .eagain)), .sendEvent (.io (.fails .eintr)),
            .sendEvent (.io (.moves 2)), .recvEvent (.poll (.ready pollIn .eagain)),
            .recvEvent (.io (.moves 2))] = some s ∧
        s.send.results.map Result.ret = [1, 1] ∧ s.recv.results.map Result.ret = [1, 1] ∧
        s.send.results.length = 2 ∧ s.recv.results.length = 2 :=
    ⟨_, rfl, by decide, by decide, by decide⟩
  have hreach : (link UInt8.ofNat [(7, 2), (20, 3)] [(0, 2), (2, 3)]).Reachable Free s :=
    System.reachable_of_exec ⟨fun _ => 0, rfl⟩ hrun
  have hsize : [((0 : ℕ), 2), (2, 3)].map Prod.snd = [((7 : ℕ), 2), (20, 3)].map Prod.snd := rfl
  have hones : ∀ (rs : List Result), rs.map Result.ret = [1, 1] → ∀ r ∈ rs.take 2, r.ret = 1 :=
    fun rs hrs r hr => by
      have := List.mem_map_of_mem (f := Result.ret) (List.mem_of_mem_take hr)
      simpa [hrs] using this
  exact ⟨s, hreach, hlen.1, (timed_round_trip hsize hreach).1 2 hlen.1.ge hlen.2.ge
    (hones _ hsent) (hones _ hrecvd)⟩

end Both

end Xfnet.Stream
