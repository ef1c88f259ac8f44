import Xfnet.Foundations.Pipe
import Xfnet.Stream.Nonblocking
import Xfnet.Stream.Timed
import Xfnet.Stream.Vectored

/-!
# Any `Send` against any `Recv`

The three overloads of `Stream::Send` at one end of a connection, the three of `Stream::Recv` at the
other: the resumable ones with one buffer, the resumable ones with an array of buffers, and the ones
with a timeout. Each moves the bytes of its buffers once and in order, the first on whole and half
transfers only, and so any two of them fit together (`any_overloads`): the buffers may be cut in one
way here and in another way there.
-/

namespace Xfnet.Stream

open Loops Pipe Transition

/-! ## One buffer, resumable -/

section Plain

variable {least base n : ℕ} {onZero : Option ℤ} {s : Transfer} {o : Syscall}

/-- The resumable transfer of `n` bytes at `base`, on whole and half transfers. -/
def plainMover (least : ℕ) (onZero : Option ℤ) (base n : ℕ) (errno : Errno) : Mover ℤ where
  σ := Transfer
  ε := Syscall
  loop := (transferLoop least onZero).observed id fun s o => decide (o.Halves s.size)
  again := resumes
  start := .fresh base n errno
  moved := Transfer.moved
  described s := List.range' s.data s.size
  touches s o := List.range' s.data o.count

/-- The kernel moves no more than it was asked for. -/
theorem count_le_of_allows (h : (transferLoop least onZero).allows s o = true) :
    o.count ≤ s.size := by
  cases o with
  | moves c => exact (of_decide_eq_true h).2
  | fails e => exact Nat.zero_le _

/-- **One iteration** on a sound cursor. -/
theorem body_of_halves (hz : onZero = none → 1 ≤ least) (hret : ∀ r ∈ onZero, r ≤ 0)
    (h : s.Sound base n) (hs : 0 < s.size) (hfits : o.count < 2 ^ 31) (ho : o.Halves s.size)
    (hallow : (transferLoop least onZero).allows s o = true) :
    ∃ s' : Transfer, s'.Sound base n ∧ s'.moved = s.moved ++ List.range' s.data o.count ∧
      (transferBody onZero s o = .next s' ∨ ∃ r ≤ 0, transferBody onZero s o = .ret r s') := by
  cases o with
  | fails e =>
    refine ⟨s.kernel (.fails e), h.kernel_fails hs e, (List.append_nil _).symm, ?_⟩
    rw [body_fails]
    split_ifs
    · exact .inr ⟨0, le_rfl, rfl⟩
    · exact .inr ⟨-1, by decide, rfl⟩
    · exact .inl rfl
  | moves c =>
    simp only [transferLoop, decide_eq_true_eq] at hallow
    rcases Nat.eq_zero_or_pos c with rfl | hc
    · cases hzero : onZero with
      | none =>
        have := hz hzero
        omega
      | some r =>
        exact ⟨s.kernel (.moves 0), h.kernel_zero hs, rfl, .inr ⟨r, hret r hzero, body_zero rfl⟩⟩
    · exact ⟨(s.kernel (.moves c)).advance c, h.advance hs (ho.resolve_left hc.ne'), rfl,
        .inl (body_moves hc hfits)⟩

theorem lawful_plain (hz : onZero = none → 1 ≤ least) (hret : ∀ r ∈ onZero, r ≤ 0) (hn : n < 2 ^ 31)
    (errno : Errno) : (plainMover least onZero base n errno).Lawful (List.range' base n)
      (Transfer.Sound base n) := by
  have hbody : ∀ (s : Transfer) (o : Syscall), s.Sound base n →
      (plainMover least onZero base n errno).loop.guard s = true →
      (plainMover least onZero base n errno).loop.allows s o = true →
      ∃ s' : Transfer, s'.Sound base n ∧ s'.moved = s.moved ++ List.range' s.data o.count ∧
        (transferBody onZero s o = .next s' ∨ ∃ r ≤ 0, transferBody onZero s o = .ret r s') := by
    intro s o hs hg ha
    have hsize : 0 < s.size := of_decide_eq_true hg
    obtain ⟨hallow, ho⟩ := Bool.and_eq_true_iff.mp ha
    have hlen := hs.length
    have hcount : o.count ≤ s.size := count_le_of_allows hallow
    exact body_of_halves hz hret hs hsize (by omega) (of_decide_eq_true ho) hallow
  refine ⟨⟨fun s hs hg => ⟨hs, fun _ => ?_⟩, fun s o s₁ hs hg ha hb => ?_,
    fun s o r s₁ hs hg ha hb => ?_, fun s o hs hg ha hb => ?_⟩, .fresh base n errno, rfl,
    fun s hs => ?_, fun s o hs hg ha => ?_⟩
  · have hsize : ¬0 < s.size := of_decide_eq_false hg
    have hlen := hs.length
    have hmoved : s.moved.length = n := by omega
    exact hmoved ▸ hs.moved
  · obtain ⟨s', hs', -, hnext | ⟨r, -, hr⟩⟩ := hbody s o hs hg ha
    · obtain rfl := Flow.next.inj (hnext.symm.trans hb)
      exact hs'
    · exact absurd (hr.symm.trans hb) nofun
  · obtain ⟨s', hs', -, hnext | ⟨r', hle, hr⟩⟩ := hbody s o hs hg ha
    · exact absurd (hnext.symm.trans hb) nofun
    · obtain ⟨rfl, rfl⟩ := Flow.ret.inj (hr.symm.trans hb)
      refine ⟨hs', fun hone => ?_⟩
      replace hone : r' = 1 := hone
      omega
  · obtain ⟨s', -, -, hnext | ⟨r, -, hr⟩⟩ := hbody s o hs hg ha
    · exact absurd (hnext.symm.trans hb) nofun
    · exact absurd (hr.symm.trans hb) nofun
  · exact hs.tail
  · obtain ⟨s', -, hmoved, hnext | ⟨r, -, hr⟩⟩ := hbody s o hs hg ha
    · show Mover.Adds _ s o (transferBody onZero s o)
      rw [hnext]
      exact hmoved
    · show Mover.Adds _ s o (transferBody onZero s o)
      rw [hr]
      exact hmoved

end Plain

/-! ## An array of buffers -/

section Vectored

variable {conv : ℤ → ℤ} {onZero : Option ℤ} {possible : ℕ → Bool} {entries after : List Iovec}
  {s : Vectored} {o : Syscall}

/-- The resumable transfer of the buffers `entries`, with the memory `after` behind them. -/
def vectoredMover (conv : ℤ → ℤ) (onZero : Option ℤ) (possible : ℕ → Bool)
    (entries after : List Iovec) (errno : Errno) : Mover ℤ where
  σ := Vectored
  ε := Syscall
  loop := vectoredLoop conv onZero possible
  again := resumes
  start := .fresh entries after errno
  moved := Vectored.moved
  described := Vectored.described
  touches s o := s.described.take o.count

theorem lawful_vectored (hconv : ∀ c : ℕ, c ≤ ssizeMax → possible c = true → conv c = c)
    (hneg : conv (-1) = -1) (hone : onZero ≠ some 1) (hstop : Stops after) (errno : Errno) :
    (vectoredMover conv onZero possible entries after errno).Lawful (positions entries)
      (Rest after (positions entries)) := by
  refine ⟨vectoredLoop_spec hconv hneg hone hstop _, .inl ⟨entries, rfl, rfl, rfl⟩, rfl,
    fun s hs => hs.accounted, fun s o _ _ _ => ?_⟩
  show Mover.Adds _ s o (vectoredBody conv onZero s o)
  cases hb : vectoredBody conv onZero s o with
  | next s' => exact moved_of_vectoredBody (.inl hb)
  | ret r s' => exact moved_of_vectoredBody (.inr ⟨r, hb⟩)
  | abort => trivial

end Vectored

/-! ## One buffer, with a timeout -/

section Timed

variable {least base n : ℕ} {onZero : Option ℤ}

/-- The transfer of `n` bytes at `base` that waits by itself, and is called once. -/
def timedMover (least : ℕ) (onZero : Option ℤ) (base n : ℕ) (errno : Errno) : Mover ℤ where
  σ := Timed
  ε := TimedEvent
  loop := timedLoop least onZero
  again := fun _ => false
  start := .fresh base n errno
  moved s := List.range' base (s.data - base)
  described s := List.range' s.data s.size
  touches s e := List.range' s.data e.count

theorem range'_of_at {s : Timed} {k : ℕ} (h : s.At base n k) :
    List.range' base (s.data - base) = List.range' base k := by
  rw [h.data, Nat.add_sub_cancel_left]

/-- The cursor an iteration leaves, after `k` bytes. -/
def Reaches (base n k : ℕ) : Flow Timed ℤ → Prop
  | .next s => s.At base n k
  | .ret r s => s.At base n k ∧ (r = 1 ↔ k = n)
  | .abort => False

theorem reaches_of_progress {f : Flow Timed ℤ} {k : ℕ}
    (h : Progress base n k ((timedLoop least onZero).settle f)) : Reaches base n k f := by
  cases f with
  | next s =>
    have h' : Progress base n k ((timedLoop least onZero).enter s) := h
    cases hg : (timedLoop least onZero).guard s with
    | true =>
      rw [Loop.enter_of_guard hg] at h'
      exact h'.1
    | false =>
      rw [Loop.enter_of_not_guard hg] at h'
      exact h'.1
  | ret r s => exact h
  | abort => exact h

theorem lawful_timed (hone : onZero ≠ some 1) (errno : Errno) :
    (timedMover least onZero base n errno).Lawful (List.range' base n)
      fun s => ∃ k, s.At base n k := by
  have hbody : ∀ (s : Timed) (e : TimedEvent) (k : ℕ), s.At base n k →
      (timedLoop least onZero).guard s = true → (timedLoop least onZero).allows s e = true →
      Reaches base n (k + e.count) (timedBody onZero s e) := by
    intro s e k hs hg ha
    have hstep : (timedLoop least onZero).step (.running s) e =
        some ((timedLoop least onZero).settle (timedBody onZero s e)) := if_pos ha
    exact reaches_of_progress (progress_step hone hs (of_decide_eq_true hg) hstep).2
  refine ⟨⟨fun s hs hg => ⟨hs, fun _ => ?_⟩, fun s e s₁ hs hg ha hb => ?_,
    fun s e r s₁ hs hg ha hb => ?_, fun s e hs hg ha hb => ?_⟩, ⟨0, rfl, rfl⟩, ?_,
    fun s hs => ?_, fun s e hs hg ha => ?_⟩
  · obtain ⟨k, hk⟩ := hs
    have hsize : ¬0 < s.size := of_decide_eq_false hg
    have hlen := hk.size
    show List.range' base (s.data - base) = _
    rw [range'_of_at hk, show k = n by omega]
  · obtain ⟨k, hk⟩ := hs
    have hmoved := hbody s e k hk hg ha
    rw [show timedBody onZero s e = .next s₁ from hb] at hmoved
    exact ⟨_, hmoved⟩
  · obtain ⟨k, hk⟩ := hs
    have hmoved := hbody s e k hk hg ha
    rw [show timedBody onZero s e = .ret r s₁ from hb] at hmoved
    refine ⟨⟨_, hmoved.1⟩, fun hr => ?_⟩
    show List.range' base (s₁.data - base) = _
    rw [range'_of_at hmoved.1, hmoved.2.mp hr]
  · obtain ⟨k, hk⟩ := hs
    have hmoved := hbody s e k hk hg ha
    rw [show timedBody onZero s e = .abort from hb] at hmoved
    exact hmoved
  · show List.range' base (base - base) = []
    rw [Nat.sub_self, List.range'_zero]
  · obtain ⟨k, hk⟩ := hs
    have hlen := hk.size
    show List.range' base (s.data - base) ++ List.range' s.data s.size = _
    rw [range'_of_at hk, hk.data, List.range'_append_1, show k + s.size = n by omega]
  · obtain ⟨k, hk⟩ := hs
    have hmoved := hbody s e k hk hg ha
    have hadd : List.range' base (k + e.count) =
        List.range' base (s.data - base) ++ List.range' s.data e.count := by
      rw [range'_of_at hk, ← List.range'_append_1, hk.data]
    show Mover.Adds _ s e (timedBody onZero s e)
    cases hb : timedBody onZero s e with
    | next s' =>
      rw [hb] at hmoved
      exact (range'_of_at hmoved).trans hadd
    | ret r s' =>
      rw [hb] at hmoved
      exact (range'_of_at hmoved.1).trans hadd
    | abort => trivial

end Timed

/-! ## Any two of them -/

/-- One of the three overloads, with the buffers it is called on; behind an array of buffers comes
other memory. -/
inductive Overload
  | plain (base n : ℕ)
  | vectored (entries after : List Iovec)
  | timed (base n : ℕ)

namespace Overload

/-- The bytes of the buffers, by address. -/
def addresses : Overload → List ℕ
  | .plain base n => List.range' base n
  | .vectored entries _ => positions entries
  | .timed base n => List.range' base n

/-- The size of the buffer fits an `int`; `UpdateIov` stops behind the array. -/
def Ok : Overload → Prop
  | .plain _ n => n < 2 ^ 31
  | .vectored _ after => Stops after
  | .timed _ _ => True

/-- The overload of `Send`. -/
def sender (errno : Errno) : Overload → Mover ℤ
  | .plain base n => plainMover 1 none base n errno
  | .vectored entries after => vectoredMover id none (fun _ => true) entries after errno
  | .timed base n => timedMover 1 none base n errno

/-- The overload of `Recv`, when one `readv` moves at most `limit` bytes. -/
def receiver (limit : ℕ) (errno : Errno) : Overload → Mover ℤ
  | .plain base n => plainMover 0 (some (-2)) base n errno
  | .vectored entries after =>
    vectoredMover toInt32 (some (-2)) (fun c => decide (c ≤ limit)) entries after errno
  | .timed base n => timedMover 0 (some (-2)) base n errno

variable {o : Overload} {limit : ℕ}

theorem lawful_sender (ho : o.Ok) (errno : Errno) :
    ∃ I : (o.sender errno).σ → Prop, (o.sender errno).Lawful o.addresses I := by
  cases o with
  | plain base n => exact ⟨_, lawful_plain (fun _ => le_rfl) (by simp) ho errno⟩
  | vectored entries after =>
    exact ⟨_, lawful_vectored (fun _ _ _ => rfl) rfl (by decide) ho errno⟩
  | timed base n => exact ⟨_, lawful_timed (by decide) errno⟩

theorem lawful_receiver (ho : o.Ok) (hlimit : limit < 2 ^ 31) (errno : Errno) :
    ∃ I : (o.receiver limit errno).σ → Prop, (o.receiver limit errno).Lawful o.addresses I := by
  cases o with
  | plain base n => exact ⟨_, lawful_plain (by decide) (by simp) ho errno⟩
  | vectored entries after =>
    refine ⟨_, lawful_vectored (fun c _ hc => toInt32_of_lt ?_) toInt32_neg_one (by decide) ho
      errno⟩
    exact (of_decide_eq_true hc).trans_lt hlimit
  | timed base n => exact ⟨_, lawful_timed (by decide) errno⟩

theorem sender_done (o : Overload) (errno : Errno) : (o.sender errno).loop.done = 1 := by
  cases o <;> rfl

theorem receiver_done (o : Overload) (limit : ℕ) (errno : Errno) :
    (o.receiver limit errno).loop.done = 1 := by
  cases o <;> rfl

end Overload

/-- What holds between a sender of the bytes at `xs` and a receiver of those at `ys`. -/
structure Fits {A B : Mover ℤ} (xs ys : List ℕ) (src mem : ℕ → UInt8)
    (s : Pipe.State A B UInt8) : Prop where
  /-- No loop runs away behind its buffers. -/
  safe : s.sender ≠ .aborted ∧ s.receiver ≠ .aborted
  /-- Both go through their buffers once and in order, and their cursors describe exactly the bytes
  that have not been moved yet. -/
  sent : A.movedBy s.sender ++ A.describedBy s.sender = xs
  received : B.movedBy s.receiver ++ B.describedBy s.receiver = ys
  /-- The bytes received, followed by those on their way, are the bytes sent. -/
  bytes : (B.movedBy s.receiver).map s.mem ++ s.queue = (A.movedBy s.sender).map src
  /-- Nothing is stored elsewhere. -/
  others : ∀ x, x ∉ B.movedBy s.receiver → s.mem x = mem x
  /-- An end that returned `1` has moved everything. -/
  sentAll : s.sender.result = some 1 → A.movedBy s.sender = xs
  receivedAll : s.receiver.result = some 1 → B.movedBy s.receiver = ys
  /-- The buffers of a receiver that returned `1` hold the first bytes of the sender's. -/
  full : s.receiver.result = some 1 → ys.map s.mem <+: xs.map src

/-- **Any `Send` fits any `Recv`**: whichever overloads the two ends use, wherever their buffers are
cut, and however the kernel cuts the stream and the calls interleave, as long as no byte of the
receiver's buffers is in two of them. -/
theorem any_overloads {o o' : Overload} (ho : o.Ok) (ho' : o'.Ok) (hnodup : o'.addresses.Nodup)
    {limit : ℕ} (hlimit : limit < 2 ^ 31) (errno errno' : Errno) (src mem : ℕ → UInt8)
    {s : Pipe.State (o.sender errno) (o'.receiver limit errno') UInt8}
    (h : (pipe (o.sender errno) (o'.receiver limit errno') src mem).Reachable Free s) :
    Fits o.addresses o'.addresses src mem s := by
  obtain ⟨I, hA⟩ := Overload.lawful_sender ho errno
  obtain ⟨J, hB⟩ := Overload.lawful_receiver ho' hlimit errno'
  have hok := ok_of_reachable hA hB hnodup h
  have hsent := hA.movedBy_done hok.sender
  have hreceived := hB.movedBy_done hok.receiver
  have hfull := hok.prefix_of_done hA hB
  rw [Overload.sender_done] at hsent
  rw [Overload.receiver_done] at hreceived hfull
  exact ⟨⟨hA.not_aborted hok.sender, hB.not_aborted hok.receiver⟩, hA.movedBy_append hok.sender,
    hB.movedBy_append hok.receiver, hok.bytes, hok.others, hsent, hreceived, hfull⟩

/-- Two buffers, of three bytes and of two, into one buffer of five: the sender is stopped after
four bytes, and the receiver waits once. -/
theorem any_overloads_two_into_one :
    ∃ s, (pipe (Overload.sender (.other 0) (.vectored [⟨0, 3⟩, ⟨8, 2⟩] [⟨32, 1⟩]))
        (Overload.receiver maxRwCount (.other 0) (.timed 100 5)) UInt8.ofNat fun _ => 0).Reachable
          Free s ∧ [100, 101, 102, 103, 104].map s.mem = [0, 1, 2, 8, 9] := by
  have hexec : ((pipe (Overload.sender (.other 0) (.vectored [⟨0, 3⟩, ⟨8, 2⟩] [⟨32, 1⟩]))
      (Overload.receiver maxRwCount (.other 0) (.timed 100 5)) UInt8.ofNat fun _ => 0).exec Free
      (.fresh _ _ fun _ => 0)
      [.send (some (.moves 4)), .recv (some (.io (.moves 4))), .recv (some (.io (.fails .eagain))),
        .send (some (.fails .eagain)), .send none, .send (some (.moves 1)),
        .recv (some (.poll (.ready pollIn .eagain))), .recv (some (.io (.moves 1)))]).any
        (fun s => s.receiver.result == some 1) = true := by
    decide +kernel
  obtain ⟨s, hrun, hone⟩ := (Option.any_eq_true _ _).mp hexec
  have hreach := System.reachable_of_exec rfl hrun
  have hstop : Stops [⟨32, 1⟩] := by decide +kernel
  have hok : (Overload.vectored [⟨0, 3⟩, ⟨8, 2⟩] [⟨32, 1⟩]).Ok := hstop
  have hok' : (Overload.timed 100 5).Ok := trivial
  have hfits := any_overloads hok hok' (by decide) (by decide) _ _ _ _ hreach
  exact ⟨s, hreach, (hfits.full (eq_of_beq hone)).eq_of_length rfl⟩

end Xfnet.Stream
