import Xfnet.Stream.Cursor

/-!
# Non-blocking `Stream::Send` and `Stream::Recv`

The two resumable transfers, `send` around `write` and `recv` around `read`. What a caller expects
of a return is `SendKept` and `RecvKept`. Both functions advance the pointer by what is left
instead of by what was transferred, so the expectation is met exactly on the scripts of whole and
half transfers (`send_kept_iff`, `recv_kept_iff`).
-/

namespace Xfnet.Stream

open Loops

variable {base n : ℕ} {errno : Errno} {scripts : List (List Syscall)} {rs : List (ℤ × Transfer)}

/-- `int Stream::Send(void*& data, ssize_t& size)`: a result of zero counts as a transfer. -/
def send : Loop Transfer Syscall ℤ := transferLoop 1 none

/-- `int Stream::Recv(void*& data, ssize_t& size)`: a result of zero is the end of the stream. -/
def recv : Loop Transfer Syscall ℤ := transferLoop 0 (some (-2))

/-! ## Sending -/

/-- The bytes the kernel has accepted. -/
def wire (mem : ℕ → UInt8) (s : Transfer) : List UInt8 := s.moved.map mem

/-- What a return of `Send` with result `r` promises about the message of `n` bytes at `base`. -/
structure SendKept (mem : ℕ → UInt8) (base n : ℕ) (r : ℤ) (s : Transfer) : Prop where
  /-- The accepted bytes, followed by the ones the cursor designates, are the message. -/
  suffix : wire mem s ++ Memory.read mem s.data s.size = Memory.read mem base n
  /-- The result is `1` exactly when the message has been accepted. -/
  done : r = 1 ↔ wire mem s = Memory.read mem base n
  /-- No write starts or ends outside the message. -/
  inside : ∀ q ∈ s.asked, base ≤ q.1 ∧ q.1 + q.2 ≤ base + n

theorem sendKept_of_sound {mem : ℕ → UInt8} {r : ℤ} {s : Transfer} (h : s.Sound base n)
    (hr : r = 1 ↔ s.size = 0) : SendKept mem base n r s := by
  have hsuffix : wire mem s ++ Memory.read mem s.data s.size = Memory.read mem base n := by
    rw [wire, Memory.read, Memory.read, ← h.tail, ← List.map_append, Transfer.tail]
  refine ⟨hsuffix, hr.trans ⟨fun hs => ?_, fun hw => ?_⟩, h.asked⟩
  · simpa [hs] using hsuffix
  · have hlen := congrArg List.length hsuffix
    rw [hw, List.length_append, Memory.length_read] at hlen
    simpa using hlen

/-- **`Send` on every script**: the calls keep their promise for every message of `n` bytes exactly
when every count the kernel accepts is all of the request or half of it, and fits an `int`. -/
theorem send_kept_iff (h : send.calls resumes (.fresh base n errno) scripts = some rs) :
    (∀ mem : ℕ → UInt8, ∀ p ∈ rs, SendKept mem base n p.1 p.2) ↔
      WholeOrHalf n scripts.flatten := by
  obtain ⟨hiff, hsound⟩ := calls_sound_iff (fun _ => le_rfl) (.fresh base n errno) h
  have hone := calls_one_iff (by decide) h
  refine Iff.trans ⟨fun hk p hp => ?_, fun ht mem p hp => ?_⟩ hiff
  · have : Nontrivial UInt8 := ⟨0, 1, by decide⟩
    refine Memory.eq_of_forall_map_eq fun mem : ℕ → UInt8 => ?_
    rw [Transfer.tail, List.map_append]
    exact (hk mem p hp).suffix
  · exact sendKept_of_sound (hsound ht p hp) (hone p hp)

/-- Half of four bytes, would block, and after the resumption half of the rest and the rest. -/
theorem send_kept_halves : ∃ rs, send.calls resumes (.fresh 0 4 (.other 0))
      [[.moves 2, .fails .eagain], [.moves 1, .fails .eintr, .moves 1]] = some rs ∧
    ∀ mem : ℕ → UInt8, ∀ p ∈ rs, SendKept mem 0 4 p.1 p.2 := by
  have hcalls : send.calls resumes (.fresh 0 4 (.other 0))
      [[.moves 2, .fails .eagain], [.moves 1, .fails .eintr, .moves 1]] =
      some [(0, ⟨2, 2, .eagain, [0, 1], [(0, 4), (2, 2)]⟩),
        (1, ⟨3, 0, .eintr, [0, 1, 2, 3], [(0, 4), (2, 2), (2, 2), (3, 1), (3, 1)]⟩)] := by
    decide +kernel
  exact ⟨_, hcalls, (send_kept_iff hcalls).mpr (by decide)⟩

/-- Three of four bytes, then one: the second byte is sent again in place of the fourth. -/
theorem send_repeats_a_byte :
    send.calls resumes (.fresh 0 4 (.other 0)) [[.moves 3, .moves 1]] =
        some [(1, ⟨1, 0, .other 0, [0, 1, 2, 1], [(0, 4), (1, 1)]⟩)] ∧
      ¬SendKept UInt8.ofNat 0 4 1 ⟨1, 0, .other 0, [0, 1, 2, 1], [(0, 4), (1, 1)]⟩ :=
  ⟨by decide +kernel, fun h => absurd h.suffix (by decide)⟩

/-! ## Receiving -/

/-- What a return of `Recv` with result `r` promises about the buffer of `n` bytes at `base`. The
addresses in `moved` are those the bytes of the stream were stored at, in order. -/
structure RecvKept (base n : ℕ) (r : ℤ) (s : Transfer) : Prop where
  /-- The byte delivered as number `i` is stored at offset `i`. -/
  stored : ∀ (i : ℕ) (hi : i < s.moved.length), s.moved[i] = base + i
  /-- Nothing is stored outside the buffer. -/
  inside : ∀ a ∈ s.moved, base ≤ a ∧ a < base + n
  /-- The cursor designates the part of the buffer not yet filled. -/
  unfilled : List.range' s.data s.size =
    List.range' (base + s.moved.length) (n - s.moved.length)
  /-- A result of `1` means that the buffer is full. -/
  full : r = 1 → s.moved.length = n

theorem recvKept_of_sound {r : ℤ} {s : Transfer} (h : s.Sound base n)
    (hr : r = 1 ↔ s.size = 0) : RecvKept base n r s := by
  have hlen := h.length
  have hmem : ∀ a ∈ s.moved, base ≤ a ∧ a < base + n := by
    intro a ha
    have : a ∈ s.tail := List.mem_append_left _ ha
    rw [h.tail, List.mem_range'_1] at this
    exact this
  refine ⟨fun i hi => ?_, hmem, ?_, fun hr₁ => ?_⟩
  · have := List.getElem_of_eq h.moved hi
    simpa using this
  · have hright := h.tail
    rw [Transfer.tail, h.moved, ← hlen, ← List.range'_append_1, List.append_cancel_left_eq]
      at hright
    simpa [← hlen] using hright
  · have := hr.mp hr₁
    omega

theorem tail_of_recvKept {r : ℤ} {s : Transfer} (h : RecvKept base n r s) :
    s.tail = List.range' base n := by
  have hle : s.moved.length ≤ n := by
    by_contra hlt
    have hn : n < s.moved.length := by omega
    have := h.inside _ (List.getElem_mem hn)
    rw [h.stored n hn] at this
    omega
  have hmoved : s.moved = List.range' base s.moved.length :=
    List.ext_getElem (by simp) fun i hi _ => by simpa using h.stored i hi
  calc s.tail = List.range' base s.moved.length ++
        List.range' (base + s.moved.length) (n - s.moved.length) := by
        rw [Transfer.tail, h.unfilled, ← hmoved]
    _ = List.range' base n := by rw [List.range'_append_1, Nat.add_sub_cancel' hle]

/-- **`Recv` on every script**: the calls keep their promise exactly when every count the kernel
delivers is nothing, all of the request or half of it, and fits an `int`. -/
theorem recv_kept_iff (h : recv.calls resumes (.fresh base n errno) scripts = some rs) :
    (∀ p ∈ rs, RecvKept base n p.1 p.2) ↔ WholeOrHalf n scripts.flatten := by
  obtain ⟨hiff, hsound⟩ := calls_sound_iff (by simp) (.fresh base n errno) h
  have hone := calls_one_iff (by decide) h
  refine Iff.trans ⟨fun hk p hp => tail_of_recvKept (hk p hp), fun ht p hp => ?_⟩ hiff
  exact recvKept_of_sound (hsound ht p hp) (hone p hp)

/-- Half of four bytes, would block, and after the resumption all of the rest. -/
theorem recv_kept_halves : ∃ rs, recv.calls resumes (.fresh 8 4 (.other 0))
      [[.moves 2, .fails .eagain], [.fails .eintr, .moves 2]] = some rs ∧
    ∀ p ∈ rs, RecvKept 8 4 p.1 p.2 := by
  have hcalls : recv.calls resumes (.fresh 8 4 (.other 0))
      [[.moves 2, .fails .eagain], [.fails .eintr, .moves 2]] =
      some [(0, ⟨10, 2, .eagain, [8, 9], [(8, 4), (10, 2)]⟩),
        (1, ⟨10, 0, .eintr, [8, 9, 10, 11], [(8, 4), (10, 2), (10, 2), (10, 2)]⟩)] := by
    decide +kernel
  exact ⟨_, hcalls, (recv_kept_iff hcalls).mpr (by decide)⟩

/-- One of four bytes, then three: the last two are stored behind the buffer. -/
theorem recv_stores_outside :
    recv.calls resumes (.fresh 8 4 (.other 0)) [[.moves 1, .moves 3]] =
        some [(1, ⟨11, 0, .other 0, [8, 11, 12, 13], [(8, 4), (11, 3)]⟩)] ∧
      ¬RecvKept 8 4 1 ⟨11, 0, .other 0, [8, 11, 12, 13], [(8, 4), (11, 3)]⟩ :=
  ⟨by decide +kernel, fun h => absurd (h.inside 12 (by decide)) (by decide)⟩

end Xfnet.Stream
