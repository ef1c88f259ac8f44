import Xfnet.Stream.Nonblocking
import Xfnet.Stream.Timed
import Xfnet.Stream.Vectored

/-!
# When `Stream::Recv` reports a closed peer

A `read` that returns zero means the end of the stream, unless it was asked for nothing. The two
overloads with a size never ask for nothing, but an array can hold no byte at all. And the result
goes through an `int` in the two overloads without a timeout, which turns `2 ^ 32` bytes into zero.
So a `-2` can be told from one request to another (`peer_closed_iff`).
-/

namespace Xfnet.Stream

open Loops SocketUtil

/-- What the kernel answers: one system call moves at most `limit` bytes, and it moves none only at
the end of the stream, which the second component tells, or for a request of no bytes. -/
def reads (limit request : ℕ) (eof : Bool) : Syscall → Bool
  | .moves c => decide (c ≤ limit) && (c != 0 || eof || request == 0)
  | .fails _ => true

/-- `Recv(void*&, ssize_t&)` in the hands of such a kernel. -/
def recvFrom (limit : ℕ) : Loop Transfer (Syscall × Bool) ℤ :=
  recv.observed Prod.fst fun s e => reads limit s.size e.2 e.1

/-- `Recv(iovec_t*&, int&)`. -/
def recvvFrom (limit : ℕ) : Loop Vectored (Syscall × Bool) ℤ :=
  (recvv limit).observed Prod.fst fun s e => reads limit s.described.length e.2 e.1

/-- `Recv(void*, size_t, uint32_t)`. -/
def recvTimedFrom (limit : ℕ) : Loop Timed (TimedEvent × Bool) ℤ :=
  recvTimed.observed Prod.fst fun s e =>
    match e.1 with
    | .io o => reads limit s.size e.2 o
    | .poll _ => true

/-- Every call on the request returns `-2` only when the peer's end of stream was reached or a reset
reported. -/
def PeerClosed {σ ε : Type*} (L : Loop σ (ε × Bool) ℤ) (resets : ε → Bool) (s : σ) : Prop :=
  ∀ es s', L.call s es = some (.returned (-2) s') → ∃ e ∈ es, e.2 = true ∨ resets e.1 = true

/-! ## The conversion to `int` -/

theorem eq_zero_of_toInt32 {c : ℕ} (h : toInt32 c = 0) (hlt : c < 2 ^ 32) : c = 0 := by
  rw [toInt32, Int.bmod_def] at h
  split at h <;> omega

theorem toInt32_wrap : toInt32 (2 ^ 32 : ℕ) = 0 := by
  rw [toInt32]
  decide

/-- At the end of the stream, if something was asked for. -/
theorem eof_of_reads {limit request : ℕ} {eof : Bool}
    (h : reads limit request eof (.moves 0) = true) (hrequest : 0 < request) : eof = true := by
  have hne : request ≠ 0 := hrequest.ne'
  simpa [reads, hne] using h

/-! ## One buffer -/

section Buffer

variable {limit base n : ℕ} {errno : Errno}

theorem zero_of_transferBody {s s' : Transfer} {o : Syscall}
    (h : transferBody (some (-2)) s o = .ret (-2) s') : toInt32 o.ret = 0 := by
  unfold transferBody at h
  dsimp only at h
  split at h
  · cases h
  · split at h
    · assumption
    · split at h
      · simp at h
      · split at h <;> simp at h

theorem transferBody_of_zero {s : Transfer} {c : ℕ} (h : toInt32 c = 0) :
    transferBody (some (-2)) s (.moves c) = .ret (-2) (s.kernel (.moves c)) := by
  simp only [transferBody, Syscall.ret, h]
  rfl

/-- A short request, or a kernel that moves little at once. -/
theorem peerClosed_recv (h : limit < 2 ^ 32 ∨ n < 2 ^ 32) :
    PeerClosed (recvFrom limit) (fun _ => false) (.fresh base n errno) := by
  intro es s' hcall
  have hI : ∀ s e t, s.size ≤ n → (recvFrom limit).guard s = true →
      (recvFrom limit).allows s e = true → (recvFrom limit).body s e = .next t → t.size ≤ n := by
    intro s e t hs _ _ hb
    change transferBody (some (-2)) s e.1 = _ at hb
    obtain ⟨r, hr, -⟩ | hr | ⟨w, -, -, hr⟩ := body_cases (some (-2)) s e.1 <;>
      rw [hr] at hb <;> cases hb
    · rwa [Transfer.kernel_size]
    · simp only [Transfer.advance, Transfer.kernel_size]
      omega
  rcases Loop.returned_of_feed hI (le_refl n) hcall with
    ⟨hdone, -⟩ | ⟨es', ⟨o, eof⟩, s, rfl, hs, hg, hallow, hb, -⟩
  · simp [recvFrom, Loop.observed, recv, transferLoop] at hdone
  · have hzero := zero_of_transferBody hb
    have hsize : 0 < s.size := of_decide_eq_true hg
    obtain ⟨hle, hreads⟩ := Bool.and_eq_true_iff.mp hallow
    refine ⟨(o, eof), by simp, .inl ?_⟩
    cases o with
    | fails e => simp [Syscall.ret] at hzero
    | moves c =>
      have hc : 0 ≤ c ∧ c ≤ s.size := of_decide_eq_true hle
      have hlimit : c ≤ limit := of_decide_eq_true (Bool.and_eq_true_iff.mp hreads).1
      obtain rfl : c = 0 := eq_zero_of_toInt32 hzero (by omega)
      exact eof_of_reads hreads hsize

/-- `2 ^ 32` bytes are none as an `int`. -/
theorem not_peerClosed_recv (hlimit : 2 ^ 32 ≤ limit) (hn : 2 ^ 32 ≤ n) :
    ¬PeerClosed (recvFrom limit) (fun _ => false) (.fresh base n errno) := by
  intro h
  have hcall : (recvFrom limit).call (.fresh base n errno) [(.moves (2 ^ 32), false)] =
      some (.returned (-2) ((Transfer.fresh base n errno).kernel (.moves (2 ^ 32)))) := by
    have hg : 0 < n := by omega
    refine Loop.call_of_ret (decide_eq_true hg) ?_ (transferBody_of_zero toInt32_wrap)
    simp [recvFrom, Loop.observed, recv, transferLoop, reads, Transfer.fresh]
    omega
  obtain ⟨e, he, htold⟩ := h _ _ hcall
  obtain rfl := List.mem_singleton.mp he
  simp at htold

end Buffer

/-! ## An array of buffers -/

section Array

variable {limit m : ℕ} {entries after : List Iovec} {errno : Errno}

/-- While there is something to receive, the array asks for a byte at least, and for `m` bytes at
most; for exactly these if they are too many for the kernel. -/
def Asks (after : List Iovec) (m : ℕ) (s : Vectored) : Prop :=
  (∃ cur, s.iov = cur ++ after ∧ s.iovcnt = cur.length ∧ 0 < (positions cur).length ∧
      (positions cur).length ≤ m ∧ (ssizeMax < m → (positions cur).length = m)) ∨
    s.iovcnt ≤ 0

theorem Asks.described {s : Vectored} (h : Asks after m s) (hcnt : 0 < s.iovcnt) :
    0 < s.described.length ∧ s.described.length ≤ m ∧
      (ssizeMax < m → s.described.length = m) := by
  rcases h with ⟨cur, hiov, hcur, hlen⟩ | hle
  · rwa [Vectored.described, hiov, hcur, Int.toNat_natCast, List.take_left' rfl]
  · omega

theorem zero_of_vectoredBody {s s' : Vectored} {o : Syscall}
    (h : vectoredBody toInt32 (some (-2)) s o = .ret (-2) s') : toInt32 o.ret = 0 := by
  cases o with
  | fails e =>
    rw [vectoredBody_fails toInt32_neg_one] at h
    split_ifs at h <;> simp at h
  | moves c =>
    unfold vectoredBody at h
    dsimp only [Syscall.ret] at h ⊢
    split at h
    · split at h <;> cases h
    · split at h
      · assumption
      · split at h
        · simp at h
        · split at h <;> simp at h

theorem vectoredBody_of_zero {s : Vectored} {c : ℕ} (h : toInt32 c = 0) :
    vectoredBody toInt32 (some (-2)) s (.moves c) =
      .ret (-2) { s with moved := s.moved ++ s.described.take c } := by
  simp only [vectoredBody, Syscall.ret, h]
  rfl

/-- A transfer leaves an array that asks for a byte, or none. -/
theorem Asks.update {s : Vectored} (h : Asks after m s) (hcnt : 0 < s.iovcnt) {size : ℕ}
    (hsize : size ≤ s.described.length) (hmax : s.described.length ≤ ssizeMax) {iov : List Iovec}
    {iovcnt : ℤ} (hrun : updateIov s.iov s.iovcnt size = some (iov, iovcnt)) (errno : Errno)
    (moved : List ℕ) : Asks after m ⟨iov, iovcnt, errno, moved⟩ := by
  have hm : ¬ssizeMax < m := by
    intro hlt
    have := (h.described hcnt).2.2 hlt
    omega
  rcases h with ⟨cur, hiov, hcur, -, hle, -⟩ | hle
  · have hdesc : s.described = positions cur := by
      rw [Vectored.described, hiov, hcur, Int.toNat_natCast, List.take_left' rfl]
    rw [hdesc] at hsize hmax
    rw [hiov, hcur] at hrun
    rcases updateIov_append after hsize hmax with ⟨cur', hlt, hrun', hpos⟩ | ⟨-, hrun'⟩
    · cases hrun'.symm.trans hrun
      have hlen := congrArg List.length hpos
      rw [List.length_drop] at hlen
      exact .inl ⟨cur', rfl, rfl, by omega, by omega, fun hlt => absurd hlt hm⟩
    · exact .inr (updateIov_le (hrun'.symm.trans hrun))
  · omega

theorem asks_next {s s' : Vectored} {e : Syscall × Bool} (h : Asks after m s)
    (hg : (recvvFrom limit).guard s = true) (hallow : (recvvFrom limit).allows s e = true)
    (hb : (recvvFrom limit).body s e = .next s') : Asks after m s' := by
  have hcnt : 0 < s.iovcnt := of_decide_eq_true hg
  obtain ⟨o, eof⟩ := e
  change vectoredBody toInt32 (some (-2)) s o = .next s' at hb
  cases o with
  | fails e =>
    rw [vectoredBody_fails toInt32_neg_one] at hb
    split_ifs at hb
    cases hb
    exact h
  | moves c =>
    have hkernel := (Bool.and_eq_true_iff.mp (Bool.and_eq_true_iff.mp hallow).1).1
    obtain ⟨hc, hmax⟩ : c ≤ s.described.length ∧ s.described.length ≤ ssizeMax :=
      of_decide_eq_true hkernel
    unfold vectoredBody at hb
    dsimp only [Syscall.ret] at hb
    split at hb
    · next hpos =>
      split at hb
      · next iov iovcnt hrun =>
        cases hb
        have hnonneg : 0 ≤ toInt32 c := by simp at hpos; omega
        have hle := toInt32_le c
        rw [← Int.toNat_of_nonneg hnonneg] at hrun
        exact h.update hcnt (by omega) hmax hrun s.errno _
      · cases hb
    · -- a count that is no positive `int` leaves the array alone
      split_ifs at hb
      cases hb
      exact h

/-- An array with a byte or without entries, short enough for the kernel or the `int`. -/
theorem peerClosed_recvv (hpos : entries = [] ∨ 0 < (positions entries).length)
    (h : limit < 2 ^ 32 ∨ (positions entries).length < 2 ^ 32 ∨
      ssizeMax < (positions entries).length) :
    PeerClosed (recvvFrom limit) (fun _ => false) (.fresh entries after errno) := by
  intro es s' hcall
  have hfresh : Asks after (positions entries).length (.fresh entries after errno) := by
    rcases hpos with rfl | hpos
    · exact .inr le_rfl
    · exact .inl ⟨entries, rfl, rfl, hpos, le_rfl, fun _ => rfl⟩
  rcases Loop.returned_of_feed (fun _ _ _ => asks_next) hfresh hcall with
    ⟨hdone, -⟩ | ⟨es', ⟨o, eof⟩, s, rfl, hs, hg, hallow, hb, -⟩
  · simp [recvvFrom, Loop.observed, recvv, vectoredLoop] at hdone
  · have hzero := zero_of_vectoredBody hb
    obtain ⟨hask, hle, hlong⟩ := hs.described (of_decide_eq_true hg)
    obtain ⟨hkernel, hreads⟩ := Bool.and_eq_true_iff.mp hallow
    refine ⟨(o, eof), by simp, .inl ?_⟩
    cases o with
    | fails e => simp [Syscall.ret] at hzero
    | moves c =>
      obtain ⟨hc, hmax⟩ : c ≤ s.described.length ∧ s.described.length ≤ ssizeMax :=
        of_decide_eq_true (Bool.and_eq_true_iff.mp hkernel).1
      have hlimit : c ≤ limit := of_decide_eq_true (Bool.and_eq_true_iff.mp hreads).1
      obtain rfl : c = 0 := eq_zero_of_toInt32 hzero (by omega)
      exact eof_of_reads hreads hask

/-- Entries without a byte, or `2 ^ 32` bytes at once. -/
theorem not_peerClosed_recvv {c : ℕ} (hne : entries ≠ []) (hc : c ≤ (positions entries).length)
    (hmax : (positions entries).length ≤ ssizeMax) (hlimit : c ≤ limit) (hzero : toInt32 c = 0)
    (hreads : c ≠ 0 ∨ positions entries = []) :
    ¬PeerClosed (recvvFrom limit) (fun _ => false) (.fresh entries after errno) := by
  intro h
  have hdesc : (Vectored.fresh entries after errno).described = positions entries := by
    simp only [Vectored.described, Vectored.fresh, Int.toNat_natCast]
    rw [List.take_left' rfl]
  have hcall := Loop.call_of_ret (L := recvvFrom limit) (s := .fresh entries after errno)
    (e := (.moves c, false)) ?_ ?_ (vectoredBody_of_zero hzero)
  · obtain ⟨e, he, htold⟩ := h _ _ hcall
    obtain rfl := List.mem_singleton.mp he
    simp at htold
  · have hpos := List.length_pos_iff.mpr hne
    exact decide_eq_true (by simpa [Vectored.fresh] using hpos)
  · simp only [recvvFrom, Loop.observed, recvv, vectoredLoop, reads, hdesc]
    rcases hreads with hne | hnil
    · simp [hc, hmax, hlimit, hne]
    · simp [hnil] at hc ⊢
      simp [hc]

end Array

/-! ## With a timeout -/

/-- Here nothing is converted. -/
theorem peerClosed_recvTimed {limit base n : ℕ} {errno : Errno} :
    PeerClosed (recvTimedFrom limit) TimedEvent.resets (.fresh base n errno) := by
  intro es s' hcall
  rcases Loop.returned_of_call hcall with
    ⟨hdone, -⟩ | ⟨es', ⟨e, eof⟩, s, rfl, hg, hallow, hb, -⟩
  · simp [recvTimedFrom, Loop.observed, recvTimed, timedLoop] at hdone
  · have hsize : 0 < s.size := of_decide_eq_true hg
    refine ⟨(e, eof), by simp, ?_⟩
    change timedBody (some (-2)) s e = _ at hb
    obtain ⟨-, hreads⟩ := Bool.and_eq_true_iff.mp hallow
    cases e with
    | io o =>
      cases o with
      | moves c =>
        simp only [timedBody] at hb
        split at hb
        · cases hb
        · obtain rfl : c = 0 := by omega
          exact .inl (eof_of_reads hreads hsize)
      | fails e =>
        simp only [timedBody] at hb
        split_ifs at hb
        simp at hb
    | poll p =>
      obtain ⟨hle, e, hselect⟩ := selectBody_of_timedBody hb
      rcases selectBody_code hselect hle with ⟨hr, -⟩ | ⟨-, hreset⟩ | ⟨hr, -⟩
      · cases hr
      · exact .inr hreset
      · cases hr

/-- **When `-2` means that the peer is gone**: for the overloads without a timeout, when the kernel
or the request is too small for a count that an `int` loses, and the array is not one of empty
entries; always for the overload with a timeout. -/
theorem peer_closed_iff (limit base n : ℕ) (entries after : List Iovec) (errno : Errno) :
    (PeerClosed (recvFrom limit) (fun _ => false) (.fresh base n errno) ↔
        limit < 2 ^ 32 ∨ n < 2 ^ 32) ∧
      (PeerClosed (recvvFrom limit) (fun _ => false) (.fresh entries after errno) ↔
        (entries = [] ∨ 0 < (positions entries).length) ∧
          (limit < 2 ^ 32 ∨ (positions entries).length < 2 ^ 32 ∨
            ssizeMax < (positions entries).length)) ∧
      PeerClosed (recvTimedFrom limit) TimedEvent.resets (.fresh base n errno) := by
  refine ⟨⟨fun h => ?_, peerClosed_recv⟩, ⟨fun h => ⟨?_, ?_⟩, fun h => peerClosed_recvv h.1 h.2⟩,
    peerClosed_recvTimed⟩
  · by_contra hlong
    exact not_peerClosed_recv (by omega) (by omega) h
  · by_contra hempty
    obtain ⟨hne, hnone⟩ := not_or.mp hempty
    have hnil : positions entries = [] := List.length_eq_zero_iff.mp (by omega)
    exact not_peerClosed_recvv (c := 0) hne (by omega) (by rw [hnil]; decide) (by omega)
      toInt32_zero (.inr hnil) h
  · by_contra hlong
    have hne : entries ≠ [] := by
      rintro rfl
      simp at hlong
    exact not_peerClosed_recvv (c := 2 ^ 32) hne (by omega) (by omega) (by omega)
      toInt32_wrap (.inl (by decide)) h

/-- A `readv` into an array of one empty entry returns zero on any connection. -/
theorem empty_array_closed : ¬∀ (entries after : List Iovec) (errno : Errno),
    PeerClosed (recvvFrom maxRwCount) (fun _ => false) (.fresh entries after errno) := by
  intro h
  have hclosed := h [⟨64, 0⟩] [] .eagain
  exact not_peerClosed_recvv (c := 0) (by decide) (by decide) (by decide) (by decide) toInt32_zero
    (.inr rfl) hclosed

end Xfnet.Stream
