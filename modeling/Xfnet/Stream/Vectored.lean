import Xfnet.Stream.Cursor

/-!
# Vectored `Stream::Send` and `Stream::Recv`

`writev` and `readv` on an array of buffers, and `updateIov`, which moves the caller's `(iov,
iovcnt)` past the bytes transferred. A pointer into the array is the memory from that entry on, so
the list `iov` goes on behind the array; what lies there is arbitrary.

`updateIov` has no bound of its own: when everything was transferred it runs on behind the array
until it meets an entry longer than nothing. Memory on which it stops there is `Stops`. The byte
accounting of both functions (`Accounted`) is then exact in every state of every sequence of calls:
as many bytes were moved as `writev` or `readv` answered, the cursor describes the others, and what
a call returns follows from the last answer (`vectored_accounted`).
-/

namespace Xfnet.Stream

open Loops

/-- `struct iovec`. -/
structure Iovec where
  iovBase : ℕ
  iovLen : ℕ
  deriving DecidableEq

/-- The bytes of a list of buffers, by address. -/
def positions (iov : List Iovec) : List ℕ :=
  iov.flatMap fun v => List.range' v.iovBase v.iovLen

/-- `UpdateIov`, on the memory from `iov` on. `none` when the loop reads behind that memory. -/
def updateIov : List Iovec → ℤ → ℤ → Option (List Iovec × ℤ)
  | [], _, _ => none
  | v :: iov, iovcnt, size =>
    if size ≥ toSsize v.iovLen then updateIov iov (iovcnt - 1) (toSsize (size - v.iovLen))
    else some (⟨(v.iovBase + size).toNat, ((v.iovLen - size) % 2 ^ 64).toNat⟩ :: iov, iovcnt)

/-- `UpdateIov` stops in this memory when it comes there with nothing left to skip. -/
def Stops (after : List Iovec) : Prop := (updateIov after 0 0).isSome = true

instance (after : List Iovec) : Decidable (Stops after) :=
  inferInstanceAs (Decidable ((updateIov after 0 0).isSome = true))

@[simp] theorem positions_nil : positions [] = [] := rfl

@[simp] theorem positions_cons (v : Iovec) (iov : List Iovec) :
    positions (v :: iov) = List.range' v.iovBase v.iovLen ++ positions iov := rfl

/-- The count never grows. -/
theorem updateIov_le {iov iov' : List Iovec} {iovcnt iovcnt' size : ℤ}
    (h : updateIov iov iovcnt size = some (iov', iovcnt')) : iovcnt' ≤ iovcnt := by
  induction iov generalizing iovcnt size with
  | nil => simp [updateIov] at h
  | cons v iov ih =>
    rw [updateIov] at h
    split at h
    · have := ih h
      omega
    · simp only [Option.some.injEq, Prod.mk.injEq] at h
      omega

/-- Memory stops `UpdateIov` when its first entry longer than nothing has a proper length. -/
theorem stops_of_nonempty {pre post : List Iovec} {v : Iovec} (hpre : ∀ u ∈ pre, u.iovLen = 0)
    (hv : 0 < v.iovLen) (hv' : v.iovLen ≤ ssizeMax) : Stops (pre ++ v :: post) := by
  have hstop : ∀ iovcnt : ℤ, (updateIov (pre ++ v :: post) iovcnt 0).isSome = true := by
    induction pre with
    | nil =>
      intro iovcnt
      rw [List.nil_append, updateIov, toSsize_of_le (by omega) (by omega), if_neg (by omega)]
      rfl
    | cons u pre ih =>
      intro iovcnt
      have hu := hpre u List.mem_cons_self
      have h0 : toSsize (u.iovLen : ℤ) = 0 := by
        rw [hu]
        exact toSsize_of_le (by omega) (by omega)
      have h0' : toSsize (0 - (u.iovLen : ℤ)) = 0 := by
        rw [hu]
        exact toSsize_of_le (by omega) (by omega)
      rw [List.cons_append, updateIov, h0, h0', if_pos le_rfl]
      exact ih (fun w hw => hpre w (List.mem_cons_of_mem _ hw)) _
  exact hstop 0

/-- **`UpdateIov` inside the array**: it drops the first `size` bytes of the buffers. Either some
byte is left, and the array goes on with a non-empty entry, or all were transferred and the loop
runs on behind the array. -/
theorem updateIov_append (after : List Iovec) {cur : List Iovec} {size : ℕ}
    (h : size ≤ (positions cur).length) (hmax : (positions cur).length ≤ ssizeMax) :
    (∃ cur', size < (positions cur).length ∧
        updateIov (cur ++ after) cur.length size = some (cur' ++ after, (cur'.length : ℤ)) ∧
        positions cur' = (positions cur).drop size) ∨
      (size = (positions cur).length ∧
        updateIov (cur ++ after) cur.length size = updateIov after 0 0) := by
  induction cur generalizing size with
  | nil =>
    obtain rfl : size = 0 := by simpa using h
    exact .inr ⟨rfl, rfl⟩
  | cons v cur ih =>
    simp only [positions_cons, List.length_append, List.length_range'] at h hmax
    have hcnt : ((v :: cur).length : ℤ) - 1 = cur.length := by simp
    rw [List.cons_append, updateIov, toSsize_of_le (by omega) (by omega), hcnt]
    by_cases hle : v.iovLen ≤ size
    · -- the entry is used up
      have hsize : toSsize ((size : ℤ) - v.iovLen) = ((size - v.iovLen : ℕ) : ℤ) := by
        rw [toSsize_of_le (by omega) (by omega)]
        omega
      rw [if_pos (by omega), hsize]
      have hrest : size - v.iovLen ≤ (positions cur).length := by omega
      rcases ih hrest (by omega) with ⟨cur', hlt, hrun, hpos⟩ | ⟨hall, hrun⟩
      · have hlonger : size < (positions (v :: cur)).length := by
          simp only [positions_cons, List.length_append, List.length_range']
          omega
        refine .inl ⟨cur', hlonger, hrun, ?_⟩
        have hnil : (List.range' v.iovBase v.iovLen).drop size = [] :=
          List.drop_eq_nil_of_le (by simpa using hle)
        rw [hpos, positions_cons, List.drop_append, List.length_range', hnil, List.nil_append]
      · refine .inr ⟨?_, hrun⟩
        simp only [positions_cons, List.length_append, List.length_range']
        omega
    · -- the loop stops in this entry
      refine .inl ⟨⟨v.iovBase + size, v.iovLen - size⟩ :: cur, ?_, ?_, ?_⟩
      · simp only [positions_cons, List.length_append, List.length_range']
        omega
      · have hlen : (((v.iovLen : ℤ) - size) % 2 ^ 64).toNat = v.iovLen - size := by
          have : ssizeMax < 2 ^ 64 := by decide
          omega
        rw [if_neg (by omega), hlen]
        rfl
      · simp only [positions_cons]
        rw [List.drop_append_of_le_length (by simp; omega), List.drop_range']
        simp

/-! ## The two functions -/

/-- The caller's `(iov, iovcnt)` and `errno`, with the addresses of the bytes the kernel moved. -/
structure Vectored where
  iov : List Iovec
  iovcnt : ℤ
  errno : Errno
  moved : List ℕ
  deriving DecidableEq

namespace Vectored

/-- An array followed by arbitrary memory, before the first call. -/
def fresh (entries after : List Iovec) (errno : Errno) : Vectored :=
  ⟨entries ++ after, entries.length, errno, []⟩

/-- The bytes that the first `iovcnt` entries describe. -/
def described (s : Vectored) : List ℕ := positions (s.iov.take s.iovcnt.toNat)

end Vectored

/-- One iteration; `conv` converts the result to the type of the local variable that holds it, and
`onZero` is what the call returns for zero, when zero is not just a transfer of no bytes. -/
def vectoredBody (conv : ℤ → ℤ) (onZero : Option ℤ) (s : Vectored) : Syscall → Flow Vectored ℤ
  | o =>
    let s := match o with
      | .moves c => { s with moved := s.moved ++ s.described.take c }
      | .fails e => { s with errno := e }
    let size := conv o.ret
    if 0 < size ∨ (size = 0 ∧ onZero = none) then
      match updateIov s.iov s.iovcnt size with
      | some (iov, iovcnt) => .next { s with iov := iov, iovcnt := iovcnt }
      | none => .abort
    else if size = 0 then .ret (onZero.getD 0) s
    else if s.errno = .eagain then .ret 0 s
    else if s.errno ≠ .eintr then .ret (-1) s
    else .next s

/-- The loop. The kernel refuses an array whose total length is no `ssize_t`; otherwise it moves
at most that total, by a count that is `possible`. -/
def vectoredLoop (conv : ℤ → ℤ) (onZero : Option ℤ) (possible : ℕ → Bool) :
    Loop Vectored Syscall ℤ where
  guard s := decide (0 < s.iovcnt)
  done := 1
  allows
    | s, .moves c =>
      decide (c ≤ s.described.length ∧ s.described.length ≤ ssizeMax) && possible c
    | _, .fails _ => true
  body := vectoredBody conv onZero

/-- `int Stream::Send(iovec_t*& iov, int& iovcnt)`. -/
def sendv : Loop Vectored Syscall ℤ := vectoredLoop id none fun _ => true

/-- `int Stream::Recv(iovec_t*& iov, int& iovcnt)`: the result of `readv` goes through an `int`.
One call of `readv` moves at most `limit` bytes. -/
def recvv (limit : ℕ) : Loop Vectored Syscall ℤ :=
  vectoredLoop toInt32 (some (-2)) fun c => decide (c ≤ limit)

/-- The number of bytes one system call of Linux moves at most. -/
def maxRwCount : ℕ := 0x7ffff000

/-! ## The accounting -/

/-- The number of bytes that the answers in a run of resumed calls say were moved. -/
def transferred (ls : List (Option Syscall)) : ℕ :=
  (ls.map fun l => l.elim 0 Syscall.count).sum

/-- Why a call returns `r` before the end: `EAGAIN`, any other error but an interrupt, or an answer
of zero where that is not just a transfer of no bytes. -/
inductive StoppedBy (onZero : Option ℤ) : ℤ → Syscall → Prop
  | again : StoppedBy onZero 0 (.fails .eagain)
  | error {e : Errno} : e ≠ .eagain → e ≠ .eintr → StoppedBy onZero (-1) (.fails e)
  | zero {r : ℤ} : onZero = some r → StoppedBy onZero r (.moves 0)

/-- The bytes moved so far, followed by the bytes described, are `all`, in order; and they are as
many as were answered. -/
structure Exact (all : List ℕ) (ls : List (Option Syscall)) (s : Vectored) : Prop where
  bytes : s.moved ++ s.described = all
  count : s.moved.length = transferred ls

/-- The accounting is exact after the steps `ls`. A result of `1` means that all bytes were moved,
any other one follows from the last answer; and `UpdateIov` never runs away. -/
def Accounted (onZero : Option ℤ) (all : List ℕ) (ls : List (Option Syscall)) :
    Act Vectored ℤ → Prop
  | .running s => Exact all ls s
  | .returned r s =>
    Exact all ls s ∧ (r = 1 → s.moved = all) ∧
      (r ≠ 1 → ∃ o, ls.getLast? = some (some o) ∧ StoppedBy onZero r o)
  | .aborted => False

/-- The rest of the array is in front of `after`, or everything was moved and the count used up. -/
def Rest (after : List Iovec) (all : List ℕ) (s : Vectored) : Prop :=
  (∃ cur, s.iov = cur ++ after ∧ s.iovcnt = cur.length ∧ s.moved ++ positions cur = all) ∨
    (s.iovcnt ≤ 0 ∧ s.moved = all)

section Accounting

variable {after : List Iovec} {all : List ℕ} {s : Vectored}

theorem Rest.accounted (h : Rest after all s) : s.moved ++ s.described = all := by
  rcases h with ⟨cur, hiov, hcnt, hall⟩ | ⟨hcnt, hall⟩
  · rw [Vectored.described, hiov, hcnt, Int.toNat_natCast, List.take_left', hall]
    rfl
  · have h0 : s.iovcnt.toNat = 0 := by omega
    rw [Vectored.described, h0, hall]
    simp

theorem Rest.all_moved (h : Rest after all s) (hcnt : s.iovcnt ≤ 0) : s.moved = all := by
  rcases h with ⟨cur, -, hcur, hall⟩ | ⟨-, hall⟩
  · obtain rfl : cur = [] := List.length_eq_zero_iff.mp (by omega)
    simpa using hall
  · exact hall

/-- A transfer of `c` of the bytes described, and the step of `UpdateIov` after it. -/
theorem Rest.update (hstop : Stops after) (h : Rest after all s) (hcnt : 0 < s.iovcnt) {c : ℕ}
    (hc : c ≤ s.described.length) (hmax : s.described.length ≤ ssizeMax) :
    ∃ iov iovcnt, updateIov s.iov s.iovcnt c = some (iov, iovcnt) ∧
      Rest after all ⟨iov, iovcnt, s.errno, s.moved ++ s.described.take c⟩ := by
  rcases h with ⟨cur, hiov, hcur, hall⟩ | ⟨hle, -⟩
  · have hdesc : s.described = positions cur := by
      rw [Vectored.described, hiov, hcur, Int.toNat_natCast, List.take_left' rfl]
    rw [hdesc] at hc hmax ⊢
    rw [hiov, hcur]
    rcases updateIov_append after hc hmax with ⟨cur', -, hrun, hpos⟩ | ⟨hsize, hrun⟩
    · refine ⟨_, _, hrun, .inl ⟨cur', rfl, rfl, ?_⟩⟩
      rw [hpos, List.append_assoc, List.take_append_drop, hall]
    · obtain ⟨⟨iov, iovcnt⟩, hafter⟩ := Option.isSome_iff_exists.mp hstop
      refine ⟨iov, iovcnt, hrun.trans hafter, .inr ⟨updateIov_le hafter, ?_⟩⟩
      rw [hsize, List.take_length, hall]
  · omega

theorem vectoredBody_fails {conv : ℤ → ℤ} (hneg : conv (-1) = -1) {onZero : Option ℤ} (e : Errno) :
    vectoredBody conv onZero s (.fails e) =
      if e = .eagain then .ret 0 { s with errno := e }
      else if e ≠ .eintr then .ret (-1) { s with errno := e }
      else .next { s with errno := e } := by
  cases e <;> simp [vectoredBody, Syscall.ret, hneg]

/-- What an iteration has moved, when it goes on or returns. -/
theorem moved_of_vectoredBody {conv : ℤ → ℤ} {onZero : Option ℤ} {o : Syscall} {s' : Vectored}
    (h : vectoredBody conv onZero s o = .next s' ∨ ∃ r, vectoredBody conv onZero s o = .ret r s') :
    s'.moved = s.moved ++ s.described.take o.count := by
  cases o
  -- a failing call moves nothing
  on_goal 2 => refine Eq.trans ?_ (List.append_nil _).symm
  all_goals
    simp only [vectoredBody] at h
    split_ifs at h
    · split at h
      · obtain h | ⟨r, h⟩ := h <;> cases h
        rfl
      · obtain h | ⟨r, h⟩ := h <;> cases h
    all_goals
      obtain h | ⟨r, h⟩ := h <;> cases h
      rfl

section Loop

variable {conv : ℤ → ℤ} {onZero : Option ℤ} {possible : ℕ → Bool}

/-- The kernel moves no more than the entries describe. -/
theorem count_le_described {o : Syscall}
    (h : (vectoredLoop conv onZero possible).allows s o = true) : o.count ≤ s.described.length := by
  cases o with
  | moves c => exact (of_decide_eq_true (Bool.and_eq_true_iff.mp h).1).1
  | fails e => exact Nat.zero_le _

theorem StoppedBy.ne_one {r : ℤ} {o : Syscall} (h : StoppedBy onZero r o)
    (hone : onZero ≠ some 1) : r ≠ 1 := by
  cases h with
  | again => decide
  | error _ _ => decide
  | zero hr =>
    rintro rfl
    exact hone hr

/-- **One iteration**: it keeps the invariant, and returns for a reason. -/
theorem vectoredBody_cases (hconv : ∀ c : ℕ, c ≤ ssizeMax → possible c = true → conv c = c)
    (hneg : conv (-1) = -1) (hstop : Stops after) {o : Syscall} (hs : Rest after all s)
    (hg : (vectoredLoop conv onZero possible).guard s = true)
    (hallow : (vectoredLoop conv onZero possible).allows s o = true) :
    (∃ s', vectoredBody conv onZero s o = .next s' ∧ Rest after all s') ∨
      ∃ r s', vectoredBody conv onZero s o = .ret r s' ∧ Rest after all s' ∧
        StoppedBy onZero r o := by
  simp only [vectoredLoop, decide_eq_true_eq] at hg
  cases o with
  | fails e =>
    have hs' : Rest after all { s with errno := e } := hs
    rw [vectoredBody_fails hneg]
    by_cases hagain : e = .eagain
    · subst hagain
      exact .inr ⟨0, _, rfl, hs', .again⟩
    · rw [if_neg hagain]
      by_cases hintr : e = .eintr
      · rw [if_neg (not_not.mpr hintr)]
        exact .inl ⟨_, rfl, hs'⟩
      · rw [if_pos hintr]
        exact .inr ⟨-1, _, rfl, hs', .error hagain hintr⟩
  | moves c =>
    simp only [vectoredLoop, Bool.and_eq_true, decide_eq_true_eq] at hallow
    obtain ⟨⟨hc, hmax⟩, hposs⟩ := hallow
    obtain ⟨iov, iovcnt, hrun, hrest⟩ := hs.update hstop hg hc hmax
    simp only [vectoredBody, Syscall.ret, hconv c (hc.trans hmax) hposs]
    split_ifs with h₁ h₂
    · rw [hrun]
      exact .inl ⟨_, rfl, hrest⟩
    · obtain rfl : c = 0 := by omega
      refine .inr ⟨_, _, rfl, by simpa [Rest] using hs, ?_⟩
      cases hzero : onZero with
      | none => exact absurd (.inr ⟨h₂, hzero⟩) h₁
      | some r => exact .zero rfl
    all_goals omega

/-- **The invariant of the loop**, for any conversion that is exact on the possible counts. -/
theorem vectoredLoop_spec (hconv : ∀ c : ℕ, c ≤ ssizeMax → possible c = true → conv c = c)
    (hneg : conv (-1) = -1) (hone : onZero ≠ some 1) (hstop : Stops after) (all : List ℕ) :
    (vectoredLoop conv onZero possible).Spec (Rest after all)
      (fun r s => Rest after all s ∧ (r = 1 → s.moved = all)) := by
  refine ⟨fun s hs hg => ⟨hs, fun _ => ?_⟩, fun s o s' hs hg ha hb => ?_,
    fun s o r s' hs hg ha hb => ?_, fun s o hs hg ha hb => ?_⟩
  · simp only [vectoredLoop, decide_eq_false_iff_not, not_lt] at hg
    exact hs.all_moved hg
  all_goals
    change vectoredBody conv onZero s o = _ at hb
    obtain ⟨t, ht, hrest⟩ | ⟨r', t, ht, hrest, hr⟩ :=
      vectoredBody_cases hconv hneg hstop hs hg ha <;> rw [ht] at hb <;> cases hb
  · exact hrest
  · exact ⟨hrest, fun h => absurd h (hr.ne_one hone)⟩

/-- **One step** of a caller that resumes after each return of `0`. -/
theorem accounted_settle {ls : List (Option Syscall)} {f : Flow Vectored ℤ}
    (h : Loop.Holds (Loop.Spec.Inside (vectoredLoop conv onZero possible) (Rest after all))
      (fun r s => Rest after all s ∧ (r = 1 → s.moved = all))
      ((vectoredLoop conv onZero possible).settle f))
    (hcount : ∀ s, f = .next s ∨ (∃ r, f = .ret r s) → s.moved.length = transferred ls)
    (hcode : ∀ r s, f = .ret r s → ∃ o, ls.getLast? = some (some o) ∧ StoppedBy onZero r o) :
    Accounted onZero all ls ((vectoredLoop conv onZero possible).settle f) := by
  cases ha : (vectoredLoop conv onZero possible).settle f with
  | running s =>
    rw [ha] at h
    exact ⟨h.1.accounted, hcount s (.inl (Loop.settle_running ha))⟩
  | returned r s =>
    rw [ha] at h
    rcases Loop.settle_returned ha with ⟨rfl, hnext⟩ | hret
    · exact ⟨⟨h.1.accounted, hcount s (.inl hnext)⟩, h.2, fun hr => absurd rfl hr⟩
    · exact ⟨⟨h.1.accounted, hcount s (.inr ⟨r, hret⟩)⟩, h.2, fun _ => hcode r s hret⟩
  | aborted =>
    rw [ha] at h
    exact h

theorem transferred_concat (ls : List (Option Syscall)) (l : Option Syscall) :
    transferred (ls ++ [l]) = transferred ls + l.elim 0 Syscall.count := by
  simp [transferred]

/-- A call that starts or is resumed has moved what was moved before. -/
theorem accounted_enter (hconv : ∀ c : ℕ, c ≤ ssizeMax → possible c = true → conv c = c)
    (hneg : conv (-1) = -1) (hone : onZero ≠ some 1) (hstop : Stops after)
    {ls : List (Option Syscall)} (hs : Rest after all s)
    (hcount : s.moved.length = transferred ls) :
    Accounted onZero all ls ((vectoredLoop conv onZero possible).enter s) := by
  have hspec := vectoredLoop_spec hconv hneg hone hstop all
  refine accounted_settle (f := .next s) (hspec.enter hs) ?_ nofun
  rintro t (h | ⟨r, h⟩) <;> cases h
  exact hcount

/-- An answer moves the bytes that it says, and is the reason of a return. -/
theorem accounted_answer (hconv : ∀ c : ℕ, c ≤ ssizeMax → possible c = true → conv c = c)
    (hneg : conv (-1) = -1) (hone : onZero ≠ some 1) (hstop : Stops after)
    {ls : List (Option Syscall)} {o : Syscall} {a : Act Vectored ℤ} (hs : Rest after all s)
    (hg : (vectoredLoop conv onZero possible).guard s = true)
    (hcount : s.moved.length = transferred ls)
    (hn : (vectoredLoop conv onZero possible).step (.running s) o = some a) :
    Accounted onZero all (ls ++ [some o]) a := by
  have hspec := vectoredLoop_spec hconv hneg hone hstop all
  have hinside : Loop.Holds (Loop.Spec.Inside (vectoredLoop conv onZero possible) (Rest after all))
      (fun (r : ℤ) s => Rest after all s ∧ (r = 1 → s.moved = all)) (.running s) := ⟨hs, hg⟩
  obtain ⟨hallow, rfl⟩ := Loop.step_running hn
  refine accounted_settle (hspec.step hinside hn) (fun s' h => ?_) fun r s' h => ?_
  · have hle := count_le_described hallow
    rw [moved_of_vectoredBody h, List.length_append, List.length_take, Nat.min_eq_left hle, hcount,
      transferred_concat]
    rfl
  · refine ⟨o, List.getLast?_concat, ?_⟩
    obtain ⟨t, ht, -⟩ | ⟨r', t, ht, -, hstopped⟩ := vectoredBody_cases hconv hneg hstop hs hg hallow
    · cases ht.symm.trans h
    · cases ht.symm.trans h
      exact hstopped

/-- **Every run** of such a caller. -/
theorem accounted_of_exec (hconv : ∀ c : ℕ, c ≤ ssizeMax → possible c = true → conv c = c)
    (hneg : conv (-1) = -1) (hone : onZero ≠ some 1) (hstop : Stops after) {entries : List Iovec}
    {errno : Errno} {ls : List (Option Syscall)} {a : Act Vectored ℤ}
    (hrun : (vectoredLoop conv onZero possible).after resumes (.fresh entries after errno) ls =
      some a) :
    Accounted onZero (positions entries) ls a := by
  have hspec := vectoredLoop_spec hconv hneg hone hstop (positions entries)
  have hfresh : Rest after (positions entries) (.fresh entries after errno) :=
    .inl ⟨entries, rfl, rfl, rfl⟩
  refine Transition.System.history rfl (accounted_enter hconv hneg hone hstop hfresh rfl) ?_ hrun
  intro ls a l a' hr hacc _ hn
  have hholds := hspec.resumable (fun _ _ hQ _ => hQ.1) hfresh hr
  cases a with
  | running s =>
    cases l with
    | none => cases hn
    | some o => exact accounted_answer hconv hneg hone hstop hholds.1 hholds.2 hacc.count hn
  | returned r s =>
    cases l with
    | some o => cases hn
    | none =>
      obtain ⟨-, hn⟩ := Option.ite_none_right_eq_some.mp hn
      obtain rfl := Option.some.inj hn
      refine accounted_enter hconv hneg hone hstop hholds.1 ?_
      rw [hacc.1.count, transferred_concat]
      rfl
  | aborted => exact hholds.elim

end Loop

end Accounting

/-- **Byte accounting of vectored I/O**: for every array, every memory behind it on which
`UpdateIov` stops, and every script over any number of resumed calls, `Send` and `Recv` move the
bytes of the entries once and in order, as many as `writev` or `readv` answered, and describe the
ones not yet moved. They return `1` when all are moved, and before that only `0` after `EAGAIN`,
`-1` after another error, and `Recv` `-2` after a `readv` of no bytes. `limit` is the most that one
`readv` moves, and fits an `int`. -/
theorem vectored_accounted (entries after : List Iovec) (hstop : Stops after) (errno : Errno)
    (limit : ℕ) (hlimit : limit < 2 ^ 31) (ls : List (Option Syscall)) (a : Act Vectored ℤ) :
    (sendv.after resumes (.fresh entries after errno) ls = some a →
        Accounted none (positions entries) ls a) ∧
      ((recvv limit).after resumes (.fresh entries after errno) ls = some a →
        Accounted (some (-2)) (positions entries) ls a) := by
  refine ⟨accounted_of_exec (fun _ _ _ => rfl) rfl (by decide) hstop,
    accounted_of_exec (fun c _ hc => toInt32_of_lt ?_) toInt32_neg_one (by decide) hstop⟩
  exact (of_decide_eq_true hc).trans_lt hlimit

/-- Three entries, the second empty, and behind them an empty one and one of one byte. Two bytes go
out, then none for now, then the other three; and four bytes come in before the peer closes. -/
theorem vectored_accounted_three :
    (∃ s : Vectored, sendv.after resumes
        (.fresh [⟨0, 3⟩, ⟨8, 0⟩, ⟨16, 2⟩] [⟨32, 0⟩, ⟨40, 1⟩] .eagain)
        [some (.moves 2), some (.fails .eagain), none, some (.fails .eintr), some (.moves 3)] =
          some (.returned 1 s) ∧ s.moved = [0, 1, 2, 16, 17]) ∧
      ∃ s : Vectored, (recvv maxRwCount).after resumes
        (.fresh [⟨0, 3⟩, ⟨8, 0⟩, ⟨16, 2⟩] [⟨32, 0⟩, ⟨40, 1⟩] .eagain)
        [some (.moves 3), some (.moves 1), some (.moves 0)] = some (.returned (-2) s) ∧
          s.moved ++ s.described = [0, 1, 2, 16, 17] ∧ s.moved.length = 4 := by
  have hstop : Stops ([⟨32, 0⟩] ++ ⟨40, 1⟩ :: []) :=
    stops_of_nonempty (by simp) (by decide) (by decide)
  have haccounted := vectored_accounted [⟨0, 3⟩, ⟨8, 0⟩, ⟨16, 2⟩] [⟨32, 0⟩, ⟨40, 1⟩] hstop .eagain
    maxRwCount (by decide)
  constructor
  · have hrun : sendv.after resumes
        (.fresh [⟨0, 3⟩, ⟨8, 0⟩, ⟨16, 2⟩] [⟨32, 0⟩, ⟨40, 1⟩] .eagain)
        [some (.moves 2), some (.fails .eagain), none, some (.fails .eintr), some (.moves 3)] =
          some (.returned 1 ⟨[⟨40, 1⟩], -1, .eintr, [0, 1, 2, 16, 17]⟩) := by
      decide +kernel
    exact ⟨_, hrun, ((haccounted _ _).1 hrun).2.1 rfl⟩
  · have hrun : (recvv maxRwCount).after resumes
        (.fresh [⟨0, 3⟩, ⟨8, 0⟩, ⟨16, 2⟩] [⟨32, 0⟩, ⟨40, 1⟩] .eagain)
        [some (.moves 3), some (.moves 1), some (.moves 0)] =
          some (.returned (-2) ⟨[⟨17, 1⟩, ⟨32, 0⟩, ⟨40, 1⟩], 1, .eagain, [0, 1, 2, 16]⟩) := by
      decide +kernel
    have hexact := ((haccounted _ _).2 hrun).1
    exact ⟨_, hrun, hexact.bytes, hexact.count⟩

end Xfnet.Stream
