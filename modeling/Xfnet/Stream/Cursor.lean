import Xfnet.Foundations.Loops
import Xfnet.Foundations.Memory
import Xfnet.Kernel

/-!
# The resumable transfer loop of `Stream`

`Stream::Send(void*&, ssize_t&)` and `Stream::Recv(void*&, ssize_t&)` are one loop around `write`
and `read`: a cursor `(data, size)` held by the caller moves over the caller's buffer, and the call
returns when the buffer is done, when the kernel would block, or on an error.

After a transfer of `w` bytes the loop subtracts `w` from `size` and then adds the *new* `size` to
`data` (`Transfer.advance`). The pointer is right afterwards exactly when the transfer took all of
the request, or half of it. `Sound` says that the bytes moved so far, followed by the bytes the
cursor designates, are the buffer; `feed_sound_iff` and `calls_sound_iff` show that it holds at the
returns of a sequence of calls exactly when every count of the kernel's script is such a one
(`WholeOrHalf`).
-/

namespace Xfnet.Stream

open Loops

/-- What a system call on the stream answers: the number of bytes it moved, or an error. -/
inductive Syscall
  | moves (count : ℕ)
  | fails (e : Errno)
  deriving DecidableEq

/-- The value the system call returns. -/
def Syscall.ret : Syscall → ℤ
  | .moves c => c
  | .fails _ => -1

/-- The caller's cursor and `errno`, with what the kernel has seen: the addresses of the bytes it
moved, in order, and the ranges it was asked to move. -/
structure Transfer where
  data : ℕ
  size : ℕ
  errno : Errno
  moved : List ℕ
  asked : List (ℕ × ℕ)
  deriving DecidableEq

namespace Transfer

/-- The cursor on a buffer of `n` bytes at `base`, before the first call. -/
def fresh (base n : ℕ) (errno : Errno) : Transfer := ⟨base, n, errno, [], []⟩

/-- The system call on the range the cursor designates. -/
def kernel (s : Transfer) : Syscall → Transfer
  | .moves c => { s with
      moved := s.moved ++ List.range' s.data c
      asked := s.asked ++ [(s.data, s.size)] }
  | .fails e => { s with errno := e, asked := s.asked ++ [(s.data, s.size)] }

@[simp] theorem kernel_size (s : Transfer) (o : Syscall) : (s.kernel o).size = s.size := by
  cases o <;> rfl

/-- `size -= wsize; data = (char*)data + size;` -/
def advance (s : Transfer) (wsize : ℕ) : Transfer :=
  { s with size := s.size - wsize, data := s.data + (s.size - wsize) }

/-- The bytes moved so far, followed by the bytes the cursor designates. -/
def tail (s : Transfer) : List ℕ := s.moved ++ List.range' s.data s.size

/-- The whole buffer is accounted for, and only the buffer was asked for. -/
structure Sound (base n : ℕ) (s : Transfer) : Prop where
  tail : s.tail = List.range' base n
  asked : ∀ q ∈ s.asked, base ≤ q.1 ∧ q.1 + q.2 ≤ base + n

end Transfer

/-- One iteration. The result of the system call is converted to `int`; `onZero` is what the call
returns for a result of zero, when zero is not just a transfer of no bytes. -/
def transferBody (onZero : Option ℤ) (s : Transfer) (o : Syscall) : Flow Transfer ℤ :=
  let s := s.kernel o
  let rsize := toInt32 o.ret
  if 0 < rsize ∨ (rsize = 0 ∧ onZero = none) then .next (s.advance rsize.toNat)
  else if rsize = 0 then .ret (onZero.getD 0) s
  else if s.errno = .eagain then .ret 0 s
  else if s.errno ≠ .eintr then .ret (-1) s
  else .next s

/-- The loop. The kernel moves at least `least` bytes, and at most what it was asked for. -/
def transferLoop (least : ℕ) (onZero : Option ℤ) : Loop Transfer Syscall ℤ where
  guard s := decide (0 < s.size)
  done := 1
  allows
    | s, .moves c => decide (least ≤ c ∧ c ≤ s.size)
    | _, .fails _ => true
  body := transferBody onZero

@[simp] theorem transferLoop_guard (least : ℕ) (onZero : Option ℤ) (s : Transfer) :
    (transferLoop least onZero).guard s = decide (0 < s.size) := rfl

@[simp] theorem transferLoop_body (least : ℕ) (onZero : Option ℤ) :
    (transferLoop least onZero).body = transferBody onZero := rfl

/-- A caller resumes the function after a return of `0`. -/
def resumes (r : ℤ) : Bool := r == 0

/-- Every count of the script is zero, all of what remains, or half of it, and fits an `int`. -/
def WholeOrHalf : ℕ → List Syscall → Prop
  | _, [] => True
  | size, .fails _ :: es => WholeOrHalf size es
  | size, .moves c :: es =>
    (c = 0 ∨ 2 * c = size ∨ c = size) ∧ c < 2 ^ 31 ∧ WholeOrHalf (size - c) es

instance decidableWholeOrHalf : ∀ size es, Decidable (WholeOrHalf size es)
  | _, [] => inferInstanceAs (Decidable True)
  | size, .fails _ :: es => decidableWholeOrHalf size es
  | size, .moves c :: es =>
    have := decidableWholeOrHalf (size - c) es
    inferInstanceAs (Decidable ((c = 0 ∨ 2 * c = size ∨ c = size) ∧ c < 2 ^ 31 ∧
      WholeOrHalf (size - c) es))

/-! ## What one iteration does -/

section Iteration

variable {onZero : Option ℤ} {s : Transfer}

theorem body_fails (onZero : Option ℤ) (s : Transfer) (e : Errno) :
    transferBody onZero s (.fails e) =
    if e = .eagain then .ret 0 (s.kernel (.fails e))
    else if e ≠ .eintr then .ret (-1) (s.kernel (.fails e))
    else .next (s.kernel (.fails e)) := by
  cases e <;> simp [transferBody, Syscall.ret, Transfer.kernel]

/-- A count that fits an `int` moves the cursor, unless it is zero. -/
theorem body_moves {c : ℕ} (hc : 0 < c) (hc' : c < 2 ^ 31) :
    transferBody onZero s (.moves c) = .next ((s.kernel (.moves c)).advance c) := by
  simp [transferBody, Syscall.ret, toInt32_of_lt hc', hc]

theorem body_zero {r : ℤ} (h : onZero = some r) :
    transferBody onZero s (.moves 0) = .ret r (s.kernel (.moves 0)) := by
  simp [transferBody, Syscall.ret, h]

/-- Whatever the kernel answers, the iteration keeps what the kernel has seen; it leaves the cursor
alone, or advances it by the count that was read off the result. -/
theorem body_cases (onZero : Option ℤ) (s : Transfer) (o : Syscall) :
    (∃ r, transferBody onZero s o = .ret r (s.kernel o) ∧ r ∈ [onZero.getD 0, 0, -1]) ∨
      transferBody onZero s o = .next (s.kernel o) ∨
      ∃ w : ℕ, (w : ℤ) = toInt32 o.ret ∧
        (w = 0 → onZero = none) ∧
        transferBody onZero s o = .next ((s.kernel o).advance w) := by
  unfold transferBody
  dsimp only
  split_ifs with h₁ h₂ h₃ h₄
  · refine .inr (.inr ⟨_, Int.toNat_of_nonneg (by omega), fun hw => ?_, rfl⟩)
    exact (h₁.resolve_left (by omega)).2
  · exact .inl ⟨_, rfl, by simp⟩
  · exact .inl ⟨_, rfl, by simp⟩
  · exact .inl ⟨_, rfl, by simp⟩
  · exact .inr (.inl rfl)

end Iteration

/-! ## What a run of the loop cannot undo

Both facts hold whatever the cursor does, so they show that a wrong step stays visible at the next
return. -/

section Irrevocable

variable {onZero : Option ℤ} {least : ℕ} {s s' : Transfer} {es : List Syscall} {r : ℤ}

/-- The number of bytes moved and still designated never decreases. -/
theorem spec_length (least : ℕ) (onZero : Option ℤ) (k : ℕ) :
    (transferLoop least onZero).Spec (fun t => k ≤ t.moved.length + t.size)
      (fun _ t => k ≤ t.moved.length + t.size) := by
  have hkernel : ∀ (t : Transfer) (o : Syscall) (w : ℕ), k ≤ t.moved.length + t.size →
      (w : ℤ) ≤ max 0 o.ret → k ≤ (t.kernel o).moved.length + ((t.kernel o).size - w) := by
    intro t o w ht hw
    cases o <;> simp only [Transfer.kernel, Syscall.ret, List.length_append,
      List.length_range'] at hw ⊢ <;> omega
  refine ⟨fun t ht _ => ht, fun t o t' ht _ _ hb => ?_, fun t o r t' ht _ _ hb => ?_,
    fun t o _ _ _ hb => ?_⟩
  all_goals
    change transferBody onZero t o = _ at hb
    obtain ⟨r', hr, -⟩ | hr | ⟨w, hw, -, hr⟩ := body_cases onZero t o <;>
      rw [hr] at hb <;> cases hb
  · simpa using hkernel t o 0 ht (by omega)
  · refine hkernel t o w ht (hw.le.trans ?_)
    cases o with
    | moves c => exact (toInt32_le c).trans (le_max_right _ _)
    | fails e => simp [Syscall.ret]
  · simpa using hkernel t o 0 ht (by omega)

/-- The byte the cursor points at is the next one to be moved, or the next one designated. -/
theorem feed_next (hz : onZero = none → 1 ≤ least) (hs : 0 < s.size)
    (h : (transferLoop least onZero).feed (.running s) es = some (.returned r s')) :
    s.moved ++ [s.data] <+: s'.tail := by
  let I (t : Transfer) : Prop :=
    (t.moved = s.moved ∧ t.data = s.data ∧ t.size = s.size) ∨ s.moved ++ [s.data] <+: t.moved
  have hcons : ∀ c, 0 < c → s.moved ++ [s.data] <+: s.moved ++ List.range' s.data c := by
    intro c hc
    obtain ⟨c, rfl⟩ := Nat.exists_eq_succ_of_ne_zero hc.ne'
    exact ⟨List.range' (s.data + 1) c, by simp [List.range'_succ]⟩
  -- a transfer of at least one byte takes the byte at the cursor
  have hmoves : ∀ (t : Transfer) (c : ℕ), I t → 0 < c →
      s.moved ++ [s.data] <+: (t.kernel (.moves c)).moved := by
    rintro t c (⟨hm, hd, -⟩ | ht) hc
    · simpa [Transfer.kernel, hm, hd] using hcons c hc
    · exact ht.trans (List.prefix_append _ _)
  have hkernel : ∀ (t : Transfer) (o : Syscall), I t → I (t.kernel o) := by
    intro t o ht
    match o with
    | .fails e => exact ht
    | .moves 0 => simpa [I, Transfer.kernel] using ht
    | .moves (c + 1) => exact .inr (hmoves t (c + 1) ht c.succ_pos)
  have htail : ∀ t, I t → s.moved ++ [s.data] <+: t.tail := by
    rintro t (⟨hm, hd, hn⟩ | ht)
    · simpa [Transfer.tail, hm, hd, hn] using hcons s.size hs
    · exact ht.trans (List.prefix_append _ _)
  have hspec : (transferLoop least onZero).Spec I (fun _ t => s.moved ++ [s.data] <+: t.tail) := by
    refine ⟨fun t ht _ => htail t ht, fun t o t' ht _ hallow hb => ?_,
      fun t o r t' ht _ _ hb => ?_, fun t o _ _ _ hb => ?_⟩
    all_goals
      change transferBody onZero t o = _ at hb
      obtain ⟨r', hr, -⟩ | hr | ⟨w, hw, hw0, hr⟩ := body_cases onZero t o <;>
        rw [hr] at hb <;> cases hb
    · exact hkernel t o ht
    · cases o with
      | fails e => simp [Syscall.ret] at hw
      | moves c =>
        have hc : 0 < c := by
          by_contra hc
          obtain rfl : c = 0 := by omega
          obtain rfl : w = 0 := by simpa [Syscall.ret] using hw
          have := hz (hw0 rfl)
          simp [transferLoop] at hallow
          omega
        exact .inr (hmoves t c ht hc)
    · exact htail _ (hkernel t o ht)
  exact hspec.feed (a := .running s)
    ⟨.inl ⟨rfl, rfl, rfl⟩, by simpa [transferLoop] using hs⟩ h

end Irrevocable

/-! ## Soundness at the returns -/

section Soundness

variable {onZero : Option ℤ} {least base n : ℕ} {s s' : Transfer} {r : ℤ}

theorem Transfer.Sound.fresh (base n : ℕ) (errno : Errno) :
    (Transfer.fresh base n errno).Sound base n :=
  ⟨by simp [Transfer.tail, Transfer.fresh], by simp [Transfer.fresh]⟩

namespace Transfer.Sound

theorem length (h : s.Sound base n) : s.moved.length + s.size = n := by
  simpa [Transfer.tail] using congrArg List.length h.tail

/-- As long as something is left, the pointer is right. -/
theorem data (h : s.Sound base n) (hs : 0 < s.size) : s.data = base + s.moved.length := by
  have hlen := h.length
  have hi : s.moved.length < s.tail.length := by simp [Transfer.tail, hs]
  have key := List.getElem_of_eq h.tail hi
  simpa [Transfer.tail, List.getElem_append_right] using key

theorem moved (h : s.Sound base n) : s.moved = List.range' base s.moved.length := by
  obtain ⟨k, hk, hm, -⟩ := List.range'_eq_append_iff.mp (h.tail.symm.trans (by rw [Transfer.tail]))
  rw [hm]
  simp

theorem kernel_fails (h : s.Sound base n) (hs : 0 < s.size) (e : Errno) :
    (s.kernel (.fails e)).Sound base n := by
  refine ⟨h.tail, fun q hq => ?_⟩
  rcases List.mem_append.mp hq with hq | hq
  · exact h.asked q hq
  · obtain rfl := List.mem_singleton.mp hq
    have := h.data hs
    have := h.length
    simp only
    omega

/-- A transfer of nothing, of half of the request or of all of it leaves the cursor sound. -/
theorem advance (h : s.Sound base n) (hs : 0 < s.size) {c : ℕ} (hc : 2 * c = s.size ∨ c = s.size) :
    ((s.kernel (.moves c)).advance c).Sound base n := by
  refine ⟨?_, (h.kernel_fails hs s.errno).asked⟩
  have hlen := h.length
  have hdata := h.data hs
  rw [← h.tail]
  simp only [Transfer.tail, kernel, Transfer.advance, List.append_assoc]
  congr 1
  rcases hc with hc | hc
  · rw [show s.data + (s.size - c) = s.data + c by omega, List.range'_append_1]
    congr 1
    omega
  · simp [hc]

theorem kernel_zero (h : s.Sound base n) (hs : 0 < s.size) :
    (s.kernel (.moves 0)).Sound base n :=
  ⟨by simpa [kernel, Transfer.tail] using h.tail, (h.kernel_fails hs s.errno).asked⟩

end Transfer.Sound

/-- A short transfer that is not half of the request leaves the pointer on the wrong byte, and a
count that does not fit an `int` is not subtracted: both show at the return of the call. -/
theorem tail_ne_of_wrong_count {c : ℕ} {es : List Syscall} (hz : onZero = none → 1 ≤ least)
    (h : s.Sound base n) (hs : 0 < s.size)
    (hc : ¬((c = 0 ∨ 2 * c = s.size ∨ c = s.size) ∧ c < 2 ^ 31))
    (hfeed : (transferLoop least onZero).feed (.running s) (.moves c :: es) =
      some (.returned r s')) : s'.tail ≠ List.range' base n := by
  intro hs'
  have hlen := h.length
  have hdata := h.data hs
  obtain ⟨a, hstep, hrest⟩ := Loop.feed_cons hfeed
  obtain ⟨hallow, ha⟩ := Loop.step_running hstep
  have hle : c ≤ s.size := by
    simp only [transferLoop, decide_eq_true_eq] at hallow
    exact hallow.2
  rw [ha, transferLoop_body] at hrest
  by_cases hc' : c < 2 ^ 31
  · have hc₀ : 0 < c := by omega
    have hsize : 0 < ((s.kernel (.moves c)).advance c).size := by
      simp only [Transfer.kernel_size, Transfer.advance]
      omega
    rw [body_moves hc₀ hc', Loop.settle, Loop.enter_of_guard (by simpa using hsize)]
      at hrest
    have hnext := feed_next hz hsize hrest
    rw [hs'] at hnext
    -- the address after the bytes already moved is `base + moved.length + c`
    have hi : s.moved.length + c < ((s.kernel (.moves c)).moved ++
        [((s.kernel (.moves c)).advance c).data]).length := by simp [Transfer.kernel]
    have key := hnext.getElem hi
    simp [Transfer.kernel, Transfer.advance] at key
    omega
  · have hspec := spec_length least onZero (n + 1)
    have hmoved : (s.kernel (.moves c)).moved.length = s.moved.length + c := by
      simp [Transfer.kernel]
    have hsize := s.kernel_size (.moves c)
    have hw := toInt32_lt (c := c) (by omega)
    have hlong : Loop.Holds (Loop.Spec.Inside (transferLoop least onZero)
        fun t => n + 1 ≤ t.moved.length + t.size) (fun _ t => n + 1 ≤ t.moved.length + t.size)
        ((transferLoop least onZero).settle (transferBody onZero s (.moves c))) := by
      obtain ⟨r', hr, -⟩ | hr | ⟨w, hw', -, hr⟩ :=
        body_cases onZero s (.moves c) <;> rw [hr]
      · rw [Loop.settle, Loop.Holds]
        omega
      · exact hspec.enter (by omega)
      · apply hspec.enter
        simp only [Transfer.advance, Syscall.ret] at hw' ⊢
        omega
    have hfin := hspec.feed hlong hrest
    have hlen' := congrArg List.length hs'
    simp only [Transfer.tail, List.length_append, List.length_range'] at hlen'
    rw [Loop.Holds, hlen'] at hfin
    omega

/-- **One call**: from a sound cursor, its events are whole or half transfers exactly when it
returns with the whole buffer accounted for, and then the cursor is sound. -/
theorem feed_sound_iff (hz : onZero = none → 1 ≤ least) {es : List Syscall} (h : s.Sound base n)
    (hs : 0 < s.size)
    (hfeed : (transferLoop least onZero).feed (.running s) es = some (.returned r s'))
    (rest : List Syscall) :
    (WholeOrHalf s.size (es ++ rest) ↔
        s'.tail = List.range' base n ∧ WholeOrHalf s'.size rest) ∧
      (s'.tail = List.range' base n → s'.Sound base n) := by
  induction es generalizing s with
  | nil => simp at hfeed
  | cons o es ih =>
    obtain ⟨a, hstep, hrest⟩ := Loop.feed_cons hfeed
    obtain ⟨hallow, ha⟩ := Loop.step_running hstep
    rw [ha, transferLoop_body] at hrest
    -- an iteration that returns `t` ends the script of the call
    have hreturn : ∀ (r' : ℤ) (t : Transfer), t.Sound base n → t.size = s.size →
        transferBody onZero s o = .ret r' t →
        (WholeOrHalf s.size (es ++ rest) ↔
            s'.tail = List.range' base n ∧ WholeOrHalf s'.size rest) ∧
          (s'.tail = List.range' base n → s'.Sound base n) := by
      intro r' t ht hsize hb
      rw [hb, Loop.settle] at hrest
      obtain ⟨rfl, hret⟩ := Loop.feed_returned hrest
      obtain ⟨-, rfl⟩ : r = r' ∧ s' = t := by simpa using hret
      exact ⟨by simp [ht.tail, hsize], fun _ => ht⟩
    cases o with
    | fails e =>
      have hk := h.kernel_fails hs e
      change (WholeOrHalf s.size (es ++ rest) ↔ _) ∧ _
      have hb := body_fails onZero s e
      split_ifs at hb with h₁ h₂
      · exact hreturn 0 _ hk rfl hb
      · exact hreturn (-1) _ hk rfl hb
      · rw [hb, Loop.settle, Loop.enter_of_guard (by simpa using hs)] at hrest
        have hih := ih hk hs hrest
        exact hih
    | moves c =>
      by_cases hc : (c = 0 ∨ 2 * c = s.size ∨ c = s.size) ∧ c < 2 ^ 31
      · have hgoal : WholeOrHalf s.size (.moves c :: es ++ rest) ↔
            WholeOrHalf (s.size - c) (es ++ rest) := by
          rw [List.cons_append, WholeOrHalf, ← and_assoc]
          exact and_iff_right hc
        rw [hgoal]
        rcases Nat.eq_zero_or_pos c with rfl | hc₀
        · cases hzero : onZero with
          | none =>
            have := hz hzero
            simp only [transferLoop, decide_eq_true_eq] at hallow
            omega
          | some r₀ => exact hreturn r₀ _ (h.kernel_zero hs) rfl (body_zero hzero)
        · have hk := h.advance hs (hc.1.resolve_left hc₀.ne')
          rw [body_moves hc₀ hc.2, Loop.settle] at hrest
          by_cases hleft : 0 < s.size - c
          · rw [Loop.enter_of_guard (by simpa [Transfer.advance] using hleft)] at hrest
            have hih := ih hk hleft hrest
            exact hih
          · rw [Loop.enter_of_not_guard (by simpa [Transfer.advance] using hleft)] at hrest
            obtain ⟨rfl, hret⟩ := Loop.feed_returned hrest
            obtain ⟨-, rfl⟩ : r = _ ∧ s' = _ := by simpa using hret
            rw [List.nil_append]
            exact ⟨⟨fun hw => ⟨hk.tail, hw⟩, fun hw => hw.2⟩, fun _ => hk⟩
      · have hne := tail_ne_of_wrong_count hz h hs hc hfeed
        refine ⟨⟨fun hw => ?_, fun hw => absurd hw.1 hne⟩, fun ht => absurd ht hne⟩
        rw [List.cons_append, WholeOrHalf, ← and_assoc] at hw
        exact absurd hw.1 hc

/-- **A sequence of calls**: the buffer is accounted for at every return exactly when every count
of the kernel's script is all of the request or half of it. Every cursor is sound then. -/
theorem calls_sound_iff (hz : onZero = none → 1 ≤ least) {scripts : List (List Syscall)}
    {rs : List (ℤ × Transfer)} (h : s.Sound base n)
    (hcalls : (transferLoop least onZero).calls resumes s scripts = some rs) :
    ((∀ p ∈ rs, p.2.tail = List.range' base n) ↔ WholeOrHalf s.size scripts.flatten) ∧
      ((∀ p ∈ rs, p.2.tail = List.range' base n) → ∀ p ∈ rs, p.2.Sound base n) := by
  induction scripts generalizing s rs with
  | nil =>
    obtain rfl : rs = [] := by simpa [Loop.calls] using hcalls.symm
    simp [WholeOrHalf]
  | cons es rest ih =>
    obtain ⟨r, s', rs', hcall, hnext, hrest, rfl⟩ := Loop.calls_cons hcalls
    simp only [List.forall_mem_cons, List.flatten_cons]
    by_cases hs : 0 < s.size
    · rw [Loop.call, Loop.enter_of_guard (by simpa using hs)] at hcall
      obtain ⟨hiff, hsound⟩ := feed_sound_iff hz h hs hcall rest.flatten
      rw [hiff]
      exact ⟨and_congr_right fun ht => (ih (hsound ht) hrest).1,
        fun ht => ⟨hsound ht.1, (ih (hsound ht.1) hrest).2 ht.2⟩⟩
    · -- nothing is left: the call returns `1` at once, and no call follows it
      rw [Loop.call, Loop.enter_of_not_guard (by simpa using hs)] at hcall
      obtain ⟨rfl, hret⟩ := Loop.feed_returned hcall
      obtain ⟨rfl, rfl⟩ : r = 1 ∧ s' = s := by simpa [transferLoop] using hret
      obtain rfl : rest = [] := hnext.resolve_left (by decide)
      obtain rfl : rs' = [] := by simpa [Loop.calls] using hrest.symm
      simp [h, h.tail, WholeOrHalf]

/-- The result is `1` exactly when nothing is left. -/
theorem calls_one_iff (hone : onZero ≠ some 1) {scripts : List (List Syscall)}
    {rs : List (ℤ × Transfer)}
    (hcalls : (transferLoop least onZero).calls resumes s scripts = some rs) :
    ∀ p ∈ rs, (p.1 = 1 ↔ p.2.size = 0) := by
  have hspec : (transferLoop least onZero).Spec (fun _ => True)
      (fun r t => r = 1 ↔ t.size = 0) := by
    refine ⟨fun t _ hg => ?_, fun _ _ _ _ _ _ _ => trivial, fun t o r t' _ hg _ hb => ?_,
      fun t o _ _ _ hb => ?_⟩
    · simpa [transferLoop] using hg
    all_goals
      change transferBody onZero t o = _ at hb
      obtain ⟨r', hr, hmem⟩ | hr | ⟨w, -, -, hr⟩ := body_cases onZero t o <;>
        rw [hr] at hb <;> cases hb
    have hne : r ≠ 1 := by
      rintro rfl
      cases onZero <;> simp at hmem hone
      exact hone hmem.symm
    simp only [transferLoop_guard, decide_eq_true_eq] at hg
    simp only [hne, Transfer.kernel_size, false_iff]
    omega
  exact hspec.calls (fun _ _ _ _ => trivial) trivial hcalls

end Soundness

/-! ## One system call at a time -/

/-- The bytes a system call moved. -/
def Syscall.count : Syscall → ℕ
  | .moves c => c
  | .fails _ => 0

/-- A system call asked for `size` bytes moved none of them, half of them, or all. -/
def Syscall.Halves (size : ℕ) (o : Syscall) : Prop :=
  o.count = 0 ∨ 2 * o.count = size ∨ o.count = size

instance (size : ℕ) (o : Syscall) : Decidable (o.Halves size) :=
  inferInstanceAs (Decidable (_ ∨ _))

/-- A call on a sound cursor after one more system call: it goes on, or it returns `0` or an error
and has moved nothing, or it returns `1` with the last byte moved. -/
inductive Moved (base n : ℕ) (s : Transfer) (o : Syscall) : Act Transfer ℤ → Prop
  | more {t : Transfer} : t.Sound base n → 0 < t.size →
      t.moved.length = s.moved.length + o.count → Moved base n s o (.running t)
  | stopped {r : ℤ} {t : Transfer} : r ≤ 0 → t.Sound base n → 0 < t.size →
      t.moved.length = s.moved.length → o.count = 0 → Moved base n s o (.returned r t)
  | full {t : Transfer} : t.size = 0 → s.moved.length + o.count = n →
      Moved base n s o (.returned 1 t)

/-- A call before its first system call. -/
theorem moved_enter {onZero : Option ℤ} {least base n : ℕ} {s : Transfer} (h : s.Sound base n)
    (e : Errno) : Moved base n s (.fails e) ((transferLoop least onZero).enter s) := by
  have hlen := h.length
  by_cases hs : 0 < s.size
  · rw [Loop.enter_of_guard (by simpa using hs)]
    exact .more h hs rfl
  · rw [Loop.enter_of_not_guard (by simpa using hs)]
    exact .full (by omega) (by simp only [Syscall.count]; omega)

/-- **One system call** that moves nothing, half or all of a request that fits an `int`. -/
theorem moved_of_step {onZero : Option ℤ} {least base n : ℕ} {s : Transfer} {o : Syscall}
    {a : Act Transfer ℤ} (hz : onZero = none → 1 ≤ least) (hret : ∀ r ∈ onZero, r ≤ 0)
    (h : s.Sound base n) (hs : 0 < s.size) (hn : n < 2 ^ 31) (ho : o.Halves s.size)
    (hstep : (transferLoop least onZero).step (.running s) o = some a) : Moved base n s o a := by
  have hlen := h.length
  obtain ⟨hallow, rfl⟩ := Loop.step_running hstep
  rw [transferLoop_body]
  cases o with
  | fails e =>
    have hk := h.kernel_fails hs e
    have hb := body_fails onZero s e
    split_ifs at hb with h₁ h₂ <;> rw [hb, Loop.settle]
    · exact .stopped le_rfl hk hs rfl rfl
    · exact .stopped (by decide) hk hs rfl rfl
    · rw [Loop.enter_of_guard (by simpa using hs)]
      exact .more hk hs rfl
  | moves c =>
    simp only [transferLoop, decide_eq_true_eq] at hallow
    rcases Nat.eq_zero_or_pos c with rfl | hc
    · cases hzero : onZero with
      | none =>
        have := hz hzero
        omega
      | some r =>
        rw [body_zero rfl, Loop.settle]
        exact .stopped (hret r hzero) (h.kernel_zero hs) hs (by simp [Transfer.kernel]) rfl
    · have hk := h.advance hs (ho.resolve_left hc.ne')
      have hmoved : ((s.kernel (.moves c)).advance c).moved.length = s.moved.length + c := by
        simp [Transfer.kernel, Transfer.advance]
      rw [body_moves hc (by omega), Loop.settle]
      by_cases hleft : 0 < s.size - c
      · rw [Loop.enter_of_guard (by simpa [Transfer.advance] using hleft)]
        exact .more hk (by simpa [Transfer.advance] using hleft) hmoved
      · rw [Loop.enter_of_not_guard (by simpa [Transfer.advance] using hleft)]
        exact .full (show s.size - c = 0 by omega) (by simp only [Syscall.count]; omega)

end Xfnet.Stream
