import Xfnet.Foundations.Framing

/-!
# Cutting a byte stream into frames

Any list of bytes begins with some complete frames (`frames`), and behind them comes what is not one
(`leftover`): a frame that has not ended, or bytes that are no header. This is the only way to cut
it (`frames_stream_append`).
-/

namespace Framing

variable {β : Type*}

/-- The length of the body that a header announces, unless the bytes are no header. -/
structure Reader (F : Format β) where
  size : List β → Option ℕ
  head_of_size : ∀ l n, l.length = F.headSize → size l = some n → F.head n = l

namespace Reader

variable {F : Format β} (R : Reader F)

/-- The header of this body is read back. -/
def Admits (b : List β) : Prop := R.size (F.head b.length) = some b.length

/-- The body of the first frame, and what comes behind it. -/
def cut (l : List β) : Option (List β × List β) :=
  (R.size (l.take F.headSize)).bind fun n =>
    if F.headSize + n ≤ l.length then
      some ((l.drop F.headSize).take n, l.drop (F.headSize + n))
    else none

/-- The first frames, `fuel` at most. -/
def scan : ℕ → List β → List (List β) × List β
  | 0, l => ([], l)
  | fuel + 1, l =>
    match R.cut l with
    | none => ([], l)
    | some (b, r) => (b :: (scan fuel r).1, (scan fuel r).2)

/-- The bodies of the complete frames in front. -/
def frames (l : List β) : List (List β) := (R.scan l.length l).1

/-- What comes behind the complete frames. -/
def leftover (l : List β) : List β := (R.scan l.length l).2

variable {R} {l r raw b : List β} {bodies : List (List β)} {n : ℕ}

theorem cut_eq_some (h : R.cut l = some (b, r)) : l = F.frame b ++ r ∧ R.Admits b := by
  obtain ⟨n, hsize, hcut⟩ := Option.bind_eq_some_iff.mp h
  obtain ⟨hle, he⟩ := Option.ite_none_right_eq_some.mp hcut
  obtain ⟨rfl, rfl⟩ := Prod.mk.inj (Option.some.inj he)
  have hlen : ((l.drop F.headSize).take n).length = n := by
    rw [List.length_take, List.length_drop]
    omega
  have htake : (l.take F.headSize).length = F.headSize := List.length_take_of_le (by omega)
  have hhead := R.head_of_size _ _ htake hsize
  refine ⟨?_, ?_⟩
  · rw [Format.frame, hlen, hhead, List.append_assoc, ← List.drop_drop, List.take_append_drop,
      List.take_append_drop]
  · show R.size (F.head _) = some _
    rw [hlen, hhead, hsize]

theorem cut_frame (hb : R.Admits b) (r : List β) : R.cut (F.frame b ++ r) = some (b, r) := by
  have htake : (F.frame b ++ r).take F.headSize = F.head b.length := by
    rw [Format.frame, List.append_assoc, List.take_left' (F.length_head _)]
  have hle : F.headSize + b.length ≤ (F.frame b ++ r).length := by
    rw [List.length_append, Format.length_frame]
    omega
  have hbody : ((F.frame b ++ r).drop F.headSize).take b.length = b := by
    rw [Format.frame, List.append_assoc, List.drop_left' (F.length_head _), List.take_left]
  rw [cut, htake, hb, Option.bind_some, if_pos hle, hbody,
    List.drop_left' (Format.length_frame b)]

/-- A header and less than its body is no frame. -/
theorem cut_of_lt (h : R.size (l.take F.headSize) = some n) (hlt : l.length < F.headSize + n) :
    R.cut l = none := by
  rw [cut, h, Option.bind_some, if_neg (by omega)]

/-- Less than a header is no frame. -/
theorem cut_of_short (h : l.length < F.headSize) : R.cut l = none := by
  cases hsize : R.size (l.take F.headSize) with
  | none => rw [cut, hsize, Option.bind_none]
  | some n => exact cut_of_lt hsize (by omega)

theorem cut_of_size (h : R.size (l.take F.headSize) = none) : R.cut l = none := by
  rw [cut, h, Option.bind_none]

/-- There are not more frames than bytes. -/
theorem scan_eq {fuel : ℕ} (h : l.length ≤ fuel) : R.scan fuel l = (R.frames l, R.leftover l) := by
  suffices ∀ (fuel fuel' : ℕ) (l : List β), l.length ≤ fuel → l.length ≤ fuel' →
      R.scan fuel l = R.scan fuel' l from
    this fuel l.length l h (Nat.le_refl _)
  have hnil : R.cut ([] : List β) = none := cut_of_short F.headSize_pos
  intro fuel
  induction fuel with
  | zero =>
    intro fuel' l hl _
    obtain rfl := List.length_eq_zero_iff.mp (Nat.le_zero.mp hl)
    cases fuel' with
    | zero => rfl
    | succ fuel' => rw [scan, scan, hnil]
  | succ fuel ih =>
    intro fuel' l hl hl'
    cases hcut : R.cut l with
    | none => cases fuel' <;> simp only [scan, hcut]
    | some p =>
      obtain ⟨b, r⟩ := p
      have hlen := congrArg List.length (cut_eq_some hcut).1
      rw [List.length_append, Format.length_frame] at hlen
      have hpos := F.headSize_pos
      cases fuel' with
      | zero => omega
      | succ fuel' => simp only [scan, hcut, ih fuel' r (by omega) (by omega)]

theorem scan_of_cut (h : R.cut l = some (b, r)) :
    R.frames l = b :: R.frames r ∧ R.leftover l = R.leftover r := by
  have hlen := congrArg List.length (cut_eq_some h).1
  rw [List.length_append, Format.length_frame] at hlen
  have hpos := F.headSize_pos
  obtain ⟨m, hm⟩ : ∃ m, l.length = m + 1 := ⟨l.length - 1, by omega⟩
  have hscan : R.scan l.length l = (b :: R.frames r, R.leftover r) := by
    rw [hm, scan, h]
    dsimp only
    rw [scan_eq (show r.length ≤ m by omega)]
  exact ⟨congrArg Prod.fst hscan, congrArg (·.2) hscan⟩

theorem frames_of_cut_eq_none (h : R.cut l = none) : R.frames l = [] ∧ R.leftover l = l := by
  have hscan : R.scan l.length l = ([], l) := by
    cases l.length with
    | zero => rfl
    | succ m => rw [scan, h]
  exact ⟨congrArg Prod.fst hscan, congrArg Prod.snd hscan⟩

/-- **Frames in front** are found, and the rest is cut by itself. -/
theorem frames_stream_append (hb : ∀ b ∈ bodies, R.Admits b) (raw : List β) :
    R.frames (F.stream bodies ++ raw) = bodies ++ R.frames raw ∧
      R.leftover (F.stream bodies ++ raw) = R.leftover raw := by
  induction bodies with
  | nil => exact ⟨rfl, rfl⟩
  | cons b bodies ih =>
    obtain ⟨hfirst, hrest⟩ := List.forall_mem_cons.mp hb
    obtain ⟨hframes, hleftover⟩ := ih hrest
    rw [Format.stream_cons, List.append_assoc]
    obtain ⟨hframes', hleftover'⟩ := scan_of_cut (cut_frame hfirst (F.stream bodies ++ raw))
    exact ⟨by rw [hframes', hframes]; rfl, hleftover'.trans hleftover⟩

/-- The frames and what comes behind them are all there is. -/
theorem stream_frames_append (l : List β) : F.stream (R.frames l) ++ R.leftover l = l := by
  suffices ∀ fuel (l : List β), F.stream (R.scan fuel l).1 ++ (R.scan fuel l).2 = l from
    this l.length l
  intro fuel
  induction fuel with
  | zero => exact fun l => rfl
  | succ fuel ih =>
    intro l
    cases hcut : R.cut l with
    | none =>
      rw [scan, hcut]
      rfl
    | some p =>
      rw [scan, hcut]
      show F.stream (p.1 :: _) ++ _ = l
      rw [Format.stream_cons, List.append_assoc, ih]
      exact (cut_eq_some hcut).1.symm

end Reader

end Framing
