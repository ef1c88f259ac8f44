import Mathlib.Data.List.Basic

/-!
# Frames of a byte stream

A frame is a header of a fixed size, which tells the length of the body, and the body. A sequence of
frames can be cut apart again from the front (`head_of_stream`, `frame_of_stream`), wherever the
stream is cut by those who transport it.
-/

namespace Framing

variable {β : Type*}

/-- The header of a body, by its length. -/
structure Format (β : Type*) where
  headSize : ℕ
  head : ℕ → List β
  length_head : ∀ n, (head n).length = headSize
  headSize_pos : 0 < headSize

namespace Format

variable (F : Format β)

def frame (body : List β) : List β := F.head body.length ++ body

/-- The frames of the bodies, one after another. -/
def stream (bodies : List (List β)) : List β := (bodies.map F.frame).flatten

variable {F} {bodies : List (List β)} {b l r : List β}

theorem length_frame (b : List β) : (F.frame b).length = F.headSize + b.length := by
  rw [frame, List.length_append, F.length_head]

theorem stream_cons (b : List β) (bodies : List (List β)) :
    F.stream (b :: bodies) = F.frame b ++ F.stream bodies := rfl

theorem stream_append (bodies bodies' : List (List β)) :
    F.stream (bodies ++ bodies') = F.stream bodies ++ F.stream bodies' := by
  rw [stream, List.map_append, List.flatten_append, stream, stream]

/-- Less than a header is not the beginning of a frame that ends. -/
theorem eq_nil_of_length_lt (h : (F.stream bodies).length < F.headSize) : bodies = [] := by
  cases bodies with
  | nil => rfl
  | cons b bodies =>
    rw [stream_cons, List.length_append, length_frame] at h
    omega

/-- The first bytes of a stream are the header of its first frame. -/
theorem head_of_stream (h : l ++ r = F.stream bodies) (hl : l.length = F.headSize) :
    ∃ b rest, bodies = b :: rest ∧ l = F.head b.length ∧ r = b ++ F.stream rest := by
  have hpos := F.headSize_pos
  cases bodies with
  | nil =>
    obtain ⟨rfl, -⟩ := List.append_eq_nil_iff.mp (h.trans rfl)
    rw [List.length_nil] at hl
    omega
  | cons b rest =>
    rw [stream_cons, frame, List.append_assoc] at h
    obtain ⟨hhead, hrest⟩ := List.append_inj h (hl.trans (F.length_head _).symm)
    exact ⟨b, rest, rfl, hhead, hrest⟩

/-- As many bytes as the first frame has are the first frame. -/
theorem frame_of_stream {rest : List (List β)} (h : l ++ r = F.stream (b :: rest))
    (hl : l.length = F.headSize + b.length) : l = F.frame b ∧ r = F.stream rest := by
  rw [stream_cons] at h
  exact List.append_inj h (hl.trans (length_frame b).symm)

end Format

/-! ## Buffers -/

/-- The buffer after `bs` was stored at an offset. There is nothing behind its end to store in. -/
def store (buf : List β) (i : ℕ) (bs : List β) : Option (List β) :=
  if i + bs.length ≤ buf.length then some (buf.take i ++ (bs ++ buf.drop (i + bs.length)))
  else none

variable {buf buf' bs : List β} {i : ℕ}

theorem length_of_store (h : store buf i bs = some buf') : buf'.length = buf.length := by
  obtain ⟨hle, he⟩ := Option.ite_none_right_eq_some.mp h
  obtain rfl := Option.some.inj he
  simp only [List.length_append, List.length_take, List.length_drop]
  omega

/-- Bytes stored behind the filled part extend it. -/
theorem take_of_store (h : store buf i bs = some buf') :
    buf'.take (i + bs.length) = buf.take i ++ bs := by
  obtain ⟨hle, he⟩ := Option.ite_none_right_eq_some.mp h
  obtain rfl := Option.some.inj he
  have hlen : (buf.take i).length = i := by
    rw [List.length_take]
    omega
  rw [← List.append_assoc, List.take_left' (by rw [List.length_append, hlen])]

end Framing
