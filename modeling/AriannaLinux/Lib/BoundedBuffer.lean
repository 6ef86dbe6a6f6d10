import Mathlib.Data.List.Basic
import Mathlib.Tactic.Common

/-! # Bounded buffers that remember an overflow

A buffer of fixed size is filled from the front. A piece that does not fit turns
the buffer into `none`, and `none` absorbs every later push, so one test at the
end tells whether all pieces were stored.
-/

namespace AriannaLinux

/-- What has been stored and how many more elements fit. -/
structure BoundedBuffer (α : Type*) where
  content : List α
  room : ℕ
  deriving DecidableEq, Repr

namespace BoundedBuffer

variable {α : Type*}

/-- The unused buffer of a given size. -/
def ofSize (size : ℕ) : BoundedBuffer α := ⟨[], size⟩

/-- Store a piece behind the content, or overflow. -/
def push (buffer : Option (BoundedBuffer α)) (piece : List α) : Option (BoundedBuffer α) :=
  match buffer with
  | none => none
  | some buffer =>
      if buffer.room < piece.length then none
      else some ⟨buffer.content ++ piece, buffer.room - piece.length⟩

/-- Store several pieces in order. -/
def pushAll (buffer : Option (BoundedBuffer α)) (pieces : List (List α)) :
    Option (BoundedBuffer α) :=
  pieces.foldl push buffer

@[simp] theorem push_none (piece : List α) : push none piece = none := rfl

@[simp] theorem pushAll_nil (buffer : Option (BoundedBuffer α)) : pushAll buffer [] = buffer := rfl

@[simp] theorem pushAll_cons (buffer : Option (BoundedBuffer α)) (piece : List α)
    (pieces : List (List α)) :
    pushAll buffer (piece :: pieces) = pushAll (push buffer piece) pieces := rfl

/-- An overflow is never forgotten. -/
@[simp] theorem pushAll_none (pieces : List (List α)) : pushAll none pieces = none := by
  induction pieces with
  | nil => rfl
  | cons piece pieces ih => simpa using ih

theorem pushAll_append (buffer : Option (BoundedBuffer α)) (first second : List (List α)) :
    pushAll buffer (first ++ second) = pushAll (pushAll buffer first) second :=
  List.foldl_append ..

/-- **Overflow is decided by the total length.** Pushing pieces one by one stores
their concatenation when it fits and overflows otherwise. -/
theorem pushAll_some (buffer : BoundedBuffer α) (pieces : List (List α)) :
    pushAll (some buffer) pieces =
      if pieces.flatten.length ≤ buffer.room then
        some ⟨buffer.content ++ pieces.flatten, buffer.room - pieces.flatten.length⟩
      else none := by
  induction pieces generalizing buffer with
  | nil => simp
  | cons piece pieces ih =>
      rw [pushAll_cons, push]
      by_cases fits : buffer.room < piece.length
      · have overflow : ¬ (piece :: pieces).flatten.length ≤ buffer.room := by
          simp only [List.flatten_cons, List.length_append]; omega
        simp only [fits, ↓reduceIte, pushAll_none, overflow]
      · simp only [fits, ↓reduceIte, ih, List.flatten_cons, List.length_append, List.append_assoc]
        by_cases rest : pieces.flatten.length ≤ buffer.room - piece.length
        · have whole : piece.length + pieces.flatten.length ≤ buffer.room := by omega
          simp only [rest, whole, ↓reduceIte, Nat.sub_add_eq]
        · have whole : ¬ piece.length + pieces.flatten.length ≤ buffer.room := by omega
          simp only [rest, whole, ↓reduceIte]

/-- Two pushes are one push of both pieces. -/
theorem push_append (buffer : Option (BoundedBuffer α)) (first second : List α) :
    push buffer (first ++ second) = push (push buffer first) second := by
  cases buffer with
  | none => rfl
  | some buffer =>
      have both := pushAll_some buffer [first, second]
      have joined := pushAll_some buffer [first ++ second]
      simp only [pushAll_cons, pushAll_nil, List.flatten_cons, List.flatten_nil,
        List.append_nil] at both joined
      rw [both, joined]

/-- Filling an unused buffer. -/
theorem pushAll_ofSize (size : ℕ) (pieces : List (List α)) :
    (pushAll (some (ofSize size)) pieces).map content =
      if pieces.flatten.length ≤ size then some pieces.flatten else none := by
  rw [pushAll_some]
  split <;> simp_all [ofSize]

/-- A buffer that did not overflow holds exactly the pieces. -/
theorem pushAll_eq_some {size : ℕ} {pieces : List (List α)} {buffer : BoundedBuffer α}
    (stored : pushAll (some (ofSize size)) pieces = some buffer) :
    buffer.content = pieces.flatten ∧ pieces.flatten.length ≤ size := by
  rw [pushAll_some] at stored
  split at stored
  · rename_i fits
    cases stored
    exact ⟨rfl, fits⟩
  · cases stored

end BoundedBuffer

end AriannaLinux
