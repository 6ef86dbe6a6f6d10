import Mathlib.Data.List.Infix
import Mathlib.Tactic.Common

/-! # Splitting lists

What is known of the pieces of a list between separators: of those between single elements
(`List.splitOn`), and of those between the leftmost occurrences of a separator that is a list
itself.
-/

namespace AriannaLinux

variable {α : Type*}

/-! ## At an element -/

/-- A piece between separators has no separator and lies in the text. -/
theorem mem_splitOn [BEq α] [LawfulBEq α] {sep : α} {text piece : List α}
    (member : piece ∈ text.splitOn sep) : sep ∉ piece ∧ piece ⊆ text := by
  induction length : text.length using Nat.strong_induction_on generalizing text with
  | _ n ih =>
      by_cases found : sep ∈ text
      · obtain ⟨front, back, rfl, free⟩ := List.eq_append_cons_of_mem found
        rw [List.splitOn_append_cons_self_of_not_mem free] at member
        rcases List.mem_cons.mp member with rfl | member
        · exact ⟨free, List.subset_append_left _ _⟩
        · obtain ⟨absent, inside⟩ := ih back.length (by
            rw [← length, List.length_append, List.length_cons]
            omega) member rfl
          exact ⟨absent, fun c here =>
            List.mem_append_right _ (List.mem_cons_of_mem _ (inside here))⟩
      · rw [List.splitOn_eq_singleton found, List.mem_singleton] at member
        exact ⟨member ▸ found, member ▸ List.Subset.refl _⟩

/-! ## At leftmost occurrences -/

/-- `text` is `l` and `r` around the leftmost occurrence of `split`. -/
structure SplitsAt (split l r text : List α) : Prop where
  whole : text = l ++ (split ++ r)
  leftmost : ∀ l' r', text = l' ++ (split ++ r') → l.length ≤ l'.length

/-- The pieces between successive leftmost occurrences of `split`, each search beginning
behind the occurrence before. -/
inductive PiecesOf (split : List α) : List α → List (List α) → Prop
  | last {text : List α} : ¬ split <:+: text → PiecesOf split text [text]
  | piece {text l r : List α} {pieces : List (List α)} : SplitsAt split l r text →
      PiecesOf split r pieces → PiecesOf split text (l :: pieces)

/-- All pieces but an empty last one. -/
def omitEmptyLast : List (List α) → List (List α)
  | [] => []
  | [piece] => if piece.length = 0 then [] else [piece]
  | piece :: pieces => piece :: omitEmptyLast pieces

variable {split l r text : List α}

theorem SplitsAt.occurs (splits : SplitsAt split l r text) : split <:+: text :=
  ⟨l, r, by rw [splits.whole, List.append_assoc]⟩

/-- There is one leftmost occurrence. -/
theorem SplitsAt.unique {l' r' : List α} (splits : SplitsAt split l r text)
    (splits' : SplitsAt split l' r' text) : l = l' ∧ r = r' := by
  have before := splits.leftmost _ _ splits'.whole
  have after := splits'.leftmost _ _ splits.whole
  have same := splits.whole.symm.trans splits'.whole
  obtain ⟨sameLeft, rest⟩ := List.append_inj same (le_antisymm before after)
  exact ⟨sameLeft, List.append_cancel_left rest⟩

/-- A text has one list of pieces. -/
theorem PiecesOf.unique {pieces pieces' : List (List α)} (first : PiecesOf split text pieces)
    (second : PiecesOf split text pieces') : pieces = pieces' := by
  induction first generalizing pieces' with
  | last absent =>
      cases second with
      | last => rfl
      | piece splits => exact absurd splits.occurs absent
  | piece splits _ ih =>
      cases second with
      | last absent => exact absurd splits.occurs absent
      | piece splits' rest =>
          obtain ⟨rfl, rfl⟩ := splits.unique splits'
          rw [ih rest]

theorem omitEmptyLast_cons (piece : List α) {pieces : List (List α)} (more : pieces ≠ []) :
    omitEmptyLast (piece :: pieces) = piece :: omitEmptyLast pieces := by
  obtain ⟨second, rest, rfl⟩ := List.exists_cons_of_ne_nil more
  rfl

theorem PiecesOf.ne_nil {pieces : List (List α)} (pieces_of : PiecesOf split text pieces) :
    pieces ≠ [] := by
  cases pieces_of <;> simp

end AriannaLinux
