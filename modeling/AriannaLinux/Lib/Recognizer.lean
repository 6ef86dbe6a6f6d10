import Mathlib.Data.List.Infix
import Mathlib.Tactic.Common

/-! # Words that an automaton ends

An automaton that is fed one symbol after the other says where a word ends. A word is what
leads to an end for the first time, so a stream of words can be cut up in one way only.
-/

namespace AriannaLinux

/-- An automaton over symbols, and the states in which a word has ended. -/
structure Recognizer (α : Type*) where
  State : Type
  start : State
  feed : State → α → State
  ended : State → Bool

namespace Recognizer

variable {α : Type*} (auto : Recognizer α)

/-- The state after some symbols. -/
def reach (symbols : List α) : auto.State := symbols.foldl auto.feed auto.start

/-- No word has ended within the symbols, nor with the last of them. -/
def Unended (symbols : List α) : Prop :=
  ∀ k ≤ symbols.length, auto.ended (auto.reach (symbols.take k)) = false

/-- A word ends with the last of the symbols, and none before. -/
structure Word (word : List α) : Prop where
  ended : auto.ended (auto.reach word) = true
  first : ∀ k < word.length, auto.ended (auto.reach (word.take k)) = false

variable {auto}

theorem Unended.front {symbols part : List α} (unended : auto.Unended symbols)
    (inFront : part <+: symbols) : auto.Unended part := by
  obtain ⟨behind, rfl⟩ := inFront
  intro k inside
  have here := unended k (inside.trans (by simp))
  rwa [List.take_append_of_le_length inside] at here

end Recognizer

end AriannaLinux
