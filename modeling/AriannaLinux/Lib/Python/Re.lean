import Mathlib.Data.List.Infix
import Mathlib.Data.List.Sigma
import Mathlib.Tactic.Common

/-! # Regular expressions of `re`

A pattern gives the lengths of its matches at the beginning of a text in the order in which
backtracking tries them, and the first of them counts. Replacing all matches by nothing leaves
exactly what no occurrence covers, provided that no occurrence begins inside a match and goes on
behind it (`Erases.sub_eq_filter`).
-/

namespace AriannaLinux.Python

variable {α β : Type*}

/-- A pattern. The repetitions are those of one character of a kind. -/
inductive Regex (α : Type*) where
  | empty
  | char (kind : α → Bool)
  | seq (first second : Regex α)
  /-- `…?` -/
  | optional (pattern : Regex α)
  /-- `[…]+` -/
  | plus (kind : α → Bool)
  /-- `[…]*?` -/
  | lazyStar (kind : α → Bool)

namespace Regex

/-- The lengths of the matches at the beginning of a text, in the order of preference. -/
def lengths : Regex α → List α → List ℕ
  | .empty, _ => [0]
  | .char _, [] => []
  | .char kind, c :: _ => if kind c then [1] else []
  | .seq first second, text =>
      (first.lengths text).flatMap fun n => (second.lengths (text.drop n)).map (n + ·)
  | .optional pattern, text => pattern.lengths text ++ [0]
  | .plus kind, text => (List.range (text.takeWhile kind).length).reverse.map (1 + ·)
  | .lazyStar kind, text => List.range ((text.takeWhile kind).length + 1)

/-- The length of the match at the beginning of a text, and 0 if there is none. -/
def matchLength (pattern : Regex α) (text : List α) : ℕ := (pattern.lengths text).head?.getD 0

/-- What is left when matches are replaced by nothing, behind characters of a match. -/
def subBehind (pattern : Regex α) : ℕ → List α → List α
  | _, [] => []
  | skipped + 1, _ :: rest => subBehind pattern skipped rest
  | 0, c :: rest =>
      match pattern.matchLength (c :: rest) with
      | 0 => c :: subBehind pattern 0 rest
      | length + 1 => subBehind pattern length rest

/-- `re.sub(pattern, "", text)`, for a pattern that does not match the empty text. -/
def sub (pattern : Regex α) (text : List α) : List α := pattern.subBehind 0 text

/-- The pattern of a text. -/
def literal [DecidableEq α] : List α → Regex α
  | [] => .empty
  | c :: text => .seq (.char (· = c)) (literal text)

/-- A word of the pattern. -/
def Accepts : Regex α → List α → Prop
  | .empty, word => word = []
  | .char kind, word => ∃ c, word = [c] ∧ kind c = true
  | .seq first second, word =>
      ∃ front back, word = front ++ back ∧ first.Accepts front ∧ second.Accepts back
  | .optional pattern, word => pattern.Accepts word ∨ word = []
  | .plus kind, word => word ≠ [] ∧ ∀ c ∈ word, kind c = true
  | .lazyStar kind, word => ∀ c ∈ word, kind c = true

theorem accepts_literal [DecidableEq α] {text word : List α} :
    (literal text).Accepts word ↔ word = text := by
  induction text generalizing word with
  | nil => rfl
  | cons c text ih =>
      constructor
      · rintro ⟨front, back, rfl, ⟨first, rfl, same⟩, accepted⟩
        rw [ih.mp accepted, of_decide_eq_true same, List.singleton_append]
      · rintro rfl
        exact ⟨[c], text, rfl, ⟨c, rfl, decide_eq_true rfl⟩, ih.mpr rfl⟩

/-! ## Matches -/

theorem le_length_takeWhile {kind : α → Bool} {text : List α} {n : ℕ} :
    n ≤ (text.takeWhile kind).length ↔ n ≤ text.length ∧ ∀ c ∈ text.take n, kind c = true := by
  induction text generalizing n with
  | nil => simp
  | cons c text ih =>
      cases n with
      | zero => simp
      | succ n =>
          by_cases fits : kind c = true
          · rw [List.takeWhile_cons_of_pos fits, List.length_cons, Nat.succ_le_succ_iff, ih]
            simp [fits]
          · rw [List.takeWhile_cons_of_neg fits]
            simp [fits]

/-- **Matches are the words of the pattern** that the text begins with. -/
theorem mem_lengths {pattern : Regex α} {text : List α} {n : ℕ} :
    n ∈ pattern.lengths text ↔ n ≤ text.length ∧ pattern.Accepts (text.take n) := by
  induction pattern generalizing text n with
  | empty =>
      cases text <;> cases n <;> simp [lengths, Accepts]
  | char kind =>
      cases text with
      | nil => simp [lengths, Accepts]
      | cons c text =>
          by_cases fits : kind c = true
          · cases n with
            | zero => simp [lengths, Accepts, fits]
            | succ n => cases text <;> cases n <;> simp [lengths, Accepts, fits]
          · cases n with
            | zero => simp [lengths, Accepts, fits]
            | succ n => cases text <;> cases n <;> simp [lengths, Accepts, fits]
  | seq first second ihFirst ihSecond =>
      simp only [lengths, List.mem_flatMap, List.mem_map, ihFirst, ihSecond]
      constructor
      · rintro ⟨front, ⟨inside, accepted⟩, back, ⟨insideBack, acceptedBack⟩, rfl⟩
        rw [List.length_drop] at insideBack
        refine ⟨by omega, text.take front, (text.drop front).take back, ?_, accepted, acceptedBack⟩
        rw [List.take_add]
      · rintro ⟨inside, front, back, split, accepted, acceptedBack⟩
        have whole : text = front ++ (back ++ text.drop n) := by
          rw [← List.append_assoc, ← split, List.take_append_drop]
        have length : front.length + back.length = n := by
          rw [← List.length_append, ← split, List.length_take, min_eq_left inside]
        refine ⟨front.length, ⟨by omega, ?_⟩, back.length, ⟨?_, ?_⟩, length⟩
        · rwa [whole, List.take_left]
        · rw [List.length_drop]
          omega
        · rwa [whole, List.drop_left, List.take_left]
  | optional pattern ih =>
      simp only [lengths, List.mem_append, List.mem_singleton, ih, Accepts]
      constructor
      · rintro (⟨inside, accepted⟩ | rfl)
        · exact ⟨inside, .inl accepted⟩
        · exact ⟨Nat.zero_le _, .inr rfl⟩
      · rintro ⟨inside, accepted | none⟩
        · exact .inl ⟨inside, accepted⟩
        · refine .inr ?_
          have length := congrArg List.length none
          rw [List.length_take, min_eq_left inside] at length
          exact length
  | plus kind =>
      simp only [lengths, List.mem_map, List.mem_reverse, List.mem_range, Accepts]
      constructor
      · rintro ⟨n, shorter, rfl⟩
        obtain ⟨inside, fits⟩ := le_length_takeWhile.mp (show 1 + n ≤ (text.takeWhile kind).length by omega)
        refine ⟨inside, ?_, fits⟩
        intro none
        have length := congrArg List.length none
        rw [List.length_take, min_eq_left inside] at length
        simp at length
      · rintro ⟨inside, some_text, fits⟩
        have reached := le_length_takeWhile.mpr ⟨inside, fits⟩
        cases n with
        | zero => exact absurd rfl some_text
        | succ n => exact ⟨n, reached, Nat.add_comm 1 n⟩
  | lazyStar kind =>
      simp only [lengths, List.mem_range, Nat.lt_succ_iff, Accepts]
      exact le_length_takeWhile

theorem matchLength_mem {pattern : Regex α} {text : List α} (some_match : pattern.lengths text ≠ []) :
    pattern.matchLength text ∈ pattern.lengths text := by
  obtain ⟨n, rest, shape⟩ := List.exists_cons_of_ne_nil some_match
  rw [matchLength, shape]
  exact List.mem_cons_self

/-- A match is a word of the pattern. -/
theorem accepts_match {pattern : Regex α} {text : List α} (matched : 0 < pattern.matchLength text) :
    pattern.matchLength text ≤ text.length ∧
      pattern.Accepts (text.take (pattern.matchLength text)) := by
  refine mem_lengths.mp (matchLength_mem fun none => ?_)
  rw [matchLength, none] at matched
  exact absurd matched (lt_irrefl 0)

/-- Where the text begins with a word of the pattern there is a match. -/
theorem matchLength_mem_of_accepts {pattern : Regex α} {text word : List α}
    (front : word <+: text) (accepted : pattern.Accepts word) :
    word.length ∈ pattern.lengths text ∧
      pattern.matchLength text ∈ pattern.lengths text := by
  have present : word.length ∈ pattern.lengths text := by
    refine mem_lengths.mpr ⟨front.length_le, ?_⟩
    rwa [← List.prefix_iff_eq_take.mp front]
  exact ⟨present, matchLength_mem (List.ne_nil_of_mem present)⟩

/-! ## The order of the matches -/

/-- The lengths of all matches are in an order. -/
def Ordered (order : ℕ → ℕ → Prop) (pattern : Regex α) : Prop :=
  ∀ text, (pattern.lengths text).Pairwise order

/-- All matches have one length. -/
def Fixed (length : ℕ) (pattern : Regex α) : Prop :=
  ∀ text, pattern.lengths text = [] ∨ pattern.lengths text = [length]

theorem fixed_char (kind : α → Bool) : Fixed 1 (.char kind) := by
  intro text
  cases text with
  | nil => exact .inl rfl
  | cons c text =>
      by_cases fits : kind c = true
      · exact .inr (if_pos fits)
      · exact .inl (if_neg fits)

theorem Fixed.seq {first second : Regex α} {m n : ℕ} (front : Fixed m first)
    (back : Fixed n second) : Fixed (m + n) (.seq first second) := by
  intro text
  rw [lengths]
  rcases front text with none | one
  · exact .inl (by rw [none, List.flatMap_nil])
  · rw [one, List.flatMap_singleton]
    rcases back (text.drop m) with none | one
    · exact .inl (by rw [none, List.map_nil])
    · exact .inr (by rw [one, List.map_singleton])

theorem fixed_literal [DecidableEq α] (text : List α) : Fixed text.length (literal text) := by
  induction text with
  | nil => exact fun _ => .inr rfl
  | cons c text ih =>
      rw [List.length_cons, Nat.add_comm]
      exact (fixed_char _).seq ih

theorem ordered_plus (kind : α → Bool) : Ordered (· > ·) (.plus kind) := by
  intro text
  rw [lengths, List.pairwise_map, List.pairwise_reverse]
  exact List.pairwise_lt_range.imp fun {_ _} less => Nat.add_lt_add_left less 1

theorem ordered_lazyStar (kind : α → Bool) : Ordered (· < ·) (.lazyStar kind) :=
  fun _ => List.pairwise_lt_range

variable {order : ℕ → ℕ → Prop} {first second : Regex α} {length : ℕ}

theorem Fixed.seq_ordered (shift : ∀ m n k : ℕ, order m n → order (k + m) (k + n))
    (front : Fixed length first) (ordered : Ordered order second) :
    Ordered order (.seq first second) := by
  intro text
  rw [lengths]
  rcases front text with none | one
  · rw [none, List.flatMap_nil]
    exact List.Pairwise.nil
  · rw [one, List.flatMap_singleton, List.pairwise_map]
    exact (ordered _).imp fun {m n} less => shift m n length less

theorem Ordered.seq_fixed (shift : ∀ m n k : ℕ, order m n → order (m + k) (n + k))
    (ordered : Ordered order first) (back : Fixed length second) :
    Ordered order (.seq first second) := by
  intro text
  have only : ∀ ns : List ℕ, ns.Pairwise order →
      (ns.flatMap fun n => (second.lengths (text.drop n)).map (n + ·)).Pairwise order := by
    intro ns
    induction ns with
    | nil => exact fun _ => List.Pairwise.nil
    | cons n ns ih =>
        intro sorted
        obtain ⟨before, sorted⟩ := List.pairwise_cons.mp sorted
        rw [List.flatMap_cons, List.pairwise_append]
        refine ⟨?_, ih sorted, ?_⟩
        · rcases back (text.drop n) with none | one
          · rw [none, List.map_nil]
            exact List.Pairwise.nil
          · rw [one, List.map_singleton]
            exact List.pairwise_singleton _ _
        · intro a front b behind
          obtain ⟨later, member, behind⟩ := List.mem_flatMap.mp behind
          obtain ⟨a', present, rfl⟩ := List.mem_map.mp front
          obtain ⟨b', presentBehind, rfl⟩ := List.mem_map.mp behind
          have sameFront : a' = length := by
            rcases back (text.drop n) with none | one
            · rw [none] at present
              cases present
            · rw [one] at present
              exact List.mem_singleton.mp present
          have sameBehind : b' = length := by
            rcases back (text.drop later) with none | one
            · rw [none] at presentBehind
              cases presentBehind
            · rw [one] at presentBehind
              exact List.mem_singleton.mp presentBehind
          rw [sameFront, sameBehind]
          exact shift n later length (before later member)
  exact only _ (ordered text)

/-- An optional character with which nothing else begins. -/
theorem Ordered.seq_optional {kind : α → Bool} (shift : ∀ m n k : ℕ, order m n → order (k + m) (k + n))
    (ordered : Ordered order second)
    (exclusive : ∀ c text, kind c = true → second.lengths (c :: text) = []) :
    Ordered order (.seq (.optional (.char kind)) second) := by
  have shifted : ∀ k text, ((second.lengths text).map (k + ·)).Pairwise order := fun k text =>
    List.pairwise_map.mpr ((ordered text).imp fun {m n} less => shift m n k less)
  intro text
  cases text with
  | nil => simpa only [lengths, List.nil_append, List.flatMap_singleton, List.drop_nil] using
      shifted 0 []
  | cons c text =>
      by_cases fits : kind c = true
      · simpa only [lengths, fits, ↓reduceIte, List.singleton_append, List.flatMap_cons,
          List.flatMap_nil, List.drop_succ_cons, List.drop_zero, exclusive c text fits,
          List.map_nil, List.append_nil] using shifted 1 text
      · simpa only [lengths, fits, Bool.false_eq_true, ↓reduceIte, List.nil_append,
          List.flatMap_singleton, List.drop_zero] using shifted 0 (c :: text)

/-- A greedy pattern matches the longest word. -/
theorem Ordered.le_matchLength {pattern : Regex α} (ordered : Ordered (· > ·) pattern)
    {text word : List α} (front : word <+: text) (accepted : pattern.Accepts word) :
    word.length ≤ pattern.matchLength text := by
  obtain ⟨present, -⟩ := matchLength_mem_of_accepts front accepted
  have sorted := ordered text
  obtain ⟨n, rest, shape⟩ := List.exists_cons_of_ne_nil (List.ne_nil_of_mem present)
  rw [shape] at present sorted
  rw [matchLength, shape]
  rcases List.mem_cons.mp present with first | later
  · exact first.le
  · exact (List.rel_of_pairwise_cons sorted later).le

/-- A lazy pattern matches the shortest word. -/
theorem Ordered.matchLength_le {pattern : Regex α} (ordered : Ordered (· < ·) pattern)
    {text word : List α} (front : word <+: text) (accepted : pattern.Accepts word) :
    pattern.matchLength text ≤ word.length := by
  obtain ⟨present, -⟩ := matchLength_mem_of_accepts front accepted
  have sorted := ordered text
  obtain ⟨n, rest, shape⟩ := List.exists_cons_of_ne_nil (List.ne_nil_of_mem present)
  rw [shape] at present sorted
  rw [matchLength, shape]
  rcases List.mem_cons.mp present with first | later
  · exact first.ge
  · exact (List.rel_of_pairwise_cons sorted later).le

/-! ## Replacing matches by nothing -/

/-- The pattern for characters that carry something else. -/
def comap (view : β → α) : Regex α → Regex β
  | .empty => .empty
  | .char kind => .char (kind ∘ view)
  | .seq first second => .seq (first.comap view) (second.comap view)
  | .optional pattern => .optional (pattern.comap view)
  | .plus kind => .plus (kind ∘ view)
  | .lazyStar kind => .lazyStar (kind ∘ view)

@[simp] theorem lengths_comap (view : β → α) (pattern : Regex α) (text : List β) :
    (pattern.comap view).lengths text = pattern.lengths (text.map view) := by
  induction pattern generalizing text with
  | empty => cases text <;> rfl
  | char kind => cases text <;> rfl
  | seq first second ihFirst ihSecond =>
      simp only [comap, lengths, ihFirst, ihSecond, List.map_drop]
  | optional pattern ih => simp only [comap, lengths, ih]
  | plus kind => simp only [comap, lengths, List.takeWhile_map, List.length_map]
  | lazyStar kind => simp only [comap, lengths, List.takeWhile_map, List.length_map]

@[simp] theorem matchLength_comap (view : β → α) (pattern : Regex α) (text : List β) :
    (pattern.comap view).matchLength text = pattern.matchLength (text.map view) := by
  rw [matchLength, lengths_comap, matchLength]

theorem map_sub_comap (view : β → α) (pattern : Regex α) (text : List β) :
    ((pattern.comap view).sub text).map view = pattern.sub (text.map view) := by
  suffices every : ∀ skipped, ((pattern.comap view).subBehind skipped text).map view =
      pattern.subBehind skipped (text.map view) from every 0
  induction text with
  | nil => intro skipped; cases skipped <;> rfl
  | cons c text ih =>
      intro skipped
      cases skipped with
      | succ skipped => exact ih skipped
      | zero =>
          rw [List.map_cons, subBehind, subBehind, matchLength_comap, List.map_cons]
          cases pattern.matchLength (view c :: text.map view) with
          | zero => exact congrArg _ (ih 0)
          | succ length => exact ih length

/-- A character in an occurrence of a word. -/
def Covered (Word : List α → Prop) (text : List α) (c : α) : Prop :=
  ∃ before word behind, text = before ++ word ++ behind ∧ Word word ∧ c ∈ word

/-- The matches are words, and no word begins in a match and ends behind it. -/
structure Erases (pattern : Regex α) (Word : List α → Prop) : Prop where
  sound : ∀ text, 0 < pattern.matchLength text → Word (text.take (pattern.matchLength text))
  covers : ∀ text n word, n = 0 ∨ n < pattern.matchLength text → Word word →
    word <+: text.drop n → n + word.length ≤ pattern.matchLength text

theorem Erases.comap {pattern : Regex α} {Word : List α → Prop} (erases : Erases pattern Word)
    (view : β → α) : Erases (pattern.comap view) fun word => Word (word.map view) where
  sound text matched := by
    rw [matchLength_comap] at matched ⊢
    rw [List.map_take]
    exact erases.sound _ matched
  covers text n word inside isWord front := by
    rw [matchLength_comap] at inside ⊢
    have here := erases.covers (text.map view) n _ inside isWord
      (by rw [← List.map_drop]; exact front.map view)
    rwa [List.length_map] at here

/-- Where a character is that a word covers. -/
theorem Covered.position {Word : List α → Prop} {before rest : List α} {c : α}
    (distinct : (before ++ c :: rest).Nodup) (covered : Covered Word (before ++ c :: rest) c) :
    ∃ left word behind, before ++ c :: rest = left ++ word ++ behind ∧ Word word ∧
      left.length ≤ before.length ∧ before.length < left.length + word.length := by
  obtain ⟨left, word, behind, whole, isWord, member⟩ := covered
  obtain ⟨front, back, rfl⟩ := List.append_of_mem member
  refine ⟨left, _, behind, whole, isWord, ?_⟩
  rw [show left ++ (front ++ c :: back) ++ behind = (left ++ front) ++ c :: (back ++ behind) by
    simp only [List.append_assoc, List.cons_append]] at whole
  have absent : c ∉ before := fun early =>
    List.disjoint_of_nodup_append distinct early List.mem_cons_self
  have absentBehind : c ∉ rest := (List.nodup_cons.mp distinct.of_append_right).1
  obtain ⟨rfl, -⟩ := (List.append_cons_inj_of_notMem absent absentBehind).mp whole
  simp only [List.length_append, List.length_cons]
  omega

theorem covered_match {pattern : Regex α} {Word : List α → Prop} (erases : Erases pattern Word)
    {before rest : List α} {c : α} {start : ℕ} (began : start ≤ before.length)
    (reaches : before.length < start + pattern.matchLength ((before ++ c :: rest).drop start)) :
    Covered Word (before ++ c :: rest) c := by
  set text := before ++ c :: rest with whole
  set length := pattern.matchLength (text.drop start)
  refine ⟨text.take start, (text.drop start).take length, (text.drop start).drop length, ?_,
    erases.sound _ (by omega), ?_⟩
  · rw [List.append_assoc, List.take_append_drop, List.take_append_drop]
  · have found : ((text.drop start).take length)[before.length - start]? = some c := by
      rw [List.getElem?_take_of_lt (by omega), List.getElem?_drop, whole,
        List.getElem?_append_right (by omega)]
      simp [began]
    exact List.mem_of_getElem? found

/-- A text without words is left as it is. -/
theorem Erases.sub_eq_self {pattern : Regex α} {Word : List α → Prop}
    (erases : Erases pattern Word) {text : List α} (none : ∀ word, word <:+: text → ¬ Word word) :
    pattern.sub text = text := by
  rw [sub]
  induction text with
  | nil => rfl
  | cons c text ih =>
      rw [subBehind]
      split
      · rw [ih fun word inside => none word (inside.trans (List.suffix_cons c text).isInfix)]
      · rename_i length matched
        have isWord := erases.sound (c :: text) (by omega)
        exact absurd isWord (none _ (List.take_prefix _ _).isInfix)

open Classical in
/-- **Exactly what no occurrence covers is left.** -/
theorem Erases.sub_eq_filter {pattern : Regex α} {Word : List α → Prop}
    (erases : Erases pattern Word) {text : List α} (distinct : text.Nodup) :
    pattern.sub text = text.filter fun c => ¬ Covered Word text c := by
  -- the last match began at `start`, and the words that began so far have ended with it
  suffices every : ∀ rest before skipped start, text = before ++ rest → start ≤ before.length →
      (skipped ≠ 0 →
        before.length + skipped = start + pattern.matchLength (text.drop start)) →
      (∀ left word behind, text = left ++ word ++ behind → Word word →
        left.length < before.length → left.length + word.length ≤ before.length + skipped) →
      pattern.subBehind skipped rest = rest.filter fun c => ¬ Covered Word text c from
    every text [] 0 0 rfl le_rfl (fun some_left => absurd rfl some_left)
      fun _ _ _ _ _ shorter => absurd shorter (by simp)
  intro rest
  induction rest with
  | nil => intro before skipped start _ _ _ _; cases skipped <;> rfl
  | cons c rest ih =>
      intro before skipped start whole began reaches ended
      have further : text = (before ++ [c]) ++ rest := by rw [whole, List.append_assoc]; rfl
      have longer : (before ++ [c]).length = before.length + 1 := by simp
      have tail : text.drop before.length = c :: rest := by rw [whole, List.drop_left]
      -- a word that begins at `c`
      have front : ∀ left word behind, text = left ++ word ++ behind →
          left.length = before.length → word <+: c :: rest := by
        intro left word behind split same
        rw [← tail, split, ← same, List.append_assoc, List.drop_left]
        exact List.prefix_append word behind
      cases skipped with
      | succ skipped =>
          have last := reaches (Nat.succ_ne_zero skipped)
          have covered : Covered Word text c := by
            rw [whole] at last ⊢
            exact covered_match erases began (by omega)
          rw [subBehind, List.filter_cons_of_neg (by simpa using covered)]
          refine ih (before ++ [c]) skipped start further (by omega) (fun _ => by omega) ?_
          intro left word behind split isWord earlier
          rw [longer] at earlier ⊢
          rcases Nat.lt_succ_iff_lt_or_eq.mp earlier with earlier | same
          · have here := ended left word behind split isWord earlier
            omega
          · have here := erases.covers (text.drop start) (before.length - start) word
              (.inr (by omega)) isWord (by
                rw [List.drop_drop, Nat.add_sub_cancel' began, tail]
                exact front left word behind split same)
            omega
      | zero =>
          have begins : ∀ left word behind, text = left ++ word ++ behind → Word word →
              left.length = before.length → word.length ≤ pattern.matchLength (c :: rest) := by
            intro left word behind split isWord same
            have here := erases.covers (c :: rest) 0 word (.inl rfl) isWord
              (front left word behind split same)
            omega
          have endedHere : ∀ left word behind, text = left ++ word ++ behind → Word word →
              left.length < before.length + 1 →
              left.length + word.length ≤ before.length + pattern.matchLength (c :: rest) := by
            intro left word behind split isWord earlier
            rcases Nat.lt_succ_iff_lt_or_eq.mp earlier with earlier | same
            · have here := ended left word behind split isWord earlier
              omega
            · have here := begins left word behind split isWord same
              omega
          rw [subBehind]
          split
          · rename_i none
            have bare : ¬ Covered Word text c := by
              intro covered
              rw [whole] at covered distinct
              obtain ⟨left, word, behind, split, isWord, began, reached⟩ :=
                covered.position distinct
              rw [← whole] at split
              have here := endedHere left word behind split isWord (by omega)
              omega
            rw [List.filter_cons_of_pos (by simpa using bare)]
            refine congrArg _ (ih (before ++ [c]) 0 0 further (Nat.zero_le _)
              (fun some_left => absurd rfl some_left) ?_)
            intro left word behind split isWord earlier
            have here := endedHere left word behind split isWord (by omega)
            omega
          · rename_i length matched
            have covered : Covered Word text c := by
              rw [whole]
              refine covered_match erases le_rfl ?_
              rw [List.drop_left, matched]
              omega
            rw [List.filter_cons_of_neg (by simpa using covered)]
            refine ih (before ++ [c]) length before.length further (by omega)
              (fun _ => by rw [tail, matched]; omega) ?_
            intro left word behind split isWord earlier
            have here := endedHere left word behind split isWord (by omega)
            omega

end Regex

end AriannaLinux.Python
