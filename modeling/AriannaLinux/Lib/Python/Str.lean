import Mathlib.Data.List.DropRight
import Mathlib.Data.Nat.Digits.Lemmas

/-! # Python strings

A `str` is a list of code points, surrogates included. The operations are those of the
language and of its text files: stripping, splitting, reading lines with universal
newlines, and the conversions between decimal text and integers.
-/

namespace AriannaLinux.Python

/-- A code point of a `str`. -/
abbrev CodePoint := Fin 0x110000

/-- A `str`. -/
abbrev Str := List CodePoint

/-- The code point of a character. -/
def chr (c : Char) : CodePoint := Fin.ofNat _ c.toNat

/-- A string literal. -/
def lit (s : String) : Str := s.toList.map chr

def lf : CodePoint := 10
def cr : CodePoint := 13

/-- Is a code point in one of the ranges? -/
def inRanges (ranges : List (ℕ × ℕ)) (c : CodePoint) : Bool :=
  ranges.any fun range => range.1 ≤ c.val && c.val ≤ range.2

def spaceRanges : List (ℕ × ℕ) :=
  [(9, 13), (28, 32), (133, 133), (160, 160), (5760, 5760), (8192, 8202), (8232, 8233),
    (8239, 8239), (8287, 8287), (12288, 12288)]

/-- `str.isspace` on one character. -/
def isSpace : CodePoint → Bool := inRanges spaceRanges

/-- The zeros of the decimal digits, each followed by the nine others. -/
def decimalZeros : List ℕ :=
  [0x30, 0x660, 0x6f0, 0x7c0, 0x966, 0x9e6, 0xa66, 0xae6, 0xb66, 0xbe6, 0xc66, 0xce6, 0xd66,
    0xde6, 0xe50, 0xed0, 0xf20, 0x1040, 0x1090, 0x17e0, 0x1810, 0x1946, 0x19d0, 0x1a80, 0x1a90,
    0x1b50, 0x1bb0, 0x1c40, 0x1c50, 0xa620, 0xa8d0, 0xa900, 0xa9d0, 0xa9f0, 0xaa50, 0xabf0,
    0xff10, 0x104a0, 0x10d30, 0x11066, 0x110f0, 0x11136, 0x111d0, 0x112f0, 0x11450, 0x114d0,
    0x11650, 0x116c0, 0x11730, 0x118e0, 0x11950, 0x11c50, 0x11d50, 0x11da0, 0x16a60, 0x16ac0,
    0x16b50, 0x1d7ce, 0x1d7d8, 0x1d7e2, 0x1d7ec, 0x1d7f6, 0x1e140, 0x1e2f0, 0x1e950, 0x1fbf0]

/-- The digits that are not decimal: superscripts, subscripts, circled digits and the like. -/
def otherDigits : List (ℕ × ℕ) :=
  [(0xb2, 0xb3), (0xb9, 0xb9), (0x1369, 0x1371), (0x19da, 0x19da), (0x2070, 0x2070),
    (0x2074, 0x2079), (0x2080, 0x2089), (0x2460, 0x2468), (0x2474, 0x247c), (0x2488, 0x2490),
    (0x24ea, 0x24ea), (0x24f5, 0x24fd), (0x24ff, 0x24ff), (0x2776, 0x277e), (0x2780, 0x2788),
    (0x278a, 0x2792), (0x10a40, 0x10a43), (0x10e60, 0x10e68), (0x11052, 0x1105a),
    (0x1f100, 0x1f10a)]

/-- The value of a decimal digit. -/
def decimalValue (c : CodePoint) : Option ℕ :=
  (decimalZeros.find? fun start => start ≤ c.val && c.val < start + 10).map (c.val - ·)

/-- `str.isdigit`. -/
def isDigit (s : Str) : Bool :=
  !s.isEmpty && s.all fun c => (decimalValue c).isSome || inRanges otherDigits c

/-! ## Stripping -/

/-- Remove the characters of a kind from both ends. -/
def stripBy (p : CodePoint → Bool) (s : Str) : Str := (s.dropWhile p).rdropWhile p

/-- `str.strip()`. -/
def strip : Str → Str := stripBy isSpace

/-- What is stripped is of the kind. -/
theorem stripBy_split (p : CodePoint → Bool) (s : Str) :
    ∃ front back, s = front ++ stripBy p s ++ back ∧ (∀ c ∈ front, p c = true) ∧
      ∀ c ∈ back, p c = true := by
  refine ⟨s.takeWhile p, (s.dropWhile p).rtakeWhile p, ?_, fun c => List.mem_takeWhile_imp,
    fun c => List.mem_rtakeWhile_imp⟩
  rw [List.append_assoc, stripBy, List.rdropWhile_append_rtakeWhile, List.takeWhile_append_dropWhile]

theorem stripBy_eq_self {p : CodePoint → Bool} {s : Str} (head : ∀ c ∈ s.head?, p c = false)
    (last : ∀ c ∈ s.getLast?, p c = false) : stripBy p s = s := by
  have front : s.dropWhile p = s := by
    cases s with
    | nil => rfl
    | cons c s => rw [List.dropWhile_cons_of_neg (by simpa using head c rfl)]
  rw [stripBy, front, List.rdropWhile_eq_self_iff]
  intro nonempty
  simpa using last _ (List.getLast?_eq_some_getLast nonempty)

theorem stripBy_of_none {p : CodePoint → Bool} {s : Str} (none : ∀ c ∈ s, p c = false) :
    stripBy p s = s :=
  stripBy_eq_self (fun c member => none c (List.mem_of_head? member))
    fun c member => none c (List.mem_of_getLast? member)

theorem stripBy_sublist (p : CodePoint → Bool) (s : Str) : (stripBy p s).Sublist s :=
  ( List.rdropWhile_prefix p _).sublist.trans (List.dropWhile_suffix p).sublist

/-- A text that stripping leaves as it is has nothing to strip at its ends. -/
theorem ends_of_stripBy_eq {p : CodePoint → Bool} {s : Str} (same : stripBy p s = s) :
    (∀ c ∈ s.head?, p c = false) ∧ ∀ c ∈ s.getLast?, p c = false := by
  have front : s.dropWhile p = s := by
    apply (List.dropWhile_suffix p).sublist.eq_of_length_le
    calc s.length = (stripBy p s).length := by rw [same]
      _ ≤ (s.dropWhile p).length := ( List.rdropWhile_prefix p _).sublist.length_le
  rw [stripBy, front, List.rdropWhile_eq_self_iff] at same
  refine ⟨fun c member => ?_, fun c member => ?_⟩
  · cases s with
    | nil => cases member
    | cons c' s =>
        cases member
        have fails := List.dropWhile_eq_self_iff.mp front (by simp)
        simpa using fails
  · have nonempty : s ≠ [] := by
      intro empty
      rw [empty] at member
      cases member
    rw [List.getLast?_eq_some_getLast nonempty] at member
    cases member
    simpa using same nonempty

theorem dropWhile_append_cons {p : CodePoint → Bool} {c : CodePoint} (kept : p c = false)
    (front rest : Str) : (front ++ c :: rest).dropWhile p = front.dropWhile p ++ c :: rest := by
  rw [List.dropWhile_append]
  split
  case isTrue none =>
    rw [List.isEmpty_iff.mp none, List.dropWhile_cons_of_neg (by simp [kept]), List.nil_append]
  case isFalse some => rfl

theorem rdropWhile_append_of_all {p : CodePoint → Bool} {s back : Str}
    (all : ∀ c ∈ back, p c = true) : (s ++ back).rdropWhile p = s.rdropWhile p := by
  rw [List.rdropWhile, List.reverse_append, List.dropWhile_append_of_pos]
  · rfl
  · intro c member
    exact all c (List.mem_reverse.mp member)

theorem rdropWhile_append_cons {p : CodePoint → Bool} {c : CodePoint} (kept : p c = false)
    (s back : Str) : (s ++ c :: back).rdropWhile p = s ++ c :: back.rdropWhile p := by
  rw [List.rdropWhile, List.reverse_append, List.reverse_cons, List.append_assoc,
    List.dropWhile_append]
  split
  case isTrue none =>
    have empty : back.rdropWhile p = [] := by
      rw [List.rdropWhile, List.isEmpty_iff.mp none]
      rfl
    rw [empty, List.singleton_append, List.dropWhile_cons_of_neg (by simp [kept])]
    simp
  case isFalse some =>
    simp [List.rdropWhile]

/-- White space at the end can be stripped first. -/
theorem stripBy_rdropWhile (p : CodePoint → Bool) (s : Str) :
    stripBy p (s.rdropWhile p) = stripBy p s := by
  have back : ∀ c ∈ s.rtakeWhile p, p c = true := fun c => List.mem_rtakeWhile_imp
  have parts : s.rdropWhile p ++ s.rtakeWhile p = s := List.rdropWhile_append_rtakeWhile
  conv_rhs => rw [← parts]
  rw [stripBy, stripBy, List.dropWhile_append]
  split
  case isTrue none =>
    rw [List.isEmpty_iff.mp none, List.dropWhile_eq_nil_iff.mpr back]
  case isFalse some =>
    rw [rdropWhile_append_of_all back]

/-- Stripping a line that starts and goes on with other characters. -/
theorem stripBy_append_cons {p : CodePoint → Bool} {front : Str}
    (head : ∀ c ∈ front, p c = false) {c : CodePoint} (kept : p c = false) (back : Str) :
    stripBy p (front ++ c :: back) = front ++ c :: back.rdropWhile p := by
  have unchanged : (front ++ c :: back).dropWhile p = front ++ c :: back := by
    cases front with
    | nil => rw [List.nil_append, List.dropWhile_cons_of_neg (by simp [kept])]
    | cons c' front =>
        rw [List.cons_append, List.dropWhile_cons_of_neg (by simp [head c' List.mem_cons_self])]
  rw [stripBy, unchanged, rdropWhile_append_cons kept]

/-- What is not of the kind is not touched by stripping. -/
theorem infix_stripBy_iff {p : CodePoint → Bool} {word s : Str} (nonempty : word ≠ [])
    (kept : ∀ c ∈ word, p c = false) : word <:+: stripBy p s ↔ word <:+: s := by
  constructor
  · intro inside
    obtain ⟨front, back, split, -, -⟩ := stripBy_split p s
    rw [split]
    exact inside.trans (List.infix_append front _ back)
  · rintro ⟨front, back, rfl⟩
    have last := List.dropLast_append_getLast nonempty
    obtain ⟨c, rest, rfl⟩ := List.exists_cons_of_ne_nil nonempty
    rw [stripBy, List.append_assoc, List.cons_append,
      dropWhile_append_cons (kept c List.mem_cons_self), ← List.cons_append, ← last,
      List.append_assoc _ _ back, ← List.append_assoc, List.singleton_append,
      rdropWhile_append_cons (kept _ (List.getLast_mem nonempty))]
    refine ⟨front.dropWhile p, back.rdropWhile p, ?_⟩
    simp only [List.append_assoc, List.singleton_append]

theorem stripBy_stripBy (p : CodePoint → Bool) (s : Str) : stripBy p (stripBy p s) = stripBy p s := by
  have front : (stripBy p s).dropWhile p = stripBy p s := by
    have same : (s.dropWhile p).dropWhile p = s.dropWhile p := List.dropWhile_idempotent ..
    obtain ⟨back, split⟩ := List.rdropWhile_prefix p (s.dropWhile p)
    rw [← split, ← stripBy] at same
    cases shape : stripBy p s with
    | nil => rfl
    | cons c rest =>
        rw [shape, List.cons_append, List.dropWhile_eq_self_iff] at same
        have kept : ¬ p c = true := same (by simp)
        rw [List.dropWhile_cons_of_neg kept]
  rw [stripBy, front, stripBy, List.rdropWhile_idempotent]

/-! ## Lines -/

/-- Universal newlines: `\r\n` and `\r` are read as `\n`. -/
def translateNewlines : Str → Str
  | [] => []
  | [c] => if c = cr then [lf] else [c]
  | c :: c' :: rest =>
      if c = cr then
        if c' = lf then lf :: translateNewlines rest else lf :: translateNewlines (c' :: rest)
      else c :: translateNewlines (c' :: rest)

/-- The lines of a text, without the newlines that end them. -/
def splitLines : Str → List Str
  | [] => []
  | c :: rest =>
      if c = lf then [] :: splitLines rest
      else
        match splitLines rest with
        | [] => [[c]]
        | line :: lines => (c :: line) :: lines

/-- The lines read from a text file. -/
def fileLines (text : Str) : List Str := splitLines (translateNewlines text)

/-- A character that does not break a line. -/
def NotBreak (c : CodePoint) : Prop := c ≠ lf ∧ c ≠ cr

instance : DecidablePred NotBreak := fun c => inferInstanceAs (Decidable (c ≠ lf ∧ c ≠ cr))

theorem translateNewlines_cons {c : CodePoint} (unbroken : c ≠ cr) (rest : Str) :
    translateNewlines (c :: rest) = c :: translateNewlines rest := by
  cases rest with
  | nil => simp only [translateNewlines, unbroken, ↓reduceIte]
  | cons c' rest => simp only [translateNewlines, unbroken, ↓reduceIte]

/-- A newline is a place to cut the text. -/
theorem translateNewlines_append (first second : Str) :
    translateNewlines (first ++ lf :: second) =
      translateNewlines (first ++ [lf]) ++ translateNewlines second := by
  fun_induction translateNewlines first with
  | case1 =>
      rw [List.nil_append, List.nil_append, translateNewlines_cons (by decide),
        translateNewlines_cons (by decide)]
      rfl
  | case2 =>
      simp only [List.cons_append, List.nil_append, translateNewlines, ↓reduceIte]
  | case3 c other =>
      simp only [List.cons_append, List.nil_append, translateNewlines_cons other]
      rw [translateNewlines_cons (by decide), translateNewlines_cons (by decide)]
      rfl
  | case4 rest ih =>
      simp only [List.cons_append, translateNewlines, ↓reduceIte, ih]
  | case5 c' rest other ih =>
      simp only [List.cons_append, translateNewlines, ↓reduceIte, other, List.cons_append] at ih ⊢
      rw [ih]
  | case6 c c' rest other ih =>
      simp only [List.cons_append] at ih ⊢
      rw [translateNewlines_cons other, translateNewlines_cons other, ih]
      rfl

theorem splitLines_append (first second : Str) :
    splitLines (first ++ lf :: second) = splitLines (first ++ [lf]) ++ splitLines second := by
  induction first with
  | nil => simp only [List.nil_append, splitLines, ↓reduceIte, List.singleton_append]
  | cons c first ih =>
      simp only [List.cons_append, splitLines, ih]
      split
      · rfl
      · cases lines : splitLines (first ++ [lf]) with
        | nil =>
            exfalso
            cases first with
            | nil => simp [splitLines] at lines
            | cons c first =>
                simp only [List.cons_append, splitLines] at lines
                split at lines
                · cases lines
                · split at lines <;> cases lines
        | cons line lines => rfl

theorem translateNewlines_concat (text : Str) :
    ∃ front, translateNewlines (text ++ [lf]) = front ++ [lf] := by
  fun_induction translateNewlines text with
  | case1 => exact ⟨[], rfl⟩
  | case2 => exact ⟨[], by simp only [List.cons_append, List.nil_append, translateNewlines, ↓reduceIte]⟩
  | case3 c other =>
      refine ⟨[c], ?_⟩
      rw [List.cons_append, translateNewlines_cons other]
      rfl
  | case4 rest ih =>
      obtain ⟨front, shape⟩ := ih
      refine ⟨lf :: front, ?_⟩
      simp only [List.cons_append, translateNewlines, ↓reduceIte, shape]
  | case5 c' rest other ih =>
      obtain ⟨front, shape⟩ := ih
      refine ⟨lf :: front, ?_⟩
      simp only [List.cons_append, translateNewlines, ↓reduceIte, other] at shape ⊢
      rw [shape]
  | case6 c c' rest other ih =>
      obtain ⟨front, shape⟩ := ih
      refine ⟨c :: front, ?_⟩
      simp only [List.cons_append] at shape ⊢
      rw [translateNewlines_cons other, shape]

/-- **Lines of a text in two parts.** -/
theorem fileLines_append (first second : Str) :
    fileLines (first ++ lf :: second) = fileLines (first ++ [lf]) ++ fileLines second := by
  obtain ⟨front, shape⟩ := translateNewlines_concat first
  rw [fileLines, translateNewlines_append, shape, List.append_assoc, List.singleton_append,
    splitLines_append, fileLines, fileLines, shape]

theorem fileLines_flatten {texts : List Str} (ended : ∀ text ∈ texts, ∃ front, text = front ++ [lf]) :
    fileLines texts.flatten = texts.flatMap fileLines := by
  induction texts with
  | nil => rfl
  | cons text texts ih =>
      obtain ⟨head, tail⟩ := List.forall_mem_cons.mp ended
      obtain ⟨front, rfl⟩ := head
      rw [List.flatten_cons, List.append_assoc, List.singleton_append, fileLines_append, ih tail,
        List.flatMap_cons]

theorem translateNewlines_append_left {line : Str} (unbroken : ∀ c ∈ line, NotBreak c)
    (rest : Str) : translateNewlines (line ++ rest) = line ++ translateNewlines rest := by
  induction line with
  | nil => rfl
  | cons c line ih =>
      obtain ⟨head, tail⟩ := List.forall_mem_cons.mp unbroken
      rw [List.cons_append, translateNewlines_cons head.2, ih tail, List.cons_append]

theorem splitLines_append_left {line : Str} (unbroken : ∀ c ∈ line, NotBreak c) {rest : Str}
    {first : Str} {more : List Str} (lines : splitLines rest = first :: more) :
    splitLines (line ++ rest) = (line ++ first) :: more := by
  induction line with
  | nil => exact lines
  | cons c line ih =>
      obtain ⟨head, tail⟩ := List.forall_mem_cons.mp unbroken
      simp only [List.cons_append, splitLines, head.1, ↓reduceIte, ih tail]

/-- A text that starts with an unbroken front and ends in a newline: the front belongs to
its first line. -/
theorem fileLines_append_left {line : Str} (unbroken : ∀ c ∈ line, NotBreak c) (text : Str) :
    ∃ first more, fileLines (text ++ [lf]) = first :: more ∧
      fileLines (line ++ (text ++ [lf])) = (line ++ first) :: more := by
  obtain ⟨front, shape⟩ := translateNewlines_concat text
  have nonempty : ∃ first more, splitLines (front ++ [lf]) = first :: more := by
    cases front with
    | nil => exact ⟨[], [], rfl⟩
    | cons c front =>
        simp only [List.cons_append, splitLines]
        split
        · exact ⟨_, _, rfl⟩
        · split <;> exact ⟨_, _, rfl⟩
  obtain ⟨first, more, lines⟩ := nonempty
  rw [← shape] at lines
  refine ⟨first, more, lines, ?_⟩
  rw [fileLines, translateNewlines_append_left unbroken, splitLines_append_left unbroken lines]

theorem fileLines_unbroken {line : Str} (unbroken : ∀ c ∈ line, NotBreak c) :
    fileLines (line ++ [lf]) = [line] := by
  obtain ⟨first, more, lines, whole⟩ := fileLines_append_left unbroken []
  cases lines
  rwa [List.append_nil] at whole

/-- A line has no other characters than the text without its breaks. -/
theorem splitLines_sublist {text line : Str} (member : line ∈ splitLines text) :
    line.Sublist (text.filter (· ≠ lf)) := by
  induction text generalizing line with
  | nil => cases member
  | cons c text ih =>
      simp only [splitLines] at member
      split at member
      case isTrue newline =>
        rw [List.filter_cons_of_neg (by simp [newline])]
        rcases List.mem_cons.mp member with rfl | later
        · exact List.nil_sublist _
        · exact ih later
      case isFalse other =>
        rw [List.filter_cons_of_pos (by simpa using other)]
        split at member
        case h_1 =>
          rw [List.mem_singleton.mp member]
          exact (List.nil_sublist _).cons_cons c
        case h_2 first more lines =>
          rcases List.mem_cons.mp member with rfl | later
          · exact (ih (lines ▸ List.mem_cons_self)).cons_cons c
          · exact (ih (lines ▸ List.mem_cons_of_mem _ later)).cons c

theorem filter_translateNewlines (text : Str) :
    (translateNewlines text).filter (· ≠ lf) = text.filter fun c => NotBreak c := by
  have breaks : ¬ NotBreak lf ∧ ¬ NotBreak cr := by decide
  fun_induction translateNewlines text with
  | case1 => rfl
  | case2 => rfl
  | case3 c other =>
      by_cases newline : c = lf
      · subst newline
        rfl
      · rw [List.filter_cons_of_pos (by simpa using newline),
          List.filter_cons_of_pos (by simpa using ⟨newline, other⟩)]
        rfl
  | case4 rest ih =>
      rw [List.filter_cons_of_neg (by simp), List.filter_cons_of_neg (by simpa using breaks.2),
        List.filter_cons_of_neg (by simpa using breaks.1), ih]
  | case5 c' rest other ih =>
      rw [List.filter_cons_of_neg (by simp), List.filter_cons_of_neg (by simpa using breaks.2), ih]
  | case6 c c' rest other ih =>
      by_cases newline : c = lf
      · rw [List.filter_cons_of_neg (by simpa using newline),
          List.filter_cons_of_neg (by rw [newline]; simpa using breaks.1), ih]
      · rw [List.filter_cons_of_pos (by simpa using newline),
          List.filter_cons_of_pos (by simpa using ⟨newline, other⟩), ih]

theorem fileLines_sublist {text line : Str} (member : line ∈ fileLines text) :
    line.Sublist (text.filter fun c => NotBreak c) := by
  rw [← filter_translateNewlines]
  exact splitLines_sublist member

/-! ## Integers -/

/-- The limit of the conversions between text and integers, in digits. -/
def maxStrDigits : ℕ := 4300

/-- The decimal digit of a value. -/
def digitChar (d : ℕ) : CodePoint := Fin.ofNat _ (48 + d)

def natText (n : ℕ) : Str :=
  if n = 0 then lit "0" else (Nat.digits 10 n).reverse.map digitChar

/-- `str(n)`; an integer of too many digits raises `ValueError`. -/
def intText (n : ℤ) : Option Str :=
  if maxStrDigits < (natText n.natAbs).length then none
  else some (if n < 0 then chr '-' :: natText n.natAbs else natText n.natAbs)

/-- The white space `int` skips around a number. -/
def isIntSpace (c : CodePoint) : Bool :=
  if c.val < 128 then inRanges [(9, 13), (32, 32)] c else isSpace c

/-- Digits with single underscores between them. -/
def digitRun : Bool → Str → Option (List ℕ)
  | behindDigit, [] => if behindDigit then some [] else none
  | behindDigit, c :: rest =>
      if c = chr '_' then if behindDigit then digitRun false rest else none
      else (decimalValue c).bind fun d => (digitRun true rest).map (d :: ·)

def unsignedInt (s : Str) : Option ℕ :=
  (digitRun false s).bind fun digits =>
    if maxStrDigits < digits.length then none
    else some (digits.foldl (fun v d => v * 10 + d) 0)

/-- `int(s)`, which raises `ValueError` on anything but a number. -/
def toInt (s : Str) : Option ℤ :=
  match stripBy isIntSpace s with
  | [] => none
  | c :: rest =>
      if c = chr '-' then (unsignedInt rest).map fun n : ℕ => -(n : ℤ)
      else if c = chr '+' then (unsignedInt rest).map fun n : ℕ => (n : ℤ)
      else (unsignedInt (c :: rest)).map fun n : ℕ => (n : ℤ)

theorem decimalValue_digitChar {d : ℕ} (digit : d < 10) : decimalValue (digitChar d) = some d := by
  have all : ∀ d : Fin 10, decimalValue (digitChar d) = some d.val := by decide
  exact all ⟨d, digit⟩

theorem digitChar_ne {d : ℕ} (digit : d < 10) :
    digitChar d ≠ chr '_' ∧ digitChar d ≠ chr '-' ∧ digitChar d ≠ chr '+' ∧
      isIntSpace (digitChar d) = false := by
  have all : ∀ d : Fin 10, digitChar d ≠ chr '_' ∧ digitChar d ≠ chr '-' ∧
      digitChar d ≠ chr '+' ∧ isIntSpace (digitChar d) = false := by decide
  exact all ⟨d, digit⟩

theorem natText_eq (n : ℕ) :
    ∃ digits : List ℕ, natText n = digits.map digitChar ∧ digits ≠ [] ∧ (∀ d ∈ digits, d < 10) ∧
      digits.foldl (fun v d => v * 10 + d) 0 = n := by
  unfold natText
  split
  case isTrue zero =>
    exact ⟨[0], rfl, by simp, by simp, by simp [zero]⟩
  case isFalse positive =>
    refine ⟨(Nat.digits 10 n).reverse, rfl, ?_, fun d member => ?_, ?_⟩
    · simpa [Nat.digits_eq_nil_iff_eq_zero] using positive
    · exact Nat.digits_lt_base (by decide) (List.mem_reverse.mp member)
    · rw [List.foldl_reverse]
      conv_rhs => rw [← Nat.ofDigits_digits 10 n, Nat.ofDigits_eq_foldr]
      congr 1
      funext d v
      rw [Nat.cast_id]
      omega

theorem length_natText_le_iff (n : ℕ) :
    (natText n).length ≤ maxStrDigits ↔ n < 10 ^ maxStrDigits := by
  unfold natText
  split
  case isTrue zero =>
    rw [zero]
    exact iff_of_true (by decide) (Nat.pow_pos (by decide))
  case isFalse positive =>
    rw [List.length_map, List.length_reverse]
    exact Nat.digits_length_le_iff (by decide) _

theorem digitRun_map {digits : List ℕ} (digit : ∀ d ∈ digits, d < 10) :
    digitRun true (digits.map digitChar) = some digits := by
  induction digits with
  | nil => rfl
  | cons d digits ih =>
      obtain ⟨head, tail⟩ := List.forall_mem_cons.mp digit
      simp only [List.map_cons, digitRun, (digitChar_ne head).1, ↓reduceIte,
        decimalValue_digitChar head, Option.bind_some, ih tail, Option.map_some]

theorem unsignedInt_natText {n : ℕ} (small : (natText n).length ≤ maxStrDigits) :
    unsignedInt (natText n) = some n := by
  obtain ⟨digits, shape, nonempty, digit, value⟩ := natText_eq n
  obtain ⟨d, digits, rfl⟩ := List.exists_cons_of_ne_nil nonempty
  have head : d < 10 := digit d List.mem_cons_self
  have run : digitRun false (natText n) = some (d :: digits) := by
    rw [shape]
    simp only [List.map_cons, digitRun, (digitChar_ne head).1, ↓reduceIte,
      decimalValue_digitChar head, Option.bind_some,
      digitRun_map (fun d member => digit d (List.mem_cons_of_mem _ member)), Option.map_some]
  have counted : ¬ maxStrDigits < (d :: digits).length := by
    rw [shape, List.length_map] at small
    omega
  rw [unsignedInt, run, Option.bind_some, if_neg counted, value]

/-- **A number is read back.** -/
theorem toInt_intText {n : ℤ} {text : Str} (written : intText n = some text) :
    toInt text = some n := by
  unfold intText at written
  split at written
  case isTrue => cases written
  case isFalse small =>
    have number := unsignedInt_natText (not_lt.mp small)
    obtain ⟨digits, shape, nonempty, digit, -⟩ := natText_eq n.natAbs
    obtain ⟨d, digits, rfl⟩ := List.exists_cons_of_ne_nil nonempty
    have plain : ∀ c ∈ natText n.natAbs, isIntSpace c = false := by
      intro c member
      rw [shape] at member
      obtain ⟨d', inside, rfl⟩ := List.mem_map.mp member
      exact (digitChar_ne (digit d' inside)).2.2.2
    cases written
    split
    case isTrue negative =>
      have stripped : stripBy isIntSpace (chr '-' :: natText n.natAbs) =
          chr '-' :: natText n.natAbs :=
        stripBy_of_none (List.forall_mem_cons.mpr ⟨by decide, plain⟩)
      have value : -(n.natAbs : ℤ) = n := by omega
      simp only [toInt, stripped, ↓reduceIte, number, Option.map_some, value]
    case isFalse nonnegative =>
      have head := digitChar_ne (digit d List.mem_cons_self)
      have value : (n.natAbs : ℤ) = n := by omega
      rw [shape, List.map_cons] at number plain ⊢
      simp only [toInt, stripBy_of_none plain, head.2.1, head.2.2.1, ↓reduceIte, number,
        Option.map_some, value]

/-! ## Digits that are numbers -/

theorem inRanges_disjoint {ranges ranges' : List (ℕ × ℕ)} {c : CodePoint}
    (apart : ranges.all (fun r => ranges'.all fun r' => r.2 < r'.1 || r'.2 < r.1) = true)
    (inside : inRanges ranges c = true) : inRanges ranges' c = false := by
  simp only [List.all_eq_true, Bool.or_eq_true, decide_eq_true_eq] at apart
  simp only [inRanges, List.any_eq_true, Bool.and_eq_true, decide_eq_true_eq] at inside
  obtain ⟨r, member, low, high⟩ := inside
  simp only [inRanges, List.any_eq_false, Bool.and_eq_true, decide_eq_true_eq]
  intro r' member'
  have := apart r member r' member'
  omega

/-- The characters that mean something to `int` besides digits. -/
def numberMarks : List (ℕ × ℕ) := spaceRanges ++ [(43, 43), (45, 45), (95, 95)]

theorem digit_noMark {c : CodePoint}
    (digit : (decimalValue c).isSome = true ∨ inRanges otherDigits c = true) :
    inRanges numberMarks c = false := by
  rcases digit with decimal | other
  · have inside : inRanges (decimalZeros.map fun start => (start, start + 9)) c = true := by
      obtain ⟨value, shape⟩ := Option.isSome_iff_exists.mp decimal
      obtain ⟨start, found, -⟩ := Option.map_eq_some_iff.mp shape
      have bounds := List.find?_some found
      simp only [Bool.and_eq_true, decide_eq_true_eq] at bounds
      simp only [inRanges, List.any_map, List.any_eq_true, Function.comp_apply, Bool.and_eq_true,
        decide_eq_true_eq]
      exact ⟨start, List.mem_of_find?_eq_some found, by omega⟩
    exact inRanges_disjoint (by decide) inside
  · exact inRanges_disjoint (by decide) other

theorem noMark_spec {c : CodePoint} (plain : inRanges numberMarks c = false) :
    isIntSpace c = false ∧ c ≠ chr '_' ∧ c ≠ chr '-' ∧ c ≠ chr '+' := by
  simp only [inRanges, numberMarks, spaceRanges, List.cons_append, List.nil_append, List.any_cons,
    List.any_nil, Bool.or_false, Bool.or_eq_false_iff, Bool.and_eq_false_iff,
    decide_eq_false_iff_not] at plain
  refine ⟨?_, ?_, ?_, ?_⟩
  · simp only [isIntSpace, isSpace, inRanges, spaceRanges, List.any_cons, List.any_nil,
      Bool.or_false]
    split
    · simp only [Bool.or_eq_false_iff, Bool.and_eq_false_iff, decide_eq_false_iff_not]
      omega
    · simp only [Bool.or_eq_false_iff, Bool.and_eq_false_iff, decide_eq_false_iff_not]
      omega
  · rintro rfl
    exact absurd plain (by decide)
  · rintro rfl
    exact absurd plain (by decide)
  · rintro rfl
    exact absurd plain (by decide)

theorem digitRun_eq_mapM {s : Str} (plain : ∀ c ∈ s, c ≠ chr '_') :
    digitRun true s = s.mapM decimalValue := by
  induction s with
  | nil => rfl
  | cons c s ih =>
      obtain ⟨head, tail⟩ := List.forall_mem_cons.mp plain
      rw [digitRun, if_neg head, ih tail, List.mapM_cons]
      cases decimalValue c with
      | none => rfl
      | some d =>
          cases s.mapM decimalValue with
          | none => rfl
          | some digits => rfl

theorem mapM_decimalValue (s : Str) :
    ((s.mapM decimalValue).isSome = true ↔ ∀ c ∈ s, (decimalValue c).isSome = true) ∧
      ∀ digits ∈ s.mapM decimalValue, digits.length = s.length := by
  induction s with
  | nil => exact ⟨by simp, by simp⟩
  | cons c s ih =>
      obtain ⟨total, sized⟩ := ih
      rw [List.mapM_cons, List.forall_mem_cons, ← total]
      cases decimalValue c with
      | none => exact ⟨by simp, by simp⟩
      | some d =>
          cases mapped : s.mapM decimalValue with
          | none => exact ⟨by simp, by simp⟩
          | some digits =>
              have length := sized digits (by rw [mapped]; rfl)
              exact ⟨by simp, by simpa using length⟩

/-- **Where `isdigit` and `int` part.** A text of digits is a number if and only if the
digits are decimal and not too many. -/
theorem toInt_isSome_iff {s : Str} (digits : isDigit s = true) :
    (toInt s).isSome = true ↔
      (∀ c ∈ s, (decimalValue c).isSome = true) ∧ s.length ≤ maxStrDigits := by
  simp only [isDigit, Bool.and_eq_true, Bool.not_eq_true', List.isEmpty_eq_false_iff,
    List.all_eq_true, Bool.or_eq_true] at digits
  obtain ⟨nonempty, each⟩ := digits
  have plain : ∀ c ∈ s, isIntSpace c = false ∧ c ≠ chr '_' ∧ c ≠ chr '-' ∧ c ≠ chr '+' :=
    fun c member => noMark_spec (digit_noMark (each c member))
  have run : digitRun false s = s.mapM decimalValue := by
    rw [← digitRun_eq_mapM fun c member => (plain c member).2.1]
    obtain ⟨c, rest, rfl⟩ := List.exists_cons_of_ne_nil nonempty
    have noMark := (plain c List.mem_cons_self).2.1
    rw [digitRun, digitRun, if_neg noMark, if_neg noMark]
  have converted : (toInt s).isSome = (unsignedInt s).isSome := by
    obtain ⟨c, rest, rfl⟩ := List.exists_cons_of_ne_nil nonempty
    obtain ⟨-, -, minus, plus⟩ := plain c List.mem_cons_self
    rw [toInt, stripBy_of_none fun c member => (plain c member).1]
    simp only [minus, plus, ↓reduceIte, Option.isSome_map]
  obtain ⟨total, sized⟩ := mapM_decimalValue s
  rw [converted, unsignedInt, run, ← total]
  cases mapped : s.mapM decimalValue with
  | none => simp
  | some values =>
      have length := sized values (by rw [mapped]; rfl)
      rw [Option.bind_some, length]
      by_cases many : maxStrDigits < s.length
      · simp [many]
      · simp [many, not_lt.mp many]

end AriannaLinux.Python
