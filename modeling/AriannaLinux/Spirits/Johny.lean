import AriannaLinux.Lib.Python.Re
import AriannaLinux.Lib.Python.Str

/-! # Links in answers

An answer loses its links, then numbers in brackets, and then whatever else is in brackets on
one line. The brackets that are cut out can stand in the middle of a link, so the answer is free
of links exactly when no link is split by brackets (`linksRemoved_iff`).
-/

namespace AriannaLinux.Spirits

open Python

/-- `\S` -/
def nonSpace (c : CodePoint) : Bool := !isSpace c

/-- `\d` -/
def isDecimal (c : CodePoint) : Bool := (decimalValue c).isSome

def openBracket : CodePoint := chr '['
def closeBracket : CodePoint := chr ']'

/-- `http[s]?://\S+` -/
def linkPattern : Regex CodePoint :=
  .seq (.literal (lit "http"))
    (.seq (.optional (.char (· = chr 's'))) (.seq (.literal (lit "://")) (.plus nonSpace)))

/-- `\[\d+\]` -/
def numberPattern : Regex CodePoint :=
  .seq (.char (· = openBracket)) (.seq (.plus isDecimal) (.char (· = closeBracket)))

/-- `\[.*?\]` -/
def bracketPattern : Regex CodePoint :=
  .seq (.char (· = openBracket)) (.seq (.lazyStar (· ≠ lf)) (.char (· = closeBracket)))

/-- `_remove_links` -/
def removeLinks (text : Str) : Str :=
  strip (bracketPattern.sub (numberPattern.sub (linkPattern.sub text)))

/-! ## Links, numbers and brackets -/

/-- `http://` or `https://` with characters that are not space. -/
def LinkText (word : Str) : Prop :=
  ∃ scheme tail, (scheme = lit "http://" ∨ scheme = lit "https://") ∧ word = scheme ++ tail ∧
    tail ≠ [] ∧ ∀ c ∈ tail, nonSpace c = true

/-- Digits in brackets. -/
def NumberText (word : Str) : Prop :=
  ∃ digits, word = openBracket :: digits ++ [closeBracket] ∧ digits ≠ [] ∧
    ∀ c ∈ digits, isDecimal c = true

/-- A bracket up to the next closing one on the line. -/
def BracketText (word : Str) : Prop :=
  ∃ body, word = openBracket :: body ++ [closeBracket] ∧ lf ∉ body ∧ closeBracket ∉ body

theorem LinkText.nonSpace {word : Str} (link : LinkText word) :
    ∀ c ∈ word, nonSpace c = true := by
  obtain ⟨scheme, tail, isScheme, rfl, -, visible⟩ := link
  refine List.forall_mem_append.mpr ⟨?_, visible⟩
  rcases isScheme with rfl | rfl <;> exact List.all_eq_true.mp rfl

theorem accepts_linkPattern {word : Str} : linkPattern.Accepts word ↔ LinkText word := by
  constructor
  · rintro ⟨http, rest, rfl, isHttp, secure, rest, rfl, isSecure, colon, tail, rfl, isColon,
      some_tail, visible⟩
    obtain rfl := Regex.accepts_literal.mp isHttp
    obtain rfl := Regex.accepts_literal.mp isColon
    rcases isSecure with ⟨s, rfl, same⟩ | rfl
    · obtain rfl := of_decide_eq_true same
      exact ⟨_, tail, .inr rfl, rfl, some_tail, visible⟩
    · exact ⟨_, tail, .inl rfl, rfl, some_tail, visible⟩
  · rintro ⟨scheme, tail, rfl | rfl, rfl, some_tail, visible⟩
    · exact ⟨lit "http", _, rfl, Regex.accepts_literal.mpr rfl, [], _, rfl, .inr rfl, lit "://", tail,
        rfl, Regex.accepts_literal.mpr rfl, some_tail, visible⟩
    · exact ⟨lit "http", _, rfl, Regex.accepts_literal.mpr rfl, lit "s", _, rfl,
        .inl ⟨_, rfl, decide_eq_true rfl⟩, lit "://", tail, rfl, Regex.accepts_literal.mpr rfl,
        some_tail, visible⟩

theorem accepts_numberPattern {word : Str} : numberPattern.Accepts word ↔ NumberText word := by
  constructor
  · rintro ⟨_, rest, rfl, ⟨front, rfl, isOpen⟩, digits, _, rfl, ⟨some_digits, decimal⟩, last, rfl,
      isClose⟩
    rw [of_decide_eq_true isOpen, of_decide_eq_true isClose]
    exact ⟨digits, rfl, some_digits, decimal⟩
  · rintro ⟨digits, rfl, some_digits, decimal⟩
    exact ⟨[openBracket], _, rfl, ⟨_, rfl, decide_eq_true rfl⟩, digits, [closeBracket], rfl,
      ⟨some_digits, decimal⟩, _, rfl, decide_eq_true rfl⟩

theorem accepts_bracketPattern {word : Str} :
    bracketPattern.Accepts word ↔
      ∃ body, word = openBracket :: body ++ [closeBracket] ∧ lf ∉ body := by
  have oneLine : ∀ body : Str, (∀ c ∈ body, decide (c ≠ lf) = true) ↔ lf ∉ body := by
    intro body
    simp only [decide_eq_true_eq]
    exact ⟨fun every member => every lf member rfl, fun absent c member same =>
      absent (same ▸ member)⟩
  constructor
  · rintro ⟨_, rest, rfl, ⟨front, rfl, isOpen⟩, body, _, rfl, line, last, rfl, isClose⟩
    rw [of_decide_eq_true isOpen, of_decide_eq_true isClose]
    exact ⟨body, rfl, (oneLine body).mp line⟩
  · rintro ⟨body, rfl, line⟩
    exact ⟨[openBracket], _, rfl, ⟨_, rfl, decide_eq_true rfl⟩, body, [closeBracket], rfl,
      (oneLine body).mpr line, _, rfl, decide_eq_true rfl⟩

/-! ## What the passes erase -/

/-- A link goes on up to the next space. -/
theorem erases_link : linkPattern.Erases LinkText where
  sound text matched := accepts_linkPattern.mp (Regex.accepts_match matched).2
  covers text n word inside isWord front := by
    have colon : ∀ c text, decide (c = chr 's') = true →
        (Regex.seq (.literal (lit "://")) (.plus nonSpace)).lengths (c :: text) = [] := by
      intro c text same
      rw [of_decide_eq_true same]
      rfl
    have shift : ∀ m n k : ℕ, m > n → k + m > k + n := fun m n k more => Nat.add_lt_add_left more k
    have greedy : linkPattern.Ordered (· > ·) :=
      (Regex.fixed_literal _).seq_ordered shift
        (((Regex.fixed_literal _).seq_ordered shift (Regex.ordered_plus _)).seq_optional shift colon)
    rcases inside with rfl | inside
    · rw [Nat.zero_add]
      exact greedy.le_matchLength front (accepts_linkPattern.mpr isWord)
    · by_contra more
      obtain ⟨fits, accepted⟩ := Regex.accepts_match (Nat.zero_lt_of_lt inside)
      obtain ⟨scheme, tail, isScheme, split, some_tail, visible⟩ := accepts_linkPattern.mp accepted
      set length := linkPattern.matchLength text
      have reached : n + word.length ≤ text.length := by
        have here := front.length_le
        rw [List.length_drop] at here
        omega
      -- the match and the rest of the word behind it
      have whole : text.take (n + word.length) =
          scheme ++ (tail ++ word.drop (length - n)) := by
        rw [← List.append_assoc, ← split, show n + word.length = length + (n + word.length - length)
          by omega, List.take_add, List.append_cancel_left_eq]
        obtain ⟨behind, shown⟩ := front
        have tailText : text.drop length = word.drop (length - n) ++ behind := by
          rw [← List.drop_append_of_le_length (by omega), shown, List.drop_drop]
          congr 1
          omega
        rw [tailText, List.take_left' (by rw [List.length_drop]; omega)]
      have longer : LinkText (text.take (n + word.length)) := by
        refine ⟨scheme, _, isScheme, whole, by simp [some_tail], ?_⟩
        exact List.forall_mem_append.mpr ⟨visible, fun c member =>
          isWord.nonSpace c (List.mem_of_mem_drop member)⟩
      have here := greedy.le_matchLength (List.take_prefix _ _) (accepts_linkPattern.mpr longer)
      rw [List.length_take, min_eq_left reached] at here
      omega

/-- Two texts that end with the first closing bracket end at the same place. -/
theorem closed_at_same {text body word : Str} {n : ℕ} (inside : n ≤ body.length)
    (front : body ++ [closeBracket] <+: text) (first : closeBracket ∉ body)
    (other : word ++ [closeBracket] <+: text.drop n) (firstThere : closeBracket ∉ word) :
    n + word.length = body.length := by
  obtain ⟨rest, rfl⟩ := front
  obtain ⟨behind, same⟩ := other
  have absent : closeBracket ∉ body.drop n := fun member => first (List.mem_of_mem_drop member)
  rw [List.append_assoc, List.append_assoc, List.drop_append_of_le_length inside] at same
  have position := congrArg (List.idxOf closeBracket) same
  rw [List.idxOf_append_of_notMem firstThere, List.idxOf_append_of_notMem absent,
    List.singleton_append, List.singleton_append, List.idxOf_cons_self, List.idxOf_cons_self,
    List.length_drop] at position
  omega

/-- Brackets around characters that do not close them erase what they should. -/
theorem erases_closed {pattern : Regex CodePoint} {Word : Str → Prop}
    (sound : ∀ text, 0 < pattern.matchLength text →
      Word (text.take (pattern.matchLength text)))
    (closed : ∀ word, Word word → ∃ body, word = body ++ [closeBracket] ∧ closeBracket ∉ body)
    (accepted : ∀ word, Word word → pattern.Accepts word)
    (some_text : ¬ pattern.Accepts []) : pattern.Erases Word where
  sound := sound
  covers text n word inside isWord front := by
    have matched : n < pattern.matchLength text := by
      rcases inside with rfl | inside
      · obtain ⟨-, present⟩ := Regex.matchLength_mem_of_accepts front (accepted word isWord)
        rw [List.drop_zero] at present
        refine Nat.pos_of_ne_zero fun none => some_text ?_
        rw [none] at present
        exact (Regex.mem_lengths.mp present).2
      · exact inside
    have found := Regex.accepts_match (Nat.zero_lt_of_lt matched)
    obtain ⟨body, shape, first⟩ := closed _ (sound text (Nat.zero_lt_of_lt matched))
    obtain ⟨bodyThere, rfl, firstThere⟩ := closed word isWord
    have length := congrArg List.length shape
    rw [List.length_take, min_eq_left found.1, List.length_append, List.length_singleton] at length
    have same := closed_at_same (by omega) (shape ▸ List.take_prefix _ text) first front firstThere
    rw [List.length_append, List.length_singleton]
    omega

theorem closeBracket_not_isDecimal : isDecimal closeBracket = false := by decide

theorem erases_number : numberPattern.Erases NumberText := by
  refine erases_closed (fun text matched => accepts_numberPattern.mp (Regex.accepts_match matched).2)
    ?_ (fun word => accepts_numberPattern.mpr) ?_
  · rintro word ⟨digits, rfl, -, decimal⟩
    refine ⟨openBracket :: digits, rfl, ?_⟩
    rw [List.mem_cons, not_or]
    refine ⟨by decide, fun member => ?_⟩
    have here := decimal closeBracket member
    rw [closeBracket_not_isDecimal] at here
    cases here
  · rw [accepts_numberPattern]
    rintro ⟨digits, same, -⟩
    cases same

theorem BracketText.closed {word : Str} (bracket : BracketText word) :
    ∃ body, word = body ++ [closeBracket] ∧ closeBracket ∉ body := by
  obtain ⟨body, rfl, -, first⟩ := bracket
  refine ⟨openBracket :: body, rfl, ?_⟩
  rw [List.mem_cons, not_or]
  exact ⟨by decide, first⟩

/-- The lazy repetition ends at the first closing bracket. -/
theorem erases_bracket : bracketPattern.Erases BracketText := by
  refine erases_closed ?_ (fun word => BracketText.closed) ?_ ?_
  · intro text matched
    obtain ⟨fits, accepted⟩ := Regex.accepts_match matched
    obtain ⟨body, shape, line⟩ := accepts_bracketPattern.mp accepted
    refine ⟨body, shape, line, fun member => ?_⟩
    obtain ⟨front, back, rfl⟩ := List.append_of_mem member
    have lazy : bracketPattern.Ordered (· < ·) :=
      (Regex.fixed_char _).seq_ordered (fun m n k less => Nat.add_lt_add_left less k)
        ((Regex.ordered_lazyStar _).seq_fixed (fun m n k less => Nat.add_lt_add_right less k)
          (Regex.fixed_char _))
    have shorter : openBracket :: front ++ [closeBracket] <+: text := by
      refine List.IsPrefix.trans ⟨back ++ [closeBracket], ?_⟩
        (List.take_prefix (bracketPattern.matchLength text) text)
      rw [shape]
      simp only [List.cons_append, List.append_assoc, List.nil_append]
    have least := lazy.matchLength_le shorter (accepts_bracketPattern.mpr
      ⟨front, rfl, fun early => line (List.mem_append_left _ early)⟩)
    have length := congrArg List.length shape
    simp only [List.length_take, min_eq_left fits, List.length_append, List.length_cons,
      List.length_nil] at length least
    omega
  · rintro word ⟨body, rfl, line, -⟩
    exact accepts_bracketPattern.mpr ⟨body, rfl, line⟩
  · rw [accepts_bracketPattern]
    rintro ⟨body, same, -⟩
    cases same

/-! ## Places -/

/-- A character and its place in the text. -/
abbrev Placed := CodePoint × ℕ

open Classical in
/-- The characters at places that are seen. -/
noncomputable def seenIn (seen : ℕ → Prop) (part : List Placed) : List Placed :=
  part.filter fun entry => seen entry.2

/-- The text from one place to another, of which only some places are seen. -/
noncomputable def stretch (text : Str) (seen : ℕ → Prop) (start stop : ℕ) : Str :=
  (seenIn seen ((text.zipIdx.take stop).drop start)).map Prod.fst

/-- A place in a stretch of a kind. -/
def Within (Kind : Str → Prop) (text : Str) (seen : ℕ → Prop) (place : ℕ) : Prop :=
  ∃ start stop, start ≤ place ∧ place < stop ∧ Kind (stretch text seen start stop)

def InLink (text : Str) : ℕ → Prop := Within LinkText text fun _ => True

/-- In brackets around nothing but digits. -/
def InNumber (text : Str) : ℕ → Prop := Within NumberText text fun place => ¬ InLink text place

/-- Between a bracket and the next closing one on the line, where links and numbers in brackets
do not count. -/
def InBrackets (text : Str) : ℕ → Prop :=
  Within BracketText text fun place => ¬ InLink text place ∧ ¬ InNumber text place

def Outside (text : Str) (place : ℕ) : Prop :=
  (¬ InLink text place ∧ ¬ InNumber text place) ∧ ¬ InBrackets text place

/-- A link with brackets between its characters: those that stand outside of links and brackets
spell it. -/
def SplitLink (text : Str) : Prop :=
  ∃ start stop, LinkText (stretch text (Outside text) start stop)

theorem nodup_zipIdx (text : Str) : text.zipIdx.Nodup :=
  List.Nodup.of_map Prod.snd (List.nodup_zipIdx_map_snd text)

/-- The place of a character in a part of the text. -/
theorem place_of_split {text : Str} {before word behind : List Placed}
    (split : text.zipIdx = before ++ word ++ behind) {entry : Placed} (member : entry ∈ word) :
    before.length ≤ entry.2 ∧ entry.2 < before.length + word.length := by
  obtain ⟨n, inside, rfl⟩ := List.mem_iff_getElem.mp member
  have found : text.zipIdx[before.length + n]? = some word[n] := by
    rw [split, List.append_assoc, List.getElem?_append_right (Nat.le_add_right _ n),
      Nat.add_sub_cancel_left, List.getElem?_append_left inside, List.getElem?_eq_getElem inside]
  rw [List.getElem?_zipIdx] at found
  obtain ⟨c, -, same⟩ := Option.map_eq_some_iff.mp found
  rw [← same]
  dsimp only
  omega

/-- A part of the seen text is a stretch. -/
theorem stretch_of_split {text : Str} {seen : ℕ → Prop} {before word behind : List Placed}
    (split : text.zipIdx = before ++ word ++ behind) :
    stretch text seen before.length (before.length + word.length) =
      (seenIn seen word).map Prod.fst := by
  rw [stretch, split, List.take_left' (by rw [List.length_append]), List.drop_left]

/-- A part of the seen text is what is seen of a part of the text. -/
theorem split_of_seenIn {seen : ℕ → Prop} {part before word behind : List Placed}
    (split : seenIn seen part = before ++ word ++ behind) :
    ∃ front inner back, part = front ++ inner ++ back ∧ seenIn seen front = before ∧
      seenIn seen inner = word ∧ seenIn seen back = behind := by
  obtain ⟨front, back, rfl, frontSeen, backSeen⟩ := List.filter_eq_append_iff.mp split
  obtain ⟨front, inner, rfl, leftSeen, innerSeen⟩ := List.filter_eq_append_iff.mp frontSeen
  exact ⟨front, inner, back, rfl, leftSeen, innerSeen, backSeen⟩

theorem seenIn_append (seen : ℕ → Prop) (front back : List Placed) :
    seenIn seen (front ++ back) = seenIn seen front ++ seenIn seen back :=
  List.filter_append ..

theorem mem_seenIn {seen : ℕ → Prop} {part : List Placed} {entry : Placed} :
    entry ∈ seenIn seen part ↔ entry ∈ part ∧ seen entry.2 := by
  simp only [seenIn, List.mem_filter, decide_eq_true_eq]

/-- A text around a stretch. -/
theorem split_at (text : Str) {start stop : ℕ} (ordered : start ≤ stop) :
    text.zipIdx = text.zipIdx.take start ++ (text.zipIdx.take stop).drop start ++
      text.zipIdx.drop stop := by
  have front : text.zipIdx.take start = (text.zipIdx.take stop).take start := by
    rw [List.take_take, min_eq_left ordered]
  rw [front, List.take_append_drop, List.take_append_drop]

theorem covered_iff_within {Word : Str → Prop} {text : Str} {seen : ℕ → Prop} {entry : Placed}
    (member : entry ∈ text.zipIdx) (isSeen : seen entry.2) :
    Regex.Covered (fun word => Word (word.map Prod.fst)) (seenIn seen text.zipIdx) entry ↔
      Within Word text seen entry.2 := by
  constructor
  · rintro ⟨before, word, behind, split, isWord, covers⟩
    obtain ⟨front, inner, back, whole, -, rfl, -⟩ := split_of_seenIn split
    obtain ⟨started, ended⟩ := place_of_split whole (mem_seenIn.mp covers).1
    refine ⟨_, _, started, ended, ?_⟩
    rwa [stretch_of_split whole]
  · rintro ⟨start, stop, started, ended, isWord⟩
    have split := split_at text (started.trans ended.le)
    refine ⟨seenIn seen (text.zipIdx.take start),
      seenIn seen ((text.zipIdx.take stop).drop start), seenIn seen (text.zipIdx.drop stop), ?_,
      isWord, mem_seenIn.mpr ⟨?_, isSeen⟩⟩
    · rw [← seenIn_append, ← seenIn_append, ← split]
    · obtain ⟨n, found⟩ := List.getElem?_of_mem member
      have place := found
      rw [List.getElem?_zipIdx] at place
      obtain ⟨c, -, same⟩ := Option.map_eq_some_iff.mp place
      rw [← same] at started ended
      have there : ((text.zipIdx.take stop).drop start)[n - start]? = some entry := by
        rw [List.getElem?_drop, List.getElem?_take_of_lt (by omega), ← found]
        congr 1
        omega
      exact List.mem_of_getElem? there

/-- One pass over what is seen of the text. -/
theorem sub_seenIn {pattern : Regex CodePoint} {Word : Str → Prop}
    (erases : pattern.Erases Word) (text : Str) (seen : ℕ → Prop) :
    (pattern.comap Prod.fst).sub (seenIn seen text.zipIdx) =
      seenIn (fun place => seen place ∧ ¬ Within Word text seen place) text.zipIdx := by
  have distinct : (seenIn seen text.zipIdx).Nodup := (nodup_zipIdx text).filter _
  rw [(erases.comap Prod.fst).sub_eq_filter distinct, seenIn, seenIn, List.filter_filter]
  refine List.filter_congr fun entry member => ?_
  refine Bool.eq_iff_iff.mpr ?_
  simp only [Bool.and_eq_true, decide_eq_true_eq]
  rw [and_comm]
  refine and_congr_right fun isSeen => not_congr ?_
  exact covered_iff_within member isSeen

/-- What two passes leave of the text. -/
theorem seenIn_links (text : Str) :
    (numberPattern.comap Prod.fst).sub ((linkPattern.comap Prod.fst).sub text.zipIdx) =
      seenIn (fun place => ¬ InLink text place ∧ ¬ InNumber text place) text.zipIdx := by
  have whole : text.zipIdx = seenIn (fun _ => True) text.zipIdx := by
    simp [seenIn]
  have links : (linkPattern.comap Prod.fst).sub text.zipIdx =
      seenIn (fun place => ¬ InLink text place) text.zipIdx := by
    conv_lhs => rw [whole, sub_seenIn erases_link]
    simp only [true_and]
    rfl
  rw [links, sub_seenIn erases_number]
  rfl

/-- **What is left** of a text is what stands outside of links and brackets. -/
theorem passes_eq (text : Str) :
    bracketPattern.sub (numberPattern.sub (linkPattern.sub text)) =
      (seenIn (Outside text) text.zipIdx).map Prod.fst := by
  have passes := sub_seenIn erases_bracket text fun place =>
    ¬ InLink text place ∧ ¬ InNumber text place
  rw [← seenIn_links] at passes
  have same := congrArg (List.map Prod.fst) passes
  rwa [Regex.map_sub_comap, Regex.map_sub_comap, Regex.map_sub_comap, List.zipIdx_map_fst] at same

/-! ## The result -/

theorem LinkText.ne_nil {word : Str} (link : LinkText word) : word ≠ [] := by
  obtain ⟨scheme, tail, -, rfl, some_tail, -⟩ := link
  exact fun none => some_tail (List.append_eq_nil_iff.mp none).2

/-- A link is left exactly where brackets split one. -/
theorem splitLink_iff (text : Str) :
    SplitLink text ↔ ∃ word, LinkText word ∧ word <:+: removeLinks text := by
  have stripped : ∀ word, LinkText word → (word <:+: removeLinks text ↔
      word <:+: (seenIn (Outside text) text.zipIdx).map Prod.fst) := by
    intro word link
    rw [removeLinks, strip, infix_stripBy_iff link.ne_nil, passes_eq]
    intro c member
    simpa [nonSpace] using link.nonSpace c member
  constructor
  · rintro ⟨start, stop, link⟩
    refine ⟨_, link, (stripped _ link).mpr ?_⟩
    have part : (text.zipIdx.take stop).drop start <:+: text.zipIdx :=
      (List.drop_suffix _ _).isInfix.trans (List.take_prefix _ _).isInfix
    exact (part.filter _).map Prod.fst
  · rintro ⟨word, link, inside⟩
    obtain ⟨before, behind, split⟩ := (stripped word link).mp inside
    obtain ⟨front, back, seenSplit, frontSplit, -⟩ := List.map_eq_append_iff.mp split.symm
    obtain ⟨before, inner, rfl, -, rfl⟩ := List.map_eq_append_iff.mp frontSplit
    obtain ⟨left, part, right, whole, -, rfl, -⟩ := split_of_seenIn seenSplit
    refine ⟨left.length, left.length + part.length, ?_⟩
    rwa [stretch_of_split whole]

theorem BracketText.oneLine {word : Str} (bracket : BracketText word) : lf ∉ word := by
  obtain ⟨body, rfl, line, -⟩ := bracket
  simp only [List.cons_append, List.mem_cons, List.mem_append, List.not_mem_nil, or_false, not_or]
  exact ⟨by decide, line, by decide⟩

/-- A place outside of links and of numbers in brackets. -/
def Counts (text : Str) (place : ℕ) : Prop := ¬ InLink text place ∧ ¬ InNumber text place

/-- A newline is in no brackets. -/
theorem not_inBrackets_lf {text : Str} {place : ℕ} (member : (lf, place) ∈ text.zipIdx)
    (counts : Counts text place) : ¬ InBrackets text place := by
  intro inside
  have covered : Regex.Covered (fun word => BracketText (word.map Prod.fst))
      (seenIn (Counts text) text.zipIdx) (lf, place) :=
    (covered_iff_within member counts).mpr inside
  obtain ⟨_, word, _, -, bracket, covers⟩ := covered
  exact bracket.oneLine (List.mem_map_of_mem covers)

/-- A bracket that is closed on its line is in brackets: those up to the next closing bracket. -/
theorem inBrackets_of_closed {text : Str} {before between behind : List Placed}
    {opened closed : Placed}
    (split : text.zipIdx = before ++ (opened :: between ++ [closed]) ++ behind)
    (isOpen : opened.1 = openBracket) (isClosed : closed.1 = closeBracket)
    (openedCounts : Counts text opened.2) (closedCounts : Counts text closed.2)
    (line : lf ∉ (seenIn (Counts text) between).map Prod.fst) : InBrackets text opened.2 := by
  have only : ∀ entry : Placed, Counts text entry.2 → seenIn (Counts text) [entry] = [entry] :=
    fun entry counts => List.filter_eq_self.mpr (by simpa using counts)
  set inside := seenIn (Counts text) between with isInside
  -- up to the next closing bracket
  have closes : closeBracket ∈ (inside ++ [closed]).map Prod.fst := by
    rw [List.map_append, List.map_singleton, isClosed]
    exact List.mem_append_right _ (List.mem_singleton_self _)
  obtain ⟨body, rest, shape, first⟩ := List.eq_append_cons_of_mem closes
  obtain ⟨bodyPart, restPart, parts, rfl, restShape⟩ := List.map_eq_append_iff.mp shape
  obtain ⟨next, restPart, rfl, isNext, -⟩ := List.map_eq_cons_iff.mp restShape
  have oneLine : lf ∉ bodyPart.map Prod.fst := by
    intro member
    obtain ⟨entry, present, isLf⟩ := List.mem_map.mp member
    have present : entry ∈ inside ++ [closed] := parts ▸ List.mem_append_left _ present
    rcases List.mem_append.mp present with early | last
    · exact line (List.mem_map.mpr ⟨entry, early, isLf⟩)
    · rw [List.mem_singleton.mp last, isClosed] at isLf
      exact absurd isLf (by decide)
  have member : opened ∈ text.zipIdx := by
    rw [split]
    simp
  refine (covered_iff_within member openedCounts).mp
    ⟨seenIn (Counts text) before, opened :: bodyPart ++ [next],
      restPart ++ seenIn (Counts text) behind, ?_, ?_, List.mem_cons_self⟩
  · rw [split, seenIn_append, seenIn_append, List.cons_append, ← List.singleton_append, seenIn_append,
      seenIn_append, only opened openedCounts, only closed closedCounts, ← isInside, parts]
    simp only [List.append_assoc, List.cons_append, List.nil_append]
  · refine ⟨bodyPart.map Prod.fst, ?_, oneLine, first⟩
    rw [List.map_append, List.map_cons, isOpen, List.map_singleton, isNext]

/-- A bracket that is left is not closed on its line. -/
theorem no_brackets_left (text : Str) {body : Str} (line : lf ∉ body) :
    ¬ openBracket :: body ++ [closeBracket] <:+:
      bracketPattern.sub (numberPattern.sub (linkPattern.sub text)) := by
  rw [passes_eq, List.cons_append]
  rintro ⟨before, behind, split⟩
  obtain ⟨front, back, seenSplit, frontSplit, -⟩ := List.map_eq_append_iff.mp split.symm
  obtain ⟨before, inner, rfl, -, shape⟩ := List.map_eq_append_iff.mp frontSplit
  obtain ⟨opened, rest, rfl, isOpen, restShape⟩ := List.map_eq_cons_iff.mp shape
  obtain ⟨inside, last, rfl, isBody, lastShape⟩ := List.map_eq_append_iff.mp restShape
  obtain ⟨closed, none, rfl, isClosed, isNone⟩ := List.map_eq_cons_iff.mp lastShape
  obtain rfl := List.map_eq_nil_iff.mp isNone
  obtain ⟨left, part, right, whole, -, kept, -⟩ := split_of_seenIn seenSplit
  -- the part of the text between the two brackets
  have parts : seenIn (Outside text) part = [opened] ++ inside ++ [closed] := by
    rw [kept, List.singleton_append, List.cons_append]
  obtain ⟨start, middle, stop, rfl, startKept, -, stopKept⟩ := split_of_seenIn parts
  obtain ⟨openedHere, openedOutside⟩ :=
    mem_seenIn.mp (startKept ▸ List.mem_singleton_self opened : opened ∈ seenIn _ start)
  obtain ⟨closedHere, closedOutside⟩ :=
    mem_seenIn.mp (stopKept ▸ List.mem_singleton_self closed : closed ∈ seenIn _ stop)
  obtain ⟨front, between, rfl⟩ := List.append_of_mem openedHere
  obtain ⟨further, back, rfl⟩ := List.append_of_mem closedHere
  have split : text.zipIdx = (left ++ front) ++
      (opened :: (between ++ middle ++ further) ++ [closed]) ++ (back ++ right) := by
    rw [whole]
    simp only [List.append_assoc, List.cons_append, List.nil_append]
  refine openedOutside.2 (inBrackets_of_closed split isOpen isClosed openedOutside.1
    closedOutside.1 fun member => ?_)
  -- a newline between the brackets would be left
  obtain ⟨⟨_, place⟩, present, rfl⟩ := List.mem_map.mp member
  obtain ⟨present, counts⟩ := mem_seenIn.mp present
  have inPart : (lf, place) ∈ (front ++ opened :: between) ++ middle ++ (further ++ closed :: back) := by
    simp only [List.mem_append, List.mem_cons] at present ⊢
    tauto
  have inText : (lf, place) ∈ text.zipIdx :=
    whole ▸ List.mem_append_left _ (List.mem_append_right _ inPart)
  have isLeft : (lf, place) ∈ opened :: (inside ++ [closed]) := by
    rw [← kept]
    exact mem_seenIn.mpr ⟨inPart, counts, not_inBrackets_lf inText counts⟩
  have isLf : lf ∈ openBracket :: (body ++ [closeBracket]) := shape ▸ List.mem_map_of_mem isLeft
  simp only [List.mem_cons, List.mem_append, List.not_mem_nil, or_false] at isLf
  rcases isLf with same | inBody | same
  · exact absurd same (by decide)
  · exact line inBody
  · exact absurd same (by decide)

/-- No link is left, no bracket that is closed on its line, and nothing to do for a second call. -/
structure LinksRemoved (text : Str) : Prop where
  noLink : ∀ word, LinkText word → ¬ word <:+: removeLinks text
  noBrackets : ∀ body, lf ∉ body → ¬ openBracket :: body ++ [closeBracket] <:+: removeLinks text
  stable : removeLinks (removeLinks text) = removeLinks text

/-- **Links are removed** exactly when none is split by brackets. -/
theorem linksRemoved_iff (text : Str) : LinksRemoved text ↔ ¬ SplitLink text := by
  rw [splitLink_iff]
  constructor
  · rintro removed ⟨word, link, inside⟩
    exact removed.noLink word link inside
  · intro whole
    have noLink : ∀ word, LinkText word → ¬ word <:+: removeLinks text :=
      fun word link inside => whole ⟨word, link, inside⟩
    have noBrackets : ∀ body, lf ∉ body →
        ¬ openBracket :: body ++ [closeBracket] <:+: removeLinks text := by
      intro body line inside
      obtain ⟨front, back, split, -, -⟩ := stripBy_split isSpace
        (bracketPattern.sub (numberPattern.sub (linkPattern.sub text)))
      refine no_brackets_left text line (inside.trans ?_)
      exact ⟨front, back, split.symm⟩
    refine ⟨noLink, noBrackets, ?_⟩
    have links := erases_link.sub_eq_self fun word inside link => noLink word link inside
    have numbers : numberPattern.sub (removeLinks text) = removeLinks text := by
      refine erases_number.sub_eq_self ?_
      rintro word inside ⟨digits, rfl, -, decimal⟩
      refine noBrackets digits (fun member => ?_) inside
      exact absurd (decimal lf member) (by decide)
    have brackets : bracketPattern.sub (removeLinks text) = removeLinks text := by
      refine erases_bracket.sub_eq_self ?_
      rintro word inside ⟨body, rfl, line, -⟩
      exact noBrackets body line inside
    conv_lhs => rw [removeLinks, links, numbers, brackets]
    exact stripBy_stripBy isSpace _

/-- A number in brackets in the middle of a link. -/
theorem not_linksRemoved_split : ¬ ∀ text, LinksRemoved text := by
  intro every
  have link : LinkText (lit "http://x") :=
    ⟨lit "http://", lit "x", .inl rfl, rfl, by decide, List.all_eq_true.mp rfl⟩
  have left : removeLinks (lit "h[1]ttp://x") = lit "http://x" := by decide +kernel
  have removed := (every (lit "h[1]ttp://x")).noLink (lit "http://x") link
  rw [left] at removed
  exact removed List.infix_rfl

end AriannaLinux.Spirits
