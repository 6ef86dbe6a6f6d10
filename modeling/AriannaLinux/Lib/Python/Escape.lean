import AriannaLinux.Lib.Python.Str

/-! # UTF-8 and the `unicode_escape` codec

Encoding a `str` as UTF-8 and decoding the bytes with `unicode_escape`: the bytes are
Latin-1 characters, apart from the escape sequences that start with a backslash. A text
comes back unchanged only if it is ASCII and has no escape sequences: every escape
sequence takes more ASCII bytes than it leaves ASCII characters (`unicodeEscape_decreases`).
-/

namespace AriannaLinux.Python

/-- The bytes of a code point in UTF-8; a surrogate raises `UnicodeEncodeError`. -/
def utf8Char (c : CodePoint) : Option (List UInt8) :=
  let n := c.val
  if n < 0x80 then some [.ofNat n]
  else if n < 0x800 then some [.ofNat (0xc0 + n / 64), .ofNat (0x80 + n % 64)]
  else if 0xd800 ≤ n ∧ n ≤ 0xdfff then none
  else if n < 0x10000 then
    some [.ofNat (0xe0 + n / 4096), .ofNat (0x80 + n / 64 % 64), .ofNat (0x80 + n % 64)]
  else
    some [.ofNat (0xf0 + n / 262144), .ofNat (0x80 + n / 4096 % 64), .ofNat (0x80 + n / 64 % 64),
      .ofNat (0x80 + n % 64)]

/-- `bytes(s, "utf-8")`. -/
def utf8 (s : Str) : Option (List UInt8) := (s.mapM utf8Char).map List.flatten

/-- A byte as a Latin-1 character. -/
def latin1 (b : UInt8) : CodePoint := ⟨b.toNat, by have := b.toNat_lt; omega⟩

/-- A code point of a number, if there is one. -/
def codePoint (n : ℕ) : Option CodePoint := if h : n < 0x110000 then some ⟨n, h⟩ else none

/-- The value of a hexadecimal digit. -/
def hexValue (b : UInt8) : Option ℕ :=
  let n := b.toNat
  if 48 ≤ n ∧ n ≤ 57 then some (n - 48)
  else if 97 ≤ n ∧ n ≤ 102 then some (n - 87)
  else if 65 ≤ n ∧ n ≤ 70 then some (n - 55)
  else none

/-- Exactly `count` hexadecimal digits. -/
def pullHexDigits : ℕ → ℕ → List UInt8 → Option (ℕ × List UInt8)
  | 0, value, rest => some (value, rest)
  | _ + 1, _, [] => none
  | count + 1, value, b :: rest =>
      (hexValue b).bind fun d => pullHexDigits count (value * 16 + d) rest

/-- At most `count` more octal digits. -/
def pullOctalDigits : ℕ → ℕ → List UInt8 → ℕ × List UInt8
  | 0, value, rest => (value, rest)
  | _ + 1, value, [] => (value, [])
  | count + 1, value, b :: rest =>
      if 48 ≤ b.toNat ∧ b.toNat ≤ 55 then pullOctalDigits count (value * 8 + (b.toNat - 48)) rest
      else (value, b :: rest)

/-- The letters that stand for one character behind a backslash. -/
def simpleEscapes : List (ℕ × ℕ) :=
  [(92, 92), (39, 39), (34, 34), (98, 8), (102, 12), (116, 9), (110, 10), (114, 13), (118, 11),
    (97, 7)]

/-- The lengths of the numeric escapes `\\x`, `\\u` and `\\U`. -/
def hexEscapes : List (ℕ × ℕ) := [(120, 2), (117, 4), (85, 8)]

/-- A character name in braces, as `\\N` takes it; `names` is the Unicode name table. -/
def pullName (names : List UInt8 → Option CodePoint) : List UInt8 → Option (Str × List UInt8)
  | [] => none
  | b :: rest =>
      let name := rest.takeWhile (·.toNat ≠ 125)
      if b.toNat ≠ 123 ∨ name = [] ∨ rest.drop name.length = [] then none
      else (names name).map fun c => ([c], rest.drop (name.length + 1))

/-- What an escape sequence stands for and what is behind it: `e` is the byte after the
backslash. An unknown escape stands for itself. -/
def escape (names : List UInt8 → Option CodePoint) (e : UInt8) (rest : List UInt8) :
    Option (Str × List UInt8) :=
  if e.toNat = 10 then some ([], rest)
  else
    match simpleEscapes.lookup e.toNat with
    | some c => (codePoint c).map fun c => ([c], rest)
    | none =>
        if 48 ≤ e.toNat ∧ e.toNat ≤ 55 then
          let (n, rest) := pullOctalDigits 2 (e.toNat - 48) rest
          (codePoint n).map fun c => ([c], rest)
        else
          match hexEscapes.lookup e.toNat with
          | some count =>
              (pullHexDigits count 0 rest).bind fun (n, rest) =>
                (codePoint n).map fun c => ([c], rest)
          | none =>
              if e.toNat = 78 then pullName names rest
              else some ([chr '\\', latin1 e], rest)

/-- The decoding of as many bytes as there is fuel for. -/
def unicodeEscapeLoop (names : List UInt8 → Option CodePoint) :
    ℕ → List UInt8 → Option Str
  | _, [] => some []
  | 0, _ :: _ => none
  | fuel + 1, b :: rest =>
      if b.toNat ≠ 92 then (unicodeEscapeLoop names fuel rest).map (latin1 b :: ·)
      else
        match rest with
        | [] => none
        | e :: rest =>
            (escape names e rest).bind fun (c, rest) =>
              (unicodeEscapeLoop names fuel rest).map (c ++ ·)

/-- `data.decode("unicode_escape")`; `none` stands for a `UnicodeDecodeError`. -/
def unicodeEscape (names : List UInt8 → Option CodePoint) (data : List UInt8) : Option Str :=
  unicodeEscapeLoop names data.length data

/-! ## Escape sequences take ASCII away -/

/-- The bytes that start an escape sequence behind a backslash. -/
def isEscape (n : ℕ) : Bool :=
  n = 10 || (simpleEscapes.lookup n).isSome || (48 ≤ n && n ≤ 55) ||
    (hexEscapes.lookup n).isSome || n = 78

/-- No backslash starts an escape sequence or ends the text. -/
def noEscapes : List ℕ → Bool
  | [] => true
  | [n] => n ≠ 92
  | n :: e :: rest => (n ≠ 92 || !isEscape e) && noEscapes (e :: rest)

/-- How many characters are ASCII. -/
def asciiChars (s : Str) : ℕ := s.countP (·.val < 128)

/-- How many bytes are ASCII. -/
def asciiBytes (data : List UInt8) : ℕ := data.countP (·.toNat < 128)

@[simp] theorem asciiBytes_nil : asciiBytes [] = 0 := rfl

@[simp] theorem asciiChars_nil : asciiChars [] = 0 := rfl

theorem asciiBytes_cons (b : UInt8) (data : List UInt8) :
    asciiBytes (b :: data) = asciiBytes data + if b.toNat < 128 then 1 else 0 := by
  simp only [asciiBytes, List.countP_cons, decide_eq_true_eq]

theorem asciiChars_cons (c : CodePoint) (s : Str) :
    asciiChars (c :: s) = asciiChars s + if c.val < 128 then 1 else 0 := by
  simp only [asciiChars, List.countP_cons, decide_eq_true_eq]

theorem asciiChars_append (s s' : Str) : asciiChars (s ++ s') = asciiChars s + asciiChars s' :=
  List.countP_append

theorem asciiChars_le_length (s : Str) : asciiChars s ≤ s.length := List.countP_le_length

theorem asciiBytes_le_of_suffix {data more : List UInt8} (suffix : data <:+ more) :
    asciiBytes data ≤ asciiBytes more := suffix.sublist.countP_le

@[simp] theorem latin1_val (b : UInt8) : (latin1 b).val = b.toNat := rfl

theorem asciiChars_latin1 (data : List UInt8) :
    asciiChars (data.map latin1) = asciiBytes data := by
  rw [asciiChars, List.countP_map]
  rfl

theorem noEscapes_cons_of_ne {n : ℕ} (other : n ≠ 92) (rest : List ℕ) :
    noEscapes (n :: rest) = noEscapes rest := by
  cases rest with
  | nil => simp [noEscapes, other]
  | cons e rest => simp [noEscapes, other]

theorem noEscapes_unknown {e : ℕ} (unknown : isEscape e = false) (rest : List ℕ) :
    noEscapes (92 :: e :: rest) = noEscapes rest := by
  have other : e ≠ 92 := by
    rintro rfl
    exact absurd unknown (by decide)
  simp only [noEscapes, unknown, Bool.not_false, Bool.or_true, Bool.true_and]
  exact noEscapes_cons_of_ne other rest

theorem pullHexDigits_suffix (count : ℕ) {value n : ℕ} {rest rest' : List UInt8}
    (pulled : pullHexDigits count value rest = some (n, rest')) : rest' <:+ rest := by
  induction count generalizing value rest with
  | zero =>
      cases pulled
      exact List.suffix_rfl
  | succ count ih =>
      cases rest with
      | nil => cases pulled
      | cons b rest =>
          obtain ⟨d, -, pulled⟩ := Option.bind_eq_some_iff.mp pulled
          exact (ih pulled).trans (List.suffix_cons b rest)

theorem pullOctalDigits_suffix (count value : ℕ) (rest : List UInt8) :
    (pullOctalDigits count value rest).2 <:+ rest := by
  induction count generalizing value rest with
  | zero => exact List.suffix_rfl
  | succ count ih =>
      cases rest with
      | nil => exact List.suffix_rfl
      | cons b rest =>
          rw [pullOctalDigits]
          split
          · exact (ih _ rest).trans (List.suffix_cons b rest)
          · exact List.suffix_rfl

theorem pullName_spec {names : List UInt8 → Option CodePoint} {rest rest' : List UInt8} {c : Str}
    (pulled : pullName names rest = some (c, rest')) : c.length ≤ 1 ∧ rest' <:+ rest := by
  cases rest with
  | nil => cases pulled
  | cons b rest =>
      simp only [pullName] at pulled
      split at pulled
      · cases pulled
      · obtain ⟨named, -, pair⟩ := Option.map_eq_some_iff.mp pulled
        cases pair
        exact ⟨le_rfl, (List.drop_suffix _ rest).trans (List.suffix_cons b rest)⟩

/-- An escape sequence leaves at most one character. -/
theorem escape_known {names : List UInt8 → Option CodePoint} {e : UInt8}
    {rest rest' : List UInt8} {c : Str} (known : isEscape e.toNat = true)
    (escaped : escape names e rest = some (c, rest')) : c.length ≤ 1 ∧ rest' <:+ rest := by
  unfold escape at escaped
  split at escaped
  · cases escaped
    exact ⟨Nat.zero_le _, List.suffix_rfl⟩
  · rename_i notNewline
    split at escaped
    · obtain ⟨char, -, pair⟩ := Option.map_eq_some_iff.mp escaped
      cases pair
      exact ⟨le_rfl, List.suffix_rfl⟩
    · rename_i notSimple
      split at escaped
      · obtain ⟨char, -, pair⟩ := Option.map_eq_some_iff.mp escaped
        cases pair
        exact ⟨le_rfl, pullOctalDigits_suffix 2 _ rest⟩
      · rename_i notOctal
        split at escaped
        · obtain ⟨⟨n, after⟩, pulled, made⟩ := Option.bind_eq_some_iff.mp escaped
          obtain ⟨char, -, pair⟩ := Option.map_eq_some_iff.mp made
          cases pair
          exact ⟨le_rfl, pullHexDigits_suffix _ pulled⟩
        · rename_i notHex
          split at escaped
          · exact pullName_spec escaped
          · rename_i notName
            simp [isEscape, notNewline, notSimple, notHex, notName] at known
            omega

theorem escape_unknown {names : List UInt8 → Option CodePoint} {e : UInt8}
    (unknown : isEscape e.toNat = false) (rest : List UInt8) :
    escape names e rest = some ([chr '\\', latin1 e], rest) := by
  simp only [isEscape, Bool.or_eq_false_iff, decide_eq_false_iff_not, Option.isSome_eq_false_iff,
    Option.isNone_iff_eq_none, Bool.and_eq_false_iff] at unknown
  obtain ⟨⟨⟨⟨notNewline, notSimple⟩, notOctal⟩, notHex⟩, notName⟩ := unknown
  have octal : ¬ (48 ≤ e.toNat ∧ e.toNat ≤ 55) := by
    rintro ⟨low, high⟩
    exact notOctal.elim (fun n => n low) fun n => n high
  simp only [escape, notNewline, notSimple, octal, notHex, notName, ↓reduceIte]

theorem isEscape_lt {n : ℕ} (known : isEscape n = true) : n < 128 := by
  by_contra large
  have others : ∀ pairs : List (ℕ × ℕ), (∀ pair ∈ pairs, pair.1 < 128) → pairs.lookup n = none := by
    intro pairs small
    rw [List.lookup_eq_none_iff]
    intro pair member
    simpa using fun same : n = pair.1 => large (same ▸ small pair member)
  simp only [isEscape, others simpleEscapes (by decide), others hexEscapes (by decide),
    Option.isSome_none, Bool.or_false, Bool.or_eq_true, Bool.and_eq_true, decide_eq_true_eq]
    at known
  omega

/-- **Decoding.** Either there was no escape sequence and the bytes are read as Latin-1, or
ASCII characters are lost. -/
theorem unicodeEscapeLoop_decreases {names : List UInt8 → Option CodePoint} (fuel : ℕ)
    {data : List UInt8} {out : Str} (decoded : unicodeEscapeLoop names fuel data = some out) :
    (noEscapes (data.map UInt8.toNat) = true ∧ out = data.map latin1) ∨
      asciiChars out < asciiBytes data := by
  induction fuel generalizing data out with
  | zero =>
      cases data with
      | nil =>
          cases decoded
          exact .inl ⟨rfl, rfl⟩
      | cons b rest => cases decoded
  | succ fuel ih =>
      cases data with
      | nil =>
          cases decoded
          exact .inl ⟨rfl, rfl⟩
      | cons b rest =>
          unfold unicodeEscapeLoop at decoded
          split at decoded
          case isTrue other =>
            obtain ⟨tail, later, rfl⟩ := Option.map_eq_some_iff.mp decoded
            rcases ih later with ⟨plain, rfl⟩ | fewer
            · refine .inl ⟨?_, rfl⟩
              rw [List.map_cons, noEscapes_cons_of_ne other, plain]
            · rw [asciiChars_cons, asciiBytes_cons, latin1_val]
              exact .inr (Nat.add_lt_add_right fewer _)
          case isFalse backslash =>
            rw [not_not] at backslash
            cases rest with
            | nil => cases decoded
            | cons e rest =>
                obtain ⟨⟨c, after⟩, escaped, decoded⟩ := Option.bind_eq_some_iff.mp decoded
                obtain ⟨tail, later, rfl⟩ := Option.map_eq_some_iff.mp decoded
                have kept : asciiChars tail ≤ asciiBytes after := by
                  rcases ih later with ⟨-, rfl⟩ | fewer
                  · exact (asciiChars_latin1 after).le
                  · exact fewer.le
                cases known : isEscape e.toNat with
                | true =>
                    obtain ⟨short, suffix⟩ := escape_known known escaped
                    have ascii := isEscape_lt known
                    have one := asciiChars_le_length c
                    have less := asciiBytes_le_of_suffix suffix
                    refine .inr ?_
                    rw [asciiChars_append, asciiBytes_cons, asciiBytes_cons, if_pos ascii,
                      if_pos (by omega)]
                    omega
                | false =>
                    rw [escape_unknown known] at escaped
                    cases escaped
                    have same : latin1 b = chr '\\' := Fin.ext backslash
                    rcases ih later with ⟨plain, rfl⟩ | fewer
                    · refine .inl ⟨?_, by rw [← same]; rfl⟩
                      rw [List.map_cons, List.map_cons, backslash, noEscapes_unknown known, plain]
                    · refine .inr ?_
                      rw [List.cons_append, List.singleton_append, ← same, asciiChars_cons,
                        asciiChars_cons, asciiBytes_cons, asciiBytes_cons, latin1_val, latin1_val]
                      omega

/-- Without escape sequences the bytes are read as Latin-1. -/
theorem unicodeEscapeLoop_plain {names : List UInt8 → Option CodePoint} (fuel : ℕ)
    {data : List UInt8} (enough : data.length ≤ fuel)
    (plain : noEscapes (data.map UInt8.toNat) = true) :
    unicodeEscapeLoop names fuel data = some (data.map latin1) := by
  induction fuel generalizing data with
  | zero =>
      rw [List.length_eq_zero_iff.mp (Nat.le_zero.mp enough)]
      rfl
  | succ fuel ih =>
      cases data with
      | nil => rfl
      | cons b rest =>
          rw [List.length_cons] at enough
          by_cases backslash : b.toNat = 92
          · cases rest with
            | nil => simp [noEscapes, backslash] at plain
            | cons e rest =>
                rw [List.length_cons] at enough
                have unknown : isEscape e.toNat = false := by
                  simp [noEscapes, backslash] at plain
                  exact plain.1
                rw [List.map_cons, List.map_cons, backslash, noEscapes_unknown unknown] at plain
                have same : latin1 b = chr '\\' := Fin.ext backslash
                simp only [unicodeEscapeLoop, backslash, ne_eq, not_true_eq_false, ↓reduceIte,
                  escape_unknown unknown, Option.bind_some, ih (by omega) plain, Option.map_some,
                  List.map_cons, same, List.cons_append, List.nil_append]
          · rw [List.map_cons, noEscapes_cons_of_ne backslash] at plain
            have later := ih (Nat.le_of_succ_le_succ enough) plain
            unfold unicodeEscapeLoop
            rw [if_pos backslash, later]
            rfl

/-! ## UTF-8 read as Latin-1 -/

theorem utf8_cons (c : CodePoint) (s : Str) :
    utf8 (c :: s) = (utf8Char c).bind fun bytes => (utf8 s).map (bytes ++ ·) := by
  simp only [utf8, List.mapM_cons]
  cases utf8Char c with
  | none => rfl
  | some bytes =>
      cases List.mapM utf8Char s with
      | none => rfl
      | some rest => rfl

theorem utf8Char_ascii {c : CodePoint} (ascii : c.val < 128) :
    utf8Char c = some [.ofNat c.val] := by
  simp only [utf8Char, ascii, ↓reduceIte]

/-- A character outside ASCII has a lead byte and some continuation bytes. -/
theorem utf8Char_other {c : CodePoint} {bytes : List UInt8} (other : 128 ≤ c.val)
    (encoded : utf8Char c = some bytes) :
    ∃ lead tail, bytes = lead :: tail ∧ 0xc2 ≤ lead.toNat ∧ tail ≠ [] ∧
      (∀ b ∈ tail, 0x80 ≤ b.toNat ∧ b.toNat < 0xc0) ∧
      (c.val < 0x100 → lead.toNat = 0xc0 + c.val / 64 ∧ tail = [.ofNat (0x80 + c.val % 64)]) := by
  have bounded := c.isLt
  have notAscii : ¬ c.val < 0x80 := by omega
  simp only [utf8Char, notAscii, ↓reduceIte] at encoded
  split at encoded
  · cases encoded
    refine ⟨_, _, rfl, ?_, by simp, ?_, fun _ => ⟨?_, rfl⟩⟩
    · rw [UInt8.toNat_ofNat']
      omega
    · simp only [List.mem_singleton, forall_eq, UInt8.toNat_ofNat']
      omega
    · rw [UInt8.toNat_ofNat']
      omega
  · split at encoded
    · cases encoded
    · split at encoded
      · cases encoded
        refine ⟨_, _, rfl, ?_, by simp, ?_, fun small => by omega⟩
        · rw [UInt8.toNat_ofNat']
          omega
        · simp only [List.mem_cons, List.not_mem_nil, or_false, forall_eq_or_imp, forall_eq,
            UInt8.toNat_ofNat']
          omega
      · cases encoded
        refine ⟨_, _, rfl, ?_, by simp, ?_, fun small => by omega⟩
        · rw [UInt8.toNat_ofNat']
          omega
        · simp only [List.mem_cons, List.not_mem_nil, or_false, forall_eq_or_imp, forall_eq,
            UInt8.toNat_ofNat']
          omega

/-- An ASCII text is its own encoding. -/
theorem utf8_ascii {s : Str} (ascii : ∀ c ∈ s, c.val < 128) :
    utf8 s = some (s.map fun c => .ofNat c.val) := by
  induction s with
  | nil => rfl
  | cons c s ih =>
      obtain ⟨head, tail⟩ := List.forall_mem_cons.mp ascii
      rw [utf8_cons, utf8Char_ascii head, ih tail]
      rfl

/-- Counting the bytes of an encoding, character by character. -/
theorem countP_utf8 {p : UInt8 → Bool} {q : CodePoint → Bool}
    (each : ∀ c bytes, utf8Char c = some bytes → bytes.countP p = if q c then 1 else 0)
    {s : Str} {data : List UInt8} (encoded : utf8 s = some data) :
    data.countP p = s.countP q := by
  induction s generalizing data with
  | nil =>
      cases encoded
      rfl
  | cons c s ih =>
      rw [utf8_cons] at encoded
      obtain ⟨bytes, char, encoded⟩ := Option.bind_eq_some_iff.mp encoded
      obtain ⟨rest, later, rfl⟩ := Option.map_eq_some_iff.mp encoded
      rw [List.countP_append, List.countP_cons, ih later, each c bytes char]
      omega

/-- Encoding keeps the number of ASCII characters. -/
theorem asciiBytes_utf8 {s : Str} {data : List UInt8} (encoded : utf8 s = some data) :
    asciiBytes data = asciiChars s := by
  refine countP_utf8 (fun c bytes char => ?_) encoded
  by_cases ascii : c.val < 128
  · rw [utf8Char_ascii ascii] at char
    cases char
    have small : (UInt8.ofNat c.val).toNat < 128 := by
      rw [UInt8.toNat_ofNat']
      omega
    rw [List.countP_singleton, if_pos (decide_eq_true small), if_pos (decide_eq_true ascii)]
  · obtain ⟨lead, tail, rfl, high, -, continued, -⟩ := utf8Char_other (not_lt.mp ascii) char
    have none : ∀ b ∈ lead :: tail, ¬ b.toNat < 128 := by
      intro b member
      rcases List.mem_cons.mp member with rfl | later
      · omega
      · exact not_lt.mpr (continued b later).1
    rw [if_neg (by simpa using ascii), List.countP_eq_zero]
    intro b member
    simpa using none b member

/-- Encoding gives one lead byte for each character outside ASCII. -/
theorem leads_utf8 {s : Str} {data : List UInt8} (encoded : utf8 s = some data) :
    data.countP (0xc0 ≤ ·.toNat) = s.countP (128 ≤ ·.val) := by
  refine countP_utf8 (fun c bytes char => ?_) encoded
  by_cases ascii : c.val < 128
  · rw [utf8Char_ascii ascii] at char
    cases char
    have small : ¬ 0xc0 ≤ (UInt8.ofNat c.val).toNat := by
      rw [UInt8.toNat_ofNat']
      omega
    have notOther : ¬ 128 ≤ c.val := by omega
    rw [List.countP_singleton, if_neg (by simpa only [decide_eq_true_eq] using small),
      if_neg (by simpa only [decide_eq_true_eq] using notOther)]
  · obtain ⟨lead, tail, rfl, high, -, continued, -⟩ := utf8Char_other (not_lt.mp ascii) char
    have noLead : tail.countP (0xc0 ≤ ·.toNat) = 0 := by
      rw [List.countP_eq_zero]
      intro b member
      simpa using (continued b member).2
    have leads : 0xc0 ≤ lead.toNat := by omega
    have other : 128 ≤ c.val := by omega
    rw [List.countP_cons, noLead]
    simp [leads, other]

theorem utf8_append (s s' : Str) :
    utf8 (s ++ s') = (utf8 s).bind fun data => (utf8 s').map (data ++ ·) := by
  induction s with
  | nil =>
      have empty : utf8 [] = some [] := rfl
      rw [empty, Option.bind_some]
      exact (Option.map_id' (x := utf8 s')).symm
  | cons c s ih =>
      rw [List.cons_append, utf8_cons, utf8_cons, ih]
      cases utf8Char c with
      | none => rfl
      | some bytes =>
          cases utf8 s with
          | none => rfl
          | some data =>
              cases utf8 s' with
              | none => rfl
              | some data' => simp

theorem latin1_ofNat {c : CodePoint} (ascii : c.val < 128) : latin1 (.ofNat c.val) = c := by
  refine Fin.ext ?_
  rw [latin1_val, UInt8.toNat_ofNat']
  omega

theorem forall_of_countP_eq {α : Type*} {p q : α → Bool} (weaker : ∀ x, p x = true → q x = true)
    {l : List α} (same : l.countP p = l.countP q) : ∀ x ∈ l, q x = true → p x = true := by
  induction l with
  | nil => simp
  | cons y l ih =>
      have fewer : l.countP p ≤ l.countP q := List.countP_mono_left fun x _ => weaker x
      rw [List.countP_cons, List.countP_cons] at same
      have head : q y = true → p y = true := by
        intro holds
        by_contra fails
        rw [if_pos holds, if_neg fails] at same
        omega
      have tail : l.countP p = l.countP q := by
        by_cases holds : q y = true
        · rw [if_pos holds, if_pos (head holds)] at same
          omega
        · rw [if_neg holds, if_neg fun stronger => holds (weaker y stronger)] at same
          omega
      exact List.forall_mem_cons.mpr ⟨head, ih tail⟩

/-- **Only ASCII is its own Latin-1 reading.** A text that is what the UTF-8 encoding of its
middle reads as in Latin-1 is ASCII: otherwise its first other character would be the lead
byte `c3`, the one behind it the continuation byte `83`, and this one would need a lead byte
of its own. -/
theorem ascii_of_latin1_utf8 {front middle back : Str} {data : List UInt8}
    (encoded : utf8 middle = some data) (whole : data.map latin1 = front ++ middle ++ back)
    (ends : ∀ c ∈ front ++ back, c.val < 0x100 → c.val < 0xc0 ∧ c.val ≠ 0x83) :
    ∀ c ∈ front ++ middle ++ back, c.val < 128 := by
  have small : ∀ c ∈ front ++ middle ++ back, c.val < 0x100 := by
    rw [← whole]
    intro c member
    obtain ⟨b, -, rfl⟩ := List.mem_map.mp member
    exact b.toNat_lt
  have noLead : ∀ s : Str, (∀ c ∈ s, c.val < 0x100 → c.val < 0xc0 ∧ c.val ≠ 0x83) →
      (∀ c ∈ s, c.val < 0x100) → s.countP (0xc0 ≤ ·.val) = 0 := by
    intro s outside bounded
    rw [List.countP_eq_zero]
    intro c member
    simpa using (outside c member (bounded c member)).1
  have front_small : ∀ c ∈ front, c.val < 0x100 := fun c member => small c (by simp [member])
  have back_small : ∀ c ∈ back, c.val < 0x100 := fun c member => small c (by simp [member])
  -- every other character of the middle is a lead byte
  have leads : ∀ c ∈ middle, 128 ≤ c.val → 0xc0 ≤ c.val := by
    have counted := leads_utf8 encoded
    have mapped : data.countP (0xc0 ≤ ·.toNat) = (data.map latin1).countP (0xc0 ≤ ·.val) := by
      rw [List.countP_map]
      rfl
    rw [mapped, whole, List.countP_append, List.countP_append,
      noLead front (fun c member => ends c (by simp [member])) front_small,
      noLead back (fun c member => ends c (by simp [member])) back_small] at counted
    have implied := forall_of_countP_eq (p := fun c : CodePoint => decide (0xc0 ≤ c.val))
      (q := fun c : CodePoint => decide (128 ≤ c.val))
      (l := middle) (fun c high => by simp only [decide_eq_true_eq] at high ⊢; omega) (by omega)
    intro c member other
    simpa using implied c member (by simpa using other)
  have noAscii : asciiChars front = 0 := by
    have counted := asciiBytes_utf8 encoded
    rw [← asciiChars_latin1, whole, asciiChars_append, asciiChars_append] at counted
    omega
  by_cases ascii : ∀ c ∈ middle, c.val < 128
  · have same := utf8_ascii ascii
    rw [encoded] at same
    cases same
    rw [← whole, List.map_map]
    intro c member
    obtain ⟨c', inside, rfl⟩ := List.mem_map.mp member
    simpa [latin1_ofNat (ascii c' inside)] using ascii c' inside
  · exfalso
    push Not at ascii
    obtain ⟨c', inside, other'⟩ := ascii
    obtain ⟨c, rest, split⟩ : ∃ c rest, middle.dropWhile (·.val < 128) = c :: rest := by
      apply List.exists_cons_of_ne_nil
      intro none
      rw [List.dropWhile_eq_nil_iff] at none
      have := none c' inside
      simp only [decide_eq_true_eq] at this
      omega
    have other : 128 ≤ c.val := by
      have nonempty : middle.dropWhile (·.val < 128) ≠ [] := by
        rw [split]
        exact List.cons_ne_nil c rest
      have fails := List.head_dropWhile_not (fun c : CodePoint => decide (c.val < 128)) nonempty
      simp only [split, List.head_cons, decide_eq_false_iff_not, not_lt] at fails
      exact fails
    obtain ⟨ahead, shape, ahead_ascii⟩ : ∃ ahead, middle = ahead ++ c :: rest ∧
        ∀ c ∈ ahead, c.val < 128 := by
      refine ⟨middle.takeWhile (·.val < 128), ?_, fun c member => ?_⟩
      · rw [← split, List.takeWhile_append_dropWhile]
      · simpa using List.mem_takeWhile_imp member
    have high := leads c (by simp [shape]) other
    have bounded := small c (by simp [shape])
    rw [shape, utf8_append, utf8_ascii ahead_ascii, Option.bind_some, utf8_cons] at encoded
    obtain ⟨data', behind, rfl⟩ := Option.map_eq_some_iff.mp encoded
    obtain ⟨bytes, char, later⟩ := Option.bind_eq_some_iff.mp behind
    obtain ⟨more, -, rfl⟩ := Option.map_eq_some_iff.mp later
    obtain ⟨lead, tail, rfl, -, -, -, exact⟩ := utf8Char_other other char
    obtain ⟨lead_eq, rfl⟩ := exact bounded
    have same : (ahead.map fun c => UInt8.ofNat c.val).map latin1 = ahead := by
      rw [List.map_map]
      exact (List.map_congr_left fun c member => latin1_ofNat (ahead_ascii c member)).trans
        (List.map_id ahead)
    rw [List.map_append, same, List.map_append, List.map_cons, List.cons_append, List.map_cons,
      List.cons_append, shape] at whole
    have noFront : front = [] := by
      cases front with
      | nil => rfl
      | cons w front =>
          exfalso
          have low := (ends w (by simp) (front_small w (by simp))).1
          rw [asciiChars_cons] at noAscii
          cases ahead with
          | nil =>
              have head : latin1 lead = w := (List.cons.inj whole).1
              rw [← head, latin1_val] at low
              omega
          | cons y ahead =>
              have head : y = w := (List.cons.inj whole).1
              have := ahead_ascii y (by simp)
              rw [if_pos (head ▸ this)] at noAscii
              omega
    rw [noFront, List.nil_append, List.append_assoc, List.append_cancel_left_eq, List.cons_append]
      at whole
    obtain ⟨head, behind⟩ := List.cons.inj whole
    have c_eq : c.val = 0xc3 := by
      rw [← head, latin1_val]
      omega
    cases rest with
    | nil =>
        have member : latin1 (.ofNat (0x80 + c.val % 64)) ∈ back := by
          rw [List.nil_append] at behind
          rw [← behind]
          exact List.mem_cons_self
        refine (ends _ (List.mem_append_right front member) (back_small _ member)).2 ?_
        rw [latin1_val, UInt8.toNat_ofNat', c_eq]
    | cons z rest =>
        have z_eq : z = latin1 (.ofNat (0x80 + c.val % 64)) := (List.cons.inj behind).1.symm
        have value : z.val = 0x83 := by rw [z_eq, latin1_val, UInt8.toNat_ofNat', c_eq]
        have := leads z (by simp [shape]) (by omega)
        omega

end AriannaLinux.Python
