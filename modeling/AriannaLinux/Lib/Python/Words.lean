import Mathlib.Data.List.Infix
import AriannaLinux.Lib.Fuel
import AriannaLinux.Lib.Python.Escape

/-! # Words, encodable texts and strict decoding

Splitting at white space and joining again, the texts that UTF-8 can encode, and decoding
bytes with the `strict` error handler. An exception is an `Except.error`.
-/

namespace AriannaLinux.Python

/-- The exceptions that can get out of the calls of the terminal. -/
inductive PyException where
  | valueError
  | indexError
  | overflowError
  | unicodeEncodeError
  | unicodeDecodeError
  | recursionError
  | memoryError
  deriving DecidableEq, Repr

@[simp] theorem ok_bind {α β : Type} (a : α) (f : α → Except PyException β) :
    ((.ok a : Except PyException α) >>= f) = f a := rfl

/-! ## Splitting and joining -/

/-- The words of a text whose first word has started with some characters. -/
def splitFrom : Str → Str → List Str
  | word, [] => if word = [] then [] else [word]
  | word, c :: rest =>
      if isSpace c then if word = [] then splitFrom [] rest else word :: splitFrom [] rest
      else splitFrom (word ++ [c]) rest

/-- `s.split()`. -/
def split (s : Str) : List Str := splitFrom [] s

/-- `sep.join(parts)`. -/
def join (sep : Str) : List Str → Str
  | [] => []
  | [part] => part
  | part :: part' :: parts => part ++ sep ++ join sep (part' :: parts)

/-- `s.partition(sep)[2]` for a separator of one character. -/
def behind (sep : CodePoint) (s : Str) : Str := (s.dropWhile (· ≠ sep)).tail

theorem splitFrom_ne_nil {word : Str} (nonempty : word ≠ []) (s : Str) : splitFrom word s ≠ [] := by
  induction s generalizing word with
  | nil =>
      rw [splitFrom, if_neg nonempty]
      exact List.cons_ne_nil _ _
  | cons c rest ih =>
      rw [splitFrom]
      split
      · exact List.cons_ne_nil _ _
      · exact ih (by simp)

/-- A text that starts with another character than white space has a word. -/
theorem split_cons_ne_nil {c : CodePoint} (first : isSpace c = false) (rest : Str) :
    split (c :: rest) ≠ [] := by
  rw [split, splitFrom, first]
  exact splitFrom_ne_nil (by simp) rest

theorem mem_splitFrom {word s part : Str} (member : part ∈ splitFrom word s) :
    ∀ c ∈ part, c ∈ word ∨ c ∈ s := by
  induction s generalizing word with
  | nil =>
      rw [splitFrom] at member
      split at member
      · cases member
      · rw [List.mem_singleton.mp member]
        exact fun c inside => .inl inside
  | cons c' rest ih =>
      intro c inside
      rw [splitFrom] at member
      split at member
      · split at member
        · rcases ih member c inside with none | later
          · cases none
          · exact .inr (List.mem_cons_of_mem _ later)
        · rcases List.mem_cons.mp member with rfl | later
          · exact .inl inside
          · rcases ih later c inside with none | after
            · cases none
            · exact .inr (List.mem_cons_of_mem _ after)
      · rcases ih member c inside with front | later
        · rcases List.mem_append.mp front with early | last
          · exact .inl early
          · exact .inr (by simp [List.mem_singleton.mp last])
        · exact .inr (List.mem_cons_of_mem _ later)

/-- Words are made of characters of the text. -/
theorem mem_split {s part : Str} (member : part ∈ split s) : ∀ c ∈ part, c ∈ s := by
  intro c inside
  rcases mem_splitFrom member c inside with none | later
  · cases none
  · exact later

theorem mem_behind {sep : CodePoint} {s : Str} {c : CodePoint} (member : c ∈ behind sep s) : c ∈ s :=
  (List.dropWhile_suffix _).subset (List.mem_of_mem_tail member)

/-! ## Encodable texts -/

def isSurrogate (c : CodePoint) : Bool := 0xd800 ≤ c.val && c.val ≤ 0xdfff

/-- A text without surrogates. -/
def Encodable (s : Str) : Prop := ∀ c ∈ s, isSurrogate c = false

/-- A text that UTF-8 has bytes for. -/
abbrev Text := { s : Str // Encodable s }

theorem utf8Char_isSome_iff (c : CodePoint) : (utf8Char c).isSome ↔ isSurrogate c = false := by
  simp only [isSurrogate, Bool.and_eq_false_iff, decide_eq_false_iff_not, utf8Char]
  have := c.isLt
  split
  · simp only [Option.isSome_some, true_iff]
    omega
  · split
    · simp only [Option.isSome_some, true_iff]
      omega
    · split
      · simp only [Option.isSome_none, Bool.false_eq_true, false_iff]
        omega
      · split
        · simp only [Option.isSome_some, true_iff]
          omega
        · simp only [Option.isSome_some, true_iff]
          omega

/-- **What UTF-8 encodes.** -/
theorem utf8_isSome_iff (s : Str) : (utf8 s).isSome ↔ Encodable s := by
  induction s with
  | nil => simp [utf8, Encodable]
  | cons c s ih =>
      have head := utf8Char_isSome_iff c
      rw [utf8_cons, Encodable, List.forall_mem_cons, ← head]
      rw [Encodable] at ih
      rw [← ih]
      cases utf8Char c with
      | none => simp
      | some bytes => simp

theorem Encodable.append {s s' : Str} (first : Encodable s) (second : Encodable s') :
    Encodable (s ++ s') := by
  intro c member
  rcases List.mem_append.mp member with front | back
  · exact first c front
  · exact second c back

theorem Encodable.of_subset {s s' : Str} (encodable : Encodable s) (inside : ∀ c ∈ s', c ∈ s) :
    Encodable s' := fun c member => encodable c (inside c member)

theorem Encodable.of_sublist {s s' : Str} (encodable : Encodable s) (inside : s'.Sublist s) :
    Encodable s' := encodable.of_subset fun _ member => inside.subset member

theorem Encodable.join {sep : Str} {parts : List Str} (between : Encodable sep)
    (all : ∀ part ∈ parts, Encodable part) : Encodable (join sep parts) := by
  induction parts with
  | nil => simp [Python.join, Encodable]
  | cons part parts ih =>
      obtain ⟨head, tail⟩ := List.forall_mem_cons.mp all
      cases parts with
      | nil => exact head
      | cons part' parts => exact (head.append between).append (ih tail)

/-- Literals have no surrogates. -/
theorem encodable_lit (s : String) : Encodable (lit s) := by
  intro c member
  obtain ⟨char, -, rfl⟩ := List.mem_map.mp member
  have valid := char.valid
  have value : (chr char).val = char.toNat := by
    simp only [chr, Fin.val_ofNat, Char.toNat, UInt32.isValidChar, Nat.isValidChar] at valid ⊢
    omega
  simp only [isSurrogate, value, Bool.and_eq_false_iff, decide_eq_false_iff_not, Char.toNat,
    UInt32.isValidChar, Nat.isValidChar] at valid ⊢
  omega

/-- Encode a text for a file, a database or the terminal. -/
def encode (s : Str) : Except PyException Unit :=
  match utf8 s with
  | none => .error .unicodeEncodeError
  | some _ => .ok ()

theorem encode_eq_ok_iff (s : Str) : encode s = .ok () ↔ Encodable s := by
  rw [← utf8_isSome_iff, encode]
  cases utf8 s <;> simp

/-! ## Decoding -/

/-- Some continuation bytes. -/
def pullContinuation : ℕ → ℕ → List UInt8 → Option (ℕ × List UInt8)
  | 0, value, rest => some (value, rest)
  | _ + 1, _, [] => none
  | count + 1, value, b :: rest =>
      if 0x80 ≤ b.toNat ∧ b.toNat < 0xc0 then
        pullContinuation count (value * 64 + (b.toNat - 0x80)) rest
      else none

/-- The number of continuation bytes behind a lead byte, its own bits and the smallest code
point that takes that many bytes. -/
def leadByte (b : UInt8) : Option (ℕ × ℕ × ℕ) :=
  let n := b.toNat
  if n < 0x80 then some (0, n, 0)
  else if n < 0xc0 then none
  else if n < 0xe0 then some (1, n - 0xc0, 0x80)
  else if n < 0xf0 then some (2, n - 0xe0, 0x800)
  else if n < 0xf8 then some (3, n - 0xf0, 0x10000)
  else none

/-- A code point that is no surrogate and takes the bytes it was given. -/
def decodedChar (least n : ℕ) : Option CodePoint :=
  if n < least ∨ 0xd800 ≤ n ∧ n ≤ 0xdfff then none else codePoint n

/-- The decoding of as many characters as there is fuel for. -/
def utf8DecodeLoop : ℕ → List UInt8 → Option Str
  | _, [] => some []
  | 0, _ :: _ => none
  | fuel + 1, b :: rest =>
      (leadByte b).bind fun lead =>
        (pullContinuation lead.1 lead.2.1 rest).bind fun pulled =>
          (decodedChar lead.2.2 pulled.1).bind fun c =>
            (utf8DecodeLoop fuel pulled.2).map (c :: ·)

/-- `data.decode()`; `none` stands for a `UnicodeDecodeError`. -/
def utf8Decode (data : List UInt8) : Option Str := utf8DecodeLoop data.length data

theorem encodable_utf8DecodeLoop {fuel : ℕ} {data : List UInt8} {s : Str}
    (decoded : utf8DecodeLoop fuel data = some s) : Encodable s := by
  induction fuel generalizing data s with
  | zero =>
      cases data with
      | nil =>
          cases decoded
          simp [Encodable]
      | cons b rest => cases decoded
  | succ fuel ih =>
      cases data with
      | nil =>
          cases decoded
          simp [Encodable]
      | cons b rest =>
          obtain ⟨lead, -, decoded⟩ := Option.bind_eq_some_iff.mp decoded
          obtain ⟨pulled, -, decoded⟩ := Option.bind_eq_some_iff.mp decoded
          obtain ⟨c, char, decoded⟩ := Option.bind_eq_some_iff.mp decoded
          obtain ⟨tail, later, rfl⟩ := Option.map_eq_some_iff.mp decoded
          refine List.forall_mem_cons.mpr ⟨?_, ih later⟩
          simp only [decodedChar, codePoint] at char
          split at char
          · cases char
          · split at char
            · cases char
              simp only [isSurrogate, Bool.and_eq_false_iff, decide_eq_false_iff_not]
              omega
            · cases char

/-- Decoded text can be encoded. -/
theorem encodable_utf8Decode {data : List UInt8} {s : Str} (decoded : utf8Decode data = some s) :
    Encodable s := encodable_utf8DecodeLoop decoded

theorem pullContinuation_suffix {count value n : ℕ} {rest after : List UInt8}
    (pulled : pullContinuation count value rest = some (n, after)) : after <:+ rest := by
  induction count generalizing value rest with
  | zero =>
      cases pulled
      exact List.suffix_rfl
  | succ count ih =>
      cases rest with
      | nil => cases pulled
      | cons b rest =>
          rw [pullContinuation] at pulled
          split at pulled
          · exact (ih pulled).trans (List.suffix_cons b rest)
          · cases pulled

/-- More fuel than bytes changes nothing. -/
theorem utf8DecodeLoop_eq {fuel fuel' : ℕ} {data : List UInt8} (enough : data.length ≤ fuel)
    (enough' : data.length ≤ fuel') : utf8DecodeLoop fuel data = utf8DecodeLoop fuel' data := by
  induction fuel generalizing fuel' data with
  | zero =>
      rw [List.length_eq_zero_iff.mp (Nat.le_zero.mp enough)]
      cases fuel' <;> rfl
  | succ fuel ih =>
      cases data with
      | nil => cases fuel' <;> rfl
      | cons b rest =>
          rw [List.length_cons] at enough enough'
          obtain ⟨fuel', rfl⟩ : ∃ n, fuel' = n + 1 := ⟨fuel' - 1, by omega⟩
          rw [utf8DecodeLoop, utf8DecodeLoop]
          congr 1
          funext lead
          cases pulled : pullContinuation lead.1 lead.2.1 rest with
          | none => rfl
          | some pair =>
              have shorter := (pullContinuation_suffix pulled).length_le
              simp only [Option.bind_some]
              rw [ih (by omega : pair.2.length ≤ fuel) (by omega : pair.2.length ≤ fuel')]

theorem utf8Decode_cons (b : UInt8) (rest : List UInt8) :
    utf8Decode (b :: rest) = (leadByte b).bind fun lead =>
      (pullContinuation lead.1 lead.2.1 rest).bind fun pulled =>
        (decodedChar lead.2.2 pulled.1).bind fun c => (utf8Decode pulled.2).map (c :: ·) := by
  rw [utf8Decode, List.length_cons, utf8DecodeLoop]
  congr 1
  funext lead
  cases pulled : pullContinuation lead.1 lead.2.1 rest with
  | none => rfl
  | some pair =>
      have shorter := (pullContinuation_suffix pulled).length_le
      simp only [Option.bind_some]
      rw [utf8DecodeLoop_eq shorter le_rfl]
      rfl

theorem utf8Decode_cons_ascii {b : UInt8} (ascii : b.toNat < 128) (rest : List UInt8) :
    utf8Decode (b :: rest) = (utf8Decode rest).map (latin1 b :: ·) := by
  have lead : leadByte b = some (0, b.toNat, 0) := if_pos ascii
  have char : decodedChar 0 b.toNat = some (latin1 b) := by
    rw [decodedChar, if_neg (by omega), codePoint, dif_pos (by omega)]
    rfl
  simp only [utf8Decode_cons, lead, Option.bind_some, pullContinuation, char]

theorem pullContinuation_append {ascii : List UInt8} (small : ∀ b ∈ ascii, b.toNat < 128)
    (count value : ℕ) (rest : List UInt8) :
    pullContinuation count value (rest ++ ascii) =
      (pullContinuation count value rest).map fun pulled => (pulled.1, pulled.2 ++ ascii) := by
  induction count generalizing value rest with
  | zero => rfl
  | succ count ih =>
      cases rest with
      | nil =>
          cases ascii with
          | nil => rfl
          | cons b ascii =>
              have := small b List.mem_cons_self
              have other : ¬ (0x80 ≤ b.toNat ∧ b.toNat < 0xc0) := by omega
              simp only [List.nil_append, pullContinuation, other, ↓reduceIte, Option.map_none]
      | cons b rest =>
          rw [List.cons_append, pullContinuation, pullContinuation]
          split
          · exact ih _ rest
          · rfl

/-- **Text with ASCII behind it.** -/
theorem utf8Decode_append_ascii {ascii : List UInt8} (small : ∀ b ∈ ascii, b.toNat < 128)
    (data : List UInt8) :
    utf8Decode (data ++ ascii) = (utf8Decode data).map (· ++ ascii.map latin1) := by
  induction bytes : data.length using Nat.strong_induction_on generalizing data with
  | _ n ih =>
      subst bytes
      cases data with
      | nil =>
          rw [List.nil_append]
          clear ih
          induction ascii with
          | nil => rfl
          | cons b ascii ih =>
              obtain ⟨head, tail⟩ := List.forall_mem_cons.mp small
              rw [utf8Decode_cons_ascii head, ih tail]
              rfl
      | cons b rest =>
          rw [List.cons_append, utf8Decode_cons, utf8Decode_cons]
          cases leadByte b with
          | none => rfl
          | some lead =>
              simp only [Option.bind_some, pullContinuation_append small]
              cases pulled : pullContinuation lead.1 lead.2.1 rest with
              | none => rfl
              | some pair =>
                  have shorter := (pullContinuation_suffix pulled).length_le
                  simp only [Option.map_some, Option.bind_some]
                  cases decodedChar lead.2.2 pair.1 with
                  | none => rfl
                  | some c =>
                      simp only [Option.bind_some]
                      rw [ih pair.2.length (by rw [List.length_cons]; omega) pair.2 rfl]
                      cases utf8Decode pair.2 with
                      | none => rfl
                      | some text => rfl

/-- A text that starts with an ASCII character comes from its byte. -/
theorem utf8Decode_head_ascii {data : List UInt8} {c : CodePoint} {tail : Str}
    (ascii : c.val < 128) (decoded : utf8Decode data = some (c :: tail)) :
    ∃ b rest, data = b :: rest ∧ latin1 b = c ∧ utf8Decode rest = some tail := by
  cases data with
  | nil => cases decoded
  | cons b rest =>
      by_cases small : b.toNat < 128
      · rw [utf8Decode_cons_ascii small] at decoded
        obtain ⟨text, later, same⟩ := Option.map_eq_some_iff.mp decoded
        obtain ⟨head, tail⟩ := List.cons.inj same
        exact ⟨b, rest, rfl, head, tail ▸ later⟩
      · exfalso
        rw [utf8Decode_cons] at decoded
        obtain ⟨lead, first, decoded⟩ := Option.bind_eq_some_iff.mp decoded
        obtain ⟨pulled, -, decoded⟩ := Option.bind_eq_some_iff.mp decoded
        obtain ⟨c', char, decoded⟩ := Option.bind_eq_some_iff.mp decoded
        obtain ⟨text, -, same⟩ := Option.map_eq_some_iff.mp decoded
        obtain ⟨rfl, -⟩ := List.cons.inj same
        have least : 0x80 ≤ lead.2.2 := by
          simp only [leadByte, small, ↓reduceIte] at first
          split at first
          · cases first
          · split at first
            · cases first
              exact le_refl 0x80
            · split at first
              · cases first
                exact (by decide : 0x80 ≤ 0x800)
              · split at first
                · cases first
                  exact (by decide : 0x80 ≤ 0x10000)
                · cases first
        simp only [decodedChar, codePoint] at char
        split at char
        · cases char
        · split at char
          · have value := congrArg Fin.val (Option.some.inj char)
            simp only at value
            omega
          · cases char

end AriannaLinux.Python
