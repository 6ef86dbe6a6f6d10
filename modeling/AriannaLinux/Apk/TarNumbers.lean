import AriannaLinux.Apk.TarFraming
import AriannaLinux.Apk.TarWrite

/-! # The numbers of a tar header

The size field of a header has room for eleven octal digits, 33 bits. `get_octal` accumulates
them in an `unsigned int` and returns an `int`, so a field is read as its value modulo 2^32
with a sign (`getOctal_digits`), and only values below 2^31 are read as they are
(`tarNumbers_full_iff`).
-/

namespace AriannaLinux.Apk

/-- The value of octal digits, the most significant one first. -/
def octalValue (digits : List ℕ) : ℕ := Nat.ofDigits 8 digits.reverse

/-- The size `apk_tar_parse` delivers to the callback of an entry and skips behind it:
`entry.size` as a `size_t`. -/
def entrySize (env : TarEnv) (softChecksums : Bool) (buf : Bytes) : ℕ :=
  toUnsigned 64 (tarTyped env softChecksums buf (tarHeader env buf)).1.size

section Record

variable {σ : Type*} {read : ReadFunction σ} {env : TarEnv} {parser : EntryParser σ}
  {softChecksums : Bool} {buf : Bytes} {s : TarState σ}

/-- The stream the callback gets has the entry size left. -/
theorem tarRecord_delivers :
    tarRecord read env (parser.only fun teis _ => teis.bytesLeft = entrySize env softChecksums buf)
        softChecksums buf s =
      tarRecord read env parser softChecksums buf s := by
  unfold tarRecord tarContent
  by_cases long : tarTypeflag buf = ascii 'L'
  · simp only [if_pos long]
  · simp only [if_neg long, EntryParser.only, entrySize, decide_true, ↓reduceIte]

/-- Behind a record that is not delivered the entry size is skipped. -/
theorem tarRecord_skips (notLong : tarTypeflag buf ≠ ascii 'L')
    (untyped : (tarTyped env softChecksums buf (tarHeader env buf)).1.mode &&& modeFormat = 0) :
    tarRecord read env parser softChecksums buf s =
      tarSkip read s (entrySize env softChecksums buf) (entrySize env softChecksums buf) := by
  unfold tarRecord tarContent
  dsimp only
  rw [if_neg notLong, if_neg (not_not.mpr untyped)]
  rfl

end Record

theorem octalValue_eq_foldl (digits : List ℕ) :
    octalValue digits = digits.foldl (fun v d => v * 8 + d) 0 := by
  rw [octalValue, ← foldl_reverse_digits, List.reverse_reverse]

/-- **What is read from a field.** Digits with a NUL behind them are read as their value modulo
2^32, with a sign. -/
theorem getOctal_digits {buf : Bytes} {offset size : ℕ} {digits : List ℕ} {rest : Bytes}
    (field : tarField buf offset size = digits.map xd ++ 0 :: rest)
    (octal : ∀ d ∈ digits, d < 8) :
    getOctal buf offset size = Int.bmod (octalValue digits) (2 ^ 32) := by
  have inside : (digits.length : ℤ) ≤ (digits.map xd ++ 0 :: rest).length := by
    rw [List.length_append, List.length_map]
    omega
  have read := pullUintLoop_digits (show 8 ≤ 16 by norm_num) digits octal (0 :: rest) _ inside 0
  have stops : NumberEnds 8 (0 :: rest)
      ((digits.map xd ++ 0 :: rest).length - digits.length) :=
    .inr ⟨0, rest, rfl, fun ch digit => absurd digit (by decide +revert)⟩
  have value : digits.foldl (fun v d => (v * 8 + d) % 2 ^ 32) 0 = octalValue digits % 2 ^ 32 := by
    rw [octalValue_eq_foldl, ← foldl_mod]
    rfl
  rw [pullUintLoop_stop _ stops, value] at read
  rw [getOctal, field]
  simp only [pullUint, Blob.ofBytes, List.append_nil, read]
  split
  · next small =>
      rw [Int.bmod_def]
      omega
  · next large =>
      rw [Int.bmod_def]
      omega

/-- The digits of a number that fits its field have its value. -/
theorem octalValue_octals {room value : ℕ} (fits : value < 8 ^ room) :
    octalValue (octals room value) = value := by
  rw [octalValue_eq_foldl]
  induction room generalizing value with
  | zero =>
      rw [Nat.pow_zero] at fits
      rw [octals, List.foldl_nil]
      omega
  | succ room ih =>
      rw [Nat.pow_succ] at fits
      rw [octals, List.foldl_append, ih (by omega), List.foldl_cons, List.foldl_nil]
      omega

theorem octalValue_lt {digits : List ℕ} (octal : ∀ d ∈ digits, d < 8) :
    octalValue digits < 8 ^ digits.length := by
  rw [← List.length_reverse]
  exact Nat.ofDigits_lt_base_pow_length (by norm_num) fun d member =>
    octal d (List.mem_reverse.mp member)

/-- A field holds fewer digits than it has bytes. -/
theorem digits_lt_of_field {buf : Bytes} {offset size : ℕ} {digits : List ℕ} {rest : Bytes}
    (field : tarField buf offset size = digits.map xd ++ 0 :: rest) : digits.length < size := by
  have length := congrArg List.length field
  rw [tarField, List.length_take, List.length_append, List.length_map, List.length_cons] at length
  omega

/-- **When tar numbers are read at full width.** The entry size is the value of the size field,
and what `put_octal` wrote into a field of twelve bytes is read back, exactly when the number
is below 2^31. -/
theorem tarNumbers_full_iff (env : TarEnv) (softChecksums : Bool) (buf : Bytes) :
    (∀ (digits : List ℕ) (rest : Bytes),
      tarField buf 124 12 = digits.map xd ++ 0 :: rest → (∀ d ∈ digits, d < 8) →
        (((tarHeader env buf).size = octalValue digits ∧
            entrySize env softChecksums buf = octalValue digits) ↔
          octalValue digits < 2 ^ 31)) ∧
      ∀ offset value : ℕ, value < 8 ^ 11 →
        tarField buf offset 12 = putOctal 12 value →
          (getOctal buf offset 12 = value ↔ value < 2 ^ 31) := by
  have kept (value : ℕ) (fits : value < 8 ^ 11) :
      Int.bmod value (2 ^ 32) = value ↔ value < 2 ^ 31 := by
    rw [Int.bmod_def]
    split <;> omega
  constructor
  · intro digits rest field octal
    have fits : octalValue digits < 8 ^ 11 :=
      (octalValue_lt octal).trans_le
        (Nat.pow_le_pow_right (by norm_num) (Nat.lt_succ_iff.mp (digits_lt_of_field field)))
    have size : (tarHeader env buf).size = Int.bmod (octalValue digits) (2 ^ 32) :=
      getOctal_digits field octal
    rw [entrySize, tarTyped_size, size, kept _ fits]
    constructor
    · exact And.left
    · intro small
      refine ⟨small, ?_⟩
      rw [(kept _ fits).mpr small, toUnsigned]
      omega
  · intro offset value fits field
    rw [putOctal, octalDigits_eq] at field
    rw [getOctal_digits field (octals_lt 11 value), octalValue_octals fits]
    exact kept value fits

/-- The header of a regular file with a given size field. -/
def sizeHeader (field : Bytes) : TarHeader :=
  { name := strncpy (text "f") 100, size := field, typeflag := ascii '0' }

theorem sizeHeader_field {field : Bytes} (sized : field.length = 12) :
    tarField (sizeHeader field).bytes 124 12 = field := by
  have header : TarHeader.Sized
      { name := strncpy (text "f") 100, size := field, typeflag := ascii '0' } := { size := sized }
  exact header.field_size

/-- A size of 512 bytes is read, and read back. -/
theorem tarNumbers_full_small :
    (∀ env softChecksums,
      (tarHeader env (sizeHeader (text "1000" ++ cleared 8)).bytes).size = 512 ∧
        entrySize env softChecksums (sizeHeader (text "1000" ++ cleared 8)).bytes = 512) ∧
      getOctal (sizeHeader (putOctal 12 512)).bytes 124 12 = 512 := by
  refine ⟨fun env softChecksums => ?_, ?_⟩
  · exact ((tarNumbers_full_iff env softChecksums _).1 [1, 0, 0, 0] (cleared 7)
      (sizeHeader_field (by decide)) (by decide)).mpr (by decide)
  · exact ((tarNumbers_full_iff ⟨fun _ uid => uid, fun _ gid => gid, fun _ => []⟩ false _).2 124 512
      (by norm_num) (sizeHeader_field (by decide))).mpr (by norm_num)

/-- **A size of 2^31 is negative**, and 2^64 - 2^31 bytes are delivered and skipped. -/
theorem tarNumbers_full_negative :
    tarField (sizeHeader (text "20000000000" ++ [0])).bytes 124 12 =
        [2, 0, 0, 0, 0, 0, 0, 0, 0, 0, 0].map xd ++ 0 :: [] ∧
      octalValue [2, 0, 0, 0, 0, 0, 0, 0, 0, 0, 0] = 2147483648 ∧
      (tarHeader ⟨fun _ uid => uid, fun _ gid => gid, fun _ => []⟩
        (sizeHeader (text "20000000000" ++ [0])).bytes).size = -2147483648 ∧
      entrySize ⟨fun _ uid => uid, fun _ gid => gid, fun _ => []⟩ false
        (sizeHeader (text "20000000000" ++ [0])).bytes = 18446744071562067968 := by
  have field : tarField (sizeHeader (text "20000000000" ++ [0])).bytes 124 12 =
      [2, 0, 0, 0, 0, 0, 0, 0, 0, 0, 0].map xd ++ 0 :: [] :=
    (sizeHeader_field (by decide)).trans (by decide)
  have value : octalValue [2, 0, 0, 0, 0, 0, 0, 0, 0, 0, 0] = 2147483648 := by decide
  have size : (tarHeader ⟨fun _ uid => uid, fun _ gid => gid, fun _ => []⟩
      (sizeHeader (text "20000000000" ++ [0])).bytes).size = -2147483648 := by
    refine (getOctal_digits field (by decide)).trans ?_
    rw [value]
    decide
  refine ⟨field, value, size, ?_⟩
  rw [entrySize, tarTyped_size, size]
  decide

end AriannaLinux.Apk
