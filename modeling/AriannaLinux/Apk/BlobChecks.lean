import AriannaLinux.Apk.BlobRoundTrip

/-! # What the decoders accept

`apk_blob_pull_hexdump` compares twice the length of the blob with the length of the target,
not the other way round, so its loop may leave the blob. `apk_blob_pull_base64` ignores what
each chunk says about its characters. Both show in `apk_blob_pull_csum`: which texts it takes
for a checksum is `pullCsum_rejects_iff`.
-/

namespace AriannaLinux.Apk

/-! ## Hexadecimal digits -/

/-- `2 * n` hexadecimal digits lie at the front of the memory. -/
def HexDigits (n : ℕ) (mem : Bytes) : Prop :=
  2 * n ≤ mem.length ∧ ∀ c ∈ mem.take (2 * n), dx c ≠ none

instance (n : ℕ) (mem : Bytes) : Decidable (HexDigits n mem) :=
  inferInstanceAs (Decidable (_ ∧ _))

/-- How many bytes the loop of `apk_blob_pull_hexdump` reads: the last one may be the first
that is no digit. -/
def hexdumpReads : ℕ → Bytes → ℕ
  | 0, _ => 0
  | n + 1, s0 :: s1 :: mem =>
      if dx s0 = none then 1 else if dx s1 = none then 2 else 2 + hexdumpReads n mem
  | _ + 1, [s0] => if dx s0 = none then 1 else 2
  | _ + 1, [] => 1

/-- How many bytes `apk_blob_pull_hexdump` reads. -/
def pullHexdumpReads (b : Option Blob) (n : ℕ) : ℕ :=
  match b with
  | none => 0
  | some b => if b.len * 2 < n then 0 else hexdumpReads n b.mem

/-- The digits of a byte string, two for each byte. -/
inductive HexEncodes : Bytes → Bytes → Prop
  | nil : HexEncodes [] []
  | cons {s0 s1 : UInt8} {r1 r2 : ℕ} {digits bytes : Bytes} :
      dx s0 = some r1 → dx s1 = some r2 → HexEncodes digits bytes →
      HexEncodes (s0 :: s1 :: digits) (UInt8.ofNat (r1 * 16 + r2) :: bytes)

theorem hexDigits_succ {n : ℕ} {s0 s1 : UInt8} {mem : Bytes} :
    HexDigits (n + 1) (s0 :: s1 :: mem) ↔ dx s0 ≠ none ∧ dx s1 ≠ none ∧ HexDigits n mem := by
  have double : 2 * (n + 1) = 2 * n + 1 + 1 := by omega
  simp only [HexDigits, double, List.length_cons, List.take_succ_cons, List.forall_mem_cons]
  constructor
  · rintro ⟨long, first, second, others⟩
    exact ⟨first, second, by omega, others⟩
  · rintro ⟨first, second, long, others⟩
    exact ⟨by omega, first, second, others⟩

theorem HexEncodes.length {digits bytes : Bytes} (encodes : HexEncodes digits bytes) :
    digits.length = 2 * bytes.length := by
  induction encodes with
  | nil => rfl
  | cons _ _ _ ih =>
      simp only [List.length_cons, ih]
      omega

/-- The loop stores what the digits stand for, or meets a byte that is no digit. -/
theorem pullHexdumpLoop_cases (n : ℕ) (mem : Bytes) :
    (HexDigits n mem ∧ ∃ stored, HexEncodes (mem.take (2 * n)) stored ∧ stored.length = n ∧
      pullHexdumpLoop n mem = (stored, some (mem.drop (2 * n)))) ∨
    (¬ HexDigits n mem ∧ (pullHexdumpLoop n mem).2 = none) := by
  induction n generalizing mem with
  | zero => exact .inl ⟨by simp [HexDigits], [], .nil, rfl, rfl⟩
  | succ n ih =>
      match mem with
      | [] => exact .inr ⟨by simp [HexDigits], rfl⟩
      | [_] =>
          refine .inr ⟨fun digits => ?_, rfl⟩
          have long := digits.1
          simp only [List.length_singleton] at long
          omega
      | s0 :: s1 :: mem =>
          have double : 2 * (n + 1) = 2 * n + 1 + 1 := by omega
          simp only [hexDigits_succ, pullHexdumpLoop, double, List.take_succ_cons,
            List.drop_succ_cons]
          cases first : dx s0 with
          | none => exact .inr ⟨by simp, rfl⟩
          | some r1 =>
              cases second : dx s1 with
              | none => exact .inr ⟨by simp, rfl⟩
              | some r2 =>
                  rcases ih mem with ⟨digits, stored, encodes, sized, loop⟩ | ⟨broken, loop⟩
                  · refine .inl ⟨⟨by simp, by simp, digits⟩, _, .cons first second encodes, ?_, ?_⟩
                    · simp [sized]
                    · simp [loop]
                  · exact .inr ⟨fun digits => broken digits.2.2, loop⟩

theorem hexdumpReads_pos (n : ℕ) : ∀ mem : Bytes, 0 < hexdumpReads (n + 1) mem
  | [] => Nat.one_pos
  | [_] => by rw [hexdumpReads]; split <;> omega
  | _ :: _ :: _ => by rw [hexdumpReads]; split_ifs <;> omega

/-- The loop reads on up to the first byte that is no digit. -/
theorem hexdumpReads_le_iff {n len : ℕ} {mem : Bytes} (inside : len ≤ mem.length) :
    hexdumpReads n mem ≤ len ↔ 2 * n ≤ len ∨ ∃ c ∈ mem.take len, dx c = none := by
  induction n generalizing len mem with
  | zero => simp [hexdumpReads]
  | succ n ih =>
      match mem, len with
      | mem, 0 =>
          have read := hexdumpReads_pos n mem
          simp only [List.take_zero, List.not_mem_nil, false_and, exists_false, or_false]
          omega
      | [s0], 1 =>
          simp only [hexdumpReads, List.take_succ_cons, List.take_zero, List.mem_singleton,
            exists_eq_left]
          split_ifs with first
          · simp [first]
          · simp only [first, or_false]
            omega
      | s0 :: s1 :: mem, 1 =>
          simp only [hexdumpReads, List.take_succ_cons, List.take_zero, List.mem_singleton,
            exists_eq_left]
          split_ifs with first second
          · simp [first]
          · simp only [first, or_false]
            omega
          · simp only [first, or_false]
            omega
      | s0 :: s1 :: mem, len + 2 =>
          have shorter : len ≤ mem.length := by simpa using inside
          simp only [hexdumpReads, List.take_succ_cons, List.exists_mem_cons_iff]
          split_ifs with first second
          · simp [first]
          · simp [second]
          · simp only [first, second, false_or]
            rw [show 2 + hexdumpReads n mem ≤ len + 2 ↔ hexdumpReads n mem ≤ len by omega,
              show 2 * (n + 1) ≤ len + 2 ↔ 2 * n ≤ len by omega, ih shorter]

private theorem pullHexdump_inBounds (bytes beyond : Bytes) (n : ℕ) :
    (pullHexdumpReads (some (.ofBytes bytes beyond)) n ≤ bytes.length ∧
      ∀ rest, (pullHexdump (some (.ofBytes bytes beyond)) n).2 = some rest →
        rest.len = bytes.length - 2 * (n : ℤ) ∧ 0 ≤ rest.len) ↔
    2 * bytes.length < n ∨ 2 * n ≤ bytes.length ∨ ∃ c ∈ bytes, dx c = none := by
  have mapped : bytes.length ≤ (bytes ++ beyond).length := by simp
  have own : (bytes ++ beyond).take bytes.length = bytes := List.take_left' rfl
  by_cases refused : 2 * bytes.length < n
  · have refuses : ((bytes.length : ℤ)) * 2 < n := by omega
    simp [pullHexdumpReads, pullHexdump, Blob.ofBytes, refuses, refused]
  · have passes : ¬ ((bytes.length : ℤ)) * 2 < n := by omega
    have reads := @hexdumpReads_le_iff n bytes.length (bytes ++ beyond) mapped
    rw [own] at reads
    simp only [pullHexdumpReads, pullHexdump, Blob.ofBytes, passes, ↓reduceIte, refused, false_or,
      ← reads]
    refine and_iff_left_of_imp fun inside rest left => ?_
    rcases pullHexdumpLoop_cases n (bytes ++ beyond) with ⟨digits, stored, _, _, loop⟩ | ⟨_, loop⟩
    · rw [loop] at left
      cases left
      -- all the bytes read are digits, so the loop read every digit of the target
      rcases reads.mp inside with long | ⟨c, member, wrong⟩
      · exact ⟨rfl, by simp only; omega⟩
      · by_cases long : 2 * n ≤ bytes.length
        · exact ⟨rfl, by simp only; omega⟩
        · have front : c ∈ (bytes ++ beyond).take (2 * n) := by
            rw [List.take_append, List.take_of_length_le (by omega)]
            exact List.mem_append_left _ member
          exact absurd wrong (digits.2 c front)
    · generalize pullHexdumpLoop n (bytes ++ beyond) = result at loop left
      obtain ⟨stored, behind⟩ := result
      cases loop
      cases left

/-- **The hexadecimal decoder stays in bounds exactly** when its length test refuses the blob,
when the blob holds all the digits, or when a byte of the blob is no digit. -/
theorem pullHexdump_inBounds_iff (b : Option Bytes) (beyond : Bytes) (n : ℕ) :
    (pullHexdumpReads (b.map (.ofBytes · beyond)) n ≤ (b.getD []).length ∧
      ∀ rest, (pullHexdump (b.map (.ofBytes · beyond)) n).2 = some rest →
        rest.len = (b.getD []).length - 2 * (n : ℤ) ∧ 0 ≤ rest.len) ↔
    ∀ bytes ∈ b, 2 * bytes.length < n ∨ 2 * n ≤ bytes.length ∨ ∃ c ∈ bytes, dx c = none := by
  cases b with
  | none => simp [pullHexdumpReads, pullHexdump]
  | some bytes => simpa using pullHexdump_inBounds bytes beyond n

/-- Sixteen digits of an MD5 digest with others behind them in memory. -/
theorem pullHexdump_beyond :
    ¬ ∀ (bytes beyond : Bytes) (n : ℕ),
      pullHexdumpReads (some (.ofBytes bytes beyond)) n ≤ bytes.length ∧
        ∀ rest, (pullHexdump (some (.ofBytes bytes beyond)) n).2 = some rest →
          rest.len = bytes.length - 2 * (n : ℤ) ∧ 0 ≤ rest.len := by
  intro bounded
  exact absurd (bounded (text "0123456789abcdef") (text "0123456789abcdef") 16).1 (by decide)

/-! ## Checksums -/

/-- The value of a character of the base64 alphabet. -/
def Sextet (c : UInt8) (v : ℕ) : Prop := b64encodeTable[v]? = some c

/-- The base64 characters of a byte string: four for three bytes, and padding for the bytes
that are missing at the end. -/
inductive Base64Encodes : Bytes → Bytes → Prop
  | nil : Base64Encodes [] []
  | three {f0 f1 f2 f3 a b c : UInt8} {v0 v1 v2 v3 : ℕ} {chars bytes : Bytes} :
      Sextet f0 v0 → Sextet f1 v1 → Sextet f2 v2 → Sextet f3 v3 →
      (a.toNat * 256 + b.toNat) * 256 + c.toNat = ((v0 * 64 + v1) * 64 + v2) * 64 + v3 →
      Base64Encodes chars bytes →
      Base64Encodes (f0 :: f1 :: f2 :: f3 :: chars) (a :: b :: c :: bytes)
  | two {f0 f1 f2 a b : UInt8} {v0 v1 v2 : ℕ} :
      Sextet f0 v0 → Sextet f1 v1 → Sextet f2 v2 →
      a.toNat * 256 + b.toNat = ((v0 * 64 + v1) * 64 + v2) / 4 →
      Base64Encodes [f0, f1, f2, ascii '='] [a, b]
  | one {f0 f1 a : UInt8} {v0 v1 : ℕ} : Sextet f0 v0 → Sextet f1 v1 →
      a.toNat = (v0 * 64 + v1) / 16 → Base64Encodes [f0, f1, ascii '=', ascii '='] [a]

/-- The texts of a checksum. -/
inductive CsumEncodes : Bytes → Checksum → Prop
  | md5 {digits : Bytes} {csum : Checksum} : digits.length = 32 →
      HexEncodes digits csum.digest → csum.type = checksumMd5 → CsumEncodes digits csum
  | sha1Hex {digits : Bytes} {csum : Checksum} : digits.length = 40 →
      HexEncodes digits csum.digest → csum.type = checksumSha1 →
      CsumEncodes (text "X1" ++ digits) csum
  | sha1Base64 {chars : Bytes} {csum : Checksum} : chars.length = 28 →
      Base64Encodes chars csum.digest → csum.type = checksumSha1 →
      CsumEncodes (text "Q1" ++ chars) csum

/-- The digits of a digest lie inside the text, or the text is too short for the length test, or
digits are missing even with what lies behind the text in memory. -/
def DigitsSettled (n : ℕ) (digits beyond : Bytes) : Prop :=
  2 * n ≤ digits.length ∨ 2 * digits.length < n ∨ ¬ HexDigits n (digits ++ beyond)

/-- The characters at the front are the base64 text of a SHA1 digest, if there are enough. -/
def CharsSettled (chars : Bytes) : Prop :=
  28 ≤ chars.length → (∀ c ∈ chars.take 27, c ∈ b64encodeTable) ∧ chars[27]? = some (ascii '=')

theorem Sextet.lt {c : UInt8} {v : ℕ} (sextet : Sextet c v) : v < 64 :=
  (List.getElem?_eq_some_iff.mp sextet).1

theorem Sextet.decode {c : UInt8} {v : ℕ} (sextet : Sextet c v) :
    b64decode c = UInt8.ofNat v ∧ b64decode c ≠ 0xff := by
  have small : (UInt8.ofNat v).toNat = v := by
    have bound := sextet.lt
    rw [UInt8.toNat_ofNat']
    omega
  have encoded : b64encode (UInt8.ofNat v) = c := by
    rw [b64encode, small, List.getD_eq_getElem?_getD, sextet, Option.getD_some]
  have bounded : (UInt8.ofNat v).toNat < 64 := by rw [small]; exact sextet.lt
  rw [← encoded, b64decode_encode bounded]
  exact ⟨rfl, ne_invalid bounded⟩

/-! The bytes of one chunk in terms of its sextets. -/

private theorem or_disjoint {high low : ℕ} (k : ℕ) (small : low < 2 ^ k) :
    high * 2 ^ k ||| low = high * 2 ^ k + low := by
  rw [← Nat.shiftLeft_eq, Nat.shiftLeft_add_eq_or_of_lt small]

private theorem byte0_toNat {v0 v1 : ℕ} (first : v0 < 64) (second : v1 < 64) :
    (UInt8.ofNat v0 <<< 2 ||| UInt8.ofNat v1 >>> 4).toNat = v0 * 4 + v1 / 16 := by
  have bits : (UInt8.ofNat v0 <<< 2 ||| UInt8.ofNat v1 >>> 4).toNat =
      v0 * 4 % 256 ||| v1 % 256 / 16 := by
    simp [Nat.shiftLeft_eq, Nat.shiftRight_eq_div_pow]
  rw [bits, show v0 * 4 % 256 = v0 * 2 ^ 2 by omega, or_disjoint 2 (by omega)]
  omega

private theorem byte1_toNat {v1 v2 : ℕ} (second : v2 < 64) :
    (UInt8.ofNat v1 <<< 4 ||| UInt8.ofNat v2 >>> 2).toNat = v1 % 16 * 16 + v2 / 4 := by
  have bits : (UInt8.ofNat v1 <<< 4 ||| UInt8.ofNat v2 >>> 2).toNat =
      v1 * 16 % 256 ||| v2 % 256 / 4 := by
    simp [Nat.shiftLeft_eq, Nat.shiftRight_eq_div_pow]
  rw [bits, show v1 * 16 % 256 = v1 % 16 * 2 ^ 4 by omega, or_disjoint 4 (by omega)]
  omega

private theorem byte2_toNat {v2 v3 : ℕ} (third : v3 < 64) :
    (((UInt8.ofNat v2 <<< 6) &&& 0xc0) ||| UInt8.ofNat v3).toNat = v2 % 4 * 64 + v3 := by
  have bits : (((UInt8.ofNat v2 <<< 6) &&& 0xc0) ||| UInt8.ofNat v3).toNat =
      (v2 * 64 % 256 &&& 192) ||| v3 % 256 := by
    simp [Nat.shiftLeft_eq]
  have masked : ∀ high < 4, high * 64 &&& 192 = high * 2 ^ 6 := by decide
  rw [bits, show v2 * 64 % 256 = v2 % 4 * 64 by omega, masked _ (by omega),
    or_disjoint 6 (by omega)]
  omega

theorem pullB64Chunk_sextets {f0 f1 f2 f3 : UInt8} {v0 v1 v2 v3 : ℕ} (first : Sextet f0 v0)
    (second : Sextet f1 v1) (third : Sextet f2 v2) (fourth : Sextet f3 v3) :
    ∃ a b c, pullB64Chunk f0 f1 f2 f3 4 = [a, b, c] ∧
      (a.toNat * 256 + b.toNat) * 256 + c.toNat = ((v0 * 64 + v1) * 64 + v2) * 64 + v3 := by
  obtain ⟨⟨read0, valid0⟩, read1, valid1⟩ := And.intro first.decode second.decode
  obtain ⟨⟨read2, valid2⟩, read3, valid3⟩ := And.intro third.decode fourth.decode
  simp only [pullB64Chunk, valid0, valid1, valid2, valid3, or_self, ↓reduceIte, Nat.reduceLT]
  refine ⟨_, _, _, rfl, ?_⟩
  rw [read0, read1, read2, read3, byte0_toNat first.lt second.lt, byte1_toNat third.lt,
    byte2_toNat fourth.lt]
  have := second.lt
  have := third.lt
  omega

theorem pullB64Chunk_padded {f0 f1 f2 : UInt8} {v0 v1 v2 : ℕ} (first : Sextet f0 v0)
    (second : Sextet f1 v1) (third : Sextet f2 v2) :
    ∃ a b, pullB64Chunk f0 f1 f2 (ascii '=') 2 = [a, b] ∧
      a.toNat * 256 + b.toNat = ((v0 * 64 + v1) * 64 + v2) / 4 := by
  obtain ⟨⟨read0, valid0⟩, read1, valid1⟩ := And.intro first.decode second.decode
  obtain ⟨read2, valid2⟩ := third.decode
  have padding : b64decode (ascii '=') ≠ 0xff := by rw [b64decode_padding]; decide
  simp only [pullB64Chunk, valid0, valid1, valid2, padding, or_self, ↓reduceIte, Nat.lt_irrefl,
    Nat.reduceLT]
  refine ⟨_, _, rfl, ?_⟩
  rw [read0, read1, read2, byte0_toNat first.lt second.lt, byte1_toNat third.lt]
  have := second.lt
  omega

/-- A list that is not empty. -/
theorem cons_of_length {n : ℕ} {l : Bytes} (long : l.length = n + 1) :
    ∃ a rest, l = a :: rest ∧ rest.length = n := by
  obtain ⟨a, rest, rfl⟩ := List.exists_cons_of_length_eq_add_one long
  exact ⟨a, rest, rfl, Nat.succ.inj long⟩

/-- Characters of the alphabet with one padding character are decoded to what they encode. -/
theorem pullBase64Loop_encodes (rest : Bytes) (k : ℕ) :
    ∀ chars target : Bytes, chars.length = 4 * k + 3 → target.length = 3 * k + 2 →
      (∀ c ∈ chars, c ∈ b64encodeTable) →
      ∃ bytes, pullBase64Loop (chars ++ ascii '=' :: rest) target = bytes ∧
        bytes.length = target.length ∧ Base64Encodes (chars ++ [ascii '=']) bytes := by
  induction k with
  | zero =>
      intro chars target three two inside
      obtain ⟨f0, f1, f2, rfl⟩ := List.length_eq_three.mp three
      obtain ⟨t0, t1, rfl⟩ := List.length_eq_two.mp two
      simp only [List.forall_mem_cons] at inside
      obtain ⟨v0, first⟩ := List.getElem?_of_mem inside.1
      obtain ⟨v1, second⟩ := List.getElem?_of_mem inside.2.1
      obtain ⟨v2, third⟩ := List.getElem?_of_mem inside.2.2.1
      obtain ⟨a, b, read, value⟩ := pullB64Chunk_padded first second third
      refine ⟨[a, b], ?_, rfl, .two first second third value⟩
      simp only [List.cons_append, List.nil_append, pullBase64Loop, read]
      rfl
  | succ k ih =>
      intro chars target four three inside
      obtain ⟨f0, chars, rfl, left0⟩ := cons_of_length four
      obtain ⟨f1, chars, rfl, left1⟩ := cons_of_length left0
      obtain ⟨f2, chars, rfl, left2⟩ := cons_of_length left1
      obtain ⟨f3, chars, rfl, charsLeft⟩ := cons_of_length left2
      obtain ⟨t0, target, rfl, left3⟩ := cons_of_length three
      obtain ⟨t1, target, rfl, left4⟩ := cons_of_length left3
      obtain ⟨t2, target, rfl, targetLeft⟩ := cons_of_length left4
      simp only [List.forall_mem_cons] at inside
      obtain ⟨v0, first⟩ := List.getElem?_of_mem inside.1
      obtain ⟨v1, second⟩ := List.getElem?_of_mem inside.2.1
      obtain ⟨v2, third⟩ := List.getElem?_of_mem inside.2.2.1
      obtain ⟨v3, fourth⟩ := List.getElem?_of_mem inside.2.2.2.1
      obtain ⟨a, b, c, read, value⟩ := pullB64Chunk_sextets first second third fourth
      obtain ⟨bytes, loop, sized, encodes⟩ := ih chars target charsLeft targetLeft inside.2.2.2.2
      refine ⟨a :: b :: c :: bytes, ?_, by simp [sized],
        .three first second third fourth value encodes⟩
      simp only [List.cons_append, pullBase64Loop, read, loop]
      rfl

/-- When a text is taken for a checksum only if it is one. -/
def CsumSettled (t beyond : Bytes) : Prop :=
  match t with
  | c0 :: c1 :: body =>
      if dx c0 ≠ none then DigitsSettled 16 t beyond
      else if c1 ≠ ascii '1' then True
      else if c0 = ascii 'X' then DigitsSettled 20 body beyond
      else if c0 = ascii 'Q' then CharsSettled body
      else True
  | _ => True

/-- A dump is refused, or it is decoded, and it lies inside the text exactly when that is
settled. -/
theorem pullHexdump_settled (n : ℕ) (digits beyond : Bytes) :
    ((pullHexdump (some (.ofBytes digits beyond)) n).2 = none ∧ DigitsSettled n digits beyond) ∨
    ∃ stored, pullHexdump (some (.ofBytes digits beyond)) n =
        (stored, some ⟨(digits ++ beyond).drop (2 * n), digits.length - 2 * n⟩) ∧
      stored.length = n ∧ HexEncodes ((digits ++ beyond).take (2 * n)) stored ∧
      (DigitsSettled n digits beyond ↔ 2 * n ≤ digits.length) := by
  by_cases refused : 2 * digits.length < n
  · have refuses : (digits.length : ℤ) * 2 < n := by omega
    exact .inl ⟨by simp [pullHexdump, Blob.ofBytes, refuses], .inr (.inl refused)⟩
  · have passes : ¬ (digits.length : ℤ) * 2 < n := by omega
    simp only [pullHexdump, Blob.ofBytes, passes, ↓reduceIte]
    rcases pullHexdumpLoop_cases n (digits ++ beyond) with
      ⟨all, stored, encodes, sized, loop⟩ | ⟨broken, loop⟩
    · refine .inr ⟨stored, by rw [loop], sized, encodes, ?_⟩
      simp [DigitsSettled, refused, all]
    · refine .inl ⟨?_, .inr (.inr broken)⟩
      generalize pullHexdumpLoop n (digits ++ beyond) = result at loop ⊢
      obtain ⟨stored, behind⟩ := result
      cases loop
      rfl

/-- The blob that is left, if any, is the text behind a text of the checksum. -/
def TakenWhole (t beyond : Bytes) (result : Checksum × Option Blob) : Prop :=
  ∀ rest, result.2 = some rest → ∃ consumed remaining, t = consumed ++ remaining ∧
    rest = .ofBytes remaining beyond ∧ CsumEncodes consumed result.1

theorem takenWhole_none (t beyond : Bytes) (csum : Checksum) :
    TakenWhole t beyond (csum, none) := by
  rintro rest ⟨⟩

private theorem takenWhole_hexdump {n : ℕ} (front digits beyond : Bytes) {csum : Checksum}
    (typed : csum.type = n) (small : n ≤ 20)
    (encodes : ∀ (digits : Bytes) (csum : Checksum), digits.length = 2 * n →
      HexEncodes digits csum.digest → csum.type = n → CsumEncodes (front ++ digits) csum) :
    TakenWhole (front ++ digits) beyond
        (csum.store (pullHexdump (some (.ofBytes digits beyond)) n).1,
          (pullHexdump (some (.ofBytes digits beyond)) n).2) ↔
      DigitsSettled n digits beyond := by
  rcases pullHexdump_settled n digits beyond with
    ⟨refused, settled⟩ | ⟨stored, pulled, sized, stands, settled⟩
  · rw [refused]
    exact iff_of_true (takenWhole_none _ _ _) settled
  · rw [settled, pulled]
    constructor
    · intro taken
      obtain ⟨consumed, remaining, _, left, _⟩ := taken _ rfl
      have len := congrArg Blob.len left
      simp only [Blob.ofBytes] at len
      omega
    · rintro inside rest ⟨⟩
      have digest : (csum.store stored).digest = stored :=
        Checksum.digest_store _ (by rw [sized, typed]) (by omega)
      refine ⟨front ++ digits.take (2 * n), digits.drop (2 * n), by simp, ?_, ?_⟩
      · simp only [Blob.ofBytes, List.drop_append_of_le_length inside, List.length_drop,
          Nat.cast_sub inside, Nat.cast_mul, Nat.cast_ofNat]
      · rw [List.take_append_of_le_length inside] at stands
        exact encodes _ _ (by simp [inside]) (by rw [digest]; exact stands) typed

theorem Base64Encodes.padded {chars bytes : Bytes} (encodes : Base64Encodes chars bytes)
    (remainder : bytes.length % 3 = 2) :
    ∃ front, chars = front ++ [ascii '='] ∧ ∀ c ∈ front, c ∈ b64encodeTable := by
  induction encodes with
  | nil => simp at remainder
  | one _ _ _ => simp at remainder
  | @two f0 f1 f2 _ _ _ _ _ first second third _ =>
      refine ⟨[f0, f1, f2], rfl, ?_⟩
      simpa using ⟨List.mem_of_getElem? first, List.mem_of_getElem? second,
        List.mem_of_getElem? third⟩
  | @three f0 f1 f2 f3 _ _ _ _ _ _ _ chars bytes first second third fourth _ _ ih =>
      obtain ⟨front, rfl, inside⟩ := ih (by simp only [List.length_cons] at remainder; omega)
      refine ⟨f0 :: f1 :: f2 :: f3 :: front, rfl, ?_⟩
      simpa using ⟨List.mem_of_getElem? first, List.mem_of_getElem? second,
        List.mem_of_getElem? third, List.mem_of_getElem? fourth, inside⟩

theorem Checksum.digest_length (csum : Checksum) (sha1 : csum.type = checksumSha1) :
    csum.digest.length = 20 := by
  rw [Checksum.length_digest (by rw [sha1]; decide), sha1]
  rfl

private theorem takenWhole_base64 (body beyond : Bytes) {csum : Checksum}
    (sha1 : csum.type = checksumSha1) :
    TakenWhole (text "Q1" ++ body) beyond
        (csum.store (pullBase64 (some (.ofBytes body beyond)) csum.digest).1,
          (pullBase64 (some (.ofBytes body beyond)) csum.digest).2) ↔
      CharsSettled body := by
  have target := csum.digest_length sha1
  by_cases short : body.length < 28
  · have refused : (body.length : ℤ) < 28 := by omega
    simp only [pullBase64, target, Blob.ofBytes, Nat.reduceAdd, Nat.reduceDiv, Nat.reduceMul,
      Nat.cast_ofNat, refused, ↓reduceIte]
    exact iff_of_true (takenWhole_none _ _ _) fun long => absurd long (by omega)
  · have passes : ¬ (body.length : ℤ) < 28 := by omega
    have long : 28 ≤ body.length := by omega
    simp only [pullBase64, target, Blob.ofBytes, Nat.reduceAdd, Nat.reduceDiv, Nat.reduceMul,
      Nat.cast_ofNat, passes, ↓reduceIte]
    constructor
    · intro taken _
      obtain ⟨consumed, remaining, split, left, encodes⟩ := taken _ rfl
      cases encodes with
      | md5 _ _ md5 => exact absurd (sha1.symm.trans md5) (by decide)
      | sha1Hex _ _ _ =>
          have head : some (ascii 'Q') = some (ascii 'X') := congrArg List.head? split
          exact absurd head (by decide)
      | @sha1Base64 chars _ sized encodes typed =>
          have split : body = chars ++ remaining := by
            rw [List.append_assoc] at split
            exact List.append_cancel_left split
          obtain ⟨front, rfl, inside⟩ := encodes.padded (by
            rw [Checksum.digest_length _ typed])
          have count : front.length = 27 := by simpa using sized
          rw [split, List.append_assoc]
          refine ⟨by rw [List.take_left' count]; exact inside, ?_⟩
          rw [List.getElem?_append_right (by omega), count]
          rfl
    · intro settled
      obtain ⟨inside, padding⟩ := settled long
      have shape : body = body.take 27 ++ ascii '=' :: body.drop 28 := by
        obtain ⟨bound, last⟩ := List.getElem?_eq_some_iff.mp padding
        rw [← last, List.getElem_cons_drop, List.take_append_drop]
      obtain ⟨bytes, loop, sized, encodes⟩ :=
        pullBase64Loop_encodes (body.drop 28 ++ beyond) 6 (body.take 27) csum.digest
          (by simp; omega) (by rw [target]) inside
      have whole : body ++ beyond =
          body.take 27 ++ ascii '=' :: (body.drop 28 ++ beyond) := by
        conv_lhs => rw [shape]
        simp
      rintro rest ⟨⟩
      refine ⟨text "Q1" ++ (body.take 27 ++ [ascii '=']), body.drop 28, ?_, ?_, ?_⟩
      · conv_lhs => rw [shape]
        simp
      · simp only [Blob.ofBytes, List.drop_append_of_le_length long, List.length_drop,
          Nat.cast_sub long, Nat.cast_ofNat]
      · have digest : (csum.store bytes).digest = bytes :=
          Checksum.digest_store _ (by rw [sized, target, sha1]; rfl) (by omega)
        rw [whole, loop]
        exact .sha1Base64 (by simp; omega) (by rw [digest]; exact encodes) sha1

/-- **Malformed checksums are refused exactly** when the characters behind the mark of the
encoding are settled: a dump inside the text, and base64 characters that are all right. -/
theorem pullCsum_rejects_iff (t beyond : Bytes) (old : Checksum) :
    TakenWhole t beyond (pullCsum (some (.ofBytes t beyond)) old) ↔ CsumSettled t beyond := by
  match t with
  | [] => exact iff_of_true (takenWhole_none _ _ _) trivial
  | [_] => exact iff_of_true (takenWhole_none _ _ _) trivial
  | c0 :: c1 :: body =>
      have long : ¬ ((c0 :: c1 :: body).length : ℤ) < 2 := by
        simp only [List.length_cons]
        omega
      have shorter : ((c0 :: c1 :: body).length : ℤ) - 2 = body.length := by
        simp only [List.length_cons]
        omega
      simp only [pullCsum, Blob.ofBytes, long, ↓reduceIte, List.cons_append, CsumSettled, shorter]
      split_ifs with hex one letterX letterQ
      · exact takenWhole_hexdump [] (c0 :: c1 :: body) beyond rfl (show checksumMd5 ≤ 20 by decide)
          fun _ _ => .md5
      · exact iff_of_true (takenWhole_none _ _ _) trivial
      · obtain rfl : c1 = ascii '1' := not_not.mp one
        subst letterX
        exact takenWhole_hexdump (text "X1") body beyond rfl (show checksumSha1 ≤ 20 by decide)
          fun _ _ => .sha1Hex
      · obtain rfl : c1 = ascii '1' := not_not.mp one
        subst letterQ
        exact takenWhole_base64 body beyond rfl
      · exact iff_of_true (takenWhole_none _ _ _) trivial

/-- Twenty-eight characters that are not of the alphabet pass for a SHA1 digest. -/
theorem pullCsum_garbage :
    ¬ ∀ (t beyond : Bytes) (old : Checksum),
      TakenWhole t beyond (pullCsum (some (.ofBytes t beyond)) old) := by
  intro rejected
  have settled := (takenWhole_base64 (List.replicate 28 (ascii '!')) [] rfl).mp
    (rejected (text "Q1" ++ List.replicate 28 (ascii '!')) [] .zero)
  exact absurd (settled (by decide)).2 (by decide)

end AriannaLinux.Apk
