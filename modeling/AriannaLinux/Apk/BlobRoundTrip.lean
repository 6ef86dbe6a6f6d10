import AriannaLinux.Apk.BlobText

/-! # What is pushed can be pulled again

Each writer of `BlobText` followed by its reader gives the value back and leaves
exactly the text behind it. The number reader stops only at a byte that is not a
digit of the radix, so its law asks for one, or for the end of the blob.
-/

namespace AriannaLinux.Apk

/-! ## Numbers -/

theorem dx_xd {d : ℕ} (small : d < 16) : dx (xd d) = some d := by
  revert d
  decide

theorem xd_ne_zero {d : ℕ} (small : d < 16) : xd d ≠ 0 := by
  revert d
  decide

/-- The rest of a blob at which a number of the radix ends. -/
def NumberEnds (radix : ℕ) (rest : Bytes) (len : ℤ) : Prop :=
  len = 0 ∨ ∃ c mem, rest = c :: mem ∧ ∀ ch, dx c = some ch → radix ≤ ch

theorem pullUintLoop_stop {radix : ℕ} {rest : Bytes} {len : ℤ} (val : ℕ)
    (ends : NumberEnds radix rest len) : pullUintLoop radix rest len val = (val, ⟨rest, len⟩) := by
  rcases ends with rfl | ⟨c, mem, rfl, stops⟩
  · cases rest <;> simp [pullUintLoop]
  · rw [pullUintLoop]
    split
    · rfl
    · cases digit : dx c with
      | none => rfl
      | some ch => simp only [stops ch digit, ↓reduceIte]

theorem pullUintLoop_digits {radix : ℕ} (small : radix ≤ 16) (digits : List ℕ)
    (valid : ∀ d ∈ digits, d < radix) (rest : Bytes) (len : ℤ) (inside : digits.length ≤ len)
    (val : ℕ) :
    pullUintLoop radix (digits.map xd ++ rest) len val =
      pullUintLoop radix rest (len - digits.length)
        (digits.foldl (fun v d => (v * radix + d) % 2 ^ 32) val) := by
  induction digits generalizing len val with
  | nil => simp
  | cons d digits ih =>
      have digit : d < radix := valid d List.mem_cons_self
      have positive : len ≠ 0 := by
        simp only [List.length_cons, Nat.cast_add, Nat.cast_one] at inside
        omega
      have step := ih (fun e member => valid e (List.mem_cons_of_mem d member)) (len - 1)
        (by simp only [List.length_cons, Nat.cast_add, Nat.cast_one] at inside; omega)
        ((val * radix + d) % 2 ^ 32)
      simp only [List.map_cons, List.cons_append, pullUintLoop, positive,
        xd_ne_zero (digit.trans_le small), or_self, ↓reduceIte, dx_xd (digit.trans_le small),
        Nat.not_le.mpr digit, step, List.foldl_cons, List.length_cons, Nat.cast_add, Nat.cast_one]
      congr 1
      omega

theorem foldl_mod (radix m : ℕ) (digits : List ℕ) (val : ℕ) :
    digits.foldl (fun v d => (v * radix + d) % m) (val % m) =
      digits.foldl (fun v d => v * radix + d) val % m := by
  induction digits generalizing val with
  | nil => rfl
  | cons d digits ih =>
      simp only [List.foldl_cons]
      rw [← ih (val * radix + d)]
      congr 1
      rw [Nat.add_mod, Nat.mul_mod, Nat.mod_mod, ← Nat.mul_mod, ← Nat.add_mod]

theorem foldl_reverse_digits (radix : ℕ) (digits : List ℕ) :
    digits.reverse.foldl (fun v d => v * radix + d) 0 = Nat.ofDigits radix digits := by
  rw [List.foldl_reverse, Nat.ofDigits_eq_foldr]
  congr 1
  funext d v
  simp only [Nat.cast_id]
  ring

/-- The characters of a number are digits of its radix, most significant first. -/
theorem uintText_eq {value radix : ℕ} (base : 2 ≤ radix) :
    ∃ digits : List ℕ, uintText value radix = digits.map xd ∧ (∀ d ∈ digits, d < radix) ∧
      digits.foldl (fun v d => v * radix + d) 0 = value := by
  unfold uintText
  split
  · rename_i zero
    exact ⟨[0], by decide, by simp; omega, by simp [zero]⟩
  · refine ⟨(Nat.digits radix value).reverse, rfl, fun d member => ?_, ?_⟩
    · exact Nat.digits_lt_base base (List.mem_reverse.mp member)
    · rw [foldl_reverse_digits, Nat.ofDigits_digits]

/-- **A number is read back.** -/
theorem pullUint_uintText {value radix : ℕ} (base : 2 ≤ radix) (small : radix ≤ 16)
    (bounded : value < 2 ^ 32) {rest : Bytes} {len : ℤ} (ends : NumberEnds radix rest len)
    (nonnegative : 0 ≤ len) :
    pullUint (some ⟨uintText value radix ++ rest, (uintText value radix).length + len⟩) radix =
      (value, some ⟨rest, len⟩) := by
  obtain ⟨digits, shape, valid, total⟩ := @uintText_eq value radix base
  have modular := foldl_mod radix (2 ^ 32) digits 0
  simp only [Nat.zero_mod, total] at modular
  simp only [pullUint, shape, List.length_map]
  rw [pullUintLoop_digits small digits valid rest _ (by omega), modular,
    Nat.mod_eq_of_lt bounded, show (digits.length : ℤ) + len - digits.length = len by omega,
    pullUintLoop_stop value ends]

theorem pullChar_cons (c : UInt8) (mem : Bytes) {len : ℤ} (inside : 1 ≤ len) :
    pullChar (some ⟨c :: mem, len⟩) c = some ⟨mem, len - 1⟩ := by
  simp [pullChar, Int.not_lt.mpr inside]

/-! ## Hexadecimal dumps -/

private theorem dx_hexPair (c : UInt8) :
    dx (xd (c.toNat / 16)) = some (c.toNat / 16) ∧ dx (xd (c.toNat % 16)) = some (c.toNat % 16) :=
  ⟨dx_xd (by have := c.toNat_lt; omega), dx_xd (Nat.mod_lt _ (by decide))⟩

theorem pullHexdumpLoop_hexPair (binary rest : Bytes) :
    pullHexdumpLoop binary.length (binary.flatMap hexPair ++ rest) = (binary, some rest) := by
  induction binary with
  | nil => rfl
  | cons c binary ih =>
      have byte : c.toNat / 16 * 16 + c.toNat % 16 = c.toNat := Nat.div_add_mod' _ _
      simp only [List.flatMap_cons, hexPair, List.cons_append, List.nil_append,
        List.length_cons, pullHexdumpLoop, (dx_hexPair c).1, (dx_hexPair c).2]
      rw [ih]
      simp only [byte, UInt8.ofNat_toNat]

theorem length_flatMap_hexPair (binary : Bytes) :
    (binary.flatMap hexPair).length = 2 * binary.length := by
  induction binary with
  | nil => rfl
  | cons c binary ih =>
      simp only [List.flatMap_cons, List.length_append, ih, List.length_cons]
      simp [hexPair]
      omega

/-- **A hexadecimal dump is read back.** -/
theorem pullHexdump_hexdump (binary rest : Bytes) {len : ℤ} (nonnegative : 0 ≤ len) :
    pullHexdump (some ⟨binary.flatMap hexPair ++ rest, 2 * binary.length + len⟩) binary.length =
      (binary, some ⟨rest, len⟩) := by
  have enough : ¬ (2 * (binary.length : ℤ) + len) * 2 < binary.length := by omega
  simp only [pullHexdump, enough, ↓reduceIte, pullHexdumpLoop_hexPair]
  congr 3
  omega

/-! ## Base64 -/

set_option maxRecDepth 4000 in
theorem b64decode_encode {i : UInt8} (small : i.toNat < 64) :
    b64decode (b64encode i) = i := by
  have table : ∀ n < 64, b64decodeTable.getD (b64encodeTable.getD n 0).toNat 0xff =
      UInt8.ofNat n := by decide
  simpa [b64decode, b64encode] using table i.toNat small

theorem b64decode_padding : b64decode (ascii '=') = 0 := by decide

private theorem lt_of_mask {i : UInt8} (masked : i &&& 0x3f = i) : i.toNat < 64 := by
  have bound : (i &&& 0x3f).toNat ≤ 63 := by
    rw [UInt8.toNat_and]
    exact Nat.and_le_right
  rw [masked] at bound
  omega

/-! Bit identities behind one chunk: four sextets, three bytes. -/

private theorem sextet0_lt (a : UInt8) : (a >>> 2).toNat < 64 := by
  apply lt_of_mask
  apply UInt8.toBitVec_inj.mp
  ext i inside
  simp
  interval_cases i <;> simp

private theorem sextet1_lt (a b : UInt8) :
    (((a &&& 0x03) <<< 4) ||| ((b &&& 0xf0) >>> 4)).toNat < 64 := by
  apply lt_of_mask
  apply UInt8.toBitVec_inj.mp
  ext i inside
  simp
  interval_cases i <;> simp

private theorem sextet2_lt (b c : UInt8) :
    (((b &&& 0x0f) <<< 2) ||| ((c &&& 0xc0) >>> 6)).toNat < 64 := by
  apply lt_of_mask
  apply UInt8.toBitVec_inj.mp
  ext i inside
  simp
  interval_cases i <;> simp

private theorem sextet3_lt (c : UInt8) : (c &&& 0x3f).toNat < 64 := by
  apply lt_of_mask
  apply UInt8.toBitVec_inj.mp
  ext i inside
  simp

private theorem byte0_eq (a b : UInt8) :
    (a >>> 2) <<< 2 ||| (((a &&& 0x03) <<< 4) ||| ((b &&& 0xf0) >>> 4)) >>> 4 = a := by
  apply UInt8.toBitVec_inj.mp
  ext i inside
  simp
  interval_cases i <;> simp

private theorem byte1_eq (a b c : UInt8) :
    (((a &&& 0x03) <<< 4) ||| ((b &&& 0xf0) >>> 4)) <<< 4 |||
      (((b &&& 0x0f) <<< 2) ||| ((c &&& 0xc0) >>> 6)) >>> 2 = b := by
  apply UInt8.toBitVec_inj.mp
  ext i inside
  simp
  interval_cases i <;> simp

private theorem byte2_eq (b c : UInt8) :
    (((((b &&& 0x0f) <<< 2) ||| ((c &&& 0xc0) >>> 6)) <<< 6) &&& 0xc0) ||| (c &&& 0x3f) = c := by
  apply UInt8.toBitVec_inj.mp
  ext i inside
  simp
  interval_cases i <;> simp

theorem ne_invalid {i : UInt8} (small : i.toNat < 64) : i ≠ 0xff := by
  rintro rfl
  revert small
  decide

/-- A full chunk is decoded to its three bytes. -/
theorem pullB64Chunk_three (a b c : UInt8) :
    ∃ f0 f1 f2 f3, pushB64Chunk a b c 4 = [f0, f1, f2, f3] ∧
      pullB64Chunk f0 f1 f2 f3 4 = [a, b, c] := by
  refine ⟨_, _, _, _, rfl, ?_⟩
  simp only [Nat.reduceLT, ↓reduceIte, pullB64Chunk, b64decode_encode (sextet0_lt a),
    b64decode_encode (sextet1_lt a b), b64decode_encode (sextet2_lt b c),
    b64decode_encode (sextet3_lt c), ne_invalid (sextet0_lt a), ne_invalid (sextet1_lt a b),
    ne_invalid (sextet2_lt b c), ne_invalid (sextet3_lt c), or_self, byte0_eq, byte1_eq, byte2_eq]

/-- A chunk of two bytes is decoded to them, whatever follows in memory. -/
theorem pullB64Chunk_two (a b c : UInt8) :
    ∃ f0 f1 f2 f3, pushB64Chunk a b c 2 = [f0, f1, f2, f3] ∧
      pullB64Chunk f0 f1 f2 f3 2 = [a, b] := by
  refine ⟨_, _, _, _, rfl, ?_⟩
  have padding : (0 : UInt8) ≠ 0xff := by decide
  simp only [Nat.lt_irrefl, Nat.reduceLT, ↓reduceIte, pullB64Chunk,
    b64decode_encode (sextet0_lt a), b64decode_encode (sextet1_lt a b),
    b64decode_encode (sextet2_lt b c), b64decode_padding, ne_invalid (sextet0_lt a),
    ne_invalid (sextet1_lt a b), ne_invalid (sextet2_lt b c), padding, or_self, byte0_eq, byte1_eq]

/-- A chunk of one byte is decoded to it: the bits taken from the memory behind the byte are
dropped again. -/
theorem pullB64Chunk_one (a b c : UInt8) :
    ∃ f0 f1 f2 f3, pushB64Chunk a b c 1 = [f0, f1, f2, f3] ∧
      pullB64Chunk f0 f1 f2 f3 1 = [a] := by
  refine ⟨_, _, _, _, rfl, ?_⟩
  have padding : (0 : UInt8) ≠ 0xff := by decide
  simp only [Nat.lt_irrefl, Nat.reduceLT, ↓reduceIte, pullB64Chunk,
    b64decode_encode (sextet0_lt a), b64decode_encode (sextet1_lt a b), b64decode_padding,
    ne_invalid (sextet0_lt a), ne_invalid (sextet1_lt a b), padding, or_self, byte0_eq]

private theorem overlay_whole {stored target : Bytes} (same : stored.length = target.length) :
    overlay stored target = stored := by
  simp [overlay, same]

/-- The text of a byte string is decoded in place, chunk by chunk. -/
theorem pullBase64Loop_base64Text (beyond : Bytes) (rest : Bytes) :
    ∀ binary target : Bytes, binary.length = target.length →
      pullBase64Loop (base64Text beyond binary ++ rest) target = binary
  | [], [], _ => by
      rw [pullBase64Loop.eq_def]
      split <;> first | rfl | contradiction
  | [a], [t0], _ => by
      obtain ⟨f0, f1, f2, f3, written, read⟩ :=
        pullB64Chunk_one a (beyond.getD 0 0) (beyond.getD 1 0)
      simp only [base64Text, written, List.cons_append, List.nil_append, pullBase64Loop, read]
      exact overlay_whole rfl
  | [a, b], [t0, t1], _ => by
      obtain ⟨f0, f1, f2, f3, written, read⟩ := pullB64Chunk_two a b (beyond.getD 0 0)
      simp only [base64Text, written, List.cons_append, List.nil_append, pullBase64Loop, read]
      exact overlay_whole rfl
  | a :: b :: c :: binary, t0 :: t1 :: t2 :: target, sameLength => by
      obtain ⟨f0, f1, f2, f3, written, read⟩ := pullB64Chunk_three a b c
      have tail := pullBase64Loop_base64Text beyond rest binary target (by simpa using sameLength)
      simp only [base64Text, written, List.cons_append, List.nil_append, pullBase64Loop, read,
        tail, @overlay_whole [a, b, c] [t0, t1, t2] rfl]

theorem length_base64Text (beyond : Bytes) :
    ∀ binary : Bytes, (base64Text beyond binary).length = (binary.length + 2) / 3 * 4
  | [] => rfl
  | [_] => by simp [base64Text, pushB64Chunk]
  | [_, _] => by simp [base64Text, pushB64Chunk]
  | a :: b :: c :: binary => by
      simp only [base64Text, List.length_append, length_base64Text beyond binary, pushB64Chunk,
        List.length_cons, List.length_nil]
      omega

/-- **A base64 text is read back.** -/
theorem pullBase64_base64Text (binary beyond rest : Bytes) {target : Bytes}
    (sameLength : target.length = binary.length) {len : ℤ} (nonnegative : 0 ≤ len) :
    pullBase64 (some ⟨base64Text beyond binary ++ rest,
        (base64Text beyond binary).length + len⟩) target = (binary, some ⟨rest, len⟩) := by
  have needed : (target.length + 2) / 3 * 4 = (base64Text beyond binary).length := by
    rw [length_base64Text, sameLength]
  have enough : ¬ ((base64Text beyond binary).length : ℤ) + len <
      (base64Text beyond binary).length := by omega
  simp only [pullBase64, needed, enough, ↓reduceIte,
    pullBase64Loop_base64Text beyond rest binary target sameLength.symm, List.drop_left]
  congr 3
  omega

/-- The characters of base64 texts; hexadecimal digits are among them. -/
def b64Alphabet : Bytes := b64encodeTable ++ text "="

private theorem b64encode_mem {i : UInt8} (small : i.toNat < 64) : b64encode i ∈ b64Alphabet := by
  have inside : i.toNat < b64encodeTable.length := small
  rw [b64encode, List.getD_eq_getElem?_getD, List.getElem?_eq_getElem inside]
  exact List.mem_append_left _ (List.getElem_mem inside)

private theorem pushB64Chunk_mem {a b c : UInt8} {len : ℕ} :
    ∀ d ∈ pushB64Chunk a b c len, d ∈ b64Alphabet := by
  have padding : ascii '=' ∈ b64Alphabet := by decide
  unfold pushB64Chunk
  simp only [List.forall_mem_cons, List.not_mem_nil, false_implies, implies_true, and_true]
  refine ⟨b64encode_mem (sextet0_lt a), b64encode_mem (sextet1_lt a b), ?_, ?_⟩
  · split
    · exact padding
    · exact b64encode_mem (sextet2_lt b c)
  · split
    · exact padding
    · exact b64encode_mem (sextet3_lt c)

theorem base64Text_mem (beyond : Bytes) :
    ∀ binary : Bytes, ∀ d ∈ base64Text beyond binary, d ∈ b64Alphabet
  | [], d, member => by simp [base64Text] at member
  | [_], d, member => pushB64Chunk_mem d member
  | [_, _], d, member => pushB64Chunk_mem d member
  | a :: b :: c :: binary, d, member => by
      rw [base64Text, List.mem_append] at member
      rcases member with chunk | rest
      · exact pushB64Chunk_mem d chunk
      · exact base64Text_mem beyond binary d rest

private theorem hexPair_mem (a : UInt8) : ∀ d ∈ hexPair a, d ∈ b64Alphabet := by
  have digit : ∀ n < 16, xd n ∈ b64Alphabet := by decide
  have small := a.toNat_lt
  intro d member
  rw [hexPair, List.mem_pair] at member
  rcases member with rfl | rfl
  · exact digit _ (by omega)
  · exact digit _ (by omega)

/-! ## Checksums -/

/-- The text of a checksum, if it has one. -/
def csumText (csum : Checksum) : Option Bytes :=
  if csum.type = checksumMd5 then some (csum.digest.flatMap hexPair)
  else if csum.type = checksumSha1 then
    some (text "Q1" ++ base64Text [UInt8.ofNat csum.type] csum.digest)
  else none

/-- What the text of a checksum consists of. -/
theorem csumText_mem {csum : Checksum} {written : Bytes} (encoded : csumText csum = some written) :
    ∀ d ∈ written, d ∈ b64Alphabet := by
  intro d member
  unfold csumText at encoded
  split at encoded
  · cases encoded
    obtain ⟨a, _, inside⟩ := List.mem_flatMap.mp member
    exact hexPair_mem a d inside
  · split at encoded
    · cases encoded
      rcases List.mem_append.mp member with front | rest
      · exact (show ∀ d ∈ text "Q1", d ∈ b64Alphabet by decide +kernel) d front
      · exact base64Text_mem _ _ d rest
    · cases encoded

theorem pushCsum_eq (dst : PushBlob) (csum : Checksum) :
    pushCsum dst csum = (csumText csum).elim none (pushBlob dst) := by
  unfold pushCsum csumText
  split
  · rfl
  · split
    · simp only [Option.elim_some, pushBase64, pushBlob, BoundedBuffer.push_append]
    · rfl

/-- The same digest of the same type; the bytes behind a short digest do not count. -/
def Checksum.Same (first second : Checksum) : Prop :=
  first.type = second.type ∧ first.digest = second.digest

theorem Checksum.length_digest {csum : Checksum} (small : csum.type ≤ 20) :
    csum.digest.length = csum.type := by
  simp [Checksum.digest, csum.sized, small]

private theorem pullCsum_md5 {csum : Checksum} (md5 : csum.type = checksumMd5) (old : Checksum)
    (rest : Bytes) {len : ℤ} (nonnegative : 0 ≤ len) :
    ∃ read, pullCsum (some ⟨csum.digest.flatMap hexPair ++ rest, 32 + len⟩) old =
      (read, some ⟨rest, len⟩) ∧ read.Same csum := by
  have sized : csum.digest.length = 16 := by
    rw [Checksum.length_digest (by rw [md5]; decide), md5]; rfl
  obtain ⟨c, digest, shape⟩ := List.exists_cons_of_length_pos (l := csum.digest) (by omega)
  have whole := pullHexdump_hexdump csum.digest rest nonnegative
  rw [sized, show (2 : ℤ) * (16 : ℕ) + len = 32 + len by norm_num] at whole
  have first : csum.digest.flatMap hexPair ++ rest = xd (c.toNat / 16) ::
      xd (c.toNat % 16) :: (digest.flatMap hexPair ++ rest) := by
    simp [shape, hexPair]
  rw [first] at whole ⊢
  have long : ¬ 32 + len < 2 := by omega
  refine ⟨(old.setType checksumMd5).store csum.digest, ?_, ?_⟩
  · simp only [pullCsum, long, ↓reduceIte, (dx_hexPair c).1, ne_eq, reduceCtorEq,
      not_false_eq_true, Checksum.setType_type]
    rw [show checksumMd5 = 16 from rfl, whole]
  · exact ⟨md5.symm, Checksum.digest_store _ (by rw [sized]; rfl) (by omega)⟩

private theorem pullCsum_sha1 {csum : Checksum} (sha1 : csum.type = checksumSha1) (old : Checksum)
    (beyond rest : Bytes) {len : ℤ} (nonnegative : 0 ≤ len) :
    ∃ read, pullCsum (some ⟨text "Q1" ++ base64Text beyond csum.digest ++ rest, 30 + len⟩) old =
      (read, some ⟨rest, len⟩) ∧ read.Same csum := by
  have sized : csum.digest.length = 20 := by
    rw [Checksum.length_digest (by rw [sha1]; decide), sha1]; rfl
  have target : (old.setType checksumSha1).digest.length = 20 :=
    @Checksum.length_digest (old.setType checksumSha1) (Nat.le_refl 20)
  have encoded : (base64Text beyond csum.digest).length = 28 := by
    rw [length_base64Text, sized]
  have decoded := pullBase64_base64Text csum.digest beyond rest (target.trans sized.symm)
    nonnegative
  rw [encoded, show ((28 : ℕ) : ℤ) + len = 30 + len - 2 by omega] at decoded
  have long : ¬ 30 + len < 2 := by omega
  refine ⟨(old.setType checksumSha1).store csum.digest, ?_, ?_⟩
  · have letters : text "Q1" = [ascii 'Q', ascii '1'] := by decide
    have notHex : dx (ascii 'Q') = none := by decide
    have notX : ascii 'Q' ≠ ascii 'X' := by decide
    simp only [letters, List.cons_append, List.nil_append, pullCsum, long, ↓reduceIte, notHex,
      ne_eq, not_true_eq_false, notX, decoded]
  · exact ⟨sha1.symm, Checksum.digest_store _ (by rw [sized]; rfl) (by omega)⟩

/-- **A checksum is read back.** -/
theorem pullCsum_csumText {csum : Checksum} {written : Bytes}
    (encoded : csumText csum = some written) (old : Checksum) (rest : Bytes) {len : ℤ}
    (nonnegative : 0 ≤ len) :
    ∃ read, pullCsum (some ⟨written ++ rest, written.length + len⟩) old =
      (read, some ⟨rest, len⟩) ∧ read.Same csum := by
  unfold csumText at encoded
  split at encoded
  · rename_i md5
    cases encoded
    have sized : (csum.digest.flatMap hexPair).length = 32 := by
      rw [length_flatMap_hexPair, Checksum.length_digest (by rw [md5]; decide), md5]; rfl
    rw [sized]
    exact pullCsum_md5 md5 old rest nonnegative
  · split at encoded
    · rename_i sha1
      cases encoded
      have sized : (text "Q1" ++ base64Text [UInt8.ofNat csum.type] csum.digest).length = 30 := by
        rw [List.length_append, length_base64Text,
          Checksum.length_digest (by rw [sha1]; decide), sha1]
        decide
      rw [sized]
      exact pullCsum_sha1 sha1 old _ rest nonnegative
    · cases encoded

/-- Only the checksums of one of the two types have a text, of this length. -/
theorem csumText_of_digest {csum : Checksum}
    (known : csum.type = checksumMd5 ∨ csum.type = checksumSha1) :
    ∃ written, csumText csum = some written ∧ written.length ≤ 32 := by
  rcases known with md5 | sha1
  · refine ⟨_, by rw [csumText, if_pos md5], ?_⟩
    rw [length_flatMap_hexPair, Checksum.length_digest (by rw [md5]; decide), md5]
    decide
  · have notMd5 : csum.type ≠ checksumMd5 := by rw [sha1]; decide
    refine ⟨_, by rw [csumText, if_neg notMd5, if_pos sha1], ?_⟩
    rw [List.length_append, length_base64Text, Checksum.length_digest (by rw [sha1]; decide),
      sha1]
    decide

end AriannaLinux.Apk
