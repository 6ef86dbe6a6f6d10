import AriannaLinux.Apk.IndexRead

/-! # The checksum field of an index

A field that is no checksum leaves what was there before, in whole or in part. What a
well-formed one stands for does not depend on it.
-/

namespace AriannaLinux.Apk

/-! ## What reading leaves -/

/-- Whether a checksum can be read does not depend on what was there before. -/
theorem pullCsum_rest (value : Bytes) (csum : Checksum) :
    (pullCsum (fieldBlob value) csum).2 = (pullCsum (fieldBlob value) .zero).2 := by
  have base64 : ∀ (b : Option Blob) (t t' : Bytes), t.length = t'.length →
      (pullBase64 b t).2 = (pullBase64 b t').2 := by
    intro b t t' same
    cases b with
    | none => rfl
    | some b =>
        simp only [pullBase64, same]
        split <;> rfl
  simp only [fieldBlob, pullCsum]
  split
  · rfl
  · split
    · split
      · rfl
      · split
        · rfl
        · split
          · rfl
          · split
            · apply base64
              simp [Checksum.digest, Checksum.sized, checksumSha1]
            · rfl
    · rfl

/-- `csum_hash` of a digest. -/
def Database.digestHash (digest : Bytes) : UInt64 :=
  ((digest ++ List.replicate 8 0).take 8).foldr
    (fun (c : UInt8) (hash : UInt64) => hash * 256 + UInt64.ofNat c.toNat) 0

/-- The checksums that reading leaves: of a known type, and zero without one. -/
def Checksum.Sound (csum : Checksum) : Prop :=
  csum.type = checksumNone ∧ csum.data = List.replicate 20 0 ∨ csum.type = checksumMd5 ∨
    csum.type = checksumSha1

theorem Checksum.Sound.csumHash_eq {csum : Checksum} (sound : csum.Sound) :
    Database.csumHash csum = Database.digestHash csum.digest := by
  unfold Database.csumHash Database.digestHash Checksum.digest
  have sized := csum.sized
  rcases sound with ⟨type, data⟩ | type | type
  · rw [type, data]
    rfl
  · rw [type, List.take_append_of_le_length (by simp [sized, checksumMd5]), List.take_take]
    rfl
  · rw [type, List.take_append_of_le_length (by simp [sized, checksumSha1]), List.take_take]
    rfl

theorem Checksum.Sound.pullCsum {csum : Checksum} (sound : csum.Sound) (b : Option Blob) :
    (pullCsum b csum).1.Sound := by
  unfold Apk.pullCsum
  split
  · exact sound
  · split
    · exact sound
    · split
      · split
        · exact .inr (.inl rfl)
        · split
          · exact sound
          · split
            · exact .inr (.inr rfl)
            · split
              · exact .inr (.inr rfl)
              · exact .inr (.inr rfl)
      · exact sound

/-! ## Well-formed checksums -/

/-- A text of a checksum: an MD5 digest in hexadecimal, or a SHA1 digest in hexadecimal
behind `X1` or in base64 behind `Q1`. -/
inductive WellFormedCsum : Bytes → Prop
  | md5 (digits : Bytes) (length : digits.length = 32) (digital : ∀ c ∈ digits, dx c ≠ none) :
      WellFormedCsum digits
  | hex (digits : Bytes) (length : digits.length = 40) (digital : ∀ c ∈ digits, dx c ≠ none) :
      WellFormedCsum (text "X1" ++ digits)
  | base64 (digits : Bytes) (length : digits.length = 27)
      (digital : ∀ c ∈ digits, c ≠ ascii '=' ∧ b64decode c ≠ 0xff) :
      WellFormedCsum (text "Q1" ++ digits ++ text "=")

/-- The digest that a text of a checksum stands for. -/
def csumOf (value : Bytes) : Bytes := (pullCsum (fieldBlob value) .zero).1.digest

theorem pullHexdumpLoop_digital {n : ℕ} : ∀ {digits : Bytes} (_ : digits.length = 2 * n)
    (_ : ∀ c ∈ digits, dx c ≠ none) (rest : Bytes),
    ∃ stored, pullHexdumpLoop n (digits ++ rest) = (stored, some rest) ∧ stored.length = n := by
  induction n with
  | zero =>
      intro digits length _ rest
      have empty : digits = [] := List.length_eq_zero_iff.mp length
      exact ⟨[], by rw [empty]; rfl, rfl⟩
  | succ n ih =>
      intro digits length digital rest
      rcases digits with _ | ⟨s0, _ | ⟨s1, digits⟩⟩
      · simp at length
      · simp only [List.length_cons, List.length_nil] at length
        omega
      · obtain ⟨r0, first⟩ := Option.ne_none_iff_exists'.mp (digital s0 (by simp))
        obtain ⟨r1, second⟩ := Option.ne_none_iff_exists'.mp (digital s1 (by simp))
        have shorter : digits.length = 2 * n := by
          simp only [List.length_cons] at length
          omega
        obtain ⟨stored, read, sized⟩ :=
          ih shorter (fun c member => digital c (by simp [member])) rest
        refine ⟨UInt8.ofNat (r0 * 16 + r1) :: stored, ?_, by simp [sized]⟩
        simp only [List.cons_append, pullHexdumpLoop, first, second, read]

theorem pullHexdump_digest {digits : Bytes} (n : ℕ) (len : ℤ) (length : digits.length = 2 * n)
    (digital : ∀ c ∈ digits, dx c ≠ none) (enough : (n : ℤ) ≤ len * 2) (rest : Bytes)
    (small : n ≤ 20) :
    ∃ digest, ∀ csum : Checksum, csum.type = n →
      (csum.store (pullHexdump (some ⟨digits ++ rest, len⟩) n).1).digest = digest := by
  obtain ⟨stored, read, sized⟩ := pullHexdumpLoop_digital length digital rest
  refine ⟨stored, ?_⟩
  intro csum type
  simp only [pullHexdump, if_neg (Int.not_lt.mpr enough), read]
  exact csum.digest_store (by rw [sized, type]) (by rw [sized]; exact small)

theorem overlay_eq {stored target : Bytes} (whole : stored.length = target.length) :
    overlay stored target = stored := by
  rw [overlay, List.drop_eq_nil_of_le whole.ge, List.append_nil]

theorem length_pullB64Chunk {f0 f1 f2 f3 : UInt8} (h0 : b64decode f0 ≠ 0xff)
    (h1 : b64decode f1 ≠ 0xff) (h2 : b64decode f2 ≠ 0xff) (h3 : b64decode f3 ≠ 0xff) :
    (pullB64Chunk f0 f1 f2 f3 4).length = 3 ∧ (pullB64Chunk f0 f1 f2 f3 2).length = 2 ∧
      (pullB64Chunk f0 f1 f2 f3 1).length = 1 := by
  simp [pullB64Chunk, h0, h1, h2, h3]

theorem length_overlay {stored target : Bytes} (inside : stored.length ≤ target.length) :
    (overlay stored target).length = target.length := by
  simp [overlay]
  omega

theorem length_pullBase64Loop (mem t : Bytes) : (pullBase64Loop mem t).length = t.length := by
  have chunk : ∀ (f0 f1 f2 f3 : UInt8), (pullB64Chunk f0 f1 f2 f3 4).length ≤ 3 ∧
      (pullB64Chunk f0 f1 f2 f3 2).length ≤ 2 ∧ (pullB64Chunk f0 f1 f2 f3 1).length ≤ 1 := by
    intro f0 f1 f2 f3
    simp only [pullB64Chunk]
    split <;> simp
  fun_induction pullBase64Loop mem t with
  | case1 f0 f1 f2 f3 mem t0 t1 t2 target ih =>
      rw [List.length_append, length_overlay (chunk f0 f1 f2 f3).1, ih]
      simp
      omega
  | case2 f0 f1 f2 f3 mem t0 t1 => exact length_overlay (chunk f0 f1 f2 f3).2.1
  | case3 f0 f1 f2 f3 mem t0 => exact length_overlay (chunk f0 f1 f2 f3).2.2
  | case4 => rfl

/-- What is read from base64 digits does not depend on what was there before. -/
theorem pullBase64Loop_congr {mem t t' : Bytes} (same : t.length = t'.length)
    (long : (t.length + 2) / 3 * 4 ≤ mem.length)
    (digital : ∀ c ∈ mem.take ((t.length + 2) / 3 * 4), b64decode c ≠ 0xff) :
    pullBase64Loop mem t = pullBase64Loop mem t' := by
  fun_induction pullBase64Loop mem t generalizing t' with
  | case1 f0 f1 f2 f3 mem t0 t1 t2 target ih =>
      have chunks : ((t0 :: t1 :: t2 :: target).length + 2) / 3 * 4 =
          (target.length + 2) / 3 * 4 + 4 := by
        simp only [List.length_cons]
        omega
      rw [chunks] at long digital
      simp only [List.take_succ_cons, List.mem_cons, forall_eq_or_imp] at digital
      obtain ⟨h0, h1, h2, h3, digital⟩ := digital
      obtain ⟨three, -, -⟩ := length_pullB64Chunk h0 h1 h2 h3
      rcases t' with _ | ⟨u0, _ | ⟨u1, _ | ⟨u2, target'⟩⟩⟩ <;> simp at same
      simp only [pullBase64Loop]
      rw [@overlay_eq _ [t0, t1, t2] three, @overlay_eq _ [u0, u1, u2] three,
        ih same (by simp only [List.length_cons] at long; omega) digital]
  | case2 f0 f1 f2 f3 mem t0 t1 =>
      simp only [List.length_cons, List.length_nil, Nat.zero_add, Nat.reduceAdd, Nat.reduceDiv,
        Nat.reduceMul, List.take_succ_cons, List.mem_cons, forall_eq_or_imp] at digital
      obtain ⟨h0, h1, h2, h3, -⟩ := digital
      obtain ⟨-, two, -⟩ := length_pullB64Chunk h0 h1 h2 h3
      rcases t' with _ | ⟨u0, _ | ⟨u1, _ | ⟨u2, target'⟩⟩⟩ <;> simp at same
      rw [pullBase64Loop, @overlay_eq _ [t0, t1] two, @overlay_eq _ [u0, u1] two]
  | case3 f0 f1 f2 f3 mem t0 =>
      simp only [List.length_cons, List.length_nil, Nat.zero_add, Nat.reduceAdd, Nat.reduceDiv,
        Nat.reduceMul, List.take_succ_cons, List.mem_cons, forall_eq_or_imp] at digital
      obtain ⟨h0, h1, h2, h3, -⟩ := digital
      obtain ⟨-, -, one⟩ := length_pullB64Chunk h0 h1 h2 h3
      rcases t' with _ | ⟨u0, _ | ⟨u1, target'⟩⟩ <;> simp at same
      rw [pullBase64Loop, @overlay_eq _ [t0] one, @overlay_eq _ [u0] one]
  | case4 mem target h1 h2 h3 =>
      cases target with
      | nil =>
          rw [List.eq_nil_of_length_eq_zero same.symm]
          simp [pullBase64Loop]
      | cons t0 target =>
          -- there are bytes to be stored, so a chunk is left
          have chunk : 4 ≤ mem.length := by
            simp only [List.length_cons] at long
            omega
          obtain ⟨f0, f1, f2, f3, mem, rfl⟩ : ∃ f0 f1 f2 f3 rest,
              mem = f0 :: f1 :: f2 :: f3 :: rest := by
            rcases mem with _ | ⟨f0, _ | ⟨f1, _ | ⟨f2, _ | ⟨f3, rest⟩⟩⟩⟩ <;> simp at chunk
            exact ⟨f0, f1, f2, f3, rest, rfl⟩
          rcases target with _ | ⟨t1, _ | ⟨t2, target⟩⟩
          · exact absurd rfl (h3 _ _ _ _ _ _ rfl)
          · exact absurd rfl (h2 _ _ _ _ _ _ _ rfl)
          · exact absurd rfl (h1 _ _ _ _ _ _ _ _ _ rfl)

/-- **A well-formed checksum** is read as one digest, whatever was there before. -/
theorem WellFormedCsum.digest {value : Bytes} (formed : WellFormedCsum value) (csum : Checksum) :
    (pullCsum (fieldBlob value) csum).1.digest = csumOf value := by
  unfold csumOf
  cases formed with
  | md5 digits length digital =>
      obtain ⟨d0, d1, digits, rfl⟩ : ∃ d0 d1 rest, value = d0 :: d1 :: rest := by
        rcases value with _ | ⟨d0, _ | ⟨d1, rest⟩⟩ <;> simp at length
        exact ⟨d0, d1, rest, rfl⟩
      have first : dx d0 ≠ none := digital d0 (by simp)
      obtain ⟨digest, reads⟩ := pullHexdump_digest 16 32 length digital
        (by decide) [newline] (by decide)
      have blob : fieldBlob (d0 :: d1 :: digits) =
          some ⟨d0 :: d1 :: digits ++ [newline], 32⟩ := by
        simp only [fieldBlob, Blob.ofBytes, length]
        rfl
      have whole : ∀ csum, (pullCsum (fieldBlob (d0 :: d1 :: digits)) csum).1.digest = digest := by
        intro csum
        rw [blob]
        simp only [pullCsum, List.cons_append, first, ne_eq, not_false_eq_true, ↓reduceIte]
        exact reads (csum.setType checksumMd5) rfl
      rw [whole, whole]
  | hex digits length digital =>
      obtain ⟨digest, reads⟩ := pullHexdump_digest 20 40 length digital
        (by decide) [newline] (by decide)
      have blob : fieldBlob (text "X1" ++ digits) =
          some ⟨ascii 'X' :: ascii '1' :: (digits ++ [newline]), 42⟩ := by
        simp only [fieldBlob, Blob.ofBytes, List.length_append, length]
        rfl
      have whole : ∀ csum, (pullCsum (fieldBlob (text "X1" ++ digits)) csum).1.digest = digest := by
        intro csum
        rw [blob]
        exact reads (csum.setType checksumSha1) rfl
      rw [whole, whole]
  | base64 digits length digital =>
      have blob : fieldBlob (text "Q1" ++ digits ++ text "=") =
          some ⟨ascii 'Q' :: ascii '1' :: (digits ++ ascii '=' :: [newline]), 30⟩ := by
        simp only [fieldBlob, Blob.ofBytes, List.length_append, length, List.append_assoc]
        rfl
      have target : ∀ csum : Checksum, (csum.setType checksumSha1).digest.length = 20 := by
        intro csum
        simp [Checksum.digest, csum.sized, checksumSha1]
      have alphabet : ∀ c ∈ (digits ++ ascii '=' :: [newline]).take 28, b64decode c ≠ 0xff := by
        intro c member
        rw [List.take_append, length] at member
        rcases List.mem_append.mp member with inside | last
        · exact (digital c (List.mem_of_mem_take inside)).2
        · simp at last
          rw [last]
          decide
      have whole : ∀ csum, (pullCsum (fieldBlob (text "Q1" ++ digits ++ text "=")) csum).1.digest =
          pullBase64Loop (digits ++ ascii '=' :: [newline]) (List.replicate 20 0) := by
        intro csum
        have same : pullBase64Loop (digits ++ ascii '=' :: [newline])
            (csum.setType checksumSha1).digest =
            pullBase64Loop (digits ++ ascii '=' :: [newline]) (List.replicate 20 0) := by
          apply pullBase64Loop_congr
          · rw [target]
            rfl
          · rw [target]
            simp [length]
          · rw [target]
            exact alphabet
        have stored : (pullCsum (fieldBlob (text "Q1" ++ digits ++ text "=")) csum).1 =
            (csum.setType checksumSha1).store
              (pullBase64Loop (digits ++ ascii '=' :: [newline])
                (csum.setType checksumSha1).digest) := by
          have firstFails : dx (ascii 'Q') = none := by decide
          have noHex : ascii 'Q' ≠ ascii 'X' := by decide
          rw [blob]
          simp only [pullCsum, firstFails, noHex, pullBase64, target]
          rfl
        rw [stored, same]
        apply Checksum.digest_store
        · rw [length_pullBase64Loop]
          rfl
        · rw [length_pullBase64Loop]
          decide
      rw [whole, whole]

end AriannaLinux.Apk
