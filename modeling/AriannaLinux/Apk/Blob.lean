import Mathlib.Data.List.TakeWhile
import Mathlib.Data.Nat.Digits.Defs
import Mathlib.Data.Nat.Digits.Lemmas
import Mathlib.Tactic.IntervalCases
import AriannaLinux.Lib.BoundedBuffer

/-! # Blobs, checksums and their text encodings

The functions of `blob.c`. A blob that is only looked at is the list of its
bytes, `none` when its pointer is NULL. A blob that is being filled is a bounded
buffer. A blob that is being consumed keeps the memory from its pointer on next
to its length, because the decoders below may read past the length.
-/

namespace AriannaLinux.Apk

/-- Raw bytes. -/
abbrev Bytes := List UInt8

/-- The byte of an ASCII character. -/
def ascii (c : Char) : UInt8 := UInt8.ofNat c.toNat

/-- The bytes of an ASCII string literal. -/
def text (s : String) : Bytes := s.toList.map ascii

/-- `'\n'`. -/
def newline : UInt8 := 10

/-- `strlen` of a C string stored at a pointer: the bytes before the first NUL. -/
def cString (bytes : Bytes) : Bytes := bytes.takeWhile (· ≠ 0)

/-- `apk_blob_cstr`: the C string made of a blob. -/
def blobCstr (blob : Bytes) : Bytes := cString blob

theorem cString_eq_self {bytes : Bytes} (free : (0 : UInt8) ∉ bytes) : cString bytes = bytes := by
  refine List.takeWhile_eq_self_iff.mpr fun byte member => ?_
  simp only [ne_eq, decide_not, Bool.not_eq_eq_eq_not, Bool.not_true, decide_eq_false_iff_not]
  rintro rfl
  exact free member

/-! ## Checksums -/

/-- `APK_CHECKSUM_NONE`. -/
def checksumNone : ℕ := 0
/-- `APK_CHECKSUM_MD5`. -/
def checksumMd5 : ℕ := 16
/-- `APK_CHECKSUM_SHA1`. -/
def checksumSha1 : ℕ := 20

/-- `struct apk_checksum`: twenty digest bytes, of which the first `type` count. -/
structure Checksum where
  data : Bytes
  type : ℕ
  sized : data.length = 20
  deriving DecidableEq

namespace Checksum

/-- A zeroed checksum. -/
def zero : Checksum := ⟨List.replicate 20 0, checksumNone, by simp⟩

instance : Inhabited Checksum := ⟨zero⟩

/-- The SHA1 checksum with one byte throughout. -/
def sha1Of (byte : UInt8) : Checksum := ⟨List.replicate 20 byte, checksumSha1, by simp⟩

/-- `APK_BLOB_CSUM`: the digest as a blob. -/
def digest (csum : Checksum) : Bytes := csum.data.take csum.type

/-- Overwrite the first bytes of the digest, as `memcpy` does. -/
def store (csum : Checksum) (bytes : Bytes) : Checksum where
  data := (bytes ++ csum.data.drop bytes.length).take 20
  type := csum.type
  sized := by simp [csum.sized]; omega

/-- `csum->type = type`. -/
def setType (csum : Checksum) (type : ℕ) : Checksum := { csum with type }

@[simp] theorem store_type (csum : Checksum) (bytes : Bytes) :
    (csum.store bytes).type = csum.type := rfl

@[simp] theorem setType_type (csum : Checksum) (type : ℕ) : (csum.setType type).type = type := rfl

@[simp] theorem setType_data (csum : Checksum) (type : ℕ) :
    (csum.setType type).data = csum.data := rfl

/-- The bytes stored first are the digest read back. -/
theorem digest_store (csum : Checksum) {bytes : Bytes} (whole : bytes.length = csum.type)
    (small : bytes.length ≤ 20) : (csum.store bytes).digest = bytes := by
  simp only [digest, store, List.take_take, ← whole, Nat.min_eq_left small]
  exact List.take_left' rfl

end Checksum

/-! ## Comparison and hashing -/

/-- `memcmp` on blobs of one length: the sign of the first difference. -/
def memcmp : Bytes → Bytes → ℤ
  | a :: as, b :: bs =>
      if a.toNat < b.toNat then -1 else if b.toNat < a.toNat then 1 else memcmp as bs
  | _, _ => 0

/-- `apk_blob_compare`. -/
def blobCompare (a b : Bytes) : ℤ :=
  if a.length = b.length then memcmp a b else if a.length < b.length then -1 else 1

theorem memcmp_eq_zero {a b : Bytes} (sameLength : a.length = b.length) :
    memcmp a b = 0 ↔ a = b := by
  induction a generalizing b with
  | nil => cases b <;> simp_all [memcmp]
  | cons x xs ih =>
      cases b with
      | nil => simp at sameLength
      | cons y ys =>
          have tail := ih (b := ys) (by simpa using sameLength)
          simp only [memcmp, List.cons.injEq]
          by_cases less : x.toNat < y.toNat
          · have different : x ≠ y := by rintro rfl; omega
            simp [less, different]
          · by_cases greater : y.toNat < x.toNat
            · have different : x ≠ y := by rintro rfl; omega
              simp [less, greater, different]
            · have same : x = y := UInt8.toNat_inj.mp (by omega)
              simp [same, tail]

@[simp] theorem blobCompare_eq_zero (a b : Bytes) : blobCompare a b = 0 ↔ a = b := by
  unfold blobCompare
  by_cases sameLength : a.length = b.length
  · simp only [sameLength, ↓reduceIte, memcmp_eq_zero sameLength]
  · have different : a ≠ b := fun same => sameLength (congrArg _ same)
    simp only [sameLength, ↓reduceIte, different, iff_false]
    split <;> decide

/-- A `char` promoted to `unsigned long`: plain `char` is signed. -/
def signExtend (c : UInt8) : UInt64 :=
  if c.toNat < 128 then UInt64.ofNat c.toNat else UInt64.ofNat (2 ^ 64 - 256 + c.toNat)

/-- `apk_blob_hash_seed`. -/
def blobHashSeed (blob : Bytes) (seed : UInt64) : UInt64 :=
  blob.foldl (fun hash c => hash * 33 + signExtend c) seed

/-- `apk_blob_hash`. -/
def blobHash (blob : Bytes) : UInt64 := blobHashSeed blob 5381

/-! ## Splitting -/

/-- `strchr (set, c) != NULL`; the terminating NUL belongs to every set. -/
def inSet (set : Bytes) (c : UInt8) : Bool := set.contains c || c == 0

/-- `apk_blob_spn`. -/
def blobSpn (blob accept : Bytes) : Option (Bytes × Bytes) :=
  if blob.all (inSet accept) then none
  else some (blob.takeWhile (inSet accept), blob.dropWhile (inSet accept))

/-- `apk_blob_cspn`. -/
def blobCspn (blob reject : Bytes) : Option (Bytes × Bytes) :=
  if blob.all fun c => !inSet reject c then none
  else some (blob.takeWhile fun c => !inSet reject c, blob.dropWhile fun c => !inSet reject c)

/-- `apk_blob_rsplit`: split at the last occurrence of a byte. -/
def blobRsplit (split : UInt8) : Bytes → Option (Bytes × Bytes)
  | [] => none
  | c :: rest =>
      match blobRsplit split rest with
      | some (l, r) => some (c :: l, r)
      | none => if c = split then some ([], rest) else none

/-- `apk_blob_split`: split at the first occurrence of a separator. -/
def blobSplit (split : Bytes) : Bytes → Option (Bytes × Bytes)
  | [] => if split = [] then some ([], []) else none
  | c :: rest =>
      if split.isPrefixOf (c :: rest) then some ([], (c :: rest).drop split.length)
      else (blobSplit split rest).map fun (l, r) => (c :: l, r)

/-- The loop of `apk_blob_for_each_segment`; each round consumes a separator, so
the length of the blob bounds the rounds. -/
def forEachSegmentLoop {σ : Type*} (split : Bytes) (cb : σ → Bytes → ℤ × σ) :
    ℕ → Bytes → σ → ℤ × σ
  | 0, r, ctx => if 0 < r.length then cb ctx r else (0, ctx)
  | fuel + 1, r, ctx =>
      match blobSplit split r with
      | some (l, r) =>
          let (rc, ctx) := cb ctx l
          if rc ≠ 0 then (rc, ctx) else forEachSegmentLoop split cb fuel r ctx
      | none => if 0 < r.length then cb ctx r else (0, ctx)

/-- `apk_blob_for_each_segment`. -/
def forEachSegment {σ : Type*} (blob split : Bytes) (cb : σ → Bytes → ℤ × σ) (ctx : σ) :
    ℤ × σ :=
  forEachSegmentLoop split cb blob.length blob ctx

/-- What the callback keeps, the iteration over the segments keeps. -/
theorem forEachSegment_keeps {σ : Type*} {blob split : Bytes} {cb : σ → Bytes → ℤ × σ}
    {P : σ → Prop} (keeps : ∀ ctx segment, P ctx → P (cb ctx segment).2) {ctx : σ} (holds : P ctx) :
    P (forEachSegment blob split cb ctx).2 := by
  have loop : ∀ fuel r ctx, P ctx → P (forEachSegmentLoop split cb fuel r ctx).2 := by
    intro fuel
    induction fuel with
    | zero =>
        intro r ctx holds
        rw [forEachSegmentLoop]
        split
        · exact keeps _ _ holds
        · exact holds
    | succ fuel ih =>
        intro r ctx holds
        rw [forEachSegmentLoop]
        split
        · dsimp only
          split
          · exact keeps _ _ holds
          · exact ih _ _ (keeps _ _ holds)
        · split
          · exact keeps _ _ holds
          · exact holds
  exact loop _ _ _ holds

private theorem span_eq_some {p : UInt8 → Bool} {blob l r : Bytes} :
    (if blob.all p then none else some (blob.takeWhile p, blob.dropWhile p)) = some (l, r) ↔
      blob = l ++ r ∧ (∀ c ∈ l, p c = true) ∧ ∃ c rest, r = c :: rest ∧ p c = false := by
  constructor
  · intro split_at
    split at split_at
    · cases split_at
    · rename_i found
      cases split_at
      refine ⟨List.takeWhile_append_dropWhile.symm, fun c member => List.mem_takeWhile_imp member,
        ?_⟩
      cases left : blob.dropWhile p with
      | nil => exact absurd (List.all_eq_true.mpr (List.dropWhile_eq_nil_iff.mp left)) found
      | cons c rest =>
          refine ⟨c, rest, rfl, ?_⟩
          have stops := List.head_dropWhile_not p (l := blob) (by simp [left])
          simpa [left] using stops
  · rintro ⟨rfl, inside, c, rest, rfl, stops⟩
    have found : ¬ (l ++ c :: rest).all p = true := by simp [stops]
    rw [if_neg found, List.takeWhile_append_of_pos inside, List.dropWhile_append_of_pos inside,
      List.takeWhile_cons_of_neg (by simp [stops]), List.dropWhile_cons_of_neg (by simp [stops]),
      List.append_nil]

/-- What `apk_blob_spn` splits off is the longest front of accepted characters. -/
theorem blobSpn_eq_some {blob accept l r : Bytes} :
    blobSpn blob accept = some (l, r) ↔
      blob = l ++ r ∧ (∀ c ∈ l, inSet accept c = true) ∧
        ∃ c rest, r = c :: rest ∧ inSet accept c = false :=
  span_eq_some

/-- `apk_blob_cspn` splits at the first rejected character. -/
theorem blobCspn_eq_some {blob reject l r : Bytes} :
    blobCspn blob reject = some (l, r) ↔
      blob = l ++ r ∧ (∀ c ∈ l, inSet reject c = false) ∧
        ∃ c rest, r = c :: rest ∧ inSet reject c = true := by
  simpa [blobCspn] using span_eq_some (p := fun c => !inSet reject c)

theorem blobCspn_eq_none {blob reject : Bytes} :
    blobCspn blob reject = none ↔ ∀ c ∈ blob, inSet reject c = false := by
  simp [blobCspn]

/-- A separator of one byte is found where it occurs first. -/
theorem blobSplit_single {sep : UInt8} {blob l r : Bytes} :
    blobSplit [sep] blob = some (l, r) ↔ blob = l ++ sep :: r ∧ sep ∉ l := by
  induction blob generalizing l with
  | nil => simp [blobSplit]
  | cons c rest ih =>
      simp only [blobSplit, List.isPrefixOf_cons_cons, List.isPrefixOf_nil_left, Bool.and_true,
        beq_iff_eq, List.length_cons, List.length_nil, Nat.zero_add, List.drop_succ_cons,
        List.drop_zero]
      by_cases here : sep = c
      · subst here
        simp only [↓reduceIte, Option.some.injEq, Prod.mk.injEq]
        constructor
        · rintro ⟨rfl, rfl⟩
          exact ⟨rfl, by simp⟩
        · rintro ⟨whole, free⟩
          cases l with
          | nil => simpa using whole
          | cons head tail =>
              rw [List.cons_append, List.cons.injEq] at whole
              exact absurd (whole.1 ▸ List.mem_cons_self) free
      · simp only [here, ↓reduceIte, Option.map_eq_some_iff, Prod.exists, Prod.mk.injEq]
        constructor
        · rintro ⟨front, back, split_at, rfl, rfl⟩
          obtain ⟨whole, free⟩ := ih.mp split_at
          exact ⟨by rw [whole, List.cons_append], by simp [here, free]⟩
        · rintro ⟨whole, free⟩
          cases l with
          | nil => exact absurd (List.cons.inj whole).1.symm here
          | cons head tail =>
              rw [List.cons_append, List.cons.injEq] at whole
              obtain ⟨rfl, tailWhole⟩ := whole
              exact ⟨tail, r, ih.mpr ⟨tailWhole, fun member =>
                free (List.mem_cons_of_mem _ member)⟩, rfl, rfl⟩

theorem blobSplit_single_eq_none {sep : UInt8} {blob : Bytes} :
    blobSplit [sep] blob = none ↔ sep ∉ blob := by
  constructor
  · intro absent member
    obtain ⟨front, back, whole, free⟩ := List.eq_append_cons_of_mem member
    rw [blobSplit_single.mpr ⟨whole, free⟩] at absent
    cases absent
  · intro absent
    cases split_at : blobSplit [sep] blob with
    | none => rfl
    | some pair =>
        obtain ⟨whole, _⟩ := blobSplit_single.mp split_at
        exact absurd (whole ▸ by simp) absent

/-- The callback on one segment after the other, up to the first failure. -/
def callSegments {σ : Type*} (cb : σ → Bytes → ℤ × σ) : List Bytes → σ → ℤ × σ
  | [], ctx => (0, ctx)
  | segment :: segments, ctx =>
      let (rc, ctx) := cb ctx segment
      if rc ≠ 0 then (rc, ctx) else callSegments cb segments ctx

/-- **The segments of a separator.** A callback that passes over empty segments is called
on the pieces between the separators. -/
theorem forEachSegment_eq {σ : Type*} {cb : σ → Bytes → ℤ × σ}
    (passes : ∀ ctx, cb ctx [] = (0, ctx)) (sep : UInt8) (blob : Bytes) (ctx : σ) :
    forEachSegment blob [sep] cb ctx = callSegments cb (blob.splitOn sep) ctx := by
  have last : ∀ (r : Bytes) ctx, sep ∉ r →
      (if 0 < r.length then cb ctx r else (0, ctx)) = callSegments cb (r.splitOn sep) ctx := by
    intro r ctx absent
    rw [List.splitOn_eq_singleton absent]
    by_cases empty : r = []
    · simp [empty, callSegments, passes]
    · simp only [List.length_pos_iff.mpr empty, ↓reduceIte, callSegments]
      split
      · rfl
      · rename_i succeeded
        exact Prod.ext (not_not.mp succeeded) rfl
  have loop : ∀ fuel (r : Bytes) ctx, r.length ≤ fuel →
      forEachSegmentLoop [sep] cb fuel r ctx = callSegments cb (r.splitOn sep) ctx := by
    intro fuel
    induction fuel with
    | zero =>
        intro r ctx short
        have empty : r = [] := List.length_eq_zero_iff.mp (Nat.le_zero.mp short)
        rw [forEachSegmentLoop]
        exact last r ctx (by simp [empty])
    | succ fuel ih =>
        intro r ctx short
        rw [forEachSegmentLoop]
        cases split_at : blobSplit [sep] r with
        | none => exact last r ctx (blobSplit_single_eq_none.mp split_at)
        | some pair =>
            obtain ⟨front, back⟩ := pair
            obtain ⟨whole, free⟩ := blobSplit_single.mp split_at
            have pieces : r.splitOn sep = front :: back.splitOn sep := by
              rw [whole]
              exact List.splitOn_append_cons_self_of_not_mem free back
            rw [pieces]
            simp only [callSegments]
            split
            · rfl
            · refine ih _ _ ?_
              rw [whole] at short
              simp only [List.length_append, List.length_cons] at short
              omega
  exact loop _ _ _ le_rfl

theorem blobRsplit_eq_some {split : UInt8} {blob l r : Bytes} :
    blobRsplit split blob = some (l, r) ↔ blob = l ++ split :: r ∧ split ∉ r := by
  induction blob generalizing l r with
  | nil => simp [blobRsplit]
  | cons c rest ih =>
      rw [blobRsplit]
      cases found : blobRsplit split rest with
      | some pair =>
          obtain ⟨first, second⟩ := pair
          obtain ⟨shape, free⟩ := ih.mp found
          simp only [Option.some.injEq, Prod.mk.injEq]
          constructor
          · rintro ⟨rfl, rfl⟩
            exact ⟨by simp [shape], free⟩
          · rintro ⟨whole, free'⟩
            cases l with
            | nil =>
                simp only [List.nil_append, List.cons.injEq] at whole
                exact absurd (by simp [shape]) (whole.2 ▸ free')
            | cons head tail =>
                simp only [List.cons_append, List.cons.injEq] at whole
                have again := ih.mpr ⟨whole.2, free'⟩
                rw [found] at again
                cases again
                exact ⟨by rw [whole.1], rfl⟩
      | none =>
          have absent : split ∉ rest := by
            intro member
            obtain ⟨front, back, shape, free⟩ := List.eq_append_cons_of_mem
              (List.mem_reverse.mpr member)
            have split_at : rest = back.reverse ++ split :: front.reverse := by
              have := congrArg List.reverse shape
              simpa using this
            have := ih.mpr ⟨split_at, by simpa using free⟩
            rw [found] at this
            cases this
          by_cases same : c = split
          · subst same
            simp only [↓reduceIte, Option.some.injEq, Prod.mk.injEq]
            constructor
            · rintro ⟨rfl, rfl⟩
              exact ⟨rfl, absent⟩
            · rintro ⟨whole, free⟩
              cases l with
              | nil => simpa using whole
              | cons head tail =>
                  simp only [List.cons_append, List.cons.injEq] at whole
                  exact absurd (whole.2 ▸ by simp) absent
          · simp only [same, ↓reduceIte, reduceCtorEq, false_iff, not_and]
            rintro whole
            cases l with
            | nil =>
                simp only [List.nil_append, List.cons.injEq] at whole
                exact absurd whole.1 same
            | cons head tail =>
                simp only [List.cons_append, List.cons.injEq] at whole
                exact absurd (whole.2 ▸ by simp) absent

theorem blobRsplit_eq_none {split : UInt8} {blob : Bytes} :
    blobRsplit split blob = none ↔ split ∉ blob := by
  induction blob with
  | nil => simp [blobRsplit]
  | cons c rest ih =>
      rw [blobRsplit, List.mem_cons, not_or, ← ih]
      cases blobRsplit split rest with
      | some pair => simp
      | none => simp [eq_comm]

end AriannaLinux.Apk
