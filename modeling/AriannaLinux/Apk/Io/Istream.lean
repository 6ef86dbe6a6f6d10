import AriannaLinux.Apk.Blob

/-! # Input streams

The error codes and the callback parts shared by the streams, and input streams: an
input stream is a read function over a state that holds everything its reads touch:
the stream itself and whatever the callbacks of the stream work on. A read that does not
return has no result.
-/

namespace AriannaLinux.Apk

/-- `-EIO`. -/
def eio : ℤ := -5
/-- `-EFAULT`. -/
def efault : ℤ := -14
/-- `-EBADMSG`. -/
def ebadmsg : ℤ := -74
/-- `-ECANCELED`. -/
def ecanceled : ℤ := -125
/-- `-ENOKEY`. -/
def enokey : ℤ := -126
/-- `-EKEYREJECTED`. -/
def ekeyrejected : ℤ := -129

/-- `APK_MPART_*`. -/
inductive MPart where
  | data | boundary | finish
  deriving DecidableEq, Repr

/-- `struct apk_file_info`; the strings are C strings. -/
structure FileInfo where
  name : Bytes := []
  linkTarget : Option Bytes := none
  uname : Bytes := []
  gname : Bytes := []
  size : ℤ := 0
  uid : ℕ := 0
  gid : ℕ := 0
  mode : ℕ := 0
  mtime : ℤ := 0
  device : ℕ × ℕ := (0, 0)
  csum : Checksum := .zero
  deriving DecidableEq

/-- `S_IFMT`. -/
def modeFormat : ℕ := 0o170000
/-- `S_IFDIR`. -/
def modeDirectory : ℕ := 0o040000
/-- `S_IFREG`. -/
def modeRegular : ℕ := 0o100000

/-- `S_ISDIR` of the mode of a file. -/
def FileInfo.isDirectory (fi : FileInfo) : Bool := fi.mode &&& modeFormat = modeDirectory

/-- The result of a read, what it stored, and the state it leaves. -/
structure Read (σ : Type*) where
  result : ℤ
  stored : Bytes
  state : σ

/-- `apk_istream.read` into a buffer of a given size. -/
abbrev ReadFunction (σ : Type*) := σ → ℕ → Option (Read σ)

variable {σ : Type*}

/-- The loop of `apk_istream_skip`. `r` and `done` are unsigned, so an error is not seen
as one: it only ends the loop. -/
def istreamSkipLoop (read : ReadFunction σ) : ℕ → ℕ → ℤ → σ → Option (ℤ × σ)
  | 0, _, _, _ => none
  | fuel + 1, left, done, s =>
      if left = 0 then some (done, s)
      else do
        let togo := min left 2048
        let ⟨r, _, s⟩ ← read s togo
        if r ≠ togo then some (done + r, s)
        else istreamSkipLoop read fuel (left - togo) (done + r) s

/-- `apk_istream_skip`. Each round but the last one skips 2048 bytes. -/
def istreamSkip (read : ReadFunction σ) (size : ℕ) (s : σ) : Option (ℤ × σ) :=
  istreamSkipLoop read (size / 2048 + 2) size 0 s

/-! ## Blobs of their own memory -/

/-- A blob in memory of its own: the bytes of a block, or NULL with a length. -/
inductive OwnedBlob where
  | block (bytes : Bytes)
  | null (len : ℤ)
  deriving DecidableEq, Repr

namespace OwnedBlob

/-- What is behind the pointer. -/
def ptr : OwnedBlob → Option Bytes
  | block bytes => some bytes
  | null _ => none

/-- The bytes that are there. -/
def bytes (blob : OwnedBlob) : Bytes := blob.ptr.getD []

/-- `blob.len`. -/
def len : OwnedBlob → ℤ
  | block bytes => bytes.length
  | null len => len

/-- The `size_t` made of the bytes from the pointer to the end: those of a block are counted,
and a negative length behind NULL wraps. -/
def count : OwnedBlob → ℕ
  | block bytes => bytes.length
  | null len => (len % 2 ^ 64).toNat

end OwnedBlob

/-- `realloc` of a block. To no bytes at all it is a release, and a negative count is more than
there is to be had. -/
def realloc (stored : Bytes) (r : ℤ) : OwnedBlob :=
  if r ≤ 0 then .null r else .block (stored.take r.toNat)

/-- `apk_blob_from_istream`. A size that is negative cannot be allocated. The result of the
read is unsigned, so it is never found to be an error. -/
def blobFromIstream (read : ReadFunction σ) (size : ℤ) (s : σ) : Option (OwnedBlob × σ) :=
  if size < 0 then some (.null 0, s)
  else do
    let ⟨r, stored, s⟩ ← read s size.toNat
    some (if r ≠ size then realloc stored r else .block (stored.take size.toNat), s)

/-- `memchr`: where a byte is among the first `count`. Without a result, it reads where
nothing is. -/
def memchr (c : UInt8) : Bytes → ℕ → Option (Option ℕ)
  | _, 0 => some none
  | [], _ + 1 => none
  | b :: rest, count + 1 =>
      if b = c then some (some 0) else (memchr c rest count).map fun pos => pos.map (· + 1)

namespace OwnedBlob

/-- `apk_blob_split` at a byte. Nothing ends before it begins: no address is below NULL. -/
def split (c : UInt8) (blob : OwnedBlob) : Option (Option (Bytes × OwnedBlob)) :=
  (memchr c blob.bytes blob.count).map fun pos =>
    pos.map fun pos => (blob.bytes.take pos, .block (blob.bytes.drop (pos + 1)))

/-- The loop of `apk_blob_for_each_segment` at a byte. -/
def forEachSegmentLoop {τ : Type*} (c : UInt8) (cb : τ → Bytes → ℤ × τ) :
    ℕ → OwnedBlob → τ → Option (ℤ × τ)
  | 0, _, _ => none
  | fuel + 1, r, ctx =>
      (r.split c).bind fun found =>
        match found with
        | some (l, r) =>
            let (rc, ctx) := cb ctx l
            if rc ≠ 0 then some (rc, ctx) else forEachSegmentLoop c cb fuel r ctx
        | none => some (if 0 < r.len then cb ctx r.bytes else (0, ctx))

/-- `apk_blob_for_each_segment` at a byte; each round but the last one consumes one. Without
a result, it reads where nothing is. -/
def forEachSegment {τ : Type*} (c : UInt8) (cb : τ → Bytes → ℤ × τ) (blob : OwnedBlob) (ctx : τ) :
    Option (ℤ × τ) :=
  forEachSegmentLoop c cb (blob.bytes.length + 1) blob ctx

/-- The search stays inside a block. -/
theorem split_block (c : UInt8) (bytes : Bytes) :
    (block bytes).split c = some ((blobSplit [c] bytes).map fun (l, r) => (l, block r)) := by
  have found : ∀ bytes : Bytes, (memchr c bytes bytes.length).map (fun pos =>
      pos.map fun pos => (bytes.take pos, bytes.drop (pos + 1))) = some (blobSplit [c] bytes) := by
    intro bytes
    induction bytes with
    | nil => rfl
    | cons b rest ih =>
        simp only [memchr, List.length_cons, blobSplit, List.isPrefixOf_cons_cons,
          List.isPrefixOf_nil_left, Bool.and_true, beq_iff_eq, eq_comm (a := c)]
        by_cases same : b = c
        · simp [same]
        · obtain ⟨pos, searched, cut⟩ := Option.map_eq_some_iff.mp ih
          simp only [same, ↓reduceIte, searched, ← cut]
          cases pos <;> rfl
  have cut := found bytes
  obtain ⟨pos, searched, cut⟩ := Option.map_eq_some_iff.mp cut
  unfold split
  rw [show (block bytes).bytes = bytes from rfl, show (block bytes).count = bytes.length from rfl,
    searched, ← cut]
  cases pos <;> rfl

/-- **A block** is worked on inside its bounds. -/
theorem forEachSegment_block {τ : Type*} (c : UInt8) (cb : τ → Bytes → ℤ × τ) (bytes : Bytes)
    (ctx : τ) :
    (block bytes).forEachSegment c cb ctx = some (Apk.forEachSegment bytes [c] cb ctx) := by
  have loop : ∀ fuel (bytes : Bytes) ctx, bytes.length ≤ fuel →
      forEachSegmentLoop c cb (fuel + 1) (block bytes) ctx =
        some (Apk.forEachSegmentLoop [c] cb fuel bytes ctx) := by
    intro fuel
    induction fuel with
    | zero =>
        intro bytes ctx short
        obtain rfl := List.length_eq_zero_iff.mp (Nat.le_zero.mp short)
        rfl
    | succ fuel ih =>
        intro bytes ctx short
        rw [forEachSegmentLoop, split_block, Apk.forEachSegmentLoop]
        cases cut : blobSplit [c] bytes with
        | none => simp [len, OwnedBlob.bytes, ptr]
        | some pair =>
            obtain ⟨l, r⟩ := pair
            have whole := (blobSplit_single.mp cut).1
            have shorter : r.length ≤ fuel := by
              rw [whole, List.length_append, List.length_cons] at short
              omega
            simp only [Option.map_some, Option.bind_some]
            split
            · rfl
            · exact ih r _ shorter
  exact loop _ bytes ctx le_rfl

/-- NULL is worked on only when its length is none. -/
theorem forEachSegment_null {τ : Type*} (c : UInt8) (cb : τ → Bytes → ℤ × τ) {len : ℤ} (ctx : τ)
    (negative : len ≤ 0) :
    (null len).forEachSegment c cb ctx = if len % 2 ^ 64 = 0 then some (0, ctx) else none := by
  have searched : (null len).split c = if len % 2 ^ 64 = 0 then some none else none := by
    have counted : (null len).count = (len % 2 ^ 64).toNat := rfl
    unfold split
    rw [counted, show (null len).bytes = [] from rfl]
    by_cases empty : len % 2 ^ 64 = 0
    · rw [if_pos empty, empty]
      rfl
    · obtain ⟨count, positive⟩ : ∃ count, (len % 2 ^ 64).toNat = count + 1 :=
        Nat.exists_eq_add_one.mpr (by omega)
      rw [if_neg empty, positive]
      rfl
  rw [forEachSegment, forEachSegmentLoop, searched]
  split
  · have none_left : ¬ 0 < (null len).len := not_lt.mpr negative
    simp [none_left]
  · rfl

/-- **An iteration that returns** was one over the bytes that are there. -/
theorem forEachSegment_some {τ : Type*} {c : UInt8} {cb : τ → Bytes → ℤ × τ} {blob : OwnedBlob}
    {ctx : τ} {out : ℤ × τ} (negative : ∀ len, blob = .null len → len ≤ 0)
    (iterated : blob.forEachSegment c cb ctx = some out) :
    Apk.forEachSegment blob.bytes [c] cb ctx = out := by
  cases blob with
  | block bytes =>
      rw [forEachSegment_block] at iterated
      exact Option.some.inj iterated
  | null len =>
      rw [forEachSegment_null c cb ctx (negative len rfl)] at iterated
      split at iterated
      · exact Option.some.inj iterated
      · cases iterated

/-- What the callback keeps, the iteration keeps. -/
theorem forEachSegment_keeps {τ : Type*} {c : UInt8} {cb : τ → Bytes → ℤ × τ} {blob : OwnedBlob}
    {P : τ → Prop} (keeps : ∀ ctx segment, P ctx → P (cb ctx segment).2) {ctx : τ} {out : ℤ × τ}
    (holds : P ctx) (iterated : blob.forEachSegment c cb ctx = some out) : P out.2 := by
  have loop : ∀ fuel (r : OwnedBlob) ctx, P ctx →
      forEachSegmentLoop c cb fuel r ctx = some out → P out.2 := by
    intro fuel
    induction fuel with
    | zero =>
        intro r ctx _ iterated
        cases iterated
    | succ fuel ih =>
        intro r ctx holds iterated
        obtain ⟨found, -, iterated⟩ := Option.bind_eq_some_iff.mp iterated
        cases found with
        | none =>
            dsimp only at iterated
            split at iterated
            · cases iterated
              exact keeps _ _ holds
            · cases iterated
              exact holds
        | some pair =>
            dsimp only at iterated
            split at iterated
            · cases iterated
              exact keeps _ _ holds
            · exact ih _ _ (keeps _ _ holds) iterated
  exact loop _ blob ctx holds iterated

end OwnedBlob

/-- A length behind NULL is that of an error, or none. -/
theorem blobFromIstream_null {read : ReadFunction σ} {size len : ℤ} {s s' : σ}
    (taken : blobFromIstream read size s = some (.null len, s')) : len ≤ 0 := by
  unfold blobFromIstream at taken
  split at taken
  · cases taken
    rfl
  · obtain ⟨out, -, taken⟩ := Option.bind_eq_some_iff.mp taken
    dsimp only [realloc] at taken
    split at taken
    · split at taken
      case isTrue failed =>
        cases taken
        exact failed
      case isFalse => cases taken
    · cases taken

/-! ## What is kept -/

/-- What every read keeps, a skip keeps. -/
theorem istreamSkip_keeps {read : ReadFunction σ} {P : σ → Prop}
    (keeps : ∀ s size out, P s → read s size = some out → P out.state)
    {size : ℕ} {s s' : σ} {r : ℤ} (holds : P s) (skipped : istreamSkip read size s = some (r, s')) :
    P s' := by
  have loop : ∀ fuel left done s, P s →
      istreamSkipLoop read fuel left done s = some (r, s') → P s' := by
    intro fuel
    induction fuel with
    | zero =>
        intro left done s _ skipped
        cases skipped
    | succ fuel ih =>
        intro left done s holds skipped
        rw [istreamSkipLoop] at skipped
        split at skipped
        · cases skipped
          exact holds
        · obtain ⟨out, reads, skipped⟩ := Option.bind_eq_some_iff.mp skipped
          have after := keeps s _ out holds reads
          dsimp only at skipped
          split at skipped
          · cases skipped
            exact after
          · exact ih _ _ _ after skipped
  exact loop _ _ _ s holds skipped

/-- What every read keeps, reading a blob keeps. -/
theorem blobFromIstream_keeps {read : ReadFunction σ} {P : σ → Prop}
    (keeps : ∀ s size out, P s → read s size = some out → P out.state)
    {size : ℤ} {s s' : σ} {blob : OwnedBlob} (holds : P s)
    (taken : blobFromIstream read size s = some (blob, s')) : P s' := by
  unfold blobFromIstream at taken
  split at taken
  · cases taken
    exact holds
  · obtain ⟨out, reads, taken⟩ := Option.bind_eq_some_iff.mp taken
    cases taken
    exact keeps s _ out holds reads

end AriannaLinux.Apk
