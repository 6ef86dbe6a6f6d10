import AriannaLinux.Apk.Blob

/-! # Writing and reading numbers, digests and single characters

The `apk_blob_push_*` functions append to a bounded buffer; the `apk_blob_pull_*`
functions consume the front of a blob. A pull that fails leaves the NULL blob.
-/

namespace AriannaLinux.Apk

/-! ## The writers -/

/-- A blob being filled; `none` once it overflowed. -/
abbrev PushBlob := Option (BoundedBuffer UInt8)

/-- `APK_BLOB_BUF`: the whole of an unused buffer. -/
def blobBuf (size : ℕ) : PushBlob := some (BoundedBuffer.ofSize size)

/-- `apk_blob_push_blob`. -/
def pushBlob (dst : PushBlob) (literal : Bytes) : PushBlob := BoundedBuffer.push dst literal

/-- `apk_blob_pushed`: what has been stored, or the NULL blob. -/
def blobPushed (dst : PushBlob) : Option Bytes := dst.map BoundedBuffer.content

/-- The table `xd`. -/
def xdTable : Bytes := text "0123456789abcdefghijklmnopqrstuvwxyz"

/-- `xd[i]`. -/
def xd (i : ℕ) : UInt8 := xdTable.getD i 0

/-- The digits `apk_blob_push_uint` collects from the back of its buffer. -/
def uintText (value radix : ℕ) : Bytes :=
  if value = 0 then text "0" else ((Nat.digits radix value).reverse).map xd

/-- `apk_blob_push_uint`; the argument is an `unsigned int`. -/
def pushUint (dst : PushBlob) (value radix : ℕ) : PushBlob :=
  pushBlob dst (uintText (value % 2 ^ 32) radix)

/-- The two characters `apk_blob_push_hexdump` writes for a byte. -/
def hexPair (c : UInt8) : Bytes := [xd (c.toNat / 16), xd (c.toNat % 16)]

/-- `apk_blob_push_hexdump`. -/
def pushHexdump (dst : PushBlob) (binary : Bytes) : PushBlob := pushBlob dst (binary.flatMap hexPair)

/-- The table `b64encode`. -/
def b64encodeTable : Bytes :=
  text "ABCDEFGHIJKLMNOPQRSTUVWXYZabcdefghijklmnopqrstuvwxyz0123456789+/"

/-- `b64encode[i]`. -/
def b64encode (i : UInt8) : UInt8 := b64encodeTable.getD i.toNat 0

/-- `push_b64_chunk`; the source is read at all three positions whatever `len` is. -/
def pushB64Chunk (from0 from1 from2 : UInt8) (len : ℕ) : Bytes :=
  [b64encode (from0 >>> 2),
    b64encode (((from0 &&& 0x03) <<< 4) ||| ((from1 &&& 0xf0) >>> 4)),
    if len < 2 then ascii '='
      else b64encode (((from1 &&& 0x0f) <<< 2) ||| ((from2 &&& 0xc0) >>> 6)),
    if len < 3 then ascii '=' else b64encode (from2 &&& 0x3f)]

/-- The text `apk_blob_push_base64` writes; `beyond` is what follows the source
in memory. -/
def base64Text (beyond : Bytes) : Bytes → Bytes
  | a :: b :: c :: rest => pushB64Chunk a b c 4 ++ base64Text beyond rest
  | [a, b] => pushB64Chunk a b (beyond.getD 0 0) 2
  | [a] => pushB64Chunk a (beyond.getD 0 0) (beyond.getD 1 0) 1
  | [] => []

/-- `apk_blob_push_base64`. -/
def pushBase64 (dst : PushBlob) (binary beyond : Bytes) : PushBlob :=
  pushBlob dst (base64Text beyond binary)

/-- `apk_blob_push_csum`; the byte behind the digest of a `struct apk_checksum` is
its `type`. -/
def pushCsum (dst : PushBlob) (csum : Checksum) : PushBlob :=
  if csum.type = checksumMd5 then pushHexdump dst csum.digest
  else if csum.type = checksumSha1 then
    pushBase64 (pushBlob dst (text "Q1")) csum.digest [UInt8.ofNat csum.type]
  else none

/-! ## The readers -/

/-- A blob being consumed: the memory from its pointer on, and its length. -/
structure Blob where
  mem : Bytes
  len : ℤ
  deriving DecidableEq, Repr

/-- A blob that covers `bytes`, with `beyond` behind it in memory. -/
def Blob.ofBytes (bytes beyond : Bytes) : Blob := ⟨bytes ++ beyond, bytes.length⟩

/-- `dx`; `none` is the result -1. -/
def dx (c : UInt8) : Option ℕ :=
  if 48 ≤ c.toNat ∧ c.toNat ≤ 57 then some (c.toNat - 48)
  else if 97 ≤ c.toNat ∧ c.toNat ≤ 102 then some (c.toNat - 97 + 10)
  else if 65 ≤ c.toNat ∧ c.toNat ≤ 70 then some (c.toNat - 65 + 10)
  else none

/-- `apk_blob_pull_char`. -/
def pullChar (b : Option Blob) (expected : UInt8) : Option Blob :=
  match b with
  | none => none
  | some b =>
      if b.len < 1 ∨ b.mem.head? ≠ some expected then none else some ⟨b.mem.tail, b.len - 1⟩

/-- The loop of `apk_blob_pull_uint` over an `unsigned int` accumulator. -/
def pullUintLoop (radix : ℕ) : Bytes → ℤ → ℕ → ℕ × Blob
  | [], len, val => (val, ⟨[], len⟩)
  | c :: mem, len, val =>
      if len = 0 ∨ c = 0 then (val, ⟨c :: mem, len⟩)
      else
        match dx c with
        | none => (val, ⟨c :: mem, len⟩)
        | some ch =>
            if radix ≤ ch then (val, ⟨c :: mem, len⟩)
            else pullUintLoop radix mem (len - 1) ((val * radix + ch) % 2 ^ 32)

/-- `apk_blob_pull_uint`; the NULL blob has length 0. -/
def pullUint (b : Option Blob) (radix : ℕ) : ℕ × Option Blob :=
  match b with
  | none => (0, none)
  | some b =>
      let (val, rest) := pullUintLoop radix b.mem b.len 0
      (val, some rest)

/-- The loop of `apk_blob_pull_hexdump`: the bytes stored in the target, and the
memory behind the digits if they all were hexadecimal. Past the mapped memory
nothing is a digit. -/
def pullHexdumpLoop : ℕ → Bytes → Bytes × Option Bytes
  | 0, mem => ([], some mem)
  | n + 1, s0 :: s1 :: mem =>
      match dx s0, dx s1 with
      | some r1, some r2 =>
          let (stored, rest) := pullHexdumpLoop n mem
          (UInt8.ofNat (r1 * 16 + r2) :: stored, rest)
      | _, _ => ([], none)
  | _ + 1, _ => ([], none)

/-- `apk_blob_pull_hexdump` into a target of `n` bytes: the bytes stored and the
rest of the blob. -/
def pullHexdump (b : Option Blob) (n : ℕ) : Bytes × Option Blob :=
  match b with
  | none => ([], none)
  | some b =>
      if b.len * 2 < n then ([], none)
      else
        match pullHexdumpLoop n b.mem with
        | (stored, some rest) => (stored, some ⟨rest, b.len - 2 * n⟩)
        | (stored, none) => (stored, none)

/-- The table `b64decode`; `0xff` marks a byte outside the alphabet. -/
def b64decodeTable : Bytes :=
  List.replicate 43 0xff ++ [0x3e, 0xff, 0xff, 0xff, 0x3f,
    0x34, 0x35, 0x36, 0x37, 0x38, 0x39, 0x3a, 0x3b, 0x3c, 0x3d, 0xff, 0xff,
    0xff, 0x00, 0xff, 0xff, 0xff, 0x00, 0x01, 0x02, 0x03, 0x04, 0x05, 0x06,
    0x07, 0x08, 0x09, 0x0a, 0x0b, 0x0c, 0x0d, 0x0e, 0x0f, 0x10, 0x11, 0x12,
    0x13, 0x14, 0x15, 0x16, 0x17, 0x18, 0x19, 0xff, 0xff, 0xff, 0xff, 0xff,
    0xff, 0x1a, 0x1b, 0x1c, 0x1d, 0x1e, 0x1f, 0x20, 0x21, 0x22, 0x23, 0x24,
    0x25, 0x26, 0x27, 0x28, 0x29, 0x2a, 0x2b, 0x2c, 0x2d, 0x2e, 0x2f, 0x30,
    0x31, 0x32, 0x33, 0xff, 0xff, 0xff, 0xff, 0xff]

/-- `b64decode[c]`, with `0xff` also for the bytes from 0x80 on. -/
def b64decode (c : UInt8) : UInt8 := b64decodeTable.getD c.toNat 0xff

/-- `pull_b64_chunk`: the bytes it stores before it returns. -/
def pullB64Chunk (from0 from1 from2 from3 : UInt8) (len : ℕ) : Bytes :=
  let t0 := b64decode from0
  let t1 := b64decode from1
  let t2 := b64decode from2
  let t3 := b64decode from3
  if t0 = 0xff ∨ t1 = 0xff ∨ t2 = 0xff ∨ t3 = 0xff then []
  else
    (t0 <<< 2 ||| t1 >>> 4) ::
      if 1 < len then
        (t1 <<< 4 ||| t2 >>> 2) :: if 2 < len then [((t2 <<< 6) &&& 0xc0) ||| t3] else []
      else []

/-- Store bytes over the front of a target. -/
def overlay (stored target : Bytes) : Bytes := stored ++ target.drop stored.length

/-- The loop of `apk_blob_pull_base64`: the target after all chunks. What a chunk
that is rejected does not store keeps its old value. -/
def pullBase64Loop : Bytes → Bytes → Bytes
  | f0 :: f1 :: f2 :: f3 :: mem, t0 :: t1 :: t2 :: target =>
      overlay (pullB64Chunk f0 f1 f2 f3 4) [t0, t1, t2] ++ pullBase64Loop mem target
  | f0 :: f1 :: f2 :: f3 :: _, [t0, t1] => overlay (pullB64Chunk f0 f1 f2 f3 2) [t0, t1]
  | f0 :: f1 :: f2 :: f3 :: _, [t0] => overlay (pullB64Chunk f0 f1 f2 f3 1) [t0]
  | _, target => target

/-- `apk_blob_pull_base64`: the new target and the rest of the blob. -/
def pullBase64 (b : Option Blob) (target : Bytes) : Bytes × Option Blob :=
  match b with
  | none => (target, none)
  | some b =>
      let needed := (target.length + 2) / 3 * 4
      if b.len < needed then (target, none)
      else (pullBase64Loop b.mem target, some ⟨b.mem.drop needed, b.len - needed⟩)

/-- `apk_blob_pull_csum`. -/
def pullCsum (b : Option Blob) (csum : Checksum) : Checksum × Option Blob :=
  match b with
  | none => (csum, none)
  | some b =>
      if b.len < 2 then (csum, none)
      else
        match b.mem with
        | c0 :: c1 :: mem =>
            if dx c0 ≠ none then
              -- assume MD5 for backwards compatibility
              let csum := csum.setType checksumMd5
              let (stored, rest) := pullHexdump (some b) csum.type
              (csum.store stored, rest)
            else if c1 ≠ ascii '1' then (csum, none)
            else
              let csum := csum.setType checksumSha1
              let rest := some ⟨mem, b.len - 2⟩
              if c0 = ascii 'X' then
                let (stored, rest) := pullHexdump rest csum.type
                (csum.store stored, rest)
              else if c0 = ascii 'Q' then
                let (target, rest) := pullBase64 rest csum.digest
                (csum.store target, rest)
              else (csum, none)
        | _ => (csum, none)

end AriannaLinux.Apk
