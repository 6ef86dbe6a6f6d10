import AriannaLinux.Apk.BlobRoundTrip
import AriannaLinux.Lib.GuardedRun

/-! # The bounded blob writer in memory

The `apk_blob_push_*` functions on the memory of their buffer: the blob is a pointer and a
length that move together, the bytes are stored one after the other, and storing a byte
outside the buffer has no result. The writer is the bounded buffer of `BlobText`, where an
overflow is the NULL blob, as long as what an `int` counts fits into it
(`pushedExactly_iff`).
-/

namespace AriannaLinux.Apk

/-- `apk_blob_t`, as addresses. -/
structure CBlob where
  ptr : ℤ
  len : ℤ
  deriving DecidableEq, Repr

/-- `APK_BLOB_NULL`. -/
def CBlob.null : CBlob := ⟨0, 0⟩

/-- A buffer to be filled: where it lies and what it holds at first. -/
structure WriteBuffer where
  base : ℕ
  cells : Bytes
  nonnull : 0 < base

/-- The blob that is pushed to, and the bytes of the buffer. -/
structure PushState where
  dst : CBlob
  cells : Bytes
  deriving DecidableEq, Repr

namespace WriteBuffer

/-- `buffer.len`. -/
def size (buffer : WriteBuffer) : ℕ := buffer.cells.length

/-- `APK_BLOB_BUF`. -/
def blob (buffer : WriteBuffer) : CBlob := ⟨buffer.base, buffer.size⟩

/-- The state before the first push. -/
def unused (buffer : WriteBuffer) : PushState := ⟨buffer.blob, buffer.cells⟩

end WriteBuffer

/-! ## The functions -/

/-- `*d = c` with the buffer at `base`. -/
def storeByte (base : ℕ) (cells : Bytes) (d : ℤ) (c : UInt8) : Option Bytes :=
  if (base : ℤ) ≤ d ∧ d < base + cells.length then some (cells.set (d - base).toNat c) else none

/-- Bytes stored one after the other, as `memcpy` does. -/
def storeBytes (base : ℕ) : Bytes → ℤ → Bytes → Option Bytes
  | cells, _, [] => some cells
  | cells, d, c :: rest =>
      (storeByte base cells d c).bind fun cells => storeBytes base cells (d + 1) rest

namespace PushState

/-- `apk_blob_push_blob`. -/
def pushBlob (base : ℕ) (state : PushState) (literal : Bytes) : Option PushState :=
  if state.dst.ptr = 0 then some state
  else if state.dst.len < literal.length then some { state with dst := .null }
  else
    (storeBytes base state.cells state.dst.ptr literal).map fun cells =>
      ⟨⟨state.dst.ptr + literal.length, state.dst.len - literal.length⟩, cells⟩

end PushState

/-- The loop of `apk_blob_push_uint`: `room` is how much of `buf` is left in front of what has
been stored. -/
def pushUintLoop (radix : ℕ) : ℕ → ℕ → Bytes → Option Bytes
  | _, 0, stored => some stored
  | 0, _ + 1, _ => none
  | room + 1, value + 1, stored =>
      pushUintLoop radix room ((value + 1) / radix) (xd ((value + 1) % radix) :: stored)

/-- The last value of an `int`. -/
def intMax : ℕ := 2 ^ 31 - 1

/-- A `long` stored in an `int`. -/
def intOfLong (value : ℤ) : ℤ := Int.bmod value (2 ^ 32)

/-- The loop of `apk_blob_push_hexdump`. It goes on from `i` only if that can be counted. -/
def pushHexdumpLoop (base : ℕ) : ℕ → Bytes → ℤ → Bytes → Option (ℤ × Bytes)
  | _, cells, d, [] => some (d, cells)
  | i, cells, d, c :: rest =>
      (storeByte base cells d (xd (c.toNat / 16))).bind fun cells =>
        (storeByte base cells (d + 1) (xd (c.toNat % 16))).bind fun cells =>
          if i = intMax then none else pushHexdumpLoop base (i + 1) cells (d + 2) rest

/-- The loop of `apk_blob_push_base64` and the chunk behind it; `beyond` is what follows the
source in memory. -/
def pushBase64Loop (base : ℕ) (beyond : Bytes) : ℕ → Bytes → ℤ → Bytes → Option Bytes
  | i, cells, dst, a :: b :: c :: rest =>
      (storeBytes base cells dst (pushB64Chunk a b c 4)).bind fun cells =>
        if i = intMax then none else pushBase64Loop base beyond (i + 1) cells (dst + 4) rest
  | _, cells, dst, [a, b] =>
      storeBytes base cells dst (pushB64Chunk a b (beyond.getD 0 0) 2)
  | _, cells, dst, [a] =>
      storeBytes base cells dst (pushB64Chunk a (beyond.getD 0 0) (beyond.getD 1 0) 1)
  | _, cells, _, [] => some cells

/-- `((binary.len + 2) / 3) * 4`. -/
def base64Length (binary : Bytes) : ℕ := (binary.length + 2) / 3 * 4

namespace PushState

/-- `apk_blob_push_uint`. -/
def pushUint (base : ℕ) (state : PushState) (value : UInt32) (radix : ℕ) : Option PushState :=
  if value = 0 then pushBlob base state (text "0")
  else (pushUintLoop radix 64 value.toNat []).bind (pushBlob base state)

/-- `apk_blob_push_hexdump`. -/
def pushHexdump (base : ℕ) (state : PushState) (binary : Bytes) : Option PushState :=
  if state.dst.ptr = 0 then some state
  else if state.dst.len < binary.length * 2 then some { state with dst := .null }
  else
    (pushHexdumpLoop base 0 state.cells state.dst.ptr binary).map fun (d, cells) =>
      ⟨⟨d, state.dst.len - binary.length * 2⟩, cells⟩

/-- `apk_blob_push_base64`; `needed` is an `int`. -/
def pushBase64 (base : ℕ) (state : PushState) (binary beyond : Bytes) : Option PushState :=
  let needed := intOfLong (base64Length binary)
  if state.dst.ptr = 0 then some state
  else if state.dst.len < needed then some { state with dst := .null }
  else
    (pushBase64Loop base beyond 0 state.cells state.dst.ptr binary).map fun cells =>
      ⟨⟨state.dst.ptr + needed, state.dst.len - needed⟩, cells⟩

/-- `apk_blob_push_csum`; the byte behind the digest is its `type`. -/
def pushCsum (base : ℕ) (state : PushState) (csum : Checksum) : Option PushState :=
  if csum.type = checksumMd5 then pushHexdump base state csum.digest
  else if csum.type = checksumSha1 then
    (pushBlob base state (text "Q1")).bind fun state =>
      pushBase64 base state csum.digest [UInt8.ofNat csum.type]
  else some { state with dst := .null }

end PushState

/-- `apk_blob_pushed`. -/
def apkBlobPushed (buffer left : CBlob) : CBlob :=
  if buffer.ptr + buffer.len ≠ left.ptr + left.len then .null
  else ⟨buffer.ptr, left.ptr - buffer.ptr⟩

/-- The blob that `apk_blob_pushed` returns: its bytes, if it is not NULL. -/
def PushState.pushed (buffer : WriteBuffer) (left : PushState) : Option Bytes :=
  let blob := apkBlobPushed buffer.blob left.dst
  if blob.ptr = 0 then none else some (left.cells.take blob.len.toNat)

/-! ## Calls -/

/-- A call to one of the functions. `beyond` is what lies behind the source of the base64
text in memory. -/
inductive PushCall where
  | blob (literal : Bytes)
  | uint (value : UInt32) (radix : ℕ) (atLeast : 2 ≤ radix) (atMost : radix ≤ 36)
  | hexdump (binary : Bytes)
  | base64 (binary beyond : Bytes)
  | csum (checksum : Checksum)

namespace PushCall

/-- The call in memory. -/
def run (buffer : WriteBuffer) (state : PushState) : PushCall → Option PushState
  | .blob literal => state.pushBlob buffer.base literal
  | .uint value radix _ _ => state.pushUint buffer.base value radix
  | .hexdump binary => state.pushHexdump buffer.base binary
  | .base64 binary beyond => state.pushBase64 buffer.base binary beyond
  | .csum checksum => state.pushCsum buffer.base checksum

/-- The call on the bounded buffer. -/
def push (dst : PushBlob) : PushCall → PushBlob
  | .blob literal => Apk.pushBlob dst literal
  | .uint value radix _ _ => Apk.pushUint dst value.toNat radix
  | .hexdump binary => Apk.pushHexdump dst binary
  | .base64 binary beyond => Apk.pushBase64 dst binary beyond
  | .csum checksum => Apk.pushCsum dst checksum

/-- The text of the value, which a checksum has if it is MD5 or SHA1. -/
def encoded : PushCall → Option Bytes
  | .blob literal => some literal
  | .uint value radix _ _ => some (uintText value.toNat radix)
  | .hexdump binary => some (binary.flatMap hexPair)
  | .base64 binary beyond => some (base64Text beyond binary)
  | .csum checksum => csumText checksum

/-- What an `int` counts in the call fits into it, or the call gives up before, with `room`
bytes left: `i` in a hexdump of 2^31 bytes, `needed` in a base64 text of 2^31. -/
def Countable (room : ℕ) : PushCall → Prop
  | .hexdump binary => binary.length * 2 ≤ room → binary.length ≤ intMax
  | .base64 binary _ =>
      base64Length binary ≤ intMax ∨ (room : ℤ) < intOfLong (base64Length binary)
  | _ => True

end PushCall

/-- The texts of all values together, if each has one. -/
def encodedText : List PushCall → Option Bytes
  | [] => some []
  | call :: calls => call.encoded.bind fun first => (encodedText calls).map (first ++ ·)

/-- What the writer is for: the texts of all values together, if each has one and they fit. -/
def writtenText (size : ℕ) (calls : List PushCall) : Option Bytes :=
  (encodedText calls).filter fun written => written.length ≤ size

/-! ## Storing -/

theorem storeByte_inside {base n : ℕ} {cells : Bytes} (c : UInt8) (inside : n < cells.length) :
    storeByte base cells (base + n) c = some (cells.set n c) := by
  rw [storeByte, if_pos ⟨by omega, by omega⟩, add_sub_cancel_left, Int.toNat_natCast]

/-- Bytes stored inside the buffer come behind those in front of them. -/
theorem storeBytes_inside {base : ℕ} (bytes : Bytes) :
    ∀ {n : ℕ} {cells : Bytes}, n + bytes.length ≤ cells.length →
      ∃ after, storeBytes base cells (base + n) bytes = some after ∧
        after.length = cells.length ∧ after.take (n + bytes.length) = cells.take n ++ bytes := by
  induction bytes with
  | nil => exact fun _ => ⟨_, rfl, rfl, by simp⟩
  | cons c bytes ih =>
      intro n cells inside
      rw [List.length_cons] at inside
      have room : n + 1 + bytes.length ≤ (cells.set n c).length := by
        rw [List.length_set]
        omega
      obtain ⟨after, stored, length, front⟩ := ih room
      have first : (cells.set n c).take (n + 1) = cells.take n ++ [c] := by
        rw [List.take_add_one, List.take_set_of_le le_rfl, List.getElem?_set_self (by omega)]
        rfl
      refine ⟨after, ?_, by rw [length, List.length_set], ?_⟩
      · rw [storeBytes, storeByte_inside c (by omega), Option.bind_some]
        rw [Nat.cast_add, ← add_assoc] at stored
        exact stored
      · rw [List.length_cons, show n + (bytes.length + 1) = n + 1 + bytes.length by omega, front,
          first, List.append_assoc, List.singleton_append]

theorem storeBytes_append (base : ℕ) (first second : Bytes) :
    ∀ (cells : Bytes) (d : ℤ), storeBytes base cells d (first ++ second) =
      (storeBytes base cells d first).bind fun cells =>
        storeBytes base cells (d + first.length) second := by
  induction first with
  | nil =>
      intro cells d
      simp [storeBytes]
  | cons c first ih =>
      intro cells d
      rw [List.cons_append, storeBytes, storeBytes, Option.bind_assoc]
      congr 1
      funext cells
      rw [ih, List.length_cons]
      push_cast
      rw [add_assoc d 1, add_comm (1 : ℤ)]

/-- A hexdump whose bytes can be counted is its text, stored. -/
theorem pushHexdumpLoop_eq (base : ℕ) (binary : Bytes) :
    ∀ (i : ℕ) (cells : Bytes) (d : ℤ), i + binary.length ≤ intMax →
      pushHexdumpLoop base i cells d binary =
        (storeBytes base cells d (binary.flatMap hexPair)).map fun cells =>
          (d + binary.length * 2, cells) := by
  induction binary with
  | nil =>
      intro i cells d _
      simp [pushHexdumpLoop, storeBytes]
  | cons c binary ih =>
      intro i cells d counted
      rw [List.length_cons] at counted
      have more : i ≠ intMax := by omega
      have pair : (c :: binary).flatMap hexPair =
          xd (c.toNat / 16) :: xd (c.toNat % 16) :: binary.flatMap hexPair := rfl
      rw [pushHexdumpLoop, pair, storeBytes]
      cases storeByte base cells d (xd (c.toNat / 16)) with
      | none => rfl
      | some cells =>
          rw [Option.bind_some, Option.bind_some, storeBytes]
          cases storeByte base cells (d + 1) (xd (c.toNat % 16)) with
          | none => rfl
          | some cells =>
              have together : d + 1 + 1 = d + 2 := by ring
              have counts : d + 2 + (binary.length : ℤ) * 2 = d + ((binary.length + 1 : ℕ) : ℤ) * 2 := by
                push_cast
                ring
              rw [Option.bind_some, Option.bind_some, if_neg more, ih (i + 1) _ _ (by omega),
                together, counts, List.length_cons]

/-- A hexdump of more bytes than can be counted does not come to its end. -/
theorem pushHexdumpLoop_none (base : ℕ) (binary : Bytes) :
    ∀ (i : ℕ) (cells : Bytes) (d : ℤ), i ≤ intMax → intMax < i + binary.length →
      pushHexdumpLoop base i cells d binary = none := by
  induction binary with
  | nil =>
      intro i cells d bound beyond
      rw [List.length_nil] at beyond
      omega
  | cons c binary ih =>
      intro i cells d bound beyond
      rw [List.length_cons] at beyond
      rw [pushHexdumpLoop]
      simp only [Option.bind_eq_none_iff]
      intro first _ second _
      split
      · rfl
      · exact ih _ _ _ (by omega) (by omega)

/-- A base64 text whose chunks can be counted, stored. -/
theorem pushBase64Loop_eq (base : ℕ) (beyond : Bytes) : ∀ (binary : Bytes) (i : ℕ)
    (cells : Bytes) (dst : ℤ), i + binary.length / 3 ≤ intMax →
      pushBase64Loop base beyond i cells dst binary =
        storeBytes base cells dst (base64Text beyond binary)
  | [], _, _, _, _ => rfl
  | [_], _, _, _, _ => rfl
  | [_, _], _, _, _, _ => rfl
  | a :: b :: c :: rest, i, cells, dst, counted => by
      have thirds : (a :: b :: c :: rest).length / 3 = rest.length / 3 + 1 := by
        simp only [List.length_cons]
        omega
      have more : i ≠ intMax := by omega
      rw [pushBase64Loop, base64Text, storeBytes_append]
      congr 1
      funext cells
      rw [if_neg more, pushBase64Loop_eq base beyond rest (i + 1) cells (dst + 4) (by omega)]
      rfl

theorem pushUintLoop_eq {radix : ℕ} (atLeast : 2 ≤ radix) (room : ℕ) :
    ∀ (value : ℕ) (stored : Bytes), (Nat.digits radix value).length ≤ room →
      pushUintLoop radix room value stored =
        some ((Nat.digits radix value).reverse.map xd ++ stored) := by
  induction room with
  | zero =>
      intro value stored short
      have none_left : Nat.digits radix value = [] :=
        List.length_eq_zero_iff.mp (Nat.le_zero.mp short)
      obtain rfl := Nat.digits_eq_nil_iff_eq_zero.mp none_left
      simp [pushUintLoop]
  | succ room ih =>
      intro value stored short
      cases value with
      | zero => simp [pushUintLoop]
      | succ value =>
          rw [Nat.digits_def' atLeast (Nat.succ_pos value)] at short ⊢
          rw [pushUintLoop, ih _ _ (Nat.le_of_succ_le_succ short)]
          simp

/-- The digits of an `unsigned int` fit into `buf`. -/
theorem pushUintLoop_text {radix : ℕ} (atLeast : 2 ≤ radix) {value : UInt32} (positive : value ≠ 0) :
    pushUintLoop radix 64 value.toNat [] = some (uintText value.toNat radix) := by
  have nonzero : value.toNat ≠ 0 := fun zero => positive (UInt32.toNat_inj.mp zero)
  have few : (Nat.digits radix value.toNat).length ≤ 64 := by
    rw [Nat.digits_length_le_iff atLeast]
    calc value.toNat < 2 ^ 32 := value.toNat_lt
      _ ≤ 2 ^ 64 := by decide
      _ ≤ radix ^ 64 := Nat.pow_le_pow_left atLeast 64
  rw [pushUintLoop_eq atLeast 64 _ _ few, List.append_nil, uintText, if_neg nonzero]

/-! ## The writer is the bounded buffer -/

/-- The state is that of the bounded buffer, whose overflow is the NULL blob. -/
def Represents (buffer : WriteBuffer) (state : PushState) : PushBlob → Prop
  | none => state.dst = .null
  | some filled =>
      state.dst = ⟨buffer.base + filled.content.length, filled.room⟩ ∧
        state.cells.length = buffer.size ∧
        filled.content.length + filled.room = buffer.size ∧
        state.cells.take filled.content.length = filled.content

theorem represents_unused (buffer : WriteBuffer) :
    Represents buffer buffer.unused (blobBuf buffer.size) := by
  refine ⟨?_, rfl, ?_, rfl⟩
  · simp [WriteBuffer.unused, WriteBuffer.blob, BoundedBuffer.ofSize]
  · simp [BoundedBuffer.ofSize]

section Steps

variable {buffer : WriteBuffer} {state : PushState} {filled : BoundedBuffer UInt8}
  {dst : PushBlob}

theorem Represents.null_iff (represents : Represents buffer state dst) :
    state.dst.ptr = 0 ↔ dst = none := by
  cases dst with
  | none =>
      have null : state.dst = .null := represents
      simp [null, CBlob.null]
  | some filled =>
      have positive := buffer.nonnull
      rw [represents.1]
      simp only [reduceCtorEq, iff_false]
      omega

theorem Represents.room (represents : Represents buffer state (some filled)) :
    state.dst.len = filled.room := by
  rw [represents.1]

/-- A text that fits is stored behind the content. -/
theorem Represents.store (represents : Represents buffer state (some filled)) {written : Bytes}
    (fits : written.length ≤ filled.room) :
    ∃ cells, storeBytes buffer.base state.cells state.dst.ptr written = some cells ∧
      Represents buffer ⟨⟨state.dst.ptr + written.length, state.dst.len - written.length⟩, cells⟩
        (Apk.pushBlob (some filled) written) := by
  obtain ⟨position, length, total, content⟩ := represents
  have inside : filled.content.length + written.length ≤ state.cells.length := by omega
  obtain ⟨cells, stored, sameLength, front⟩ := @storeBytes_inside buffer.base written _ _ inside
  refine ⟨cells, by rw [position]; exact stored, ?_⟩
  rw [Apk.pushBlob, BoundedBuffer.push, if_neg (Nat.not_lt.mpr fits), position]
  refine ⟨?_, sameLength.trans length, ?_, ?_⟩
  · simp only [CBlob.mk.injEq, List.length_append]
    push_cast
    omega
  · simp only [List.length_append]
    omega
  · rw [List.length_append, front, content]

/-- A text that does not fit leaves the NULL blob. -/
theorem Represents.overflow {written : Bytes} (long : filled.room < written.length) :
    Represents buffer { state with dst := .null } (Apk.pushBlob (some filled) written) := by
  rw [Apk.pushBlob, BoundedBuffer.push, if_pos long]
  rfl

theorem Represents.pushBlob (represents : Represents buffer state dst) (literal : Bytes) :
    ∃ after, state.pushBlob buffer.base literal = some after ∧
      Represents buffer after (Apk.pushBlob dst literal) := by
  unfold PushState.pushBlob
  cases dst with
  | none => exact ⟨state, if_pos (represents.null_iff.mpr rfl), represents⟩
  | some filled =>
      rw [if_neg (fun null => by cases represents.null_iff.mp null), represents.room]
      by_cases long : filled.room < literal.length
      · exact ⟨_, if_pos (by exact_mod_cast long), Represents.overflow long⟩
      · obtain ⟨cells, stored, after⟩ := represents.store (Nat.not_lt.mp long)
        rw [if_neg (by exact_mod_cast long), stored]
        exact ⟨_, rfl, represents.room ▸ after⟩

theorem Represents.pushUint (represents : Represents buffer state dst) (value : UInt32) {radix : ℕ}
    (atLeast : 2 ≤ radix) :
    ∃ after, state.pushUint buffer.base value radix = some after ∧
      Represents buffer after (Apk.pushUint dst value.toNat radix) := by
  have bounded : value.toNat % 2 ^ 32 = value.toNat := Nat.mod_eq_of_lt value.toNat_lt
  unfold PushState.pushUint Apk.pushUint
  rw [bounded]
  by_cases zero : value = 0
  · subst zero
    exact represents.pushBlob (text "0")
  · rw [if_neg zero, pushUintLoop_text atLeast zero]
    exact represents.pushBlob _

theorem Represents.pushHexdump (represents : Represents buffer state dst) {binary : Bytes}
    (countable : ∀ filled, dst = some filled → (PushCall.hexdump binary).Countable filled.room) :
    ∃ after, state.pushHexdump buffer.base binary = some after ∧
      Represents buffer after (Apk.pushHexdump dst binary) := by
  unfold PushState.pushHexdump Apk.pushHexdump
  cases dst with
  | none => exact ⟨state, if_pos (represents.null_iff.mpr rfl), represents⟩
  | some filled =>
      have length := length_flatMap_hexPair binary
      rw [if_neg (fun null => by cases represents.null_iff.mp null), represents.room]
      by_cases long : filled.room < binary.length * 2
      · exact ⟨_, if_pos (by exact_mod_cast long), Represents.overflow (by omega)⟩
      · have fits : (binary.flatMap hexPair).length ≤ filled.room := by omega
        obtain ⟨cells, stored, after⟩ := represents.store fits
        have counted := countable filled rfl (Nat.not_lt.mp long)
        rw [if_neg (by exact_mod_cast long),
          pushHexdumpLoop_eq buffer.base binary 0 _ _ (by omega), stored]
        rw [represents.room, length] at after
        refine ⟨_, rfl, ?_⟩
        push_cast at after ⊢
        rw [mul_comm (2 : ℤ)] at after
        exact after

theorem intOfLong_of_le {value : ℕ} (fits : value ≤ intMax) : intOfLong value = value := by
  simp only [intMax] at fits
  simp only [intOfLong, Int.bmod]
  omega

theorem intOfLong_le (value : ℕ) : intOfLong value ≤ value := by
  simp only [intOfLong, Int.bmod]
  split <;> omega

theorem Represents.pushBase64 (represents : Represents buffer state dst) {binary beyond : Bytes}
    (countable : ∀ filled, dst = some filled →
      (PushCall.base64 binary beyond).Countable filled.room) :
    ∃ after, state.pushBase64 buffer.base binary beyond = some after ∧
      Represents buffer after (Apk.pushBase64 dst binary beyond) := by
  unfold PushState.pushBase64 Apk.pushBase64
  cases dst with
  | none => exact ⟨state, if_pos (represents.null_iff.mpr rfl), represents⟩
  | some filled =>
      have length : (base64Text beyond binary).length = base64Length binary :=
        length_base64Text beyond binary
      dsimp only
      rw [if_neg (fun null => by cases represents.null_iff.mp null), represents.room]
      by_cases long : (filled.room : ℤ) < intOfLong (base64Length binary)
      · have below := intOfLong_le (base64Length binary)
        exact ⟨_, if_pos long, Represents.overflow (by omega)⟩
      · have counted := (countable filled rfl).resolve_right long
        rw [intOfLong_of_le counted] at long ⊢
        have thirds : 0 + binary.length / 3 ≤ intMax := by
          have whole : base64Length binary = (binary.length + 2) / 3 * 4 := rfl
          omega
        have fits : (base64Text beyond binary).length ≤ filled.room := by omega
        obtain ⟨cells, stored, after⟩ := represents.store fits
        rw [if_neg long, pushBase64Loop_eq buffer.base beyond binary 0 _ _ thirds, stored]
        rw [represents.room, length] at after
        exact ⟨_, rfl, after⟩

theorem Represents.pushCsum (represents : Represents buffer state dst) (csum : Checksum) :
    ∃ after, state.pushCsum buffer.base csum = some after ∧
      Represents buffer after (Apk.pushCsum dst csum) := by
  unfold PushState.pushCsum Apk.pushCsum
  have short : csum.digest.length ≤ 20 := by
    simp [Checksum.digest, csum.sized]
  by_cases md5 : csum.type = checksumMd5
  · rw [if_pos md5, if_pos md5]
    refine represents.pushHexdump fun filled _ _ => ?_
    simp only [intMax]
    omega
  · rw [if_neg md5, if_neg md5]
    by_cases sha1 : csum.type = checksumSha1
    · rw [if_pos sha1, if_pos sha1]
      obtain ⟨middle, marked, between⟩ := represents.pushBlob (text "Q1")
      rw [marked, Option.bind_some]
      refine between.pushBase64 fun filled _ => .inl ?_
      simp only [base64Length, intMax]
      omega
    · rw [if_neg sha1, if_neg sha1]
      exact ⟨_, rfl, rfl⟩

/-- **One call** in memory is the call on the bounded buffer. -/
theorem Represents.call (represents : Represents buffer state dst) {call : PushCall}
    (countable : ∀ filled, dst = some filled → call.Countable filled.room) :
    ∃ after, call.run buffer state = some after ∧ Represents buffer after (call.push dst) := by
  cases call with
  | blob literal => exact represents.pushBlob literal
  | uint value radix atLeast atMost => exact represents.pushUint value atLeast
  | hexdump binary => exact represents.pushHexdump countable
  | base64 binary beyond => exact represents.pushBase64 countable
  | csum checksum => exact represents.pushCsum checksum

/-- What `apk_blob_pushed` returns. -/
theorem Represents.pushed (represents : Represents buffer state dst) :
    state.pushed buffer = blobPushed dst := by
  have positive := buffer.nonnull
  unfold PushState.pushed apkBlobPushed
  cases dst with
  | none =>
      have null : state.dst = .null := represents
      have apart : buffer.blob.ptr + buffer.blob.len ≠ CBlob.null.ptr + CBlob.null.len := by
        simp only [WriteBuffer.blob, CBlob.null]
        omega
      rw [null, if_pos apart]
      rfl
  | some filled =>
      obtain ⟨position, length, total, content⟩ := represents
      have together : ¬ buffer.blob.ptr + buffer.blob.len ≠ state.dst.ptr + state.dst.len := by
        simp only [WriteBuffer.blob, position]
        omega
      have nonnull : ¬ buffer.blob.ptr = 0 := by
        simp only [WriteBuffer.blob]
        omega
      have count : (state.dst.ptr - buffer.blob.ptr).toNat = filled.content.length := by
        simp only [WriteBuffer.blob, position]
        omega
      rw [if_neg together]
      simp only [nonnull, ↓reduceIte, count, content]
      rfl

theorem intOfLong_lt {value : ℕ} (beyond : intMax < value) : intOfLong value < value := by
  simp only [intMax] at beyond
  simp only [intOfLong, Int.bmod]
  omega

private theorem taken_ne {stored needed cells : ℕ} {counted : ℤ} (shorter : counted < needed)
    (some_text : 0 < needed) : min (stored + counted).toNat cells ≠ stored + needed := by
  omega

/-- A call that counts more than an `int` holds either writes outside the buffer, or
overflows its counter, or leaves a blob that does not tell what was written. -/
theorem Represents.uncountable (represents : Represents buffer state (some filled))
    {call : PushCall} (uncountable : ¬ call.Countable filled.room) {after : PushState}
    (returned : call.run buffer state = some after) :
    after.pushed buffer ≠ blobPushed (call.push (some filled)) := by
  have nonnull : ¬ state.dst.ptr = 0 := fun null => by cases represents.null_iff.mp null
  have length := represents.room
  cases call with
  | blob literal => exact absurd trivial uncountable
  | uint value radix atLeast atMost => exact absurd trivial uncountable
  | csum checksum => exact absurd trivial uncountable
  | hexdump binary =>
      obtain ⟨fits, many⟩ := Classical.not_imp.mp uncountable
      have stuck := pushHexdumpLoop_none buffer.base binary 0 state.cells state.dst.ptr
        (Nat.zero_le _) (by omega)
      have unable : PushCall.run buffer state (.hexdump binary) = none := by
        simp only [PushCall.run, PushState.pushHexdump]
        rw [if_neg nonnull, length, if_neg (by omega), stuck, Option.map_none]
      rw [unable] at returned
      cases returned
  | base64 binary beyond =>
      obtain ⟨many, below⟩ := not_or.mp uncountable
      simp only [PushCall.run, PushState.pushBase64] at returned
      rw [if_neg nonnull, length, if_neg below] at returned
      obtain ⟨cells, -, rfl⟩ := Option.map_eq_some_iff.mp returned
      obtain ⟨position, -, total, -⟩ := represents
      have shorter := intOfLong_lt (Nat.not_le.mp many)
      have some_text : 0 < base64Length binary := Nat.zero_lt_of_lt (Nat.not_le.mp many)
      have positive := buffer.nonnull
      have together : ¬ buffer.blob.ptr + buffer.blob.len ≠
          state.dst.ptr + intOfLong (base64Length binary) +
            (filled.room - intOfLong (base64Length binary)) := by
        simp only [WriteBuffer.blob, position]
        omega
      have there : ¬ buffer.blob.ptr = 0 := by
        simp only [WriteBuffer.blob]
        omega
      simp only [PushState.pushed, apkBlobPushed, together, ↓reduceIte, there]
      simp only [PushCall.push, Apk.pushBase64, Apk.pushBlob, BoundedBuffer.push, blobPushed]
      split
      · simp
      · intro same
        simp only [Option.map_some, Option.some.injEq] at same
        have lengths := congrArg List.length same
        have textLength : (base64Text beyond binary).length = base64Length binary :=
          length_base64Text beyond binary
        have moved : state.dst.ptr + intOfLong (base64Length binary) - buffer.blob.ptr =
            filled.content.length + intOfLong (base64Length binary) := by
          simp only [WriteBuffer.blob, position]
          ring
        rw [List.length_take, List.length_append, textLength, moved] at lengths
        exact taken_ne shorter some_text lengths

end Steps

/-! ## Sequences of calls -/

theorem PushCall.push_eq (dst : PushBlob) (call : PushCall) :
    call.push dst = call.encoded.elim none (Apk.pushBlob dst) := by
  cases call with
  | blob literal => rfl
  | uint value radix atLeast atMost =>
      have bounded : value.toNat % 2 ^ 32 = value.toNat := Nat.mod_eq_of_lt value.toNat_lt
      simp only [PushCall.push, Apk.pushUint, bounded, PushCall.encoded, Option.elim_some]
  | hexdump binary => rfl
  | base64 binary beyond => rfl
  | csum checksum => exact pushCsum_eq dst checksum

/-- The bounded buffer after a sequence of calls, if it can be stored. -/
theorem foldl_push (calls : List PushCall) :
    ∀ dst : PushBlob, calls.foldl PushCall.push dst =
      (encodedText calls).elim none (Apk.pushBlob dst) := by
  induction calls with
  | nil =>
      intro dst
      cases dst with
      | none => rfl
      | some filled => simp [encodedText, Apk.pushBlob, BoundedBuffer.push]
  | cons call calls ih =>
      intro dst
      rw [List.foldl_cons, ih, call.push_eq dst, encodedText]
      cases call.encoded with
      | none => cases encodedText calls <;> rfl
      | some first =>
          cases encodedText calls with
          | none => rfl
          | some rest => exact (BoundedBuffer.push_append dst first rest).symm

/-- **The bounded buffer** returns the texts of all values when each has one and they fit. -/
theorem blobPushed_foldl (size : ℕ) (calls : List PushCall) :
    blobPushed (calls.foldl PushCall.push (blobBuf size)) = writtenText size calls := by
  rw [foldl_push, writtenText]
  cases encodedText calls with
  | none => rfl
  | some written =>
      simp only [Option.elim_some, blobBuf, Apk.pushBlob, BoundedBuffer.push,
        BoundedBuffer.ofSize, Option.filter_some, decide_eq_true_eq]
      by_cases long : size < written.length
      · rw [if_pos long, if_neg (Nat.not_le.mpr long)]
        rfl
      · rw [if_neg long, if_pos (Nat.not_lt.mp long)]
        rfl

theorem writtenText_of_foldl {size : ℕ} {calls : List PushCall} {filled : BoundedBuffer UInt8}
    (stored : calls.foldl PushCall.push (blobBuf size) = some filled) :
    writtenText size calls = some filled.content ∧ filled.room = size - filled.content.length := by
  refine ⟨by rw [← blobPushed_foldl, stored]; rfl, ?_⟩
  rw [foldl_push] at stored
  cases encoded : encodedText calls with
  | none =>
      rw [encoded] at stored
      cases stored
  | some written =>
      rw [encoded] at stored
      simp only [Option.elim_some, blobBuf, Apk.pushBlob, BoundedBuffer.push,
        BoundedBuffer.ofSize] at stored
      split at stored
      · cases stored
      · cases stored
        rfl

/-- A sequence of calls in memory. -/
def pushCalls (buffer : WriteBuffer) (calls : List PushCall) : Option PushState :=
  run (fun state call => call.run buffer state) buffer.unused calls

/-- At every point of the sequence no byte outside the buffer has been written, and
`apk_blob_pushed` returns the texts of all values so far if each has one and they fit, and the
NULL blob otherwise. -/
def PushedExactly (buffer : WriteBuffer) (calls : List PushCall) : Prop :=
  ∀ before, before <+: calls →
    ∃ left, pushCalls buffer before = some left ∧
      left.pushed buffer = writtenText buffer.size before

/-- Every call that is made without an overflow before counts no further than an `int`. -/
def CountsFit (size : ℕ) (calls : List PushCall) : Prop :=
  ∀ before call, before ++ [call] <+: calls → ∀ written, writtenText size before = some written →
    call.Countable (size - written.length)

theorem pushCalls_concat (buffer : WriteBuffer) (calls : List PushCall) (call : PushCall) :
    pushCalls buffer (calls ++ [call]) = (pushCalls buffer calls).bind (call.run buffer ·) := by
  rw [pushCalls, run_append]
  congr 1
  funext state
  simp [run]

/-- **A sequence of calls** that counts no further than an `int` is that on the bounded
buffer. -/
theorem pushCalls_represents {buffer : WriteBuffer} (calls : List PushCall) :
    CountsFit buffer.size calls → ∃ left, pushCalls buffer calls = some left ∧
      Represents buffer left (calls.foldl PushCall.push (blobBuf buffer.size)) := by
  induction calls using List.reverseRecOn with
  | nil => exact fun _ => ⟨_, rfl, represents_unused buffer⟩
  | append_singleton calls call ih =>
      intro fit
      obtain ⟨middle, stored, represents⟩ := ih fun before other isPrefix =>
        fit before other (isPrefix.trans (List.prefix_append _ _))
      have countable : ∀ filled, calls.foldl PushCall.push (blobBuf buffer.size) = some filled →
          call.Countable filled.room := by
        intro filled same
        obtain ⟨written, room⟩ := writtenText_of_foldl same
        rw [room]
        exact fit calls call (List.prefix_refl _) _ written
      obtain ⟨after, called, represented⟩ := represents.call countable
      refine ⟨after, by rw [pushCalls_concat, stored]; exact called, ?_⟩
      rw [List.foldl_append]
      exact represented

theorem pushedExactly_of_fit {buffer : WriteBuffer} {calls : List PushCall}
    (fit : CountsFit buffer.size calls) : PushedExactly buffer calls := by
  intro before isPrefix
  obtain ⟨left, stored, represents⟩ := pushCalls_represents before fun first call inside =>
    fit first call (inside.trans isPrefix)
  exact ⟨left, stored, by rw [represents.pushed, blobPushed_foldl]⟩

theorem fit_of_pushedExactly {buffer : WriteBuffer} (calls : List PushCall) :
    PushedExactly buffer calls → CountsFit buffer.size calls := by
  induction calls using List.reverseRecOn with
  | nil =>
      intro _ before call isPrefix
      simp at isPrefix
  | append_singleton calls call ih =>
      intro exactly before other isPrefix
      have earlier := ih fun first inside => exactly first (inside.trans (List.prefix_append _ _))
      rcases List.prefix_concat_iff.mp isPrefix with whole | inside
      · obtain ⟨rfl, last⟩ := List.append_inj' whole rfl
        obtain rfl : other = call := List.cons.inj last |>.1
        obtain ⟨state, stored, represents⟩ := pushCalls_represents before earlier
        intro written fits
        obtain ⟨filled, full⟩ : ∃ filled,
            before.foldl PushCall.push (blobBuf buffer.size) = some filled := by
          rw [← blobPushed_foldl] at fits
          obtain ⟨filled, full, -⟩ := Option.map_eq_some_iff.mp fits
          exact ⟨filled, full⟩
        obtain ⟨sameWritten, room⟩ := writtenText_of_foldl full
        obtain rfl : filled.content = written := Option.some.inj (sameWritten.symm.trans fits)
        rw [← room]
        by_contra uncountable
        obtain ⟨left, called, result⟩ := exactly (before ++ [other]) (List.prefix_refl _)
        rw [pushCalls_concat, stored, Option.bind_some] at called
        rw [full] at represents
        refine represents.uncountable uncountable called ?_
        rw [result, ← blobPushed_foldl, List.foldl_append, full]
        rfl
      · exact earlier before other inside

/-- **When the writer is exact**: when every call that is made without an overflow before
counts no further than an `int`, that is, dumps fewer than 2^31 bytes and writes fewer than
2^31 characters of base64, or gives up. -/
theorem pushedExactly_iff (buffer : WriteBuffer) (calls : List PushCall) :
    PushedExactly buffer calls ↔ CountsFit buffer.size calls :=
  ⟨fit_of_pushedExactly calls, pushedExactly_of_fit⟩

/-- On sources of less than a gigabyte the writer is exact. -/
theorem pushedExactly_of_small {buffer : WriteBuffer} {calls : List PushCall}
    (small : ∀ binary beyond, .hexdump binary ∈ calls ∨ .base64 binary beyond ∈ calls →
      binary.length < 2 ^ 30) : PushedExactly buffer calls := by
  refine pushedExactly_of_fit fun before call isPrefix written _ => ?_
  have member : call ∈ calls := isPrefix.subset (by simp)
  cases call with
  | hexdump binary =>
      have bound := small binary [] (.inl member)
      intro _
      simp only [intMax]
      omega
  | base64 binary beyond =>
      have bound := small binary beyond (.inr member)
      refine .inl ?_
      simp only [base64Length, intMax]
      omega
  | _ => exact trivial

/-- 1610612734 bytes have a base64 text of 2^31 characters, and `needed` is negative: the text
is written behind a buffer of one byte. -/
theorem not_pushedExactly_base64 :
    ¬ PushedExactly ⟨4096, [0], by decide⟩ [.base64 (List.replicate 1610612734 0) []] := by
  intro exactly
  have fit := fit_of_pushedExactly _ exactly [] (.base64 (List.replicate 1610612734 0) [])
    (List.prefix_refl _) [] rfl
  have length : base64Length (List.replicate 1610612734 0) = 2147483648 := by
    rw [base64Length, List.length_replicate]
  rw [PushCall.Countable, length] at fit
  revert fit
  decide

end AriannaLinux.Apk
