import AriannaLinux.Apk.Archive
import AriannaLinux.Apk.BlobRoundTrip
import AriannaLinux.Apk.Io.Pieces

/-! # Writing tar archives

The header record of a tar archive and `apk_tar_write_entry`, which writes regular files: a
header, the content, and the padding behind it.
-/

namespace AriannaLinux.Apk

/-- The digits `put_octal` writes: the last ones of a number, as many as there is room for. -/
def octalDigits : ℕ → ℕ → Bytes
  | 0, _ => []
  | room + 1, value => octalDigits room (value / 8) ++ [ascii '0' + UInt8.ofNat (value % 8)]

/-- `put_octal`. -/
def putOctal (size value : ℕ) : Bytes := octalDigits (size - 1) value ++ [0]

/-- `strncpy` of a C string into a field. -/
def strncpy (s : Bytes) (size : ℕ) : Bytes := s.take size ++ List.replicate (size - s.length) 0

@[simp] theorem octalDigits_length (room value : ℕ) : (octalDigits room value).length = room := by
  induction room generalizing value with
  | zero => rfl
  | succ room ih => rw [octalDigits, List.length_append, ih, List.length_singleton]

@[simp] theorem putOctal_length (size value : ℕ) : (putOctal (size + 1) value).length = size + 1 := by
  rw [putOctal, List.length_append, octalDigits_length, List.length_singleton, Nat.add_sub_cancel]

@[simp] theorem strncpy_length (s : Bytes) (size : ℕ) : (strncpy s size).length = size := by
  rw [strncpy, List.length_append, List.length_take, List.length_replicate]
  omega

/-- A field that was cleared. -/
def cleared (size : ℕ) : Bytes := List.replicate size 0

/-- `struct tar_header`. -/
structure TarHeader where
  name : Bytes := cleared 100
  mode : Bytes := cleared 8
  uid : Bytes := cleared 8
  gid : Bytes := cleared 8
  size : Bytes := cleared 12
  mtime : Bytes := cleared 12
  chksum : Bytes := cleared 8
  typeflag : UInt8 := 0
  linkname : Bytes := cleared 100
  magic : Bytes := cleared 8
  uname : Bytes := cleared 32
  gname : Bytes := cleared 32
  devmajor : Bytes := cleared 8
  devminor : Bytes := cleared 8
  before : Bytes := cleared 155
  padding : Bytes := cleared 12
  deriving DecidableEq, Repr

namespace TarHeader

/-- The record of a header. -/
def bytes (buf : TarHeader) : Bytes :=
  buf.name ++ buf.mode ++ buf.uid ++ buf.gid ++ buf.size ++ buf.mtime ++ buf.chksum ++
    buf.typeflag :: buf.linkname ++ buf.magic ++ buf.uname ++ buf.gname ++ buf.devmajor ++
    buf.devminor ++ buf.before ++ buf.padding

/-- `apk_tar_write_entry`, the checksum of a header. -/
def withChecksum (buf : TarHeader) : TarHeader :=
  let buf := { buf with chksum := List.replicate 8 (ascii ' ') }
  let chksum := (buf.bytes.map UInt8.toNat).sum
  { buf with chksum := putOctal 7 chksum ++ [ascii ' '] }

/-- `apk_tar_write_entry`, the header of an entry; `now` is the time of the call. -/
def ofEntry (now : ℕ) (ae : FileInfo) : TarHeader :=
  withChecksum
    { name := strncpy ae.name 100
      mode := putOctal 8 (ae.mode % 0o10000)
      uid := putOctal 8 ae.uid
      gid := putOctal 8 ae.gid
      size := putOctal 12 (toUnsigned 64 ae.size)
      mtime := putOctal 12 (if ae.mtime = 0 then now else toUnsigned 64 ae.mtime)
      typeflag := ascii '0'
      magic := text "ustar  " ++ [0]
      uname := strncpy ae.uname 32
      gname := strncpy ae.gname 32 }

/-- The fields have the sizes of the record. -/
structure Sized (buf : TarHeader) : Prop where
  name : buf.name.length = 100 := by simp [cleared]
  mode : buf.mode.length = 8 := by simp [cleared]
  uid : buf.uid.length = 8 := by simp [cleared]
  gid : buf.gid.length = 8 := by simp [cleared]
  size : buf.size.length = 12 := by simp [cleared]
  mtime : buf.mtime.length = 12 := by simp [cleared]
  chksum : buf.chksum.length = 8 := by simp [cleared]
  linkname : buf.linkname.length = 100 := by simp [cleared]
  magic : buf.magic.length = 8 := by simp [cleared]
  uname : buf.uname.length = 32 := by simp [cleared]
  gname : buf.gname.length = 32 := by simp [cleared]
  devmajor : buf.devmajor.length = 8 := by simp [cleared]
  devminor : buf.devminor.length = 8 := by simp [cleared]
  before : buf.before.length = 155 := by simp [cleared]
  padding : buf.padding.length = 12 := by simp [cleared]

theorem Sized.withChecksum {buf : TarHeader} (sized : buf.Sized) : buf.withChecksum.Sized :=
  { sized with chksum := by simp [TarHeader.withChecksum] }

theorem ofEntry_sized (now : ℕ) (ae : FileInfo) : (ofEntry now ae).Sized :=
  Sized.withChecksum { magic := by dsimp only; decide }

/-! What the reader finds in the fields of a record. -/

/-- The name field runs on into the mode field. -/
theorem string_name (buf : TarHeader) : ∃ rest, buf.bytes = buf.name ++ (buf.mode ++ rest) :=
  ⟨_, by simp only [bytes, List.append_assoc]; rfl⟩

section Fields

variable {buf : TarHeader} (sized : buf.Sized)

include sized

theorem Sized.length : buf.bytes.length = 512 := by
  simp only [bytes, List.length_append, List.length_cons, sized.name, sized.mode, sized.uid,
    sized.gid, sized.size, sized.mtime, sized.chksum, sized.linkname, sized.magic, sized.uname,
    sized.gname, sized.devmajor, sized.devminor, sized.before, sized.padding]

theorem Sized.field_mode : tarField buf.bytes 100 8 = buf.mode := by
  obtain ⟨rest, split⟩ := string_name buf
  rw [tarField, split, List.drop_left' sized.name, List.take_left' sized.mode]

theorem Sized.field_size : tarField buf.bytes 124 12 = buf.size := by
  have before : (buf.name ++ buf.mode ++ buf.uid ++ buf.gid).length = 124 := by
    simp only [List.length_append, sized.name, sized.mode, sized.uid, sized.gid]
  obtain ⟨rest, split⟩ : ∃ rest, buf.bytes =
      (buf.name ++ buf.mode ++ buf.uid ++ buf.gid) ++ (buf.size ++ rest) :=
    ⟨_, by simp only [bytes, List.append_assoc]; rfl⟩
  rw [tarField, split, List.drop_left' before, List.take_left' sized.size]

theorem Sized.typeflag_eq : tarTypeflag buf.bytes = buf.typeflag := by
  have before : (buf.name ++ buf.mode ++ buf.uid ++ buf.gid ++ buf.size ++ buf.mtime ++
      buf.chksum).length = 156 := by
    simp only [List.length_append, sized.name, sized.mode, sized.uid, sized.gid, sized.size,
      sized.mtime, sized.chksum]
  obtain ⟨rest, split⟩ : ∃ rest, buf.bytes = (buf.name ++ buf.mode ++ buf.uid ++ buf.gid ++
      buf.size ++ buf.mtime ++ buf.chksum) ++ buf.typeflag :: rest :=
    ⟨_, by simp only [bytes, List.append_assoc, List.cons_append]; rfl⟩
  rw [tarTypeflag, split, List.getD_eq_getElem?_getD,
    List.getElem?_append_right (Nat.le_of_eq before), before]
  rfl

end Fields

end TarHeader

/-- `apk_tar_write_padding`. -/
def tarPadding (size : ℕ) : Bytes := if size % 512 = 0 then [] else cleared (512 - size % 512)

/-! ## Numbers in a header -/

/-- The digits of `octalDigits` as numbers. -/
def octals : ℕ → ℕ → List ℕ
  | 0, _ => []
  | room + 1, value => octals room (value / 8) ++ [value % 8]

theorem octals_lt (room value : ℕ) : ∀ d ∈ octals room value, d < 8 := by
  induction room generalizing value with
  | zero => simp [octals]
  | succ room ih =>
      intro d member
      rcases List.mem_append.mp member with earlier | last
      · exact ih _ d earlier
      · rw [List.mem_singleton.mp last]
        exact Nat.mod_lt _ (by norm_num)

theorem octalDigits_eq (room value : ℕ) : octalDigits room value = (octals room value).map xd := by
  have digit : ∀ d < 8, ascii '0' + UInt8.ofNat d = xd d := by decide
  induction room generalizing value with
  | zero => rfl
  | succ room ih =>
      rw [octalDigits, octals, List.map_append, ih, digit _ (Nat.mod_lt _ (by norm_num)),
        List.map_singleton]

theorem octals_foldl {room value : ℕ} (fits : value < 8 ^ room) (small : value < 2 ^ 32) :
    (octals room value).foldl (fun v d => (v * 8 + d) % 2 ^ 32) 0 = value := by
  induction room generalizing value with
  | zero =>
      rw [Nat.pow_zero] at fits
      rw [octals, List.foldl_nil]
      omega
  | succ room ih =>
      rw [Nat.pow_succ] at fits
      rw [octals, List.foldl_append, ih (by omega) (by omega), List.foldl_cons, List.foldl_nil]
      omega

/-- **A number that fits its field is read back.** -/
theorem getOctal_putOctal {buf : Bytes} {offset size value : ℕ}
    (field : tarField buf offset (size + 1) = putOctal (size + 1) value) (fits : value < 8 ^ size)
    (small : value < 2 ^ 31) : getOctal buf offset (size + 1) = value := by
  have count : (octals size value).length = size := by
    have length := octalDigits_length size value
    rwa [octalDigits_eq, List.length_map] at length
  have digits := pullUintLoop_digits (show 8 ≤ 16 by norm_num) (octals size value)
    (octals_lt size value) [0] (size + 1) (by rw [count]; omega) 0
  have stops : NumberEnds 8 [0] (size + 1 - (octals size value).length) :=
    .inr ⟨0, [], rfl, fun ch digit => absurd digit (by decide +revert)⟩
  rw [pullUintLoop_stop _ stops, octals_foldl fits (by omega)] at digits
  rw [getOctal, field, putOctal, Nat.add_sub_cancel, octalDigits_eq]
  simp only [pullUint, Blob.ofBytes, List.append_nil, List.length_append, List.length_map, count,
    List.length_singleton, Nat.cast_add, Nat.cast_one, digits]
  rw [if_pos small]

/-! ## Writing entries -/

section Write

variable {Stream : Type*} (write : Stream → Bytes → Option (ℤ × Stream))

/-- `apk_tar_write_padding`. -/
def tarWritePadding (size : ℕ) (os : Stream) : Option (ℤ × Stream) :=
  let pad := 512 - size % 512
  if pad ≠ 512 then writeOrFail write (cleared pad) (fun os => some (0, os)) os else some (0, os)

/-- `apk_tar_write_entry`. Without an entry it ends the archive; `data` is the memory behind
the pointer, as many bytes as the entry's size says. -/
def tarWriteEntry (now : ℕ) (ae : Option FileInfo) (data : Option Bytes) (os : Stream) :
    Option (ℤ × Stream) :=
  match ae with
  | none =>
      writeOrFail write (cleared 512) (writeOrFail write (cleared 512) fun os => some (0, os)) os
  | some ae =>
      if ae.mode &&& modeFormat ≠ modeRegular then some (-1, os)
      else
        writeOrFail write (TarHeader.ofEntry now ae).bytes
          (match data with
            | none => fun os => some (0, os)
            | some data => writeOrFail write data (tarWritePadding write data.length)) os

theorem tarWritePadding_writes (size : ℕ) :
    Writes write (tarWritePadding write size)
      (if size % 512 = 0 then [] else [some (tarPadding size)]) := by
  intro os
  unfold tarWritePadding tarPadding
  dsimp only
  by_cases whole : size % 512 = 0
  · rw [if_neg (by omega), if_pos whole]
    rfl
  · rw [if_pos (by omega), if_neg whole, if_neg whole]
    exact (Writes.done (Int.le_refl 0)).writeOrFail _ os

theorem tarWriteEntry_writes (now : ℕ) {ae : FileInfo} (regular : ae.mode &&& modeFormat = modeRegular)
    (data : Bytes) :
    Writes write (tarWriteEntry write now (some ae) (some data))
      (some (TarHeader.ofEntry now ae).bytes :: some data ::
        if data.length % 512 = 0 then [] else [some (tarPadding data.length)]) := by
  intro os
  unfold tarWriteEntry
  dsimp only
  rw [if_neg (not_not_intro regular)]
  exact ((tarWritePadding_writes write data.length).writeOrFail _).writeOrFail _ os

theorem tarWriteEntry_end_writes (now : ℕ) (data : Option Bytes) :
    Writes write (tarWriteEntry write now none data) [some (cleared 512), some (cleared 512)] :=
  ((Writes.done (Int.le_refl 0)).writeOrFail _).writeOrFail _

end Write

end AriannaLinux.Apk
