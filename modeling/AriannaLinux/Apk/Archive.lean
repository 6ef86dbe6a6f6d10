import AriannaLinux.Apk.BlobText
import AriannaLinux.Apk.Io.Root

/-! # Tar archives

The reader of `archive.c`: 512-byte header records, the entry they describe, and the
content behind them, handed to an entry callback and then skipped up to the next record.
The callback reads the content through a stream of its own that stops at the entry's end.
-/

namespace AriannaLinux.Apk

/-- What the reader gets from outside: the user and group tables, looked up by name with a
default, and the digest `apk_checksum_default ()`. -/
structure TarEnv where
  resolveUid : Bytes → ℕ → ℕ
  resolveGid : Bytes → ℕ → ℕ
  checksumDefault : Bytes → Bytes

/-- `struct apk_tar_entry_istream`, next to the checksum of the entry it may fill in: when
`csum` points to it, `digested` is what went into the digest. -/
structure TarEntry (σ : Type*) where
  tar : σ
  bytesLeft : ℕ
  digested : Option Bytes
  csum : Checksum

variable {σ : Type*}

/-- `tar_entry_read`. -/
def tarEntryRead (read : ReadFunction σ) (env : TarEnv) : ReadFunction (TarEntry σ) :=
  fun teis size =>
    let size := min size teis.bytesLeft
    if size = 0 then some ⟨0, [], teis⟩
    else
      (read teis.tar size).map fun ⟨r, stored, tar⟩ =>
        if r < 0 then ⟨r, stored, { teis with tar }⟩
        else
          let teis := { teis with tar, bytesLeft := teis.bytesLeft - r.toNat }
          match teis.digested with
          | none => ⟨r, stored, teis⟩
          | some bytes =>
              let bytes := bytes ++ stored
              let csum :=
                if teis.bytesLeft = 0 then
                  (teis.csum.setType checksumSha1).store (env.checksumDefault bytes)
                else teis.csum
              ⟨r, stored, { teis with digested := some bytes, csum }⟩

/-! ## Header records -/

/-- A field of `struct tar_header`. -/
def tarField (buf : Bytes) (offset size : ℕ) : Bytes := (buf.drop offset).take size

/-- `get_octal`: the `unsigned int` pulled from the field, as an `int`. -/
def getOctal (buf : Bytes) (offset size : ℕ) : ℤ :=
  let value := (pullUint (some (Blob.ofBytes (tarField buf offset size) [])) 8).1
  if value < 2 ^ 31 then value else value - 2 ^ 32

/-- A field that is read as a C string may run on into the fields behind it. -/
def tarString (buf : Bytes) (offset : ℕ) : Bytes := cString (buf.drop offset)

/-- `buf.typeflag`. -/
def tarTypeflag (buf : Bytes) : UInt8 := buf.getD 156 0

/-- `struct apk_tar_digest_info` at an offset: the digest size, if it is one that fits. -/
def tarDigestSize (buf : Bytes) (offset : ℕ) : Option ℕ :=
  let size := (buf.getD (offset + 6) 0).toNat + 256 * (buf.getD (offset + 7) 0).toNat
  if tarField buf offset 4 = text "APK2" ∧ size ≤ 20 then some size else none

/-- `apk_tar_parse`, the fields every entry has. -/
def tarHeader (env : TarEnv) (buf : Bytes) : FileInfo :=
  let uname := tarString buf 265
  let gname := tarString buf 297
  let csum :=
    match tarDigestSize buf 329 with
    | some size => (Checksum.zero.setType size).store (tarField buf 337 8 ++ tarField buf 500 12)
    | none => .zero
  { size := getOctal buf 124 12
    uid := env.resolveUid uname (toUnsigned 32 (getOctal buf 108 8))
    gid := env.resolveGid gname (toUnsigned 32 (getOctal buf 116 8))
    mode := toUnsigned 12 (getOctal buf 100 8)
    mtime := getOctal buf 136 12
    uname, gname, csum
    device := (toUnsigned 32 (getOctal buf 329 8), toUnsigned 32 (getOctal buf 337 8)) }

/-- `apk_tar_parse`, the switch on the type of the entry; the second component says
whether the content is to be digested. -/
def tarTyped (env : TarEnv) (softChecksums : Bool) (buf : Bytes) (entry : FileInfo) :
    FileInfo × Bool :=
  let flag := tarTypeflag buf
  let linkTarget := some (tarString buf 157)
  if flag = ascii '0' ∨ flag = ascii '7' then
    let entry := { entry with mode := entry.mode ||| modeRegular }
    if entry.csum.type = checksumNone then
      match tarDigestSize buf 160 with
      | some size =>
          ({ entry with csum := (entry.csum.setType size).store (tarField buf 168 size) }, false)
      | none => (entry, softChecksums)
    else (entry, false)
  else if flag = ascii '1' then
    ({ entry with mode := entry.mode ||| modeRegular, linkTarget }, false)
  else if flag = ascii '2' then
    let entry := { entry with mode := entry.mode ||| modeSymlink, linkTarget }
    if entry.csum.type = checksumNone ∧ softChecksums then
      let digest := env.checksumDefault (tarString buf 157)
      ({ entry with csum := (entry.csum.store digest).setType checksumSha1 }, false)
    else (entry, false)
  else if flag = ascii '3' then ({ entry with mode := entry.mode ||| modeCharDevice }, false)
  else if flag = ascii '4' then ({ entry with mode := entry.mode ||| modeBlockDevice }, false)
  else if flag = ascii '5' then ({ entry with mode := entry.mode ||| modeDirectory }, false)
  else (entry, false)

/-! ## The parser -/

/-- `apk_archive_entry_parser`: the entry and its content stream. -/
abbrev EntryParser (σ : Type*) := TarEntry σ → FileInfo → Option (ℤ × TarEntry σ)

/-- The local state of `apk_tar_parse`. -/
structure TarState (σ : Type*) where
  tar : σ
  offset : ℕ := 0
  ended : Bool := false
  name : Option Bytes := none

/-- `toskip`: the rest of the content and the padding behind it, from some offset on. -/
def tarToskip (offset bytesLeft : ℕ) : ℕ :=
  if (offset + bytesLeft) % 512 ≠ 0 then
    (bytesLeft + (512 - (offset + bytesLeft) % 512)) % 2 ^ 64
  else bytesLeft

/-- `apk_tar_parse`, the skip to the next record. Reading into NULL skips; its result is
not looked at. -/
def tarSkip (read : ReadFunction σ) (s : TarState σ) (size bytesLeft : ℕ) :
    Option (ℤ × TarState σ) :=
  let offset := (s.offset + (size - bytesLeft)) % 2 ^ 64
  let toskip := tarToskip offset bytesLeft
  let s := { s with offset := (offset + toskip) % 2 ^ 64 }
  if toskip = 0 then some (0, s)
  else (istreamSkip read toskip s.tar).map fun (_, tar) => (0, { s with tar })

/-- `apk_tar_parse`, the content of an entry: the callback, if the entry has a type, and
the skip. -/
def tarContent (read : ReadFunction σ) (parser : EntryParser σ) (buf : Bytes)
    (s : TarState σ) (entry : FileInfo) (digests : Bool) : Option (ℤ × TarState σ) :=
  let size := toUnsigned 64 entry.size
  if entry.mode &&& modeFormat ≠ 0 then
    let name := s.name.getD (tarString buf 0)
    let teis : TarEntry σ :=
      ⟨s.tar, size, if digests then some [] else none, entry.csum⟩
    (parser teis { entry with name }).bind fun (r, teis) =>
      let s := { s with tar := teis.tar, name := none }
      if r ≠ 0 then some (r, s) else tarSkip read s size teis.bytesLeft
  else tarSkip read s size size

/-- `apk_tar_parse`, one record that is not empty; a result other than 0 ends the parse. -/
def tarRecord (read : ReadFunction σ) (env : TarEnv) (parser : EntryParser σ)
    (softChecksums : Bool) (buf : Bytes) (s : TarState σ) : Option (ℤ × TarState σ) :=
  let entry := tarHeader env buf
  if tarTypeflag buf = ascii 'L' then
    -- a name of negative length is written in front of a NULL buffer
    if entry.size < 0 then none
    else
      (read s.tar entry.size.toNat).bind fun ⟨_, stored, tar⟩ =>
        let offset := (s.offset + entry.size.toNat) % 2 ^ 64
        tarSkip read { s with tar, offset, name := some (cString stored) } 0 0
  else
    let (entry, digests) := tarTyped env softChecksums buf entry
    tarContent read parser buf s entry digests

/-- `apk_tar_parse`, the result when no whole record could be read. -/
def tarResult (r : ℤ) : ℤ := if 0 < r then ebadmsg else r

/-- `apk_tar_parse`, the records behind the end of the archive. -/
def tarDrain (read : ReadFunction σ) : ℕ → σ → Option (ℤ × σ)
  | 0, _ => none
  | fuel + 1, tar =>
      (read tar 512).bind fun ⟨r, buf, tar⟩ =>
        if r ≠ 512 then some (tarResult r, tar)
        else if buf.head? ≠ some 0 then some (ebadmsg, tar)
        else tarDrain read fuel tar

/-- The loop of `apk_tar_parse`. -/
def tarLoop (read : ReadFunction σ) (env : TarEnv) (parser : EntryParser σ)
    (softChecksums : Bool) : ℕ → TarState σ → Option (ℤ × σ)
  | 0, _ => none
  | fuel + 1, s =>
      (read s.tar 512).bind fun ⟨r, buf, tar⟩ =>
        if r ≠ 512 then some (tarResult r, tar)
        else
          let s := { s with tar, offset := (s.offset + 512) % 2 ^ 64 }
          if buf.head? = some 0 then
            if s.ended then tarDrain read fuel tar
            else tarLoop read env parser softChecksums fuel { s with ended := true }
          else
            (tarRecord read env parser softChecksums buf s).bind fun (r, s) =>
              if r ≠ 0 then some (r, s.tar)
              else tarLoop read env parser softChecksums fuel s

/-- `apk_tar_parse`. The archive may go on for ever, so the records are counted. -/
def tarParse (read : ReadFunction σ) (env : TarEnv) (parser : EntryParser σ)
    (softChecksums : Bool) (fuel : ℕ) (tar : σ) : Option (ℤ × σ) :=
  tarLoop read env parser softChecksums fuel { tar }

/-! ## The calls a parse makes -/

/-- The callback, without a result for calls that are not allowed. -/
def EntryParser.only (parser : EntryParser σ) (allowed : TarEntry σ → FileInfo → Bool) :
    EntryParser σ :=
  fun teis entry => if allowed teis entry then parser teis entry else none

/-- A parse only makes calls that are allowed: no other result of the callback is missed. -/
def TarCalls (read : ReadFunction σ) (env : TarEnv) (parser : EntryParser σ) (softChecksums : Bool)
    (allowed : TarEntry σ → FileInfo → Bool) (fuel : ℕ) (tar : σ) : Prop :=
  tarParse read env (parser.only allowed) softChecksums fuel tar =
    tarParse read env parser softChecksums fuel tar

section Calls

variable {read : ReadFunction σ} {env : TarEnv} {parser : EntryParser σ} {softChecksums : Bool}
  {allowed : TarEntry σ → FileInfo → Bool}

theorem EntryParser.only_eq_some {teis : TarEntry σ} {entry : FileInfo} {out : ℤ × TarEntry σ} :
    parser.only allowed teis entry = some out ↔
      allowed teis entry = true ∧ parser teis entry = some out := by
  unfold EntryParser.only
  split
  case isTrue here => simp only [here, true_and]
  case isFalse refused => simp only [refused, false_and, reduceCtorEq, Bool.false_eq_true]

/-- Every parse only makes calls when all are allowed. -/
theorem TarCalls.all {fuel : ℕ} {tar : σ} :
    TarCalls read env parser softChecksums (fun _ _ => true) fuel tar := rfl

theorem tarRecord_of_only {buf : Bytes} {s : TarState σ} {out : ℤ × TarState σ}
    (parsed : tarRecord read env (parser.only allowed) softChecksums buf s = some out) :
    tarRecord read env parser softChecksums buf s = some out := by
  unfold tarRecord tarContent at parsed ⊢
  by_cases long : tarTypeflag buf = ascii 'L'
  · rw [if_pos long] at parsed ⊢
    exact parsed
  · rw [if_neg long] at parsed ⊢
    dsimp only at parsed ⊢
    by_cases typed : (tarTyped env softChecksums buf (tarHeader env buf)).1.mode &&& modeFormat ≠ 0
    · rw [if_pos typed] at parsed ⊢
      obtain ⟨result, called, parsed⟩ := Option.bind_eq_some_iff.mp parsed
      rw [(EntryParser.only_eq_some.mp called).2]
      exact parsed
    · rw [if_neg typed] at parsed ⊢
      exact parsed

/-- A parse that gets its result from calls that are allowed makes no other. -/
theorem TarCalls.of_isSome {fuel : ℕ} {tar : σ}
    (ends : (tarParse read env (parser.only allowed) softChecksums fuel tar).isSome) :
    TarCalls read env parser softChecksums allowed fuel tar := by
  have loop : ∀ fuel s out,
      tarLoop read env (parser.only allowed) softChecksums fuel s = some out →
      tarLoop read env parser softChecksums fuel s = some out := by
    intro fuel
    induction fuel with
    | zero => exact fun _ _ looped => looped
    | succ fuel ih =>
        intro s out looped
        rw [tarLoop] at looped ⊢
        obtain ⟨⟨r, buf, tar⟩, reads, looped⟩ := Option.bind_eq_some_iff.mp looped
        rw [reads, Option.bind_some]
        dsimp only at looped ⊢
        by_cases short : r ≠ 512
        · rw [if_pos short] at looped ⊢
          exact looped
        rw [if_neg short] at looped ⊢
        by_cases empty : buf.head? = some 0
        · rw [if_pos empty] at looped ⊢
          by_cases second : s.ended
          · rw [if_pos second] at looped ⊢
            exact looped
          · rw [if_neg second] at looped ⊢
            exact ih _ _ looped
        · rw [if_neg empty] at looped ⊢
          obtain ⟨⟨r, next⟩, parsed, looped⟩ := Option.bind_eq_some_iff.mp looped
          rw [tarRecord_of_only parsed, Option.bind_some]
          dsimp only at looped ⊢
          by_cases failed : r ≠ 0
          · rw [if_pos failed] at looped ⊢
            exact looped
          · rw [if_neg failed] at looped ⊢
            exact ih _ _ looped
  obtain ⟨out, parsed⟩ := Option.isSome_iff_exists.mp ends
  exact parsed.trans (loop fuel { tar } out parsed).symm

end Calls

/-! ## What a parse keeps -/

section Keeps

variable {read : ReadFunction σ} {env : TarEnv} {parser : EntryParser σ} {softChecksums : Bool}
  {P : σ → Prop}

/-- What every read of the archive keeps, a read of an entry's content keeps. -/
theorem tarEntryRead_keeps (keepsRead : ∀ s size out, P s → read s size = some out → P out.state)
    {teis : TarEntry σ} {size : ℕ} {out : Read (TarEntry σ)} (holds : P teis.tar)
    (reads : tarEntryRead read env teis size = some out) : P out.state.tar := by
  unfold tarEntryRead at reads
  dsimp only at reads
  split at reads
  · cases reads
    exact holds
  · obtain ⟨inner, inside, rfl⟩ := Option.map_eq_some_iff.mp reads
    have after := keepsRead _ _ _ holds inside
    split
    · exact after
    · split <;> exact after

theorem tarSkip_keeps (keepsRead : ∀ s size out, P s → read s size = some out → P out.state)
    {s s' : TarState σ} {size bytesLeft : ℕ} {r : ℤ} (holds : P s.tar)
    (skipped : tarSkip read s size bytesLeft = some (r, s')) : r = 0 ∧ P s'.tar := by
  unfold tarSkip at skipped
  dsimp only at skipped
  split at skipped
  · cases skipped
    exact ⟨rfl, holds⟩
  · obtain ⟨⟨_, tar⟩, skips, pair⟩ := Option.map_eq_some_iff.mp skipped
    cases pair
    exact ⟨rfl, istreamSkip_keeps keepsRead holds skips⟩

theorem tarRecord_keeps (keepsRead : ∀ s size out, P s → read s size = some out → P out.state)
    (keepsParser : ∀ teis entry r teis', P teis.tar → parser teis entry = some (r, teis') →
      P teis'.tar)
    {buf : Bytes} {s s' : TarState σ} {r : ℤ} (holds : P s.tar)
    (parsed : tarRecord read env parser softChecksums buf s = some (r, s')) : P s'.tar := by
  unfold tarRecord at parsed
  dsimp only at parsed
  split at parsed
  · split at parsed
    · cases parsed
    · obtain ⟨out, reads, parsed⟩ := Option.bind_eq_some_iff.mp parsed
      have after := keepsRead _ _ _ holds reads
      exact (tarSkip_keeps keepsRead after parsed).2
  · unfold tarContent at parsed
    dsimp only at parsed
    split at parsed
    · obtain ⟨⟨r', teis⟩, called, parsed⟩ := Option.bind_eq_some_iff.mp parsed
      have after := keepsParser _ _ _ _ holds called
      dsimp only at parsed
      split at parsed
      · cases parsed
        exact after
      · exact (tarSkip_keeps keepsRead after parsed).2
    · exact (tarSkip_keeps keepsRead holds parsed).2

/-- A parse ends where a read of a whole record failed, or in an error. -/
theorem tarDrain_ends (keepsRead : ∀ s size out, P s → read s size = some out → P out.state)
    {fuel : ℕ} {tar final : σ} {r : ℤ} (holds : P tar)
    (drained : tarDrain read fuel tar = some (r, final)) :
    P final ∧ (r = 0 → ∃ s out, P s ∧ read s 512 = some out ∧ out.result = 0 ∧ out.state = final) := by
  induction fuel generalizing tar with
  | zero => cases drained
  | succ fuel ih =>
      rw [tarDrain] at drained
      obtain ⟨out, reads, drained⟩ := Option.bind_eq_some_iff.mp drained
      have after := keepsRead _ _ _ holds reads
      dsimp only at drained
      split at drained
      case isTrue =>
        cases drained
        refine ⟨after, fun zero => ⟨tar, out, holds, reads, ?_, rfl⟩⟩
        unfold tarResult ebadmsg at zero
        split at zero <;> omega
      case isFalse =>
        split at drained
        · cases drained
          exact ⟨after, fun zero => absurd zero (by decide)⟩
        · exact ih after drained

/-- **What a parse keeps.** What reads and the entry callback keep holds at the end, and
the result 0 means that a read of the next record gave nothing. -/
theorem tarParse_ends (keepsRead : ∀ s size out, P s → read s size = some out → P out.state)
    (keepsParser : ∀ teis entry r teis', P teis.tar → parser teis entry = some (r, teis') →
      P teis'.tar)
    {fuel : ℕ} {tar final : σ} {r : ℤ} (holds : P tar)
    (parsed : tarParse read env parser softChecksums fuel tar = some (r, final)) :
    P final ∧ (r = 0 → ∃ s out, P s ∧ read s 512 = some out ∧ out.result = 0 ∧ out.state = final) := by
  have loop : ∀ fuel s, P s.tar →
      tarLoop read env parser softChecksums fuel s = some (r, final) →
      P final ∧
        (r = 0 → ∃ s out, P s ∧ read s 512 = some out ∧ out.result = 0 ∧ out.state = final) := by
    intro fuel
    induction fuel with
    | zero =>
        intro s _ looped
        cases looped
    | succ fuel ih =>
        intro s holds looped
        rw [tarLoop] at looped
        obtain ⟨out, reads, looped⟩ := Option.bind_eq_some_iff.mp looped
        have after := keepsRead _ _ _ holds reads
        dsimp only at looped
        split at looped
        case isTrue =>
          cases looped
          refine ⟨after, fun zero => ⟨s.tar, out, holds, reads, ?_, rfl⟩⟩
          unfold tarResult ebadmsg at zero
          split at zero <;> omega
        case isFalse =>
          split at looped
          · split at looped
            · exact tarDrain_ends keepsRead after looped
            · exact ih _ after looped
          · obtain ⟨⟨r', s'⟩, recorded, looped⟩ := Option.bind_eq_some_iff.mp looped
            have kept := tarRecord_keeps keepsRead keepsParser after recorded
            dsimp only at looped
            split at looped
            case isTrue failed =>
              cases looped
              exact ⟨kept, fun zero => absurd zero failed⟩
            case isFalse => exact ih _ kept looped
  exact loop fuel { tar } holds parsed

end Keeps

end AriannaLinux.Apk
