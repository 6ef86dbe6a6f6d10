import AriannaLinux.Apk.Io.FullReads
import AriannaLinux.Apk.TarWrite
import AriannaLinux.Apk.VersionSuffix

/-! # The framing of tar archives

An archive as a list of members, each a header record and its padded data, some with a
long name in front, and what an entry callback should see of it: every member of a type
that is delivered, once and in order, with the fields of its header and its own data. The
parse finds the next header whatever the callback has read. The name it hands on is not
always the member's: a long name in front of a member that is not delivered is kept for
the next one that is.
-/

namespace AriannaLinux.Apk

/-! ## Archives -/

/-- A header record: one that is not the empty record of the end. -/
structure TarBlock where
  bytes : Bytes
  length_eq : bytes.length = 512
  named : bytes.head? ≠ some 0

/-- The size of the content a header record declares. -/
def TarBlock.Declares (block : TarBlock) (content : Bytes) : Prop :=
  getOctal block.bytes 124 12 = content.length

instance (block : TarBlock) (content : Bytes) : Decidable (block.Declares content) :=
  inferInstanceAs (Decidable (_ = _))

/-- An 'L' record: the name of the member behind it. -/
structure LongName where
  block : TarBlock
  content : Bytes
  typed : tarTypeflag block.bytes = ascii 'L'
  declared : block.Declares content

/-- An entry of an archive. -/
structure TarMember where
  longName : Option LongName
  block : TarBlock
  data : Bytes
  typed : tarTypeflag block.bytes ≠ ascii 'L'
  declared : block.Declares data

/-- Content and the padding behind it. -/
def tarPadded (content : Bytes) : Bytes := content ++ tarPadding content.length

namespace TarMember

/-- The name of an entry. -/
def name (member : TarMember) : Bytes :=
  match member.longName with
  | some long => cString long.content
  | none => cString (tarField member.block.bytes 0 100)

/-- Without a long name the name ends within the name field. -/
def Fits (member : TarMember) : Prop :=
  member.longName = none → (0 : UInt8) ∈ tarField member.block.bytes 0 100

/-- The records of an entry. -/
def bytes (member : TarMember) : Bytes :=
  (match member.longName with
    | some long => long.block.bytes ++ tarPadded long.content
    | none => []) ++ (member.block.bytes ++ tarPadded member.data)

/-- A file entry: one of a type the callback is called for. -/
def Delivered (member : TarMember) : Prop :=
  tarTypeflag member.block.bytes ∈ text "0123457"

instance (member : TarMember) : Decidable member.Delivered :=
  inferInstanceAs (Decidable (_ ∈ _))

instance (member : TarMember) : Decidable member.Fits :=
  inferInstanceAs (Decidable (_ → _))

end TarMember

/-- An archive: its members, and two empty records. -/
def tarArchive (members : List TarMember) : Bytes :=
  members.flatMap TarMember.bytes ++ cleared 1024

/-! ## Entry callbacks -/

/-- What an entry callback does with the content of its entry: it reads, and goes on by the
result, by what was stored and by the checksum of the entry, and returns 0 at last. -/
inductive Consumer (C : Type) where
  | returns (ctx : C)
  | reads (size : ℕ) (next : Read Checksum → Consumer C)

variable {σ : Type*} {C : Type}

/-- A consumer at the content stream of an entry. -/
def Consumer.run (read : ReadFunction (TarEntry σ)) :
    Consumer C → TarEntry σ → Option (C × TarEntry σ)
  | .returns ctx, teis => some (ctx, teis)
  | .reads size next, teis =>
      (read teis size).bind fun ⟨r, stored, teis⟩ =>
        (next ⟨r, stored, teis.csum⟩).run read teis

/-- A stream next to something that its reads leave alone. -/
def pairRead (read : ReadFunction σ) : ReadFunction (σ × C) := fun (s, ctx) size =>
  (read s size).map fun ⟨r, stored, s⟩ => ⟨r, stored, (s, ctx)⟩

/-- A callback with a context of its own as a parser of entries. -/
def deliver (read : ReadFunction σ) (env : TarEnv) (callback : C → FileInfo → Consumer C) :
    EntryParser (σ × C) := fun teis entry =>
  ((callback teis.tar.2 entry).run (tarEntryRead (pairRead read) env) teis).map
    fun (ctx, teis) => (0, { teis with tar := (teis.tar.1, ctx) })

/-! ## What is offered -/

/-- A consumer at the data of an entry and nothing else; `left` is what is still to be
read. The last read completes the checksum, if the data is digested. -/
def Consumer.feed (env : TarEnv) (digests : Bool) (data : Bytes) :
    Consumer C → Bytes → Checksum → C
  | .returns ctx, _, _ => ctx
  | .reads size next, left, csum =>
      let stored := left.take size
      let csum :=
        if digests ∧ stored ≠ [] ∧ left.drop size = [] then
          (csum.setType checksumSha1).store (env.checksumDefault data)
        else csum
      (next ⟨stored.length, stored, csum⟩).feed env digests data (left.drop size) csum

/-- A callback at an entry that is given some name. -/
def TarMember.feed (env : TarEnv) (softChecksums : Bool) (callback : C → FileInfo → Consumer C)
    (ctx : C) (member : TarMember) (name : Bytes) : C :=
  let (entry, digests) :=
    tarTyped env softChecksums member.block.bytes (tarHeader env member.block.bytes)
  (callback ctx { entry with name }).feed env digests member.data member.data entry.csum

/-- What a callback makes of the file entries of an archive: one call for each, in order,
with its own name and data. -/
def offered (env : TarEnv) (softChecksums : Bool) (callback : C → FileInfo → Consumer C)
    (ctx : C) (members : List TarMember) : C :=
  (members.filter fun member => member.Delivered).foldl
    (fun ctx member => member.feed env softChecksums callback ctx member.name) ctx

/-- **The framing does not depend on the consumer.** Every stream that reads in full, every
callback and every context: the parse of the archive returns 0, and the callback has seen
what it should see. -/
def Framed (env : TarEnv) (softChecksums : Bool) (members : List TarMember) : Prop :=
  ∀ (σ C : Type) (read : ReadFunction σ) (rest : σ → Bytes), FullReads read rest →
    ∀ (callback : C → FileInfo → Consumer C) (ctx : C) (tar : σ),
      rest tar = tarArchive members → ∀ fuel, 2 * members.length + 3 ≤ fuel →
        ∃ final, tarParse (pairRead read) env (deliver read env callback) softChecksums fuel
          (tar, ctx) = some (0, (final, offered env softChecksums callback ctx members))

/-! ## Reads of the archive -/

/-- What a stream still holds, and the context next to it. -/
def Holds (rest : σ → Bytes) (bytes : Bytes) (ctx : C) (s : σ × C) : Prop :=
  rest s.1 = bytes ∧ s.2 = ctx

section Reads

variable {read : ReadFunction σ} {rest : σ → Bytes} (full : FullReads read rest)
  {bytes behind : Bytes} {ctx : C} {s : σ × C}

include full

theorem pairRead_holds (holds : Holds rest bytes ctx s) (size : ℕ) :
    ∃ s', pairRead read s size = some ⟨(bytes.take size).length, bytes.take size, s'⟩ ∧
      Holds rest (bytes.drop size) ctx s' := by
  obtain ⟨tar, context⟩ := s
  obtain ⟨rfl, rfl⟩ := holds
  obtain ⟨tar', reads, after⟩ := full tar size
  refine ⟨(tar', context), ?_, after, rfl⟩
  rw [pairRead, reads]
  rfl

/-- A read of what comes first. -/
theorem pairRead_front (holds : Holds rest (bytes ++ behind) ctx s) :
    ∃ s', pairRead read s bytes.length = some ⟨bytes.length, bytes, s'⟩ ∧
      Holds rest behind ctx s' := by
  obtain ⟨s', reads, after⟩ := pairRead_holds full holds bytes.length
  rw [List.take_left] at reads
  rw [List.drop_left] at after
  exact ⟨s', reads, after⟩

theorem pairRead_full : FullReads (pairRead read) fun s : σ × C => rest s.1 := by
  intro s size
  obtain ⟨s', reads, after, _⟩ := pairRead_holds full (show Holds rest _ s.2 s from ⟨rfl, rfl⟩) size
  exact ⟨s', reads, after⟩

theorem istreamSkip_holds (holds : Holds rest (bytes ++ behind) ctx s) :
    ∃ r s', istreamSkip (pairRead read) bytes.length s = some (r, s') ∧
      Holds rest behind ctx s' := by
  obtain ⟨r, s', skips, dropped⟩ := FullReads.istreamSkip (pairRead_full full) bytes.length s
  have kept : s'.2 = ctx := by
    refine istreamSkip_keeps (P := fun s : σ × C => s.2 = ctx) ?_ holds.2 skips
    intro s size out same reads
    obtain ⟨after, reads', _, context⟩ := pairRead_holds full (show Holds rest _ ctx s from ⟨rfl, same⟩) size
    rw [reads'] at reads
    cases reads
    exact context
  refine ⟨r, s', skips, ?_, kept⟩
  rw [dropped, holds.1, List.drop_left]

end Reads

/-! ## The content of an entry -/

/-- The content stream of an entry: `consumed` was read, `left` was not, and `behind` lies
behind the entry. -/
structure TarEntry.Offers (rest : σ → Bytes) (digests : Bool) (consumed left behind : Bytes)
    (ctx : C) (teis : TarEntry (σ × C)) : Prop where
  tar : Holds rest (left ++ behind) ctx teis.tar
  bytesLeft : teis.bytesLeft = left.length
  digested : teis.digested = if digests then some consumed else none

section Content

variable {read : ReadFunction σ} {rest : σ → Bytes} (full : FullReads read rest) (env : TarEnv)
  {digests : Bool} {behind : Bytes} {ctx : C}

include full

/-- A read of the content gives the entry's data and not a byte more. -/
theorem tarEntryRead_offers {consumed left : Bytes} {teis : TarEntry (σ × C)}
    (offers : teis.Offers rest digests consumed left behind ctx) (size : ℕ) :
    ∃ teis', tarEntryRead (pairRead read) env teis size =
        some ⟨(left.take size).length, left.take size, teis'⟩ ∧
      teis'.Offers rest digests (consumed ++ left.take size) (left.drop size) behind ctx ∧
      teis'.csum =
        if digests ∧ left.take size ≠ [] ∧ left.drop size = [] then
          (teis.csum.setType checksumSha1).store (env.checksumDefault (consumed ++ left))
        else teis.csum := by
  unfold tarEntryRead
  dsimp only
  rw [offers.bytesLeft]
  by_cases nothing : min size left.length = 0
  · have none : left.take size = [] := by
      rw [List.take_eq_nil_iff, ← List.length_eq_zero_iff]
      omega
    have all : left.drop size = left := by
      have whole := List.take_append_drop size left
      rwa [none, List.nil_append] at whole
    rw [if_pos nothing, none, all]
    refine ⟨teis, rfl, ?_, ?_⟩
    · rw [List.append_nil]
      exact offers
    · rw [if_neg fun chosen => chosen.2.1 rfl]
  · rw [if_neg nothing]
    obtain ⟨tar, reads, after⟩ := pairRead_holds full offers.tar (min size left.length)
    have front : (left ++ behind).take (min size left.length) = left.take size := by
      rw [List.take_append_of_le_length (Nat.min_le_right ..), ← List.take_take,
        List.take_length]
    have back : (left ++ behind).drop (min size left.length) = left.drop size ++ behind := by
      rw [List.drop_append_of_le_length (Nat.min_le_right ..)]
      rcases Nat.le_total size left.length with fits | more
      · rw [Nat.min_eq_left fits]
      · rw [Nat.min_eq_right more, List.drop_length, List.drop_eq_nil_of_le more]
    rw [front] at reads
    rw [back] at after
    have some : left.take size ≠ [] := by
      intro empty
      rw [List.take_eq_nil_iff, ← List.length_eq_zero_iff] at empty
      omega
    have count : left.length - ((left.take size).length : ℤ).toNat = (left.drop size).length := by
      rw [Int.toNat_natCast, List.length_take, List.length_drop]
      omega
    rw [reads, Option.map_some]
    dsimp only
    rw [if_neg (by omega), count, offers.digested]
    cases digests with
    | false => exact ⟨_, rfl, ⟨after, rfl, rfl⟩, by simp⟩
    | true =>
        refine ⟨_, rfl, ⟨after, rfl, rfl⟩, ?_⟩
        simp only [List.length_eq_zero_iff, true_and, some, ne_eq, not_false_eq_true]
        split
        · next ended =>
            have whole := List.take_append_drop size left
            rw [ended, List.append_nil] at whole
            rw [whole]
        · rfl

/-- What a consumer makes of the content stream is what it makes of the data; what it leaves
is the end of the data. -/
theorem Consumer.run_offers (consumer : Consumer C) {consumed left : Bytes}
    {teis : TarEntry (σ × C)} (offers : teis.Offers rest digests consumed left behind ctx) :
    ∃ teis', consumer.run (tarEntryRead (pairRead read) env) teis =
        some (consumer.feed env digests (consumed ++ left) left teis.csum, teis') ∧
      ∃ consumed' left', teis'.Offers rest digests consumed' left' behind ctx ∧
        left'.length ≤ left.length := by
  induction consumer generalizing consumed left teis with
  | returns final => exact ⟨teis, rfl, consumed, left, offers, Nat.le_refl _⟩
  | reads size next ih =>
      obtain ⟨read', reads, after, csum⟩ := tarEntryRead_offers full env offers size
      obtain ⟨teis', runs, consumed', left', offers', shorter⟩ :=
        ih ⟨(left.take size).length, left.take size, read'.csum⟩ after
      have whole : consumed ++ left.take size ++ left.drop size = consumed ++ left := by
        rw [List.append_assoc, List.take_append_drop]
      refine ⟨teis', ?_, consumed', left', offers', ?_⟩
      · rw [Consumer.run, reads, Option.bind_some]
        dsimp only
        rw [runs, whole, csum]
        rfl
      · rw [List.length_drop] at shorter
        omega

end Content

/-! ## Headers -/

theorem pullUintLoop_lt (radix : ℕ) (mem : Bytes) (len : ℤ) {val : ℕ} (small : val < 2 ^ 32) :
    (pullUintLoop radix mem len val).1 < 2 ^ 32 := by
  induction mem generalizing len val with
  | nil => exact small
  | cons c mem ih =>
      rw [pullUintLoop]
      split
      · exact small
      · split
        · exact small
        · split
          · exact small
          · exact ih _ (Nat.mod_lt _ (by norm_num))

theorem getOctal_lt (buf : Bytes) (offset size : ℕ) : getOctal buf offset size < 2 ^ 31 := by
  have small := pullUintLoop_lt 8 (tarField buf offset size)
    (Blob.ofBytes (tarField buf offset size) []).len (show 0 < 2 ^ 32 by norm_num)
  unfold getOctal
  dsimp only
  split
  · next below => exact_mod_cast below
  · simp only [pullUint, Blob.ofBytes, List.append_nil] at small ⊢
    omega

theorem TarBlock.Declares.length_lt {block : TarBlock} {content : Bytes}
    (declares : block.Declares content) : content.length < 2 ^ 31 := by
  have bound := getOctal_lt block.bytes 124 12
  rw [declares] at bound
  exact_mod_cast bound

theorem tarTyped_size (env : TarEnv) (softChecksums : Bool) (buf : Bytes) (entry : FileInfo) :
    (tarTyped env softChecksums buf entry).1.size = entry.size := by
  unfold tarTyped
  dsimp only
  repeat' split
  all_goals rfl

theorem tarTyped_regular (env : TarEnv) (softChecksums : Bool) {buf : Bytes}
    (regular : tarTypeflag buf = ascii '0') (entry : FileInfo) :
    (tarTyped env softChecksums buf entry).1.mode = entry.mode ||| modeRegular := by
  unfold tarTyped
  dsimp only
  rw [if_pos (.inl regular)]
  repeat' split
  all_goals rfl

/-- The format bits are above the permission bits. -/
theorem format_of_or {mode : ℕ} (plain : mode < 2 ^ 12) (format : ℕ) :
    (mode ||| format) &&& modeFormat = format &&& modeFormat := by
  have none : mode &&& modeFormat = 0 := by
    apply Nat.eq_of_testBit_eq
    intro i
    rw [Nat.testBit_and, Nat.zero_testBit, show modeFormat = 15 <<< 12 from rfl,
      Nat.testBit_shiftLeft]
    rcases Nat.lt_or_ge i 12 with low | high
    · simp only [Nat.not_le.mpr low, decide_false, Bool.false_and, Bool.and_false]
    · rw [Nat.testBit_lt_two_pow (Nat.lt_of_lt_of_le plain (Nat.pow_le_pow_right (by norm_num) high)),
        Bool.false_and]
  rw [Nat.and_or_distrib_right, none, Nat.zero_or]

/-- The callback is called for the types of file entries. -/
theorem tarTyped_delivers (env : TarEnv) (softChecksums : Bool) (buf : Bytes) {entry : FileInfo}
    (plain : entry.mode < 2 ^ 12) :
    (tarTyped env softChecksums buf entry).1.mode &&& modeFormat ≠ 0 ↔
      tarTypeflag buf ∈ text "0123457" := by
  have flags : text "0123457" =
      [ascii '0', ascii '1', ascii '2', ascii '3', ascii '4', ascii '5', ascii '7'] := by rfl
  have bits : entry.mode &&& modeFormat = 0 := by
    have same := format_of_or plain 0
    rwa [Nat.or_zero, Nat.zero_and] at same
  have formatted : ∀ format, format &&& modeFormat ≠ 0 →
      (entry.mode ||| format) &&& modeFormat ≠ 0 := by
    intro format some
    rwa [format_of_or plain]
  rw [flags]
  simp only [List.mem_cons, List.not_mem_nil, or_false]
  unfold tarTyped
  generalize tarTypeflag buf = flag
  dsimp only
  repeat' split
  all_goals first
    | exact iff_of_true (formatted _ (by decide)) (by tauto)
    | exact iff_of_false (fun chosen => chosen bits) (by tauto)

/-! ## The names that are handed on -/

namespace TarMember

/-- The long name that is kept at an entry, its own or an earlier one. -/
def namePending (pending : Option Bytes) (member : TarMember) : Option Bytes :=
  if member.longName.isSome then some member.name else pending

/-- The long name that is kept behind an entry. -/
def nameKept (pending : Option Bytes) (member : TarMember) : Option Bytes :=
  if member.Delivered then none else member.namePending pending

/-- The name the callback is given. -/
def nameGiven (pending : Option Bytes) (member : TarMember) : Bytes :=
  (member.namePending pending).getD (tarString member.block.bytes 0)

/-- The context behind an entry. -/
def contextAfter (env : TarEnv) (softChecksums : Bool) (callback : C → FileInfo → Consumer C)
    (pending : Option Bytes) (ctx : C) (member : TarMember) : C :=
  if member.Delivered then member.feed env softChecksums callback ctx (member.nameGiven pending)
  else ctx

/-- The name field is what the reader takes for the name. -/
theorem tarString_name {member : TarMember} (fits : member.Fits)
    (short : member.longName = none) : tarString member.block.bytes 0 = member.name := by
  have ends := fits short
  have split : member.block.bytes =
      tarField member.block.bytes 0 100 ++ member.block.bytes.drop 100 := by
    rw [tarField, List.drop_zero, List.take_append_drop]
  unfold name tarString
  rw [short, List.drop_zero]
  conv_lhs => rw [split, cString_append ends]

end TarMember

/-- The calls of the callback: the file entries, each with the name it is given. -/
def callsFrom (pending : Option Bytes) : List TarMember → List (TarMember × Bytes)
  | [] => []
  | member :: members =>
      if member.Delivered then
        (member, member.nameGiven pending) :: callsFrom (member.nameKept pending) members
      else callsFrom (member.nameKept pending) members

/-- What the callback makes of some calls. -/
def handOn (env : TarEnv) (softChecksums : Bool) (callback : C → FileInfo → Consumer C) (ctx : C)
    (calls : List (TarMember × Bytes)) : C :=
  calls.foldl (fun ctx call => call.1.feed env softChecksums callback ctx call.2) ctx

/-! ## The records -/

/-- The skip behind some content goes over what is left of it and over its padding. -/
theorem tarToskip_aligned {offset left size total : ℕ} (within : left ≤ size)
    (bounded : size < 2 ^ 63) (aligned : (offset + size) % 512 = total % 512) :
    tarToskip ((offset + (size - left)) % 2 ^ 64) left = left + (tarPadding total).length ∧
      ((offset + (size - left)) % 2 ^ 64 + (left + (tarPadding total).length)) % 2 ^ 64 % 512 =
        0 := by
  have padding : (tarPadding total).length = if total % 512 = 0 then 0 else 512 - total % 512 := by
    unfold tarPadding cleared
    split
    · rfl
    · rw [List.length_replicate]
  rw [padding]
  constructor
  · unfold tarToskip
    split <;> split <;> omega
  · split <;> omega

/-- The skip behind some content ends at the next record. -/
theorem tarSkip_aligns {read : ReadFunction σ} {rest : σ → Bytes} (full : FullReads read rest)
    {s : TarState (σ × C)} {left behind : Bytes} {ctx : C} {size total : ℕ}
    (holds : Holds rest (left ++ (tarPadding total ++ behind)) ctx s.tar)
    (within : left.length ≤ size) (bounded : size < 2 ^ 63)
    (aligned : (s.offset + size) % 512 = total % 512) :
    ∃ s', tarSkip (pairRead read) s size left.length = some (0, s') ∧
      Holds rest behind ctx s'.tar ∧ s'.offset % 512 = 0 ∧ s'.ended = s.ended ∧
      s'.name = s.name := by
  obtain ⟨toskip, offset⟩ := tarToskip_aligned within bounded aligned
  rw [← List.length_append] at toskip offset
  rw [← List.append_assoc] at holds
  unfold tarSkip
  dsimp only
  rw [toskip]
  by_cases nothing : (left ++ tarPadding total).length = 0
  · rw [if_pos nothing]
    refine ⟨_, rfl, ?_, offset, rfl, rfl⟩
    rwa [List.length_eq_zero_iff.mp nothing, List.nil_append] at holds
  · rw [if_neg nothing]
    obtain ⟨r, tar, skips, after⟩ := istreamSkip_holds full holds
    rw [skips]
    exact ⟨_, rfl, after, offset, rfl, rfl⟩

section Records

variable {read : ReadFunction σ} {rest : σ → Bytes} (full : FullReads read rest) (env : TarEnv)
  (softChecksums : Bool) (callback : C → FileInfo → Consumer C) {behind : Bytes} {ctx : C}

include full

/-- The content of a record whose type is not delivered is skipped. -/
theorem tarRecord_member {s : TarState (σ × C)} {pending : Option Bytes} (member : TarMember)
    (holds : Holds rest (tarPadded member.data ++ behind) ctx s.tar)
    (aligned : s.offset % 512 = 0) (named : s.name = member.namePending pending) :
    ∃ s', tarRecord (pairRead read) env (deliver read env callback) softChecksums
        member.block.bytes s = some (0, s') ∧
      Holds rest behind (member.contextAfter env softChecksums callback pending ctx) s'.tar ∧
      s'.offset % 512 = 0 ∧ s'.ended = s.ended ∧ s'.name = member.nameKept pending := by
  have bound := member.declared.length_lt
  have plain : (tarHeader env member.block.bytes).mode < 2 ^ 12 := by
    unfold tarHeader toUnsigned
    dsimp only
    omega
  have delivers := tarTyped_delivers env softChecksums member.block.bytes plain
  have ends : (s.offset + member.data.length) % 512 = member.data.length % 512 := by omega
  have size : toUnsigned 64 (tarTyped env softChecksums member.block.bytes
      (tarHeader env member.block.bytes)).1.size = member.data.length := by
    have declared : (tarHeader env member.block.bytes).size = member.data.length :=
      member.declared
    rw [tarTyped_size, declared, toUnsigned]
    omega
  have given : s.name.getD (tarString member.block.bytes 0) = member.nameGiven pending := by
    rw [named, TarMember.nameGiven]
  rw [tarPadded, List.append_assoc] at holds
  unfold tarRecord
  dsimp only
  rw [if_neg member.typed]
  unfold tarContent
  dsimp only
  rw [size, given]
  unfold TarMember.contextAfter TarMember.nameKept
  by_cases delivered : member.Delivered
  · rw [if_pos (delivers.mpr delivered), if_pos delivered, if_pos delivered]
    unfold TarMember.feed
    obtain ⟨typed, digests⟩ := tarTyped env softChecksums member.block.bytes
      (tarHeader env member.block.bytes)
    obtain ⟨teis, runs, consumed, left, offers, shorter⟩ :=
      Consumer.run_offers full env (callback ctx { typed with name := member.nameGiven pending })
        (show TarEntry.Offers rest digests [] member.data _ ctx
          ⟨s.tar, member.data.length, if digests then some [] else none, typed.csum⟩ from
          ⟨holds, rfl, rfl⟩)
    unfold deliver
    dsimp only
    rw [holds.2, runs, Option.map_some, Option.bind_some]
    dsimp only
    rw [if_neg (not_not_intro rfl), offers.bytesLeft]
    exact tarSkip_aligns full (s := { s with tar := (teis.tar.1, _), name := none })
      ⟨offers.tar.1, rfl⟩ shorter (by omega) ends
  · rw [if_neg (fun chosen => delivered (delivers.mp chosen)), if_neg delivered,
      if_neg delivered, ← named]
    exact tarSkip_aligns full holds (Nat.le_refl _) (by omega) ends

/-- An 'L' record leaves its name for what comes behind it. -/
theorem tarRecord_long {s : TarState (σ × C)} (long : LongName)
    (holds : Holds rest (tarPadded long.content ++ behind) ctx s.tar)
    (aligned : s.offset % 512 = 0) :
    ∃ s', tarRecord (pairRead read) env (deliver read env callback) softChecksums
        long.block.bytes s = some (0, s') ∧
      Holds rest behind ctx s'.tar ∧ s'.offset % 512 = 0 ∧ s'.ended = s.ended ∧
      s'.name = some (cString long.content) := by
  have declared : (tarHeader env long.block.bytes).size = long.content.length := long.declared
  rw [tarPadded, List.append_assoc] at holds
  obtain ⟨tar, reads, after⟩ := pairRead_front full holds
  unfold tarRecord
  dsimp only
  rw [if_pos long.typed, declared, if_neg (by omega), Int.toNat_natCast, reads, Option.bind_some]
  dsimp only
  rw [← List.nil_append (tarPadding _ ++ behind)] at after
  exact tarSkip_aligns full after (show ([] : Bytes).length ≤ 0 from Nat.le_refl _) (by norm_num)
    (by dsimp only; omega)

/-- The loop at a header record. -/
theorem tarLoop_block {s : TarState (σ × C)} (block : TarBlock) (fuel : ℕ)
    (holds : Holds rest (block.bytes ++ behind) ctx s.tar) :
    ∃ tar, Holds rest behind ctx tar ∧
      tarLoop (pairRead read) env (deliver read env callback) softChecksums (fuel + 1) s =
        (tarRecord (pairRead read) env (deliver read env callback) softChecksums block.bytes
            { s with tar, offset := (s.offset + 512) % 2 ^ 64 }).bind fun (r, s) =>
          if r ≠ 0 then some (r, s.tar)
          else tarLoop (pairRead read) env (deliver read env callback) softChecksums fuel s := by
  obtain ⟨tar, reads, after⟩ := pairRead_front full holds
  refine ⟨tar, after, ?_⟩
  rw [block.length_eq, Nat.cast_ofNat] at reads
  rw [tarLoop, reads, Option.bind_some]
  dsimp only
  rw [if_neg (not_not_intro rfl), if_neg block.named]

/-- The loop at an entry. It takes one record or two. -/
theorem tarLoop_member {s : TarState (σ × C)} (member : TarMember) (fuel : ℕ)
    (holds : Holds rest (member.bytes ++ behind) ctx s.tar) (aligned : s.offset % 512 = 0)
    (enough : 2 ≤ fuel) :
    ∃ s' fuel', tarLoop (pairRead read) env (deliver read env callback) softChecksums fuel s =
        tarLoop (pairRead read) env (deliver read env callback) softChecksums fuel' s' ∧
      fuel ≤ fuel' + 2 ∧
      Holds rest behind (member.contextAfter env softChecksums callback s.name ctx) s'.tar ∧
      s'.offset % 512 = 0 ∧ s'.ended = s.ended ∧ s'.name = member.nameKept s.name := by
  have record : ∀ (s₁ : TarState (σ × C)) fuel₁,
      Holds rest (member.block.bytes ++ (tarPadded member.data ++ behind)) ctx s₁.tar →
      s₁.offset % 512 = 0 → s₁.name = member.namePending s.name →
      ∃ s', tarLoop (pairRead read) env (deliver read env callback) softChecksums (fuel₁ + 1) s₁ =
          tarLoop (pairRead read) env (deliver read env callback) softChecksums fuel₁ s' ∧
        Holds rest behind (member.contextAfter env softChecksums callback s.name ctx) s'.tar ∧
        s'.offset % 512 = 0 ∧ s'.ended = s₁.ended ∧ s'.name = member.nameKept s.name := by
    intro s₁ fuel₁ holds₁ aligned₁ named₁
    obtain ⟨tar, after, looped⟩ := tarLoop_block full env softChecksums callback
      member.block fuel₁ holds₁
    obtain ⟨s', recorded, after, aligned', ended, named⟩ := tarRecord_member full env
      softChecksums callback (s := { s₁ with tar, offset := (s₁.offset + 512) % 2 ^ 64 }) member after
      (by dsimp only; omega) named₁
    refine ⟨s', ?_, after, aligned', ended, named⟩
    rw [looped, recorded, Option.bind_some]
    exact if_neg (not_not_intro rfl)
  obtain ⟨fuel, rfl⟩ := Nat.exists_eq_add_of_le' enough
  unfold TarMember.bytes at holds
  cases kind : member.longName with
  | none =>
      rw [kind, List.nil_append, List.append_assoc] at holds
      obtain ⟨s', looped, after⟩ := record s (fuel + 1) holds aligned
        (by rw [TarMember.namePending, kind]; rfl)
      exact ⟨s', fuel + 1, looped, by omega, after⟩
  | some long =>
      rw [kind] at holds
      simp only [List.append_assoc] at holds
      obtain ⟨tar, after, looped⟩ := tarLoop_block full env softChecksums callback
        long.block (fuel + 1) holds
      obtain ⟨s₁, recorded, after, aligned₁, ended₁, named₁⟩ := tarRecord_long full env
        softChecksums callback (s := { s with tar, offset := (s.offset + 512) % 2 ^ 64 }) long after
        (by dsimp only; omega)
      obtain ⟨s', looped', after, aligned', ended', named'⟩ := record s₁ fuel after aligned₁
        (by rw [named₁, TarMember.namePending, TarMember.name, kind]; rfl)
      refine ⟨s', fuel, ?_, Nat.le_refl _, after, aligned', ended'.trans ended₁, named'⟩
      rw [looped, recorded, Option.bind_some, ← looped']
      exact if_neg (not_not_intro rfl)

/-- The loop at the end of the archive. -/
theorem tarLoop_end {s : TarState (σ × C)} {fuel : ℕ}
    (holds : Holds rest (cleared 1024) ctx s.tar) (going : s.ended = false) (enough : 3 ≤ fuel) :
    ∃ final, tarLoop (pairRead read) env (deliver read env callback) softChecksums fuel s =
      some (0, (final, ctx)) := by
  obtain ⟨fuel, rfl⟩ := Nat.exists_eq_add_of_le' enough
  rw [show cleared 1024 = cleared 512 ++ cleared 512 by
    rw [cleared, cleared, List.replicate_append_replicate]] at holds
  obtain ⟨tar, reads, after⟩ := pairRead_front full holds
  rw [← List.append_nil (cleared 512)] at after
  obtain ⟨tar', reads', after'⟩ := pairRead_front full after
  obtain ⟨⟨final, context⟩, reads'', after''⟩ := pairRead_holds full after' 512
  have same : context = ctx := after''.2
  have length : (cleared 512).length = 512 := by rw [cleared, List.length_replicate]
  have empty : (cleared 512).head? = some 0 := by rw [cleared, List.head?_replicate]; rfl
  rw [length, Nat.cast_ofNat] at reads reads'
  refine ⟨final, ?_⟩
  rw [tarLoop, reads, Option.bind_some]
  dsimp only
  rw [if_neg (not_not_intro rfl), if_pos empty, if_neg (by rw [going]; decide), tarLoop, reads',
    Option.bind_some]
  dsimp only
  rw [if_neg (not_not_intro rfl), if_pos empty, if_pos rfl, tarDrain, reads'', Option.bind_some,
    same]
  rfl

/-- **A whole parse.** The callback is called for the file entries, in order, each with its
header fields and its data, and with the name that is given. -/
theorem tarParse_calls (ctx : C) (members : List TarMember) (tar : σ)
    (rests : rest tar = tarArchive members)
    {fuel : ℕ} (enough : 2 * members.length + 3 ≤ fuel) :
    ∃ final, tarParse (pairRead read) env (deliver read env callback) softChecksums fuel
      (tar, ctx) =
        some (0, (final, handOn env softChecksums callback ctx (callsFrom none members))) := by
  have loop : ∀ (members : List TarMember) (s : TarState (σ × C)) (ctx : C) (fuel : ℕ),
      Holds rest (tarArchive members) ctx s.tar → s.offset % 512 = 0 → s.ended = false →
      2 * members.length + 3 ≤ fuel →
      ∃ final, tarLoop (pairRead read) env (deliver read env callback) softChecksums fuel s =
        some (0, (final, handOn env softChecksums callback ctx (callsFrom s.name members))) := by
    intro members
    induction members with
    | nil =>
        intro s ctx fuel holds _ going enough
        exact tarLoop_end full env softChecksums callback holds going enough
    | cons member members ih =>
        intro s ctx fuel holds aligned going enough
        rw [List.length_cons] at enough
        rw [tarArchive, List.flatMap_cons, List.append_assoc] at holds
        obtain ⟨s', fuel', looped, enough', holds', aligned', ended, named⟩ :=
          tarLoop_member full env softChecksums callback member fuel holds aligned
            (by omega)
        obtain ⟨final, result⟩ := ih s' _ fuel' holds' aligned' (ended.trans going) (by omega)
        refine ⟨final, ?_⟩
        rw [looped, result, named, callsFrom, TarMember.contextAfter]
        by_cases delivered : member.Delivered
        · rw [if_pos delivered, if_pos delivered]
          rfl
        · rw [if_neg delivered, if_neg delivered]
  exact loop members { tar := (tar, ctx) } ctx fuel ⟨rests, rfl⟩ rfl rfl enough

end Records

/-! ## Stale names -/

/-- Some entries leave a long name behind: the one of an entry that is not delivered, with
neither a file entry nor another long name after it. -/
def LeavesName (members : List TarMember) (name : Bytes) : Prop :=
  ∃ before skipped between, members = before ++ skipped :: between ∧
    ¬ skipped.Delivered ∧ skipped.longName.isSome ∧ skipped.name = name ∧
    ∀ other ∈ between, ¬ other.Delivered ∧ other.longName = none

/-- No file entry without a long name comes behind entries that leave one, unless it is its
own name. -/
def NoStaleName (members : List TarMember) : Prop :=
  ∀ before member after, members = before ++ member :: after →
    member.Delivered → member.longName = none →
    ∀ name, LeavesName before name → name = member.name

theorem leavesName_concat (members : List TarMember) (last : TarMember) (name : Bytes) :
    LeavesName (members ++ [last]) name ↔ ¬ last.Delivered ∧
      if last.longName.isSome then last.name = name else LeavesName members name := by
  constructor
  · intro ⟨before, skipped, between, split, skips, long, same, others⟩
    rcases List.eq_nil_or_concat between with rfl | ⟨between, other, rfl⟩
    · obtain ⟨-, rfl⟩ : members = before ∧ last = skipped := by simpa using split
      rw [if_pos long]
      exact ⟨skips, same⟩
    · rw [List.concat_eq_append, ← List.cons_append, ← List.append_assoc] at split
      obtain ⟨rfl, ends⟩ := List.append_inj' split rfl
      cases ends
      have plain := others last (by simp)
      rw [if_neg (by rw [plain.2]; decide)]
      refine ⟨plain.1, before, skipped, between, rfl, skips, long, same, ?_⟩
      intro other member
      exact others other (by simp [member])
  · intro ⟨skips, left⟩
    split at left
    · next long => exact ⟨members, last, [], rfl, skips, long, left, by simp⟩
    · next short =>
        obtain ⟨before, skipped, between, rfl, skips', long, same, others⟩ := left
        refine ⟨before, skipped, between ++ [last], by simp, skips', long, same, ?_⟩
        intro other member
        rcases List.mem_append.mp member with earlier | at_end
        · exact others other earlier
        · rw [List.mem_singleton.mp at_end]
          exact ⟨skips, by simpa using short⟩

/-- The name that is kept behind some entries is the one they leave. -/
theorem foldl_nameKept (members : List TarMember) (name : Bytes) :
    members.foldl TarMember.nameKept none = some name ↔ LeavesName members name := by
  induction members using List.reverseRecOn with
  | nil =>
      refine iff_of_false (by simp) ?_
      intro ⟨before, skipped, between, split, _⟩
      exact List.append_ne_nil_of_right_ne_nil _ (List.cons_ne_nil _ _) split.symm
  | append_singleton members last ih =>
      rw [List.foldl_append, List.foldl_cons, List.foldl_nil, TarMember.nameKept,
        leavesName_concat]
      by_cases delivered : last.Delivered
      · rw [if_pos delivered]
        exact iff_of_false (by simp) fun left => left.1 delivered
      · rw [if_neg delivered, TarMember.namePending]
        by_cases long : last.longName.isSome
        · rw [if_pos long, if_pos long, Option.some_inj]
          exact (and_iff_right delivered).symm
        · rw [if_neg long, if_neg long, ih]
          exact (and_iff_right delivered).symm

theorem callsFrom_cons (pending : Option Bytes) (member : TarMember) (members : List TarMember) :
    callsFrom pending (member :: members) =
      (if member.Delivered then [(member, member.nameGiven pending)] else []) ++
        callsFrom (member.nameKept pending) members := by
  rw [callsFrom]
  split <;> rfl

/-- Every file entry is given its own name. -/
def OwnNames (pending : Option Bytes) (members : List TarMember) : Prop :=
  ∀ before member after, members = before ++ member :: after → member.Delivered →
    member.nameGiven (before.foldl TarMember.nameKept pending) = member.name

theorem ownNames_cons (pending : Option Bytes) (member : TarMember) (members : List TarMember) :
    OwnNames pending (member :: members) ↔
      (member.Delivered → member.nameGiven pending = member.name) ∧
        OwnNames (member.nameKept pending) members := by
  constructor
  · intro own
    refine ⟨fun delivered => own [] member members rfl delivered, ?_⟩
    intro before other after split delivered
    exact own (member :: before) other after (by rw [split, List.cons_append]) delivered
  · intro ⟨first, own⟩ before other after split delivered
    cases before with
    | nil =>
        cases split
        exact first delivered
    | cons head before =>
        cases split
        exact own before other after rfl delivered

theorem noStaleName_iff {members : List TarMember} (fits : ∀ member ∈ members, member.Fits) :
    NoStaleName members ↔ OwnNames none members := by
  refine forall_congr' fun before => forall_congr' fun member => forall_congr' fun after =>
    forall_congr' fun split => forall_congr' fun _ => ?_
  have ends : member.Fits := fits member (by rw [split]; simp)
  rw [TarMember.nameGiven, TarMember.namePending]
  by_cases long : member.longName.isSome
  · rw [if_pos long]
    exact iff_of_true (fun short => by simp [short] at long) rfl
  · rw [if_neg long]
    simp only [← foldl_nameKept]
    rw [Option.not_isSome_iff_eq_none] at long
    cases before.foldl TarMember.nameKept none with
    | none => simp [TarMember.tarString_name ends long]
    | some name => simp [long]

/-- With its own name for every file entry, the callback sees what it should see. -/
theorem handOn_of_ownNames (env : TarEnv) (softChecksums : Bool)
    (callback : C → FileInfo → Consumer C) (ctx : C) {pending : Option Bytes}
    {members : List TarMember} (own : OwnNames pending members) :
    handOn env softChecksums callback ctx (callsFrom pending members) =
      offered env softChecksums callback ctx members := by
  induction members generalizing pending ctx with
  | nil => rfl
  | cons member members ih =>
      rw [ownNames_cons] at own
      unfold handOn offered at ih ⊢
      rw [callsFrom_cons, List.foldl_append, List.filter_cons]
      by_cases delivered : member.Delivered
      · rw [if_pos delivered, if_pos (decide_eq_true delivered), own.1 delivered]
        exact ih _ own.2
      · rw [if_neg delivered, if_neg (by simpa using delivered)]
        exact ih _ own.2

/-- The callback that notes the names it is given. -/
def noteName (names : List Bytes) (entry : FileInfo) : Consumer (List Bytes) :=
  .returns (names ++ [entry.name])

theorem handOn_noteName (env : TarEnv) (softChecksums : Bool) (names : List Bytes)
    (calls : List (TarMember × Bytes)) :
    handOn env softChecksums noteName names calls = names ++ calls.map Prod.snd := by
  unfold handOn
  induction calls generalizing names with
  | nil => exact (List.append_nil names).symm
  | cons call calls ih =>
      rw [List.foldl_cons, ih]
      exact List.append_assoc names [call.2] _

theorem offered_eq (env : TarEnv) (softChecksums : Bool)
    (callback : C → FileInfo → Consumer C) (ctx : C) (members : List TarMember) :
    offered env softChecksums callback ctx members =
      handOn env softChecksums callback ctx
        ((members.filter fun member => member.Delivered).map fun member =>
          (member, member.name)) := by
  rw [offered, handOn, List.foldl_map]

/-- A callback that notes the right names was given the right names. -/
theorem ownNames_of_names {pending : Option Bytes} {members : List TarMember}
    (same : (callsFrom pending members).map Prod.snd =
      (members.filter fun member => member.Delivered).map TarMember.name) :
    OwnNames pending members := by
  induction members generalizing pending with
  | nil =>
      intro before member after split
      exact absurd split.symm (List.append_ne_nil_of_right_ne_nil _ (List.cons_ne_nil _ _))
  | cons member members ih =>
      rw [callsFrom_cons, List.filter_cons] at same
      rw [ownNames_cons]
      by_cases delivered : member.Delivered
      · rw [if_pos delivered, if_pos (decide_eq_true delivered)] at same
        obtain ⟨first, others⟩ := List.cons_eq_cons.mp same
        exact ⟨fun _ => first, ih others⟩
      · rw [if_neg delivered, if_neg (by simpa using delivered)] at same
        exact ⟨fun delivered' => absurd delivered' delivered, ih same⟩

/-- A parse that hands on what it should hands on the right names. -/
theorem Framed.ownNames {env : TarEnv} {softChecksums : Bool} {members : List TarMember}
    (framed : Framed env softChecksums members) : OwnNames none members := by
  obtain ⟨final, parsed⟩ := framed Bytes (List Bytes) readBytes id readBytes_full noteName []
    (tarArchive members) rfl _ (Nat.le_refl _)
  obtain ⟨final', parsed'⟩ := tarParse_calls readBytes_full env softChecksums noteName []
    members (tarArchive members) rfl (Nat.le_refl _)
  rw [parsed', offered_eq, handOn_noteName, handOn_noteName] at parsed
  apply ownNames_of_names
  simpa [Function.comp_def] using (congrArg (Option.map fun result => result.2.2) parsed)

/-- The record of an entry with a short name. -/
def plainRecord (name : Bytes) (typeflag : UInt8) (size : ℕ) : Bytes :=
  TarHeader.bytes { name := strncpy name 100, size := putOctal 12 size, typeflag }

theorem plainRecord_length (name : Bytes) (typeflag : UInt8) (size : ℕ) :
    (plainRecord name typeflag size).length = 512 :=
  TarHeader.Sized.length {}

/-- A fifo with a long name. -/
def namedFifo : TarMember where
  longName := some
    { block := ⟨plainRecord (text "@LongLink") (ascii 'L') 2, plainRecord_length .., by decide⟩
      content := text "p" ++ [0]
      typed := by decide
      declared := by decide }
  block := ⟨plainRecord (text "p") (ascii '6') 0, plainRecord_length .., by decide⟩
  data := []
  typed := by decide
  declared := by decide

/-- An empty file with a short name. -/
def emptyFile : TarMember where
  longName := none
  block := ⟨plainRecord (text "f") (ascii '0') 0, plainRecord_length .., by decide⟩
  data := []
  typed := by decide
  declared := by decide

/-- **The framing of tar archives.** The parse of an archive calls the callback for every
file entry with its own header fields, name and data, and realigns behind every entry
whatever was read, exactly when no entry that is not delivered leaves its long name to a
file entry. -/
theorem tarParse_framed_iff (env : TarEnv) (softChecksums : Bool) {members : List TarMember}
    (fits : ∀ member ∈ members, member.Fits) :
    Framed env softChecksums members ↔ NoStaleName members := by
  rw [noStaleName_iff fits]
  refine ⟨Framed.ownNames, ?_⟩
  intro own σ C read rest full callback ctx tar rests fuel enough
  rw [← handOn_of_ownNames env softChecksums callback ctx own]
  exact tarParse_calls full env softChecksums callback ctx members tar rests enough

/-- An archive of one file. -/
theorem tarParse_framed_one :
    Framed ⟨fun _ uid => uid, fun _ gid => gid, fun _ => []⟩ false [emptyFile] := by
  refine (tarParse_framed_iff _ _ (by decide)).mpr ?_
  intro before member after split delivered short name left
  obtain ⟨front, skipped, between, rfl, _⟩ := left
  have count := congrArg List.length split
  simp only [List.length_append, List.length_cons, List.length_nil] at count
  omega

/-- The file behind the fifo is handed on under the name of the fifo. -/
theorem tarParse_staleName :
    ¬ Framed ⟨fun _ uid => uid, fun _ gid => gid, fun _ => []⟩ false [namedFifo, emptyFile] := by
  intro framed
  have own := framed.ownNames [namedFifo] emptyFile [] rfl (by decide)
  exact absurd own (by decide)

end AriannaLinux.Apk
