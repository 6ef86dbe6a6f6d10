import AriannaLinux.Apk.Archive
import AriannaLinux.Apk.Io.Gunzip
import AriannaLinux.Apk.Sign

/-! # Verification of a package stream

A tar parse over a gzip stream whose callback is the one of a signing context. The calls
of the callback are recorded. A stream that ends without an error was verified exactly
when the call at the end found what it had to check, and accepted it: when a block stream
announces its end with the last block, the result of that call is lost.
-/

namespace AriannaLinux.Apk

variable {Key τ : Type*} {zlib : Zlib}

/-! ## What the last check is about -/

namespace SignCtx

/-- The bytes digested so far carry the signature or the identity that is asked for. -/
def ControlAccepted (crypto : Crypto Key) (ctx : SignCtx Key) : Prop :=
  match ctx.action with
  | .verify | .verifyAndGenerate =>
      ∃ pkey, ctx.pkey = some pkey ∧
        crypto.verifyFinal ctx.mdctx.1 ctx.mdctx.2 ctx.signatureData pkey = true
  | .verifyIdentity =>
      (crypto.digest ctx.mdctx.1 ctx.mdctx.2).take ctx.identity.type = ctx.identity.digest
  | _ => False

/-- The bytes digested so far have the announced checksum. -/
def DataAccepted (crypto : Crypto Key) (ctx : SignCtx Key) : Prop :=
  ctx.mdctx.1.size ≠ 0 ∧
    (crypto.digest ctx.mdctx.1 ctx.mdctx.2).take ctx.mdctx.1.size =
      ctx.dataChecksum.take ctx.mdctx.1.size

/-- A stream may end here, after some last bytes: behind the control block, and, if a
checksum was announced in it, behind data that has this checksum; else the bytes since the
signatures carry the signature or the identity. -/
def EndAccepted (crypto : Crypto Key) (ctx : SignCtx Key) (data : Bytes) : Prop :=
  ctx.controlStarted = true ∧
    if ctx.hasDataChecksum then
      ctx.dataStarted = true ∧ ctx.controlVerified = true ∧
        (ctx.digestUpdate data).DataAccepted crypto
    else (ctx.digestUpdate data).ControlAccepted crypto

/-- Both parts of the package were verified. -/
def Verified (ctx : SignCtx Key) : Prop :=
  ctx.controlVerified = true ∧ ctx.dataVerified = true

variable {crypto : Crypto Key} {flags : Flags} {ctx : SignCtx Key}

theorem checkSigningKeyTrust_neg (untrusted : checkSigningKeyTrust flags ctx < 0) :
    ctx.checksSignature = true ∧ ctx.pkey = none := by
  unfold checkSigningKeyTrust at untrusted
  split at untrusted
  case isTrue fails =>
    simp only [Bool.and_eq_true, Option.isNone_iff_eq_none] at fails
    exact fails.1
  case isFalse => exact absurd untrusted (lt_irrefl 0)

/-- Without a key there is no signature to accept. -/
theorem not_controlAccepted (untrusted : checkSigningKeyTrust flags ctx < 0) :
    ¬ ctx.ControlAccepted crypto := by
  obtain ⟨signed, keyless⟩ := checkSigningKeyTrust_neg untrusted
  unfold ControlAccepted
  cases action : ctx.action <;> simp [checksSignature, action] at signed <;> simp [keyless]

/-- The check of the control block verifies the data only at the end, and only when they
have no checksum of their own. -/
theorem checkControl_dataVerified {part : MPart}
    (notNow : part ≠ .finish ∨ ctx.hasDataChecksum = true) :
    (ctx.checkControl crypto flags part).2.dataVerified = ctx.dataVerified := by
  have kept : (ctx.dataVerified || (!ctx.hasDataChecksum && decide (part = .finish))) =
      ctx.dataVerified := by
    rcases notNow with unfinished | announced
    · simp [unfinished]
    · simp [announced]
  unfold checkControl
  dsimp only
  split
  · rfl
  · cases action : ctx.action with
    | none | generateV1 => rfl
    | generate =>
        dsimp only
        split <;> rfl
    | verifyIdentity =>
        dsimp only
        split
        · rfl
        · exact kept
    | verify | verifyAndGenerate =>
        cases keyed : ctx.pkey with
        | none => rfl
        | some pkey =>
            dsimp only
            split
            · rfl
            · exact kept

/-- At the end, without a checksum of the data, the check of the control block decides. -/
theorem checkControl_finish (unverified : ctx.dataVerified = false)
    (unannounced : ctx.hasDataChecksum = false) :
    (ctx.checkControl crypto flags .finish).2.Verified ↔ ctx.ControlAccepted crypto := by
  unfold checkControl
  dsimp only
  split
  case isTrue untrusted => simp [Verified, unverified, not_controlAccepted untrusted]
  case isFalse =>
    cases action : ctx.action with
    | none | generateV1 => simp [Verified, ControlAccepted, digestInit, action, unverified]
    | generate =>
        simp [Verified, ControlAccepted, digestInit, action, unverified, unannounced]
    | verifyIdentity =>
        dsimp only
        split
        case isTrue differs =>
          simp [Verified, ControlAccepted, action, unverified, differs]
        case isFalse same =>
          simp [Verified, ControlAccepted, digestInit, action, unannounced, not_not.mp same]
    | verify | verifyAndGenerate =>
        cases keyed : ctx.pkey with
        | none => simp [Verified, ControlAccepted, action, unverified, keyed]
        | some pkey =>
            dsimp only
            split
            case isTrue refused =>
              simp [Verified, ControlAccepted, action, unverified, keyed, Bool.eq_false_iff.mpr refused]
            case isFalse accepted =>
              simp [Verified, ControlAccepted, digestInit, action, unannounced, keyed,
                not_not.mp accepted]

theorem checkData_verified (unverified : ctx.dataVerified = false) :
    (ctx.checkData crypto flags).2.Verified ↔
      ctx.controlVerified = true ∧ ctx.DataAccepted crypto := by
  unfold checkData DataAccepted
  dsimp only
  split
  case isTrue refused =>
    simp only [Verified, unverified, Bool.false_eq_true, and_false, false_iff]
    tauto
  case isFalse accepted =>
    rw [not_or, not_not] at accepted
    simp only [accepted, ne_eq, not_false_eq_true, and_self, and_true]
    split <;> exact and_iff_left rfl

/-- The data are only ever verified by the last call. -/
theorem mpartCb_dataVerified {part : MPart} {data : Option Bytes} (unfinished : part ≠ .finish) :
    (ctx.mpartCb crypto flags part data).2.dataVerified = ctx.dataVerified := by
  unfold mpartCb
  dsimp only
  split
  · rfl
  case isFalse notData =>
    have boundary : part = .boundary ∧ ctx.dataStarted = false := by
      cases part <;> simp_all
    split
    · rfl
    · split
      · rfl
      · simp only [boundary.2, Bool.not_false, not_true_eq_false, and_false, ↓reduceIte]
        exact checkControl_dataVerified (.inl unfinished)

/-- **The last call.** It leaves the package verified exactly when it may be the last. -/
theorem mpartCb_finish {data : Option Bytes} (unverified : ctx.dataVerified = false) :
    (ctx.mpartCb crypto flags .finish data).2.Verified ↔
      ctx.EndAccepted crypto (data.getD []) := by
  unfold mpartCb EndAccepted
  simp only [reduceCtorEq, false_and, or_self, ↓reduceIte, ne_eq, not_true_eq_false, and_false]
  cases started : ctx.controlStarted with
  | false => simp [Verified, unverified]
  | true =>
      simp only [not_true_eq_false, ↓reduceIte, true_and]
      cases announced : ctx.hasDataChecksum with
      | false =>
          simp only [Bool.false_eq_true, ↓reduceIte]
          exact checkControl_finish unverified rfl
      | true =>
          cases control : ctx.dataStarted with
          | false =>
              simp only [Bool.not_false, not_true_eq_false, and_false, Bool.false_eq_true,
                false_and, and_false, ↓reduceIte, iff_false]
              intro verified
              rw [Verified, checkControl_dataVerified (.inr rfl)] at verified
              exact absurd verified.2 (by simp [digestUpdate, unverified])
          | true =>
              simp only [Bool.not_true, Bool.false_eq_true, not_false_eq_true, and_true,
                ↓reduceIte, true_and]
              exact checkData_verified unverified

end SignCtx

/-! ## The verified stream -/

/-- A call of `apk_sign_ctx_mpart_cb` that was made. -/
structure MPartCall (Key : Type*) where
  part : MPart
  data : Bytes
  before : SignCtx Key

/-- What the callbacks of a package stream work on: the signing context, the calls made of
it, and whatever the consumer of the entries keeps. -/
structure Verifier (Key τ : Type*) where
  sctx : SignCtx Key
  consumer : τ
  calls : List (MPartCall Key) := []

/-- `apk_sign_ctx_mpart_cb` as the callback of the stream. -/
def Verifier.mpartCb (crypto : Crypto Key) (flags : Flags) : MultipartCb (Verifier Key τ) :=
  fun verifier part data =>
    let (r, sctx) := verifier.sctx.mpartCb crypto flags part data
    (r, { verifier with sctx, calls := verifier.calls ++ [⟨part, data.getD [], verifier.sctx⟩] })

/-- `apk_bstream_gunzip_mpart (bs, apk_sign_ctx_mpart_cb, sctx)`, as it is read from. -/
abbrev VerifiedStream (zlib : Zlib) (Key τ : Type*) := Gzip zlib (Verifier Key τ)

section Entries

variable (crypto : Crypto Key) (flags : Flags) (env : TarEnv)

/-- `apk_istream.read` of the verified stream. -/
def verifiedRead : ReadFunction (VerifiedStream zlib Key τ) :=
  Gzip.read (some (Verifier.mpartCb crypto flags))

/-- The content stream of an entry of the verified stream. -/
abbrev VerifiedEntry (zlib : Zlib) (Key τ : Type*) := TarEntry (VerifiedStream zlib Key τ)

/-- Change the signing context behind an entry. -/
def TarEntry.mapSctx (teis : VerifiedEntry zlib Key τ) (f : SignCtx Key → SignCtx Key) :
    VerifiedEntry zlib Key τ :=
  { teis with tar := { teis.tar with ctx := { teis.tar.ctx with sctx := f teis.tar.ctx.sctx } } }

/-- `apk_sign_ctx_process_file`. -/
def processEntry (teis : VerifiedEntry zlib Key τ) (fi : FileInfo) :
    Option (ℤ × VerifiedEntry zlib Key τ) :=
  match SignCtx.processFile crypto flags teis.tar.ctx.sctx fi with
  | (.returns r, sctx) => some (r, teis.mapSctx fun _ => sctx)
  | (.readsSignature, sctx) =>
      (blobFromIstream (tarEntryRead (verifiedRead crypto flags) env) fi.size
          (teis.mapSctx fun _ => sctx)).map fun (blob, teis) =>
        (0, teis.mapSctx fun sctx => { sctx with signatureData := blob.ptr })

/-- The digest lines of a `.PKGINFO`, as `apk_sign_ctx_parse_pkginfo_line` takes them. -/
def parsePkginfo (blob : Option Bytes) (sctx : SignCtx Key) : SignCtx Key :=
  (forEachSegment (blob.getD []) (text "\n") SignCtx.parsePkginfoLine sctx).2

/-- `apk_sign_ctx_verify_tar`. -/
def verifyTar : EntryParser (VerifiedStream zlib Key τ) := fun teis fi =>
  (processEntry crypto flags env teis fi).bind fun (r, teis) =>
    if r = 0 then some (0, teis)
    else if fi.name = text ".PKGINFO" then
      (blobFromIstream (tarEntryRead (verifiedRead crypto flags) env) fi.size teis).bind
        fun (blob, teis) =>
          (blob.forEachSegment newline SignCtx.parsePkginfoLine teis.tar.ctx.sctx).map
            fun (_, sctx) => (0, teis.mapSctx fun _ => sctx)
    else some (0, teis)

/-- What an entry callback may do: have the entry processed for its signature, read its
content, have lines of it looked at for the checksum of the data, and keep what it likes. -/
inductive SignSteps : VerifiedEntry zlib Key τ → VerifiedEntry zlib Key τ → Prop
  | refl (teis) : SignSteps teis teis
  | process {first teis teis'} {fi : FileInfo} {r : ℤ} (earlier : SignSteps first teis)
      (processed : processEntry crypto flags env teis fi = some (r, teis')) :
      SignSteps first teis'
  | read {first teis} {size : ℕ} {out : Read (VerifiedEntry zlib Key τ)}
      (earlier : SignSteps first teis)
      (reads : tarEntryRead (verifiedRead crypto flags) env teis size = some out) :
      SignSteps first out.state
  | line {first teis} (bytes : Bytes) (earlier : SignSteps first teis) :
      SignSteps first (teis.mapSctx fun sctx => (sctx.parsePkginfoLine bytes).2)
  | consume {first teis} (f : τ → τ) (earlier : SignSteps first teis) :
      SignSteps first { teis with tar := { teis.tar with ctx :=
        { teis.tar.ctx with consumer := f teis.tar.ctx.consumer } } }

/-- The entry callback works on the signing context in these steps only. -/
def RunsSigning (parser : EntryParser (VerifiedStream zlib Key τ)) : Prop :=
  ∀ teis fi r teis', parser teis fi = some (r, teis') → SignSteps crypto flags env teis teis'

end Entries

/-! ## The callbacks of the source are such callbacks -/

section Callbacks

variable {crypto : Crypto Key} {flags : Flags} {env : TarEnv}

/-- Reading a blob is reading. -/
theorem SignSteps.blob {first teis teis' : VerifiedEntry zlib Key τ} {size : ℤ} {blob : OwnedBlob}
    (earlier : SignSteps crypto flags env first teis)
    (taken : blobFromIstream (tarEntryRead (verifiedRead crypto flags) env) size teis =
      some (blob, teis')) : SignSteps crypto flags env first teis' :=
  blobFromIstream_keeps (fun _ _ _ steps reads => steps.read reads) earlier taken

theorem verifyTar_runsSigning :
    RunsSigning crypto flags env
      (verifyTar crypto flags env : EntryParser (VerifiedStream zlib Key τ)) := by
  intro teis fi r teis' verified
  obtain ⟨⟨processed, after⟩, processes, verified⟩ := Option.bind_eq_some_iff.mp verified
  have steps := (SignSteps.refl teis).process processes
  dsimp only at verified
  split at verified
  · cases verified
    exact steps
  · split at verified
    · obtain ⟨⟨blob, last⟩, taken, verified⟩ := Option.bind_eq_some_iff.mp verified
      obtain ⟨⟨rc, sctx⟩, looked, pair⟩ := Option.map_eq_some_iff.mp verified
      cases pair
      exact OwnedBlob.forEachSegment_keeps
        (P := fun sctx => SignSteps crypto flags env teis (last.mapSctx fun _ => sctx))
        (fun _ line steps => steps.line line) (steps.blob taken) looked
    · cases verified
      exact steps

end Callbacks

/-! ## Soundness of verification -/

section Soundness

variable (crypto : Crypto Key)

/-- The context of a stream that goes on: its data are not verified. -/
def Unverified (verifier : Verifier Key τ) : Prop := verifier.sctx.dataVerified = false

/-- The last call that was made is the one at the end, and the package is verified exactly
when that call found what it had to. -/
def LastCallDecides (verifier : Verifier Key τ) : Prop :=
  ∃ earlier data before, verifier.calls = earlier ++ [⟨.finish, data, before⟩] ∧
    (verifier.sctx.Verified ↔ before.EndAccepted crypto data)

variable {crypto} {flags : Flags} {env : TarEnv}

theorem Verifier.mpartCb_unverified {verifier : Verifier Key τ} {part : MPart}
    {data : Option Bytes} (unfinished : part ≠ .finish) (unverified : Unverified verifier) :
    Unverified (verifier.mpartCb crypto flags part data).2 := by
  have kept : (verifier.mpartCb crypto flags part data).2.sctx.dataVerified =
      verifier.sctx.dataVerified := SignCtx.mpartCb_dataVerified unfinished
  exact kept.trans unverified

theorem Verifier.mpartCb_rule :
    Gzip.CallbackRule (Verifier.mpartCb crypto flags : MultipartCb (Verifier Key τ)) Unverified
      (LastCallDecides crypto) where
  data _ _ unverified := mpartCb_unverified (by decide) unverified
  boundary _ _ unverified _ := mpartCb_unverified (by decide) unverified
  finish verifier data unverified :=
    ⟨verifier.calls, data.getD [], verifier.sctx, rfl, SignCtx.mpartCb_finish unverified⟩

/-- The verdicts of a context. -/
def SignCtx.verdicts (ctx : SignCtx Key) : Bool × Bool := (ctx.controlVerified, ctx.dataVerified)

/-- Processing a file gives no verdict. -/
theorem SignCtx.processFile_verdicts (ctx : SignCtx Key) (fi : FileInfo) :
    (ctx.processFile crypto flags fi).2.verdicts = ctx.verdicts := by
  unfold processFile
  dsimp only
  split
  · rfl
  split
  · rfl
  split
  · rfl
  split
  · rfl
  split
  · rfl
  split
  · split <;> rfl
  · rfl

theorem SignCtx.parsePkginfoLine_verdicts (ctx : SignCtx Key) (line : Bytes) :
    (ctx.parsePkginfoLine line).2.verdicts = ctx.verdicts := by
  unfold parsePkginfoLine
  split
  · rfl
  split
  · rfl
  split <;> rfl

/-- The state of the verification behind an entry. -/
abbrev TarEntry.Sound (crypto : Crypto Key) (teis : VerifiedEntry zlib Key τ) : Prop :=
  teis.tar.Holds Unverified (LastCallDecides crypto)

theorem TarEntry.Sound.mapSctx {teis : VerifiedEntry zlib Key τ} (sound : teis.Sound crypto)
    {f : SignCtx Key → SignCtx Key} (same : (f teis.tar.ctx.sctx).verdicts = teis.tar.ctx.sctx.verdicts) :
    (teis.mapSctx f).Sound crypto := by
  obtain ⟨control, data⟩ := Prod.mk.injEq .. ▸ same
  refine ⟨fun clear => data.trans (sound.1 clear), fun positive => ?_⟩
  obtain ⟨earlier, bytes, before, calls, decides⟩ := sound.2 positive
  refine ⟨earlier, bytes, before, calls, ?_⟩
  rw [← decides]
  exact and_congr (by rw [← control]; rfl) (by rw [← data]; rfl)

theorem verifiedRead_sound {teis : VerifiedEntry zlib Key τ} {size : ℕ}
    {out : Read (VerifiedEntry zlib Key τ)} (sound : teis.Sound crypto)
    (reads : tarEntryRead (verifiedRead crypto flags) env teis size = some out) :
    out.state.Sound crypto :=
  tarEntryRead_keeps (P := fun gis => gis.Holds Unverified (LastCallDecides crypto))
    (fun _ _ _ holds read => Gzip.read_holds Verifier.mpartCb_rule holds read) sound reads

theorem processEntry_sound {teis teis' : VerifiedEntry zlib Key τ} {fi : FileInfo} {r : ℤ}
    (sound : teis.Sound crypto) (processed : processEntry crypto flags env teis fi = some (r, teis')) :
    teis'.Sound crypto := by
  have same : (teis.tar.ctx.sctx.processFile crypto flags fi).2.verdicts = _ :=
    SignCtx.processFile_verdicts _ fi
  unfold processEntry at processed
  split at processed
  case h_1 sctx outcome =>
    cases processed
    rw [outcome] at same
    exact sound.mapSctx same
  case h_2 sctx outcome =>
    rw [outcome] at same
    obtain ⟨⟨blob, after⟩, taken, pair⟩ := Option.map_eq_some_iff.mp processed
    cases pair
    have read : after.Sound crypto :=
      blobFromIstream_keeps (P := fun teis => teis.Sound crypto)
        (fun _ _ _ sound reads => verifiedRead_sound sound reads) (sound.mapSctx same) taken
    exact read.mapSctx rfl

/-- Each of the steps keeps the verification sound. -/
theorem SignSteps.sound {first last : VerifiedEntry zlib Key τ}
    (steps : SignSteps crypto flags env first last) (sound : first.Sound crypto) :
    last.Sound crypto := by
  induction steps with
  | refl => exact sound
  | process earlier processed ih => exact processEntry_sound ih processed
  | read earlier reads ih => exact verifiedRead_sound ih reads
  | line bytes earlier ih => exact ih.mapSctx (SignCtx.parsePkginfoLine_verdicts _ bytes)
  | consume f earlier ih => exact ih

theorem SignCtx.init_dataVerified (action : SignAction) (identity : Checksum) (hasKeys : Bool) :
    (SignCtx.init action identity hasKeys : SignCtx Key).dataVerified = false := by
  cases action <;> simp only [init, digestInit]
  split <;> rfl

/-- **Verification of a whole stream.** A parse that returns 0, of a stream with whatever
members however delivered, has verified the control block and the data exactly when the
last call of the signing context was the one at the end and that call could accept it. -/
theorem tarParse_verified_iff (crypto : Crypto Key) (flags : Flags) (env : TarEnv)
    (parser : EntryParser (VerifiedStream zlib Key τ)) (softChecksums : Bool) (fuel : ℕ)
    (bs : Bstream) (action : SignAction) (identity : Checksum) (hasKeys : Bool) (consumer : τ)
    (final : VerifiedStream zlib Key τ) (signs : RunsSigning crypto flags env parser)
    (parsed : tarParse (verifiedRead crypto flags) env parser softChecksums fuel
      (Gzip.gunzipMpart zlib bs ⟨SignCtx.init action identity hasKeys, consumer, []⟩) =
        some (0, final)) :
    final.ctx.sctx.Verified ↔
      ∃ earlier data before, final.ctx.calls = earlier ++ [⟨.finish, data, before⟩] ∧
        before.EndAccepted crypto data := by
  have start : (Gzip.gunzipMpart zlib bs (⟨SignCtx.init action identity hasKeys, consumer, []⟩ :
      Verifier Key τ)).Holds Unverified (LastCallDecides crypto) :=
    .of_live rfl (SignCtx.init_dataVerified action identity hasKeys)
  obtain ⟨sound, ends⟩ := tarParse_ends
    (fun _ _ _ holds read => Gzip.read_holds Verifier.mpartCb_rule holds read)
    (fun _ _ _ _ sound called => (signs _ _ _ _ called).sound sound) start parsed
  obtain ⟨stream, out, -, reads, nothing, rfl⟩ := ends rfl
  have ended : 0 < out.state.err := Gzip.read_eq_zero (by decide) reads nothing
  obtain ⟨earlier, data, before, calls, decides⟩ := sound.2 ended
  constructor
  · intro verified
    exact ⟨earlier, data, before, calls, decides.mp verified⟩
  · rintro ⟨earlier', data', before', calls', accepted⟩
    obtain ⟨-, same⟩ := List.append_inj' (calls.symm.trans calls') rfl
    cases same
    exact decides.mpr accepted

/-! ## A member on its own -/

/-- The decompressor on the compression of nothing. -/
def emptyMemberZlib : Zlib where
  State := Unit
  start := ()
  inflate _ input _ :=
    if emptyMember.isPrefixOf input then ⟨20, [], .streamEnd, ()⟩ else ⟨0, [], .error, ()⟩
  consumed_le _ input _ := by
    split
    case isTrue member => exact (List.isPrefixOf_iff_prefix.mp member).length_le
    case isFalse => exact Nat.zero_le _
  output_le _ input _ := by split <;> exact Nat.zero_le _
  progress _ input _ := by
    split
    · simp
    · simp

/-- The MD5 digest of the compression of nothing. -/
def emptyMemberMd5 : Bytes :=
  [112, 41, 6, 108, 39, 172, 111, 94, 241, 141, 102, 13, 87, 65, 151, 154]

/-- Digests of the compression of nothing; there are no keys. -/
def emptyMemberCrypto : Crypto Unit where
  digest md bytes := if md = .md5 ∧ bytes = emptyMember then emptyMemberMd5 else []
  verifyFinal _ _ _ _ := false
  readPubkey _ := none

/-- No users, no groups, and no content to digest. -/
def emptyTarEnv : TarEnv := ⟨fun _ uid => uid, fun _ gid => gid, fun _ => []⟩

/-- `apk_sign_ctx_verify_tar` over the compression of nothing. -/
def verifyEmptyMember (bs : Bstream) (action : SignAction) (identity : Checksum) :
    Option (ℤ × VerifiedStream emptyMemberZlib Unit Unit) :=
  tarParse (verifiedRead emptyMemberCrypto {}) emptyTarEnv
    (verifyTar emptyMemberCrypto {} emptyTarEnv) false 2
    (Gzip.gunzipMpart _ bs ⟨SignCtx.init action identity true, (), []⟩)

/-- Delivered in a chunk, the member is verified as the package it is said to be. -/
theorem tarParse_verified_chunk :
    ∃ final, verifyEmptyMember (.reads [emptyMember] 0) .verifyIdentity
        ((Checksum.zero.setType checksumMd5).store emptyMemberMd5) = some (0, final) ∧
      final.ctx.sctx.Verified ∧
      (final.ctx.sctx.Verified ↔
        ∃ earlier data before, final.ctx.calls = earlier ++ [⟨.finish, data, before⟩] ∧
          before.EndAccepted emptyMemberCrypto data) := by
  have value : (verifyEmptyMember (.reads [emptyMember] 0) .verifyIdentity
      ((Checksum.zero.setType checksumMd5).store emptyMemberMd5)).map
        (fun out => (out.1, out.2.ctx.sctx.verdicts)) = some (0, true, true) := by
    decide +kernel
  obtain ⟨⟨r, final⟩, parsed, verdicts⟩ := Option.map_eq_some_iff.mp value
  simp only [Prod.mk.injEq, SignCtx.verdicts] at verdicts
  obtain ⟨rfl, verified⟩ := verdicts
  exact ⟨final, parsed, verified,
    tarParse_verified_iff _ _ _ _ _ _ _ _ _ _ _ final verifyTar_runsSigning parsed⟩

/-- Mapped, the member passes as a signed package: the call at the end refuses it, and
nothing comes of that. -/
theorem tarParse_unverified_mapped :
    ∃ final, verifyEmptyMember (.mmap (some emptyMember)) .verify .zero = some (0, final) ∧
      ¬ final.ctx.sctx.Verified := by
  have value : (verifyEmptyMember (.mmap (some emptyMember)) .verify .zero).map
      (fun out => (out.1, out.2.ctx.sctx.verdicts)) = some (0, false, false) := by
    decide +kernel
  obtain ⟨⟨r, final⟩, parsed, verdicts⟩ := Option.map_eq_some_iff.mp value
  simp only [Prod.mk.injEq, SignCtx.verdicts] at verdicts
  obtain ⟨rfl, control, -⟩ := verdicts
  exact ⟨final, parsed, fun verified => by simp [control, SignCtx.Verified] at verified⟩

end Soundness

end AriannaLinux.Apk
