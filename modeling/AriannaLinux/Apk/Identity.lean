import AriannaLinux.Apk.Verify

/-! # The identity check

A package is unpacked under a signing context that holds its expected checksum. Whatever
files and blocks the context is shown, and in whatever order, it marks the control block
as verified only after comparing a digest with that checksum. The whole digest is compared
exactly when the checksum is of a kind the context has a digest for: with a checksum of no
kind, nothing is compared (`identity_checked_iff`).
-/

namespace AriannaLinux.Apk

variable {Key : Type*}

/-- What a signing context is shown: an entry of the archive, with the signature and the
package information read from it where they are asked for, or a block of the stream. -/
inductive SignEvent where
  | file (fi : FileInfo) (signature pkginfo : Option Bytes)
  | part (part : MPart) (data : Option Bytes)

/-- The digests a context may rely on have the sizes of their kinds. -/
def Crypto.Sized (crypto : Crypto Key) : Prop :=
  ∀ md bytes, (crypto.digest md bytes).length = md.size

namespace SignCtx

/-- `apk_sign_ctx_verify_tar` or `apk_sign_ctx_mpart_cb` on one event. -/
def onEvent (crypto : Crypto Key) (flags : Flags) (ctx : SignCtx Key) : SignEvent → SignCtx Key
  | .file fi signature pkginfo =>
      match ctx.processFile crypto flags fi with
      | (.readsSignature, ctx) => { ctx with signatureData := signature }
      | (.returns r, ctx) =>
          if r ≠ 0 ∧ fi.name = text ".PKGINFO" then parsePkginfo pkginfo ctx else ctx
  | .part part data => (ctx.mpartCb crypto flags part data).2

/-- The digest taken when a block is checked: of the bytes since the last reset, the
block included. -/
def takenDigest (crypto : Crypto Key) (ctx : SignCtx Key) : SignEvent → Bytes
  | .file _ _ _ => crypto.digest ctx.mdctx.1 ctx.mdctx.2
  | .part _ data => crypto.digest ctx.mdctx.1 (ctx.mdctx.2 ++ data.getD [])

/-- An event that marks the control block as verified does so on a digest that is, in all
its bytes, the expected one. -/
def ChecksIdentity (crypto : Crypto Key) (flags : Flags) (identity : Checksum)
    (ctx : SignCtx Key) (event : SignEvent) : Prop :=
  ctx.controlVerified = false → (ctx.onEvent crypto flags event).controlVerified = true →
    ctx.takenDigest crypto event = identity.data.take ctx.mdctx.1.size

/-- The digest `apk_sign_ctx_init` chooses for an identity. -/
def identityMd (identity : Checksum) : Md :=
  if identity.type = checksumMd5 then .md5 else .sha1

/-- What holds of a context that checks an identity, whatever it was shown: the digest is
changed only by an announced checksum of the data, and is in use only behind the control
block then. -/
structure Identifies (identity : Checksum) (ctx : SignCtx Key) : Prop where
  action : ctx.action = .verifyIdentity
  given : ctx.identity = identity
  md : ctx.hasDataChecksum = false → ctx.md = identityMd identity
  digest : ctx.hasDataChecksum = false ∨ ctx.dataStarted = false →
    ctx.mdctx.1 = identityMd identity
  announced : ctx.hasDataChecksum = true → ctx.controlStarted = true

variable {crypto : Crypto Key} {flags : Flags} {identity : Checksum} {ctx : SignCtx Key}

theorem identifies_init (identity : Checksum) (hasKeys : Bool) :
    (init .verifyIdentity identity hasKeys : SignCtx Key).Identifies identity := by
  unfold init
  by_cases md5 : identity.type = checksumMd5
  · simp only [md5, ↓reduceIte]
    exact ⟨rfl, rfl, fun _ => (if_pos md5).symm, fun _ => (if_pos md5).symm, by simp [digestInit]⟩
  · simp only [md5, ↓reduceIte]
    exact ⟨rfl, rfl, fun _ => (if_neg md5).symm, fun _ => (if_neg md5).symm, by simp [digestInit]⟩

theorem Identifies.digestUpdate (identifies : ctx.Identifies identity) (bytes : Bytes) :
    (ctx.digestUpdate bytes).Identifies identity :=
  { identifies with }

/-- A reset before the end of the data uses the digest of the identity. -/
theorem Identifies.digestInit (identifies : ctx.Identifies identity)
    (reset : ctx.dataStarted = true ∨ ctx.hasDataChecksum = false) :
    ctx.digestInit.Identifies identity := by
  refine { identifies with digest := ?_ }
  rintro (unannounced | unstarted)
  · exact identifies.md unannounced
  · exact identifies.md (reset.resolve_left (by rw [show ctx.dataStarted = false from unstarted]; simp))

theorem Identifies.startData (identifies : ctx.Identifies identity) :
    Identifies identity { ctx with dataStarted := true } := by
  refine { identifies with digest := ?_ }
  rintro (unannounced | started)
  · exact identifies.digest (.inl unannounced)
  · cases started

theorem Identifies.startControl (identifies : ctx.Identifies identity) :
    Identifies identity { ctx with controlStarted := true } :=
  { identifies with announced := fun _ => rfl }

theorem Identifies.not_checksSignature (identifies : ctx.Identifies identity) :
    ctx.checksSignature = false := by
  rw [checksSignature, identifies.action]
  rfl

/-- Looking at a file keeps the digests; where lines of it may be looked at, the
signatures are over. -/
theorem Identifies.processFile (identifies : ctx.Identifies identity) (fi : FileInfo) :
    (ctx.processFile crypto flags fi).2.Identifies identity ∧
      ((ctx.processFile crypto flags fi).1 ≠ .returns 0 →
        (ctx.processFile crypto flags fi).2.controlStarted = true ∨
          (ctx.processFile crypto flags fi).2.dataStarted = true) := by
  have unsigned : ctx.checksSignature = false := identifies.not_checksSignature
  unfold SignCtx.processFile
  dsimp only
  split
  case isTrue started => exact ⟨identifies, fun _ => .inr started⟩
  case isFalse unstarted =>
    split
    case isTrue => exact ⟨identifies.startData.startControl, fun _ => .inl rfl⟩
    case isFalse =>
      split
      case isTrue control => exact ⟨identifies, fun _ => .inl control⟩
      case isFalse =>
        split
        case isTrue => exact ⟨identifies.startControl, fun _ => .inl rfl⟩
        case isFalse =>
          -- a signature file, of which nothing is needed
          rw [if_pos (.inl (by simpa [checksSignature] using unsigned))]
          exact ⟨{ identifies with }, fun nonzero => absurd rfl nonzero⟩

/-- Behind the signatures a line may announce a checksum of the data. -/
theorem Identifies.parsePkginfoLine
    (identifies : ctx.Identifies identity ∧ (ctx.controlStarted = true ∨ ctx.dataStarted = true))
    (line : Bytes) :
    (ctx.parsePkginfoLine line).2.Identifies identity ∧
      ((ctx.parsePkginfoLine line).2.controlStarted = true ∨
        (ctx.parsePkginfoLine line).2.dataStarted = true) := by
  unfold SignCtx.parsePkginfoLine
  split
  · exact identifies
  · split
    · exact identifies
    · split
      case isTrue announces =>
        obtain ⟨identifies, started⟩ := identifies
        have control : ctx.controlStarted = true :=
          started.resolve_right (by rw [announces.1]; exact Bool.false_ne_true)
        refine ⟨{ identifies with
          md := fun unannounced => absurd unannounced (by simp)
          digest := fun _ => identifies.digest (.inr announces.1)
          announced := fun _ => control }, .inl control⟩
      case isFalse => exact identifies

/-- What every line keeps, the package information keeps. -/
theorem parsePkginfo_keeps {P : SignCtx Key → Prop}
    (keeps : ∀ ctx line, P ctx → P (ctx.parsePkginfoLine line).2) (pkginfo : Option Bytes)
    (holds : P ctx) : P (parsePkginfo pkginfo ctx) :=
  forEachSegment_keeps keeps holds

theorem Identifies.parsePkginfo (identifies : ctx.Identifies identity)
    (started : ctx.controlStarted = true ∨ ctx.dataStarted = true) (pkginfo : Option Bytes) :
    (parsePkginfo pkginfo ctx).Identifies identity :=
  (parsePkginfo_keeps
    (P := fun ctx => ctx.Identifies identity ∧ (ctx.controlStarted = true ∨ ctx.dataStarted = true))
    (fun _ line kept => Identifies.parsePkginfoLine kept line) pkginfo ⟨identifies, started⟩).1

/-- The context of a verified control block. -/
def controlPassed (ctx : SignCtx Key) (part : MPart) : SignCtx Key :=
  { ctx with
    controlVerified := true
    dataVerified := ctx.dataVerified || (!ctx.hasDataChecksum && part = .finish) }

/-- The check of the control block when an identity is asked for. -/
theorem checkControl_identity (action : ctx.action = .verifyIdentity) (part : MPart) :
    ctx.checkControl crypto flags part =
      if (crypto.digest ctx.mdctx.1 ctx.mdctx.2).take ctx.identity.type ≠ ctx.identity.digest then
        (ekeyrejected, ctx)
      else (0, (ctx.controlPassed part).digestInit) := by
  have trusted : checkSigningKeyTrust flags ctx = 0 := by
    simp only [checkSigningKeyTrust, checksSignature, action, reduceCtorEq, decide_false,
      Bool.or_self, Bool.false_and, Bool.false_eq_true, ↓reduceIte]
  unfold checkControl
  simp only [trusted, lt_irrefl, ↓reduceIte]
  split
  case h_3 => rfl
  all_goals
    rename_i other
    rw [action] at other
    cases other

/-- The check of the identity, where the digest is still the one of the identity. -/
theorem Identifies.checkControl (identifies : ctx.Identifies identity) (part : MPart)
    (started : ctx.dataStarted = true) :
    (ctx.checkControl crypto flags part).2.Identifies identity := by
  rw [checkControl_identity identifies.action]
  split
  · exact identifies
  · have passed : (ctx.controlPassed part).Identifies identity := { identifies with }
    exact passed.digestInit (.inl started)

theorem Identifies.checkData (identifies : ctx.Identifies identity) :
    (ctx.checkData crypto flags).2.Identifies identity := by
  unfold SignCtx.checkData
  dsimp only
  split
  · exact identifies
  · split <;> exact { identifies with }

theorem Identifies.mpartCb (identifies : ctx.Identifies identity) (part : MPart)
    (data : Option Bytes) : (ctx.mpartCb crypto flags part data).2.Identifies identity := by
  unfold SignCtx.mpartCb
  dsimp only
  split
  · exact identifies.digestUpdate _
  · split
    case isTrue signatures =>
      split
      · exact identifies
      · refine identifies.digestInit (.inr ?_)
        by_contra announced
        exact signatures (identifies.announced (by simpa using announced))
    case isFalse =>
      split
      · exact identifies.startData.digestUpdate _
      · split
        · exact (identifies.startData.digestUpdate _).checkData
        · exact (identifies.startData.digestUpdate _).checkControl part rfl

/-- **One event.** -/
theorem Identifies.onEvent (identifies : ctx.Identifies identity) (event : SignEvent) :
    (ctx.onEvent crypto flags event).Identifies identity := by
  cases event with
  | part part data => exact identifies.mpartCb part data
  | file fi signature pkginfo =>
      obtain ⟨processed, started⟩ := @Identifies.processFile _ crypto flags _ _ identifies fi
      unfold SignCtx.onEvent
      dsimp only
      split
      case h_1 sctx outcome =>
        rw [outcome] at processed
        exact { processed with }
      case h_2 r sctx outcome =>
        rw [outcome] at processed started
        split
        case isTrue read =>
          exact processed.parsePkginfo (started fun zero => read.1 (by cases zero; rfl)) pkginfo
        case isFalse => exact processed

/-! ## What is compared -/

/-- The kinds of checksum whose digest is compared as a whole. -/
def WholeType (identity : Checksum) : Prop :=
  identity.type = checksumMd5 ∨ checksumSha1 ≤ identity.type

/-- Comparing the counted bytes of such an identity is comparing a whole digest. -/
theorem whole_of_take {calculated : Bytes} (whole : WholeType identity)
    (sized : calculated.length = (identityMd identity).size)
    (same : calculated.take identity.type = identity.digest) :
    calculated = identity.data.take (identityMd identity).size := by
  unfold identityMd at sized ⊢
  rcases whole with md5 | sha1
  · rw [if_pos md5] at sized ⊢
    rw [Checksum.digest, md5] at same
    rwa [List.take_of_length_le (by rw [sized]; rfl)] at same
  · have notMd5 : identity.type ≠ checksumMd5 := by
      rintro md5
      rw [md5] at sha1
      exact absurd sha1 (by decide)
    rw [if_neg notMd5] at sized ⊢
    rw [Checksum.digest, List.take_of_length_le (by rw [sized]; exact sha1),
      List.take_of_length_le (by rw [identity.sized]; exact sha1)] at same
    rw [same, show Md.sha1.size = 20 from rfl, ← identity.sized, List.take_length]

theorem Identifies.checkControl_checks (identifies : ctx.Identifies identity)
    (sized : crypto.Sized) (whole : WholeType identity)
    (current : ctx.mdctx.1 = identityMd identity) {part : MPart}
    (unverified : ctx.controlVerified = false)
    (verified : (ctx.checkControl crypto flags part).2.controlVerified = true) :
    crypto.digest ctx.mdctx.1 ctx.mdctx.2 = identity.data.take ctx.mdctx.1.size := by
  rw [checkControl_identity identifies.action] at verified
  split at verified
  case isTrue => exact absurd verified (by rw [unverified]; exact Bool.false_ne_true)
  case isFalse same =>
    rw [not_not, identifies.given] at same
    rw [current] at same ⊢
    exact whole_of_take whole (sized _ _) same

theorem checkData_controlVerified :
    (ctx.checkData crypto flags).2.controlVerified = ctx.controlVerified := by
  unfold checkData
  dsimp only
  split
  · rfl
  · split <;> rfl

theorem onEvent_file_controlVerified (fi : FileInfo) (signature pkginfo : Option Bytes) :
    (ctx.onEvent crypto flags (.file fi signature pkginfo)).controlVerified =
      ctx.controlVerified := by
  have processed : (ctx.processFile crypto flags fi).2.verdicts.1 = ctx.verdicts.1 :=
    congrArg Prod.fst (processFile_verdicts ctx fi)
  unfold SignCtx.onEvent
  dsimp only
  split
  case h_1 sctx outcome =>
    rw [outcome] at processed
    exact processed
  case h_2 r sctx outcome =>
    rw [outcome] at processed
    split
    · have kept : (parsePkginfo pkginfo sctx).verdicts.1 = sctx.verdicts.1 :=
        parsePkginfo_keeps (P := fun other => other.verdicts.1 = sctx.verdicts.1)
          (fun other line same => by rw [parsePkginfoLine_verdicts, same]) pkginfo rfl
      exact kept.trans processed
    · exact processed

/-- A context that identifies a package by a whole digest checks it. -/
theorem Identifies.checks (identifies : ctx.Identifies identity) (sized : crypto.Sized)
    (whole : WholeType identity) (event : SignEvent) :
    ctx.ChecksIdentity crypto flags identity event := by
  intro unverified verified
  cases event with
  | file fi signature pkginfo =>
      rw [onEvent_file_controlVerified, unverified] at verified
      cases verified
  | part part data =>
      unfold SignCtx.onEvent SignCtx.mpartCb at verified
      dsimp only at verified
      split at verified
      case isTrue => exact absurd verified (by simp [SignCtx.digestUpdate, unverified])
      case isFalse =>
        split at verified
        case isTrue =>
          split at verified
          · exact absurd verified (by simp [unverified])
          · exact absurd verified (by simp [SignCtx.digestInit, unverified])
        case isFalse =>
          split at verified
          case isTrue => exact absurd verified (by simp [SignCtx.digestUpdate, unverified])
          case isFalse =>
            split at verified
            case isTrue =>
              rw [checkData_controlVerified] at verified
              exact absurd verified (by simp [SignCtx.digestUpdate, unverified])
            case isFalse control =>
              have current : ctx.hasDataChecksum = false ∨ ctx.dataStarted = false := by
                by_contra later
                simp only [not_or, Bool.not_eq_false] at later
                exact control ⟨later.1, by simp [later.2]⟩
              exact (identifies.startData.digestUpdate _).checkControl_checks sized whole
                (identifies.digest current) unverified verified

/-- The context after a list of events. -/
def onEvents (crypto : Crypto Key) (flags : Flags) (ctx : SignCtx Key)
    (events : List SignEvent) : SignCtx Key :=
  events.foldl (onEvent crypto flags) ctx

/-- **Every order of events.** -/
theorem Identifies.onEvents (identifies : ctx.Identifies identity) (events : List SignEvent) :
    (ctx.onEvents crypto flags events).Identifies identity := by
  induction events generalizing ctx with
  | nil => exact identifies
  | cons event events ih => exact ih (identifies.onEvent event)

/-! ## What is not compared -/

/-- Digests that agree with a checksum in every byte but the last. -/
def almostDigest (identity : Checksum) (md : Md) : Bytes :=
  if md = .sha1 then identity.data.take 19 ++ [identity.data.getD 19 0 + 1]
  else List.replicate md.size 0

/-- No keys, no signatures, and the same digest for all bytes. -/
def almostCrypto (Key : Type*) (identity : Checksum) : Crypto Key where
  digest md _ := almostDigest identity md
  verifyFinal _ _ _ _ := false
  readPubkey _ := none

theorem almostCrypto_sized (identity : Checksum) : (almostCrypto Key identity).Sized := by
  intro md bytes
  have sized := identity.sized
  unfold almostCrypto almostDigest
  dsimp only
  split
  case isTrue sha1 =>
    rw [sha1, List.length_append, List.length_take, sized]
    rfl
  case isFalse => exact List.length_replicate

theorem almostDigest_ne (identity : Checksum) :
    almostDigest identity .sha1 ≠ identity.data := by
  intro same
  have last : identity.data.getD 19 0 + 1 = identity.data.getD 19 0 := by
    conv_rhs => rw [← same]
    have short : (identity.data.take 19).length = 19 := by simp [identity.sized]
    simp only [almostDigest, ↓reduceIte, List.getD_eq_getElem?_getD]
    rw [List.getElem?_append_right (by rw [short])]
    simp [short]
  exact absurd last (by generalize identity.data.getD 19 0 = byte; grind)

theorem almostDigest_take {identity : Checksum} (counted : identity.type < checksumSha1) :
    (almostDigest identity .sha1).take identity.type = identity.digest := by
  have short : (identity.data.take 19).length = 19 := by simp [identity.sized]
  have inside : identity.type ≤ 19 := Nat.lt_succ_iff.mp counted
  simp only [almostDigest, ↓reduceIte, Checksum.digest]
  rw [List.take_append_of_le_length (by rw [short]; exact inside), List.take_take,
    Nat.min_eq_left inside]

/-- A package that has no control block ends here. -/
def bareData : List SignEvent := [.file { name := text "a" } none none]

/-- The context of such a package with a checksum that is not of MD5. -/
def bareContext (identity : Checksum) : SignCtx Key where
  hasKeys := false
  action := .verifyIdentity
  md := .sha1
  controlStarted := true
  dataStarted := true
  identity
  mdctx := (.sha1, [])

theorem onEvents_bareData (notMd5 : identity.type ≠ checksumMd5) :
    (init .verifyIdentity identity false : SignCtx Key).onEvents crypto flags bareData =
      bareContext identity := by
  have start : (init .verifyIdentity identity false : SignCtx Key) =
      digestInit { hasKeys := false, action := .verifyIdentity, md := .sha1, identity } := by
    simp only [init, notMd5, ↓reduceIte]
  rw [start]
  rfl

theorem bareContext_verified (counted : identity.type < checksumSha1) :
    ((bareContext identity).onEvent (almostCrypto Key identity) flags
      (.part .finish none)).controlVerified = true := by
  have compared : ((almostCrypto Key identity).digest Md.sha1 []).take identity.type =
      identity.digest := almostDigest_take counted
  have checked : (bareContext identity).onEvent (almostCrypto Key identity) flags
      (.part .finish none) =
      ((bareContext identity).checkControl (almostCrypto Key identity) flags .finish).2 := rfl
  rw [checked, checkControl_identity rfl]
  exact congrArg (fun out : ℤ × SignCtx Key => out.2.controlVerified)
    (if_neg (not_not.mpr compared))

/-- A checksum of another kind is compared in part only. -/
theorem not_checksIdentity_of_partial (partly : ¬ WholeType identity) :
    ¬ ((init .verifyIdentity identity false).onEvents (almostCrypto Key identity) flags
      bareData).ChecksIdentity (almostCrypto Key identity) flags identity (.part .finish none) := by
  obtain ⟨notMd5, short⟩ := not_or.mp partly
  intro check
  rw [onEvents_bareData notMd5] at check
  have same := check rfl (bareContext_verified (not_le.mp short))
  refine almostDigest_ne identity ?_
  rwa [show (bareContext identity : SignCtx Key).mdctx.1.size = identity.data.length from
    identity.sized.symm, List.take_length] at same

/-- **The identity check compares a whole digest** in every order of events exactly when
the expected checksum is of a kind whose digest the context takes. -/
theorem identity_checked_iff (identity : Checksum) :
    (∀ (crypto : Crypto Key) (flags : Flags) (hasKeys : Bool) (events : List SignEvent)
      (event : SignEvent), crypto.Sized →
        ((init .verifyIdentity identity hasKeys).onEvents crypto flags events).ChecksIdentity
          crypto flags identity event) ↔ WholeType identity := by
  constructor
  · intro checks
    by_contra partly
    exact not_checksIdentity_of_partial partly
      (checks _ {} false _ _ (almostCrypto_sized identity))
  · intro whole crypto flags hasKeys events event sized
    exact ((identifies_init identity hasKeys).onEvents events).checks sized whole event

/-- **Without a checksum nothing is compared.** A package whose index entry has none is
marked as verified whatever its bytes are. -/
theorem identity_unchecked_none :
    ∃ crypto : Crypto Unit, crypto.Sized ∧
      ¬ ((init .verifyIdentity .zero false).onEvents crypto {} bareData).ChecksIdentity crypto {}
        .zero (.part .finish none) :=
  ⟨almostCrypto Unit .zero, almostCrypto_sized .zero,
    not_checksIdentity_of_partial (by unfold WholeType; decide)⟩

end SignCtx

end AriannaLinux.Apk
