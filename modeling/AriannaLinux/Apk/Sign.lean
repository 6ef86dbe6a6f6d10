import AriannaLinux.Apk.BlobText
import AriannaLinux.Apk.Database
import AriannaLinux.Apk.Io.Istream

/-! # Signatures and digests of packages

The signing context of `package.c`. It watches the entries of the tar stream
(`apk_sign_ctx_process_file`) and the members of the gzip stream around it
(`apk_sign_ctx_mpart_cb`). The digests and the public-key check are functions of the
bytes they are given.
-/

namespace AriannaLinux.Apk

/-- The message digests used. -/
inductive Md where
  | null | md5 | sha1 | dss1 | sha256
  deriving DecidableEq, Repr

/-- `EVP_MD_size`. -/
def Md.size : Md → ℕ
  | .null => 0
  | .md5 => 16
  | .sha1 => 20
  | .dss1 => 20
  | .sha256 => 32

/-- The cryptography a context relies on: digests, `EVP_VerifyFinal`, and the public key
read from a file of the key directory, if there is one. -/
structure Crypto (Key : Type*) where
  digest : Md → Bytes → Bytes
  verifyFinal : Md → Bytes → Option Bytes → Key → Bool
  readPubkey : Bytes → Option Key

/-- `APK_SIGN_*`. -/
inductive SignAction where
  | none | verify | verifyIdentity | generateV1 | generate | verifyAndGenerate
  deriving DecidableEq, Repr

/-- `struct apk_sign_ctx`. The digest context holds what was added since its start. -/
structure SignCtx (Key : Type*) where
  hasKeys : Bool
  action : SignAction
  md : Md := .null
  numSignatures : ℕ := 0
  controlStarted : Bool := false
  dataStarted : Bool := false
  hasDataChecksum : Bool := false
  controlVerified : Bool := false
  dataVerified : Bool := false
  dataChecksum : Bytes := List.replicate 64 0
  identity : Checksum := .zero
  mdctx : Md × Bytes := (.null, [])
  signatureData : Option Bytes := none
  pkey : Option Key := none

variable {Key : Type*}

namespace SignCtx

/-- `EVP_DigestInit_ex`. -/
def digestInit (ctx : SignCtx Key) : SignCtx Key := { ctx with mdctx := (ctx.md, []) }

/-- `EVP_DigestUpdate`. -/
def digestUpdate (ctx : SignCtx Key) (bytes : Bytes) : SignCtx Key :=
  { ctx with mdctx := (ctx.mdctx.1, ctx.mdctx.2 ++ bytes) }

/-- `apk_sign_ctx_init`. -/
def init (action : SignAction) (identity : Checksum) (hasKeys : Bool) : SignCtx Key :=
  let ctx : SignCtx Key := { hasKeys, action }
  let ctx :=
    match action with
    | .verify => ctx
    | .verifyIdentity =>
        if identity.type = checksumMd5 then
          { ctx with md := .md5, controlStarted := true, dataStarted := true, identity }
        else { ctx with md := .sha1, identity }
    | .generateV1 => { ctx with md := .md5, controlStarted := true, dataStarted := true }
    | .generate | .verifyAndGenerate => { ctx with md := .sha1 }
    | .none => { ctx with controlStarted := true, dataStarted := true }
  ctx.digestInit

/-- The actions that check a signature. -/
def checksSignature (ctx : SignCtx Key) : Bool :=
  ctx.action = .verify || ctx.action = .verifyAndGenerate

/-- `check_signing_key_trust`. -/
def checkSigningKeyTrust (flags : Flags) (ctx : SignCtx Key) : ℤ :=
  if ctx.checksSignature && ctx.pkey.isNone && !flags.allowUntrusted then enokey else 0

/-- What `apk_sign_ctx_process_file` comes to: a result, or a signature to read into the
context before it returns 0. -/
inductive Processed where
  | returns (r : ℤ)
  | readsSignature
  deriving DecidableEq, Repr

/-- `apk_sign_ctx_process_file`, up to the reading of a signature. -/
def processFile (crypto : Crypto Key) (flags : Flags) (ctx : SignCtx Key) (fi : FileInfo) :
    Processed × SignCtx Key :=
  if ctx.dataStarted then (.returns 1, ctx)
  else if fi.name.head? ≠ some (ascii '.') ∨ ascii '/' ∈ fi.name then
    let ctx := { ctx with dataStarted := true, controlStarted := true }
    let r := checkSigningKeyTrust flags ctx
    (.returns (if r < 0 then r else 1), ctx)
  else if ctx.controlStarted then (.returns 1, ctx)
  else if ¬ (text ".SIGN.").isPrefixOf fi.name then
    (.returns 1, { ctx with controlStarted := true })
  else
    let ctx := { ctx with numSignatures := ctx.numSignatures + 1 }
    -- a trusted key is needed, and not found yet
    if ¬ ctx.checksSignature ∨ ctx.pkey.isSome ∨ ¬ ctx.hasKeys then (.returns 0, ctx)
    else if (text "RSA.").isPrefixOf (fi.name.drop 6) ∨ (text "DSA.").isPrefixOf (fi.name.drop 6) then
      match crypto.readPubkey (fi.name.drop 10) with
      | none => (.returns 0, ctx)
      | some pkey =>
          let md := if (text "RSA.").isPrefixOf (fi.name.drop 6) then .sha1 else .dss1
          (.readsSignature, { ctx with pkey, md })
    else (.returns 0, ctx)

/-- `apk_sign_ctx_parse_pkginfo_line`. -/
def parsePkginfoLine (ctx : SignCtx Key) (line : Bytes) : ℤ × SignCtx Key :=
  if line.length < 1 ∨ line.head? = some (ascii '#') then (0, ctx)
  else
    match blobSplit (text " = ") line with
    | none => (0, ctx)
    | some (l, r) =>
        if ctx.dataStarted = false ∧ blobCompare (text "datahash") l = 0 then
          let (stored, _) := pullHexdump (some ⟨r, r.length⟩) Md.sha256.size
          (0, { ctx with
            hasDataChecksum := true
            md := .sha256
            dataChecksum := stored ++ ctx.dataChecksum.drop stored.length })
        else (0, ctx)

/-- `apk_sign_ctx_mpart_cb`, the checks at the end of the control block, or at the end of
data without a checksum of their own. -/
def checkControl (crypto : Crypto Key) (flags : Flags) (ctx : SignCtx Key) (part : MPart) :
    ℤ × SignCtx Key :=
  let verified : SignCtx Key := { ctx with
    controlVerified := true
    dataVerified := ctx.dataVerified || (!ctx.hasDataChecksum && part = .finish) }
  let calculated := crypto.digest ctx.mdctx.1 ctx.mdctx.2
  let identified (ctx : SignCtx Key) : SignCtx Key := { ctx with
    identity := (ctx.identity.setType ctx.mdctx.1.size).store calculated }
  let r := checkSigningKeyTrust flags ctx
  if r < 0 then (r, ctx)
  else
    match ctx.action with
    | .verify | .verifyAndGenerate =>
        match ctx.pkey with
        | none => (ekeyrejected, ctx) -- `EVP_VerifyFinal` fails without a key
        | some pkey =>
            if ¬ crypto.verifyFinal ctx.mdctx.1 ctx.mdctx.2 ctx.signatureData pkey then
              (ekeyrejected, ctx)
            else
              let ctx := if ctx.action = .verifyAndGenerate then identified verified else verified
              (0, ctx.digestInit)
    | .verifyIdentity =>
        if calculated.take ctx.identity.type ≠ ctx.identity.digest then (ekeyrejected, ctx)
        else (0, verified.digestInit)
    | .generate =>
        let ctx := identified ctx
        if ctx.hasDataChecksum then (ecanceled, ctx) else (0, ctx.digestInit)
    | .generateV1 => (0, (identified ctx).digestInit)
    | .none => (0, ctx.digestInit)

/-- `apk_sign_ctx_mpart_cb`, the check at the end of data that has a checksum. -/
def checkData (crypto : Crypto Key) (flags : Flags) (ctx : SignCtx Key) : ℤ × SignCtx Key :=
  let calculated := crypto.digest ctx.mdctx.1 ctx.mdctx.2
  let size := ctx.mdctx.1.size
  if size = 0 ∨ calculated.take size ≠ ctx.dataChecksum.take size then (ekeyrejected, ctx)
  else
    let ctx := { ctx with dataVerified := true }
    if ¬ flags.allowUntrusted ∧ ¬ ctx.controlVerified then (enokey, ctx) else (0, ctx)

/-- `apk_sign_ctx_mpart_cb`. -/
def mpartCb (crypto : Crypto Key) (flags : Flags) (ctx : SignCtx Key) (part : MPart)
    (data : Option Bytes) : ℤ × SignCtx Key :=
  let data := data.getD []
  if part = .data ∨ (part = .boundary ∧ ctx.dataStarted) then (0, ctx.digestUpdate data)
  else if ¬ ctx.controlStarted then
    -- still in signature blocks
    if part = .finish then (ekeyrejected, ctx) else (0, ctx.digestInit)
  else
    let endOfControl := !ctx.dataStarted
    let ctx := { ctx with dataStarted := true }
    if ¬ ctx.hasDataChecksum ∧ endOfControl ∧ part ≠ .finish then (0, ctx.digestUpdate data)
    else
      let ctx := ctx.digestUpdate data
      if ctx.hasDataChecksum ∧ ¬ endOfControl then checkData crypto flags ctx
      else checkControl crypto flags ctx part

end SignCtx

end AriannaLinux.Apk
