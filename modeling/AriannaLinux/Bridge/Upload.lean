import AriannaLinux.Lib.Python.Dict
import AriannaLinux.Lib.Python.PosixPath

/-! # Uploads

Both endpoints join the name that the client sends to the upload directory and write to that
path. Neither looks at the name, so the path is in the directory only for names that stay there
when they are normalised (`uploadsBelow_iff`).
-/

namespace AriannaLinux.Bridge

open Python

/-- The components of `UPLOAD_DIR`. -/
def uploadComps : List Str := [lit "arianna_core", lit "upload"]

/-- `UPLOAD_DIR` -/
def uploadDir : Str := rootedPath uploadComps

example : uploadDir = lit "/arianna_core/upload" := rfl

theorem uploadComps_plain : ∀ comp ∈ uploadComps, Plain comp := by
  unfold Plain uploadComps
  decide

/-! ## The endpoints -/

/-- `HTTPBasicCredentials` -/
structure Credentials where
  username : Str
  password : Str
  deriving DecidableEq, Repr

/-- `HTTPException` -/
structure HttpError where
  statusCode : ℕ
  detail : Str
  deriving DecidableEq, Repr

inductive UploadReply where
  | refused (error : HttpError)
  /-- `os.path.join` raises: the part has no file name -/
  | raised
  /-- the file is written and its name returned -/
  | stored (path : Str) (data : List UInt8) (filename : Str)
  deriving DecidableEq, Repr

/-- The path that is opened for writing. -/
def UploadReply.opened : UploadReply → Option Str
  | .stored path _ _ => some path
  | _ => none

/-- `_check_rate`, with the calls it has seen. -/
def checkRate (rateLimit now : ℤ) (lastCall : Dict Str ℤ) (client : Str) :
    Except HttpError (Dict Str ℤ) :=
  if now - (lastCall.get client).getD 0 < rateLimit then
    .error ⟨429, lit "rate limit exceeded"⟩
  else .ok (lastCall.set client now)

def uploadFile (apiToken : Str) (rateLimit now : ℤ) (lastCall : Dict Str ℤ)
    (credentials : Credentials) (filename : Option Str) (content : List UInt8) :
    UploadReply × Dict Str ℤ :=
  if credentials.password ≠ apiToken then (.refused ⟨401, lit "unauthorized"⟩, lastCall)
  else
    match checkRate rateLimit now lastCall credentials.username with
    | .error error => (.refused error, lastCall)
    | .ok lastCall =>
        match filename with
        | none => (.raised, lastCall)
        | some name => (.stored (pathJoin uploadDir name) content name, lastCall)

/-- What a client sends on the socket. -/
inductive SocketMessage where
  | bytes (data : List UInt8)
  | text (text : Str)
  | disconnect
  deriving DecidableEq, Repr

inductive SocketReply where
  | closed (code : ℕ)
  | received (path : Str) (data : List UInt8)
  deriving DecidableEq, Repr

/-- The path that is opened for writing. -/
def SocketReply.opened : SocketReply → Option Str
  | .received path _ => some path
  | _ => none

/-- The loop of `upload_ws`, which ends at a disconnect or at a message that is not bytes. -/
def receiveBytes : List SocketMessage → List UInt8
  | .bytes data :: messages => data ++ receiveBytes messages
  | _ => []

def uploadWs (apiToken : Str) (token name : Option Str) (messages : List SocketMessage) :
    SocketReply :=
  if token ≠ some apiToken then .closed 1008
  else
    match name with
    | none | some [] => .closed 1008
    | some name => .received (pathJoin uploadDir name) (receiveBytes messages)

/-! ## Where the files go -/

/-- Whatever else a request has, the path opened for the name is below the directory. -/
def UploadsBelow (apiToken name : Str) : Prop :=
  (∀ rateLimit now lastCall credentials content path,
    (uploadFile apiToken rateLimit now lastCall credentials (some name) content).1.opened =
      some path → StrictlyBelow uploadDir (normpath path)) ∧
  ∀ token messages path,
    (uploadWs apiToken token (some name) messages).opened = some path →
      StrictlyBelow uploadDir (normpath path)

/-- With `.`, empty components and `..` cancelled, a relative name goes down into the directories
of `UPLOAD_DIR` that it climbs out of and then further, and an absolute one goes down through
`UPLOAD_DIR` and then further. -/
def InsideName (name : Str) : Prop :=
  if isAbsolute name then initialSlashes name = 1 ∧ Further uploadComps (cancel name).2
  else Further (uploadComps.drop (uploadComps.length - (cancel name).1)) (cancel name).2

instance (name : Str) : Decidable (InsideName name) :=
  inferInstanceAs (Decidable (if isAbsolute name then _ ∧ _ else _))

example : InsideName (lit "a/../b") := by decide +kernel
example : InsideName (lit "../upload/b") := by decide +kernel
example : ¬ InsideName (lit "//arianna_core/upload/b") := by decide +kernel

theorem insideName_iff (name : Str) :
    InsideName name ↔ StrictlyBelow uploadDir (normpath (pathJoin uploadDir name)) :=
  (strictlyBelow_join_iff uploadComps_plain (List.cons_ne_nil _ _) name).symm

theorem uploadFile_opened {apiToken : Str} {rateLimit now : ℤ} {lastCall : Dict Str ℤ}
    {credentials : Credentials} {name path : Str} {content : List UInt8}
    (opened : (uploadFile apiToken rateLimit now lastCall credentials (some name)
      content).1.opened = some path) :
    path = pathJoin uploadDir name := by
  unfold uploadFile at opened
  split at opened
  · cases opened
  · split at opened
    · cases opened
    · exact (Option.some.inj opened).symm

theorem uploadWs_opened {apiToken : Str} {token : Option Str} {name path : Str}
    {messages : List SocketMessage}
    (opened : (uploadWs apiToken token (some name) messages).opened = some path) :
    path = pathJoin uploadDir name := by
  unfold uploadWs at opened
  split at opened
  · cases opened
  · split at opened
    · cases opened
    · cases opened
    · rename_i same
      cases same
      exact (Option.some.inj opened).symm

/-- **Uploads below the directory**: the paths opened for a name are strictly below `UPLOAD_DIR`
exactly when the name goes further than the directory. -/
theorem uploadsBelow_iff (apiToken name : Str) : UploadsBelow apiToken name ↔ InsideName name := by
  rw [insideName_iff]
  constructor
  · rintro ⟨below, -⟩
    refine below 0 0 .empty ⟨[], apiToken⟩ [] _ ?_
    rw [uploadFile, if_neg (not_not.mpr rfl), checkRate, if_neg (by simp)]
    rfl
  · intro below
    refine ⟨?_, ?_⟩
    · intro rateLimit now lastCall credentials content path opened
      rwa [uploadFile_opened opened]
    · intro token messages path opened
      rwa [uploadWs_opened opened]

/-- A name that climbs is written to the directory above. -/
theorem not_uploadsBelow_climbing : ¬ ∀ apiToken name, UploadsBelow apiToken name := by
  intro every
  have below := (every (lit "change-me") (lit "../x")).2 (some (lit "change-me")) [] _ rfl
  rw [← insideName_iff] at below
  exact absurd below (by decide +kernel)

end AriannaLinux.Bridge
