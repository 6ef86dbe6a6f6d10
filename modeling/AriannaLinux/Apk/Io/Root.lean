import AriannaLinux.Apk.Io.Istream

/-! # The root file system

The calls that change the tree under `root_fd`, and what answers them. The tree is known
by the calls made on it so far: an answer is a function of those and of the call. Reading
the content of an archive entry into the tree is `apk_archive_entry_extract`.
-/

namespace AriannaLinux.Apk

/-- `APK_SCRIPT_*`. -/
inductive ScriptType where
  | preInstall | postInstall | preDeinstall | postDeinstall | preUpgrade | postUpgrade | trigger
  deriving DecidableEq, Repr

namespace ScriptType

/-- `apk_script_types`. -/
def name : ScriptType → Bytes
  | preInstall => text "pre-install"
  | postInstall => text "post-install"
  | preDeinstall => text "pre-deinstall"
  | postDeinstall => text "post-deinstall"
  | preUpgrade => text "pre-upgrade"
  | postUpgrade => text "post-upgrade"
  | trigger => text "trigger"

/-- The types in the order of their numbers. -/
def all : List ScriptType :=
  [preInstall, postInstall, preDeinstall, postDeinstall, preUpgrade, postUpgrade, trigger]

/-- `apk_script_type`; `none` is `APK_SCRIPT_INVALID`. -/
def ofName (bytes : Bytes) : Option ScriptType := all.find? fun type => type.name = bytes

end ScriptType

/-- A call that changes the tree under `root_fd`. Running a script is one call, with the
script's file, its text and its arguments. -/
inductive RootCall where
  | unlinkat (name : Bytes) (removedir : Bool)
  | renameat (old new : Bytes)
  | mkdirat (name : Bytes) (mode : ℕ)
  | fchownat (name : Bytes) (uid gid : ℕ)
  | fchmodat (name : Bytes) (mode : ℕ)
  | utimensat (name : Bytes) (mtime : ℤ)
  | openat (name : Bytes) (mode : ℕ)
  | write (name : Bytes) (bytes : Bytes)
  | linkat (old new : Bytes)
  | symlinkat (target name : Bytes)
  | mknodat (name : Bytes) (mode : ℕ) (device : ℕ × ℕ)
  | script (name : Bytes) (content : Bytes) (args : List Bytes)
  deriving DecidableEq, Repr

/-- What the tree answers, by the calls made before, newest first. -/
structure RootEnv where
  /-- The result of a call: negative is an error code, and `write` counts bytes. -/
  answer : List RootCall → RootCall → ℤ
  /-- `apk_file_get_info` without following links: its result, and the checksum of the
  given type it stored, if it stored one. -/
  fileInfo : List RootCall → Bytes → ℕ → ℤ × Option Checksum
  /-- What `errno` holds when no call has just failed. -/
  errno : List RootCall → ℕ
  /-- Whether a large file can be mapped for writing. -/
  maps : List RootCall → Bool

/-- The tree as something that holds it sees it. -/
structure RootAccess (σ : Type*) where
  call : RootCall → σ → ℤ × σ
  errno : σ → ℕ
  maps : σ → Bool

/-- `-EEXIST`. -/
def eexist : ℤ := -17

/-- `PATH_MAX`. -/
def pathMax : ℕ := 4096

/-- What `snprintf` leaves of a path in a buffer of `PATH_MAX`. -/
def pathBuffer (path : Bytes) : Bytes := (cString path).take (pathMax - 1)

/-! ## Extraction -/

variable {σ : Type*}

/-- `apk_istream_splice`, where a chunk that was read goes: into the mapping, or written. -/
def spliceChunk (root : RootAccess σ) (fn : Bytes) (mapped : Bool) (r : ℤ) (stored : Bytes)
    (s : σ) : ℤ × σ :=
  if mapped then (r, s) else root.call (.write fn stored) s

/-- The loop of `apk_istream_splice`. A count that does not fit is handed on as it is: the
caller compares it with the whole size. -/
def istreamSpliceLoop (read : ReadFunction σ) (root : RootAccess σ) (fn : Bytes)
    (mapped : Bool) (bufsz : ℕ) : ℕ → ℕ → ℤ → σ → Option (ℤ × σ)
  | 0, _, _, _ => none
  | fuel + 1, left, done, s =>
      if left = 0 then some (done, s)
      else
        let togo := min left bufsz
        (read s togo).bind fun ⟨r, stored, s⟩ =>
          -- a negative count is larger than any buffer, and writing it fails
          if r < 0 then some (r, s)
          else
            let (written, s) := spliceChunk root fn mapped r stored s
            if written ≠ r then some (r, s)
            else if r ≠ togo then some (done + r, s)
            else istreamSpliceLoop read root fn mapped bufsz fuel (left - togo) (done + r) s

/-- `apk_istream_splice` into a new file. -/
def istreamSplice (read : ReadFunction σ) (root : RootAccess σ) (fn : Bytes) (size : ℕ) (s : σ) :
    Option (ℤ × σ) :=
  let mapped := decide (128 * 1024 < size) && root.maps s
  let bufsz := min size (if mapped then 2 * 1024 * 1024 else 256 * 1024)
  istreamSpliceLoop read root fn mapped bufsz (size / bufsz + 2) size 0 s

/-- `S_IFLNK`. -/
def modeSymlink : ℕ := 0o120000
/-- `S_IFCHR`. -/
def modeCharDevice : ℕ := 0o020000
/-- `S_IFBLK`. -/
def modeBlockDevice : ℕ := 0o060000
/-- `S_IFIFO`. -/
def modeFifo : ℕ := 0o010000
/-- `S_IFSOCK`. -/
def modeSocket : ℕ := 0o140000

/-- A value cast to an unsigned type of the given width. -/
def toUnsigned (bits : ℕ) (value : ℤ) : ℕ := (value % 2 ^ bits).toNat

/-- `apk_archive_entry_extract`, the content: `none` when it is there, else the result. -/
def extractContent (read : ReadFunction σ) (root : RootAccess σ) (ae : FileInfo)
    (suffix fn : Bytes) (s : σ) : Option (Option ℤ × σ) :=
  let format := ae.mode &&& modeFormat
  let mode := ae.mode % 0o10000
  let outcome : ℤ × σ → Option ℤ × σ := fun (r, s) => (if r < 0 then some r else none, s)
  if format = modeDirectory then
    let (r, s) := root.call (.mkdirat fn mode) s
    some (outcome (if r = eexist then 0 else r, s))
  else if format = modeRegular then
    match ae.linkTarget with
    | some target => some (outcome (root.call (.linkat (pathBuffer (target ++ suffix)) fn) s))
    | none =>
        let (r, s) := root.call (.openat fn mode) s
        if r < 0 then some (some r, s)
        else
          (istreamSplice read root fn (toUnsigned 64 ae.size) s).map fun (r, s) =>
            if toUnsigned 64 r = toUnsigned 64 ae.size then (none, s)
            else (some (-(root.errno s)), s)
  else if format = modeSymlink then
    some (outcome (root.call (.symlinkat (ae.linkTarget.getD []) fn) s))
  else if format = modeSocket ∨ format = modeBlockDevice ∨ format = modeCharDevice ∨
      format = modeFifo then
    some (outcome (root.call (.mknodat fn mode ae.device) s))
  else some (some (-(root.errno s)), s)

/-- `apk_archive_entry_extract`, the permissions: chown resets the suid bit. -/
def extractMode (root : RootAccess σ) (ae : FileInfo) (fn : Bytes) (s : σ) : ℤ × σ :=
  if ae.mode &&& 0o7000 ≠ 0 then root.call (.fchmodat fn (ae.mode % 0o10000)) s else (0, s)

/-- `apk_archive_entry_extract`, the modification time. -/
def extractTime (root : RootAccess σ) (ae : FileInfo) (fn : Bytes) (s : σ) : ℤ × σ :=
  if ae.mode &&& modeFormat ≠ modeSymlink then root.call (.utimensat fn ae.mtime) s else (0, s)

/-- `apk_archive_entry_extract`, the owner, the permissions and the time. -/
def extractAttributes (root : RootAccess σ) (ae : FileInfo) (fn : Bytes) (s : σ) : ℤ × σ :=
  let (r, s) := root.call (.fchownat fn ae.uid ae.gid) s
  if r < 0 then (r, s)
  else
    let (r, s) := extractMode root ae fn s
    if r < 0 then (r, s)
    else
      let (r, s) := extractTime root ae fn s
      if r < 0 then (r, s) else (0, s)

/-- `apk_archive_entry_extract` under a name with a suffix. -/
def archiveEntryExtract (read : ReadFunction σ) (root : RootAccess σ) (ae : FileInfo)
    (suffix : Bytes) (s : σ) : Option (ℤ × σ) :=
  let fn := pathBuffer (ae.name ++ suffix)
  let format := ae.mode &&& modeFormat
  let s :=
    if (format ≠ modeDirectory ∧ format ≠ modeRegular) ∨ ae.linkTarget.isSome then
      (root.call (.unlinkat fn false) s).2
    else s
  (extractContent read root ae suffix fn s).map fun (failed, s) =>
    match failed with
    | some r => (r, s)
    | none => extractAttributes root ae fn s

/-! ## What an extraction keeps -/

section Keeps

variable {read : ReadFunction σ} {root : RootAccess σ} {P : σ → Prop}

theorem istreamSplice_keeps (keepsRead : ∀ s size out, P s → read s size = some out → P out.state)
    (keepsCall : ∀ call s, P s → P (root.call call s).2) {fn : Bytes} {size : ℕ} {s s' : σ} {r : ℤ}
    (holds : P s) (spliced : istreamSplice read root fn size s = some (r, s')) : P s' := by
  have loop : ∀ mapped bufsz fuel left done s, P s →
      istreamSpliceLoop read root fn mapped bufsz fuel left done s = some (r, s') → P s' := by
    intro mapped bufsz fuel
    induction fuel with
    | zero =>
        intro left done s _ looped
        cases looped
    | succ fuel ih =>
        intro left done s holds looped
        rw [istreamSpliceLoop] at looped
        split at looped
        · cases looped
          exact holds
        obtain ⟨out, reads, looped⟩ := Option.bind_eq_some_iff.mp looped
        have after := keepsRead _ _ _ holds reads
        have written : P (spliceChunk root fn mapped out.result out.stored out.state).2 := by
          unfold spliceChunk
          split
          · exact after
          · exact keepsCall _ _ after
        dsimp only at looped
        split at looped
        · cases looped
          exact after
        split at looped
        · cases looped
          exact written
        split at looped
        · cases looped
          exact written
        · exact ih _ _ _ written looped
  exact loop _ _ _ _ _ _ holds spliced

theorem extractContent_keeps
    (keepsRead : ∀ s size out, P s → read s size = some out → P out.state)
    (keepsCall : ∀ call s, P s → P (root.call call s).2) {ae : FileInfo} {suffix fn : Bytes}
    {s s' : σ} {failed : Option ℤ} (holds : P s)
    (extracted : extractContent read root ae suffix fn s = some (failed, s')) : P s' := by
  unfold extractContent at extracted
  dsimp only at extracted
  split at extracted
  · cases extracted
    exact keepsCall _ _ holds
  split at extracted
  · split at extracted
    · cases extracted
      exact keepsCall _ _ holds
    · split at extracted
      · cases extracted
        exact keepsCall _ _ holds
      · obtain ⟨⟨r, after⟩, spliced, pair⟩ := Option.map_eq_some_iff.mp extracted
        have kept := istreamSplice_keeps keepsRead keepsCall (keepsCall _ _ holds) spliced
        dsimp only at pair
        split at pair <;> (cases pair; exact kept)
  split at extracted
  · cases extracted
    exact keepsCall _ _ holds
  split at extracted
  · cases extracted
    exact keepsCall _ _ holds
  · cases extracted
    exact holds

theorem extractAttributes_keeps (keepsCall : ∀ call s, P s → P (root.call call s).2)
    (ae : FileInfo) (fn : Bytes) {s : σ} (holds : P s) :
    P (extractAttributes root ae fn s).2 := by
  have owned := keepsCall (.fchownat fn ae.uid ae.gid) s holds
  have moded : ∀ s, P s → P (extractMode root ae fn s).2 := by
    intro s holds
    unfold extractMode
    split
    · exact keepsCall _ _ holds
    · exact holds
  have timed : ∀ s, P s → P (extractTime root ae fn s).2 := by
    intro s holds
    unfold extractTime
    split
    · exact keepsCall _ _ holds
    · exact holds
  unfold extractAttributes
  dsimp only
  split
  · exact owned
  split
  · exact moded _ owned
  split
  · exact timed _ (moded _ owned)
  · exact timed _ (moded _ owned)

/-- What reads and calls keep, an extraction keeps. -/
theorem archiveEntryExtract_keeps
    (keepsRead : ∀ s size out, P s → read s size = some out → P out.state)
    (keepsCall : ∀ call s, P s → P (root.call call s).2) {ae : FileInfo} {suffix : Bytes}
    {s s' : σ} {r : ℤ} (holds : P s)
    (extracted : archiveEntryExtract read root ae suffix s = some (r, s')) : P s' := by
  unfold archiveEntryExtract at extracted
  obtain ⟨⟨failed, after⟩, content, pair⟩ := Option.map_eq_some_iff.mp extracted
  have kept : P after := by
    refine extractContent_keeps keepsRead keepsCall ?_ content
    split
    · exact keepsCall _ _ holds
    · exact holds
  dsimp only at pair
  split at pair
  · cases pair
    exact kept
  · have attributes := extractAttributes_keeps keepsCall ae (pathBuffer (ae.name ++ suffix)) kept
    rw [pair] at attributes
    exact attributes

end Keeps

end AriannaLinux.Apk
