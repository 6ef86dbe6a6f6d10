import AriannaLinux.Apk.BlobRoundTrip
import AriannaLinux.Apk.Deps
import AriannaLinux.Apk.PackageName
import AriannaLinux.Apk.Rdepends

/-! # Cleaning the package cache

`cache_clean` goes through the cache directory and unlinks what it does not know. Whether a
file is looked up as a package or as an index is decided by parsing its name. With versions
that are found behind a name and names that fit the buffer it unlinks exactly the files that
belong to no package and no repository (`cacheClean_exact`).
-/

namespace AriannaLinux.Apk

/-! ## The names of cached files -/

/-- `APK_CACHE_CSUM_BYTES`. -/
def cacheCsumBytes : ℕ := 4

/-- The memory of a blob after a row of pushes. A piece that does not fit makes the blob NULL,
and nothing is stored from then on. -/
def storePieces : List Bytes → Bytes → Bytes
  | [], mem => mem
  | piece :: pieces, mem =>
      if mem.length < piece.length then mem
      else piece ++ storePieces pieces (mem.drop piece.length)

/-- `APK_BLOB_STR` of a buffer; without a NUL in it `strlen` runs over its end. -/
def bufferString (mem : Bytes) : Option Bytes := if 0 ∈ mem then some (cString mem) else none

/-- The first bytes of a checksum in hexadecimal. -/
def cacheHash (csum : Checksum) : Bytes := (csum.data.take cacheCsumBytes).flatMap hexPair

/-- `apk_pkg_format_cache` into a buffer. A package without name or version is a NULL pointer
that is followed. -/
def formatCache (db : Database) (pkg : PkgId) (tmp : Bytes) : Option Bytes :=
  match (db.pkgs.get pkg).name, (db.pkgs.get pkg).version with
  | some name, some version =>
      some (storePieces [cString (db.names.get name).name, text "-", cString version, text ".",
        cacheHash (db.pkgs.get pkg).csum, text ".apk", [0]] tmp)
  | _, _ => none

/-- `apk_cache_format_index` into a buffer, for a repository with this checksum. -/
def formatIndex (repo : Checksum) (ver : ℕ) (tmp : Bytes) : Bytes :=
  storePieces [if ver = 0 then text "APKINDEX." else text "APK_INDEX.", cacheHash repo,
    if ver = 0 then text ".tar.gz" else text ".gz", [0]] tmp

/-! ## The loops -/

/-- The loop over the repositories: whether the index of one has the name, and the buffer. -/
def indexKnown (b : Bytes) : List Checksum → Bytes → Option (Bool × Bytes)
  | [], tmp => some (false, tmp)
  | repo :: repos, tmp => do
      let tmp := formatIndex repo 0 tmp
      let name ← bufferString tmp
      if blobCompare b name = 0 then some (true, tmp)
      else do
        let tmp := formatIndex repo 1 tmp
        let name ← bufferString tmp
        if blobCompare b name = 0 then some (true, tmp) else indexKnown b repos tmp

/-- The loop over the packages of a name. -/
def packageKnown (db : Database) (b : Bytes) : List PkgId → Bytes → Option (Bool × Bytes)
  | [], tmp => some (false, tmp)
  | pkg :: pkgs, tmp => do
      let tmp ← formatCache db pkg tmp
      let name ← bufferString tmp
      if blobCompare b name = 0 then some (true, tmp) else packageKnown db b pkgs tmp

/-- What `cache_clean` looks at: the database, in which `apk_db_get_name` may add a name, and
the buffer. -/
structure CleanState where
  db : Database
  tmp : Bytes

/-- The block of `cache_clean` that decides about a file; `true` is to be deleted. -/
def cleanDelete (repos : List Checksum) (s : CleanState) (b : Bytes) :
    Option (Bool × CleanState) :=
  if blobCompare b (text "installed") = 0 then some (false, s)
  else
    match parseName (some b) with
    | none =>
        (indexKnown b repos s.tmp).map fun (known, tmp) => (!known, { s with tmp })
    | some (bname, _) =>
        let (db, name) := s.db.getName bname
        (packageKnown db b (db.names.get name).pkgs s.tmp).map fun (known, tmp) =>
          (!known, { db, tmp })

/-- The loop of `cache_clean`: the names given to `unlinkat`. -/
def cacheCleanLoop (repos : List Checksum) (flags : Flags) :
    List Bytes → CleanState → Option (List Bytes × CleanState)
  | [], s => some ([], s)
  | entry :: entries, s =>
      if entry.head? = some (ascii '.') then cacheCleanLoop repos flags entries s
      else do
        let (delete, s) ← cleanDelete repos s entry
        let (unlinked, s) ← cacheCleanLoop repos flags entries s
        if delete && !flags.simulate then some (entry :: unlinked, s) else some (unlinked, s)

/-- `cache_clean` on a database with repositories of the checksums given; `tmp` is what the
stack holds, and `listing` what `readdir` returns, if the directory can be opened. -/
def cacheClean (repos : List Checksum) (flags : Flags) (db : Database) (tmp : Bytes)
    (listing : Option (List Bytes)) : Option (ℤ × List Bytes × CleanState) :=
  match listing with
  | none => some (-1, [], ⟨db, tmp⟩)
  | some entries =>
      (cacheCleanLoop repos flags entries ⟨db, tmp⟩).map fun (unlinked, s) => (0, unlinked, s)

/-! ## What the buffer holds -/

theorem storePieces_fit {pieces : List Bytes} {mem : Bytes}
    (fit : pieces.flatten.length ≤ mem.length) :
    storePieces pieces mem = pieces.flatten ++ mem.drop pieces.flatten.length := by
  induction pieces generalizing mem with
  | nil => rfl
  | cons piece pieces ih =>
      rw [List.flatten_cons, List.length_append] at fit ⊢
      have rest : pieces.flatten.length ≤ (mem.drop piece.length).length := by
        rw [List.length_drop]
        omega
      rw [storePieces, if_neg (by omega), ih rest, List.drop_drop, List.append_assoc]

theorem bufferString_text {name : Bytes} (free : 0 ∉ name) (rest : Bytes) :
    bufferString (name ++ 0 :: rest) = some name := by
  have whole : cString (name ++ 0 :: rest) = name := by
    rw [cString, List.takeWhile_append_of_pos fun c member => ?_]
    · simp
    · simp only [ne_eq, decide_not, Bool.not_eq_true', decide_eq_false_iff_not]
      rintro rfl
      exact free member
  rw [bufferString, if_pos (by simp), whole]

/-- Pieces that fit, with a NUL as the last one, leave their text in the buffer. -/
theorem storePieces_text {pieces : List Bytes} {mem : Bytes} (free : 0 ∉ pieces.flatten)
    (fit : pieces.flatten.length < mem.length) :
    (storePieces (pieces ++ [[0]]) mem).length = mem.length ∧
      bufferString (storePieces (pieces ++ [[0]]) mem) = some pieces.flatten := by
  have length : (pieces ++ [[0]]).flatten.length = pieces.flatten.length + 1 := by
    rw [List.flatten_append, List.length_append]
    rfl
  rw [storePieces_fit (by omega)]
  constructor
  · rw [List.length_append, List.length_drop]
    omega
  · rw [List.flatten_append, List.append_assoc]
    exact bufferString_text free _

theorem cacheHash_digits (csum : Checksum) : HashDigits (cacheHash csum) where
  length := by
    rw [cacheHash, length_flatMap_hexPair, List.length_take, csum.sized]
    rfl
  digits c member := by
    obtain ⟨byte, -, inPair⟩ := List.mem_flatMap.mp member
    have high : byte.toNat / 16 < 16 := Nat.div_lt_of_lt_mul byte.toNat_lt
    have low : byte.toNat % 16 < 16 := Nat.mod_lt _ (by decide)
    rcases List.mem_pair.mp inPair with rfl | rfl
    · rw [dx_xd high]
      exact Option.some_ne_none _
    · rw [dx_xd low]
      exact Option.some_ne_none _

theorem HashDigits.free {hex : Bytes} (hash : HashDigits hex) : 0 ∉ hex :=
  fun member => absurd (by decide) (hash.digits _ member)

/-- `APKINDEX.12345678.tar.gz`, or `APK_INDEX.12345678.gz` in the old format. -/
def indexFile (repo : Checksum) (ver : ℕ) : Bytes :=
  (if ver = 0 then text "APKINDEX." else text "APK_INDEX.") ++
    (cacheHash repo ++ if ver = 0 then text ".tar.gz" else text ".gz")

/-- `pkgname-1.0_alpha1.12345678.apk`. -/
def packageFile (name version : Bytes) (csum : Checksum) : Bytes :=
  name ++ ascii '-' :: (version ++ ascii '.' :: (cacheHash csum ++ text ".apk"))

theorem formatIndex_text (repo : Checksum) (ver : ℕ) {tmp : Bytes} (size : tmp.length = pathMax) :
    (formatIndex repo ver tmp).length = pathMax ∧
      bufferString (formatIndex repo ver tmp) = some (indexFile repo ver) := by
  have hash := cacheHash_digits repo
  have flat : [if ver = 0 then text "APKINDEX." else text "APK_INDEX.", cacheHash repo,
      if ver = 0 then text ".tar.gz" else text ".gz"].flatten = indexFile repo ver := by
    simp [indexFile]
  have literals : ∀ c ∈ text "APKINDEX." ++ text "APK_INDEX." ++ text ".tar.gz" ++ text ".gz",
      c ≠ 0 := by decide +kernel
  have free : 0 ∉ indexFile repo ver := by
    intro member
    have cases : (0 : UInt8) ∈ text "APKINDEX." ++ text "APK_INDEX." ++ text ".tar.gz" ++
        text ".gz" ∨ 0 ∈ cacheHash repo := by
      unfold indexFile at member
      simp only [List.mem_append] at member ⊢
      split at member
      · rcases member with first | digits | last
        · exact .inl (.inl (.inl (.inl first)))
        · exact .inr digits
        · exact .inl (.inl (.inr last))
      · rcases member with first | digits | last
        · exact .inl (.inl (.inl (.inr first)))
        · exact .inr digits
        · exact .inl (.inr last)
    exact cases.elim (fun literal => literals 0 literal rfl) hash.free
  have short : (indexFile repo ver).length < tmp.length := by
    rw [size, indexFile, List.length_append, List.length_append, hash.length]
    split <;> decide
  obtain ⟨length, string⟩ := @storePieces_text [if ver = 0 then text "APKINDEX."
    else text "APK_INDEX.", cacheHash repo, if ver = 0 then text ".tar.gz" else text ".gz"]
    tmp (by rwa [flat]) (by rwa [flat])
  rw [flat] at string
  exact ⟨length.trans size, string⟩

/-- A package whose file in the cache is found by its name: the version is one that is found
behind a name, and the name of the file fits the buffer. -/
structure CacheNamed (db : Database) (pkg : PkgId) (name : NameId) (version : Bytes) : Prop where
  ownName : (db.pkgs.get pkg).name = some name
  ownVersion : (db.pkgs.get pkg).version = some version
  found : FoundBehind (cString version)
  fits : (cString (db.names.get name).name).length + (cString version).length + 15 ≤ pathMax

theorem cString_free (bytes : Bytes) : 0 ∉ cString bytes := fun member => by
  have kept := List.mem_takeWhile_imp member
  simp at kept

theorem formatCache_text {db : Database} {pkg : PkgId} {name : NameId} {version tmp : Bytes}
    (named : CacheNamed db pkg name version) (size : tmp.length = pathMax) :
    ∃ buffer, formatCache db pkg tmp = some buffer ∧ buffer.length = pathMax ∧
      bufferString buffer = some (packageFile (cString (db.names.get name).name)
        (cString version) (db.pkgs.get pkg).csum) := by
  have hash := cacheHash_digits (db.pkgs.get pkg).csum
  have flat : [cString (db.names.get name).name, text "-", cString version, text ".",
      cacheHash (db.pkgs.get pkg).csum, text ".apk"].flatten =
        packageFile (cString (db.names.get name).name) (cString version)
          (db.pkgs.get pkg).csum := by
    simp [packageFile, text]
  have free : 0 ∉ packageFile (cString (db.names.get name).name) (cString version)
      (db.pkgs.get pkg).csum := by
    unfold packageFile
    simp only [List.mem_append, List.mem_cons, not_or]
    exact ⟨cString_free _, by decide, cString_free _, by decide, hash.free, by decide⟩
  have short : (packageFile (cString (db.names.get name).name) (cString version)
      (db.pkgs.get pkg).csum).length < tmp.length := by
    have fits := named.fits
    have suffix : (text ".apk").length = 4 := rfl
    rw [size, packageFile]
    simp only [List.length_append, List.length_cons, hash.length, suffix]
    omega
  obtain ⟨length, string⟩ := @storePieces_text _ tmp (by rwa [flat]) (by rwa [flat])
  rw [flat] at string
  refine ⟨_, ?_, length.trans size, string⟩
  unfold formatCache
  rw [named.ownName, named.ownVersion]
  rfl

/-! ## What is known -/

/-- The name `apk_pkg_format_cache` gives the file of a package, in a cleared buffer. -/
def cacheName (db : Database) (pkg : PkgId) : Option Bytes :=
  (formatCache db pkg (List.replicate pathMax 0)).bind bufferString

/-- The name `apk_cache_format_index` gives the index of a repository, in a cleared buffer. -/
def indexName (repo : Checksum) (ver : ℕ) : Option Bytes :=
  bufferString (formatIndex repo ver (List.replicate pathMax 0))

/-- A package that is listed under a name has this file in the cache. -/
def PackageFile (db : Database) (entry : Bytes) : Prop :=
  ∃ name, ∃ pkg ∈ (db.names.get name).pkgs, cacheName db pkg = some entry

/-- A configured repository has this index, in one of the formats. -/
def IndexFile (repos : List Checksum) (entry : Bytes) : Prop :=
  ∃ repo ∈ repos, indexName repo 0 = some entry ∨ indexName repo 1 = some entry

/-- What the cache directory is to keep. -/
def CacheKept (db : Database) (repos : List Checksum) (entry : Bytes) : Prop :=
  entry.head? = some (ascii '.') ∨ entry = text "installed" ∨ IndexFile repos entry ∨
    PackageFile db entry

namespace Database

/-- The table of names finds every name, and no name contains a NUL. -/
structure NamesTabled (db : Database) : Prop where
  filed : db.NamesFiled
  free : ∀ name < db.names.size, 0 ∉ (db.names.get name).name
  found : ∀ name < db.names.size, db.queryName (db.names.get name).name = some name

theorem namesTabled_empty : NamesTabled {} :=
  ⟨namesFiled_empty, fun _ absurd => (Nat.not_lt_zero _ absurd).elim,
    fun _ absurd => (Nat.not_lt_zero _ absurd).elim⟩

/-- Looking up a name without NUL keeps the names, adds one without packages at most, and
finds the name. -/
theorem NamesTabled.getName {db : Database} (tabled : db.NamesTabled) {name : Bytes}
    (free : 0 ∉ name) :
    (db.getName name).1.NamesTabled ∧ (db.getName name).1.pkgs = db.pkgs ∧
      (∀ n, ((db.getName name).1.names.get n).pkgs = (db.names.get n).pkgs) ∧
      (∀ n < db.names.size, ((db.getName name).1.names.get n).name = (db.names.get n).name) ∧
      (db.getName name).1.queryName name = some (db.getName name).2 := by
  obtain ⟨filed, grow, found⟩ := getName_spec tabled.filed free
  cases before : db.queryName name with
  | some id =>
      rw [getName_of_found before] at found ⊢
      exact ⟨tabled, rfl, fun _ => rfl, fun _ _ => rfl, found⟩
  | none =>
      have names : (db.getName name).1.names = db.names.alloc { name := blobCstr name } := by
        simp only [Database.getName, before]
      have id : (db.getName name).2 = db.names.size := by
        simp only [Database.getName, before]
      have own : ((db.getName name).1.names.get db.names.size).name = name := by
        rw [names, Arena.get_alloc, if_pos rfl]
        exact cString_eq_self free
      refine ⟨⟨filed, ?_, ?_⟩, by simp only [Database.getName, before], ?_, grow.kept, found⟩
      · intro n inside
        rw [names, Arena.size_alloc] at inside
        rcases Nat.lt_succ_iff_lt_or_eq.mp inside with old | rfl
        · rw [grow.kept n old]
          exact tabled.free n old
        · rwa [own]
      · intro n inside
        rw [names, Arena.size_alloc] at inside
        rcases Nat.lt_succ_iff_lt_or_eq.mp inside with old | rfl
        · rw [grow.kept n old]
          exact grow.found _ _ (tabled.found n old)
        · rw [own, found, id]
      · intro n
        rw [names, Arena.get_alloc]
        split
        · rename_i here
          rw [here, Arena.get_of_size_le _ le_rfl]
          rfl
        · rfl

/-- The texts of the names and their table are all that matters. -/
theorem NamesTabled.of_names {db next : Database} (tabled : db.NamesTabled)
    (table : next.availableNames = db.availableNames) (size : next.names.size = db.names.size)
    (texts : ∀ n, (next.names.get n).name = (db.names.get n).name) : next.NamesTabled where
  filed n member := by
    rw [size]
    exact tabled.filed n (table ▸ member)
  free n inside := by
    rw [texts]
    exact tabled.free n (size ▸ inside)
  found n inside := by
    unfold queryName
    simp only [table, texts]
    exact tabled.found n (size ▸ inside)

theorem availableNames_pkgAdd (db : Database) (name : NameId) (pkg : PkgId) :
    (db.pkgAdd name pkg).1.availableNames = db.availableNames := by
  have uninstall : ∀ db : Database, (db.pkgUninstall false pkg).availableNames =
      db.availableNames := by
    intro db
    unfold pkgUninstall
    split
    · rfl
    · rfl
  have ipkg : ∀ (db : Database) idb, (db.moveIpkg idb pkg).availableNames =
      db.availableNames := by
    intro db idb
    unfold moveIpkg
    split
    · rfl
    · rfl
  have filename : ∀ (db : Database) idb, (db.moveFilename idb pkg).availableNames =
      db.availableNames := by
    intro db idb
    unfold moveFilename
    dsimp only
    split
    · rfl
    · rfl
  unfold pkgAdd
  dsimp only
  split
  · rfl
  · dsimp only
    rw [uninstall, ipkg, filename]
    rfl

theorem NamesTabled.pkgAdd {db : Database} (tabled : db.NamesTabled) (name : NameId)
    (pkg : PkgId) : (db.pkgAdd name pkg).1.NamesTabled := by
  cases known : db.getPkg (db.pkgs.get pkg).csum with
  | some idb =>
      have keeps : KeepsIndex Package.name db (db.pkgAdd name pkg).1 :=
        db.keepsIndex_pkgAdd (fun _ _ => rfl) (fun _ _ => rfl) (fun _ _ => rfl) known
      exact tabled.of_names (availableNames_pkgAdd db name pkg) (by rw [keeps.names])
        fun n => by rw [keeps.names]
  | none =>
      rw [db.pkgAdd_of_getPkg_none known]
      refine tabled.of_names rfl ?_ fun n => ?_
      · rw [size_pkgRdependsLoop, Arena.size_modify]
      · rw [@field_pkgRdependsLoop _ Name.name fun _ _ => rfl]
        exact Arena.get_modify_field Name.name _ _ _ _ fun _ => rfl

/-- The names of a run of insertions are found, if none contains a NUL. -/
theorem namesTabled_of_run {actions : List IndexAction} {start db : Database}
    (tabled : start.NamesTabled)
    (free : ∀ name, IndexAction.getName name ∈ actions → 0 ∉ name)
    (reached : run indexStep start actions = some db) : db.NamesTabled := by
  induction actions generalizing start with
  | nil =>
      cases reached
      exact tabled
  | cons action actions ih =>
      obtain ⟨next, stepped, reached⟩ := run_cons_eq_some.mp reached
      refine ih ?_ (fun name member => free name (List.mem_cons_of_mem _ member)) reached
      cases action with
      | getName name =>
          cases stepped
          exact (tabled.getName (free name List.mem_cons_self)).1
      | pkgAdd pkg =>
          simp only [indexStep] at stepped
          split at stepped
          · cases stepped
          · split at stepped
            · cases stepped
              have allocated : NamesTabled { start with pkgs := start.pkgs.alloc pkg } :=
                tabled.of_names rfl rfl fun _ => rfl
              exact allocated.pkgAdd _ _
            · cases stepped

end Database

/-- A database all of whose packages have files that are found by their names. -/
structure Cacheable (db : Database) : Prop where
  tabled : db.NamesTabled
  own : db.NamesOwn
  named : ∀ name, ∀ pkg ∈ (db.names.get name).pkgs,
    ∃ version, CacheNamed db pkg name version

theorem indexName_eq (repo : Checksum) (ver : ℕ) : indexName repo ver = some (indexFile repo ver) :=
  (formatIndex_text repo ver (by simp)).2

theorem CacheNamed.cacheName {db : Database} {pkg : PkgId} {name : NameId} {version : Bytes}
    (named : CacheNamed db pkg name version) :
    cacheName db pkg = some (packageFile (cString (db.names.get name).name) (cString version)
      (db.pkgs.get pkg).csum) := by
  obtain ⟨buffer, formatted, -, string⟩ :=
    @formatCache_text _ _ _ _ (List.replicate pathMax 0) named (by simp)
  rw [AriannaLinux.Apk.cacheName, formatted]
  exact string

/-! ## The loops -/

/-- The loop over the repositories says whether an index has the name. -/
theorem indexKnown_spec (b : Bytes) (repos : List Checksum) {tmp : Bytes}
    (size : tmp.length = pathMax) :
    ∃ known tmp', indexKnown b repos tmp = some (known, tmp') ∧ tmp'.length = pathMax ∧
      (known = true ↔ IndexFile repos b) := by
  induction repos generalizing tmp with
  | nil => exact ⟨false, tmp, rfl, size, by simp [IndexFile]⟩
  | cons repo repos ih =>
      obtain ⟨size0, string0⟩ := formatIndex_text repo 0 size
      obtain ⟨size1, string1⟩ := formatIndex_text repo 1 size0
      have cons : IndexFile (repo :: repos) b ↔
          (b = indexFile repo 0 ∨ b = indexFile repo 1) ∨ IndexFile repos b := by
        simp only [IndexFile, List.exists_mem_cons_iff, indexName_eq, Option.some.injEq,
          eq_comm (b := b)]
      rw [cons]
      simp only [indexKnown, string0, string1, blobCompare_eq_zero, Option.bind_eq_bind,
        Option.bind_some]
      by_cases first : b = indexFile repo 0
      · exact ⟨true, _, if_pos first, size0, iff_of_true rfl (.inl (.inl first))⟩
      · rw [if_neg first]
        by_cases second : b = indexFile repo 1
        · exact ⟨true, _, if_pos second, size1, iff_of_true rfl (.inl (.inr second))⟩
        · rw [if_neg second]
          obtain ⟨known, tmp', found, size', iff⟩ := ih size1
          exact ⟨known, tmp', found, size', by simp [first, second, iff]⟩

/-- The loop over the packages of a name says whether one has the file. -/
theorem packageKnown_spec {db : Database} (b : Bytes) {pkgs : List PkgId} {name : NameId}
    (named : ∀ pkg ∈ pkgs, ∃ version, CacheNamed db pkg name version) {tmp : Bytes}
    (size : tmp.length = pathMax) :
    ∃ known tmp', packageKnown db b pkgs tmp = some (known, tmp') ∧ tmp'.length = pathMax ∧
      (known = true ↔ ∃ pkg ∈ pkgs, cacheName db pkg = some b) := by
  induction pkgs generalizing tmp with
  | nil => exact ⟨false, tmp, rfl, size, by simp⟩
  | cons pkg pkgs ih =>
      obtain ⟨version, isNamed⟩ := named pkg List.mem_cons_self
      obtain ⟨buffer, formatted, size', string⟩ := formatCache_text isNamed size
      have own := isNamed.cacheName
      rw [← own] at string
      have cons : (∃ other ∈ pkg :: pkgs, cacheName db other = some b) ↔
          cacheName db pkg = some b ∨ ∃ other ∈ pkgs, cacheName db other = some b :=
        List.exists_mem_cons_iff _ _ _
      rw [cons]
      simp only [packageKnown, formatted, string, own, blobCompare_eq_zero, Option.bind_eq_bind,
        Option.bind_some, Option.some.injEq]
      by_cases here : b = packageFile (cString (db.names.get name).name) (cString version)
          (db.pkgs.get pkg).csum
      · exact ⟨true, _, if_pos here, size', iff_of_true rfl (.inl here.symm)⟩
      · rw [if_neg here]
        obtain ⟨known, tmp', found, size'', iff⟩ :=
          ih (fun other member => named other (List.mem_cons_of_mem _ member)) size'
        exact ⟨known, tmp', found, size'', by simp [Ne.symm here, iff]⟩

/-! ## One file -/

theorem parseName_packageFile (name : Bytes) {version : Bytes} (found : FoundBehind version)
    (csum : Checksum) :
    parseName (some (packageFile name version csum)) =
      some (name, version ++ ascii '.' :: (cacheHash csum ++ text ".apk")) := by
  refine parseName_join name (found.append ?_ ?_)
  · simp only [List.mem_cons, List.mem_append, not_or]
    exact ⟨by decide, (cacheHash_digits csum).dashless, by decide⟩
  · intro c rest same
    rw [← (List.cons.inj same).1]
    decide

/-- A name without dashes is not that of a package. -/
theorem parseName_dashless {apkname : Bytes} (dashless : ascii '-' ∉ apkname) :
    parseName (some apkname) = none := by
  have loop : ∀ i, parseNameLoop apkname i 0 = none := by
    intro i
    induction i with
    | zero => rfl
    | succ i ih =>
        rw [parseNameLoop, if_pos fun dash => dashless (List.mem_of_getElem? dash), ih]
  rw [parseName, loop]
  rfl

theorem parseName_indexFile (repo : Checksum) (ver : ℕ) :
    parseName (some (indexFile repo ver)) = none := by
  refine parseName_dashless ?_
  unfold indexFile
  simp only [List.mem_append, not_or]
  refine ⟨?_, (cacheHash_digits repo).dashless, ?_⟩
  · split <;> decide
  · split <;> decide

/-- The files of the packages stay the same. -/
structure SameFiles (db next : Database) : Prop where
  pkgs : next.pkgs = db.pkgs
  listed : ∀ name, (next.names.get name).pkgs = (db.names.get name).pkgs
  texts : ∀ name, (db.names.get name).pkgs ≠ [] →
    (next.names.get name).name = (db.names.get name).name

theorem SameFiles.refl (db : Database) : SameFiles db db :=
  ⟨rfl, fun _ => rfl, fun _ _ => rfl⟩

theorem Cacheable.sameFiles_getName {db : Database} (cacheable : Cacheable db) {name : Bytes}
    (free : 0 ∉ name) : SameFiles db (db.getName name).1 := by
  obtain ⟨-, pkgs, listed, texts, -⟩ := cacheable.tabled.getName free
  refine ⟨pkgs, listed, fun n nonempty => texts n ?_⟩
  by_contra outside
  refine nonempty ?_
  rw [Arena.get_of_size_le _ (not_lt.mp outside)]
  rfl

/-- What a package of a name is called stays the same. -/
theorem SameFiles.cacheNamed {db next : Database} (same : SameFiles db next) {pkg : PkgId}
    {name : NameId} {version : Bytes} (member : pkg ∈ (db.names.get name).pkgs)
    (named : CacheNamed db pkg name version) :
    CacheNamed next pkg name version ∧ cacheName next pkg = cacheName db pkg := by
  have text := same.texts name (List.ne_nil_of_mem member)
  have named' : CacheNamed next pkg name version :=
    ⟨by rw [same.pkgs, named.ownName], by rw [same.pkgs, named.ownVersion], named.found,
      by rw [text]; exact named.fits⟩
  exact ⟨named', by rw [named'.cacheName, named.cacheName, text, same.pkgs]⟩

theorem Cacheable.getName {db : Database} (cacheable : Cacheable db) {name : Bytes}
    (free : 0 ∉ name) : Cacheable (db.getName name).1 := by
  have same := cacheable.sameFiles_getName free
  refine ⟨(cacheable.tabled.getName free).1, fun n pkg member => ?_, fun n pkg member => ?_⟩
  · rw [same.listed] at member
    rw [same.pkgs]
    exact cacheable.own n pkg member
  · rw [same.listed] at member
    obtain ⟨version, named⟩ := cacheable.named n pkg member
    exact ⟨version, (same.cacheNamed member named).1⟩

theorem Cacheable.packageFile_iff {db next : Database} (cacheable : Cacheable db)
    (same : SameFiles db next) (entry : Bytes) :
    PackageFile next entry ↔ PackageFile db entry := by
  have names (name : NameId) (pkg : PkgId) (member : pkg ∈ (db.names.get name).pkgs) :
      cacheName next pkg = cacheName db pkg := by
    obtain ⟨version, named⟩ := cacheable.named name pkg member
    exact (same.cacheNamed member named).2
  constructor
  · rintro ⟨name, pkg, member, file⟩
    rw [same.listed] at member
    exact ⟨name, pkg, member, names name pkg member ▸ file⟩
  · rintro ⟨name, pkg, member, file⟩
    exact ⟨name, pkg, (same.listed name).symm ▸ member, (names name pkg member).trans file⟩

theorem parseName_subset {b bname bver : Bytes} (parsed : parseName (some b) = some (bname, bver)) :
    bname ⊆ b := by
  obtain ⟨i, -, split⟩ := Option.map_eq_some_iff.mp parsed
  rw [← (Prod.mk.inj split).1]
  exact List.take_subset i b

/-- The packages a file is compared with are all that can have it: the name in front of it is
theirs. -/
theorem Cacheable.packageFile_name {db : Database} (cacheable : Cacheable db) {b bname bver : Bytes}
    (free : 0 ∉ b) (parsed : parseName (some b) = some (bname, bver)) :
    PackageFile db b ↔
      ∃ pkg ∈ ((db.getName bname).1.names.get (db.getName bname).2).pkgs,
        cacheName (db.getName bname).1 pkg = some b := by
  have same := cacheable.sameFiles_getName fun zero => free (parseName_subset parsed zero)
  constructor
  · rintro ⟨name, pkg, member, file⟩
    obtain ⟨version, named⟩ := cacheable.named name pkg member
    have inside : name < db.names.size := by
      by_contra outside
      rw [Arena.get_of_size_le _ (not_lt.mp outside)] at member
      cases member
    have whole := named.cacheName.symm.trans file
    rw [cString_eq_self (cacheable.tabled.free name inside), Option.some.injEq] at whole
    have split := parseName_packageFile (db.names.get name).name named.found
      (db.pkgs.get pkg).csum
    rw [whole, parsed, Option.some.injEq, Prod.mk.injEq] at split
    have known : db.getName bname = (db, name) :=
      Database.getName_of_found (split.1 ▸ cacheable.tabled.found name inside)
    rw [known]
    exact ⟨pkg, member, file⟩
  · rintro ⟨pkg, member, file⟩
    exact (cacheable.packageFile_iff same b).mp ⟨_, pkg, member, file⟩

/-- **One file.** It is to be deleted exactly when it is not known. -/
theorem cleanDelete_spec {repos : List Checksum} {s : CleanState} (cacheable : Cacheable s.db)
    (size : s.tmp.length = pathMax) {b : Bytes} (free : 0 ∉ b)
    (visible : b.head? ≠ some (ascii '.')) :
    ∃ delete s', cleanDelete repos s b = some (delete, s') ∧ Cacheable s'.db ∧
      s'.tmp.length = pathMax ∧ SameFiles s.db s'.db ∧
      (delete = true ↔ ¬ CacheKept s.db repos b) := by
  unfold cleanDelete CacheKept
  simp only [blobCompare_eq_zero, visible, false_or]
  by_cases installed : b = text "installed"
  · exact ⟨false, s, if_pos installed, cacheable, size, .refl _, by simp [installed]⟩
  · rw [if_neg installed]
    cases parsed : parseName (some b) with
    | none =>
        obtain ⟨known, tmp', found, size', iff⟩ := indexKnown_spec b repos size
        have noPackage : ¬ PackageFile s.db b := by
          rintro ⟨name, pkg, member, file⟩
          obtain ⟨version, named⟩ := cacheable.named name pkg member
          have split := parseName_packageFile (cString (s.db.names.get name).name) named.found
            (s.db.pkgs.get pkg).csum
          rw [Option.some.inj (named.cacheName.symm.trans file), parsed] at split
          cases split
        refine ⟨!known, { s with tmp := tmp' }, ?_, cacheable, size', .refl _, ?_⟩
        · simp only [found, Option.map_some]
        · rw [Bool.not_eq_true', ← Bool.not_eq_true, iff]
          simp only [installed, noPackage, false_or, or_false]
    | some pair =>
        obtain ⟨bname, bver⟩ := pair
        have nameFree : 0 ∉ bname := fun zero => free (parseName_subset parsed zero)
        have next := cacheable.getName nameFree
        obtain ⟨known, tmp', found, size', iff⟩ :=
          packageKnown_spec b (next.named (s.db.getName bname).2) size
        have noIndex : ¬ IndexFile repos b := by
          have dashless (repo : Checksum) (ver : ℕ) : indexName repo ver ≠ some b := by
            intro same
            have nothing := parseName_indexFile repo ver
            rw [Option.some.inj ((indexName_eq repo ver).symm.trans same), parsed] at nothing
            cases nothing
          rintro ⟨repo, -, same | same⟩
          · exact dashless repo 0 same
          · exact dashless repo 1 same
        refine ⟨!known, ⟨(s.db.getName bname).1, tmp'⟩, ?_, next, size',
          cacheable.sameFiles_getName nameFree, ?_⟩
        · simp only [found, Option.map_some]
        · rw [Bool.not_eq_true', ← Bool.not_eq_true, iff, ← cacheable.packageFile_name free parsed]
          simp only [installed, noIndex, false_or]

/-! ## The directory -/

theorem SameFiles.trans {db middle next : Database} (first : SameFiles db middle)
    (second : SameFiles middle next) : SameFiles db next where
  pkgs := second.pkgs.trans first.pkgs
  listed name := (second.listed name).trans (first.listed name)
  texts name nonempty :=
    (second.texts name (by rwa [first.listed])).trans (first.texts name nonempty)

/-- The loop unlinks exactly the files that are not known. -/
theorem cacheCleanLoop_spec (repos : List Checksum) (flags : Flags) {entries : List Bytes} :
    ∀ {s : CleanState}, Cacheable s.db → s.tmp.length = pathMax → (∀ entry ∈ entries, 0 ∉ entry) →
      ∃ unlinked s', cacheCleanLoop repos flags entries s = some (unlinked, s') ∧
        ∀ entry, entry ∈ unlinked ↔
          flags.simulate = false ∧ entry ∈ entries ∧ ¬ CacheKept s.db repos entry := by
  induction entries with
  | nil => exact fun {s} _ _ _ => ⟨[], s, rfl, by simp⟩
  | cons first entries ih =>
      intro s cacheable size free
      have free' : ∀ entry ∈ entries, 0 ∉ entry := fun entry member =>
        free entry (List.mem_cons_of_mem _ member)
      by_cases hidden : first.head? = some (ascii '.')
      · obtain ⟨unlinked, s', cleaned, iff⟩ := ih cacheable size free'
        refine ⟨unlinked, s', by rw [cacheCleanLoop, if_pos hidden, cleaned], fun entry => ?_⟩
        have kept : CacheKept s.db repos first := .inl hidden
        rw [iff, List.mem_cons]
        constructor
        · rintro ⟨on, member, unknown⟩
          exact ⟨on, .inr member, unknown⟩
        · rintro ⟨on, rfl | member, unknown⟩
          · exact absurd kept unknown
          · exact ⟨on, member, unknown⟩
      · obtain ⟨delete, middle, decided, cacheable', size', same, deletes⟩ :=
          @cleanDelete_spec repos s cacheable size first (free first List.mem_cons_self) hidden
        obtain ⟨unlinked, s', cleaned, iff⟩ := ih cacheable' size' free'
        have kept (entry : Bytes) : CacheKept middle.db repos entry ↔ CacheKept s.db repos entry := by
          unfold CacheKept
          rw [cacheable.packageFile_iff same]
        simp only [kept] at iff
        refine ⟨if delete && !flags.simulate then first :: unlinked else unlinked, s', ?_,
          fun entry => ?_⟩
        · simp only [cacheCleanLoop, if_neg hidden, decided, cleaned, Option.bind_eq_bind,
            Option.bind_some]
          split
          · rfl
          · rfl
        · by_cases unknown : delete = true ∧ flags.simulate = false
          · rw [if_pos (by simp [unknown]), List.mem_cons, iff, List.mem_cons]
            have unlinkedFirst := deletes.mp unknown.1
            constructor
            · rintro (rfl | ⟨on, member, absent⟩)
              · exact ⟨unknown.2, .inl rfl, unlinkedFirst⟩
              · exact ⟨on, .inr member, absent⟩
            · rintro ⟨on, rfl | member, absent⟩
              · exact .inl rfl
              · exact .inr ⟨on, member, absent⟩
          · rw [if_neg (by simpa using unknown), iff, List.mem_cons]
            constructor
            · rintro ⟨on, member, absent⟩
              exact ⟨on, .inr member, absent⟩
            · rintro ⟨on, rfl | member, absent⟩
              · exact absurd ⟨deletes.mpr absent, on⟩ unknown
              · exact ⟨on, member, absent⟩

/-- **Cache cleaning keeps what is known.** With packages whose versions are found behind
their names and whose file names fit the buffer, whatever the buffer holds at first, exactly
the files that belong to no package and no repository are unlinked, and none under
`APK_SIMULATE`. -/
theorem cacheClean_exact {db : Database} (cacheable : Cacheable db) (repos : List Checksum)
    (flags : Flags) {tmp : Bytes} (size : tmp.length = pathMax) {entries : List Bytes}
    (free : ∀ entry ∈ entries, 0 ∉ entry) :
    ∃ unlinked s', cacheClean repos flags db tmp (some entries) = some (0, unlinked, s') ∧
      ∀ entry, entry ∈ unlinked ↔
        flags.simulate = false ∧ entry ∈ entries ∧ ¬ CacheKept db repos entry := by
  obtain ⟨unlinked, s', cleaned, iff⟩ :=
    cacheCleanLoop_spec repos flags (s := ⟨db, tmp⟩) cacheable size free
  refine ⟨unlinked, s', ?_, iff⟩
  rw [cacheClean, cleaned]
  rfl

/-- A database with one package `a`. -/
def oneVersion (version : Bytes) : List Database.IndexAction :=
  [.getName (text "a"), .pkgAdd { name := some 0, version := some version, csum := .sha1Of 1 }]

/-- The database after that run. -/
def oneVersionDb (version : Bytes) : Database :=
  (run Database.indexStep {} (oneVersion version)).getD {}

theorem oneVersionDb_reached (version : Bytes) :
    run Database.indexStep {} (oneVersion version) = some (oneVersionDb version) := rfl

theorem oneVersionDb_tabled (version : Bytes) : (oneVersionDb version).NamesTabled := by
  refine Database.namesTabled_of_run Database.namesTabled_empty (fun name member => ?_)
    (oneVersionDb_reached version)
  rcases List.mem_cons.mp member with same | member
  · cases same
    decide
  · cases List.mem_singleton.mp member

theorem oneVersionDb_own (version : Bytes) : (oneVersionDb version).NamesOwn := by
  refine Database.namesOwn_of_run (fun name pkg member => ?_) (oneVersionDb_reached version)
  cases member

/-- The package `a` of version `1.2-r3` keeps its file, and another file is unlinked. -/
theorem cacheClean_exact_revision :
    ∃ unlinked s', cacheClean [] {} (oneVersionDb (text "1.2-r3")) (List.replicate pathMax 0)
        (some [text "a-1.2-r3.01010101.apk", text "a-1.2-r2.01010101.apk"]) =
          some (0, unlinked, s') ∧
      ∀ entry, entry ∈ unlinked ↔
        ({} : Flags).simulate = false ∧
          entry ∈ [text "a-1.2-r3.01010101.apk", text "a-1.2-r2.01010101.apk"] ∧
          ¬ CacheKept (oneVersionDb (text "1.2-r3")) [] entry := by
  have listed : (oneVersionDb (text "1.2-r3")).names.objects.map Name.pkgs = [[0]] := by
    decide +kernel
  have only : ∀ name, ((oneVersionDb (text "1.2-r3")).names.get name).pkgs =
      [[0]].getD name [] := by
    intro name
    rw [← listed, Arena.get, List.getD_eq_getElem?_getD, List.getD_eq_getElem?_getD,
      List.getElem?_map]
    cases (oneVersionDb (text "1.2-r3")).names.objects[name]? with
    | none => rfl
    | some n => rfl
  have found : FoundBehind (text "1.2-r3") := by
    refine @VersionGrammar.foundBehind False _
      ⟨text "1", text ".2-r3", rfl, ⟨by decide +kernel, by decide +kernel⟩, ?_⟩
    refine @Components.dot _ (text "2") _ ⟨by decide +kernel, by decide +kernel⟩
      (.suffixes (.revision ?_))
    exact @Revision.number (text "3") ⟨by decide +kernel, by decide +kernel⟩
  have cacheable : Cacheable (oneVersionDb (text "1.2-r3")) := by
    refine ⟨oneVersionDb_tabled _, oneVersionDb_own _, fun name pkg member => ?_⟩
    rw [only] at member
    cases name with
    | zero =>
        obtain rfl := List.mem_singleton.mp member
        exact ⟨text "1.2-r3", by decide +kernel, by decide +kernel,
          by rwa [cString_eq_self (by decide)], by decide +kernel⟩
    | succ name => cases member
  exact cacheClean_exact cacheable [] {} (by simp) (by decide)

/-- **A known file is deleted.** A version that does not start with a digit, which the readers
of indexes accept like any other, hides the file of its package. -/
theorem cacheClean_undigited :
    (oneVersionDb (text "beta")).NamesTabled ∧ (oneVersionDb (text "beta")).NamesOwn ∧
      PackageFile (oneVersionDb (text "beta")) (text "a-beta.01010101.apk") ∧
      ∃ s', cacheClean [] {} (oneVersionDb (text "beta")) (List.replicate pathMax 0)
        (some [text "a-beta.01010101.apk"]) = some (0, [text "a-beta.01010101.apk"], s') := by
  refine ⟨oneVersionDb_tabled _, oneVersionDb_own _, ⟨0, 0, by decide +kernel, by decide +kernel⟩,
    ?_⟩
  have unlinked : (cacheClean [] {} (oneVersionDb (text "beta")) (List.replicate pathMax 0)
      (some [text "a-beta.01010101.apk"])).map (fun out => (out.1, out.2.1)) =
        some (0, [text "a-beta.01010101.apk"]) := by decide +kernel
  obtain ⟨⟨r, names, s'⟩, cleaned, same⟩ := Option.map_eq_some_iff.mp unlinked
  obtain ⟨rfl, rfl⟩ := Prod.mk.inj same
  exact ⟨s', cleaned⟩

end AriannaLinux.Apk
