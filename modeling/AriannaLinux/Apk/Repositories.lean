import AriannaLinux.Apk.CacheClean
import AriannaLinux.Apk.IndexSafety
import AriannaLinux.Apk.Io.LineReader
import AriannaLinux.Apk.Solver.State
import AriannaLinux.Apk.Verify

/-! # Repositories

`apk_db_open` adds repositories: `apk_db_add_repository` opens the index of each, in the cache
directory or in the repository itself, and `load_index` reads it into the table of packages while
its signature is checked. The index of a remote repository may be downloaded into the cache
directory before.
-/

namespace AriannaLinux.Apk

/-! ## Reading an index from a stream -/

section Stream

variable {σ : Type*} (read : ReadFunction σ) (flags : Flags) (repo : ℤ)

/-- The loop of `apk_db_index_read` over the lines of a buffered stream: the reader, the lines
that were read, and the stream. -/
def indexReadLoop : ℕ → IndexReader → IstreamBstream σ → Option (IndexReader × List Bytes × σ)
  | 0, _, _ => none
  | fuel + 1, reader, isbs =>
      (isBsRead read lineToken isbs).bind fun (blob, isbs) =>
        match blob with
        | .data line =>
            match reader.readLine flags repo line with
            | .goesOn reader =>
                (indexReadLoop fuel reader isbs).map fun (reader, lines, is) =>
                  (reader, line :: lines, is)
            | .returns _ reader => some (reader, [line], isbs.is)
            | .crashes => none
        | _ => some (reader, [], isbs.is)

/-- `apk_db_index_read` of `apk_bstream_from_istream`. -/
def indexReadStream (fuel : ℕ) (db : Database) (is : σ) :
    Option (Database × List Bytes × σ) :=
  (indexReadLoop read flags repo fuel { db } { is }).map fun (reader, lines, is) =>
    (reader.db, lines, is)

end Stream

/-! ## Loading an index -/

/-- `-ENOMSG`. -/
def enomsg : ℤ := -42

/-- `struct apkindex_ctx` and what it leads to; the lines that were read of each index are a
history. -/
structure ApkindexCtx where
  db : Database
  found : Bool := false
  description : Option Bytes := none
  texts : List (List Bytes) := []

section Load

variable {zlib : Zlib} {Key : Type*} (crypto : Crypto Key) (flags : Flags) (env : TarEnv)

/-- Change the context behind an entry. -/
def TarEntry.mapIndex (teis : VerifiedEntry zlib Key ApkindexCtx)
    (f : ApkindexCtx → ApkindexCtx) : VerifiedEntry zlib Key ApkindexCtx :=
  { teis with
    tar := { teis.tar with ctx := { teis.tar.ctx with consumer := f teis.tar.ctx.consumer } } }

/-- `load_apkindex`. -/
def loadApkindex (repo : ℕ) (fuel : ℕ) : EntryParser (VerifiedStream zlib Key ApkindexCtx) :=
  fun teis fi =>
    (processEntry crypto flags env teis fi).bind fun (r, teis) =>
      if r = 0 then some (0, teis)
      else if fi.name = text "DESCRIPTION" then
        (blobFromIstream (tarEntryRead (verifiedRead crypto flags) env) fi.size teis).map
          fun (blob, teis) => (0, teis.mapIndex fun ctx => { ctx with description := blob.ptr })
      else if fi.name = text "APKINDEX" then
        (indexReadStream (tarEntryRead (verifiedRead crypto flags) env) flags repo fuel
            teis.tar.ctx.consumer.db teis).map
          fun (db, lines, teis) => (0, teis.mapIndex fun ctx =>
            { ctx with db, found := true, texts := ctx.texts ++ [lines] })
      else some (0, teis)

/-- `load_index`. -/
def loadIndex (zlib : Zlib) (hasKeys : Bool) (fuel : ℕ) (db : Database) (bs : Bstream)
    (targz : Bool) (repo : ℕ) : Option (ℤ × ApkindexCtx) :=
  if targz then
    let sctx := SignCtx.init .verify .zero hasKeys
    (tarParse (verifiedRead crypto flags) env (loadApkindex crypto flags env repo fuel) false fuel
        (Gzip.gunzipMpart zlib bs ⟨sctx, { db }, []⟩)).map fun (r, stream) =>
      let ctx := stream.ctx.consumer
      (if 0 ≤ r ∧ !ctx.found then enomsg else r, ctx)
  else
    (indexReadStream (Gzip.read none) flags repo fuel db (Gzip.gunzipMpart zlib bs ())).map
      fun (db, lines, _) => (0, { db, texts := [lines] })

end Load

/-! ## Adding repositories -/

/-- `APK_MAX_REPOS`. -/
def maxRepos : ℕ := 32

/-- `struct apk_repository`. The result of loading it and the lines that were read of its index
are a history. -/
structure Repository where
  url : Bytes
  csum : Checksum := .zero
  description : Option Bytes := none
  texts : List (List Bytes) := []
  result : ℤ := 0

/-- `BIT`. -/
def bit (i : ℕ) : UInt32 := (1 : UInt32) <<< UInt32.ofNat i

/-- `apk_url_local_file`. -/
def urlLocalFile (url : Bytes) : Option Bytes :=
  if (text "file:").isPrefixOf url then some (url.drop 5)
  else if !(text "http:").isPrefixOf url ∧ !(text "https:").isPrefixOf url ∧
      !(text "ftp:").isPrefixOf url then some url
  else none

/-- `apkindex_tar_gz`. -/
def apkindexTarGz : Bytes := text "APKINDEX.tar.gz"

/-- `apk_index_gz`. -/
def apkIndexGz : Bytes := text "APK_INDEX.gz"

/-- The path of an item below a URL, in a buffer of `PATH_MAX`. -/
def itemUrl (url item : Bytes) : Bytes :=
  pathBuffer (url ++ (if url.getLast? = some (ascii '/') then [] else [ascii '/']) ++ item)

/-- `apk_bstream_from_file` of a file that can be opened: an empty one cannot be mapped. -/
def fileStream (content : Bytes) : Bstream :=
  if content = [] then .reads [] 0 else .mmap (some content)

/-- What becomes of a download: the error of `openat`, whether there is a child, what it writes,
and its exit status, if it has exited. -/
structure Download where
  opened : ℤ := 0
  forked : Bool := true
  written : Bytes := []
  status : Option ℕ := some 0

/-- The directories `cachetmp_fd` and `cache_fd`, and how often something was downloaded. -/
structure CacheDir where
  tmp : Bytes → Option Bytes := fun _ => none
  files : Bytes → Option Bytes := fun _ => none
  downloads : ℕ := 0

/-- What repositories are added with. -/
structure RepoEnv (Key : Type*) where
  crypto : Crypto Key
  flags : Flags := {}
  updateCache : Bool := false
  tar : TarEnv
  hasKeys : Bool := true
  /-- The files that are found under a path. -/
  file : Bytes → Option Bytes := fun _ => none
  /-- What becomes of the next download, of a URL. -/
  wget : ℕ → Bytes → Download := fun _ _ => {}
  /-- The result of `renameat` behind a download. -/
  renames : ℕ → ℤ := fun _ => 0
  /-- `BIT` of an error code, a shift by a negative number. -/
  bitError : ℤ → UInt32

/-- `translate_wget`. -/
def translateWget : Option ℕ → ℤ
  | some 0 => 0
  | some 3 => eio
  | some 4 => -103
  | some 8 => -2
  | _ => -14

/-- The repositories of a database, and the cache directories. -/
structure RepoState where
  db : Database
  repos : List Repository := []
  cache : CacheDir := {}

namespace RepoEnv

variable {Key : Type*} (env : RepoEnv Key) (zlib : Zlib) (fuel : ℕ)

/-- `apk_url_download` into `cachetmp_fd`. -/
def urlDownload (url file : Bytes) (cache : CacheDir) : ℤ × CacheDir :=
  let download := env.wget cache.downloads url
  let cache := { cache with downloads := cache.downloads + 1 }
  if download.opened < 0 then (download.opened, cache)
  else if !download.forked then
    (-1, { cache with tmp := Function.update cache.tmp file (some []) })
  else
    let status := translateWget download.status
    let content := if status ≠ 0 then none else some download.written
    (status, { cache with tmp := Function.update cache.tmp file content })

/-- `apk_cache_download`, the verification of what was downloaded. -/
def downloadVerified (content : Bytes) : Option ℤ :=
  let sctx := SignCtx.init .verify .zero env.hasKeys
  (tarParse (verifiedRead env.crypto env.flags) env.tar (verifyTar env.crypto env.flags env.tar)
      false fuel (Gzip.gunzipMpart zlib (fileStream content) ⟨sctx, (), []⟩)).map Prod.fst

/-- `apk_cache_download`, once an item is downloaded and accepted. -/
def publish (cacheitem : Bytes) (cache : CacheDir) : ℤ × CacheDir :=
  let r := env.renames cache.downloads
  if r < 0 then (r, cache)
  else
    (0, { cache with
      files := Function.update cache.files cacheitem (cache.tmp cacheitem)
      tmp := Function.update cache.tmp cacheitem none })

/-- `apk_cache_download`, without an architecture. -/
def cacheDownload (url item cacheitem : Bytes) (verify : Bool) (cache : CacheDir) :
    Option (ℤ × CacheDir) :=
  if env.flags.simulate then some (0, cache)
  else
    let (r, cache) := env.urlDownload (itemUrl url item) cacheitem cache
    if r < 0 then some (r, cache)
    else if verify then
      (env.downloadVerified zlib fuel ((cache.tmp cacheitem).getD [])).map fun r =>
        if r ≠ 0 then (r, { cache with tmp := Function.update cache.tmp cacheitem none })
        else env.publish cacheitem cache
    else some (env.publish cacheitem cache)

/-- `apk_repository_update`. -/
def repositoryUpdate (repo : Repository) (cache : CacheDir) : Option (ℤ × CacheDir) :=
  if repo.csum.type = checksumNone then some (0, cache)
  else
    (env.cacheDownload zlib fuel repo.url apkindexTarGz (indexFile repo.csum 0)
        (!env.flags.allowUntrusted) cache).bind fun (r, cache) =>
      if r = 0 ∨ r = enokey ∨ r = ekeyrejected then some (r, cache)
      -- the old format is not verified
      else env.cacheDownload zlib fuel repo.url apkIndexGz (indexFile repo.csum 1) false cache

/-- `apk_repo_file_open` of an item of a local repository, without an architecture. The path that
is opened still has the scheme. -/
def repoFileOpen (repo : Repository) (item : Bytes) : Option Bytes :=
  if env.flags.noNetwork ∧ repo.csum.type ≠ checksumNone then none
  else if repo.url = text "cache" then none
  else env.file (itemUrl repo.url item)

/-- The index that is opened, and whether it is an archive. -/
def openIndex (first second : Option Bytes) : Option (Bytes × Bool) :=
  match first with
  | some content => some (content, true)
  | none => second.map fun content => (content, false)

/-- `apk_db_add_repository`, the index that was opened. -/
def loadRepository (repo : Repository) (index : Option (Bytes × Bool)) (s : RepoState) :
    Option RepoState :=
  let loaded : Option (ℤ × ApkindexCtx) :=
    match index with
    | none => some (-2, { db := s.db })
    | some (content, targz) =>
        loadIndex env.crypto env.flags env.tar zlib env.hasKeys fuel s.db (fileStream content)
          targz s.repos.length
  loaded.map fun (result, ctx) =>
    let badRepos :=
      if result ≠ 0 then ctx.db.badRepos ||| env.bitError result else ctx.db.badRepos
    { s with
      db := { ctx.db with badRepos }
      repos := s.repos ++ [{ repo with
        description := ctx.description
        texts := ctx.texts
        result }] }

/-- `apk_db_add_repository`: the result, and the repositories. -/
def addRepository (s : RepoState) (repository : Bytes) : Option (ℤ × RepoState) :=
  if repository = [] ∨ repository.head? = some (ascii '#') then some (0, s)
  else if maxRepos ≤ s.repos.length then some (-1, s)
  else
    let url := blobCstr repository
    let added :=
      if urlLocalFile url = none then
        let csum := (Checksum.zero.setType checksumSha1).store (env.crypto.digest .sha1 repository)
        let repo : Repository := { url, csum }
        let updated :=
          if env.updateCache then env.repositoryUpdate zlib fuel repo s.cache
          else some (0, s.cache)
        updated.bind fun (_, cache) =>
          let index := openIndex (cache.files (indexFile csum 0)) (cache.files (indexFile csum 1))
          env.loadRepository zlib fuel repo index { s with cache }
      else
        let repo : Repository := { url }
        let db := { s.db with localRepos := s.db.localRepos ||| bit s.repos.length }
        let index := openIndex (env.repoFileOpen repo apkindexTarGz)
          (env.repoFileOpen repo apkIndexGz)
        env.loadRepository zlib fuel repo index { s with db }
    -- a repository that fails is ignored
    added.map fun s => (0, s)

/-- `apk_db_add_repository` as it is called for one URL after the other. Nothing is left to go on
with once a NULL pointer was followed. -/
def addNext (s : Option RepoState) (repository : Bytes) : ℤ × Option RepoState :=
  match s.bind fun s => env.addRepository zlib fuel s repository with
  | none => (-1, none)
  | some (r, s) => (r, some s)

/-- `apk_db_open`, the repositories: those of the options, and those of the file
`etc/apk/repositories`, if it can be read. -/
def openRepositories (listed : List Bytes) (blob : Option Bytes) (s : RepoState) :
    Option RepoState :=
  let s := listed.foldl (fun s url => (env.addNext zlib fuel s url).2) (some s)
  match blob with
  | none => s
  | some blob => (forEachSegment blob (text "\n") (env.addNext zlib fuel) s).2

end RepoEnv

end AriannaLinux.Apk
