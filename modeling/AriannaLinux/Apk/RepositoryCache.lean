import AriannaLinux.Apk.RepositoryLists

/-! # The cache of indexes

An update downloads the index of a repository beside the cache directory, verifies it there and
renames it into the directory. After every sequence of repositories a file of the directory is one
that was there before, or it was downloaded completely and passed, or it is an index of the old
format, which is not verified; and what a repository behind the network lists was read from such
a file (`openRepositories_provenance`).
-/

namespace AriannaLinux.Apk

section Cache

variable {Key : Type*} {env : RepoEnv Key} {zlib : Zlib} {fuel : ℕ}

/-! ## What is published -/

/-- A URL was downloaded to its end. -/
structure RepoEnv.Fetched (env : RepoEnv Key) (n : ℕ) (url content : Bytes) : Prop where
  opened : 0 ≤ (env.wget n url).opened
  forked : (env.wget n url).forked = true
  status : (env.wget n url).status = some 0
  written : (env.wget n url).written = content

/-- The indexes of repositories are updated. -/
def RepoEnv.Updates (env : RepoEnv Key) : Prop :=
  env.updateCache = true ∧ env.flags.simulate = false

/-- What an update of a repository publishes under a name: an archive that passed, or, once the
archive failed otherwise than by its signature, an index of the old format. -/
inductive RepoEnv.Published (env : RepoEnv Key) (zlib : Zlib) (fuel : ℕ) (url : Bytes)
    (csum : Checksum) : Bytes → Bytes → Prop
  | archive {n content} (updates : env.Updates)
      (fetched : env.Fetched n (itemUrl url apkindexTarGz) content)
      (accepted : env.flags.allowUntrusted = true ∨
        env.downloadVerified zlib fuel content = some 0) :
      Published env zlib fuel url csum (indexFile csum 0) content
  | old {cache failed : CacheDir} {r : ℤ} {content} (updates : env.Updates)
      (first : env.cacheDownload zlib fuel url apkindexTarGz (indexFile csum 0)
        (!env.flags.allowUntrusted) cache = some (r, failed))
      (otherwise : r ≠ 0 ∧ r ≠ enokey ∧ r ≠ ekeyrejected)
      (fetched : env.Fetched failed.downloads (itemUrl url apkIndexGz) content) :
      Published env zlib fuel url csum (indexFile csum 1) content

/-! ## One download -/

theorem translateWget_nonpos (status : Option ℕ) : translateWget status ≤ 0 := by
  unfold translateWget
  split <;> decide

theorem translateWget_eq_zero {status : Option ℕ} :
    translateWget status = 0 ↔ status = some 0 := by
  constructor
  · intro zero
    unfold translateWget at zero
    split at zero
    · rfl
    all_goals cases zero
  · rintro rfl
    rfl

variable {cache after : CacheDir} {url item file : Bytes} {r : ℤ}

/-- A download leaves the cache directory; if it does not fail, its content is beside it. -/
theorem urlDownload_spec (downloads : env.urlDownload url file cache = (r, after)) :
    after.files = cache.files ∧
      (¬ r < 0 → ∃ content, env.Fetched cache.downloads url content ∧
        after.tmp file = some content) := by
  unfold RepoEnv.urlDownload at downloads
  dsimp only at downloads
  split at downloads
  case isTrue failed =>
    cases downloads
    exact ⟨rfl, fun fine => absurd failed fine⟩
  case isFalse opened =>
    split at downloads
    · cases downloads
      exact ⟨rfl, fun fine => absurd (by decide) fine⟩
    case isFalse forked =>
      cases downloads
      refine ⟨rfl, fun fine => ?_⟩
      have ended : translateWget (env.wget cache.downloads url).status = 0 :=
        le_antisymm (translateWget_nonpos _) (not_lt.mp fine)
      refine ⟨_, ⟨not_lt.mp opened, ?_, translateWget_eq_zero.mp ended, rfl⟩, ?_⟩
      · simpa using forked
      · simp [ended]

theorem publish_spec (published : env.publish file cache = (r, after)) :
    after.files = cache.files ∨
      r = 0 ∧ after.files = Function.update cache.files file (cache.tmp file) := by
  unfold RepoEnv.publish at published
  dsimp only at published
  split at published
  · cases published
    exact .inl rfl
  · cases published
    exact .inr ⟨rfl, rfl⟩

/-- An item is published if it was downloaded and, where that is asked for, verified. -/
theorem cacheDownload_spec {verify : Bool}
    (downloads : env.cacheDownload zlib fuel url item file verify cache = some (r, after)) :
    after.files = cache.files ∨
      r = 0 ∧ env.flags.simulate = false ∧
        ∃ content, env.Fetched cache.downloads (itemUrl url item) content ∧
          (verify = true → env.downloadVerified zlib fuel content = some 0) ∧
          after.files = Function.update cache.files file (some content) := by
  unfold RepoEnv.cacheDownload at downloads
  split at downloads
  · cases downloads
    exact .inl rfl
  case isFalse real =>
    have real : env.flags.simulate = false := by simpa using real
    cases fetch : env.urlDownload (itemUrl url item) file cache with
    | mk result fetched =>
        obtain ⟨same, complete⟩ := urlDownload_spec fetch
        rw [fetch] at downloads
        dsimp only at downloads
        split at downloads
        · cases downloads
          exact .inl same
        case isFalse fine =>
          obtain ⟨content, fetches, beside⟩ := complete fine
          split at downloads
          case isTrue verified =>
            obtain ⟨verdict, checks, pair⟩ := Option.map_eq_some_iff.mp downloads
            split at pair
            · cases pair
              exact .inl same
            case isFalse passes =>
              rw [beside, Option.getD_some, not_not.mp passes] at checks
              rcases publish_spec pair with kept | ⟨rfl, files⟩
              · exact .inl (kept.trans same)
              · rw [same, beside] at files
                exact .inr ⟨rfl, real, content, fetches, fun _ => checks, files⟩
          case isFalse unverified =>
            have published := Option.some.inj downloads
            rcases publish_spec published with kept | ⟨rfl, files⟩
            · exact .inl (kept.trans same)
            · rw [same, beside] at files
              exact .inr ⟨rfl, real, content, fetches, fun asked => absurd asked unverified, files⟩

/-- **An update of a repository** leaves the cache directory, or publishes one file there. -/
theorem repositoryUpdate_spec {repo : Repository} (asked : env.updateCache = true)
    (updated : env.repositoryUpdate zlib fuel repo cache = some (r, after)) :
    after.files = cache.files ∨
      ∃ name content, env.Published zlib fuel repo.url repo.csum name content ∧
        after.files = Function.update cache.files name (some content) := by
  unfold RepoEnv.repositoryUpdate at updated
  split at updated
  · cases updated
    exact .inl rfl
  · obtain ⟨⟨result, middle⟩, first, updated⟩ := Option.bind_eq_some_iff.mp updated
    dsimp only at updated
    split at updated
    · cases updated
      rcases cacheDownload_spec first with kept | ⟨-, real, content, fetched, verified, files⟩
      · exact .inl kept
      · refine .inr ⟨_, content, .archive ⟨asked, real⟩ fetched ?_, files⟩
        cases trusted : env.flags.allowUntrusted with
        | true => exact .inl rfl
        | false => exact .inr (verified (by simp [trusted]))
    case isFalse otherwise =>
      simp only [not_or] at otherwise
      have same : middle.files = cache.files := by
        rcases cacheDownload_spec first with kept | ⟨zero, -⟩
        · exact kept
        · exact absurd zero otherwise.1
      rcases cacheDownload_spec updated with kept | ⟨-, real, content, fetched, -, files⟩
      · exact .inl (kept.trans same)
      · rw [same] at files
        exact .inr ⟨_, content, .old ⟨asked, real⟩ first otherwise fetched, files⟩

/-! ## Repositories -/

/-- A content that was in the cache directory before, under a name, or that an update of one of
the repositories published. -/
def RepoEnv.Provenance (env : RepoEnv Key) (zlib : Zlib) (fuel : ℕ) (start : CacheDir)
    (repos : List Repository) (name content : Bytes) : Prop :=
  start.files name = some content ∨
    ∃ repo ∈ repos, ¬ repo.IsLocal ∧ env.Published zlib fuel repo.url repo.csum name content

/-- The lines that were read for a repository are those of a content of the cache directory that
bears the name of its index. -/
def RepoEnv.ReadFrom (env : RepoEnv Key) (zlib : Zlib) (fuel : ℕ) (start : CacheDir)
    (repos : List Repository) (i : ℕ) (repo : Repository) : Prop :=
  ∃ version content db ctx,
    env.Provenance zlib fuel start repos (indexFile repo.csum version) content ∧
      loadIndex env.crypto env.flags env.tar zlib env.hasKeys fuel db (fileStream content)
        (version == 0) i = some (repo.result, ctx) ∧
      ctx.texts = repo.texts

/-- Where the files of the cache directory are from, and what was read of them. -/
structure RepoState.Sourced (env : RepoEnv Key) (zlib : Zlib) (fuel : ℕ) (start : CacheDir)
    (s : RepoState) : Prop where
  kept : ∀ name, start.files name ≠ none → s.cache.files name ≠ none
  files : ∀ name content, s.cache.files name = some content →
    env.Provenance zlib fuel start s.repos name content
  indexes : ∀ i repo, s.repos[i]? = some repo → ¬ repo.IsLocal → repo.texts ≠ [] →
    env.ReadFrom zlib fuel start s.repos i repo

variable {start : CacheDir} {repos : List Repository} {s s' : RepoState}

theorem RepoEnv.Provenance.concat {name content : Bytes}
    (source : env.Provenance zlib fuel start repos name content) (repo : Repository) :
    env.Provenance zlib fuel start (repos ++ [repo]) name content := by
  rcases source with before | ⟨publisher, among, remote, published⟩
  · exact .inl before
  · exact .inr ⟨publisher, List.mem_append_left _ among, remote, published⟩

theorem RepoEnv.ReadFrom.concat {i : ℕ} {repo : Repository}
    (reads : env.ReadFrom zlib fuel start repos i repo) (other : Repository) :
    env.ReadFrom zlib fuel start (repos ++ [other]) i repo := by
  obtain ⟨version, content, db, ctx, source, loaded, texts⟩ := reads
  exact ⟨version, content, db, ctx, source.concat other, loaded, texts⟩

/-- What is loaded as the next repository: its lines are from the index that was opened. -/
theorem loadRepository_spec {repo : Repository} {index : Option (Bytes × Bool)}
    (loads : env.loadRepository zlib fuel repo index s = some s') :
    ∃ loaded, s'.repos = s.repos ++ [loaded] ∧ loaded.url = repo.url ∧
      loaded.csum = repo.csum ∧ s'.cache = s.cache ∧
      (loaded.texts ≠ [] → ∃ content targz ctx, index = some (content, targz) ∧
        loadIndex env.crypto env.flags env.tar zlib env.hasKeys fuel s.db (fileStream content)
          targz s.repos.length = some (loaded.result, ctx) ∧
        ctx.texts = loaded.texts) := by
  obtain ⟨⟨result, ctx⟩, opened, pair⟩ := Option.map_eq_some_iff.mp loads
  cases pair
  refine ⟨_, rfl, rfl, rfl, rfl, fun read => ?_⟩
  cases index with
  | none =>
      cases opened
      exact absurd rfl read
  | some index => exact ⟨index.1, index.2, ctx, rfl, opened, rfl⟩

/-- The index that is opened is a file of the cache directory. -/
theorem RepoEnv.openIndex_eq_some {first second : Option Bytes} {content : Bytes} {targz : Bool}
    (opens : RepoEnv.openIndex first second = some (content, targz)) :
    first = some content ∧ targz = true ∨ second = some content ∧ targz = false := by
  unfold RepoEnv.openIndex at opens
  split at opens
  · cases opens
    exact .inl ⟨rfl, rfl⟩
  · obtain ⟨found, second, pair⟩ := Option.map_eq_some_iff.mp opens
    cases pair
    exact .inr ⟨second, rfl⟩

/-- The state with the cache directory after an update. -/
theorem RepoState.Sourced.load {repo : Repository} {index : Option (Bytes × Bool)}
    {cache : CacheDir} {db : Database} (sourced : s.Sourced env zlib fuel start)
    (files : cache.files = s.cache.files ∨ ¬ repo.IsLocal ∧
      ∃ name content, env.Published zlib fuel repo.url repo.csum name content ∧
        cache.files = Function.update s.cache.files name (some content))
    (opens : ¬ repo.IsLocal → index =
      RepoEnv.openIndex (cache.files (indexFile repo.csum 0)) (cache.files (indexFile repo.csum 1)))
    (loads : env.loadRepository zlib fuel repo index { s with db, cache } = some s') :
    s'.Sourced env zlib fuel start := by
  obtain ⟨loaded, repos, url, csum, same, reads⟩ := loadRepository_spec loads
  dsimp only at repos same reads
  have own : ¬ repo.IsLocal → ¬ loaded.IsLocal := by
    simp only [Repository.IsLocal, url, imp_self]
  have source : ∀ name content, cache.files name = some content →
      env.Provenance zlib fuel start s'.repos name content := by
    intro name content found
    rw [repos]
    rcases files with kept | ⟨remote, published, new, publishes, updated⟩
    · rw [kept] at found
      exact (sourced.files name content found).concat loaded
    · rw [updated, Function.update_apply] at found
      split at found
      case isTrue here =>
        cases found
        subst here
        rw [← url, ← csum] at publishes
        exact .inr ⟨loaded, by simp, own remote, publishes⟩
      case isFalse => exact (sourced.files name content found).concat loaded
  refine ⟨?_, ?_, ?_⟩
  · intro name there
    rw [same]
    rcases files with kept | ⟨-, published, new, -, updated⟩
    · rw [kept]
      exact sourced.kept name there
    · rw [updated, Function.update_apply]
      split
      · exact Option.some_ne_none _
      · exact sourced.kept name there
  · rw [same]
    exact source
  · intro i other found remote read
    rw [repos] at found
    rcases getElem?_concat_iff.mp found with earlier | ⟨rfl, rfl⟩
    · rw [repos]
      exact (sourced.indexes i other earlier remote read).concat loaded
    · obtain ⟨content, targz, ctx, index, loads, texts⟩ := reads read
      have outside : ¬ repo.IsLocal := by
        simpa only [Repository.IsLocal, url] using remote
      rw [opens outside] at index
      rcases RepoEnv.openIndex_eq_some index with ⟨file, rfl⟩ | ⟨file, rfl⟩
      · rw [← csum] at file
        exact ⟨0, content, db, ctx, source _ _ file, loads, texts⟩
      · rw [← csum] at file
        exact ⟨1, content, db, ctx, source _ _ file, loads, texts⟩

theorem RepoState.Sourced.addRepository {repository : Bytes}
    (sourced : s.Sourced env zlib fuel start)
    (added : env.addRepository zlib fuel s repository = some (r, s')) :
    s'.Sourced env zlib fuel start := by
  unfold RepoEnv.addRepository at added
  split at added
  · cases added
    exact sourced
  split at added
  · cases added
    exact sourced
  dsimp only at added
  obtain ⟨after, adds, pair⟩ := Option.map_eq_some_iff.mp added
  cases pair
  split at adds
  case isTrue remote =>
    obtain ⟨⟨updated, cache⟩, updates, loads⟩ := Option.bind_eq_some_iff.mp adds
    have outside : ¬ Repository.IsLocal { url := blobCstr repository } := by
      simpa only [Repository.IsLocal, ne_eq, not_not] using remote
    refine sourced.load ?_ (fun _ => rfl) loads
    split at updates
    case isTrue asked =>
      rcases repositoryUpdate_spec asked updates with kept | published
      · exact .inl kept
      · exact .inr ⟨outside, published⟩
    case isFalse =>
      cases updates
      exact .inl rfl
  case isFalse here =>
    refine sourced.load (.inl rfl) (fun remote => ?_) adds
    exact absurd here remote

/-- **Where indexes come from.** When the repositories of the options and of the file were added,
no file of the cache directory is lost, and each is one that was there before, or an update of one
of the repositories published it; a package with the number of a repository behind the network is
listed by the lines that were read from such a file. -/
theorem openRepositories_provenance (env : RepoEnv Key) (zlib : Zlib) (fuel : ℕ)
    (s s' : RepoState) (urls : List Bytes) (blob : Option Bytes) (fresh : s.Fresh)
    (opened : env.openRepositories zlib fuel urls blob s = some s') :
    (∀ name, s.cache.files name ≠ none → s'.cache.files name ≠ none) ∧
      (∀ name content, s'.cache.files name = some content →
        env.Provenance zlib fuel s.cache s'.repos name content) ∧
      ∀ pkg ∈ s'.db.availablePackages.items, ∀ i repo, s'.repos[i]? = some repo →
        (s'.db.pkgs.get pkg).InRepo i → ¬ repo.IsLocal →
          repo.Lists (s'.db.pkgs.get pkg).csum.digest ∧
            env.ReadFrom zlib fuel s.cache s'.repos i repo := by
  have unread : s.Sourced env zlib fuel s.cache :=
    ⟨fun _ there => there, fun _ _ found => .inl found, by simp [fresh.none]⟩
  have sourced : s'.Sourced env zlib fuel s.cache :=
    RepoEnv.openRepositories_keeps (P := fun t => t.Sourced env zlib fuel s.cache)
      (fun _ _ _ _ sourced added => sourced.addRepository added) unread opened
  have listed := (fresh.listed env.bitError).openRepositories opened
  refine ⟨sourced.kept, sourced.files, ?_⟩
  intro pkg stored i repo found noted remote
  obtain ⟨own, same, lists⟩ := (listed.noted pkg stored i (listed.inside found)).mp noted
  rw [found] at same
  cases same
  obtain ⟨text, among, -⟩ := id lists
  exact ⟨lists, sourced.indexes i repo found remote (List.ne_nil_of_mem among)⟩

end Cache

/-! ## An update -/

/-- An update of one repository, whose index nobody has signed. -/
def unsignedUpdate : RepoEnv Unit where
  crypto := ⟨fun _ _ => [], fun _ _ _ _ => false, fun _ => none⟩
  updateCache := true
  tar := emptyTarEnv
  wget _ _ := { written := unsignedIndex }
  bitError r := bit (r % 32).toNat

/-- The file of the index of this repository. -/
def unsignedName : Bytes := indexFile (Checksum.zero.setType checksumSha1) 0

/-- The index is published, and its package is listed. -/
theorem openRepositories_provenance_update :
    ∃ s', unsignedUpdate.openRepositories storedZlib 20 [text "http://a"] none noRepositories =
        some s' ∧ s'.cache.files unsignedName = some unsignedIndex ∧
      s'.db.availablePackages.items = [0] ∧ (s'.db.pkgs.get 0).repos = bit 0 ∧
      (∀ name, noRepositories.cache.files name ≠ none → s'.cache.files name ≠ none) ∧
      (∀ name content, s'.cache.files name = some content →
        unsignedUpdate.Provenance storedZlib 20 noRepositories.cache s'.repos name content) ∧
      ∀ pkg ∈ s'.db.availablePackages.items, ∀ i repo, s'.repos[i]? = some repo →
        (s'.db.pkgs.get pkg).InRepo i → ¬ repo.IsLocal →
          repo.Lists (s'.db.pkgs.get pkg).csum.digest ∧
            unsignedUpdate.ReadFrom storedZlib 20 noRepositories.cache s'.repos i repo := by
  have ends : (unsignedUpdate.openRepositories storedZlib 20 [text "http://a"] none
      noRepositories).map (fun s => (s.cache.files unsignedName, s.db.availablePackages.items,
        (s.db.pkgs.get 0).repos)) = some (some unsignedIndex, [0], bit 0) := by
    decide +kernel
  obtain ⟨s', opened, results⟩ := Option.map_eq_some_iff.mp ends
  obtain ⟨file, results⟩ := Prod.mk.inj results
  obtain ⟨items, repos⟩ := Prod.mk.inj results
  exact ⟨s', opened, file, items, repos, openRepositories_provenance unsignedUpdate storedZlib 20
    noRepositories s' [text "http://a"] none noRepositories_fresh opened⟩

end AriannaLinux.Apk
