import AriannaLinux.Apk.Install.Index

/-! # The table of directories

`apk_db_dir_get` hashes a name before it removes the trailing `/`, and creates the directory
under that hash. The table stays canonical exactly as long as every name is plain: it does not
end in `/`, and neither does the name of a directory above it (`dirs_canonical_iff`).
-/

namespace AriannaLinux.Apk.Database

variable {db : Database}

/-- A directory of this name is in the table. -/
def DirStored (db : Database) (name : Bytes) : Prop :=
  ∃ dir ∈ db.installedDirs.items, (db.dirs.get dir).name = name

/-- Every stored directory has the hash of its name. -/
def DirsKeyed (db : Database) : Prop :=
  ∀ dir ∈ db.installedDirs.items, (db.dirs.get dir).hash = blobHash (db.dirs.get dir).name

/-- The table of directories is canonical: the names are keys, and the hashes are theirs. Like
that of `apk_db_open`, the table has an even number of buckets. -/
structure DirsCanonical (db : Database) : Prop where
  stored : DirsStored db
  table : db.installedDirs.Keyed (fun dir => (db.dirs.get dir).name) blobHash
  hash : DirsKeyed db
  even : db.installedDirs.num % 2 = 0

/-- The stored directories up to some length of their names have plain ones. -/
def PlainUpTo (db : Database) (length : ℕ) : Prop :=
  ∀ dir ∈ db.installedDirs.items, (db.dirs.get dir).name.length ≤ length →
    PlainName (db.dirs.get dir).name

/-! ## Names -/

theorem stripSlash_append (name : Bytes) : stripSlash (name ++ [ascii '/']) = name := by
  rw [stripSlash, if_pos List.getLast?_concat, List.dropLast_concat]

theorem stripSlash_of_ne {name : Bytes} (open_ : name.getLast? ≠ some (ascii '/')) :
    stripSlash name = name := if_neg open_

/-- The hash of a name and that of the name behind which a `/` is put differ by an odd
number. -/
theorem blobHash_slash (name : Bytes) :
    (blobHash (name ++ [ascii '/'])).toNat % 2 ≠ (blobHash name).toNat % 2 := by
  have factor : (33 : UInt64).toNat = 33 := rfl
  have slash : (signExtend (ascii '/')).toNat = 47 := by decide
  rw [blobHash, blobHash, blobHashSeed, blobHashSeed, List.foldl_concat, UInt64.toNat_add,
    UInt64.toNat_mul, factor, slash]
  omega

/-- So the two never fall in the same bucket of an even number of them. -/
theorem index_slash_ne {table : Hash DirId} (even : table.num % 2 = 0) (name : Bytes) :
    table.index (blobHash (name ++ [ascii '/'])) ≠ table.index (blobHash name) := by
  intro same
  have parity := congrArg (· % 2) same
  simp only [Hash.index, Nat.mod_mod_of_dvd _ (Nat.dvd_of_mod_eq_zero even)] at parity
  exact blobHash_slash name parity

/-- A name that does not end in `/`, below a plain one. -/
theorem PlainName.of_parent {name : Bytes} (short : name.length < 65536)
    (open_ : name.getLast? ≠ some (ascii '/'))
    (above : ∀ bparent ∈ parentName name, PlainName bparent) : PlainName name := by
  refine ⟨short, open_, fun double => ?_⟩
  cases rsplit : blobRsplit (ascii '/') name with
  | none => exact blobRsplit_eq_none.mp rsplit (double.subset List.mem_cons_self)
  | some parts =>
      obtain ⟨l, r⟩ := parts
      obtain ⟨rfl, last⟩ := blobRsplit_eq_some.mp rsplit
      have parent : parentName (l ++ ascii '/' :: r) = some l := by
        rw [parentName, if_neg (by simp), rsplit]
      have plain := above l parent
      -- of the two, the second is the last of all, or both are above it
      obtain ⟨before, after, whole⟩ := double
      have shape : (before ++ [ascii '/']) ++ ascii '/' :: after = l ++ ascii '/' :: r := by
        rw [← whole]
        simp only [List.append_assoc, List.cons_append, List.nil_append]
      rcases List.append_eq_append_iff.mp shape with ⟨rest, rfl, later⟩ | ⟨rest, ends, later⟩
      · cases rest with
        | nil => exact plain.open_ (by rw [List.append_nil, List.getLast?_concat])
        | cons c rest =>
            rw [List.cons_append, List.cons.injEq] at later
            exact plain.single ⟨before, rest, by rw [← later.1]; simp⟩
      · cases rest with
        | nil =>
            rw [List.append_nil] at ends
            exact plain.open_ (by rw [← ends, List.getLast?_concat])
        | cons c rest =>
            rw [List.cons_append, List.cons.injEq] at later
            exact last (by rw [later.2]; exact List.mem_append_right _ List.mem_cons_self)

/-! ## Looking a directory up -/

theorem dirLookup_eq_some (canonical : DirsCanonical db) {name : Bytes}
    (open_ : name.getLast? ≠ some (ascii '/')) {dir : DirId} :
    db.dirLookup name = some dir ↔
      dir ∈ db.installedDirs.items ∧ (db.dirs.get dir).name = name := by
  rw [dirLookup, stripSlash_of_ne open_]
  exact canonical.table.getHashed_eq_some fun item _ => by
    rw [decide_eq_true_eq, blobCompare_eq_zero, eq_comm]

/-- What is found is found by its own name. -/
theorem plain_of_dirLookup (canonical : DirsCanonical db) {name : Bytes} {dir : DirId}
    (plain : db.PlainUpTo name.length) (found : db.dirLookup name = some dir) : PlainName name := by
  obtain ⟨member, same⟩ := Hash.getHashed_eq_some found
  rw [decide_eq_true_eq, blobCompare_eq_zero] at same
  have placed : db.installedDirs.index (blobHash (db.dirs.get dir).name) =
      db.installedDirs.index (blobHash name) :=
    canonical.table.placed _ dir (List.mem_of_find?_eq_some found)
  have plain := plain dir member
  rw [← same] at placed plain
  replace plain := plain (length_stripSlash name)
  by_cases ends : name.getLast? = some (ascii '/')
  · obtain ⟨above, rfl⟩ := List.getLast?_eq_some_iff.mp ends
    rw [stripSlash_append] at placed
    exact absurd placed.symm (index_slash_ne canonical.even above)
  · rwa [stripSlash_of_ne ends] at plain

/-! ## Steps of the table -/

theorem DirsCanonical.onlyDirs {db' : Database} (canonical : DirsCanonical db)
    (only : OnlyDirs db db') (table : db'.installedDirs = db.installedDirs) :
    DirsCanonical db' := by
  have name (dir : DirId) (member : dir ∈ db.installedDirs.items) :
      (db'.dirs.get dir).name = (db.dirs.get dir).name := only.name dir (canonical.stored dir member)
  refine ⟨fun dir member => ?_, ?_, fun dir member => ?_, ?_⟩
  · exact (canonical.stored dir (table ▸ member)).trans_le only.size
  · rw [table]
    exact canonical.table.congr name
  · rw [table] at member
    rw [name dir member, only.hash dir (canonical.stored dir member)]
    exact canonical.hash dir member
  · rw [table]
    exact canonical.even

theorem DirsCanonical.dirNew (canonical : DirsCanonical db) {name : Bytes}
    (short : name.length < 65536) (absent : ¬ db.DirStored name) : DirsCanonical (db.dirNew name (blobHash name)) := by
  have old (dir : DirId) (member : dir ∈ db.installedDirs.items) :
      (db.dirNew name (blobHash name)).dirs.get dir = db.dirs.get dir :=
    Arena.get_alloc_of_lt _ _ (canonical.stored dir member)
  have new : (db.dirNew name (blobHash name)).dirs.get db.dirs.size =
      { name, hash := blobHash name, refs := 1 } := by
    rw [Database.dirNew, Arena.get_alloc_self, shortBlob_of_lt short]
  have table : db.installedDirs.Keyed
      (fun dir => ((db.dirNew name (blobHash name)).dirs.get dir).name) blobHash :=
    canonical.table.congr fun dir member => by rw [old dir member]
  have inserted := @Hash.Keyed.insertHashed _ _ _ _ _ table db.dirs.size fun other member same =>
    absent ⟨other, member, by rw [← old other member, same, new]⟩
  refine ⟨canonical.stored.dirNew name _, ?_, fun dir member => ?_, canonical.even⟩
  · rw [new] at inserted
    exact inserted
  · rcases Hash.mem_items_insertHashed.mp member with rfl | member
    · rw [new]
    · rw [old dir member]
      exact canonical.hash dir member

/-- A new directory is the only one whose name may not be plain. -/
theorem PlainUpTo.dirNew {length : ℕ} (plain : db.PlainUpTo length) (stored : DirsStored db)
    {name : Bytes} {hash : UInt64} (short : name.length < 65536)
    (here : name.length ≤ length → PlainName name) : (db.dirNew name hash).PlainUpTo length := by
  intro dir member
  rcases Hash.mem_items_insertHashed.mp member with rfl | member
  · rw [Database.dirNew, Arena.get_alloc_self, shortBlob_of_lt short]
    exact here
  · rw [Database.dirNew, Arena.get_alloc_of_lt _ _ (stored dir member)]
    exact plain dir member

theorem PlainUpTo.onlyDirs {db' : Database} {length : ℕ} (plain : db.PlainUpTo length)
    (stored : DirsStored db) (only : OnlyDirs db db')
    (table : db'.installedDirs = db.installedDirs) : db'.PlainUpTo length := by
  intro dir member
  rw [table] at member
  rw [only.name dir (stored dir member)]
  exact plain dir member

theorem dirGetLoop_items (fuel : ℕ) (db : Database) (name : Bytes) :
    ∀ dir ∈ db.installedDirs.items, dir ∈ (dirGetLoop fuel db name).1.installedDirs.items := by
  induction fuel generalizing db name with
  | zero => exact fun _ member => member
  | succ fuel ih =>
      intro dir member
      have new := (@Hash.mem_items_insertHashed _ _ db.dirs.size _ (blobHash name)).mpr
        (.inr member)
      rw [dirGetLoop]
      split
      · exact member
      · dsimp only
        split
        · exact new
        · exact ih _ _ dir new

/-- What is created stays in the table, with its hash and its name. -/
theorem dirGetLoop_created {fuel : ℕ} {name : Bytes} (missing : db.dirLookup name = none)
    (short : (stripSlash name).length < 65536) :
    let out := dirGetLoop (fuel + 1) db name
    out.2 ∈ out.1.installedDirs.items ∧
      (out.1.dirs.get out.2).name = stripSlash name ∧ (out.1.dirs.get out.2).hash = blobHash name := by
  have inside : db.dirs.size < (db.dirNew (stripSlash name) (blobHash name)).dirs.size := by
    rw [dirNew, Arena.size_alloc]
    exact Nat.lt_succ_self _
  have created (last : Database) (only : OnlyDirs (db.dirNew (stripSlash name) (blobHash name)) last) :
      (last.dirs.get db.dirs.size).name = stripSlash name ∧
        (last.dirs.get db.dirs.size).hash = blobHash name := by
    rw [only.name _ inside, only.hash _ inside, dirNew, Arena.get_alloc_self, shortBlob_of_lt short]
    exact ⟨rfl, rfl⟩
  have here : db.dirs.size ∈ (db.dirNew (stripSlash name) (blobHash name)).installedDirs.items :=
    Hash.mem_items_insertHashed.mpr (.inl rfl)
  intro out
  have unfolded : out = dirGetLoop (fuel + 1) db name := rfl
  rw [dirGetLoop, missing] at unfolded
  cases above : parentName (stripSlash name) with
  | none =>
      simp only [above] at unfolded
      rw [unfolded]
      exact ⟨here, created _ (dirInit_onlyDirs ..)⟩
  | some bparent =>
      simp only [above] at unfolded
      rw [unfolded]
      exact ⟨dirGetLoop_items _ _ _ _ here,
        created _ ((dirGetLoop_onlyDirs ..).trans (dirInit_onlyDirs ..))⟩

theorem not_dirStored_of_dirLookup (canonical : DirsCanonical db) {name : Bytes}
    (open_ : name.getLast? ≠ some (ascii '/')) (missing : db.dirLookup name = none) :
    ¬ db.DirStored name := by
  rintro ⟨dir, member, same⟩
  rw [(dirLookup_eq_some canonical open_).mpr ⟨member, same⟩] at missing
  cases missing

/-- **Fetching a directory by a plain name** keeps the table canonical and the names plain. -/
theorem DirsCanonical.dirGetLoop {fuel length : ℕ} {name : Bytes} (canonical : DirsCanonical db)
    (plain : db.PlainUpTo length) (enough : name.length < fuel) (plainName : PlainName name) :
    DirsCanonical (dirGetLoop fuel db name).1 ∧ (dirGetLoop fuel db name).1.PlainUpTo length ∧
      (dirGetLoop fuel db name).2 ∈ (dirGetLoop fuel db name).1.installedDirs.items := by
  induction fuel generalizing db name with
  | zero => cases enough
  | succ fuel ih =>
      cases looked : db.dirLookup name with
      | some dir =>
          have only : OnlyDirs db (db.dirRef dir) :=
            .of_modify db _ _ db.stats.dirs db.rootCalls (fun _ => rfl) fun _ => rfl
          simp only [Database.dirGetLoop, looked]
          exact ⟨canonical.onlyDirs only rfl, plain.onlyDirs canonical.stored only rfl,
            (Hash.getHashed_eq_some looked).1⟩
      | none =>
          have absent := not_dirStored_of_dirLookup canonical plainName.open_ looked
          obtain ⟨stored, -⟩ := @dirGetLoop_created db fuel name looked
            (plainName.stripSlash.symm ▸ plainName.short)
          rw [← and_assoc]
          refine ⟨?_, stored⟩
          have new := canonical.dirNew plainName.short absent
          have names : (db.dirNew name (blobHash name)).PlainUpTo length :=
            plain.dirNew canonical.stored plainName.short fun _ => plainName
          simp only [Database.dirGetLoop, looked, plainName.stripSlash]
          cases parent : parentName name with
          | none => exact ⟨new.onlyDirs (dirInit_onlyDirs ..) rfl,
              names.onlyDirs new.stored (dirInit_onlyDirs ..) rfl⟩
          | some bparent =>
              have shorter := length_parentName parent
              obtain ⟨fetched, names, -⟩ := ih new names (by omega) (plainName.parent parent)
              exact ⟨fetched.onlyDirs (dirInit_onlyDirs ..) rfl,
                names.onlyDirs fetched.stored (dirInit_onlyDirs ..) rfl⟩

/-- Where fetching a directory leaves every hash right, the name is plain. -/
theorem DirsKeyed.plain_of_dirGetLoop {fuel : ℕ} {name : Bytes} (canonical : DirsCanonical db)
    (plain : db.PlainUpTo name.length) (enough : name.length < fuel) (short : (stripSlash name).length < 65536)
    (keyed : DirsKeyed (dirGetLoop fuel db name).1) : PlainName name := by
  induction fuel generalizing db name with
  | zero => cases enough
  | succ fuel ih =>
      cases looked : db.dirLookup name with
      | some dir => exact plain_of_dirLookup canonical plain looked
      | none =>
          obtain ⟨stored, named, hash⟩ := @dirGetLoop_created db fuel name looked short
          have right := keyed _ stored
          rw [named, hash] at right
          have open_ : name.getLast? ≠ some (ascii '/') := by
            intro ends
            obtain ⟨above, rfl⟩ := List.getLast?_eq_some_iff.mp ends
            rw [stripSlash_append] at right
            exact blobHash_slash above (congrArg (fun hash => hash.toNat % 2) right)
          have strip := stripSlash_of_ne open_
          rw [strip] at short
          refine .of_parent short open_ fun bparent parent => ?_
          have shorter := length_parentName (Option.mem_def.mp parent)
          have within := length_stripSlash bparent
          have new := canonical.dirNew short (not_dirStored_of_dirLookup canonical open_ looked)
          -- the new directory's name is longer than those of the directories above it
          have names : (db.dirNew name (blobHash name)).PlainUpTo bparent.length :=
            PlainUpTo.dirNew (fun dir member fits => plain dir member (by omega)) canonical.stored
              short fun fits => absurd fits (by omega)
          refine ih new names (by omega) (by omega) ?_
          simp only [dirGetLoop, looked, strip, Option.mem_def.mp parent] at keyed
          intro dir member
          have kept := keyed dir member
          have fetched := (new.stored.dirGetLoop bparent (by omega : bparent.length < fuel)).1
          have only := dirInit_onlyDirs
            (dirGetLoop fuel (db.dirNew name (blobHash name)) bparent).1 db.dirs.size name
            (some (dirGetLoop fuel (db.dirNew name (blobHash name)) bparent).2)
          rw [only.name dir (fetched dir member), only.hash dir (fetched dir member)] at kept
          exact kept

/-! ## Runs -/

/-- The database, and what each call of `apk_db_dir_get` has given, newest first. -/
structure FetchRun where
  db : Database
  fetched : List (Bytes × DirId) := []

/-- One call. -/
def fetchStep (state : FetchRun) : DirAction → Option FetchRun
  | .get name =>
      let (db, dir) := state.db.dirGet name
      some ⟨db, (name, dir) :: state.fetched⟩
  | .unref dir allowRmdir => some { state with db := state.db.dirUnref dir allowRmdir }

/-- A database with the table of directories that `apk_db_open` makes. -/
def fetchStart (base : Database) : FetchRun := { db := { base with installedDirs := newDirs } }

/-- The condition on a call: the name is plain. -/
def FetchCondition (_ : FetchRun) : DirAction → Prop
  | .get name => PlainName name
  | .unref _ _ => True

/-- **The directory table is canonical.** Names that differ in one trailing `/` gave the same
directory, no two directories have one name, and each has the hash of its name and lies in its
bucket, so that the files of a directory are put where they are looked for. -/
structure TableCanonical (state : FetchRun) : Prop where
  same : ∀ a ∈ state.fetched, ∀ b ∈ state.fetched,
    b.1 = a.1 ∨ b.1 = a.1 ++ [ascii '/'] → b.2 = a.2
  unique : ∀ a ∈ state.db.installedDirs.items, ∀ b ∈ state.db.installedDirs.items,
    (state.db.dirs.get a).name = (state.db.dirs.get b).name → a = b
  hash : ∀ dir ∈ state.db.installedDirs.items,
    (state.db.dirs.get dir).hash = blobHash (state.db.dirs.get dir).name
  bucket : ∀ dir ∈ state.db.installedDirs.items, dir ∈ state.db.installedDirs.bucket
    (state.db.installedDirs.index (blobHash (state.db.dirs.get dir).name))
  files : ∀ diri filename, (state.db.diris.get diri).dir ∈ state.db.installedDirs.items →
    state.db.fileHash diri filename =
      blobHashSeed filename (blobHash (state.db.diriDir diri).name)

/-- What a run keeps up: the table is canonical, its names are plain, and what was fetched is
in it under the name it was fetched by. -/
structure FetchInv (state : FetchRun) : Prop where
  canonical : DirsCanonical state.db
  plain : ∀ length, state.db.PlainUpTo length
  fetched : ∀ fetch ∈ state.fetched, fetch.2 ∈ state.db.installedDirs.items ∧
    (state.db.dirs.get fetch.2).name = fetch.1

theorem dirUnrefLoop_installedDirs (allowRmdir : Bool) (fuel : ℕ) (db : Database) (dir : DirId) :
    (dirUnrefLoop allowRmdir fuel db dir).installedDirs = db.installedDirs := by
  induction fuel generalizing db dir with
  | zero => rfl
  | succ fuel ih =>
      rw [dirUnrefLoop]
      dsimp only
      split
      · rfl
      split
      · rfl
      · exact ih ..

/-- The names of the directories fetched so far stay. -/
theorem FetchInv.of_only {state : FetchRun} (inv : FetchInv state) {db' : Database}
    (only : OnlyDirs state.db db')
    (grown : ∀ dir ∈ state.db.installedDirs.items, dir ∈ db'.installedDirs.items) :
    ∀ fetch ∈ state.fetched, fetch.2 ∈ db'.installedDirs.items ∧
      (db'.dirs.get fetch.2).name = fetch.1 := by
  intro fetch member
  obtain ⟨stored, named⟩ := inv.fetched fetch member
  exact ⟨grown _ stored, (only.name _ (inv.canonical.stored _ stored)).trans named⟩

/-- One call. -/
theorem FetchInv.step {state next : FetchRun} {action : DirAction} (inv : FetchInv state)
    (condition : FetchCondition state action) (stepped : fetchStep state action = some next) :
    FetchInv next := by
  cases action with
  | get name =>
      cases stepped
      have enough := Nat.lt_succ_self name.length
      have fetch (length : ℕ) := inv.canonical.dirGetLoop (inv.plain length) enough condition
      refine ⟨(fetch 0).1, fun length => (fetch length).2.1, fun fetched member => ?_⟩
      rcases List.mem_cons.mp member with rfl | earlier
      · exact ⟨(fetch 0).2.2, dirGetLoop_name condition.short condition.stripSlash enough⟩
      · exact inv.of_only (dirGet_onlyDirs _ _) (dirGetLoop_items _ _ _) fetched earlier
  | unref dir allowRmdir =>
      cases stepped
      have only := (dirUnrefLoop_onlyDirs allowRmdir (state.db.dirs.size + 1) state.db dir).1
      have table := dirUnrefLoop_installedDirs allowRmdir (state.db.dirs.size + 1) state.db dir
      exact ⟨inv.canonical.onlyDirs only table,
        fun length => (inv.plain length).onlyDirs inv.canonical.stored only table,
        inv.of_only only fun _ member => table.symm ▸ member⟩

theorem FetchInv.tableCanonical {state : FetchRun} (inv : FetchInv state) :
    TableCanonical state where
  same a aFetched b bFetched alike := by
    obtain ⟨aStored, aNamed⟩ := inv.fetched a aFetched
    obtain ⟨bStored, bNamed⟩ := inv.fetched b bFetched
    refine inv.canonical.table.unique _ bStored _ aStored ?_
    rcases alike with equal | slashed
    · rw [bNamed, aNamed, equal]
    · -- a name with a `/` behind it was not fetched
      have plain := inv.plain _ _ bStored le_rfl
      rw [bNamed, slashed] at plain
      exact absurd List.getLast?_concat plain.open_
  unique := inv.canonical.table.unique
  hash := inv.canonical.hash
  bucket dir member := by
    obtain ⟨b, -, inside⟩ := Hash.mem_items.mp member
    rw [inv.canonical.table.placed b dir inside]
    exact inside
  files diri filename member := by
    rw [fileHash, diriDir, inv.canonical.hash _ member]

theorem fetchInv_start (base : Database) :
    FetchInv (fetchStart base) := by
  have nothing (dir : DirId) (member : dir ∈ newDirs.items) : False := by simp at member
  refine ⟨⟨fun dir member => (nothing dir member).elim, Hash.keyed_init _ _ _ _,
    fun dir member => (nothing dir member).elim, (rfl : newDirs.num % 2 = 0)⟩,
    fun _ dir member => (nothing dir member).elim, fun fetch member => ?_⟩
  cases member

/-- Right hashes behind a call are right hashes before it. -/
theorem dirsKeyed_of_step {state next : FetchRun} {action : DirAction}
    (stored : DirsStored state.db) (stepped : fetchStep state action = some next) :
    DirsStored next.db ∧ (DirsKeyed next.db → DirsKeyed state.db) := by
  have back (db' : Database) (only : OnlyDirs state.db db')
      (grown : ∀ dir ∈ state.db.installedDirs.items, dir ∈ db'.installedDirs.items)
      (keyed : DirsKeyed db') : DirsKeyed state.db := by
    intro dir member
    rw [← only.hash dir (stored dir member), ← only.name dir (stored dir member)]
    exact keyed dir (grown dir member)
  cases action with
  | get name =>
      cases stepped
      exact ⟨(stored.dirGet name).1, back (state.db.dirGet name).1 (dirGet_onlyDirs _ _)
        (dirGetLoop_items (name.length + 1) state.db name)⟩
  | unref dir allowRmdir =>
      cases stepped
      obtain ⟨only, kept⟩ :=
        dirUnrefLoop_onlyDirs allowRmdir (state.db.dirs.size + 1) state.db dir
      exact ⟨kept stored, back _ only fun _ member =>
        (dirUnrefLoop_installedDirs ..).symm ▸ member⟩

theorem dirsKeyed_of_run {actions : List DirAction} {state final : FetchRun}
    (stored : DirsStored state.db) (reached : run fetchStep state actions = some final)
    (keyed : DirsKeyed final.db) : DirsKeyed state.db := by
  induction actions generalizing state with
  | nil =>
      cases reached
      exact keyed
  | cons action actions ih =>
      obtain ⟨next, stepped, rest⟩ := run_cons_eq_some.mp reached
      obtain ⟨later, back⟩ := dirsKeyed_of_step stored stepped
      exact back (ih later rest)

/-- A run that ends with right hashes has fetched by plain names only. -/
theorem FetchInv.plain_of_run {actions : List DirAction} {state final : FetchRun}
    (inv : FetchInv state)
    (short : ∀ name, .get name ∈ actions → (stripSlash name).length < 65536)
    (reached : run fetchStep state actions = some final) (keyed : DirsKeyed final.db) :
    ∀ name, .get name ∈ actions → PlainName name := by
  induction actions generalizing state with
  | nil => exact fun _ member => absurd member List.not_mem_nil
  | cons action actions ih =>
      obtain ⟨next, stepped, rest⟩ := run_cons_eq_some.mp reached
      have right : DirsKeyed next.db :=
        dirsKeyed_of_run (dirsKeyed_of_step inv.canonical.stored stepped).1 rest keyed
      have condition : FetchCondition state action := by
        cases action with
        | get name =>
            cases stepped
            exact right.plain_of_dirGetLoop inv.canonical (inv.plain _) (Nat.lt_succ_self _)
              (short name List.mem_cons_self)
        | unref dir allowRmdir => trivial
      intro name member
      rcases List.mem_cons.mp member with rfl | later
      · exact condition
      · exact ih (inv.step condition stepped)
          (fun other inside => short other (List.mem_cons_of_mem _ inside)) rest name later

/-- **When the directory table is canonical.** Every run of fetches by plain names, and of
releases, leaves it so, and among the runs with names of a length that can be kept no other one
does. -/
theorem dirs_canonical_iff (base : Database) {actions : List DirAction} {final : FetchRun}
    (reached : run fetchStep (fetchStart base) actions = some final) :
    ((∀ name, .get name ∈ actions → PlainName name) → TableCanonical final) ∧
      ((∀ name, .get name ∈ actions → (stripSlash name).length < 65536) →
        (TableCanonical final ↔ ∀ name, .get name ∈ actions → PlainName name)) := by
  have forth (plain : ∀ name, .get name ∈ actions → PlainName name) : TableCanonical final := by
    have guarded : Guarded fetchStep FetchCondition (fetchStart base) actions := by
      refine .of_forall fun action member state => ?_
      cases action with
      | get name => exact plain name member
      | unref dir allowRmdir => trivial
    have inv : FetchInv final := guarded.invariant FetchInv
      (fun _ _ _ inv condition stepped => inv.step condition stepped) (fetchInv_start base) reached
    exact inv.tableCanonical
  refine ⟨forth, fun short => ⟨fun canonical => ?_, forth⟩⟩
  exact (fetchInv_start base).plain_of_run short reached canonical.hash

/-- A directory, the one above it, and the release of the latter. -/
theorem dirs_canonical_plain :
    ∃ final, run fetchStep (fetchStart {})
        [.get (text "usr/bin"), .get (text "usr"), .unref 1 true] = some final ∧
      TableCanonical final := by
  refine ⟨_, rfl, (@dirs_canonical_iff {}
    [.get (text "usr/bin"), .get (text "usr"), .unref 1 true] _ rfl).1 fun name member => ?_⟩
  simp only [List.mem_cons, DirAction.get.injEq, List.not_mem_nil, or_false, reduceCtorEq] at member
  rcases member with rfl | rfl
  · exact ⟨by decide, by decide, by decide⟩
  · exact ⟨by decide, by decide, by decide⟩

/-- **A trailing `/` makes a second directory**, under a hash that is not the one of its
name. -/
theorem dirs_canonical_slash :
    ∃ final, run fetchStep (fetchStart {}) [.get (text "usr"), .get (text "usr/")] = some final ∧
      (text "usr", 0) ∈ final.fetched ∧ (text "usr/", 2) ∈ final.fetched ∧
      (final.db.dirs.get 0).name = text "usr" ∧ (final.db.dirs.get 2).name = text "usr" ∧
      (final.db.dirs.get 2).hash ≠ blobHash (text "usr") ∧ ¬ TableCanonical final := by
  refine ⟨_, rfl, ?_, ?_, ?_, ?_, ?_, fun canonical =>
    absurd (canonical.same (text "usr", 0) ?_ (text "usr/", 2) ?_ ?_) ?_⟩
  all_goals decide +kernel

end AriannaLinux.Apk.Database
