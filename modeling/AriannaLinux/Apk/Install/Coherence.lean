import AriannaLinux.Apk.Install.FailedUnpack
import AriannaLinux.Apk.Install.Index
import AriannaLinux.Apk.TarWrite

/-! # The index stays coherent

Extraction, migration and purge move records between the lists of the instances and the table
of installed files. The index stays coherent as long as the files of an archive come in order:
a file of the directory that came last is listed behind the last file, wherever that one is
listed.
-/

namespace AriannaLinux.Apk

namespace Database

variable {db : Database} {pending : FileId → Prop}

/-! ## Purging -/

section Purge

variable (env : RootEnv) (flags : Flags)

/-- A purged record leaves its list and the table. -/
theorem Filed.purgeFile (indexed : Filed pending db) (counted : Counted db) {diri : DiriId}
    {file : FileId} {rest : List FileId} (lists : db.listed diri = file :: rest)
    (stored : file ∈ db.installedFiles.items) :
    Filed pending (db.purgeFile env flags none diri file) ∧
      Counted (db.purgeFile env flags none diri file) ∧
      (db.purgeFile env flags none diri file).listed diri = rest := by
  have member : file ∈ db.listed diri := lists ▸ List.mem_cons_self
  obtain ⟨names, hash⟩ := indexed.claimKey member
  obtain ⟨rootCalls, called⟩ : ∃ rootCalls,
      (if db.purgeUnlinks env flags none diri file then
        (db.rootCall env (.unlinkat (db.filePath diri file []) false)).2 else db) =
          { db with rootCalls } := by
    split
    · exact ⟨_, rfl⟩
    · exact ⟨_, rfl⟩
  have unlisted : db.diris.modify diri (fun d => { d with ownedFiles := d.ownedFiles.tail }) =
      db.diris.modify (db.files.get file).diri
        fun d => { d with ownedFiles := d.ownedFiles.erase file } := by
    rw [indexed.diri diri file member]
    apply Arena.modify_congr
    change db.listed diri = file :: rest at lists
    rw [listed] at lists
    simp only [lists, List.tail_cons, List.erase_cons_head]
  have purged : db.purgeFile env flags none diri file =
      { db.dropFile file with
        stats := { db.stats with files := db.stats.files - 1 }
        rootCalls } := by
    let unlistedDb : Database := { db.fileUnlist file with rootCalls }
    have dir : unlistedDb.diriDir diri = db.diriDir diri :=
      congrArg db.dirs.get (dir_fileUnlist db file diri)
    have hash : unlistedDb.fileHash diri (db.files.get file).name = keyHash (db.fileKey file) := by
      rw [← hash, Database.fileHash, dir]
      rfl
    simp only [Database.purgeFile, Option.getD_none, called, Option.isSome_none, Bool.false_eq_true,
      ↓reduceIte, unlisted]
    change { unlistedDb.fileDelete (unlistedDb.diriDir diri).name (db.files.get file).name
      (unlistedDb.fileHash diri (db.files.get file).name) with
        stats := { db.stats with files := db.stats.files - 1 } } = _
    rw [hash, dir, Database.dropFile, names]
    rfl
  have dropped := indexed.dropFile stored
  rw [purged]
  refine ⟨⟨{ dropped.toLinked with }, { dropped.toListing with }⟩, ?_, ?_⟩
  · exact counted.less rfl (indexed.toListing.length_items_dropFile stored)
  · change (db.fileUnlist file).listed diri = rest
    rw [listed_fileUnlist, if_pos (indexed.diri diri file member), lists, List.erase_cons_head]

/-- An index without pending records whose records are counted. -/
def Settled (db : Database) : Prop := Filed (fun _ => False) db ∧ Counted db

theorem Settled.purgeFiles (settled : Settled db) {diri : DiriId} {files : List FileId}
    (lists : db.listed diri = files) :
    Settled (files.foldl (purgeFile env flags none diri) db) := by
  induction files generalizing db with
  | nil => exact settled
  | cons file rest ih =>
      obtain ⟨indexed, counted⟩ := settled
      have stored := (indexed.stored diri file (lists ▸ List.mem_cons_self)).resolve_right id
      obtain ⟨purged, counted, left⟩ :=
        indexed.purgeFile env flags counted lists stored
      exact ih ⟨purged, counted⟩ left

/-- A package owns fewer instances. -/
theorem Settled.ownedDirs_tail (settled : Settled db) (ipkg : IpkgId) :
    Settled { db with ipkgs := db.ipkgs.modify ipkg fun ip =>
      { ip with ownedDirs := ip.ownedDirs.tail } } := by
  obtain ⟨indexed, counted⟩ := settled
  have owner : ∀ other, ((db.ipkgs.modify ipkg fun ip =>
      { ip with ownedDirs := ip.ownedDirs.tail }).get other).pkg = (db.ipkgs.get other).pkg :=
    fun other => Arena.get_modify_field InstalledPackage.pkg db.ipkgs ipkg other
      (fun ip => { ip with ownedDirs := ip.ownedDirs.tail }) fun _ => rfl
  refine ⟨⟨{ indexed.toLinked with ipkg := ?_, owned := ?_, distinctDirs := ?_ },
    { indexed.toListing with }⟩, counted⟩
  · intro pkg other found
    exact (indexed.ipkg pkg other found).trans_eq (Arena.size_modify ..).symm
  · intro other diri member
    rw [owner]
    simp only [Arena.get_modify] at member
    split at member
    · exact indexed.owned other diri (List.mem_of_mem_tail member)
    · exact indexed.owned other diri member
  · intro other
    simp only [Arena.get_modify]
    split
    · exact (indexed.distinctDirs other).sublist (List.tail_sublist _)
    · exact indexed.distinctDirs other

/-- Purging an instance of a package. -/
theorem Settled.purgeDiri (settled : Settled db) (ipkg : IpkgId) (diri : DiriId) :
    Settled (purgeDiri env flags none ipkg db diri) := by
  have marked : Settled (db.dirModified diri) := ⟨settled.1.dirModified diri, settled.2⟩
  have same : (db.dirModified diri).listed diri = db.listed diri := rfl
  have purged := marked.purgeFiles env flags same
  have released := purged.ownedDirs_tail ipkg
  exact ⟨released.1.diriFree diri true, released.2.onlyDirs (diriFree_onlyDirs ..)⟩

/-- **Purging a package.** -/
theorem Settled.purgePkg (settled : Settled db) (ipkg : IpkgId) :
    Settled (db.purgePkg env flags none ipkg) :=
  List.foldlRecOn (motive := Settled) _ (Database.purgeDiri env flags none ipkg) settled
    fun _ settled diri _ => settled.purgeDiri env flags ipkg diri

end Purge

/-! ## Migrating -/

theorem migrateContent_eq (env : RootEnv) (flags : Flags) (db : Database) (diri : DiriId)
    (file : FileId) (ofile : Option FileId) :
    ∃ rootCalls, db.migrateContent env flags diri file ofile = { db with rootCalls } := by
  have called : ∀ call, ∃ rootCalls, (db.rootCall env call).2 = { db with rootCalls } :=
    fun call => ⟨_, rfl⟩
  unfold migrateContent
  dsimp only
  split_ifs <;> first | exact called _ | exact ⟨_, rfl⟩

/-- Migrating a file claims it. -/
theorem Filed.migrateFile (env : RootEnv) (flags : Flags) (indexed : Filed pending db)
    (counted : Counted db) {diri : DiriId} {file : FileId} (member : file ∈ db.listed diri) :
    Claimed pending db file
      (db.fileGetHashed (db.fileKey file).1 (db.fileKey file).2 (keyHash (db.fileKey file)))
      (db.migrateFile env flags diri file) := by
  obtain ⟨names, hash⟩ := indexed.claimKey member
  obtain ⟨rootCalls, moved⟩ := migrateContent_eq env flags db diri file
    (db.fileGetHashed (db.fileKey file).1 (db.fileKey file).2 (keyHash (db.fileKey file)))
  have called : SameIndex db { db with rootCalls } := { SameIndex.refl db with }
  have claimed := (indexed.same called).claimed (counted.same called) member rfl
  have migrated : db.migrateFile env flags diri file =
      { db with rootCalls }.claimFile diri file
        (db.fileGetHashed (db.fileKey file).1 (db.fileKey file).2 (keyHash (db.fileKey file))) := by
    rw [← moved]
    simp only [Database.migrateFile, hash]
    simp only [names]
  rw [migrated]
  exact ⟨claimed.indexed, claimed.counted, { claimed.claims with }⟩

/-- A migration that is under way: the pending records are those of the installation that are
not claimed yet, and no record of the package itself has their names. -/
structure Migrating (ipkg : IpkgId) (size : ℕ) (pending : FileId → Prop) (db : Database) :
    Prop where
  indexed : Filed pending db
  counted : Counted db
  foreign : ∀ diri, ∀ file ∈ db.listed diri, pending file → ∀ other ∈ db.installedFiles.items,
    db.fileKey other = db.fileKey file →
      db.fileOwner other ≠ (db.ipkgs.get ipkg).pkg ∨ size ≤ other

section Migrate

variable (env : RootEnv) (flags : Flags) {ipkg : IpkgId} {size : ℕ} {diri : DiriId}

/-- What a migration may do: a record is unlisted only when its names are claimed, and it
leaves the table only for a pending record. -/
structure Moves (pending : FileId → Prop) (db db' : Database) : Prop where
  listed : ∀ diri other, other ∈ db'.listed diri → other ∈ db.listed diri
  fileKey : ∀ other, db'.fileKey other = db.fileKey other
  fileOwner : ∀ other, db'.fileOwner other = db.fileOwner other
  left : ∀ other ∈ db.installedFiles.items, other ∉ db'.installedFiles.items →
    ∃ diri, ∃ file ∈ db.listed diri, pending file ∧ db.fileKey other = db.fileKey file
  ipkgs : db'.ipkgs = db.ipkgs

theorem Moves.refl (pending : FileId → Prop) (db : Database) : Moves pending db db :=
  ⟨fun _ _ => id, fun _ => rfl, fun _ => rfl, fun _ stored gone => absurd stored gone, rfl⟩

theorem Moves.trans {pending' : FileId → Prop} {db' db'' : Database}
    (fewer : ∀ file, pending' file → pending file) (first : Moves pending db db')
    (second : Moves pending' db' db'') : Moves pending db db'' where
  listed diri other member := first.listed diri other (second.listed diri other member)
  fileKey other := (second.fileKey other).trans (first.fileKey other)
  fileOwner other := (second.fileOwner other).trans (first.fileOwner other)
  left other stored gone := by
    by_cases kept : other ∈ db'.installedFiles.items
    · obtain ⟨diri, file, member, waiting, key⟩ := second.left other kept gone
      rw [first.fileKey, first.fileKey] at key
      exact ⟨diri, file, first.listed diri file member, fewer file waiting, key⟩
    · exact first.left other stored kept
  ipkgs := second.ipkgs.trans first.ipkgs

/-- Migrating a file of the package leaves the ones behind it in their list. -/
theorem Migrating.file (migrating : Migrating ipkg size pending db)
    (own : diri ∈ (db.ipkgs.get ipkg).ownedDirs) {file : FileId} {rest : List FileId}
    (snapshot : ∀ other ∈ file :: rest, other ∈ db.listed diri)
    (new : pending file → size ≤ file)
    (waits : ∀ other ∈ rest, size ≤ other → pending other) :
    Migrating ipkg size (fun other => pending other ∧ other ≠ file)
        (db.migrateFile env flags diri file) ∧
      (∀ other ∈ rest, other ∈ (db.migrateFile env flags diri file).listed diri) ∧
      Moves pending db (db.migrateFile env flags diri file) := by
  have indexed := migrating.indexed
  have member := snapshot file List.mem_cons_self
  have claimed := indexed.migrateFile env flags migrating.counted member
  have claims := claimed.claims
  have owner : ∀ other, (db.migrateFile env flags diri file).fileOwner other =
      db.fileOwner other := by
    intro other
    rw [fileOwner, fileOwner, claims.owner, claims.files]
  refine ⟨⟨claimed.indexed, claimed.counted, ?_⟩, ?_, ?_⟩
  · rintro home waiting member' ⟨waits', -⟩ other stored same
    rw [claims.fileKey, claims.fileKey] at same
    rw [owner, claims.ipkgs]
    have listed := ((claims.listed home waiting).mp member').1
    have old := migrating.foreign home waiting listed waits' other
    rcases (claims.stored other).mp stored with rfl | ⟨stored, -⟩
    · rcases indexed.stored diri other member with stored | pends
      · exact old stored same
      · exact .inr (new pends)
    · exact old stored same
  · intro other inside
    have listed := snapshot other (List.mem_cons_of_mem _ inside)
    refine (claims.listed diri other).mpr ⟨listed, fun found => ?_⟩
    obtain ⟨stored, key⟩ := indexed.toListing.fileGetHashed_eq_some.mp found
    rcases indexed.stored diri file member with itself | pends
    · exact indexed.table.unique other stored file itself key
    -- the record that has the names of a pending one is of another package, or done already
    have owned : db.fileOwner other = (db.ipkgs.get ipkg).pkg := by
      rw [fileOwner, indexed.diri diri other listed]
      exact (indexed.owned ipkg diri own).2
    rcases migrating.foreign diri file member pends other stored key with foreign | done
    · exact absurd owned foreign
    · exact absurd stored (indexed.waiting other (waits other inside done))
  · refine ⟨fun home other inside => ((claims.listed home other).mp inside).1, claims.fileKey,
      owner, fun other stored gone => ?_, claims.ipkgs⟩
    obtain ⟨other_ne, found⟩ := not_or.mp (mt (claims.stored other).mpr gone)
    have found := not_not.mp fun missing => found ⟨stored, missing⟩
    obtain ⟨-, key⟩ := indexed.toListing.fileGetHashed_eq_some.mp found
    rcases indexed.stored diri file member with itself | pends
    · exact absurd (indexed.table.unique other stored file itself key) other_ne
    · exact ⟨diri, file, member, pends, key⟩

/-- Migrating the files of an instance, from some file on. -/
theorem Migrating.files {rest : List FileId} (migrating : Migrating ipkg size pending db)
    (own : diri ∈ (db.ipkgs.get ipkg).ownedDirs)
    (snapshot : ∀ other ∈ rest, other ∈ db.listed diri) (distinct : rest.Nodup)
    (new : ∀ other, pending other → size ≤ other)
    (waits : ∀ other ∈ rest, size ≤ other → pending other) :
    Migrating ipkg size (fun other => pending other ∧ other ∉ rest)
        (rest.foldl (migrateFile env flags diri) db) ∧
      Moves pending db (rest.foldl (migrateFile env flags diri) db) := by
  induction rest generalizing db pending with
  | nil =>
      simp only [List.not_mem_nil, not_false_eq_true, and_true, List.foldl_nil]
      exact ⟨migrating, .refl pending db⟩
  | cons file rest ih =>
      obtain ⟨absent, distinct⟩ := List.nodup_cons.mp distinct
      obtain ⟨next, still, moved⟩ := migrating.file env flags own snapshot
        (new file) fun other inside => waits other (List.mem_cons_of_mem _ inside)
      obtain ⟨last, later⟩ := ih next (by rwa [moved.ipkgs]) still distinct
        (fun other waiting => new other waiting.1)
        fun other inside done => ⟨waits other (List.mem_cons_of_mem _ inside) done,
          fun same => absent (same ▸ inside)⟩
      refine ⟨?_, moved.trans (fun _ => And.left) later⟩
      have pendings : (fun other => pending other ∧ other ∉ file :: rest) =
          fun other => (pending other ∧ other ≠ file) ∧ other ∉ rest := by
        funext other
        simp only [List.mem_cons, not_or, and_assoc]
      rw [pendings]
      exact last

theorem fileKey_dirModified (db : Database) (diri : DiriId) (file : FileId) :
    (db.dirModified diri).fileKey file = db.fileKey file :=
  congrArg (Prod.mk · _) (Arena.get_modify_field Dir.name db.dirs _ _
    (fun d => { d with flags := { d.flags with modified := true } }) fun _ => rfl)

/-- Migrating an instance: none of its records is pending any more. -/
theorem Migrating.instance_ (migrating : Migrating ipkg size pending db)
    (own : diri ∈ (db.ipkgs.get ipkg).ownedDirs) (new : ∀ other, pending other → size ≤ other)
    (waits : ∀ other ∈ db.listed diri, size ≤ other → pending other) :
    Migrating ipkg size (fun other => pending other ∧ other ∉ db.listed diri)
        (db.migrateDiri env flags diri) ∧
      Moves pending db (db.migrateDiri env flags diri) := by
  have keys := fileKey_dirModified db diri
  have marked : Migrating ipkg size pending (db.dirModified diri) :=
    { indexed := migrating.indexed.dirModified diri
      counted := migrating.counted
      foreign := fun home file member waiting other stored same =>
        migrating.foreign home file member waiting other stored (by rwa [keys, keys] at same) }
  have marks : Moves pending db (db.dirModified diri) :=
    ⟨fun _ _ => id, keys, fun _ => rfl, fun _ stored gone => absurd stored gone, rfl⟩
  obtain ⟨done, moved⟩ := marked.files env flags own
    (fun other (member : other ∈ db.listed diri) => member) (migrating.indexed.distinctFiles diri) new waits
  exact ⟨done, marks.trans (fun _ => id) moved⟩

/-- **Migrating the instances of a package.** When all the pending records are in the lists of
the instances to come, none is left. -/
theorem Migrating.instances {todo : List DiriId} (migrating : Migrating ipkg size pending db)
    (own : ∀ diri ∈ todo, diri ∈ (db.ipkgs.get ipkg).ownedDirs) (distinct : todo.Nodup)
    (new : ∀ other, pending other → size ≤ other)
    (waits : ∀ diri ∈ todo, ∀ other ∈ db.listed diri, size ≤ other → pending other)
    (home : ∀ diri, ∀ other ∈ db.listed diri, pending other → diri ∈ todo) :
    Settled (todo.foldl (migrateDiri env flags) db) ∧
      Moves pending db (todo.foldl (migrateDiri env flags) db) := by
  induction todo generalizing db pending with
  | nil =>
      have indexed := migrating.indexed
      refine ⟨⟨⟨indexed.toLinked, { indexed.toListing with stored := ?_, waiting := ?_ }⟩,
        migrating.counted⟩, .refl pending db⟩
      · intro diri file member
        rcases indexed.stored diri file member with stored | waiting
        · exact .inl stored
        · exact absurd (home diri file member waiting) List.not_mem_nil
      · exact fun _ never => never.elim
  | cons diri todo ih =>
      obtain ⟨absent, distinct⟩ := List.nodup_cons.mp distinct
      obtain ⟨next, moved⟩ := migrating.instance_ env flags
        (own diri List.mem_cons_self) new (waits diri List.mem_cons_self)
      have later : Settled (todo.foldl (migrateDiri env flags) (db.migrateDiri env flags diri)) ∧
          Moves (fun other => pending other ∧ other ∉ db.listed diri)
            (db.migrateDiri env flags diri)
            (todo.foldl (migrateDiri env flags) (db.migrateDiri env flags diri)) := by
        apply ih next _ distinct (fun other waiting => new other waiting.1)
        · intro later inside other member done
          have old := moved.listed later other member
          refine ⟨waits later (List.mem_cons_of_mem _ inside) other old done, fun here => ?_⟩
          -- a record is listed by its own instance only
          have one := (migrating.indexed.diri diri other here).symm.trans
            (migrating.indexed.diri later other old)
          exact absent (one ▸ inside)
        · intro elsewhere other member waiting
          have old := moved.listed elsewhere other member
          rcases List.mem_cons.mp (home elsewhere other old waiting.1) with rfl | inside
          · exact absurd old waiting.2
          · exact inside
        · intro later inside
          rw [moved.ipkgs]
          exact own later (List.mem_cons_of_mem _ inside)
      exact ⟨later.1, moved.trans (fun _ => And.left) later.2⟩

end Migrate

end Database

open Database

/-! ## The order of the entries -/

/-- Where the entries of an archive have come to: the name of the directory that came last,
and whether a file of another directory came after it. -/
structure EntryOrder where
  current : Option Bytes := none
  away : Bool := false
  deriving DecidableEq, Repr

namespace EntryOrder

/-- The directory part of the name of a file. -/
def dirname (ae : FileInfo) : Option Bytes := (blobRsplit (ascii '/') ae.name).map Prod.fst

/-- The order behind an entry. -/
def next (order : EntryOrder) (ae : FileInfo) : EntryOrder :=
  if ae.isDirectory then { current := some (stripSlash ae.name) }
  else if order.current = dirname ae then order
  else { order with away := true }

/-- A directory has a plain name, and the files of the directory that came last come before
the files of others. -/
def Accepts (order : EntryOrder) (ae : FileInfo) : Prop :=
  if ae.isDirectory then PlainName (stripSlash ae.name)
  else ae.name.length < 65536 ∧ (order.current = dirname ae → order.away = false)

/-- The order behind a list of entries. -/
def after (order : EntryOrder) (entries : List FileInfo) : EntryOrder := entries.foldl next order

/-- Entries in order. -/
def Orderly : EntryOrder → List FileInfo → Prop
  | _, [] => True
  | order, ae :: rest => order.Accepts ae ∧ (order.next ae).Orderly rest

instance (name : Bytes) : Decidable (PlainName name) :=
  decidable_of_iff (name.length < 65536 ∧ name.getLast? ≠ some (ascii '/') ∧
      ¬ [ascii '/', ascii '/'] <:+: name)
    ⟨fun ⟨short, open_, single⟩ => ⟨short, open_, single⟩,
      fun plain => ⟨plain.short, plain.open_, plain.single⟩⟩

instance (order : EntryOrder) (ae : FileInfo) : Decidable (order.Accepts ae) :=
  inferInstanceAs (Decidable (if ae.isDirectory then PlainName (stripSlash ae.name)
    else ae.name.length < 65536 ∧ (order.current = dirname ae → order.away = false)))

instance decidableOrderly (order : EntryOrder) (entries : List FileInfo) :
    Decidable (order.Orderly entries) :=
  match entries with
  | [] => inferInstanceAs (Decidable True)
  | ae :: rest =>
      have := decidableOrderly (order.next ae) rest
      inferInstanceAs (Decidable (_ ∧ _))

theorem orderly_concat (order : EntryOrder) (entries : List FileInfo) (ae : FileInfo) :
    order.Orderly (entries ++ [ae]) ↔
      order.Orderly entries ∧ (order.after entries).Accepts ae := by
  induction entries generalizing order with
  | nil => simp [Orderly, after]
  | cons first rest ih =>
      simp only [List.cons_append, Orderly, ih, and_assoc]
      rfl

theorem after_concat (order : EntryOrder) (entries : List FileInfo) (ae : FileInfo) :
    order.after (entries ++ [ae]) = (order.after entries).next ae := by
  simp only [after, List.foldl_append, List.foldl_cons, List.foldl_nil]

end EntryOrder

/-! ## Unpacking -/

/-- An unpacking that is under way, whose entries came in order. -/
structure Unpacking (flags : Flags) (start : Database) (order : EntryOrder) (ctx : InstallCtx) :
    Prop where
  indexed : Filed (start.files.size ≤ ·) ctx.db
  counted : Counted ctx.db
  files : start.files.size ≤ ctx.db.files.size
  inside : ctx.ipkg < ctx.db.ipkgs.size
  owner : (ctx.db.ipkgs.get ctx.ipkg).pkg = ctx.pkg
  home : ∀ diri, ∀ file ∈ ctx.db.listed diri, start.files.size ≤ file →
    diri ∈ (ctx.db.ipkgs.get ctx.ipkg).ownedDirs
  foreign : ∀ diri, ∀ file ∈ ctx.db.listed diri, start.files.size ≤ file →
    ∀ other ∈ ctx.db.installedFiles.items, ctx.db.fileKey other = ctx.db.fileKey file →
      ctx.db.fileOwner other ≠ ctx.pkg
  allowed : ∀ diri, ∀ file ∈ ctx.db.listed diri, start.files.size ≤ file →
    ∀ other ∈ ctx.db.installedFiles.items, ctx.db.fileKey other = ctx.db.fileKey file →
      ctx.mayOverwrite flags (ctx.db.fileOwner other)
  table : ctx.db.installedFiles = start.installedFiles
  owners : ∀ file ∈ start.installedFiles.items, ctx.db.fileOwner file = start.fileOwner file
  pkgs : ctx.db.pkgs = start.pkgs
  current : order.current = ctx.diri.map fun diri => (ctx.db.diriDir diri).name
  own : ∀ diri, ctx.diri = some diri → diri ∈ (ctx.db.ipkgs.get ctx.ipkg).ownedDirs
  fits : ∀ node, ctx.fileDiriNode = some node → ∀ other, node.after = some other →
    other ∈ ctx.db.listed node.diri
  near : order.away = false → ∀ node diri, ctx.fileDiriNode = some node →
    ctx.diri = some diri → node.diri = diri

namespace Unpacking

variable {flags : Flags} {start : Database} {order : EntryOrder} {ctx : InstallCtx}

/-- What is replaced may be overwritten later on, too. -/
theorem mayOverwrite_mono {ctx' : InstallCtx} (pkgs : ctx'.db.pkgs = ctx.db.pkgs)
    (pkg : ctx'.pkg = ctx.pkg) (replaces : ctx.replaces ⊆ ctx'.replaces) {opkg : PkgId}
    (may : ctx.mayOverwrite flags opkg) : ctx'.mayOverwrite flags opkg := by
  simp only [InstallCtx.mayOverwrite, pkgs, pkg, Bool.or_eq_true, List.any_eq_true] at may ⊢
  rcases may with (may | ⟨replaced, listed, same⟩) | may
  · exact .inl (.inl may)
  · exact .inl (.inr ⟨replaced, replaces listed, same⟩)
  · exact .inr may

/-- What the index is made of is as it was, and so is the position. -/
theorem same {ctx' : InstallCtx} (unpacking : Unpacking flags start order ctx)
    (same : SameIndex ctx.db ctx'.db) (pkg : ctx'.pkg = ctx.pkg) (ipkg : ctx'.ipkg = ctx.ipkg)
    (replaces : ctx.replaces ⊆ ctx'.replaces) (diri : ctx'.diri = ctx.diri)
    (node : ctx'.fileDiriNode = ctx.fileDiriNode) : Unpacking flags start order ctx' where
  indexed := unpacking.indexed.same same
  counted := unpacking.counted.same same
  files := unpacking.files.trans_eq same.files.symm
  inside := by
    rw [ipkg, same.ipkgs]
    exact unpacking.inside
  owner := by
    rw [ipkg, pkg, same.pkg]
    exact unpacking.owner
  home diri file member new := by
    rw [ipkg, same.ownedDirs]
    exact unpacking.home diri file (same.listed diri ▸ member) new
  foreign diri file member new other stored key := by
    rw [same.fileKey, same.fileKey] at key
    rw [pkg, fileOwner, same.diri, same.owner]
    exact unpacking.foreign diri file (same.listed diri ▸ member) new other (same.table ▸ stored) key
  allowed diri file member new other stored key := by
    rw [same.fileKey, same.fileKey] at key
    rw [fileOwner, same.diri, same.owner]
    exact mayOverwrite_mono same.pkgs pkg replaces
      (unpacking.allowed diri file (same.listed diri ▸ member) new other (same.table ▸ stored) key)
  table := same.table.trans unpacking.table
  owners file stored := by
    rw [fileOwner, same.diri, same.owner]
    exact unpacking.owners file stored
  pkgs := same.pkgs.trans unpacking.pkgs
  current := by
    rw [unpacking.current, diri]
    refine congrArg (Option.map · ctx.diri) (funext fun diri => ?_)
    rw [diriDir, diriDir, same.dir, same.dirs]
  own diri' found := by
    rw [ipkg, same.ownedDirs]
    exact unpacking.own diri' (diri ▸ found)
  fits node' found other after := by
    rw [same.listed]
    exact unpacking.fits node' (node ▸ found) other after
  near straight node' diri' found current :=
    unpacking.near straight node' diri' (node ▸ found) (diri ▸ current)

/-- Directories are fetched. -/
theorem onlyDirs {db : Database} (unpacking : Unpacking flags start order ctx)
    (only : OnlyDirs ctx.db db) (dirs : DirsStored db) (hash : DirsHashed db) :
    Unpacking flags start order { ctx with db } := by
  have indexed := unpacking.indexed
  have name : ∀ {diri}, diri < ctx.db.diris.size →
      (db.dirs.get (ctx.db.diris.get diri).dir).name = (ctx.db.diriDir diri).name :=
    fun old => only.name _ (indexed.dir _ old)
  have key : ∀ {diri file}, file ∈ ctx.db.listed diri →
      ((db.dirs.get (ctx.db.diris.get (ctx.db.files.get file).diri).dir).name,
        (ctx.db.files.get file).name) = ctx.db.fileKey file := by
    intro diri file member
    have home := indexed.diri diri file member
    rw [fileKey, home, name (Listing.diri_lt member)]
  have after := indexed.onlyDirs only dirs hash
  have counted := unpacking.counted.onlyDirs only
  rw [only.same] at after counted ⊢
  refine { unpacking with indexed := after, counted, foreign := ?_, allowed := ?_, current := ?_ }
  · intro diri file member new other stored same
    have otherKey := key (indexed.lists other stored)
    exact unpacking.foreign diri file member new other stored
      (otherKey.symm.trans (same.trans (key member)))
  · intro diri file member new other stored same
    have otherKey := key (indexed.lists other stored)
    exact unpacking.allowed diri file member new other stored
      (otherKey.symm.trans (same.trans (key member)))
  · rw [unpacking.current]
    cases here : ctx.diri with
    | none => rfl
    | some diri =>
        have old := (indexed.owned ctx.ipkg diri (unpacking.own diri here)).1
        exact congrArg some (name old).symm

/-- An instance is made of a directory. -/
theorem addInstance (unpacking : Unpacking flags start order ctx) {dir : DirId} {name : Bytes}
    (inside : dir < ctx.db.dirs.size) (named : (ctx.db.dirs.get dir).name = name) :
    Unpacking flags start { current := some name } { ctx with
      db := ctx.db.addInstance ctx.ipkg dir ctx.pkg
      diri := some ctx.db.diris.size
      fileDiriNode := some ⟨ctx.db.diris.size, none⟩ } := by
  have indexed := unpacking.indexed
  have grown := ownedDirs_subset_addInstance ctx.db ctx.ipkg dir ctx.pkg ctx.ipkg
  have same : ∀ {diri file}, file ∈ ctx.db.listed diri →
      (ctx.db.addInstance ctx.ipkg dir ctx.pkg).fileKey file = ctx.db.fileKey file ∧
        (ctx.db.addInstance ctx.ipkg dir ctx.pkg).fileOwner file = ctx.db.fileOwner file := by
    intro diri file member
    have old := Listing.diri_lt member
    rw [← indexed.diri diri file member] at old
    have kept := diris_addInstance ctx.db ctx.ipkg dir ctx.pkg old
    exact ⟨congrArg (fun d : DirInstance =>
      ((ctx.db.dirs.get d.dir).name, (ctx.db.files.get file).name)) kept,
      congrArg DirInstance.pkg kept⟩
  exact
    { indexed := ⟨indexed.toLinked.addInstance inside unpacking.owner,
        indexed.toListing.addInstance ctx.ipkg dir ctx.pkg⟩
      counted := unpacking.counted
      files := unpacking.files
      inside := unpacking.inside.trans_eq (Arena.size_modify ..).symm
      owner := (pkg_addInstance ctx.db ctx.ipkg dir ctx.pkg ctx.ipkg).trans unpacking.owner
      home := fun diri file member new => by
        rw [listed_addInstance] at member
        exact grown (unpacking.home diri file member new)
      foreign := fun diri file member new other stored key => by
        rw [listed_addInstance] at member
        have otherSame := same (indexed.lists other stored)
        rw [(same member).1, otherSame.1] at key
        rw [otherSame.2]
        exact unpacking.foreign diri file member new other stored key
      allowed := fun diri file member new other stored key => by
        rw [listed_addInstance] at member
        have otherSame := same (indexed.lists other stored)
        rw [(same member).1, otherSame.1] at key
        rw [otherSame.2]
        exact unpacking.allowed diri file member new other stored key
      table := unpacking.table
      owners := fun file stored => by
        have still : file ∈ ctx.db.installedFiles.items := unpacking.table ▸ stored
        exact (same (indexed.lists file still)).2.trans (unpacking.owners file stored)
      pkgs := unpacking.pkgs
      current := by
        simp only [Option.map_some, diriDir, Database.addInstance, Arena.get_alloc_self, named]
      own := fun diri found => by
        cases found
        simp only [Database.addInstance, Arena.get_modify_self _ _ unpacking.inside]
        exact List.mem_append_right _ (List.mem_singleton_self _)
      fits := fun node found other after => by
        cases found
        cases after
      near := fun _ node diri found current => by
        cases found
        cases current
        rfl }

/-- A directory is taken. -/
theorem dirEntry (env : RootEnv) (unpacking : Unpacking flags start order ctx) {ae : FileInfo}
    (directory : ae.isDirectory) (plain : PlainName (stripSlash ae.name)) :
    Unpacking flags start (order.next ae) (ctx.dirEntry env ae) := by
  obtain ⟨fetched, dir, only, stored, hashed, inside, named, new⟩ :=
    diriNew_eq unpacking.indexed.toLinked ctx.pkg ctx.ipkg plain
  have diris : fetched.diris.size = ctx.db.diris.size := by rw [only.same]
  have next : order.next ae = { current := some (stripSlash ae.name) } := if_pos directory
  have added := (unpacking.onlyDirs only stored hashed).addInstance inside named
  simp only [InstallCtx.dirEntry, new, next]
  refine added.same ?_ rfl rfl (List.Subset.refl _) ?_ ?_
  · exact ((SameIndex.refl _).diriSet _ _ _ _).diriMkdir env _
  · simp only [diris]
  · have empty : (fetched.addInstance ctx.ipkg dir ctx.pkg).listed ctx.db.diris.size = [] := by
      rw [listed_addInstance, listed, ← diris, Arena.get_of_size_le _ le_rfl]
      rfl
    rw [listed] at empty
    simp only [fileTail, empty, List.getLast?_nil, diris]

/-- A position that fits, in the list of an instance of the package. -/
theorem position {bdir : Bytes} {diri : DiriId} {tail : Option FileNode} {node : FileNode}
    (unpacking : Unpacking flags start order ctx) {ae : FileInfo} (file : ¬ ae.isDirectory)
    (dirname : EntryOrder.dirname ae = some bdir) (accepted : order.Accepts ae)
    (placed : ctx.db.findDiri ctx.ipkg bdir ctx.diri = some (diri, tail))
    (position : tail.or ctx.fileDiriNode = some node) :
    node.diri = diri ∧ diri ∈ (ctx.db.ipkgs.get ctx.ipkg).ownedDirs ∧
      (ctx.db.diriDir diri).name = bdir ∧
      (∀ other, node.after = some other → other ∈ ctx.db.listed node.diri) ∧
      (order.next ae).current = order.current ∧
      ((order.next ae).away = false → ctx.diri = some diri) := by
  unfold findDiri at placed
  dsimp only at placed
  split at placed
  case h_1 current here =>
    cases placed
    obtain ⟨here, named⟩ := Option.filter_eq_some_iff.mp here
    simp only [blobCompare_eq_zero, decide_eq_true_eq] at named
    have found : ctx.fileDiriNode = some node := by simpa using position
    have same : order.current = EntryOrder.dirname ae := by
      rw [unpacking.current, here, dirname, Option.map_some, named]
    have straight : order.away = false := by
      rw [EntryOrder.Accepts, if_neg file] at accepted
      exact accepted.2 same
    have next : order.next ae = order := by
      rw [EntryOrder.next, if_neg file, if_pos same]
    rw [next]
    exact ⟨unpacking.near straight node _ found here, unpacking.own _ here, named,
      unpacking.fits node found, rfl, fun _ => here⟩
  case h_2 elsewhere =>
    obtain ⟨found, searched, pair⟩ := Option.map_eq_some_iff.mp placed
    cases pair
    have named := List.find?_some searched
    simp only [blobCompare_eq_zero, decide_eq_true_eq] at named
    cases position
    refine ⟨rfl, List.mem_of_find?_eq_some searched, named, fun other after => ?_, ?_, ?_⟩
    · exact List.mem_of_getLast? after
    · rw [EntryOrder.next, if_neg file]
      split <;> rfl
    · intro straight
      rw [EntryOrder.next, if_neg file] at straight
      split at straight
      case isTrue same =>
        rw [unpacking.current, dirname] at same
        obtain ⟨current, here, name⟩ := Option.map_eq_some_iff.mp same
        rw [here, Option.filter_some, if_pos (by simpa using name)] at elsewhere
        cases elsewhere
      case isFalse => cases straight

/-- The position moves. -/
theorem move {order' : EntryOrder} {node : FileNode} {diri : DiriId}
    (unpacking : Unpacking flags start order ctx) (entries : List FileInfo) (home : node.diri = diri)
    (fits : ∀ other, node.after = some other → other ∈ ctx.db.listed node.diri)
    (current : order'.current = order.current) (near : order'.away = false → ctx.diri = some diri) :
    Unpacking flags start order' { ctx with fileDiriNode := some node, entries } :=
  { unpacking with
    current := current.trans unpacking.current
    fits := fun node found => by
      cases found
      exact fits
    near := fun straight node diri' found here => by
      cases found
      rw [near straight] at here
      cases here
      exact home }

/-- A record is made at the position. -/
theorem fileNew {node : FileNode} {name : Bytes} (unpacking : Unpacking flags start order ctx)
    (position : ctx.fileDiriNode = some node)
    (own : node.diri ∈ (ctx.db.ipkgs.get ctx.ipkg).ownedDirs)
    (foreign : ∀ other ∈ ctx.db.installedFiles.items,
      ctx.db.fileKey other = ((ctx.db.diriDir node.diri).name, shortBlob name) →
        ctx.db.fileOwner other ≠ ctx.pkg ∧ ctx.mayOverwrite flags (ctx.db.fileOwner other)) :
    Unpacking flags start order { ctx with
      db := (ctx.db.fileNew node.diri name node).1
      fileDiriNode := some ⟨node.diri, some ctx.db.files.size⟩ } := by
  have indexed := unpacking.indexed
  have fits := unpacking.fits node position
  have lists {diri file} := @mem_listed_fileNew ctx.db node.diri name node fits diri file
  have key {diri file} (member : file ∈ ctx.db.listed diri) :=
    fileKey_fileNew ctx.db node.diri name node (indexed.allocated diri file member)
  have owner {diri file} (member : file ∈ ctx.db.listed diri) :
      (ctx.db.fileNew node.diri name node).1.fileOwner file = ctx.db.fileOwner file := by
    rw [fileOwner, fileOwner, pkg_fileNew,
      files_fileNew ctx.db node.diri name node (indexed.allocated diri file member)]
  have newKey : (ctx.db.fileNew node.diri name node).1.fileKey ctx.db.files.size =
      ((ctx.db.diriDir node.diri).name, shortBlob name) := by
    have record : (ctx.db.fileNew node.diri name node).1.files.get ctx.db.files.size =
        { diri := node.diri, name := shortBlob name } := Arena.get_alloc_self ..
    rw [fileKey, record, diriDir, dir_fileNew]
    rfl
  exact
    { indexed := ⟨indexed.toLinked.fileNew _ _ _, indexed.toListing.fileNew fits unpacking.files⟩
      counted := unpacking.counted
      files := by
        refine unpacking.files.trans ?_
        rw [Database.fileNew, Arena.size_alloc]
        exact Nat.le_succ _
      inside := unpacking.inside
      owner := unpacking.owner
      home := fun diri file member new => by
        rcases lists member with member | ⟨-, rfl⟩
        · exact unpacking.home diri file member new
        · exact own
      foreign := fun diri file member new other stored same => by
        have otherListed := indexed.lists other stored
        rw [key otherListed] at same
        rw [owner otherListed]
        rcases lists member with member | ⟨rfl, -⟩
        · rw [key member] at same
          exact unpacking.foreign diri file member new other stored same
        · exact (foreign other stored (same.trans newKey)).1
      allowed := fun diri file member new other stored same => by
        have otherListed := indexed.lists other stored
        rw [key otherListed] at same
        rw [owner otherListed]
        rcases lists member with member | ⟨rfl, -⟩
        · rw [key member] at same
          exact unpacking.allowed diri file member new other stored same
        · exact (foreign other stored (same.trans newKey)).2
      table := unpacking.table
      owners := fun file stored => by
        have still : file ∈ ctx.db.installedFiles.items := unpacking.table ▸ stored
        exact (owner (indexed.lists file still)).trans (unpacking.owners file stored)
      pkgs := unpacking.pkgs
      current := by
        rw [unpacking.current]
        refine congrArg (Option.map · ctx.diri) (funext fun diri => ?_)
        rw [diriDir, diriDir, dir_fileNew]
        rfl
      own := unpacking.own
      fits := fun found here other after => by
        cases here
        cases after
        have inside := (indexed.owned ctx.ipkg node.diri own).1
        rw [listed_fileNew, if_pos ⟨rfl, inside⟩]
        exact (addAfter_perm fits).mem_iff.mpr List.mem_cons_self
      near := fun straight found diri here current => by
        cases here
        exact unpacking.near straight node diri position current }

/-- A file is taken. -/
theorem fileEntry {ctx' : InstallCtx} {ae : FileInfo} {diri : DiriId}
    {file : FileId} (unpacking : Unpacking flags start order ctx) (other : ¬ ae.isDirectory)
    (accepted : order.Accepts ae) (step : ctx.fileEntry flags ae = .extracts ctx' diri file) :
    Unpacking flags start (order.next ae) ctx' := by
  obtain ⟨bdir, bfile, tail, node, split, placed, found, may, takes⟩ :=
    InstallCtx.fileEntry_extracts step
  have dirname : EntryOrder.dirname ae = some bdir := by rw [EntryOrder.dirname, split]; rfl
  obtain ⟨home, own, named, fits, current, near⟩ :=
    unpacking.position other dirname accepted placed found
  have moved := unpacking.move (ctx.entries ++ [ae]) home fits current near
  cases takes with
  | owned found owner => exact moved
  | new foreign =>
      obtain ⟨name, -⟩ := blobRsplit_eq_some.mp split
      have short : bfile.length < 65536 := by
        rw [EntryOrder.Accepts, if_neg other] at accepted
        have whole := accepted.1
        rw [name, List.length_append, List.length_cons] at whole
        omega
      subst home
      refine moved.fileNew rfl own fun record stored key => ?_
      rw [shortBlob_of_lt short, named] at key
      have query : ctx.db.fileQuery bdir bfile = some record :=
        unpacking.indexed.toListing.fileGetHashed_eq_some.mpr ⟨stored, key⟩
      exact ⟨foreign record query, may record query⟩

end Unpacking

/-- The order behind the entries taken so far, when they came in order. -/
def UnpacksInOrder (flags : Flags) (start : Database) (ctx : InstallCtx) : Prop :=
  EntryOrder.Orderly {} ctx.entries →
    Unpacking flags start (EntryOrder.after {} ctx.entries) ctx

theorem readInfoLine_same {ctx ctx' : InstallCtx} {line : Bytes}
    (read : ctx.readInfoLine line = some ctx') :
    SameIndex ctx.db ctx'.db ∧ ctx.replaces ⊆ ctx'.replaces ∧
      ctx' = { ctx with db := ctx'.db, replaces := ctx'.replaces } := by
  unfold InstallCtx.readInfoLine at read
  split at read
  · cases read
    exact ⟨.refl _, List.Subset.refl _, rfl⟩
  split at read
  · cases read
    exact ⟨.refl _, List.Subset.refl _, rfl⟩
  split at read
  · cases read
    refine forEachSegment_keeps
      (P := fun other : InstallCtx => SameIndex ctx.db other.db ∧ ctx.replaces ⊆ other.replaces ∧
        other = { ctx with db := other.db, replaces := other.replaces })
      (fun other segment kept => ?_) ⟨.refl _, List.Subset.refl _, rfl⟩
    obtain ⟨same, more, rest⟩ := kept
    unfold InstallCtx.parseReplaces
    split
    · exact ⟨same, more, rest⟩
    · refine ⟨same.getName segment, List.Subset.trans more (List.subset_append_left _ _), ?_⟩
      rw [rest]
  split at read
  · cases read
    exact ⟨(SameIndex.refl _).readTriggers _ _, List.Subset.refl _, rfl⟩
  · cases read

/-- The steps of an installation keep the index as long as the entries come in order. -/
theorem unpacksRule {Key : Type*} (env : InstallEnv Key) (start : Database) :
    EntryRule env (UnpacksInOrder env.flags start) fun _ => True where
  pending ctx scriptPending holds orderly :=
    (holds orderly).same (.refl _) rfl rfl (List.Subset.refl _) rfl rfl
  call ctx call holds orderly :=
    (holds orderly).same ((SameIndex.refl _).rootCall env.root call) rfl rfl (List.Subset.refl _)
      rfl rfl
  script ctx type content holds orderly :=
    (holds orderly).same ((SameIndex.refl _).ipkgs_modify _ _ (fun _ => rfl) fun _ => rfl)
      rfl rfl (List.Subset.refl _) rfl rfl
  info ctx ctx' line holds read orderly := by
    obtain ⟨same, more, rest⟩ := readInfoLine_same read
    rw [rest] at orderly ⊢
    exact (holds orderly).same same rfl rfl more rfl rfl
  dir ctx ae directory holds orderly := by
    have taken : (ctx.dirEntry env.root ae).entries = ctx.entries ++ [ae] := rfl
    rw [taken] at orderly ⊢
    obtain ⟨earlier, accepted⟩ := (EntryOrder.orderly_concat _ _ _).mp orderly
    rw [EntryOrder.Accepts, if_pos directory] at accepted
    rw [EntryOrder.after_concat]
    exact (holds earlier).dirEntry env.root directory accepted
  file ctx ctx' ae diri file other holds step := by
    refine ⟨fun orderly => ?_, trivial⟩
    have taken : ctx'.entries = ctx.entries ++ [ae] := by
      obtain ⟨_, _, _, _, -, -, -, -, takes⟩ := InstallCtx.fileEntry_extracts step
      cases takes <;> rfl
    rw [taken] at orderly ⊢
    obtain ⟨earlier, accepted⟩ := (EntryOrder.orderly_concat _ _ _).mp orderly
    rw [EntryOrder.after_concat]
    exact (holds earlier).fileEntry other accepted step
  csum ctx ae csum diri file holds _ := by
    unfold InstallCtx.recordCsum
    dsimp only
    split
    · exact fun orderly =>
        (holds orderly).same ((SameIndex.refl _).setCsum _ _) rfl rfl (List.Subset.refl _) rfl rfl
    · exact holds

/-! ## Operations -/

section Operations

variable {Key : Type*} {env : InstallEnv Key} {zlib : Zlib} {fuel : ℕ} {db : Database}

theorem Database.Settled.same {db' : Database} (settled : Settled db) (same : SameIndex db db') :
    Settled db' := ⟨settled.1.same same, settled.2.same same⟩

/-- How an unpacking ends whose entries came in order: it did not begin, or the records that
were made are migrated. -/
inductive UnpackedInOrder (flags : Flags) (db : Database) (ctx : InstallCtx) : Prop
  | closed (same : ctx.db = db)
  | migrated {last : InstallCtx} {order : EntryOrder} (unpacking : Unpacking flags db order last)
      (pkg : ctx.pkg = last.pkg) (replaces : ctx.replaces = last.replaces)
      (settled : Settled ctx.db) (moves : Moves (db.files.size ≤ ·) last.db ctx.db)

/-- **Unpacking in order.** -/
theorem unpackPkg_inOrder {ipkg : IpkgId} {upgrade reinstall : Bool} {args : List Bytes}
    {ctx : InstallCtx} (settled : Settled db) (inside : ipkg < db.ipkgs.size)
    (unpacked : unpackPkg env zlib fuel db ipkg upgrade reinstall args = some (0, ctx))
    (orderly : EntryOrder.Orderly {} ctx.entries) : UnpackedInOrder env.flags db ctx := by
  obtain ⟨indexed, counted⟩ := settled
  have old : ∀ diri, ∀ file ∈ db.listed diri, ¬ db.files.size ≤ file :=
    fun diri file member => (indexed.allocated diri file member).not_ge
  have waiting : Filed (db.files.size ≤ ·) db :=
    ⟨indexed.toLinked, { indexed.toListing with
      stored := fun diri file member => .inl ((indexed.stored diri file member).resolve_right id)
      waiting := fun file new stored => old _ file (indexed.lists file stored) new }⟩
  have start : UnpacksInOrder env.flags db
      { db := db
        pkg := (db.ipkgs.get ipkg).pkg
        ipkg := ipkg
        script := if upgrade then .preUpgrade else .preInstall
        scriptArgs := args } := fun _ =>
    { indexed := waiting
      counted
      files := le_rfl
      inside
      owner := rfl
      home := fun diri file member new => absurd new (old diri file member)
      foreign := fun diri file member new => absurd new (old diri file member)
      allowed := fun diri file member new => absurd new (old diri file member)
      table := rfl
      owners := fun _ _ => rfl
      pkgs := rfl
      current := rfl
      own := fun diri found => by cases found
      fits := fun node found => by cases found
      near := fun _ node diri found => by cases found }
  rcases unpackPkg_ends (unpacksRule env db) start unpacked with ⟨same, -⟩ | ⟨last, holds, ends⟩
  · exact .closed same
  · cases ends with
    | stopped failed => exact absurd rfl failed
    | cleaned failed => exact absurd rfl failed
    | migrated =>
        have unpacking := holds orderly
        have migrating : Migrating last.ipkg db.files.size (db.files.size ≤ ·) last.db :=
          ⟨unpacking.indexed, unpacking.counted, fun diri file member new other stored key => by
            rw [unpacking.owner]
            exact .inl (unpacking.foreign diri file member new other stored key)⟩
        obtain ⟨settled, moves⟩ := migrating.instances env.root env.flags
          (fun _ => id) (unpacking.indexed.distinctDirs last.ipkg) (fun _ => id)
          (fun _ _ _ _ => id) unpacking.home
        exact .migrated unpacking rfl rfl settled moves

/-- Unpacking in order keeps the index. -/
theorem UnpackedInOrder.settled {flags : Flags} {ctx : InstallCtx} (settled : Settled db)
    (unpacked : UnpackedInOrder flags db ctx) : Settled ctx.db := by
  cases unpacked with
  | closed same => rwa [same]
  | migrated _ _ _ settled _ => exact settled

/-- A new installed package owns nothing. -/
theorem Database.Settled.pkgInstall (settled : Settled db) (pkg : PkgId) :
    Settled (db.pkgInstall pkg).1 ∧ (db.pkgInstall pkg).2 < (db.pkgInstall pkg).1.ipkgs.size := by
  obtain ⟨indexed, counted⟩ := settled
  unfold Database.pkgInstall
  split
  case h_1 ipkg old => exact ⟨⟨indexed, counted⟩, indexed.ipkg pkg ipkg old⟩
  case h_2 =>
    have linked : Linked { db with
        ipkgs := db.ipkgs.alloc { pkg }
        pkgs := db.pkgs.modify pkg fun p => { p with ipkg := some db.ipkgs.size } } :=
      { indexed.toLinked with
        ipkg := fun other ipkg found => by
          rw [Arena.size_alloc]
          simp only [Arena.get_modify] at found
          split at found
          · cases found
            exact Nat.lt_succ_self _
          · exact Nat.lt_succ_of_lt (indexed.ipkg other ipkg found)
        owned := fun ipkg diri member => by
          simp only [Arena.get_alloc] at member ⊢
          split at member
          · cases member
          case isFalse old =>
            rw [if_neg old]
            exact indexed.owned ipkg diri member
        distinctDirs := fun ipkg => by
          simp only [Arena.get_alloc]
          split
          · exact List.nodup_nil
          · exact indexed.distinctDirs ipkg }
    have more : db.ipkgs.size < (db.ipkgs.alloc ({ pkg } : InstalledPackage)).size := by
      rw [Arena.size_alloc]
      exact Nat.lt_succ_self _
    dsimp only
    split
    · exact ⟨⟨⟨linked, { indexed.toListing with }⟩, counted⟩, more⟩
    · exact ⟨⟨⟨{ linked with }, { indexed.toListing with }⟩, counted⟩, more⟩

/-- A package that is prepared has an installed package. -/
theorem Database.Settled.prepareIpkg (settled : Settled db) (newpkg : PkgId) :
    Settled (db.prepareIpkg newpkg).1 ∧
      (db.prepareIpkg newpkg).2 < (db.prepareIpkg newpkg).1.ipkgs.size := by
  obtain ⟨installed, inside⟩ := settled.pkgInstall newpkg
  have cleared := (SameIndex.refl (db.pkgInstall newpkg).1).ipkgs_modify (db.pkgInstall newpkg).2
    (fun ip => { ip with runAllTriggers := true, triggers := [] }) (fun _ => rfl) fun _ => rfl
  exact ⟨installed.same { cleared with }, inside.trans_eq (Arena.size_modify ..).symm⟩

theorem Database.Settled.pkgUninstall (settled : Settled db) (counted : Bool) (pkg : PkgId) :
    Settled (db.pkgUninstall counted pkg) := by
  obtain ⟨indexed, count⟩ := settled
  unfold Database.pkgUninstall
  split
  · exact ⟨indexed, count⟩
  · refine ⟨⟨{ indexed.toLinked with ipkg := ?_ }, { indexed.toListing with }⟩, ?_⟩
    · intro other ipkg found
      simp only [Arena.get_modify] at found
      split at found
      · cases found
      · exact indexed.ipkg other ipkg found
    · cases counted <;> exact count

theorem Database.Settled.runScript (settled : Settled db) (env : RootEnv) (flags : Flags)
    (ipkg : IpkgId) (type : ScriptType) (args : List Bytes) :
    Settled (db.runScript env flags ipkg type args).2 := by
  unfold Database.runScript
  split
  · exact settled
  · split
    · exact settled
    · exact settled.same ((SameIndex.refl db).rootCall env _)

theorem Database.Settled.removePkg (settled : Settled db) (env : InstallEnv Key)
    (oldpkg : PkgId) : Settled (db.removePkg env oldpkg).2 := by
  unfold Database.removePkg
  dsimp only
  split
  · exact settled
  case h_2 ipkg old =>
    have begun := settled.runScript env.root env.flags ipkg .preDeinstall
      (db.scriptArgs (some oldpkg) none)
    split
    · exact begun
    · have purged := begun.purgePkg env.root env.flags ipkg
      exact (purged.runScript env.root env.flags ipkg .postDeinstall _).pkgUninstall true oldpkg

theorem Database.Settled.finishInstall (settled : Settled db) (env : InstallEnv Key)
    (oldpkg : Option PkgId) (newpkg : PkgId) (ipkg : IpkgId) (args : List Bytes) :
    Settled (db.finishInstall env oldpkg newpkg ipkg args).2 := by
  refine Settled.runScript ?_ env.root env.flags ipkg _ args
  split
  · exact settled
  · split
    · exact settled
    · exact (settled.purgePkg env.root env.flags _).pkgUninstall true _

/-- An operation: the surroundings, and the arguments of `apk_db_install_pkg`. -/
structure InstallOp (Key : Type*) where
  env : InstallEnv Key
  oldpkg : Option PkgId
  newpkg : Option PkgId

variable (zlib fuel) in
/-- An operation that succeeds. -/
def installStep (db : Database) (op : InstallOp Key) : Option Database :=
  (installPkg op.env zlib fuel db op.oldpkg op.newpkg).bind fun (r, db) =>
    if r = 0 then some db else none

variable (zlib fuel) in
/-- The unpacking an operation starts with, if it installs a package that has files. -/
def installUnpack (db : Database) (op : InstallOp Key) : Option (ℤ × InstallCtx) :=
  op.newpkg.bind fun newpkg =>
    if (db.pkgs.get newpkg).installedSize = 0 then none
    else
      let (prepared, ipkg) := db.prepareIpkg newpkg
      unpackPkg op.env zlib fuel prepared ipkg op.oldpkg.isSome (op.oldpkg = some newpkg)
        (db.scriptArgs op.oldpkg (some newpkg))

variable (zlib fuel) in
/-- The entries of the archive come in order. -/
def InstallsInOrder (db : Database) (op : InstallOp Key) : Prop :=
  ∀ r ctx, installUnpack zlib fuel db op = some (r, ctx) → EntryOrder.Orderly {} ctx.entries

/-- **One operation.** -/
theorem Database.Settled.installStep {op : InstallOp Key} {after : Database} (settled : Settled db)
    (orderly : InstallsInOrder zlib fuel db op)
    (installed : installStep zlib fuel db op = some after) : Settled after := by
  obtain ⟨env, oldpkg, newpkg⟩ := op
  obtain ⟨⟨r, last⟩, installs, succeeded⟩ := Option.bind_eq_some_iff.mp installed
  dsimp only at succeeded
  split at succeeded
  case isFalse => cases succeeded
  case isTrue zero =>
    cases succeeded
    subst zero
    cases newpkg with
    | none =>
        cases oldpkg with
        | none => cases installs
        | some oldpkg =>
            have removed := settled.removePkg env oldpkg
            simp only [installPkg, Option.some.injEq] at installs
            rw [installs] at removed
            exact removed
    | some newpkg =>
        have added : addPkg env zlib fuel db oldpkg newpkg = some (0, after) := by
          cases oldpkg <;> exact installs
        obtain ⟨prepared, inside⟩ := settled.prepareIpkg newpkg
        simp only [addPkg] at added
        split at added
        · have finished := prepared.finishInstall env oldpkg newpkg (db.prepareIpkg newpkg).2
            (db.scriptArgs oldpkg (some newpkg))
          simp only [Option.some.injEq] at added
          rw [added] at finished
          exact finished
        case isFalse sized =>
          rw [prepareIpkg_installedSize] at sized
          obtain ⟨⟨r, ctx⟩, unpacked, added⟩ := Option.map_eq_some_iff.mp added
          dsimp only at added
          have entries := orderly r ctx (by
            simp only [installUnpack, Option.bind_some, sized, ↓reduceIte]
            exact unpacked)
          split at added
          case isTrue failed =>
            cases added
            exact absurd rfl failed
          case isFalse whole =>
            rw [not_not.mp whole] at unpacked
            have unpackedSettled := (unpackPkg_inOrder prepared inside unpacked entries).settled prepared
            have finished := unpackedSettled.finishInstall env oldpkg newpkg
              (db.prepareIpkg newpkg).2 (db.scriptArgs oldpkg (some newpkg))
            rw [added] at finished
            exact finished

/-- **The index stays coherent.** In a run of operations that succeed, on archives whose
entries come in order, the index is coherent wherever the run ends. -/
theorem installs_coherent (zlib : Zlib) (fuel : ℕ) (db final : Database)
    (ops : List (InstallOp Key)) (settled : Settled db)
    (orderly : Guarded (installStep zlib fuel) (InstallsInOrder zlib fuel) db ops)
    (reached : run (installStep zlib fuel) db ops = some final) : Coherent final := by
  have settledLast : Settled final :=
    orderly.invariant Settled (fun _ _ _ settled orderly stepped => settled.installStep orderly stepped)
      settled reached
  exact settledLast.1.coherent settledLast.2

/-- A database into which nothing was installed. -/
theorem Database.Settled.of_nothing (dirs : db.dirs = .empty) (diris : db.diris = .empty)
    (installedDirs : db.installedDirs = newDirs) (installedFiles : db.installedFiles = newFiles)
    (ipkgs : db.ipkgs = .empty) (uninstalled : ∀ pkg, (db.pkgs.get pkg).ipkg = none)
    (count : db.stats.files = 0) : Settled db := by
  have nowhere : ∀ diri file, file ∉ db.listed diri := by
    intro diri file member
    have inside := Listing.diri_lt member
    rw [diris] at inside
    exact absurd inside (Nat.not_lt_zero _)
  have unstored : ∀ file, file ∉ db.installedFiles.items := by
    intro file stored
    rw [installedFiles] at stored
    simp at stored
  have unowned : ∀ ipkg, (db.ipkgs.get ipkg).ownedDirs = [] := by
    intro ipkg
    rw [ipkgs]
    rfl
  refine ⟨⟨⟨fun dir member => ?_, fun dir inside => ?_, fun diri inside => ?_, ?_, ?_, ?_⟩,
    ⟨?_, ?_, ?_, ?_, ?_, ?_, ?_⟩⟩, ?_⟩
  · rw [installedDirs] at member
    simp at member
  · rw [dirs] at inside
    exact absurd inside (Nat.not_lt_zero _)
  · rw [diris] at inside
    exact absurd inside (Nat.not_lt_zero _)
  · intro pkg ipkg found
    rw [uninstalled pkg] at found
    cases found
  · intro ipkg diri member
    rw [unowned ipkg] at member
    cases member
  · intro ipkg
    rw [unowned ipkg]
    exact List.nodup_nil
  · exact fun diri file member => absurd member (nowhere diri file)
  · exact fun diri file member => absurd member (nowhere diri file)
  · intro diri
    rw [List.eq_nil_iff_forall_not_mem.mpr (nowhere diri)]
    exact List.nodup_nil
  · rw [installedFiles]
    exact Hash.keyed_init ..
  · exact fun file stored => absurd stored (unstored file)
  · exact fun diri file member => absurd member (nowhere diri file)
  · exact fun file never => never.elim
  · rw [Counted, count, List.eq_nil_iff_forall_not_mem.mpr unstored]
    rfl

end Operations

/-! ## Archives -/

/-- Inflation of a gzip member that is one stored block and comes in one chunk: the headers of
the member and of the block, the content, and the trailer. The state is what is left of the
content. -/
def storedZlib : Zlib where
  State := Option ℕ
  start := none
  inflate state input room :=
    match state with
    | none =>
        let len := (input.getD 11 0).toNat + 256 * (input.getD 12 0).toNat
        let output := (input.drop 15).take (min room len)
        if input.length < 15 then ⟨0, [], .error, none⟩
        else ⟨15 + output.length, output, .ok, some (len - output.length)⟩
    | some 0 => if input.length < 8 then ⟨0, [], .error, none⟩ else ⟨8, [], .streamEnd, none⟩
    | some left =>
        let output := input.take (min room left)
        ⟨output.length, output, .ok, some (left - output.length)⟩
  consumed_le state input room := by
    split
    · dsimp only
      split
      · simp
      · simp
        omega
    · split
      · simp
      · simp
        omega
    · simp
  output_le state input room := by
    split
    · dsimp only
      split <;> simp
    · split <;> simp
    · simp
  progress state input room nonempty space := by
    have positive := List.length_pos_of_ne_nil nonempty
    split
    · dsimp only
      split <;> simp
    · split <;> simp
    case h_3 left nonzero =>
      have some : left ≠ 0 := fun zero => nonzero (zero ▸ rfl)
      simp
      omega

/-- The header of a directory of `root`. -/
def dirHeader (name : Bytes) : TarHeader :=
  { TarHeader.ofEntry 0 { name, mode := 0o755, uname := text "root", gname := text "root" } with
    typeflag := ascii '5' }.withChecksum

/-- The header of an empty file of `root`. -/
def fileHeader (name : Bytes) : TarHeader :=
  .ofEntry 0 { name, mode := 0o644, uname := text "root", gname := text "root" }

/-- Four records and the end of the archive, as a gzip member of one stored block. -/
def fourEntries (a b c d : TarHeader) (crc : Bytes) : Bytes :=
  [0x1f, 0x8b, 8, 0, 0, 0, 0, 0, 0, 3, 1, 0, 12, 255, 243] ++
    (a.bytes ++ b.bytes ++ c.bytes ++ d.bytes ++ cleared 1024) ++ crc ++ [0, 12, 0, 0]

/-- An archive, and its digest. -/
structure Archive where
  bytes : Bytes
  md5 : Bytes

/-- Surroundings in which an archive can be opened, and the tree is empty. -/
def archiveEnv (archive : Archive) : InstallEnv Unit where
  flags := {}
  crypto :=
    ⟨fun md bytes => if md = .md5 ∧ bytes = archive.bytes then archive.md5 else [],
      fun _ _ _ _ => false, fun _ => none⟩
  hasKeys := true
  tar := emptyTarEnv
  root := ⟨fun _ _ => 0, fun _ _ _ => (-2, none), fun _ => 0, fun _ => false⟩
  openPackage _ _ := .inr (.reads [archive.bytes] 0)

/-- A database with one package, of which nothing is installed. -/
def archivePackage (archive : Archive) : Database where
  names := ⟨[{ name := text "p", pkgs := [0] }]⟩
  pkgs := ⟨[
    { name := some 0
      version := some (text "1")
      installedSize := 1
      csum := (Checksum.zero.setType checksumMd5).store archive.md5 }]⟩

/-- The installation of the package. -/
def archiveInstall (archive : Archive) : InstallOp Unit := ⟨archiveEnv archive, none, some 0⟩

theorem Database.Settled.archivePackage (archive : Archive) : Settled (archivePackage archive) := by
  refine .of_nothing rfl rfl rfl rfl rfl (fun pkg => ?_) rfl
  cases pkg with
  | zero => rfl
  | succ pkg => rfl

/-- An archive with each file behind its directory. -/
def inOrder : Archive where
  bytes := fourEntries (dirHeader (text "a")) (fileHeader (text "a/x")) (dirHeader (text "b"))
    (fileHeader (text "b/y")) [104, 54, 115, 24]
  md5 := [172, 107, 225, 65, 111, 160, 133, 0, 134, 202, 195, 167, 219, 131, 4, 110]

/-- A package whose files come behind their directories is installed coherently. -/
theorem installs_coherent_inOrder :
    ∃ final, run (installStep storedZlib 10) (archivePackage inOrder) [archiveInstall inOrder] =
      some final ∧ Coherent final := by
  have ends : (run (installStep storedZlib 10) (archivePackage inOrder)
      [archiveInstall inOrder]).isSome := by decide +kernel
  have ordered : (installUnpack storedZlib 10 (archivePackage inOrder) (archiveInstall inOrder)).all
      (fun out => EntryOrder.Orderly {} out.2.entries) := by decide +kernel
  obtain ⟨final, reached⟩ := Option.isSome_iff_exists.mp ends
  have orderly : InstallsInOrder storedZlib 10 (archivePackage inOrder) (archiveInstall inOrder) := by
    intro r ctx unpacked
    rw [unpacked] at ordered
    exact of_decide_eq_true ordered
  exact ⟨final, reached, installs_coherent storedZlib 10 (archivePackage inOrder) final
    [archiveInstall inOrder] (.archivePackage inOrder) ⟨orderly, fun _ _ => trivial⟩ reached⟩

/-- An archive with both directories in front of the files. -/
def misordered : Archive where
  bytes := fourEntries (dirHeader (text "a")) (dirHeader (text "b")) (fileHeader (text "a/x"))
    (fileHeader (text "b/y")) [174, 231, 46, 85]
  md5 := [115, 28, 191, 6, 184, 153, 6, 115, 87, 128, 74, 105, 4, 157, 107, 108]

/-- **A file is listed in another directory.** The second file is of the directory that came
last, so its record is put behind that of the first file. -/
theorem installs_incoherent_misordered :
    Settled (archivePackage misordered) ∧
      ∃ final, run (installStep storedZlib 10) (archivePackage misordered)
        [archiveInstall misordered] = some final ∧ ¬ Coherent final := by
  have value : (run (installStep storedZlib 10) (archivePackage misordered)
      [archiveInstall misordered]).map (fun final => (final.listed 0, (final.files.get 1).diri)) =
        some ([0, 1], 1) := by decide +kernel
  obtain ⟨final, reached, seen⟩ := Option.map_eq_some_iff.mp value
  obtain ⟨lists, home⟩ := Prod.mk.injEq .. ▸ seen
  refine ⟨.archivePackage misordered, final, reached, fun coherent => ?_⟩
  have here := coherent.diri 0 1 (by simp [lists])
  rw [home] at here
  cases here

end AriannaLinux.Apk
