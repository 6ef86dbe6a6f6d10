import AriannaLinux.Apk.Install.Coherence

/-! # Taking files from other packages

Whether a file may be taken from the package that has it is looked at when its entry is
extracted, and it is taken when the records are migrated, under the names of the list the
record is in. The two agree as long as the entries of the archive come in order.
-/

namespace AriannaLinux.Apk

open Database

/-- A record may be taken: from the overlay, from a package of the same name, or from one that
the archive replaces. -/
def MayTake (db : Database) (ctx : InstallCtx) (file : FileId) : Prop :=
  let name := (db.pkgs.get (db.fileOwner file)).name
  name = none ∨ name = (db.pkgs.get ctx.pkg).name ∨ ∃ replaced ∈ ctx.replaces, name = some replaced

instance (db : Database) (ctx : InstallCtx) (file : FileId) : Decidable (MayTake db ctx file) :=
  inferInstanceAs (Decidable (_ ∨ _ ∨ _))

/-- Every stored record is still stored for the same package, or it may be taken. -/
def TakenWithPermission (db : Database) (ctx : InstallCtx) : Prop :=
  ∀ file ∈ db.installedFiles.items,
    file ∈ ctx.db.installedFiles.items ∧ ctx.db.fileOwner file = db.fileOwner file ∨
      MayTake db ctx file

section Permission

variable {Key : Type*} {flags : Flags} {db : Database} {ctx : InstallCtx}

/-- What may be overwritten without force may be taken. -/
theorem Unpacking.mayTake {order : EntryOrder} {last : InstallCtx} {file : FileId}
    (unpacking : Unpacking flags db order last) (unforced : flags.force = false)
    (pkg : ctx.pkg = last.pkg) (replaces : ctx.replaces = last.replaces)
    (stored : file ∈ db.installedFiles.items)
    (may : last.mayOverwrite flags (last.db.fileOwner file)) : MayTake db ctx file := by
  rw [unpacking.owners file stored] at may
  simp only [InstallCtx.mayOverwrite, unpacking.pkgs, unforced, Bool.or_false, Bool.or_eq_true,
    decide_eq_true_eq, List.any_eq_true] at may
  rw [MayTake, pkg, replaces]
  rcases may with (overlay | same) | replaced
  · exact .inl overlay
  · exact .inr (.inl same)
  · exact .inr (.inr replaced)

/-- **No file is taken without permission.** When an archive whose entries come in order is
unpacked without force, every record that leaves the table may be taken. -/
theorem unpackPkg_permitted (env : InstallEnv Key) (zlib : Zlib) (fuel : ℕ) (db : Database)
    (ipkg : IpkgId) (upgrade reinstall : Bool) (args : List Bytes) (ctx : InstallCtx)
    (settled : Settled db) (inside : ipkg < db.ipkgs.size) (unforced : env.flags.force = false)
    (unpacked : unpackPkg env zlib fuel db ipkg upgrade reinstall args = some (0, ctx))
    (orderly : EntryOrder.Orderly {} ctx.entries) : TakenWithPermission db ctx := by
  intro file stored
  cases unpackPkg_inOrder settled inside unpacked orderly with
  | closed same =>
      rw [same]
      exact .inl ⟨stored, rfl⟩
  | @migrated last order unpacking pkg replaces settled moves =>
      have still : file ∈ last.db.installedFiles.items := unpacking.table ▸ stored
      by_cases kept : file ∈ ctx.db.installedFiles.items
      · exact .inl ⟨kept, (moves.fileOwner file).trans (unpacking.owners file stored)⟩
      · obtain ⟨diri, taker, member, new, key⟩ := moves.left file still kept
        have may := unpacking.allowed diri taker member new file still key
        exact .inr (unpacking.mayTake unforced pkg replaces stored may)

end Permission

/-- A file is added to an instance of a package and claimed at once. -/
def Database.addFile (db : Database) (diri : DiriId) (name : Bytes) : Database :=
  (db.fileNew diri name ⟨diri, none⟩).1.claimFile diri db.files.size none

/-- A file of a name that nothing has. -/
theorem Database.Settled.addFile {db : Database} (settled : Settled db) {diri : DiriId}
    (name : Bytes) (inside : diri < db.diris.size) (free : db.installedFiles.items = []) :
    Settled (db.addFile diri name) := by
  obtain ⟨indexed, counted⟩ := settled
  have old : ∀ home, ∀ file ∈ db.listed home, file ≠ db.files.size :=
    fun home file member => (indexed.allocated home file member).ne
  have fits : ∀ other, (none : Option FileId) = some other → other ∈ db.listed diri :=
    fun _ found => by cases found
  have waiting : Listing (· = db.files.size) db := { indexed.toListing with
    stored := fun home file member => .inl ((indexed.stored home file member).resolve_right id)
    waiting := fun file _ stored => by
      rw [free] at stored
      cases stored }
  have listed : Filed (· = db.files.size) (db.fileNew diri name ⟨diri, none⟩).1 :=
    ⟨indexed.toLinked.fileNew _ _ _, @Listing.fileNew _ _ waiting name ⟨diri, none⟩ fits rfl⟩
  have member : db.files.size ∈ (db.fileNew diri name ⟨diri, none⟩).1.listed diri := by
    rw [listed_fileNew, if_pos ⟨rfl, inside⟩]
    exact (addAfter_perm fits).mem_iff.mpr List.mem_cons_self
  have claimed := listed.claimed_none counted member fun other stored => by
    rw [show (db.fileNew diri name ⟨diri, none⟩).1.installedFiles.items = [] from free] at stored
    cases stored
  refine ⟨⟨claimed.indexed.toLinked, { claimed.indexed.toListing with
    stored := fun home file member => .inl ?_, waiting := fun _ never => never.elim }⟩,
    claimed.counted⟩
  exact (claimed.indexed.stored home file member).resolve_right fun waits => waits.2 waits.1

/-- Two packages. -/
def twoPackages (archive : Archive) : Database :=
  { archivePackage archive with
    names := ⟨[{ name := text "p", pkgs := [0] }, { name := text "q", pkgs := [1] }]⟩
    pkgs := ⟨(archivePackage archive).pkgs.objects ++
      [{ name := some 1, version := some (text "1") }]⟩ }

/-- Two packages, of which the second is installed and has the file `a/y`. -/
def ownedFile (archive : Archive) : Database :=
  let (db, ipkg) := (twoPackages archive).pkgInstall 1
  let (db, diri) := db.diriNew 1 ipkg (text "a")
  db.addFile diri (text "y")

theorem Database.Settled.ownedFile (archive : Archive) : Settled (ownedFile archive) := by
  have uninstalled : ∀ pkg, ((twoPackages archive).pkgs.get pkg).ipkg = none := by
    intro pkg
    match pkg with
    | 0 => rfl
    | 1 => rfl
    | _ + 2 => rfl
  have base : Settled (twoPackages archive) := .of_nothing rfl rfl rfl rfl rfl uninstalled rfl
  obtain ⟨⟨indexed, counted⟩, -⟩ := base.pkgInstall 1
  have plain : PlainName (text "a") := by decide
  obtain ⟨fetched, dir, only, stored, hashed, inside, -, new⟩ :=
    diriNew_eq indexed.toLinked 1 ((twoPackages archive).pkgInstall 1).2 plain
  have fetchedIndexed := indexed.onlyDirs only stored hashed
  have fetchedCounted : Counted fetched := counted.onlyDirs only
  have diris : fetched.diris.size = 0 := by
    rw [only.same]
    rfl
  have owner : (fetched.ipkgs.get ((twoPackages archive).pkgInstall 1).2).pkg = 1 := by
    rw [only.same]
    rfl
  have free : fetched.installedFiles.items = [] := by
    rw [only.same]
    exact Hash.items_init ..
  have made : Settled (fetched.addInstance ((twoPackages archive).pkgInstall 1).2 dir 1) :=
    ⟨⟨fetchedIndexed.toLinked.addInstance inside owner,
      fetchedIndexed.toListing.addInstance _ _ _⟩, fetchedCounted⟩
  have inList : (0 : DiriId) <
      (fetched.addInstance ((twoPackages archive).pkgInstall 1).2 dir 1).diris.size := by
    rw [addInstance, Arena.size_alloc]
    exact Nat.succ_pos _
  unfold AriannaLinux.Apk.ownedFile
  simp only [new]
  exact made.addFile (text "y") inList free

/-- Unpacking the archive of the first package. -/
def unpackFirst (archive : Archive) : Option (ℤ × InstallCtx) :=
  unpackPkg (archiveEnv archive) storedZlib 10 ((ownedFile archive).prepareIpkg 0).1
    ((ownedFile archive).prepareIpkg 0).2 false false []

/-- An archive whose files come behind their directories takes nothing. -/
theorem unpackPkg_permitted_inOrder :
    ∃ ctx, unpackFirst inOrder = some (0, ctx) ∧
      TakenWithPermission ((ownedFile inOrder).prepareIpkg 0).1 ctx := by
  have value : (unpackFirst inOrder).map
      (fun out => (out.1, decide (EntryOrder.Orderly {} out.2.entries))) = some (0, true) := by
    decide +kernel
  obtain ⟨⟨r, ctx⟩, unpacked, seen⟩ := Option.map_eq_some_iff.mp value
  obtain ⟨rfl, orderly⟩ := Prod.mk.injEq .. ▸ seen
  obtain ⟨settled, inside⟩ := (Settled.ownedFile inOrder).prepareIpkg 0
  exact ⟨ctx, unpacked, unpackPkg_permitted _ _ _ _ _ _ _ _ ctx settled inside rfl unpacked
    (of_decide_eq_true orderly)⟩

/-- **A file is taken under another name.** The file `b/y` is listed in the directory `a`,
and takes the place of the file `a/y` of a package that is not replaced. -/
theorem unpackPkg_unpermitted_misordered :
    ∃ ctx, unpackFirst misordered = some (0, ctx) ∧
      (archiveEnv misordered).flags.force = false ∧
      ¬ TakenWithPermission ((ownedFile misordered).prepareIpkg 0).1 ctx := by
  have value : (unpackFirst misordered).map
      (fun out => (out.1, decide (0 ∈ out.2.db.installedFiles.items),
        decide (MayTake ((ownedFile misordered).prepareIpkg 0).1 out.2 0))) =
          some (0, false, false) := by
    decide +kernel
  have stored : 0 ∈ ((ownedFile misordered).prepareIpkg 0).1.installedFiles.items := by
    decide +kernel
  obtain ⟨⟨r, ctx⟩, unpacked, seen⟩ := Option.map_eq_some_iff.mp value
  simp only [Prod.mk.injEq, decide_eq_false_iff_not] at seen
  obtain ⟨rfl, gone, refused⟩ := seen
  refine ⟨ctx, unpacked, rfl, fun permitted => ?_⟩
  rcases permitted 0 stored with ⟨still, -⟩ | may
  · exact gone still
  · exact refused may

end AriannaLinux.Apk
