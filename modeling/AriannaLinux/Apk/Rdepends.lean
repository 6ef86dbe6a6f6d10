import Mathlib.Data.List.Nodup
import AriannaLinux.Apk.Database
import AriannaLinux.Lib.GuardedRun

/-! # The reverse-dependency index

`apk_db_pkg_rdepends` records, for every dependency of a package, the name of the
package in the `rdepends` of the dependency's name. The loop returns at the first
dependency that lists the name already, so the index is complete exactly when the
dependencies behind that one are listed too. The packages of a name are listed under it
by the same calls.
-/

namespace AriannaLinux.Apk.Database

/-- The name of a dependency lists a package name as a reverse dependency. -/
def Lists (names : Arena Name) (name : NameId) (dep : Dependency) : Prop :=
  name ∈ (names.get dep.name).rdepends

instance (names : Arena Name) (name : NameId) (dep : Dependency) :
    Decidable (Lists names name dep) :=
  inferInstanceAs (Decidable (name ∈ (names.get dep.name).rdepends))

/-- The loop skips nothing: behind a dependency that is listed already, or that
repeats an earlier one, every dependency is listed already or repeats one too. -/
def NoneSkipped (names : Arena Name) (name : NameId) (depends : List Dependency) : Prop :=
  ∀ pre dep post, depends = pre ++ dep :: post →
    (Lists names name dep ∨ dep.name ∈ pre.map Dependency.name) →
    ∀ later ∈ post, Lists names name later ∨ later.name ∈ pre.map Dependency.name

section Loop

variable (name : NameId)

/-- Recording one dependency. -/
private abbrev recordRdepend (names : Arena Name) (dep : Dependency) : Arena Name :=
  names.modify dep.name fun rname => { rname with rdepends := rname.rdepends ++ [name] }

private theorem lists_recordRdepend {names : Arena Name} {dep : Dependency}
    (valid : dep.name < names.size) (other : Dependency) :
    Lists (recordRdepend name names dep) name other ↔
      Lists names name other ∨ other.name = dep.name := by
  unfold Lists
  by_cases same : dep.name = other.name
  · rw [← same, Arena.get_modify_self _ _ valid]
    simp
  · rw [Arena.get_modify_of_ne _ _ same]
    simp [Ne.symm same]

private theorem mem_rdepends_recordRdepend {names : Arena Name} {dep : Dependency}
    {i other : NameId} (member : other ∈ (names.get i).rdepends) :
    other ∈ ((recordRdepend name names dep).get i).rdepends := by
  rw [Arena.get_modify]
  split
  · exact List.mem_append_left _ member
  · exact member

/-- What is listed stays listed. -/
theorem mem_rdepends_pkgRdependsLoop {names : Arena Name} (depends : List Dependency)
    {i other : NameId} (member : other ∈ (names.get i).rdepends) :
    other ∈ ((pkgRdependsLoop name names depends).get i).rdepends := by
  induction depends generalizing names with
  | nil => exact member
  | cons dep depends ih =>
      rw [pkgRdependsLoop]
      split
      · exact member
      · exact ih (mem_rdepends_recordRdepend name member)

/-- No list gets a name twice, whatever the dependencies are. -/
theorem nodup_rdepends_pkgRdependsLoop {names : Arena Name} (depends : List Dependency)
    (distinct : ∀ i, (names.get i).rdepends.Nodup) (i : NameId) :
    ((pkgRdependsLoop name names depends).get i).rdepends.Nodup := by
  induction depends generalizing names with
  | nil => exact distinct i
  | cons dep depends ih =>
      rw [pkgRdependsLoop]
      split
      · exact distinct i
      · rename_i absent
        refine ih fun j => ?_
        rw [Arena.get_modify]
        split
        · rename_i here
          rw [← here.1]
          exact List.nodup_append.mpr ⟨distinct _, List.nodup_singleton _, by
            rintro a member b single rfl
            rw [List.mem_singleton.mp single] at member
            exact absent member⟩
        · exact distinct j

theorem noneSkipped_cons_of_lists {names : Arena Name} {dep : Dependency}
    {depends : List Dependency} (listed : Lists names name dep) :
    NoneSkipped names name (dep :: depends) ↔ ∀ later ∈ depends, Lists names name later := by
  constructor
  · intro skipless later member
    simpa using skipless [] dep depends rfl (.inl listed) later member
  · intro all pre middle post split _ later member
    left
    have inside : later ∈ dep :: depends := by
      rw [split]
      exact List.mem_append_right _ (List.mem_cons_of_mem _ member)
    rcases List.mem_cons.mp inside with rfl | tail
    · exact listed
    · exact all later tail

theorem noneSkipped_cons_of_not_lists {names : Arena Name} {dep : Dependency}
    {depends : List Dependency} (valid : dep.name < names.size)
    (fresh : ¬ Lists names name dep) :
    NoneSkipped names name (dep :: depends) ↔
      NoneSkipped (recordRdepend name names dep) name depends := by
  -- a dependency is listed after the recording iff it was before or repeats `dep`
  have moved : ∀ (pre : List Dependency) (other : Dependency),
      (Lists (recordRdepend name names dep) name other ∨ other.name ∈ pre.map Dependency.name) ↔
        (Lists names name other ∨ other.name ∈ (dep :: pre).map Dependency.name) := by
    intro pre other
    rw [lists_recordRdepend name valid]
    simp only [List.map_cons, List.mem_cons, or_assoc]
  constructor
  · intro skipless pre middle post split listed later member
    rw [moved]
    exact skipless (dep :: pre) middle post (by rw [split]; rfl) ((moved _ _).mp listed) later member
  · intro skipless pre middle post split listed later member
    cases pre with
    | nil =>
        obtain ⟨rfl, rfl⟩ := List.cons.inj split
        simp [fresh] at listed
    | cons head pre =>
        obtain ⟨rfl, rfl⟩ := List.cons.inj split
        rw [← moved]
        exact skipless pre middle post rfl ((moved _ _).mpr listed) later member

/-- **The loop records every dependency exactly when it skips none.** -/
theorem pkgRdependsLoop_complete_iff {names : Arena Name} {depends : List Dependency}
    (valid : ∀ dep ∈ depends, dep.name < names.size) :
    (∀ dep ∈ depends, Lists (pkgRdependsLoop name names depends) name dep) ↔
      NoneSkipped names name depends := by
  induction depends generalizing names with
  | nil => simp [NoneSkipped]
  | cons dep depends ih =>
      have here := valid dep List.mem_cons_self
      by_cases listed : Lists names name dep
      · have stops : pkgRdependsLoop name names (dep :: depends) = names := if_pos listed
        rw [stops, noneSkipped_cons_of_lists name listed]
        simp only [List.forall_mem_cons, listed, true_and]
      · have records : pkgRdependsLoop name names (dep :: depends) =
            pkgRdependsLoop name (recordRdepend name names dep) depends := if_neg listed
        have first : Lists (pkgRdependsLoop name (recordRdepend name names dep) depends) name dep :=
          mem_rdepends_pkgRdependsLoop name depends
            ((lists_recordRdepend name here dep).mpr (.inr rfl))
        rw [records, noneSkipped_cons_of_not_lists name here listed, ← ih fun later member => by
          simpa using valid later (List.mem_cons_of_mem _ member)]
        simp only [List.forall_mem_cons, first, true_and]

end Loop

/-! ## Adding packages -/

section PkgAdd

variable (db : Database)

/-- What an update of packages and installations leaves alone, given the fields of a
package it leaves alone. -/
structure KeepsIndex {β : Type*} (field : Package → β) (db next : Database) : Prop where
  names : next.names = db.names
  availablePackages : next.availablePackages = db.availablePackages
  size : next.pkgs.size = db.pkgs.size
  field_eq : ∀ i, field (next.pkgs.get i) = field (db.pkgs.get i)

section Field

variable {β : Type*} {field : Package → β}

theorem KeepsIndex.trans {first second third : Database} (left : KeepsIndex field first second)
    (right : KeepsIndex field second third) : KeepsIndex field first third where
  names := right.names.trans left.names
  availablePackages := right.availablePackages.trans left.availablePackages
  size := right.size.trans left.size
  field_eq i := (right.field_eq i).trans (left.field_eq i)

theorem keepsIndex_mergeRepos (kept : ∀ p repos, field { p with repos } = field p)
    (idb pkg : PkgId) : KeepsIndex field db (db.mergeRepos idb pkg) where
  names := rfl
  availablePackages := rfl
  size := Arena.size_modify ..
  field_eq _ := Arena.get_modify_field field _ _ _ _ fun p => kept p _

theorem keepsIndex_moveFilename (kept : ∀ p filename, field { p with filename } = field p)
    (idb pkg : PkgId) : KeepsIndex field db (db.moveFilename idb pkg) := by
  simp only [moveFilename]
  split
  · refine ⟨rfl, rfl, by simp, fun i => ?_⟩
    rw [Arena.get_modify_field field _ _ _ _ fun p => kept p _,
      Arena.get_modify_field field _ _ _ _ fun p => kept p _]
  · exact ⟨rfl, rfl, rfl, fun _ => rfl⟩

theorem keepsIndex_moveIpkg (kept : ∀ p ipkg, field { p with ipkg } = field p)
    (idb pkg : PkgId) : KeepsIndex field db (db.moveIpkg idb pkg) := by
  unfold moveIpkg
  split
  · refine ⟨rfl, rfl, by simp, fun i => ?_⟩
    rw [Arena.get_modify_field field _ _ _ _ fun p => kept p _,
      Arena.get_modify_field field _ _ _ _ fun p => kept p _]
  · exact ⟨rfl, rfl, rfl, fun _ => rfl⟩

theorem keepsIndex_pkgUninstall (kept : ∀ p ipkg, field { p with ipkg } = field p)
    (counted : Bool) (pkg : PkgId) : KeepsIndex field db (db.pkgUninstall counted pkg) := by
  unfold pkgUninstall
  split
  · exact ⟨rfl, rfl, rfl, fun _ => rfl⟩
  · exact ⟨rfl, rfl, Arena.size_modify .., fun i =>
      Arena.get_modify_field field _ _ _ _ fun p => kept p none⟩

/-- A package whose checksum is stored already changes no name and no table. -/
theorem keepsIndex_pkgAdd (keptRepos : ∀ p repos, field { p with repos } = field p)
    (keptFilename : ∀ p filename, field { p with filename } = field p)
    (keptIpkg : ∀ p ipkg, field { p with ipkg } = field p) {name : NameId} {pkg idb : PkgId}
    (known : db.getPkg (db.pkgs.get pkg).csum = some idb) :
    KeepsIndex field db (db.pkgAdd name pkg).1 := by
  have merged : (db.pkgAdd name pkg).1 =
      (((db.mergeRepos idb pkg).moveFilename idb pkg).moveIpkg idb pkg).pkgUninstall false pkg := by
    simp only [pkgAdd, known]
  rw [merged]
  exact (((keepsIndex_mergeRepos db keptRepos idb pkg).trans
    (keepsIndex_moveFilename _ keptFilename idb pkg)).trans
    (keepsIndex_moveIpkg _ keptIpkg idb pkg)).trans
    (keepsIndex_pkgUninstall _ keptIpkg false pkg)

end Field

/-- A package with a new checksum is stored, and its dependencies are recorded. -/
theorem pkgAdd_of_getPkg_none {name : NameId} {pkg : PkgId}
    (unknown : db.getPkg (db.pkgs.get pkg).csum = none) :
    (db.pkgAdd name pkg).1 = { db with
      availablePackages :=
        db.availablePackages.insertHashed pkg (csumHash (db.pkgs.get pkg).csum)
      names := pkgRdependsLoop name
        (db.names.modify name fun n => { n with pkgs := n.pkgs ++ [pkg] })
        (db.pkgs.get pkg).depends } := by
  simp only [pkgAdd, unknown]
  rfl

end PkgAdd

/-! ## Runs -/

/-- What the readers of an index call on the database. -/
inductive IndexAction where
  /-- `apk_db_get_name`, for a package or for one of its dependencies. -/
  | getName (name : Bytes)
  /-- `apk_db_pkg_add` of a package just allocated. -/
  | pkgAdd (pkg : Package)

/-- One call. A package must have a name, and its names must exist. -/
def indexStep (db : Database) : IndexAction → Option Database
  | .getName name => some (db.getName name).1
  | .pkgAdd pkg =>
      match pkg.name with
      | none => none
      | some name =>
          if name < db.names.size ∧ ∀ dep ∈ pkg.depends, dep.name < db.names.size then
            some (({ db with pkgs := db.pkgs.alloc pkg } : Database).pkgAdd name db.pkgs.size).1
          else none

/-- The condition on a call: a package that enters the table skips no dependency. -/
def IndexCondition (db : Database) : IndexAction → Prop
  | .getName _ => True
  | .pkgAdd pkg => db.getPkg pkg.csum = none →
      ∀ name, pkg.name = some name → NoneSkipped db.names name pkg.depends

/-- The reverse-dependency index is complete and holds no name twice in a list. -/
def RdependsComplete (db : Database) : Prop :=
  (∀ pkg ∈ db.availablePackages.items, ∀ dep ∈ (db.pkgs.get pkg).depends,
    ∃ name, (db.pkgs.get pkg).name = some name ∧ Lists db.names name dep) ∧
  ∀ i, (db.names.get i).rdepends.Nodup

/-- The index is complete, over packages that are allocated. -/
structure Indexed (db : Database) : Prop where
  complete : db.RdependsComplete
  allocated : ∀ pkg ∈ db.availablePackages.items, pkg < db.pkgs.size

theorem indexed_empty : Indexed {} := by
  refine ⟨⟨fun pkg member => ?_, fun i => ?_⟩, fun pkg member => ?_⟩
  · simp at member
  · rw [Arena.get_of_size_le _ (Nat.zero_le i)]
    exact List.nodup_nil
  · simp at member

/-- Only the lists of the names matter to the index. -/
theorem Indexed.of_rdepends {db next : Database} (indexed : Indexed db)
    (packages : next.availablePackages = db.availablePackages) (pkgs : next.pkgs = db.pkgs)
    (rdepends : ∀ i, (next.names.get i).rdepends = (db.names.get i).rdepends) : Indexed next := by
  refine ⟨⟨?_, fun i => ?_⟩, ?_⟩
  · simp only [packages, pkgs, Lists, rdepends]
    exact indexed.complete.1
  · rw [rdepends]
    exact indexed.complete.2 i
  · rw [packages, pkgs]
    exact indexed.allocated

theorem Indexed.getName {db : Database} (indexed : Indexed db) (name : Bytes) :
    Indexed (db.getName name).1 := by
  unfold Database.getName
  split
  · exact indexed
  · refine indexed.of_rdepends rfl rfl fun i => ?_
    rw [Arena.get_alloc]
    split
    · rename_i fresh
      rw [fresh, Arena.get_of_size_le _ (Nat.le_refl _)]
      rfl
    · rfl

/-- Allocating a package, before it is added. -/
theorem Indexed.alloc {db : Database} (indexed : Indexed db) (pkg : Package) :
    Indexed { db with pkgs := db.pkgs.alloc pkg } := by
  refine ⟨⟨fun other member dep depends => ?_, indexed.complete.2⟩, fun other member => ?_⟩
  · have old := indexed.allocated other member
    simp only [Arena.get_alloc_of_lt _ _ old] at depends ⊢
    exact indexed.complete.1 other member dep depends
  · simpa using Nat.lt_succ_of_lt (indexed.allocated other member)

/-- A freshly allocated package changes no lookup. -/
theorem Indexed.getPkg_alloc {db : Database} (indexed : Indexed db) (pkg : Package)
    (csum : Checksum) :
    ({ db with pkgs := db.pkgs.alloc pkg } : Database).getPkg csum = db.getPkg csum :=
  Hash.getHashed_congr (fun other member => by
    rw [Arena.get_alloc_of_lt _ _ (indexed.allocated other member)]) _

/-- **One insertion.** Adding an allocated package keeps the index complete if the
package is known or the loop skips none of its dependencies. -/
theorem Indexed.pkgAdd {db : Database} (indexed : Indexed db) {name : NameId} {pkg : PkgId}
    (allocated : pkg < db.pkgs.size) (named : (db.pkgs.get pkg).name = some name)
    (valid : ∀ dep ∈ (db.pkgs.get pkg).depends, dep.name < db.names.size)
    (skipless : db.getPkg (db.pkgs.get pkg).csum = none →
      NoneSkipped db.names name (db.pkgs.get pkg).depends) :
    Indexed (db.pkgAdd name pkg).1 := by
  cases known : db.getPkg (db.pkgs.get pkg).csum with
  | some idb =>
      have names : KeepsIndex Package.name db (db.pkgAdd name pkg).1 :=
        db.keepsIndex_pkgAdd (fun _ _ => rfl) (fun _ _ => rfl) (fun _ _ => rfl) known
      have depends : KeepsIndex Package.depends db (db.pkgAdd name pkg).1 :=
        db.keepsIndex_pkgAdd (fun _ _ => rfl) (fun _ _ => rfl) (fun _ _ => rfl) known
      refine ⟨⟨?_, ?_⟩, ?_⟩
      · simp only [names.availablePackages, names.names, names.field_eq, depends.field_eq]
        exact indexed.complete.1
      · simp only [names.names]
        exact indexed.complete.2
      · simp only [names.availablePackages, names.size]
        exact indexed.allocated
  | none =>
      rw [db.pkgAdd_of_getPkg_none known]
      -- entering the package in its name's list leaves the reverse dependencies alone
      have kept : ∀ i, ((db.names.modify name fun n => { n with pkgs := n.pkgs ++ [pkg] }).get
          i).rdepends = (db.names.get i).rdepends := fun i =>
        Arena.get_modify_field Name.rdepends _ _ _ _ fun _ => rfl
      refine ⟨⟨fun other member dep depends => ?_, ?_⟩, fun other member => ?_⟩
      · rcases Hash.mem_items_insertHashed.mp member with rfl | member
        · refine ⟨name, named, (pkgRdependsLoop_complete_iff name ?_).mpr ?_ dep depends⟩
          · simpa using valid
          · simpa only [NoneSkipped, Lists, kept] using skipless known
        · obtain ⟨owner, ownerNamed, listed⟩ := indexed.complete.1 other member dep depends
          refine ⟨owner, ownerNamed, mem_rdepends_pkgRdependsLoop name _ ?_⟩
          rw [kept]
          exact listed
      · refine nodup_rdepends_pkgRdependsLoop name _ fun i => ?_
        rw [kept]
        exact indexed.complete.2 i
      · rcases Hash.mem_items_insertHashed.mp member with rfl | member
        · exact allocated
        · exact indexed.allocated other member

theorem Indexed.step {db next : Database} {action : IndexAction} (indexed : Indexed db)
    (condition : db.IndexCondition action) (stepped : db.indexStep action = some next) :
    Indexed next := by
  cases action with
  | getName name =>
      cases stepped
      exact indexed.getName name
  | pkgAdd pkg =>
      simp only [indexStep] at stepped
      split at stepped
      · cases stepped
      · rename_i name named
        split at stepped
        · rename_i valid
          cases stepped
          refine (indexed.alloc pkg).pkgAdd (by simp) ?_ ?_ ?_
          · simpa using named
          · simpa using valid.2
          · simp only [Arena.get_alloc_self]
            rw [indexed.getPkg_alloc]
            exact fun unknown => condition unknown name named
        · cases stepped

/-- **The index after a run.** Any sequence of insertions into an empty database
leaves the reverse-dependency index complete, if no package that enters the table
has an unlisted dependency behind a listed one. -/
theorem rdepends_complete_of_noneSkipped {actions : List IndexAction} {db : Database}
    (skipless : Guarded indexStep IndexCondition {} actions)
    (reached : run indexStep {} actions = some db) : db.RdependsComplete :=
  (skipless.invariant Indexed (fun _ _ _ indexed condition => indexed.step condition) indexed_empty
    reached).complete

/-! ## Packages under their names -/

/-- Every package listed under a name is allocated and has that name. -/
def NamesOwn (db : Database) : Prop :=
  ∀ name, ∀ pkg ∈ (db.names.get name).pkgs,
    pkg < db.pkgs.size ∧ (db.pkgs.get pkg).name = some name

/-- Only the reverse dependencies of names change. -/
theorem field_pkgRdependsLoop {β : Type*} {field : Name → β}
    (kept : ∀ n rdepends, field { n with rdepends } = field n) (name : NameId)
    (names : Arena Name) (depends : List Dependency) (i : NameId) :
    field ((pkgRdependsLoop name names depends).get i) = field (names.get i) := by
  induction depends generalizing names with
  | nil => rfl
  | cons dep depends ih =>
      rw [pkgRdependsLoop]
      split
      · rfl
      · rw [ih]
        exact Arena.get_modify_field field _ _ _ _ fun n => kept n _

theorem size_pkgRdependsLoop (name : NameId) (names : Arena Name) (depends : List Dependency) :
    (pkgRdependsLoop name names depends).size = names.size := by
  induction depends generalizing names with
  | nil => rfl
  | cons dep depends ih =>
      rw [pkgRdependsLoop]
      split
      · rfl
      · rw [ih, Arena.size_modify]

theorem NamesOwn.pkgAdd {db : Database} (own : NamesOwn db) {name : NameId} {pkg : PkgId}
    (allocated : pkg < db.pkgs.size) (named : (db.pkgs.get pkg).name = some name) :
    NamesOwn (db.pkgAdd name pkg).1 := by
  cases known : db.getPkg (db.pkgs.get pkg).csum with
  | some idb =>
      have keeps : KeepsIndex Package.name db (db.pkgAdd name pkg).1 :=
        db.keepsIndex_pkgAdd (fun _ _ => rfl) (fun _ _ => rfl) (fun _ _ => rfl) known
      simp only [NamesOwn, keeps.names, keeps.size, keeps.field_eq]
      exact own
  | none =>
      rw [db.pkgAdd_of_getPkg_none known]
      intro other listed member
      rw [@field_pkgRdependsLoop _ Name.pkgs fun _ _ => rfl] at member
      rw [Arena.get_modify] at member
      split at member
      · rename_i here
        rcases List.mem_append.mp member with member | new
        · exact own other listed member
        · rw [List.mem_singleton.mp new, ← here.1]
          exact ⟨allocated, named⟩
      · exact own other listed member

/-- Every run of insertions lists a package under its own name only. -/
theorem namesOwn_of_run {actions : List IndexAction} {start db : Database} (own : NamesOwn start)
    (reached : run indexStep start actions = some db) : NamesOwn db := by
  induction actions generalizing start with
  | nil =>
      cases reached
      exact own
  | cons action actions ih =>
      obtain ⟨next, stepped, reached⟩ := run_cons_eq_some.mp reached
      refine ih ?_ reached
      cases action with
      | getName name =>
          cases stepped
          unfold getName
          split
          · exact own
          · intro other pkg member
            rw [Arena.get_alloc] at member
            split at member
            · cases member
            · exact own other pkg member
      | pkgAdd pkg =>
          simp only [indexStep] at stepped
          split at stepped
          · cases stepped
          · rename_i name named
            split at stepped
            · cases stepped
              refine NamesOwn.pkgAdd (fun other listed member => ?_) (by simp) (by simpa using named)
              obtain ⟨inside, sameName⟩ := own other listed member
              refine ⟨by simpa using Nat.lt_succ_of_lt inside, ?_⟩
              rwa [Arena.get_alloc_of_lt _ _ inside]
            · cases stepped

/-! ## Two versions of one package -/

/-- Two versions of one package; only the second version's dependencies vary. -/
def twoVersions (depends : List Dependency) : List IndexAction :=
  [.getName (text "p"), .getName (text "a"), .getName (text "b"),
    .pkgAdd { name := some 0, csum := .sha1Of 1,
              depends := [⟨1, depmaskRequire, none⟩] },
    .pkgAdd { name := some 0, csum := .sha1Of 2, depends }]

theorem rdepends_complete_twoVersions :
    ∃ db, run indexStep {} (twoVersions [⟨2, depmaskRequire, none⟩]) = some db ∧
      db.RdependsComplete := by
  have skipless : Guarded indexStep IndexCondition {}
      (twoVersions [⟨2, depmaskRequire, none⟩]) := by
    refine .cons rfl trivial (.cons rfl trivial (.cons rfl trivial
      (.cons rfl ?_ (.cons rfl ?_ trivial))))
    · rintro - name ⟨⟩
      exact (pkgRdependsLoop_complete_iff 0 (by decide +kernel)).mp (by decide +kernel)
    · rintro - name ⟨⟩
      exact (pkgRdependsLoop_complete_iff 0 (by decide +kernel)).mp (by decide +kernel)
  exact ⟨_, rfl, rdepends_complete_of_noneSkipped skipless rfl⟩

/-- **The index can miss a dependency.** The second version adds a dependency on `b`
behind the one on `a`, which the first version had listed. -/
theorem rdepends_incomplete_twoVersions :
    ∃ db, run indexStep {} (twoVersions [⟨1, depmaskRequire, none⟩, ⟨2, depmaskRequire, none⟩]) =
      some db ∧ ¬ db.RdependsComplete := by
  refine ⟨_, rfl, fun complete => ?_⟩
  obtain ⟨name, named, listed⟩ := complete.1 1
    (Hash.mem_items.mpr ⟨1346, by decide, by decide +kernel⟩)
    ⟨2, depmaskRequire, none⟩ (by decide +kernel)
  cases named
  revert listed
  decide +kernel

end AriannaLinux.Apk.Database
