import AriannaLinux.Apk.ConfigWrite
import AriannaLinux.Apk.Install.RunTriggers
import AriannaLinux.Apk.Solver.Outcome
import AriannaLinux.Apk.WorldEdit

/-! # Carrying out a plan

`apk_state_commit` goes through the changes of a plan, runs the triggers and saves the database.
A commit that returns 0 has made all changes, or none at all: it is simulated, or it would
remove a top-level package without being told to. In both cases a system in which all
dependencies of the installed packages hold is one again, and when the changes were made, what
was asked for holds as well (`commit_sound`).
-/

namespace AriannaLinux.Apk

/-- What `apk_state_commit` takes from outside: that of the installations, of saving and of
the triggers, which package files the cache directory holds, the options that it reads itself
and what `fgetc (stdin)` returns. -/
structure CommitEnv (Key : Type*) where
  install : InstallEnv Key
  save : SaveEnv
  fnmatch : Database.Fnmatch
  cached : Package → Bool
  interactive : Bool
  recursiveDelete : Bool
  answer : Option UInt8

/-- `apk_state_commit`, behind the removal of a package: a name that was top-level is not so any
more, and leaves the world. -/
def Database.forgetToplevel (db : Database) (change : Change) : Database :=
  match change.oldpkg, change.newpkg with
  | some oldpkg, none =>
      match (db.pkgs.get oldpkg).name with
      | none => db
      | some name =>
          if (db.names.get name).toplevel then
            { db with
              names := db.names.modify name fun n => { n with toplevel := false }
              world := depsDel name db.world }
          else db
  | _, _ => db

namespace CommitEnv

variable {Key : Type*} (env : CommitEnv Key) (zlib : Zlib) (fuel : ℕ)

/-- What the solver sees of a database. -/
def context (db : Database) : SolverContext := .ofDatabase db env.install.flags env.cached

/-- The loop of `apk_state_commit` that makes the changes. -/
def commitChanges : List Change → Database → Option (ℤ × Database)
  | [], db => some (0, db)
  | change :: changes, db =>
      if env.install.flags.simulate then commitChanges changes db
      else
        (installPkg env.install zlib fuel db change.oldpkg change.newpkg).bind fun (r, db) =>
          if r ≠ 0 then some (r, db) else commitChanges changes (db.forgetToplevel change)

/-- The end of `apk_state_commit`. What saving returns is not looked at. -/
def updateState (r : ℤ) (db : Database) (files : ConfigFiles) :
    Option (ℤ × Database × ConfigFiles) :=
  let db := db.runTriggers env.fnmatch env.install.root env.install.flags
  (writeConfig env.save env.install.flags db files).map fun (_, files) => (r, db, files)

/-- A top-level package would be removed, and `apk_state_commit` was not told to. -/
def holdsBack (counts : ChangeCounts) : Bool :=
  counts.toplevel && !env.interactive && !env.recursiveDelete

/-- `Do you want to continue [Y/n]?` -/
def agreed : Bool :=
  !env.interactive || env.answer = some (ascii 'y') || env.answer = some (ascii 'Y') ||
    env.answer = some newline

/-- `apk_state_commit`, without what it prints. Without a result it does not return. -/
def commit (db : Database) (s : State) (files : ConfigFiles) :
    Option (ℤ × Database × ConfigFiles) :=
  match (env.context db).planLoop fuel fuel 0 {} s with
  | .error _ => none
  | .ok (counts, s) =>
      if env.holdsBack counts then
        if !counts.deleteonly then some (-1, db, files) else env.updateState 0 db files
      else if !env.agreed then some (-1, db, files)
      else
        (env.commitChanges zlib fuel s.changes db).bind fun (r, db) => env.updateState r db files

end CommitEnv

/-! ## What stays of the database -/

namespace Database

/-- The packages and how they depend on each other are as they were. -/
structure SameGraph (db db' : Database) : Prop where
  pkgs : ∀ pkg, (db'.pkgs.get pkg).entry = (db.pkgs.get pkg).entry
  size : db'.pkgs.size = db.pkgs.size
  listed : ∀ name, (db'.names.get name).pkgs = (db.names.get name).pkgs
  rdepends : ∀ name, (db'.names.get name).rdepends = (db.names.get name).rdepends

namespace SameGraph

variable {db db' db'' : Database}

theorem refl (db : Database) : SameGraph db db := ⟨fun _ => rfl, rfl, fun _ => rfl, fun _ => rfl⟩

theorem trans (first : SameGraph db db') (second : SameGraph db' db'') : SameGraph db db'' where
  pkgs pkg := (second.pkgs pkg).trans (first.pkgs pkg)
  size := second.size.trans first.size
  listed name := (second.listed name).trans (first.listed name)
  rdepends name := (second.rdepends name).trans (first.rdepends name)

theorem ofCatalogue (same : SameCatalogue db db') : SameGraph db db' where
  pkgs := same.pkgs
  size := same.size
  listed := same.ofName Name.pkgs fun _ => rfl
  rdepends := same.ofName Name.rdepends fun _ => rfl

theorem ofPackage {β : Type*} (same : SameGraph db db') (field : Package → β)
    (blind : ∀ p : Package, field p.entry = field p) (pkg : PkgId) :
    field (db'.pkgs.get pkg) = field (db.pkgs.get pkg) := by
  rw [← blind, same.pkgs, blind]

end SameGraph

theorem forgetToplevel_graph (db : Database) (change : Change) :
    SameGraph db (db.forgetToplevel change) ∧ (db.forgetToplevel change).pkgs = db.pkgs := by
  have forgotten : ∀ name, SameGraph db { db with
      names := db.names.modify name fun n => { n with toplevel := false }
      world := depsDel name db.world } := by
    intro name
    refine ⟨fun _ => rfl, rfl, fun other => ?_, fun other => ?_⟩
    · exact Arena.get_modify_field Name.pkgs _ _ _ _ fun _ => rfl
    · exact Arena.get_modify_field Name.rdepends _ _ _ _ fun _ => rfl
  unfold forgetToplevel
  split
  · split
    · exact ⟨.refl db, rfl⟩
    · split
      · exact ⟨forgotten _, rfl⟩
      · exact ⟨.refl db, rfl⟩
  · exact ⟨.refl db, rfl⟩

/-- Running the triggers changes no name and no package. -/
theorem runTriggers_graph (db : Database) (fnmatch : Fnmatch) (env : RootEnv) (flags : Flags) :
    (db.runTriggers fnmatch env flags).names = db.names ∧
      (db.runTriggers fnmatch env flags).pkgs = db.pkgs := by
  have fired := List.foldlRecOn
    (motive := fun db' : Database => db'.names = db.names ∧ db'.pkgs = db.pkgs)
    db.installedDirs.items (fireTriggers fnmatch) ⟨rfl, rfl⟩ fun middle same dir _ => by
      refine List.foldlRecOn
        (motive := fun db' : Database => db'.names = db.names ∧ db'.pkgs = db.pkgs)
        middle.installedTriggers (fireTrigger fnmatch (middle.dirs.get dir)) same ?_
      intro last same ipkg _
      unfold fireTrigger
      split <;> exact same
  unfold Database.runTriggers
  refine List.foldlRecOn
    (motive := fun db' : Database => db'.names = db.names ∧ db'.pkgs = db.pkgs) _
    (runPendingTriggers env flags) fired ?_
  intro last same ipkg _
  unfold runPendingTriggers
  dsimp only
  split
  · exact same
  · rw [runScript_calling]
    exact same

end Database

/-! ## The changes -/

section Changes

variable {Key : Type*} {env : CommitEnv Key} {zlib : Zlib} {fuel : ℕ} {db after : Database}

open Database SolverContext

/-- **The loop over the changes.** When it returns 0, exactly the packages are installed that
the changes leave. -/
theorem commitChanges_applied {changes : List Change} (real : env.install.flags.simulate = false)
    (inside : ∀ change ∈ changes, ∀ pkg, change.newpkg = some pkg → pkg < db.pkgs.size)
    (done : env.commitChanges zlib fuel changes db = some (0, after)) :
    SameGraph db after ∧ ∀ pkg, after.HasRecord pkg ↔ applyChanges changes db.HasRecord pkg := by
  induction changes generalizing db with
  | nil =>
      cases done
      exact ⟨.refl _, fun _ => Iff.rfl⟩
  | cons change changes ih =>
      obtain ⟨here, later⟩ := List.forall_mem_cons.mp inside
      rw [CommitEnv.commitChanges, if_neg (by rw [real]; exact Bool.false_ne_true)] at done
      obtain ⟨⟨r, middle⟩, installed, done⟩ := Option.bind_eq_some_iff.mp done
      dsimp only at done
      by_cases failed : r = 0
      · subst failed
        rw [if_neg (not_not.mpr rfl)] at done
        have exchanges := installPkg_exchanges here installed
        obtain ⟨forgets, pkgs⟩ := middle.forgetToplevel_graph change
        have graph := (SameGraph.ofCatalogue exchanges.toSameCatalogue).trans forgets
        obtain ⟨same, records⟩ := ih (fun other member pkg new =>
          (later other member pkg new).trans_eq graph.size.symm) done
        refine ⟨graph.trans same, fun pkg => ?_⟩
        rw [records]
        have now : (middle.forgetToplevel change).HasRecord = applyChange db.HasRecord change := by
          funext other
          rw [HasRecord, pkgs]
          exact propext (exchanges.records other)
        rw [now]
        rfl
      · rw [if_pos failed] at done
        exact absurd (congrArg Prod.fst (Option.some.inj done)) failed

/-- In a simulation nothing is changed. -/
theorem commitChanges_simulated (simulated : env.install.flags.simulate = true)
    (changes : List Change) : env.commitChanges zlib fuel changes db = some (0, db) := by
  induction changes with
  | nil => rfl
  | cons change changes ih => rw [CommitEnv.commitChanges, if_pos simulated, ih]

end Changes

/-! ## The system before and after -/

namespace SolverContext

variable {ctx ctx' : SolverContext}

/-- What is listed under a name is installed after changes that only install what is listed. -/
theorem applyChanges_listed {changes : List Change} {listed installed : PkgId → Prop}
    (new : ∀ change ∈ changes, ∀ pkg, change.newpkg = some pkg → listed pkg) (pkg : PkgId) :
    applyChanges changes (fun pkg => listed pkg ∧ installed pkg) pkg ↔
      listed pkg ∧ applyChanges changes installed pkg := by
  induction changes generalizing installed with
  | nil => exact Iff.rfl
  | cons change changes ih =>
      obtain ⟨here, later⟩ := List.forall_mem_cons.mp new
      have step : applyChange (fun pkg => listed pkg ∧ installed pkg) change =
          fun pkg => listed pkg ∧ applyChange installed change pkg := by
        funext other
        apply propext
        constructor
        · rintro (⟨⟨member, had⟩, kept⟩ | same)
          · exact ⟨member, .inl ⟨had, kept⟩⟩
          · exact ⟨here other same, .inr same⟩
        · rintro ⟨member, ⟨had, kept⟩ | same⟩
          · exact .inl ⟨⟨member, had⟩, kept⟩
          · exact .inr same
      change applyChanges changes (applyChange _ change) pkg ↔ _
      rw [step, ih later]
      rfl

section Graph

variable (graph : Database.SameGraph ctx.db ctx'.db)

include graph

theorem versionMatches_graph (dep : Dependency) (pkg : PkgId) :
    ctx'.versionMatches dep pkg = ctx.versionMatches dep pkg := by
  unfold versionMatches
  rw [graph.ofPackage Package.version fun _ => rfl]

theorem satisfiedIn_graph {installed : PkgId → Prop} {dep : Dependency} :
    ctx'.SatisfiedIn installed dep ↔ ctx.SatisfiedIn installed dep := by
  unfold SatisfiedIn
  simp only [versionMatches_graph graph, graph.ofPackage Package.name fun _ => rfl]

theorem closed_graph {installed : PkgId → Prop} : ctx'.Closed installed ↔ ctx.Closed installed := by
  unfold Closed
  simp only [satisfiedIn_graph graph, graph.ofPackage Package.depends fun _ => rfl]

theorem ownPackages_graph (own : ctx.OwnPackages) : ctx'.OwnPackages := by
  intro name pkg member
  rw [graph.listed] at member
  rw [graph.ofPackage Package.name fun _ => rfl]
  exact own name pkg member

theorem fullIndex_graph (index : ctx.FullIndex) : ctx'.FullIndex := by
  intro name pkg member dep inside
  rw [graph.listed] at member
  rw [graph.ofPackage Package.depends fun _ => rfl] at inside
  rw [graph.rdepends]
  exact index name pkg member dep inside

/-- A package is listed and has a record. -/
theorem installedSet_graph (pkg : PkgId) :
    ctx'.installedSet pkg ↔
      (∃ name, pkg ∈ (ctx.db.names.get name).pkgs) ∧ ctx'.db.HasRecord pkg := by
  constructor
  · rintro ⟨name, member, has⟩
    rw [graph.listed] at member
    exact ⟨⟨name, member⟩, has⟩
  · rintro ⟨⟨name, member⟩, has⟩
    exact ⟨name, (graph.listed name).symm ▸ member, has⟩

end Graph

/-- A package that is listed under its name is there. -/
theorem OwnPackages.lt_size (own : ctx.OwnPackages) {name : NameId} {pkg : PkgId}
    (member : pkg ∈ (ctx.db.names.get name).pkgs) : pkg < ctx.db.pkgs.size := by
  by_contra outside
  have named := own name pkg member
  rw [SolverContext.pkg, Arena.get_of_size_le _ (Nat.le_of_not_lt outside)] at named
  cases named

theorem FullIndex.complete (index : ctx.FullIndex) : ctx.IndexComplete :=
  fun name pkg installed dep member => index name pkg installed.1 dep member

end SolverContext

/-! ## The commit -/

section Commit

variable {Key : Type*} {env : CommitEnv Key} {zlib : Zlib} {fuel : ℕ} {db after : Database}

open Database SolverContext

/-- A database that is in order: packages are listed under their own names, at most one of a
name is installed, and the index of reverse dependencies is full. -/
structure SolverContext.Orderly (ctx : SolverContext) : Prop where
  own : ctx.OwnPackages
  one : ctx.OneInstalled
  index : ctx.FullIndex

/-- A commit that makes no change: it is a simulation, or a top-level package would go. -/
def CommitEnv.MakesNone (env : CommitEnv Key) (fuel : ℕ) (db : Database) (s : State) : Prop :=
  env.install.flags.simulate = true ∨
    ∃ counts s', (env.context db).planLoop fuel fuel 0 {} s = .ok (counts, s') ∧
      env.holdsBack counts = true

/-- What a commit leaves that was asked for some dependencies. The database is in order. All
dependencies of the installed packages hold if they did before, and if the plan installed no name
afresh that an installed package, its own name untouched so far, conflicts with. What was asked
for holds, or nothing was installed or removed. -/
structure CommitEnv.Sound (env : CommitEnv Key) (fuel : ℕ) (db : Database) (s : State)
    (asked : List Dependency) (after : Database) : Prop where
  orderly : (env.context after).Orderly
  closed : (∀ call ∈ s.calls, (env.context db).FreshSafe call) →
    (env.context db).Closed (env.context db).installedSet →
      (env.context after).Closed (env.context after).installedSet
  outcome : (∀ dep ∈ asked, (env.context after).SatisfiedIn (env.context after).installedSet dep) ∨
    env.MakesNone fuel db s ∧ ∀ pkg, after.HasRecord pkg ↔ db.HasRecord pkg

theorem updateState_graph {r r' : ℤ} {files files' : ConfigFiles}
    (updated : env.updateState r db files = some (r', after, files')) :
    r' = r ∧ SameGraph db after ∧ ∀ pkg, after.HasRecord pkg ↔ db.HasRecord pkg := by
  obtain ⟨⟨saved, saved'⟩, -, same⟩ := Option.map_eq_some_iff.mp updated
  cases same
  obtain ⟨names, pkgs⟩ := db.runTriggers_graph env.fnmatch env.install.root env.install.flags
  refine ⟨rfl, ⟨fun pkg => ?_, ?_, fun name => ?_, fun name => ?_⟩, fun pkg => ?_⟩
  · rw [pkgs]
  · rw [pkgs]
  · rw [names]
  · rw [names]
  · rw [HasRecord, HasRecord, pkgs]

section Same

variable {ctx ctx' : SolverContext} (graph : SameGraph ctx.db ctx'.db)
  (records : ∀ pkg, ctx'.db.HasRecord pkg ↔ ctx.db.HasRecord pkg)

include graph records

/-- The same packages are installed in a database of the same graph. -/
theorem SolverContext.Orderly.same (orderly : ctx.Orderly) : ctx'.Orderly := by
  refine ⟨ownPackages_graph graph orderly.own, ?_, fullIndex_graph graph orderly.index⟩
  intro name pkg pkg' here there
  apply orderly.one name pkg pkg'
  · exact ⟨graph.listed name ▸ here.1, (records pkg).mp here.2⟩
  · exact ⟨graph.listed name ▸ there.1, (records pkg').mp there.2⟩

theorem SolverContext.Closed.same (closed : ctx.Closed ctx.installedSet) :
    ctx'.Closed ctx'.installedSet := by
  have installed : ctx'.installedSet = ctx.installedSet := by
    funext pkg
    apply propext
    rw [installedSet_graph graph, installedSet_graph (.refl ctx.db), records]
  rw [closed_graph graph, installed]
  exact closed

end Same

/-- What the changes of a plan install is listed. -/
theorem SolverContext.Finished.chosen_listed {ctx : SolverContext} {s : State}
    (finished : ctx.Finished s) : ∀ change ∈ s.changes, ∀ pkg, change.newpkg = some pkg →
      ∃ name, pkg ∈ (ctx.db.names.get name).pkgs := by
  intro change member pkg new
  obtain ⟨name, -, -, locked⟩ := finished.consistent.final change member
  exact ⟨name, finished.tidy.own name pkg (new ▸ locked)⟩

section Made

variable {ctx ctx' : SolverContext} {s : State} (orderly : ctx.Orderly) (finished : ctx.Finished s)
  (graph : SameGraph ctx.db ctx'.db)
  (records : ∀ pkg, ctx'.db.HasRecord pkg ↔ applyChanges s.changes ctx.db.HasRecord pkg)

include finished graph records

/-- The changes of a plan were made: what they leave is installed. -/
theorem SolverContext.Finished.installedSet_eq :
    ctx'.installedSet = applyChanges s.changes ctx.installedSet := by
  have before : ctx.installedSet = fun pkg =>
      (∃ name, pkg ∈ (ctx.db.names.get name).pkgs) ∧ ctx.db.HasRecord pkg := by
    funext pkg
    exact propext (installedSet_graph (.refl ctx.db) pkg)
  funext pkg
  apply propext
  rw [installedSet_graph graph, records, before, applyChanges_listed finished.chosen_listed]

include orderly

/-- What the plan has met holds then. -/
theorem SolverContext.Finished.satisfied {dep : Dependency} (met : ctx.Met s dep) :
    ctx'.SatisfiedIn ctx'.installedSet dep := by
  rw [satisfiedIn_graph graph, finished.installedSet_eq graph records]
  exact finished.satisfiedIn_of_met orderly.own orderly.one met

/-- The database is in order then. -/
theorem SolverContext.Finished.leavesOrderly : ctx'.Orderly := by
  have installed := finished.installedSet_eq graph records
  have own := ownPackages_graph graph orderly.own
  refine ⟨own, ?_, fullIndex_graph graph orderly.index⟩
  intro name pkg pkg' here there
  have named : ∀ pkg, ctx'.Installed name pkg → (ctx.pkg pkg).name = some name := by
    intro pkg present
    rw [← own name pkg present.1]
    exact (graph.ofPackage Package.name (fun _ => rfl) pkg).symm
  have holds : ∀ pkg, ctx'.Installed name pkg → applyChanges s.changes ctx.installedSet pkg := by
    intro pkg present
    rw [← installed]
    exact ⟨name, present⟩
  exact finished.oneInstalled orderly.own orderly.one (named pkg here) (named pkg' there)
    (holds pkg here) (holds pkg' there)

/-- The dependencies of the installed packages hold then. -/
theorem SolverContext.Finished.leavesClosed (fresh : ∀ call ∈ s.calls, ctx.FreshSafe call)
    (closed : ctx.Closed ctx.installedSet) : ctx'.Closed ctx'.installedSet := by
  rw [closed_graph graph, finished.installedSet_eq graph records]
  exact finished.closed orderly.own orderly.one orderly.index.complete fresh closed

end Made

/-- **A commit that returns 0**, of a finished plan. -/
theorem commit_finished {s : State} {asked : List Dependency} {files files' : ConfigFiles}
    (orderly : (env.context db).Orderly) (finished : (env.context db).Finished s)
    (met : ∀ dep ∈ asked, (env.context db).Met s dep) (deep : 0 < fuel)
    (committed : env.commit zlib fuel db s files = some (0, after, files')) :
    env.Sound fuel db s asked after := by
  obtain ⟨depth, rfl⟩ : ∃ depth, fuel = depth + 1 := ⟨fuel - 1, (Nat.sub_add_cancel deep).symm⟩
  have idle : ∀ r, env.updateState r db files = some (0, after, files') →
      env.MakesNone (depth + 1) db s → env.Sound (depth + 1) db s asked after := by
    intro r updated none
    obtain ⟨-, ended, records⟩ := updateState_graph updated
    have graph : SameGraph (env.context db).db (env.context after).db := ended
    exact ⟨orderly.same graph records, fun _ closed => closed.same graph records,
      .inr ⟨none, records⟩⟩
  unfold CommitEnv.commit at committed
  cases planned : (env.context db).planLoop (depth + 1) (depth + 1) 0 {} s with
  | error fault =>
      rw [planned] at committed
      cases committed
  | ok plan =>
      obtain ⟨counts, s'⟩ := plan
      rw [planned] at committed
      dsimp only at committed
      obtain ⟨finished', goes⟩ := planLoop_finished rfl orderly.one orderly.index finished planned
      split at committed
      case isTrue holds =>
        split at committed
        · cases committed
        · exact idle 0 committed (.inr ⟨counts, s', planned, holds⟩)
      case isFalse =>
        split at committed
        · cases committed
        obtain ⟨⟨r, middle⟩, changed, updated⟩ := Option.bind_eq_some_iff.mp committed
        obtain ⟨rfl, ended, records2⟩ := updateState_graph updated
        by_cases simulated : env.install.flags.simulate = true
        · rw [commitChanges_simulated simulated] at changed
          cases changed
          exact idle 0 updated (.inl simulated)
        · obtain ⟨made, records1⟩ := commitChanges_applied
            (Bool.eq_false_of_not_eq_true simulated) (fun change member pkg new => by
              obtain ⟨name, listed⟩ := finished'.chosen_listed change member pkg new
              exact orderly.own.lt_size listed) changed
          have graph : SameGraph (env.context db).db (env.context after).db := made.trans ended
          have records : ∀ pkg, (env.context after).db.HasRecord pkg ↔
              applyChanges s'.changes (env.context db).db.HasRecord pkg :=
            fun pkg => (records2 pkg).trans (records1 pkg)
          refine ⟨finished'.leavesOrderly orderly graph records, ?_, .inl ?_⟩
          · intro fresh closed
            exact finished'.leavesClosed orderly graph records (goes.fresh fresh) closed
          · intro dep member
            exact finished'.satisfied orderly graph records (goes.met (met dep member))

end Commit

end AriannaLinux.Apk
