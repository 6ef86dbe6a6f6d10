import Mathlib.Logic.Function.Basic
import AriannaLinux.Apk.Database

/-! # The dependency solver

`state.c` locks names to packages. Locking a name visits the packages that depend on
it and the dependencies of the package, and each of these visits may lock further
names. The mutual recursion is broken at `apk_state_lock_name`, whose number of nested
activations is bounded by a fuel; every function below it takes the function it calls
back as an argument.
-/

namespace AriannaLinux.Apk

/-- An `apk_name_state_t`. The candidates' own reference count is always one, since
states are shared and never copied. -/
inductive NameState where
  | empty
  | choices (pkgs : List PkgId)
  | locked (pkg : Option PkgId) (pending error : Bool)
  deriving DecidableEq, Repr

/-- `struct apk_change`. -/
structure Change where
  oldpkg : Option PkgId
  newpkg : Option PkgId
  deriving DecidableEq, Repr

/-- One activation of `apk_state_lock_name`, with the names as it found them. -/
structure LockCall where
  name : NameId
  newpkg : Option PkgId
  found : NameId → NameState

/-- `struct apk_state`. The calls, newest first, are a history that no function reads. -/
structure State where
  name : NameId → NameState := fun _ => .empty
  changes : List Change := []
  conflicts : List PkgId := []
  missing : List NameId := []
  calls : List LockCall := []

/-- What does not change while names are locked: `state->db`, `state->num_names`,
`apk_flags`, and which package files the cache directory holds. -/
structure SolverContext where
  db : Database
  numNames : ℕ
  flags : Flags := {}
  cached : Package → Bool := fun _ => false

/-- Why a call does not return: its recursion is deeper than the fuel, or it follows a
NULL or stray pointer. -/
inductive SolverFault where
  | outOfFuel
  | badPointer
  deriving DecidableEq, Repr

/-- What a function of the solver returns, and the state it leaves. -/
abbrev SolverResult := Except SolverFault (ℤ × State)

namespace State

/-- An assignment to `state->name[id]`. -/
def setName (s : State) (name : NameId) (value : NameState) : State :=
  { s with name := Function.update s.name name value }

end State

/-- `ns_to_pkg`. -/
def nsToPkg : NameState → Option PkgId
  | .locked pkg _ _ => pkg
  | _ => none

/-- The loop that removes candidates: a removed one is replaced by the last one. -/
def pruneChoicesLoop (keep : PkgId → Bool) : ℕ → List PkgId → List PkgId
  | 0, _ => []
  | _, [] => []
  | num + 1, pkg :: pkgs =>
      if keep pkg then pkg :: pruneChoicesLoop keep num pkgs
      else
        match pkgs.getLast? with
        | none => []
        | some last => pruneChoicesLoop keep num (last :: pkgs.dropLast)

/-- The candidates that pass a test. -/
def pruneChoices (keep : PkgId → Bool) (pkgs : List PkgId) : List PkgId :=
  pruneChoicesLoop keep pkgs.length pkgs

namespace SolverContext

variable (ctx : SolverContext)

/-- `struct apk_package` behind a pointer. -/
abbrev pkg (pkg : PkgId) : Package := ctx.db.pkgs.get pkg

/-- The version of a package is one that a dependency asks for. -/
def versionMatches (dep : Dependency) (pkg : PkgId) : Bool :=
  versionCompare (ctx.pkg pkg).version dep.version &&& dep.resultMask ≠ 0

/-- `apk_db_select_repo`: NULL, the cache pseudo repository, or a repository. -/
def selectRepo (pkg : Package) : Option (Option ℕ) :=
  let repos := pkg.repos &&& ~~~ ctx.db.badRepos
  let repos :=
    if repos &&& ctx.db.localRepos ≠ 0 then repos &&& ctx.db.localRepos else repos
  match (List.range 32).find? fun i => repos &&& ((1 : UInt32) <<< UInt32.ofNat i) ≠ 0 with
  | none => if ctx.cached pkg then some none else none
  | some i =>
      if ctx.db.localRepos &&& ((1 : UInt32) <<< UInt32.ofNat i) = 0 ∧ ctx.flags.noNetwork ∧
          ¬ ctx.cached pkg then none
      else some (some i)

/-- `apk_state_pkg_available`. -/
def pkgAvailable (pkg : PkgId) : Bool :=
  let p := ctx.pkg pkg
  p.ipkg ≠ none || p.installedSize = 0 || p.filename ≠ .null || (ctx.selectRepo p).isSome

/-- `name_choices_new`; the number of candidates is an `unsigned short`. -/
def nameChoicesNew (name : NameId) : Option (List PkgId) :=
  let n := ctx.db.names.get name
  if n.pkgs.length = 0 then none
  else
    let pkgs := n.pkgs.take (n.pkgs.length % 65536)
    let pkgs := pruneChoices (fun pkg => (ctx.pkg pkg).filename ≠ .uninstallable) pkgs
    if n.toplevelOverride then some pkgs
    else
      some (ctx.db.world.foldl (fun pkgs dep =>
        if dep.name ≠ name then pkgs else pruneChoices (ctx.versionMatches dep) pkgs) pkgs)

/-- `ns_from_choices` of `name_choices_new`. -/
def nsFromChoicesNew (name : NameId) : NameState :=
  match ctx.nameChoicesNew name with
  | none => .locked none true false
  | some pkgs => .choices pkgs

/-- `apk_state_prune_dependency` of a locked name. -/
def pruneLocked (s : State) (dep : Dependency) (pkg : Option PkgId) (pending error : Bool) :
    ℤ × State :=
  if error then (-1, s)
  else
    match pkg with
    | none =>
        if dep.resultMask ≠ depmaskConflict then
          if pending then
            (-1, { s.setName dep.name (.locked none false false) with
                missing := s.missing ++ [dep.name] })
          else (-1, s)
        else (if pending then 1 else 0, s)
    | some pkg =>
        if ¬ ctx.versionMatches dep pkg then (-1, s)
        else (if pending then 1 else 0, s)

/-- `apk_state_prune_dependency` of a name with candidates. -/
def pruneCandidates (s : State) (dep : Dependency) (pkgs : List PkgId) : ℤ × State :=
  let c := pruneChoices (ctx.versionMatches dep) pkgs
  let nothing : ℤ × State :=
    (-1, { s.setName dep.name (.locked none true false) with
        missing := s.missing ++ [dep.name] })
  match c with
  | [] => nothing
  | [pkg] =>
      if ctx.pkgAvailable pkg then (1, s.setName dep.name (.locked (some pkg) true false))
      else nothing
  | _ => (c.length, s.setName dep.name (.choices c))

/-- `apk_state_prune_dependency`. -/
def pruneDependency (s : State) (dep : Dependency) : ℤ × State :=
  if ctx.numNames ≤ dep.name then (-1, s)
  else if s.name dep.name = .empty ∧ dep.resultMask = depmaskConflict then
    (1, s.setName dep.name (.locked none true false))
  else
    let s :=
      if s.name dep.name = .empty then s.setName dep.name (ctx.nsFromChoicesNew dep.name) else s
    match s.name dep.name with
    | .locked pkg pending error => ctx.pruneLocked s dep pkg pending error
    | .choices pkgs => ctx.pruneCandidates s dep pkgs
    | .empty => (-1, s) -- it was filled just before

/-- Which of two candidates counts as the latest. -/
def laterCandidate (preferRepos : Bool) (latest pkg : PkgId) : PkgId :=
  let newer :=
    if versionCompare (ctx.pkg pkg).version (ctx.pkg latest).version = versionGreater then pkg
    else latest
  if preferRepos then
    if (ctx.pkg latest).repos ≠ 0 ∧ (ctx.pkg pkg).repos = 0 then latest
    else if (ctx.pkg latest).repos = 0 ∧ (ctx.pkg pkg).repos ≠ 0 then pkg
    else newer
  else newer

/-- The loop over the candidates: the installed one and the latest one so far. -/
def scanCandidates (preferRepos : Bool) :
    List PkgId → Option PkgId × Option PkgId → Option PkgId × Option PkgId
  | [], found => found
  | pkg :: pkgs, (installed, latest) =>
      let installed' := if (ctx.pkg pkg).ipkg ≠ none then some pkg else installed
      if (ctx.pkg pkg).ipkg = none ∧ ¬ ctx.pkgAvailable pkg then
        scanCandidates preferRepos pkgs (installed', latest)
      else
        match latest with
        | none => scanCandidates preferRepos pkgs (installed', some pkg)
        | some latest =>
            scanCandidates preferRepos pkgs
              (installed', some (ctx.laterCandidate preferRepos latest pkg))

/-- The candidate `apk_state_lock_dependency` uses. -/
def chooseCandidate (name : NameId) (pkgs : List PkgId) : Option PkgId :=
  let reinstall := (ctx.db.names.get name).reinstall
  let (installed, latest) :=
    ctx.scanCandidates (ctx.flags.preferAvailable || reinstall) pkgs (none, none)
  if ctx.flags.upgrade then latest
  else
    match installed with
    | some pkg => if (ctx.pkg pkg).repos ≠ 0 ∨ ¬ reinstall then some pkg else latest
    | none => latest

/-- `apk_state_lock_dependency`. -/
def lockDependencyWith (lockName : State → NameId → Option PkgId → SolverResult)
    (s : State) (dep : Dependency) : SolverResult :=
  let (r, s) := ctx.pruneDependency s dep
  if r ≤ 0 then .ok (r, s)
  else
    match s.name dep.name with
    | .locked pkg true _ => lockName s dep.name pkg
    | .choices pkgs =>
        match ctx.chooseCandidate dep.name pkgs with
        | none => .ok (-1, s)
        | some use => lockName s dep.name (some use)
    | _ => .error .badPointer

/-- The loop of `apk_state_fix_package`: a failure is remembered, and the dependencies
behind it are locked all the same. -/
def fixPackageLoop (lockDependency : State → Dependency → SolverResult) :
    List Dependency → ℤ → State → SolverResult
  | [], ret, s => .ok (ret, s)
  | dep :: depends, ret, s => do
      let (r, s) ← lockDependency s dep
      fixPackageLoop lockDependency depends (if r ≠ 0 then -1 else ret) s

/-- `apk_state_fix_package`. -/
def fixPackage (lockDependency : State → Dependency → SolverResult) (s : State)
    (pkg : Option PkgId) : SolverResult :=
  match pkg with
  | none => .ok (0, s)
  | some pkg => fixPackageLoop lockDependency (ctx.pkg pkg).depends 0 s

/-- A dependency holds for what its name is locked to. -/
def satisfiedBy (dep : Dependency) (pkg : Option PkgId) : Bool :=
  match pkg with
  | none => dep.resultMask = depmaskConflict
  | some pkg => ctx.versionMatches dep pkg

/-- `call_if_dependency_broke`. -/
def callIfDependencyBroke (cb : State → PkgId → Dependency → SolverResult) (s : State)
    (pkg : PkgId) (depName : NameId) : SolverResult :=
  let depPkg := nsToPkg (s.name depName)
  match (ctx.pkg pkg).depends.find? fun dep =>
      dep.name = depName && !ctx.satisfiedBy dep depPkg with
  | none => .ok (0, s)
  | some dep => cb s pkg dep

/-- The packages of a name that `for_each_broken_reverse_depency` looks at: the locked
one, or the first installed one. -/
def reversePackage (s : State) (name0 : NameId) : Option PkgId :=
  match s.name name0 with
  | .locked pkg _ _ => pkg
  | .choices pkgs => pkgs.find? fun pkg => (ctx.pkg pkg).ipkg ≠ none
  | .empty => (ctx.db.names.get name0).pkgs.find? fun pkg => (ctx.pkg pkg).ipkg ≠ none

/-- The loop of `for_each_broken_reverse_depency`. -/
def forEachBrokenReverseDependency (cb : State → PkgId → Dependency → SolverResult)
    (name : NameId) : List NameId → State → SolverResult
  | [], s => .ok (0, s)
  | name0 :: rdepends, s =>
      match ctx.reversePackage s name0 with
      | none => forEachBrokenReverseDependency cb name rdepends s
      | some pkg0 => do
          let (r, s) ← ctx.callIfDependencyBroke cb s pkg0 name
          if r ≠ 0 then .ok (r, s) else forEachBrokenReverseDependency cb name rdepends s

/-- `delete_broken_package`. -/
def deleteBrokenPackage (lockName : State → NameId → Option PkgId → SolverResult)
    (s : State) (pkg : PkgId) (_dep : Dependency) : SolverResult :=
  match (ctx.pkg pkg).name with
  | none => .error .badPointer
  | some name => lockName s name none

/-- `reinstall_broken_package`. -/
def reinstallBrokenPackage (lockDependency : State → Dependency → SolverResult)
    (s : State) (pkg : PkgId) (_dep : Dependency) : SolverResult :=
  match (ctx.pkg pkg).name with
  | none => .error .badPointer
  | some name => lockDependency s { name, resultMask := depmaskRequire, version := none }

/-- `apk_state_record_conflict`. -/
def recordConflict (s : State) (pkg : Option PkgId) : Except SolverFault State :=
  match pkg with
  | none => .error .badPointer
  | some pkg =>
      match (ctx.pkg pkg).name with
      | none => .error .badPointer
      | some name =>
          .ok { s.setName name (.locked (some pkg) false true) with
              conflicts := s.conflicts ++ [pkg] }

/-- The installed package `apk_state_lock_name` finds for a name. -/
def oldPackage (name : NameId) : Option PkgId :=
  ((ctx.db.names.get name).pkgs.filter fun pkg =>
    (ctx.pkg pkg).name = some name && (ctx.pkg pkg).ipkg ≠ none).getLast?

/-- The start of `apk_state_lock_name`. -/
def enterName (s : State) (name : NameId) (newpkg : Option PkgId) : State :=
  { s.setName name (.locked newpkg false false) with
    calls := ⟨name, newpkg, s.name⟩ :: s.calls }

/-- `apk_state_lock_name`: make sure the dependants of the old package still have their
dependencies ok. -/
def visitDependants (lockName : State → NameId → Option PkgId → SolverResult) (s : State)
    (name : NameId) (newpkg : Option PkgId) : SolverResult :=
  let rdepends := (ctx.db.names.get name).rdepends
  if ctx.oldPackage name = none then .ok (0, s)
  else if newpkg = none then
    ctx.forEachBrokenReverseDependency (ctx.deleteBrokenPackage lockName) name rdepends s
  else
    ctx.forEachBrokenReverseDependency
      (ctx.reinstallBrokenPackage (ctx.lockDependencyWith lockName)) name rdepends s

/-- `newpkg->name->flags & APK_NAME_REINSTALL`. -/
def reinstalled (newpkg : Option PkgId) : Bool :=
  match newpkg.bind fun pkg => (ctx.pkg pkg).name with
  | none => false
  | some name => (ctx.db.names.get name).reinstall

/-- The end of `apk_state_lock_name`: track a change unless the chosen package is
installed. -/
def trackChange (s : State) (oldpkg newpkg : Option PkgId) : SolverResult :=
  if oldpkg = newpkg ∧ (newpkg = none ∨ ¬ ctx.reinstalled newpkg) then .ok (0, s)
  else .ok (0, { s with changes := s.changes ++ [⟨oldpkg, newpkg⟩] })

/-- `apk_state_lock_name`, `fuel` activations deep. -/
def lockName : ℕ → State → NameId → Option PkgId → SolverResult
  | 0, _, _, _ => .error .outOfFuel
  | fuel + 1, s, name, newpkg =>
      if ctx.numNames ≤ name then .ok (-1, s)
      else do
        let (r, s) ← ctx.visitDependants (lockName fuel) (enterName s name newpkg) name newpkg
        if r ≠ 0 then do
          let s ← ctx.recordConflict s newpkg
          .ok (r, s)
        else do
          let (r, s) ← ctx.fixPackage (ctx.lockDependencyWith (lockName fuel)) s newpkg
          if r ≠ 0 then do
            let s ← ctx.recordConflict s newpkg
            .ok (r, s)
          else ctx.trackChange s (ctx.oldPackage name) newpkg

/-- `apk_state_lock_dependency`, `fuel` activations of `apk_state_lock_name` deep. -/
def lockDependency (fuel : ℕ) (s : State) (dep : Dependency) : SolverResult :=
  ctx.lockDependencyWith (ctx.lockName fuel) s dep

end SolverContext

/-- `apk_state_new`; the context of a state is that of the database. -/
def SolverContext.ofDatabase (db : Database) (flags : Flags) (cached : Package → Bool) :
    SolverContext :=
  { db, numNames := db.names.size, flags, cached }

end AriannaLinux.Apk
