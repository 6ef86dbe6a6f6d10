import AriannaLinux.Apk.Install.Registered

/-! # Running the triggers

`apk_db_run_triggers` goes through the directories and adds each one to the pending triggers
of the packages that it fires, and then runs the trigger script of the packages with pending
ones. Together this is one call for each package on the list of triggers that a directory
fires, in the order of the list, with the directories in the order of their table
(`installs_runTriggers`).
-/

namespace AriannaLinux.Apk

/-- `dir->rooted_name`, as a C string. -/
def Dir.rootedName (dir : Dir) : Bytes := ascii '/' :: cString dir.name

namespace Database

/-- `fnmatch (pattern, string, FNM_PATHNAME) == 0`. -/
abbrev Fnmatch := Bytes → Bytes → Bool

section Model

variable (fnmatch : Fnmatch) (env : RootEnv) (flags : Flags)

/-- `fire_triggers`: a directory fires a package. The first trigger that matches ends the
loop. -/
def triggerFires (dir : Dir) (ipkg : InstalledPackage) : Bool :=
  (ipkg.runAllTriggers || dir.flags.modified) &&
    ipkg.triggers.any fun trigger =>
      trigger.head? = some (ascii '/') && fnmatch trigger dir.rootedName

/-- The pending triggers of a package are rewritten. -/
def modifyPending (db : Database) (ipkg : IpkgId) (f : List Bytes → List Bytes) : Database :=
  { db with ipkgs := db.ipkgs.modify ipkg fun ip =>
      { ip with pendingTriggers := f ip.pendingTriggers } }

/-- `fire_triggers`, a package. The place holder for the name of the script is left out of the
pending triggers. -/
def fireTrigger (dir : Dir) (db : Database) (ipkg : IpkgId) : Database :=
  if triggerFires fnmatch dir (db.ipkgs.get ipkg) then
    db.modifyPending ipkg fun pending => pending ++ [dir.rootedName]
  else db

/-- `fire_triggers`. -/
def fireTriggers (db : Database) (dir : DirId) : Database :=
  db.installedTriggers.foldl (fireTrigger fnmatch (db.dirs.get dir)) db

/-- `apk_db_run_triggers`, a package. -/
def runPendingTriggers (db : Database) (ipkg : IpkgId) : Database :=
  let pending := (db.ipkgs.get ipkg).pendingTriggers
  if pending = [] then db
  else
    let (_, db) := db.runScript env flags ipkg .trigger pending
    db.modifyPending ipkg fun _ => []

/-- `apk_db_run_triggers`. -/
def runTriggers (db : Database) : Database :=
  let db := db.installedDirs.items.foldl (fireTriggers fnmatch) db
  db.installedTriggers.foldl (runPendingTriggers env flags) db

/-! ## What is to be run -/

/-- The call that runs a script of a package, if there is one to run. -/
def scriptCall (db : Database) (ipkg : IpkgId) (type : ScriptType) (args : List Bytes) :
    Option RootCall :=
  if flags.simulate then none
  else
    ((db.ipkgs.get ipkg).script type).map fun content =>
      let pkg := (db.ipkgs.get ipkg).pkg
      .script (pathBuffer (text "var/cache/misc/" ++ db.pkgName pkg ++ text "-" ++
        ((db.pkgs.get pkg).version).getD [] ++ text "." ++ type.name)) content (type.name :: args)

/-- The directories that fire a package, in the order of their table. -/
def firingDirs (db : Database) (ipkg : IpkgId) : List Bytes :=
  ((db.installedDirs.items.map db.dirs.get).filter fun dir =>
    triggerFires fnmatch dir (db.ipkgs.get ipkg)).map Dir.rootedName

/-- The call for a package on the list of triggers: its trigger script, with the directories
that fire it. -/
def triggerCall (db : Database) (ipkg : IpkgId) : Option RootCall :=
  if db.firingDirs fnmatch ipkg = [] then none
  else db.scriptCall flags ipkg .trigger (db.firingDirs fnmatch ipkg)

/-- Nothing was made but calls on the tree, oldest first. -/
def calling (db : Database) (calls : List RootCall) : Database :=
  { db with rootCalls := calls.reverse ++ db.rootCalls }

/-- The triggers are run: nothing happens but one call for each package that is fired. -/
def TriggersRun (db after : Database) : Prop :=
  after = db.calling (db.installedTriggers.filterMap (db.triggerCall fnmatch flags))

end Model

/-- No triggers are pending, and no package is linked twice. -/
structure Quiet (db : Database) : Prop where
  idle : ∀ ipkg, (db.ipkgs.get ipkg).pendingTriggers = []
  once : db.installedTriggers.Nodup

/-! ## Pending triggers -/

/-- The pending triggers are these, and everything else is as it is. -/
def withPending (db : Database) (pending : IpkgId → List Bytes) : Database :=
  { db with ipkgs := db.ipkgs.mapIdx fun ipkg ip => { ip with pendingTriggers := pending ipkg } }

variable {db : Database} {fnmatch : Fnmatch} {env : RootEnv} {flags : Flags}
  {pending : IpkgId → List Bytes}

/-- Nothing is pending of what is no record. -/
def Inside (db : Database) (pending : IpkgId → List Bytes) : Prop :=
  ∀ ipkg, db.ipkgs.size ≤ ipkg → pending ipkg = []

theorem get_withPending (inside : db.Inside pending) (ipkg : IpkgId) :
    (db.withPending pending).ipkgs.get ipkg =
      { db.ipkgs.get ipkg with pendingTriggers := pending ipkg } := by
  rcases Nat.lt_or_ge ipkg db.ipkgs.size with here | outside
  · exact Arena.get_mapIdx _ _ here
  · have mapped : (db.withPending pending).ipkgs.size ≤ ipkg := by
      rw [withPending, Arena.size_mapIdx]
      exact outside
    rw [Arena.get_of_size_le _ mapped, Arena.get_of_size_le _ outside, inside ipkg outside]
    rfl

theorem withPending_congr {other : IpkgId → List Bytes}
    (same : ∀ ipkg < db.ipkgs.size, pending ipkg = other ipkg) :
    db.withPending pending = db.withPending other := by
  have mapped := db.ipkgs.mapIdx_congr
    (f := fun ipkg ip => { ip with pendingTriggers := pending ipkg })
    (g := fun ipkg ip => { ip with pendingTriggers := other ipkg })
    fun ipkg here => by rw [same ipkg here]
  rw [withPending, withPending, mapped]

theorem withPending_self (same : ∀ ipkg, (db.ipkgs.get ipkg).pendingTriggers = pending ipkg) :
    db.withPending pending = db := by
  have mapped := db.ipkgs.mapIdx_id
    (f := fun ipkg ip => { ip with pendingTriggers := pending ipkg })
    fun ipkg _ => by rw [← same ipkg]
  rw [withPending, mapped]

/-- The pending triggers of one package are rewritten. -/
theorem withPending_modify (db : Database) (pending : IpkgId → List Bytes) (ipkg : IpkgId)
    (f : List Bytes → List Bytes) :
    (db.withPending pending).modifyPending ipkg f =
      db.withPending (Function.update pending ipkg (f (pending ipkg))) := by
  unfold withPending modifyPending
  dsimp only
  rw [Arena.modify_mapIdx]
  congr 2
  funext other ip
  by_cases same : ipkg = other
  · subst same
    simp
  · simp [same, Ne.symm same]

/-! ## Firing -/

/-- What a directory adds to the pending triggers of a package. -/
def firedBy (fnmatch : Fnmatch) (dir : Dir) (ip : InstalledPackage) : List Bytes :=
  if triggerFires fnmatch dir ip then [dir.rootedName] else []

theorem firedBy_default (fnmatch : Fnmatch) (dir : Dir) : firedBy fnmatch dir default = [] := by
  have never : triggerFires fnmatch dir default = false := Bool.and_false _
  rw [firedBy, never, if_neg Bool.false_ne_true]

theorem fireTrigger_withPending (inside : db.Inside pending) (dir : Dir) (ipkg : IpkgId) :
    fireTrigger fnmatch dir (db.withPending pending) ipkg =
      db.withPending (Function.update pending ipkg
        (pending ipkg ++ firedBy fnmatch dir (db.ipkgs.get ipkg))) := by
  unfold fireTrigger firedBy
  have same : triggerFires fnmatch dir ((db.withPending pending).ipkgs.get ipkg) =
      triggerFires fnmatch dir (db.ipkgs.get ipkg) := by
    rw [get_withPending inside]
    rfl
  rw [same]
  split
  · exact db.withPending_modify pending ipkg fun old => old ++ [dir.rootedName]
  · rw [List.append_nil, Function.update_eq_self]

theorem Inside.update (inside : db.Inside pending) {ipkg : IpkgId} {added : List Bytes}
    (outside : db.ipkgs.size ≤ ipkg → added = []) :
    db.Inside (Function.update pending ipkg added) := by
  intro other beyond
  by_cases same : other = ipkg
  · subst same
    rw [Function.update_self]
    exact outside beyond
  · rw [Function.update_of_ne same]
    exact inside other beyond

/-- What is not a record is not fired. -/
theorem Inside.fired (inside : db.Inside pending) (dir : Dir) {ipkg : IpkgId}
    (outside : db.ipkgs.size ≤ ipkg) :
    pending ipkg ++ firedBy fnmatch dir (db.ipkgs.get ipkg) = [] := by
  rw [inside ipkg outside, Arena.get_of_size_le _ outside, firedBy_default]
  rfl

/-- The loop of `fire_triggers`: every package of the list is looked at once. -/
theorem foldl_fireTrigger (dir : Dir) {ipkgs : List IpkgId} (once : ipkgs.Nodup)
    (inside : db.Inside pending) :
    ipkgs.foldl (fireTrigger fnmatch dir) (db.withPending pending) =
      db.withPending fun ipkg =>
        if ipkg ∈ ipkgs then pending ipkg ++ firedBy fnmatch dir (db.ipkgs.get ipkg)
        else pending ipkg := by
  induction ipkgs generalizing pending with
  | nil => simp
  | cons first ipkgs ih =>
      obtain ⟨absent, once⟩ := List.nodup_cons.mp once
      rw [List.foldl_cons, fireTrigger_withPending inside, ih once (inside.update (inside.fired dir))]
      congr 1
      funext ipkg
      by_cases same : ipkg = first
      · subst same
        simp [absent]
      · simp [same]

theorem fireTriggers_withPending (once : db.installedTriggers.Nodup) (inside : db.Inside pending)
    (dir : DirId) :
    fireTriggers fnmatch (db.withPending pending) dir =
      db.withPending fun ipkg =>
        if ipkg ∈ db.installedTriggers then
          pending ipkg ++ firedBy fnmatch (db.dirs.get dir) (db.ipkgs.get ipkg)
        else pending ipkg :=
  foldl_fireTrigger (db.dirs.get dir) once inside

variable (fnmatch) in
/-- The first loop of `apk_db_run_triggers`, over the directories. -/
theorem foldl_fireTriggers (once : db.installedTriggers.Nodup) (dirs : List DirId)
    (inside : db.Inside pending) :
    dirs.foldl (fireTriggers fnmatch) (db.withPending pending) =
      db.withPending fun ipkg =>
        if ipkg ∈ db.installedTriggers then
          pending ipkg ++ ((dirs.map db.dirs.get).filter fun dir =>
            triggerFires fnmatch dir (db.ipkgs.get ipkg)).map Dir.rootedName
        else pending ipkg := by
  induction dirs generalizing pending with
  | nil => simp
  | cons dir dirs ih =>
      rw [List.foldl_cons, fireTriggers_withPending once inside]
      rw [ih]
      · congr 1
        funext ipkg
        split
        · rw [List.append_assoc]
          congr 1
          unfold firedBy
          rw [List.map_cons, List.filter_cons]
          split <;> rfl
        · rfl
      · intro ipkg outside
        dsimp only
        split
        · exact inside.fired _ outside
        · exact inside ipkg outside

/-! ## Running -/

/-- Running a script makes its call, if there is one. -/
theorem runScript_calling (db : Database) (ipkg : IpkgId) (type : ScriptType) (args : List Bytes) :
    (db.runScript env flags ipkg type args).2 =
      db.calling (db.scriptCall flags ipkg type args).toList := by
  unfold runScript scriptCall
  cases (db.ipkgs.get ipkg).script type with
  | none =>
      dsimp only
      split <;> rfl
  | some content =>
      dsimp only
      split <;> rfl

theorem calling_calling (db : Database) (first second : List RootCall) :
    (db.calling first).calling second = db.calling (first ++ second) := by
  simp [calling]

theorem scriptCall_withPending (inside : db.Inside pending) (ipkg : IpkgId) (type : ScriptType)
    (args : List Bytes) :
    (db.withPending pending).scriptCall flags ipkg type args =
      db.scriptCall flags ipkg type args := by
  unfold scriptCall
  rw [get_withPending inside]
  rfl

/-- What is run for a package when its pending triggers are these. -/
def pendingCall (flags : Flags) (db : Database) (pending : IpkgId → List Bytes) (ipkg : IpkgId) :
    Option RootCall :=
  if pending ipkg = [] then none else db.scriptCall flags ipkg .trigger (pending ipkg)

theorem runPendingTriggers_withPending (inside : db.Inside pending) (ipkg : IpkgId) :
    runPendingTriggers env flags (db.withPending pending) ipkg =
      (db.calling (pendingCall flags db pending ipkg).toList).withPending
        (Function.update pending ipkg []) := by
  unfold runPendingTriggers pendingCall
  rw [get_withPending inside]
  dsimp only
  split
  case isTrue none =>
    rw [← none, Function.update_eq_self]
    rfl
  case isFalse =>
    rw [runScript_calling, scriptCall_withPending inside]
    exact (db.calling _).withPending_modify pending ipkg fun _ => []

theorem pendingCall_calling (calls : List RootCall) (ipkg : IpkgId) :
    pendingCall flags (db.calling calls) pending ipkg = pendingCall flags db pending ipkg := rfl

variable (env flags) in
/-- The second loop of `apk_db_run_triggers`. -/
theorem foldl_runPendingTriggers {ipkgs : List IpkgId} (once : ipkgs.Nodup)
    (inside : db.Inside pending) :
    ipkgs.foldl (runPendingTriggers env flags) (db.withPending pending) =
      (db.calling (ipkgs.filterMap (pendingCall flags db pending))).withPending fun ipkg =>
        if ipkg ∈ ipkgs then [] else pending ipkg := by
  induction ipkgs generalizing db pending with
  | nil => simp [calling]
  | cons first ipkgs ih =>
      obtain ⟨absent, once⟩ := List.nodup_cons.mp once
      have later : ∀ ipkg ∈ ipkgs, pendingCall flags db (Function.update pending first []) ipkg =
          pendingCall flags db pending ipkg := by
        intro ipkg member
        have other : ipkg ≠ first := fun same => absent (same ▸ member)
        unfold pendingCall
        rw [Function.update_of_ne other]
      have within : (db.calling (pendingCall flags db pending first).toList).Inside
          (Function.update pending first []) := inside.update fun _ => rfl
      rw [List.foldl_cons, runPendingTriggers_withPending inside, ih once within, calling_calling]
      have calls : (pendingCall flags db pending first).toList ++
          ipkgs.filterMap (pendingCall flags
            (db.calling (pendingCall flags db pending first).toList)
              (Function.update pending first [])) =
          (first :: ipkgs).filterMap (pendingCall flags db pending) := by
        rw [List.filterMap_cons]
        have same : ipkgs.filterMap (pendingCall flags
            (db.calling (pendingCall flags db pending first).toList)
              (Function.update pending first [])) =
            ipkgs.filterMap (pendingCall flags db pending) :=
          List.filterMap_congr later
        rw [same]
        cases pendingCall flags db pending first <;> rfl
      rw [calls]
      congr 1
      funext ipkg
      by_cases same : ipkg = first
      · simp [same]
      · simp [same]

theorem firingDirs_of_outside {ipkg : IpkgId} (outside : db.ipkgs.size ≤ ipkg) :
    db.firingDirs fnmatch ipkg = [] := by
  unfold firingDirs
  rw [Arena.get_of_size_le _ outside]
  have never : ∀ dir : Dir, triggerFires fnmatch dir default = false := fun _ => Bool.and_false _
  simp only [never, List.filter_false, List.map_nil]

/-- **The triggers are run.** -/
theorem Quiet.runTriggers (quiet : db.Quiet) :
    db.TriggersRun fnmatch flags (db.runTriggers fnmatch env flags) := by
  let fired : IpkgId → List Bytes := fun ipkg =>
    if ipkg ∈ db.installedTriggers then db.firingDirs fnmatch ipkg else []
  have within : db.Inside fired := by
    intro ipkg outside
    change (if _ then _ else _) = _
    rw [firingDirs_of_outside outside, ite_self]
  have fires : db.installedDirs.items.foldl (fireTriggers fnmatch) db = db.withPending fired := by
    have empty : db.Inside fun _ => [] := fun _ _ => rfl
    have loop := foldl_fireTriggers fnmatch quiet.once db.installedDirs.items empty
    rw [withPending_self quiet.idle] at loop
    exact loop
  have calls : db.installedTriggers.filterMap (pendingCall flags db fired) =
      db.installedTriggers.filterMap (db.triggerCall fnmatch flags) := by
    apply List.filterMap_congr
    intro ipkg member
    have here : fired ipkg = db.firingDirs fnmatch ipkg := if_pos member
    unfold pendingCall triggerCall
    rw [here]
  have runs := foldl_runPendingTriggers env flags quiet.once within
  unfold Database.runTriggers TriggersRun
  dsimp only
  rw [fires]
  change db.installedTriggers.foldl (runPendingTriggers env flags) (db.withPending fired) = _
  rw [runs, calls]
  apply withPending_self
  intro ipkg
  by_cases member : ipkg ∈ db.installedTriggers
  · rw [if_pos member]
    exact quiet.idle ipkg
  · rw [if_neg member]
    exact (quiet.idle ipkg).trans (if_neg member).symm

/-! ## Operations keep the triggers quiet -/

theorem Quiet.same {after : Database} (quiet : db.Quiet) (same : SamePackages db after) :
    after.Quiet where
  idle ipkg := (same.pending ipkg).trans (quiet.idle ipkg)
  once := same.linkedOnce quiet.once

theorem Quiet.pkgInstall (quiet : db.Quiet) (pkg : PkgId) : (db.pkgInstall pkg).1.Quiet := by
  have idle : ∀ ipkg, ((db.ipkgs.alloc { pkg }).get ipkg).pendingTriggers = [] := by
    intro ipkg
    rw [Arena.get_alloc]
    split
    · rfl
    · exact quiet.idle ipkg
  unfold Database.pkgInstall
  split
  · exact quiet
  · dsimp only
    split
    · exact ⟨idle, quiet.once⟩
    · exact ⟨idle, quiet.once⟩

theorem Quiet.pkgUninstall (quiet : db.Quiet) (pkg : PkgId) : (db.pkgUninstall true pkg).Quiet := by
  unfold Database.pkgUninstall
  split
  · exact quiet
  · refine ⟨quiet.idle, ?_⟩
    dsimp only
    split
    · exact quiet.once.erase _
    · exact quiet.once

theorem Quiet.prepareIpkg (quiet : db.Quiet) (newpkg : PkgId) : (db.prepareIpkg newpkg).1.Quiet := by
  have installed := quiet.pkgInstall newpkg
  unfold Database.prepareIpkg
  refine ⟨?_, ?_⟩
  · intro ipkg
    have same := Arena.get_modify_field InstalledPackage.pendingTriggers
      (db.pkgInstall newpkg).1.ipkgs (db.pkgInstall newpkg).2 ipkg
      (fun ip => { ip with runAllTriggers := true, triggers := [] }) fun _ => rfl
    exact same.trans (installed.idle ipkg)
  · dsimp only
    split
    · exact installed.once.erase _
    · exact installed.once

end Database

section Operations

variable {Key : Type*}

open Database

theorem quietRule (oldpkg newpkg : Option PkgId) : OperationRule Quiet oldpkg newpkg where
  same _ _ same quiet := quiet.same same
  prepare _ pkg _ quiet := quiet.prepareIpkg pkg
  uninstall _ pkg _ quiet := quiet.pkgUninstall pkg

theorem linkTriggers_samePackages (db : Database) (ipkg : IpkgId) :
    SamePackages db (db.linkTriggers ipkg) := by
  have once : db.installedTriggers.Nodup → (db.linkTriggers ipkg).installedTriggers.Nodup :=
    nodup_linkTriggers
  unfold linkTriggers at once ⊢
  split
  case isTrue unlinked =>
    rw [if_pos unlinked] at once
    exact { SamePackages.refl db with linkedOnce := once }
  case isFalse => exact .refl db

/-- Reading saved triggers changes the triggers of the packages and their list only. -/
theorem triggersReadLine_samePackages (db : Database) (csum : Checksum) (line : Bytes) :
    SamePackages db (db.triggersReadLine csum line).1 := by
  unfold triggersReadLine
  dsimp only
  split
  · exact .refl db
  · refine SamePackages.trans ?_ (linkTriggers_samePackages _ _)
    refine forEachSegment_keeps (P := SamePackages db) ?_ (.refl db)
    intro middle trigger same
    unfold parseTriggers
    split
    · exact same
    · exact same.ipkgs_modify _ _ (fun _ => rfl) fun _ => rfl

theorem Database.Quiet.triggersRead {db : Database} (quiet : db.Quiet) (csum : Checksum)
    (lines : List Bytes) : (db.triggersRead csum lines).Quiet := by
  unfold Database.triggersRead
  refine List.foldlRecOn (motive := fun out : Database × Checksum => out.1.Quiet) lines _ quiet ?_
  intro out quiet line _
  exact quiet.same (triggersReadLine_samePackages out.1 out.2 line)

/-- **Running the triggers.** The saved triggers were read, and then operations succeeded or
failed; no line of meta information took all the triggers of a package away. The packages on the
list are the installed ones that have triggers, and nothing happens but one call for each of them
that has a trigger script and that some directory fires, in the order of the list and with the
directories in the order of their table. -/
theorem installs_runTriggers (zlib : Zlib) (fuel : ℕ) (db final : Database) (csum : Checksum)
    (lines : List Bytes) (ops : List (InstallOp Key)) (opened : db.Untriggered)
    (idle : ∀ ipkg, (db.ipkgs.get ipkg).pendingTriggers = [])
    (keeps : Guarded (installAttempt zlib fuel) (InstallsKeepTriggers zlib fuel)
      (db.triggersRead csum lines) ops)
    (reached : run (installAttempt zlib fuel) (db.triggersRead csum lines) ops = some final)
    (fnmatch : Fnmatch) (env : RootEnv) (flags : Flags) :
    TriggersMatch final ∧ final.TriggersRun fnmatch flags (final.runTriggers fnmatch env flags) := by
  have step : ∀ db (op : InstallOp Key) after, TriggersLinked db ∧ db.Quiet → InstallsKeepTriggers zlib fuel db op →
      installAttempt zlib fuel db op = some after → TriggersLinked after ∧ after.Quiet := by
    intro db op after ⟨linked, quiet⟩ keeps attempted
    refine ⟨linked.installAttempt keeps attempted, ?_⟩
    unfold installAttempt at attempted
    split at attempted
    case isFalse => cases attempted
    obtain ⟨⟨r, last⟩, installed, rfl⟩ := Option.map_eq_some_iff.mp attempted
    exact (quietRule op.oldpkg op.newpkg).installPkg quiet installed
  have begun : db.Quiet := ⟨idle, opened.linked.nodup⟩
  obtain ⟨linked, quiet⟩ := keeps.invariant (fun db => TriggersLinked db ∧ db.Quiet) step
    ⟨opened.linked.triggersRead csum lines, begun.triggersRead csum lines⟩ reached
  exact ⟨linked.matched, quiet.runTriggers⟩

end Operations

/-- A package with a trigger is installed, and the triggers are run. -/
theorem installs_runTriggers_oneTrigger :
    ∃ final, run (installAttempt storedZlib 10) ((archivePackage oneTrigger).triggersRead .zero [])
        [archiveInstall oneTrigger] = some final ∧
      Database.TriggersMatch final ∧
      final.TriggersRun (fun pattern name => pattern == name) {} (final.runTriggers
        (fun pattern name => pattern == name) (archiveInstall oneTrigger).env.root {}) := by
  have ends : (run (installAttempt storedZlib 10)
      ((archivePackage oneTrigger).triggersRead .zero []) [archiveInstall oneTrigger]).isSome := by
    decide +kernel
  obtain ⟨final, reached⟩ := Option.isSome_iff_exists.mp ends
  have keeps : InstallsKeepTriggers storedZlib 10
      ((archivePackage oneTrigger).triggersRead .zero []) (archiveInstall oneTrigger) := by
    intro newpkg named _ bs opened
    cases named
    cases opened
    exact .of_isSome (by decide +kernel)
  have idle : ∀ ipkg, ((archivePackage oneTrigger).ipkgs.get ipkg).pendingTriggers = [] := by
    intro ipkg
    cases ipkg <;> rfl
  exact ⟨final, reached, installs_runTriggers storedZlib 10 (archivePackage oneTrigger) final .zero
    [] [archiveInstall oneTrigger] (.archivePackage oneTrigger) idle ⟨keeps, fun _ _ => trivial⟩
    reached _ _ _⟩

end AriannaLinux.Apk
