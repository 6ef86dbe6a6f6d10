import Mathlib.Data.Int.Bitwise
import AriannaLinux.Apk.Commit
import AriannaLinux.Apk.Solver.Marks
import AriannaLinux.Apk.World

/-! # Adding, deleting and upgrading

The applets lock what they are asked for one dependency after another, mark names and edit the
world between two locks, and commit the plan unless a lock failed. When they return 0, what was
asked for holds among the installed packages: the dependencies that were added (`add_sound`),
the absence of what was deleted (`del_sound`) and every dependency of the world that has packages
(`upgrade_sound`); or the commit has made no change.
-/

namespace AriannaLinux.Apk

/-- A dependency that asks for no package of a name. -/
def conflictWith (name : NameId) : Dependency := ⟨name, depmaskConflict, none⟩

namespace Database

/-- `del_main`, an argument before the state is made. -/
def delName (db : Database) (arg : Bytes) : Database :=
  let (db, name) := db.getName arg
  { db with
    names := db.names.modify name fun n => { n with toplevel := false, toplevelOverride := true }
    world := depsDel name db.world }

/-- What `del_main` asks for. -/
def delAsked (db : Database) (args : List Bytes) : List Dependency :=
  args.map fun arg => conflictWith (db.getName arg).2

/-- What `upgrade_main` makes of a dependency of the world: with `APK_PREFER_AVAILABLE` any
version will do. -/
def upgradeDep (flags : Flags) (dep : Dependency) : Dependency :=
  if dep.version.isSome && flags.preferAvailable then
    { dep with resultMask := depmaskRequire, version := none }
  else dep

/-- What `upgrade_main` asks for: what the world asks for, of names with packages. -/
def upgradeAsked (flags : Flags) (db : Database) : List Dependency :=
  (db.world.map (upgradeDep flags)).filter fun dep => (db.names.get dep.name).pkgs ≠ []

end Database

namespace CommitEnv

variable {Key : Type*} (env : CommitEnv Key) (zlib : Zlib) (fuel : ℕ)

/-- `del_main`, the locks; the results are joined by `|=`. -/
def delLock : List Bytes → Database → State → ℤ → Except SolverFault (ℤ × Database × State)
  | [], db, s, r => .ok (r, db, s)
  | arg :: args, db, s, r => do
      let (db, name) := db.getName arg
      let (r', s) ← (env.context db).lockDependency fuel s (conflictWith name)
      delLock args db s (r.lor r')

/-- `del_main`. -/
def delMain (db : Database) (args : List Bytes) (files : ConfigFiles) :
    Option (ℤ × Database × ConfigFiles) :=
  let db := args.foldl Database.delName db
  match env.delLock fuel args db {} 0 with
  | .error _ => none
  | .ok (r, db, s) => if r = 0 then env.commit zlib fuel db s files else some (r, db, files)

/-- `upgrade_main`, the loop over the world from a position on. -/
def upgradeLock : ℕ → ℕ → Database → State → ℤ → Except SolverFault (ℤ × Database × State)
  | 0, _, db, s, r => .ok (r, db, s)
  | left + 1, i, db, s, r =>
      match db.world[i]? with
      | none => .ok (r, db, s)
      | some dep =>
          let dep := Database.upgradeDep env.install.flags dep
          let db := { db with world := db.world.set i dep }
          if (db.names.get dep.name).pkgs ≠ [] then do
            let (r', s) ← (env.context db).lockDependency fuel s dep
            upgradeLock left (i + 1) db s (r.lor r')
          else upgradeLock left (i + 1) db s r

/-- `apk_flags |= APK_UPGRADE`. -/
def upgrading : CommitEnv Key :=
  { env with install := { env.install with flags := { env.install.flags with upgrade := true } } }

/-- `upgrade_main`, without what it prints of names that have no packages. -/
def upgradeMain (db : Database) (files : ConfigFiles) : Option (ℤ × Database × ConfigFiles) :=
  let env := env.upgrading
  match env.upgradeLock fuel db.world.length 0 db {} 0 with
  | .error _ => none
  | .ok (r, db, s) => if r = 0 then env.commit zlib fuel db s files else some (r, db, files)

end CommitEnv

/-- Results joined by `|=` are 0 when all of them are. -/
theorem lor_eq_zero {r r' : ℤ} (joined : r.lor r' = 0) : r = 0 ∧ r' = 0 := by
  cases r with
  | ofNat m =>
      cases r' with
      | ofNat n =>
          have both : m ||| n = 0 := Int.ofNat_eq_zero.mp joined
          obtain ⟨left, right⟩ := Nat.or_eq_zero_iff.mp both
          exact ⟨congrArg Int.ofNat left, congrArg Int.ofNat right⟩
      | negSucc n => cases joined
  | negSucc m =>
      cases r' with
      | ofNat n => cases joined
      | negSucc n => cases joined

section Sound

variable {Key : Type*} {env : CommitEnv Key} {zlib : Zlib} {fuel : ℕ} {db after : Database}

open Database

theorem Database.SameLists.graph {db' : Database} (lists : SameLists db db') : SameGraph db db' where
  pkgs _ := by rw [lists.pkgs]
  size := by rw [lists.pkgs]
  listed := lists.listed
  rdepends := lists.rdepends

/-- A database whose names are marked is as orderly as before. -/
theorem Database.SameLists.orderly {db' : Database} (lists : SameLists db db')
    (orderly : (env.context db).Orderly) : (env.context db').Orderly := by
  have graph : SameGraph (env.context db).db (env.context db').db := lists.graph
  refine orderly.same graph fun pkg => ?_
  change db'.HasRecord pkg ↔ db.HasRecord pkg
  rw [HasRecord, HasRecord, lists.pkgs]

/-! ## Adding -/

/-- A mark on a name changes neither its text nor the table of names. -/
theorem queryName_mark (db : Database) (name : NameId) {f : Name → Name} (world : List Dependency)
    (same : ∀ n, (f n).name = n.name) (arg : Bytes) :
    ({ db with names := db.names.modify name f, world } : Database).queryName arg =
      db.queryName arg := by
  unfold queryName
  simp only [Arena.get_modify_field Name.name _ _ _ _ same]

theorem delName_lists (db : Database) (arg : Bytes) : SameLists db (db.delName arg) :=
  ((SameLists.refl db).getName arg).mark _ _ (fun _ => rfl) fun _ => rfl

/-- What `del_main` has looked up is found again. -/
theorem delName_found (filed : db.NamesFiled) {arg : Bytes} (free : 0 ∉ arg) :
    (db.delName arg).NamesFiled ∧ (∃ id, (db.delName arg).queryName arg = some id) ∧
      ∀ other id, db.queryName other = some id → (db.delName arg).queryName other = some id := by
  obtain ⟨filed', grow, found⟩ := getName_spec filed free
  have same : ∀ other, (db.delName arg).queryName other = (db.getName arg).1.queryName other :=
    queryName_mark (db.getName arg).1 (db.getName arg).2 _ fun _ => rfl
  refine ⟨?_, ⟨_, (same arg).trans found⟩, fun other id earlier => ?_⟩
  · intro n member
    exact (filed' n member).trans_eq (Arena.size_modify ..).symm
  · exact (same other).trans (grow.found other id earlier)

theorem foldl_delName {args : List Bytes} (filed : db.NamesFiled) (free : ∀ arg ∈ args, 0 ∉ arg) :
    SameLists db (args.foldl delName db) ∧
      (∀ arg ∈ args, ∃ id, (args.foldl delName db).queryName arg = some id) ∧
      ∀ other id, db.queryName other = some id →
        (args.foldl delName db).queryName other = some id := by
  induction args generalizing db with
  | nil => exact ⟨.refl db, fun _ member => absurd member List.not_mem_nil, fun _ _ found => found⟩
  | cons arg args ih =>
      obtain ⟨here, later⟩ := List.forall_mem_cons.mp free
      obtain ⟨filed', ⟨id, found⟩, kept⟩ := delName_found filed here
      obtain ⟨lists, all, keeps⟩ := ih filed' later
      rw [List.foldl_cons]
      refine ⟨(delName_lists db arg).trans lists, ?_, fun other id earlier =>
        keeps other id (kept other id earlier)⟩
      exact List.forall_mem_cons.mpr ⟨⟨id, keeps arg id found⟩, all⟩

/-- When no lock failed, the plan is for the absence of all names. -/
theorem delLock_planned {args : List Bytes} {asked : List Dependency} {db1 : Database} {s s' : State}
    {r : ℤ} (own : (env.context db).OwnPackages)
    (found : ∀ arg ∈ args, ∃ id, db.queryName arg = some id)
    (planned : r = 0 → (env.context db).Planned asked s)
    (locked : env.delLock fuel args db s r = .ok (0, db1, s')) :
    db1 = db ∧ (env.context db).Planned (asked ++ db.delAsked args) s' := by
  induction args generalizing asked s r with
  | nil =>
      cases locked
      rw [delAsked, List.map_nil, List.append_nil]
      exact ⟨rfl, planned rfl⟩
  | cons arg args ih =>
      obtain ⟨⟨id, here⟩, later⟩ := List.forall_mem_cons.mp found
      have looked := getName_of_found here
      rw [CommitEnv.delLock, looked] at locked
      dsimp only at locked
      obtain ⟨⟨r', s1⟩, called, rest⟩ := bind_eq_ok.mp locked
      have both : r.lor r' = 0 → (env.context db).Planned (asked ++ [conflictWith id]) s1 := by
        intro joined
        obtain ⟨before, zero⟩ := lor_eq_zero joined
        subst zero
        exact (planned before).lock own called
      obtain ⟨same, all⟩ := ih later both rest
      refine ⟨same, ?_⟩
      rw [List.append_assoc] at all
      rw [delAsked, List.map_cons, looked]
      exact all

/-- **Deleting.** No package of the names that were given is installed, unless the commit has made
no change. -/
theorem del_sound (env : CommitEnv Key) (zlib : Zlib) (fuel : ℕ) (db locked after : Database)
    (args : List Bytes) (r : ℤ) (s : State) (files files' : ConfigFiles)
    (orderly : (env.context db).Orderly) (filed : db.NamesFiled) (deep : 0 < fuel)
    (strings : ∀ arg ∈ args, 0 ∉ arg)
    (locks : env.delLock fuel args (args.foldl delName db) {} 0 = .ok (r, locked, s))
    (deleted : env.delMain zlib fuel db args files = some (0, after, files')) :
    env.Sound fuel locked s (locked.delAsked args) after := by
  obtain ⟨marks, found, -⟩ := foldl_delName filed strings
  have ready := marks.orderly orderly
  unfold CommitEnv.delMain at deleted
  dsimp only at deleted
  rw [locks] at deleted
  dsimp only at deleted
  split at deleted
  case isTrue zero =>
    subst zero
    obtain ⟨rfl, planned⟩ := delLock_planned ready.own found (fun _ => .new _) locks
    exact commit_finished ready planned.finished planned.met deep deleted
  case isFalse failed =>
    simp only [Option.some.injEq, Prod.mk.injEq] at deleted
    exact absurd deleted.1 failed

/-! ## Upgrading -/

/-- When no lock failed, the plan meets what the world asks for of names with packages. -/
theorem upgradeLock_planned {left i : ℕ} {asked : List Dependency} {db1 : Database}
    {s s' : State} {r : ℤ} (own : (env.context db).OwnPackages)
    (whole : i + left = db.world.length)
    (planned : r = 0 → (env.context db).Planned asked s)
    (locked : env.upgradeLock fuel left i db s r = .ok (0, db1, s')) :
    SameLists db db1 ∧ (env.context db1).Planned (asked ++
      (((db.world.drop i).map (upgradeDep env.install.flags)).filter fun dep =>
        (db.names.get dep.name).pkgs ≠ [])) s' := by
  induction left generalizing i db asked s r with
  | zero =>
      cases locked
      have all : db1.world.length ≤ i := Nat.le_of_eq whole.symm
      rw [List.drop_of_length_le all, List.map_nil, List.filter_nil,
        List.append_nil]
      exact ⟨.refl _, planned rfl⟩
  | succ left ih =>
      have inside : i < db.world.length := by omega
      have here := List.getElem?_eq_getElem inside
      have split := List.drop_eq_getElem_cons inside
      have behind : (db.world.set i (upgradeDep env.install.flags db.world[i])).drop (i + 1) =
          db.world.drop (i + 1) := List.drop_set_of_lt (Nat.lt_succ_self i)
      rw [CommitEnv.upgradeLock, here] at locked
      dsimp only at locked
      have lists : SameLists (env.context db).db (env.context { db with
          world := db.world.set i (upgradeDep env.install.flags db.world[i]) }).db :=
        ⟨rfl, fun _ => rfl, fun _ => rfl⟩
      have length : (i + 1) + left =
          (db.world.set i (upgradeDep env.install.flags db.world[i])).length := by
        rw [List.length_set]
        omega
      rw [split, List.map_cons, List.filter_cons]
      split at locked
      case isTrue has =>
        obtain ⟨⟨r', s1⟩, called, rest⟩ := bind_eq_ok.mp locked
        have both : r.lor r' = 0 → (env.context { db with
            world := db.world.set i (upgradeDep env.install.flags db.world[i]) }).Planned
              (asked ++ [upgradeDep env.install.flags db.world[i]]) s1 := by
          intro joined
          obtain ⟨before, zero⟩ := lor_eq_zero joined
          subst zero
          exact ((planned before).marked lists).lock (own.marked lists) called
        obtain ⟨later, all⟩ := ih (own.marked lists) length both rest
        refine ⟨lists.trans later, ?_⟩
        rw [if_pos (decide_eq_true has)]
        rw [List.append_assoc] at all
        simp only [behind] at all
        exact all
      case isFalse hasNone =>
        obtain ⟨later, all⟩ := ih (own.marked lists) length (fun zero => (planned zero).marked lists)
          locked
        refine ⟨lists.trans later, ?_⟩
        rw [if_neg (by simpa using hasNone)]
        simp only [behind] at all
        exact all

/-- **Upgrading.** What the world asks for of names with packages holds among the installed
packages, unless the commit has made no change. -/
theorem upgrade_sound (env : CommitEnv Key) (zlib : Zlib) (fuel : ℕ) (db locked after : Database)
    (r : ℤ) (s : State) (files files' : ConfigFiles)
    (orderly : (env.upgrading.context db).Orderly) (deep : 0 < fuel)
    (locks : env.upgrading.upgradeLock fuel db.world.length 0 db {} 0 = .ok (r, locked, s))
    (upgraded : env.upgradeMain zlib fuel db files = some (0, after, files')) :
    env.upgrading.Sound fuel locked s (db.upgradeAsked env.install.flags) after := by
  unfold CommitEnv.upgradeMain at upgraded
  dsimp only at upgraded
  rw [locks] at upgraded
  dsimp only at upgraded
  split at upgraded
  case isTrue zero =>
    subst zero
    obtain ⟨lists, planned⟩ := upgradeLock_planned orderly.own (Nat.zero_add _) (fun _ => .new _) locks
    exact commit_finished (lists.orderly orderly) planned.finished planned.met deep upgraded
  case isFalse failed =>
    simp only [Option.some.injEq, Prod.mk.injEq] at upgraded
    exact absurd upgraded.1 failed

end Sound

/-! ## Two packages -/

section Pair

open SolverContext

/-- Packages `q` and `x` without content; `q` needs `x`, and they are installed or not. -/
def pairDatabase (installed : Bool) (world : List Dependency) : Database :=
  { (((({} : Database).getName (text "q")).1).getName (text "x")).1 with
    names := ⟨[{ name := text "q", pkgs := [0] }, { name := text "x", pkgs := [1], rdepends := [0] }]⟩
    pkgs := ⟨[
      { name := some 0
        version := some (text "1")
        depends := [⟨1, depmaskRequire, none⟩]
        ipkg := if installed then some 0 else none },
      { name := some 1, version := some (text "1"), ipkg := if installed then some 1 else none }]⟩
    ipkgs := ⟨[{ pkg := 0 }, { pkg := 1 }]⟩
    installedPackages := if installed then [0, 1] else []
    world }

/-- Surroundings without a root directory: nothing is saved. -/
def pairEnv : CommitEnv Unit where
  install := archiveEnv oneTrigger
  save := ⟨false, false, fun _ => 0, fun _ => 0, 0⟩
  fnmatch _ _ := false
  cached _ := false
  interactive := false
  recursiveDelete := false
  answer := none

/-- No files of the configuration. -/
def noFiles : ConfigFiles := ⟨⟨none, 0⟩, ⟨none, 0⟩⟩

variable (installed : Bool) (world : List Dependency)

theorem pairDatabase_pkgs {name : NameId} {pkg : PkgId}
    (member : pkg ∈ ((pairDatabase installed world).names.get name).pkgs) :
    (name = 0 ∧ pkg = 0) ∨ (name = 1 ∧ pkg = 1) := by
  match name with
  | 0 => exact .inl ⟨rfl, List.mem_singleton.mp member⟩
  | 1 => exact .inr ⟨rfl, List.mem_singleton.mp member⟩
  | _ + 2 => cases member

theorem pairDatabase_orderly (env : CommitEnv Unit) :
    (env.context (pairDatabase installed world)).Orderly where
  own name pkg member := by
    obtain ⟨rfl, rfl⟩ | ⟨rfl, rfl⟩ := pairDatabase_pkgs installed world member
    · rfl
    · rfl
  one name pkg pkg' here there := by
    obtain ⟨named, rfl⟩ | ⟨named, rfl⟩ := pairDatabase_pkgs installed world here.1
    · obtain ⟨named', rfl⟩ | ⟨named', rfl⟩ := pairDatabase_pkgs installed world there.1
      · rfl
      · cases named.symm.trans named'
    · obtain ⟨named', rfl⟩ | ⟨named', rfl⟩ := pairDatabase_pkgs installed world there.1
      · cases named.symm.trans named'
      · rfl
  index name pkg member dep inside := by
    obtain ⟨rfl, rfl⟩ | ⟨rfl, rfl⟩ := pairDatabase_pkgs installed world member
    · rw [List.mem_singleton.mp inside]
      exact List.mem_singleton_self _
    · cases inside

theorem pairDatabase_namesFiled : (pairDatabase installed world).NamesFiled := by
  have first := Database.getName_spec Database.namesFiled_empty (by decide : 0 ∉ text "q")
  have second := Database.getName_spec first.1 (by decide : 0 ∉ text "x")
  exact second.1

/-- Deleting `q`, which leaves `x` an orphan. -/
theorem del_sound_pair :
    ∃ r locked s after files',
      pairEnv.delMain storedZlib 5 (pairDatabase true []) [text "q"] noFiles =
        some (0, after, files') ∧
      pairEnv.delLock 5 [text "q"] ([text "q"].foldl Database.delName (pairDatabase true [])) {} 0 =
        .ok (r, locked, s) ∧
      pairEnv.Sound 5 locked s (locked.delAsked [text "q"]) after := by
  have returns : (pairEnv.delMain storedZlib 5 (pairDatabase true []) [text "q"] noFiles).map
      Prod.fst = some 0 := by decide +kernel
  have locking : (pairEnv.delLock 5 [text "q"]
      ([text "q"].foldl Database.delName (pairDatabase true [])) {} 0).toOption.isSome := by
    decide +kernel
  obtain ⟨⟨r, after, files'⟩, deleted, rfl⟩ := Option.map_eq_some_iff.mp returns
  cases locks : pairEnv.delLock 5 [text "q"]
      ([text "q"].foldl Database.delName (pairDatabase true [])) {} 0 with
  | error fault =>
      rw [locks] at locking
      cases locking
  | ok result =>
      obtain ⟨r, locked, s⟩ := result
      exact ⟨r, locked, s, after, files', deleted, rfl,
        del_sound pairEnv storedZlib 5 (pairDatabase true []) locked after [text "q"] r s noFiles
          files' (pairDatabase_orderly true [] pairEnv) (pairDatabase_namesFiled true []) (by decide)
          (by decide) locks deleted⟩

/-- Upgrading a world with `q` when nothing is installed. -/
theorem upgrade_sound_pair :
    ∃ r locked s after files',
      pairEnv.upgradeMain storedZlib 5 (pairDatabase false [⟨0, depmaskRequire, none⟩]) noFiles =
        some (0, after, files') ∧
      pairEnv.upgrading.upgradeLock 5 1 0 (pairDatabase false [⟨0, depmaskRequire, none⟩]) {} 0 =
        .ok (r, locked, s) ∧
      pairEnv.upgrading.Sound 5 locked s
        ((pairDatabase false [⟨0, depmaskRequire, none⟩]).upgradeAsked {}) after := by
  have returns : (pairEnv.upgradeMain storedZlib 5
      (pairDatabase false [⟨0, depmaskRequire, none⟩]) noFiles).map Prod.fst = some 0 := by
    decide +kernel
  have locking : (pairEnv.upgrading.upgradeLock 5 1 0
      (pairDatabase false [⟨0, depmaskRequire, none⟩]) {} 0).toOption.isSome := by decide +kernel
  obtain ⟨⟨r, after, files'⟩, upgraded, rfl⟩ := Option.map_eq_some_iff.mp returns
  cases locks : pairEnv.upgrading.upgradeLock 5 1 0
      (pairDatabase false [⟨0, depmaskRequire, none⟩]) {} 0 with
  | error fault =>
      rw [locks] at locking
      cases locking
  | ok result =>
      obtain ⟨r, locked, s⟩ := result
      exact ⟨r, locked, s, after, files', upgraded, rfl,
        upgrade_sound pairEnv storedZlib 5 (pairDatabase false [⟨0, depmaskRequire, none⟩]) locked
          after r s noFiles files' (pairDatabase_orderly false _ pairEnv.upgrading) (by decide) locks
          upgraded⟩

end Pair

end AriannaLinux.Apk
