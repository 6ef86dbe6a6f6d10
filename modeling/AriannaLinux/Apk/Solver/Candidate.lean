import AriannaLinux.Apk.Solver.State
import AriannaLinux.Apk.VersionOrder
import Mathlib.Data.List.MinMax

/-! # The choice among candidates

`apk_state_lock_dependency` keeps the best candidate it has seen. Its three criteria make up
one linear order of keys (`better_iff`), so the loop finds a greatest available candidate,
whatever the order of the candidates (`scanCandidates_eq`).
-/

namespace AriannaLinux.Apk

namespace SolverContext

variable (ctx : SolverContext)

/-! ## Better candidates -/

/-- `pkg->ipkg != NULL`. -/
abbrev IsInstalled (pkg : PkgId) : Prop := (ctx.pkg pkg).ipkg ≠ none

/-- `pkg->repos != 0`. -/
abbrev InRepository (pkg : PkgId) : Prop := (ctx.pkg pkg).repos ≠ 0

/-- A strictly greater version. -/
abbrev Newer (pkg other : PkgId) : Prop :=
  versionCompare (ctx.pkg pkg).version (ctx.pkg other).version = versionGreater

/-- A strictly greater version or, where repositories come first, a package of a repository
against one of none. -/
def Better (preferRepos : Bool) (pkg other : PkgId) : Prop :=
  if preferRepos then
    (ctx.InRepository pkg ∧ ¬ ctx.InRepository other) ∨
      ((ctx.InRepository pkg ↔ ctx.InRepository other) ∧ ctx.Newer pkg other)
  else ctx.Newer pkg other

/-- Repositories come first under `APK_PREFER_AVAILABLE` and for a name to reinstall. -/
def prefersRepos (name : NameId) : Bool :=
  ctx.flags.preferAvailable || (ctx.db.names.get name).reinstall

/-- What candidates are ranked by. -/
def candidateKey (preferRepos : Bool) (pkg : PkgId) : Bool ×ₗ List (ℤ ×ₗ ℤ) :=
  toLex (preferRepos && (ctx.pkg pkg).repos ≠ 0, versionKey ((ctx.pkg pkg).version.getD []))

variable {ctx}

theorem newer_iff {pkg other : PkgId} (versioned : (ctx.pkg pkg).version ≠ none)
    (versioned' : (ctx.pkg other).version ≠ none) :
    ctx.Newer pkg other ↔
      versionKey ((ctx.pkg other).version.getD []) <
        versionKey ((ctx.pkg pkg).version.getD []) := by
  obtain ⟨version, is⟩ := Option.ne_none_iff_exists'.mp versioned
  obtain ⟨version', is'⟩ := Option.ne_none_iff_exists'.mp versioned'
  rw [Newer, is, is', versionCompare_eq, orderResult_eq_greater]
  rfl

/-- **One order.** A candidate is better exactly when its key is greater. -/
theorem better_iff {preferRepos : Bool} {pkg other : PkgId}
    (versioned : (ctx.pkg pkg).version ≠ none) (versioned' : (ctx.pkg other).version ≠ none) :
    ctx.Better preferRepos pkg other ↔
      ctx.candidateKey preferRepos other < ctx.candidateKey preferRepos pkg := by
  rw [Better, candidateKey, candidateKey, Prod.Lex.toLex_lt_toLex,
    newer_iff versioned versioned']
  cases preferRepos with
  | false => simp
  | true =>
      by_cases available : ctx.InRepository pkg <;>
        by_cases available' : ctx.InRepository other <;>
        simp [available, available']

theorem laterCandidate_eq {preferRepos : Bool} {latest pkg : PkgId}
    (versioned : (ctx.pkg pkg).version ≠ none) (versioned' : (ctx.pkg latest).version ≠ none) :
    ctx.laterCandidate preferRepos latest pkg =
      if ctx.candidateKey preferRepos latest < ctx.candidateKey preferRepos pkg then pkg
      else latest := by
  simp only [← better_iff versioned versioned', Better, laterCandidate]
  cases preferRepos with
  | false => rfl
  | true =>
      by_cases available : ctx.InRepository pkg <;>
        by_cases available' : ctx.InRepository latest <;>
        simp [available, available']

/-! ## The loop -/

theorem pkgAvailable_of_installed {pkg : PkgId} (installed : ctx.IsInstalled pkg) :
    ctx.pkgAvailable pkg = true := by
  simp [pkgAvailable, installed]

variable (ctx) in
/-- The installed candidate; of several the last one. -/
def installedCandidate (pkgs : List PkgId) : Option PkgId :=
  (pkgs.filter fun pkg => ctx.IsInstalled pkg).getLast?

/-- **The loop over the candidates** finds the last installed one and a greatest one of the
available ones. -/
theorem scanCandidates_eq {preferRepos : Bool} {pkgs : List PkgId}
    (versioned : ∀ pkg ∈ pkgs, (ctx.pkg pkg).version ≠ none) (installed : Option PkgId) :
    ∀ latest : Option PkgId, (∀ pkg ∈ latest, (ctx.pkg pkg).version ≠ none) →
      ctx.scanCandidates preferRepos pkgs (installed, latest) =
        ((ctx.installedCandidate pkgs).or installed,
          (pkgs.filter ctx.pkgAvailable).foldl
            (List.argAux fun pkg old =>
              ctx.candidateKey preferRepos old < ctx.candidateKey preferRepos pkg) latest) := by
  induction pkgs generalizing installed with
  | nil => exact fun _ _ => rfl
  | cons pkg pkgs ih =>
      intro latest latestVersioned
      have own := versioned pkg List.mem_cons_self
      have rest := ih fun p member => versioned p (List.mem_cons_of_mem _ member)
      have last : ((ctx.installedCandidate (pkg :: pkgs)).or installed) =
          (ctx.installedCandidate pkgs).or
            (if ctx.IsInstalled pkg then some pkg else installed) := by
        by_cases isInstalled : ctx.IsInstalled pkg
        · rw [installedCandidate, List.filter_cons_of_pos (by simpa using isInstalled),
            List.getLast?_cons, if_pos isInstalled, installedCandidate]
          cases (pkgs.filter fun pkg => ctx.IsInstalled pkg).getLast? <;> rfl
        · rw [installedCandidate, List.filter_cons_of_neg (by simpa using isInstalled),
            if_neg isInstalled, installedCandidate]
      rw [last]
      by_cases available : ctx.pkgAvailable pkg = true
      · rw [List.filter_cons_of_pos available, List.foldl_cons]
        have taken : ¬ ((ctx.pkg pkg).ipkg = none ∧ ¬ ctx.pkgAvailable pkg) :=
          fun skipped => skipped.2 available
        cases latest with
        | none =>
            rw [scanCandidates, if_neg taken]
            exact rest _ (some pkg) fun p same => (Option.mem_some.mp same) ▸ own
        | some old =>
            have oldVersioned := latestVersioned old rfl
            rw [scanCandidates, if_neg taken, laterCandidate_eq own oldVersioned]
            by_cases greater :
                ctx.candidateKey preferRepos old < ctx.candidateKey preferRepos pkg
            · rw [if_pos greater, List.argAux]
              simp only [if_pos greater]
              exact rest _ (some pkg) fun p same => (Option.mem_some.mp same) ▸ own
            · rw [if_neg greater, List.argAux]
              simp only [if_neg greater]
              exact rest _ (some old) fun p same => (Option.mem_some.mp same) ▸ oldVersioned
      · rw [List.filter_cons_of_neg available]
        have notInstalled : ¬ ctx.IsInstalled pkg := fun installed =>
          available (pkgAvailable_of_installed installed)
        refine Eq.trans ?_ (rest _ _ latestVersioned)
        rw [scanCandidates.eq_def]
        exact if_pos ⟨not_not.mp notInstalled, available⟩

/-! ## The chosen candidate -/

variable (ctx) in
/-- What is chosen among candidates. -/
structure BestCandidate (name : NameId) (pkgs : List PkgId) (use : PkgId) : Prop where
  candidate : use ∈ pkgs
  available : ctx.pkgAvailable use = true
  /-- Under `APK_UPGRADE` no available candidate is better. -/
  upgraded : ctx.flags.upgrade = true → ∀ pkg ∈ pkgs, ctx.pkgAvailable pkg = true →
    ¬ ctx.Better (ctx.prefersRepos name) pkg use
  /-- Otherwise an installed candidate is kept. -/
  installed : ctx.flags.upgrade = false → (∃ pkg ∈ pkgs, ctx.IsInstalled pkg) →
    (∀ pkg ∈ pkgs, ctx.IsInstalled pkg →
      ¬ (ctx.db.names.get name).reinstall ∨ ctx.InRepository pkg) → ctx.IsInstalled use
  /-- It is the last installed one, unless that is marked for reinstall and in no repository. -/
  kept : ctx.flags.upgrade = false → ∀ pkg ∈ ctx.installedCandidate pkgs,
    ¬ (ctx.db.names.get name).reinstall ∨ ctx.InRepository pkg → use = pkg
  /-- Where none is kept, no available candidate is better. -/
  replaced : ctx.flags.upgrade = false →
    (∀ pkg ∈ ctx.installedCandidate pkgs,
      (ctx.db.names.get name).reinstall ∧ ¬ ctx.InRepository pkg) →
    ∀ pkg ∈ pkgs, ctx.pkgAvailable pkg = true → ¬ ctx.Better (ctx.prefersRepos name) pkg use

theorem mem_installedCandidate {pkgs : List PkgId} {pkg : PkgId}
    (last : pkg ∈ ctx.installedCandidate pkgs) : pkg ∈ pkgs ∧ ctx.IsInstalled pkg := by
  have listed := List.mem_filter.mp (List.mem_of_getLast? last)
  exact ⟨listed.1, of_decide_eq_true listed.2⟩

theorem installedCandidate_eq_none {pkgs : List PkgId} :
    ctx.installedCandidate pkgs = none ↔ ∀ pkg ∈ pkgs, ¬ ctx.IsInstalled pkg := by
  rw [installedCandidate, List.getLast?_eq_none_iff, List.filter_eq_nil_iff]
  simp only [decide_eq_true_eq]

variable (ctx) in
/-- A greatest available candidate. -/
def latestCandidate (name : NameId) (pkgs : List PkgId) : Option PkgId :=
  (pkgs.filter ctx.pkgAvailable).argmax (ctx.candidateKey (ctx.prefersRepos name))

theorem chooseCandidate_eq {name : NameId} {pkgs : List PkgId}
    (versioned : ∀ pkg ∈ pkgs, (ctx.pkg pkg).version ≠ none) :
    ctx.chooseCandidate name pkgs =
      if ctx.flags.upgrade then ctx.latestCandidate name pkgs
      else
        ((ctx.installedCandidate pkgs).filter fun pkg =>
          ctx.InRepository pkg ∨ ¬ (ctx.db.names.get name).reinstall).or
            (ctx.latestCandidate name pkgs) := by
  rw [chooseCandidate, scanCandidates_eq versioned none none (fun _ absurd => by cases absurd),
    Option.or_none]
  dsimp only
  cases ctx.flags.upgrade with
  | true => rfl
  | false =>
      cases ctx.installedCandidate pkgs with
      | none => rfl
      | some pkg =>
          simp only [Bool.false_eq_true, ↓reduceIte, Option.filter_some, decide_eq_true_eq]
          split
          · rfl
          · rfl

/-- A greatest available candidate is available, and none is better. -/
theorem latestCandidate_best {name : NameId} {pkgs : List PkgId} {use : PkgId}
    (versioned : ∀ pkg ∈ pkgs, (ctx.pkg pkg).version ≠ none)
    (latest : use ∈ ctx.latestCandidate name pkgs) :
    (use ∈ pkgs ∧ ctx.pkgAvailable use = true) ∧
      ∀ pkg ∈ pkgs, ctx.pkgAvailable pkg = true →
        ¬ ctx.Better (ctx.prefersRepos name) pkg use := by
  have member := List.mem_filter.mp (List.argmax_mem latest)
  refine ⟨member, fun pkg listed available better => ?_⟩
  have greater := (better_iff (versioned pkg listed) (versioned use member.1)).mp better
  exact List.not_lt_of_mem_argmax (List.mem_filter.mpr ⟨listed, available⟩) latest greater

theorem latestCandidate_eq_none {name : NameId} {pkgs : List PkgId} :
    ctx.latestCandidate name pkgs = none ↔ ∀ pkg ∈ pkgs, ctx.pkgAvailable pkg = false := by
  rw [latestCandidate, List.argmax_eq_none, List.filter_eq_nil_iff]
  simp only [Bool.not_eq_true]

/-- **What is chosen.** Nothing is chosen only where no candidate is available. -/
theorem chooseCandidate_best {name : NameId} {pkgs : List PkgId}
    (versioned : ∀ pkg ∈ pkgs, (ctx.pkg pkg).version ≠ none) :
    (ctx.chooseCandidate name pkgs = none ∧ ∀ pkg ∈ pkgs, ctx.pkgAvailable pkg = false) ∨
      ∃ use, ctx.chooseCandidate name pkgs = some use ∧ ctx.BestCandidate name pkgs use := by
  rw [chooseCandidate_eq versioned]
  -- the latest candidate is used where no installed one is kept
  have latest (none_kept : ctx.flags.upgrade = false → ∀ pkg ∈ ctx.installedCandidate pkgs,
      (ctx.db.names.get name).reinstall ∧ ¬ ctx.InRepository pkg) :
      (ctx.latestCandidate name pkgs = none ∧ ∀ pkg ∈ pkgs, ctx.pkgAvailable pkg = false) ∨
        ∃ use, ctx.latestCandidate name pkgs = some use ∧ ctx.BestCandidate name pkgs use := by
    cases found : ctx.latestCandidate name pkgs with
    | none => exact .inl ⟨rfl, latestCandidate_eq_none.mp found⟩
    | some use =>
        obtain ⟨⟨candidate, available⟩, best⟩ := latestCandidate_best versioned found
        refine .inr ⟨use, rfl, candidate, available, fun _ => best, ?_, ?_, fun _ _ => best⟩
        · rintro same ⟨pkg, listed, installed⟩ keep
          cases last : ctx.installedCandidate pkgs with
          | none => exact absurd installed (installedCandidate_eq_none.mp last pkg listed)
          | some kept =>
              obtain ⟨keptListed, keptInstalled⟩ := mem_installedCandidate last
              obtain ⟨reinstall, missing⟩ := none_kept same kept last
              exact ((keep kept keptListed keptInstalled).elim (absurd reinstall) missing).elim
        · intro same pkg last keep
          obtain ⟨reinstall, missing⟩ := none_kept same pkg last
          exact (keep.elim (absurd reinstall) missing).elim
  cases upgrade : ctx.flags.upgrade with
  | true => exact latest fun same => absurd (upgrade.symm.trans same) Bool.noConfusion
  | false =>
      simp only [Bool.false_eq_true, ↓reduceIte]
      cases last : ctx.installedCandidate pkgs with
      | none => exact latest fun _ pkg member => by rw [last] at member; cases member
      | some pkg =>
          by_cases keep : ctx.InRepository pkg ∨ ¬ (ctx.db.names.get name).reinstall
          · obtain ⟨candidate, installed⟩ := mem_installedCandidate last
            rw [Option.filter_some, if_pos (decide_eq_true keep)]
            refine .inr ⟨pkg, rfl, candidate, pkgAvailable_of_installed installed, ?_,
              fun _ _ _ => installed, ?_, ?_⟩
            · exact fun same => absurd (upgrade.symm.trans same) Bool.noConfusion
            · intro _ other member _
              exact Option.some.inj (last.symm.trans member)
            · intro _ dropped
              obtain ⟨reinstall, missing⟩ := dropped pkg last
              exact (keep.elim missing (absurd reinstall)).elim
          · rw [Option.filter_some, if_neg (by rwa [decide_eq_true_eq])]
            refine latest fun _ other member => ?_
            obtain rfl : pkg = other := Option.some.inj (last.symm.trans member)
            obtain ⟨missing, reinstall⟩ := not_or.mp keep
            exact ⟨not_not.mp reinstall, missing⟩

/-- **Best candidate selection.** Where a dependency leaves several candidates, the name is
locked to the best one; it is not locked at all only where none is available. -/
theorem lockDependencyWith_best {lockName : State → NameId → Option PkgId → SolverResult}
    {s s' : State} {dep : Dependency} {r : ℤ} {pkgs : List PkgId}
    (pruned : ctx.pruneDependency s dep = (r, s')) (left : 0 < r)
    (several : s'.name dep.name = .choices pkgs)
    (versioned : ∀ pkg ∈ pkgs, (ctx.pkg pkg).version ≠ none) :
    (ctx.lockDependencyWith lockName s dep = .ok (-1, s') ∧
        ∀ pkg ∈ pkgs, ctx.pkgAvailable pkg = false) ∨
      ∃ use, ctx.lockDependencyWith lockName s dep = lockName s' dep.name (some use) ∧
        ctx.BestCandidate dep.name pkgs use := by
  have reached (choice : Option PkgId) (chosen : ctx.chooseCandidate dep.name pkgs = choice) :
      ctx.lockDependencyWith lockName s dep =
        choice.elim (.ok (-1, s')) fun use => lockName s' dep.name (some use) := by
    unfold lockDependencyWith
    rw [pruned]
    dsimp only
    rw [if_neg (not_le.mpr left), several]
    dsimp only
    rw [chosen]
    cases choice with
    | none => rfl
    | some use => rfl
  rcases @chooseCandidate_best _ dep.name _ versioned with ⟨nothing, missing⟩ |
    ⟨use, chosen, best⟩
  · exact .inl ⟨reached none nothing, missing⟩
  · exact .inr ⟨use, reached (some use) chosen, best⟩

/-- One name with the version 2 installed and 3 and 10 in a repository. -/
def threeVersions (flags : Flags) : SolverContext where
  db := {
    names := ⟨[{ name := text "a", pkgs := [0, 1, 2] }]⟩
    pkgs := ⟨[{ name := some 0, version := some (text "2"), ipkg := some 0 },
      { name := some 0, version := some (text "10"), repos := 1 },
      { name := some 0, version := some (text "3"), repos := 1 }]⟩ }
  numNames := 1
  flags

/-- An upgrade takes the version 10. -/
theorem lockDependencyWith_best_upgrade :
    ∃ s, (threeVersions { upgrade := true }).pruneDependency {} ⟨0, depmaskRequire, none⟩ =
        (3, s) ∧ s.name 0 = .choices [0, 1, 2] ∧
      (threeVersions { upgrade := true }).BestCandidate 0 [0, 1, 2] 1 := by
  obtain ⟨s, pruned⟩ : ∃ s, (threeVersions { upgrade := true }).pruneDependency {}
      ⟨0, depmaskRequire, none⟩ = (3, s) := ⟨_, Prod.ext (by decide +kernel) rfl⟩
  have several : s.name 0 = .choices [0, 1, 2] := by
    have left := congrArg (fun out => out.2.name 0) pruned
    exact left.symm.trans (by decide +kernel)
  refine ⟨s, pruned, several, ?_⟩
  have chosen : (threeVersions { upgrade := true }).chooseCandidate 0 [0, 1, 2] = some 1 := by
    decide +kernel
  rcases @lockDependencyWith_best _ (fun s _ pkg => .ok (pkg.getD 0, s)) _ _ _ _ _ pruned
      (by decide) several (by decide +kernel) with ⟨-, missing⟩ | ⟨use, locked, best⟩
  · exact absurd (missing 0 List.mem_cons_self) (by decide +kernel)
  · have returned : (threeVersions { upgrade := true }).lockDependencyWith
        (fun s _ pkg => .ok (pkg.getD 0, s)) {} ⟨0, depmaskRequire, none⟩ = .ok (1, s) := by
      unfold lockDependencyWith
      rw [pruned]
      dsimp only
      rw [if_neg (by decide), several]
      dsimp only
      rw [chosen]
      rfl
    have same : use = 1 := by
      have values : (use : ℤ) = 1 :=
        congrArg Prod.fst (Except.ok.inj (locked.symm.trans returned))
      exact_mod_cast values
    exact same ▸ best

end SolverContext

end AriannaLinux.Apk
