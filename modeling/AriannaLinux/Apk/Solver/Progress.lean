import AriannaLinux.Apk.Solver.Autoclean
import AriannaLinux.Apk.Io.Root

/-! # Progress of a commit

Before and during the installation `apk_state_commit` adds up sizes and packages in
`unsigned int` counters, and `progress_cb` divides the two sums. The planning loop only
appends to the change list, so its totals are the sum over the list it leaves
(`planLoop_counts`), and the percentage drawn stays within 100 as long as no sum wraps
around (`progressBounded_iff`).
-/

namespace AriannaLinux.Apk

/-- `APK_PROGRESS_SCALE`. -/
def progressScale : ℕ := 0x100

/-- `muldiv`, over `unsigned long long`; there is no quotient by 0. -/
def muldiv (a b c : ℕ) : Option ℕ := if c = 0 then none else some (a * b % 2 ^ 64 / c)

/-- What is passed on while an entry is installed, and by `extract_cb` while one is
extracted, for a package of this installed size. -/
def shownProgress (size installedSize : ℕ) : Option ℕ :=
  muldiv progressScale (if installedSize < size then installedSize else size) installedSize

/-- `extract_cb`: what it passes to the callback of the commit. -/
def extractCb (extracted currentFileSize installedSize progress : ℕ) : Option ℕ := do
  let part ← muldiv progress currentFileSize progressScale
  shownProgress ((extracted + part) % 2 ^ 64) installedSize

/-- `struct apk_stats`. -/
structure ChangeStats where
  bytes : UInt32 := 0
  packages : UInt32 := 0

/-- The sum `progress_cb` forms of the two counters. -/
def ChangeStats.sum (stats : ChangeStats) : ℕ := (stats.bytes + stats.packages).toNat

/-- `prog.total`, as the planning loop has counted it. -/
def ChangeCounts.total (counts : ChangeCounts) : ChangeStats :=
  { bytes := counts.bytes, packages := counts.packages }

/-- `struct progress`. -/
structure Progress where
  done : ChangeStats := {}
  total : ChangeStats := {}
  pkg : Option PkgId := none
  count : ℕ := 0

/-- The text `apk_draw_progress` prints into its buffer. -/
def progressText (percent : ℤ) : Bytes :=
  let digits := text (toString percent)
  text "-[                    ]- " ++ List.replicate (3 - digits.length) (ascii ' ') ++ digits ++
    text "%"

/-- The loop of `apk_draw_progress`. -/
def drawBar : ℕ → ℕ → Bytes → Bytes
  | 0, _, tmp => tmp
  | rounds + 1, i, tmp => drawBar rounds (i + 1) (tmp.set (2 + i) (ascii '#'))

/-- `apk_draw_progress`: the buffer of 128 bytes, from what the stack held there. -/
def drawProgress (stack : Bytes) (percent : ℤ) : Bytes :=
  drawBar (min (percent.tdiv 5).toNat 126) 0
    (progressText percent ++ 0 :: stack.drop ((progressText percent).length + 1))

namespace SolverContext

variable (ctx : SolverContext)

/-- `apk_count_change`. -/
def countStats (stats : ChangeStats) (change : Change) : ChangeStats :=
  let stats :=
    match change.newpkg with
    | none => stats
    | some pkg =>
        { bytes := stats.bytes + UInt32.ofNat (ctx.pkg pkg).installedSize
          packages := stats.packages + 1 }
  match change.oldpkg with
  | none => stats
  | some _ => { stats with packages := stats.packages + 1 }

/-- `progress_cb`, and the percentage it draws if any; it faults on a division by 0. -/
def progressCb (prog : Progress) (progress : ℕ) : Option (Option ℕ × Progress) := do
  let part ←
    match prog.pkg with
    | none => some 0
    | some pkg => muldiv progress (ctx.pkg pkg).installedSize progressScale
  let count ← muldiv 100 ((prog.done.sum + part) % 2 ^ 64) prog.total.sum
  some (if prog.count ≠ count then some count else none, { prog with count })

/-- The calls of `progress_cb` during one change, and the percentages drawn. -/
def progressCalls : List ℕ → Progress → Option (List ℕ × Progress)
  | [], prog => some ([], prog)
  | progress :: calls, prog => do
      let (first, prog) ← ctx.progressCb prog progress
      let (drawn, prog) ← progressCalls calls prog
      some (first.toList ++ drawn, prog)

/-- The second loop of `apk_state_commit`, with the calls made during each change. A change
behind the last calls is not reached, since one before it failed. -/
def commitLoop : List Change → List (List ℕ) → Progress → Option (List ℕ)
  | [], _, _ => some []
  | _ :: _, [], _ => some []
  | change :: changes, calls :: later, prog => do
      let (drawn, prog) ← ctx.progressCalls calls { prog with pkg := change.newpkg }
      let rest ← commitLoop changes later { prog with done := ctx.countStats prog.done change }
      some (drawn ++ rest)

/-- The change unpacks a package: its calls are the only ones `apk_db_install_pkg` makes. -/
def Unpacks (change : Change) : Prop :=
  ∃ pkg, change.newpkg = some pkg ∧ (ctx.pkg pkg).installedSize ≠ 0

/-- Calls that can be made: during changes that unpack, with progress on the scale. -/
def Issued : List Change → List (List ℕ) → Prop
  | change :: changes, calls :: later =>
      (calls ≠ [] → ctx.Unpacks change) ∧ (∀ progress ∈ calls, progress ≤ progressScale) ∧
        Issued changes later
  | _, _ => True

/-- What `apk_count_change` adds to the sum of the counters, before any wraps around. -/
def changeWeight (change : Change) : ℕ :=
  (match change.newpkg with
    | none => 0
    | some pkg => (ctx.pkg pkg).installedSize + 1) +
  match change.oldpkg with
  | none => 0
  | some _ => 1

/-- The bytes and packages of some changes. -/
def weight (changes : List Change) : ℕ := (changes.map ctx.changeWeight).sum

/-- At every change that unpacks a package, the sum before it and the package are less than
101 hundredths of the total, where both sums are reduced to 32 bits. -/
def WithinTotal (changes : List Change) : Prop :=
  ∀ before change after pkg, changes = before ++ change :: after → change.newpkg = some pkg →
    (ctx.pkg pkg).installedSize ≠ 0 →
      100 * (ctx.weight before % 2 ^ 32 + (ctx.pkg pkg).installedSize) <
        101 * (ctx.weight changes % 2 ^ 32)

/-- Every commit of the changes divides by no 0, and draws no percentage above 100 and no bar
over the terminator of its text. -/
def ProgressBounded (changes : List Change) (total : ChangeStats) : Prop :=
  ∀ calls, ctx.Issued changes calls → ∃ drawn, ctx.commitLoop changes calls { total } = some drawn ∧
    ∀ count ∈ drawn, count ≤ 100 ∧ ∀ stack,
      (drawProgress stack (Int.bmod count (2 ^ 32)))[
        (progressText (Int.bmod count (2 ^ 32))).length]? = some 0

/-! ## The change list grows -/

variable {ctx}

/-- What a call leaves if it returns. -/
def Leaves (good : State → Prop) (result : SolverResult) : Prop :=
  ∀ r s, result = .ok (r, s) → good s

theorem Leaves.ok {good : State → Prop} {r : ℤ} {s : State} (holds : good s) :
    Leaves good (.ok (r, s)) := by
  intro r' s' returned
  cases returned
  exact holds

theorem Leaves.error {good : State → Prop} {fault : SolverFault} : Leaves good (.error fault) := by
  intro r s returned
  cases returned

theorem Leaves.bind {good : State → Prop} {result : SolverResult} {next : ℤ × State → SolverResult}
    (first : Leaves good result) (later : ∀ r s, good s → Leaves good (next (r, s))) :
    Leaves good (result >>= next) := by
  intro r s returned
  obtain ⟨⟨r1, s1⟩, here, rest⟩ := bind_eq_ok.mp returned
  exact later r1 s1 (first r1 s1 here) r s rest

/-- The change list starts with these changes. -/
def Grown (base : List Change) (s : State) : Prop := base <+: s.changes

section Grows

variable {base : List Change}

theorem pruneDependency_changes (s : State) (dep : Dependency) :
    (ctx.pruneDependency s dep).2.changes = s.changes := by
  have locked (s : State) (pkg : Option PkgId) (pending error : Bool) :
      (ctx.pruneLocked s dep pkg pending error).2.changes = s.changes := by
    cases pkg with
    | none => simp only [pruneLocked]; split_ifs <;> rfl
    | some pkg => simp only [pruneLocked]; split_ifs <;> rfl
  have candidates (s : State) (pkgs : List PkgId) :
      (ctx.pruneCandidates s dep pkgs).2.changes = s.changes := by
    unfold pruneCandidates
    dsimp only
    split
    · rfl
    · split_ifs <;> rfl
    · rfl
  unfold pruneDependency
  dsimp only
  split_ifs
  · rfl
  · rfl
  all_goals
    split
    · exact locked _ _ _ _
    · exact candidates _ _
    · rfl

theorem lockDependencyWith_grows {lockName : State → NameId → Option PkgId → SolverResult}
    (spec : ∀ s name pkg, Grown base s → Leaves (Grown base) (lockName s name pkg)) {s : State}
    {dep : Dependency} (grown : Grown base s) :
    Leaves (Grown base) (ctx.lockDependencyWith lockName s dep) := by
  have pruned : Grown base (ctx.pruneDependency s dep).2 := by
    rw [Grown, pruneDependency_changes]
    exact grown
  unfold lockDependencyWith
  dsimp only
  split
  · exact .ok pruned
  · split
    · exact spec _ _ _ pruned
    · split
      · exact .ok pruned
      · exact spec _ _ _ pruned
    · exact .error

theorem fixPackageLoop_grows {lockDependency : State → Dependency → SolverResult}
    (spec : ∀ s dep, Grown base s → Leaves (Grown base) (lockDependency s dep))
    (depends : List Dependency) (ret : ℤ) {s : State} (grown : Grown base s) :
    Leaves (Grown base) (fixPackageLoop lockDependency depends ret s) := by
  induction depends generalizing ret s with
  | nil => exact .ok grown
  | cons dep depends ih => exact (spec s dep grown).bind fun r s grown => ih _ grown

theorem forEachBrokenReverseDependency_grows
    {cb : State → PkgId → Dependency → SolverResult}
    (spec : ∀ s pkg dep, Grown base s → Leaves (Grown base) (cb s pkg dep)) (name : NameId)
    (rdepends : List NameId) {s : State} (grown : Grown base s) :
    Leaves (Grown base) (ctx.forEachBrokenReverseDependency cb name rdepends s) := by
  induction rdepends generalizing s with
  | nil => exact .ok grown
  | cons name0 rdepends ih =>
      rw [forEachBrokenReverseDependency]
      cases ctx.reversePackage s name0 with
      | none => exact ih grown
      | some pkg0 =>
          have round : Leaves (Grown base) (ctx.callIfDependencyBroke cb s pkg0 name) := by
            unfold callIfDependencyBroke
            dsimp only
            split
            · exact .ok grown
            · exact spec s pkg0 _ grown
          refine round.bind fun r s grown => ?_
          dsimp only
          split
          · exact .ok grown
          · exact ih grown

theorem visitDependants_grows {lockName : State → NameId → Option PkgId → SolverResult}
    (spec : ∀ s name pkg, Grown base s → Leaves (Grown base) (lockName s name pkg)) {s : State}
    {name : NameId} {newpkg : Option PkgId} (grown : Grown base s) :
    Leaves (Grown base) (ctx.visitDependants lockName s name newpkg) := by
  unfold visitDependants
  dsimp only
  split
  · exact .ok grown
  split
  · refine forEachBrokenReverseDependency_grows (fun s pkg dep grown => ?_) _ _ grown
    unfold deleteBrokenPackage
    split
    · exact .error
    · exact spec _ _ _ grown
  · refine forEachBrokenReverseDependency_grows (fun s pkg dep grown => ?_) _ _ grown
    unfold reinstallBrokenPackage
    split
    · exact .error
    · exact lockDependencyWith_grows spec grown

theorem recordConflict_grows {s : State} {pkg : Option PkgId} {r : ℤ} (grown : Grown base s) :
    Leaves (Grown base) (ctx.recordConflict s pkg >>= fun s => .ok (r, s)) := by
  unfold recordConflict
  split
  · exact .error
  · split
    · exact .error
    · exact .ok grown

/-- Locking a name only appends to the change list. -/
theorem lockName_grows (fuel : ℕ) {s : State} (name : NameId) (newpkg : Option PkgId)
    (grown : Grown base s) : Leaves (Grown base) (ctx.lockName fuel s name newpkg) := by
  induction fuel generalizing s name newpkg with
  | zero => exact .error
  | succ fuel ih =>
      have spec (s : State) (name : NameId) (pkg : Option PkgId) (grown : Grown base s) :
          Leaves (Grown base) (ctx.lockName fuel s name pkg) := ih name pkg grown
      rw [lockName]
      split
      · exact .ok grown
      have entered : Grown base (enterName s name newpkg) := grown
      refine (visitDependants_grows spec entered).bind fun r s grown => ?_
      dsimp only
      split
      · exact recordConflict_grows grown
      have fixed : Leaves (Grown base)
          (ctx.fixPackage (ctx.lockDependencyWith (ctx.lockName fuel)) s newpkg) := by
        unfold fixPackage
        split
        · exact .ok grown
        · exact fixPackageLoop_grows (fun s dep => lockDependencyWith_grows spec) _ _ grown
      refine fixed.bind fun r s grown => ?_
      dsimp only
      split
      · exact recordConflict_grows grown
      unfold trackChange
      split
      · exact .ok grown
      · exact .ok (grown.trans (List.prefix_append _ _))

theorem autocleanLoop_grows {lockName : State → NameId → Option PkgId → SolverResult}
    (spec : ∀ s name pkg, Grown base s → Leaves (Grown base) (lockName s name pkg))
    (depends : List Dependency) {s : State} (grown : Grown base s) :
    Leaves (Grown base) (ctx.autocleanLoop lockName depends s) := by
  induction depends generalizing s with
  | nil => exact .ok grown
  | cons dep depends ih =>
      rw [autocleanLoop]
      split
      · exact ih grown
      split
      · exact ih grown
      have tested : Leaves (Grown base) (ctx.forEachBrokenReverseDependency failIfSomethingBroke
          dep.name (ctx.db.names.get dep.name).rdepends
          (s.setName dep.name (.locked none true false))) :=
        forEachBrokenReverseDependency_grows (fun s pkg dep grown => .ok grown) _ _ grown
      refine tested.bind fun r s1 grown => ?_
      dsimp only
      split
      · refine Leaves.bind (spec _ _ _ grown) fun r s grown => ?_
        dsimp only
        split
        · exact .ok grown
        · exact ih grown
      · exact ih grown

theorem autocleanOld_grows {fuel : ℕ} {s s' : State} {oldpkg : Option PkgId}
    (cleaned : ctx.autocleanOld fuel s oldpkg = .ok s') : s.changes <+: s'.changes := by
  cases oldpkg with
  | none =>
      cases cleaned
      exact List.prefix_refl _
  | some pkg =>
      obtain ⟨⟨r, s1⟩, returned, same⟩ := bind_eq_ok.mp cleaned
      cases same
      exact autocleanLoop_grows (fun s name pkg => lockName_grows fuel name pkg) _
        (List.prefix_refl _) r s' returned

end Grows

/-! ## The sums -/

theorem countStats_sum (stats : ChangeStats) (change : Change) :
    (ctx.countStats stats change).sum = (stats.sum + ctx.changeWeight change) % 2 ^ 32 := by
  unfold countStats changeWeight ChangeStats.sum
  cases change.newpkg <;> cases change.oldpkg <;>
    simp only [UInt32.toNat_add, UInt32.toNat_ofNat', UInt32.toNat_one] <;> omega

/-- What is counted over some changes is their weight, reduced to 32 bits. -/
theorem foldl_countStats_sum (changes : List Change) (stats : ChangeStats) :
    (changes.foldl ctx.countStats stats).sum = (stats.sum + ctx.weight changes) % 2 ^ 32 := by
  induction changes generalizing stats with
  | nil =>
      have small : stats.sum < 2 ^ 32 := UInt32.toNat_lt _
      simp only [List.foldl_nil, weight, List.map_nil, List.sum_nil]
      omega
  | cons change changes ih =>
      simp only [List.foldl_cons, ih, countStats_sum, weight, List.map_cons, List.sum_cons]
      omega

theorem countDeletion_total {counts counts' : ChangeCounts} {change : Change}
    (counted : ctx.countDeletion counts change = .ok counts') : counts'.total = counts.total := by
  unfold countDeletion at counted
  dsimp only at counted
  split at counted
  · cases counted
    rfl
  · split at counted
    · cases counted
    · cases counted
      split_ifs <;> rfl

theorem countChange_total (counts : ChangeCounts) (change : Change) :
    (ctx.countChange counts change).total = ctx.countStats counts.total change := by
  unfold countChange countStats
  cases change.newpkg <;> cases change.oldpkg <;> rfl

/-- **The totals of the planning loop** are what is counted over the changes it leaves. -/
theorem planLoop_counts {fuel rounds position : ℕ} {counts counts' : ChangeCounts} {s s' : State}
    (planned : ctx.planLoop fuel rounds position counts s = .ok (counts', s')) :
    s.changes <+: s'.changes ∧
      counts'.total = (s'.changes.drop position).foldl ctx.countStats counts.total := by
  induction rounds generalizing position counts s with
  | zero => cases planned
  | succ rounds ih =>
      rw [planLoop] at planned
      cases found : s.changes[position]? with
      | none =>
          simp only [found] at planned
          cases planned
          rw [List.drop_of_length_le (List.getElem?_eq_none_iff.mp found)]
          exact ⟨List.prefix_refl _, rfl⟩
      | some change =>
          simp only [found] at planned
          obtain ⟨counts1, counted, planned⟩ := bind_eq_ok.mp planned
          obtain ⟨s1, cleaned, planned⟩ := bind_eq_ok.mp planned
          have first := autocleanOld_grows cleaned
          obtain ⟨rest, total⟩ := ih planned
          have whole := first.trans rest
          refine ⟨whole, ?_⟩
          have here : s'.changes[position]? = some change := by
            obtain ⟨later, whole⟩ := whole
            rw [← whole, List.getElem?_append_left (List.getElem?_eq_some_iff.mp found).1, found]
          rw [List.drop_eq_getElem?_toList_append, here, total, countChange_total,
            countDeletion_total counted]
          rfl

/-! ## The bar -/

theorem drawBar_getElem? {rounds i k : ℕ} {tmp : Bytes} (behind : 2 + i + rounds ≤ k) :
    (drawBar rounds i tmp)[k]? = tmp[k]? := by
  induction rounds generalizing i tmp with
  | zero => rfl
  | succ rounds ih =>
      rw [drawBar, ih (by omega), List.getElem?_set_ne (by omega)]

theorem progressText_length (percent : ℤ) : 29 ≤ (progressText percent).length := by
  simp only [progressText, List.length_append, List.length_replicate]
  have frame : (text "-[                    ]- ").length = 25 := by decide
  have sign : (text "%").length = 1 := by decide
  omega

/-- A bar for at most 100 percent leaves the terminator of its text. -/
theorem drawProgress_terminated (stack : Bytes) {percent : ℤ} (bounded : percent ≤ 100) :
    (drawProgress stack percent)[(progressText percent).length]? = some 0 := by
  have long := progressText_length percent
  have few : (percent.tdiv 5).toNat ≤ 20 := by
    have quotient : percent.tdiv 5 ≤ 20 := Int.tdiv_le_tdiv (by norm_num) bounded
    omega
  rw [drawProgress, drawBar_getElem? (by omega), List.getElem?_append_right le_rfl, Nat.sub_self]
  rfl

/-! ## The percentage -/

theorem muldiv_le {a b c : ℕ} (positive : c ≠ 0) (small : a ≤ c) :
    ∃ quotient ≤ b, muldiv a b c = some quotient := by
  refine ⟨a * b % 2 ^ 64 / c, ?_, by rw [muldiv, if_neg positive]⟩
  calc a * b % 2 ^ 64 / c ≤ c * b / c :=
        Nat.div_le_div_right ((Nat.mod_le _ _).trans (Nat.mul_le_mul_right b small))
    _ = b := Nat.mul_div_cancel_left b (Nat.pos_of_ne_zero positive)

/-- The callback of an extraction is on the scale. -/
theorem extractCb_le {installedSize : ℕ} (sized : installedSize ≠ 0)
    (extracted currentFileSize progress : ℕ) :
    ∃ shown ≤ progressScale,
      extractCb extracted currentFileSize installedSize progress = some shown := by
  have shows (size : ℕ) : ∃ shown ≤ progressScale, shownProgress size installedSize = some shown := by
    have inside : (if installedSize < size then installedSize else size) ≤ installedSize := by
      split <;> omega
    obtain ⟨shown, small, same⟩ := muldiv_le (b := progressScale) sized inside
    refine ⟨shown, small, ?_⟩
    rw [shownProgress, muldiv, Nat.mul_comm]
    exact same
  obtain ⟨shown, small, same⟩ := shows
    ((extracted + progress * currentFileSize % 2 ^ 64 / progressScale) % 2 ^ 64)
  exact ⟨shown, small, same⟩

/-- The numerator and the quotient fit 64 bits while the sums fit 32. -/
theorem progressCb_bounded {prog : Progress} {pkg : PkgId} {progress : ℕ}
    (current : prog.pkg = some pkg) (scaled : progress ≤ progressScale)
    (within : 100 * (prog.done.sum + (ctx.pkg pkg).installedSize) < 101 * prog.total.sum) :
    ∃ count ≤ 100, ctx.progressCb prog progress =
      some (if prog.count ≠ count then some count else none, { prog with count }) := by
  obtain ⟨part, small, quotient⟩ :=
    muldiv_le (b := (ctx.pkg pkg).installedSize) (by decide : progressScale ≠ 0) scaled
  have fits : prog.total.sum < 2 ^ 32 := UInt32.toNat_lt _
  have positive : prog.total.sum ≠ 0 := by omega
  refine ⟨100 * (prog.done.sum + part) / prog.total.sum, ?_, ?_⟩
  · rw [← Nat.lt_succ_iff, Nat.div_lt_iff_lt_mul (Nat.pos_of_ne_zero positive)]
    omega
  · have inner : (prog.done.sum + part) % 2 ^ 64 = prog.done.sum + part :=
      Nat.mod_eq_of_lt (by omega)
    have outer : 100 * (prog.done.sum + part) % 2 ^ 64 = 100 * (prog.done.sum + part) :=
      Nat.mod_eq_of_lt (by omega)
    have count : muldiv 100 ((prog.done.sum + part) % 2 ^ 64) prog.total.sum =
        some (100 * (prog.done.sum + part) / prog.total.sum) := by
      rw [muldiv, if_neg positive, inner, outer]
    simp only [progressCb, current, quotient, count, Option.bind_eq_bind, Option.bind_some]

theorem progressCalls_bounded {calls : List ℕ} {prog : Progress} {pkg : PkgId}
    (current : prog.pkg = some pkg) (scaled : ∀ progress ∈ calls, progress ≤ progressScale)
    (within : 100 * (prog.done.sum + (ctx.pkg pkg).installedSize) < 101 * prog.total.sum) :
    ∃ drawn count, ctx.progressCalls calls prog = some (drawn, { prog with count }) ∧
      ∀ percent ∈ drawn, percent ≤ 100 := by
  induction calls generalizing prog with
  | nil => exact ⟨[], prog.count, rfl, fun _ member => absurd member List.not_mem_nil⟩
  | cons progress calls ih =>
      obtain ⟨here, later⟩ := List.forall_mem_cons.mp scaled
      obtain ⟨count, bounded, first⟩ := progressCb_bounded current here within
      obtain ⟨drawn, last, rest, bounds⟩ := @ih { prog with count } current later within
      refine ⟨(if prog.count ≠ count then some count else none).toList ++ drawn, last, ?_, ?_⟩
      · simp only [progressCalls, first, rest, Option.bind_eq_bind, Option.bind_some]
      · intro percent member
        rcases List.mem_append.mp member with now | then_
        · split at now
          · rw [List.mem_singleton.mp now]
            exact bounded
          · cases now
        · exact bounds percent then_

theorem commitLoop_bounded {changes : List Change} {calls : List (List ℕ)} {prog : Progress}
    (issued : ctx.Issued changes calls)
    (within : ∀ before change after pkg, changes = before ++ change :: after →
      change.newpkg = some pkg → (ctx.pkg pkg).installedSize ≠ 0 →
        100 * ((prog.done.sum + ctx.weight before) % 2 ^ 32 + (ctx.pkg pkg).installedSize) <
          101 * prog.total.sum) :
    ∃ drawn, ctx.commitLoop changes calls prog = some drawn ∧ ∀ percent ∈ drawn, percent ≤ 100 := by
  have nothing : ∀ percent ∈ ([] : List ℕ), percent ≤ 100 :=
    fun _ member => absurd member List.not_mem_nil
  induction changes generalizing calls prog with
  | nil => exact ⟨[], rfl, nothing⟩
  | cons change changes ih =>
      cases calls with
      | nil => exact ⟨[], rfl, nothing⟩
      | cons now later =>
          obtain ⟨unpacks, scaled, rest⟩ := issued
          have small : prog.done.sum < 2 ^ 32 := UInt32.toNat_lt _
          have round : ∃ drawn count,
              ctx.progressCalls now { prog with pkg := change.newpkg } =
                some (drawn, { prog with pkg := change.newpkg, count }) ∧
              ∀ percent ∈ drawn, percent ≤ 100 := by
            cases now with
            | nil => exact ⟨[], prog.count, rfl, nothing⟩
            | cons progress now =>
                obtain ⟨pkg, fresh, sized⟩ := unpacks (List.cons_ne_nil _ _)
                have bound := within [] change changes pkg rfl fresh sized
                rw [weight, List.map_nil, List.sum_nil, Nat.add_zero, Nat.mod_eq_of_lt small]
                  at bound
                exact progressCalls_bounded fresh scaled bound
          obtain ⟨drawn, count, first, bounds⟩ := round
          have behind := @ih later
            { prog with pkg := change.newpkg, count, done := ctx.countStats prog.done change } rest
            (by
              intro before other after pkg same fresh sized
              have bound := within (change :: before) other after pkg
                (by rw [same, List.cons_append]) fresh sized
              rw [weight, List.map_cons, List.sum_cons] at bound
              rw [countStats_sum, weight]
              simpa only [Nat.mod_add_mod, Nat.add_assoc] using bound)
          obtain ⟨drawn', others, bounds'⟩ := behind
          refine ⟨drawn ++ drawn', ?_, ?_⟩
          · simp only [commitLoop, first, others, Option.bind_eq_bind, Option.bind_some]
          · intro percent member
            exact (List.mem_append.mp member).elim (bounds percent) (bounds' percent)

/-- Where the sums are not within the total, some call on the scale fails. -/
theorem progressCb_unbounded {prog : Progress} {pkg : PkgId} (current : prog.pkg = some pkg)
    (sized : (ctx.pkg pkg).installedSize < 2 ^ 64)
    (beyond : 101 * prog.total.sum ≤ 100 * (prog.done.sum + (ctx.pkg pkg).installedSize)) :
    ∃ progress ≤ progressScale, ctx.progressCb prog progress = none ∨
      ∃ count > 100, ctx.progressCb prog progress =
        some (if prog.count ≠ count then some count else none, { prog with count }) := by
  have done : prog.done.sum < 2 ^ 32 := UInt32.toNat_lt _
  have fits : prog.total.sum < 2 ^ 32 := UInt32.toNat_lt _
  have part (progress : ℕ) : muldiv progress (ctx.pkg pkg).installedSize progressScale =
      some (progress * (ctx.pkg pkg).installedSize % 2 ^ 64 / progressScale) :=
    if_neg (by decide)
  by_cases zero : prog.total.sum = 0
  · refine ⟨0, Nat.zero_le _, .inl ?_⟩
    have count (numerator : ℕ) : muldiv 100 numerator prog.total.sum = none := if_pos zero
    simp only [progressCb, current, part, count, Option.bind_eq_bind, Option.bind_some,
      Option.bind_none]
  -- a call whose part of the package does not wrap around and is large
  have reached : ∃ progress ≤ progressScale, ∃ amount < 2 ^ 56,
      progress * (ctx.pkg pkg).installedSize % 2 ^ 64 / progressScale = amount ∧
        101 * prog.total.sum ≤ 100 * (prog.done.sum + amount) := by
    by_cases moderate : (ctx.pkg pkg).installedSize < 2 ^ 56
    · refine ⟨progressScale, le_rfl, _, moderate, ?_, beyond⟩
      rw [progressScale, Nat.mod_eq_of_lt (by omega)]
      omega
    · obtain ⟨progress, scaled, large, inside⟩ : ∃ progress ≤ progressScale,
          2 ^ 63 ≤ progress * (ctx.pkg pkg).installedSize ∧
            progress * (ctx.pkg pkg).installedSize < 2 ^ 64 := by
        have positive : 0 < (ctx.pkg pkg).installedSize := by omega
        have euclid := Nat.div_add_mod (2 ^ 64 - 1) (ctx.pkg pkg).installedSize
        have rest := Nat.mod_lt (2 ^ 64 - 1) positive
        rw [Nat.mul_comm] at euclid
        have least : 1 ≤ (2 ^ 64 - 1) / (ctx.pkg pkg).installedSize :=
          (Nat.one_le_div_iff positive).mpr (by omega)
        have once := Nat.mul_le_mul_right (ctx.pkg pkg).installedSize least
        refine ⟨(2 ^ 64 - 1) / (ctx.pkg pkg).installedSize, ?_, by omega, by omega⟩
        rw [progressScale, Nat.div_le_iff_le_mul_add_pred positive]
        omega
      refine ⟨progress, scaled, _, ?_, rfl, ?_⟩
      · rw [Nat.mod_eq_of_lt inside, progressScale]
        omega
      · rw [Nat.mod_eq_of_lt inside, progressScale]
        omega
  obtain ⟨progress, scaled, amount, small, same, above⟩ := reached
  refine ⟨progress, scaled, .inr ⟨100 * (prog.done.sum + amount) / prog.total.sum, ?_, ?_⟩⟩
  · rw [gt_iff_lt, ← Nat.succ_le_iff, Nat.le_div_iff_mul_le (Nat.pos_of_ne_zero zero)]
    exact above
  · have inner : (prog.done.sum + amount) % 2 ^ 64 = prog.done.sum + amount :=
      Nat.mod_eq_of_lt (by omega)
    have outer : 100 * (prog.done.sum + amount) % 2 ^ 64 = 100 * (prog.done.sum + amount) :=
      Nat.mod_eq_of_lt (by omega)
    have count : muldiv 100 ((prog.done.sum + amount) % 2 ^ 64) prog.total.sum =
        some (100 * (prog.done.sum + amount) / prog.total.sum) := by
      rw [muldiv, if_neg zero, inner, outer]
    simp only [progressCb, current, part, same, count, Option.bind_eq_bind, Option.bind_some]

/-- A single call, during the change behind some changes without any. -/
theorem commitLoop_single (before : List Change) (change : Change) (after : List Change)
    (progress : ℕ) (prog : Progress) :
    ctx.commitLoop (before ++ change :: after)
        (List.replicate before.length [] ++ [[progress]]) prog =
      (ctx.progressCb { prog with
          pkg := change.newpkg, done := before.foldl ctx.countStats prog.done } progress).map
        fun out => out.1.toList := by
  induction before generalizing prog with
  | nil =>
      simp only [List.nil_append, List.length_nil, List.replicate_zero, commitLoop, progressCalls,
        List.foldl_nil]
      cases ctx.progressCb { prog with pkg := change.newpkg } progress with
      | none => rfl
      | some out =>
          cases after <;> simp [commitLoop]
  | cons first before ih =>
      simp only [List.cons_append, List.length_cons, List.replicate_succ, commitLoop, progressCalls,
        List.foldl_cons, ih, Option.bind_eq_bind, Option.bind_some]
      cases ctx.progressCb _ progress <;> rfl

/-- Such a call can be made if the change unpacks. -/
theorem issued_single (before : List Change) {change : Change} (after : List Change)
    {progress : ℕ} (unpacks : ctx.Unpacks change) (scaled : progress ≤ progressScale) :
    ctx.Issued (before ++ change :: after) (List.replicate before.length [] ++ [[progress]]) := by
  induction before with
  | nil =>
      refine ⟨fun _ => unpacks, fun other member => ?_, ?_⟩
      · rw [List.mem_singleton.mp member]
        exact scaled
      · cases after <;> trivial
  | cons first before ih =>
      exact ⟨fun some => absurd rfl some, fun _ member => absurd member List.not_mem_nil, ih⟩

/-- **When progress stays within bounds**: exactly when at each package to unpack the sums, as
the counters hold them, are within the total. They are if no counter wraps around. -/
theorem progressBounded_iff {fuel rounds : ℕ} {counts : ChangeCounts} {s s' : State}
    (planned : ctx.planLoop fuel rounds 0 {} s = .ok (counts, s'))
    (sized : ∀ pkg, (ctx.pkg pkg).installedSize < 2 ^ 64) :
    (ctx.ProgressBounded s'.changes counts.total ↔ ctx.WithinTotal s'.changes) ∧
      (ctx.weight s'.changes < 2 ^ 32 → ctx.WithinTotal s'.changes) := by
  have total : counts.total.sum = ctx.weight s'.changes % 2 ^ 32 := by
    rw [(planLoop_counts planned).2, List.drop_zero, foldl_countStats_sum]
    exact congrArg (· % 2 ^ 32) (Nat.zero_add _)
  refine ⟨⟨fun bounded => ?_, fun within calls issued => ?_⟩, fun small => ?_⟩
  · intro before change after pkg split fresh unpacked
    by_contra beyond
    have counted := @foldl_countStats_sum ctx before {}
    rw [show ChangeStats.sum {} = 0 from rfl, Nat.zero_add] at counted
    obtain ⟨progress, scaled, outcome⟩ := @progressCb_unbounded ctx
      { total := counts.total, pkg := change.newpkg, done := before.foldl ctx.countStats {} } pkg
      fresh (sized pkg) (by rw [counted, total]; omega)
    obtain ⟨drawn, returned, bounds⟩ := bounded
      (List.replicate before.length [] ++ [[progress]])
      (by rw [split]; exact issued_single before after ⟨pkg, fresh, unpacked⟩ scaled)
    rw [split, commitLoop_single] at returned
    rcases outcome with none | ⟨count, above, same⟩
    · rw [none] at returned
      cases returned
    · rw [same, if_pos (by omega : 0 ≠ count)] at returned
      cases returned
      exact absurd (bounds count (List.mem_singleton_self _)).1 (by omega)
  · obtain ⟨drawn, returned, bounds⟩ := @commitLoop_bounded ctx _ calls
      { total := counts.total } issued (by
        intro before change after pkg split fresh unpacked
        rw [total, show ChangeStats.sum {} = 0 from rfl, Nat.zero_add]
        exact within before change after pkg split fresh unpacked)
    refine ⟨drawn, returned, fun count member => ⟨bounds count member, fun stack => ?_⟩⟩
    have small := bounds count member
    exact drawProgress_terminated stack (by rw [Int.bmod_eq_of_le] <;> omega)
  · intro before change after pkg split fresh unpacked
    have part : ctx.weight before + ((ctx.pkg pkg).installedSize + 1) ≤ ctx.weight s'.changes := by
      rw [split, weight, weight, List.map_append, List.sum_append, List.map_cons, List.sum_cons,
        changeWeight, fresh]
      dsimp only
      omega
    rw [Nat.mod_eq_of_lt small, Nat.mod_eq_of_lt (by omega)]
    omega

/-- Packages of these installed sizes, each to be installed. -/
def sizedContext (sizes : List ℕ) : SolverContext where
  db := { pkgs := ⟨sizes.map fun installedSize => { name := none, installedSize }⟩ }
  numNames := 0

/-- Two small packages. -/
theorem progressBounded_small :
    (sizedContext [1000, 4096]).ProgressBounded [⟨none, some 0⟩, ⟨none, some 1⟩]
      { bytes := 5096, packages := 2 } := by
  have planned : (sizedContext [1000, 4096]).planLoop 0 3 0 {}
      { changes := [⟨none, some 0⟩, ⟨none, some 1⟩] } =
      .ok (⟨2, false, false, 5096, 2, 5096⟩, { changes := [⟨none, some 0⟩, ⟨none, some 1⟩] }) := rfl
  have sized (pkg : PkgId) : ((sizedContext [1000, 4096]).pkg pkg).installedSize < 2 ^ 64 := by
    rcases pkg with - | - | pkg
    · decide
    · decide
    · exact (by decide : 0 < 2 ^ 64)
  have bounded := progressBounded_iff planned sized
  exact bounded.1.mpr (bounded.2 (by decide))

/-- **Counters that wrap around.** A package of 2^32 - 1 bytes makes the total 0. Two of
3 * 2^30 bytes make it smaller than one of them, and the first is drawn as 149 percent. -/
theorem progressBounded_wrapped :
    (((sizedContext [4294967295]).planLoop 0 2 0 {} { changes := [⟨none, some 0⟩] }).map
        fun out => (sizedContext [4294967295]).commitLoop out.2.changes [[0]]
          { total := out.1.total }) = .ok none ∧
      ((sizedContext [3221225472, 3221225472]).planLoop 0 3 0 {}
          { changes := [⟨none, some 0⟩, ⟨none, some 1⟩] }).map
        (fun out => (sizedContext [3221225472, 3221225472]).commitLoop out.2.changes [[256]]
          { total := out.1.total }) = .ok (some [149]) :=
  ⟨rfl, rfl⟩

end SolverContext

end AriannaLinux.Apk
