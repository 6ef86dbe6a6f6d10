import AriannaLinux.Apk.Install.Package

/-! # What the installation of an archive keeps

The stream and the signing context do not touch the installation behind them, so a
property of the installation that each of its own steps keeps holds after the whole
archive, whatever its entries and their order, and wherever the parse stops.
-/

namespace AriannaLinux.Apk

variable {Key : Type*} {zlib : Zlib} {env : InstallEnv Key}

/-- The steps of an installation keep a property. A record that is taken up for an entry is
marked, and the checksum of a marked record may be set. -/
structure EntryRule (env : InstallEnv Key) (P : InstallCtx → Prop) (Marked : FileId → Prop) :
    Prop where
  pending : ∀ ctx scriptPending, P ctx → P { ctx with scriptPending }
  call : ∀ ctx call, P ctx → P { ctx with db := (ctx.db.rootCall env.root call).2 }
  script : ∀ ctx type content, P ctx → P { ctx with db := ctx.db.addScript ctx.ipkg type content }
  info : ∀ ctx ctx' line, P ctx → ctx.readInfoLine line = some ctx' → P ctx'
  dir : ∀ ctx ae, ae.isDirectory → P ctx → P (ctx.dirEntry env.root ae)
  file : ∀ ctx ctx' ae diri file, ¬ ae.isDirectory → P ctx →
    ctx.fileEntry env.flags ae = .extracts ctx' diri file → P ctx' ∧ Marked file
  csum : ∀ ctx ae csum diri file, P ctx → Marked file → P (ctx.recordCsum ae csum diri file)

/-- The steps of an installation keep a property, but for the lines of meta information. -/
structure ContentRule (env : InstallEnv Key) (P : InstallCtx → Prop) (Marked : FileId → Prop) :
    Prop where
  pending : ∀ ctx scriptPending, P ctx → P { ctx with scriptPending }
  call : ∀ ctx call, P ctx → P { ctx with db := (ctx.db.rootCall env.root call).2 }
  script : ∀ ctx type content, P ctx → P { ctx with db := ctx.db.addScript ctx.ipkg type content }
  dir : ∀ ctx ae, ae.isDirectory → P ctx → P (ctx.dirEntry env.root ae)
  file : ∀ ctx ctx' ae diri file, ¬ ae.isDirectory → P ctx →
    ctx.fileEntry env.flags ae = .extracts ctx' diri file → P ctx' ∧ Marked file
  csum : ∀ ctx ae csum diri file, P ctx → Marked file → P (ctx.recordCsum ae csum diri file)

theorem EntryRule.content {P : InstallCtx → Prop} {Marked : FileId → Prop}
    (rule : EntryRule env P Marked) : ContentRule env P Marked := { rule with }

/-! ## What one file entry does -/

namespace InstallCtx

/-- How a file entry gets its record: it is one of the package that the table has, or a new
one at the end of the arena. -/
inductive TakesRecord (ctx : InstallCtx) (ae : FileInfo) (bdir bfile : Bytes) (diri : DiriId)
    (node : FileNode) : InstallCtx → FileId → Prop
  | owned {file : FileId} (found : ctx.db.fileQuery bdir bfile = some file)
      (owner : (ctx.db.diris.get (ctx.db.files.get file).diri).pkg = ctx.pkg) :
      TakesRecord ctx ae bdir bfile diri node
        { ctx with fileDiriNode := some node, entries := ctx.entries ++ [ae] } file
  | new (foreign : ∀ file, ctx.db.fileQuery bdir bfile = some file →
        (ctx.db.diris.get (ctx.db.files.get file).diri).pkg ≠ ctx.pkg) :
      TakesRecord ctx ae bdir bfile diri node
        { ctx with
          db := (ctx.db.fileNew diri bfile node).1
          fileDiriNode := some ⟨node.diri, some ctx.db.files.size⟩
          entries := ctx.entries ++ [ae] } ctx.db.files.size

/-- **What a file entry does.** It finds an instance for the directory part of its name, and
a position, may take the file from the package that has it, and takes a record. -/
theorem fileEntry_extracts {flags : Flags} {ctx ctx' : InstallCtx} {ae : FileInfo}
    {diri : DiriId} {file : FileId} (step : ctx.fileEntry flags ae = .extracts ctx' diri file) :
    ∃ bdir bfile tail node, blobRsplit (ascii '/') ae.name = some (bdir, bfile) ∧
      ctx.db.findDiri ctx.ipkg bdir ctx.diri = some (diri, tail) ∧
      tail.or ctx.fileDiriNode = some node ∧
      (∀ found, ctx.db.fileQuery bdir bfile = some found →
        ctx.mayOverwrite flags (ctx.db.diris.get (ctx.db.files.get found).diri).pkg) ∧
      TakesRecord ctx ae bdir bfile diri node ctx' file := by
  unfold fileEntry at step
  split at step
  · cases step
  case h_2 bdir bfile name =>
    split at step
    · cases step
    split at step
    · cases step
    case h_2 diri' tail placed =>
      split at step
      · cases step
      case h_2 node position =>
        dsimp only at step
        split at step
        case isTrue may =>
          cases step
          refine ⟨bdir, bfile, tail, node, name, placed, position, fun found query => ?_, ?_⟩
          · simpa only [query, Option.map_some, Option.all_some] using may
          unfold fileRecord
          split
          case h_1 file found =>
            obtain ⟨query, owner⟩ := Option.filter_eq_some_iff.mp found
            exact .owned query (of_decide_eq_true owner)
          case h_2 missing =>
            refine .new fun file query owner => ?_
            rw [query, Option.filter_some, if_pos (decide_eq_true owner)] at missing
            cases missing
        case isFalse => cases step

end InstallCtx

variable {P : InstallCtx → Prop} {Marked : FileId → Prop}

theorem ContentRule.runScript (rule : ContentRule env P Marked) {ctx : InstallCtx} {ipkg : IpkgId}
    {type : ScriptType} {args : List Bytes} (holds : P ctx) :
    P { ctx with db := (ctx.db.runScript env.root env.flags ipkg type args).2 } := by
  unfold Database.runScript
  split
  · exact holds
  · split
    · exact holds
    · exact rule.call _ _ holds

theorem ContentRule.runPendingScript (rule : ContentRule env P Marked) {installer : Installer Key}
    (holds : P installer.consumer) :
    P (runPendingScript env.root env.flags installer).2.consumer := by
  unfold AriannaLinux.Apk.runPendingScript
  dsimp only
  split
  · exact holds
  · exact rule.pending _ false (rule.runScript holds)

namespace InstallEntry

variable {teis : InstallEntry zlib Key}

/-- Reading the content of an entry leaves the installation alone. -/
theorem read_keeps {size : ℕ}
    {out : Read (InstallEntry zlib Key)} (holds : P teis.ctx)
    (reads : read env teis size = some out) : P out.state.ctx :=
  tarEntryRead_keeps (P := fun gis : VerifiedStream zlib Key InstallCtx => P gis.ctx.consumer)
    (fun _ _ _ holds reads =>
      Gzip.read_keeps (P := fun installer : Installer Key => P installer.consumer)
        (fun _ _ _ holds => holds) holds reads)
    holds reads

theorem blob_keeps {teis' : InstallEntry zlib Key} {size : ℤ} {blob : OwnedBlob}
    (holds : P teis.ctx) (taken : blobFromIstream (read env) size teis = some (blob, teis')) :
    P teis'.ctx :=
  blobFromIstream_keeps (P := fun teis : InstallEntry zlib Key => P teis.ctx)
    (fun _ _ _ holds reads => read_keeps holds reads) holds taken

theorem processEntry_keeps {teis' : InstallEntry zlib Key} {ae : FileInfo} {r : ℤ}
    (holds : P teis.ctx)
    (processed : processEntry env.crypto env.flags env.tar teis ae = some (r, teis')) :
    P (InstallEntry.ctx teis') := by
  unfold processEntry at processed
  split at processed
  · cases processed
    exact holds
  case h_2 sctx outcome =>
    obtain ⟨⟨blob, after⟩, taken, pair⟩ := Option.map_eq_some_iff.mp processed
    cases pair
    have started : P (InstallEntry.ctx (teis.mapSctx fun _ => sctx)) := holds
    have taken : blobFromIstream (read env) ae.size (teis.mapSctx fun _ => sctx) =
      some (blob, after) := taken
    have kept : P (InstallEntry.ctx after) := blob_keeps started taken
    exact kept

theorem pkginfo_keeps (rule : EntryRule env P Marked) {teis' : InstallEntry zlib Key}
    {ae : FileInfo} {r : ℤ} (holds : P teis.ctx) (read : teis.pkginfo env ae = some (r, teis')) : P teis'.ctx := by
  obtain ⟨⟨blob, after⟩, taken, read⟩ := Option.bind_eq_some_iff.mp read
  obtain ⟨⟨rc, installer⟩, parsed, pair⟩ := Option.map_eq_some_iff.mp read
  cases pair
  have afterHolds : P after.ctx := blob_keeps holds taken
  refine OwnedBlob.forEachSegment_keeps
    (P := fun installer : Installer Key => P installer.consumer)
    (fun installer line holds => ?_) afterHolds parsed
  unfold readInfoLine
  split
  case h_1 consumer parsed => exact rule.info _ _ _ holds parsed
  case h_2 => exact holds

variable (rule : ContentRule env P Marked)
include rule

theorem script_keeps {teis' : InstallEntry zlib Key} {ae : FileInfo} {type : ScriptType}
    {r : ℤ} (holds : P teis.ctx) (stored : teis.script env ae type = some (r, teis')) :
    P teis'.ctx := by
  obtain ⟨out, reads, pair⟩ := Option.map_eq_some_iff.mp stored
  have after := read_keeps holds reads
  have added : P { out.state.ctx with
      db := if out.result < 0 then out.state.ctx.db
        else out.state.ctx.db.addScript out.state.ctx.ipkg type out.stored
      scriptPending := out.state.ctx.scriptPending || type = out.state.ctx.script } := by
    split
    · exact rule.pending _ _ after
    · exact rule.pending _ _ (rule.script _ _ _ after)
  cases pair
  exact rule.runPendingScript added

theorem extract_keeps {teis' : InstallEntry zlib Key} {ae : FileInfo} {diri : DiriId}
    {file : FileId} {r : ℤ} (holds : P teis.ctx) (marked : Marked file)
    (extracted : teis.extract env ae diri file = some (r, teis')) : P teis'.ctx := by
  obtain ⟨⟨r', after⟩, extracts, pair⟩ := Option.map_eq_some_iff.mp extracted
  cases pair
  have called : ∀ call (teis : InstallEntry zlib Key), P teis.ctx →
      P ((root env.root).call call teis).2.ctx := fun call teis holds => rule.call _ call holds
  have kept : P after.ctx :=
    archiveEntryExtract_keeps (P := fun teis : InstallEntry zlib Key => P teis.ctx)
      (fun _ _ _ holds reads => read_keeps holds reads) called holds extracts
  exact rule.csum _ _ _ _ _ kept marked

theorem installable_keeps {teis' : InstallEntry zlib Key} {ae : FileInfo} {r : ℤ}
    (holds : P teis.ctx) (installed : teis.installable env ae = some (r, teis')) :
    P teis'.ctx := by
  have pending : P (teis.runPending env).2.ctx := rule.runPendingScript holds
  unfold installable at installed
  dsimp only at installed
  split at installed
  · cases installed
    exact pending
  split at installed
  case isTrue directory =>
    cases installed
    exact rule.dir _ _ directory pending
  case isFalse other =>
    split at installed
    · cases installed
      exact pending
    · cases installed
      exact pending
    case h_3 ctx diri file step =>
      obtain ⟨taken, marked⟩ := rule.file _ _ _ _ _ other pending step
      have taken : P ((teis.runPending env).2.mapCtx fun _ => ctx).ctx := taken
      exact extract_keeps rule taken marked installed

end InstallEntry

/-- Installing one entry, given what its meta information keeps. -/
theorem ContentRule.installArchiveEntry_keeps (rule : ContentRule env P Marked)
    {teis teis' : InstallEntry zlib Key} {ae : FileInfo} {r : ℤ} (holds : P teis.ctx)
    (info : ∀ processed after last r', processEntry env.crypto env.flags env.tar teis ae =
        some (processed, after) → processed ≠ 0 →
      (InstallEntry.ctx after).entryKind ae.name = .pkginfo → P (InstallEntry.ctx after) →
      InstallEntry.pkginfo env after ae = some (r', last) → P (InstallEntry.ctx last))
    (installed : installArchiveEntry env teis ae = some (r, teis')) : P (InstallEntry.ctx teis') := by
  obtain ⟨⟨processed, after⟩, processes, installed⟩ := Option.bind_eq_some_iff.mp installed
  have kept := InstallEntry.processEntry_keeps holds processes
  dsimp only at installed
  split at installed
  · cases installed
    exact kept
  case isFalse going =>
    split at installed
    case h_1 kind => exact info _ _ _ _ processes going kind kept installed
    · exact InstallEntry.script_keeps rule kept installed
    · cases installed
      exact kept
    · exact InstallEntry.installable_keeps rule kept installed

/-- Installing one entry. -/
theorem installArchiveEntry_keeps (rule : EntryRule env P Marked)
    {teis teis' : InstallEntry zlib Key} {ae : FileInfo} {r : ℤ} (holds : P teis.ctx)
    (installed : installArchiveEntry env teis ae = some (r, teis')) : P (InstallEntry.ctx teis') :=
  rule.content.installArchiveEntry_keeps holds
    (fun _ _ _ _ _ _ _ kept read => InstallEntry.pkginfo_keeps rule kept read) installed

/-! ## Unpacking -/

/-- The calls of the entry callback that an unpacking may make. -/
abbrev AllowedCalls (zlib : Zlib) (Key : Type*) := InstallEntry zlib Key → FileInfo → Bool

/-- The unpacking of a package makes only calls of its callback that are allowed. -/
def UnpackCalls (env : InstallEnv Key) (allowed : AllowedCalls zlib Key) (fuel : ℕ)
    (db : Database) (ipkg : IpkgId) (upgrade : Bool) (scriptArgs : List Bytes) : Prop :=
  let pkg := (db.ipkgs.get ipkg).pkg
  let script := if upgrade then .preUpgrade else .preInstall
  let ctx : InstallCtx := { db, pkg, ipkg, script, scriptArgs }
  let sctx := SignCtx.init .verifyIdentity (db.pkgs.get pkg).csum env.hasKeys
  ∀ bs, env.openPackage db pkg = .inr bs →
    TarCalls (verifiedRead env.crypto env.flags) env.tar (installArchiveEntry env) true allowed fuel
      (Gzip.gunzipMpart zlib bs ⟨sctx, ctx, []⟩)

/-- How unpacking ends: with a clean-up of what is not in yet, or with the migration. -/
inductive UnpackEnds (env : InstallEnv Key) (ctx : InstallCtx) : ℤ → InstallCtx → Prop
  | stopped {r : ℤ} (failed : r ≠ 0) : UnpackEnds env ctx r ctx
  | cleaned {r : ℤ} (failed : r ≠ 0) : UnpackEnds env ctx r { ctx with
      db := ctx.db.purgePkg env.root env.flags (some (text ".apk-new")) ctx.ipkg }
  | migrated : UnpackEnds env ctx 0 { ctx with
      db := ctx.db.migrateFiles env.root env.flags ctx.ipkg }

/-- **Unpacking a package.** What the steps keep of an installation that starts, the calls of
the entry callback being allowed, holds in the state the unpacking ends from, if the archive
can be opened at all. -/
theorem ContentRule.unpackPkg_ends (rule : ContentRule env P Marked) {allowed : AllowedCalls zlib Key}
    (keeps : ∀ (teis teis' : InstallEntry zlib Key) ae r, P teis.ctx → allowed teis ae = true →
      installArchiveEntry env teis ae = some (r, teis') → P (InstallEntry.ctx teis'))
    {fuel : ℕ} {db : Database} {ipkg : IpkgId} {upgrade reinstall : Bool} {args : List Bytes} {r : ℤ}
    {ctx : InstallCtx} (calls : UnpackCalls env allowed fuel db ipkg upgrade args)
    (holds : P
      { db := db
        pkg := (db.ipkgs.get ipkg).pkg
        ipkg := ipkg
        script := if upgrade then .preUpgrade else .preInstall
        scriptArgs := args })
    (unpacked : unpackPkg env zlib fuel db ipkg upgrade reinstall args = some (r, ctx)) :
    (ctx.db = db ∧ ∃ r, env.openPackage db (db.ipkgs.get ipkg).pkg = .inl r) ∨
      ∃ last, P last ∧ UnpackEnds env last r ctx := by
  unfold unpackPkg at unpacked
  dsimp only at unpacked
  split at unpacked
  case h_1 error closed =>
    cases unpacked
    exact .inl ⟨rfl, _, closed⟩
  case h_2 bs opened =>
    obtain ⟨⟨parsed, stream⟩, parses, pair⟩ := Option.map_eq_some_iff.mp unpacked
    have guarded := (calls bs opened).trans parses
    have kept : P stream.ctx.consumer :=
      (tarParse_ends (P := fun gis : VerifiedStream zlib Key InstallCtx => P gis.ctx.consumer)
        (fun _ _ _ holds reads =>
          Gzip.read_keeps (P := fun installer : Installer Key => P installer.consumer)
            (fun _ _ _ holds => holds) holds reads)
        (fun _ _ _ _ holds installed => by
          obtain ⟨here, installed⟩ := EntryParser.only_eq_some.mp installed
          exact keeps _ _ _ _ holds here installed)
        holds guarded).1
    have pending := rule.runPendingScript kept
    refine .inr ?_
    simp only [unpackEnd] at pair
    by_cases whole : parsed = 0
    · simp only [whole, ne_eq, not_true_eq_false, ↓reduceIte] at pair
      refine ⟨_, pending, ?_⟩
      split at pair
      case isTrue failed =>
        split at pair <;> cases pair
        · exact .stopped failed
        · exact .cleaned failed
      case isFalse =>
        cases pair
        exact .migrated
    · simp only [whole, ne_eq, not_false_eq_true, ↓reduceIte] at pair
      refine ⟨_, kept, ?_⟩
      split at pair <;> cases pair
      · exact .stopped whole
      · exact .cleaned whole

/-- **Unpacking any package.** All calls of the entry callback are allowed. -/
theorem unpackPkg_ends (rule : EntryRule env P Marked) {fuel : ℕ} {db : Database} {ipkg : IpkgId}
    {upgrade reinstall : Bool} {args : List Bytes} {r : ℤ} {ctx : InstallCtx}
    (holds : P
      { db := db
        pkg := (db.ipkgs.get ipkg).pkg
        ipkg := ipkg
        script := if upgrade then .preUpgrade else .preInstall
        scriptArgs := args })
    (unpacked : unpackPkg env zlib fuel db ipkg upgrade reinstall args = some (r, ctx)) :
    (ctx.db = db ∧ ∃ r, env.openPackage db (db.ipkgs.get ipkg).pkg = .inl r) ∨
      ∃ last, P last ∧ UnpackEnds env last r ctx :=
  rule.content.unpackPkg_ends
    (fun _ _ _ _ holds _ installed => installArchiveEntry_keeps rule holds installed)
    (fun _ _ => .all) holds unpacked

end AriannaLinux.Apk
