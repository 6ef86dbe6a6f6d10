import AriannaLinux.Apk.Database
import AriannaLinux.Lib.GuardedRun

/-! # Directories and their reference counts

Every user of a directory holds one reference to it, and so does every child
directory that is itself in use. `apk_db_dir_get` creates the missing part of a path
and `apk_db_dir_unref` releases the part of it that nobody uses any more. A released
directory stays in the table.
-/

namespace AriannaLinux.Apk.Database

/-- A length kept in an `unsigned short`. -/
def shortBlob (blob : Bytes) : Bytes := blob.take (blob.length % 65536)

/-- `apk_db_dir_ref`. -/
def dirRef (db : Database) (dir : DirId) : Database :=
  { db with dirs := db.dirs.modify dir fun d => { d with refs := d.refs + 1 } }

/-- `apk_db_dir_query`. -/
def dirQuery (db : Database) (name : Bytes) : Option DirId :=
  db.installedDirs.getHashed
    (fun dir => blobCompare name (db.dirs.get dir).name = 0) (blobHash name)

/-- The loop over the first characters of a protected path. -/
def protectedPrefix (flags : DirFlags) : Bytes → DirFlags × Bytes
  | [] => (flags, [])
  | c :: rest =>
      if c = ascii '-' then
        protectedPrefix { flags with isProtected := false, symlinksOnly := false } rest
      else if c = ascii '*' then
        protectedPrefix { flags with isProtected := true, symlinksOnly := true } rest
      else (flags, c :: rest)

/-- The flags after the protected paths have been looked through. -/
def protectedFlags (paths : List Bytes) (name : Bytes) (flags : DirFlags) : DirFlags :=
  paths.foldl (fun flags path =>
    let (changed, path) := protectedPrefix { flags with isProtected := true } path
    if path = cString name then changed else flags) flags

/-- `apk_db_dir_get` of a missing directory, before its parent is known. -/
def dirNew (db : Database) (name : Bytes) (hash : UInt64) : Database :=
  { db with
    stats := { db.stats with dirs := db.stats.dirs + 1 }
    dirs := db.dirs.alloc { name := shortBlob name, hash, refs := 1 }
    installedDirs := db.installedDirs.insertHashed db.dirs.size hash }

/-- `apk_db_dir_get` of a missing directory, after its parent was fetched. -/
def dirInit (db : Database) (dir : DirId) (name : Bytes) (parent : Option DirId) : Database :=
  let inherited := match parent with
    | none => {}
    | some parent => (db.dirs.get parent).flags
  let flags := protectedFlags db.protectedPaths name inherited
  { db with dirs := db.dirs.modify dir fun d => { d with parent, flags } }

/-- The name a directory's parent is fetched by. -/
def parentName (name : Bytes) : Option Bytes :=
  if name.length = 0 then none
  else
    match blobRsplit (ascii '/') name with
    | some (bparent, _) => some bparent
    | none => some []

/-- The name without one trailing `/`. -/
def stripSlash (name : Bytes) : Bytes :=
  if name.getLast? = some (ascii '/') then name.dropLast else name

/-- The lookup at the start of `apk_db_dir_get`: the hash is that of the name before
its trailing `/` is removed. -/
def dirLookup (db : Database) (name : Bytes) : Option DirId :=
  db.installedDirs.getHashed
    (fun dir => blobCompare (stripSlash name) (db.dirs.get dir).name = 0) (blobHash name)

/-- `apk_db_dir_get`. Each parent has a shorter name. -/
def dirGetLoop : ℕ → Database → Bytes → Database × DirId
  | 0, db, _ => (db, 0)
  | fuel + 1, db, name =>
      match db.dirLookup name with
      | some dir => (db.dirRef dir, dir)
      | none =>
          let dir := db.dirs.size
          let created := db.dirNew (stripSlash name) (blobHash name)
          match parentName (stripSlash name) with
          | none => (created.dirInit dir (stripSlash name) none, dir)
          | some bparent =>
              let (db, parent) := dirGetLoop fuel created bparent
              (db.dirInit dir (stripSlash name) (some parent), dir)

/-- `apk_db_dir_get`. -/
def dirGet (db : Database) (name : Bytes) : Database × DirId :=
  dirGetLoop (name.length + 1) db name

/-- `apk_db_dir_unref`: one reference less. -/
def dirDrop (db : Database) (dir : DirId) : Database :=
  { db with dirs := db.dirs.modify dir fun d => { d with refs := d.refs - 1 } }

/-- `apk_db_dir_unref` of a directory that nobody refers to any more. -/
def dirGone (db : Database) (dir : DirId) (allowRmdir : Bool) : Database :=
  let name := cString (db.dirs.get dir).name
  { db with
    stats := { db.stats with dirs := db.stats.dirs - 1 }
    rootCalls := if allowRmdir then .unlinkat name true :: db.rootCalls else db.rootCalls }

/-- `apk_db_dir_unref`. It only goes on to the parent of a directory whose count drops
from one to zero. -/
def dirUnrefLoop (allowRmdir : Bool) : ℕ → Database → DirId → Database
  | 0, db, _ => db
  | fuel + 1, db, dir =>
      let db := db.dirDrop dir
      if 0 < (db.dirs.get dir).refs then db
      else
        let db := db.dirGone dir allowRmdir
        match (db.dirs.get dir).parent with
        | none => db
        | some parent => dirUnrefLoop allowRmdir fuel db parent

/-- `apk_db_dir_unref`. -/
def dirUnref (db : Database) (dir : DirId) (allowRmdir : Bool) : Database :=
  dirUnrefLoop allowRmdir (db.dirs.size + 1) db dir

theorem length_parentName {name bparent : Bytes} (parent : parentName name = some bparent) :
    bparent.length < name.length := by
  unfold parentName at parent
  split at parent
  · cases parent
  · rename_i nonempty
    split at parent
    · rename_i l r split
      cases parent
      obtain ⟨rfl, -⟩ := blobRsplit_eq_some.mp split
      simp
    · cases parent
      exact Nat.pos_of_ne_zero nonempty

theorem length_stripSlash (name : Bytes) : (stripSlash name).length ≤ name.length := by
  unfold stripSlash
  split <;> simp

/-! ## What the counts stand for -/

/-- A directory in use. -/
def isLive (d : Dir) : Bool := d.refs ≠ 0

/-- A directory in use below another one. -/
def isLiveChild (dir : DirId) (d : Dir) : Bool := d.parent = some dir && isLive d

/-- How many directories below a directory are in use. -/
def liveChildren (db : Database) (dir : DirId) : ℕ := db.dirs.count (isLiveChild dir)

/-- How many directories are in use. -/
def liveDirs (db : Database) : ℕ := db.dirs.count isLive

/-- The counts are right when `gets` counts the outstanding calls of
`apk_db_dir_get` for each directory. -/
structure RefsCorrect (db : Database) (gets : DirId → ℕ) : Prop where
  refs : ∀ dir < db.dirs.size, (db.dirs.get dir).refs.toNat = gets dir + db.liveChildren dir
  dirs : db.stats.dirs = UInt32.ofNat db.liveDirs

/-- The counts are right, and the pointers of the directories lead to directories. -/
structure DirsCounted (db : Database) (gets : DirId → ℕ) : Prop extends RefsCorrect db gets where
  parent : ∀ dir parent, (db.dirs.get dir).parent = some parent → parent < db.dirs.size
  stored : ∀ dir ∈ db.installedDirs.items, dir < db.dirs.size
  held : ∀ dir, db.dirs.size ≤ dir → gets dir = 0

/-- One more reference held on a directory. -/
def addGet (gets : DirId → ℕ) (dir : DirId) : DirId → ℕ :=
  Function.update gets dir (gets dir + 1)

/-- One reference less held on a directory. -/
def dropGet (gets : DirId → ℕ) (dir : DirId) : DirId → ℕ :=
  Function.update gets dir (gets dir - 1)

@[simp] theorem addGet_self (gets : DirId → ℕ) (dir : DirId) :
    addGet gets dir dir = gets dir + 1 := by
  simp [addGet]

theorem addGet_of_ne (gets : DirId → ℕ) {dir other : DirId} (different : other ≠ dir) :
    addGet gets dir other = gets other := by
  simp [addGet, different]

@[simp] theorem dropGet_self (gets : DirId → ℕ) (dir : DirId) :
    dropGet gets dir dir = gets dir - 1 := by
  simp [dropGet]

theorem dropGet_of_ne (gets : DirId → ℕ) {dir other : DirId} (different : other ≠ dir) :
    dropGet gets dir other = gets other := by
  simp [dropGet, different]

@[simp] theorem dropGet_addGet (gets : DirId → ℕ) (dir : DirId) :
    dropGet (addGet gets dir) dir = gets := by
  simp [addGet, dropGet]

section Counting

variable {db : Database} {gets : DirId → ℕ}

theorem DirsCounted.lt_of_held (counted : DirsCounted db gets) {dir : DirId}
    (held : 0 < gets dir) : dir < db.dirs.size := by
  by_contra outside
  have nothing := counted.held dir (Nat.le_of_not_lt outside)
  omega

/-- A held directory is in use. -/
theorem DirsCounted.refs_pos (counted : DirsCounted db gets) {dir : DirId}
    (held : 0 < gets dir) : 0 < (db.dirs.get dir).refs.toNat := by
  rw [counted.refs dir (counted.lt_of_held held)]
  omega

theorem isLive_iff (d : Dir) : isLive d = true ↔ 0 < d.refs.toNat := by
  have zero : d.refs = 0 ↔ d.refs.toNat = 0 := by
    rw [← UInt16.toNat_inj]
    rfl
  simp only [isLive, ne_eq, decide_not, Bool.not_eq_eq_eq_not, Bool.not_true,
    decide_eq_false_iff_not, zero]
  omega

theorem toNat_refs_sub_one {refs : UInt16} (positive : 0 < refs.toNat) :
    (refs - 1).toNat = refs.toNat - 1 := by
  refine UInt16.toNat_sub_of_le _ _ ?_
  rw [UInt16.le_iff_toNat_le]
  exact positive

/-- What one rewriting of a directory does to the children of each directory. -/
theorem liveChildren_modify {dir : DirId} (inside : dir < db.dirs.size) (f : Dir → Dir)
    (other : DirId) :
    (db.dirs.modify dir f).count (isLiveChild other) +
        (isLiveChild other (db.dirs.get dir)).toNat =
      db.liveChildren other + (isLiveChild other (f (db.dirs.get dir))).toNat :=
  db.dirs.count_modify (isLiveChild other) f inside

/-- A rewriting that changes neither the parent nor whether a directory is in use
changes no count. -/
theorem liveChildren_modify_of_same {dir : DirId} (inside : dir < db.dirs.size) (f : Dir → Dir)
    (parent : (f (db.dirs.get dir)).parent = (db.dirs.get dir).parent)
    (live : isLive (f (db.dirs.get dir)) = isLive (db.dirs.get dir)) :
    (∀ other, (db.dirs.modify dir f).count (isLiveChild other) = db.liveChildren other) ∧
      (db.dirs.modify dir f).count isLive = db.liveDirs := by
  constructor
  · intro other
    have moved := liveChildren_modify inside f other
    simp only [isLiveChild, parent, live] at moved
    exact Nat.add_right_cancel moved
  · have moved := db.dirs.count_modify isLive f inside
    rw [live] at moved
    exact Nat.add_right_cancel moved

/-- After the rewriting of one directory only the counts are left to check, as long as
its parent is a directory. -/
theorem DirsCounted.of_modify (counted : DirsCounted db gets) {dir : DirId} {f : Dir → Dir}
    {next : Database} {gets' : DirId → ℕ} (correct : RefsCorrect next gets')
    (dirs : next.dirs = db.dirs.modify dir f) (table : next.installedDirs = db.installedDirs)
    (parent : ∀ p, (f (db.dirs.get dir)).parent = some p → p < db.dirs.size)
    (held : ∀ other, db.dirs.size ≤ other → gets' other = 0) : DirsCounted next gets' where
  toRefsCorrect := correct
  parent other p found := by
    rw [dirs, Arena.get_modify] at found
    rw [dirs, Arena.size_modify]
    split at found
    · rename_i here
      rw [← here.1] at found
      exact parent p found
    · exact counted.parent other p found
  stored other member := by
    rw [dirs, Arena.size_modify]
    exact counted.stored other (table ▸ member)
  held other outside := held other (by rwa [dirs, Arena.size_modify] at outside)

theorem DirsCounted.addGet_held (counted : DirsCounted db gets) {dir : DirId}
    (inside : dir < db.dirs.size) (other : DirId) (outside : db.dirs.size ≤ other) :
    addGet gets dir other = 0 := by
  rw [addGet_of_ne _ (Nat.ne_of_gt (Nat.lt_of_lt_of_le inside outside))]
  exact counted.held other outside

theorem DirsCounted.dropGet_held (counted : DirsCounted db gets) {dir : DirId}
    (inside : dir < db.dirs.size) (other : DirId) (outside : db.dirs.size ≤ other) :
    dropGet gets dir other = 0 := by
  rw [dropGet_of_ne _ (Nat.ne_of_gt (Nat.lt_of_lt_of_le inside outside))]
  exact counted.held other outside

/-- One more reference to a directory in use. -/
theorem DirsCounted.dirRef (counted : DirsCounted db gets) {dir : DirId}
    (inside : dir < db.dirs.size) (used : 0 < (db.dirs.get dir).refs.toNat)
    (room : (db.dirs.get dir).refs.toNat + 1 < 65536) :
    DirsCounted (db.dirRef dir) (addGet gets dir) := by
  have more : ((db.dirs.get dir).refs + 1).toNat = (db.dirs.get dir).refs.toNat + 1 := by
    rw [UInt16.toNat_add]
    exact Nat.mod_eq_of_lt room
  obtain ⟨children, live⟩ := liveChildren_modify_of_same inside
    (fun d => { d with refs := d.refs + 1 }) rfl (by
      rw [Bool.eq_iff_iff, isLive_iff, isLive_iff]
      simp only [more]
      omega)
  refine counted.of_modify ⟨fun other member => ?_, ?_⟩ rfl rfl
    (fun p found => counted.parent dir p found) (counted.addGet_held inside)
  · have before := counted.refs other (by simpa [Database.dirRef] using member)
    have same : (db.dirRef dir).liveChildren other = db.liveChildren other := children other
    rw [same]
    by_cases here : other = dir
    · subst here
      rw [Database.dirRef, Arena.get_modify_self _ _ inside, addGet_self, more, before]
      omega
    · rw [Database.dirRef, Arena.get_modify_of_ne _ _ (Ne.symm here), addGet_of_ne _ here, before]
  · have same : (db.dirRef dir).liveDirs = db.liveDirs := live
    rw [same]
    exact counted.dirs

/-- A new directory, held once, before its parent is known. -/
theorem DirsCounted.dirNew (counted : DirsCounted db gets) (name : Bytes) (hash : UInt64) :
    DirsCounted (db.dirNew name hash) (addGet gets db.dirs.size) := by
  let new : Dir := { name := shortBlob name, hash, refs := 1 }
  have dirs : (db.dirNew name hash).dirs = db.dirs.alloc new := rfl
  have children : ∀ other, (db.dirNew name hash).liveChildren other = db.liveChildren other := by
    intro other
    rw [liveChildren, dirs, Arena.count_alloc]
    simp [isLiveChild, new, liveChildren]
  have childless : db.liveChildren db.dirs.size = 0 := by
    refine db.dirs.count_eq_zero fun i _ => ?_
    have other : (db.dirs.get i).parent ≠ some db.dirs.size :=
      fun found => (counted.parent i _ found).false
    simp [isLiveChild, other]
  refine ⟨⟨fun other member => ?_, ?_⟩, fun other p found => ?_, fun other member => ?_,
    fun other outside => ?_⟩
  · rw [children, dirs, Arena.get_alloc]
    split
    · rename_i here
      subst here
      rw [addGet_self, counted.held _ (Nat.le_refl _), childless]
      rfl
    · rename_i old
      rw [addGet_of_ne _ old]
      exact counted.refs other (by simp only [dirs, Arena.size_alloc] at member; omega)
  · have more : (db.dirNew name hash).liveDirs = db.liveDirs + 1 := by
      rw [liveDirs, dirs, Arena.count_alloc]
      rfl
    rw [more, UInt32.ofNat_add, ← counted.dirs]
    rfl
  · rw [dirs, Arena.get_alloc] at found
    rw [dirs, Arena.size_alloc]
    split at found
    · cases found
    · exact Nat.lt_succ_of_lt (counted.parent other p found)
  · rw [dirs, Arena.size_alloc]
    rcases Hash.mem_items_insertHashed.mp member with rfl | member
    · exact Nat.lt_succ_self _
    · exact Nat.lt_succ_of_lt (counted.stored other member)
  · rw [dirs, Arena.size_alloc] at outside
    rw [addGet_of_ne _ (Nat.ne_of_gt outside)]
    exact counted.held other (Nat.le_of_lt outside)

/-- A new directory whose parent is known: the reference held on the parent becomes the
one of a child in use. -/
theorem DirsCounted.dirInit (counted : DirsCounted db gets) {dir parent : DirId}
    (inside : dir < db.dirs.size) (orphan : (db.dirs.get dir).parent = none)
    (used : 0 < (db.dirs.get dir).refs.toNat) (held : 0 < gets parent) (name : Bytes) :
    DirsCounted (db.dirInit dir name (some parent)) (dropGet gets parent) := by
  have within := counted.lt_of_held held
  let init : Dir → Dir := fun d => { d with
    parent := some parent
    flags := protectedFlags db.protectedPaths name (db.dirs.get parent).flags }
  have dirs : (db.dirInit dir name (some parent)).dirs = db.dirs.modify dir init := rfl
  have children : ∀ other, (db.dirInit dir name (some parent)).liveChildren other =
      db.liveChildren other + if other = parent then 1 else 0 := by
    intro other
    have moved := liveChildren_modify inside init other
    have live : isLive (db.dirs.get dir) = true := (isLive_iff _).mpr used
    have live' : isLive (init (db.dirs.get dir)) = true := live
    simp only [isLiveChild, orphan, live', init] at moved
    rw [liveChildren, dirs]
    by_cases here : other = parent
    · simpa [here] using moved
    · simpa [here, Ne.symm here] using moved
  refine counted.of_modify ⟨fun other member => ?_, ?_⟩ dirs rfl
    (fun p found => by cases found; exact within) (counted.dropGet_held within)
  · rw [children, dirs, Arena.get_modify_field Dir.refs _ _ _ init fun _ => rfl,
      counted.refs other (by simpa [dirs] using member)]
    by_cases here : other = parent
    · subst here
      rw [dropGet_self, if_pos rfl]
      omega
    · rw [dropGet_of_ne _ here, if_neg here, Nat.add_zero]
  · have same : (db.dirInit dir name (some parent)).liveDirs = db.liveDirs :=
      Nat.add_right_cancel (db.dirs.count_modify isLive init inside)
    rw [same]
    exact counted.dirs

/-- The topmost directory has no parent to fetch. -/
theorem DirsCounted.dirInit_none (counted : DirsCounted db gets) {dir : DirId}
    (inside : dir < db.dirs.size) (orphan : (db.dirs.get dir).parent = none) (name : Bytes) :
    DirsCounted (db.dirInit dir name none) gets := by
  obtain ⟨children, live⟩ := liveChildren_modify_of_same inside
    (fun d => { d with parent := none, flags := protectedFlags db.protectedPaths name {} })
    orphan.symm rfl
  refine counted.of_modify ⟨fun other member => ?_, ?_⟩ rfl rfl (fun p found => by cases found)
    counted.held
  · have same : (db.dirInit dir name none).liveChildren other = db.liveChildren other :=
      children other
    rw [same, ← counted.refs other (by simpa [Database.dirInit] using member)]
    exact congrArg UInt16.toNat (Arena.get_modify_field Dir.refs _ _ _ _ fun _ => rfl)
  · have same : (db.dirInit dir name none).liveDirs = db.liveDirs := live
    rw [same]
    exact counted.dirs

/-- A reference less to a directory that stays in use. -/
theorem DirsCounted.dirDrop (counted : DirsCounted db gets) {dir : DirId} (held : 0 < gets dir)
    (used : 1 < (db.dirs.get dir).refs.toNat) :
    DirsCounted (db.dirDrop dir) (dropGet gets dir) := by
  have inside := counted.lt_of_held held
  have less := toNat_refs_sub_one (Nat.lt_of_succ_lt used)
  obtain ⟨children, live⟩ := liveChildren_modify_of_same inside
    (fun d => { d with refs := d.refs - 1 }) rfl (by
      rw [Bool.eq_iff_iff, isLive_iff, isLive_iff]
      simp only [less]
      omega)
  refine counted.of_modify ⟨fun other member => ?_, ?_⟩ rfl rfl
    (fun p found => counted.parent dir p found) (counted.dropGet_held inside)
  · have before := counted.refs other (by simpa [Database.dirDrop] using member)
    have same : (db.dirDrop dir).liveChildren other = db.liveChildren other := children other
    rw [same]
    by_cases here : other = dir
    · subst here
      rw [Database.dirDrop, Arena.get_modify_self _ _ inside, dropGet_self, less, before]
      omega
    · rw [Database.dirDrop, Arena.get_modify_of_ne _ _ (Ne.symm here), dropGet_of_ne _ here,
        before]
  · have same : (db.dirDrop dir).liveDirs = db.liveDirs := live
    rw [same]
    exact counted.dirs

/-- The last reference: the directory goes out of use, and the reference of its parent
to it is now one to drop. -/
theorem DirsCounted.dirGone (counted : DirsCounted db gets) {dir : DirId} (held : 0 < gets dir)
    (last : (db.dirs.get dir).refs.toNat = 1) (allowRmdir : Bool) :
    ((db.dirDrop dir).dirGone dir allowRmdir).liveDirs + 1 = db.liveDirs ∧
      DirsCounted ((db.dirDrop dir).dirGone dir allowRmdir)
        (match (db.dirs.get dir).parent with
          | none => dropGet gets dir
          | some parent => addGet (dropGet gets dir) parent) := by
  have inside := counted.lt_of_held held
  have before := counted.refs dir inside
  have gone := toNat_refs_sub_one (last ▸ Nat.one_pos)
  let drop : Dir → Dir := fun d => { d with refs := d.refs - 1 }
  have live : isLive (db.dirs.get dir) = true := (isLive_iff _).mpr (by omega)
  have dead : isLive (drop (db.dirs.get dir)) = false := by
    rw [Bool.eq_false_iff, ne_eq, isLive_iff]
    simp only [drop, gone]
    omega
  have dirs : ((db.dirDrop dir).dirGone dir allowRmdir).dirs = db.dirs.modify dir drop := rfl
  have fewer : ((db.dirDrop dir).dirGone dir allowRmdir).liveDirs + 1 = db.liveDirs := by
    have moved := db.dirs.count_modify isLive drop inside
    rw [live, dead] at moved
    exact moved
  have children : ∀ other, ((db.dirDrop dir).dirGone dir allowRmdir).liveChildren other +
      (if (db.dirs.get dir).parent = some other then 1 else 0) = db.liveChildren other := by
    intro other
    have moved := liveChildren_modify inside drop other
    simp only [isLiveChild, live, dead, Bool.and_true, Bool.and_false, Bool.toNat_false,
      Nat.add_zero] at moved
    rw [liveChildren, dirs, ← moved]
    split <;> simp [*]
  have exchanged : ∀ other, (match (db.dirs.get dir).parent with
        | none => dropGet gets dir
        | some parent => addGet (dropGet gets dir) parent) other + (if other = dir then 1 else 0) =
      gets other + (if (db.dirs.get dir).parent = some other then 1 else 0) := by
    intro other
    have dropped : dropGet gets dir other + (if other = dir then 1 else 0) = gets other := by
      by_cases here : other = dir
      · subst here
        rw [dropGet_self, if_pos rfl]
        omega
      · rw [dropGet_of_ne _ here, if_neg here, Nat.add_zero]
    cases (db.dirs.get dir).parent with
    | none => simpa using dropped
    | some parent =>
        by_cases here : other = parent
        · subst here
          simp only [addGet_self, ↓reduceIte]
          omega
        · simp only [addGet_of_ne _ here, Option.some.injEq, Ne.symm here, ↓reduceIte]
          omega
  refine ⟨fewer, counted.of_modify ⟨fun other member => ?_, ?_⟩ dirs rfl
    (fun p found => counted.parent dir p found) fun other outside => ?_⟩
  · have old := counted.refs other (by simpa [dirs] using member)
    have moved := children other
    have held' := exchanged other
    rw [dirs]
    by_cases here : other = dir
    · subst here
      rw [Arena.get_modify_self _ _ inside]
      simp only [drop, gone, ↓reduceIte] at held' ⊢
      omega
    · rw [Arena.get_modify_of_ne _ _ (Ne.symm here)]
      simp only [here, ↓reduceIte] at held'
      omega
  · have stats : ((db.dirDrop dir).dirGone dir allowRmdir).stats.dirs = db.stats.dirs - 1 := rfl
    rw [stats, counted.dirs, ← fewer, UInt32.ofNat_add]
    exact UInt32.add_sub_cancel ..
  · have nothing := exchanged other
    have unrelated : (db.dirs.get dir).parent ≠ some other := fun found =>
      Nat.not_lt_of_le outside (counted.parent dir other found)
    have elsewhere : other ≠ dir := Nat.ne_of_gt (Nat.lt_of_lt_of_le inside outside)
    rw [if_neg elsewhere, if_neg unrelated, counted.held other outside] at nothing
    exact nothing

end Counting

/-! ## Fetching and releasing -/

/-- The count of the existing directory at which the search up a path ends. -/
def stopRefs : ℕ → Database → Bytes → Option UInt16
  | 0, _, _ => none
  | fuel + 1, db, name =>
      match db.dirLookup name with
      | some dir => some (db.dirs.get dir).refs
      | none =>
          match parentName (stripSlash name) with
          | none => none
          | some bparent => stopRefs fuel (db.dirNew (stripSlash name) (blobHash name)) bparent

/-- The search up a path ends at a directory in use whose count can still grow, or at
no directory at all. -/
def StopsInUse (db : Database) (name : Bytes) : Prop :=
  ∀ refs ∈ stopRefs (name.length + 1) db name, 0 < refs.toNat ∧ refs.toNat + 1 < 65536

instance (db : Database) (name : Bytes) : Decidable (StopsInUse db name) :=
  Option.decidableForallMem _

theorem dirGetLoop_spec (fuel : ℕ) {db : Database} {gets : DirId → ℕ} {name : Bytes}
    (enough : name.length < fuel) (counted : DirsCounted db gets)
    (used : ∀ refs ∈ stopRefs fuel db name, 0 < refs.toNat ∧ refs.toNat + 1 < 65536) :
    DirsCounted (dirGetLoop fuel db name).1 (addGet gets (dirGetLoop fuel db name).2) ∧
      db.dirs.size ≤ (dirGetLoop fuel db name).1.dirs.size ∧
      ∀ dir < db.dirs.size,
        ((dirGetLoop fuel db name).1.dirs.get dir).parent = (db.dirs.get dir).parent := by
  induction fuel generalizing db gets name with
  | zero => omega
  | succ fuel ih =>
      simp only [stopRefs] at used
      rw [dirGetLoop]
      cases looked : db.dirLookup name with
      | some dir =>
          simp only [looked, Option.mem_def, Option.some.injEq, forall_eq'] at used
          obtain ⟨member, -⟩ := Hash.getHashed_eq_some looked
          refine ⟨counted.dirRef (counted.stored dir member) used.1 used.2, ?_, fun other _ => ?_⟩
          · simp [dirRef]
          · exact Arena.get_modify_field Dir.parent _ _ _ _ fun _ => rfl
      | none =>
          simp only [looked] at used
          have new := counted.dirNew (stripSlash name) (blobHash name)
          have grown : (db.dirNew (stripSlash name) (blobHash name)).dirs.size =
              db.dirs.size + 1 := Arena.size_alloc ..
          have orphan : ((db.dirNew (stripSlash name) (blobHash name)).dirs.get
              db.dirs.size).parent = none := by
            simp only [dirNew, Arena.get_alloc_self]
          have old : ∀ dir < db.dirs.size, ((db.dirNew (stripSlash name) (blobHash name)).dirs.get
              dir).parent = (db.dirs.get dir).parent := fun dir inside => by
            simp only [dirNew, Arena.get_alloc_of_lt _ _ inside]
          cases above : parentName (stripSlash name) with
          | none =>
              dsimp only
              have fits : db.dirs.size < (db.dirNew (stripSlash name) (blobHash name)).dirs.size :=
                grown ▸ Nat.lt_succ_self _
              refine ⟨new.dirInit_none fits orphan _, ?_, fun dir inside => ?_⟩
              · simp only [dirInit, Arena.size_modify]
                omega
              · rw [dirInit, Arena.get_modify_of_ne _ _ (Nat.ne_of_gt inside)]
                exact old dir inside
          | some bparent =>
              simp only [above] at used
              have shorter := length_parentName above
              have within := length_stripSlash name
              obtain ⟨fetched, larger, kept⟩ := ih (by omega) new used
              dsimp only
              generalize dirGetLoop fuel (db.dirNew (stripSlash name) (blobHash name)) bparent =
                result at fetched larger kept ⊢
              obtain ⟨db', parent⟩ := result
              dsimp only at fetched larger kept ⊢
              have inside : db.dirs.size < db'.dirs.size := by omega
              -- the new directory is still an orphan, and held, when its parent is entered
              have alone : (db'.dirs.get db.dirs.size).parent = none :=
                (kept _ (by omega)).trans orphan
              have held : 0 < addGet (addGet gets db.dirs.size) parent db.dirs.size := by
                by_cases same : db.dirs.size = parent
                · rw [← same, addGet_self]
                  omega
                · rw [addGet_of_ne _ same, addGet_self]
                  omega
              have parentHeld : 0 < addGet (addGet gets db.dirs.size) parent parent := by
                rw [addGet_self]
                omega
              have init := fetched.dirInit inside alone (fetched.refs_pos held) parentHeld
                (stripSlash name)
              rw [dropGet_addGet] at init
              refine ⟨init, ?_, fun dir old' => ?_⟩
              · simp only [dirInit, Arena.size_modify]
                omega
              · rw [dirInit, Arena.get_modify_of_ne _ _ (Nat.ne_of_gt old'), ← old dir old']
                exact kept dir (by omega)

/-- **Fetching a directory.** If the search up the path ends in use, one more reference
is held on the result and every count stays right. -/
theorem DirsCounted.dirGet {db : Database} {gets : DirId → ℕ} (counted : DirsCounted db gets)
    {name : Bytes} (used : StopsInUse db name) :
    DirsCounted (db.dirGet name).1 (addGet gets (db.dirGet name).2) :=
  (dirGetLoop_spec _ (Nat.lt_succ_self _) counted used).1

theorem dirUnrefLoop_spec (allowRmdir : Bool) (fuel : ℕ) {db : Database} {gets : DirId → ℕ}
    {dir : DirId} (enough : db.liveDirs < fuel) (counted : DirsCounted db gets)
    (held : 0 < gets dir) :
    DirsCounted (dirUnrefLoop allowRmdir fuel db dir) (dropGet gets dir) := by
  induction fuel generalizing db gets dir with
  | zero => omega
  | succ fuel ih =>
      have inside := counted.lt_of_held held
      have positive := counted.refs_pos held
      have kept : ((db.dirDrop dir).dirs.get dir).parent = (db.dirs.get dir).parent :=
        Arena.get_modify_field Dir.parent _ _ _ _ fun _ => rfl
      have refs : ((db.dirDrop dir).dirs.get dir).refs.toNat = (db.dirs.get dir).refs.toNat - 1 := by
        rw [dirDrop, Arena.get_modify_self _ _ inside]
        exact toNat_refs_sub_one positive
      simp only [dirUnrefLoop, UInt16.lt_iff_toNat_lt, refs]
      by_cases used : 1 < (db.dirs.get dir).refs.toNat
      · rw [if_pos (by simp; omega)]
        exact counted.dirDrop held used
      · rw [if_neg (by simp; omega)]
        obtain ⟨fewer, gone⟩ := counted.dirGone held (by omega) allowRmdir
        have same : (((db.dirDrop dir).dirGone dir allowRmdir).dirs.get dir).parent =
            (db.dirs.get dir).parent := kept
        rw [same]
        cases above : (db.dirs.get dir).parent with
        | none =>
            rw [above] at gone
            exact gone
        | some parent =>
            rw [above] at gone
            dsimp only at gone
            -- the parent holds the reference of the child that went out of use
            have parentHeld : 0 < addGet (dropGet gets dir) parent parent := by
              rw [addGet_self]
              omega
            have released := ih (by omega) gone parentHeld
            rwa [dropGet_addGet] at released

/-- **Releasing a directory.** A held directory loses one reference, and so does every
parent that went out of use with its child. -/
theorem DirsCounted.dirUnref {db : Database} {gets : DirId → ℕ} (counted : DirsCounted db gets)
    {dir : DirId} (held : 0 < gets dir) (allowRmdir : Bool) :
    DirsCounted (db.dirUnref dir allowRmdir) (dropGet gets dir) :=
  dirUnrefLoop_spec allowRmdir _ (Nat.lt_succ_of_le (List.countP_le_length ..)) counted held

/-! ## Runs -/

/-- A user of the directory table. -/
inductive DirAction where
  | get (name : Bytes)
  | unref (dir : DirId) (allowRmdir : Bool)
  deriving DecidableEq, Repr

/-- The database, and how many calls of `apk_db_dir_get` are outstanding for each
directory. -/
structure DirRun where
  db : Database := {}
  gets : DirId → ℕ := fun _ => 0

/-- One call. Each release matches an earlier fetch. -/
def dirStep (state : DirRun) : DirAction → Option DirRun
  | .get name =>
      let (db, dir) := state.db.dirGet name
      some ⟨db, addGet state.gets dir⟩
  | .unref dir allowRmdir =>
      if 0 < state.gets dir then
        some ⟨state.db.dirUnref dir allowRmdir, dropGet state.gets dir⟩
      else none

/-- The condition on a call: the search up the path meets no released directory, and no
directory gets 65536 references. -/
def DirCondition (state : DirRun) : DirAction → Prop
  | .get name => state.db.StopsInUse name
  | .unref _ _ => True

instance (state : DirRun) : DecidablePred (DirCondition state)
  | .get name => inferInstanceAs (Decidable (state.db.StopsInUse name))
  | .unref _ _ => inferInstanceAs (Decidable True)

theorem dirsCounted_start : DirsCounted {} fun _ => 0 := by
  refine ⟨⟨fun dir inside => ?_, rfl⟩, fun dir parent found => ?_, fun dir member => ?_,
    fun _ _ => rfl⟩
  · cases inside
  · rw [Arena.get_of_size_le _ (Nat.zero_le dir)] at found
    cases found
  · simp at member

theorem DirsCounted.step {state next : DirRun} {action : DirAction}
    (counted : DirsCounted state.db state.gets) (condition : DirCondition state action)
    (stepped : dirStep state action = some next) : DirsCounted next.db next.gets := by
  cases action with
  | get name =>
      cases stepped
      exact counted.dirGet condition
  | unref dir allowRmdir =>
      simp only [dirStep] at stepped
      split at stepped
      · rename_i held
        cases stepped
        exact counted.dirUnref held allowRmdir
      · cases stepped

/-- **Reference counts after a run.** As long as no fetch meets a released directory,
every count is the number of outstanding fetches and of children in use, and the number
of directories in use is the one reported. -/
theorem refs_correct_of_noneReleased {actions : List DirAction} {final : DirRun}
    (inUse : Guarded dirStep DirCondition {} actions)
    (reached : run dirStep {} actions = some final) : RefsCorrect final.db final.gets := by
  have counted : DirsCounted final.db final.gets :=
    inUse.invariant (fun state => DirsCounted state.db state.gets)
      (fun _ _ _ counted condition => counted.step condition) dirsCounted_start reached
  exact counted.toRefsCorrect

theorem refs_correct_sharedParent :
    ∃ final, run dirStep {} [.get (text "a/b"), .get (text "a"), .unref 0 true] = some final ∧
      RefsCorrect final.db final.gets := by
  have inUse : Guarded dirStep DirCondition {}
      [.get (text "a/b"), .get (text "a"), .unref 0 true] := by
    refine .cons rfl ?_ (.cons rfl ?_ (.cons rfl trivial trivial))
    · decide +kernel
    · decide +kernel
  exact ⟨_, rfl, refs_correct_of_noneReleased inUse rfl⟩

/-- **A released directory is fetched wrongly.** It gets a reference again, but it is
not counted as in use again, and its parent is not fetched. -/
theorem refs_incorrect_releasedDirectory :
    ∃ final, run dirStep {} [.get (text "a"), .unref 0 true, .get (text "a")] = some final ∧
      ¬ RefsCorrect final.db final.gets := by
  refine ⟨_, rfl, fun correct => absurd correct.dirs ?_⟩
  decide +kernel

end AriannaLinux.Apk.Database
