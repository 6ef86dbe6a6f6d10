import AriannaLinux.Apk.Database
import AriannaLinux.Apk.Io.Pieces

/-! # Dependencies and their text

The functions of `package.c` that read and write dependencies. A dependency is read by
splitting its text, which does not need the database, and looking its name up. The text
written for a dependency is split into the same parts again (`splitDep_written`), so what
`apk_deps_write` wrote is read back as it was.
-/

namespace AriannaLinux.Apk

/-- `-EINVAL`. -/
def einval : ℤ := -22

/-- The parts of a dependency as texts. -/
structure DepText where
  name : Bytes
  mask : ℕ
  version : Option Bytes
  deriving DecidableEq, Repr

/-- The characters a version operator is made of. -/
def depOperators : Bytes := text "<>="

/-- The mask with the bit of a character of the operator. -/
def addOperator (mask : ℕ) (c : UInt8) : ℕ :=
  if c = ascii '<' then mask ||| versionLess
  else if c = ascii '>' then mask ||| versionGreater
  else if c = ascii '=' then mask ||| versionEqual
  else mask

/-- The loop of `apk_dep_from_blob` over the operator. -/
def operatorMask (bop : Bytes) : ℕ := bop.foldl addOperator 0

/-- `apk_dep_from_blob` up to the lookup of the name. An empty blob is the end of a C
string, so a NUL is read as its first character. -/
def splitDep (blob : Bytes) : Except ℤ DepText :=
  let mask := if blob.head? = some (ascii '!') then depmaskConflict else depmaskRequire
  let blob := if blob.head? = some (ascii '!') then blob.tail else blob
  match blobCspn blob depOperators with
  | none => .ok ⟨blob, mask, none⟩
  | some (bname, bop) =>
      if mask = 0 then .error einval
      else
        match blobSpn bop depOperators with
        | none => .error einval
        | some (bop, bver) =>
            let mask := operatorMask bop
            if mask &&& (versionLess ||| versionGreater) = versionLess ||| versionGreater then
              .error einval
            else if !versionValidate bver then .error einval
            else .ok ⟨bname, mask, some (blobCstr bver)⟩

/-- `apk_blob_push_dep`. -/
def pushDep (names : Arena Name) (dst : PushBlob) (dep : Dependency) : PushBlob :=
  let dst := if dep.resultMask = depmaskConflict then pushBlob dst (text "!") else dst
  let dst := pushBlob dst (names.get dep.name).name
  if dep.resultMask ≠ depmaskConflict ∧ dep.resultMask ≠ depmaskRequire then
    pushBlob (pushBlob dst (versionOpString dep.resultMask)) (dep.version.getD [])
  else dst

/-- `sizeof(tmp)` in `apk_deps_write`. -/
def depBuffer : ℕ := 256

section Write

variable {Stream : Type*} (write : Stream → Bytes → Option (ℤ × Stream))

/-- The loop of `apk_deps_write`; `i` dependencies and `n` bytes are written. -/
def depsWriteLoop (names : Arena Name) :
    List Dependency → ℕ → ℤ → Stream → Option (ℤ × Stream)
  | [], _, n, os => some (n, os)
  | dep :: deps, i, n, os =>
      let blob := if i ≠ 0 then pushBlob (blobBuf depBuffer) (text " ") else blobBuf depBuffer
      match blobPushed (pushDep names blob dep) with
      | none => some (-1, os)
      | some blob =>
          writeOrFail write blob (depsWriteLoop names deps (i + 1) (n + blob.length)) os

/-- `apk_deps_write` on a stream with the `write` method given. -/
def depsWrite (names : Arena Name) (deps : List Dependency) (os : Stream) :
    Option (ℤ × Stream) :=
  depsWriteLoop write names deps 0 0 os

end Write

namespace Database

/-- `apk_dep_from_blob`. -/
def depFromBlob (db : Database) (blob : Bytes) : Except ℤ (Database × Dependency) :=
  match splitDep blob with
  | .error r => .error r
  | .ok parts =>
      let (db, name) := db.getName parts.name
      .ok (db, ⟨name, parts.mask, parts.version⟩)

/-- `parse_depend`. -/
def parseDepend (ctx : Database × List Dependency) (blob : Bytes) :
    ℤ × Database × List Dependency :=
  if blob = [] then (0, ctx)
  else
    match ctx.1.depFromBlob blob with
    | .error _ => (-1, ctx)
    | .ok (db, p) => (0, db, ctx.2 ++ [p])

end Database

/-- The text without the newline that ends it. -/
def stripNewline (blob : Bytes) : Bytes :=
  if blob.getLast? = some newline then blob.dropLast else blob

namespace Database

/-- `apk_deps_parse`; the result of the iteration is dropped. -/
def depsParse (db : Database) (depends : List Dependency) (blob : Bytes) :
    Database × List Dependency :=
  (forEachSegment (stripNewline blob) (text " ") parseDepend (db, depends)).2

/-- Dependencies read one after the other, each from its own text. -/
def depsFromBlobs (db : Database) : List Bytes → Except ℤ (Database × List Dependency)
  | [] => .ok (db, [])
  | blob :: blobs => do
      let (db, dep) ← db.depFromBlob blob
      let (db, deps) ← db.depsFromBlobs blobs
      pure (db, dep :: deps)

/-- What a dependency says, the name as text. -/
def depText (db : Database) (dep : Dependency) : DepText :=
  ⟨(db.names.get dep.name).name, dep.resultMask, dep.version⟩

end Database

/-! ## One dependency -/

/-- The text `apk_blob_push_dep` stores. -/
def DepText.written (parts : DepText) : Bytes :=
  if parts.mask = depmaskConflict then text "!" ++ parts.name
  else if parts.mask = depmaskRequire then parts.name
  else parts.name ++ versionOpString parts.mask ++ parts.version.getD []

theorem pushDep_eq (db : Database) (dst : PushBlob) (dep : Dependency) :
    pushDep db.names dst dep = pushBlob dst (db.depText dep).written := by
  unfold pushDep DepText.written Database.depText pushBlob
  by_cases conflict : dep.resultMask = depmaskConflict
  · have fixed : ¬ (dep.resultMask ≠ depmaskConflict ∧ dep.resultMask ≠ depmaskRequire) :=
      fun both => both.1 conflict
    simp only [conflict, ↓reduceIte, ne_eq, not_true_eq_false, false_and]
    rw [BoundedBuffer.push_append]
  · by_cases require : dep.resultMask = depmaskRequire
    · simp [require, depmaskRequire, depmaskConflict, versionEqual, versionLess, versionGreater]
    · simp only [conflict, require, ↓reduceIte, ne_eq, not_false_eq_true, and_self]
      rw [BoundedBuffer.push_append, BoundedBuffer.push_append]

/-- No character of an operator, and no NUL. -/
def NoOperator (name : Bytes) : Prop := ∀ c ∈ name, inSet depOperators c = false

/-- The masks of the five operators. -/
def OperatorMask (mask : ℕ) : Prop :=
  mask ≠ 0 ∧ mask < 8 ∧
    mask &&& (versionLess ||| versionGreater) ≠ versionLess ||| versionGreater

/-- The parts that a text without NUL is split into. -/
inductive DepText.WellFormed : DepText → Prop
  | conflict {name : Bytes} : NoOperator name → WellFormed ⟨name, depmaskConflict, none⟩
  | require {name : Bytes} : NoOperator name → name.head? ≠ some (ascii '!') →
      WellFormed ⟨name, depmaskRequire, none⟩
  | versioned {name version : Bytes} {mask : ℕ} : NoOperator name →
      name.head? ≠ some (ascii '!') → OperatorMask mask →
      (∃ c rest, version = c :: rest ∧ inSet depOperators c = false) → 0 ∉ version →
      versionValidate version = true → WellFormed ⟨name, mask, some version⟩

theorem addOperator_lt {mask : ℕ} (small : mask < 8) (c : UInt8) : addOperator mask c < 8 := by
  have joined : ∀ bit < 8, mask ||| bit < 8 := fun bit other =>
    Nat.or_lt_two_pow (n := 3) small other
  unfold addOperator
  split
  · exact joined _ (by decide)
  · split
    · exact joined _ (by decide)
    · split
      · exact joined _ (by decide)
      · exact small

theorem operatorMask_lt (bop : Bytes) : operatorMask bop < 8 := by
  have loop : ∀ (bop : Bytes) (mask : ℕ), mask < 8 → bop.foldl addOperator mask < 8 := by
    intro bop
    induction bop with
    | nil => exact fun mask small => small
    | cons c bop ih => exact fun mask small => ih _ (addOperator_lt small c)
  exact loop bop 0 (by decide)

theorem addOperator_ne_zero {mask : ℕ} (c : UInt8)
    (present : mask ≠ 0 ∨ c ∈ depOperators) : addOperator mask c ≠ 0 := by
  have joined : ∀ bit, bit ≠ 0 → mask ||| bit ≠ 0 := by
    intro bit nonzero none
    exact nonzero (Nat.or_eq_zero_iff.mp none).2
  unfold addOperator
  split
  · exact joined _ (by decide)
  · split
    · exact joined _ (by decide)
    · split
      · exact joined _ (by decide)
      · rename_i less greater equal
        refine present.resolve_right fun member => ?_
        have listed : c = ascii '<' ∨ c = ascii '>' ∨ c = ascii '=' := by
          simpa [depOperators, text] using member
        rcases listed with same | same | same
        · exact less same
        · exact greater same
        · exact equal same

theorem operatorMask_ne_zero {c : UInt8} {bop : Bytes} (operator : c ∈ depOperators) :
    operatorMask (c :: bop) ≠ 0 := by
  have loop : ∀ (bop : Bytes) (mask : ℕ), mask ≠ 0 → bop.foldl addOperator mask ≠ 0 := by
    intro bop
    induction bop with
    | nil => exact fun mask nonzero => nonzero
    | cons c bop ih => exact fun mask nonzero => ih _ (addOperator_ne_zero c (.inl nonzero))
  exact loop bop _ (addOperator_ne_zero c (.inr operator))

theorem operatorMask_opString {mask : ℕ} (operator : OperatorMask mask) :
    operatorMask (versionOpString mask) = mask ∧
      (∀ c ∈ versionOpString mask, inSet depOperators c = true) ∧ versionOpString mask ≠ [] := by
  obtain ⟨nonzero, small, oneSided⟩ := operator
  interval_cases mask <;> revert nonzero oneSided <;> decide +kernel

/-- How a text is split: into a conflict, a bare name, or a name, an operator and a
version. -/
inductive SplitsInto : Bytes → DepText → Prop
  | conflict {name : Bytes} : NoOperator name →
      SplitsInto (ascii '!' :: name) ⟨name, depmaskConflict, none⟩
  | require {name : Bytes} : NoOperator name → name.head? ≠ some (ascii '!') →
      SplitsInto name ⟨name, depmaskRequire, none⟩
  | versioned {name op version : Bytes} : NoOperator name →
      (name ++ (op ++ version)).head? ≠ some (ascii '!') →
      (∃ c rest, op = c :: rest) → (∀ c ∈ op, inSet depOperators c = true) →
      (∃ c rest, version = c :: rest ∧ inSet depOperators c = false) →
      operatorMask op &&& (versionLess ||| versionGreater) ≠ versionLess ||| versionGreater →
      versionValidate version = true →
      SplitsInto (name ++ (op ++ version)) ⟨name, operatorMask op, some (blobCstr version)⟩

theorem splitDep_cases {blob : Bytes} {parts : DepText} (split : splitDep blob = .ok parts) :
    SplitsInto blob parts := by
  unfold splitDep at split
  by_cases marked : blob.head? = some (ascii '!')
  · simp only [marked, ↓reduceIte] at split
    obtain ⟨name, rfl⟩ : ∃ name, blob = ascii '!' :: name := by
      cases blob with
      | nil => cases marked
      | cons c name => exact ⟨name, by rw [Option.some.inj marked]⟩
    cases operator : blobCspn (ascii '!' :: name).tail depOperators with
    | none =>
        rw [operator] at split
        cases split
        exact .conflict (blobCspn_eq_none.mp operator)
    | some pair =>
        rw [operator] at split
        cases split
  · simp only [marked, ↓reduceIte, show depmaskRequire ≠ 0 by decide] at split
    cases operator : blobCspn blob depOperators with
    | none =>
        rw [operator] at split
        cases split
        exact .require (blobCspn_eq_none.mp operator) marked
    | some pair =>
        obtain ⟨bname, bop⟩ := pair
        obtain ⟨rfl, plain, first, rest, front, stops⟩ := blobCspn_eq_some.mp operator
        rw [operator] at split
        cases spanned : blobSpn bop depOperators with
        | none => simp [spanned] at split
        | some pair =>
            obtain ⟨op, bver⟩ := pair
            obtain ⟨rfl, inside, stop, verRest, verFront, outside⟩ := blobSpn_eq_some.mp spanned
            simp only [spanned] at split
            split at split
            · cases split
            · rename_i oneSided
              split at split
              · cases split
              · rename_i valid
                cases split
                refine .versioned plain marked ?_ inside ⟨stop, verRest, verFront, outside⟩
                  oneSided (by simpa using valid)
                cases op with
                | nil =>
                    rw [List.nil_append, verFront, List.cons.injEq] at front
                    rw [← front.1, outside] at stops
                    cases stops
                | cons c tail => exact ⟨c, tail, rfl⟩

theorem NoOperator.free {name : Bytes} (plain : NoOperator name) : 0 ∉ name := fun member =>
  absurd (plain 0 member) (by simp [inSet])

/-- The name split off is free of NUL. -/
theorem SplitsInto.name_free {blob : Bytes} {parts : DepText} (split : SplitsInto blob parts) :
    0 ∉ parts.name := by
  cases split with
  | conflict plain => exact plain.free
  | require plain _ => exact plain.free
  | versioned plain _ _ _ _ _ _ => exact plain.free

/-- What a text without NUL is split into. -/
theorem SplitsInto.wellFormed {blob : Bytes} {parts : DepText} (split : SplitsInto blob parts)
    (free : 0 ∉ blob) : parts.WellFormed := by
  cases split with
  | conflict plain => exact .conflict plain
  | require plain unmarked => exact .require plain unmarked
  | @versioned name op version plain unmarked nonempty inside front oneSided valid =>
      obtain ⟨c, tail, rfl⟩ := nonempty
      have listed : c ∈ depOperators := by
        have nonzero : c ≠ 0 := fun zero => free (by simp [zero])
        simpa [inSet, nonzero] using inside c List.mem_cons_self
      have versionFree : 0 ∉ version := fun member => free (by simp [member])
      have nameUnmarked : name.head? ≠ some (ascii '!') := by
        intro head
        refine unmarked ?_
        rw [List.head?_append, head]
        rfl
      rw [show blobCstr version = version from cString_eq_self versionFree]
      exact .versioned plain nameUnmarked
        ⟨operatorMask_ne_zero listed, operatorMask_lt _, oneSided⟩ front versionFree valid

/-- **Split back.** The text written for well-formed parts is split into them. -/
theorem splitDep_written {parts : DepText} (formed : parts.WellFormed) :
    splitDep parts.written = .ok parts := by
  cases formed with
  | @conflict name plain =>
      have unsplit := blobCspn_eq_none.mpr plain
      simp [DepText.written, splitDep, text, unsplit]
  | @require name plain unmarked =>
      have unsplit := blobCspn_eq_none.mpr plain
      simp [DepText.written, splitDep, unmarked, unsplit, depmaskRequire, depmaskConflict,
        versionEqual, versionLess, versionGreater]
  | @versioned name version mask plain unmarked operator front free valid =>
      obtain ⟨back, inside, nonempty⟩ := operatorMask_opString operator
      obtain ⟨c, rest, shape⟩ := List.exists_cons_of_ne_nil nonempty
      have written : (DepText.mk name mask (some version)).written =
          name ++ (versionOpString mask ++ version) := by
        obtain ⟨nonzero, _, oneSided⟩ := operator
        have partial_ : mask ≠ depmaskRequire := fun same => oneSided (by rw [same]; rfl)
        simp [DepText.written, depmaskConflict, nonzero, partial_]
      have split : blobCspn (name ++ (versionOpString mask ++ version)) depOperators =
          some (name, versionOpString mask ++ version) :=
        blobCspn_eq_some.mpr ⟨rfl, plain, c, rest ++ version, by rw [shape, List.cons_append],
          inside c (shape ▸ List.mem_cons_self)⟩
      have spanned : blobSpn (versionOpString mask ++ version) depOperators =
          some (versionOpString mask, version) :=
        blobSpn_eq_some.mpr ⟨rfl, inside, front⟩
      have unmarkedWhole : (name ++ (versionOpString mask ++ version)).head? ≠
          some (ascii '!') := by
        cases name with
        | nil =>
            rw [List.nil_append, shape]
            intro head
            have accepted := inside c (shape ▸ List.mem_cons_self)
            rw [Option.some.inj head] at accepted
            exact absurd accepted (by decide)
        | cons first tail => exact unmarked
      rw [written]
      simp only [splitDep, unmarkedWhole, ↓reduceIte, split, spanned, back, operator.2.2, valid,
        show depmaskRequire ≠ 0 by decide, Bool.not_true, Bool.false_eq_true,
        show blobCstr version = version from cString_eq_self free]

/-- The text written is empty for the empty text only. -/
theorem SplitsInto.written_ne_nil {blob : Bytes} {parts : DepText} (split : SplitsInto blob parts)
    (free : 0 ∉ blob) (nonempty : blob ≠ []) : parts.written ≠ [] := by
  have formed := split.wellFormed free
  cases split with
  | conflict plain => simp [DepText.written, text]
  | require plain unmarked =>
      simpa [DepText.written, depmaskConflict, depmaskRequire, versionEqual, versionLess,
        versionGreater] using nonempty
  | versioned plain unmarked opNonempty inside front oneSided valid =>
      intro empty
      have back := splitDep_written formed
      have bare : splitDep [] = .ok ⟨[], depmaskRequire, none⟩ := by decide
      rw [empty, bare] at back
      simp only [Except.ok.injEq, DepText.mk.injEq, reduceCtorEq, and_false] at back

/-- What is related to the right list in order has a partner in the left one. -/
theorem exists_of_forall₂ {α β : Type*} {R : α → β → Prop} {as : List α} {bs : List β}
    (related : List.Forall₂ R as bs) : ∀ b ∈ bs, ∃ a ∈ as, R a b := by
  induction related with
  | nil => simp
  | cons here _ ih =>
      intro b member
      rcases List.mem_cons.mp member with rfl | member
      · exact ⟨_, List.mem_cons_self, here⟩
      · obtain ⟨a, inside, partner⟩ := ih b member
        exact ⟨a, List.mem_cons_of_mem _ inside, partner⟩

/-- The characters that are written though no text has them. -/
def depMarks : Bytes := text "!<=>?"

/-- A character that is not in a text is not in what is written for it, but for marks. -/
theorem SplitsInto.char_free {blob : Bytes} {parts : DepText} (split : SplitsInto blob parts)
    {c : UInt8} (plain : c ∉ depMarks) (free : c ∉ blob) : c ∉ parts.written := by
  have operators : ∀ mask, c ∉ versionOpString mask := by
    intro mask member
    have marks : (versionOpString mask).all (· ∈ depMarks) := by
      unfold versionOpString
      repeat' split
      all_goals rfl
    exact plain (of_decide_eq_true (List.all_eq_true.mp marks c member))
  have conflict_mark : c ∉ text "!" := fun member => plain (List.mem_of_mem_take (i := 1) member)
  cases split with
  | conflict noOperator =>
      simp only [List.mem_cons, not_or] at free
      simp [DepText.written, conflict_mark, free.2]
  | require noOperator unmarked =>
      simpa [DepText.written, depmaskConflict, depmaskRequire, versionEqual, versionLess,
        versionGreater] using free
  | @versioned name op version noOperator unmarked nonempty inside front oneSided valid =>
      simp only [List.mem_append, not_or] at free
      have name_free : c ∉ name := free.1
      have version_free : c ∉ blobCstr version := fun member =>
        free.2.2 (List.takeWhile_subset _ member)
      unfold DepText.written
      split
      · simp [conflict_mark, name_free]
      · split
        · exact name_free
        · simp [operators, name_free, version_free]

/-- A separator that is not in a text is not in what is written for it. -/
theorem SplitsInto.space_free {blob : Bytes} {parts : DepText} (split : SplitsInto blob parts)
    (free : ascii ' ' ∉ blob) : ascii ' ' ∉ parts.written :=
  split.char_free (by decide) free

/-! ## Names -/

namespace Database

/-- The names in the table are allocated. -/
def NamesFiled (db : Database) : Prop := ∀ n ∈ db.availableNames.items, n < db.names.size

theorem namesFiled_empty : NamesFiled {} := by
  intro n member
  rw [Hash.items_init] at member
  cases member

/-- Names were added at most: the texts stay, and so does what is found. -/
structure NamesGrow (db next : Database) : Prop where
  size : db.names.size ≤ next.names.size
  kept : ∀ i < db.names.size, (next.names.get i).name = (db.names.get i).name
  found : ∀ name id, db.queryName name = some id → next.queryName name = some id

theorem NamesGrow.refl (db : Database) : NamesGrow db db :=
  ⟨le_rfl, fun _ _ => rfl, fun _ _ found => found⟩

theorem NamesGrow.trans {db middle next : Database} (first : NamesGrow db middle)
    (second : NamesGrow middle next) : NamesGrow db next where
  size := first.size.trans second.size
  kept i inside := (second.kept i (inside.trans_le first.size)).trans (first.kept i inside)
  found name id found := second.found name id (first.found name id found)

theorem queryName_eq_some {db : Database} {name : Bytes} {id : NameId}
    (found : db.queryName name = some id) :
    id ∈ db.availableNames.items ∧ (db.names.get id).name = name := by
  obtain ⟨member, same⟩ := Hash.getHashed_eq_some found
  exact ⟨member, ((blobCompare_eq_zero _ _).mp (of_decide_eq_true same)).symm⟩

theorem getName_of_found {db : Database} {name : Bytes} {id : NameId}
    (found : db.queryName name = some id) : db.getName name = (db, id) := by
  simp [getName, found]

/-- **Looking a name up**, or adding it: the name is found from then on. -/
theorem getName_spec {db : Database} (filed : db.NamesFiled) {name : Bytes} (free : 0 ∉ name) :
    (db.getName name).1.NamesFiled ∧ NamesGrow db (db.getName name).1 ∧
      (db.getName name).1.queryName name = some (db.getName name).2 := by
  cases found : db.queryName name with
  | some id =>
      rw [getName_of_found found]
      exact ⟨filed, .refl db, found⟩
  | none =>
      simp only [getName, found]
      have kept : ∀ i < db.names.size,
          ((db.names.alloc { name := blobCstr name }).get i).name = (db.names.get i).name := by
        intro i inside
        rw [Arena.get_alloc_of_lt _ _ inside]
      have own : ((db.names.alloc { name := blobCstr name }).get db.names.size).name = name := by
        rw [Arena.get_alloc, if_pos rfl]
        exact cString_eq_self free
      refine ⟨?_, ⟨?_, kept, ?_⟩, ?_⟩
      · intro n member
        rw [Arena.size_alloc]
        rcases Hash.mem_items_insertHashed.mp member with rfl | member
        · exact Nat.lt_succ_self _
        · exact (filed n member).trans (Nat.lt_succ_self _)
      · rw [Arena.size_alloc]
        exact Nat.le_succ _
      · intro other id earlier
        have different : ¬ blobCompare other name = 0 := by
          intro same
          rw [← (blobCompare_eq_zero _ _).mp same, earlier] at found
          cases found
        have before : db.availableNames.getHashed (fun n => blobCompare other
            ((db.names.alloc { name := blobCstr name }).get n).name = 0) (blobHash other) =
              some id := by
          rw [← earlier]
          exact Hash.getHashed_congr (fun n member => by rw [kept n (filed n member)]) _
        unfold queryName
        rw [Hash.getHashed_insertHashed, own, if_neg fun both => different (of_decide_eq_true both.2)]
        exact before
      · unfold queryName
        rw [Hash.getHashed_insertHashed, own, if_pos ⟨rfl, by simp⟩]

/-- Only the names and their table have changed. -/
def OnlyNames (db next : Database) : Prop :=
  next = { db with names := next.names, availableNames := next.availableNames }

theorem getName_onlyNames (db : Database) (name : Bytes) : OnlyNames db (db.getName name).1 := by
  unfold getName
  split <;> rfl

theorem OnlyNames.trans {db middle next : Database} (first : OnlyNames db middle)
    (second : OnlyNames middle next) : OnlyNames db next := by
  unfold OnlyNames at first second
  rw [first] at second
  exact second

theorem depFromBlob_onlyNames {db next : Database} {blob : Bytes} {dep : Dependency}
    (read : db.depFromBlob blob = .ok (next, dep)) : OnlyNames db next := by
  unfold depFromBlob at read
  split at read
  · cases read
  · cases read
    exact getName_onlyNames db _

theorem depsParse_onlyNames (db : Database) (depends : List Dependency) (blob : Bytes) :
    OnlyNames db (db.depsParse depends blob).1 := by
  apply forEachSegment_keeps (P := fun ctx : Database × List Dependency => OnlyNames db ctx.1)
  · intro ctx segment holds
    unfold parseDepend
    split
    · exact holds
    · split
      · exact holds
      · exact holds.trans (depFromBlob_onlyNames ‹_›)
  · rfl

/-! ## Lists of dependencies -/

/-- A dependency is what its parts give when the name is looked up. -/
structure Finds (db : Database) (dep : Dependency) (parts : DepText) : Prop where
  name : db.queryName parts.name = some dep.name
  mask : dep.resultMask = parts.mask
  version : dep.version = parts.version

theorem Finds.grow {db next : Database} {dep : Dependency} {parts : DepText}
    (finds : db.Finds dep parts) (grow : NamesGrow db next) : next.Finds dep parts :=
  ⟨grow.found _ _ finds.name, finds.mask, finds.version⟩

theorem Finds.depText {db : Database} {dep : Dependency} {parts : DepText}
    (finds : db.Finds dep parts) : db.depText dep = parts := by
  unfold Database.depText
  rw [(queryName_eq_some finds.name).2, finds.mask, finds.version]

/-- A dependency that is there already is found again. -/
theorem Finds.depFromBlob {db : Database} {dep : Dependency} {parts : DepText} {blob : Bytes}
    (finds : db.Finds dep parts) (split : splitDep blob = .ok parts) :
    db.depFromBlob blob = .ok (db, dep) := by
  obtain ⟨found, mask, version⟩ := finds
  simp only [Database.depFromBlob, split, getName_of_found found, ← mask, ← version]

/-- **Reading one dependency** fails or finds what its parts say. -/
theorem depFromBlob_spec {db : Database} (filed : db.NamesFiled) {blob : Bytes}
    {parts : DepText} (split : splitDep blob = .ok parts) :
    ∃ next dep, db.depFromBlob blob = .ok (next, dep) ∧ next.NamesFiled ∧ NamesGrow db next ∧
      next.Finds dep parts := by
  obtain ⟨nextFiled, grow, found⟩ := getName_spec filed (splitDep_cases split).name_free
  refine ⟨(db.getName parts.name).1, ⟨(db.getName parts.name).2, parts.mask, parts.version⟩, ?_,
    nextFiled, grow, ⟨found, rfl, rfl⟩⟩
  simp only [Database.depFromBlob, split]

theorem depFromBlob_eq_ok {db next : Database} {blob : Bytes} {dep : Dependency}
    (read : db.depFromBlob blob = .ok (next, dep)) : ∃ parts, splitDep blob = .ok parts := by
  unfold Database.depFromBlob at read
  split at read
  · cases read
  · exact ⟨_, ‹_›⟩

/-- Dependencies read one after the other. -/
theorem depsFromBlobs_spec {tokens : List Bytes} :
    ∀ {db next : Database} {deps : List Dependency}, db.NamesFiled →
      db.depsFromBlobs tokens = .ok (next, deps) →
      next.NamesFiled ∧ NamesGrow db next ∧
        ∃ parts, List.Forall₂ (fun token part => splitDep token = .ok part) tokens parts ∧
          List.Forall₂ next.Finds deps parts := by
  induction tokens with
  | nil =>
      intro db next deps filed read
      cases read
      exact ⟨filed, .refl db, [], .nil, .nil⟩
  | cons token tokens ih =>
      intro db next deps filed read
      simp only [depsFromBlobs] at read
      cases first : db.depFromBlob token with
      | error r =>
          rw [first] at read
          cases read
      | ok pair =>
          obtain ⟨middle, dep⟩ := pair
          obtain ⟨part, split⟩ := depFromBlob_eq_ok first
          obtain ⟨_, _, again, middleFiled, grow, finds⟩ := depFromBlob_spec filed split
          rw [first] at again
          cases again
          rw [first] at read
          cases rest : middle.depsFromBlobs tokens with
          | error r =>
              simp only [bind, Except.bind, rest] at read
              cases read
          | ok pair =>
              obtain ⟨last, others⟩ := pair
              simp only [bind, Except.bind, rest, pure, Except.pure] at read
              cases read
              obtain ⟨lastFiled, growRest, parts, splits, found⟩ := ih middleFiled rest
              exact ⟨lastFiled, grow.trans growRest, part :: parts, .cons split splits,
                .cons (finds.grow growRest) found⟩

/-- The text of a list of dependencies. -/
def depsWritten (parts : List DepText) : Bytes :=
  (text " ").intercalate (parts.map DepText.written)

end Database

theorem intercalate_cons (sep first : Bytes) (rest : List Bytes) :
    sep.intercalate (first :: rest) = first ++ rest.flatMap (sep ++ ·) := by
  induction rest generalizing first with
  | nil => simp
  | cons second rest ih =>
      rw [List.intercalate_cons_cons, ih, List.flatMap_cons]
      simp only [List.append_assoc]

/-- What `apk_deps_write` puts in front of the dependency number `i`. -/
def depFront (i : ℕ) : Bytes := if i = 0 then [] else text " "

/-- The pieces of `apk_deps_write` from the dependency number `i` on. -/
def depPieces (db : Database) : ℕ → List Dependency → List (Option Bytes)
  | _, [] => []
  | i, dep :: deps =>
      (if (depFront i ++ (db.depText dep).written).length ≤ depBuffer then
          some (depFront i ++ (db.depText dep).written)
        else none) :: depPieces db (i + 1) deps

theorem blobPushed_dep (db : Database) (dep : Dependency) (i : ℕ) :
    blobPushed (pushDep db.names
      (if i ≠ 0 then pushBlob (blobBuf depBuffer) (text " ") else blobBuf depBuffer) dep) =
      if (depFront i ++ (db.depText dep).written).length ≤ depBuffer then
        some (depFront i ++ (db.depText dep).written)
      else none := by
  have front : (if i ≠ 0 then pushBlob (blobBuf depBuffer) (text " ") else blobBuf depBuffer) =
      pushBlob (blobBuf depBuffer) (depFront i) := by
    unfold depFront
    by_cases first : i = 0
    · simp only [first, ne_eq, not_true_eq_false, ↓reduceIte]
      rfl
    · simp only [first, ne_eq, not_false_eq_true, ↓reduceIte]
  rw [front, pushDep_eq]
  have filled := BoundedBuffer.pushAll_ofSize depBuffer [depFront i, (db.depText dep).written]
  simp only [List.flatten_cons, List.flatten_nil, List.append_nil] at filled
  exact filled

/-- **`apk_deps_write` writes its pieces.** -/
theorem depsWrite_writes {Stream : Type*} (write : Stream → Bytes → Option (ℤ × Stream))
    (db : Database) (deps : List Dependency) :
    Writes write (depsWrite write db.names deps) (depPieces db 0 deps) := by
  have loop : ∀ (deps : List Dependency) (i : ℕ) (n : ℤ), 0 ≤ n →
      Writes write (depsWriteLoop write db.names deps i n) (depPieces db i deps) := by
    intro deps
    induction deps with
    | nil => exact fun i n counted => Writes.done counted
    | cons dep deps ih =>
        intro i n counted os
        simp only [depsWriteLoop, blobPushed_dep, depPieces]
        by_cases fits : (depFront i ++ (db.depText dep).written).length ≤ depBuffer
        · simp only [fits, ↓reduceIte]
          exact Writes.writeOrFail (ih (i + 1) _ (by omega)) _ os
        · simp only [fits, ↓reduceIte]
          exact Writes.failed (by decide) _ os
  exact loop deps 0 0 le_rfl

/-- Every dependency fits the buffer of `apk_deps_write`, the space in front included. -/
def DepsFit (db : Database) (deps : List Dependency) : Prop :=
  ∀ i dep, deps[i]? = some dep →
    (depFront i ++ (db.depText dep).written).length ≤ depBuffer

theorem depsFit_of_short {db : Database} {deps : List Dependency}
    (short : ∀ dep ∈ deps, (db.depText dep).written.length < depBuffer) : DepsFit db deps := by
  intro i dep here
  have inside := short dep (List.mem_of_getElem? here)
  have front : (depFront i).length ≤ 1 := by
    unfold depFront
    split <;> decide
  rw [List.length_append]
  omega

/-- The pieces are all formatted exactly when every dependency fits. -/
theorem allFormatted_depPieces {db : Database} {deps : List Dependency} :
    AllFormatted (depPieces db 0 deps) ↔ DepsFit db deps := by
  have loop : ∀ (deps : List Dependency) (k : ℕ), AllFormatted (depPieces db k deps) ↔
      ∀ i dep, deps[i]? = some dep →
        (depFront (k + i) ++ (db.depText dep).written).length ≤ depBuffer := by
    intro deps
    induction deps with
    | nil => simp [AllFormatted, depPieces]
    | cons dep deps ih =>
        intro k
        have rest := ih (k + 1)
        unfold AllFormatted at rest ⊢
        simp only [depPieces, List.forall_mem_cons, rest]
        constructor
        · rintro ⟨first, others⟩ i other here
          cases i with
          | zero =>
              rw [List.getElem?_cons_zero] at here
              cases here
              simpa using first
          | succ i =>
              have fits := others i other here
              rwa [Nat.add_right_comm] at fits
        · intro all
          refine ⟨by simpa using all 0 dep rfl, fun i other here => ?_⟩
          have fits := all (i + 1) other here
          rwa [Nat.add_right_comm]
  simpa [DepsFit] using loop deps 0

theorem formattedText_depPieces {db : Database} {deps : List Dependency}
    (fit : DepsFit db deps) :
    formattedText (depPieces db 0 deps) = Database.depsWritten (deps.map db.depText) := by
  have loop : ∀ (deps : List Dependency) (k : ℕ),
      (∀ i dep, deps[i]? = some dep →
        (depFront (k + i) ++ (db.depText dep).written).length ≤ depBuffer) → k ≠ 0 →
      formattedText (depPieces db k deps) =
        deps.flatMap fun dep => text " " ++ (db.depText dep).written := by
    intro deps
    induction deps with
    | nil => exact fun k fit later => rfl
    | cons dep deps ih =>
        intro k fit later
        have rest := ih (k + 1) (fun i other here => by
          have fits := fit (i + 1) other here
          rwa [Nat.add_right_comm]) (Nat.succ_ne_zero k)
        simp only [depPieces, show (depFront k ++ (db.depText dep).written).length ≤ depBuffer from
          fit 0 dep rfl, ↓reduceIte, formattedText, rest, List.flatMap_cons]
        simp only [depFront, later, ↓reduceIte]
  cases deps with
  | nil => rfl
  | cons dep deps =>
      have rest := loop deps 1 (fun i other here => by
        have fits := fit (i + 1) other here
        rwa [Nat.add_comm 1 i]) one_ne_zero
      simp only [depPieces, show (depFront 0 ++ (db.depText dep).written).length ≤ depBuffer from
        fit 0 dep rfl, ↓reduceIte, formattedText, rest, Database.depsWritten, List.map_cons,
        intercalate_cons, List.flatMap_map, Nat.zero_add]
      simp [depFront]

/-- **Writing dependencies.** On a stream that takes everything the texts are written with
a space between them. -/
theorem depsWrite_text {db : Database} {deps : List Dependency} (os : Bytes)
    (short : ∀ dep ∈ deps, (db.depText dep).written.length < depBuffer) :
    ∃ n, depsWrite textWrite db.names deps os =
      some (n, os ++ Database.depsWritten (deps.map db.depText)) := by
  have fit := depsFit_of_short short
  obtain ⟨n, after, wrote, _, content⟩ :=
    (depsWrite_writes textWrite db deps).reliable textWrite_reliable rfl
  exact ⟨n, by rw [wrote, content, formattedText_depPieces fit]⟩

namespace Database

theorem parseDepend_nil (ctx : Database × List Dependency) : parseDepend ctx [] = (0, ctx) := rfl

theorem stripNewline_append (blob : Bytes) : stripNewline (blob ++ [newline]) = blob := by
  simp [stripNewline]

/-- The pieces between the spaces. -/
def depTokens (blob : Bytes) : List Bytes := (stripNewline blob).splitOn (ascii ' ')

/-- `apk_deps_parse` reads the pieces up to the first that is refused. -/
theorem depsParse_eq (db : Database) (depends : List Dependency) (blob : Bytes) :
    db.depsParse depends blob = (callSegments parseDepend (depTokens blob) (db, depends)).2 := by
  unfold depsParse depTokens
  rw [show text " " = [ascii ' '] from rfl, forEachSegment_eq parseDepend_nil]

/-- A piece that `parse_depend` fails on. -/
def refused (token : Bytes) : Bool :=
  token ≠ [] && match splitDep token with
    | .error _ => true
    | .ok _ => false

/-- What the pieces say that `apk_dep_from_blob` accepts. -/
def partsOf (tokens : List Bytes) : List DepText :=
  tokens.filterMap fun token =>
    if token = [] then none
    else
      match splitDep token with
      | .error _ => none
      | .ok part => some part

/-- The pieces in front of the first that is refused. -/
def inFront (tokens : List Bytes) : List Bytes := tokens.takeWhile fun token => !refused token

/-- **Reading pieces.** What the pieces in front of the first refused one say is read, and
nothing behind it. -/
theorem callSegments_spec (tokens : List Bytes) :
    ∀ {db : Database} (depends : List Dependency), db.NamesFiled →
      ∃ next deps, (callSegments parseDepend tokens (db, depends)).2 = (next, depends ++ deps) ∧
        next.NamesFiled ∧ NamesGrow db next ∧
          List.Forall₂ next.Finds deps (partsOf (inFront tokens)) := by
  induction tokens with
  | nil => exact fun depends filed => ⟨_, [], by simp [callSegments], filed, .refl _, .nil⟩
  | cons token tokens ih =>
      intro db depends filed
      by_cases empty : token = []
      · obtain ⟨next, deps, rest, nextFiled, grow, found⟩ := ih depends filed
        refine ⟨next, deps, ?_, nextFiled, grow, ?_⟩
        · simpa [callSegments, empty, parseDepend_nil] using rest
        · simpa [inFront, refused, empty, partsOf] using found
      · cases split : splitDep token with
        | error r =>
            refine ⟨db, [], ?_, filed, .refl db, ?_⟩
            · simp [callSegments, parseDepend, empty, depFromBlob, split]
            · simp [inFront, refused, empty, split, partsOf]
        | ok part =>
            obtain ⟨middle, dep, read, middleFiled, grow, finds⟩ := depFromBlob_spec filed split
            obtain ⟨next, deps, rest, nextFiled, growRest, found⟩ :=
              ih (depends ++ [dep]) middleFiled
            refine ⟨next, dep :: deps, ?_, nextFiled, grow.trans growRest, ?_⟩
            · simp only [callSegments, parseDepend, empty, ↓reduceIte, read, ne_eq,
                not_true_eq_false, rest, List.append_assoc, List.singleton_append]
            · have here : partsOf (inFront (token :: tokens)) =
                  part :: partsOf (inFront tokens) := by
                simp [inFront, refused, empty, split, partsOf]
              rw [here]
              exact .cons (finds.grow growRest) found

/-- None of the texts written for well-formed parts is refused. -/
theorem partsOf_inFront_written {parts : List DepText}
    (formed : ∀ part ∈ parts, splitDep part.written = .ok part ∧ part.written ≠ []) :
    partsOf (inFront (parts.map DepText.written)) = parts := by
  induction parts with
  | nil => rfl
  | cons part parts ih =>
      obtain ⟨split, nonempty⟩ := formed part List.mem_cons_self
      have rest := ih fun other member => formed other (List.mem_cons_of_mem _ member)
      have here : partsOf (inFront ((part :: parts).map DepText.written)) =
          part :: partsOf (inFront (parts.map DepText.written)) := by
        simp [inFront, refused, nonempty, split, partsOf]
      rw [here, rest]

/-- Dependencies that are there already are found again, and the database stays. -/
theorem callSegments_found {db : Database} {deps : List Dependency} {parts : List DepText}
    (found : List.Forall₂ db.Finds deps parts)
    (formed : ∀ part ∈ parts, splitDep part.written = .ok part ∧ part.written ≠ []) :
    ∀ depends : List Dependency,
      callSegments parseDepend (parts.map DepText.written) (db, depends) =
        (0, db, depends ++ deps) := by
  induction found with
  | nil => exact fun depends => by simp [callSegments]
  | cons finds found ih =>
      intro depends
      obtain ⟨split, nonempty⟩ := formed _ List.mem_cons_self
      have rest := ih (fun other member => formed other (List.mem_cons_of_mem _ member))
      simp only [List.map_cons, callSegments, parseDepend, nonempty, ↓reduceIte,
        finds.depFromBlob split, ne_eq, not_true_eq_false, rest, List.append_assoc,
        List.singleton_append]

/-- What was written for a list of dependencies, with a newline behind it, is read back as
that list, and by any other database as dependencies that say the same. -/
def RoundTrips (db : Database) (deps : List Dependency) : Prop :=
  ∃ n written, depsWrite textWrite db.names deps [] = some (n, written) ∧
    db.depsParse [] (written ++ [newline]) = (db, deps) ∧
    ∀ other : Database, other.NamesFiled →
      (other.depsParse [] (written ++ [newline])).2.map
          (other.depsParse [] (written ++ [newline])).1.depText = deps.map db.depText

theorem stripNewline_of_free {blob : Bytes} (free : newline ∉ blob) : stripNewline blob = blob :=
  if_neg fun last => free (List.mem_of_getLast? last)

theorem depTokens_written {parts : List DepText} {blob : Bytes}
    (whole : stripNewline blob = depsWritten parts)
    (free : ∀ part ∈ parts, ascii ' ' ∉ part.written) (nonempty : parts ≠ []) :
    depTokens blob = parts.map DepText.written := by
  unfold depTokens
  rw [whole, depsWritten]
  refine List.splitOn_intercalate (ascii ' ') ?_ (by simpa using nonempty)
  intro piece member
  obtain ⟨part, inside, rfl⟩ := List.mem_map.mp member
  exact free part inside

/-- **Any database reads what was written for dependencies** as dependencies that say the same. -/
theorem depsParse_written {db : Database} (filed : db.NamesFiled) {parts : List DepText}
    (formed : ∀ part ∈ parts, splitDep part.written = .ok part ∧ part.written ≠ [])
    (free : ∀ part ∈ parts, ascii ' ' ∉ part.written) {blob : Bytes}
    (whole : stripNewline blob = depsWritten parts) :
    ∃ next deps, db.depsParse [] blob = (next, deps) ∧ next.NamesFiled ∧ NamesGrow db next ∧
      List.Forall₂ next.Finds deps parts := by
  rw [depsParse_eq]
  cases parts with
  | nil =>
      have tokens : depTokens blob = [[]] := by
        rw [depTokens, whole]
        rfl
      rw [tokens]
      exact ⟨db, [], rfl, filed, .refl db, .nil⟩
  | cons part parts =>
      obtain ⟨next, read, called, nextFiled, grow, again⟩ :=
        callSegments_spec ((part :: parts).map DepText.written) [] filed
      rw [partsOf_inFront_written formed] at again
      rw [depTokens_written whole free (List.cons_ne_nil _ _)]
      exact ⟨next, read, called, nextFiled, grow, again⟩

theorem Finds.map_depText {db : Database} {deps : List Dependency} {parts : List DepText}
    (found : List.Forall₂ db.Finds deps parts) : deps.map db.depText = parts := by
  induction found with
  | nil => rfl
  | cons finds found ih => rw [List.map_cons, ih, finds.depText]

/-- **Writing and reading dependencies.** Dependencies that say what their texts are split
into, none of which is empty, are read back from what was written for them. -/
theorem roundTrips {db : Database} {deps : List Dependency} {parts : List DepText}
    (found : List.Forall₂ db.Finds deps parts)
    (formed : ∀ part ∈ parts, splitDep part.written = .ok part ∧ part.written ≠ [])
    (free : ∀ part ∈ parts, ascii ' ' ∉ part.written)
    (short : ∀ part ∈ parts, part.written.length < depBuffer) : db.RoundTrips deps := by
  have texts := Finds.map_depText found
  have fit : ∀ dep ∈ deps, (db.depText dep).written.length < depBuffer := fun dep member =>
    short _ (texts ▸ List.mem_map_of_mem member)
  obtain ⟨n, wrote⟩ := depsWrite_text [] fit
  rw [texts, List.nil_append] at wrote
  refine ⟨n, _, wrote, ?_, ?_⟩
  · rw [depsParse_eq]
    cases parts with
    | nil =>
        cases found
        rfl
    | cons part parts =>
        rw [depTokens_written (stripNewline_append _) free (List.cons_ne_nil _ _),
          callSegments_found found formed]
        rfl
  · intro other filed
    obtain ⟨next, read, parsed, _, _, again⟩ :=
      depsParse_written filed formed free (stripNewline_append _)
    rw [parsed, texts]
    exact Finds.map_depText again

/-- **The world file.** Dependencies read from texts that are not empty and have no space
and no NUL are written and read back as they were. -/
theorem depsFromBlobs_roundTrips {db next : Database} {tokens : List Bytes}
    {deps : List Dependency} (filed : db.NamesFiled)
    (plain : ∀ token ∈ tokens, token ≠ [] ∧ ascii ' ' ∉ token ∧ 0 ∉ token)
    (read : db.depsFromBlobs tokens = .ok (next, deps))
    (short : ∀ dep ∈ deps, (next.depText dep).written.length < depBuffer) :
    next.RoundTrips deps := by
  obtain ⟨_, _, parts, splits, found⟩ := depsFromBlobs_spec filed read
  have each : ∀ part ∈ parts, (splitDep part.written = .ok part ∧ part.written ≠ []) ∧
      ascii ' ' ∉ part.written := by
    intro part member
    obtain ⟨token, inside, split⟩ := exists_of_forall₂ splits part member
    obtain ⟨nonempty, spaceFree, free⟩ := plain token inside
    have into := splitDep_cases split
    exact ⟨⟨splitDep_written (into.wellFormed free), into.written_ne_nil free nonempty⟩,
      into.space_free spaceFree⟩
  refine roundTrips found (fun part member => (each part member).1)
    (fun part member => (each part member).2) fun part member => ?_
  rw [← Finds.map_depText found] at member
  obtain ⟨dep, inside, rfl⟩ := List.mem_map.mp member
  exact short dep inside

/-- Two dependencies with repeated and reordered operators, and a conflict. -/
theorem depsFromBlobs_roundTrips_spelled :
    ∃ next deps, ({} : Database).depsFromBlobs
        [text "musl=>=1.2", text "!busybox", text "so:libc<2"] = .ok (next, deps) ∧
      next.RoundTrips deps := by
  have plain : ∀ token ∈ [text "musl=>=1.2", text "!busybox", text "so:libc<2"],
      token ≠ [] ∧ ascii ' ' ∉ token ∧ 0 ∉ token := by decide
  refine ⟨_, _, rfl, ?_⟩
  exact depsFromBlobs_roundTrips namesFiled_empty plain rfl (by decide +kernel)

/-- The empty text is a dependency too, but what is written for it is passed over. -/
theorem depsFromBlobs_loses_empty :
    ∃ next deps, ({} : Database).depsFromBlobs [[]] = .ok (next, deps) ∧
      (∀ dep ∈ deps, (next.depText dep).written.length < depBuffer) ∧ ¬ next.RoundTrips deps := by
  refine ⟨_, _, rfl, by decide +kernel, ?_⟩
  rintro ⟨n, written, wrote, back, _⟩
  cases wrote
  cases congrArg Prod.snd back

end Database

end AriannaLinux.Apk
