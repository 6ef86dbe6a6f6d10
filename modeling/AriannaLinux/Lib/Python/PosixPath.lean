import AriannaLinux.Lib.Python.Words
import AriannaLinux.Lib.Splitting

/-! # Paths of `posixpath`

Joining and lexical normalisation of paths. Normalising a path below a rooted directory
is cancelling `.`, empty components and `..` in what is behind the directory: what is left
climbs a number of directories and goes down from there (`normpath_join`).
-/

namespace AriannaLinux.Python

def slash : CodePoint := chr '/'
def dot : Str := lit "."
def dotDot : Str := lit ".."

/-- `os.path.isabs`. -/
def isAbsolute (path : Str) : Prop := path.head? = some slash

instance (path : Str) : Decidable (isAbsolute path) :=
  inferInstanceAs (Decidable (path.head? = some slash))

/-- `os.path.join(a, b)`. -/
def pathJoin (a b : Str) : Str :=
  if isAbsolute b ∨ a = [] then b
  else if a.getLast? = some slash then a ++ b
  else a ++ slash :: b

/-- The slashes that `os.path.normpath` begins with: two stay two, and three or more are one. -/
def initialSlashes (path : Str) : ℕ :=
  match path with
  | a :: b :: c :: _ => if a ≠ slash then 0 else if b = slash ∧ c ≠ slash then 2 else 1
  | [a, b] => if a ≠ slash then 0 else if b = slash then 2 else 1
  | [a] => if a = slash then 1 else 0
  | [] => 0

/-- One component in the loop of `os.path.normpath`. -/
def normStep (rooted : Bool) (comps : List Str) (comp : Str) : List Str :=
  if comp = [] ∨ comp = dot then comps
  else if comp ≠ dotDot ∨ (rooted = false ∧ comps = []) ∨ comps.getLast? = some dotDot then
    comps ++ [comp]
  else comps.dropLast

/-- The components that `os.path.normpath` keeps. -/
def normComps (path : Str) : List Str :=
  (path.splitOn slash).foldl (normStep (0 < initialSlashes path)) []

/-- `os.path.normpath`. -/
def normpath (path : Str) : Str :=
  let normal := List.replicate (initialSlashes path) slash ++ join [slash] (normComps path)
  if path = [] ∨ normal = [] then dot else normal

/-- One component cancelled against those before: how often they climb, and what they then go
down. -/
def cancelStep (cancelled : ℕ × List Str) (comp : Str) : ℕ × List Str :=
  if comp = [] ∨ comp = dot then cancelled
  else if comp ≠ dotDot then (cancelled.1, cancelled.2 ++ [comp])
  else if cancelled.2 = [] then (cancelled.1 + 1, [])
  else (cancelled.1, cancelled.2.dropLast)

/-- A path with `.`, empty components and `..` cancelled: the number of directories it climbs,
and the components it goes down from there. -/
def cancel (path : Str) : ℕ × List Str := (path.splitOn slash).foldl cancelStep (0, [])

/-! ## Components -/

/-- A component that a path can have after normalisation. -/
def Plain (comp : Str) : Prop := comp ≠ [] ∧ comp ≠ dot ∧ comp ≠ dotDot ∧ slash ∉ comp

theorem foldl_cancelStep_plain (comps : List Str) (noSlash : ∀ comp ∈ comps, slash ∉ comp) :
    ∀ cancelled : ℕ × List Str, (∀ comp ∈ cancelled.2, Plain comp) →
      ∀ comp ∈ (comps.foldl cancelStep cancelled).2, Plain comp := by
  induction comps with
  | nil => exact fun _ plain => plain
  | cons first comps ih =>
      intro cancelled plain
      refine ih (fun comp member => noSlash comp (List.mem_cons_of_mem _ member)) _ ?_
      unfold cancelStep
      split
      · exact plain
      · rename_i kept
        obtain ⟨some_text, noDot⟩ := not_or.mp kept
        split
        · rename_i noClimb
          refine List.forall_mem_append.mpr ⟨plain, List.forall_mem_singleton.mpr ?_⟩
          exact ⟨some_text, noDot, noClimb, noSlash first List.mem_cons_self⟩
        · split
          · simp
          · exact fun comp member => plain comp (List.mem_of_mem_dropLast member)

/-- What a path goes down is plain. -/
theorem cancel_plain (path : Str) : ∀ comp ∈ (cancel path).2, Plain comp :=
  foldl_cancelStep_plain _ (fun _ member => (mem_splitOn member).1) _ (by simp)

theorem getLast?_ne_dotDot {comps : List Str} (plain : ∀ comp ∈ comps, Plain comp) :
    comps.getLast? ≠ some dotDot := fun last =>
  (plain dotDot (List.mem_of_getLast? last)).2.2.1 rfl

/-- **Below a directory** that is rooted, the components behind it climb and go down. -/
theorem foldl_normStep_rooted {base : List Str} (baseline : ∀ comp ∈ base, Plain comp)
    (comps : List Str) (noSlash : ∀ comp ∈ comps, slash ∉ comp) :
    ∀ cancelled : ℕ × List Str, (∀ comp ∈ cancelled.2, Plain comp) →
      comps.foldl (normStep true) (base.take (base.length - cancelled.1) ++ cancelled.2) =
        base.take (base.length - (comps.foldl cancelStep cancelled).1) ++
          (comps.foldl cancelStep cancelled).2 := by
  induction comps with
  | nil => exact fun _ _ => rfl
  | cons first comps ih =>
      intro cancelled plain
      have tailSlash := fun comp member => noSlash comp (List.mem_cons_of_mem first member)
      have stillPlain := foldl_cancelStep_plain [first]
        (fun comp member => noSlash comp (List.mem_cons.mpr (.inl (List.mem_singleton.mp member))))
        cancelled plain
      have next := ih tailSlash (cancelStep cancelled first) stillPlain
      rw [List.foldl_cons, List.foldl_cons, ← next]
      congr 1
      have noClimb : (base.take (base.length - cancelled.1) ++ cancelled.2).getLast? ≠
          some dotDot := by
        refine getLast?_ne_dotDot (List.forall_mem_append.mpr ⟨fun comp member => ?_, plain⟩)
        exact baseline comp (List.mem_of_mem_take member)
      unfold normStep cancelStep
      by_cases skipped : first = [] ∨ first = dot
      · simp only [skipped, ↓reduceIte]
      · by_cases climbs : first = dotDot
        · subst climbs
          simp only [skipped, ↓reduceIte, ne_eq, not_true_eq_false, Bool.true_eq_false, false_and,
            noClimb, or_self]
          by_cases down : cancelled.2 = []
          · have shorter : min (base.length - cancelled.1) base.length - 1 =
                base.length - (cancelled.1 + 1) := by omega
            simp only [down, ↓reduceIte, List.append_nil, List.dropLast_eq_take, List.take_take,
              List.length_take, shorter]
            congr 1
            omega
          · simp only [down, ↓reduceIte, List.dropLast_append_of_ne_nil down]
        · simp only [skipped, ↓reduceIte, climbs, ne_eq, not_false_eq_true, true_or,
            List.append_assoc]

theorem initialSlashes_absolute {name : Str} (absolute : isAbsolute name) :
    0 < initialSlashes name := by
  match name, absolute with
  | [a], absolute => simp_all [isAbsolute, initialSlashes]
  | [a, b], absolute =>
      obtain rfl : a = slash := Option.some.inj absolute
      rw [initialSlashes, if_neg (by simp)]
      split <;> decide
  | a :: b :: c :: rest, absolute =>
      obtain rfl : a = slash := Option.some.inj absolute
      rw [initialSlashes, if_neg (by simp)]
      split <;> decide

/-- The components of an absolute name climb no higher than the root. -/
theorem normComps_absolute {name : Str} (absolute : isAbsolute name) :
    normComps name = (cancel name).2 := by
  have rooted := @foldl_normStep_rooted [] (by simp) (name.splitOn slash)
    (fun comp member => (mem_splitOn member).1) (0, []) (by simp)
  rw [normComps, decide_eq_true (initialSlashes_absolute absolute), cancel]
  simpa only [List.take_nil, List.nil_append, List.append_nil] using rooted

theorem normpath_rooted {path : Str} (rooted : 0 < initialSlashes path) :
    normpath path =
      List.replicate (initialSlashes path) slash ++ join [slash] (normComps path) := by
  obtain ⟨slashes, shown⟩ := Nat.exists_eq_add_one.mpr rooted
  rw [normpath, if_neg]
  rintro (rfl | empty)
  · exact absurd rooted (by decide)
  · rw [shown, List.replicate_succ, List.cons_append] at empty
    cases empty

/-! ## Joined components -/

theorem splitOn_join {comps : List Str} (nonempty : comps ≠ [])
    (noSlash : ∀ comp ∈ comps, slash ∉ comp) : (join [slash] comps).splitOn slash = comps := by
  induction comps with
  | nil => exact absurd rfl nonempty
  | cons first comps ih =>
      have free := noSlash first List.mem_cons_self
      cases comps with
      | nil => exact List.splitOn_eq_singleton free
      | cons second comps =>
          rw [join, List.append_assoc, List.singleton_append,
            List.splitOn_append_cons_self_of_not_mem free,
            ih (by simp) fun comp member => noSlash comp (List.mem_cons_of_mem _ member)]

theorem join_append {comps more : List Str} (nonempty : comps ≠ []) (further : more ≠ []) :
    join [slash] (comps ++ more) = join [slash] comps ++ slash :: join [slash] more := by
  induction comps with
  | nil => exact absurd rfl nonempty
  | cons first comps ih =>
      cases comps with
      | nil =>
          obtain ⟨second, rest, rfl⟩ := List.exists_cons_of_ne_nil further
          simp [join]
      | cons second comps =>
          have rest := ih (by simp)
          rw [List.cons_append] at rest
          rw [List.cons_append, List.cons_append, join, rest, join]
          simp only [List.append_assoc]

theorem join_ne_nil {comps : List Str} (nonempty : comps ≠ []) (plain : ∀ comp ∈ comps, Plain comp) :
    join [slash] comps ≠ [] := by
  obtain ⟨first, comps, rfl⟩ := List.exists_cons_of_ne_nil nonempty
  have some_text := (plain first List.mem_cons_self).1
  cases comps with
  | nil => exact some_text
  | cons second comps =>
      intro empty
      rw [join, List.append_assoc] at empty
      exact some_text (List.append_eq_nil_iff.mp empty).1

/-- A normal path does not begin with a slash behind its first ones. -/
theorem join_head_ne_slash {comps : List Str} (plain : ∀ comp ∈ comps, Plain comp) (rest : Str) :
    join [slash] comps ≠ slash :: rest := by
  intro same
  cases comps with
  | nil => cases same
  | cons first comps =>
      have noSlash := fun comp member => (plain comp member).2.2.2
      have split := splitOn_join (by simp) noSlash
      rw [same, show slash :: rest = [] ++ slash :: rest from rfl,
        List.splitOn_append_cons_self] at split
      have empty : first = [] := (List.cons.inj split).1.symm
      exact (plain first List.mem_cons_self).1 empty

/-! ## Below a directory -/

/-- A directory at the root, by its components. -/
def rootedPath (base : List Str) : Str := slash :: join [slash] base

/-- A path is the directory with something behind it. -/
def StrictlyBelow (directory path : Str) : Prop :=
  ∃ rest, rest ≠ [] ∧ path = directory ++ slash :: rest

/-- Components that go on behind others. -/
def Further (front comps : List Str) : Prop := front <+: comps ∧ front ≠ comps

instance (front comps : List Str) : Decidable (Further front comps) :=
  inferInstanceAs (Decidable (_ ∧ _))

theorem further_iff {front comps : List Str} :
    Further front comps ↔ ∃ more, more ≠ [] ∧ comps = front ++ more := by
  constructor
  · rintro ⟨⟨more, rfl⟩, longer⟩
    refine ⟨more, ?_, rfl⟩
    rintro rfl
    exact longer (List.append_nil front).symm
  · rintro ⟨more, some_more, rfl⟩
    exact ⟨List.prefix_append front more, (some_more <| List.self_eq_append_right.mp ·)⟩

theorem Further.append_left {front comps : List Str} (before : List Str) :
    Further (before ++ front) (before ++ comps) ↔ Further front comps := by
  rw [Further, Further, List.prefix_append_right_inj, ne_eq, List.append_cancel_left_eq]

section Below

variable {base : List Str} (baseline : ∀ comp ∈ base, Plain comp) (nonempty : base ≠ [])
include baseline nonempty

theorem splitOn_rootedPath : (rootedPath base).splitOn slash = [] :: base := by
  have tail := splitOn_join nonempty fun comp member => (baseline comp member).2.2.2
  rw [rootedPath, show slash :: join [slash] base = [] ++ slash :: join [slash] base from rfl,
    List.splitOn_append_cons_self, tail]
  rfl

theorem initialSlashes_rootedPath (rest : Str) :
    initialSlashes (rootedPath base ++ slash :: rest) = 1 := by
  obtain ⟨c, text, shape⟩ := List.exists_cons_of_ne_nil (join_ne_nil nonempty baseline)
  have first : c ≠ slash := by
    rintro rfl
    exact join_head_ne_slash baseline text shape
  rw [rootedPath, shape]
  cases text with
  | nil => simp [initialSlashes, first]
  | cons d text => simp [initialSlashes, first]

/-- A normal path is below the directory when its components go on behind those of the
directory. -/
theorem strictlyBelow_iff {slashes : ℕ} (absolute : 0 < slashes) {comps : List Str}
    (plain : ∀ comp ∈ comps, Plain comp) :
    StrictlyBelow (rootedPath base) (List.replicate slashes slash ++ join [slash] comps) ↔
      slashes = 1 ∧ Further base comps := by
  rw [further_iff]
  obtain ⟨slashes, rfl⟩ := Nat.exists_eq_add_one.mpr absolute
  have tail : ∀ path rest : Str, slash :: path = rootedPath base ++ slash :: rest ↔
      path = join [slash] base ++ slash :: rest := by
    intro path rest
    rw [rootedPath, List.cons_append, List.cons.injEq]
    exact and_iff_right rfl
  rw [List.replicate_succ, List.cons_append]
  constructor
  · rintro ⟨rest, -, same⟩
    rw [tail] at same
    cases slashes with
    | succ slashes =>
        rw [List.replicate_succ, List.cons_append] at same
        obtain ⟨c, text, shape⟩ := List.exists_cons_of_ne_nil (join_ne_nil nonempty baseline)
        rw [shape, List.cons_append, List.cons.injEq] at same
        exact absurd (same.1 ▸ shape) (join_head_ne_slash baseline text)
    | zero =>
        rw [List.replicate_zero, List.nil_append] at same
        refine ⟨rfl, rest.splitOn slash, List.splitOn_ne_nil slash rest, ?_⟩
        have some_comps : comps ≠ [] := by
          rintro rfl
          simp [join] at same
        have split := congrArg (List.splitOn slash) same
        rwa [splitOn_join some_comps fun comp member => (plain comp member).2.2.2,
          List.splitOn_append_cons_self,
          splitOn_join nonempty fun comp member => (baseline comp member).2.2.2] at split
  · rintro ⟨one, more, further, rfl⟩
    obtain rfl : slashes = 0 := Nat.succ.inj one
    refine ⟨join [slash] more, join_ne_nil further fun comp member =>
      plain comp (List.mem_append_right _ member), ?_⟩
    rw [tail, List.replicate_zero, List.nil_append, join_append nonempty further]

theorem pathJoin_rootedPath {name : Str} (relative : ¬ isAbsolute name) :
    pathJoin (rootedPath base) name = rootedPath base ++ slash :: name := by
  have last : (rootedPath base).getLast? ≠ some slash := by
    intro last
    obtain ⟨front, shape⟩ := List.getLast?_eq_some_iff.mp last
    have split := splitOn_rootedPath baseline nonempty
    rw [shape, List.splitOn_append_cons_self] at split
    have lastComp := congrArg List.getLast? split
    rw [List.splitOn_nil, List.getLast?_append, List.getLast?_singleton, Option.some_or,
      List.getLast?_cons] at lastComp
    obtain ⟨comp, shown⟩ := Option.ne_none_iff_exists'.mp
      (fun none_left => nonempty (List.getLast?_eq_none_iff.mp none_left) : base.getLast? ≠ none)
    rw [shown] at lastComp
    have empty : comp = [] := (Option.some.inj lastComp).symm
    exact (baseline comp (List.mem_of_getLast? shown)).1 empty
  rw [pathJoin, if_neg (by simp [relative, rootedPath]), if_neg last]

/-- The components of a relative name behind the directory. -/
theorem normComps_behind (name : Str) :
    normComps (rootedPath base ++ slash :: name) =
      base.take (base.length - (cancel name).1) ++ (cancel name).2 := by
  have down : ∀ (comps front : List Str), (∀ comp ∈ comps, Plain comp) →
      comps.foldl (normStep true) front = front ++ comps := by
    intro comps
    induction comps with
    | nil => simp
    | cons first comps ih =>
        intro front plain
        obtain ⟨some_text, noDot, noClimb, -⟩ := plain first List.mem_cons_self
        rw [List.foldl_cons, normStep, if_neg (by simp [some_text, noDot]), if_pos (.inl noClimb),
          ih _ fun comp member => plain comp (List.mem_cons_of_mem _ member), List.append_assoc]
        rfl
  have rooted : decide (0 < initialSlashes (rootedPath base ++ slash :: name)) = true := by
    simp [initialSlashes_rootedPath baseline nonempty]
  have behind := foldl_normStep_rooted baseline (name.splitOn slash)
    (fun comp member => (mem_splitOn member).1) (0, []) (by simp)
  rw [Nat.sub_zero, List.take_length, List.append_nil] at behind
  rw [normComps, rooted, List.splitOn_append_cons_self, splitOn_rootedPath baseline nonempty,
    List.foldl_append, List.foldl_cons, down base _ baseline]
  exact behind

/-- **Below the directory**: a relative name goes down again into what it climbs out of, and
further; an absolute one goes down from the root into the directory, and further. -/
theorem strictlyBelow_join_iff (name : Str) :
    StrictlyBelow (rootedPath base) (normpath (pathJoin (rootedPath base) name)) ↔
      if isAbsolute name then initialSlashes name = 1 ∧ Further base (cancel name).2
      else Further (base.drop (base.length - (cancel name).1)) (cancel name).2 := by
  split
  · rename_i absolute
    have rooted := initialSlashes_absolute absolute
    rw [pathJoin, if_pos (.inl absolute), normpath_rooted rooted, normComps_absolute absolute]
    exact strictlyBelow_iff baseline nonempty rooted (cancel_plain name)
  · rename_i relative
    have slashes := initialSlashes_rootedPath baseline nonempty name
    have plain : ∀ comp ∈ base.take (base.length - (cancel name).1) ++ (cancel name).2,
        Plain comp :=
      List.forall_mem_append.mpr ⟨fun comp member => baseline comp (List.mem_of_mem_take member),
        cancel_plain name⟩
    have shared := @Further.append_left (base.drop (base.length - (cancel name).1))
      (cancel name).2 (base.take (base.length - (cancel name).1))
    rw [List.take_append_drop] at shared
    rw [pathJoin_rootedPath baseline nonempty relative, normpath_rooted (by omega),
      normComps_behind baseline nonempty, slashes,
      strictlyBelow_iff baseline nonempty one_pos plain, and_iff_right rfl, shared]

end Below

end AriannaLinux.Python
