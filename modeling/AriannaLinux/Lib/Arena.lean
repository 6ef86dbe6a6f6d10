import Mathlib.Data.List.Basic
import Mathlib.Data.List.Count
import Mathlib.Tactic.Common

/-! # Arenas of mutable objects

A C program that links heap objects by pointers is read here over arenas: the
objects of one type, each addressed by its position. Allocation appends, so the
position of an object never changes and a pointer is a natural number. A
dangling or null position reads the default object and writes to it are lost.
-/

namespace AriannaLinux

/-- The objects of one type allocated so far. -/
structure Arena (α : Type*) where
  objects : List α
  deriving DecidableEq, Repr

namespace Arena

variable {α : Type*}

/-- The arena before any allocation. -/
def empty : Arena α := ⟨[]⟩

instance : Inhabited (Arena α) := ⟨empty⟩

/-- The position the next allocation returns. -/
def size (arena : Arena α) : ℕ := arena.objects.length

/-- The object at a position. -/
def get [Inhabited α] (arena : Arena α) (i : ℕ) : α := arena.objects.getD i default

/-- Append a new object; its position is the old size. -/
def alloc (arena : Arena α) (object : α) : Arena α := ⟨arena.objects ++ [object]⟩

/-- Rewrite the object at a position. -/
def modify (arena : Arena α) (i : ℕ) (f : α → α) : Arena α := ⟨arena.objects.modify i f⟩

/-- Rewrite every object, given its position. -/
def mapIdx (arena : Arena α) (f : ℕ → α → α) : Arena α := ⟨arena.objects.mapIdx f⟩

/-- How many allocated objects satisfy a predicate. -/
def count (arena : Arena α) (p : α → Bool) : ℕ := arena.objects.countP p

@[simp] theorem size_empty : (empty : Arena α).size = 0 := rfl

@[simp] theorem count_empty (p : α → Bool) : (empty : Arena α).count p = 0 := rfl

@[simp] theorem size_alloc (arena : Arena α) (object : α) :
    (arena.alloc object).size = arena.size + 1 := by
  simp [size, alloc]

@[simp] theorem size_modify (arena : Arena α) (i : ℕ) (f : α → α) :
    (arena.modify i f).size = arena.size := by
  simp [size, modify]

@[simp] theorem size_mapIdx (arena : Arena α) (f : ℕ → α → α) :
    (arena.mapIdx f).size = arena.size := by
  simp [size, mapIdx]

/-- Rewriting the object that was just allocated. -/
theorem modify_alloc_self (arena : Arena α) (object : α) (f : α → α) :
    (arena.alloc object).modify arena.size f = arena.alloc (f object) := by
  obtain ⟨objects⟩ := arena
  simp only [alloc, modify, size, Arena.mk.injEq]
  induction objects with
  | nil => rfl
  | cons first rest ih =>
      simp only [List.cons_append, List.length_cons, List.modify_succ_cons, ih]

/-- An object is rewritten twice. -/
theorem modify_modify (arena : Arena α) (i : ℕ) (f g : α → α) :
    (arena.modify i f).modify i g = arena.modify i fun object => g (f object) := by
  simp only [modify, List.modify_modify_eq]
  rfl

/-- A constant is written to one position. -/
theorem mem_modify {arena : Arena α} {i : ℕ} {object new : α}
    (member : object ∈ (arena.modify i fun _ => new).objects) :
    object ∈ arena.objects ∨ object = new := by
  obtain ⟨j, inside, rfl⟩ := List.getElem_of_mem member
  simp only [modify, List.getElem_modify]
  split
  · exact .inr rfl
  · exact .inl (List.getElem_mem _)

/-- One more rewriting of one of the objects. -/
theorem modify_mapIdx (arena : Arena α) (f : ℕ → α → α) (i : ℕ) (g : α → α) :
    (arena.mapIdx f).modify i g =
      arena.mapIdx fun j object => if i = j then g (f j object) else f j object := by
  obtain ⟨objects⟩ := arena
  simp only [modify, mapIdx, Arena.mk.injEq]
  apply List.ext_getElem?
  intro j
  simp only [List.getElem?_modify, List.getElem?_mapIdx]
  by_cases here : i = j <;> simp [here, Function.comp_def]

section Read

variable [Inhabited α]

/-- Only what the rewriting does to the object counts. -/
theorem modify_congr (arena : Arena α) {i : ℕ} {f g : α → α}
    (same : f (arena.get i) = g (arena.get i)) : arena.modify i f = arena.modify i g := by
  obtain ⟨objects⟩ := arena
  simp only [modify, Arena.mk.injEq]
  apply List.ext_getElem? fun j => ?_
  simp only [List.getElem?_modify]
  by_cases here : i = j
  · subst here
    cases present : objects[i]? with
    | none => rfl
    | some object =>
        simp only [get, List.getD_eq_getElem?_getD, present, Option.getD_some] at same
        simp only [↓reduceIte, Option.map_eq_map, Option.map_some, same]
  · simp only [here, ↓reduceIte]

@[simp] theorem get_alloc_self (arena : Arena α) (object : α) :
    (arena.alloc object).get arena.size = object := by
  simp [get, alloc, size]

/-- What is read is an object, or the default. -/
theorem get_mem {arena : Arena α} {i : ℕ} (read : arena.get i ≠ default) :
    arena.get i ∈ arena.objects := by
  rcases Nat.lt_or_ge i arena.objects.length with inside | outside
  · simp [get, List.getElem?_eq_getElem inside]
  · exact absurd (by simp [get, List.getElem?_eq_none outside]) read

theorem get_alloc_of_ne (arena : Arena α) (object : α) {i : ℕ} (other : i ≠ arena.size) :
    (arena.alloc object).get i = arena.get i := by
  rcases Nat.lt_or_ge i arena.objects.length with inside | outside
  · simp [get, alloc, List.getElem?_append_left inside]
  · have beyond : arena.objects.length < i := Nat.lt_of_le_of_ne outside (Ne.symm other)
    simp [get, alloc, List.getElem?_eq_none outside,
      List.getElem?_eq_none (l := arena.objects ++ [object]) (i := i) (by simp; omega)]

theorem get_alloc_of_lt (arena : Arena α) (object : α) {i : ℕ} (inside : i < arena.size) :
    (arena.alloc object).get i = arena.get i :=
  arena.get_alloc_of_ne object (Nat.ne_of_lt inside)

theorem get_alloc (arena : Arena α) (object : α) (i : ℕ) :
    (arena.alloc object).get i = if i = arena.size then object else arena.get i := by
  by_cases same : i = arena.size
  · subst same; simp
  · simp only [same, ↓reduceIte, arena.get_alloc_of_ne object same]

theorem get_of_size_le (arena : Arena α) {i : ℕ} (outside : arena.size ≤ i) :
    arena.get i = default := by
  simp [get, List.getElem?_eq_none outside]

@[simp] theorem get_modify_self (arena : Arena α) {i : ℕ} (f : α → α)
    (inside : i < arena.size) : (arena.modify i f).get i = f (arena.get i) := by
  have present : i < arena.objects.length := inside
  simp [get, modify, List.getElem?_eq_getElem present]

theorem get_modify_of_ne (arena : Arena α) {i j : ℕ} (f : α → α) (other : i ≠ j) :
    (arena.modify i f).get j = arena.get j := by
  simp [get, modify, other]

theorem get_modify (arena : Arena α) (i j : ℕ) (f : α → α) :
    (arena.modify i f).get j =
      if i = j ∧ j < arena.size then f (arena.get j) else arena.get j := by
  by_cases same : i = j
  · subst same
    by_cases inside : i < arena.size
    · simp [inside]
    · have outside : arena.size ≤ i := Nat.le_of_not_lt inside
      rw [get_of_size_le _ (by simpa using outside), get_of_size_le _ outside]
      simp [inside]
  · simp only [same, false_and, ↓reduceIte, arena.get_modify_of_ne f same]

/-- A field the rewriting leaves alone is the same at every position. -/
theorem get_modify_field {β : Type*} (field : α → β) (arena : Arena α) (i j : ℕ) (f : α → α)
    (kept : ∀ object, field (f object) = field object) :
    field ((arena.modify i f).get j) = field (arena.get j) := by
  rw [get_modify]
  split
  · exact kept _
  · rfl

theorem get_mapIdx (arena : Arena α) (f : ℕ → α → α) {i : ℕ} (inside : i < arena.size) :
    (arena.mapIdx f).get i = f i (arena.get i) := by
  have present : i < arena.objects.length := inside
  simp [get, mapIdx, List.getElem?_eq_getElem present]

/-- Rewritings that agree on the objects. -/
theorem mapIdx_congr (arena : Arena α) {f g : ℕ → α → α}
    (same : ∀ i < arena.size, f i (arena.get i) = g i (arena.get i)) :
    arena.mapIdx f = arena.mapIdx g := by
  obtain ⟨objects⟩ := arena
  simp only [mapIdx, Arena.mk.injEq]
  apply List.ext_getElem?
  intro i
  simp only [List.getElem?_mapIdx]
  cases present : objects[i]? with
  | none => rfl
  | some object =>
      have here := same i (List.getElem?_eq_some_iff.mp present).1
      simp only [get, List.getD_eq_getElem?_getD, present, Option.getD_some] at here
      simp only [Option.map_some, here]

theorem mapIdx_id (arena : Arena α) {f : ℕ → α → α}
    (same : ∀ i < arena.size, f i (arena.get i) = arena.get i) : arena.mapIdx f = arena := by
  rw [arena.mapIdx_congr (g := fun _ object => object) same]
  obtain ⟨objects⟩ := arena
  simp only [mapIdx, Arena.mk.injEq]
  apply List.ext_getElem?
  intro i
  rw [List.getElem?_mapIdx]
  cases objects[i]? <;> rfl

/-- Counting after a rewriting exchanges the old object for the new one. -/
theorem count_modify (arena : Arena α) (p : α → Bool) {i : ℕ} (f : α → α)
    (inside : i < arena.size) :
    (arena.modify i f).count p + (p (arena.get i)).toNat =
      arena.count p + (p (f (arena.get i))).toNat := by
  obtain ⟨objects⟩ := arena
  simp only [size] at inside
  simp only [count, modify, get]
  induction objects generalizing i with
  | nil => simp at inside
  | cons object rest ih =>
      cases i with
      | zero =>
          simp only [List.modify_zero_cons, List.countP_cons, List.getD_cons_zero]
          cases p object <;> cases p (f object) <;> simp
      | succ i =>
          have tail := ih (i := i) (by simpa using inside)
          simp only [List.modify_succ_cons, List.countP_cons, List.getD_cons_succ]
          omega

/-- Counting only sees the objects at allocated positions. -/
theorem count_congr (arena : Arena α) {p q : α → Bool}
    (same : ∀ i < arena.size, p (arena.get i) = q (arena.get i)) :
    arena.count p = arena.count q := by
  apply List.countP_congr
  intro object member
  obtain ⟨i, inside, rfl⟩ := List.getElem_of_mem member
  have here := same i inside
  simp only [get, List.getD_eq_getElem?_getD, List.getElem?_eq_getElem inside,
    Option.getD_some] at here
  rw [here]

theorem count_eq_zero (arena : Arena α) {p : α → Bool}
    (never : ∀ i < arena.size, p (arena.get i) = false) : arena.count p = 0 := by
  rw [arena.count_congr (q := fun _ => false) never]
  exact congrFun List.countP_false _

/-! ## Objects that stay -/

/-- The objects of an arena are in a later one at their positions, as a reading of them tells. -/
structure Kept {β : Type*} (reading : α → β) (before after : Arena α) : Prop where
  size : before.size ≤ after.size
  same : ∀ i < before.size, reading (after.get i) = reading (before.get i)

namespace Kept

variable {β : Type*} {reading : α → β} {before after last : Arena α}

theorem refl (reading : α → β) (arena : Arena α) : Kept reading arena arena :=
  ⟨Nat.le_refl _, fun _ _ => rfl⟩

theorem trans (first : Kept reading before after) (second : Kept reading after last) :
    Kept reading before last where
  size := Nat.le_trans first.size second.size
  same i inside :=
    (second.same i (Nat.lt_of_lt_of_le inside first.size)).trans (first.same i inside)

theorem alloc (kept : Kept reading before after) (object : α) :
    Kept reading before (after.alloc object) where
  size := by
    rw [size_alloc]
    exact Nat.le_succ_of_le kept.size
  same i inside := by
    rw [get_alloc_of_lt _ _ (Nat.lt_of_lt_of_le inside kept.size)]
    exact kept.same i inside

/-- A later object is rewritten. -/
theorem modify_late (kept : Kept reading before after) {i : ℕ} (late : before.size ≤ i)
    (f : α → α) : Kept reading before (after.modify i f) where
  size := by simpa using kept.size
  same j inside := by
    rw [get_modify_of_ne _ _ (by omega)]
    exact kept.same j inside

/-- A rewriting that the reading does not see. -/
theorem modify_same (kept : Kept reading before after) (i : ℕ) {f : α → α}
    (blind : ∀ object, reading (f object) = reading object) :
    Kept reading before (after.modify i f) where
  size := by simpa using kept.size
  same j inside := (get_modify_field reading _ _ _ _ blind).trans (kept.same j inside)

end Kept

end Read

@[simp] theorem count_alloc (arena : Arena α) (p : α → Bool) (object : α) :
    (arena.alloc object).count p = arena.count p + (p object).toNat := by
  simp only [count, alloc, List.countP_append, List.countP_cons, List.countP_nil]
  cases p object <;> simp

end Arena

end AriannaLinux
