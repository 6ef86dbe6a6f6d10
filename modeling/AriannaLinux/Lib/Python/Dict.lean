import Mathlib.Data.List.Nodup

/-! # Dictionaries

A dictionary keeps its entries in the order in which their keys came, and has at most one
entry for a key. A new value leaves an entry in its place.
-/

namespace AriannaLinux.Python

variable {κ α : Type*}

/-- A dictionary. -/
structure Dict (κ α : Type*) where
  items : List (κ × α)
  nodup : (items.map Prod.fst).Nodup

namespace Dict

/-- `{}` -/
def empty : Dict κ α := ⟨[], List.nodup_nil⟩

variable [DecidableEq κ] (d : Dict κ α) (key : κ)

/-- `d.get(key)` -/
def get : Option α := (d.items.find? (·.1 = key)).map Prod.snd

/-- `d[key] = value` -/
def set (value : α) : Dict κ α where
  items :=
    if key ∈ d.items.map Prod.fst then
      d.items.map fun item => (item.1, if item.1 = key then value else item.2)
    else d.items ++ [(key, value)]
  nodup := by
    split
    case isTrue =>
      rw [List.map_map]
      exact d.nodup
    case isFalse absent =>
      rw [List.map_append, List.map_singleton, ← List.concat_eq_append]
      exact d.nodup.concat absent

/-- `d.pop(key, None)`, what is left. -/
def pop : Dict κ α where
  items := d.items.filter (·.1 ≠ key)
  nodup := d.nodup.sublist (List.filter_sublist.map _)

variable {d key}

@[simp] theorem get_empty : (empty : Dict κ α).get key = none := rfl

theorem get_eq_some {value : α} : d.get key = some value ↔ (key, value) ∈ d.items := by
  constructor
  · intro found
    obtain ⟨⟨other, _⟩, present, rfl⟩ := Option.map_eq_some_iff.mp found
    have same : other = key := by simpa using List.find?_some present
    exact same ▸ List.mem_of_find?_eq_some present
  · intro member
    obtain ⟨⟨other, seen⟩, present⟩ : ∃ item, d.items.find? (·.1 = key) = some item := by
      refine Option.isSome_iff_exists.mp (List.find?_isSome.mpr ⟨_, member, ?_⟩)
      exact decide_eq_true rfl
    have same : other = key := by simpa using List.find?_some present
    have unique := List.inj_on_of_nodup_map d.nodup (List.mem_of_find?_eq_some present) member same
    rw [get, present, unique, Option.map_some]

theorem get_eq_none : d.get key = none ↔ key ∉ d.items.map Prod.fst := by
  rw [Option.eq_none_iff_forall_ne_some]
  simp only [ne_eq, get_eq_some, List.mem_map, Prod.exists, exists_and_right, exists_eq_right,
    not_exists]

theorem get_set (other : κ) (value : α) :
    (d.set key value).get other = if other = key then some value else d.get other := by
  ext found
  rw [get_eq_some]
  by_cases present : key ∈ d.items.map Prod.fst
  · simp only [set, present, ↓reduceIte, List.mem_map, Prod.mk.injEq, Prod.exists]
    by_cases same : other = key
    · subst same
      obtain ⟨⟨_, old⟩, member, rfl⟩ := List.mem_map.mp present
      simp only [↓reduceIte, Option.some.injEq]
      constructor
      · rintro ⟨_, _, -, rfl, rfl⟩
        simp only [↓reduceIte]
      · rintro rfl
        exact ⟨_, old, member, rfl, if_pos rfl⟩
    · simp only [same, ↓reduceIte, get_eq_some]
      constructor
      · rintro ⟨_, _, member, rfl, rfl⟩
        rw [if_neg same]
        exact member
      · intro member
        exact ⟨other, found, member, rfl, if_neg same⟩
  · simp only [set, present, ↓reduceIte, List.mem_append, List.mem_singleton, Prod.mk.injEq,
      ← get_eq_some]
    by_cases same : other = key
    · subst same
      simp only [get_eq_none.mpr present, reduceCtorEq, false_or, true_and, ↓reduceIte,
        Option.some.injEq]
      exact eq_comm
    · simp only [same, false_and, or_false, ↓reduceIte]

theorem get_pop (other : κ) : (d.pop key).get other = if other = key then none else d.get other := by
  ext found
  rw [get_eq_some, pop, List.mem_filter, ← get_eq_some]
  by_cases same : other = key
  · simp [same]
  · simp [same]

end Dict

end AriannaLinux.Python
