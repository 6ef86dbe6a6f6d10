import Mathlib.Data.List.Count
import Mathlib.Data.List.Find
import Mathlib.Data.List.Nodup
import Mathlib.Data.List.Perm.Basic
import Mathlib.Tactic.Common
import AriannaLinux.Apk.Blob

/-! # Hash tables

The chained hash table of `hash.c`. A table stores items; the comparison with a
key and the hash of a key are passed with every call, as the `apk_hash_ops` of the
table determine them. Each chain is kept newest first.
-/

namespace AriannaLinux.Apk

/-- `struct apk_hash`: the chain of each bucket. -/
structure Hash (Item : Type*) where
  num : ℕ
  bucket : ℕ → List Item
  positive : 0 < num

namespace Hash

variable {Item : Type*}

/-- `apk_hash_init`. -/
def init (num : ℕ) (positive : 0 < num) : Hash Item := ⟨num, fun _ => [], positive⟩

/-- The bucket a hash value falls in. -/
def index (table : Hash Item) (hash : UInt64) : ℕ := hash.toNat % table.num

/-- `apk_hash_get_hashed`; `compare` tests an item against the key. -/
def getHashed (table : Hash Item) (compare : Item → Bool) (hash : UInt64) : Option Item :=
  (table.bucket (table.index hash)).find? compare

/-- `apk_hash_insert_hashed`. -/
def insertHashed (table : Hash Item) (item : Item) (hash : UInt64) : Hash Item :=
  { table with
    bucket := Function.update table.bucket (table.index hash)
      (item :: table.bucket (table.index hash)) }

/-- `apk_hash_delete_hashed`. -/
def deleteHashed (table : Hash Item) (compare : Item → Bool) (hash : UInt64) : Hash Item :=
  { table with
    bucket := Function.update table.bucket (table.index hash)
      ((table.bucket (table.index hash)).eraseP compare) }

/-- The items in the order `apk_hash_foreach` visits them. -/
def items (table : Hash Item) : List Item := (List.range table.num).flatMap table.bucket

theorem index_lt (table : Hash Item) (hash : UInt64) : table.index hash < table.num :=
  Nat.mod_lt _ table.positive

@[simp] theorem items_init (num : ℕ) (positive : 0 < num) :
    (init num positive : Hash Item).items = [] := by
  simp [items, init]

@[simp] theorem index_insertHashed (table : Hash Item) (item : Item) (hash hash' : UInt64) :
    (table.insertHashed item hash).index hash' = table.index hash' := rfl

@[simp] theorem index_deleteHashed (table : Hash Item) (compare : Item → Bool)
    (hash hash' : UInt64) : (table.deleteHashed compare hash).index hash' = table.index hash' := rfl

theorem bucket_insertHashed (table : Hash Item) (item : Item) (hash : UInt64) (b : ℕ) :
    (table.insertHashed item hash).bucket b =
      if b = table.index hash then item :: table.bucket b else table.bucket b := by
  by_cases here : b = table.index hash
  · subst here
    simp [insertHashed]
  · simp [insertHashed, here]

theorem bucket_deleteHashed (table : Hash Item) (compare : Item → Bool) (hash : UInt64) (b : ℕ) :
    (table.deleteHashed compare hash).bucket b =
      if b = table.index hash then (table.bucket b).eraseP compare else table.bucket b := by
  by_cases here : b = table.index hash
  · subst here
    simp [deleteHashed]
  · simp [deleteHashed, here]

theorem mem_items {table : Hash Item} {item : Item} :
    item ∈ table.items ↔ ∃ b < table.num, item ∈ table.bucket b := by
  simp [items]

/-- What is found is stored and matches the key. -/
theorem getHashed_eq_some {table : Hash Item} {compare : Item → Bool} {hash : UInt64}
    {item : Item} (found : table.getHashed compare hash = some item) :
    item ∈ table.items ∧ compare item = true :=
  ⟨mem_items.mpr ⟨_, table.index_lt hash, List.mem_of_find?_eq_some found⟩,
    List.find?_some found⟩

/-- A lookup only compares stored items. -/
theorem getHashed_congr {table : Hash Item} {compare compare' : Item → Bool}
    (same : ∀ item ∈ table.items, compare item = compare' item) (hash : UInt64) :
    table.getHashed compare hash = table.getHashed compare' hash :=
  List.find?_congr fun item member => same item (mem_items.mpr ⟨_, table.index_lt hash, member⟩)

/-- An inserted item is found first, by a key it matches. -/
theorem getHashed_insertHashed (table : Hash Item) (item : Item) (hash hash' : UInt64)
    (compare : Item → Bool) :
    (table.insertHashed item hash).getHashed compare hash' =
      if table.index hash' = table.index hash ∧ compare item = true then some item
      else table.getHashed compare hash' := by
  unfold getHashed
  rw [index_insertHashed, bucket_insertHashed]
  by_cases here : table.index hash' = table.index hash
  · simp only [here, ↓reduceIte, true_and, List.find?_cons]
    cases compare item <;> rfl
  · simp only [here, ↓reduceIte, false_and]

/-- Inserting adds one item to those stored. -/
theorem mem_items_insertHashed {table : Hash Item} {item other : Item} {hash : UInt64} :
    other ∈ (table.insertHashed item hash).items ↔ other = item ∨ other ∈ table.items := by
  simp only [mem_items, bucket_insertHashed]
  constructor
  · rintro ⟨b, inside, member⟩
    split at member
    · rcases List.mem_cons.mp member with rfl | member
      · exact .inl rfl
      · exact .inr ⟨b, inside, member⟩
    · exact .inr ⟨b, inside, member⟩
  · rintro (rfl | ⟨b, inside, member⟩)
    · exact ⟨_, table.index_lt hash, by rw [if_pos rfl]; exact List.mem_cons_self⟩
    · refine ⟨b, inside, ?_⟩
      split
      · exact List.mem_cons_of_mem _ member
      · exact member

/-- Every stored item lies in the bucket of its own hash. -/
def Placed (table : Hash Item) (hash : Item → UInt64) : Prop :=
  ∀ b, ∀ item ∈ table.bucket b, table.index (hash item) = b

theorem placed_init (num : ℕ) (positive : 0 < num) (hash : Item → UInt64) :
    (init num positive).Placed hash := by
  intro b item member
  cases member

theorem Placed.insertHashed {table : Hash Item} {hash : Item → UInt64} (placed : table.Placed hash)
    (item : Item) : (table.insertHashed item (hash item)).Placed hash := by
  intro b other member
  rw [index_insertHashed]
  rw [bucket_insertHashed] at member
  split at member
  · rename_i here
    rcases List.mem_cons.mp member with rfl | member
    · exact here.symm
    · exact placed b other member
  · exact placed b other member

theorem Placed.deleteHashed {table : Hash Item} {hash : Item → UInt64} (placed : table.Placed hash)
    (compare : Item → Bool) (key : UInt64) : (table.deleteHashed compare key).Placed hash := by
  intro b other member
  rw [index_deleteHashed]
  rw [bucket_deleteHashed] at member
  split at member
  · exact placed b other (List.mem_of_mem_eraseP member)
  · exact placed b other member

/-! ## Items with a key -/

section Keyed

variable {Key : Type*} {table : Hash Item} {key : Item → Key} {hash : Key → UInt64}

/-- The items have keys of their own: each item lies where its key belongs, and no two items
have the same key. -/
structure Keyed (table : Hash Item) (key : Item → Key) (hash : Key → UInt64) : Prop where
  placed : table.Placed fun item => hash (key item)
  nodup : table.items.Nodup
  unique : ∀ a ∈ table.items, ∀ b ∈ table.items, key a = key b → a = b

/-- One item more in one bucket is one item more in the table. -/
theorem flatMap_perm_cons {bucket bucket' : ℕ → List Item} {b : ℕ} {item : Item} {bs : List ℕ}
    (member : b ∈ bs) (distinct : bs.Nodup) (others : ∀ c ≠ b, bucket' c = bucket c)
    (here : (bucket' b).Perm (item :: bucket b)) :
    (bs.flatMap bucket').Perm (item :: bs.flatMap bucket) := by
  induction bs with
  | nil => cases member
  | cons c bs ih =>
      obtain ⟨absent, distinct⟩ := List.nodup_cons.mp distinct
      simp only [List.flatMap_cons]
      by_cases same : c = b
      · subst same
        have rest : bs.flatMap bucket' = bs.flatMap bucket :=
          List.flatMap_congr fun d inside => others d fun same => absent (same ▸ inside)
        rw [rest]
        exact here.append_right _
      · have inside : b ∈ bs := (List.mem_cons.mp member).resolve_left (Ne.symm same)
        rw [others c same]
        exact ((ih inside distinct).append_left _).trans List.perm_middle

theorem items_insertHashed_perm (table : Hash Item) (item : Item) (value : UInt64) :
    (table.insertHashed item value).items.Perm (item :: table.items) := by
  apply flatMap_perm_cons (List.mem_range.mpr (table.index_lt value)) List.nodup_range
  · intro c other
    rw [bucket_insertHashed, if_neg other]
  · rw [bucket_insertHashed, if_pos rfl]

/-- Deleting takes away the item that a lookup finds. -/
theorem items_deleteHashed_perm {compare : Item → Bool} {value : UInt64} {item : Item}
    (found : table.getHashed compare value = some item) :
    table.items.Perm (item :: (table.deleteHashed compare value).items) := by
  apply flatMap_perm_cons (List.mem_range.mpr (table.index_lt value)) List.nodup_range
  · intro c other
    rw [bucket_deleteHashed, if_neg other]
  · obtain ⟨matching, before, after, split, earlier⟩ := List.find?_eq_some_iff_append.mp found
    rw [bucket_deleteHashed, if_pos rfl, split, List.eraseP_append_right]
    · rw [List.eraseP_cons_of_pos matching]
      exact List.perm_middle
    · intro other inside
      simpa using earlier other inside

/-- What a lookup by a key finds. -/
theorem Keyed.getHashed_eq_some (keyed : table.Keyed key hash) {compare : Item → Bool} {k : Key}
    (compares : ∀ item ∈ table.items, compare item = true ↔ key item = k) {item : Item} :
    table.getHashed compare (hash k) = some item ↔ item ∈ table.items ∧ key item = k := by
  constructor
  · intro found
    obtain ⟨stored, matching⟩ := Hash.getHashed_eq_some found
    exact ⟨stored, (compares item stored).mp matching⟩
  · rintro ⟨stored, rfl⟩
    obtain ⟨b, -, member⟩ := mem_items.mp stored
    have placed : table.index (hash (key item)) = b := keyed.placed b item member
    have found : (table.getHashed compare (hash (key item))).isSome := by
      rw [getHashed, placed, List.find?_isSome]
      exact ⟨item, member, (compares item stored).mpr rfl⟩
    obtain ⟨other, found⟩ := Option.isSome_iff_exists.mp found
    obtain ⟨otherStored, matching⟩ := Hash.getHashed_eq_some found
    rw [found, keyed.unique other otherStored item stored
      ((compares other otherStored).mp matching)]

/-- A lookup by a key finds nothing when no item has it. -/
theorem Keyed.getHashed_eq_none (keyed : table.Keyed key hash) {compare : Item → Bool} {k : Key}
    (compares : ∀ item ∈ table.items, compare item = true ↔ key item = k) :
    table.getHashed compare (hash k) = none ↔ ∀ item ∈ table.items, key item ≠ k := by
  constructor
  · intro missing item stored same
    rw [(keyed.getHashed_eq_some compares).mpr ⟨stored, same⟩] at missing
    cases missing
  · intro absent
    by_contra found
    obtain ⟨item, found⟩ := Option.ne_none_iff_exists'.mp found
    obtain ⟨stored, same⟩ := (keyed.getHashed_eq_some compares).mp found
    exact absent item stored same

theorem Keyed.insertHashed (keyed : table.Keyed key hash) {item : Item}
    (absent : ∀ other ∈ table.items, key other ≠ key item) :
    (table.insertHashed item (hash (key item))).Keyed key hash where
  placed := keyed.placed.insertHashed item
  nodup := by
    rw [(items_insertHashed_perm table item _).nodup_iff, List.nodup_cons]
    exact ⟨fun stored => absent item stored rfl, keyed.nodup⟩
  unique a aStored b bStored same := by
    rcases mem_items_insertHashed.mp aStored with rfl | aOld <;>
      rcases mem_items_insertHashed.mp bStored with rfl | bOld
    · rfl
    · exact absurd same.symm (absent b bOld)
    · exact absurd same (absent a aOld)
    · exact keyed.unique a aOld b bOld same

theorem Keyed.deleteHashed (keyed : table.Keyed key hash) {compare : Item → Bool} {value : UInt64}
    {item : Item} (found : table.getHashed compare value = some item) :
    (table.deleteHashed compare value).Keyed key hash := by
  have fewer := items_deleteHashed_perm found
  have distinct := fewer.nodup_iff.mp keyed.nodup
  have stored : ∀ other ∈ (table.deleteHashed compare value).items, other ∈ table.items :=
    fun other left => fewer.mem_iff.mpr (List.mem_cons_of_mem _ left)
  exact
    { placed := keyed.placed.deleteHashed compare value
      nodup := (List.nodup_cons.mp distinct).2
      unique := fun a aLeft b bLeft same => keyed.unique a (stored a aLeft) b (stored b bLeft) same }

/-- What is left after a deletion. -/
theorem Keyed.mem_items_deleteHashed (keyed : table.Keyed key hash) {compare : Item → Bool}
    {value : UInt64} {item other : Item} (found : table.getHashed compare value = some item) :
    other ∈ (table.deleteHashed compare value).items ↔ other ∈ table.items ∧ other ≠ item := by
  have fewer := items_deleteHashed_perm found
  have distinct := (List.nodup_cons.mp (fewer.nodup_iff.mp keyed.nodup)).1
  constructor
  · intro left
    exact ⟨fewer.mem_iff.mpr (List.mem_cons_of_mem _ left), fun same => distinct (same ▸ left)⟩
  · rintro ⟨stored, different⟩
    exact (List.mem_cons.mp (fewer.mem_iff.mp stored)).resolve_left different

/-- Keys only matter at the items of the table. -/
theorem Keyed.congr (keyed : table.Keyed key hash) {key' : Item → Key}
    (same : ∀ item ∈ table.items, key' item = key item) : table.Keyed key' hash where
  placed b item member := by
    have inside : b < table.num := keyed.placed b item member ▸ table.index_lt _
    simp only [same item (mem_items.mpr ⟨b, inside, member⟩)]
    exact keyed.placed b item member
  nodup := keyed.nodup
  unique a aStored b bStored equal := by
    rw [same a aStored, same b bStored] at equal
    exact keyed.unique a aStored b bStored equal

theorem keyed_init (num : ℕ) (positive : 0 < num) (key : Item → Key) (hash : Key → UInt64) :
    (init num positive).Keyed key hash where
  placed := placed_init num positive _
  nodup := by simp
  unique a stored := by simp at stored

end Keyed

end Hash

end AriannaLinux.Apk
