import Mathlib.Data.Int.Notation
import Mathlib.Data.List.Nodup
import Mathlib.Logic.Function.Basic
import Mathlib.Tactic.Common

/-! # Chained lists in memory

The `hlist` of `apk_defines.h`. A node lies in the memory of its item and points to the next
one; a list ends with NULL, as an empty head has it, or with `LIST_END`, as the last node has
it. An item is known by its address, and reading or writing where no item is has no result.
-/

namespace AriannaLinux.Apk

/-- `struct hlist_node *`. -/
inductive Link where
  | null | listEnd
  | node (address : ℕ)
  deriving DecidableEq, Repr

/-- An item with its `hlist_node`. -/
structure Node (Item : Type*) where
  item : Item
  next : Link

/-- The items there are, by their addresses. -/
abbrev Memory (Item : Type*) := ℕ → Option (Node Item)

/-- `struct hlist_node **`: the head of a bucket or the pointer in a node. -/
inductive Slot where
  | first (bucket : ℕ)
  | next (address : ℕ)
  deriving DecidableEq, Repr

/-- The heads of the buckets, and the items. -/
structure Hlists (Item : Type*) where
  first : ℕ → Link
  memory : Memory Item

namespace Hlists

variable {Item : Type*}

/-- `*pp`. -/
def load (lists : Hlists Item) : Slot → Option Link
  | .first bucket => some (lists.first bucket)
  | .next address => (lists.memory address).map Node.next

/-- `*pp = link`. -/
def store (lists : Hlists Item) (link : Link) : Slot → Option (Hlists Item)
  | .first bucket => some { lists with first := Function.update lists.first bucket link }
  | .next address =>
      (lists.memory address).map fun node =>
        { lists with
          memory := Function.update lists.memory address (some { node with next := link }) }

/-- `hlist_add_head`. -/
def addHead (lists : Hlists Item) (n bucket : ℕ) : Option (Hlists Item) :=
  let first := lists.first bucket
  (lists.store (if first = .null then .listEnd else first) (.next n)).bind fun lists =>
    lists.store (.node n) (.first bucket)

/-- `__hlist_del`. -/
def unlink (lists : Hlists Item) (n : ℕ) (pprev : Slot) : Option (Hlists Item) :=
  (lists.load (.next n)).bind fun next =>
    (lists.store next pprev).bind fun lists => lists.store .null (.next n)

/-- The loop of `hlist_del`, and what follows it. -/
def delLoop (n : ℕ) : ℕ → Hlists Item → Slot → Option (Hlists Item)
  | 0, _, _ => none
  | rounds + 1, lists, pp =>
      (lists.load pp).bind fun link =>
        match link with
        | .node address =>
            if address = n then lists.unlink n pp else delLoop n rounds lists (.next address)
        | _ => some lists

/-- `hlist_del`. -/
def del (rounds : ℕ) (lists : Hlists Item) (n bucket : ℕ) : Option (Hlists Item) :=
  delLoop n rounds lists (.first bucket)

/-- `hlist_for_each` up to the first item that is looked for. -/
def find (matching : Item → Bool) (memory : Memory Item) : ℕ → Link → Option (Option ℕ)
  | 0, _ => none
  | rounds + 1, .node pos =>
      (memory pos).bind fun node =>
        if matching node.item then some (some pos) else find matching memory rounds node.next
  | _ + 1, _ => some none

end Hlists

/-- What a callback does with an item: its result, its own state, and what it leaves at the
place of the item, which is nothing when it frees it. -/
abbrev Enumerator (Item σ : Type*) := σ → ℕ → Node Item → ℤ × σ × Option (Node Item)

/-- `hlist_for_each_safe` with the body of `apk_hash_foreach`: the result, which ends the
iteration if it is not 0, the state of the callback and the items. -/
def forEachSafe {Item σ : Type*} (e : Enumerator Item σ) (ctx : Bool) :
    ℕ → Link → σ → Memory Item → Option (ℤ × σ × Memory Item)
  | 0, _, _, _ => none
  | rounds + 1, .node pos, s, memory =>
      (memory pos).bind fun node =>
        let n := node.next
        let (r, s, left) := e s pos node
        let memory := Function.update memory pos left
        if r ≠ 0 ∧ ctx = true then some (r, s, memory) else forEachSafe e ctx rounds n s memory
  | _ + 1, _, s, memory => some (0, s, memory)

/-! ## Chains -/

/-- The items of a list in memory, each with its address. -/
def Chain {Item : Type*} (memory : Memory Item) : Link → List (ℕ × Item) → Prop
  | link, [] => link = .null ∨ link = .listEnd
  | link, (address, item) :: rest =>
      link = .node address ∧ ∃ next, memory address = some ⟨item, next⟩ ∧ Chain memory next rest

section Chain

variable {Item : Type*} {memory memory' : Memory Item} {link : Link} {items : List (ℕ × Item)}

/-- A list is not changed by what happens elsewhere. -/
theorem Chain.frame (chain : Chain memory link items)
    (same : ∀ address ∈ items.map Prod.fst, memory' address = memory address) :
    Chain memory' link items := by
  induction items generalizing link with
  | nil => exact chain
  | cons entry rest ih =>
      obtain ⟨address, item⟩ := entry
      obtain ⟨here, next, stored, tail⟩ := chain
      refine ⟨here, next, ?_, ih tail fun other member => same other (by simp [member])⟩
      rw [same address (by simp), stored]

/-- An end is taken for the end, whichever it is. -/
theorem Chain.nil_cases (chain : Chain memory link ([] : List (ℕ × Item))) :
    link = .null ∨ link = .listEnd := chain

/-- A list can be ended by `LIST_END` where its head is NULL. -/
theorem Chain.terminated (chain : Chain memory link items) :
    Chain memory (if link = .null then .listEnd else link) items := by
  split
  · rename_i empty
    subst empty
    cases items with
    | nil => exact .inr rfl
    | cons entry rest => cases chain.1
  · exact chain

/-- The search goes through the list. -/
theorem Chain.find (chain : Chain memory link items) (matching : Item → Bool) {rounds : ℕ}
    (enough : items.length < rounds) :
    Hlists.find matching memory rounds link =
      some ((items.find? fun entry => matching entry.2).map Prod.fst) := by
  induction items generalizing link rounds with
  | nil =>
      obtain ⟨rounds, rfl⟩ := Nat.exists_eq_add_one.mpr enough
      rcases chain.nil_cases with rfl | rfl <;> rfl
  | cons entry rest ih =>
      obtain ⟨address, item⟩ := entry
      obtain ⟨rfl, next, stored, tail⟩ := chain
      obtain ⟨rounds, rfl⟩ := Nat.exists_eq_add_one.mpr (Nat.zero_lt_of_lt enough)
      rw [Hlists.find, stored, Option.bind_some, List.find?_cons]
      cases here : matching item with
      | true => simp
      | false =>
          simp only [Bool.false_eq_true, ↓reduceIte]
          exact ih tail (Nat.lt_of_succ_lt_succ enough)

/-- One item visited: the callback's state and the items after it. -/
def visit {σ : Type*} (e : Enumerator Item σ) (state : σ × Memory Item) (address : ℕ) :
    σ × Memory Item :=
  match state.2 address with
  | some node =>
      let (_, s, left) := e state.1 address node
      (s, Function.update state.2 address left)
  | none => state

theorem visit_stored {σ : Type*} (e : Enumerator Item σ) (s : σ) {address : ℕ} {node : Node Item}
    (stored : memory address = some node) :
    visit e (s, memory) address =
      ((e s address node).2.1, Function.update memory address (e s address node).2.2) := by
  rw [visit]
  simp only [stored]

/-- A visit leaves the other items alone. -/
theorem visit_other {σ : Type*} (e : Enumerator Item σ) (state : σ × Memory Item)
    {address other : ℕ} (different : other ≠ address) :
    (visit e state address).2 other = state.2 other := by
  unfold visit
  split
  · exact Function.update_of_ne different _ _
  · rfl

theorem foldl_visit_other {σ : Type*} (e : Enumerator Item σ) (addresses : List ℕ) {other : ℕ}
    (absent : other ∉ addresses) :
    ∀ state : σ × Memory Item, (addresses.foldl (visit e) state).2 other = state.2 other := by
  induction addresses with
  | nil => exact fun _ => rfl
  | cons address rest ih =>
      intro state
      obtain ⟨different, later⟩ := not_or.mp (mt List.mem_cons.mpr absent)
      rw [List.foldl_cons, ih later, visit_other e state different]

/-- **The safe iteration** visits the items of the list in order, whatever the callback leaves
of each: the next link is read before the callback is called. -/
theorem Chain.forEachSafe {σ : Type*} {e : Enumerator Item σ} {ctx : Bool}
    (quiet : ctx = true → ∀ s address node, (e s address node).1 = 0)
    (chain : Chain memory link items) (distinct : (items.map Prod.fst).Nodup) {rounds : ℕ}
    (enough : items.length < rounds) (s : σ) :
    forEachSafe e ctx rounds link s memory =
      some (0, (items.map Prod.fst).foldl (visit e) (s, memory)) := by
  induction items generalizing link rounds s memory with
  | nil =>
      obtain ⟨rounds, rfl⟩ := Nat.exists_eq_add_one.mpr enough
      rcases chain.nil_cases with rfl | rfl <;> rfl
  | cons entry rest ih =>
      obtain ⟨address, item⟩ := entry
      obtain ⟨rfl, next, stored, tail⟩ := chain
      obtain ⟨rounds, rfl⟩ := Nat.exists_eq_add_one.mpr (Nat.zero_lt_of_lt enough)
      obtain ⟨absent, distinct⟩ := List.nodup_cons.mp distinct
      have goes_on : ¬ ((e s address ⟨item, next⟩).1 ≠ 0 ∧ ctx = true) := fun stops =>
        stops.1 (quiet stops.2 _ _ _)
      have later : Chain (Function.update memory address (e s address ⟨item, next⟩).2.2) next rest :=
        tail.frame fun other member => Function.update_of_ne
          (fun same : other = address => absent (show address ∈ _ from same ▸ member)) _ _
      rw [Apk.forEachSafe, stored, Option.bind_some]
      dsimp only
      rw [if_neg goes_on, ih later distinct (Nat.lt_of_succ_lt_succ enough), List.map_cons,
        List.foldl_cons, visit_stored e s stored]

end Chain

/-! ## Adding and deleting -/

namespace Hlists

variable {Item : Type*} {lists after : Hlists Item} {slot : Slot} {link : Link}
  {items : List (ℕ × Item)} {n : ℕ} {item : Item}

/-- What is stored is loaded. -/
theorem load_store (stored : lists.store link slot = some after) : after.load slot = some link := by
  cases slot with
  | first bucket =>
      cases stored
      simp [load]
  | next address =>
      obtain ⟨node, found, rfl⟩ := Option.map_eq_some_iff.mp stored
      simp [load]

/-- Storing changes no other place. -/
theorem load_store_other {other : Slot} (different : other ≠ slot)
    (stored : lists.store link slot = some after) : after.load other = lists.load other := by
  cases slot with
  | first bucket =>
      cases stored
      cases other with
      | first bucket' =>
          have apart : bucket' ≠ bucket := fun same => different (same ▸ rfl)
          simp [load, apart]
      | next address => rfl
  | next address =>
      obtain ⟨node, found, rfl⟩ := Option.map_eq_some_iff.mp stored
      cases other with
      | first bucket => rfl
      | next address' =>
          have apart : address' ≠ address := fun same => different (same ▸ rfl)
          simp [load, apart]

/-- The item at an address, if there is one. -/
def itemAt (lists : Hlists Item) (address : ℕ) : Option Item :=
  (lists.memory address).map Node.item

/-- Storing a link keeps the items. -/
theorem itemAt_store (stored : lists.store link slot = some after) (address : ℕ) :
    after.itemAt address = lists.itemAt address := by
  cases slot with
  | first bucket =>
      cases stored
      rfl
  | next changed =>
      obtain ⟨node, found, rfl⟩ := Option.map_eq_some_iff.mp stored
      by_cases here : address = changed
      · subst here
        simp [itemAt, found]
      · simp [itemAt, here]

/-- A node is its item and its link. -/
theorem memory_eq_some {next : Link} :
    lists.memory n = some ⟨item, next⟩ ↔
      lists.itemAt n = some item ∧ lists.load (.next n) = some next := by
  simp only [itemAt, load]
  cases lists.memory n with
  | none => simp
  | some node =>
      cases node
      simp

/-- The lists agree on an address: on its item and its link. -/
theorem memory_congr {other : Hlists Item} (sameItem : lists.itemAt n = other.itemAt n)
    (sameLink : lists.load (.next n) = other.load (.next n)) : lists.memory n = other.memory n := by
  simp only [itemAt, load] at sameItem sameLink
  cases here : lists.memory n with
  | none =>
      rw [here] at sameItem
      exact (Option.map_eq_none_iff.mp sameItem.symm).symm
  | some node =>
      rw [here] at sameItem sameLink
      obtain ⟨node', there, item⟩ := Option.map_eq_some_iff.mp sameItem.symm
      obtain ⟨_, there', next⟩ := Option.map_eq_some_iff.mp sameLink.symm
      rw [there] at there'
      cases there'
      rw [there]
      cases node
      cases node'
      simp only at item next
      rw [item, next]

/-- `__hlist_del` of the node that a place points to. -/
theorem unlink_eq {next : Link} (stored : lists.memory n = some ⟨item, next⟩)
    (there : (lists.load slot).isSome) (apart : slot ≠ .next n) :
    ∃ after, lists.unlink n slot = some after ∧ after.load slot = some next ∧
      after.load (.next n) = some .null ∧
      (∀ address, after.itemAt address = lists.itemAt address) ∧
      ∀ other, other ≠ slot → other ≠ .next n → after.load other = lists.load other := by
  have link := (memory_eq_some.mp stored).2
  have storable : ∀ {lists : Hlists Item} {slot : Slot} (link : Link), (lists.load slot).isSome →
      ∃ after, lists.store link slot = some after := by
    intro lists slot link there
    cases slot with
    | first bucket => exact ⟨_, rfl⟩
    | next address =>
        obtain ⟨next, loaded⟩ := Option.isSome_iff_exists.mp there
        obtain ⟨node, found, _⟩ := Option.map_eq_some_iff.mp loaded
        exact ⟨_, by rw [store, found]; rfl⟩
  obtain ⟨middle, first⟩ := storable next there
  have unchanged := load_store_other (Ne.symm apart) first
  obtain ⟨after, second⟩ := @storable middle (.next n) .null (by rw [unchanged, link]; rfl)
  refine ⟨after, ?_, ?_, load_store second, ?_, ?_⟩
  · rw [unlink, link, Option.bind_some, first, Option.bind_some, second]
  · rw [load_store_other apart second, load_store first]
  · intro address
    rw [itemAt_store second, itemAt_store first]
  · intro other notSlot notNode
    rw [load_store_other notNode second, load_store_other notSlot first]

/-- **Deleting a node** from the list that begins at a place: the list is without it, the node
points to nothing, and no other place has changed. -/
theorem delLoop_eq {before rest : List (ℕ × Item)} :
    ∀ {lists : Hlists Item} {slot : Slot} {link : Link} {rounds : ℕ},
      lists.load slot = some link → Chain lists.memory link (before ++ (n, item) :: rest) →
      ((before ++ (n, item) :: rest).map Prod.fst).Nodup →
      (∀ address ∈ (before ++ (n, item) :: rest).map Prod.fst, slot ≠ .next address) →
      before.length < rounds →
      ∃ after link', delLoop n rounds lists slot = some after ∧ after.load slot = some link' ∧
        Chain after.memory link' (before ++ rest) ∧ after.load (.next n) = some .null ∧
        (∀ address, after.itemAt address = lists.itemAt address) ∧
        ∀ other, other ≠ slot →
          (∀ address ∈ (before ++ (n, item) :: rest).map Prod.fst, other ≠ .next address) →
          after.load other = lists.load other := by
  induction before with
  | nil =>
      intro lists slot link rounds loaded chain distinct apart enough
      obtain ⟨rounds, rfl⟩ := Nat.exists_eq_add_one.mpr enough
      obtain ⟨rfl, next, stored, tail⟩ := chain
      obtain ⟨absent, -⟩ := List.nodup_cons.mp distinct
      obtain ⟨after, unlinked, here, cleared, sameItems, others⟩ :=
        unlink_eq stored (loaded ▸ rfl) (apart n (by simp))
      refine ⟨after, next, ?_, here, ?_, cleared, sameItems, fun other notSlot notThere =>
        others other notSlot (notThere n (by simp))⟩
      · rw [delLoop, loaded, Option.bind_some]
        simp only [↓reduceIte, unlinked]
      · refine tail.frame fun address member => memory_congr (sameItems address) ?_
        refine others _ (fun same => apart address (by simp [member]) same.symm) fun same => ?_
        cases same
        exact absent member
  | cons entry before ih =>
      intro lists slot link rounds loaded chain distinct apart enough
      obtain ⟨address, first⟩ := entry
      obtain ⟨rounds, rfl⟩ := Nat.exists_eq_add_one.mpr (Nat.zero_lt_of_lt enough)
      obtain ⟨rfl, next, stored, tail⟩ := chain
      obtain ⟨absent, distinct⟩ := List.nodup_cons.mp distinct
      have different : address ≠ n := by
        rintro rfl
        exact absent (by simp)
      have nextLink := (memory_eq_some.mp stored).2
      obtain ⟨after, link', deleted, there, chain', cleared, sameItems, others⟩ :=
        ih nextLink tail distinct (fun other member same => by
          cases same
          exact absent member) (Nat.lt_of_succ_lt_succ enough)
      have slotKept : after.load slot = lists.load slot :=
        others slot (apart address (by simp)) fun other member =>
          apart other (List.mem_cons_of_mem _ member)
      refine ⟨after, .node address, ?_, by rw [slotKept, loaded], ?_, cleared, sameItems,
        fun other notSlot notThere => ?_⟩
      · rw [delLoop, loaded, Option.bind_some]
        simp only [different, ↓reduceIte, deleted]
      · refine ⟨rfl, link', memory_eq_some.mpr ⟨?_, there⟩, chain'⟩
        rw [sameItems, (memory_eq_some.mp stored).1]
      · exact others other (notThere address (by simp)) fun address member =>
          notThere address (List.mem_cons_of_mem _ member)

/-- **Adding a node** that is in memory puts it in front of the list of the bucket. -/
theorem addHead_eq {bucket : ℕ} {next : Link} (stored : lists.memory n = some ⟨item, next⟩)
    (chain : Chain lists.memory (lists.first bucket) items) (absent : n ∉ items.map Prod.fst) :
    ∃ after, lists.addHead n bucket = some after ∧
      Chain after.memory (after.first bucket) ((n, item) :: items) ∧
      (∀ other ≠ bucket, after.first other = lists.first other) ∧
      ∀ address ≠ n, after.memory address = lists.memory address := by
  refine ⟨⟨Function.update lists.first bucket (.node n), Function.update lists.memory n
      (some ⟨item, if lists.first bucket = .null then .listEnd else lists.first bucket⟩)⟩,
    ?_, ?_, ?_, ?_⟩
  · simp only [addHead, store, stored, Option.map_some, Option.bind_some]
  · refine ⟨Function.update_self _ _ _, _, Function.update_self _ _ _, ?_⟩
    have tail := chain.frame (fun address member => Function.update_of_ne
      (fun same : address = n => absent (show n ∈ _ from same ▸ member)) (some ⟨item,
        if lists.first bucket = .null then .listEnd else lists.first bucket⟩) lists.memory)
    exact tail.terminated
  · intro other different
    exact Function.update_of_ne different _ _
  · intro address different
    exact Function.update_of_ne different _ _

end Hlists

end AriannaLinux.Apk
