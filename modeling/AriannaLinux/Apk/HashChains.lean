import AriannaLinux.Apk.Hash
import AriannaLinux.Apk.Hlist

/-! # The hash table in memory

`hash.c` on the chained lists of `Hlist`. The table holds the heads of its buckets, and the
items lie in memory with their links. It keeps the chains of the table `Hash`, and these keep
a multimap: a list of the items present, newest first (`hashCalls_multimap`).
-/

namespace AriannaLinux.Apk

/-- `struct apk_hash_ops`; the comparisons are 0 on a match. `deleteItem` is what is left at
the place of an item that is deleted. -/
structure HashOps (Item Key : Type*) where
  getKey : Item → Key
  hashKey : Key → UInt64
  hashItem : Option (Item → UInt64)
  compare : Key → Key → ℤ
  compareItem : Option (Item → Key → ℤ)
  deleteItem : ℕ → Node Item → Option (Node Item)

namespace HashOps

variable {Item Key : Type*}

/-- `apk_hash_from_key`. -/
def fromKey (ops : HashOps Item Key) (key : Key) : UInt64 := ops.hashKey key

/-- `apk_hash_from_item`. -/
def fromItem (ops : HashOps Item Key) (item : Item) : UInt64 :=
  match ops.hashItem with
  | some hashItem => hashItem item
  | none => ops.fromKey (ops.getKey item)

/-- The comparison of an item with a key that both loops make. -/
def isMatch (ops : HashOps Item Key) (key : Key) (item : Item) : Bool :=
  match ops.compareItem with
  | some compareItem => compareItem item key = 0
  | none => ops.compare key (ops.getKey item) = 0

/-- An item's hash is that of its key: it is the hash of every key that the item matches. -/
def Lawful (ops : HashOps Item Key) : Prop :=
  ∀ key item, ops.isMatch key item = true → ops.fromItem item = ops.fromKey key

end HashOps

/-- `struct apk_hash`, with the items in memory. -/
structure HashTable (Item : Type*) where
  num : ℕ
  lists : Hlists Item
  numItems : ℕ
  positive : 0 < num

/-- The buckets of `apk_hash_foreach` one after the other. -/
def foreachBuckets {Item σ : Type*} (e : Enumerator Item σ) (ctx : Bool) (rounds : ℕ)
    (first : ℕ → Link) : List ℕ → σ → Memory Item → Option (ℤ × σ × Memory Item)
  | [], s, memory => some (0, s, memory)
  | i :: buckets, s, memory =>
      (forEachSafe e ctx rounds (first i) s memory).bind fun (r, s, memory) =>
        if r ≠ 0 then some (r, s, memory) else foreachBuckets e ctx rounds first buckets s memory

namespace HashTable

variable {Item Key : Type*}

/-- `apk_hash_init`, in a memory that may hold anything. -/
def init (num : ℕ) (positive : 0 < num) (memory : Memory Item) : HashTable Item where
  num
  lists := ⟨fun _ => .null, memory⟩
  numItems := 0
  positive

/-- `hash % h->buckets->num`. -/
def bucketOf (h : HashTable Item) (hash : UInt64) : ℕ := hash.toNat % h.num

/-- `apk_hash_foreach`. `ctx` tells whether the context is not NULL. -/
def foreach {σ : Type*} (h : HashTable Item) (rounds : ℕ) (e : Enumerator Item σ) (ctx : Bool)
    (s : σ) : Option (ℤ × σ × Memory Item) :=
  foreachBuckets e ctx rounds h.lists.first (List.range h.num) s h.lists.memory

/-- `apk_hash_get_hashed`. -/
def getHashed (ops : HashOps Item Key) (rounds : ℕ) (h : HashTable Item) (key : Key)
    (hash : UInt64) : Option (Option ℕ) :=
  Hlists.find (ops.isMatch key) h.lists.memory rounds (h.lists.first (h.bucketOf hash))

/-- `apk_hash_insert_hashed`. -/
def insertHashed (h : HashTable Item) (item : ℕ) (hash : UInt64) : Option (HashTable Item) :=
  (h.lists.addHead item (h.bucketOf hash)).map fun lists =>
    { h with lists, numItems := h.numItems + 1 }

/-- `apk_hash_delete_hashed`. -/
def deleteHashed (ops : HashOps Item Key) (rounds : ℕ) (h : HashTable Item) (key : Key)
    (hash : UInt64) : Option (HashTable Item) :=
  let bucket := h.bucketOf hash
  (Hlists.find (ops.isMatch key) h.lists.memory rounds (h.lists.first bucket)).bind fun found =>
    match found with
    | none => some h
    | some pos =>
        (h.lists.del rounds pos bucket).bind fun lists =>
          (lists.memory pos).map fun node =>
            let memory := Function.update lists.memory pos (ops.deleteItem pos node)
            { h with lists := { lists with memory } }

/-- `apk_hash_get`. -/
def get (ops : HashOps Item Key) (rounds : ℕ) (h : HashTable Item) (key : Key) :
    Option (Option ℕ) :=
  h.getHashed ops rounds key (ops.fromKey key)

/-- `apk_hash_insert`. -/
def insert (ops : HashOps Item Key) (h : HashTable Item) (item : ℕ) : Option (HashTable Item) :=
  (h.lists.memory item).bind fun node => h.insertHashed item (ops.fromItem node.item)

/-- `apk_hash_delete`. -/
def delete (ops : HashOps Item Key) (rounds : ℕ) (h : HashTable Item) (key : Key) :
    Option (HashTable Item) :=
  h.deleteHashed ops rounds key (ops.fromKey key)

/-- The caller makes an item. -/
def make (h : HashTable Item) (address : ℕ) (item : Node Item) : HashTable Item :=
  { h with
    lists := { h.lists with memory := Function.update h.lists.memory address (some item) } }

end HashTable

/-- A call to the table. An item that is inserted has been made by the caller, whatever its
node holds. -/
inductive HashCall (Item Key : Type*) where
  | insert (address : ℕ) (item : Node Item)
  | get (key : Key)
  | delete (key : Key)

/-- A sequence of calls: what the lookups return, and the table. -/
def hashCalls {Item Key : Type*} (ops : HashOps Item Key) (rounds : ℕ) :
    List (HashCall Item Key) → HashTable Item → Option (List (Option ℕ) × HashTable Item)
  | [], h => some ([], h)
  | .insert address item :: calls, h =>
      ((h.make address item).insert ops address).bind (hashCalls ops rounds calls)
  | .get key :: calls, h =>
      (h.get ops rounds key).bind fun found =>
        (hashCalls ops rounds calls h).map fun (answers, h) => (found :: answers, h)
  | .delete key :: calls, h => (h.delete ops rounds key).bind (hashCalls ops rounds calls)

/-! ## The multimap -/

/-- The same sequence of calls on the items present, newest first. A lookup returns the newest
item that matches the key, and a deletion takes that one away. -/
def multimapCalls {Item Key : Type*} (ops : HashOps Item Key) :
    List (HashCall Item Key) → List (ℕ × Item) → List (Option ℕ) × List (ℕ × Item)
  | [], present => ([], present)
  | .insert address item :: calls, present =>
      multimapCalls ops calls ((address, item.item) :: present)
  | .get key :: calls, present =>
      let (answers, last) := multimapCalls ops calls present
      (((present.find? fun entry => ops.isMatch key entry.2).map Prod.fst) :: answers, last)
  | .delete key :: calls, present =>
      multimapCalls ops calls (present.eraseP fun entry => ops.isMatch key entry.2)

/-- Every item that is inserted lies apart from the items present. -/
def InsertsNew {Item Key : Type*} (ops : HashOps Item Key) :
    List (HashCall Item Key) → List (ℕ × Item) → Prop
  | [], _ => True
  | .insert address item :: calls, present =>
      address ∉ present.map Prod.fst ∧ InsertsNew ops calls ((address, item.item) :: present)
  | .get _ :: calls, present => InsertsNew ops calls present
  | .delete key :: calls, present =>
      InsertsNew ops calls (present.eraseP fun entry => ops.isMatch key entry.2)

namespace Hash

variable {Item : Type*} {num : ℕ} {positive : 0 < num} {hash : Item → UInt64}
  {present : List Item} {compare : Item → Bool} {value : UInt64}

/-- The table of the items present: each bucket has its own, newest first. -/
def ofPresent (num : ℕ) (positive : 0 < num) (hash : Item → UInt64) (present : List Item) :
    Hash Item where
  num
  bucket b := present.filter fun item => (hash item).toNat % num = b
  positive

theorem ofPresent_cons (item : Item) :
    ofPresent num positive hash (item :: present) =
      (ofPresent num positive hash present).insertHashed item (hash item) := by
  simp only [ofPresent, insertHashed, mk.injEq, true_and]
  funext b
  by_cases here : b = (hash item).toNat % num
  · subst here
    rw [index, Function.update_self, List.filter_cons_of_pos (by simp)]
  · rw [index, Function.update_of_ne here, List.filter_cons_of_neg (by simp [Ne.symm here])]

/-- Erasing a member of a part of the list. -/
theorem eraseP_filter {p : Item → Bool} (inside : ∀ item, compare item = true → p item = true)
    (present : List Item) : (present.filter p).eraseP compare = (present.eraseP compare).filter p := by
  induction present with
  | nil => rfl
  | cons item present ih =>
      by_cases matching : compare item = true
      · rw [List.filter_cons_of_pos (inside item matching), List.eraseP_cons_of_pos matching,
          List.eraseP_cons_of_pos matching]
      · rw [List.eraseP_cons_of_neg matching]
        by_cases part : p item = true
        · rw [List.filter_cons_of_pos part, List.eraseP_cons_of_neg matching, ih,
            List.filter_cons_of_pos part]
        · rw [List.filter_cons_of_neg part, ih, List.filter_cons_of_neg part]

/-- Erasing a member outside a part of the list. -/
theorem filter_eraseP {p : Item → Bool} (outside : ∀ item, compare item = true → ¬ p item = true)
    (present : List Item) : (present.eraseP compare).filter p = present.filter p := by
  induction present with
  | nil => rfl
  | cons item present ih =>
      by_cases matching : compare item = true
      · rw [List.eraseP_cons_of_pos matching, List.filter_cons_of_neg (outside item matching)]
      · rw [List.eraseP_cons_of_neg matching, List.filter_cons, List.filter_cons, ih]

/-- **A lookup** that only matches items of its hash finds the newest of all. -/
theorem getHashed_ofPresent
    (lawful : ∀ item, compare item = true → hash item = value) :
    (ofPresent num positive hash present).getHashed compare value = present.find? compare := by
  rw [getHashed, ofPresent, List.find?_filter]
  congr 1
  funext item
  cases matching : compare item with
  | false => simp
  | true => simp [index, lawful item matching]

/-- **A deletion** that only matches items of its hash takes away the newest of all. -/
theorem deleteHashed_ofPresent
    (lawful : ∀ item, compare item = true → hash item = value) :
    (ofPresent num positive hash present).deleteHashed compare value =
      ofPresent num positive hash (present.eraseP compare) := by
  simp only [ofPresent, deleteHashed, mk.injEq, true_and]
  funext b
  by_cases here : b = value.toNat % num
  · subst here
    rw [index, Function.update_self, eraseP_filter fun item matching => ?_]
    simp [lawful item matching]
  · rw [index, Function.update_of_ne here, filter_eraseP fun item matching => ?_]
    simp [lawful item matching, Ne.symm here]

theorem items_ofPresent_perm :
    (ofPresent num positive hash present).items.Perm present := by
  induction present with
  | nil => simp [ofPresent, items]
  | cons item present ih =>
      rw [ofPresent_cons]
      exact (items_insertHashed_perm _ _ _).trans (ih.cons item)

end Hash

namespace HashTable

variable {Item Key : Type*} {ops : HashOps Item Key} {h : HashTable Item}
  {present : List (ℕ × Item)} {rounds : ℕ} {key : Key}

/-- The table as the chains of the items present. -/
def chains (ops : HashOps Item Key) (h : HashTable Item) (present : List (ℕ × Item)) :
    Hash (ℕ × Item) :=
  Hash.ofPresent h.num h.positive (fun entry => ops.fromItem entry.2) present

/-- The table in memory is that of the items present, each at an address of its own. -/
structure Holds (ops : HashOps Item Key) (h : HashTable Item) (present : List (ℕ × Item)) :
    Prop where
  linked : ∀ b < h.num, Chain h.lists.memory (h.lists.first b) ((h.chains ops present).bucket b)
  distinct : (present.map Prod.fst).Nodup

theorem holds_init {num : ℕ} (positive : 0 < num) (memory : Memory Item) :
    (init num positive memory).Holds ops [] where
  linked _ _ := .inl rfl
  distinct := List.nodup_nil

theorem bucketOf_lt (h : HashTable Item) (hash : UInt64) : h.bucketOf hash < h.num :=
  Nat.mod_lt _ h.positive

theorem mem_bucket {entry : ℕ × Item} {b : ℕ} :
    entry ∈ (h.chains ops present).bucket b ↔
      entry ∈ present ∧ h.bucketOf (ops.fromItem entry.2) = b := by
  simp [chains, Hash.ofPresent, bucketOf]

theorem bucket_sublist (b : ℕ) : ((h.chains ops present).bucket b).Sublist present :=
  List.filter_sublist

theorem address_mem_bucket {address b : ℕ} :
    address ∈ ((h.chains ops present).bucket b).map Prod.fst ↔
      ∃ item, (address, item) ∈ present ∧ h.bucketOf (ops.fromItem item) = b := by
  simp only [List.mem_map, mem_bucket, Prod.exists]
  constructor
  · rintro ⟨_, item, ⟨member, placed⟩, rfl⟩
    exact ⟨item, member, placed⟩
  · rintro ⟨item, member, placed⟩
    exact ⟨address, item, ⟨member, placed⟩, rfl⟩

/-- The chains find the newest item that matches. -/
theorem getHashed_chains (lawful : ops.Lawful) (h : HashTable Item) (present : List (ℕ × Item))
    (key : Key) :
    (h.chains ops present).getHashed (fun entry => ops.isMatch key entry.2) (ops.fromKey key) =
      present.find? fun entry => ops.isMatch key entry.2 :=
  Hash.getHashed_ofPresent fun entry matching => lawful key entry.2 matching

namespace Holds

theorem bucket_distinct (holds : h.Holds ops present) (b : ℕ) :
    (((h.chains ops present).bucket b).map Prod.fst).Nodup :=
  holds.distinct.sublist ((bucket_sublist b).map _)

theorem item_unique (holds : h.Holds ops present) {address : ℕ} {item item' : Item}
    (first : (address, item) ∈ present) (second : (address, item') ∈ present) : item = item' :=
  (Prod.ext_iff.mp (List.inj_on_of_nodup_map holds.distinct first second rfl)).2

/-- An address lies in one bucket. -/
theorem bucket_unique (holds : h.Holds ops present) {address b c : ℕ}
    (first : address ∈ ((h.chains ops present).bucket b).map Prod.fst)
    (second : address ∈ ((h.chains ops present).bucket c).map Prod.fst) : b = c := by
  obtain ⟨item, member, rfl⟩ := address_mem_bucket.mp first
  obtain ⟨item', member', rfl⟩ := address_mem_bucket.mp second
  rw [holds.item_unique member member']

/-- The search in the bucket of a key finds the newest item that matches. -/
theorem find (holds : h.Holds ops present) (lawful : ops.Lawful) (enough : present.length < rounds) :
    Hlists.find (ops.isMatch key) h.lists.memory rounds
        (h.lists.first (h.bucketOf (ops.fromKey key))) =
      some ((present.find? fun entry => ops.isMatch key entry.2).map Prod.fst) := by
  have chain := holds.linked _ (h.bucketOf_lt (ops.fromKey key))
  have short : ((h.chains ops present).bucket (h.bucketOf (ops.fromKey key))).length ≤
      present.length := (bucket_sublist _).length_le
  have found := getHashed_chains lawful h present key
  rw [chain.find (ops.isMatch key) (lt_of_le_of_lt short enough), ← found]
  rfl

/-- **A lookup** finds the newest item that matches. -/
theorem get (holds : h.Holds ops present) (lawful : ops.Lawful) (enough : present.length < rounds) :
    h.get ops rounds key =
      some ((present.find? fun entry => ops.isMatch key entry.2).map Prod.fst) :=
  holds.find lawful enough

/-- **An insertion** puts the item in front of those present. -/
theorem insert (holds : h.Holds ops present) {address : ℕ} (item : Node Item)
    (absent : address ∉ present.map Prod.fst) :
    ∃ after, (h.make address item).insert ops address = some after ∧
      after.Holds ops ((address, item.item) :: present) := by
  have made : (h.make address item).lists.memory address = some ⟨item.item, item.next⟩ :=
    Function.update_self _ _ _
  have apart : ∀ b, address ∉ ((h.chains ops present).bucket b).map Prod.fst := fun b member =>
    absent (((bucket_sublist b).map _).subset member)
  have framed : ∀ b < h.num, Chain (h.make address item).lists.memory (h.lists.first b)
      ((h.chains ops present).bucket b) := fun b inside =>
    (holds.linked b inside).frame fun other member => Function.update_of_ne
      (fun same : other = address => apart b (same ▸ member)) _ _
  have bound := h.bucketOf_lt (ops.fromItem item.item)
  obtain ⟨lists, added, chain, heads, others⟩ :=
    Hlists.addHead_eq made (framed _ bound) (apart _)
  refine ⟨⟨h.num, lists, h.numItems + 1, h.positive⟩, ?_, fun b inside => ?_, ?_⟩
  · rw [HashTable.insert, made, Option.bind_some, insertHashed]
    exact congrArg (Option.map _) added
  · change Chain lists.memory (lists.first b)
      ((Hash.ofPresent h.num h.positive _ ((address, item.item) :: present)).bucket b)
    rw [Hash.ofPresent_cons, Hash.bucket_insertHashed]
    split
    · rename_i here
      subst here
      exact chain
    · rename_i elsewhere
      rw [heads b elsewhere]
      exact (framed b inside).frame fun other member =>
        others other fun same => apart b (same ▸ member)
  · exact List.nodup_cons.mpr ⟨absent, holds.distinct⟩

/-- **A deletion** takes away the newest item that matches, and no other. -/
theorem delete (holds : h.Holds ops present) (lawful : ops.Lawful)
    (enough : present.length < rounds) :
    ∃ after, h.delete ops rounds key = some after ∧
      after.Holds ops (present.eraseP fun entry => ops.isMatch key entry.2) := by
  rw [HashTable.delete, deleteHashed]
  dsimp only
  rw [holds.find lawful enough, Option.bind_some]
  have found := getHashed_chains lawful h present key
  cases newest : present.find? fun entry => ops.isMatch key entry.2 with
  | none =>
      refine ⟨h, rfl, ?_⟩
      rwa [List.eraseP_of_forall_not (List.find?_eq_none.mp newest)]
  | some entry =>
      obtain ⟨pos, item⟩ := entry
      rw [newest] at found
      obtain ⟨matching, before, rest, whole, earlier⟩ := List.find?_eq_some_iff_append.mp found
      have b_eq : (h.chains ops present).index (ops.fromKey key) = h.bucketOf (ops.fromKey key) := rfl
      rw [b_eq] at whole
      have bound := h.bucketOf_lt (ops.fromKey key)
      have chain := holds.linked _ bound
      have distinct := holds.bucket_distinct (h.bucketOf (ops.fromKey key))
      have unique : ∀ {address c : ℕ}, c ≠ h.bucketOf (ops.fromKey key) →
          address ∈ ((h.chains ops present).bucket c).map Prod.fst →
          address ∉ (before ++ (pos, item) :: rest).map Prod.fst := by
        intro address c elsewhere member inside
        rw [← whole] at inside
        exact elsewhere (holds.bucket_unique member inside)
      have short : before.length < rounds := by
        have length := (bucket_sublist (h.bucketOf (ops.fromKey key)) :
          ((h.chains ops present).bucket _).Sublist present).length_le
        rw [whole, List.length_append] at length
        omega
      rw [whole] at chain distinct
      obtain ⟨lists, link, deleted, head, without, cleared, sameItems, others⟩ :=
        @Hlists.delLoop_eq _ pos item before rest h.lists (.first (h.bucketOf (ops.fromKey key))) _ _
          rfl chain distinct (fun _ _ same => by cases same) short
      obtain ⟨node, there, -⟩ := Option.map_eq_some_iff.mp cleared
      have gone : pos ∉ (before ++ rest).map Prod.fst := by
        rw [List.map_append, List.map_cons] at distinct
        rw [List.map_append]
        exact (List.nodup_middle.mp distinct).notMem
      refine ⟨⟨h.num, ⟨lists.first, Function.update lists.memory pos (ops.deleteItem pos node)⟩,
        h.numItems, h.positive⟩, ?_, fun c inside => ?_, ?_⟩
      · simp only [Option.map_some, Hlists.del, deleted, Option.bind_some, there]
      · change Chain (Function.update lists.memory pos (ops.deleteItem pos node)) (lists.first c)
          ((Hash.ofPresent h.num h.positive _ _).bucket c)
        rw [← Hash.deleteHashed_ofPresent fun entry matching => lawful key entry.2 matching,
          Hash.bucket_deleteHashed]
        split
        · rename_i here
          obtain rfl : c = h.bucketOf (ops.fromKey key) := here
          have erased : (before ++ (pos, item) :: rest).eraseP
              (fun entry => ops.isMatch key entry.2) = before ++ rest := by
            rw [List.eraseP_append_right _ fun entry member => by simpa using earlier entry member]
            exact congrArg (before ++ ·) (List.eraseP_cons_of_pos matching)
          have head : lists.first (h.bucketOf (ops.fromKey key)) = link := Option.some.inj head
          change Chain _ _ (((h.chains ops present).bucket _).eraseP _)
          rw [whole, erased, head]
          exact without.frame fun address member => Function.update_of_ne
            (fun same : address = pos => gone (same ▸ member)) _ _
        · rename_i elsewhere
          have apart : c ≠ h.bucketOf (ops.fromKey key) := elsewhere
          have head : lists.first c = h.lists.first c := Option.some.inj
            (others (.first c) (fun same => apart (Slot.first.inj same)) fun _ _ same => by cases same)
          rw [head]
          refine (holds.linked c inside).frame fun address member => ?_
          have outside := unique apart member
          have different : address ≠ pos := by
            rintro rfl
            exact outside (by simp)
          rw [Function.update_of_ne different]
          refine Hlists.memory_congr (sameItems address) (others _ (by simp) fun other there same => ?_)
          cases same
          exact outside there
      · exact holds.distinct.sublist (List.eraseP_sublist.map _)

/-- The iteration visits the items of the buckets one after the other. -/
theorem foreachBuckets_eq (holds : h.Holds ops present) {σ : Type*} {e : Enumerator Item σ}
    {ctx : Bool} (quiet : ctx = true → ∀ s address node, (e s address node).1 = 0)
    (enough : present.length < rounds) (buckets : List ℕ) :
    ∀ (s : σ) (memory : Memory Item), buckets.Nodup →
      (∀ b ∈ buckets, Chain memory (h.lists.first b) ((h.chains ops present).bucket b)) →
      foreachBuckets e ctx rounds h.lists.first buckets s memory =
        some (0, (buckets.flatMap fun b => ((h.chains ops present).bucket b).map Prod.fst).foldl
          (visit e) (s, memory)) := by
  induction buckets with
  | nil => exact fun _ _ _ _ => rfl
  | cons b buckets ih =>
      intro s memory distinct linked
      obtain ⟨absent, distinct⟩ := List.nodup_cons.mp distinct
      have short := (bucket_sublist b : ((h.chains ops present).bucket b).Sublist present).length_le
      rw [foreachBuckets, (linked b List.mem_cons_self).forEachSafe quiet (holds.bucket_distinct b)
        (lt_of_le_of_lt short enough)]
      simp only [Option.bind_some, ne_eq, not_true_eq_false, ↓reduceIte, List.flatMap_cons,
        List.foldl_append]
      refine ih _ _ distinct fun c member => ?_
      refine (linked c (List.mem_cons_of_mem _ member)).frame fun address inside => ?_
      refine foldl_visit_other e _ (fun there => absent ?_) (s, memory)
      rw [holds.bucket_unique there inside]
      exact member

/-- **The iteration** visits each item present once. -/
theorem foreach (holds : h.Holds ops present) {σ : Type*} {e : Enumerator Item σ}
    {ctx : Bool} (quiet : ctx = true → ∀ s address node, (e s address node).1 = 0)
    (enough : present.length < rounds) (s : σ) :
    ∃ order : List ℕ, order.Perm (present.map Prod.fst) ∧ order.Nodup ∧
      h.foreach rounds e ctx s = some (0, order.foldl (visit e) (s, h.lists.memory)) := by
  have visited := holds.foreachBuckets_eq quiet enough (List.range h.num) s h.lists.memory
    List.nodup_range fun b member => holds.linked b (List.mem_range.mp member)
  have order : ((List.range h.num).flatMap fun b =>
      ((h.chains ops present).bucket b).map Prod.fst).Perm (present.map Prod.fst) := by
    rw [← List.map_flatMap]
    exact Hash.items_ofPresent_perm.map _
  exact ⟨_, order, order.nodup_iff.mpr holds.distinct, visited⟩

/-- The items present are in memory. -/
theorem itemAt (holds : h.Holds ops present) {address : ℕ} {item : Item}
    (member : (address, item) ∈ present) : h.lists.itemAt address = some item := by
  have stored : ∀ {link : Link} {items : List (ℕ × Item)}, Chain h.lists.memory link items →
      (address, item) ∈ items → h.lists.itemAt address = some item := by
    intro link items chain member
    induction items generalizing link with
    | nil => cases member
    | cons entry rest ih =>
        obtain ⟨_, next, here, tail⟩ := chain
        rcases List.mem_cons.mp member with rfl | later
        · rw [Hlists.itemAt, here]
          rfl
        · exact ih tail later
  exact stored (holds.linked _ (h.bucketOf_lt (ops.fromItem item))) (mem_bucket.mpr ⟨member, rfl⟩)

end Holds

/-- **A sequence of calls** on the table is that on the multimap. -/
theorem Holds.calls {ops : HashOps Item Key} (lawful : ops.Lawful)
    (calls : List (HashCall Item Key)) :
    ∀ {h : HashTable Item} {present : List (ℕ × Item)}, h.Holds ops present →
      InsertsNew ops calls present → present.length + calls.length < rounds →
      ∃ after, hashCalls ops rounds calls h = some ((multimapCalls ops calls present).1, after) ∧
        after.Holds ops (multimapCalls ops calls present).2 ∧
        (multimapCalls ops calls present).2.length < rounds := by
  induction calls with
  | nil => exact fun holds _ enough => ⟨_, rfl, holds, by simpa [multimapCalls] using enough⟩
  | cons call calls ih =>
      intro h present holds new enough
      rw [List.length_cons] at enough
      cases call with
      | insert address item =>
          obtain ⟨absent, new⟩ := new
          obtain ⟨middle, inserted, holds⟩ := holds.insert item absent
          obtain ⟨after, rest, result⟩ := ih holds new (by rw [List.length_cons]; omega)
          exact ⟨after, by rw [hashCalls, inserted]; exact rest, result⟩
      | get key =>
          obtain ⟨after, rest, result⟩ := ih holds new (by omega)
          refine ⟨after, ?_, result⟩
          rw [hashCalls, holds.get lawful (by omega), Option.bind_some, rest]
          rfl
      | delete key =>
          obtain ⟨middle, deleted, holds⟩ := @Holds.delete _ _ _ _ _ rounds key holds lawful (by omega)
          have fewer := (List.eraseP_sublist :
            (present.eraseP fun entry => ops.isMatch key entry.2).Sublist present).length_le
          obtain ⟨after, rest, result⟩ := ih holds new (by omega)
          exact ⟨after, by rw [hashCalls, deleted]; exact rest, result⟩

end HashTable

/-- **The hash table is a multimap** whose lookups find the item inserted last. For any number
of buckets and any hash function, a sequence of calls returns what it returns on the list of
the items present, newest first; and afterwards the iteration, with a callback that returns 0
or has no context, visits each item present once, as it is in memory, whatever the callback
leaves of it. -/
theorem hashCalls_multimap {Item Key σ : Type*} {ops : HashOps Item Key} (lawful : ops.Lawful)
    {num : ℕ} (positive : 0 < num) (memory : Memory Item) {calls : List (HashCall Item Key)}
    (new : InsertsNew ops calls []) {rounds : ℕ} (enough : calls.length < rounds) :
    ∃ table : HashTable Item,
      hashCalls ops rounds calls (.init num positive memory) =
        some ((multimapCalls ops calls []).1, table) ∧
      (∀ entry ∈ (multimapCalls ops calls []).2, table.lists.itemAt entry.1 = some entry.2) ∧
      ∀ (e : Enumerator Item σ) (ctx : Bool) (s : σ),
        (ctx = true → ∀ s address node, (e s address node).1 = 0) →
        ∃ order : List ℕ, order.Perm ((multimapCalls ops calls []).2.map Prod.fst) ∧ order.Nodup ∧
          table.foreach rounds e ctx s =
            some (0, order.foldl (visit e) (s, table.lists.memory)) := by
  obtain ⟨table, run, holds, short⟩ := HashTable.Holds.calls lawful calls
    (HashTable.holds_init positive memory) new (by simpa using enough)
  exact ⟨table, run, fun entry member => holds.itemAt member,
    fun e ctx s quiet => holds.foreach quiet short s⟩

/-- The operations of the tables of names, directories and ids, which differ in the key. -/
def blobHashOps {Item : Type*} (getKey : Item → Bytes) : HashOps Item Bytes where
  getKey
  hashKey := blobHash
  hashItem := none
  compare := blobCompare
  compareItem := none
  deleteItem _ _ := none

theorem blobHashOps_lawful {Item : Type*} (getKey : Item → Bytes) : (blobHashOps getKey).Lawful := by
  intro key item matching
  have same : key = getKey item := by simpa [HashOps.isMatch, blobHashOps] using matching
  rw [HashOps.fromItem, same]
  rfl

/-- Two items of one key are inserted and the newer one is deleted. -/
def shadowing : List (HashCall Bytes Bytes) :=
  [.insert 8 ⟨text "a", .null⟩, .insert 16 ⟨text "a", .null⟩, .delete (text "a")]

/-- The calls on a table of one bucket. -/
theorem hashCalls_multimap_shadowing :
    ∃ table : HashTable Bytes,
      hashCalls (blobHashOps id) 4 shadowing (.init 1 (by decide) fun _ => none) =
        some ((multimapCalls (blobHashOps id) shadowing []).1, table) ∧
      (∀ entry ∈ (multimapCalls (blobHashOps id) shadowing []).2,
        table.lists.itemAt entry.1 = some entry.2) ∧
      ∀ (e : Enumerator Bytes (List ℕ)) (ctx : Bool) (s : List ℕ),
        (ctx = true → ∀ s address node, (e s address node).1 = 0) →
        ∃ order : List ℕ,
          order.Perm ((multimapCalls (blobHashOps id) shadowing []).2.map Prod.fst) ∧ order.Nodup ∧
          table.foreach 4 e ctx s = some (0, order.foldl (visit e) (s, table.lists.memory)) :=
  hashCalls_multimap (blobHashOps_lawful id) (by decide) (fun _ => none)
    (show InsertsNew (blobHashOps id) shadowing [] from ⟨by decide, by decide, trivial⟩) (by decide)

end AriannaLinux.Apk
