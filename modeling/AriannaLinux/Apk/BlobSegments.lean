import AriannaLinux.Apk.Io.Istream
import AriannaLinux.Lib.Splitting

/-! # Segments between separators

`apk_blob_split` and `apk_blob_for_each_segment` for a separator of any length. A blob has
its address here, because the end of the search is computed from it in 64 bits; reading a
byte outside the blob has no result. The iteration is splitting at leftmost occurrences
except where the end of the search falls below address 0, which is the NULL blob with a
separator of several bytes (`segmentsExact_iff`).
-/

namespace AriannaLinux.Apk

/-! ## The search -/

/-- What `apk_blob_split` finds is the leftmost occurrence. -/
theorem blobSplit_eq_some {split blob l r : Bytes} (nonempty : split ≠ []) :
    blobSplit split blob = some (l, r) ↔ SplitsAt split l r blob := by
  induction blob generalizing l with
  | nil =>
      simp only [blobSplit, nonempty, ↓reduceIte, reduceCtorEq, false_iff]
      intro splits
      simpa [nonempty] using splits.whole
  | cons c rest ih =>
      rw [blobSplit]
      by_cases here : split.isPrefixOf (c :: rest)
      · obtain ⟨back, whole⟩ := List.isPrefixOf_iff_prefix.mp here
        rw [if_pos here, ← whole, List.drop_left]
        simp only [Option.some.injEq, Prod.mk.injEq]
        constructor
        · rintro ⟨rfl, rfl⟩
          exact ⟨rfl, fun _ _ _ => Nat.zero_le _⟩
        · intro splits
          have first := splits.leftmost [] back rfl
          obtain rfl := List.length_eq_zero_iff.mp (Nat.le_zero.mp first)
          exact ⟨rfl, List.append_cancel_left splits.whole⟩
      · rw [if_neg here, Option.map_eq_some_iff]
        have later : ∀ {l' r' : Bytes}, c :: rest = l' ++ (split ++ r') →
            ∃ tail, l' = c :: tail ∧ rest = tail ++ (split ++ r') := by
          intro l' r' whole
          cases l' with
          | nil => exact absurd (List.isPrefixOf_iff_prefix.mpr ⟨r', whole.symm⟩) here
          | cons head tail =>
              rw [List.cons_append, List.cons.injEq] at whole
              obtain ⟨rfl, whole⟩ := whole
              exact ⟨tail, rfl, whole⟩
        constructor
        · rintro ⟨⟨front, back⟩, found, pair⟩
          cases pair
          have splits := ih.mp found
          refine ⟨by rw [splits.whole, List.cons_append], fun l' r' other => ?_⟩
          obtain ⟨tail, rfl, whole⟩ := later other
          simpa using splits.leftmost tail r' whole
        · intro splits
          obtain ⟨tail, rfl, whole⟩ := later splits.whole
          refine ⟨(tail, r), ih.mpr ⟨whole, fun l' r' other => ?_⟩, rfl⟩
          have bound := splits.leftmost (c :: l') r' (by rw [other, List.cons_append])
          simpa using bound

theorem blobSplit_eq_none {split blob : Bytes} (nonempty : split ≠ []) :
    blobSplit split blob = none ↔ ¬ split <:+: blob := by
  constructor
  · intro missing occurs
    induction blob with
    | nil => exact nonempty (List.infix_nil.mp occurs)
    | cons c rest ih =>
        rw [blobSplit] at missing
        split at missing
        · cases missing
        · rename_i elsewhere
          rcases List.infix_cons_iff.mp occurs with here | later
          · exact elsewhere (List.isPrefixOf_iff_prefix.mpr here)
          · exact ih (Option.map_eq_none_iff.mp missing) later
  · intro absent
    cases found : blobSplit split blob with
    | none => rfl
    | some pair => exact absurd ((blobSplit_eq_some nonempty).mp found).occurs absent

/-- What follows the last separator is a piece unless it is empty. -/
theorem callSegments_last {σ : Type*} (cb : σ → Bytes → ℤ × σ) (blob : Bytes) (ctx : σ) :
    callSegments cb (omitEmptyLast [blob]) ctx =
      if 0 < blob.length then cb ctx blob else (0, ctx) := by
  by_cases empty : blob.length = 0
  · simp [omitEmptyLast, empty, callSegments]
  · simp only [Nat.pos_of_ne_zero empty, ↓reduceIte, omitEmptyLast, empty, callSegments]
    split
    · rfl
    · rename_i succeeded
      exact Prod.ext (not_not.mp succeeded).symm rfl

/-- The pieces of a blob as the iteration comes to them. -/
theorem forEachSegmentLoop_pieces {split : Bytes} (nonempty : split ≠ []) (fuel : ℕ) :
    ∀ blob : Bytes, blob.length ≤ fuel → ∃ pieces, PiecesOf split blob pieces ∧
      ∀ {σ : Type*} (cb : σ → Bytes → ℤ × σ) (ctx : σ),
        forEachSegmentLoop split cb fuel blob ctx = callSegments cb (omitEmptyLast pieces) ctx := by
  induction fuel with
  | zero =>
      intro blob short
      obtain rfl := List.length_eq_zero_iff.mp (Nat.le_zero.mp short)
      exact ⟨[[]], .last fun occurs => nonempty (List.infix_nil.mp occurs),
        fun cb ctx => (callSegments_last cb [] ctx).symm⟩
  | succ fuel ih =>
      intro blob short
      cases found : blobSplit split blob with
      | none =>
          refine ⟨[blob], .last ((blobSplit_eq_none nonempty).mp found), fun cb ctx => ?_⟩
          rw [forEachSegmentLoop, found]
          exact (callSegments_last cb blob ctx).symm
      | some pair =>
          obtain ⟨l, r⟩ := pair
          have splits := (blobSplit_eq_some nonempty).mp found
          have shorter : r.length ≤ fuel := by
            have lengths := congrArg List.length splits.whole
            have positive := List.length_pos_iff.mpr nonempty
            simp only [List.length_append] at lengths
            omega
          obtain ⟨pieces, rest, calls⟩ := ih r shorter
          refine ⟨l :: pieces, .piece splits rest, fun cb ctx => ?_⟩
          rw [forEachSegmentLoop, found, omitEmptyLast_cons l rest.ne_nil]
          simp only [callSegments]
          split
          · rfl
          · exact calls cb _

/-! ## The search on addresses -/

/-- `apk_blob_t`: the address it begins at and the bytes that are there. -/
structure PlacedBlob where
  address : ℕ
  bytes : Bytes
  inside : address + bytes.length < 2 ^ 64

/-- `memcmp (ptr, split.ptr, split.len)` for `ptr` with the given bytes behind it: without a
result, it reads where nothing is. -/
def memcmpAt (behind split : Bytes) : Option ℤ :=
  if behind.length < split.length then none else some (memcmp (behind.take split.length) split)

/-- The loop of `apk_blob_split`: `pos` counts from `blob.ptr`, and `left` is `end - pos`. -/
def splitLoop (bytes split : Bytes) : ℕ → ℕ → ℕ → Option (Option ℕ)
  | 0, _, _ => none
  | fuel + 1, pos, left =>
      (memchr (split.headD 0) (bytes.drop pos) left).bind fun found =>
        match found with
        | none => some none
        | some skipped =>
            if 1 < split.length then
              (memcmpAt (bytes.drop (pos + skipped)) split).bind fun difference =>
                if difference ≠ 0 then
                  splitLoop bytes split fuel (pos + skipped + 1) (left - skipped - 1)
                else some (some (pos + skipped))
            else some (some (pos + skipped))

namespace PlacedBlob

/-- `APK_BLOB_NULL`. -/
def null : PlacedBlob := ⟨0, [], by decide⟩

/-- The blob in front of the `n`-th byte. -/
def front (blob : PlacedBlob) (n : ℕ) : PlacedBlob where
  address := blob.address
  bytes := blob.bytes.take n
  inside := by
    have := blob.inside
    rw [List.length_take]
    omega

/-- The blob from the `n`-th byte on. -/
def behind (blob : PlacedBlob) (n : ℕ) : PlacedBlob where
  address := blob.address + min n blob.bytes.length
  bytes := blob.bytes.drop n
  inside := by
    have := blob.inside
    rw [List.length_drop]
    omega

@[simp] theorem front_bytes (blob : PlacedBlob) (n : ℕ) :
    (blob.front n).bytes = blob.bytes.take n := rfl

@[simp] theorem behind_bytes (blob : PlacedBlob) (n : ℕ) :
    (blob.behind n).bytes = blob.bytes.drop n := rfl

/-- `blob.ptr + blob.len - split.len + 1`. -/
def searchEnd (blob : PlacedBlob) (split : Bytes) : ℕ :=
  (((blob.address : ℤ) + blob.bytes.length - split.length + 1) % 2 ^ 64).toNat

/-- `apk_blob_split`. Each round but the last one passes a byte of the blob. -/
def split (blob : PlacedBlob) (split : Bytes) : Option (Option (PlacedBlob × PlacedBlob)) :=
  if blob.searchEnd split < blob.address then some none
  else
    (splitLoop blob.bytes split (blob.bytes.length + 1) 0
      (blob.searchEnd split - blob.address)).map fun found =>
        found.map fun pos => (blob.front pos, blob.behind (pos + split.length))

/-- The loop of `apk_blob_for_each_segment`. -/
def forEachSegmentLoop {σ : Type*} (s : Bytes) (cb : σ → Bytes → ℤ × σ) :
    ℕ → PlacedBlob → σ → Option (ℤ × σ)
  | 0, _, _ => none
  | fuel + 1, r, ctx =>
      (r.split s).bind fun found =>
        match found with
        | some (l, r) =>
            let (rc, ctx) := cb ctx l.bytes
            if rc ≠ 0 then some (rc, ctx) else forEachSegmentLoop s cb fuel r ctx
        | none => some (if 0 < r.bytes.length then cb ctx r.bytes else (0, ctx))

/-- `apk_blob_for_each_segment`. Each round but the last one passes a separator. -/
def forEachSegment {σ : Type*} (blob : PlacedBlob) (s : Bytes) (cb : σ → Bytes → ℤ × σ)
    (ctx : σ) : Option (ℤ × σ) :=
  forEachSegmentLoop s cb (blob.bytes.length + 1) blob ctx

end PlacedBlob

/-- A search for a byte that stays inside. -/
theorem memchr_inside (c : UInt8) {bytes : Bytes} {count : ℕ} (inside : count ≤ bytes.length) :
    (memchr c bytes count = some none ∧ c ∉ bytes.take count) ∨
      ∃ skipped < count, memchr c bytes count = some (some skipped) ∧
        c ∉ bytes.take skipped ∧ ∃ rest, bytes.drop skipped = c :: rest := by
  induction bytes generalizing count with
  | nil =>
      obtain rfl : count = 0 := Nat.le_zero.mp inside
      exact .inl ⟨rfl, by simp⟩
  | cons b rest ih =>
      cases count with
      | zero => exact .inl ⟨rfl, by simp⟩
      | succ count =>
          by_cases here : b = c
          · subst here
            exact .inr ⟨0, Nat.succ_pos _, by simp [memchr], by simp, rest, rfl⟩
          · rcases ih (Nat.le_of_succ_le_succ inside) with
              ⟨missing, absent⟩ | ⟨skipped, bound, found, absent, tail, shape⟩
            · exact .inl ⟨by simp [memchr, here, missing], by simp [Ne.symm here, absent]⟩
            · exact .inr ⟨skipped + 1, Nat.succ_lt_succ bound, by simp [memchr, here, found],
                by simp [Ne.symm here, absent], tail, by simpa using shape⟩

/-- A search that may leave the bytes finds the byte in them or does leave them. -/
theorem memchr_beyond (c : UInt8) {bytes : Bytes} {count : ℕ} (beyond : bytes.length < count) :
    memchr c bytes count = none ∨ ∃ skipped, memchr c bytes count = some (some skipped) := by
  induction bytes generalizing count with
  | nil =>
      cases count with
      | zero => cases beyond
      | succ count => exact .inl rfl
  | cons b rest ih =>
      cases count with
      | zero => cases beyond
      | succ count =>
          by_cases here : b = c
          · exact .inr ⟨0, by simp [memchr, here]⟩
          · rcases ih (Nat.lt_of_succ_lt_succ beyond) with left | ⟨skipped, found⟩
            · exact .inl (by simp [memchr, here, left])
            · exact .inr ⟨skipped + 1, by simp [memchr, here, found]⟩

/-- The search for a separator passes over bytes that cannot begin one. -/
theorem blobSplit_append {c : UInt8} {split front : Bytes} (back : Bytes) (absent : c ∉ front) :
    blobSplit (c :: split) (front ++ back) =
      (blobSplit (c :: split) back).map fun (l, r) => (front ++ l, r) := by
  induction front with
  | nil => simp
  | cons b front ih =>
      obtain ⟨different, absent⟩ := not_or.mp (mt List.mem_cons.mpr absent)
      have elsewhere : ¬ (c :: split).isPrefixOf (b :: (front ++ back)) = true := by
        simp [different]
      rw [List.cons_append, blobSplit, if_neg elsewhere, ih absent, Option.map_map]
      rfl

theorem blobSplit_of_short {split blob : Bytes} (short : blob.length < split.length) :
    blobSplit split blob = none := by
  have nonempty : split ≠ [] := by
    rintro rfl
    cases short
  refine (blobSplit_eq_none nonempty).mpr fun occurs => ?_
  exact absurd occurs.length_le (Nat.not_le.mpr short)

/-- The comparison tells whether the separator stands there. -/
theorem memcmpAt_eq {behind split : Bytes} (inside : split.length ≤ behind.length) :
    ∃ difference, memcmpAt behind split = some difference ∧
      (difference = 0 ↔ split <+: behind) := by
  refine ⟨_, if_neg (Nat.not_lt.mpr inside), ?_⟩
  rw [memcmp_eq_zero (by simp [inside]), List.prefix_iff_eq_take]
  exact eq_comm

/-- **The search** with its end at the last place a separator fits into stays inside the blob
and finds what the splitting finds. -/
theorem splitLoop_eq {c : UInt8} {split bytes : Bytes} (fuel : ℕ) :
    ∀ {pos left : ℕ}, pos + left + (c :: split).length = bytes.length + 1 →
      bytes.length < pos + fuel →
      splitLoop bytes (c :: split) fuel pos left =
        some ((blobSplit (c :: split) (bytes.drop pos)).map fun (l, _) => pos + l.length) := by
  induction fuel with
  | zero =>
      intro pos left ends enough
      rw [List.length_cons] at ends
      omega
  | succ fuel ih =>
      intro pos left ends enough
      have ends' := ends
      rw [List.length_cons] at ends'
      have inside : left ≤ (bytes.drop pos).length := by
        rw [List.length_drop]
        omega
      rw [splitLoop, List.headD_cons]
      rcases memchr_inside c inside with
        ⟨missing, absent⟩ | ⟨skipped, bound, found, absent, rest, shape⟩
      · have short : ((bytes.drop pos).drop left).length < (c :: split).length := by
          rw [List.length_drop, List.length_drop, List.length_cons]
          omega
        have none_there := @blobSplit_append c split _ ((bytes.drop pos).drop left) absent
        rw [List.take_append_drop, blobSplit_of_short short] at none_there
        rw [missing, none_there]
        rfl
      · have cut := @blobSplit_append c split _ ((bytes.drop pos).drop skipped) absent
        have length : ((bytes.drop pos).take skipped).length = skipped := by
          rw [List.length_take]
          omega
        rw [List.take_append_drop] at cut
        rw [List.drop_drop] at shape cut
        have fits : (c :: split).length ≤ (bytes.drop (pos + skipped)).length := by
          rw [List.length_drop, List.length_cons]
          omega
        obtain ⟨difference, compared, same⟩ := memcmpAt_eq fits
        rw [found, cut, shape, blobSplit]
        rw [shape] at compared same
        by_cases here : (c :: split) <+: (c :: rest)
        · have first : (if 1 < (c :: split).length then
              (memcmpAt (c :: rest) (c :: split)).bind fun difference =>
                if difference ≠ 0 then
                  splitLoop bytes (c :: split) fuel (pos + skipped + 1) (left - skipped - 1)
                else some (some (pos + skipped))
              else some (some (pos + skipped))) = some (some (pos + skipped)) := by
            rw [compared, same.mpr here]
            simp
          simp only [Option.bind_some, shape, first, List.isPrefixOf_iff_prefix.mpr here,
            ↓reduceIte, Option.map_some, List.append_nil, length]
        · have several : 1 < (c :: split).length := by
            rw [List.length_cons]
            have : split ≠ [] := by
              rintro rfl
              exact here (by simp)
            have := List.length_pos_iff.mpr this
            omega
          have next := @ih (pos + skipped + 1) (left - skipped - 1) (by omega) (by omega)
          have tail : bytes.drop (pos + skipped + 1) = rest := by
            rw [← List.drop_drop, shape, List.drop_succ_cons, List.drop_zero]
          rw [tail] at next
          have elsewhere : ¬ (c :: split).isPrefixOf (c :: rest) = true := fun is_there =>
            here (List.isPrefixOf_iff_prefix.mp is_there)
          simp only [Option.bind_some, shape, several, ↓reduceIte, compared, ne_eq, same, here,
            not_false_eq_true, next, elsewhere, Bool.false_eq_true, Option.map_map]
          congr 2
          funext pair
          simp only [Function.comp_apply, List.length_append, length, List.length_cons]
          omega

namespace PlacedBlob

variable {blob : PlacedBlob} {split : Bytes}

/-- The end of the search, when it is not below address 0. -/
theorem searchEnd_eq (above : split.length ≤ blob.address + blob.bytes.length + 1)
    (nonempty : split ≠ []) :
    blob.searchEnd split = blob.address + blob.bytes.length + 1 - split.length := by
  have positive := List.length_pos_iff.mpr nonempty
  have := blob.inside
  unfold searchEnd
  omega

/-- **`apk_blob_split`** splits at the leftmost occurrence, if the end of its search is an
address. -/
theorem split_eq (nonempty : split ≠ [])
    (above : split.length ≤ blob.address + blob.bytes.length + 1) :
    blob.split split = some ((blobSplit split blob.bytes).map fun (l, _) =>
      (blob.front l.length, blob.behind (l.length + split.length))) := by
  rw [PlacedBlob.split, searchEnd_eq above nonempty]
  by_cases longer : blob.bytes.length + 1 < split.length
  · rw [if_pos (by omega), blobSplit_of_short (by omega)]
    rfl
  · rw [if_neg (by omega)]
    obtain ⟨c, rest, rfl⟩ := List.exists_cons_of_ne_nil nonempty
    rw [splitLoop_eq (blob.bytes.length + 1) (by rw [List.length_cons] at *; omega) (by omega),
      List.drop_zero, Option.map_some, Option.map_map]
    congr 2
    funext pair
    simp only [Function.comp_apply, Nat.zero_add]

/-- Otherwise the search leaves the blob. -/
theorem split_below (below : blob.address + blob.bytes.length + 1 < split.length)
    (short : split.length < 2 ^ 64) : blob.split split = none := by
  have wrapped : blob.searchEnd split =
      2 ^ 64 + blob.address + blob.bytes.length + 1 - split.length := by
    unfold searchEnd
    omega
  have several : 1 < split.length := by omega
  rw [PlacedBlob.split, wrapped, if_neg (by omega), splitLoop, List.drop_zero]
  have beyond : blob.bytes.length <
      2 ^ 64 + blob.address + blob.bytes.length + 1 - split.length - blob.address := by omega
  rcases memchr_beyond (split.headD 0) beyond with left | ⟨skipped, found⟩
  · rw [left]
    rfl
  · have cut : (blob.bytes.drop (0 + skipped)).length < split.length := by
      rw [List.length_drop]
      omega
    rw [found]
    simp only [Option.bind_some, several, ↓reduceIte, memcmpAt, cut, Option.bind_none,
      Option.map_none]

/-- **The iteration** stays inside the blob and is the one over its bytes. -/
theorem forEachSegment_bytes (nonempty : split ≠ [])
    (above : split.length ≤ blob.address + blob.bytes.length + 1) {σ : Type*}
    (cb : σ → Bytes → ℤ × σ) (ctx : σ) :
    blob.forEachSegment split cb ctx = some (Apk.forEachSegment blob.bytes split cb ctx) := by
  have loop : ∀ fuel (r : PlacedBlob) ctx, r.bytes.length ≤ fuel →
      split.length ≤ r.address + r.bytes.length + 1 →
      forEachSegmentLoop split cb (fuel + 1) r ctx =
        some (Apk.forEachSegmentLoop split cb fuel r.bytes ctx) := by
    intro fuel
    induction fuel with
    | zero =>
        intro r ctx short above
        have empty : r.bytes = [] := List.length_eq_zero_iff.mp (Nat.le_zero.mp short)
        have missing : blobSplit split [] = none := by simp [blobSplit, nonempty]
        rw [forEachSegmentLoop, split_eq nonempty above, Apk.forEachSegmentLoop, empty, missing]
        rfl
    | succ fuel ih =>
        intro r ctx short above
        rw [forEachSegmentLoop, split_eq nonempty above, Apk.forEachSegmentLoop]
        cases found : blobSplit split r.bytes with
        | none => rfl
        | some pair =>
            obtain ⟨l, rest⟩ := pair
            have whole := ((blobSplit_eq_some nonempty).mp found).whole
            have lengths := congrArg List.length whole
            have positive := List.length_pos_iff.mpr nonempty
            simp only [List.length_append] at lengths
            have first : (r.front l.length).bytes = l := by
              rw [front_bytes, whole, List.take_left]
            have second : (r.behind (l.length + split.length)).bytes = rest := by
              rw [behind_bytes, whole, ← List.append_assoc, ← List.length_append, List.drop_left]
            have address : (r.behind (l.length + split.length)).address =
                r.address + l.length + split.length := by
              simp only [behind]
              omega
            simp only [Option.map_some, Option.bind_some, first]
            split
            · rfl
            · rw [ih _ _ (by rw [second]; omega) (by rw [second, address]; omega), second]
  exact loop _ blob ctx le_rfl above

end PlacedBlob

universe u

/-- Splitting and iterating are exact: the search stays inside the blob, and whatever the
callback, it is called on the pieces between the leftmost occurrences, without an empty last
one, up to the first call that does not return 0, whose result is returned. -/
def SegmentsExact (blob : PlacedBlob) (split : Bytes) : Prop :=
  (blob.split split).isSome = true ∧
    ∃ pieces, PiecesOf split blob.bytes pieces ∧
      ∀ (σ : Type u) (cb : σ → Bytes → ℤ × σ) (ctx : σ),
        blob.forEachSegment split cb ctx = some (callSegments cb (omitEmptyLast pieces) ctx)

/-- **When the segments are exact**: when the separator is not longer than the address behind
the blob, which leaves out the NULL blob with a separator of several bytes. -/
theorem segmentsExact_iff (blob : PlacedBlob) {split : Bytes} (nonempty : split ≠ [])
    (short : split.length < 2 ^ 64) :
    SegmentsExact.{u} blob split ↔ split.length ≤ blob.address + blob.bytes.length + 1 := by
  constructor
  · rintro ⟨inside, -⟩
    by_contra below
    rw [PlacedBlob.split_below (not_le.mp below) short] at inside
    cases inside
  · intro above
    obtain ⟨pieces, pieces_of, calls⟩ :=
      forEachSegmentLoop_pieces nonempty blob.bytes.length blob.bytes le_rfl
    refine ⟨by rw [PlacedBlob.split_eq nonempty above]; rfl, pieces, pieces_of,
      fun σ cb ctx => ?_⟩
    rw [PlacedBlob.forEachSegment_bytes nonempty above]
    exact congrArg some (calls cb ctx)

/-- A line of a `.PKGINFO` file. -/
theorem segmentsExact_line :
    SegmentsExact.{u} ⟨4096, text "pkgname = a = b", by decide⟩ (text " = ") ↔
      (text " = ").length ≤ 4096 + (text "pkgname = a = b").length + 1 :=
  segmentsExact_iff ⟨4096, text "pkgname = a = b", by decide⟩ (by decide) (by decide)

/-- The NULL blob has no bytes, and the search for a separator of three reads behind NULL. -/
theorem not_segmentsExact_null : ¬ SegmentsExact.{0} PlacedBlob.null (text " = ") := by
  rintro ⟨inside, -⟩
  revert inside
  decide +kernel

end AriannaLinux.Apk
