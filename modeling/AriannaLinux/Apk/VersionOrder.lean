import AriannaLinux.Apk.Version
import Mathlib.Data.List.Lex
import Mathlib.Data.Prod.Lex
import Mathlib.Order.Compare

/-! # The order of package versions

The comparison reads both versions token by token. Reading a version to its end gives
the list of its token values, each with a rank of the type that follows; the comparison
is the lexicographic order of these lists (`versionCompare_eq_cmp`), hence a total
preorder (`versionCompare_total_preorder`).
-/

namespace AriannaLinux.Apk

/-- No token follows. -/
def Part.Ended (t : Part) : Prop := t = .finish ∨ t = .invalid

instance : DecidablePred Part.Ended := fun t => inferInstanceAs (Decidable (t = _ ∨ t = _))

/-- The place of a part in the order of versions that agree so far: a pre-release comes
before the end of the version, and every other part after it. -/
def Part.rank (t : Part) (rest : Bytes) : ℤ :=
  if t = .suffix ∧ (getToken t rest).1 < 0 then -7 else -t.code

/-- The values of the tokens of a version, each with the rank of the part behind it. -/
def versionTokens : ℕ → Part → Bytes → List (ℤ ×ₗ ℤ)
  | 0, _, _ => []
  | fuel + 1, t, ver =>
      if t.Ended then []
      else
        let (v, t, ver) := getToken t ver
        toLex (v, t.rank ver) :: versionTokens fuel t ver

/-- A measure that every token decreases: of two successive tokens one takes a byte. -/
def tokenWeight (t : Part) (ver : Bytes) : ℕ :=
  2 * ver.length + if t = .letter ∨ t = .suffix then 0 else 1

/-- The key of a whole version. -/
def versionKey (ver : Bytes) : List (ℤ ×ₗ ℤ) :=
  versionTokens (tokenWeight .digit ver + 1) .digit ver

/-! ## Every token makes progress -/

theorem tokenWeight_le (t : Part) (ver : Bytes) : tokenWeight t ver ≤ 2 * ver.length + 1 := by
  unfold tokenWeight
  split <;> omega

theorem nextPart_progress (t : Part) (ver : Bytes) :
    (nextPart t ver).1.Ended ∨ (nextPart t ver).2.length < ver.length ∨
      (nextPart t ver).2 = ver ∧ ((nextPart t ver).1 = .letter ∨ t = .letter ∨ t = .suffix) := by
  unfold nextPart
  split
  · exact .inl (.inl rfl)
  · rename_i c rest
    split_ifs with nul letter digit number
    · exact .inl (.inl rfl)
    · exact .inr (.inr ⟨rfl, .inl rfl⟩)
    · exact .inr (.inr ⟨rfl, .inr (.inl digit.1)⟩)
    · exact .inr (.inr ⟨rfl, .inr (.inr number.1)⟩)
    · exact .inr (.inl (by simp))
    · exact .inr (.inl (by simp))
    · exact .inr (.inl (by simp))
    · exact .inl (.inr rfl)

theorem nextToken_progress (t : Part) (ver : Bytes) :
    (nextToken t ver).1.Ended ∨ (nextToken t ver).2.length < ver.length ∨
      (nextToken t ver).2 = ver ∧
        ((nextToken t ver).1 = .letter ∨ t = .letter ∨ t = .suffix) := by
  unfold nextToken
  dsimp only
  split
  · exact .inl (.inr rfl)
  · exact nextPart_progress t ver

/-- A token of `i` bytes decreases the measure. It takes a byte, or stands where the next
part may be a letter. -/
theorem finishToken_progress {v : ℤ} {i : ℕ} {nt : Option Part} {t : Part} {ver : Bytes}
    (inside : i ≤ ver.length) (taken : 0 < i ∨ nt = none ∧ t ≠ .letter ∧ t ≠ .suffix) :
    (finishToken v i nt t ver).2.1.Ended ∨
      tokenWeight (finishToken v i nt t ver).2.1 (finishToken v i nt t ver).2.2 <
        tokenWeight t ver := by
  have lengthDrop : (ver.drop i).length = ver.length - i := List.length_drop
  have lower : 2 * ver.length ≤ tokenWeight t ver := by unfold tokenWeight; omega
  unfold finishToken
  dsimp only
  split
  · exact .inl (.inl rfl)
  · rename_i nonempty
    have remaining : 0 < (ver.drop i).length := List.length_pos_iff.mpr nonempty
    split
    · rename_i nt
      have positive : 0 < i := by simpa using taken
      have upper := tokenWeight_le nt (ver.drop i)
      exact .inr (lt_of_le_of_lt upper (by omega))
    · have upper := tokenWeight_le (nextToken t (ver.drop i)).1 (nextToken t (ver.drop i)).2
      rcases nextToken_progress t (ver.drop i) with ended | shorter | ⟨same, kinds⟩
      · exact .inl ended
      · exact .inr (lt_of_le_of_lt upper (by omega))
      · rcases taken with positive | ⟨-, notLetter, notSuffix⟩
        · exact .inr (lt_of_le_of_lt upper (by rw [same]; omega))
        · have letter : (nextToken t (ver.drop i)).1 = .letter := by tauto
          refine .inr (show tokenWeight (nextToken t (ver.drop i)).1 _ < _ from ?_)
          rw [same, letter]
          simp only [tokenWeight, notLetter, notSuffix, or_self, true_or, ↓reduceIte]
          omega

/-- A suffix value is that of a name at the front. -/
theorem suffixValue_name {ver : Bytes} {v : ℤ} {i : ℕ} (found : suffixValue ver = some (v, i)) :
    ∃ name ∈ preSuffixes ++ postSuffixes, name <+: ver ∧ name.length = i := by
  unfold suffixValue at found
  split at found
  · rename_i name v pre
    cases found
    have member := List.mem_of_find?_eq_some pre
    exact ⟨name, List.mem_append_left _ (List.fst_mem_of_mem_zipIdx member),
      by simpa using List.find?_some pre, rfl⟩
  · obtain ⟨⟨name, v⟩, post, same⟩ := Option.map_eq_some_iff.mp found
    cases same
    have member := List.mem_of_find?_eq_some post
    exact ⟨name, List.mem_append_right _ (List.fst_mem_of_mem_zipIdx member),
      by simpa using List.find?_some post, rfl⟩

theorem suffixValue_length {ver : Bytes} {v : ℤ} {i : ℕ} (found : suffixValue ver = some (v, i)) :
    0 < i ∧ i ≤ ver.length := by
  obtain ⟨name, member, front, sized⟩ := suffixValue_name found
  have nonempty : ∀ name ∈ preSuffixes ++ postSuffixes, 0 < name.length := by decide
  exact ⟨sized ▸ nonempty name member, sized ▸ front.length_le⟩

/-- **Progress.** A token ends the version or decreases the measure. -/
theorem getToken_progress {t : Part} (ver : Bytes) (goesOn : ¬ t.Ended) :
    (getToken t ver).2.1.Ended ∨
      tokenWeight (getToken t ver).2.1 (getToken t ver).2.2 < tokenWeight t ver := by
  have digits : (ver.takeWhile isDigit).length ≤ ver.length :=
    (List.takeWhile_prefix isDigit).length_le
  unfold getToken
  split
  · exact .inl (.inl rfl)
  · rename_i c rest
    dsimp only
    split
    · split
      · rename_i zero
        have zeros : ((c :: rest).takeWhile (· = ascii '0')).length ≤ (c :: rest).length :=
          (List.takeWhile_prefix _).length_le
        apply finishToken_progress zeros
        simp [zero]
      · exact finishToken_progress digits (.inr ⟨rfl, by decide, by decide⟩)
    · exact finishToken_progress digits (.inr ⟨rfl, by decide, by decide⟩)
    · exact finishToken_progress digits (.inr ⟨rfl, by decide, by decide⟩)
    · exact finishToken_progress digits (.inr ⟨rfl, by decide, by decide⟩)
    · exact finishToken_progress (by simp) (.inl one_pos)
    · split
      · rename_i found
        obtain ⟨positive, inside⟩ := suffixValue_length found
        exact finishToken_progress inside (.inl positive)
      · exact .inl (.inr rfl)
    · exact .inl (.inr rfl)
    · exact .inl (.inr rfl)

/-! ## The key of a version -/

theorem versionTokens_ended {t : Part} (ended : t.Ended) (fuel : ℕ) (ver : Bytes) :
    versionTokens fuel t ver = [] := by
  cases fuel with
  | zero => rfl
  | succ fuel => simp only [versionTokens, ended, ↓reduceIte]

/-- More fuel than the measure does not change what is read. -/
theorem versionTokens_enough {fuel fuel' : ℕ} {t : Part} {ver : Bytes}
    (enough : tokenWeight t ver < fuel) (enough' : tokenWeight t ver < fuel') :
    versionTokens fuel t ver = versionTokens fuel' t ver := by
  induction fuel generalizing fuel' t ver with
  | zero => omega
  | succ fuel ih =>
      obtain ⟨fuel', rfl⟩ : ∃ n, fuel' = n + 1 := ⟨fuel' - 1, by omega⟩
      by_cases ended : t.Ended
      · rw [versionTokens_ended ended, versionTokens_ended ended]
      · simp only [versionTokens, ended, ↓reduceIte, List.cons.injEq, true_and]
        rcases getToken_progress ver ended with atEnd | less
        · rw [versionTokens_ended atEnd, versionTokens_ended atEnd]
        · exact ih (lt_of_lt_of_le less (Nat.lt_succ_iff.mp enough))
            (lt_of_lt_of_le less (Nat.lt_succ_iff.mp enough'))

/-- The tokens of a version that has not ended: the next one and those behind it. -/
theorem versionTokens_cons {fuel : ℕ} {t : Part} {ver : Bytes} (goesOn : ¬ t.Ended)
    (enough : tokenWeight t ver < fuel) :
    versionTokens fuel t ver =
      toLex ((getToken t ver).1, (getToken t ver).2.1.rank (getToken t ver).2.2) ::
        versionTokens fuel (getToken t ver).2.1 (getToken t ver).2.2 := by
  obtain ⟨n, rfl⟩ : ∃ n, fuel = n + 1 := ⟨fuel - 1, by omega⟩
  conv_lhs => simp only [versionTokens, goesOn, ↓reduceIte]
  rcases getToken_progress ver goesOn with ended | less
  · rw [versionTokens_ended ended, versionTokens_ended ended]
  · rw [versionTokens_enough (lt_of_lt_of_le less (Nat.lt_succ_iff.mp enough))
      (less.trans enough)]

/-! ## The comparison is the order of the keys -/

/-- The result that says how two elements of an order compare. -/
def orderResult {α : Type*} [LinearOrder α] (x y : α) : ℕ :=
  if x < y then versionLess else if y < x then versionGreater else versionEqual

section Order

variable {α : Type*} [LinearOrder α] {x y z : α}

theorem orderResult_of_lt (less : x < y) : orderResult x y = versionLess := if_pos less

theorem orderResult_of_gt (greater : y < x) : orderResult x y = versionGreater := by
  rw [orderResult, if_neg greater.not_gt, if_pos greater]

@[simp] theorem orderResult_self (x : α) : orderResult x x = versionEqual := by
  rw [orderResult, if_neg (lt_irrefl x), if_neg (lt_irrefl x)]

theorem orderResult_cons_of_lt (less : x < y) (xs ys : List α) :
    orderResult (x :: xs) (y :: ys) = versionLess :=
  orderResult_of_lt (List.cons_lt_cons_iff.mpr (.inl less))

theorem orderResult_cons_of_gt (greater : y < x) (xs ys : List α) :
    orderResult (x :: xs) (y :: ys) = versionGreater :=
  orderResult_of_gt (List.cons_lt_cons_iff.mpr (.inl greater))

theorem orderResult_cons_self (x : α) (xs ys : List α) :
    orderResult (x :: xs) (x :: ys) = orderResult xs ys := by
  rcases lt_trichotomy xs ys with less | rfl | greater
  · rw [orderResult_of_lt less, orderResult_of_lt (List.cons_lt_cons_self.mpr less)]
  · rw [orderResult_self, orderResult_self]
  · rw [orderResult_of_gt greater, orderResult_of_gt (List.cons_lt_cons_self.mpr greater)]

end Order

theorem token_lt_of_value {v v' r r' : ℤ} (less : v < v') :
    (toLex (v, r) : ℤ ×ₗ ℤ) < toLex (v', r') :=
  Prod.Lex.toLex_lt_toLex.mpr (.inl less)

theorem token_lt_of_rank {v r r' : ℤ} (less : r < r') :
    (toLex (v, r) : ℤ ×ₗ ℤ) < toLex (v, r') :=
  Prod.Lex.toLex_lt_toLex.mpr (.inr ⟨rfl, less⟩)

/-- What `apk_version_compare_blob` returns after its loop. -/
def versionVerdict : Part × Part × ℤ × ℤ × Bytes × Bytes → ℕ
  | (at_, bt, av, bv, a, b) =>
      if av < bv then versionLess
      else if bv < av then versionGreater
      else if at_ = bt then versionEqual
      else if at_ = .suffix ∧ (getToken at_ a).1 < 0 then versionLess
      else if bt = .suffix ∧ (getToken bt b).1 < 0 then versionGreater
      else if bt.code < at_.code then versionLess
      else if at_.code < bt.code then versionGreater
      else versionEqual

theorem Part.code_injective : Function.Injective Part.code := by
  intro t t' same
  cases t <;> cases t' <;> first | rfl | cases same

/-- Versions whose next parts differ are decided by the ranks. -/
theorem versionVerdict_of_ne {at_ bt : Part} (v : ℤ) (a b : Bytes) (different : at_ ≠ bt) :
    versionVerdict (at_, bt, v, v, a, b) = orderResult (at_.rank a) (bt.rank b) ∧
      at_.rank a ≠ bt.rank b := by
  have codes : at_.code ≠ bt.code := fun same => different (Part.code_injective same)
  have lower : ∀ t : Part, -6 ≤ -t.code := by intro t; cases t <;> decide
  have loweredA := lower at_
  have loweredB := lower bt
  simp only [versionVerdict, lt_irrefl, ↓reduceIte, different, Part.rank]
  by_cases preA : at_ = .suffix ∧ (getToken at_ a).1 < 0
  · have notPreB : ¬ (bt = .suffix ∧ (getToken bt b).1 < 0) := by
      intro preB
      exact different (preA.1.trans preB.1.symm)
    have less : (-7 : ℤ) < -bt.code := by omega
    simp only [if_pos preA, if_neg notPreB, orderResult_of_lt less]
    exact ⟨trivial, less.ne⟩
  · by_cases preB : bt = .suffix ∧ (getToken bt b).1 < 0
    · have greater : (-7 : ℤ) < -at_.code := by omega
      simp only [if_neg preA, if_pos preB, orderResult_of_gt greater]
      exact ⟨trivial, greater.ne'⟩
    · simp only [if_neg preA, if_neg preB]
      rcases lt_or_gt_of_ne codes with less | greater
      · have ranks : -bt.code < -at_.code := by omega
        simp only [if_neg less.not_gt, if_pos less, orderResult_of_gt ranks]
        exact ⟨trivial, ranks.ne'⟩
      · have ranks : -at_.code < -bt.code := by omega
        simp only [if_pos greater, orderResult_of_lt ranks]
        exact ⟨trivial, ranks.ne⟩

/-- A pre-release and another suffix have values of different signs next. -/
theorem rank_suffix_lt {a b : Bytes} (less : Part.rank .suffix a < Part.rank .suffix b) :
    (getToken .suffix a).1 < (getToken .suffix b).1 := by
  simp only [Part.rank, true_and, Part.code] at less
  split at less
  · split at less <;> omega
  · split at less <;> omega

/-- The loop stops where the versions no longer agree. -/
theorem versionCompareLoop_of_ne (fuel : ℕ) {at_ bt : Part} {av bv : ℤ} {a b : Bytes}
    (stops : ¬ (at_ = bt ∧ at_ ≠ .finish ∧ at_ ≠ .invalid ∧ av = bv)) :
    versionCompareLoop fuel at_ bt av bv a b = (at_, bt, av, bv, a, b) := by
  cases fuel with
  | zero => rfl
  | succ fuel => rw [versionCompareLoop, if_neg stops]

/-- Versions that agree to their ends are equal. -/
theorem versionVerdict_ended {t : Part} (ended : t.Ended) (fuel : ℕ) (v : ℤ) (a b : Bytes) :
    versionVerdict (versionCompareLoop fuel t t v v a b) = versionEqual := by
  have stops : ¬ (t = t ∧ t ≠ .finish ∧ t ≠ .invalid ∧ v = v) := by
    rintro ⟨-, notFinish, notInvalid, -⟩
    exact ended.elim notFinish notInvalid
  rw [versionCompareLoop_of_ne fuel stops]
  simp only [versionVerdict, lt_irrefl, ↓reduceIte]

theorem rank_of_ne_suffix {t : Part} (other : t ≠ .suffix) (a b : Bytes) :
    t.rank a = t.rank b := by
  simp only [Part.rank, other, false_and, ↓reduceIte]

theorem rank_ended {t : Part} (ended : t.Ended) (a b : Bytes) : t.rank a = t.rank b :=
  rank_of_ne_suffix (by rintro rfl; exact absurd ended (by decide)) a b

/-- Where the same part follows in both versions, its rank decides nothing that the
tokens from it on do not decide. -/
theorem orderResult_rank {t : Part} {a b : Bytes} {reads : ℕ} (goesOn : ¬ t.Ended) (v : ℤ)
    (enoughA : tokenWeight t a < reads) (enoughB : tokenWeight t b < reads) :
    orderResult (toLex (v, t.rank a) :: versionTokens reads t a)
        (toLex (v, t.rank b) :: versionTokens reads t b) =
      orderResult (versionTokens reads t a) (versionTokens reads t b) := by
  by_cases suffix : t = .suffix
  · subst suffix
    rcases lt_trichotomy (Part.rank .suffix a) (Part.rank .suffix b) with less | same | greater
    · rw [orderResult_cons_of_lt (token_lt_of_rank less),
        versionTokens_cons goesOn enoughA, versionTokens_cons goesOn enoughB,
        orderResult_cons_of_lt (token_lt_of_value (rank_suffix_lt less))]
    · rw [same, orderResult_cons_self]
    · rw [orderResult_cons_of_gt (token_lt_of_rank greater),
        versionTokens_cons goesOn enoughA, versionTokens_cons goesOn enoughB,
        orderResult_cons_of_gt (token_lt_of_value (rank_suffix_lt greater))]
  · rw [rank_of_ne_suffix suffix a b, orderResult_cons_self]

/-- The loop from two versions that agree so far, with enough rounds for the first. -/
theorem versionCompareLoop_spec (fuel : ℕ) {t : Part} {v : ℤ} {a b : Bytes} {reads : ℕ}
    (enough : tokenWeight t a < fuel) (enoughA : tokenWeight t a < reads)
    (enoughB : tokenWeight t b < reads) :
    versionVerdict (versionCompareLoop fuel t t v v a b) =
      orderResult (versionTokens reads t a) (versionTokens reads t b) := by
  induction fuel generalizing t v a b with
  | zero => omega
  | succ fuel ih =>
      by_cases ended : t.Ended
      · rw [versionTokens_ended ended, versionTokens_ended ended, orderResult_self]
        exact versionVerdict_ended ended _ v a b
      · have continues : t = t ∧ t ≠ .finish ∧ t ≠ .invalid ∧ v = v :=
          ⟨rfl, fun finish => ended (.inl finish), fun invalid => ended (.inr invalid), rfl⟩
        rw [versionCompareLoop, if_pos continues, versionTokens_cons ended enoughA,
          versionTokens_cons ended enoughB]
        dsimp only
        have progressA := getToken_progress a ended
        have progressB := getToken_progress b ended
        generalize getToken t a = nextA at progressA ⊢
        generalize getToken t b = nextB at progressB ⊢
        obtain ⟨av, at_, a⟩ := nextA
        obtain ⟨bv, bt, b⟩ := nextB
        rcases lt_trichotomy av bv with less | rfl | greater
        · rw [orderResult_cons_of_lt (token_lt_of_value less),
            versionCompareLoop_of_ne fuel fun same => less.ne same.2.2.2]
          exact if_pos less
        · by_cases types : at_ = bt
          · subst types
            by_cases atEnd : at_.Ended
            · rw [versionTokens_ended atEnd, versionTokens_ended atEnd,
                show at_.rank a = at_.rank b from rank_ended atEnd a b, orderResult_self]
              exact versionVerdict_ended atEnd fuel av a b
            · have lessA := progressA.resolve_left atEnd
              have lessB := progressB.resolve_left atEnd
              rw [ih (lt_of_lt_of_le lessA (Nat.lt_succ_iff.mp enough)) (lessA.trans enoughA)
                (lessB.trans enoughB)]
              exact (orderResult_rank atEnd av (lessA.trans enoughA) (lessB.trans enoughB)).symm
          · obtain ⟨verdict, ranks⟩ := versionVerdict_of_ne av a b types
            rw [versionCompareLoop_of_ne fuel fun same => types same.1, verdict]
            rcases lt_or_gt_of_ne ranks with less | greater
            · rw [orderResult_of_lt less,
                orderResult_cons_of_lt (token_lt_of_rank less)]
            · rw [orderResult_of_gt greater,
                orderResult_cons_of_gt (token_lt_of_rank greater)]
        · rw [orderResult_cons_of_gt (token_lt_of_value greater),
            versionCompareLoop_of_ne fuel fun same => greater.ne' same.2.2.2]
          exact (if_neg greater.not_gt).trans (if_pos greater)

/-- **The comparison is an order of keys.** -/
theorem versionCompare_eq (a b : Bytes) :
    versionCompare (some a) (some b) = orderResult (versionKey a) (versionKey b) := by
  have weightA := tokenWeight_le .digit a
  have weightB := tokenWeight_le .digit b
  have enoughA : tokenWeight .digit a < 2 * (a.length + b.length) + 3 := by omega
  have enoughB : tokenWeight .digit b < 2 * (a.length + b.length) + 3 := by omega
  rw [versionKey, versionKey, versionTokens_enough (Nat.lt_succ_self _) enoughA,
    versionTokens_enough (Nat.lt_succ_self _) enoughB]
  exact versionCompareLoop_spec (v := 0) _ enoughA enoughA enoughB

/-- `LESS` and `GREATER` exchanged. -/
def exchangeResult (result : ℕ) : ℕ :=
  if result = versionLess then versionGreater
  else if result = versionGreater then versionLess
  else result

/-- The result is `LESS` or `EQUAL`. -/
def AtMost (result : ℕ) : Prop := result = versionLess ∨ result = versionEqual

section Order

variable {α : Type*} [LinearOrder α] (x y z : α)

theorem orderResult_cases :
    orderResult x y = versionLess ∨ orderResult x y = versionEqual ∨
      orderResult x y = versionGreater := by
  rcases lt_trichotomy x y with less | rfl | greater
  · exact .inl (orderResult_of_lt less)
  · exact .inr (.inl (orderResult_self x))
  · exact .inr (.inr (orderResult_of_gt greater))

theorem orderResult_exchange : orderResult y x = exchangeResult (orderResult x y) := by
  rcases lt_trichotomy x y with less | rfl | greater
  · rw [orderResult_of_lt less, orderResult_of_gt less]
    rfl
  · rw [orderResult_self]
    rfl
  · rw [orderResult_of_lt greater, orderResult_of_gt greater]
    rfl

theorem orderResult_eq_less : orderResult x y = versionLess ↔ x < y := by
  rcases lt_trichotomy x y with less | rfl | greater
  · exact iff_of_true (orderResult_of_lt less) less
  · rw [orderResult_self]
    exact iff_of_false (by decide) (lt_irrefl x)
  · rw [orderResult_of_gt greater]
    exact iff_of_false (by decide) greater.not_gt

theorem orderResult_eq_greater : orderResult x y = versionGreater ↔ y < x := by
  rcases lt_trichotomy x y with less | rfl | greater
  · rw [orderResult_of_lt less]
    exact iff_of_false (by decide) less.not_gt
  · rw [orderResult_self]
    exact iff_of_false (by decide) (lt_irrefl x)
  · exact iff_of_true (orderResult_of_gt greater) greater

theorem atMost_orderResult : AtMost (orderResult x y) ↔ x ≤ y := by
  rcases lt_trichotomy x y with less | rfl | greater
  · exact iff_of_true (.inl (orderResult_of_lt less)) less.le
  · exact iff_of_true (.inr (orderResult_self x)) le_rfl
  · rw [orderResult_of_gt greater]
    exact iff_of_false (by unfold AtMost; decide) greater.not_ge

end Order

/-- **A total preorder.** Every version equals itself, a comparison has one of three
results, the results of both directions mirror each other, and `LESS` or `EQUAL` is
transitive, strictly so where one of the two is `LESS`. -/
theorem versionCompare_total_preorder (a b c : Bytes) :
    versionCompare (some a) (some a) = versionEqual ∧
      (versionCompare (some a) (some b) = versionLess ∨
        versionCompare (some a) (some b) = versionEqual ∨
        versionCompare (some a) (some b) = versionGreater) ∧
      versionCompare (some b) (some a) = exchangeResult (versionCompare (some a) (some b)) ∧
      (AtMost (versionCompare (some a) (some b)) → AtMost (versionCompare (some b) (some c)) →
        AtMost (versionCompare (some a) (some c)) ∧
          (versionCompare (some a) (some b) = versionLess ∨
            versionCompare (some b) (some c) = versionLess →
              versionCompare (some a) (some c) = versionLess)) := by
  simp only [versionCompare_eq, atMost_orderResult, orderResult_eq_less]
  refine ⟨orderResult_self _, ?_, orderResult_exchange _ _, ?_⟩
  · simpa only [orderResult_eq_less] using orderResult_cases (versionKey a) (versionKey b)
  · intro first second
    refine ⟨first.trans second, ?_⟩
    rintro (less | less)
    · exact less.trans_le second
    · exact first.trans_lt less

end AriannaLinux.Apk
