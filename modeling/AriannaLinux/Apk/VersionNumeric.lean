import AriannaLinux.Apk.VersionSuffix

/-! # Numeric versions

The components of a version are compared as values of an `int`, and a zero behind a dot
counts as -1. Both agree with the comparison of natural numbers as long as the components
are below `2 ^ 31`; what larger ones do is said by `IntLess` (`versionCompare_numeric_iff`).
-/

namespace AriannaLinux.Apk

/-- The decimal numeral of a number, without leading zeros. -/
def numeral (n : ℕ) : Bytes :=
  if n < 10 then [UInt8.ofNat (48 + n)] else numeral (n / 10) ++ [UInt8.ofNat (48 + n % 10)]
termination_by n
decreasing_by omega

/-- Numerals with dots between them. -/
def numericVersion : List ℕ → Bytes
  | [] => []
  | [n] => numeral n
  | n :: ns => numeral n ++ ascii '.' :: numericVersion ns

/-- A component as the comparison sees it: an `int`, and less than any `int` counted up to
when it is a zero behind a dot. -/
def componentValue (behindDot : Bool) (n : ℕ) : ℤ :=
  if behindDot = true ∧ n = 0 then -1 else Int.bmod n (2 ^ 32)

/-- The order in which the comparison sees sequences of components. Where two components have
the same value, a version that ends there is less than one that goes on, and a zero behind a
dot that goes on is less than another component that goes on. -/
def IntLess : Bool → List ℕ → List ℕ → Prop
  | _, _, [] => False
  | _, [], _ :: _ => True
  | behindDot, x :: xs, y :: ys =>
      componentValue behindDot x < componentValue behindDot y ∨
        componentValue behindDot x = componentValue behindDot y ∧
          if behindDot = true ∧ x = 0 ∧ y ≠ 0 then ys ≠ []
          else if behindDot = true ∧ x ≠ 0 ∧ y = 0 then xs = [] ∧ ys ≠ []
          else IntLess true xs ys

/-! ## Numerals -/

theorem digit_toNat {d : ℕ} (small : d < 10) : (UInt8.ofNat (48 + d)).toNat = 48 + d := by
  rw [UInt8.toNat_ofNat']
  omega

theorem isDigit_digit {d : ℕ} (small : d < 10) : isDigit (UInt8.ofNat (48 + d)) = true := by
  simp only [isDigit, digit_toNat small, Bool.and_eq_true, decide_eq_true_eq]
  omega

theorem isDigit_numeral (n : ℕ) : ∀ c ∈ numeral n, isDigit c = true := by
  induction n using Nat.strong_induction_on with
  | _ n ih =>
      rw [numeral]
      split
      · rename_i small
        simpa using isDigit_digit small
      · rw [List.forall_mem_append]
        exact ⟨ih (n / 10) (by omega), by simpa using isDigit_digit (Nat.mod_lt n (by decide))⟩

theorem numeral_ne_nil (n : ℕ) : numeral n ≠ [] := by
  rw [numeral]
  split <;> simp

/-- Only the numeral of zero starts with a zero. -/
theorem numeral_head (n : ℕ) : (numeral n).head? = some (ascii '0') ↔ n = 0 := by
  induction n using Nat.strong_induction_on with
  | _ n ih =>
      rw [numeral]
      split
      · rename_i small
        simp only [List.head?_cons, Option.some.injEq]
        interval_cases n <;> decide
      · rw [List.head?_append_of_ne_nil _ (numeral_ne_nil _), ih (n / 10) (by omega)]
        omega

/-- A numeral is read as its number reduced to an `int`. -/
theorem intOfDigits_numeral (n : ℕ) : intOfDigits (numeral n) = Int.bmod n (2 ^ 32) := by
  induction n using Nat.strong_induction_on with
  | _ n ih =>
      rw [numeral]
      split
      · rename_i small
        simp only [intOfDigits, List.foldl_cons, List.foldl_nil, digit_toNat small]
        congr 1
        omega
      · have last := digit_toNat (Nat.mod_lt n (show 0 < 10 by decide))
        have front := ih (n / 10) (by omega)
        simp only [intOfDigits, List.foldl_append, List.foldl_cons, List.foldl_nil] at front ⊢
        rw [front, last, ← Int.bmod_add_bmod, Int.bmod_mul_bmod, Int.bmod_add_bmod]
        congr 1
        omega

/-! ## The tokens of a numeric version -/

/-- What stands behind a numeral: nothing, or a dot. -/
def NumeralEnds (tail : Bytes) : Prop := tail = [] ∨ ∃ rest, tail = ascii '.' :: rest

theorem takeWhile_numeral (n : ℕ) {tail : Bytes} (ends : NumeralEnds tail) :
    (numeral n ++ tail).takeWhile isDigit = numeral n := by
  rw [List.takeWhile_append_of_pos (isDigit_numeral n)]
  rcases ends with rfl | ⟨rest, rfl⟩
  · simp
  · rw [List.takeWhile_cons_of_neg (by decide), List.append_nil]

/-- The token of a numeral, up to what follows it. -/
theorem getToken_numeral {behindDot : Bool} (n : ℕ) {tail : Bytes} (ends : NumeralEnds tail) :
    getToken (if behindDot then .digitOrZero else .digit) (numeral n ++ tail) =
      (componentValue behindDot n,
        if tail = [] then (.finish, [])
        else if behindDot = true ∧ n = 0 then (.digit, tail)
        else nextToken (if behindDot then .digitOrZero else .digit) tail) := by
  have digits := takeWhile_numeral n ends
  have value := intOfDigits_numeral n
  have head := numeral_head n
  obtain ⟨c, rest, shape⟩ := List.exists_cons_of_ne_nil (numeral_ne_nil n)
  have dropped : (c :: (rest ++ tail)).drop (numeral n).length = tail := by
    rw [shape]
    simp
  rw [shape] at head digits
  simp only [shape, List.cons_append, List.head?_cons, Option.some.injEq] at head digits ⊢
  cases behindDot with
  | false =>
      simp only [Bool.false_eq_true, ↓reduceIte, getToken, digits, ← shape, value, finishToken,
        dropped, false_and, componentValue]
      split
      · rename_i nothing
        rw [nothing]
      · rfl
  | true =>
      by_cases zero : n = 0
      · subst zero
        have single : numeral 0 = [ascii '0'] := by
          rw [numeral]
          rfl
        rw [single] at shape
        cases shape
        have zeros : (ascii '0' :: tail).takeWhile (· = ascii '0') = [ascii '0'] := by
          rcases ends with rfl | ⟨rest, rfl⟩
          · decide
          · rw [List.takeWhile_cons_of_pos (by decide), List.takeWhile_cons_of_neg (by decide)]
        simp only [↓reduceIte, getToken, List.nil_append, zeros, finishToken,
          List.length_singleton, List.drop_succ_cons, List.drop_zero, componentValue, and_self]
        split
        · rename_i nothing
          rw [nothing]
          exact congrArg₂ _ (by decide) rfl
        · exact congrArg₂ _ (by decide) rfl
      · have notZero : c ≠ ascii '0' := fun same => zero (head.mp same)
        simp only [↓reduceIte, getToken, notZero, digits, ← shape, value, finishToken, dropped,
          true_and, zero, componentValue]
        split
        · rename_i nothing
          rw [nothing]
        · rfl

/-- The rank of the part behind a component. -/
def componentRank (behindDot : Bool) (n : ℕ) (ns : List ℕ) : ℤ :=
  if ns = [] then -6 else if behindDot = true ∧ n = 0 then -1 else 0

/-- The tokens of components. Behind a zero that stands behind a dot another number is
expected, and the dot that follows ends it at once. -/
def componentTokens : Bool → List ℕ → List (ℤ ×ₗ ℤ)
  | _, [] => []
  | behindDot, n :: ns =>
      toLex (componentValue behindDot n, componentRank behindDot n ns) ::
        ((if behindDot = true ∧ n = 0 ∧ ns ≠ [] then [toLex (0, 0)] else []) ++
          componentTokens true ns)

theorem numericVersion_cons {n : ℕ} {ns : List ℕ} (more : ns ≠ []) :
    numericVersion (n :: ns) = numeral n ++ ascii '.' :: numericVersion ns := by
  cases ns with
  | nil => exact absurd rfl more
  | cons m ns => rfl

/-- **The tokens of a numeric version** are its components. -/
theorem versionTokens_numeric (ns : List ℕ) :
    ∀ (behindDot : Bool) (n reads : ℕ),
      tokenWeight (if behindDot then .digitOrZero else .digit) (numericVersion (n :: ns)) < reads →
      versionTokens reads (if behindDot then .digitOrZero else .digit) (numericVersion (n :: ns)) =
        componentTokens behindDot (n :: ns) := by
  induction ns with
  | nil =>
      intro behindDot n reads enough
      have goesOn : ¬ Part.Ended (if behindDot then .digitOrZero else .digit) := by
        cases behindDot <;> decide
      have token := @getToken_numeral behindDot n [] (.inl rfl)
      rw [List.append_nil, if_pos rfl] at token
      rw [versionTokens_cons goesOn enough, show numericVersion [n] = numeral n from rfl, token,
        versionTokens_ended (.inl rfl)]
      simp [componentTokens, componentRank, Part.rank, Part.code]
  | cons m ns ih =>
      intro behindDot n reads enough
      have goesOn : ¬ Part.Ended (if behindDot then .digitOrZero else .digit) := by
        cases behindDot <;> decide
      have digit : ¬ Part.Ended .digit := by decide
      have digitOrZero : ¬ Part.Ended .digitOrZero := by decide
      have numeric : (if behindDot then Part.digitOrZero else .digit) = .digit ∨
          (if behindDot then Part.digitOrZero else .digit) = .digitOrZero := by
        cases behindDot <;> simp
      rw [numericVersion_cons (List.cons_ne_nil m ns)] at enough ⊢
      have token := @getToken_numeral behindDot n _ (.inr ⟨numericVersion (m :: ns), rfl⟩)
      rw [if_neg (List.cons_ne_nil _ _), nextToken_dot numeric] at token
      have progress := getToken_progress (numeral n ++ ascii '.' :: numericVersion (m :: ns)) goesOn
      rw [versionTokens_cons goesOn enough]
      by_cases zero : behindDot = true ∧ n = 0
      · rw [if_pos zero] at token
        rw [token] at progress ⊢
        have shorter := (progress.resolve_left digit).trans enough
        -- the number expected behind the zero is empty
        have filler : getToken .digit (ascii '.' :: numericVersion (m :: ns)) =
            (0, .digitOrZero, numericVersion (m :: ns)) := rfl
        have progress' := getToken_progress (ascii '.' :: numericVersion (m :: ns)) digit
        rw [filler] at progress'
        have rest := ih true m reads ((progress'.resolve_left digitOrZero).trans shorter)
        simp only [↓reduceIte] at rest
        rw [versionTokens_cons digit shorter, filler, rest]
        simp [componentTokens, componentRank, Part.rank, Part.code, zero]
      · rw [if_neg zero] at token
        rw [token] at progress ⊢
        have rest := ih true m reads ((progress.resolve_left digitOrZero).trans enough)
        simp only [↓reduceIte] at rest
        rw [rest]
        have notFiller : ¬ (behindDot = true ∧ n = 0 ∧ m :: ns ≠ []) := fun both =>
          zero ⟨both.1, both.2.1⟩
        simp only [componentTokens, componentRank, reduceCtorEq, ↓reduceIte, if_neg zero,
          if_neg notFiller, List.nil_append]
        rfl

/-! ## The order of the tokens -/

theorem componentTokens_lt_iff (xs : List ℕ) : ∀ (behindDot : Bool) (ys : List ℕ),
    componentTokens behindDot xs < componentTokens behindDot ys ↔ IntLess behindDot xs ys := by
  induction xs with
  | nil =>
      intro behindDot ys
      cases ys with
      | nil => simp [componentTokens, IntLess]
      | cons y ys => simp [componentTokens, IntLess]
  | cons x xs ih =>
      intro behindDot ys
      cases ys with
      | nil => simp [componentTokens, IntLess]
      | cons y ys =>
          rw [IntLess, ← ih true ys]
          simp only [componentTokens]
          rw [List.cons_lt_cons_iff, Prod.Lex.toLex_lt_toLex, toLex_inj, Prod.mk.injEq, or_assoc]
          refine or_congr Iff.rfl ?_
          rw [and_assoc, ← and_or_left]
          refine and_congr_right fun _ => ?_
          by_cases zeroX : behindDot = true ∧ x = 0
          · by_cases zeroY : behindDot = true ∧ y = 0
            · cases xs <;> cases ys <;>
                simp [componentRank, componentTokens, zeroX, zeroY]
            · have other : y ≠ 0 := fun zero => zeroY ⟨zeroX.1, zero⟩
              cases xs <;> cases ys <;>
                simp [componentRank, componentTokens, zeroX, other]
          · by_cases zeroY : behindDot = true ∧ y = 0
            · have other : x ≠ 0 := fun zero => zeroX ⟨zeroY.1, zero⟩
              cases xs <;> cases ys <;>
                simp [componentRank, componentTokens, zeroY, other]
            · have special : ¬ (behindDot = true ∧ x = 0 ∧ y ≠ 0) := fun both =>
                zeroX ⟨both.1, both.2.1⟩
              have special' : ¬ (behindDot = true ∧ x ≠ 0 ∧ y = 0) := fun both =>
                zeroY ⟨both.1, both.2.2⟩
              rw [if_neg special, if_neg special']
              cases xs <;> cases ys <;>
                simp [componentRank, componentTokens, zeroX, zeroY, ← and_assoc]

theorem noNul_numericVersion (ns : List ℕ) : (0 : UInt8) ∉ numericVersion ns := by
  have numeral : ∀ n, (0 : UInt8) ∉ numeral n := fun n member =>
    absurd (isDigit_numeral n 0 member) (by decide)
  induction ns with
  | nil => exact List.not_mem_nil
  | cons n ns ih =>
      by_cases single : ns = []
      · subst single
        exact numeral n
      · rw [numericVersion_cons single]
        simp only [List.mem_append, List.mem_cons, not_or]
        exact ⟨numeral n, by decide, ih⟩

/-- The comparison of numeric versions is that of their components' tokens. -/
theorem versionCompare_numeric (x y : ℕ) (xs ys : List ℕ) :
    versionCompareStr (numericVersion (x :: xs)) (numericVersion (y :: ys)) =
      orderResult (componentTokens false (x :: xs)) (componentTokens false (y :: ys)) := by
  have key : ∀ (n : ℕ) (ns : List ℕ),
      versionKey (numericVersion (n :: ns)) = componentTokens false (n :: ns) := fun n ns =>
    versionTokens_numeric ns false n _ (Nat.lt_succ_self _)
  rw [versionCompareStr, cString_eq_self (noNul_numericVersion _),
    cString_eq_self (noNul_numericVersion _), versionCompare_eq, key, key]

/-- **Numeric versions compare as numbers exactly** when the first components in which they
differ are seen in their own order. -/
theorem versionCompare_numeric_iff (x y : ℕ) (xs ys : List ℕ) :
    versionCompareStr (numericVersion (x :: xs)) (numericVersion (y :: ys)) =
        orderResult (x :: xs) (y :: ys) ↔
      (x :: xs < y :: ys → IntLess false (x :: xs) (y :: ys)) ∧
        (y :: ys < x :: xs → IntLess false (y :: ys) (x :: xs)) := by
  rw [versionCompare_numeric]
  simp only [← componentTokens_lt_iff]
  generalize x :: xs = first
  generalize y :: ys = second
  rcases lt_trichotomy first second with less | rfl | greater
  · rw [orderResult_of_lt less, orderResult_eq_less]
    exact ⟨fun seen => ⟨fun _ => seen, fun other => absurd other less.not_gt⟩,
      fun seen => seen.1 less⟩
  · simp only [orderResult_self, lt_irrefl, false_implies, and_self]
  · rw [orderResult_of_gt greater, orderResult_eq_greater]
    exact ⟨fun seen => ⟨fun other => absurd other greater.not_gt, fun _ => seen⟩,
      fun seen => seen.2 greater⟩

/-- The component 2147483648 is negative as an `int`. -/
theorem versionCompare_numeric_overflow :
    ¬ ∀ (x y : ℕ) (xs ys : List ℕ),
      versionCompareStr (numericVersion (x :: xs)) (numericVersion (y :: ys)) =
        orderResult (x :: xs) (y :: ys) := by
  intro numbers
  have seen := numbers 2147483648 1 [] []
  have greater : ([1] : List ℕ) < [2147483648] := by decide
  rw [versionCompare_numeric, orderResult_of_gt greater, orderResult_eq_greater,
    componentTokens_lt_iff] at seen
  simp only [IntLess, componentValue] at seen
  revert seen
  decide

/-- Components below `2 ^ 31` are seen in their own order. -/
theorem intLess_of_small (xs : List ℕ) : ∀ (behindDot : Bool) (ys : List ℕ),
    (∀ n ∈ xs ++ ys, n < 2 ^ 31) → xs < ys → IntLess behindDot xs ys := by
  have value : ∀ (behindDot : Bool) (n : ℕ), n < 2 ^ 31 →
      componentValue behindDot n = if behindDot = true ∧ n = 0 then -1 else (n : ℤ) := by
    intro behindDot n small
    rw [componentValue, Int.bmod_eq_of_le (by omega) (by omega)]
  induction xs with
  | nil =>
      intro behindDot ys small less
      cases ys with
      | nil => exact absurd less (lt_irrefl _)
      | cons y ys => exact trivial
  | cons x xs ih =>
      intro behindDot ys small less
      cases ys with
      | nil => exact absurd less (by simp)
      | cons y ys =>
          have smallX : x < 2 ^ 31 := small x (by simp)
          have smallY : y < 2 ^ 31 := small y (by simp)
          rw [IntLess, value _ x smallX, value _ y smallY]
          rcases List.cons_lt_cons_iff.mp less with smaller | ⟨rfl, rest⟩
          · refine .inl ?_
            split_ifs <;> omega
          · have zeros : ¬ (behindDot = true ∧ x = 0 ∧ x ≠ 0) := fun both => both.2.2 both.2.1
            have zeros' : ¬ (behindDot = true ∧ x ≠ 0 ∧ x = 0) := fun both => both.2.1 both.2.2
            refine .inr ⟨rfl, ?_⟩
            rw [if_neg zeros, if_neg zeros']
            exact ih true ys (fun n member => small n (by
              rcases List.mem_append.mp member with inside | inside <;> simp [inside])) rest

/-- Numeric versions whose components fit an `int` compare as numbers. -/
theorem versionCompare_numeric_small {x y : ℕ} {xs ys : List ℕ}
    (small : ∀ n ∈ (x :: xs) ++ (y :: ys), n < 2 ^ 31) :
    versionCompareStr (numericVersion (x :: xs)) (numericVersion (y :: ys)) =
      orderResult (x :: xs) (y :: ys) := by
  rw [versionCompare_numeric]
  have small' : ∀ n ∈ (y :: ys) ++ (x :: xs), n < 2 ^ 31 := fun n member =>
    small n (List.mem_append.mpr (List.mem_append.mp member).symm)
  rcases lt_trichotomy (x :: xs) (y :: ys) with less | same | greater
  · rw [orderResult_of_lt less, orderResult_eq_less, componentTokens_lt_iff]
    exact intLess_of_small _ false _ small less
  · rw [same, orderResult_self, orderResult_self]
  · rw [orderResult_of_gt greater, orderResult_eq_greater, componentTokens_lt_iff]
    exact intLess_of_small _ false _ small' greater

end AriannaLinux.Apk
