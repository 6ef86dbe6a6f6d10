import AriannaLinux.Apk.VersionOrder
import Mathlib.Data.List.Find

/-! # Suffixed versions

A version with one more suffix is read like the version itself up to the end of the
latter. There the suffix decides, unless the version ends in a component of zeros:
behind leading zeros the tokenizer reads a number, so a pre-release of such a version
counts as newer than the version (`versionCompare_suffix_iff`).
-/

namespace AriannaLinux.Apk

/-- `apk_version_compare`: both arguments end at their first NUL. -/
def versionCompareStr (str1 str2 : Bytes) : ℕ :=
  versionCompare (some (cString str1)) (some (cString str2))

/-- The version ends in a `.` and zeros. -/
def EndsInZeros (ver : Bytes) : Prop :=
  ∃ front zeros, ver = front ++ ascii '.' :: zeros ∧ zeros ≠ [] ∧ ∀ c ∈ zeros, c = ascii '0'

/-- A version is only zeros. -/
def AllZeros (ver : Bytes) : Prop := ver ≠ [] ∧ ∀ c ∈ ver, c = ascii '0'

/-- What is left of a version, with the type of its first token, ends in a component
of zeros. -/
def ZerosLast (t : Part) (ver : Bytes) : Prop :=
  t = .digitOrZero ∧ AllZeros ver ∨ EndsInZeros ver

theorem endsInZeros_append {front : Bytes} (noDot : ascii '.' ∉ front) (rest : Bytes) :
    EndsInZeros (front ++ rest) ↔ EndsInZeros rest := by
  constructor
  · rintro ⟨before, zeros, same, nonempty, zero⟩
    rcases List.append_eq_append_iff.mp same with ⟨more, rfl, tail⟩ | ⟨more, rfl, tail⟩
    · exact ⟨more, zeros, tail, nonempty, zero⟩
    · cases more with
      | nil => exact ⟨[], zeros, tail.symm, nonempty, zero⟩
      | cons c more =>
          cases tail
          exact absurd (List.mem_append_right _ List.mem_cons_self) noDot
  · rintro ⟨before, zeros, rfl, nonempty, zero⟩
    exact ⟨front ++ before, zeros, by rw [List.append_assoc], nonempty, zero⟩

theorem endsInZeros_dot (rest : Bytes) :
    EndsInZeros (ascii '.' :: rest) ↔ AllZeros rest ∨ EndsInZeros rest := by
  constructor
  · rintro ⟨before, zeros, same, nonempty, zero⟩
    cases before with
    | nil =>
        cases same
        exact .inl ⟨nonempty, zero⟩
    | cons c before =>
        cases same
        exact .inr ⟨before, zeros, rfl, nonempty, zero⟩
  · rintro (⟨nonempty, zero⟩ | ⟨before, zeros, rfl, nonempty, zero⟩)
    · exact ⟨[], rest, rfl, nonempty, zero⟩
    · exact ⟨ascii '.' :: before, zeros, rfl, nonempty, zero⟩

theorem not_endsInZeros {ver : Bytes} (noDot : ascii '.' ∉ ver) : ¬ EndsInZeros ver := by
  rintro ⟨before, zeros, rfl, -, -⟩
  exact noDot (by simp)

/-! ## Reading on behind the end -/

theorem nextPart_append {t : Part} {ver : Bytes} (nonempty : ver ≠ []) (name : Bytes) :
    nextPart t (ver ++ ascii '_' :: name) =
      ((nextPart t ver).1, (nextPart t ver).2 ++ ascii '_' :: name) := by
  obtain ⟨c, rest, rfl⟩ := List.exists_cons_of_ne_nil nonempty
  have head : (rest ++ ascii '_' :: name).head? = some (ascii 'r') ↔
      rest.head? = some (ascii 'r') := by
    cases rest with
    | nil => simp; decide
    | cons c rest => simp
  have tail : rest.head? = some (ascii 'r') →
      (rest ++ ascii '_' :: name).tail = rest.tail ++ ascii '_' :: name := by
    cases rest with
    | nil => simp
    | cons c rest => simp
  simp only [nextPart, List.cons_append, head]
  split_ifs with nul letter digit number dot underscore revision
  · rfl
  · rfl
  · rfl
  · rfl
  · rfl
  · rfl
  · rw [tail revision.2]
  · rfl

theorem nextToken_append {t : Part} {ver : Bytes} (nonempty : ver ≠ []) (name : Bytes) :
    nextToken t (ver ++ ascii '_' :: name) =
      ((nextToken t ver).1, (nextToken t ver).2 ++ ascii '_' :: name) := by
  simp only [nextToken, nextPart_append nonempty]
  split_ifs <;> rfl

theorem takeWhile_append_suffix {p : UInt8 → Bool} (stops : p (ascii '_') = false)
    (ver name : Bytes) :
    (ver ++ ascii '_' :: name).takeWhile p = ver.takeWhile p := by
  induction ver with
  | nil => simp [stops]
  | cons c ver ih => simp only [List.cons_append, List.takeWhile_cons, ih]

theorem isPrefixOf_append_suffix {suffix : Bytes} (letters : ascii '_' ∉ suffix)
    (ver name : Bytes) :
    suffix.isPrefixOf (ver ++ ascii '_' :: name) = suffix.isPrefixOf ver := by
  induction suffix generalizing ver with
  | nil => rw [List.isPrefixOf_nil_left, List.isPrefixOf_nil_left]
  | cons c suffix ih =>
      obtain ⟨different, letters⟩ := not_or.mp (List.mem_cons.not.mp letters)
      cases ver with
      | nil => simp [List.isPrefixOf, Ne.symm different]
      | cons c' ver => simp only [List.cons_append, List.isPrefixOf, ih letters]

theorem find?_zipIdx_congr {names : List Bytes} {p p' : Bytes → Bool}
    (same : ∀ name ∈ names, p name = p' name) :
    (names.zipIdx.find? fun x => p x.1) = names.zipIdx.find? fun x => p' x.1 :=
  List.find?_congr fun x member => same x.1 (List.fst_mem_of_mem_zipIdx member)

theorem suffixValue_append (ver name : Bytes) :
    suffixValue (ver ++ ascii '_' :: name) = suffixValue ver := by
  have pre : ∀ suffix ∈ preSuffixes, ascii '_' ∉ suffix := by decide
  have post : ∀ suffix ∈ postSuffixes, ascii '_' ∉ suffix := by decide
  simp only [suffixValue]
  rw [find?_zipIdx_congr fun suffix member =>
      isPrefixOf_append_suffix (pre suffix member) ver name,
    find?_zipIdx_congr fun suffix member =>
      isPrefixOf_append_suffix (post suffix member) ver name]

/-- A token taken from the front of a version, read in the same way when a suffix
follows the version. -/
structure TakenToken (t : Part) (ver : Bytes) (v : ℤ) (i : ℕ) (nt : Option Part) : Prop where
  inside : i ≤ ver.length
  read : getToken t ver = finishToken v i nt t ver
  readOn : ∀ name, getToken t (ver ++ ascii '_' :: name) =
    finishToken v i nt t (ver ++ ascii '_' :: name)
  noDot : ascii '.' ∉ ver.take i
  /-- Only leading zeros fix the part that follows. -/
  zeros : nt = some .digit ∧ t = .digitOrZero ∧ AllZeros (ver.take i) ∧
      (AllZeros ver → ver.drop i = []) ∨
    nt = none ∧ ¬ (t = .digitOrZero ∧ AllZeros ver)

theorem not_mem_take_takeWhile {p : UInt8 → Bool} {c : UInt8} (stops : p c = false)
    (ver : Bytes) : c ∉ ver.take (ver.takeWhile p).length := by
  rw [← List.prefix_iff_eq_take.mp (List.takeWhile_prefix p)]
  intro member
  rw [List.mem_takeWhile_imp member] at stops
  cases stops

theorem takenDigits {t : Part} {ver : Bytes}
    (digits : ∀ ver', ver'.head? = ver.head? → getToken t ver' =
      finishToken (intOfDigits (ver'.takeWhile isDigit)) (ver'.takeWhile isDigit).length none t ver')
    (nonempty : ver ≠ []) (notZeros : ¬ (t = .digitOrZero ∧ AllZeros ver)) :
    TakenToken t ver (intOfDigits (ver.takeWhile isDigit)) (ver.takeWhile isDigit).length none where
  inside := (List.takeWhile_prefix isDigit).length_le
  read := digits ver rfl
  readOn name := by
    rw [digits _ (List.head?_append_of_ne_nil _ nonempty), takeWhile_append_suffix (by decide)]
  noDot := not_mem_take_takeWhile (by decide) ver
  zeros := .inr ⟨rfl, notZeros⟩

theorem takenToken_of_nonempty {t : Part} {c : UInt8} {rest : Bytes}
    (letter : t = .letter → isLower c = true)
    (valid : (getToken t (c :: rest)).2.1 ≠ .invalid) :
    ∃ v i nt, TakenToken t (c :: rest) v i nt := by
  have headed : ∀ ver' : Bytes, ver'.head? = (c :: rest).head? → ∃ rest', ver' = c :: rest' := by
    intro ver' same
    cases ver' with
    | nil => cases same
    | cons c' rest' =>
        cases same
        exact ⟨rest', rfl⟩
  have digits : t = .digit ∨ t = .suffixNo ∨ t = .revisionNo →
      ∃ v i nt, TakenToken t (c :: rest) v i nt := by
    intro kind
    refine ⟨_, _, _, takenDigits (fun ver' same => ?_) (List.cons_ne_nil _ _) ?_⟩
    · obtain ⟨rest', rfl⟩ := headed ver' same
      rcases kind with rfl | rfl | rfl <;> rfl
    · rcases kind with rfl | rfl | rfl <;> simp
  cases t with
  | invalid => exact absurd rfl valid
  | finish => exact absurd rfl valid
  | digit => exact digits (.inl rfl)
  | suffixNo => exact digits (.inr (.inl rfl))
  | revisionNo => exact digits (.inr (.inr rfl))
  | digitOrZero =>
      by_cases zero : c = ascii '0'
      · refine ⟨Int.bmod (-(((c :: rest).takeWhile (· = ascii '0')).length : ℤ)) (2 ^ 32),
          ((c :: rest).takeWhile (· = ascii '0')).length, some .digit, ?_⟩
        refine ⟨(List.takeWhile_prefix _).length_le, ?_, fun name => ?_,
          not_mem_take_takeWhile (by decide) _, .inl ⟨rfl, rfl, ?_, ?_⟩⟩
        · simp only [getToken, zero, ↓reduceIte]
        · rw [← takeWhile_append_suffix (by decide) (c :: rest) name]
          simp only [List.cons_append, getToken, zero, ↓reduceIte]
        · rw [← List.prefix_iff_eq_take.mp (List.takeWhile_prefix _)]
          refine ⟨by simp [zero], fun c' member => ?_⟩
          simpa using List.mem_takeWhile_imp member
        · rintro ⟨-, zeros⟩
          rw [List.takeWhile_eq_self_iff.mpr fun c' member => by simpa using zeros c' member]
          exact List.drop_length
      · refine ⟨_, _, _, takenDigits (fun ver' same => ?_) (List.cons_ne_nil _ _) ?_⟩
        · obtain ⟨rest', rfl⟩ := headed ver' same
          simp only [getToken, zero, ↓reduceIte]
        · rintro ⟨-, -, zeros⟩
          exact zero (zeros c List.mem_cons_self)
  | letter =>
      refine ⟨_, 1, none, by simp, rfl, fun name => rfl, ?_, .inr ⟨rfl, by simp⟩⟩
      intro member
      obtain rfl : ascii '.' = c := by simpa using member
      exact absurd (letter rfl) (by decide)
  | suffix =>
      cases found : suffixValue (c :: rest) with
      | none => exact absurd (by simp only [getToken, found]) valid
      | some value =>
          obtain ⟨v, i⟩ := value
          refine ⟨v, i, none, (suffixValue_length found).2, ?_, fun name => ?_, ?_,
            .inr ⟨rfl, by simp⟩⟩
          · simp only [getToken, found]
          · rw [← suffixValue_append _ name] at found
            simp only [List.cons_append] at found ⊢
            simp only [getToken, found]
          · obtain ⟨suffix, member, front, rfl⟩ := suffixValue_name found
            have noDot : ∀ suffix ∈ preSuffixes ++ postSuffixes, ascii '.' ∉ suffix := by decide
            rw [← List.prefix_iff_eq_take.mp front]
            exact noDot suffix member

/-- A token either takes the whole version, or leaves a rest that the suffix follows. -/
theorem TakenToken.steps {t : Part} {ver : Bytes} {v : ℤ} {i : ℕ} {nt : Option Part}
    (taken : TakenToken t ver v i nt) (name : Bytes) :
    getToken t ver = (v, .finish, []) ∧ ver.drop i = [] ∧
        (nt = some .digit ∧ getToken t (ver ++ ascii '_' :: name) = (v, .digit, ascii '_' :: name) ∨
          nt = none ∧ getToken t (ver ++ ascii '_' :: name) =
            (v, nextToken t (ascii '_' :: name))) ∨
      ∃ t' r, getToken t ver = (v, t', r) ∧
        getToken t (ver ++ ascii '_' :: name) = (v, t', r ++ ascii '_' :: name) ∧
        ver.drop i ≠ [] ∧ (nt = some .digit ∧ t' = .digit ∧ r = ver.drop i ∨
          nt = none ∧ (t', r) = nextToken t (ver.drop i)) := by
  have dropOn : (ver ++ ascii '_' :: name).drop i = ver.drop i ++ ascii '_' :: name :=
    List.drop_append_of_le_length taken.inside
  have kind : nt = some .digit ∨ nt = none := taken.zeros.imp (·.1) (·.1)
  rw [taken.read, taken.readOn]
  simp only [finishToken, dropOn, List.append_eq_nil_iff, reduceCtorEq, and_false, ↓reduceIte]
  by_cases whole : ver.drop i = []
  · refine .inl ⟨by rw [if_pos whole, whole], whole, ?_⟩
    rw [whole]
    rcases kind with rfl | rfl
    · exact .inl ⟨rfl, rfl⟩
    · exact .inr ⟨rfl, rfl⟩
  · rw [if_neg whole]
    rcases kind with rfl | rfl
    · exact .inr ⟨.digit, ver.drop i, rfl, rfl, whole, .inl ⟨rfl, rfl, rfl⟩⟩
    · refine .inr ⟨_, _, rfl, ?_, whole, .inr ⟨rfl, rfl⟩⟩
      exact congrArg _ (nextToken_append whole name)

/-! ## The suffix decides -/

theorem versionValidateLoop_token {fuel : ℕ} {t : Part} {ver : Bytes} (goesOn : ¬ t.Ended)
    (valid : versionValidateLoop fuel t ver = true) :
    ∃ fuel', fuel = fuel' + 1 ∧
      versionValidateLoop fuel' (getToken t ver).2.1 (getToken t ver).2.2 = true := by
  cases fuel with
  | zero => cases valid
  | succ fuel =>
      rw [versionValidateLoop, if_neg fun finish => goesOn (.inl finish),
        if_neg fun invalid => goesOn (.inr invalid)] at valid
      exact ⟨fuel, rfl, valid⟩

theorem ne_invalid_of_valid {fuel : ℕ} {t : Part} {ver : Bytes}
    (valid : versionValidateLoop fuel t ver = true) : t ≠ .invalid := by
  rintro rfl
  cases fuel <;> cases valid

/-- What may be left of a version while it is read. -/
structure Readable (t : Part) (ver : Bytes) : Prop where
  goesOn : ¬ t.Ended
  letter : t = .letter → ∃ c rest, ver = c :: rest ∧ isLower c = true
  noNul : (0 : UInt8) ∉ ver

theorem zerosLast_of_ne {t : Part} (other : t ≠ .digitOrZero) (ver : Bytes) :
    ZerosLast t ver ↔ EndsInZeros ver := by
  simp only [ZerosLast, other, false_and, false_or]

/-- The next part of a version leaves a readable rest, which ends in zeros exactly where
the version does. -/
theorem nextPart_readable {t : Part} {c : UInt8} {rest : Bytes} (noNul : (0 : UInt8) ∉ c :: rest)
    (valid : (nextPart t (c :: rest)).1 ≠ .invalid) :
    Readable (nextPart t (c :: rest)).1 (nextPart t (c :: rest)).2 ∧
      (ZerosLast (nextPart t (c :: rest)).1 (nextPart t (c :: rest)).2 ↔
        EndsInZeros (c :: rest)) := by
  obtain ⟨headNul, restNul⟩ := not_or.mp (List.mem_cons.not.mp noNul)
  have skipped : c ≠ ascii '.' → ∀ rest, EndsInZeros (c :: rest) ↔ EndsInZeros rest :=
    fun noDot rest => @endsInZeros_append [c] (by simpa using noDot.symm) rest
  revert valid
  unfold nextPart
  dsimp only
  split_ifs with nul letter digit number dot underscore revision
  all_goals dsimp only
  · exact absurd nul.symm headNul
  · intro
    exact ⟨⟨by decide, fun _ => ⟨c, rest, rfl, letter.2⟩, noNul⟩, zerosLast_of_ne (by decide) _⟩
  · intro
    exact ⟨⟨by decide, by simp, noNul⟩, zerosLast_of_ne (by decide) _⟩
  · intro
    exact ⟨⟨by decide, by simp, noNul⟩, zerosLast_of_ne (by decide) _⟩
  · intro
    refine ⟨⟨by decide, by simp, restNul⟩, ?_⟩
    rw [dot, endsInZeros_dot]
    simp only [ZerosLast, true_and]
  · intro
    refine ⟨⟨by decide, by simp, restNul⟩, ?_⟩
    rw [zerosLast_of_ne (by decide), skipped (by rw [underscore]; decide)]
  · intro
    obtain ⟨more, rfl⟩ : ∃ more, rest = ascii 'r' :: more := by
      cases rest with
      | nil => cases revision.2
      | cons c' more =>
          cases revision.2
          exact ⟨more, rfl⟩
    refine ⟨⟨by decide, by simp, fun member => restNul (List.mem_cons_of_mem _ member)⟩, ?_⟩
    rw [zerosLast_of_ne (by decide), skipped (by rw [revision.1]; decide)]
    exact (@endsInZeros_append [ascii 'r'] (by decide) more).symm
  · intro valid
    exact absurd rfl valid

theorem nextToken_eq_nextPart {t : Part} {ver : Bytes} (valid : (nextToken t ver).1 ≠ .invalid) :
    nextToken t ver = nextPart t ver := by
  unfold nextToken at valid ⊢
  dsimp only at valid ⊢
  split_ifs at valid ⊢ with smaller
  · exact absurd rfl valid
  · rfl

theorem nextToken_dot {t : Part} (numeric : t = .digit ∨ t = .digitOrZero) (rest : Bytes) :
    nextToken t (ascii '.' :: rest) = (.digitOrZero, rest) := by
  rcases numeric with rfl | rfl <;> rfl

/-- What a token leaves of a version ends in zeros exactly where the version does. -/
theorem TakenToken.readable {t t' : Part} {ver r : Bytes} {v : ℤ} {i : ℕ} {nt : Option Part}
    (taken : TakenToken t ver v i nt) (readable : Readable t ver) (more : ver.drop i ≠ [])
    (kind : nt = some .digit ∧ t' = .digit ∧ r = ver.drop i ∨
      nt = none ∧ (t', r) = nextToken t (ver.drop i)) (valid : t' ≠ .invalid) :
    Readable t' r ∧ (ZerosLast t' r ↔ ZerosLast t ver) := by
  have noNul : (0 : UInt8) ∉ ver.drop i := fun member =>
    readable.noNul (List.mem_of_mem_drop member)
  have ends : EndsInZeros ver ↔ EndsInZeros (ver.drop i) := by
    conv_lhs => rw [← List.take_append_drop i ver]
    exact endsInZeros_append taken.noDot _
  have notAll : ¬ (t = .digitOrZero ∧ AllZeros ver) := by
    rintro ⟨start, zeros⟩
    rcases taken.zeros with ⟨-, -, -, whole⟩ | ⟨-, other⟩
    · exact more (whole zeros)
    · exact other ⟨start, zeros⟩
  have whole : ZerosLast t ver ↔ EndsInZeros (ver.drop i) := by
    simp only [ZerosLast, notAll, false_or, ends]
  rcases kind with ⟨-, rfl, rfl⟩ | ⟨-, next⟩
  · exact ⟨⟨by decide, by simp, noNul⟩, (zerosLast_of_ne (by decide) _).trans whole.symm⟩
  · obtain ⟨c, rest, shape⟩ := List.exists_cons_of_ne_nil more
    rw [shape] at next noNul whole
    obtain ⟨rfl, rfl⟩ := Prod.ext_iff.mp next
    have same := nextToken_eq_nextPart valid
    rw [same] at valid ⊢
    obtain ⟨readable', zeros⟩ := nextPart_readable noNul valid
    exact ⟨readable', zeros.trans whole.symm⟩

/-- Behind a whole version its suffix follows, if it can follow at all. -/
theorem nextToken_suffix {t : Part} {name : Bytes}
    (valid : (nextToken t (ascii '_' :: name)).1 ≠ .invalid) :
    nextToken t (ascii '_' :: name) = (.suffix, name) := by
  rw [nextToken_eq_nextPart valid]
  have nul : ascii '_' ≠ 0 := by decide
  have lower : isLower (ascii '_') = false := by decide
  have digit : isDigit (ascii '_') = false := by decide
  have dot : ascii '_' ≠ ascii '.' := by decide
  simp only [nextPart, nul, lower, digit, dot, Bool.false_eq_true, and_false, ↓reduceIte]

/-- An empty rest is followed by the suffix. -/
theorem getToken_suffix {t : Part} {name : Bytes} (readable : Readable t [])
    (valid : (getToken t (ascii '_' :: name)).2.1 ≠ .invalid) :
    getToken t (ascii '_' :: name) = (0, .suffix, name) := by
  have noSuffix : suffixValue (ascii '_' :: name) = none := suffixValue_append [] name
  have noDigit : (ascii '_' :: name).takeWhile isDigit = [] := takeWhile_append_suffix (by decide) [] name
  have noZero : ascii '_' ≠ ascii '0' := by decide
  have number : finishToken 0 0 none t (ascii '_' :: name) =
      (0, nextToken t (ascii '_' :: name)) := rfl
  cases t with
  | invalid => exact absurd (.inr rfl) readable.goesOn
  | finish => exact absurd (.inl rfl) readable.goesOn
  | letter =>
      obtain ⟨c, rest, same, -⟩ := readable.letter rfl
      cases same
  | suffix => exact absurd (by simp only [getToken, noSuffix]) valid
  | _ =>
      simp only [getToken, noDigit, noZero, ↓reduceIte, List.length_nil] at valid ⊢
      exact number.trans (congrArg _ (nextToken_suffix valid))

/-- What a suffix makes of the version before it. -/
def suffixResult (t : Part) (ver name : Bytes) (result : ℕ) : Prop :=
  (ZerosLast t ver → result = versionGreater) ∧
    (¬ ZerosLast t ver → result = orderResult (Part.rank .suffix name) (Part.rank .finish []))

theorem rank_suffix_finish (name : Bytes) :
    Part.rank .suffix name ≠ Part.rank .finish [] := by
  have finish : Part.rank .finish [] = -6 := rfl
  rw [finish]
  simp only [Part.rank, Part.code]
  split <;> decide

/-- Where one version ends and the other goes on with a suffix, the suffix decides. -/
theorem orderResult_suffix (v : ℤ) (name : Bytes) (xs ys : List (ℤ ×ₗ ℤ)) :
    orderResult (toLex (v, Part.rank .suffix name) :: xs)
        (toLex (v, Part.rank .finish []) :: ys) =
      orderResult (Part.rank .suffix name) (Part.rank .finish []) := by
  rcases lt_or_gt_of_ne (rank_suffix_finish name) with less | greater
  · rw [orderResult_cons_of_lt (token_lt_of_rank less), orderResult_of_lt less]
  · rw [orderResult_cons_of_gt (token_lt_of_rank greater), orderResult_of_gt greater]

/-- The tokens of a version with a suffix against those of the version. -/
theorem versionTokens_suffix (fuel : ℕ) {fuel' reads : ℕ} {t : Part} {ver name : Bytes}
    (readable : Readable t ver) (valid : versionValidateLoop fuel t ver = true)
    (valid' : versionValidateLoop fuel' t (ver ++ ascii '_' :: name) = true)
    (enough : tokenWeight t ver < reads)
    (enough' : tokenWeight t (ver ++ ascii '_' :: name) < reads) :
    suffixResult t ver name (orderResult (versionTokens reads t (ver ++ ascii '_' :: name))
      (versionTokens reads t ver)) := by
  induction fuel generalizing fuel' t ver with
  | zero => cases valid
  | succ fuel ih =>
      obtain ⟨_, same, next⟩ := versionValidateLoop_token readable.goesOn valid
      cases same
      obtain ⟨fuel', -, next'⟩ := versionValidateLoop_token readable.goesOn valid'
      rw [versionTokens_cons readable.goesOn enough, versionTokens_cons readable.goesOn enough']
      cases ver with
      | nil =>
          have notZeros : ¬ ZerosLast t [] := by
            rintro (⟨-, nonempty, -⟩ | ends)
            · exact nonempty rfl
            · exact not_endsInZeros List.not_mem_nil ends
          have taken : getToken t (ascii '_' :: name) = (0, .suffix, name) :=
            getToken_suffix readable (ne_invalid_of_valid next')
          rw [List.nil_append, taken]
          exact ⟨fun zeros => absurd zeros notZeros, fun _ => orderResult_suffix 0 name _ _⟩
      | cons c rest =>
          have letter : t = .letter → isLower c = true := by
            intro isLetter
            obtain ⟨c', rest', same, lower⟩ := readable.letter isLetter
            cases same
            exact lower
          obtain ⟨v, i, nt, taken⟩ := takenToken_of_nonempty letter (ne_invalid_of_valid next)
          rcases taken.steps name with
            ⟨ends, whole, kind⟩ | ⟨t', r, goes, goes', more, kind⟩
          · have all : (c :: rest).take i = c :: rest := by
              rw [← List.append_nil ((c :: rest).take i), ← whole, List.take_append_drop]
            have zeros := taken.zeros
            have noDot := taken.noDot
            rw [all] at zeros noDot
            rcases kind with ⟨rfl, goes⟩ | ⟨rfl, goes⟩
            · obtain ⟨-, start, allZeros, -⟩ | ⟨other, -⟩ := zeros
              · have greater : Part.rank .finish [] < Part.rank .digit (ascii '_' :: name) := by
                  rw [show Part.rank .finish [] = -6 from rfl, Part.rank, if_neg (by simp)]
                  decide
                rw [ends, goes, orderResult_cons_of_gt (token_lt_of_rank greater)]
                exact ⟨fun _ => rfl, fun other => absurd (.inl ⟨start, allZeros⟩) other⟩
              · cases other
            · have notZeros : ¬ ZerosLast t (c :: rest) := by
                rintro (start | ending)
                · exact (zeros.resolve_left (by simp)).2 start
                · exact not_endsInZeros noDot ending
              rw [goes] at next'
              rw [ends, goes, nextToken_suffix (ne_invalid_of_valid next')]
              exact ⟨fun zeros => absurd zeros notZeros, fun _ => orderResult_suffix v name _ _⟩
          · rw [goes] at next
            rw [goes'] at next'
            obtain ⟨readable', zeros⟩ :=
              taken.readable readable more kind (ne_invalid_of_valid next)
            have less := (getToken_progress _ readable.goesOn).resolve_left
              (by rw [goes]; exact readable'.goesOn)
            have less' := (getToken_progress _ readable.goesOn).resolve_left
              (by rw [goes']; exact readable'.goesOn)
            rw [goes] at less
            rw [goes'] at less'
            rw [goes, goes',
              orderResult_rank readable'.goesOn v (less'.trans enough') (less.trans enough)]
            have result := ih readable' next next' (less.trans enough) (less'.trans enough')
            unfold suffixResult at result ⊢
            rwa [zeros] at result

theorem getToken_suffix_value {ver : Bytes} {v : ℤ} {i : ℕ}
    (found : suffixValue ver = some (v, i)) : (getToken .suffix ver).1 = v := by
  cases ver with
  | nil => exact absurd (suffixValue_length found) (by simp; omega)
  | cons c rest =>
      simp only [getToken, found, finishToken]
      split <;> rfl

theorem suffixValue_preSuffix {name : Bytes} (pre : name ∈ preSuffixes) (rest : Bytes) :
    ∃ v, suffixValue (name ++ rest) = some (v, name.length) ∧ v < 0 := by
  have names : preSuffixes = [text "alpha", text "beta", text "pre", text "rc"] := rfl
  rw [names] at pre
  simp only [List.mem_cons, List.not_mem_nil, or_false] at pre
  rcases pre with rfl | rfl | rfl | rfl
  · exact ⟨-4, rfl, by decide⟩
  · exact ⟨-3, rfl, by decide⟩
  · exact ⟨-2, rfl, by decide⟩
  · exact ⟨-1, rfl, by decide⟩

theorem suffixValue_postSuffix {name rest : Bytes} (post : name ∈ postSuffixes)
    (other : rest.head? ≠ some (ascii 'r')) :
    ∃ v, suffixValue (name ++ rest) = some (v, name.length) ∧ 0 ≤ v := by
  have names : postSuffixes = [text "cvs", text "svn", text "git", text "hg", text "p"] := rfl
  rw [names] at post
  simp only [List.mem_cons, List.not_mem_nil, or_false] at post
  rcases post with rfl | rfl | rfl | rfl | rfl
  · exact ⟨0, rfl, by decide⟩
  · exact ⟨1, rfl, by decide⟩
  · exact ⟨2, rfl, by decide⟩
  · exact ⟨3, rfl, by decide⟩
  · refine ⟨4, ?_, by decide⟩
    cases rest with
    | nil => rfl
    | cons c rest =>
        -- `pre` starts with a `p` too
        have different : (ascii 'r' == c) = false := by
          refine beq_eq_false_iff_ne.mpr ?_
          rintro rfl
          exact other rfl
        have short : (text "pre").isPrefixOf (text "p" ++ c :: rest) = false := by
          change (ascii 'p' == ascii 'p' && ((ascii 'r' == c) && _)) = false
          rw [different, Bool.false_and, Bool.and_false]
        have noPre : (preSuffixes.zipIdx.find? fun x =>
            x.1.isPrefixOf (text "p" ++ c :: rest)) = none := by
          refine List.find?_eq_none.mpr fun x member => ?_
          have names : preSuffixes.zipIdx =
              [(text "alpha", 0), (text "beta", 1), (text "pre", 2), (text "rc", 3)] := rfl
          rw [names] at member
          simp only [List.mem_cons, List.not_mem_nil, or_false] at member
          rcases member with rfl | rfl | rfl | rfl
          · exact Bool.false_ne_true
          · exact Bool.false_ne_true
          · exact ne_true_of_eq_false short
          · exact Bool.false_ne_true
        simp only [suffixValue, noPre]
        rfl

theorem rank_preSuffix {name : Bytes} (pre : name ∈ preSuffixes) (digits : Bytes) :
    Part.rank .suffix (name ++ digits) < Part.rank .finish [] := by
  obtain ⟨v, found, negative⟩ := suffixValue_preSuffix pre digits
  rw [Part.rank, if_pos ⟨rfl, by rw [getToken_suffix_value found]; exact negative⟩]
  decide

theorem rank_postSuffix {name digits : Bytes} (post : name ∈ postSuffixes)
    (number : ∀ c ∈ digits, isDigit c = true) :
    Part.rank .finish [] < Part.rank .suffix (name ++ digits) := by
  have other : digits.head? ≠ some (ascii 'r') := fun same =>
    absurd (number _ (List.mem_of_head? same)) (by decide)
  obtain ⟨v, found, nonnegative⟩ := suffixValue_postSuffix post other
  have notNegative : ¬ (getToken .suffix (name ++ digits)).1 < 0 := by
    rw [getToken_suffix_value found]
    omega
  rw [Part.rank.eq_1 .suffix, if_neg fun both => notNegative both.2]
  decide

theorem preSuffixes_disjoint : ∀ s ∈ preSuffixes, s ∉ postSuffixes := by decide

theorem cString_append {bytes : Bytes} (nul : (0 : UInt8) ∈ bytes) (more : Bytes) :
    cString (bytes ++ more) = cString bytes := by
  induction bytes with
  | nil => cases nul
  | cons c bytes ih =>
      simp only [cString, List.cons_append, List.takeWhile_cons] at ih ⊢
      split
      · rename_i other
        rcases List.mem_cons.mp nul with rfl | nul
        · cases other
        · rw [ih nul]
      · rfl

theorem versionCompareStr_suffix {v s digits : Bytes} (noNul : (0 : UInt8) ∉ v)
    (suffix : s ∈ preSuffixes ++ postSuffixes) (number : ∀ c ∈ digits, isDigit c = true)
    (valid : versionValidate v = true)
    (valid' : versionValidate (v ++ ascii '_' :: (s ++ digits)) = true) :
    (EndsInZeros v → versionCompareStr (v ++ ascii '_' :: (s ++ digits)) v = versionGreater) ∧
      (¬ EndsInZeros v → versionCompareStr (v ++ ascii '_' :: (s ++ digits)) v =
        orderResult (Part.rank .suffix (s ++ digits)) (Part.rank .finish [])) := by
  have letters : ∀ s ∈ preSuffixes ++ postSuffixes, (0 : UInt8) ∉ s := by decide
  have noNul' : (0 : UInt8) ∉ v ++ ascii '_' :: (s ++ digits) := by
    simp only [List.mem_append, List.mem_cons, not_or]
    exact ⟨noNul, by decide, letters s suffix, fun member => absurd (number _ member) (by decide)⟩
  have weight := tokenWeight_le .digit v
  have weight' := tokenWeight_le .digit (v ++ ascii '_' :: (s ++ digits))
  have shorter : v.length ≤ (v ++ ascii '_' :: (s ++ digits)).length := by simp
  have reads : ∀ ver : Bytes, ver.length ≤ (v ++ ascii '_' :: (s ++ digits)).length →
      versionKey ver = versionTokens
        (2 * (v ++ ascii '_' :: (s ++ digits)).length + 2) .digit ver := by
    intro ver short
    have weight := tokenWeight_le .digit ver
    exact versionTokens_enough (Nat.lt_succ_self _) (by omega)
  rw [versionCompareStr, cString_eq_self noNul, cString_eq_self noNul', versionCompare_eq,
    reads _ shorter, reads _ le_rfl, ← zerosLast_of_ne (t := .digit) (by decide)]
  exact versionTokens_suffix _ ⟨by decide, by simp, noNul⟩ valid valid' (by omega) (by omega)

/-- **A suffix decides against the version before it.** A pre-release is older and any
other suffixed version newer than the version itself, unless the version ends in a
component of zeros (behind which no suffix is expected, so that both are newer), or
has a NUL, behind which `apk_version_compare` sees nothing. -/
theorem versionCompare_suffix_iff {v s digits : Bytes}
    (suffix : s ∈ preSuffixes ++ postSuffixes) (number : ∀ c ∈ digits, isDigit c = true)
    (valid : versionValidate v = true)
    (valid' : versionValidate (v ++ ascii '_' :: (s ++ digits)) = true) :
    ((s ∈ preSuffixes →
        versionCompareStr (v ++ ascii '_' :: (s ++ digits)) v = versionLess) ∧
      (s ∈ postSuffixes →
        versionCompareStr (v ++ ascii '_' :: (s ++ digits)) v = versionGreater)) ↔
      (0 : UInt8) ∉ v ∧ ¬ (s ∈ preSuffixes ∧ EndsInZeros v) := by
  by_cases noNul : (0 : UInt8) ∉ v
  · have result := versionCompareStr_suffix noNul suffix number valid valid'
    rcases List.mem_append.mp suffix with pre | post
    · have notPost := preSuffixes_disjoint s pre
      have less := orderResult_of_lt (rank_preSuffix pre digits)
      simp only [pre, notPost, noNul, forall_const, false_implies, and_true, true_and,
        not_false_eq_true]
      by_cases zeros : EndsInZeros v
      · rw [result.1 zeros]
        exact iff_of_false (by decide) (not_not.mpr zeros)
      · rw [result.2 zeros, less]
        exact iff_of_true rfl zeros
    · have notPre : s ∉ preSuffixes := fun pre => preSuffixes_disjoint s pre post
      have greater := orderResult_of_gt (rank_postSuffix post number)
      simp only [post, notPre, noNul, forall_const, false_implies, true_and,
        not_false_eq_true, false_and, iff_true]
      by_cases zeros : EndsInZeros v
      · exact result.1 zeros
      · rw [result.2 zeros, greater]
  · -- both strings end at the NUL
    rw [not_not] at noNul
    have equal : versionCompareStr (v ++ ascii '_' :: (s ++ digits)) v = versionEqual := by
      rw [versionCompareStr, cString_append noNul, versionCompare_eq, orderResult_self]
    simp only [equal, noNul, not_true, false_and, iff_false]
    rintro ⟨pre, post⟩
    rcases List.mem_append.mp suffix with member | member
    · exact absurd (pre member) (by decide)
    · exact absurd (post member) (by decide)

theorem versionCompare_suffix_rc :
    ((text "rc" ∈ preSuffixes → versionCompareStr (text "1.2_rc1") (text "1.2") = versionLess) ∧
      (text "rc" ∈ postSuffixes →
        versionCompareStr (text "1.2_rc1") (text "1.2") = versionGreater)) ↔
      (0 : UInt8) ∉ text "1.2" ∧ ¬ (text "rc" ∈ preSuffixes ∧ EndsInZeros (text "1.2")) := by
  apply versionCompare_suffix_iff (v := text "1.2") (s := text "rc")
  · decide
  · intro c member
    obtain rfl : c = ascii '1' := List.mem_singleton.mp member
    rfl
  · decide
  · decide

/-- **A pre-release newer than its release.** `1.0_alpha` compares as newer than `1.0`. -/
theorem versionCompare_suffix_zeros :
    ¬ ∀ v s digits : Bytes, (0 : UInt8) ∉ v → s ∈ preSuffixes →
      (∀ c ∈ digits, isDigit c = true) → versionValidate v = true →
      versionValidate (v ++ ascii '_' :: (s ++ digits)) = true →
        versionCompareStr (v ++ ascii '_' :: (s ++ digits)) v = versionLess := by
  intro older
  have less := older (text "1.0") (text "alpha") [] (by decide) (by decide) (by simp)
    (by decide) (by decide)
  exact absurd less (by decide)

end AriannaLinux.Apk
