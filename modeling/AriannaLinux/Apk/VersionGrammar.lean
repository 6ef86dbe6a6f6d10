import AriannaLinux.Apk.VersionSuffix

/-! # The grammar of versions

The tokenizer checks the order of the parts of a version. Three of its tokens may be empty,
and a letter may be followed by another number; `versionValidate_grammar` says which texts
are accepted besides the ones in which a part is left out (`Tidy`).
-/

namespace AriannaLinux.Apk

/-- A non-empty sequence of digits. -/
def Number (s : Bytes) : Prop := s ≠ [] ∧ ∀ c ∈ s, isDigit c = true

/-- An optional revision. -/
inductive Revision : Bytes → Prop
  | none : Revision []
  | number {digits : Bytes} : Number digits → Revision (ascii '-' :: ascii 'r' :: digits)

/-- Any number of suffixes, with or without a number, and an optional revision. -/
inductive Suffixes : Bytes → Prop
  | revision {s : Bytes} : Revision s → Suffixes s
  | suffix {name digits s : Bytes} : name ∈ preSuffixes ++ postSuffixes →
      (∀ c ∈ digits, isDigit c = true) → Suffixes s →
      Suffixes (ascii '_' :: (name ++ (digits ++ s)))

/-- What may follow a number: numbers behind dots, an optional letter and the suffixes. With
`again`, digits behind the letter start over. -/
inductive Components (again : Prop) : Bytes → Prop
  | suffixes {s : Bytes} : Suffixes s → Components again s
  | dot {digits s : Bytes} : Number digits → Components again s →
      Components again (ascii '.' :: (digits ++ s))
  | letter {c : UInt8} {s : Bytes} : isLower c = true → Suffixes s → Components again (c :: s)
  | digits {c : UInt8} {digits s : Bytes} : again → isLower c = true → Number digits →
      Components again s → Components again (c :: (digits ++ s))

/-- A version: a number and what may follow it. -/
def VersionGrammar (again : Prop) (s : Bytes) : Prop :=
  ∃ digits rest, s = digits ++ rest ∧ Number digits ∧ Components again rest

/-- A digit comes next. -/
def DigitNext (s : Bytes) : Prop := ∃ c rest, s = c :: rest ∧ isDigit c = true

/-- No number, suffix name or revision number is left out, and there is one revision at most. -/
structure Tidy (s : Bytes) : Prop where
  dots : ∀ front rest, s = front ++ ascii '.' :: rest → DigitNext rest
  underscores : ∀ front, s ≠ front ++ [ascii '_']
  revisions : ∀ front rest, s = front ++ ascii '-' :: ascii 'r' :: rest →
    DigitNext rest ∧ ∀ between behind, rest ≠ between ++ ascii '-' :: ascii 'r' :: behind

/-- One round of the loop of `apk_version_validate`. -/
def validateStep (state : Part × Bytes) : Part × Bytes :=
  if state.1.Ended then state else (getToken state.1 state.2).2

/-! ## Running to the end -/

/-- The loop from a type and a rest, with enough rounds. -/
def VersionAccepts (t : Part) (ver : Bytes) : Prop :=
  versionValidateLoop (tokenWeight t ver + 2) t ver = true

theorem versionValidateLoop_ended {t : Part} (ended : t.Ended) (fuel : ℕ) (ver : Bytes) :
    versionValidateLoop (fuel + 1) t ver = decide (t = .finish) := by
  rcases ended with rfl | rfl <;> rfl

theorem versionValidateLoop_step {t : Part} (goesOn : ¬ t.Ended) (fuel : ℕ) (ver : Bytes) :
    versionValidateLoop (fuel + 1) t ver =
      versionValidateLoop fuel (getToken t ver).2.1 (getToken t ver).2.2 := by
  rw [versionValidateLoop, if_neg fun finish => goesOn (.inl finish),
    if_neg fun invalid => goesOn (.inr invalid)]

/-- More rounds than the measure allows do not change the result. -/
theorem versionValidateLoop_enough {fuel fuel' : ℕ} {t : Part} {ver : Bytes}
    (enough : tokenWeight t ver + 1 < fuel) (enough' : tokenWeight t ver + 1 < fuel') :
    versionValidateLoop fuel t ver = versionValidateLoop fuel' t ver := by
  induction fuel generalizing fuel' t ver with
  | zero => omega
  | succ fuel ih =>
      obtain ⟨fuel', rfl⟩ : ∃ n, fuel' = n + 1 := ⟨fuel' - 1, by omega⟩
      by_cases ended : t.Ended
      · rw [versionValidateLoop_ended ended, versionValidateLoop_ended ended]
      · rw [versionValidateLoop_step ended, versionValidateLoop_step ended]
        rcases getToken_progress ver ended with atEnd | less
        · obtain ⟨n, rfl⟩ : ∃ n, fuel = n + 1 := ⟨fuel - 1, by omega⟩
          obtain ⟨m, rfl⟩ : ∃ m, fuel' = m + 1 := ⟨fuel' - 1, by omega⟩
          exact (versionValidateLoop_ended atEnd n _).trans
            (versionValidateLoop_ended atEnd m _).symm
        · exact ih (by omega) (by omega)

theorem versionValidate_iff (ver : Bytes) : versionValidate ver = true ↔ VersionAccepts .digit ver := by
  have weight := tokenWeight_le .digit ver
  rw [versionValidate, VersionAccepts, versionValidateLoop_enough (by omega) (Nat.lt_succ_self _)]

theorem accepts_finish (ver : Bytes) : VersionAccepts .finish ver := rfl

theorem not_versionAccepts_invalid (ver : Bytes) : ¬ VersionAccepts .invalid ver := Bool.false_ne_true

theorem accepts_iff {t : Part} (goesOn : ¬ t.Ended) (ver : Bytes) :
    VersionAccepts t ver ↔ VersionAccepts (getToken t ver).2.1 (getToken t ver).2.2 := by
  rw [VersionAccepts, VersionAccepts, versionValidateLoop_step goesOn]
  refine Eq.congr_left ?_
  rcases getToken_progress ver goesOn with atEnd | less
  · rw [versionValidateLoop_ended atEnd, versionValidateLoop_ended atEnd]
  · exact versionValidateLoop_enough (by omega) (Nat.lt_succ_self _)

/-- **The loop ends.** After finitely many rounds the type is one of the two last ones, and
the result says which. -/
theorem validate_ends (t : Part) (ver : Bytes) :
    ∃ rounds, (validateStep^[rounds] (t, ver)).1.Ended ∧
      (VersionAccepts t ver ↔ (validateStep^[rounds] (t, ver)).1 = .finish) := by
  induction weight : tokenWeight t ver using Nat.strong_induction_on generalizing t ver with
  | _ n ih =>
      by_cases ended : t.Ended
      · refine ⟨0, ended, ?_⟩
        rw [VersionAccepts, versionValidateLoop_ended ended, decide_eq_true_iff]
        rfl
      · have step : validateStep (t, ver) = (getToken t ver).2 := if_neg ended
        rcases getToken_progress ver ended with atEnd | less
        · refine ⟨1, by rw [Function.iterate_one, step]; exact atEnd, ?_⟩
          rw [accepts_iff ended, Function.iterate_one, step, VersionAccepts,
            versionValidateLoop_ended atEnd, decide_eq_true_iff]
        · obtain ⟨rounds, ends, result⟩ := ih _ (weight ▸ less) _ _ rfl
          refine ⟨rounds + 1, ?_, ?_⟩
          · rw [Function.iterate_succ_apply, step]
            exact ends
          · rw [accepts_iff ended, Function.iterate_succ_apply, step]
            exact result

/-! ## What follows a token -/

/-- The loop behind a token of the type, with the rest. -/
def PartFollows (t : Part) (s : Bytes) : Prop := s = [] ∨ VersionAccepts (nextToken t s).1 (nextToken t s).2

theorem accepts_finishToken {t : Part} {v : ℤ} {i : ℕ} (ver : Bytes) :
    VersionAccepts (finishToken v i none t ver).2.1 (finishToken v i none t ver).2.2 ↔
      PartFollows t (ver.drop i) := by
  unfold finishToken PartFollows
  dsimp only
  split
  · rename_i nothing
    exact iff_of_true (accepts_finish _) (.inl nothing)
  · rename_i something
    exact (or_iff_right something).symm

theorem drop_takeWhile (p : UInt8 → Bool) (s : Bytes) :
    s.drop (s.takeWhile p).length = s.dropWhile p := by
  calc s.drop (s.takeWhile p).length
      = (s.takeWhile p ++ s.dropWhile p).drop (s.takeWhile p).length := by
        rw [List.takeWhile_append_dropWhile]
    _ = s.dropWhile p := List.drop_left

theorem dropWhile_dropWhile {p q : UInt8 → Bool} (weaker : ∀ c, q c = true → p c = true)
    (s : Bytes) : (s.dropWhile q).dropWhile p = s.dropWhile p := by
  induction s with
  | nil => rfl
  | cons c s ih =>
      by_cases taken : q c = true
      · rw [List.dropWhile_cons_of_pos taken, List.dropWhile_cons_of_pos (weaker c taken), ih]
      · rw [List.dropWhile_cons_of_neg taken]

/-- A number, a suffix number or a revision number: all digits are taken. -/
theorem accepts_digits {t : Part} (number : t = .digit ∨ t = .suffixNo ∨ t = .revisionNo)
    (ver : Bytes) : VersionAccepts t ver ↔ PartFollows t (ver.dropWhile isDigit) := by
  have goesOn : ¬ t.Ended := by
    rcases number with rfl | rfl | rfl <;> decide
  rw [accepts_iff goesOn, ← drop_takeWhile]
  cases ver with
  | nil => exact iff_of_true (accepts_finish _) (.inl rfl)
  | cons c rest =>
      rcases number with rfl | rfl | rfl <;> exact accepts_finishToken _

/-- The two types of a number are followed by the same parts. -/
theorem nextToken_digitOrZero (s : Bytes) : nextToken .digitOrZero s = nextToken .digit s := by
  have same : nextPart .digitOrZero s = nextPart .digit s := by
    cases s with
    | nil => rfl
    | cons c rest => simp [nextPart]
  unfold nextToken
  rw [same]
  generalize nextPart .digit s = next
  obtain ⟨t, rest⟩ := next
  cases t <;> rfl

/-- A number behind a dot, with leading zeros or without. -/
theorem accepts_digitOrZero (ver : Bytes) :
    VersionAccepts .digitOrZero ver ↔ PartFollows .digit (ver.dropWhile isDigit) := by
  rw [accepts_iff (by decide)]
  cases ver with
  | nil => exact iff_of_true (accepts_finish _) (.inl rfl)
  | cons c rest =>
      by_cases zero : c = ascii '0'
      · subst zero
        have taken : getToken .digitOrZero (ascii '0' :: rest) =
            finishToken (Int.bmod (-((ascii '0' :: rest).takeWhile (· = ascii '0')).length) (2 ^ 32))
              ((ascii '0' :: rest).takeWhile (· = ascii '0')).length (some .digit) .digitOrZero
              (ascii '0' :: rest) := by simp only [getToken, ↓reduceIte]
        have zeros : ∀ c, decide (c = ascii '0') = true → isDigit c = true := by
          rintro c zero
          rw [of_decide_eq_true zero]
          rfl
        rw [taken, finishToken, drop_takeWhile, ← dropWhile_dropWhile zeros]
        split
        · rename_i nothing
          rw [nothing]
          exact iff_of_true (accepts_finish _) (.inl rfl)
        · exact accepts_digits (.inl rfl) _
      · have taken : getToken .digitOrZero (c :: rest) =
            finishToken (intOfDigits ((c :: rest).takeWhile isDigit))
              ((c :: rest).takeWhile isDigit).length none .digitOrZero (c :: rest) := if_neg zero
        rw [taken, accepts_finishToken, drop_takeWhile, PartFollows, nextToken_digitOrZero]
        rfl

theorem accepts_letter (c : UInt8) (s : Bytes) :
    VersionAccepts .letter (c :: s) ↔ PartFollows .letter s := by
  rw [accepts_iff (by decide)]
  exact accepts_finishToken (c :: s)

theorem accepts_suffix {s : Bytes} (nonempty : s ≠ []) :
    VersionAccepts .suffix s ↔ ∃ v i, suffixValue s = some (v, i) ∧ PartFollows .suffix (s.drop i) := by
  obtain ⟨c, rest, rfl⟩ := List.exists_cons_of_ne_nil nonempty
  rw [accepts_iff (by decide)]
  cases found : suffixValue (c :: rest) with
  | none =>
      have taken : getToken .suffix (c :: rest) = (-1, .invalid, c :: rest) := by
        simp only [getToken, found]
      rw [taken]
      exact iff_of_false (not_versionAccepts_invalid _) (by simp)
  | some value =>
      obtain ⟨v, i⟩ := value
      have taken : getToken .suffix (c :: rest) = finishToken v i none .suffix (c :: rest) := by
        simp only [getToken, found]
      rw [taken, accepts_finishToken]
      simp

/-- The order of the parts that `next_token` enforces. -/
theorem nextToken_order {t : Part} {s : Bytes} (valid : (nextToken t s).1 ≠ .invalid) :
    t.code ≤ (nextPart t s).1.code ∨ (nextPart t s).1 = .digitOrZero ∧ t = .digit ∨
      (nextPart t s).1 = .suffix ∧ t = .suffixNo ∨ (nextPart t s).1 = .digit ∧ t = .letter := by
  unfold nextToken at valid
  dsimp only at valid
  split_ifs at valid with smaller
  · exact absurd rfl valid
  · by_contra others
    simp only [not_or, not_le] at others
    exact smaller ⟨others.1, fun exceptions => by tauto⟩

/-- What a part that follows looks like. -/
theorem follows_cases {t : Part} {s : Bytes} (noNul : (0 : UInt8) ∉ s) (goesOn : ¬ t.Ended)
    (notZero : t ≠ .digitOrZero) (follows : PartFollows t s) :
    s = [] ∨
      (∃ rest, s = ascii '_' :: rest ∧ VersionAccepts .suffix rest) ∨
      (∃ rest, s = ascii '-' :: ascii 'r' :: rest ∧ VersionAccepts .revisionNo rest) ∨
      (t = .digit ∧ ∃ c rest, s = c :: rest ∧ isLower c = true ∧ VersionAccepts .letter s) ∨
      (t = .letter ∧ DigitNext s ∧ VersionAccepts .digit s) ∨
      (t = .suffix ∧ DigitNext s ∧ VersionAccepts .suffixNo s) ∨
      (t = .digit ∧ ∃ rest, s = ascii '.' :: rest ∧ VersionAccepts .digitOrZero rest) := by
  rcases follows with nothing | follows
  · exact .inl nothing
  · have valid : (nextToken t s).1 ≠ .invalid := by
      intro invalid
      rw [invalid] at follows
      exact not_versionAccepts_invalid _ follows
    have order := nextToken_order valid
    rw [nextToken_eq_nextPart valid] at follows
    cases s with
    | nil => exact .inl rfl
    | cons c rest =>
        have notNul : c ≠ 0 := fun nul => noNul (nul ▸ List.mem_cons_self)
        unfold nextPart at follows order
        simp only [notNul, ↓reduceIte] at follows order
        split_ifs at follows order with letter digit number dot underscore revision
        · have start : t = .digit := letter.1.resolve_right notZero
          exact .inr (.inr (.inr (.inl ⟨start, c, rest, rfl, letter.2, follows⟩)))
        · exact .inr (.inr (.inr (.inr (.inl ⟨digit.1, ⟨c, rest, rfl, digit.2⟩, follows⟩))))
        · exact .inr (.inr (.inr (.inr (.inr (.inl
            ⟨number.1, ⟨c, rest, rfl, number.2⟩, follows⟩)))))
        · have start : t = .digit := by
            cases t <;> first | rfl | exact absurd rfl notZero | exact absurd (.inr rfl) goesOn |
              simp [Part.code] at order
          exact .inr (.inr (.inr (.inr (.inr (.inr ⟨start, rest, by rw [dot], follows⟩)))))
        · exact .inr (.inl ⟨rest, by rw [underscore], follows⟩)
        · obtain ⟨more, rfl⟩ : ∃ more, rest = ascii 'r' :: more := by
            cases rest with
            | nil => cases revision.2
            | cons c' more =>
                cases revision.2
                exact ⟨more, rfl⟩
          exact .inr (.inr (.inl ⟨more, by rw [revision.1], follows⟩))
        · exact absurd follows (not_versionAccepts_invalid _)

/-- Nothing but a revision follows a revision. -/
theorem follows_revisionNo {s : Bytes} (noNul : (0 : UInt8) ∉ s) (follows : PartFollows .revisionNo s) :
    s = [] ∨ ∃ rest, s = ascii '-' :: ascii 'r' :: rest := by
  rcases follows_cases noNul (by decide) (by decide) follows with
    nothing | ⟨rest, rfl, _⟩ | ⟨rest, rfl, _⟩ | ⟨kind, _⟩ | ⟨kind, _⟩ | ⟨kind, _⟩ | ⟨kind, _⟩
  · exact .inl nothing
  · rcases follows with nothing | follows
    · cases nothing
    · exact absurd follows (not_versionAccepts_invalid _)
  · exact .inr ⟨rest, rfl⟩
  all_goals cases kind

theorem digitNext_of_dropWhile {s : Bytes} : ¬ DigitNext (s.dropWhile isDigit) := by
  rintro ⟨c, rest, shape, digit⟩
  have stops := List.head?_dropWhile_not isDigit s
  rw [shape] at stops
  simp [digit] at stops

theorem dropWhile_of_not_digitNext {s : Bytes} (other : ¬ DigitNext s) :
    s.dropWhile isDigit = s := by
  cases s with
  | nil => rfl
  | cons c rest =>
      exact List.dropWhile_cons_of_neg fun digit => other ⟨c, rest, rfl, digit⟩

/-- A suffix may have a number; then a suffix or a revision follows. -/
theorem follows_suffix {s : Bytes} (noNul : (0 : UInt8) ∉ s) (follows : PartFollows .suffix s) :
    PartFollows .suffixNo (s.dropWhile isDigit) := by
  rcases follows_cases noNul (by decide) (by decide) follows with
    rfl | ⟨rest, rfl, next⟩ | ⟨rest, rfl, next⟩ | ⟨kind, _⟩ | ⟨kind, _⟩ | ⟨_, _, next⟩ | ⟨kind, _⟩
  · exact .inl rfl
  · exact .inr next
  · exact .inr next
  · cases kind
  · cases kind
  · exact (accepts_digits (.inr (.inl rfl)) s).mp next
  · cases kind

/-! ## Accepted texts are of the grammar -/

theorem Tidy.tail {front s : Bytes} (tidy : Tidy (front ++ s)) : Tidy s where
  dots before rest shape := tidy.dots (front ++ before) rest (by rw [shape, List.append_assoc])
  underscores before shape := tidy.underscores (front ++ before) (by rw [shape, List.append_assoc])
  revisions before rest shape :=
    tidy.revisions (front ++ before) rest (by rw [shape, List.append_assoc])

/-- The digits in front, and what is left behind them. -/
theorem takeDigits (s : Bytes) : ∃ digits, s = digits ++ s.dropWhile isDigit ∧
    (∀ c ∈ digits, isDigit c = true) ∧ (DigitNext s → Number digits) := by
  refine ⟨s.takeWhile isDigit, List.takeWhile_append_dropWhile.symm,
    fun c member => List.mem_takeWhile_imp member, ?_⟩
  rintro ⟨c, rest, rfl, digit⟩
  refine ⟨?_, fun c member => List.mem_takeWhile_imp member⟩
  rw [List.takeWhile_cons_of_pos digit]
  exact List.cons_ne_nil _ _

theorem suffixes_sound (s : Bytes) (noNul : (0 : UInt8) ∉ s) (tidy : Tidy s)
    (follows : PartFollows .suffixNo s) (other : ¬ DigitNext s) : Suffixes s := by
  induction length : s.length using Nat.strong_induction_on generalizing s with
  | _ n ih =>
      rcases follows_cases noNul (by decide) (by decide) follows with
        rfl | ⟨rest, rfl, next⟩ | ⟨rest, rfl, next⟩ | ⟨kind, _⟩ | ⟨kind, _⟩ | ⟨kind, _⟩ | ⟨kind, _⟩
      · exact .revision .none
      · have nonempty : rest ≠ [] := by
          rintro rfl
          exact tidy.underscores [] rfl
        obtain ⟨v, i, found, next⟩ := (accepts_suffix nonempty).mp next
        obtain ⟨name, member, ⟨tail, rfl⟩, rfl⟩ := suffixValue_name found
        rw [List.drop_left] at next
        have noNul' : (0 : UInt8) ∉ tail := fun inside =>
          noNul (List.mem_cons_of_mem _ (List.mem_append_right _ inside))
        obtain ⟨digits, shape, all, -⟩ := takeDigits tail
        have tidy' : Tidy (tail.dropWhile isDigit) := by
          refine (show Tidy (ascii '_' :: name ++ digits ++ tail.dropWhile isDigit) from ?_).tail
          rw [List.append_assoc, ← shape]
          exact tidy
        have shorter : (tail.dropWhile isDigit).length < n := by
          have bound := (List.dropWhile_suffix isDigit (l := tail)).length_le
          rw [← length]
          simp only [List.length_cons, List.length_append]
          omega
        have rest := ih _ shorter _ (fun inside => noNul' (List.dropWhile_subset _ inside)) tidy'
          (follows_suffix noNul' next) digitNext_of_dropWhile rfl
        rw [shape]
        exact .suffix member all rest
      · obtain ⟨digit, single⟩ := tidy.revisions [] rest rfl
        obtain ⟨digits, shape, -, number⟩ := takeDigits rest
        have noNul' : (0 : UInt8) ∉ rest.dropWhile isDigit := fun inside =>
          noNul (List.mem_cons_of_mem _ (List.mem_cons_of_mem _ (List.dropWhile_subset _ inside)))
        rw [accepts_digits (.inr (.inr rfl))] at next
        rcases follows_revisionNo noNul' next with nothing | ⟨more, again⟩
        · rw [nothing, List.append_nil] at shape
          rw [shape]
          exact .revision (.number (number digit))
        · rw [again] at shape
          exact absurd shape (single digits more)
      all_goals cases kind

/-- Behind a number, a text that the loop accepts is of the grammar. -/
theorem components_sound (s : Bytes) (noNul : (0 : UInt8) ∉ s) (tidy : Tidy s)
    (follows : PartFollows .digit s) (other : ¬ DigitNext s) : Components True s := by
  induction length : s.length using Nat.strong_induction_on generalizing s with
  | _ n ih =>
      have behind : ∀ (front : Bytes) (rest : Bytes), s = front ++ rest → front ≠ [] →
          DigitNext rest → VersionAccepts .digit rest →
          ∃ digits more, rest = digits ++ more ∧ Number digits ∧ Components True more := by
        intro front rest shape nonempty digit next
        obtain ⟨digits, split, -, number⟩ := takeDigits rest
        refine ⟨digits, _, split, number digit, ih _ ?_ _ ?_ ?_
          ((accepts_digits (.inl rfl) rest).mp next) digitNext_of_dropWhile rfl⟩
        · have bound := (List.dropWhile_suffix isDigit (l := rest)).length_le
          have positive := List.length_pos_iff.mpr nonempty
          rw [← length, shape, List.length_append]
          omega
        · exact fun inside => noNul (by
            rw [shape]
            exact List.mem_append_right _ (List.dropWhile_subset _ inside))
        · refine (show Tidy ((front ++ digits) ++ rest.dropWhile isDigit) from ?_).tail
          rw [List.append_assoc, ← split, ← shape]
          exact tidy
      rcases follows_cases noNul (by decide) (by decide) follows with
        nothing | ⟨rest, rfl, next⟩ | ⟨rest, rfl, next⟩ | ⟨_, c, rest, rfl, lower, next⟩ |
        ⟨kind, _⟩ | ⟨kind, _⟩ | ⟨_, rest, rfl, next⟩
      · rw [nothing]
        exact .suffixes (.revision .none)
      · exact .suffixes (suffixes_sound _ noNul tidy (.inr next) other)
      · exact .suffixes (suffixes_sound _ noNul tidy (.inr next) other)
      · have noNul' : (0 : UInt8) ∉ rest := fun inside => noNul (List.mem_cons_of_mem _ inside)
        have tidy' : Tidy rest := (show Tidy ([c] ++ rest) from tidy).tail
        rw [accepts_letter] at next
        by_cases digit : DigitNext rest
        · rcases follows_cases noNul' (by decide) (by decide) next with
            rfl | ⟨more, rfl, _⟩ | ⟨more, rfl, _⟩ | ⟨kind, _⟩ | ⟨_, _, again⟩ | ⟨kind, _⟩ | ⟨kind, _⟩
          · obtain ⟨_, _, shape, _⟩ := digit
            cases shape
          · obtain ⟨_, _, shape, isDigit⟩ := digit
            cases shape
            cases isDigit
          · obtain ⟨_, _, shape, isDigit⟩ := digit
            cases shape
            cases isDigit
          · cases kind
          · obtain ⟨digits, more, rfl, number, components⟩ :=
              behind [c] rest rfl (List.cons_ne_nil _ _) digit again
            exact .digits trivial lower number components
          · cases kind
          · cases kind
        · refine .letter lower (suffixes_sound rest noNul' tidy' ?_ digit)
          rcases follows_cases noNul' (by decide) (by decide) next with
            nothing | ⟨more, rfl, suffix⟩ | ⟨more, rfl, revision⟩ | ⟨kind, _⟩ | ⟨_, again, _⟩ |
            ⟨kind, _⟩ | ⟨kind, _⟩
          · exact .inl nothing
          · exact .inr suffix
          · exact .inr revision
          · cases kind
          · exact absurd again digit
          · cases kind
          · cases kind
      · cases kind
      · cases kind
      · rw [accepts_digitOrZero, ← accepts_digits (.inl rfl)] at next
        obtain ⟨digits, more, rfl, number, components⟩ :=
          behind [ascii '.'] rest rfl (List.cons_ne_nil _ _) (tidy.dots [] rest rfl) next
        exact .dot number components

/-! ## Texts of the grammar are accepted -/

theorem dropWhile_digits {digits s : Bytes} (all : ∀ c ∈ digits, isDigit c = true)
    (other : ¬ DigitNext s) : (digits ++ s).dropWhile isDigit = s := by
  rw [List.dropWhile_append_of_pos all, dropWhile_of_not_digitNext other]

theorem Revision.not_digitNext {s : Bytes} (revision : Revision s) : ¬ DigitNext s := by
  rintro ⟨c, rest, shape, digit⟩
  cases revision <;> cases shape
  cases digit

theorem Suffixes.not_digitNext {s : Bytes} (suffixes : Suffixes s) : ¬ DigitNext s := by
  cases suffixes with
  | revision revision => exact revision.not_digitNext
  | suffix _ _ _ =>
      rintro ⟨c, rest, shape, digit⟩
      cases shape
      cases digit

theorem isDigit_of_isLower {c : UInt8} (lower : isLower c = true) : isDigit c = false := by
  simp only [isLower, isDigit, Bool.and_eq_true, decide_eq_true_eq, Bool.and_eq_false_iff,
    decide_eq_false_iff_not] at lower ⊢
  omega

theorem Components.not_digitNext {again : Prop} {s : Bytes} (components : Components again s) :
    ¬ DigitNext s := by
  cases components with
  | suffixes suffixes => exact suffixes.not_digitNext
  | dot _ _ =>
      rintro ⟨c, rest, shape, digit⟩
      cases shape
      cases digit
  | letter lower _ =>
      rintro ⟨c, rest, shape, digit⟩
      cases shape
      rw [isDigit_of_isLower lower] at digit
      cases digit
  | digits _ lower _ _ =>
      rintro ⟨c, rest, shape, digit⟩
      cases shape
      rw [isDigit_of_isLower lower] at digit
      cases digit

theorem nextToken_underscore {t : Part} (rest : Bytes)
    (kind : t = .digit ∨ t = .letter ∨ t = .suffix ∨ t = .suffixNo) :
    nextToken t (ascii '_' :: rest) = (.suffix, rest) := by
  rcases kind with rfl | rfl | rfl | rfl <;> rfl

theorem nextToken_revision {t : Part} (rest : Bytes)
    (kind : t = .digit ∨ t = .letter ∨ t = .suffix ∨ t = .suffixNo) :
    nextToken t (ascii '-' :: ascii 'r' :: rest) = (.revisionNo, rest) := by
  rcases kind with rfl | rfl | rfl | rfl <;> rfl

theorem nextToken_digit {t next : Part} {s : Bytes} (noNul : (0 : UInt8) ∉ s) (digit : DigitNext s)
    (kind : t = .letter ∧ next = .digit ∨ t = .suffix ∧ next = .suffixNo) :
    nextToken t s = (next, s) := by
  obtain ⟨c, rest, rfl, digit⟩ := digit
  have notNul : c ≠ 0 := fun nul => noNul (nul ▸ List.mem_cons_self)
  rcases kind with ⟨rfl, rfl⟩ | ⟨rfl, rfl⟩ <;>
    simp [nextToken, nextPart, notNul, digit, Part.code]

theorem Suffixes.follows {s : Bytes} (suffixes : Suffixes s) (noNul : (0 : UInt8) ∉ s) :
    ∀ t : Part, t = .digit ∨ t = .letter ∨ t = .suffix ∨ t = .suffixNo → PartFollows t s := by
  induction suffixes with
  | revision revision =>
      intro t kind
      cases revision with
      | none => exact .inl rfl
      | @number digits number =>
          have whole := @dropWhile_digits digits [] number.2 Revision.none.not_digitNext
          rw [List.append_nil] at whole
          refine .inr ?_
          rw [nextToken_revision _ kind, accepts_digits (.inr (.inr rfl)), whole]
          exact .inl rfl
  | @suffix name digits s member all rest ih =>
      intro t kind
      have noNul' : (0 : UInt8) ∉ digits ++ s := fun inside =>
        noNul (List.mem_cons_of_mem _ (List.mem_append_right _ inside))
      have others : (digits ++ s).head? ≠ some (ascii 'r') := by
        intro same
        cases digits with
        | nil =>
            cases rest with
            | revision revision => cases revision <;> cases same
            | suffix _ _ _ => cases same
        | cons d digits =>
            cases same
            exact absurd (all _ List.mem_cons_self) (by decide)
      obtain ⟨v, found⟩ : ∃ v, suffixValue (name ++ (digits ++ s)) = some (v, name.length) := by
        rcases List.mem_append.mp member with pre | post
        · obtain ⟨v, found, -⟩ := suffixValue_preSuffix pre (digits ++ s)
          exact ⟨v, found⟩
        · obtain ⟨v, found, -⟩ := suffixValue_postSuffix post others
          exact ⟨v, found⟩
      have nonempty : name ++ (digits ++ s) ≠ [] := by
        have positive := (suffixValue_length found).1
        exact List.append_ne_nil_of_left_ne_nil (List.length_pos_iff.mp positive) _
      have next := ih fun inside => noNul' (List.mem_append_right _ inside)
      refine .inr ?_
      rw [nextToken_underscore _ kind]
      refine (accepts_suffix nonempty).mpr ⟨v, _, found, ?_⟩
      rw [List.drop_left]
      cases digits with
      | nil => exact next .suffix (by simp)
      | cons d digits =>
          have digit : DigitNext (d :: digits ++ s) := ⟨d, _, rfl, all d List.mem_cons_self⟩
          refine .inr ?_
          rw [nextToken_digit noNul' digit (.inr ⟨rfl, rfl⟩), accepts_digits (.inr (.inl rfl)),
            dropWhile_digits all rest.not_digitNext]
          exact next .suffixNo (by simp)

theorem Components.follows {again : Prop} {s : Bytes} (components : Components again s)
    (noNul : (0 : UInt8) ∉ s) : PartFollows .digit s := by
  induction components with
  | suffixes suffixes => exact suffixes.follows noNul .digit (by simp)
  | @dot digits s number rest ih =>
      have next := ih fun inside => noNul (List.mem_cons_of_mem _ (List.mem_append_right _ inside))
      refine .inr ?_
      rw [nextToken_dot (.inl rfl), accepts_digitOrZero,
        dropWhile_digits number.2 rest.not_digitNext]
      exact next
  | @letter c s lower suffixes =>
      have notNul : c ≠ 0 := fun nul => noNul (nul ▸ List.mem_cons_self)
      have next : nextToken .digit (c :: s) = (.letter, c :: s) := by
        simp [nextToken, nextPart, notNul, lower, Part.code]
      refine .inr ?_
      rw [next, accepts_letter]
      exact suffixes.follows (fun inside => noNul (List.mem_cons_of_mem _ inside)) .letter (by simp)
  | @digits c digits s _ lower number rest ih =>
      have noNul' : (0 : UInt8) ∉ digits ++ s := fun inside => noNul (List.mem_cons_of_mem _ inside)
      have notNul : c ≠ 0 := fun nul => noNul (nul ▸ List.mem_cons_self)
      have next : nextToken .digit (c :: (digits ++ s)) = (.letter, c :: (digits ++ s)) := by
        simp [nextToken, nextPart, notNul, lower, Part.code]
      have digit : DigitNext (digits ++ s) := by
        obtain ⟨d, more, rfl⟩ := List.exists_cons_of_ne_nil number.1
        exact ⟨d, _, rfl, number.2 d List.mem_cons_self⟩
      refine .inr ?_
      rw [next, accepts_letter]
      refine .inr ?_
      rw [nextToken_digit noNul' digit (.inl ⟨rfl, rfl⟩), accepts_digits (.inl rfl),
        dropWhile_digits number.2 rest.not_digitNext]
      exact ih fun inside => noNul' (List.mem_append_right _ inside)

/-- **What the validation accepts.** It ends on every text. On texts without NUL it accepts
every version of the grammar in which digits behind the letter start over, and of the texts in
which nothing is left out no others. -/
theorem versionValidate_grammar (s : Bytes) :
    (∃ rounds, (validateStep^[rounds] (.digit, s)).1.Ended ∧
      (versionValidate s = true ↔ (validateStep^[rounds] (.digit, s)).1 = .finish)) ∧
    ((0 : UInt8) ∉ s → (VersionGrammar True s → versionValidate s = true) ∧
      (DigitNext s → Tidy s → versionValidate s = true → VersionGrammar True s)) := by
  rw [versionValidate_iff]
  refine ⟨validate_ends .digit s, fun noNul => ⟨?_, fun digit tidy accepted => ?_⟩⟩
  · rintro ⟨digits, rest, rfl, number, components⟩
    rw [accepts_digits (.inl rfl), dropWhile_digits number.2 components.not_digitNext]
    exact components.follows fun inside => noNul (List.mem_append_right _ inside)
  · obtain ⟨digits, split, -, number⟩ := takeDigits s
    have tidy' : Tidy (s.dropWhile isDigit) := by
      refine (show Tidy (digits ++ s.dropWhile isDigit) from ?_).tail
      rw [← split]
      exact tidy
    refine ⟨digits, _, split, number digit, components_sound _ ?_ tidy'
      ((accepts_digits (.inl rfl) s).mp accepted) digitNext_of_dropWhile⟩
    exact fun inside => noNul (List.dropWhile_subset _ inside)

/-- A version with digits behind the letter is accepted, but it is not of the form
`{digit}{.digit}...{letter}{_suf{#}}...{-r#}`. -/
theorem versionValidate_digits :
    ¬ ∀ s : Bytes, (0 : UInt8) ∉ s → (versionValidate s = true ↔ VersionGrammar False s) := by
  intro documented
  obtain ⟨digits, rest, shape, number, components⟩ :=
    (documented (text "1a2") (by decide)).mp (by decide)
  have split := dropWhile_digits number.2 components.not_digitNext
  rw [← shape] at split
  have tail : rest = [ascii 'a', ascii '2'] := split.symm.trans (by decide)
  cases components with
  | suffixes suffixes =>
      cases suffixes with
      | revision revision => cases revision <;> cases tail
      | suffix _ _ _ => cases tail
  | dot _ _ => cases tail
  | letter _ suffixes =>
      cases tail
      exact suffixes.not_digitNext ⟨ascii '2', [], rfl, rfl⟩
  | digits again _ _ _ => exact again

end AriannaLinux.Apk
