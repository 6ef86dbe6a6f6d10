import AriannaLinux.Apk.BlobText
import AriannaLinux.Apk.VersionGrammar

/-! # The names of package files

A package file is called by the name and the version of its package, joined by a dash.
`apk_pkg_parse_name` looks for that dash from the right, and passes over one dash that no
digit follows: that of a revision. Every version of the documented grammar is found again
behind any name (`parseName_version`).
-/

namespace AriannaLinux.Apk

/-! ## The parser -/

/-- The loop of `apk_pkg_parse_name` over the first `i` positions, downwards: the position of
the dash in front of the version. -/
def parseNameLoop (apkname : Bytes) : ℕ → ℕ → Option ℕ
  | 0, _ => none
  | i + 1, dash =>
      if apkname[i]? ≠ some (ascii '-') then parseNameLoop apkname i dash
      else if isDigit (apkname.getD (i + 1) 0) then some i
      else if 2 ≤ dash + 1 then none
      else parseNameLoop apkname i (dash + 1)

/-- `apk_pkg_parse_name`: the name and the version. -/
def parseName (apkname : Option Bytes) : Option (Bytes × Bytes) :=
  match apkname with
  | none => none
  | some apkname =>
      (parseNameLoop apkname (apkname.length - 1) 0).map fun i =>
        (apkname.take i, apkname.drop (i + 1))

example : parseName (some (text "gtk+-2.0-doc-1.2_rc3-r10")) =
    some (text "gtk+-2.0-doc", text "1.2_rc3-r10") := by decide +kernel

/-! ## Passing over dashes -/

/-- No digit follows a dash. -/
def DashesPlain (s : Bytes) : Prop :=
  ∀ front c rest, s = front ++ ascii '-' :: c :: rest → isDigit c = false

/-- Positions without a dash in front of a digit are passed over, unless the dashes are too
many. -/
theorem parseNameLoop_skip {apkname : Bytes} {start : ℕ} (len : ℕ) {dash : ℕ}
    (inside : start + len ≤ apkname.length)
    (plain : ∀ i, start ≤ i → i < start + len → apkname[i]? = some (ascii '-') →
      isDigit (apkname.getD (i + 1) 0) = false)
    (few : dash + ((apkname.drop start).take len).count (ascii '-') < 2) :
    parseNameLoop apkname (start + len) dash =
      parseNameLoop apkname start
        (dash + ((apkname.drop start).take len).count (ascii '-')) := by
  induction len generalizing dash with
  | zero => simp
  | succ len ih =>
      have here : (apkname.drop start)[len]? = apkname[start + len]? := List.getElem?_drop
      have last : ((apkname.drop start).take (len + 1)).count (ascii '-') =
          ((apkname.drop start).take len).count (ascii '-') +
            if apkname[start + len]? = some (ascii '-') then 1 else 0 := by
        rw [List.take_add_one, List.count_append, here]
        cases apkname[start + len]? with
        | none => simp
        | some c =>
            rw [Option.toList_some, List.count_singleton]
            simp only [Option.some.injEq, beq_iff_eq]
      have rest := fun dash => @ih dash (by omega) fun i from_ below => plain i from_ (by omega)
      rw [last] at few ⊢
      rw [← Nat.add_assoc, parseNameLoop]
      by_cases dashed : apkname[start + len]? = some (ascii '-')
      · rw [if_pos dashed] at few ⊢
        rw [if_neg (not_not.mpr dashed), plain (start + len) (by omega) (by omega) dashed,
          if_neg Bool.false_ne_true, if_neg (by omega), rest (dash + 1) (by omega)]
        congr 1
        omega
      · rw [if_neg dashed] at few ⊢
        rw [if_pos dashed, rest dash (by omega), Nat.add_zero]

/-- A version that is found behind a name: it starts with a digit, and of its dashes, of which
there is one at most, none is followed by a digit. -/
structure FoundBehind (version : Bytes) : Prop where
  digit : DigitNext version
  plain : DashesPlain version
  single : version.count (ascii '-') ≤ 1

namespace FoundBehind

theorem ne_nil {version : Bytes} (found : FoundBehind version) : version ≠ [] := by
  obtain ⟨c, rest, rfl, -⟩ := found.digit
  exact List.cons_ne_nil c rest

/-- A tail without dashes that does not start with a digit may follow. -/
theorem append {version tail : Bytes} (found : FoundBehind version)
    (dashless : ascii '-' ∉ tail) (stops : ∀ c rest, tail = c :: rest → isDigit c = false) :
    FoundBehind (version ++ tail) where
  digit := by
    obtain ⟨c, rest, rfl, digit⟩ := found.digit
    exact ⟨c, rest ++ tail, rfl, digit⟩
  plain := by
    intro front c rest split
    rcases List.append_eq_append_iff.mp split with ⟨middle, -, behind⟩ | ⟨middle, inside, behind⟩
    · exact absurd (behind ▸ by simp) dashless
    · rcases middle with _ | ⟨dash, _ | ⟨next, middle⟩⟩
      · exact absurd (by rw [← List.nil_append tail, ← behind]; simp) dashless
      · obtain ⟨-, next⟩ := List.cons.inj behind
        exact stops c rest next.symm
      · simp only [List.cons_append, List.cons.injEq] at behind
        obtain ⟨rfl, rfl, -⟩ := behind
        exact found.plain front _ middle inside
  single := by
    rw [List.count_append, List.count_eq_zero_of_not_mem dashless]
    exact found.single

end FoundBehind

/-- **The dash is found** in front of such a version, whatever the name is. -/
theorem parseName_join (name : Bytes) {version : Bytes} (found : FoundBehind version) :
    parseName (some (name ++ ascii '-' :: version)) = some (name, version) := by
  obtain ⟨first, rest, rfl, digit⟩ := found.digit
  have behind : (name ++ ascii '-' :: first :: rest).drop (name.length + 1) = first :: rest := by
    rw [← List.drop_drop, List.drop_left]
    rfl
  have length : (name ++ ascii '-' :: first :: rest).length - 1 =
      name.length + 1 + rest.length := by
    simp only [List.length_append, List.length_cons]
    omega
  have plain : ∀ i, name.length + 1 ≤ i → i < name.length + 1 + rest.length →
      (name ++ ascii '-' :: first :: rest)[i]? = some (ascii '-') →
      isDigit ((name ++ ascii '-' :: first :: rest).getD (i + 1) 0) = false := by
    intro i after below dash
    obtain ⟨j, rfl⟩ := Nat.exists_eq_add_of_le after
    have next : j + 1 < (first :: rest).length := by
      rw [List.length_cons]
      omega
    have at_dash : (first :: rest)[j]? = some (ascii '-') := by
      rw [← behind, List.getElem?_drop, dash]
    have at_next : (name ++ ascii '-' :: first :: rest)[name.length + 1 + j + 1]? =
        some (first :: rest)[j + 1] := by
      rw [Nat.add_assoc, ← List.getElem?_drop, behind, List.getElem?_eq_getElem next]
    rw [List.getD_eq_getElem?_getD, at_next]
    refine found.plain ((first :: rest).take j) _ ((first :: rest).drop (j + 2)) ?_
    obtain ⟨inside, same⟩ := List.getElem?_eq_some_iff.mp at_dash
    calc first :: rest
        = (first :: rest).take j ++ (first :: rest).drop j := (List.take_append_drop j _).symm
      _ = _ := by
        rw [List.drop_eq_getElem_cons inside, same, List.drop_eq_getElem_cons next]
        rfl
  have few : 0 + (((name ++ ascii '-' :: first :: rest).drop (name.length + 1)).take
      rest.length).count (ascii '-') ≤ 1 := by
    rw [behind, Nat.zero_add]
    exact ((List.take_sublist _ _).count_le _).trans found.single
  have dash : (name ++ ascii '-' :: first :: rest)[name.length]? = some (ascii '-') := by
    rw [List.getElem?_append_right le_rfl, Nat.sub_self]
    rfl
  have next : (name ++ ascii '-' :: first :: rest).getD (name.length + 1) 0 = first := by
    rw [List.getD_eq_getElem?_getD, ← Nat.add_zero (name.length + 1), ← List.getElem?_drop, behind]
    rfl
  rw [parseName, length, parseNameLoop_skip rest.length (by
    simp only [List.length_append, List.length_cons]
    omega) plain (Nat.lt_succ_of_le few), parseNameLoop, if_neg (not_not.mpr dash), next,
    if_pos digit, Option.map_some, List.take_left, behind]

/-! ## Versions of the grammar -/

/-- Digits alone, or something that no dash is in. -/
theorem Number.dashless {digits : Bytes} (number : ∀ c ∈ digits, isDigit c = true) :
    ascii '-' ∉ digits := fun member => by
  have digit := number _ member
  revert digit
  decide

/-- What follows the first number of a version has a dash at most in its revision. -/
def RevisionLast (s : Bytes) : Prop :=
  ∃ front revision, s = front ++ revision ∧ ascii '-' ∉ front ∧ Revision revision

theorem RevisionLast.front {s front : Bytes} (last : RevisionLast s)
    (dashless : ascii '-' ∉ front) : RevisionLast (front ++ s) := by
  obtain ⟨middle, revision, rfl, free, isRevision⟩ := last
  refine ⟨front ++ middle, revision, (List.append_assoc ..).symm, ?_, isRevision⟩
  exact List.not_mem_append dashless free

theorem Suffixes.revisionLast {s : Bytes} (suffixes : Suffixes s) : RevisionLast s := by
  induction suffixes with
  | revision isRevision => exact ⟨[], _, rfl, List.not_mem_nil, isRevision⟩
  | @suffix name digits s listed number _ ih =>
      have plainName : ∀ name ∈ preSuffixes ++ postSuffixes, ascii '-' ∉ name := by decide
      have first : ascii '-' ∉ [ascii '_'] := by decide
      exact ((ih.front (Number.dashless number)).front (plainName name listed)).front first

theorem Components.revisionLast {again : Prop} {s : Bytes} (components : Components again s) :
    RevisionLast s := by
  have letterPlain : ∀ c, isLower c = true → ascii '-' ∉ [c] := by
    intro c lower member
    rw [← List.mem_singleton.mp member] at lower
    revert lower
    decide
  induction components with
  | suffixes suffixes => exact suffixes.revisionLast
  | @dot digits s number _ ih =>
      have first : ascii '-' ∉ [ascii '.'] := by decide
      exact (ih.front (Number.dashless number.2)).front first
  | @letter c s lower suffixes => exact suffixes.revisionLast.front (letterPlain c lower)
  | @digits c digits s _ lower number _ ih =>
      exact (ih.front (Number.dashless number.2)).front (letterPlain c lower)

/-- **Versions of the grammar** are found behind any name. -/
theorem VersionGrammar.foundBehind {again : Prop} {version : Bytes}
    (grammar : VersionGrammar again version) : FoundBehind version := by
  obtain ⟨digits, rest, rfl, number, components⟩ := grammar
  obtain ⟨front, revision, whole, free, isRevision⟩ :=
    components.revisionLast.front (Number.dashless number.2)
  obtain ⟨c, digits, rfl⟩ := List.exists_cons_of_ne_nil number.1
  refine ⟨⟨c, digits ++ rest, rfl, number.2 c List.mem_cons_self⟩, ?_, ?_⟩
  · intro before next after split
    rw [whole] at split
    cases isRevision with
    | none => exact absurd (by rw [← List.append_nil front, split]; simp) free
    | @number numbers isNumber =>
        have letter : isDigit (ascii 'r') = false := by decide
        rcases List.append_eq_append_iff.mp split with ⟨middle, -, behind⟩ |
          ⟨middle, inside, behind⟩
        · cases middle with
          | nil =>
              rw [← (List.cons.inj (List.cons.inj behind).2).1]
              exact letter
          | cons first middle =>
              have member : ascii '-' ∈ ascii 'r' :: numbers := by
                rw [(List.cons.inj behind).2]
                simp
              rcases List.mem_cons.mp member with wrong | member
              · exact absurd wrong (by decide)
              · exact absurd member (Number.dashless isNumber.2)
        · cases middle with
          | nil =>
              rw [(List.cons.inj (List.cons.inj behind).2).1]
              exact letter
          | cons first middle =>
              rw [inside, ← (List.cons.inj behind).1] at free
              exact absurd (by simp) free
  · rw [whole, List.count_append, List.count_eq_zero_of_not_mem free, Nat.zero_add]
    cases isRevision with
    | none => exact Nat.zero_le 1
    | @number numbers isNumber =>
        rw [List.count_cons, List.count_cons,
          List.count_eq_zero_of_not_mem (Number.dashless isNumber.2)]
        decide

/-- The eight hexadecimal digits behind the version in the name of a cached package. -/
structure HashDigits (hex : Bytes) : Prop where
  length : hex.length = 8
  digits : ∀ c ∈ hex, dx c ≠ none

theorem HashDigits.dashless {hex : Bytes} (hash : HashDigits hex) : ascii '-' ∉ hex :=
  fun member => absurd (by decide) (hash.digits _ member)

/-- **Package file names parse back.** Whatever the name is, a version of the grammar is
found behind it, also with the digits of a checksum behind. -/
theorem parseName_version (name : Bytes) {version : Bytes}
    (grammar : VersionGrammar False version) :
    parseName (some (name ++ ascii '-' :: version)) = some (name, version) ∧
      ∀ hex, HashDigits hex →
        parseName (some (name ++ ascii '-' :: (version ++ ascii '.' :: hex))) =
          some (name, version ++ ascii '.' :: hex) := by
  refine ⟨parseName_join name grammar.foundBehind, fun hex hash => ?_⟩
  refine parseName_join name (grammar.foundBehind.append ?_ ?_)
  · exact fun member => (List.mem_cons.mp member).elim (by decide) hash.dashless
  · intro c rest same
    rw [← (List.cons.inj same).1]
    decide

/-- A name that ends like a version, and a version with a revision. -/
theorem parseName_version_revision :
    parseName (some (text "font-7.5" ++ ascii '-' :: text "1.2-r3")) =
        some (text "font-7.5", text "1.2-r3") ∧
      parseName (some (text "font-7.5" ++ ascii '-' ::
          (text "1.2-r3" ++ ascii '.' :: text "0a1b2c3d"))) =
        some (text "font-7.5", text "1.2-r3.0a1b2c3d") := by
  have revision : Revision (text "-r3") :=
    @Revision.number (text "3") ⟨by decide +kernel, by decide +kernel⟩
  have components : Components False (text ".2-r3") :=
    @Components.dot _ (text "2") _ ⟨by decide +kernel, by decide +kernel⟩ (.suffixes (.revision revision))
  have grammar : VersionGrammar False (text "1.2-r3") :=
    ⟨text "1", text ".2-r3", rfl, ⟨by decide +kernel, by decide +kernel⟩, components⟩
  have parsed := parseName_version (text "font-7.5") grammar
  exact ⟨parsed.1, parsed.2 (text "0a1b2c3d") ⟨rfl, by decide +kernel⟩⟩

end AriannaLinux.Apk
