import AriannaLinux.Apk.Io.FullReads

/-! # Reading lines

The two block streams of `io.c` that give a text piece by piece: the mapped file, which is
split in place, and the buffered stream over an input stream, which carries what is left of
its buffer over to the next read. A piece ends at a token, which is not part of it.
-/

namespace AriannaLinux.Apk

/-- The blob that a block stream gives: the NULL blob, an error in its length, or data. -/
inductive StreamBlob where
  | null
  | error (r : ℤ)
  | data (bytes : Bytes)
  deriving DecidableEq, Repr

/-- `mmap_read`: the blob, and what is left of the mapping. `APK_BSTREAM_EOF` is set when the
rest is NULL. -/
def mmapRead (token left : Option Bytes) : StreamBlob × Option Bytes :=
  let last : StreamBlob × Option Bytes :=
    match left with
    | none => (.null, none)
    | some bytes => (.data bytes, none)
  match token, left with
  | some token, some bytes =>
      match blobSplit token bytes with
      | some (l, r) => (.data l, some r)
      | none => last
  | _, _ => last

/-- `struct apk_istream_bstream`; `left` lies in the buffer. -/
structure IstreamBstream (σ : Type*) where
  is : σ
  left : StreamBlob := .data []
  size : ℕ := 0

/-- `sizeof (isbs->buffer)`. -/
def bstreamBuffer : ℕ := 8 * 1024

variable {σ : Type*} (read : ReadFunction σ)

/-- `is_bs_read`, when more data is needed: what is left moves to the front of the buffer, and
a read may fill the rest of it. -/
def isBsFill (token : Option Bytes) (isbs : IstreamBstream σ) (left : Bytes) :
    Option (StreamBlob × IstreamBstream σ) :=
  (read isbs.is (bstreamBuffer - left.length)).map fun ⟨size, stored, is⟩ =>
    let isbs := { isbs with is }
    if 0 < size then
      let left := left ++ stored
      let isbs := { isbs with size := isbs.size + size.toNat }
      match token.bind fun token => blobSplit token left with
      | some (l, r) => (.data l, { isbs with left := .data r })
      -- no token found: the full buffer is returned
      | none => (.data left, { isbs with left := .data [] })
    else if size = 0 then
      if left = [] then (.null, { isbs with left := .null })
      else (.data left, { isbs with left := .data [] })
    else (.error size, { isbs with left := .error size })

/-- `is_bs_read`. An error that was kept is an impossible blob to be split. -/
def isBsRead (token : Option Bytes) (isbs : IstreamBstream σ) :
    Option (StreamBlob × IstreamBstream σ) :=
  match isbs.left with
  | .null => some (.null, isbs)
  | .error r => if token.isSome then none else some (.error r, { isbs with left := .null })
  | .data left =>
      if left = [] then isBsFill read token isbs left
      else
        match token with
        | none => some (.data left, { isbs with left := .data [] })
        | some token =>
            match blobSplit token left with
            | some (l, r) => some (.data l, { isbs with left := .data r })
            | none => isBsFill read (some token) isbs left

/-- The blobs that repeated reads give until the NULL blob. -/
inductive Delivers {τ : Type*} (next : τ → Option (StreamBlob × τ)) : τ → List Bytes → Prop
  | ends {s s' : τ} (last : next s = some (.null, s')) : Delivers next s []
  | blob {s s' : τ} {bytes : Bytes} {blobs : List Bytes}
      (first : next s = some (.data bytes, s')) (rest : Delivers next s' blobs) :
      Delivers next s (bytes :: blobs)

/-- What is delivered is determined. -/
theorem Delivers.unique {τ : Type*} {next : τ → Option (StreamBlob × τ)} {s : τ}
    {blobs blobs' : List Bytes} (delivers : Delivers next s blobs)
    (delivers' : Delivers next s blobs') : blobs = blobs' := by
  induction delivers generalizing blobs' with
  | ends last =>
      cases delivers' with
      | ends last' => rfl
      | blob first rest =>
          rw [last] at first
          cases first
  | blob first rest ih =>
      cases delivers' with
      | ends last =>
          rw [first] at last
          cases last
      | blob first' rest' =>
          rw [first] at first'
          cases first'
          rw [ih rest']

/-- The token of the index parser. -/
def lineToken : Option Bytes := some [newline]

/-! ## The mapped file -/

/-- The tokenised reads of a mapping. -/
def mmapNext (left : Option Bytes) : Option (StreamBlob × Option Bytes) :=
  some (mmapRead lineToken left)

/-- A mapping is delivered as the pieces between its newlines. -/
theorem mmap_delivers (bytes : Bytes) : Delivers mmapNext (some bytes) (bytes.splitOn newline) := by
  have ended : Delivers mmapNext none [] :=
    .ends (show mmapNext none = some (.null, none) from rfl)
  have bounded : ∀ n (bytes : Bytes), bytes.length ≤ n →
      Delivers mmapNext (some bytes) (bytes.splitOn newline) := by
    intro n
    induction n with
    | zero =>
        intro bytes short
        rw [List.eq_nil_of_length_eq_zero (Nat.le_zero.mp short)]
        exact .blob (show mmapNext (some []) = some (.data [], none) from rfl) ended
    | succ n ih =>
        intro bytes short
        cases split_at : blobSplit [newline] bytes with
        | none =>
            rw [List.splitOn_eq_singleton (blobSplit_single_eq_none.mp split_at)]
            refine .blob ?_ ended
            simp only [mmapNext, lineToken, mmapRead, split_at]
        | some pair =>
            obtain ⟨l, r⟩ := pair
            obtain ⟨whole, free⟩ := blobSplit_single.mp split_at
            have shorter : r.length ≤ n := by
              rw [whole] at short
              simp only [List.length_append, List.length_cons] at short
              omega
            have pieces : bytes.splitOn newline = l :: r.splitOn newline := by
              rw [whole]
              exact List.splitOn_append_cons_self_of_not_mem free r
            rw [pieces]
            refine .blob ?_ (ih r shorter)
            simp only [mmapNext, lineToken, mmapRead, split_at]
  exact bounded _ _ le_rfl

/-! ## The buffered stream -/

/-- The tokenised reads of a buffered stream. -/
def isBsNext : IstreamBstream σ → Option (StreamBlob × IstreamBstream σ) := isBsRead read lineToken

/-- The pieces of a text up to its last newline, and what is behind it if it is not empty. -/
def bufferedLines (bytes : Bytes) : List Bytes :=
  if bytes = [] ∨ bytes.getLast? = some newline then (bytes.splitOn newline).dropLast
  else bytes.splitOn newline

theorem bufferedLines_append {l : Bytes} (free : newline ∉ l) (r : Bytes) :
    bufferedLines (l ++ newline :: r) = l :: bufferedLines r := by
  unfold bufferedLines
  rw [List.splitOn_append_cons_self_of_not_mem free]
  by_cases empty : r = []
  · subst empty
    simp
  · obtain ⟨last, isLast⟩ := Option.isSome_iff_exists.mp (List.getLast?_isSome.mpr empty)
    have same : (l ++ newline :: r).getLast? = some last := by
      rw [List.getLast?_append, List.getLast?_cons, isLast]
      rfl
    have more : r.splitOn newline ≠ [] := List.splitOn_ne_nil newline r
    simp only [same, isLast, empty, List.append_eq_nil_iff, reduceCtorEq, and_false, false_or]
    split
    · rw [List.dropLast_cons_of_ne_nil more]
    · rfl

theorem bufferedLines_of_free {bytes : Bytes} (nonempty : bytes ≠ []) (free : newline ∉ bytes) :
    bufferedLines bytes = [bytes] := by
  have noLast : bytes.getLast? ≠ some newline := fun last => free (List.mem_of_getLast? last)
  unfold bufferedLines
  rw [if_neg (not_or.mpr ⟨nonempty, noLast⟩), List.splitOn_eq_singleton free]

/-- What is still to be delivered: the rest of the buffer, and behind it the stream. -/
def Buffered (rest : σ → Bytes) (isbs : IstreamBstream σ) (bytes : Bytes) : Prop :=
  ∃ left, isbs.left = .data left ∧ left.length ≤ bstreamBuffer ∧ left ++ rest isbs.is = bytes

variable {read} {rest : σ → Bytes}

/-- **Filling the buffer**: behind a front without a newline it holds the first bytes of what
is to be delivered. -/
theorem isBsFill_full (full : FullReads read rest) (isbs : IstreamBstream σ) {left : Bytes}
    (inside : left.length < bstreamBuffer) (more : rest isbs.is ≠ []) :
    ∃ is size, rest is = (left ++ rest isbs.is).drop bstreamBuffer ∧
      isBsFill read lineToken isbs left =
        match blobSplit [newline] ((left ++ rest isbs.is).take bstreamBuffer) with
        | some (l, r) => some (.data l, ⟨is, .data r, size⟩)
        | none => some (.data ((left ++ rest isbs.is).take bstreamBuffer), ⟨is, .data [], size⟩) := by
  obtain ⟨is, reads, after⟩ := full isbs.is (bstreamBuffer - left.length)
  have stored : left ++ (rest isbs.is).take (bstreamBuffer - left.length) =
      (left ++ rest isbs.is).take bstreamBuffer := by
    rw [List.take_append, List.take_of_length_le inside.le]
  have positive : 0 < (((rest isbs.is).take (bstreamBuffer - left.length)).length : ℤ) := by
    have room := List.length_pos_iff.mpr more
    rw [List.length_take]
    omega
  refine ⟨is, isbs.size + ((rest isbs.is).take (bstreamBuffer - left.length)).length, ?_, ?_⟩
  · rw [after, List.drop_append, List.drop_eq_nil_of_le inside.le, List.nil_append]
  · unfold isBsFill
    rw [reads]
    simp only [Option.map_some, positive, ↓reduceIte, lineToken, Option.bind_some, stored,
      Int.toNat_natCast]
    cases blobSplit [newline] ((left ++ rest isbs.is).take bstreamBuffer) <;> rfl

/-- At the end of the stream what is left is given. -/
theorem isBsFill_end (full : FullReads read rest) (isbs : IstreamBstream σ) (left : Bytes)
    (ended : rest isbs.is = []) :
    ∃ is, rest is = [] ∧ isBsFill read lineToken isbs left =
      if left = [] then some (.null, ⟨is, .null, isbs.size⟩)
      else some (.data left, ⟨is, .data [], isbs.size⟩) := by
  obtain ⟨is, reads, after⟩ := full isbs.is (bstreamBuffer - left.length)
  rw [ended, List.take_nil] at reads
  refine ⟨is, by rw [after, ended, List.drop_nil], ?_⟩
  unfold isBsFill
  rw [reads]
  simp only [Option.map_some, List.length_nil, Nat.cast_zero, lt_self_iff_false, ↓reduceIte]
  split <;> rfl

/-- A buffer without a newline is filled. -/
theorem isBsNext_fill {isbs : IstreamBstream σ} {left : Bytes} (state : isbs.left = .data left)
    (free : newline ∉ left) : isBsNext read isbs = isBsFill read lineToken isbs left := by
  have split_left : blobSplit [newline] left = none := blobSplit_single_eq_none.mpr free
  unfold isBsNext isBsRead
  rw [state]
  dsimp only
  split
  · rfl
  · simp only [lineToken, split_left]

/-- **A line and its newline** are delivered as one blob. -/
theorem isBsNext_line (full : FullReads read rest) {isbs : IstreamBstream σ} {l r : Bytes}
    (buffered : Buffered rest isbs (l ++ newline :: r)) (free : newline ∉ l)
    (short : l.length < bstreamBuffer) :
    ∃ next, isBsNext read isbs = some (.data l, next) ∧ Buffered rest next r := by
  obtain ⟨left, state, inside, whole⟩ := buffered
  have split_whole : blobSplit [newline] (l ++ newline :: r) = some (l, r) :=
    blobSplit_single.mpr ⟨rfl, free⟩
  cases split_left : blobSplit [newline] left with
  | some pair =>
      obtain ⟨a, b⟩ := pair
      obtain ⟨shape, aFree⟩ := blobSplit_single.mp split_left
      have again : blobSplit [newline] (l ++ newline :: r) = some (a, b ++ rest isbs.is) :=
        blobSplit_single.mpr ⟨by rw [← whole, shape]; simp, aFree⟩
      rw [split_whole] at again
      cases again
      have nonempty : left ≠ [] := by
        rw [shape]
        simp
      refine ⟨{ isbs with left := .data b }, ?_, ⟨b, rfl, ?_, rfl⟩⟩
      · simp only [isBsNext, isBsRead, state, nonempty, ↓reduceIte, lineToken, split_left]
      · rw [shape] at inside
        simp only [List.length_append, List.length_cons] at inside
        omega
  | none =>
      have leftFree := blobSplit_single_eq_none.mp split_left
      have front : left.length ≤ l.length := by
        rcases List.append_eq_append_iff.mp whole with ⟨more, shape, _⟩ | ⟨more, shape, behind⟩
        · rw [shape, List.length_append]
          exact Nat.le_add_right ..
        · cases more with
          | nil => simp [shape]
          | cons c more =>
              cases (List.cons.inj behind).1
              exact absurd (shape ▸ by simp) leftFree
      have more : rest isbs.is ≠ [] := by
        intro ended
        rw [ended, List.append_nil] at whole
        exact leftFree (whole ▸ by simp)
      obtain ⟨is, size, after, fills⟩ := isBsFill_full full isbs (front.trans_lt short) more
      have room : l.length + 1 ≤ bstreamBuffer := short
      have taken : (l ++ newline :: r).take bstreamBuffer =
          l ++ newline :: r.take (bstreamBuffer - (l.length + 1)) := by
        rw [List.take_append, List.take_of_length_le short.le,
          show bstreamBuffer - l.length = bstreamBuffer - (l.length + 1) + 1 by omega,
          List.take_succ_cons]
      have dropped : (l ++ newline :: r).drop bstreamBuffer =
          r.drop (bstreamBuffer - (l.length + 1)) := by
        rw [List.drop_append, List.drop_eq_nil_of_le short.le,
          show bstreamBuffer - l.length = bstreamBuffer - (l.length + 1) + 1 by omega,
          List.drop_succ_cons, List.nil_append]
      rw [whole, taken, blobSplit_single.mpr ⟨rfl, free⟩] at fills
      rw [whole, dropped] at after
      refine ⟨_, (isBsNext_fill state leftFree).trans fills, ⟨_, rfl, ?_, ?_⟩⟩
      · rw [List.length_take]
        omega
      · rw [after, List.take_append_drop]

/-- **A last line without a newline** is delivered whole, and then the end. -/
theorem isBsNext_last (full : FullReads read rest) {isbs : IstreamBstream σ} {bytes : Bytes}
    (buffered : Buffered rest isbs bytes) (free : newline ∉ bytes) (nonempty : bytes ≠ [])
    (short : bytes.length < bstreamBuffer) :
    ∃ next, isBsNext read isbs = some (.data bytes, next) ∧ Buffered rest next [] := by
  obtain ⟨left, state, inside, rfl⟩ := buffered
  have leftFree : newline ∉ left := fun member => free (List.mem_append_left _ member)
  rw [isBsNext_fill state leftFree]
  by_cases ended : rest isbs.is = []
  · obtain ⟨is, after, gives⟩ := isBsFill_end full isbs left ended
    rw [ended, List.append_nil] at nonempty ⊢
    rw [if_neg nonempty] at gives
    exact ⟨_, gives, ⟨[], rfl, Nat.zero_le _, after⟩⟩
  · have front : left.length < bstreamBuffer := by
      rw [List.length_append] at short
      omega
    obtain ⟨is, size, after, fills⟩ := isBsFill_full full isbs front ended
    rw [List.take_of_length_le short.le, blobSplit_single_eq_none.mpr free] at fills
    rw [List.drop_eq_nil_of_le short.le] at after
    exact ⟨_, fills, ⟨[], rfl, Nat.zero_le _, after⟩⟩

/-- At the end the NULL blob is delivered. -/
theorem isBsNext_end (full : FullReads read rest) {isbs : IstreamBstream σ}
    (buffered : Buffered rest isbs []) : ∃ next, isBsNext read isbs = some (.null, next) := by
  obtain ⟨left, state, _, whole⟩ := buffered
  obtain ⟨rfl, ended⟩ := List.append_eq_nil_iff.mp whole
  obtain ⟨is, _, gives⟩ := isBsFill_end full isbs [] ended
  exact ⟨_, (isBsNext_fill state List.not_mem_nil).trans gives⟩

/-- A buffered stream whose lines fit into the buffer delivers them. -/
theorem isBs_delivers (full : FullReads read rest) {n : ℕ} :
    ∀ {bytes : Bytes} {isbs : IstreamBstream σ}, bytes.length ≤ n → Buffered rest isbs bytes →
      (∀ line ∈ bytes.splitOn newline, line.length < bstreamBuffer) →
      Delivers (isBsNext read) isbs (bufferedLines bytes) := by
  have empty : ∀ {isbs : IstreamBstream σ}, Buffered rest isbs [] →
      Delivers (isBsNext read) isbs [] := by
    intro isbs buffered
    obtain ⟨next, last⟩ := isBsNext_end full buffered
    exact .ends last
  induction n with
  | zero =>
      intro bytes isbs bounded buffered _
      have none : bytes = [] := List.eq_nil_of_length_eq_zero (Nat.le_zero.mp bounded)
      subst none
      exact empty buffered
  | succ n ih =>
      intro bytes isbs bounded buffered short
      by_cases none : bytes = []
      · subst none
        exact empty buffered
      cases split_at : blobSplit [newline] bytes with
      | none =>
          have free := blobSplit_single_eq_none.mp split_at
          rw [bufferedLines_of_free none free]
          rw [List.splitOn_eq_singleton free] at short
          obtain ⟨next, gives, after⟩ :=
            isBsNext_last full buffered free none (short bytes List.mem_cons_self)
          exact .blob gives (empty after)
      | some pair =>
          obtain ⟨l, r⟩ := pair
          obtain ⟨rfl, free⟩ := blobSplit_single.mp split_at
          rw [List.splitOn_append_cons_self_of_not_mem free] at short
          obtain ⟨next, gives, after⟩ :=
            isBsNext_line full buffered free (short l List.mem_cons_self)
          rw [bufferedLines_append free]
          refine .blob gives (ih ?_ after fun line member => short line (by simp [member]))
          simp only [List.length_append, List.length_cons] at bounded
          omega

/-- **The two line readers.** On a text that is not empty and whose lines fit into the
buffer they deliver the same blobs exactly if the text does not end with a newline. -/
theorem lineReaders_agree_iff (full : FullReads read rest) (is : σ) (nonempty : rest is ≠ [])
    (short : ∀ line ∈ (rest is).splitOn newline, line.length < bstreamBuffer) :
    ∃ mapped buffered, Delivers mmapNext (some (rest is)) mapped ∧
      Delivers (isBsNext read) { is } buffered ∧
      (mapped = buffered ↔ (rest is).getLast? ≠ some newline) := by
  refine ⟨_, _, mmap_delivers (rest is), isBs_delivers full le_rfl ?_ short, ?_⟩
  · exact ⟨[], rfl, Nat.zero_le _, rfl⟩
  · unfold bufferedLines
    by_cases last : (rest is).getLast? = some newline
    · rw [if_pos (.inr last)]
      have pieces : (rest is).splitOn newline ≠ [] := List.splitOn_ne_nil newline (rest is)
      have shorter : ((rest is).splitOn newline).length ≠
          ((rest is).splitOn newline).dropLast.length := by
        have positive := List.length_pos_iff.mpr pieces
        rw [List.length_dropLast]
        omega
      exact iff_of_false (fun same => shorter (congrArg _ same)) (not_not.mpr last)
    · rw [if_neg (not_or.mpr ⟨nonempty, last⟩)]
      exact iff_of_true rfl last

/-- A line without a newline is the same in both. -/
theorem lineReaders_agree_bare :
    ∃ mapped buffered, Delivers mmapNext (some (text "P:a")) mapped ∧
      Delivers (isBsNext readBytes) ⟨text "P:a", .data [], 0⟩ buffered ∧
      (mapped = buffered ↔ (text "P:a").getLast? ≠ some newline) :=
  lineReaders_agree_iff readBytes_full (text "P:a") (by decide) (by decide)

/-- Behind the newline of the only line, the mapping gives an empty blob more. -/
theorem lineReaders_differ_newline :
    ¬ ∃ blobs, Delivers mmapNext (some (text "P:a" ++ [newline])) blobs ∧
      Delivers (isBsNext readBytes) ⟨text "P:a" ++ [newline], .data [], 0⟩ blobs := by
  rintro ⟨blobs, mapped, buffered⟩
  have first : Delivers mmapNext (some (text "P:a" ++ [newline])) [text "P:a", []] :=
    mmap_delivers _
  have second : Delivers (isBsNext readBytes) ⟨text "P:a" ++ [newline], .data [], 0⟩ [text "P:a"] :=
    isBs_delivers readBytes_full le_rfl ⟨[], rfl, by decide, rfl⟩ (by decide)
  have same : [text "P:a", []] = [text "P:a"] :=
    (first.unique mapped).trans (second.unique buffered).symm
  cases same

end AriannaLinux.Apk
