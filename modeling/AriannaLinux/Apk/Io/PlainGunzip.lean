import AriannaLinux.Apk.Io.GunzipHash

/-! # Decompression without a callback

`apk_bstream_gunzip` makes a gzip stream that has no callback. Members are inflated one after
the other whatever blocks they come in. Where the last member ends, though, a block stream that
has raised its flag for the end has the callback called without a test, so such a stream is read
to its end exactly when there is no member in it (`delivers_iff`).
-/

namespace AriannaLinux.Apk

/-! ## Members and their contents -/

section Members

variable {zlib : Zlib}

/-- Calls of `inflate` that begin with a member and do not come to its end: what they took, and
what they gave. -/
inductive Calls (zlib : Zlib) : Bytes → Bytes → zlib.State → Prop
  | start : Calls zlib [] [] zlib.start
  | call {taken given : Bytes} {state : zlib.State} {input : Bytes} {room : ℕ}
      (earlier : Calls zlib taken given state)
      (status : (zlib.inflate state input room).status = .ok) :
      Calls zlib (taken ++ input.take (zlib.inflate state input room).consumed)
        (given ++ (zlib.inflate state input room).output) (zlib.inflate state input room).state

/-- In the middle of a member, or in front of it, its next bytes are offered with some room;
anything may stand behind the member. -/
structure Offered (zlib : Zlib) (member taken given : Bytes) (state : zlib.State)
    (input : Bytes) (room : ℕ) : Prop where
  calls : Calls zlib taken given state
  inside : taken <+: member
  unfinished : taken ≠ member
  next : ∃ behind, taken ++ input <+: member ++ behind
  nonempty : input ≠ []
  space : 0 < room

/-- `inflate` on a member, in whatever pieces and with whatever room: there is no error, what is
given is the content, and the end is told of when the member is taken and the content given. -/
structure MemberContent (zlib : Zlib) (member content : Bytes) : Prop where
  nonempty : member ≠ []
  accepts : ∀ {taken given state input room},
    Offered zlib member taken given state input room →
      (zlib.inflate state input room).status ≠ .error
  goesOn : ∀ {taken given state input room},
    Offered zlib member taken given state input room →
      (zlib.inflate state input room).status = .ok →
        taken ++ input.take (zlib.inflate state input room).consumed <+: member ∧
          taken ++ input.take (zlib.inflate state input room).consumed ≠ member ∧
          given ++ (zlib.inflate state input room).output <+: content
  ends : ∀ {taken given state input room},
    Offered zlib member taken given state input room →
      (zlib.inflate state input room).status = .streamEnd →
        taken ++ input.take (zlib.inflate state input room).consumed = member ∧
          given ++ (zlib.inflate state input room).output = content

/-- The decompressor awaits the input, and has to give the rest: it is in front of a member or
in the middle of it. -/
structure Awaits (zlib : Zlib) (state : zlib.State) (input rest : Bytes) : Prop where
  stands : ∃ taken given members contents, Calls zlib taken given state ∧
    List.Forall₂ (MemberContent zlib) members contents ∧
    taken ++ input = members.flatten ∧ given ++ rest = contents.flatten ∧
    ∀ member ∈ members.head?, taken <+: member ∧ taken ≠ member

/-- In front of the first member. -/
theorem Awaits.start {members contents : List Bytes}
    (decodes : List.Forall₂ (MemberContent zlib) members contents) :
    Awaits zlib zlib.start members.flatten contents.flatten := by
  refine ⟨[], [], members, contents, .start, decodes, rfl, rfl, fun member first => ?_⟩
  cases decodes with
  | nil => cases first
  | cons decodes _ =>
      cases first
      exact ⟨List.nil_prefix, decodes.nonempty.symm⟩

/-- Without input nothing is left to give. -/
theorem Awaits.rest_nil {state : zlib.State} {rest : Bytes} (awaits : Awaits zlib state [] rest) :
    rest = [] := by
  obtain ⟨taken, given, members, contents, -, decodes, input, output, inside⟩ := awaits.stands
  cases decodes with
  | nil => exact (List.append_eq_nil_iff.mp output).2
  | @cons member content members contents =>
      obtain ⟨front, unfinished⟩ := inside member rfl
      rw [List.append_nil, List.flatten_cons] at input
      have back : member <+: taken := ⟨members.flatten, input.symm⟩
      exact absurd (front.eq_of_length (Nat.le_antisymm front.length_le back.length_le)) unfinished

/-- **One call of `inflate`**: it does not fail, it gives a part of the rest, and the next bytes
are awaited; at the end of a member, by a decompressor that starts afresh. Bytes are left unless a
member has ended. -/
theorem Awaits.inflate {state : zlib.State} {input behind rest : Bytes} {room : ℕ}
    (awaits : Awaits zlib state (input ++ behind) rest) (nonempty : input ≠ []) (space : 0 < room) :
    ∃ rest', rest = (zlib.inflate state input room).output ++ rest' ∧
      (zlib.inflate state input room).status ≠ .error ∧
      ((zlib.inflate state input room).status = .ok →
        input.drop (zlib.inflate state input room).consumed ++ behind ≠ [] ∧
        Awaits zlib (zlib.inflate state input room).state
          (input.drop (zlib.inflate state input room).consumed ++ behind) rest') ∧
      ((zlib.inflate state input room).status = .streamEnd →
        Awaits zlib zlib.start
          (input.drop (zlib.inflate state input room).consumed ++ behind) rest') := by
  obtain ⟨taken, given, members, contents, calls, decodes, whole, output, inside⟩ := awaits.stands
  cases decodes with
  | nil =>
      have none_left := (List.append_eq_nil_iff.mp whole).2
      exact absurd (List.append_eq_nil_iff.mp none_left).1 nonempty
  | @cons member content members contents decodes others =>
      obtain ⟨front, unfinished⟩ := inside member rfl
      have offered : Offered zlib member taken given state input room :=
        ⟨calls, front, unfinished,
          ⟨members.flatten, behind, by rw [List.append_assoc, whole, List.flatten_cons]⟩,
          nonempty, space⟩
      rw [List.flatten_cons] at whole output
      generalize called : zlib.inflate state input room = out at *
      -- the input is what is taken and what is left
      have split : taken ++ input.take out.consumed ++ (input.drop out.consumed ++ behind) =
          member ++ members.flatten := by
        rw [List.append_assoc, ← List.append_assoc (input.take _), List.take_append_drop, whole]
      cases status : out.status with
      | error => exact absurd (called ▸ status) (decodes.accepts offered)
      | ok =>
          obtain ⟨inside', unfinished', part⟩ := decodes.goesOn offered (called ▸ status)
          rw [called] at inside' unfinished' part
          obtain ⟨left, content_eq⟩ := part
          have rest_eq : rest = out.output ++ (left ++ contents.flatten) := by
            rw [← content_eq] at output
            simpa only [List.append_assoc, List.append_cancel_left_eq] using output
          refine ⟨_, rest_eq, by simp, fun _ => ⟨fun empty => ?_, ?_⟩, by simp⟩
          · rw [empty, List.append_nil] at split
            have back : member <+: taken ++ input.take out.consumed := ⟨_, split.symm⟩
            exact unfinished' (inside'.eq_of_length
              (Nat.le_antisymm inside'.length_le back.length_le))
          · have next := calls.call (called ▸ status)
            rw [called] at next
            refine ⟨_, _, member :: members, content :: contents, next, .cons decodes others, ?_, ?_,
              ?_⟩
            · rw [split, List.flatten_cons]
            · rw [List.flatten_cons, ← content_eq]
              simp only [List.append_assoc]
            · rintro _ ⟨⟩
              exact ⟨inside', unfinished'⟩
      | streamEnd =>
          obtain ⟨taken_eq, given_eq⟩ := decodes.ends offered (called ▸ status)
          rw [called] at taken_eq given_eq
          rw [taken_eq, List.append_cancel_left_eq] at split
          have rest_eq : rest = out.output ++ contents.flatten := by
            rw [← given_eq] at output
            simpa only [List.append_assoc, List.append_cancel_left_eq] using output
          refine ⟨_, rest_eq, by simp, by simp, fun _ => ?_⟩
          rw [split]
          exact .start others

end Members

/-! ## What reading delivers -/

/-- Reads of some size, each of which brings something: all that they bring, and where they
end. -/
inductive ReadsOn {τ : Type*} (read : ReadFunction τ) : τ → Bytes → τ → Prop
  | start (s : τ) : ReadsOn read s [] s
  | next {first s : τ} {bytes : Bytes} {out : Read τ} (earlier : ReadsOn read first bytes s)
      (size : ℕ) (positive : 0 < size) (reads : read s size = some out)
      (brings : 0 < out.result) : ReadsOn read first (bytes ++ out.stored) out.state

/-- Reading delivers a content: after whatever reads, the next one returns; it brings some more of
the content, or it is 0 or an error, and then the content was complete. -/
def DeliversContent {τ : Type*} (read : ReadFunction τ) (first : τ) (content : Bytes) : Prop :=
  ∀ bytes s, ReadsOn read first bytes s → ∀ size, 0 < size →
    ∃ out, read s size = some out ∧
      ((0 < out.result ∧ out.stored ≠ [] ∧ bytes ++ out.stored <+: content) ∨
        (out.result ≤ 0 ∧ bytes = content))

namespace Bstream

/-- Blocks that are not empty; an error may follow them. -/
def Delivers : Bstream → Prop
  | mmap _ => True
  | reads chunks _ => [] ∉ chunks
  | flagged chunks raised => [] ∉ chunks ∧ (raised = true → chunks = [])

/-- The stream never raises `APK_BSTREAM_EOF`. -/
def Silent : Bstream → Prop
  | reads _ _ => True
  | _ => False

/-- At the end the flag is raised. -/
def Raises (bs : Bstream) : Prop := bs.rest = [] → bs.eof = true

theorem Silent.eof {bs : Bstream} (silent : bs.Silent) : bs.eof = false := by
  cases bs with
  | reads chunks error => rfl
  | mmap left => cases silent
  | flagged chunks raised => cases silent

theorem Silent.read {bs : Bstream} (silent : bs.Silent) : bs.read.2.2.Silent := by
  match bs with
  | reads [] error => trivial
  | reads (chunk :: chunks) error => trivial

/-- A block, an error behind everything, or the end. -/
theorem Delivers.read {bs : Bstream} (delivers : bs.Delivers) :
    bs.rest = bs.read.2.1 ++ bs.read.2.2.rest ∧ bs.read.2.2.Delivers ∧
      (bs.read.1 < 0 ∨ bs.read.2.1 = [] → bs.rest = []) := by
  match bs with
  | mmap left =>
      refine ⟨(List.append_nil _).symm, trivial, ?_⟩
      rintro (negative | empty)
      · exact absurd negative (Int.natCast_nonneg _).not_gt
      · exact empty
  | reads [] error => simp [Bstream.read, rest, Delivers]
  | reads (chunk :: chunks) error =>
      simp only [Delivers, List.mem_cons, not_or] at delivers
      refine ⟨rfl, delivers.2, ?_⟩
      rintro (negative | empty)
      · exact absurd negative (Int.natCast_nonneg _).not_gt
      · exact absurd empty.symm delivers.1
  | flagged [] raised => simp [Bstream.read, rest, Delivers]
  | flagged (chunk :: chunks) raised =>
      simp only [Delivers, List.mem_cons, not_or] at delivers
      refine ⟨rfl, ⟨delivers.1.2, List.isEmpty_iff.mp⟩, ?_⟩
      rintro (negative | empty)
      · exact absurd negative (Int.natCast_nonneg _).not_gt
      · exact absurd empty.symm delivers.1.1

/-- A stream that has not ended raises its flag with its last block. -/
theorem Raises.of_rest {bs : Bstream} (more : bs.rest ≠ []) : bs.Raises :=
  fun ended => absurd ended more

theorem Delivers.raises_read {bs : Bstream} (delivers : bs.Delivers) (loud : ¬ bs.Silent)
    (more : bs.rest ≠ []) : bs.read.2.2.Raises ∧ ¬ bs.read.2.2.Silent := by
  match bs with
  | mmap left => exact ⟨fun _ => rfl, id⟩
  | reads chunks error => exact absurd trivial loud
  | flagged [] raised => exact absurd rfl more
  | flagged (chunk :: chunks) raised =>
      refine ⟨fun ended => ?_, id⟩
      simp only [Delivers, List.mem_cons, not_or] at delivers
      cases chunks with
      | nil => rfl
      | cons next chunks =>
          have empty : next = [] := List.append_eq_nil_iff.mp ended |>.1
          exact absurd (by simp [empty]) delivers.1.2

end Bstream

namespace Gzip

variable {zlib : Zlib} {gis : Gzip zlib Unit} {rest : Bytes} {room : ℕ}

/-- The compressed bytes that are not taken yet. -/
def input (gis : Gzip zlib Unit) : Bytes := gis.availIn ++ gis.bs.rest

/-- A stream without a callback goes on, and has to deliver the rest. -/
structure Goes (gis : Gzip zlib Unit) (rest : Bytes) : Prop where
  clear : gis.err = 0
  nothing : gis.cbarg = none
  delivers : gis.bs.Delivers
  awaits : Awaits zlib gis.zs gis.input rest

/-- Only a boundary that was put off is a call. -/
theorem Goes.postponed (goes : gis.Goes rest) : gis.postponed none = some gis := by
  unfold Gzip.postponed
  rw [goes.nothing]

/-- **The next block** keeps the input, or the input is at its end. -/
theorem Goes.refill (goes : gis.Goes rest) :
    ((gis.refill none).Goes rest ∧ (gis.refill none).availIn ≠ [] ∧
        (gis.refill none).input = gis.input ∧
        ((gis.refill none).bs = gis.bs ∨ gis.bs.rest ≠ [] ∧
          (gis.refill none).bs = gis.bs.read.2.2)) ∨
      ((gis.refill none).err ≠ 0 ∧ gis.input = []) := by
  obtain ⟨whole, delivers, ended⟩ := goes.delivers.read
  by_cases used : gis.availIn = []
  · have here : gis.input = gis.bs.rest := by rw [input, used, List.nil_append]
    by_cases failed : gis.bs.read.1 < 0
    · refine .inr ⟨?_, here.trans (ended (.inl failed))⟩
      simp only [Gzip.refill, digestBlock, used, failed, ne_eq, not_true_eq_false, ↓reduceIte]
      exact failed.ne
    by_cases empty : gis.bs.read.2.1 = []
    · refine .inr ⟨?_, here.trans (ended (.inr empty))⟩
      simp only [Gzip.refill, digestBlock, used, failed, empty, ne_eq, not_true_eq_false, ↓reduceIte]
      exact one_ne_zero
    · have filled : gis.refill none =
          { gis with bs := gis.bs.read.2.2, cbprev := [], availIn := gis.bs.read.2.1 } := by
        simp only [Gzip.refill, digestBlock, used, failed, empty, ne_eq, not_true_eq_false, ↓reduceIte]
      have more : gis.bs.rest ≠ [] := by
        rw [whole]
        exact fun nothing => empty (List.append_eq_nil_iff.mp nothing).1
      have same : gis.bs.read.2.1 ++ gis.bs.read.2.2.rest = gis.input := by rw [here, whole]
      have awaits : Awaits zlib gis.zs (gis.bs.read.2.1 ++ gis.bs.read.2.2.rest) rest := by
        rw [same]
        exact goes.awaits
      rw [filled]
      exact .inl ⟨⟨goes.clear, goes.nothing, delivers, awaits⟩, empty, same, .inr ⟨more, rfl⟩⟩
  · have filled : gis.refill none = gis := if_pos used
    rw [filled]
    exact .inl ⟨goes, used, rfl, .inl rfl⟩

/-- **One call of `inflate`** goes on with the rest; where the last member ends and the flag is
raised, the callback that is not there is called. -/
theorem Goes.inflateBlock (goes : gis.Goes rest) (more : gis.availIn ≠ []) (space : 0 < room) :
    (gis.inflateBlock none room = none ∧ gis.bs.eof = true) ∨
      ∃ output gis' rest', gis.inflateBlock none room = some (output, gis') ∧
        rest = output ++ rest' ∧ gis'.Goes rest' ∧ gis'.bs = gis.bs ∧
        (gis.bs.eof = true → gis.bs.rest = [] → gis'.input ≠ []) := by
  obtain ⟨rest', split, accepts, goesOn, ends⟩ := goes.awaits.inflate more space
  unfold Gzip.inflateBlock
  generalize zlib.inflate gis.zs gis.availIn room = out at *
  dsimp only
  cases status : out.status with
  | error => exact absurd status accepts
  | ok =>
      obtain ⟨left, awaits⟩ := goesOn status
      refine .inr ⟨_, _, rest', rfl, split, ⟨goes.clear, goes.nothing, goes.delivers, ?_⟩, rfl,
        fun _ _ => ?_⟩
      · exact awaits
      · exact left
  | streamEnd =>
      simp only [Option.isSome_none, Bool.false_eq_true, ↓reduceIte, Option.map_none]
      by_cases last : gis.bs.eof = true ∧ gis.availIn.drop out.consumed = []
      · rw [if_pos last]
        exact .inl ⟨rfl, last.1⟩
      · rw [if_neg last]
        refine .inr ⟨_, _, rest', rfl, split, ⟨goes.clear, goes.nothing, goes.delivers, ?_⟩, rfl,
          fun eof _ empty => ?_⟩
        · exact ends status
        · exact last ⟨eof, (List.append_eq_nil_iff.mp empty).1⟩

/-! ### Streams that do not raise the flag -/

/-- The rest is still to be delivered, and nothing is called; or it was delivered. -/
def Delivering (gis : Gzip zlib Unit) (rest : Bytes) : Prop :=
  (gis.Goes rest ∧ (gis.bs.Silent ∨ gis.input = [])) ∨ (gis.err ≠ 0 ∧ rest = [])

theorem readLoop_delivering {fuel : ℕ} {stored : Bytes} (goes : gis.Goes rest)
    (quiet : gis.bs.Silent ∨ gis.input = []) (enough : gis.rounds room < fuel) :
    ∃ new gis' rest', readLoop none fuel gis room stored = some (stored ++ new, gis') ∧
      rest = new ++ rest' ∧ gis'.Delivering rest' := by
  induction fuel generalizing gis rest room stored with
  | zero => exact absurd enough (Nat.not_lt_zero _)
  | succ fuel ih =>
      rw [readLoop]
      by_cases full : room = 0
      · rw [if_pos (.inl full)]
        exact ⟨[], gis, rest, by rw [List.append_nil], rfl, .inl ⟨goes, quiet⟩⟩
      rw [if_neg (not_or.mpr ⟨full, not_not.mpr goes.clear⟩), goes.postponed, Option.bind_some,
        if_neg (not_not.mpr goes.clear)]
      dsimp only
      rcases goes.refill with ⟨filled, more, same, blocks⟩ | ⟨ended, nothing⟩
      · have silent : (gis.refill none).bs.Silent := by
          rcases quiet with silent | nothing
          · rcases blocks with kept | ⟨-, next⟩
            · rwa [kept]
            · rw [next]
              exact silent.read
          · rw [← same] at nothing
            exact absurd (List.append_eq_nil_iff.mp nothing).1 more
        have space : 0 < room := Nat.pos_of_ne_zero full
        rw [if_neg (not_not.mpr filled.clear)]
        rcases filled.inflateBlock more space with ⟨-, eof⟩ | ⟨output, next, left, inflated, split,
          goes', kept, -⟩
        · rw [silent.eof] at eof
          cases eof
        · rw [inflated, Option.bind_some]
          dsimp only
          have less := (inflateBlock_rounds more space inflated).resolve_left
            (not_not.mpr goes'.clear)
          have refilled := refill_rounds none gis room
          obtain ⟨new, gis', rest', looped, split', delivering⟩ :=
            @ih next left (room - output.length) (stored ++ output) goes'
              (.inl (kept ▸ silent)) (by omega)
          refine ⟨output ++ new, gis', rest', ?_, ?_, delivering⟩
          · rw [looped, List.append_assoc]
          · rw [split, split', List.append_assoc]
      · rw [if_pos ended]
        have awaits := goes.awaits
        rw [nothing] at awaits
        exact ⟨[], _, rest, by rw [List.append_nil], rfl, .inr ⟨ended, awaits.rest_nil⟩⟩

/-- **One read** of such a stream. -/
theorem Delivering.read {size : ℕ} (delivering : gis.Delivering rest) (positive : 0 < size) :
    ∃ out, Gzip.read none gis size = some out ∧
      ((0 < out.result ∧ out.stored ≠ [] ∧ ∃ rest', rest = out.stored ++ rest' ∧
          out.state.Delivering rest') ∨
        (out.result ≤ 0 ∧ rest = [])) := by
  unfold Gzip.read
  rcases delivering with ⟨goes, quiet⟩ | ⟨ended, rfl⟩
  · rw [if_neg (not_not.mpr goes.clear)]
    obtain ⟨new, gis', rest', looped, split, delivering⟩ :=
      @readLoop_delivering _ _ _ size _ [] goes quiet (Nat.lt_succ_self _)
    rw [List.nil_append] at looped
    rw [looped]
    refine ⟨_, rfl, ?_⟩
    dsimp only
    by_cases nothing : new = []
    · subst nothing
      have ended := readLoop_nothing positive looped
      have delivered : rest' = [] := by
        rcases delivering with ⟨goes', -⟩ | ⟨-, delivered⟩
        · exact absurd goes'.clear ended
        · exact delivered
      rw [if_pos rfl]
      refine .inr ⟨?_, by rw [split, delivered, List.append_nil]⟩
      split <;> omega
    · rw [if_neg nothing]
      exact .inl ⟨Int.natCast_pos.mpr (List.length_pos_iff.mpr nothing), nothing, rest', split,
        delivering⟩
  · rw [if_pos ended]
    refine ⟨_, rfl, .inr ⟨?_, rfl⟩⟩
    dsimp only
    split <;> omega

/-- **A whole run** of reads. -/
theorem Delivering.readsOn {bytes : Bytes} {s : Gzip zlib Unit} (delivering : gis.Delivering rest)
    (run : ReadsOn (Gzip.read none) gis bytes s) :
    ∃ left, rest = bytes ++ left ∧ s.Delivering left := by
  induction run with
  | start => exact ⟨rest, rfl, delivering⟩
  | @next s bytes out earlier size positive reads brings ih =>
      obtain ⟨left, split, still⟩ := ih
      obtain ⟨out', reads', ⟨-, -, left', split', still'⟩ | ⟨nothing, -⟩⟩ := still.read positive
      · cases reads.symm.trans reads'
        exact ⟨left', by rw [split, split', List.append_assoc], still'⟩
      · cases reads.symm.trans reads'
        exact absurd brings nothing.not_gt

theorem Delivering.delivers (delivering : gis.Delivering rest) :
    DeliversContent (Gzip.read none) gis rest := by
  intro bytes s run size positive
  obtain ⟨left, rfl, still⟩ := delivering.readsOn run
  obtain ⟨out, reads, ⟨brings, new, left', rfl, -⟩ | ⟨nothing, rfl⟩⟩ := still.read positive
  · refine ⟨out, reads, .inl ⟨brings, new, ?_⟩⟩
    rw [← List.append_assoc]
    exact List.prefix_append _ _
  · exact ⟨out, reads, .inr ⟨nothing, (List.append_nil _).symm⟩⟩

/-! ### Streams that raise the flag -/

/-- A stream with input left that raises the flag at its end. -/
structure Raising (gis : Gzip zlib Unit) (rest : Bytes) : Prop where
  goes : gis.Goes rest
  loud : ¬ gis.bs.Silent
  raises : gis.bs.Raises
  more : gis.input ≠ []

/-- Such a loop that returns has not come to the end. -/
theorem Raising.readLoop {fuel : ℕ} {stored stored' : Bytes} {gis' : Gzip zlib Unit}
    (raising : gis.Raising rest)
    (looped : Gzip.readLoop none fuel gis room stored = some (stored', gis')) :
    ∃ new rest', stored' = stored ++ new ∧ rest = new ++ rest' ∧ gis'.Raising rest' := by
  induction fuel generalizing gis rest room stored with
  | zero => cases looped
  | succ fuel ih =>
      obtain ⟨goes, loud, raises, more⟩ := raising
      rw [Gzip.readLoop] at looped
      by_cases full : room = 0
      · rw [if_pos (.inl full)] at looped
        cases looped
        exact ⟨[], rest, by rw [List.append_nil], rfl, goes, loud, raises, more⟩
      rw [if_neg (not_or.mpr ⟨full, not_not.mpr goes.clear⟩), goes.postponed, Option.bind_some,
        if_neg (not_not.mpr goes.clear)] at looped
      dsimp only at looped
      rcases goes.refill with ⟨filled, some_in, same, blocks⟩ | ⟨-, nothing⟩
      · have kind : (gis.refill none).bs.Raises ∧ ¬ (gis.refill none).bs.Silent := by
          rcases blocks with kept | ⟨behind, next⟩
          · rw [kept]
            exact ⟨raises, loud⟩
          · rw [next]
            exact goes.delivers.raises_read loud behind
        rw [if_neg (not_not.mpr filled.clear)] at looped
        rcases filled.inflateBlock some_in (Nat.pos_of_ne_zero full) with ⟨crashes, -⟩ |
          ⟨output, next, left, inflated, split, goes', kept, goesOn⟩
        · rw [crashes] at looped
          cases looped
        · rw [inflated, Option.bind_some] at looped
          have more' : next.input ≠ [] := by
            intro empty
            have behind : (gis.refill none).bs.rest = [] := by
              rw [← kept]
              exact (List.append_eq_nil_iff.mp empty).2
            exact goesOn (kind.1 behind) behind empty
          have raising' : next.Raising left := ⟨goes', kept ▸ kind.2, kept ▸ kind.1, more'⟩
          obtain ⟨new, rest', rfl, rfl, last⟩ := ih raising' looped
          exact ⟨output ++ new, rest', by rw [List.append_assoc], by rw [split, List.append_assoc],
            last⟩
      · exact absurd nothing more

/-- A read of it that returns brings something, and leaves some input. -/
theorem Raising.read {size : ℕ} {out : Read (Gzip zlib Unit)} (raising : gis.Raising rest)
    (positive : 0 < size) (reads : Gzip.read none gis size = some out) :
    0 < out.result ∧ out.stored ≠ [] ∧ ∃ rest', rest = out.stored ++ rest' ∧
      out.state.Raising rest' := by
  unfold Gzip.read at reads
  rw [if_neg (not_not.mpr raising.goes.clear)] at reads
  obtain ⟨⟨stored, gis'⟩, looped, rfl⟩ := Option.map_eq_some_iff.mp reads
  obtain ⟨new, rest', same, split, raising'⟩ := raising.readLoop looped
  rw [List.nil_append] at same
  have brings : new ≠ [] := by
    rintro rfl
    rw [same] at looped
    exact readLoop_nothing positive looped raising'.goes.clear
  dsimp only
  rw [same, if_neg brings]
  exact ⟨Int.natCast_pos.mpr (List.length_pos_iff.mpr brings), brings, rest', split, raising'⟩

/-- **Such a stream is not read to its end**: some read calls what is not there. -/
theorem Raising.not_delivers (raising : gis.Raising rest) (content : Bytes) :
    ¬ DeliversContent (Gzip.read none) gis content := by
  intro delivers
  have run : ∀ (n : ℕ) {bytes left : Bytes} {s : Gzip zlib Unit}, left.length ≤ n →
      s.Raising left → ¬ ReadsOn (Gzip.read none) gis bytes s := by
    intro n
    induction n with
    | zero =>
        intro bytes left s short raising run
        obtain ⟨out, reads, -⟩ := delivers bytes s run 1 one_pos
        obtain ⟨-, brings, left', split, -⟩ := raising.read one_pos reads
        rw [List.length_eq_zero_iff.mp (Nat.le_zero.mp short)] at split
        exact brings (List.append_eq_nil_iff.mp split.symm).1
    | succ n ih =>
        intro bytes left s short raising run
        obtain ⟨out, reads, -⟩ := delivers bytes s run 1 one_pos
        obtain ⟨positive, brings, left', rfl, raising'⟩ := raising.read one_pos reads
        have shorter : left'.length ≤ n := by
          have := List.length_pos_iff.mpr brings
          rw [List.length_append] at short
          omega
        exact ih shorter raising' (run.next 1 one_pos reads positive)
  exact run rest.length le_rfl raising (.start gis)

/-- **Plain decompression.** Whatever members the input consists of and whatever blocks it comes
in, reading without a callback delivers their contents, and then 0 or an error, exactly when the
block stream never raises its flag for the end or there is no member. -/
theorem delivers_iff {members contents : List Bytes} {bs : Bstream}
    (decodes : List.Forall₂ (MemberContent zlib) members contents) (delivers : bs.Delivers)
    (whole : bs.rest = members.flatten) :
    DeliversContent (Gzip.read none) (gunzipMpart zlib bs ()) contents.flatten ↔
      bs.Silent ∨ members = [] := by
  have goes : (gunzipMpart zlib bs ()).Goes contents.flatten := by
    refine ⟨rfl, rfl, delivers, ?_⟩
    have input : (gunzipMpart zlib bs ()).input = members.flatten := whole
    rw [input]
    exact .start decodes
  constructor
  · intro delivered
    by_contra loud
    obtain ⟨loud, some_member⟩ := not_or.mp loud
    have more : members.flatten ≠ [] := by
      cases decodes with
      | nil => exact absurd rfl some_member
      | cons first _ => exact fun empty => first.nonempty (List.append_eq_nil_iff.mp empty).1
    rw [← whole] at more
    have raising : (gunzipMpart zlib bs ()).Raising contents.flatten :=
      ⟨goes, loud, .of_rest more, more⟩
    exact raising.not_delivers _ delivered
  · rintro (silent | rfl)
    · exact Delivering.delivers (.inl ⟨goes, .inl silent⟩)
    · exact Delivering.delivers (.inl ⟨goes, .inr whole⟩)

/-! ### A member without content -/

theorem emptyMemberInflate_calls {taken given : Bytes} {n : emptyMemberInflate.State}
    (calls : Calls emptyMemberInflate taken given n) : n = taken.length ∧ given = [] := by
  induction calls with
  | start => exact ⟨rfl, rfl⟩
  | @call taken given n input room earlier status ih =>
      have taken_le := emptyMemberInflate.consumed_le n input room
      obtain ⟨rfl, rfl⟩ := ih
      rw [List.length_append, List.length_take, Nat.min_eq_left taken_le]
      simp only [emptyMemberInflate] at status ⊢
      split at status
      case isTrue next =>
        rw [if_pos next]
        exact ⟨rfl, rfl⟩
      case isFalse => cases status

/-- What is offered of the member is taken. -/
theorem emptyMemberInflate_offered {taken given input : Bytes} {n room : ℕ}
    (offered : Offered emptyMemberInflate emptyMember taken given n input room) :
    n = taken.length ∧ given = [] ∧
      taken ++ input.take (min (20 - n) input.length) <+: emptyMember ∧
      emptyMemberInflate.inflate n input room = ⟨min (20 - n) input.length, [],
        if n + min (20 - n) input.length = 20 then .streamEnd else .ok,
        n + min (20 - n) input.length⟩ := by
  obtain ⟨rfl, rfl⟩ := emptyMemberInflate_calls offered.calls
  have inside : taken.length < 20 := by
    have le : taken.length ≤ 20 := offered.inside.length_le
    refine lt_of_le_of_ne le fun whole => offered.unfinished ?_
    exact offered.inside.eq_of_length whole
  obtain ⟨behind, next⟩ := offered.next
  generalize counted : min (20 - taken.length) input.length = k
  have small : taken.length + k ≤ emptyMember.length := by
    rw [show emptyMember.length = 20 from rfl]
    omega
  have cut : taken ++ input.take k = emptyMember.take (taken.length + k) := by
    have whole := List.prefix_iff_eq_take.mp next
    calc taken ++ input.take k
        = (taken ++ input).take (taken.length + k) := (List.take_length_add_append k).symm
      _ = (emptyMember ++ behind).take (taken.length + k) := by
          rw [whole, List.take_take]
          congr 1
          rw [List.length_append]
          omega
      _ = emptyMember.take (taken.length + k) := List.take_append_of_le_length small
  refine ⟨rfl, rfl, ?_, ?_⟩
  · rw [cut]
    exact List.take_prefix _ _
  · have same : (emptyMember.drop taken.length).take k = input.take k := by
      have front : (emptyMember.take (taken.length + k)).drop taken.length =
          (emptyMember.drop taken.length).take k := by
        rw [List.drop_take, Nat.add_sub_cancel_left]
      rw [← front, ← cut, List.drop_left]
    simp only [emptyMemberInflate, counted]
    rw [if_pos ⟨inside, same⟩]

/-- The compression of nothing is inflated to nothing. -/
theorem emptyMember_content : MemberContent emptyMemberInflate emptyMember [] where
  nonempty := by decide
  accepts := by
    intro taken given n input room offered
    obtain ⟨-, -, -, inflated⟩ := emptyMemberInflate_offered offered
    rw [inflated]
    dsimp only
    split <;> decide
  goesOn := by
    intro taken given n input room offered status
    obtain ⟨rfl, rfl, front, inflated⟩ := emptyMemberInflate_offered offered
    rw [inflated] at status ⊢
    dsimp only at status ⊢
    split at status
    case isTrue => cases status
    case isFalse short =>
      refine ⟨front, fun whole => short ?_, List.nil_prefix⟩
      have length := congrArg List.length whole
      rw [List.length_append, List.length_take, Nat.min_eq_left (Nat.min_le_right _ _)] at length
      exact length
  ends := by
    intro taken given n input room offered status
    obtain ⟨rfl, rfl, front, inflated⟩ := emptyMemberInflate_offered offered
    rw [inflated] at status ⊢
    dsimp only at status ⊢
    split at status
    case isTrue whole =>
      refine ⟨front.eq_of_length ?_, rfl⟩
      rw [List.length_append, List.length_take, Nat.min_eq_left (Nat.min_le_right _ _), whole]
      rfl
    case isFalse => cases status

/-- In two blocks without a flag the member is read to its end. -/
theorem delivers_iff_blocks :
    DeliversContent (Gzip.read none) (gunzipMpart emptyMemberInflate
      (.reads [emptyMember.take 7, emptyMember.drop 7] 0) ()) [[]].flatten := by
  have blocks : (Bstream.reads [emptyMember.take 7, emptyMember.drop 7] 0).Delivers := by
    show [] ∉ [emptyMember.take 7, emptyMember.drop 7]
    decide
  exact (delivers_iff (.cons emptyMember_content .nil) blocks rfl).mpr (.inl trivial)

/-- **A mapped file.** The first read of it calls the callback that is not there. -/
theorem not_delivers_mapped :
    List.Forall₂ (MemberContent emptyMemberInflate) [emptyMember] [[]] ∧
      (Bstream.mmap (some emptyMember)).rest = [emptyMember].flatten ∧
      ¬ DeliversContent (Gzip.read none)
        (gunzipMpart emptyMemberInflate (.mmap (some emptyMember)) ()) [[]].flatten := by
  refine ⟨.cons emptyMember_content .nil, rfl, fun delivers => ?_⟩
  obtain ⟨out, reads, -⟩ := delivers [] _ (.start _) 1 one_pos
  have faults : (Gzip.read none (gunzipMpart emptyMemberInflate (.mmap (some emptyMember)) ()) 1
      ).isNone := by
    decide +kernel
  rw [reads] at faults
  cases faults

end Gzip

end AriannaLinux.Apk
