import AriannaLinux.Apk.Io.Istream

/-! # Decompression

The gzip input stream of `gunzip.c` over a block stream. Inflation is a state machine
that takes some of the input it is offered and says where a member ends; the callback
is told of the compressed bytes, of the boundaries between members, and of the end.
-/

namespace AriannaLinux.Apk

/-! ## Block streams -/

/-- `struct apk_bstream`, read without a token. -/
inductive Bstream where
  /-- `apk_mmap_bstream`: what is left of the mapping, NULL once it was read. -/
  | mmap (left : Option Bytes)
  /-- A stream that gives chunks and then, over and over, an empty read or an error. -/
  | reads (chunks : List Bytes) (error : ℕ)
  /-- A stream that gives chunks and raises `APK_BSTREAM_EOF` with the last one. -/
  | flagged (chunks : List Bytes) (raised : Bool)
  deriving DecidableEq, Repr

namespace Bstream

/-- `APK_BSTREAM_EOF` in the flags. `mmap_read` sets it. -/
def eof : Bstream → Bool
  | mmap left => left.isNone
  | reads _ _ => false
  | flagged _ raised => raised

/-- `apk_bstream.read`: the length, the bytes, and the stream afterwards. -/
def read : Bstream → ℤ × Bytes × Bstream
  | mmap left => ((left.getD []).length, left.getD [], mmap none)
  | reads [] error => (-error, [], reads [] error)
  | reads (chunk :: chunks) error => (chunk.length, chunk, reads chunks error)
  | flagged [] _ => (0, [], flagged [] true)
  | flagged (chunk :: chunks) _ => (chunk.length, chunk, flagged chunks chunks.isEmpty)

/-- How many bytes are still to come. -/
def remaining : Bstream → ℕ
  | mmap left => (left.getD []).length
  | reads chunks _ => chunks.flatten.length
  | flagged chunks _ => chunks.flatten.length

/-- A read takes what it brings out of what is still to come. -/
theorem remaining_read (bs : Bstream) :
    bs.read.2.1.length + bs.read.2.2.remaining = bs.remaining := by
  match bs with
  | mmap left => simp [read, remaining]
  | reads [] error => simp [read, remaining]
  | reads (chunk :: chunks) error => simp [read, remaining]
  | flagged [] raised => simp [read, remaining]
  | flagged (chunk :: chunks) raised => simp [read, remaining]

end Bstream

/-! ## Inflation -/

/-- What `inflate` answers: `Z_OK`, `Z_STREAM_END`, or anything else. -/
inductive InflateStatus where
  | ok | streamEnd | error
  deriving DecidableEq, Repr

/-- The outcome of one call of `inflate`. -/
structure Inflated (State : Type) where
  consumed : ℕ
  output : Bytes
  status : InflateStatus
  state : State

/-- The decompressor: the state after `inflateInit2`, and `inflate` on the available
input with some room for output. `Z_OK` and `Z_STREAM_END` mean progress. -/
structure Zlib where
  State : Type
  start : State
  inflate : State → Bytes → ℕ → Inflated State
  consumed_le : ∀ state input room, (inflate state input room).consumed ≤ input.length
  output_le : ∀ state input room, (inflate state input room).output.length ≤ room
  progress : ∀ state input room, input ≠ [] → 0 < room →
    (inflate state input room).status ≠ .error →
      0 < (inflate state input room).consumed + (inflate state input room).output.length

/-! ## The gzip stream -/

/-- `apk_multipart_cb`. -/
abbrev MultipartCb (σ : Type*) := σ → MPart → Option Bytes → ℤ × σ

/-- `struct apk_gzip_istream`, with what its callback works on. The pointers into the
block just read are kept as the bytes before them (`cbprev` to `next_in`) and after. -/
structure Gzip (zlib : Zlib) (σ : Type*) where
  bs : Bstream
  ctx : σ
  zs : zlib.State := zlib.start
  availIn : Bytes := []
  err : ℤ := 0
  cbprev : Bytes := []
  cbarg : Option Bytes := none

variable {zlib : Zlib} {σ : Type*}

/-- What the stream makes of the result of its callback: a positive one cancels. -/
def callbackResult (r : ℤ) : ℤ := if 0 < r then ecanceled else r

namespace Gzip

/-- `gzi_read`, the boundary callback that was put off to the next round. -/
def postponed (cb : Option (MultipartCb σ)) (gis : Gzip zlib σ) : Option (Gzip zlib σ) :=
  match gis.cbarg with
  | none => some gis
  | some blob =>
      -- a NULL callback is called here
      cb.map fun cb =>
        let (r, ctx) := cb gis.ctx .boundary (some blob)
        if callbackResult r ≠ 0 then { gis with ctx, err := callbackResult r }
        else { gis with ctx, cbarg := none }

/-- `gzi_read`, the callback on what was consumed of the block before the next one is read. -/
def digestBlock (cb : Option (MultipartCb σ)) (gis : Gzip zlib σ) : Gzip zlib σ :=
  match cb with
  | some cb =>
      if gis.cbprev = [] then gis else { gis with ctx := (cb gis.ctx .data (some gis.cbprev)).2 }
  | none => gis

/-- `gzi_read`, the end of the block stream. -/
def finished (cb : Option (MultipartCb σ)) (gis : Gzip zlib σ) : Gzip zlib σ :=
  match cb with
  | some cb =>
      let (r, ctx) := cb gis.ctx .finish none
      { gis with ctx, err := if callbackResult r ≠ 0 then callbackResult r else 1 }
  | none => { gis with err := 1 }

/-- `gzi_read`, the reading of the next block when the last one is used up. -/
def refill (cb : Option (MultipartCb σ)) (gis : Gzip zlib σ) : Gzip zlib σ :=
  if gis.availIn ≠ [] then gis
  else
    let gis := gis.digestBlock cb
    let (len, blob, bs) := gis.bs.read
    let gis := { gis with bs, cbprev := [], availIn := blob }
    if len < 0 then { gis with err := len }
    else if blob = [] then gis.finished cb
    else gis

/-- `gzi_read`, one call of `inflate` and what follows the end of a member. -/
def inflateBlock (cb : Option (MultipartCb σ)) (gis : Gzip zlib σ) (room : ℕ) :
    Option (Bytes × Gzip zlib σ) :=
  let out := zlib.inflate gis.zs gis.availIn room
  let gis : Gzip zlib σ := { gis with
    zs := out.state
    availIn := gis.availIn.drop out.consumed
    cbprev := gis.cbprev ++ gis.availIn.take out.consumed }
  match out.status with
  | .error => some (out.output, { gis with err := eio })
  | .ok => some (out.output, gis)
  | .streamEnd =>
      let last := gis.bs.eof ∧ gis.availIn = []
      let gis := if cb.isSome then { gis with cbarg := some gis.cbprev, cbprev := [] } else gis
      if last then
        -- no block follows: the callback is called at once, and its result is dropped
        cb.map fun cb => (out.output, { gis with err := 1, ctx := (cb gis.ctx .finish gis.cbarg).2 })
      else some (out.output, { gis with zs := zlib.start })

/-- The loop of `gzi_read`, with what it stored so far. -/
def readLoop (cb : Option (MultipartCb σ)) :
    ℕ → Gzip zlib σ → ℕ → Bytes → Option (Bytes × Gzip zlib σ)
  | 0, _, _, _ => none
  | fuel + 1, gis, room, stored =>
      if room = 0 ∨ gis.err ≠ 0 then some (stored, gis)
      else
        (gis.postponed cb).bind fun gis =>
          if gis.err ≠ 0 then some (stored, gis)
          else
            let gis := gis.refill cb
            if gis.err ≠ 0 then some (stored, gis)
            else
              (gis.inflateBlock cb room).bind fun (output, gis) =>
                readLoop cb fuel gis (room - output.length) (stored ++ output)

/-- The rounds a read can take: each uses up input or room. -/
def rounds (gis : Gzip zlib σ) (room : ℕ) : ℕ := gis.availIn.length + gis.bs.remaining + room

/-- `gzi_read` into a buffer. -/
def read (cb : Option (MultipartCb σ)) : ReadFunction (Gzip zlib σ) := fun gis size =>
  if gis.err ≠ 0 then some ⟨if 0 < gis.err then 0 else gis.err, [], gis⟩
  else
    (readLoop cb (gis.rounds size + 1) gis size []).map fun (stored, gis) =>
      ⟨if stored = [] then (if gis.err < 0 then gis.err else 0) else stored.length, stored, gis⟩

/-- `apk_bstream_gunzip_mpart`. -/
def gunzipMpart (zlib : Zlib) (bs : Bstream) (ctx : σ) : Gzip zlib σ := { bs, ctx }

/-! ## Every read returns -/

theorem postponed_rounds {cb : Option (MultipartCb σ)} {gis gis' : Gzip zlib σ} {room : ℕ}
    (called : gis.postponed cb = some gis') : gis'.rounds room = gis.rounds room := by
  unfold postponed at called
  split at called
  · cases called
    rfl
  · obtain ⟨cb, rfl, rfl⟩ := Option.map_eq_some_iff.mp called
    dsimp only
    split <;> rfl

@[simp] theorem digestBlock_bs (cb : Option (MultipartCb σ)) (gis : Gzip zlib σ) :
    (gis.digestBlock cb).bs = gis.bs := by
  unfold digestBlock
  split <;> [split; skip] <;> rfl

@[simp] theorem finished_availIn (cb : Option (MultipartCb σ)) (gis : Gzip zlib σ) :
    (gis.finished cb).availIn = gis.availIn := by
  cases cb <;> rfl

@[simp] theorem finished_bs (cb : Option (MultipartCb σ)) (gis : Gzip zlib σ) :
    (gis.finished cb).bs = gis.bs := by
  cases cb <;> rfl

theorem callbackResult_nonpos (r : ℤ) : callbackResult r ≤ 0 := by
  unfold callbackResult
  split
  · decide
  · omega

theorem finished_err_ne_zero (cb : Option (MultipartCb σ)) (gis : Gzip zlib σ) :
    (gis.finished cb).err ≠ 0 := by
  cases cb with
  | none => exact one_ne_zero
  | some cb =>
      unfold finished
      dsimp only
      split
      · assumption
      · exact one_ne_zero

/-- Refilling trades what is left of the block stream for input. -/
theorem refill_rounds (cb : Option (MultipartCb σ)) (gis : Gzip zlib σ) (room : ℕ) :
    (gis.refill cb).rounds room ≤ gis.rounds room := by
  unfold refill
  split
  · exact le_rfl
  · have shorter : gis.bs.read.2.1.length + gis.bs.read.2.2.remaining + room ≤ gis.rounds room :=
      Nat.add_le_add_right ((Bstream.remaining_read gis.bs).le.trans (Nat.le_add_left _ _)) room
    simp only [digestBlock_bs]
    split
    · exact shorter
    · split
      · simpa only [rounds, finished_availIn, finished_bs] using shorter
      · exact shorter

/-- After refilling there is input, unless the stream has ended. -/
theorem refill_availIn {cb : Option (MultipartCb σ)} {gis : Gzip zlib σ}
    (clear : (gis.refill cb).err = 0) : (gis.refill cb).availIn ≠ [] := by
  unfold refill at clear ⊢
  split at clear
  case isTrue more => rwa [if_pos more]
  case isFalse more =>
    rw [if_neg more]
    simp only [digestBlock_bs] at clear ⊢
    split at clear
    case isTrue failed => exact absurd clear failed.ne
    case isFalse read =>
      rw [if_neg read]
      split at clear
      case isTrue => exact absurd clear (finished_err_ne_zero _ _)
      case isFalse more => rwa [if_neg more]

/-- A call of `inflate` uses up input or room. -/
theorem inflateBlock_rounds {cb : Option (MultipartCb σ)} {gis gis' : Gzip zlib σ} {room : ℕ}
    {output : Bytes} (more : gis.availIn ≠ []) (space : 0 < room)
    (inflated : gis.inflateBlock cb room = some (output, gis')) :
    gis'.err ≠ 0 ∨ gis'.rounds (room - output.length) < gis.rounds room := by
  have taken := zlib.consumed_le gis.zs gis.availIn room
  have stored := zlib.output_le gis.zs gis.availIn room
  have progress := zlib.progress gis.zs gis.availIn room more space
  unfold inflateBlock at inflated
  dsimp only at inflated
  split at inflated
  case h_1 =>
    cases inflated
    exact .inl (show eio ≠ 0 by decide)
  case h_2 status =>
    cases inflated
    have := progress (by simp [status])
    simp only [rounds, List.length_drop]
    exact .inr (by omega)
  case h_3 status =>
    have := progress (by simp [status])
    split at inflated
    · obtain ⟨cb, -, inflated⟩ := Option.map_eq_some_iff.mp inflated
      cases inflated
      exact .inl one_ne_zero
    · cases inflated
      refine .inr ?_
      cases cb <;> simp only [rounds, List.length_drop, Option.isSome, Bool.false_eq_true, ↓reduceIte]
        <;> omega

/-- With a callback nothing faults. -/
theorem postponed_isSome (cb : MultipartCb σ) (gis : Gzip zlib σ) :
    (gis.postponed (some cb)).isSome := by
  unfold postponed
  split <;> rfl

theorem inflateBlock_isSome (cb : MultipartCb σ) (gis : Gzip zlib σ) (room : ℕ) :
    (gis.inflateBlock (some cb) room).isSome := by
  unfold inflateBlock
  dsimp only
  split
  · rfl
  · rfl
  · split <;> rfl

theorem readLoop_isSome (cb : MultipartCb σ) (fuel : ℕ) (gis : Gzip zlib σ) (room : ℕ)
    (stored : Bytes) (enough : gis.rounds room < fuel) :
    (readLoop (some cb) fuel gis room stored).isSome := by
  induction fuel generalizing gis room stored with
  | zero => omega
  | succ fuel ih =>
      rw [readLoop]
      split
      · rfl
      case isFalse going =>
        rw [not_or] at going
        obtain ⟨called, calls⟩ := Option.isSome_iff_exists.mp (postponed_isSome cb gis)
        rw [calls, Option.bind_some]
        split
        · rfl
        dsimp only
        split
        · rfl
        case isFalse clear =>
          obtain ⟨⟨output, next⟩, inflated⟩ :=
            Option.isSome_iff_exists.mp (inflateBlock_isSome cb (called.refill (some cb)) room)
          rw [inflated, Option.bind_some]
          have less := inflateBlock_rounds (refill_availIn (not_not.mp clear))
            (Nat.pos_of_ne_zero going.1) inflated
          have refilled := refill_rounds (some cb) called room
          rw [postponed_rounds calls] at refilled
          have some : room ≤ gis.rounds room := Nat.le_add_left _ _
          rcases less with ended | less
          · obtain ⟨rest, rfl⟩ : ∃ rest, fuel = rest + 1 := ⟨fuel - 1, by omega⟩
            simp [readLoop, ended]
          · exact ih next _ _ (by dsimp only at less ⊢; omega)

/-- **Every read returns**, whatever the stream holds, when there is a callback. -/
theorem read_isSome (cb : MultipartCb σ) (gis : Gzip zlib σ) (size : ℕ) :
    (read (some cb) gis size).isSome := by
  unfold read
  split
  · rfl
  · rw [Option.isSome_map]
    exact readLoop_isSome cb _ gis size [] (Nat.lt_succ_self _)

/-! ## What a read keeps -/

/-- What a callback does to its context: `Live` holds while the stream goes on, `Ended`
once the callback was told of the end. -/
structure CallbackRule (cb : MultipartCb σ) (Live Ended : σ → Prop) : Prop where
  data : ∀ ctx blob, Live ctx → Live (cb ctx .data blob).2
  boundary : ∀ ctx blob, Live ctx → (cb ctx .boundary blob).1 = 0 → Live (cb ctx .boundary blob).2
  finish : ∀ ctx blob, Live ctx → Ended (cb ctx .finish blob).2

/-- The context of a stream that goes on, or has ended without an error. -/
def Holds (Live Ended : σ → Prop) (gis : Gzip zlib σ) : Prop :=
  (gis.err = 0 → Live gis.ctx) ∧ (0 < gis.err → Ended gis.ctx)

variable {cb : MultipartCb σ} {Live Ended : σ → Prop}

theorem Holds.of_live {gis : Gzip zlib σ} (clear : gis.err = 0) (live : Live gis.ctx) :
    gis.Holds Live Ended :=
  ⟨fun _ => live, fun positive => absurd clear positive.ne'⟩

theorem Holds.of_ended {gis : Gzip zlib σ} (positive : 0 < gis.err) (ended : Ended gis.ctx) :
    gis.Holds Live Ended :=
  ⟨fun clear => absurd clear positive.ne', fun _ => ended⟩

theorem Holds.of_failed {gis : Gzip zlib σ} (negative : gis.err < 0) : gis.Holds Live Ended :=
  ⟨fun clear => absurd clear negative.ne, fun positive => absurd positive negative.not_gt⟩

theorem callbackResult_eq_zero {r : ℤ} : callbackResult r = 0 ↔ r = 0 := by
  unfold callbackResult ecanceled
  split <;> omega

theorem postponed_holds (rule : CallbackRule cb Live Ended) {gis gis' : Gzip zlib σ}
    (live : Live gis.ctx) (clear : gis.err = 0) (called : gis.postponed (some cb) = some gis') :
    gis'.Holds Live Ended := by
  unfold postponed at called
  split at called
  · cases called
    exact .of_live clear live
  case h_2 blob _ =>
    rw [Option.map_some] at called
    cases called
    dsimp only
    split
    case isTrue failed =>
      exact .of_failed (lt_of_le_of_ne (callbackResult_nonpos _) failed)
    case isFalse returned =>
      have returned := callbackResult_eq_zero.mp (not_not.mp returned)
      exact .of_live clear (rule.boundary _ _ live returned)

theorem finished_holds (rule : CallbackRule cb Live Ended) {gis : Gzip zlib σ}
    (live : Live gis.ctx) : (gis.finished (some cb)).Holds Live Ended := by
  unfold finished
  dsimp only
  split
  case isTrue failed => exact .of_failed (lt_of_le_of_ne (callbackResult_nonpos _) failed)
  case isFalse => exact .of_ended one_pos (rule.finish _ _ live)

theorem refill_holds (rule : CallbackRule cb Live Ended) {gis : Gzip zlib σ}
    (live : Live gis.ctx) (clear : gis.err = 0) : (gis.refill (some cb)).Holds Live Ended := by
  have digested : Live (gis.digestBlock (some cb)).ctx := by
    simp only [digestBlock]
    split
    · exact live
    · exact rule.data _ _ live
  have stillClear : (gis.digestBlock (some cb)).err = 0 := by
    simp only [digestBlock]
    split <;> exact clear
  unfold refill
  split
  · exact .of_live clear live
  · dsimp only
    split
    case isTrue failed => exact .of_failed failed
    · split
      · exact finished_holds rule digested
      · exact .of_live stillClear digested

theorem inflateBlock_holds (rule : CallbackRule cb Live Ended) {gis gis' : Gzip zlib σ}
    {room : ℕ} {output : Bytes} (live : Live gis.ctx) (clear : gis.err = 0)
    (inflated : gis.inflateBlock (some cb) room = some (output, gis')) :
    gis'.Holds Live Ended := by
  simp only [inflateBlock, Option.isSome_some, ↓reduceIte] at inflated
  split at inflated
  · cases inflated
    exact .of_failed (show eio < 0 by decide)
  · cases inflated
    exact .of_live clear live
  · split at inflated
    · rw [Option.map_some] at inflated
      cases inflated
      exact .of_ended one_pos (rule.finish _ _ live)
    · cases inflated
      exact .of_live clear live

theorem readLoop_holds (rule : CallbackRule cb Live Ended) {fuel : ℕ} {gis gis' : Gzip zlib σ}
    {room : ℕ} {stored stored' : Bytes} (holds : gis.Holds Live Ended)
    (looped : readLoop (some cb) fuel gis room stored = some (stored', gis')) :
    gis'.Holds Live Ended := by
  induction fuel generalizing gis room stored with
  | zero => cases looped
  | succ fuel ih =>
      rw [readLoop] at looped
      split at looped
      · cases looped
        exact holds
      case isFalse going =>
        have clear : gis.err = 0 := by omega
        obtain ⟨called, calls, looped⟩ := Option.bind_eq_some_iff.mp looped
        have calledHolds := postponed_holds rule (holds.1 clear) clear calls
        split at looped
        · cases looped
          exact calledHolds
        case isFalse clear =>
          have clear : called.err = 0 := not_not.mp clear
          have filledHolds := refill_holds rule (calledHolds.1 clear) clear
          dsimp only at looped
          split at looped
          · cases looped
            exact filledHolds
          case isFalse clear =>
            have clear : (called.refill (some cb)).err = 0 := not_not.mp clear
            obtain ⟨⟨output, next⟩, inflated, looped⟩ := Option.bind_eq_some_iff.mp looped
            exact ih (inflateBlock_holds rule (filledHolds.1 clear) clear inflated) looped

/-- **Reads keep what the callback keeps.** -/
theorem read_holds (rule : CallbackRule cb Live Ended) {gis : Gzip zlib σ} {size : ℕ}
    {out : Read (Gzip zlib σ)} (holds : gis.Holds Live Ended)
    (reads : read (some cb) gis size = some out) : out.state.Holds Live Ended := by
  unfold read at reads
  split at reads
  · cases reads
    exact holds
  · obtain ⟨⟨stored, final⟩, looped, rfl⟩ := Option.map_eq_some_iff.mp reads
    exact readLoop_holds rule holds looped

/-- **What every call of the callback keeps, a read keeps.** -/
theorem read_keeps {P : σ → Prop} (keeps : ∀ ctx part data, P ctx → P (cb ctx part data).2)
    {gis : Gzip zlib σ} {size : ℕ} {out : Read (Gzip zlib σ)} (holds : P gis.ctx)
    (reads : read (some cb) gis size = some out) : P out.state.ctx := by
  have postponed : ∀ gis gis' : Gzip zlib σ, P gis.ctx →
      gis.postponed (some cb) = some gis' → P gis'.ctx := by
    intro gis gis' holds called
    unfold Gzip.postponed at called
    split at called
    · cases called
      exact holds
    · rw [Option.map_some] at called
      cases called
      dsimp only
      split <;> exact keeps _ _ _ holds
  have refill : ∀ gis : Gzip zlib σ, P gis.ctx → P (gis.refill (some cb)).ctx := by
    intro gis holds
    have digested : P (gis.digestBlock (some cb)).ctx := by
      simp only [digestBlock]
      split
      · exact holds
      · exact keeps _ _ _ holds
    unfold Gzip.refill
    split
    · exact holds
    · dsimp only
      split
      · exact digested
      · split
        · exact keeps _ _ _ digested
        · exact digested
  have inflateBlock : ∀ (gis gis' : Gzip zlib σ) room output, P gis.ctx →
      gis.inflateBlock (some cb) room = some (output, gis') → P gis'.ctx := by
    intro gis gis' room output holds inflated
    simp only [Gzip.inflateBlock, Option.isSome_some, ↓reduceIte] at inflated
    split at inflated
    · cases inflated
      exact holds
    · cases inflated
      exact holds
    · split at inflated
      · rw [Option.map_some] at inflated
        cases inflated
        exact keeps _ _ _ holds
      · cases inflated
        exact holds
  have loop : ∀ fuel (gis gis' : Gzip zlib σ) room stored stored', P gis.ctx →
      readLoop (some cb) fuel gis room stored = some (stored', gis') → P gis'.ctx := by
    intro fuel
    induction fuel with
    | zero =>
        intro gis gis' room stored stored' _ looped
        cases looped
    | succ fuel ih =>
        intro gis gis' room stored stored' holds looped
        rw [readLoop] at looped
        split at looped
        · cases looped
          exact holds
        obtain ⟨called, calls, looped⟩ := Option.bind_eq_some_iff.mp looped
        have calledHolds := postponed _ _ holds calls
        split at looped
        · cases looped
          exact calledHolds
        dsimp only at looped
        split at looped
        · cases looped
          exact refill _ calledHolds
        obtain ⟨⟨output, next⟩, inflated, looped⟩ := Option.bind_eq_some_iff.mp looped
        exact ih _ _ _ _ _ (inflateBlock _ _ _ _ (refill _ calledHolds) inflated) looped
  unfold read at reads
  split at reads
  · cases reads
    exact holds
  · obtain ⟨⟨stored, final⟩, looped, rfl⟩ := Option.map_eq_some_iff.mp reads
    exact loop _ _ _ _ _ _ holds looped

theorem readLoop_stored {cb : Option (MultipartCb σ)} {fuel : ℕ} {gis gis' : Gzip zlib σ}
    {room : ℕ} {stored stored' : Bytes}
    (looped : readLoop cb fuel gis room stored = some (stored', gis')) : stored <+: stored' := by
  induction fuel generalizing gis room stored with
  | zero => cases looped
  | succ fuel ih =>
      rw [readLoop] at looped
      split at looped
      · cases looped
        exact List.prefix_refl _
      obtain ⟨called, -, looped⟩ := Option.bind_eq_some_iff.mp looped
      split at looped
      · cases looped
        exact List.prefix_refl _
      dsimp only at looped
      split at looped
      · cases looped
        exact List.prefix_refl _
      obtain ⟨⟨output, next⟩, -, looped⟩ := Option.bind_eq_some_iff.mp looped
      exact (List.prefix_append stored output).trans (ih looped)

/-- A loop that stored nothing stopped at the end or at an error. -/
theorem readLoop_nothing {cb : Option (MultipartCb σ)} {fuel : ℕ} {gis gis' : Gzip zlib σ}
    {room : ℕ} (space : 0 < room) (looped : readLoop cb fuel gis room [] = some ([], gis')) :
    gis'.err ≠ 0 := by
  induction fuel generalizing gis with
  | zero => cases looped
  | succ fuel ih =>
      rw [readLoop] at looped
      split at looped
      case isTrue stops =>
        cases looped
        omega
      obtain ⟨called, -, looped⟩ := Option.bind_eq_some_iff.mp looped
      split at looped
      case isTrue stops =>
        cases looped
        exact stops
      dsimp only at looped
      split at looped
      case isTrue stops =>
        cases looped
        exact stops
      obtain ⟨⟨output, next⟩, -, looped⟩ := Option.bind_eq_some_iff.mp looped
      have nothing : output = [] := List.prefix_nil.mp (readLoop_stored looped)
      subst nothing
      exact ih looped

/-- **A read of nothing is the end.** Only a stream that has ended without an error gives
a read of some size the result 0. -/
theorem read_eq_zero {cb : Option (MultipartCb σ)} {gis : Gzip zlib σ} {size : ℕ}
    {out : Read (Gzip zlib σ)} (positive : 0 < size) (reads : read cb gis size = some out)
    (nothing : out.result = 0) : 0 < out.state.err := by
  unfold read at reads
  split at reads
  case isTrue ended =>
    cases reads
    dsimp only at nothing ⊢
    split at nothing <;> omega
  case isFalse =>
    obtain ⟨⟨stored, final⟩, looped, rfl⟩ := Option.map_eq_some_iff.mp reads
    dsimp only at nothing ⊢
    split at nothing
    case isTrue empty =>
      subst empty
      have ended := readLoop_nothing positive looped
      split at nothing <;> omega
    case isFalse some =>
      rw [Int.natCast_eq_zero, List.length_eq_zero_iff] at nothing
      exact absurd nothing some

end Gzip

/-! ## A member on its own -/

/-- The compression of nothing: one gzip member of twenty bytes. -/
def emptyMember : Bytes := [0x1f, 0x8b, 8, 0, 0, 0, 0, 0, 0, 3, 3, 0, 0, 0, 0, 0, 0, 0, 0, 0]

end AriannaLinux.Apk
