import AriannaLinux.Apk.TarFraming

/-! # Archives that are cut short

An archive that ends inside the data or the padding of an entry. The content stream of the
entry gives less than the header declares, and the skip behind it goes beyond the end; the
parse looks at neither result, so all it sees is that no further header can be read, as at the
end of an archive (`tarParse_truncated`).
-/

namespace AriannaLinux.Apk

/-! ## File descriptors -/

/-- An open regular file. -/
structure OpenFile where
  content : Bytes
  offset : ℕ

namespace OpenFile

/-- What can still be read. -/
def rest (file : OpenFile) : Bytes := file.content.drop file.offset

/-- `read`: at least one byte, as long as one is left and asked for; how many is up to the
system. -/
def sysRead (given : OpenFile → ℕ → ℕ) (file : OpenFile) (count : ℕ) : Bytes × OpenFile :=
  let stored := file.rest.take (min count (max 1 (given file count)))
  (stored, { file with offset := file.offset + stored.length })

/-- The loop of `fdi_read`, with what is still asked for. -/
def fdiReadLoop (given : OpenFile → ℕ → ℕ) : ℕ → ℕ → Bytes → OpenFile → Bytes × OpenFile
  | 0, _, stored, file => (stored, file)
  | fuel + 1, size, stored, file =>
      if size = 0 then (stored, file)
      else
        let (piece, file) := file.sysRead given size
        if piece = [] then (stored, file)
        else fdiReadLoop given fuel (size - piece.length) (stored ++ piece) file

/-- `fdi_read` into a buffer, without a process behind the descriptor. -/
def fdiRead (given : OpenFile → ℕ → ℕ) : ReadFunction OpenFile := fun file size =>
  let (stored, file) := fdiReadLoop given size size [] file
  some ⟨stored.length, stored, file⟩

/-- `fdi_read` into NULL: a seek, which goes beyond the end without an error. -/
def fdiSeek (file : OpenFile) (size : ℕ) : OpenFile := { file with offset := file.offset + size }

/-- Seeking is skipping: what can be read afterwards is the same. -/
theorem rest_fdiSeek (file : OpenFile) (size : ℕ) :
    (file.fdiSeek size).rest = file.rest.drop size := by
  rw [rest, rest, fdiSeek, List.drop_drop]

theorem sysRead_cases (given : OpenFile → ℕ → ℕ) (file : OpenFile) {count : ℕ} (asked : 0 < count) :
    ∃ n, n ≤ count ∧ (file.sysRead given count).1 = file.rest.take n ∧
      (file.sysRead given count).2.rest = file.rest.drop n ∧
      (file.rest.take n).length = n ∧ (n = 0 → file.rest = []) := by
  have short : file.rest.take (min count (max 1 (given file count))) =
      file.rest.take (min (min count (max 1 (given file count))) file.rest.length) :=
    List.take_eq_take_min
  refine ⟨min (min count (max 1 (given file count))) file.rest.length, by omega, short, ?_, ?_, ?_⟩
  · have moved : (file.sysRead given count).2.rest =
        file.rest.drop (file.rest.take (min count (max 1 (given file count)))).length := by
      rw [rest, rest, List.drop_drop]
      rfl
    rw [moved, List.length_take]
  · rw [List.length_take]
    omega
  · intro none
    exact List.length_eq_zero_iff.mp (by omega)

/-- `fdi_read` reads in full, whatever pieces the system gives. -/
theorem fdiRead_full (given : OpenFile → ℕ → ℕ) : FullReads (fdiRead given) rest := by
  have loop : ∀ (fuel size : ℕ) (stored : Bytes) (file : OpenFile), size ≤ fuel →
      (fdiReadLoop given fuel size stored file).1 = stored ++ file.rest.take size ∧
        (fdiReadLoop given fuel size stored file).2.rest = file.rest.drop size := by
    intro fuel
    induction fuel with
    | zero =>
        intro size stored file enough
        obtain rfl : size = 0 := by omega
        simp [fdiReadLoop]
    | succ fuel ih =>
        intro size stored file enough
        rw [fdiReadLoop]
        split
        · rename_i nothing
          simp [nothing]
        · obtain ⟨n, inside, piece, after, sized, ended⟩ :=
            file.sysRead_cases given (show 0 < size by omega)
          generalize file.sysRead given size = result at piece after ⊢
          obtain ⟨read, file'⟩ := result
          dsimp only at piece after ⊢
          subst piece
          split
          · rename_i nothing
            have none : n = 0 := by rw [← sized, nothing]; rfl
            rw [after, ended none]
            simp
          · rename_i something
            have positive : 0 < n := by
              rw [← sized]
              exact List.length_pos_iff.mpr something
            obtain ⟨result, final⟩ := ih (size - n) (stored ++ file.rest.take n) file' (by omega)
            rw [sized, result, final, after, List.append_assoc, List.drop_drop,
              show n + (size - n) = size by omega]
            refine ⟨congrArg _ ?_, rfl⟩
            rw [← List.take_add, show n + (size - n) = size by omega]
  intro file size
  obtain ⟨result, final⟩ := loop size size [] file (Nat.le_refl _)
  rw [List.nil_append] at result
  unfold fdiRead
  generalize fdiReadLoop given size size [] file = read at result final ⊢
  obtain ⟨stored, file'⟩ := read
  cases result
  exact ⟨file', rfl, final⟩

end OpenFile

/-! ## Cut archives -/

/-- The records of an entry up to a cut inside its data, inside its long name, or inside the
padding of one of these. -/
inductive TarMember.Cut (member : TarMember) : Bytes → Prop
  | data {front : Bytes} {kept : ℕ} : member.bytes = front ++ tarPadded member.data →
      kept < (tarPadded member.data).length →
      member.Cut (front ++ (tarPadded member.data).take kept)
  | longName {long : LongName} {kept : ℕ} : member.longName = some long →
      kept < (tarPadded long.content).length →
      member.Cut (long.block.bytes ++ (tarPadded long.content).take kept)

/-- What is kept of an archive that is cut inside the data or padding of an entry. -/
def CutInside (members : List TarMember) (kept : Bytes) : Prop :=
  ∃ before member after part, members = before ++ member :: after ∧ member.Cut part ∧
    kept = before.flatMap TarMember.bytes ++ part

/-- A cut keeps a proper prefix. -/
theorem CutInside.proper {members : List TarMember} {kept : Bytes} (cut : CutInside members kept) :
    kept <+: tarArchive members ∧ kept.length < (tarArchive members).length := by
  obtain ⟨before, member, after, part, rfl, inside, rfl⟩ := cut
  obtain ⟨missing, split, nonempty⟩ : ∃ missing, member.bytes = part ++ missing ∧ missing ≠ [] := by
    cases inside with
    | @data front kept whole short =>
        refine ⟨(tarPadded member.data).drop kept, ?_, ?_⟩
        · rw [whole, List.append_assoc, List.take_append_drop]
        · rw [Ne, List.drop_eq_nil_iff]
          omega
    | @longName long kept named short =>
        refine ⟨(tarPadded long.content).drop kept ++ (member.block.bytes ++ tarPadded member.data),
          ?_, ?_⟩
        · rw [TarMember.bytes, named]
          dsimp only
          conv_lhs => rw [← List.take_append_drop kept (tarPadded long.content)]
          simp only [List.append_assoc]
        · rw [Ne, List.append_eq_nil_iff, List.drop_eq_nil_iff]
          omega
  have archive : tarArchive (before ++ member :: after) =
      (before.flatMap TarMember.bytes ++ part) ++ (missing ++ tarArchive after) := by
    simp only [tarArchive, List.flatMap_append, List.flatMap_cons, split, List.append_assoc]
  have positive := List.length_pos_iff.mpr nonempty
  rw [archive]
  refine ⟨List.prefix_append _ _, ?_⟩
  simp only [List.length_append]
  omega

variable {σ : Type*} {C : Type}

/-- The content stream of an entry that is cut short: `unread` is all that is left, and no
more than what the entry should still have with its padding. -/
structure TarEntry.CutShort (rest : σ → Bytes) (size padding : ℕ) (ctx : C)
    (teis : TarEntry (σ × C)) : Prop where
  context : teis.tar.2 = ctx
  short : (rest teis.tar.1).length ≤ teis.bytesLeft + padding
  within : teis.bytesLeft ≤ size

section Cut

variable {read : ReadFunction σ} {rest : σ → Bytes} (full : FullReads read rest) (env : TarEnv)

include full

theorem tarEntryRead_cutShort {size padding : ℕ} {ctx : C} {teis : TarEntry (σ × C)}
    (cut : teis.CutShort rest size padding ctx) (asked : ℕ) :
    ∃ r stored teis', tarEntryRead (pairRead read) env teis asked = some ⟨r, stored, teis'⟩ ∧
      teis'.CutShort rest size padding ctx := by
  unfold tarEntryRead
  dsimp only
  by_cases nothing : min asked teis.bytesLeft = 0
  · rw [if_pos nothing]
    exact ⟨_, _, teis, rfl, cut⟩
  · rw [if_neg nothing]
    obtain ⟨tar, reads, after, context⟩ := pairRead_holds full
      (show Holds rest _ ctx teis.tar from ⟨rfl, cut.context⟩) (min asked teis.bytesLeft)
    have left : (rest tar.1).length ≤ teis.bytesLeft -
        (((rest teis.tar.1).take (min asked teis.bytesLeft)).length : ℤ).toNat + padding := by
      have short := cut.short
      rw [after, Int.toNat_natCast, List.length_drop, List.length_take]
      omega
    have within := cut.within
    rw [reads, Option.map_some]
    dsimp only
    rw [if_neg (by omega)]
    cases teis.digested with
    | none => exact ⟨_, _, _, rfl, context, left, (Nat.sub_le _ _).trans within⟩
    | some bytes => exact ⟨_, _, _, rfl, context, left, (Nat.sub_le _ _).trans within⟩

/-- Whatever a callback reads, it leaves no more than what the entry should still have. -/
theorem Consumer.run_cutShort (consumer : Consumer C) {size padding : ℕ} {ctx : C}
    {teis : TarEntry (σ × C)} (cut : teis.CutShort rest size padding ctx) :
    ∃ ctx' teis', consumer.run (tarEntryRead (pairRead read) env) teis = some (ctx', teis') ∧
      teis'.CutShort rest size padding ctx := by
  induction consumer generalizing teis with
  | returns final => exact ⟨final, teis, rfl, cut⟩
  | reads asked next ih =>
      obtain ⟨r, stored, read', reads, after⟩ := tarEntryRead_cutShort full env cut asked
      obtain ⟨ctx', teis', runs, final⟩ := ih ⟨r, stored, read'.csum⟩ after
      refine ⟨ctx', teis', ?_, final⟩
      rw [Consumer.run, reads, Option.bind_some]
      exact runs

/-- The skip behind an entry that is cut short reaches the end. -/
theorem tarSkip_cutShort {s : TarState (σ × C)} {left size total : ℕ}
    (short : (rest s.tar.1).length ≤ left + (tarPadding total).length) (within : left ≤ size)
    (bounded : size < 2 ^ 63) (aligned : (s.offset + size) % 512 = total % 512) :
    ∃ s', tarSkip (pairRead read) s size left = some (0, s') ∧ rest s'.tar.1 = [] := by
  obtain ⟨toskip, _⟩ := tarToskip_aligned within bounded aligned
  unfold tarSkip
  dsimp only
  rw [toskip]
  by_cases nothing : left + (tarPadding total).length = 0
  · rw [if_pos nothing]
    exact ⟨_, rfl, List.length_eq_zero_iff.mp (by dsimp only; omega)⟩
  · rw [if_neg nothing]
    obtain ⟨r, tar, skips, dropped⟩ := FullReads.istreamSkip (pairRead_full full)
      (left + (tarPadding total).length) s.tar
    rw [skips]
    exact ⟨_, rfl, dropped.trans (List.drop_eq_nil_of_le short)⟩

variable (softChecksums : Bool) (callback : C → FileInfo → Consumer C)

/-- A record whose content is cut short is taken without an error. -/
theorem tarRecord_cutShort {s : TarState (σ × C)} {block : TarBlock} {content : Bytes}
    (declared : block.Declares content) (short : (rest s.tar.1).length ≤ (tarPadded content).length)
    (aligned : s.offset % 512 = 0) :
    ∃ s', tarRecord (pairRead read) env (deliver read env callback) softChecksums block.bytes s =
      some (0, s') ∧ rest s'.tar.1 = [] := by
  have bound := declared.length_lt
  have size : (tarHeader env block.bytes).size = content.length := declared
  rw [tarPadded, List.length_append] at short
  unfold tarRecord
  dsimp only
  split
  · -- a long name: what is there of it is taken for the name
    obtain ⟨tar, reads, after⟩ := pairRead_holds full
      (show Holds rest _ s.tar.2 s.tar from ⟨rfl, rfl⟩) content.length
    rw [size, if_neg (by omega), Int.toNat_natCast, reads, Option.bind_some]
    have padded : (rest tar.1).length ≤ 0 + (tarPadding content.length).length := by
      rw [after.1, List.length_drop]
      omega
    exact tarSkip_cutShort full padded (Nat.le_refl 0) (by norm_num) (by dsimp only; omega)
  · unfold tarContent
    have unsigned : toUnsigned 64 (tarTyped env softChecksums block.bytes
        (tarHeader env block.bytes)).1.size = content.length := by
      rw [tarTyped_size, size, toUnsigned]
      omega
    dsimp only
    rw [unsigned]
    split
    · generalize tarTyped env softChecksums block.bytes (tarHeader env block.bytes) = typed
      obtain ⟨ctx', teis, runs, cut⟩ := Consumer.run_cutShort full env
        (callback s.tar.2 { typed.1 with name := s.name.getD (tarString block.bytes 0) })
        (show TarEntry.CutShort rest content.length (tarPadding content.length).length s.tar.2
          ⟨s.tar, content.length, if typed.2 then some [] else none, typed.1.csum⟩ from
          ⟨rfl, short, Nat.le_refl _⟩)
      unfold deliver
      dsimp only
      rw [runs, Option.map_some, Option.bind_some]
      dsimp only
      rw [if_neg (not_not_intro rfl)]
      exact tarSkip_cutShort full (s := { s with tar := (teis.tar.1, ctx'), name := none })
        cut.short cut.within (by omega) (by dsimp only; omega)
    · exact tarSkip_cutShort full short (Nat.le_refl _) (by omega) (by omega)

/-- The loop at the end of the input. -/
theorem tarLoop_exhausted {s : TarState (σ × C)} (fuel : ℕ) (ended : rest s.tar.1 = []) :
    ∃ final, tarLoop (pairRead read) env (deliver read env callback) softChecksums (fuel + 1) s =
      some (0, final) := by
  obtain ⟨tar, reads, _⟩ := pairRead_holds full
    (show Holds rest _ s.tar.2 s.tar from ⟨rfl, rfl⟩) 512
  rw [ended] at reads
  rw [tarLoop, reads, Option.bind_some]
  exact ⟨tar, rfl⟩

/-- The loop at a record whose content is cut short. -/
theorem tarLoop_cutShort {s : TarState (σ × C)} {block : TarBlock} {content : Bytes} {kept : ℕ}
    {ctx : C} (declared : block.Declares content) (fuel : ℕ)
    (holds : Holds rest (block.bytes ++ (tarPadded content).take kept) ctx s.tar)
    (aligned : s.offset % 512 = 0) :
    ∃ final, tarLoop (pairRead read) env (deliver read env callback) softChecksums (fuel + 2) s =
      some (0, final) := by
  obtain ⟨tar, after, looped⟩ := tarLoop_block full env softChecksums callback block (fuel + 1) holds
  have short : (rest tar.1).length ≤ (tarPadded content).length := by
    rw [after.1, List.length_take]
    omega
  obtain ⟨s', recorded, ended⟩ := tarRecord_cutShort full env softChecksums callback
    (s := { s with tar, offset := (s.offset + 512) % 2 ^ 64 }) declared short
    (by dsimp only; omega)
  obtain ⟨final, result⟩ := tarLoop_exhausted full env softChecksums callback fuel ended
  refine ⟨final, ?_⟩
  rw [looped, recorded, Option.bind_some]
  exact (if_neg (not_not_intro rfl)).trans result

/-- The loop at the records of an entry that is cut. -/
theorem tarLoop_cut {s : TarState (σ × C)} {member : TarMember} {part : Bytes} {ctx : C}
    (cut : member.Cut part) (fuel : ℕ) (holds : Holds rest part ctx s.tar)
    (aligned : s.offset % 512 = 0) :
    ∃ final, tarLoop (pairRead read) env (deliver read env callback) softChecksums (fuel + 3) s =
      some (0, final) := by
  cases cut with
  | longName _ _ =>
      exact tarLoop_cutShort full env softChecksums callback (LongName.declared _) (fuel + 1) holds
        aligned
  | @data front kept whole _ =>
      rw [TarMember.bytes, ← List.append_assoc] at whole
      have front := List.append_cancel_right whole
      subst front
      cases kind : member.longName with
      | none =>
          rw [kind, List.nil_append] at holds
          exact tarLoop_cutShort full env softChecksums callback member.declared (fuel + 1) holds
            aligned
      | some long =>
          rw [kind] at holds
          simp only [List.append_assoc] at holds
          obtain ⟨tar, after, looped⟩ := tarLoop_block full env softChecksums callback
            long.block (fuel + 2) holds
          obtain ⟨s₁, recorded, after, aligned₁, _⟩ := tarRecord_long full env softChecksums callback
            (s := { s with tar, offset := (s.offset + 512) % 2 ^ 64 }) long after
            (by dsimp only; omega)
          obtain ⟨final, result⟩ := tarLoop_cutShort full env softChecksums callback member.declared
            fuel after aligned₁
          refine ⟨final, ?_⟩
          rw [looped, recorded, Option.bind_some]
          exact (if_neg (not_not_intro rfl)).trans result

/-- The loop at an archive that is cut. -/
theorem tarLoop_cutInside {member : TarMember} {part : Bytes} (cut : member.Cut part)
    (before : List TarMember) : ∀ (s : TarState (σ × C)) (ctx : C) (fuel : ℕ),
      Holds rest (before.flatMap TarMember.bytes ++ part) ctx s.tar → s.offset % 512 = 0 →
      2 * before.length + 3 ≤ fuel →
      ∃ final, tarLoop (pairRead read) env (deliver read env callback) softChecksums fuel s =
        some (0, final) := by
  induction before with
  | nil =>
      intro s ctx fuel holds aligned enough
      obtain ⟨fuel, rfl⟩ := Nat.exists_eq_add_of_le' enough
      exact tarLoop_cut full env softChecksums callback cut fuel holds aligned
  | cons member before ih =>
      intro s ctx fuel holds aligned enough
      rw [List.length_cons] at enough
      rw [List.flatMap_cons, List.append_assoc] at holds
      obtain ⟨s', fuel', looped, enough', holds', aligned', _⟩ :=
        tarLoop_member full env softChecksums callback member fuel holds aligned (by omega)
      obtain ⟨final, result⟩ := ih s' _ fuel' holds' aligned' (by omega)
      exact ⟨final, looped.trans result⟩

/-- **A cut archive is never reported.** Whatever the callback reads, the parse of an archive
that is cut inside the data or padding of an entry returns 0. -/
theorem tarParse_truncated {members : List TarMember} {kept : Bytes}
    (cut : CutInside members kept) (ctx : C) (tar : σ) (holds : rest tar = kept) {fuel : ℕ}
    (enough : 2 * members.length + 3 ≤ fuel) :
    ∃ final, tarParse (pairRead read) env (deliver read env callback) softChecksums fuel
      (tar, ctx) = some (0, final) := by
  obtain ⟨before, member, after, part, rfl, inside, rfl⟩ := cut
  rw [List.length_append] at enough
  exact tarLoop_cutInside full env softChecksums callback inside before { tar := (tar, ctx) } ctx
    fuel ⟨holds, rfl⟩ rfl (by omega)

end Cut

/-! ## A file of one byte -/

/-- A file with one byte of data. -/
def byteFile : TarMember where
  longName := none
  block := ⟨plainRecord (text "f") (ascii '0') 1, plainRecord_length .., by decide⟩
  data := text "x"
  typed := by decide
  declared := by decide

/-- The archive of this file up to its header. -/
theorem byteFile_cut : CutInside [byteFile] byteFile.block.bytes := by
  refine ⟨[], byteFile, [], byteFile.block.bytes, rfl, ?_, rfl⟩
  have whole : byteFile.bytes = byteFile.block.bytes ++ tarPadded byteFile.data := rfl
  have cut := @TarMember.Cut.data byteFile byteFile.block.bytes 0 whole (by
    rw [tarPadded, List.length_append]
    exact Nat.lt_add_right _ (by decide))
  rwa [List.take_zero, List.append_nil] at cut

/-- No read of the data, from an open file. -/
theorem tarParse_truncated_byte :
    ∃ final, tarParse (pairRead (OpenFile.fdiRead fun _ _ => 1))
      ⟨fun _ uid => uid, fun _ gid => gid, fun _ => []⟩
      (deliver (OpenFile.fdiRead fun _ _ => 1) ⟨fun _ uid => uid, fun _ gid => gid, fun _ => []⟩
        fun _ _ => .returns ()) false 5 (⟨byteFile.block.bytes, 0⟩, ()) = some (0, final) :=
  tarParse_truncated (OpenFile.fdiRead_full _) _ _ _ byteFile_cut () _ rfl (by decide)

/-- The file loses its data without an error. -/
theorem tarParse_truncated_unreported :
    ¬ ∀ (σ C : Type) (read : ReadFunction σ) (rest : σ → Bytes), FullReads read rest →
      ∀ (env : TarEnv) (softChecksums : Bool) (callback : C → FileInfo → Consumer C)
        (members : List TarMember) (kept : Bytes), CutInside members kept →
      ∀ (ctx : C) (tar : σ), rest tar = kept → ∀ fuel, 2 * members.length + 3 ≤ fuel →
      ∀ r final, tarParse (pairRead read) env (deliver read env callback) softChecksums fuel
        (tar, ctx) = some (r, final) → r ≠ 0 := by
  intro reported
  have env : TarEnv := ⟨fun _ uid => uid, fun _ gid => gid, fun _ => []⟩
  obtain ⟨before, member, after, part, split, inside, same⟩ := byteFile_cut
  obtain ⟨final, result⟩ := tarLoop_cutInside readBytes_full env false (fun () _ => .returns ())
    inside before { tar := (byteFile.block.bytes, ()) } () (2 * [byteFile].length + 3)
    ⟨same, rfl⟩ rfl (by rw [split, List.length_append]; omega)
  exact reported Bytes Unit readBytes id readBytes_full env false (fun () _ => .returns ())
    [byteFile] _ byteFile_cut () _ rfl _ (Nat.le_refl _) 0 final result rfl

end AriannaLinux.Apk
