import AriannaLinux.Apk.PackageRead

/-! # Read errors on metadata

`apk_blob_from_istream` keeps the result of its read in an unsigned variable, so an error is not
seen: the block is given up by a `realloc` that fails, and the error is the length behind NULL.
The splitter takes that length for a huge one. Metadata are read safely exactly when the read
returns no error (`metadata_contained_iff`).
-/

namespace AriannaLinux.Apk

section Blobs

variable {σ : Type*} {read : ReadFunction σ} {size : ℕ} {s : σ} {out : Read σ}

/-- The bytes a read brought. -/
def Read.bytes (out : Read σ) : Bytes := out.stored.take out.result.toNat

/-- The blob a read is to give: NULL of no length on an error, else the bytes it brought. -/
def OwnedBlob.Of (out : Read σ) (blob : OwnedBlob) : Prop :=
  if out.result < 0 then blob = .null 0
  else blob.bytes = out.bytes ∧ blob.len = out.bytes.length

/-- Metadata are read as they are to be: into the blob of the read, and on an error nothing is
called for the lines of it, and nothing is read. -/
def MetadataContained (read : ReadFunction σ) (size : ℤ) (s : σ) (out : Read σ) : Prop :=
  ∃ blob, blobFromIstream read size s = some (blob, out.state) ∧ blob.Of out ∧
    (out.result < 0 → ∀ {τ : Type} (cb : τ → Bytes → ℤ × τ) (ctx : τ),
      blob.forEachSegment newline cb ctx = some (0, ctx))

theorem blobFromIstream_read (reads : read s size = some out) :
    blobFromIstream read size s = some (if out.result ≠ size then realloc out.stored out.result
      else .block (out.stored.take size), out.state) := by
  unfold blobFromIstream
  rw [if_neg (not_lt.mpr (Int.natCast_nonneg size)), Int.toNat_natCast, reads, Option.bind_eq_bind,
    Option.bind_some]

/-- **An error** is the length behind NULL. -/
theorem blobFromIstream_failed (reads : read s size = some out) (failed : out.result < 0) :
    blobFromIstream read size s = some (.null out.result, out.state) := by
  have differs : out.result ≠ size := by omega
  rw [blobFromIstream_read reads, if_pos differs, realloc, if_pos failed.le]

/-- Without an error, the blob has the bytes that the read brought; its pointer may be NULL if
they are none. -/
theorem blobFromIstream_done (reads : read s size = some out) (done : 0 ≤ out.result) :
    ∃ blob, blobFromIstream read size s = some (blob, out.state) ∧ blob.Of out ∧
      (blob = .block out.bytes ∨ blob = .null 0) := by
  rw [blobFromIstream_read reads]
  by_cases whole : out.result = size
  · rw [if_neg (not_not.mpr whole)]
    have same : out.stored.take size = out.bytes := by rw [Read.bytes, whole, Int.toNat_natCast]
    rw [same]
    refine ⟨_, rfl, ?_, .inl rfl⟩
    rw [OwnedBlob.Of, if_neg (not_lt.mpr done)]
    exact ⟨rfl, rfl⟩
  · rw [if_pos whole, realloc]
    by_cases nothing : out.result ≤ 0
    · have zero : out.result = 0 := le_antisymm nothing done
      have empty : out.bytes = [] := by rw [Read.bytes, zero]; rfl
      rw [if_pos nothing, zero]
      refine ⟨_, rfl, ?_, .inr rfl⟩
      rw [OwnedBlob.Of, if_neg (not_lt.mpr done), empty]
      exact ⟨rfl, rfl⟩
    · rw [if_neg nothing]
      refine ⟨_, rfl, ?_, .inl rfl⟩
      rw [OwnedBlob.Of, if_neg (not_lt.mpr done)]
      exact ⟨rfl, rfl⟩

/-- The lines of NULL are looked for at NULL, if it has the length of an error. -/
theorem OwnedBlob.forEachSegment_error {τ : Type*} {r : ℤ} (cb : τ → Bytes → ℤ × τ) (ctx : τ)
    (failed : r < 0) (fits : -2 ^ 63 ≤ r) :
    (OwnedBlob.null r).forEachSegment newline cb ctx = none := by
  rw [forEachSegment_null newline cb ctx failed.le, if_neg (by omega)]

/-- **The lines of metadata** are found without leaving the blob exactly when the read did not
fail. -/
theorem metadata_lines_iff (reads : read s size = some out) (fits : -2 ^ 63 ≤ out.result) :
    ∃ blob, blobFromIstream read size s = some (blob, out.state) ∧
      ∀ {τ : Type*} (cb : τ → Bytes → ℤ × τ) (ctx : τ),
        (blob.forEachSegment newline cb ctx).isSome ↔ 0 ≤ out.result := by
  rcases lt_or_ge out.result 0 with failed | done
  · refine ⟨_, blobFromIstream_failed reads failed, fun cb ctx => ?_⟩
    rw [OwnedBlob.forEachSegment_error cb ctx failed fits]
    exact ⟨fun absurdly => absurd absurdly Bool.false_ne_true, fun done => absurd failed done.not_gt⟩
  · obtain ⟨blob, taken, -, kind⟩ := blobFromIstream_done reads done
    refine ⟨blob, taken, fun cb ctx => iff_of_true ?_ done⟩
    rcases kind with rfl | rfl
    · rw [OwnedBlob.forEachSegment_block]
      rfl
    · rw [OwnedBlob.forEachSegment_null newline cb ctx le_rfl, if_pos (Int.zero_emod _)]
      rfl

theorem metadataContained_iff_done (reads : read s size = some out) :
    MetadataContained read size s out ↔ 0 ≤ out.result := by
  constructor
  · rintro ⟨blob, taken, isOf, -⟩
    by_contra failed
    have failed := not_le.mp failed
    rw [blobFromIstream_failed reads failed] at taken
    cases taken
    rw [OwnedBlob.Of, if_pos failed] at isOf
    exact failed.ne (OwnedBlob.null.inj isOf)
  · intro done
    obtain ⟨blob, taken, isOf, -⟩ := blobFromIstream_done reads done
    exact ⟨blob, taken, isOf, fun failed => absurd failed done.not_gt⟩

end Blobs

/-! ## The callers -/

section Callers

variable {Key : Type*} {zlib : Zlib} {τ : Type*}

/-- An entry callback comes to the metadata of an entry, and reads them with an outcome. -/
structure ReadsInfo (crypto : Crypto Key) (flags : Flags) (env : TarEnv)
    (teis : VerifiedEntry zlib Key τ) (fi : FileInfo) (out : Read (VerifiedEntry zlib Key τ)) :
    Prop where
  named : fi.name = text ".PKGINFO"
  sized : 0 ≤ fi.size
  reads : ∃ r after, processEntry crypto flags env teis fi = some (r, after) ∧ r ≠ 0 ∧
    tarEntryRead (verifiedRead crypto flags) env after fi.size.toNat = some out
  fits : -2 ^ 63 ≤ out.result

variable {crypto : Crypto Key} {flags : Flags} {env : TarEnv} {fi : FileInfo}

/-- What the three callbacks share: the file is processed and the metadata are taken as a blob,
whose lines can be looked at unless the read failed. -/
theorem ReadsInfo.lines {teis : VerifiedEntry zlib Key τ} {out : Read (VerifiedEntry zlib Key τ)}
    (info : ReadsInfo crypto flags env teis fi out) :
    ∃ r after blob, processEntry crypto flags env teis fi = some (r, after) ∧ r ≠ 0 ∧
      blobFromIstream (tarEntryRead (verifiedRead crypto flags) env) fi.size after =
        some (blob, out.state) ∧
      ∀ {ρ : Type _} (cb : ρ → Bytes → ℤ × ρ) (ctx : ρ),
        (blob.forEachSegment newline cb ctx).isSome ↔ 0 ≤ out.result := by
  obtain ⟨r, after, processed, going, reads⟩ := info.reads
  obtain ⟨blob, taken, lines⟩ := metadata_lines_iff reads info.fits
  rw [Int.toNat_of_nonneg info.sized] at taken
  exact ⟨r, after, blob, processed, going, taken, lines⟩

theorem verifyTar_isSome_iff {teis : VerifiedEntry zlib Key τ}
    {out : Read (VerifiedEntry zlib Key τ)} (info : ReadsInfo crypto flags env teis fi out) :
    (verifyTar crypto flags env teis fi).isSome ↔ 0 ≤ out.result := by
  obtain ⟨r, after, blob, processed, going, taken, lines⟩ := info.lines
  unfold verifyTar
  rw [processed, Option.bind_some]
  dsimp only
  rw [if_neg going, if_pos info.named, taken, Option.bind_some]
  dsimp only
  rw [Option.isSome_map, lines]

theorem readInfoEntry_isSome_iff {teis : PackageEntry zlib Key}
    {out : Read (PackageEntry zlib Key)} (info : ReadsInfo crypto flags env teis fi out) :
    (readInfoEntry crypto flags env teis fi).isSome ↔ 0 ≤ out.result := by
  obtain ⟨r, after, blob, processed, going, taken, lines⟩ := info.lines
  unfold readInfoEntry PackageEntry.pkginfo
  rw [processed, Option.bind_some]
  dsimp only
  rw [if_neg going, if_pos (by rw [info.named]; rfl), if_pos info.named, taken, Option.bind_some]
  dsimp only
  rw [Option.isSome_map, lines]

theorem installArchiveEntry_isSome_iff {env : InstallEnv Key} {teis : InstallEntry zlib Key}
    {out : Read (InstallEntry zlib Key)}
    (info : ReadsInfo env.crypto env.flags env.tar teis fi out) :
    (installArchiveEntry env teis fi).isSome ↔ 0 ≤ out.result := by
  obtain ⟨r, after, blob, processed, going, taken, lines⟩ := info.lines
  unfold installArchiveEntry
  dsimp only
  rw [processed, Option.bind_some]
  dsimp only
  rw [if_neg going]
  have kind : InstallCtx.entryKind (InstallEntry.ctx after) fi.name = .pkginfo := by
    rw [info.named]
    rfl
  rw [kind]
  dsimp only
  unfold InstallEntry.pkginfo InstallEntry.read
  rw [taken, Option.bind_some]
  dsimp only
  rw [Option.isSome_map, lines]

/-- **Read errors on metadata.** A read gives the blob it is to give, and no error spreads to the
lines of it, exactly when the read does not fail; and each of the callbacks that parse
`.PKGINFO` returns exactly when the read of its content does not fail: else it reads at NULL. -/
theorem metadata_contained_iff (zlib : Zlib) (crypto : Crypto Key) (flags : Flags)
    (tar : TarEnv) :
    (∀ {σ : Type} (read : ReadFunction σ) (size : ℕ) (s : σ) (out : Read σ),
      read s size = some out → (MetadataContained read size s out ↔ 0 ≤ out.result)) ∧
    (∀ {τ : Type} (teis : VerifiedEntry zlib Key τ) (fi : FileInfo) (out : Read _),
      ReadsInfo crypto flags tar teis fi out →
        ((verifyTar crypto flags tar teis fi).isSome ↔ 0 ≤ out.result)) ∧
    (∀ (teis : PackageEntry zlib Key) (fi : FileInfo) (out : Read _),
      ReadsInfo crypto flags tar teis fi out →
        ((readInfoEntry crypto flags tar teis fi).isSome ↔ 0 ≤ out.result)) ∧
    (∀ (env : InstallEnv Key) (teis : InstallEntry zlib Key) (fi : FileInfo) (out : Read _),
      ReadsInfo env.crypto env.flags env.tar teis fi out →
        ((installArchiveEntry env teis fi).isSome ↔ 0 ≤ out.result)) :=
  ⟨fun _ _ _ _ reads => metadataContained_iff_done reads, fun _ _ _ info => verifyTar_isSome_iff info,
    fun _ _ _ info => readInfoEntry_isSome_iff info,
    fun _ _ _ _ info => installArchiveEntry_isSome_iff info⟩

/-- An entry of a stream that has failed. -/
def failedEntry : VerifiedEntry emptyMemberZlib Unit Unit where
  tar := { Gzip.gunzipMpart _ (.reads [] 0) ⟨.init .none .zero false, (), []⟩ with err := eio }
  bytesLeft := 100
  digested := none
  csum := .zero

/-- The metadata of that entry are not read safely. -/
theorem metadata_contained_failed :
    ¬ (verifyTar emptyMemberCrypto {} emptyTarEnv failedEntry
      { name := text ".PKGINFO", size := 100 }).isSome := by
  obtain ⟨after, processed, failed⟩ : ∃ after, processEntry emptyMemberCrypto {} emptyTarEnv
      failedEntry { name := text ".PKGINFO", size := 100 } = some (1, after) ∧
        tarEntryRead (verifiedRead emptyMemberCrypto {}) emptyTarEnv after 100 =
          some ⟨eio, [], after⟩ := ⟨_, rfl, rfl⟩
  have info : ReadsInfo emptyMemberCrypto {} emptyTarEnv failedEntry
      { name := text ".PKGINFO", size := 100 } ⟨eio, [], after⟩ :=
    ⟨rfl, by decide, ⟨1, after, processed, by decide, failed⟩, by simp only; decide⟩
  rw [(metadata_contained_iff emptyMemberZlib emptyMemberCrypto {} emptyTarEnv).2.1 _ _ _ info]
  exact not_le.mpr (show eio < 0 by decide)

/-- **A read error that spreads.** A read that fails gives NULL of the length -5, and whatever is
to be called for its lines, reading them faults. -/
theorem metadata_error_spreads :
    blobFromIstream (fun (s : Unit) _ => some ⟨eio, [], s⟩) 100 () = some (.null eio, ()) ∧
      (∀ (cb : Unit → Bytes → ℤ × Unit) (ctx : Unit),
        (OwnedBlob.null eio).forEachSegment newline cb ctx = none) ∧
      ¬ MetadataContained (fun (s : Unit) _ => some ⟨eio, [], s⟩) 100 () ⟨eio, [], ()⟩ := by
  refine ⟨rfl, fun cb ctx => OwnedBlob.forEachSegment_error cb ctx (by decide) (by decide), ?_⟩
  rintro ⟨blob, taken, isOf, -⟩
  have spread : blob = .null eio := (Prod.mk.inj (Option.some.inj taken)).1.symm
  rw [spread, OwnedBlob.Of, if_pos (by decide)] at isOf
  cases isOf

end Callers

end AriannaLinux.Apk
