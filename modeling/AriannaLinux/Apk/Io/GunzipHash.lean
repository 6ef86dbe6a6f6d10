import AriannaLinux.Apk.Io.Gunzip
import AriannaLinux.Lib.Recognizer

/-! # What the callback of a gzip stream is told

`gzi_read` remembers from where on the compressed bytes are still to be reported, and puts
a boundary off to the next read. The bytes reported, those put off and those not inflated
yet are always the whole of the input, and a boundary lies where a member ends.
-/

namespace AriannaLinux.Apk

/-- Inflation byte by byte: a state of the decompressor stands for a state of an automaton
that is fed the bytes taken. A call takes no byte behind the end of a member, and it says
that the member has ended exactly when it has. -/
structure Bytewise (zlib : Zlib) where
  auto : Recognizer UInt8
  position : zlib.State → auto.State
  position_start : position zlib.start = auto.start
  fed : ∀ state input room, position (zlib.inflate state input room).state =
    (input.take (zlib.inflate state input room).consumed).foldl auto.feed (position state)
  within : ∀ state input room, ∀ k, 0 < k → k < (zlib.inflate state input room).consumed →
    auto.ended ((input.take k).foldl auto.feed (position state)) = false
  ends : ∀ state input room, (zlib.inflate state input room).status ≠ .error →
    ((zlib.inflate state input room).status = .streamEnd ↔
      auto.ended (position (zlib.inflate state input room).state) = true)

/-- A call of the callback: what it was told, and what it returned. -/
structure ReportedCall where
  part : MPart
  blob : Option Bytes
  result : ℤ

variable {σ : Type*}

/-- A callback whose calls are recorded. -/
def logged (cb : MultipartCb σ) : MultipartCb (σ × List ReportedCall) := fun ctx part blob =>
  let (r, inner) := cb ctx.1 part blob
  (r, (inner, ctx.2 ++ [⟨part, blob, r⟩]))

/-- The bytes of the blobs that were passed, in their order. -/
def hashed (calls : List ReportedCall) : Bytes := (calls.map fun call => call.blob.getD []).flatten

@[simp] theorem hashed_append (calls : List ReportedCall) (call : ReportedCall) :
    hashed (calls ++ [call]) = hashed calls ++ call.blob.getD [] := by
  simp [hashed]

namespace Bstream

/-- Blocks that are not empty, and no error. -/
def Clean : Bstream → Prop
  | mmap _ => True
  | reads chunks error => error = 0 ∧ [] ∉ chunks
  | flagged chunks raised => [] ∉ chunks ∧ (raised = true → chunks = [])

/-- The bytes still to come. -/
def rest : Bstream → Bytes
  | mmap left => left.getD []
  | reads chunks _ => chunks.flatten
  | flagged chunks _ => chunks.flatten

/-- A read of a clean stream. -/
theorem Clean.read {bs : Bstream} (clean : bs.Clean) :
    bs.read.1 = bs.read.2.1.length ∧ bs.rest = bs.read.2.1 ++ bs.read.2.2.rest ∧
      bs.read.2.2.Clean ∧ (bs.read.2.1 = [] → bs.rest = []) := by
  match bs with
  | mmap left => simp [Bstream.read, rest, Clean]
  | reads [] error =>
      obtain ⟨noError, _⟩ := clean
      simp [Bstream.read, rest, Clean, noError]
  | reads (chunk :: chunks) error =>
      simp only [Clean, List.mem_cons, not_or] at clean
      obtain ⟨noError, nonempty, others⟩ := clean
      exact ⟨rfl, rfl, ⟨noError, others⟩, fun empty => absurd empty.symm nonempty⟩
  | flagged [] raised => simp [Bstream.read, rest, Clean]
  | flagged (chunk :: chunks) raised =>
      simp only [Clean, List.mem_cons, not_or] at clean
      obtain ⟨⟨nonempty, others⟩, _⟩ := clean
      exact ⟨rfl, rfl, ⟨others, List.isEmpty_iff.mp⟩, fun empty => absurd empty.symm nonempty⟩

end Bstream

namespace Gzip

variable {zlib : Zlib}

/-- Boundaries and ends with bytes lie where a member ends. -/
def AtEnds (members : List Bytes) (calls : List ReportedCall) : Prop :=
  ∀ before call after, calls = before ++ call :: after → call.part ≠ .data →
    call.blob.getD [] ≠ [] → ∃ j, hashed (before ++ [call]) = (members.take j).flatten

theorem AtEnds.append {members : List Bytes} {calls : List ReportedCall}
    (atEnds : AtEnds members calls) {call : ReportedCall}
    (here : call.part ≠ .data → call.blob.getD [] ≠ [] →
      ∃ j, hashed calls ++ call.blob.getD [] = (members.take j).flatten) :
    AtEnds members (calls ++ [call]) := by
  intro before other after split noData nonempty
  rcases List.eq_nil_or_concat after with rfl | ⟨front, last, rfl⟩
  · obtain ⟨rfl, same⟩ := List.append_inj' split rfl
    cases same
    rw [hashed_append]
    exact here noData nonempty
  · rw [List.concat_eq_append, ← List.cons_append, ← List.append_assoc] at split
    obtain ⟨same, _⟩ := List.append_inj' split rfl
    exact atEnds before other front same noData nonempty

/-- The stream while it goes on: the input is what was reported, what is put off, what was
inflated since, and what is still to come. -/
structure Tracks (bytewise : Bytewise zlib) (members : List Bytes) (tail : Bytes)
    (gis : Gzip zlib (σ × List ReportedCall)) : Prop where
  clean : gis.bs.Clean
  whole : hashed gis.ctx.2 ++ gis.cbarg.getD [] ++ gis.cbprev ++ gis.availIn ++ gis.bs.rest =
    members.flatten ++ tail
  place : ∃ j ≤ members.length, ∃ part,
    hashed gis.ctx.2 ++ gis.cbarg.getD [] ++ gis.cbprev = (members.take j).flatten ++ part ∧
      bytewise.position gis.zs = bytewise.auto.reach part ∧ bytewise.auto.Unended part
  boundary : ∀ blob, gis.cbarg = some blob → ∃ j,
    hashed gis.ctx.2 ++ blob = (members.take j).flatten
  atEnds : AtEnds members gis.ctx.2

/-- What is accounted for as long as the callback returned 0. -/
def Accounts (bytewise : Bytewise zlib) (members : List Bytes) (tail : Bytes)
    (gis : Gzip zlib (σ × List ReportedCall)) : Prop :=
  (∀ call ∈ gis.ctx.2, call.result = 0) →
    (gis.err = 0 → gis.Tracks bytewise members tail) ∧
    (0 < gis.err → hashed gis.ctx.2 = members.flatten ++ tail ∧ AtEnds members gis.ctx.2)

variable {bytewise : Bytewise zlib} {members : List Bytes} {tail : Bytes} {cb : MultipartCb σ}

theorem Accounts.of_failed {gis : Gzip zlib (σ × List ReportedCall)} (failed : gis.err < 0) :
    gis.Accounts bytewise members tail :=
  fun _ => ⟨fun clear => absurd clear failed.ne, fun positive => absurd positive failed.not_gt⟩

/-- The decompressor on the compression of nothing, whose state is how many bytes of the
member it has taken. -/
def emptyMemberInflate : Zlib where
  State := ℕ
  start := 0
  inflate n input _ :=
    let taken := min (20 - n) input.length
    if n < 20 ∧ (emptyMember.drop n).take taken = input.take taken then
      ⟨taken, [], if n + taken = 20 then .streamEnd else .ok, n + taken⟩
    else ⟨0, [], .error, n⟩
  consumed_le n input _ := by
    dsimp only
    split
    · exact Nat.min_le_right ..
    · exact Nat.zero_le _
  output_le n input _ := by
    dsimp only
    split <;> exact Nat.zero_le _
  progress n input _ nonempty _ := by
    dsimp only
    split
    · rename_i inside
      have positive := List.length_pos_iff.mpr nonempty
      intro _
      dsimp only
      omega
    · simp

end Gzip

end AriannaLinux.Apk
