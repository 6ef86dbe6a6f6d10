import AriannaLinux.Apk.Io.Istream

/-! # Streams that read in full

An input stream whose reads fall short only at the end of its input: `rest` says what is
still to come. Skipping such a stream is dropping what is skipped.
-/

namespace AriannaLinux.Apk

variable {σ : Type*}

/-- Every read gives all that is asked for, or all that is left. -/
def FullReads (read : ReadFunction σ) (rest : σ → Bytes) : Prop :=
  ∀ s size, ∃ s', read s size = some ⟨((rest s).take size).length, (rest s).take size, s'⟩ ∧
    rest s' = (rest s).drop size

/-- The bytes themselves as a stream. -/
def readBytes : ReadFunction Bytes := fun bytes size =>
  some ⟨(bytes.take size).length, bytes.take size, bytes.drop size⟩

theorem readBytes_full : FullReads readBytes id := fun _ _ => ⟨_, rfl, rfl⟩

/-- A skip drops what it skips. -/
theorem FullReads.istreamSkip {read : ReadFunction σ} {rest : σ → Bytes}
    (full : FullReads read rest) (size : ℕ) (s : σ) :
    ∃ r s', Apk.istreamSkip read size s = some (r, s') ∧ rest s' = (rest s).drop size := by
  have loop : ∀ fuel left done s, left + 2048 ≤ 2048 * fuel →
      ∃ r s', istreamSkipLoop read fuel left done s = some (r, s') ∧
        rest s' = (rest s).drop left := by
    intro fuel
    induction fuel with
    | zero =>
        intro left done s enough
        omega
    | succ fuel ih =>
        intro left done s enough
        rw [istreamSkipLoop]
        by_cases none : left = 0
        · rw [if_pos none]
          exact ⟨_, s, rfl, by rw [none, List.drop_zero]⟩
        · rw [if_neg none]
          obtain ⟨s', reads, after⟩ := full s (min left 2048)
          simp only [reads, Option.bind_eq_bind, Option.bind_some]
          split
          · next short =>
              -- the input ended within this round
              refine ⟨_, s', rfl, ?_⟩
              rw [List.length_take] at short
              rw [after, List.drop_eq_nil_of_le (by omega), List.drop_eq_nil_of_le (by omega)]
          · obtain ⟨r, final, skips, dropped⟩ := ih (left - min left 2048) _ s' (by omega)
            refine ⟨r, final, skips, ?_⟩
            rw [dropped, after, List.drop_drop]
            congr 1
            omega
  exact loop _ _ _ s (by omega)

end AriannaLinux.Apk
