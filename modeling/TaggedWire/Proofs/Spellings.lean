import Mathlib.Data.Set.Card
import TaggedWire.Proofs.Numeral

/-!
# The spellings of a number

A word has as many digits as the position of its highest bit tells, which is the least number of
digits that can spell it. The reader takes for the word these digits behind any number of marked
zeros that leaves ten bytes at the most, and nothing else.
-/

namespace TaggedWire.Varint

/-! ## The number of digits -/

theorem lt_pow_length_leadingDigits (n : Nat) : n < 128 ^ (leadingDigits n).length := by
  fun_induction leadingDigits n with
  | case1 => simp
  | case2 n hn ih =>
      simp only [List.length_append, List.length_singleton, Nat.pow_succ]
      omega

theorem length_leadingDigits_le_iff {n k : Nat} : (leadingDigits n).length ≤ k ↔ n < 128 ^ k := by
  refine ⟨?_, length_leadingDigits_le⟩
  intro h
  exact (lt_pow_length_leadingDigits n).trans_le (Nat.pow_le_pow_right (by decide) h)

theorem length_digits_le_succ_iff {n k : Nat} : (digits n).length ≤ k + 1 ↔ n < 128 ^ (k + 1) := by
  have hlength : (digits n).length = (leadingDigits (n / 128)).length + 1 := by simp [digits]
  have hdiv : n / 128 < 128 ^ k ↔ n < 128 ^ (k + 1) := Nat.div_lt_iff_lt_mul (by decide)
  simp only [hlength, Nat.add_le_add_iff_right, length_leadingDigits_le_iff, hdiv]

theorem toNat_ne_zero {v : UInt64} (hv : v ≠ 0) : v.toNat ≠ 0 :=
  fun h ↦ hv (UInt64.toNat_inj.mp h)

theorem encodedLength_pos (v : UInt64) : 0 < encodedLength v := by
  unfold encodedLength
  split <;> omega

/-- A digit holds seven bits, so the highest bit tells which power of 128 exceeds the word. -/
theorem encodedLength_le_succ_iff {v : UInt64} {k : Nat} :
    encodedLength v ≤ k + 1 ↔ v.toNat < 128 ^ (k + 1) := by
  by_cases hv : v = 0
  · simp [hv, encodedLength]
  · have hpow : 128 ^ (k + 1) = 2 ^ (7 * (k + 1)) := (Nat.pow_mul 2 7 (k + 1)).symm
    have hbits : encodedLength v ≤ k + 1 ↔ v.toNat.log2 < 7 * (k + 1) := by
      simp only [encodedLength, hv, if_false]
      omega
    exact hbits.trans (hpow ▸ Nat.log2_lt (toNat_ne_zero hv))

theorem length_encode (v : UInt64) : (encode v).length = encodedLength v := by
  obtain ⟨k, hk⟩ := Nat.exists_eq_add_one.mpr (encodedLength_pos v)
  obtain ⟨j, hj⟩ := Nat.exists_eq_add_one.mpr (numeral_digits v.toNat).length_pos
  apply Nat.le_antisymm
  · calc
      (digits v.toNat).length ≤ k + 1 :=
        length_digits_le_succ_iff.mpr (encodedLength_le_succ_iff.mp hk.le)
      _ = encodedLength v := hk.symm
  · calc
      encodedLength v ≤ j + 1 := encodedLength_le_succ_iff.mpr (length_digits_le_succ_iff.mp hj.le)
      _ = (digits v.toNat).length := hj.symm

theorem encodedLength_le (v : UInt64) : encodedLength v ≤ maxDigits :=
  (length_encode v).symm.trans_le (length_digits_le v.toNat_lt)

theorem isLeast_encodedLength (v : UInt64) :
    IsLeast {k | 1 ≤ k ∧ v.toNat < 128 ^ k} (encodedLength v) := by
  refine ⟨⟨encodedLength_pos v, ?_⟩, ?_⟩
  · obtain ⟨k, hk⟩ := Nat.exists_eq_add_one.mpr (encodedLength_pos v)
    have hlt := encodedLength_le_succ_iff.mp hk.le
    simpa [hk] using hlt
  · rintro k ⟨hpos, hlt⟩
    obtain ⟨j, rfl⟩ := Nat.exists_eq_add_one.mpr hpos
    exact encodedLength_le_succ_iff.mpr hlt

/-! ## Accepted strings -/

/-- The digits of a word behind `j` marked zeros. -/
def padded (v : UInt64) (j : Nat) : Bytes := List.replicate j 0x80 ++ encode v

theorem length_padded (v : UInt64) (j : Nat) : (padded v j).length = j + encodedLength v := by
  simp [padded, length_encode]

theorem padded_injective (v : UInt64) : Function.Injective (padded v) := by
  intro i j h
  have hlength := congrArg List.length h
  simp only [length_padded] at hlength
  omega

/-- Of the strings that spell a word, the reader accepts those of at most ten digits. -/
theorem decode_eq_ok_iff_padded {b : Bytes} {v : UInt64} {k : Nat} :
    decode b = .ok (v, k) ↔ ∃ j, padded v j <+: b ∧ k = j + encodedLength v ∧ k ≤ maxDigits := by
  rw [decode_eq_ok_iff]
  constructor
  · intro h
    obtain ⟨ds, hnum, hpre, rfl, hmax⟩ := h
    obtain ⟨j, rfl⟩ := numeral_iff.mp hnum
    exact ⟨j, hpre, length_padded v j, hmax⟩
  · intro h
    obtain ⟨j, hpre, rfl, hmax⟩ := h
    exact ⟨padded v j, numeral_iff.mpr ⟨j, rfl⟩, hpre, (length_padded v j).symm, hmax⟩

theorem decode_eq_ok_iff_take {b : Bytes} {v : UInt64} {k : Nat} :
    decode b = .ok (v, k) ↔
      encodedLength v ≤ k ∧ k ≤ maxDigits ∧ k ≤ b.length ∧
        b.take k = padded v (k - encodedLength v) := by
  rw [decode_eq_ok_iff_padded]
  constructor
  · intro h
    obtain ⟨j, hpre, rfl, hmax⟩ := h
    have hlength := length_padded v j
    have hle : j + encodedLength v ≤ b.length := hlength ▸ hpre.length_le
    refine ⟨Nat.le_add_left _ _, hmax, hle, ?_⟩
    simpa [hlength] using (List.prefix_iff_eq_take.mp hpre).symm
  · intro h
    obtain ⟨hmin, hmax, hle, htake⟩ := h
    refine ⟨k - encodedLength v, ?_, by omega, hmax⟩
    simpa [htake] using List.take_prefix k b

theorem decode_eq_ok_length_iff {w : Bytes} {v : UInt64} :
    decode w = .ok (v, w.length) ↔ ∃ j < 11 - encodedLength v, padded v j = w := by
  have hmin := encodedLength_le v
  rw [maxDigits] at hmin
  rw [decode_eq_ok_iff_padded, maxDigits]
  constructor
  · intro h
    obtain ⟨j, hpre, hk, hmax⟩ := h
    refine ⟨j, by omega, hpre.eq_of_length ?_⟩
    exact (length_padded v j).trans hk.symm
  · intro h
    obtain ⟨j, hj, rfl⟩ := h
    have hlength := length_padded v j
    exact ⟨j, List.prefix_refl _, hlength, by omega⟩

theorem setOf_decode_eq_ok (v : UInt64) :
    {w | decode w = .ok (v, w.length)} = padded v '' ↑(Finset.range (11 - encodedLength v)) := by
  ext w
  simp [decode_eq_ok_length_iff]

/-- A string is accepted for a word exactly if it begins with the digits that are written for the
word behind marked zeros, ten bytes at the most. So what is written reads back whatever follows,
every other form is longer, and there are as many forms as there is room for marked zeros. -/
theorem decode_eq_ok_iff_zeros_append_encode (v : UInt64) :
    (∀ b k, decode b = .ok (v, k) ↔
      encodedLength v ≤ k ∧ k ≤ 10 ∧ k ≤ b.length ∧
        b.take k = List.replicate (k - encodedLength v) 0x80 ++ encode v) ∧
    (∀ s, decode (encode v ++ s) = .ok (v, (encode v).length)) ∧
    (∀ w, decode w = .ok (v, w.length) → w ≠ encode v → (encode v).length < w.length) ∧
    {w | decode w = .ok (v, w.length)}.ncard = 11 - encodedLength v := by
  refine ⟨fun b k ↦ decode_eq_ok_iff_take, ?_, ?_, ?_⟩
  · intro s
    rw [length_encode]
    refine decode_eq_ok_iff_padded.mpr ⟨0, ?_, (Nat.zero_add _).symm, encodedLength_le v⟩
    exact List.prefix_append (encode v) s
  · intro w hw hne
    obtain ⟨j, -, rfl⟩ := decode_eq_ok_length_iff.mp hw
    have hzero : j ≠ 0 := by
      rintro rfl
      exact hne rfl
    have hlength := length_padded v j
    have hshortest := length_encode v
    omega
  · calc
      {w | decode w = .ok (v, w.length)}.ncard
        = (padded v '' ↑(Finset.range (11 - encodedLength v))).ncard := by
          rw [setOf_decode_eq_ok]
      _ = (Finset.range (11 - encodedLength v) : Set Nat).ncard :=
          Set.ncard_image_of_injective _ (padded_injective v)
      _ = 11 - encodedLength v := (Set.ncard_coe_finset _).trans (Finset.card_range _)

end TaggedWire.Varint
