import Mathlib.Data.Nat.Digits.Defs
import TaggedWire.Proofs.Numeral

/-!
# Every verdict on a varint

The reader looks no further than the first byte without a mark. What it says is settled by the
number of bytes up to there and by the number that they spell, taken as a natural: too many bytes or
too large a number is an overflow, and otherwise the number is returned if the last byte was found.
The reader works on words of 64 bits all the same, and tests the word before it takes the next
digit.
-/

namespace TaggedWire.Varint

/-- The number of bytes up to and including the first without a mark, or of all bytes if each of
them has one. -/
def reach (b : Bytes) : Nat := min (b.findIdx (· < 128) + 1) b.length

@[simp] theorem reach_nil : reach [] = 0 := rfl

theorem reach_cons_of_lt {d : UInt8} (hd : d < 128) (b : Bytes) : reach (d :: b) = 1 := by
  simp [reach, List.findIdx_cons, hd]

theorem reach_cons_of_le {d : UInt8} (hd : 128 ≤ d) (b : Bytes) :
    reach (d :: b) = reach b + 1 := by
  have hnot : ¬d < 128 := UInt8.not_lt.mpr hd
  simp only [reach, List.findIdx_cons, hnot, decide_false, cond_false, List.length_cons]
  omega

theorem reach_cons_pos (d : UInt8) (b : Bytes) : 0 < reach (d :: b) := by
  simp [reach]

/-- The number that these bytes spell. -/
def spelled (b : Bytes) : Nat := valueFrom 0 (b.take (reach b))

theorem valueFrom_zero_eq_ofDigits (ds : Bytes) :
    valueFrom 0 ds = Nat.ofDigits 128 (ds.reverse.map fun d ↦ d.toNat % 128) := by
  induction ds using List.reverseRecOn with
  | nil => rfl
  | append_singleton ds d ih =>
      rw [valueFrom_concat, ih, List.reverse_concat, List.map_cons, Nat.ofDigits_cons]
      omega

/-! ## Bytes that end a numeral -/

/-- The only numeral at the start of a string is what stands before and at the first byte without a
mark. -/
theorem terminated_prefix_iff {b ds : Bytes} :
    Terminated ds ∧ ds <+: b ↔ ds = b.take (reach b) ∧ ∃ d ∈ b, d < 128 := by
  induction b generalizing ds with
  | nil =>
      simp only [List.prefix_nil, List.not_mem_nil, false_and, exists_false, and_false, iff_false]
      rintro ⟨hds, rfl⟩
      exact not_terminated_nil hds
  | cons d b ih =>
      rcases UInt8.lt_or_le d 128 with hd | hd
      · rw [terminated_prefix_cons_of_lt hd, reach_cons_of_lt hd]
        simp [hd]
      · have hnot : ¬d < 128 := UInt8.not_lt.mpr hd
        rw [terminated_prefix_cons_of_le hd, reach_cons_of_le hd]
        simp only [ih, List.take_succ_cons, List.mem_cons, exists_eq_or_imp, hnot, false_or]
        constructor
        · rintro ⟨es, rfl, rfl, hb⟩
          exact ⟨rfl, hb⟩
        · rintro ⟨rfl, hb⟩
          exact ⟨_, rfl, rfl, hb⟩

/-! ## Overflow -/

theorem two_pow_le_valueFrom_take {acc : UInt64} (hacc : maxLeading < acc) (d : UInt8) (b : Bytes) :
    2 ^ 64 ≤ valueFrom acc.toNat ((d :: b).take (reach (d :: b))) := by
  have hlt : 0x1FFFFFFFFFFFFFF < acc.toNat := UInt64.lt_iff_toNat_lt.mp hacc
  obtain ⟨k, hk⟩ := Nat.exists_eq_succ_of_ne_zero (reach_cons_pos d b).ne'
  have hle := le_valueFrom (acc.toNat * 128 + d.toNat % 128) (b.take k)
  rw [hk, List.take_succ_cons, valueFrom_cons]
  omega

/-- The induction is on the bytes that are left. A word within `maxLeading` takes the next digit
without loss, and a larger one cannot: its number leaves 64 bits whatever the digit. -/
theorem decodeFrom_eq_overflow_iff {used : Nat} {acc : UInt64} {b : Bytes}
    (hused : used ≤ maxDigits) :
    decodeFrom used acc b = .error .varintOverflow ↔
      maxDigits < used + reach b ∨ 2 ^ 64 ≤ valueFrom acc.toNat (b.take (reach b)) := by
  induction b generalizing used acc with
  | nil =>
      have hacc := acc.toNat_lt
      simp only [decodeFrom, Except.error.injEq, reduceCtorEq, reach_nil, List.take_nil,
        valueFrom_nil, false_iff]
      omega
  | cons d b ih =>
      have hpos := reach_cons_pos d b
      rw [decodeFrom]
      split
      · next hguard =>
        refine iff_of_true rfl ?_
        rcases hguard with hguard | hacc
        · left
          omega
        · right
          exact two_pow_le_valueFrom_take hacc d b
      · next hguard =>
        obtain ⟨hroom, hacc⟩ := not_or.mp hguard
        have hstep := toNat_mul_add_digit hacc d
        have hword := UInt64.toNat_lt (acc * 128 + UInt64.ofNat (d.toNat % 128))
        dsimp only
        split
        · next hd =>
          rw [reach_cons_of_lt hd, List.take_succ_cons, List.take_zero, valueFrom_cons,
            valueFrom_nil, ← hstep]
          refine iff_of_false (by simp) ?_
          omega
        · next hd =>
          rw [ih (by omega), reach_cons_of_le (UInt8.not_lt.mp hd), List.take_succ_cons,
            valueFrom_cons, hstep, Nat.add_right_comm, Nat.add_assoc]

theorem decodeFrom_ne_invalidUtf8 (used : Nat) (acc : UInt64) (b : Bytes) :
    decodeFrom used acc b ≠ .error .invalidUtf8 := by
  fun_induction decodeFrom used acc b with
  | case1 => simp
  | case2 => simp
  | case3 => simp
  | case4 used acc d b hguard acc' hd ih => exact ih

/-! ## The three verdicts -/

theorem decode_eq_overflow_iff (b : Bytes) :
    decode b = .error .varintOverflow ↔ maxDigits < reach b ∨ 2 ^ 64 ≤ spelled b := by
  rw [decode, decodeFrom_eq_overflow_iff (Nat.zero_le maxDigits), Nat.zero_add]
  rfl

theorem decode_eq_ok_iff_spelled (b : Bytes) (v : UInt64) (k : Nat) :
    decode b = .ok (v, k) ↔
      ¬(maxDigits < reach b ∨ 2 ^ 64 ≤ spelled b) ∧ (∃ d ∈ b, d < 128) ∧
        v.toNat = spelled b ∧ k = reach b := by
  have hlength : (b.take (reach b)).length = reach b :=
    List.length_take_of_le (Nat.min_le_right _ _)
  rw [decode_eq_ok_iff]
  constructor
  · rintro ⟨ds, ⟨hds, hval⟩, hpre, rfl, hmax⟩
    obtain ⟨rfl, hend⟩ := terminated_prefix_iff.mp ⟨hds, hpre⟩
    have hvalue : v.toNat = spelled b := hval.symm
    have hword := v.toNat_lt
    rw [hlength] at hmax
    exact ⟨by omega, hend, hvalue, hlength⟩
  · rintro ⟨hsmall, hend, hval, rfl⟩
    obtain ⟨hds, hpre⟩ := terminated_prefix_iff.mpr ⟨rfl, hend⟩
    exact ⟨b.take (reach b), ⟨hds, hval.symm⟩, hpre, hlength.symm, by omega⟩

theorem decode_eq_truncated_iff (b : Bytes) :
    decode b = .error .truncatedInput ↔
      ¬(maxDigits < reach b ∨ 2 ^ 64 ≤ spelled b) ∧ ¬∃ d ∈ b, d < 128 := by
  constructor
  · intro h
    have hsmall : ¬(maxDigits < reach b ∨ 2 ^ 64 ≤ spelled b) := by
      rw [← decode_eq_overflow_iff, h]
      simp
    refine ⟨hsmall, ?_⟩
    -- With a last byte the string would have been accepted.
    intro hend
    have hlt : spelled b < 2 ^ 64 := by omega
    have hword : (UInt64.ofNat (spelled b)).toNat = spelled b := UInt64.toNat_ofNat_of_lt' hlt
    have haccept := (decode_eq_ok_iff_spelled b _ _).mpr ⟨hsmall, hend, hword, rfl⟩
    rw [h] at haccept
    cases haccept
  · rintro ⟨hsmall, hend⟩
    cases hdecode : decode b with
    | ok r => exact absurd ((decode_eq_ok_iff_spelled b r.1 r.2).mp hdecode).2.1 hend
    | error e =>
        cases e with
        | truncatedInput => rfl
        | varintOverflow => exact absurd ((decode_eq_overflow_iff b).mp hdecode) hsmall
        | invalidUtf8 => exact absurd hdecode (decodeFrom_ne_invalidUtf8 0 0 b)

/-- The verdict on a string follows from the number of bytes up to the first without a mark and from
the number that these bytes spell, however large. No number below `2 ^ 64` in at most ten digits is
refused, and none is returned that differs from what is spelled. -/
theorem decode_verdict (b : Bytes) :
    let m := min (b.findIdx (· < 128) + 1) b.length
    let V := Nat.ofDigits 128 ((b.take m).reverse.map fun d ↦ d.toNat % 128)
    (decode b = .error .varintOverflow ↔ 10 < m ∨ 2 ^ 64 ≤ V) ∧
    (∀ v k, decode b = .ok (v, k) ↔
      ¬(10 < m ∨ 2 ^ 64 ≤ V) ∧ (∃ d ∈ b, d < 128) ∧ v.toNat = V ∧ k = m) ∧
    (decode b = .error .truncatedInput ↔ ¬(10 < m ∨ 2 ^ 64 ≤ V) ∧ ¬∃ d ∈ b, d < 128) := by
  intro m V
  have hV : V = spelled b := (valueFrom_zero_eq_ofDigits _).symm
  rw [hV]
  exact ⟨decode_eq_overflow_iff b, decode_eq_ok_iff_spelled b, decode_eq_truncated_iff b⟩

end TaggedWire.Varint
