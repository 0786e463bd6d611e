import Mathlib.Algebra.Group.Nat.Defs
import Mathlib.Data.List.Induction
import TaggedWire.Varint

/-!
# Numerals in base 128

A numeral is a string of digits of which all but the last are marked. `Numeral n` holds of the
numerals that spell `n`, leading zeros included. The digits that `encode` writes are the shortest of
them, every other one is these digits behind a run of marked zeros, and `decode` accepts exactly the
numerals of at most ten digits whose value is a word of 64 bits.
-/

namespace TaggedWire.Varint

/-- The number that the digits spell when they follow digits of value `acc`. -/
def valueFrom (acc : Nat) (ds : Bytes) : Nat :=
  ds.foldl (fun acc d ↦ acc * 128 + d.toNat % 128) acc

/-- All digits but the last are marked, and the last is not. -/
inductive Terminated : Bytes → Prop where
  | last {d : UInt8} (hd : d < 128) : Terminated [d]
  | marked {d : UInt8} {ds : Bytes} (hd : 128 ≤ d) (hds : Terminated ds) : Terminated (d :: ds)

/-- The digits spell `n`, most significant digit first. -/
structure Numeral (n : Nat) (ds : Bytes) : Prop where
  terminated : Terminated ds
  value : valueFrom 0 ds = n

/-- The digits spell `n`, and no fewer digits do. -/
structure Minimal (n : Nat) (ds : Bytes) : Prop where
  numeral : Numeral n ds
  shortest : ∀ es, Numeral n es → ds.length ≤ es.length

@[simp] theorem valueFrom_nil (acc : Nat) : valueFrom acc [] = acc := rfl

@[simp] theorem valueFrom_cons (acc : Nat) (d : UInt8) (ds : Bytes) :
    valueFrom acc (d :: ds) = valueFrom (acc * 128 + d.toNat % 128) ds := rfl

theorem valueFrom_concat (acc : Nat) (ds : Bytes) (d : UInt8) :
    valueFrom acc (ds ++ [d]) = valueFrom acc ds * 128 + d.toNat % 128 := by
  simp [valueFrom]

theorem le_valueFrom (acc : Nat) (ds : Bytes) : acc ≤ valueFrom acc ds := by
  induction ds generalizing acc with
  | nil => exact Nat.le_refl acc
  | cons d ds ih =>
      have hstep := ih (acc * 128 + d.toNat % 128)
      rw [valueFrom_cons]
      omega

/-! ## Terminated strings -/

theorem not_terminated_nil : ¬Terminated [] := nofun

theorem terminated_cons_of_lt {d : UInt8} {ds : Bytes} (hd : d < 128) :
    Terminated (d :: ds) ↔ ds = [] := by
  constructor
  · intro h
    rcases h with _ | ⟨hmark, _⟩
    · rfl
    · exact absurd hd (UInt8.not_lt.mpr hmark)
  · rintro rfl
    exact .last hd

theorem terminated_cons_of_le {d : UInt8} {ds : Bytes} (hd : 128 ≤ d) :
    Terminated (d :: ds) ↔ Terminated ds := by
  constructor
  · intro h
    rcases h with hlast | ⟨_, hds⟩
    · exact absurd hlast (UInt8.not_lt.mpr hd)
    · exact hds
  · exact .marked hd

theorem terminated_iff {ds : Bytes} :
    Terminated ds ↔ ∃ es d, ds = es ++ [d] ∧ (∀ e ∈ es, 128 ≤ e) ∧ d < 128 := by
  constructor
  · intro h
    induction h with
    | @last d hd => exact ⟨[], d, rfl, by simp, hd⟩
    | @marked d ds hd _ ih =>
        obtain ⟨es, e, rfl, hes, he⟩ := ih
        exact ⟨d :: es, e, rfl, List.forall_mem_cons.mpr ⟨hd, hes⟩, he⟩
  · intro h
    rcases h with ⟨es, d, rfl, hes, hd⟩
    induction es with
    | nil => exact .last hd
    | cons e es ih =>
        obtain ⟨he, hes⟩ := List.forall_mem_cons.mp hes
        exact .marked he (ih hes)

theorem Numeral.length_pos {n : Nat} {ds : Bytes} (h : Numeral n ds) : 0 < ds.length := by
  apply List.length_pos_iff.mpr
  rintro rfl
  exact not_terminated_nil h.terminated

/-! ## Reading numerals -/

theorem terminated_prefix_cons_of_lt {b : UInt8} {bs ds : Bytes} (hb : b < 128) :
    Terminated ds ∧ ds <+: b :: bs ↔ ds = [b] := by
  constructor
  · intro h
    rcases h with ⟨hds, hpre⟩
    obtain rfl | ⟨es, rfl, -⟩ := List.prefix_cons_iff.mp hpre
    · exact absurd hds not_terminated_nil
    · rw [(terminated_cons_of_lt hb).mp hds]
  · rintro rfl
    exact ⟨.last hb, List.prefix_cons_iff.mpr (.inr ⟨[], rfl, List.nil_prefix⟩)⟩

theorem terminated_prefix_cons_of_le {b : UInt8} {bs ds : Bytes} (hb : 128 ≤ b) :
    Terminated ds ∧ ds <+: b :: bs ↔ ∃ es, ds = b :: es ∧ Terminated es ∧ es <+: bs := by
  constructor
  · intro h
    rcases h with ⟨hds, hpre⟩
    obtain rfl | ⟨es, rfl, hes⟩ := List.prefix_cons_iff.mp hpre
    · exact absurd hds not_terminated_nil
    · exact ⟨es, rfl, (terminated_cons_of_le hb).mp hds, hes⟩
  · intro h
    rcases h with ⟨es, rfl, hds, hes⟩
    exact ⟨.marked hb hds, List.prefix_cons_iff.mpr (.inr ⟨es, rfl, hes⟩)⟩

theorem toNat_mul_add_digit {acc : UInt64} (hacc : ¬maxLeading < acc) (d : UInt8) :
    (acc * 128 + UInt64.ofNat (d.toNat % 128)).toNat = acc.toNat * 128 + d.toNat % 128 := by
  have hle : acc.toNat ≤ 0x1FFFFFFFFFFFFFF := UInt64.le_iff_toNat_le.mp (UInt64.not_lt.mp hacc)
  have h128 : (128 : UInt64).toNat = 128 := rfl
  rw [UInt64.toNat_add, UInt64.toNat_mul, UInt64.toNat_ofNat', h128]
  omega

theorem two_pow_le_valueFrom {acc : UInt64} (hacc : maxLeading < acc) {ds : Bytes}
    (hds : Terminated ds) : 2 ^ 64 ≤ valueFrom acc.toNat ds := by
  have hlt : 0x1FFFFFFFFFFFFFF < acc.toNat := UInt64.lt_iff_toNat_lt.mp hacc
  cases ds with
  | nil => exact absurd hds not_terminated_nil
  | cons d ds =>
      have hle := le_valueFrom (acc.toNat * 128 + d.toNat % 128) ds
      rw [valueFrom_cons]
      omega

/-- The reader stops at the first digit without a mark. It gets that far exactly if the digits are
at most ten and the number fits 64 bits. -/
theorem decodeFrom_eq_ok_iff {used : Nat} {acc : UInt64} {bs : Bytes} {v : UInt64} {k : Nat} :
    decodeFrom used acc bs = .ok (v, k) ↔
      ∃ ds, (Terminated ds ∧ ds <+: bs) ∧ valueFrom acc.toNat ds = v.toNat ∧
        k = used + ds.length ∧ k ≤ maxDigits := by
  induction bs generalizing used acc with
  | nil =>
      constructor
      · intro h
        cases h
      · intro h
        rcases h with ⟨ds, ⟨hds, hpre⟩, -⟩
        rw [List.prefix_nil.mp hpre] at hds
        exact absurd hds not_terminated_nil
  | cons b bs ih =>
      rw [decodeFrom]
      split
      · next hguard =>
        constructor
        · intro h
          cases h
        · intro h
          rcases h with ⟨ds, ⟨hds, -⟩, hval, hk, hmax⟩
          have hpos : 0 < ds.length := Numeral.length_pos ⟨hds, rfl⟩
          have hv := v.toNat_lt
          rcases hguard with hused | hacc
          · omega
          · have hbig := two_pow_le_valueFrom hacc hds
            omega
      · next hguard =>
        obtain ⟨hused, hacc⟩ := not_or.mp hguard
        have hstep := toNat_mul_add_digit hacc b
        dsimp only
        split
        · next hb =>
          simp only [terminated_prefix_cons_of_lt hb, exists_eq_left, valueFrom_cons, valueFrom_nil,
            ← hstep, UInt64.toNat_inj, List.length_singleton, Except.ok.injEq, Prod.mk.injEq]
          constructor
          · intro h
            rcases h with ⟨hval, hk⟩
            exact ⟨hval, hk.symm, by omega⟩
          · intro h
            rcases h with ⟨hval, hk, -⟩
            exact ⟨hval, hk.symm⟩
        · next hb =>
          rw [ih, hstep]
          simp only [terminated_prefix_cons_of_le (UInt8.not_lt.mp hb)]
          constructor
          · intro h
            rcases h with ⟨ds, hds, hval, hk, hmax⟩
            refine ⟨b :: ds, ⟨ds, rfl, hds⟩, hval, ?_, hmax⟩
            rw [List.length_cons]
            omega
          · intro h
            rcases h with ⟨_, ⟨ds, rfl, hds⟩, hval, hk, hmax⟩
            refine ⟨ds, hds, hval, ?_, hmax⟩
            rw [List.length_cons] at hk
            omega

theorem decode_eq_ok_iff {bs : Bytes} {v : UInt64} {k : Nat} :
    decode bs = .ok (v, k) ↔
      ∃ ds, Numeral v.toNat ds ∧ ds <+: bs ∧ k = ds.length ∧ k ≤ maxDigits := by
  rw [decode, decodeFrom_eq_ok_iff]
  constructor
  · intro h
    rcases h with ⟨ds, ⟨hds, hpre⟩, hval, hk, hmax⟩
    exact ⟨ds, ⟨hds, hval⟩, hpre, hk.trans (Nat.zero_add _), hmax⟩
  · intro h
    rcases h with ⟨ds, ⟨hds, hval⟩, hpre, hk, hmax⟩
    exact ⟨ds, ⟨hds, hpre⟩, hval, hk.trans (Nat.zero_add _).symm, hmax⟩

/-- What the reader says about a string that it can judge does not change when more bytes follow. -/
theorem decodeFrom_append {used : Nat} {acc : UInt64} {bs : Bytes}
    (h : decodeFrom used acc bs ≠ .error .truncatedInput) (s : Bytes) :
    decodeFrom used acc (bs ++ s) = decodeFrom used acc bs := by
  induction bs generalizing used acc with
  | nil => exact absurd rfl h
  | cons b bs ih =>
      rw [decodeFrom] at h
      rw [List.cons_append, decodeFrom, decodeFrom]
      split
      · rfl
      · next hguard =>
        rw [if_neg hguard] at h
        dsimp only at h ⊢
        split
        · rfl
        · next hb =>
          rw [if_neg hb] at h
          exact ih h

theorem decode_append {bs : Bytes} (h : decode bs ≠ .error .truncatedInput) (s : Bytes) :
    decode (bs ++ s) = decode bs :=
  decodeFrom_append h s

/-! ## Writing numerals -/

def digits (n : Nat) : Bytes := leadingDigits (n / 128) ++ [UInt8.ofNat (n % 128)]

theorem encode_eq_digits (v : UInt64) : encode v = digits v.toNat := rfl

@[simp] theorem leadingDigits_zero : leadingDigits 0 = [] := by
  rw [leadingDigits, if_pos rfl]

theorem leadingDigits_of_pos {n : Nat} (hn : n ≠ 0) :
    leadingDigits n = leadingDigits (n / 128) ++ [UInt8.ofNat (n % 128 + 128)] := by
  rw [leadingDigits, if_neg hn]

theorem ofNat_mod_add_of_le {d : UInt8} (hd : 128 ≤ d) : UInt8.ofNat (d.toNat % 128 + 128) = d := by
  have hle : 128 ≤ d.toNat := UInt8.le_iff_toNat_le.mp hd
  have hlt := d.toNat_lt
  apply UInt8.toNat_inj.mp
  rw [UInt8.toNat_ofNat']
  omega

theorem ofNat_mod_of_lt {d : UInt8} (hd : d < 128) : UInt8.ofNat (d.toNat % 128) = d := by
  have hlt : d.toNat < 128 := UInt8.lt_iff_toNat_lt.mp hd
  rw [Nat.mod_eq_of_lt hlt, UInt8.ofNat_toNat]

/-- A string of marked digits is the leading digits of its value behind some zeros. -/
theorem eq_replicate_append_leadingDigits {ds : Bytes} (h : ∀ d ∈ ds, 128 ≤ d) :
    ∃ j, ds = List.replicate j 0x80 ++ leadingDigits (valueFrom 0 ds) := by
  induction ds using List.reverseRecOn with
  | nil => exact ⟨0, by simp⟩
  | append_singleton ds d ih =>
      obtain ⟨j, hj⟩ := ih fun e he ↦ h e (List.mem_append_left _ he)
      have hd := ofNat_mod_add_of_le (h d (by simp))
      rw [valueFrom_concat]
      by_cases hzero : valueFrom 0 ds * 128 + d.toNat % 128 = 0
      · have hds : valueFrom 0 ds = 0 := by omega
        have hmod : d.toNat % 128 = 0 := by omega
        refine ⟨j + 1, ?_⟩
        rw [hds, leadingDigits_zero, List.append_nil] at hj
        rw [hmod] at hd
        rw [hzero, leadingDigits_zero, List.append_nil, List.replicate_succ', ← hj, ← hd]
        rfl
      · have hdiv : (valueFrom 0 ds * 128 + d.toNat % 128) / 128 = valueFrom 0 ds := by omega
        have hmod : (valueFrom 0 ds * 128 + d.toNat % 128) % 128 = d.toNat % 128 := by omega
        refine ⟨j, ?_⟩
        rw [leadingDigits_of_pos hzero, hdiv, hmod, hd, ← List.append_assoc, ← hj]

theorem marked_leadingDigits (n : Nat) : ∀ d ∈ leadingDigits n, 128 ≤ d := by
  fun_induction leadingDigits n with
  | case1 => simp
  | case2 n hn ih =>
      intro d hd
      rcases List.mem_append.mp hd with hd | hd
      · exact ih d hd
      · rw [List.mem_singleton.mp hd, UInt8.le_iff_toNat_le, UInt8.toNat_ofNat']
        have h128 : (128 : UInt8).toNat = 128 := rfl
        omega

theorem valueFrom_leadingDigits (n : Nat) : valueFrom 0 (leadingDigits n) = n := by
  fun_induction leadingDigits n with
  | case1 => rfl
  | case2 n hn ih =>
      rw [valueFrom_concat, ih, UInt8.toNat_ofNat']
      omega

theorem valueFrom_replicate_append (j : Nat) (ds : Bytes) :
    valueFrom 0 (List.replicate j 0x80 ++ ds) = valueFrom 0 ds := by
  induction j with
  | zero => rfl
  | succ j ih => exact ih

/-- The numerals of a number are its digits behind any number of marked zeros. -/
theorem numeral_iff {n : Nat} {ds : Bytes} :
    Numeral n ds ↔ ∃ j, ds = List.replicate j 0x80 ++ digits n := by
  constructor
  · intro h
    rcases h with ⟨hds, hval⟩
    obtain ⟨es, d, rfl, hes, hd⟩ := terminated_iff.mp hds
    obtain ⟨j, hj⟩ := eq_replicate_append_leadingDigits hes
    rw [valueFrom_concat] at hval
    have hlast := ofNat_mod_of_lt hd
    have hdiv : n / 128 = valueFrom 0 es := by omega
    have hmod : n % 128 = d.toNat % 128 := by omega
    refine ⟨j, ?_⟩
    rw [digits, hdiv, hmod, hlast, ← List.append_assoc, ← hj]
  · intro h
    rcases h with ⟨j, rfl⟩
    constructor
    · refine terminated_iff.mpr
        ⟨List.replicate j 0x80 ++ leadingDigits (n / 128), UInt8.ofNat (n % 128), ?_, ?_, ?_⟩
      · rw [digits, List.append_assoc]
      · intro d hd
        rcases List.mem_append.mp hd with hd | hd
        · rw [List.eq_of_mem_replicate hd]
          decide
        · exact marked_leadingDigits _ d hd
      · rw [UInt8.lt_iff_toNat_lt, UInt8.toNat_ofNat']
        have h128 : (128 : UInt8).toNat = 128 := rfl
        omega
    · rw [valueFrom_replicate_append, digits, valueFrom_concat, valueFrom_leadingDigits,
        UInt8.toNat_ofNat']
      omega

theorem numeral_digits (n : Nat) : Numeral n (digits n) :=
  numeral_iff.mpr ⟨0, rfl⟩

theorem minimal_iff {n : Nat} {ds : Bytes} : Minimal n ds ↔ ds = digits n := by
  constructor
  · intro h
    rcases h with ⟨hnum, hshort⟩
    obtain ⟨j, rfl⟩ := numeral_iff.mp hnum
    have hle := hshort _ (numeral_digits n)
    rw [List.length_append, List.length_replicate] at hle
    obtain rfl : j = 0 := by omega
    rfl
  · rintro rfl
    refine ⟨numeral_digits n, ?_⟩
    intro es hes
    obtain ⟨j, rfl⟩ := numeral_iff.mp hes
    rw [List.length_append]
    omega

theorem digits_ne_cons (n : Nat) (ds : Bytes) : digits n ≠ 0x80 :: ds := by
  intro h
  have hmin : Minimal n (0x80 :: ds) := minimal_iff.mpr h.symm
  have hmark : (128 : UInt8) ≤ 0x80 := by decide
  -- Without the zero the digits would spell the same number.
  have hshorter : Numeral n ds :=
    ⟨(terminated_cons_of_le hmark).mp hmin.numeral.terminated, hmin.numeral.value⟩
  have hle := hmin.shortest ds hshorter
  rw [List.length_cons] at hle
  omega

theorem length_leadingDigits_le {n k : Nat} (hn : n < 128 ^ k) : (leadingDigits n).length ≤ k := by
  induction k generalizing n with
  | zero =>
      obtain rfl : n = 0 := by omega
      simp
  | succ k ih =>
      by_cases hzero : n = 0
      · simp [hzero]
      · rw [Nat.pow_succ] at hn
        have hdiv := ih (n := n / 128) (by omega)
        rw [leadingDigits_of_pos hzero, List.length_append, List.length_singleton]
        omega

theorem length_digits_le {n : Nat} (hn : n < 2 ^ 64) : (digits n).length ≤ maxDigits := by
  have hle := length_leadingDigits_le (n := n / 128) (k := 9) (by omega)
  rw [digits, List.length_append, List.length_singleton, maxDigits]
  omega

/-! ## Length prefixes -/

/-- A length on the wire: marked zeros and then the minimal numeral, at most ten digits in all. A
length is a word of 64 bits, which no payload in memory exceeds. -/
inductive LengthPrefix (n : Nat) : Bytes → Prop where
  | padded (j : Nat) {ds : Bytes} (hword : n < 2 ^ 64) (hds : Minimal n ds)
      (hlength : j + ds.length ≤ maxDigits) : LengthPrefix n (List.replicate j 0x80 ++ ds)

theorem lengthPrefix_iff {n : Nat} {g : Bytes} :
    LengthPrefix n g ↔ n < 2 ^ 64 ∧ Numeral n g ∧ g.length ≤ maxDigits := by
  constructor
  · intro h
    rcases h with ⟨j, hword, hds, hlength⟩
    rw [minimal_iff.mp hds] at hlength ⊢
    refine ⟨hword, numeral_iff.mpr ⟨j, rfl⟩, ?_⟩
    rw [List.length_append, List.length_replicate]
    exact hlength
  · intro h
    rcases h with ⟨hword, hnum, hlength⟩
    obtain ⟨j, rfl⟩ := numeral_iff.mp hnum
    rw [List.length_append, List.length_replicate] at hlength
    exact .padded j hword (minimal_iff.mpr rfl) hlength

theorem LengthPrefix.length_pos {n : Nat} {g : Bytes} (h : LengthPrefix n g) : 0 < g.length :=
  (lengthPrefix_iff.mp h).2.1.length_pos

theorem lengthPrefix_encode {n : Nat} (hn : n < 2 ^ 64) :
    LengthPrefix n (encode (UInt64.ofNat n)) := by
  rw [encode_eq_digits, UInt64.toNat_ofNat_of_lt' hn]
  exact lengthPrefix_iff.mpr ⟨hn, numeral_digits n, length_digits_le hn⟩

theorem decode_eq_ok_iff_lengthPrefix {bs : Bytes} {v : UInt64} {k : Nat} :
    decode bs = .ok (v, k) ↔ ∃ g, LengthPrefix v.toNat g ∧ g <+: bs ∧ k = g.length := by
  rw [decode_eq_ok_iff]
  constructor
  · intro h
    rcases h with ⟨g, hnum, hpre, rfl, hmax⟩
    exact ⟨g, lengthPrefix_iff.mpr ⟨v.toNat_lt, hnum, hmax⟩, hpre, rfl⟩
  · intro h
    rcases h with ⟨g, hg, hpre, rfl⟩
    obtain ⟨-, hnum, hmax⟩ := lengthPrefix_iff.mp hg
    exact ⟨g, hnum, hpre, rfl, hmax⟩

end TaggedWire.Varint
