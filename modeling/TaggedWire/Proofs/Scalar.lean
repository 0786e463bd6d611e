import Mathlib.Algebra.Group.Nat.Defs
import Mathlib.Data.Int.Bitwise
import TaggedWire.Scalar

/-!
# Scalars and their bytes

Writing a number in little-endian order and reading it back keeps the part that fits the width. For
a scalar nothing is lost: it is written over the first bytes of a string and read from the first
bytes of a string, and the bytes behind them are neither changed nor looked at. Each byte holds
eight bits of the number that the scalar stands for, low bits first and in two's complement.
-/

namespace TaggedWire

namespace Bytes

theorem toNatLE_lt (bs : Bytes) : toNatLE bs < 256 ^ bs.length := by
  induction bs with
  | nil => simp [toNatLE]
  | cons b bs ih =>
      have hb := b.toNat_lt
      rw [toNatLE, List.length_cons, Nat.pow_succ]
      omega

theorem toNatLE_ofNatLE (width n : Nat) : toNatLE (ofNatLE width n) = n % 256 ^ width := by
  induction width generalizing n with
  | zero => simp [ofNatLE, toNatLE, Nat.mod_one]
  | succ width ih =>
      have hb : (UInt8.ofNat n).toNat = n % 256 := UInt8.toNat_ofNat'
      rw [ofNatLE, toNatLE, ih, hb, Nat.pow_succ, Nat.mul_comm (256 ^ width) 256,
        Nat.mod_mul]

theorem getElem?_ofNatLE {width i : Nat} (hi : i < width) (n : Nat) :
    (ofNatLE width n)[i]? = some (UInt8.ofNat (n / 256 ^ i)) := by
  induction width generalizing i n with
  | zero => omega
  | succ width ih =>
      cases i with
      | zero => simp [ofNatLE]
      | succ i =>
          have hrest := ih (Nat.lt_of_succ_lt_succ hi) (n / 256)
          simpa [ofNatLE, Nat.div_div_eq_div_mul, Nat.pow_succ'] using hrest

theorem testBit_ofNat_div (n i : Nat) {j : Nat} (hj : j < 8) :
    (UInt8.ofNat (n / 256 ^ i)).toNat.testBit j = n.testBit (8 * i + j) := by
  have hpow : 256 ^ i = 2 ^ (8 * i) := (Nat.pow_mul 2 8 i).symm
  rw [UInt8.toNat_ofNat', hpow, Nat.testBit_mod_two_pow, Nat.testBit_div_two_pow, Nat.add_comm]
  simp [hj]

end Bytes

namespace Scalar

theorem size_pos (t : Scalar) : 0 < t.size := by
  cases t <;> decide

theorem toBits_ofBits (t : Scalar) (n : Nat) : t.toBits (t.ofBits n) = n % 256 ^ t.size := by
  cases t <;> simp [ofBits, toBits, size]

theorem toBits_lt (t : Scalar) (v : t.Value) : t.toBits v < 256 ^ t.size := by
  rw [← ofBits_toBits t v, toBits_ofBits]
  exact Nat.mod_lt _ (Nat.pow_pos (by decide))

theorem load?_eq_some_iff {t : Scalar} {u : Bytes} {v : t.Value} :
    t.load? u = some v ↔ t.encode v <+: u := by
  rw [load?, List.prefix_iff_eq_take, length_encode]
  split
  · next hsize =>
    have hlength : (u.take t.size).length = t.size := List.length_take_of_le hsize
    rw [Option.some_inj]
    constructor
    · rintro rfl
      have hlt := Bytes.toNatLE_lt (u.take t.size)
      rw [hlength] at hlt
      have hback := Bytes.ofNatLE_toNatLE (u.take t.size)
      rw [hlength] at hback
      rw [encode, toBits_ofBits, Nat.mod_eq_of_lt hlt, hback]
    · intro h
      rw [← h, encode, Bytes.toNatLE_ofNatLE, Nat.mod_eq_of_lt (t.toBits_lt v),
        ofBits_toBits]
  · next hsize =>
    constructor
    · intro h
      cases h
    · intro h
      have hlength := congrArg List.length h
      rw [length_encode, List.length_take] at hlength
      omega

end Scalar

/-! ## Bits -/

/-- A negative number has the bits of its two's complement. -/
theorem testBit_toInt_of_lt {width k : Nat} (x : BitVec width) (hk : k < width) :
    x.toInt.testBit k = x.toNat.testBit k := by
  rw [BitVec.toInt_eq_toNat_cond]
  split
  · rfl
  · -- The number is `-(m + 1)`, where `m` has the opposite bits.
    have hlt := x.isLt
    have hneg : (x.toNat : Int) - (2 ^ width : Nat) = .negSucc (2 ^ width - (x.toNat + 1)) := by
      omega
    rw [hneg, Int.testBit, Nat.testBit_two_pow_sub_succ hlt]
    simp [hk]

namespace Scalar

/-- The number that a value stands for. An IEEE number is taken as its bit pattern. -/
def toInt : (t : Scalar) → t.Value → Int
  | uint8, v => v.toNat
  | int8, v => v.toInt
  | uint16, v => v.toNat
  | int16, v => v.toInt
  | uint32, v => v.toNat
  | int32, v => v.toInt
  | uint64, v => v.toNat
  | int64, v => v.toInt
  | float32, v => v.bits.toNat
  | float64, v => v.bits.toNat

theorem testBit_toInt (t : Scalar) (v : t.Value) {k : Nat} (hk : k < 8 * t.size) :
    (t.toInt v).testBit k = (t.toBits v).testBit k := by
  cases t with
  | int8 => exact testBit_toInt_of_lt v.toBitVec hk
  | int16 => exact testBit_toInt_of_lt v.toBitVec hk
  | int32 => exact testBit_toInt_of_lt v.toBitVec hk
  | int64 => exact testBit_toInt_of_lt v.toBitVec hk
  | uint8 | uint16 | uint32 | uint64 | float32 | float64 => rfl

/-- Each byte of a scalar holds the eight bits of its number that stand at its place. -/
theorem exists_getElem?_encode (t : Scalar) (v : t.Value) {i : Nat} (hi : i < t.size) :
    ∃ b, (t.encode v)[i]? = some b ∧
      ∀ j < 8, b.toNat.testBit j = (t.toInt v).testBit (8 * i + j) := by
  refine ⟨_, Bytes.getElem?_ofNatLE hi (t.toBits v), ?_⟩
  intro j hj
  have hbit : 8 * i + j < 8 * t.size := by omega
  rw [Bytes.testBit_ofNat_div _ i hj, t.testBit_toInt v hbit]

/-! ## Writing over bytes and reading them -/

theorem store?_of_le {t : Scalar} {out : Bytes} (h : t.size ≤ out.length) (v : t.Value) :
    t.store? v out = some (t.encode v ++ out.drop t.size) := if_pos h

theorem store?_eq_none_iff {t : Scalar} {v : t.Value} {out : Bytes} :
    t.store? v out = none ↔ out.length < t.size := by
  simp [store?]

theorem load?_eq_none_iff {t : Scalar} {bs : Bytes} : t.load? bs = none ↔ bs.length < t.size := by
  simp [load?]

/-- The bytes from which a value was read are those that are written for it. -/
theorem encode_of_load? {t : Scalar} {bs : Bytes} {v : t.Value} (h : t.load? bs = some v) :
    t.encode v = bs.take t.size := by
  have hpre := load?_eq_some_iff.mp h
  rw [List.prefix_iff_eq_take, length_encode] at hpre
  exact hpre

end Scalar

/-! ## Slice by slice -/

namespace Bytes

/-- The bytes from one index up to before another. -/
def slice? (bs : Bytes) (start stop : Nat) : Option Bytes :=
  if start ≤ stop ∧ stop ≤ bs.length then some ((bs.take stop).drop start) else none

/-- Puts new bytes in the place of old ones, of which there have to be as many. -/
def replace? (old new : Bytes) : Option Bytes :=
  if old.length = new.length then some new else none

theorem slice?_of_le {bs : Bytes} {start stop : Nat} (hstart : start ≤ stop)
    (hstop : stop ≤ bs.length) :
    bs.slice? start stop = some ((bs.drop start).take (stop - start)) := by
  rw [slice?, if_pos ⟨hstart, hstop⟩, List.drop_take]

theorem slice?_of_lt {bs : Bytes} {start stop : Nat} (h : bs.length < stop) :
    bs.slice? start stop = none :=
  if_neg fun hin ↦ Nat.not_le.mpr h hin.2

theorem slice?_append (bs cs : Bytes) :
    slice? (bs ++ cs) bs.length (bs ++ cs).length = some cs := by
  rw [slice?_of_le (by simp) (Nat.le_refl _)]
  simp

theorem replace?_of_length_eq {old new : Bytes} (h : old.length = new.length) :
    old.replace? new = some new := if_pos h

end Bytes

namespace Scalar

/-- Takes the slice that is to be written over and replaces its bytes. -/
def storeSlice? (t : Scalar) (v : t.Value) (out : Bytes) : Option Bytes :=
  (out.slice? 0 t.size).bind fun old ↦
    (old.replace? (t.encode v)).map fun new ↦ new ++ out.drop t.size

/-- Takes the slice that is to be read and puts its bytes in the place of zeros. -/
def loadSlice? (t : Scalar) (bs : Bytes) : Option t.Value :=
  (bs.slice? 0 t.size).bind fun new ↦
    (Bytes.replace? (List.replicate t.size 0) new).map fun raw ↦ t.ofBits (Bytes.toNatLE raw)

theorem storeSlice?_eq_store? (t : Scalar) (v : t.Value) (out : Bytes) :
    t.storeSlice? v out = t.store? v out := by
  rcases Nat.lt_or_ge out.length t.size with hlt | hle
  · rw [storeSlice?, Bytes.slice?_of_lt hlt, store?_eq_none_iff.mpr hlt]
    rfl
  · have hlength : (out.take t.size).length = (t.encode v).length := by
      simp [hle]
    have hslice := Bytes.slice?_of_le (Nat.zero_le t.size) hle
    rw [storeSlice?, hslice, store?_of_le hle]
    simp [Bytes.replace?_of_length_eq hlength]

theorem loadSlice?_eq_load? (t : Scalar) (bs : Bytes) : t.loadSlice? bs = t.load? bs := by
  rcases Nat.lt_or_ge bs.length t.size with hlt | hle
  · rw [loadSlice?, Bytes.slice?_of_lt hlt, load?_eq_none_iff.mpr hlt]
    rfl
  · have hlength : (List.replicate t.size (0 : UInt8)).length = (bs.take t.size).length := by
      simp [hle]
    have hslice := Bytes.slice?_of_le (Nat.zero_le t.size) hle
    rw [loadSlice?, hslice, load?, if_pos hle]
    simp [Bytes.replace?_of_length_eq hlength]

/-- A scalar is written over the first bytes, eight bits of its number to a byte and low bits first,
and nothing else changes. It is read back bit for bit, and bytes from which a scalar was read are
written again as they were. A string is refused if it is too short for the scalar, and only then. -/
theorem store?_load?_inverse (t : Scalar) :
    (∀ (v : t.Value) (out : Bytes), t.size ≤ out.length →
      ∃ out', t.store? v out = some out' ∧ out'.length = out.length ∧
        (∀ i < t.size, ∃ b, out'[i]? = some b ∧
          ∀ j < 8, b.toNat.testBit j = (t.toInt v).testBit (8 * i + j)) ∧
        out'.drop t.size = out.drop t.size ∧
        t.load? out' = some v) ∧
    (∀ b : Bytes, t.size ≤ b.length →
      ∃ v, t.load? b = some v ∧ ∀ out : Bytes, t.size ≤ out.length →
        t.store? v out = some (b.take t.size ++ out.drop t.size)) ∧
    (∀ (v : t.Value) (out : Bytes), t.storeSlice? v out = t.store? v out ∧
      (t.storeSlice? v out = none ↔ out.length < t.size)) ∧
    ∀ b : Bytes, t.loadSlice? b = t.load? b ∧ (t.loadSlice? b = none ↔ b.length < t.size) := by
  refine ⟨?_, ?_, ?_, ?_⟩
  · intro v out hout
    refine ⟨_, store?_of_le hout v, ?_, ?_, ?_, ?_⟩
    · simp [hout]
    · intro i hi
      rw [List.getElem?_append_left (by simpa using hi)]
      exact t.exists_getElem?_encode v hi
    · exact List.drop_left' (t.length_encode v)
    · exact load?_eq_some_iff.mpr (List.prefix_append _ _)
  · intro b hb
    obtain ⟨v, hv⟩ := Option.ne_none_iff_exists'.mp (mt load?_eq_none_iff.mp (Nat.not_lt.mpr hb))
    refine ⟨v, hv, ?_⟩
    intro out hout
    rw [store?_of_le hout, encode_of_load? hv]
  · intro v out
    rw [storeSlice?_eq_store?]
    exact ⟨rfl, store?_eq_none_iff⟩
  · intro b
    rw [loadSlice?_eq_load?]
    exact ⟨rfl, load?_eq_none_iff⟩

/-- A negative number in front of a byte that is left alone, read back and written elsewhere, and
two strings that are too short for it. -/
theorem store?_load?_inverse_negative :
    let out : Bytes := [0, 0, 9]
    let out' : Bytes := [0xFE, 0xFF, 9]
    (int16.size ≤ out.length ∧ int16.size ≤ out'.length) ∧
      int16.store? (-2 : Int16) out = some out' ∧
      (∀ j < 8, (0xFF : UInt8).toNat.testBit j = (-2 : Int).testBit (8 * 1 + j)) ∧
      int16.load? out' = some (-2 : Int16) ∧
      int16.store? (-2 : Int16) [1, 2, 3, 4] = some [0xFE, 0xFF, 3, 4] ∧
      int16.storeSlice? (-2 : Int16) [1] = none ∧ int16.loadSlice? [] = none := by
  intro out out'
  have hout : int16.size ≤ out.length := by decide
  have hout' : int16.size ≤ out'.length := by decide
  have hstored : int16.store? (-2 : Int16) out = some out' := by decide
  obtain ⟨hstore, hload, hrefused, hrefused'⟩ := store?_load?_inverse int16
  obtain ⟨w, hw, -, hbits, -, hback⟩ := hstore (-2 : Int16) out hout
  obtain rfl : out' = w := Option.some.inj (hstored.symm.trans hw)
  obtain ⟨b, hb, hbit⟩ := hbits 1 (by decide)
  obtain rfl : 0xFF = b := Option.some.inj hb
  obtain ⟨v, hv, hagain⟩ := hload out' hout'
  obtain rfl : (-2 : Int16) = v := Option.some.inj (hback.symm.trans hv)
  exact ⟨⟨hout, hout'⟩, hstored, hbit, hback, hagain [1, 2, 3, 4] (by decide),
    (hrefused (-2 : Int16) [1]).2.mpr (by decide), (hrefused' []).2.mpr (by decide)⟩

end Scalar

end TaggedWire
