/-!
# Bytes, texts and scalars

What the wire carries is byte strings, and this module says what they spell. `Bytes.ofNatLE` writes
a natural in a fixed number of bytes, low bytes first, and drops what does not fit;
`Bytes.toNatLE` reads one back. A text is its UTF-8 form. A scalar is an integer or an IEEE number
of fixed width and is written as its bit pattern in little-endian order, signed integers in two's
complement, with no prefix. `Scalar.store?` and `Scalar.load?` work at the start of a longer byte
string and refuse one that is too short.
-/

namespace TaggedWire

/-- A string of bytes, first byte first. -/
abbrev Bytes := List UInt8

namespace Bytes

/-- The low `width` bytes of `n`, least significant first. -/
def ofNatLE : (width n : Nat) → Bytes
  | 0, _ => []
  | width + 1, n => UInt8.ofNat n :: ofNatLE width (n / 256)

/-- The natural whose base-256 digits are the bytes, least significant first. -/
def toNatLE : Bytes → Nat
  | [] => 0
  | b :: bs => b.toNat + 256 * toNatLE bs

@[simp] theorem length_ofNatLE (width n : Nat) : (ofNatLE width n).length = width := by
  induction width generalizing n with
  | zero => rfl
  | succ width ih => simp [ofNatLE, ih]

/-- A byte string is determined by its length and the number it spells. -/
theorem ofNatLE_toNatLE (bs : Bytes) : ofNatLE bs.length (toNatLE bs) = bs := by
  induction bs with
  | nil => rfl
  | cons b bs ih =>
      have hb := b.toNat_lt
      have hdiv : (b.toNat + 256 * toNatLE bs) / 256 = toNatLE bs := by omega
      have hmod : UInt8.ofNat (b.toNat + 256 * toNatLE bs) = b := by
        apply UInt8.toNat_inj.mp
        rw [UInt8.toNat_ofNat']
        omega
      rw [toNatLE, List.length_cons, ofNatLE, hdiv, hmod, ih]

end Bytes

/-! ## Texts -/

namespace Text

def encode (s : String) : Bytes := s.toUTF8.data.toList

/-- The text with the given UTF-8 form. Overlong forms, surrogates, code points above the last one
and sequences that are cut short are the form of no text. -/
def decode? (bs : Bytes) : Option String := String.fromUTF8? ⟨bs.toArray⟩

end Text

/-! ## IEEE bit patterns

Floating-point numbers travel as their bit patterns. `Binary32` and `Binary64` hold the pattern
itself, so that each NaN payload and each signed zero is a value of its own, and
`Binary64.sameNumber` compares two patterns by the IEEE rule.
-/

structure Binary32 where
  bits : UInt32
  deriving DecidableEq, Repr

structure Binary64 where
  bits : UInt64
  deriving DecidableEq, Repr

namespace Binary64

/-- The pattern without its sign bit. -/
def magnitude (x : Binary64) : Nat := x.bits.toNat % 0x8000000000000000

/-- Whether the exponent is all ones and the fraction is not zero. -/
def isNaN (x : Binary64) : Bool := 0x7FF0000000000000 < x.magnitude

def isZero (x : Binary64) : Bool := x.magnitude == 0

/-- Equality as numbers: NaN differs from everything, the two zeros are equal, and all other numbers
are equal only to themselves. -/
def sameNumber (x y : Binary64) : Bool :=
  !x.isNaN && !y.isNaN && (x == y || (x.isZero && y.isZero))

end Binary64

/-! ## Scalars -/

inductive Scalar where
  | uint8 | int8 | uint16 | int16 | uint32 | int32 | uint64 | int64 | float32 | float64
  deriving DecidableEq, Repr

namespace Scalar

def size : Scalar → Nat
  | uint8 | int8 => 1
  | uint16 | int16 => 2
  | uint32 | int32 | float32 => 4
  | uint64 | int64 | float64 => 8

abbrev Value : Scalar → Type
  | uint8 => UInt8
  | int8 => Int8
  | uint16 => UInt16
  | int16 => Int16
  | uint32 => UInt32
  | int32 => Int32
  | uint64 => UInt64
  | int64 => Int64
  | float32 => Binary32
  | float64 => Binary64

/-- The bit pattern of a value, read as a natural. -/
def toBits : (t : Scalar) → t.Value → Nat
  | uint8, v => v.toNat
  | int8, v => v.toUInt8.toNat
  | uint16, v => v.toNat
  | int16, v => v.toUInt16.toNat
  | uint32, v => v.toNat
  | int32, v => v.toUInt32.toNat
  | uint64, v => v.toNat
  | int64, v => v.toUInt64.toNat
  | float32, v => v.bits.toNat
  | float64, v => v.bits.toNat

/-- The value with the given bit pattern; bits beyond the width are dropped. -/
def ofBits : (t : Scalar) → Nat → t.Value
  | uint8, n => UInt8.ofNat n
  | int8, n => (UInt8.ofNat n).toInt8
  | uint16, n => UInt16.ofNat n
  | int16, n => (UInt16.ofNat n).toInt16
  | uint32, n => UInt32.ofNat n
  | int32, n => (UInt32.ofNat n).toInt32
  | uint64, n => UInt64.ofNat n
  | int64, n => (UInt64.ofNat n).toInt64
  | float32, n => ⟨UInt32.ofNat n⟩
  | float64, n => ⟨UInt64.ofNat n⟩

def encode (t : Scalar) (v : t.Value) : Bytes := Bytes.ofNatLE t.size (t.toBits v)

/-- Writes the value over the first bytes of `out`, or returns `none` if `out` is too short. -/
def store? (t : Scalar) (v : t.Value) (out : Bytes) : Option Bytes :=
  if t.size ≤ out.length then some (t.encode v ++ out.drop t.size) else none

/-- Reads a value from the first bytes, or returns `none` if there are too few. -/
def load? (t : Scalar) (bs : Bytes) : Option t.Value :=
  if t.size ≤ bs.length then some (t.ofBits (Bytes.toNatLE (bs.take t.size))) else none

@[simp] theorem length_encode (t : Scalar) (v : t.Value) : (t.encode v).length = t.size :=
  Bytes.length_ofNatLE _ _

@[simp] theorem ofBits_toBits (t : Scalar) (v : t.Value) : t.ofBits (t.toBits v) = v := by
  cases t <;> simp [ofBits, toBits]

end Scalar

end TaggedWire
