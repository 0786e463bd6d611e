import TaggedWire.Scalar

/-!
# Faults and varints

A varint spells a 64-bit word by its base-128 digits, most significant digit first. Every byte but
the last has its top bit set. The writer uses the fewest digits; the reader also accepts leading
zero digits, as long as there are at most ten digits in all. Reading a value can fail in the ways
that `Fault` lists. Writing has no faults of its own: what it can run into is the limit on the size
of a buffer.
-/

namespace TaggedWire

inductive Fault where
  /-- The value needs more bytes than are left. -/
  | truncatedInput
  /-- A varint has too many digits, or its value needs more than 64 bits. -/
  | varintOverflow
  /-- The payload of a text is not UTF-8. -/
  | invalidUtf8
  deriving DecidableEq, Repr

namespace Fault

def name : Fault → String
  | truncatedInput => "TruncatedInput"
  | varintOverflow => "VarintOverflow"
  | invalidUtf8 => "InvalidUtf8"

def message : Fault → String
  | truncatedInput => "input ended before the value was complete"
  | varintOverflow => "varint length prefix overflows"
  | invalidUtf8 => "text field is not valid UTF-8"

end Fault

/-! ## Varints -/

namespace Varint

/-- The most digits that a varint may have: what a word of 64 bits needs. -/
def maxDigits : Nat := 10

/-- The largest value that another digit can follow without leaving 64 bits. -/
def maxLeading : UInt64 := 0x1FFFFFFFFFFFFFF

/-- The base-128 digits of `n`, each marked as followed by another; none if `n` is zero. -/
def leadingDigits (n : Nat) : Bytes :=
  if n = 0 then [] else leadingDigits (n / 128) ++ [UInt8.ofNat (n % 128 + 128)]

def encode (v : UInt64) : Bytes :=
  leadingDigits (v.toNat / 128) ++ [UInt8.ofNat (v.toNat % 128)]

/-- The number of digits of a word, from the position of its highest bit. -/
def encodedLength (v : UInt64) : Nat :=
  if v = 0 then 1 else (v.toNat.log2 + 7) / 7

/-- Writes the digits over the first of ten slots and keeps the others. Also returns how many slots
were written. -/
def store (v : UInt64) (slots : Vector UInt8 maxDigits) : Nat × Vector UInt8 maxDigits :=
  let digits := encode v
  (digits.length, slots.mapIdx fun i old ↦ digits[i]?.getD old)

/-- Reads the digits that follow `used` others with value `acc`. -/
def decodeFrom (used : Nat) (acc : UInt64) : Bytes → Except Fault (UInt64 × Nat)
  | [] => .error .truncatedInput
  | b :: bs =>
      if maxDigits ≤ used ∨ maxLeading < acc then
        .error .varintOverflow
      else
        let acc := acc * 128 + UInt64.ofNat (b.toNat % 128)
        if b < 128 then .ok (acc, used + 1) else decodeFrom (used + 1) acc bs

/-- Reads a varint from the start. Returns its value and the number of bytes it takes. -/
def decode (bs : Bytes) : Except Fault (UInt64 × Nat) := decodeFrom 0 0 bs

end Varint

end TaggedWire
