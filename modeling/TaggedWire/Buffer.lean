import TaggedWire.Varint

/-!
# Growing buffers

A buffer holds the bytes written so far and a capacity. Before bytes are added the capacity is
doubled until they fit. A capacity above `Buffer.maxCapacity` is refused: the operation then returns
`none`, and the caller still has the buffer as it was. Sizes are 64-bit words, and the sums and
doublings that decide how a buffer grows stop at the largest word instead of wrapping.
-/

namespace TaggedWire

namespace Size

def largest : Nat := 0xFFFFFFFFFFFFFFFF

/-- The sum, or the largest size if that is smaller. -/
def add (m n : Nat) : Nat := min (m + n) largest

/-- The double, or the largest size if that is smaller. -/
def double (n : Nat) : Nat := min (2 * n) largest

/-- Doubles `size` until it reaches `goal`, or until doubling no longer changes it. -/
def doubleUntil (goal size : Nat) : Nat :=
  if size < goal ∧ size < double size then doubleUntil goal (double size) else size
termination_by goal - size

end Size

/-! ## Buffers -/

structure Buffer where
  bytes : Bytes
  capacity : Nat
  deriving DecidableEq, Repr

namespace Buffer

def maxCapacity : Nat := 0x7FFFFFFFFFFFFFFF

/-- The capacity of a buffer for which none is asked. -/
def defaultCapacity : Nat := 64

def empty : Buffer := ⟨[], defaultCapacity⟩

/-- The buffer without bytes, with room for `n`; the least capacity is one. -/
def ofCapacity? (n : Nat) : Option Buffer :=
  if n ≤ maxCapacity then some ⟨[], max n 1⟩ else none

def length (b : Buffer) : Nat := b.bytes.length

def reserve? (b : Buffer) (n : Nat) : Option Buffer :=
  let capacity := Size.doubleUntil (Size.add b.length n) b.capacity
  if capacity ≤ maxCapacity then some { b with capacity } else none

def append? (b : Buffer) (bs : Bytes) : Option Buffer :=
  (b.reserve? bs.length).map fun b ↦ { b with bytes := b.bytes ++ bs }

def appendScalar? (b : Buffer) (t : Scalar) (v : t.Value) : Option Buffer :=
  b.append? (t.encode v)

def appendVarint? (b : Buffer) (v : UInt64) : Option Buffer :=
  b.append? (Varint.encode v)

/-- Adds the length of a byte string and then its bytes, each with a reservation of its own. -/
def appendBytes? (b : Buffer) (bs : Bytes) : Option Buffer := do
  (← b.appendVarint? (UInt64.ofNat bs.length)).append? bs

def appendText? (b : Buffer) (s : String) : Option Buffer :=
  b.appendBytes? (Text.encode s)

end Buffer

end TaggedWire
