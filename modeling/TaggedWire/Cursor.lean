import TaggedWire.Varint

/-!
# Reading from a position

A cursor is a byte string with a position in it. The reads of this module either return a value and
move the position past it, or fail and leave the position where it was. `ReadM` strings them
together; when a later read of a sequence fails, what the earlier ones took stays taken.

Sizes and positions are words of 64 bits, and so is every number that a varint spells. A length that
was read is therefore always a size, and there is no check, and no fault, for one that is too large
to be a size. It can only be larger than what is left to read.
-/

namespace TaggedWire

/-- A byte string and the number of its bytes that have been read. -/
structure Cursor where
  buffer : Bytes
  pos : Nat
  deriving DecidableEq, Repr

/-- Computations that read from a cursor and may fail. -/
abbrev ReadM := EStateM Fault Cursor

namespace Cursor

def ofBytes (bs : Bytes) : Cursor := ⟨bs, 0⟩

def unread (c : Cursor) : Bytes := c.buffer.drop c.pos

def remaining (c : Cursor) : Nat := c.buffer.length - c.pos

def atEnd (c : Cursor) : Bool := c.buffer.length ≤ c.pos

def advance (c : Cursor) (n : Nat) : Cursor := { c with pos := c.pos + n }

@[simp] theorem length_unread (c : Cursor) : c.unread.length = c.remaining := by
  simp [unread, remaining]

end Cursor

namespace ReadM

def scalar (t : Scalar) : ReadM t.Value := fun c ↦
  match t.load? c.unread with
  | some v => .ok v (c.advance t.size)
  | none => .error .truncatedInput c

def varint : ReadM UInt64 := fun c ↦
  match Varint.decode c.unread with
  | .ok (v, used) => .ok v (c.advance used)
  | .error e => .error e c

/-- Reads a varint and then as many bytes as it says. -/
def bytes : ReadM Bytes := fun c ↦
  match Varint.decode c.unread with
  | .ok (n, used) =>
      let rest := c.unread.drop used
      if n.toNat ≤ rest.length then
        .ok (rest.take n.toNat) (c.advance (used + n.toNat))
      else
        .error .truncatedInput c
  | .error e => .error e c

/-- Reads the bytes of a text. Bytes that are not UTF-8 are left unread, with their length. -/
def text : ReadM String := fun c ↦
  match bytes c with
  | .ok bs c' =>
      match Text.decode? bs with
      | some s => .ok s c'
      | none => .error .invalidUtf8 c
  | .error e c' => .error e c'

end ReadM

end TaggedWire
