import TaggedWire.Buffer
import TaggedWire.Cursor

/-!
# Layouts

A layout says how a value is made up: a scalar, a text, a byte string, or named fields in a fixed
order. Fields that come with a tag form a message, fields without one a record. `Layout.Value` is
the type of the values of a layout; its fields are nested pairs that end in the unit.

`Layout.encode` is the wire form of a value: the wire forms of its fields one after the other, with
nothing between them. A message is preceded by its tag, also where it is a field of another value.
`Layout.append?` adds the same bytes to a buffer, which makes room for them piece by piece.

`Layout.read` takes a value from a cursor, field by field. It reads no tags: the tag of a message is
split off by `splitTag?` before the layout of what follows it is known, and a message that is a
field is read as its fields alone. `Layout.decode` reads from the start of a byte string and ignores
what follows the value.
-/

namespace TaggedWire

mutual
inductive Layout where
  | scalar (kind : Scalar)
  | text
  | bytes
  | record (fields : Fields)
  | message (tag : UInt8) (fields : Fields)
  deriving Repr

/-- Named fields, in the order in which they are written. -/
inductive Fields where
  | nil
  | cons (name : String) (layout : Layout) (rest : Fields)
  deriving Repr
end

mutual
@[reducible] def Layout.Value : Layout → Type
  | .scalar t => t.Value
  | .text => String
  | .bytes => Bytes
  | .record fs => fs.Values
  | .message _ fs => fs.Values

@[reducible] def Fields.Values : Fields → Type
  | .nil => Unit
  | .cons _ l fs => l.Value × fs.Values
end

mutual
/-- The value with zero for every number and nothing in every text and byte string. -/
def Layout.blank : (l : Layout) → l.Value
  | .scalar t => t.ofBits 0
  | .text => ""
  | .bytes => []
  | .record fs => fs.blank
  | .message _ fs => fs.blank

@[inherit_doc Layout.blank]
def Fields.blank : (fs : Fields) → fs.Values
  | .nil => ()
  | .cons _ l fs => (l.blank, fs.blank)
end

def Layout.tag? : Layout → Option UInt8
  | .message tag _ => some tag
  | _ => none

/-! ## Writing values -/

/-- A byte string preceded by its length. -/
def Bytes.encode (bs : Bytes) : Bytes := Varint.encode (UInt64.ofNat bs.length) ++ bs

mutual
def Layout.encode : (l : Layout) → l.Value → Bytes
  | .scalar t, v => t.encode v
  | .text, s => Bytes.encode (Text.encode s)
  | .bytes, bs => Bytes.encode bs
  | .record fs, vs => fs.encode vs
  | .message tag fs, vs => tag :: fs.encode vs

def Fields.encode : (fs : Fields) → fs.Values → Bytes
  | .nil, _ => []
  | .cons _ l fs, (v, vs) => l.encode v ++ fs.encode vs
end

mutual
def Layout.append? : (l : Layout) → l.Value → Buffer → Option Buffer
  | .scalar t, v, b => b.appendScalar? t v
  | .text, s, b => b.appendText? s
  | .bytes, bs, b => b.appendBytes? bs
  | .record fs, vs, b => fs.append? vs b
  | .message tag fs, vs, b => (b.appendScalar? .uint8 tag).bind (fs.append? vs)

def Fields.append? : (fs : Fields) → fs.Values → Buffer → Option Buffer
  | .nil, _, b => some b
  | .cons _ l fs, (v, vs), b => (l.append? v b).bind (fs.append? vs)
end

/-! ## Reading values -/

mutual
def Layout.read : (l : Layout) → ReadM l.Value
  | .scalar t => ReadM.scalar t
  | .text => ReadM.text
  | .bytes => ReadM.bytes
  | .record fs => fs.read
  | .message _ fs => fs.read

/-- Reads the fields in order. When one cannot be read, those before it stay read. -/
def Fields.read : (fs : Fields) → ReadM fs.Values
  | .nil => pure ()
  | .cons _ l fs => do
      let v ← l.read
      let vs ← fs.read
      return (v, vs)
end

/-- The value at the start of a byte string. -/
def Layout.decode (l : Layout) (bs : Bytes) : Except Fault l.Value :=
  match l.read (.ofBytes bs) with
  | .ok v _ => .ok v
  | .error e _ => .error e

/-- The first byte, which is the tag of a message, and the bytes after it. -/
def splitTag? : Bytes → Option (UInt8 × Bytes)
  | [] => none
  | tag :: body => some (tag, body)

end TaggedWire
