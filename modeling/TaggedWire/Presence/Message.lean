import TaggedWire.Layout

/-!
# Presence messages

Clients and a server tell each other who is present and where. There are five kinds of message, each
with a tag and a layout of its own. `Message` is the type of all of them; `Message.body` and
`Message.ofBody` go between a message and the field values of its layout.
-/

namespace TaggedWire.Presence

structure Pos where
  x : Binary64
  y : Binary64
  deriving DecidableEq, Repr

inductive Kind where
  | clientRegister | serverRegister | clientUpdate | serverUpdate | serverDelete
  deriving DecidableEq, Repr

inductive Message where
  /-- A client asks to take part under a name. -/
  | clientRegister (name : String)
  /-- The server accepts a client. -/
  | serverRegister
  /-- A client says where it is. -/
  | clientUpdate (pos : Pos)
  /-- The server says who somebody is and where. -/
  | serverUpdate (userId name : String) (pos : Pos)
  /-- The server says that somebody has left. -/
  | serverDelete (userId : String)
  deriving DecidableEq, Repr

def Pos.fields : Fields :=
  .cons "x" (.scalar .float64) <| .cons "y" (.scalar .float64) .nil

def Pos.sameValue (p q : Pos) : Bool := p.x.sameNumber q.x && p.y.sameNumber q.y

namespace Kind

def tag : Kind → UInt8
  | clientRegister => 0
  | serverRegister => 1
  | clientUpdate => 2
  | serverUpdate => 3
  | serverDelete => 4

def ofTag? : UInt8 → Option Kind
  | 0 => some clientRegister
  | 1 => some serverRegister
  | 2 => some clientUpdate
  | 3 => some serverUpdate
  | 4 => some serverDelete
  | _ => none

def fields : Kind → Fields
  | clientRegister => .cons "name" .text .nil
  | serverRegister => .nil
  | clientUpdate => .cons "pos" (.record Pos.fields) .nil
  | serverUpdate =>
      .cons "user_id" .text <| .cons "name" .text <| .cons "pos" (.record Pos.fields) .nil
  | serverDelete => .cons "user_id" .text .nil

def layout (k : Kind) : Layout := .message k.tag k.fields

@[simp] theorem ofTag?_tag (k : Kind) : ofTag? k.tag = some k := by
  cases k <;> rfl

end Kind

namespace Message

def kind : Message → Kind
  | clientRegister _ => .clientRegister
  | serverRegister => .serverRegister
  | clientUpdate _ => .clientUpdate
  | serverUpdate _ _ _ => .serverUpdate
  | serverDelete _ => .serverDelete

def tag (m : Message) : UInt8 := m.kind.tag

def body : (m : Message) → m.kind.fields.Values
  | clientRegister name => (name, ())
  | serverRegister => ()
  | clientUpdate pos => ((pos.x, pos.y, ()), ())
  | serverUpdate userId name pos => (userId, name, (pos.x, pos.y, ()), ())
  | serverDelete userId => (userId, ())

def ofBody : (k : Kind) → k.fields.Values → Message
  | .clientRegister, (name, ()) => clientRegister name
  | .serverRegister, () => serverRegister
  | .clientUpdate, ((x, y, ()), ()) => clientUpdate ⟨x, y⟩
  | .serverUpdate, (userId, name, (x, y, ()), ()) => serverUpdate userId name ⟨x, y⟩
  | .serverDelete, (userId, ()) => serverDelete userId

def encode (m : Message) : Bytes := m.kind.layout.encode m.body

/-- Equality of messages by kind and fields, positions as numbers. A message that holds a NaN is not
equal to itself. -/
def sameValue : Message → Message → Bool
  | clientRegister name, clientRegister name' => name == name'
  | serverRegister, serverRegister => true
  | clientUpdate pos, clientUpdate pos' => pos.sameValue pos'
  | serverUpdate userId name pos, serverUpdate userId' name' pos' =>
      userId == userId' && name == name' && pos.sameValue pos'
  | serverDelete userId, serverDelete userId' => userId == userId'
  | _, _ => false

@[simp] theorem ofBody_body (m : Message) : ofBody m.kind m.body = m := by
  cases m <;> rfl

end Message

end TaggedWire.Presence
