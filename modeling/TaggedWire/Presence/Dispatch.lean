import TaggedWire.Presence.Message

/-!
# Recognising messages

`dispatch` finds out from the first byte which kind of message a byte string holds, and reads the
message. What it cannot take for a message it rejects with the reason.
-/

namespace TaggedWire.Presence

inductive Rejection where
  /-- There is not even a tag. -/
  | empty
  /-- No kind of message has the tag. -/
  | unknownTag (tag : UInt8)
  /-- The fields cannot be read. -/
  | malformedBody (fault : Fault)
  deriving DecidableEq, Repr

namespace Rejection

def name : Rejection → String
  | empty => "Empty"
  | unknownTag _ => "UnknownTag"
  | malformedBody _ => "Body"

def message : Rejection → String
  | empty => "empty message buffer"
  | unknownTag tag => "unknown message tag " ++ toString tag.toNat
  | malformedBody fault => "malformed message body: " ++ fault.message

def diagnostic : Rejection → String
  | empty => "Empty"
  | unknownTag tag => "UnknownTag(" ++ toString tag.toNat ++ ")"
  | malformedBody fault => "Body(" ++ fault.name ++ ")"

def fault? : Rejection → Option Fault
  | malformedBody fault => some fault
  | _ => none

end Rejection

/-- Reads a message of any kind. Bytes after the message are ignored. -/
def dispatch (bs : Bytes) : Except Rejection Message :=
  match splitTag? bs with
  | none => .error .empty
  | some (tag, body) =>
      match Kind.ofTag? tag with
      | none => .error (.unknownTag tag)
      | some kind =>
          match kind.layout.decode body with
          | .ok values => .ok (.ofBody kind values)
          | .error fault => .error (.malformedBody fault)

end TaggedWire.Presence
