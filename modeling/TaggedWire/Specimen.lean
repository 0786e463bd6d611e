import TaggedWire.Presence.Message

/-!
# Specimen layouts

Layouts that between them use every kind of scalar, records inside records and inside messages,
records and messages without fields, byte strings, and a message that is a field of another.
-/

namespace TaggedWire.Specimen

def extent : Fields :=
  .cons "w" (.scalar .uint16) <| .cons "h" (.scalar .uint16) .nil

def window : Fields :=
  .cons "title" .text <| .cons "size" (.record extent) <| .cons "depth" (.scalar .int8) .nil

def scalars : Fields :=
  .cons "a" (.scalar .uint8) <| .cons "b" (.scalar .int8) <|
  .cons "c" (.scalar .uint16) <| .cons "d" (.scalar .int16) <|
  .cons "e" (.scalar .uint32) <| .cons "f" (.scalar .int32) <|
  .cons "g" (.scalar .uint64) <| .cons "h" (.scalar .int64) <|
  .cons "i" (.scalar .float32) <| .cons "j" (.scalar .float64) .nil

def opening : Layout :=
  .message 9 <| .cons "window" (.record window) <| .cons "payload" .bytes .nil

def closing : Layout := .message 10 .nil

def mixed : Layout :=
  .message 255 <|
  .cons "id" (.scalar .uint64) <| .cons "blob" .bytes <| .cons "nothing" (.record .nil) <|
  .cons "label" .text <| .cons "delta" (.scalar .int32) <| .cons "ratio" (.scalar .float32) <|
  .cons "open" (.record window) <| .cons "pos" (.record Presence.Pos.fields) .nil

/-- A message with any tag that carries another between a number and a checksum. -/
def envelopeWith (tag : UInt8) : Layout :=
  .message tag <|
  .cons "seq" (.scalar .uint16) <| .cons "msg" Presence.Kind.clientRegister.layout <|
  .cons "crc" (.scalar .uint8) .nil

def envelope : Layout := envelopeWith 200

end TaggedWire.Specimen
