import TaggedWire.Buffer
import TaggedWire.Cursor
import TaggedWire.Layout
import TaggedWire.Presence.Dispatch
import TaggedWire.Presence.Message
import TaggedWire.Proofs.Canonical
import TaggedWire.Proofs.Cells
import TaggedWire.Proofs.Copies
import TaggedWire.Proofs.Dispatch
import TaggedWire.Proofs.Grammar
import TaggedWire.Proofs.Growth
import TaggedWire.Proofs.Leafwise
import TaggedWire.Proofs.Leaves
import TaggedWire.Proofs.LeftoverTag
import TaggedWire.Proofs.NestedMessage
import TaggedWire.Proofs.Numeral
import TaggedWire.Proofs.Operations
import TaggedWire.Proofs.Ranges
import TaggedWire.Proofs.RawText
import TaggedWire.Proofs.ReaderRuns
import TaggedWire.Proofs.Reading
import TaggedWire.Proofs.Reservation
import TaggedWire.Proofs.RoundTrip
import TaggedWire.Proofs.SameValue
import TaggedWire.Proofs.Scalar
import TaggedWire.Proofs.SelfDelimiting
import TaggedWire.Proofs.Slots
import TaggedWire.Proofs.Spellings
import TaggedWire.Proofs.Stream
import TaggedWire.Proofs.Truncation
import TaggedWire.Proofs.UnreadBytes
import TaggedWire.Proofs.Verdict
import TaggedWire.Proofs.WireSize
import TaggedWire.Proofs.Writing
import TaggedWire.Scalar
import TaggedWire.Specimen
import TaggedWire.Varint
