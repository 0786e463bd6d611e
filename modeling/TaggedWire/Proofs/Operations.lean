import TaggedWire.Proofs.Writing

/-!
# Runs of operations on a buffer

An operation writes an item to a buffer or reserves room in it. An item is added as its wire form,
and writing it in place comes to the same. `Buffer.run?` performs operations one after the other,
and gives nothing if one of them is refused. A run that writes every item in place is the same run.
-/

namespace TaggedWire.Buffer

/-- What one call can write. -/
inductive Item where
  | scalar (t : Scalar) (v : t.Value)
  | varint (v : UInt64)
  | bytes (bs : Bytes)
  | text (s : String)
  | value (l : Layout) (v : l.Value)

inductive Operation where
  | write (x : Item)
  | reserve (n : Nat)

namespace Item

def append? : Item → Buffer → Option Buffer
  | scalar t v, b => b.appendScalar? t v
  | varint v, b => b.appendVarint? v
  | bytes bs, b => b.appendBytes? bs
  | text s, b => b.appendText? s
  | value l v, b => l.append? v b

/-- Adds an item in place: zeros that are written over, and digits that are collected in slots. -/
def write? : Item → Buffer → Option Buffer
  | scalar t v, b => b.writeScalar? t v
  | varint v, b => b.writeVarint? v
  | bytes bs, b => b.writeBytes? bs
  | text s, b => b.writeBytes? (Text.encode s)
  | value l v, b => l.write? v b

def encode : Item → Bytes
  | scalar t v => t.encode v
  | varint v => Varint.encode v
  | bytes bs => bs.encode
  | text s => (Text.encode s).encode
  | value l v => l.encode v

/-- The byte strings for which room is made one after the other. -/
def pieces : Item → List Bytes
  | scalar t v => [t.encode v]
  | varint v => [Varint.encode v]
  | bytes bs => bs.pieces
  | text s => (Text.encode s).pieces
  | value l v => l.pieces v

theorem write?_eq_append? (x : Item) (b : Buffer) : x.write? b = x.append? b := by
  cases x with
  | scalar t v => exact b.writeScalar?_eq_appendScalar? t v
  | varint v => exact b.writeVarint?_eq_appendVarint? v
  | bytes bs => exact b.writeBytes?_eq_appendBytes? bs
  | text s => exact b.writeBytes?_eq_appendBytes? (Text.encode s)
  | value l v => exact l.write?_eq_append? v b

theorem append?_eq_appendAll? (x : Item) (b : Buffer) : x.append? b = b.appendAll? x.pieces := by
  cases x with
  | scalar t v => exact (b.appendAll?_singleton _).symm
  | varint v => exact (b.appendAll?_singleton _).symm
  | bytes bs => exact b.appendBytes?_eq_appendAll? bs
  | text s => exact b.appendBytes?_eq_appendAll? (Text.encode s)
  | value l v => exact l.append?_eq_appendAll? v b

theorem flatten_pieces (x : Item) : x.pieces.flatten = x.encode := by
  cases x with
  | scalar t v => exact List.flatten_singleton
  | varint v => exact List.flatten_singleton
  | bytes bs => exact bs.flatten_pieces
  | text s => exact (Text.encode s).flatten_pieces
  | value l v => exact l.flatten_pieces v

theorem bytes_of_append? {x : Item} {b b' : Buffer} (h : x.append? b = some b') :
    b'.bytes = b.bytes ++ x.encode := by
  rw [x.append?_eq_appendAll?] at h
  rw [bytes_of_appendAll? h, x.flatten_pieces]

end Item

namespace Operation

def step? : Operation → Buffer → Option Buffer
  | write x, b => x.append? b
  | reserve n, b => b.reserve? n

@[inherit_doc Item.write?]
def stepInPlace? : Operation → Buffer → Option Buffer
  | write x, b => x.write? b
  | reserve n, b => b.reserve? n

theorem stepInPlace?_eq_step? (op : Operation) (b : Buffer) : op.stepInPlace? b = op.step? b := by
  cases op with
  | write x => exact x.write?_eq_append? b
  | reserve n => rfl

def items : Operation → List Item
  | write x => [x]
  | reserve _ => []

theorem bytes_of_step? {op : Operation} {b b' : Buffer} (h : op.step? b = some b') :
    b'.bytes = b.bytes ++ op.items.flatMap Item.encode := by
  cases op with
  | write x => simpa [items] using Item.bytes_of_append? h
  | reserve n => simpa [items] using bytes_of_reserve? h

end Operation

def run? (b : Buffer) (ops : List Operation) : Option Buffer := ops.foldlM (fun b op ↦ op.step? b) b

def runInPlace? (b : Buffer) (ops : List Operation) : Option Buffer :=
  ops.foldlM (fun b op ↦ op.stepInPlace? b) b

theorem runInPlace?_eq_run? (b : Buffer) (ops : List Operation) :
    b.runInPlace? ops = b.run? ops := by
  simp only [runInPlace?, Operation.stepInPlace?_eq_step?, run?]

theorem run?_cons (b : Buffer) (op : Operation) (ops : List Operation) :
    b.run? (op :: ops) = (op.step? b).bind fun b ↦ b.run? ops := rfl

theorem run?_append (b : Buffer) (pre post : List Operation) :
    b.run? (pre ++ post) = (b.run? pre).bind fun b ↦ b.run? post :=
  List.foldlM_append

end TaggedWire.Buffer
