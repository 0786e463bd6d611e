import TaggedWire.Layout
import TaggedWire.Proofs.Slots

/-!
# What writes add

A value is added to a buffer in pieces, each with a reservation of its own: a scalar is one piece, a
text or byte string is its length and its payload. `Layout.pieces` lists them. Together they are the
wire form of the value, which is put behind the bytes that are there; reservations change the
capacity and nothing else.

`Layout.write?` adds a value as a writer does that works in place: it adds zeros and writes scalars
over them, and it collects the digits of a length in slots before it adds them. It does the same as
`Layout.append?`.
-/

namespace TaggedWire

theorem Scalar.encode_uint8 (b : UInt8) : Scalar.uint8.encode b = [b] := by
  simp [Scalar.encode, Scalar.size, Scalar.toBits, Bytes.ofNatLE]

namespace Buffer

def appendAll? (b : Buffer) (ps : List Bytes) : Option Buffer := ps.foldlM append? b

@[simp] theorem appendAll?_nil (b : Buffer) : b.appendAll? [] = some b := rfl

@[simp] theorem appendAll?_cons (b : Buffer) (p : Bytes) (ps : List Bytes) :
    b.appendAll? (p :: ps) = (b.append? p).bind fun b ↦ b.appendAll? ps := rfl

theorem appendAll?_append (b : Buffer) (ps qs : List Bytes) :
    b.appendAll? (ps ++ qs) = (b.appendAll? ps).bind fun b ↦ b.appendAll? qs :=
  List.foldlM_append

theorem appendAll?_singleton (b : Buffer) (p : Bytes) : b.appendAll? [p] = b.append? p := by
  simp

theorem bytes_of_reserve? {b b' : Buffer} {n : Nat} (h : b.reserve? n = some b') :
    b'.bytes = b.bytes := by
  simp only [reserve?] at h
  split at h
  · cases h
    rfl
  · cases h

theorem bytes_of_append? {b b' : Buffer} {bs : Bytes} (h : b.append? bs = some b') :
    b'.bytes = b.bytes ++ bs := by
  obtain ⟨b₁, hreserve, rfl⟩ := Option.map_eq_some_iff.mp h
  exact congrArg (· ++ bs) (bytes_of_reserve? hreserve)

theorem bytes_of_appendAll? {b b' : Buffer} {ps : List Bytes} (h : b.appendAll? ps = some b') :
    b'.bytes = b.bytes ++ ps.flatten := by
  induction ps generalizing b with
  | nil =>
      cases h
      simp
  | cons p ps ih =>
      obtain ⟨b₁, hp, hps⟩ := Option.bind_eq_some_iff.mp h
      rw [ih hps, bytes_of_append? hp, List.append_assoc, List.flatten_cons]

end Buffer

def Bytes.pieces (bs : Bytes) : List Bytes := [Varint.encode (UInt64.ofNat bs.length), bs]

theorem Bytes.flatten_pieces (bs : Bytes) : bs.pieces.flatten = bs.encode := by
  simp [Bytes.pieces, Bytes.encode]

theorem Buffer.appendBytes?_eq_appendAll? (b : Buffer) (bs : Bytes) :
    b.appendBytes? bs = b.appendAll? bs.pieces := by
  rw [Bytes.pieces, Buffer.appendAll?_cons]
  simp only [Buffer.appendAll?_singleton]
  rfl

mutual
/-- The byte strings for which room is made one after the other when a value is added. -/
def Layout.pieces : (l : Layout) → l.Value → List Bytes
  | .scalar t, v => [t.encode v]
  | .text, s => (Text.encode s).pieces
  | .bytes, bs => bs.pieces
  | .record fs, vs => fs.pieces vs
  | .message tag fs, vs => [tag] :: fs.pieces vs

@[inherit_doc Layout.pieces]
def Fields.pieces : (fs : Fields) → fs.Values → List Bytes
  | .nil, _ => []
  | .cons _ l fs, (v, vs) => l.pieces v ++ fs.pieces vs
end

mutual
theorem Layout.flatten_pieces : (l : Layout) → (v : l.Value) → (l.pieces v).flatten = l.encode v
  | .scalar t, v => by simp [Layout.pieces, Layout.encode]
  | .text, s => by
      rw [Layout.pieces, Layout.encode]
      exact Bytes.flatten_pieces _
  | .bytes, bs => by
      rw [Layout.pieces, Layout.encode]
      exact Bytes.flatten_pieces bs
  | .record fs, vs => by
      rw [Layout.pieces, Layout.encode]
      exact Fields.flatten_pieces fs vs
  | .message tag fs, vs => by
      rw [Layout.pieces, Layout.encode, List.flatten_cons, Fields.flatten_pieces fs vs]
      rfl

theorem Fields.flatten_pieces : (fs : Fields) → (vs : fs.Values) →
    (fs.pieces vs).flatten = fs.encode vs
  | .nil, () => by rw [Fields.pieces, Fields.encode, List.flatten_nil]
  | .cons _ l fs, (v, vs) => by
      rw [Fields.pieces, Fields.encode, List.flatten_append, Layout.flatten_pieces l v,
        Fields.flatten_pieces fs vs]
end

mutual
theorem Layout.append?_eq_appendAll? : (l : Layout) → (v : l.Value) → (b : Buffer) →
    l.append? v b = b.appendAll? (l.pieces v)
  | .scalar t, v, b => by
      rw [Layout.append?, Layout.pieces, Buffer.appendAll?_singleton]
      rfl
  | .text, s, b => by
      rw [Layout.append?, Layout.pieces]
      exact b.appendBytes?_eq_appendAll? _
  | .bytes, bs, b => by
      rw [Layout.append?, Layout.pieces]
      exact b.appendBytes?_eq_appendAll? bs
  | .record fs, vs, b => by
      rw [Layout.append?, Layout.pieces]
      exact Fields.append?_eq_appendAll? fs vs b
  | .message tag fs, vs, b => by
      rw [Layout.append?, Layout.pieces, Buffer.appendAll?_cons, ← Scalar.encode_uint8]
      apply congrArg
      funext b₁
      exact Fields.append?_eq_appendAll? fs vs b₁

theorem Fields.append?_eq_appendAll? : (fs : Fields) → (vs : fs.Values) → (b : Buffer) →
    fs.append? vs b = b.appendAll? (fs.pieces vs)
  | .nil, (), b => by
      rw [Fields.append?, Fields.pieces, Buffer.appendAll?_nil]
  | .cons _ l fs, (v, vs), b => by
      rw [Fields.append?, Fields.pieces, Buffer.appendAll?_append,
        Layout.append?_eq_appendAll? l v b]
      apply congrArg
      funext b₁
      exact Fields.append?_eq_appendAll? fs vs b₁
end

theorem Layout.bytes_of_append? (l : Layout) (v : l.Value) {b b' : Buffer}
    (h : l.append? v b = some b') : b'.bytes = b.bytes ++ l.encode v := by
  rw [l.append?_eq_appendAll?] at h
  rw [Buffer.bytes_of_appendAll? h, l.flatten_pieces]

/-! ## The writer step by step -/

namespace Buffer

/-- Adds zeros and writes the scalar over them. -/
def writeScalar? (b : Buffer) (t : Scalar) (v : t.Value) : Option Buffer :=
  (b.reserve? t.size).bind fun b ↦
    let zeroed := b.bytes ++ List.replicate t.size 0
    (zeroed.slice? b.length zeroed.length).bind fun room ↦
      (t.storeSlice? v room).map fun filled ↦ { b with bytes := zeroed.take b.length ++ filled }

/-- Writes the digits into ten slots and adds the slots that are in use. -/
def writeVarint? (b : Buffer) (v : UInt64) : Option Buffer :=
  (Varint.storeSlots? v (List.replicate Varint.maxDigits 0)).bind fun (count, slots) ↦
    (slots.slice? 0 count).bind b.append?

def writeBytes? (b : Buffer) (bs : Bytes) : Option Buffer :=
  (b.writeVarint? (UInt64.ofNat bs.length)).bind fun b ↦ b.append? bs

theorem writeScalar?_eq_appendScalar? (b : Buffer) (t : Scalar) (v : t.Value) :
    b.writeScalar? t v = b.appendScalar? t v := by
  rw [writeScalar?, appendScalar?, append?, t.length_encode, Option.map_eq_bind]
  apply congrArg
  funext b₁
  -- The zeros are all the room there is, and the scalar replaces every one of them.
  have hstore : t.store? v (List.replicate t.size 0) = some (t.encode v) := by
    rw [Scalar.store?_of_le (by simp)]
    simp
  simp only [Buffer.length, Bytes.slice?_append, Option.bind_some, t.storeSlice?_eq_store?, hstore,
    Option.map_some, List.take_left, Function.comp]

theorem writeVarint?_eq_appendVarint? (b : Buffer) (v : UInt64) :
    b.writeVarint? v = b.appendVarint? v := by
  have hzeros : List.replicate Varint.maxDigits (0 : UInt8) =
      (Vector.replicate Varint.maxDigits (0 : UInt8)).toList := Vector.toList_replicate.symm
  have hfit : Varint.encodedLength v ≤
      (Varint.store v (Vector.replicate Varint.maxDigits 0)).2.toList.length := by
    simpa using Varint.encodedLength_le v
  have hslice := Bytes.slice?_of_le (Nat.zero_le _) hfit
  rw [List.drop_zero, Nat.sub_zero, Varint.take_store] at hslice
  rw [writeVarint?, hzeros, Varint.storeSlots?_toList, Option.bind_some]
  simp only [hslice, Option.bind_some]
  rfl

theorem writeBytes?_eq_appendBytes? (b : Buffer) (bs : Bytes) :
    b.writeBytes? bs = b.appendBytes? bs := by
  rw [writeBytes?, writeVarint?_eq_appendVarint?]
  rfl

end Buffer

mutual
/-- Adds a value field by field, with every slice and slot checked. -/
def Layout.write? : (l : Layout) → l.Value → Buffer → Option Buffer
  | .scalar t, v, b => b.writeScalar? t v
  | .text, s, b => b.writeBytes? (Text.encode s)
  | .bytes, bs, b => b.writeBytes? bs
  | .record fs, vs, b => fs.write? vs b
  | .message tag fs, vs, b => (b.writeScalar? .uint8 tag).bind (fs.write? vs)

@[inherit_doc Layout.write?]
def Fields.write? : (fs : Fields) → fs.Values → Buffer → Option Buffer
  | .nil, _, b => some b
  | .cons _ l fs, (v, vs), b => (l.write? v b).bind (fs.write? vs)
end

mutual
theorem Layout.write?_eq_append? : (l : Layout) → (v : l.Value) → (b : Buffer) →
    l.write? v b = l.append? v b
  | .scalar t, v, b => by
      rw [Layout.write?, Layout.append?]
      exact b.writeScalar?_eq_appendScalar? t v
  | .text, s, b => by
      rw [Layout.write?, Layout.append?]
      exact b.writeBytes?_eq_appendBytes? (Text.encode s)
  | .bytes, bs, b => by
      rw [Layout.write?, Layout.append?]
      exact b.writeBytes?_eq_appendBytes? bs
  | .record fs, vs, b => by
      rw [Layout.write?, Layout.append?]
      exact Fields.write?_eq_append? fs vs b
  | .message tag fs, vs, b => by
      rw [Layout.write?, Layout.append?, b.writeScalar?_eq_appendScalar?]
      apply congrArg
      funext b₁
      exact Fields.write?_eq_append? fs vs b₁

theorem Fields.write?_eq_append? : (fs : Fields) → (vs : fs.Values) → (b : Buffer) →
    fs.write? vs b = fs.append? vs b
  | .nil, (), b => by rw [Fields.write?, Fields.append?]
  | .cons _ l fs, (v, vs), b => by
      rw [Fields.write?, Fields.append?, Layout.write?_eq_append? l v b]
      apply congrArg
      funext b₁
      exact Fields.write?_eq_append? fs vs b₁
end

end TaggedWire
