import Mathlib.Algebra.GroupWithZero.Nat
import TaggedWire.Presence.Message
import TaggedWire.Proofs.Leaves

/-!
# The size on the wire

The leaves of a value and the number of messages in its layout tell how many bytes are written for
it: a scalar takes its size, a payload takes its own bytes and the digits of its length, and each
message takes one byte for its tag. The writer never computes this size. It reserves room piece by
piece and ends up with exactly that many bytes more.
-/

namespace TaggedWire

/-- The number of bytes that a leaf takes. -/
def Leaf.size : Leaf → Nat
  | scalar t _ => t.size
  | payload bs => Varint.encodedLength (UInt64.ofNat bs.length) + bs.length

mutual
/-- The number of messages in a layout, itself and those in its fields at any depth. -/
def Layout.messages : Layout → Nat
  | .scalar _ | .text | .bytes => 0
  | .record fs => fs.messages
  | .message _ fs => fs.messages + 1

@[inherit_doc Layout.messages]
def Fields.messages : Fields → Nat
  | .nil => 0
  | .cons _ l fs => l.messages + fs.messages
end

theorem Bytes.length_encode (bs : Bytes) :
    bs.encode.length = Varint.encodedLength (UInt64.ofNat bs.length) + bs.length := by
  simp [Bytes.encode, Varint.length_encode]

mutual
theorem Layout.length_encode : (l : Layout) → (v : l.Value) →
    (l.encode v).length = ((l.leaves v).map Leaf.size).sum + l.messages
  | .scalar t, v => by simp [Layout.encode, Layout.leaves_scalar, Leaf.size, Layout.messages]
  | .text, s => by
      simp [Layout.encode, Layout.leaves_text, Leaf.size, Layout.messages, Bytes.length_encode]
  | .bytes, bs => by
      simp [Layout.encode, Layout.leaves_bytes, Leaf.size, Layout.messages, Bytes.length_encode]
  | .record fs, vs => by
      rw [Layout.encode, Layout.leaves_record, Layout.messages]
      exact Fields.length_encode fs vs
  | .message tag fs, vs => by
      rw [Layout.encode, Layout.leaves_message, Layout.messages, List.length_cons,
        Fields.length_encode fs vs, Nat.add_assoc]

theorem Fields.length_encode : (fs : Fields) → (vs : fs.Values) →
    (fs.encode vs).length = ((fs.leaves vs).map Leaf.size).sum + fs.messages
  | .nil, () => by simp [Fields.encode, Fields.leaves_nil, Fields.messages]
  | .cons _ l fs, (v, vs) => by
      rw [Fields.encode, Fields.leaves_cons, Fields.messages, List.length_append, List.map_append,
        List.sum_append, Layout.length_encode l v, Fields.length_encode fs vs]
      omega
end

/-- A payload that fits a word is preceded by the least number of digits that can spell its
length. -/
theorem Varint.isLeast_encodedLength_ofNat {n : Nat} (hn : n < 2 ^ 64) :
    IsLeast {k | 1 ≤ k ∧ n < 128 ^ k} (encodedLength (UInt64.ofNat n)) := by
  have hleast := isLeast_encodedLength (UInt64.ofNat n)
  rwa [UInt64.toNat_ofNat_of_lt' hn] at hleast

/-- A write adds as many bytes as the leaves of the value and the messages of the layout take, and
it is refused exactly if no doubling of the capacity that may be allocated has room for them. -/
theorem Layout.length_of_append? (l : Layout) (v : l.Value)
    (hv : ∀ q ∈ l.payloads v, q.length < 2 ^ 63) :
    let size := ((l.leaves v).map Leaf.size).sum + l.messages
    (∀ b b', l.append? v b = some b' →
      b'.bytes = b.bytes ++ l.encode v ∧ b'.length = b.length + size) ∧
    (∀ b : Buffer, b.Sound → ((∃ b', l.append? v b = some b') ↔
      ∃ d, b.length + size ≤ b.capacity * 2 ^ d ∧ b.capacity * 2 ^ d ≤ 2 ^ 63 - 1)) ∧
    (∀ b, l.write? v b = l.append? v b) ∧
    ∀ q ∈ l.payloads v,
      IsLeast {k | 1 ≤ k ∧ q.length < 128 ^ k}
        (Varint.encodedLength (UInt64.ofNat q.length)) := by
  intro size
  have hsize : (l.encode v).length = size := l.length_encode v
  refine ⟨?_, ?_, l.write?_eq_append? v, ?_⟩
  · intro b b' h
    have hbytes := l.bytes_of_append? v h
    refine ⟨hbytes, ?_⟩
    rw [Buffer.length_of_bytes_eq hbytes, hsize]
  · intro b hb
    rw [← hsize]
    exact hb.exists_append?_iff (.value l v)
  · intro q hq
    have hshort := hv q hq
    exact Varint.isLeast_encodedLength_ofNat (by omega)

/-- Two messages, a text of two bytes, and the shortest payload whose length takes two digits. -/
theorem Layout.length_of_append?_nested :
    let l : Layout := .message 9 <|
      .cons "seq" (.scalar .uint16) <| .cons "msg" Presence.Kind.clientRegister.layout <|
      .cons "blob" .bytes .nil
    let v : l.Value := (1, ("é", ()), List.replicate 128 7, ())
    (∀ q ∈ l.payloads v, q.length < 2 ^ 63) ∧
      ∃ b, l.append? v .empty = some b ∧ b.length = 2 + (1 + 2) + (2 + 128) + 2 := by
  intro l v
  have hshort : ∀ q ∈ l.payloads v, q.length < 2 ^ 63 := by decide +kernel
  have hsize : ((l.leaves v).map Leaf.size).sum + l.messages = 137 := by decide +kernel
  obtain ⟨hlength, hgranted, -⟩ := l.length_of_append? v hshort
  have hroom := hgranted .empty Buffer.sound_empty
  rw [hsize] at hroom
  obtain ⟨b, hb⟩ := hroom.mpr ⟨2, by decide, by decide⟩
  have hbytes := (hlength _ _ hb).2
  rw [hsize] at hbytes
  exact ⟨hshort, b, hb, hbytes⟩

end TaggedWire
