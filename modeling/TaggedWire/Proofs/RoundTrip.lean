import TaggedWire.Proofs.Grammar
import TaggedWire.Proofs.Growth

/-!
# Reading what was written

The wire form that is written for a value is one of those that are read for it, as long as no
message is a field: such a message would be written with a tag that is not read. A layout that is a
message itself is read behind its tag.
-/

namespace TaggedWire

mutual
/-- Whether no message occurs in the layout. -/
def Layout.messageFree : Layout → Bool
  | .record fs => fs.messageFree
  | .message _ _ => false
  | .scalar _ | .text | .bytes => true

@[inherit_doc Layout.messageFree]
def Fields.messageFree : Fields → Bool
  | .nil => true
  | .cons _ l fs => l.messageFree && fs.messageFree
end

/-- The layout of what stands behind the tag. -/
def Layout.untagged : Layout → Layout
  | .message _ fs => .record fs
  | l => l

mutual
/-- The byte strings in a value that are written behind their length. -/
def Layout.payloads : (l : Layout) → l.Value → List Bytes
  | .scalar _, _ => []
  | .text, s => [Text.encode s]
  | .bytes, bs => [bs]
  | .record fs, vs => fs.payloads vs
  | .message _ fs, vs => fs.payloads vs

@[inherit_doc Layout.payloads]
def Fields.payloads : (fs : Fields) → fs.Values → List Bytes
  | .nil, _ => []
  | .cons _ l fs, (v, vs) => l.payloads v ++ fs.payloads vs
end

mutual
theorem Layout.wireForm_encode : (l : Layout) → l.messageFree → (v : l.Value) →
    (∀ q ∈ l.payloads v, q.length < 2 ^ 63) → l.WireForm v (l.encode v)
  | .scalar t, _, v, _ => by
      rw [Layout.encode]
      exact .scalar t v
  | .text, _, s, hs => by
      rw [Layout.payloads, List.forall_mem_singleton] at hs
      rw [Layout.encode, Bytes.encode]
      exact .text (Varint.lengthPrefix_encode (by omega))
  | .bytes, _, bs, hbs => by
      rw [Layout.payloads, List.forall_mem_singleton] at hbs
      rw [Layout.encode, Bytes.encode]
      exact .bytes (Varint.lengthPrefix_encode (by omega))
  | .record fs, hfs, vs, hvs => by
      rw [Layout.messageFree] at hfs
      rw [Layout.payloads] at hvs
      rw [Layout.encode]
      exact .record (Fields.wireForm_encode fs hfs vs hvs)

theorem Fields.wireForm_encode : (fs : Fields) → fs.messageFree → (vs : fs.Values) →
    (∀ q ∈ fs.payloads vs, q.length < 2 ^ 63) → fs.WireForm vs (fs.encode vs)
  | .nil, _, (), _ => by
      rw [Fields.encode]
      exact .nil
  | .cons _ l fs, hfs, (v, vs), hvs => by
      rw [Fields.messageFree, Bool.and_eq_true] at hfs
      rw [Fields.payloads, List.forall_mem_append] at hvs
      rw [Fields.encode]
      exact .cons (Layout.wireForm_encode l hfs.1 v hvs.1)
        (Fields.wireForm_encode fs hfs.2 vs hvs.2)
end

/-- What is written for a value is its tag, if there is one, and a wire form of the value. -/
theorem Layout.exists_wireForm_encode (l : Layout) (hl : l.untagged.messageFree) (v : l.Value)
    (hv : ∀ q ∈ l.payloads v, q.length < 2 ^ 63) :
    ∃ e, l.encode v = l.tag?.toList ++ e ∧ l.WireForm v e := by
  cases l with
  | message tag fs =>
      rw [Layout.untagged, Layout.messageFree] at hl
      rw [Layout.payloads] at hv
      refine ⟨fs.encode v, ?_, .message (fs.wireForm_encode hl v hv)⟩
      rw [Layout.encode]
      rfl
  | _ => exact ⟨_, rfl, Layout.wireForm_encode _ hl v hv⟩

/-- A value is written as long as some doubling of the capacity that may be allocated has room for
it. It can then be read back between any other bytes, and the reader stands behind it. -/
theorem Layout.read_encode (l : Layout) (hl : l.untagged.messageFree) (v : l.Value)
    (hv : ∀ q ∈ l.payloads v, q.length < 2 ^ 63) :
    (∀ b b', l.append? v b = some b' → b'.bytes = b.bytes ++ l.encode v) ∧
    (∀ b : Buffer, b.Sound → ((∃ b', l.append? v b = some b') ↔
      ∃ d, b.length + (l.encode v).length ≤ b.capacity * 2 ^ d ∧
        b.capacity * 2 ^ d ≤ 2 ^ 63 - 1)) ∧
    ∃ e, l.encode v = l.tag?.toList ++ e ∧ ∀ p s : Bytes,
      l.read ⟨p ++ e ++ s, p.length⟩ = .ok v ⟨p ++ e ++ s, p.length + e.length⟩ := by
  refine ⟨fun b b' h ↦ l.bytes_of_append? v h,
    fun b hb ↦ hb.exists_append?_iff (.value l v), ?_⟩
  obtain ⟨e, hencode, he⟩ := l.exists_wireForm_encode hl v hv
  exact ⟨e, hencode, fun p s ↦ Layout.read_of_wireForm he p s⟩

/-- A signalling NaN and a text of two bytes, behind a tag. -/
theorem Layout.read_encode_signalling :
    let l : Layout := .message 9 <|
      .cons "at" (.record (.cons "x" (.scalar .float32) .nil)) <| .cons "name" .text .nil
    let v : l.Value := ((⟨0x7FA00001⟩, ()), "é", ())
    (l.untagged.messageFree ∧ ∀ q ∈ l.payloads v, q.length < 2 ^ 63) ∧
      (∃ b, l.append? v .empty = some b ∧ b.bytes = l.encode v) ∧
      ∃ e, l.encode v = 9 :: e ∧
        l.read ⟨[1] ++ e ++ [2, 3], 1⟩ = .ok v ⟨[1] ++ e ++ [2, 3], 1 + e.length⟩ := by
  intro l v
  have hfree : l.untagged.messageFree := rfl
  have hshort : ∀ q ∈ l.payloads v, q.length < 2 ^ 63 := by decide
  obtain ⟨hwritten, hgranted, e, hencode, hread⟩ := l.read_encode hfree v hshort
  obtain ⟨b, hb⟩ := (hgranted .empty Buffer.sound_empty).mpr ⟨0, by decide +kernel, by decide⟩
  exact ⟨⟨hfree, hshort⟩, ⟨b, hb, hwritten _ b hb⟩, e, hencode, hread [1] [2, 3]⟩

end TaggedWire
