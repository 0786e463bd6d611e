import TaggedWire.Proofs.Cells

/-!
# The leaves of a value

A leaf is a cell that forgets whether its payload is a text: it is a scalar, or a payload that
stands behind its length. `Leaf.Spelled` says how a row of leaves stands for itself on the wire with
given length prefixes, and the wire forms of a value are exactly the strings that spell its leaves
with some prefixes.
-/

namespace TaggedWire

inductive Leaf where
  | scalar (t : Scalar) (v : t.Value)
  | payload (bs : Bytes)

def Leaf.encode : Leaf → Bytes
  | scalar t v => t.encode v
  | payload bs => bs.encode

def Cell.leaf : Cell → Leaf
  | ⟨.scalar t, v⟩ => .scalar t v
  | ⟨.text, s⟩ => .payload (Text.encode s)
  | ⟨.bytes, bs⟩ => .payload bs

theorem Cell.encode_leaf (x : Cell) : x.leaf.encode = x.encode := by
  obtain ⟨k, v⟩ := x
  cases k <;> rfl

theorem Cell.flatMap_encode_leaf (xs : List Cell) :
    (xs.map leaf).flatMap Leaf.encode = xs.flatMap encode := by
  simp only [List.flatMap_map, encode_leaf]

/-- The scalars, texts and byte strings of a value in the order in which they are written. -/
def Layout.leaves (l : Layout) (v : l.Value) : List Leaf := (l.cells false v).map Cell.leaf

@[inherit_doc Layout.leaves]
def Fields.leaves (fs : Fields) (vs : fs.Values) : List Leaf := (fs.cells false vs).map Cell.leaf

namespace Layout

theorem leaves_scalar (t : Scalar) (v : t.Value) : (scalar t).leaves v = [.scalar t v] := by
  simp [leaves, cells, Cell.leaf]

theorem leaves_text (s : String) : text.leaves s = [.payload (Text.encode s)] := by
  simp [leaves, cells, Cell.leaf]

theorem leaves_bytes (bs : Bytes) : bytes.leaves bs = [.payload bs] := by
  simp [leaves, cells, Cell.leaf]

theorem leaves_record (fs : Fields) (vs : fs.Values) : (record fs).leaves vs = fs.leaves vs := by
  simp [leaves, cells, Fields.leaves]

theorem leaves_message (tag : UInt8) (fs : Fields) (vs : fs.Values) :
    (message tag fs).leaves vs = fs.leaves vs := by
  simp [leaves, cells, Fields.leaves]

end Layout

theorem Fields.leaves_nil : Fields.nil.leaves () = [] := by
  simp [leaves, cells]

theorem Fields.leaves_cons (name : String) (l : Layout) (fs : Fields) (v : l.Value)
    (vs : fs.Values) : (cons name l fs).leaves (v, vs) = l.leaves v ++ fs.leaves vs := by
  simp [leaves, cells, Layout.leaves]

theorem Fields.encode_eq_flatMap_leaves (fs : Fields) (hfs : fs.messageFree) (vs : fs.Values) :
    fs.encode vs = (fs.leaves vs).flatMap Leaf.encode := by
  rw [fs.encode_eq_flatMap_cells, fs.cells_of_messageFree hfs, leaves, Cell.flatMap_encode_leaf]

/-- What is written for a value is its tag, if there is one, and its leaves. -/
theorem Layout.encode_eq_tag_append_leaves (l : Layout) (hl : l.untagged.messageFree)
    (v : l.Value) : l.encode v = l.tag?.toList ++ (l.leaves v).flatMap Leaf.encode := by
  rw [l.encode_eq_tag_append_cells hl, leaves, Cell.flatMap_encode_leaf]

/-! ## Spellings -/

/-- The leaves `ls` are spelled by a byte string in which the lengths of the payloads are the byte
strings `ps`, in order. -/
inductive Leaf.Spelled : (ls : List Leaf) → (ps : List Bytes) → Bytes → Prop where
  | nil : Leaf.Spelled [] [] []
  | scalar {ls : List Leaf} {ps : List Bytes} {g : Bytes} (t : Scalar) (v : t.Value)
      (h : Leaf.Spelled ls ps g) : Leaf.Spelled (.scalar t v :: ls) ps (t.encode v ++ g)
  | payload {ls : List Leaf} {ps : List Bytes} {g bs p : Bytes}
      (hp : Varint.LengthPrefix bs.length p) (h : Leaf.Spelled ls ps g) :
      Leaf.Spelled (.payload bs :: ls) (p :: ps) (p ++ bs ++ g)

namespace Leaf

theorem spelled_nil_iff {ps : List Bytes} {k : Bytes} : Spelled [] ps k ↔ ps = [] ∧ k = [] := by
  constructor
  · intro h
    cases h
    exact ⟨rfl, rfl⟩
  · rintro ⟨rfl, rfl⟩
    exact .nil

theorem spelled_scalar_cons_iff {t : Scalar} {v : t.Value} {ls : List Leaf} {ps : List Bytes}
    {k : Bytes} :
    Spelled (.scalar t v :: ls) ps k ↔ ∃ g, Spelled ls ps g ∧ k = t.encode v ++ g := by
  constructor
  · intro h
    cases h with
    | scalar t v h => exact ⟨_, h, rfl⟩
  · rintro ⟨g, h, rfl⟩
    exact .scalar t v h

theorem spelled_payload_cons_iff {bs : Bytes} {ls : List Leaf} {ps : List Bytes} {k : Bytes} :
    Spelled (.payload bs :: ls) ps k ↔
      ∃ p qs g, Varint.LengthPrefix bs.length p ∧ Spelled ls qs g ∧ ps = p :: qs ∧
        k = p ++ bs ++ g := by
  constructor
  · intro h
    cases h with
    | payload hp h => exact ⟨_, _, _, hp, h, rfl, rfl⟩
  · rintro ⟨p, qs, g, hp, h, rfl, rfl⟩
    exact .payload hp h

theorem spelled_append_iff {ls ms : List Leaf} {ps : List Bytes} {k : Bytes} :
    Spelled (ls ++ ms) ps k ↔
      ∃ ps₁ ps₂ g₁ g₂, Spelled ls ps₁ g₁ ∧ Spelled ms ps₂ g₂ ∧ ps = ps₁ ++ ps₂ ∧ k = g₁ ++ g₂ := by
  constructor
  · intro h
    induction ls generalizing ps k with
    | nil => exact ⟨[], ps, [], k, .nil, h, rfl, rfl⟩
    | cons l ls ih =>
        cases h with
        | scalar t v h =>
            obtain ⟨ps₁, ps₂, g₁, g₂, h₁, h₂, rfl, rfl⟩ := ih h
            exact ⟨ps₁, ps₂, _, g₂, .scalar t v h₁, h₂, rfl, (List.append_assoc ..).symm⟩
        | payload hp h =>
            obtain ⟨ps₁, ps₂, g₁, g₂, h₁, h₂, rfl, rfl⟩ := ih h
            exact ⟨_ :: ps₁, ps₂, _, g₂, .payload hp h₁, h₂, rfl, (List.append_assoc ..).symm⟩
  · rintro ⟨ps₁, ps₂, g₁, g₂, h₁, h₂, rfl, rfl⟩
    induction h₁ with
    | nil => exact h₂
    | scalar t v _ ih =>
        rw [List.append_assoc]
        exact .scalar t v ih
    | payload hp _ ih =>
        rw [List.append_assoc]
        exact .payload hp ih

end Leaf

mutual
theorem Layout.wireForm_iff_spelled : (l : Layout) → (v : l.Value) → (g : Bytes) →
    (l.WireForm v g ↔ ∃ ps, Leaf.Spelled (l.leaves v) ps g)
  | .scalar t, v, g => by
      simp [Layout.leaves_scalar, Layout.wireForm_scalar_iff, Leaf.spelled_scalar_cons_iff,
        Leaf.spelled_nil_iff]
  | .text, s, g => by
      simp [Layout.leaves_text, Layout.wireForm_text_iff, Leaf.spelled_payload_cons_iff,
        Leaf.spelled_nil_iff]
  | .bytes, bs, g => by
      simp [Layout.leaves_bytes, Layout.wireForm_bytes_iff, Leaf.spelled_payload_cons_iff,
        Leaf.spelled_nil_iff]
  | .record fs, vs, g => by
      rw [Layout.leaves_record, Layout.wireForm_record_iff]
      exact Fields.wireForm_iff_spelled fs vs g
  | .message _ fs, vs, g => by
      rw [Layout.leaves_message, Layout.wireForm_message_iff]
      exact Fields.wireForm_iff_spelled fs vs g

theorem Fields.wireForm_iff_spelled : (fs : Fields) → (vs : fs.Values) → (g : Bytes) →
    (fs.WireForm vs g ↔ ∃ ps, Leaf.Spelled (fs.leaves vs) ps g)
  | .nil, (), g => by
      simp [Fields.leaves_nil, Fields.wireForm_nil_iff, Leaf.spelled_nil_iff]
  | .cons _ l fs, (v, vs), g => by
      rw [Fields.leaves_cons, Fields.wireForm_cons_iff]
      simp only [Layout.wireForm_iff_spelled l v, Fields.wireForm_iff_spelled fs vs,
        Leaf.spelled_append_iff]
      constructor
      · rintro ⟨g₁, g₂, ⟨ps₁, h₁⟩, ⟨ps₂, h₂⟩, rfl⟩
        exact ⟨ps₁ ++ ps₂, ps₁, ps₂, g₁, g₂, h₁, h₂, rfl, rfl⟩
      · rintro ⟨_, ps₁, ps₂, g₁, g₂, h₁, h₂, -, rfl⟩
        exact ⟨g₁, g₂, ⟨ps₁, h₁⟩, ⟨ps₂, h₂⟩, rfl⟩
end

end TaggedWire
