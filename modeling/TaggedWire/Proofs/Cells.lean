import TaggedWire.Proofs.RoundTrip

/-!
# Values as rows of cells

A layout is flattened to the row of the primitive kinds in it, and a value to a row of cells: a
primitive kind with a value of that kind. Where tags are wanted, each message has a cell for its tag
before those of its fields. A value is determined by its cells, any cells of the right kinds make up
a value, and writing a value is writing its cells, tags included.
-/

namespace TaggedWire

inductive Primitive where
  | scalar (t : Scalar)
  | text
  | bytes
  deriving DecidableEq, Repr

namespace Primitive

@[reducible] def Value : Primitive → Type
  | scalar t => t.Value
  | text => String
  | bytes => Bytes

def encode : (k : Primitive) → k.Value → Bytes
  | scalar t, v => t.encode v
  | text, s => (Text.encode s).encode
  | bytes, bs => bs.encode

def append? : (k : Primitive) → k.Value → Buffer → Option Buffer
  | scalar t, v, b => b.appendScalar? t v
  | text, s, b => b.appendText? s
  | bytes, bs, b => b.appendBytes? bs

end Primitive

structure Cell where
  kind : Primitive
  value : kind.Value

namespace Cell

def encode (x : Cell) : Bytes := x.kind.encode x.value

def append? (x : Cell) (b : Buffer) : Option Buffer := x.kind.append? x.value b

def ofTag (tag : UInt8) : Cell := ⟨.scalar .uint8, tag⟩

theorem encode_ofTag (tag : UInt8) : (ofTag tag).encode = [tag] :=
  Scalar.encode_uint8 tag

theorem map_kind_eq_singleton_iff {xs : List Cell} {k : Primitive} :
    xs.map kind = [k] ↔ ∃ v, xs = [⟨k, v⟩] := by
  constructor
  · intro h
    obtain ⟨⟨k', v⟩, rfl, rfl⟩ := List.map_eq_singleton_iff.mp h
    exact ⟨v, rfl⟩
  · rintro ⟨v, rfl⟩
    rfl

end Cell

/-! ## Flattening -/

mutual
/-- The primitive kinds in a layout, depth first, with one for the tag of each message if tags are
wanted. -/
def Layout.kinds (tags : Bool) : Layout → List Primitive
  | .scalar t => [.scalar t]
  | .text => [.text]
  | .bytes => [.bytes]
  | .record fs => fs.kinds tags
  | .message _ fs => if tags then .scalar .uint8 :: fs.kinds tags else fs.kinds tags

@[inherit_doc Layout.kinds]
def Fields.kinds (tags : Bool) : Fields → List Primitive
  | .nil => []
  | .cons _ l fs => l.kinds tags ++ fs.kinds tags
end

mutual
/-- The cells of a value, depth first, with one for the tag of each message if tags are wanted. -/
def Layout.cells (tags : Bool) : (l : Layout) → l.Value → List Cell
  | .scalar t, v => [⟨.scalar t, v⟩]
  | .text, s => [⟨.text, s⟩]
  | .bytes, bs => [⟨.bytes, bs⟩]
  | .record fs, vs => fs.cells tags vs
  | .message tag fs, vs => if tags then .ofTag tag :: fs.cells tags vs else fs.cells tags vs

@[inherit_doc Layout.cells]
def Fields.cells (tags : Bool) : (fs : Fields) → fs.Values → List Cell
  | .nil, _ => []
  | .cons _ l fs, (v, vs) => l.cells tags v ++ fs.cells tags vs
end

mutual
theorem Layout.map_kind_cells (tags : Bool) : (l : Layout) → (v : l.Value) →
    (l.cells tags v).map Cell.kind = l.kinds tags
  | .scalar _, _ => by simp [Layout.cells, Layout.kinds]
  | .text, _ => by simp [Layout.cells, Layout.kinds]
  | .bytes, _ => by simp [Layout.cells, Layout.kinds]
  | .record fs, vs => by
      rw [Layout.cells, Layout.kinds]
      exact Fields.map_kind_cells tags fs vs
  | .message tag fs, vs => by
      rw [Layout.cells, Layout.kinds, ← Fields.map_kind_cells tags fs vs]
      cases tags <;> rfl

theorem Fields.map_kind_cells (tags : Bool) : (fs : Fields) → (vs : fs.Values) →
    (fs.cells tags vs).map Cell.kind = fs.kinds tags
  | .nil, () => by rw [Fields.cells, Fields.kinds, List.map_nil]
  | .cons _ l fs, (v, vs) => by
      rw [Fields.cells, Fields.kinds, List.map_append, Layout.map_kind_cells tags l v,
        Fields.map_kind_cells tags fs vs]
end

/-! ## Assembling a value from its cells -/

mutual
theorem Layout.cells_injective (tags : Bool) : (l : Layout) → Function.Injective (l.cells tags)
  | .scalar t => by
      intro v w h
      simpa [Layout.cells] using h
  | .text => by
      intro v w h
      simpa [Layout.cells] using h
  | .bytes => by
      intro v w h
      simpa [Layout.cells] using h
  | .record fs => by
      intro vs ws h
      rw [Layout.cells, Layout.cells] at h
      exact Fields.cells_injective tags fs h
  | .message tag fs => by
      intro vs ws h
      rw [Layout.cells, Layout.cells] at h
      cases tags with
      | false => exact Fields.cells_injective false fs h
      | true => exact Fields.cells_injective true fs (List.cons.inj h).2

theorem Fields.cells_injective (tags : Bool) : (fs : Fields) → Function.Injective (fs.cells tags)
  | .nil => fun _ _ _ ↦ rfl
  | .cons _ l fs => by
      rintro ⟨v, vs⟩ ⟨w, ws⟩ h
      rw [Fields.cells, Fields.cells] at h
      -- The cells of a field are as many as its layout has kinds, so the rows split alike.
      have hlength : (l.cells tags v).length = (l.cells tags w).length := by
        rw [← List.length_map Cell.kind, l.map_kind_cells, ← l.map_kind_cells tags w,
          List.length_map]
      obtain ⟨hfirst, hrest⟩ := List.append_inj h hlength
      rw [Layout.cells_injective tags l hfirst, Fields.cells_injective tags fs hrest]
end

mutual
theorem Layout.exists_cells_eq : (l : Layout) → {xs : List Cell} →
    xs.map Cell.kind = l.kinds false → ∃ v, l.cells false v = xs
  | .scalar t, xs, h => by
      rw [Layout.kinds] at h
      obtain ⟨v, rfl⟩ := Cell.map_kind_eq_singleton_iff.mp h
      exact ⟨v, by rw [Layout.cells]⟩
  | .text, xs, h => by
      rw [Layout.kinds] at h
      obtain ⟨s, rfl⟩ := Cell.map_kind_eq_singleton_iff.mp h
      exact ⟨s, by rw [Layout.cells]⟩
  | .bytes, xs, h => by
      rw [Layout.kinds] at h
      obtain ⟨bs, rfl⟩ := Cell.map_kind_eq_singleton_iff.mp h
      exact ⟨bs, by rw [Layout.cells]⟩
  | .record fs, xs, h => by
      rw [Layout.kinds] at h
      simp only [Layout.cells]
      exact Fields.exists_cells_eq fs h
  | .message _ fs, xs, h => by
      rw [Layout.kinds] at h
      simp only [Layout.cells]
      exact Fields.exists_cells_eq fs h

theorem Fields.exists_cells_eq : (fs : Fields) → {xs : List Cell} →
    xs.map Cell.kind = fs.kinds false → ∃ vs, fs.cells false vs = xs
  | .nil, xs, h => by
      rw [Fields.kinds] at h
      obtain rfl := List.map_eq_nil_iff.mp h
      exact ⟨(), by rw [Fields.cells]⟩
  | .cons _ l fs, xs, h => by
      rw [Fields.kinds] at h
      obtain ⟨ys, zs, rfl, hys, hzs⟩ := List.map_eq_append_iff.mp h
      obtain ⟨v, rfl⟩ := Layout.exists_cells_eq l hys
      obtain ⟨vs, rfl⟩ := Fields.exists_cells_eq fs hzs
      exact ⟨(v, vs), by rw [Fields.cells]⟩
end

theorem Layout.map_kind_eq_iff (l : Layout) (xs : List Cell) :
    xs.map Cell.kind = l.kinds false ↔ ∃! v, l.cells false v = xs := by
  constructor
  · intro h
    obtain ⟨v, rfl⟩ := l.exists_cells_eq h
    refine ⟨v, rfl, ?_⟩
    intro w hw
    exact l.cells_injective false hw
  · rintro ⟨v, rfl, -⟩
    exact l.map_kind_cells false v

/-! ## Writing cells -/

mutual
theorem Layout.encode_eq_flatMap_cells : (l : Layout) → (v : l.Value) →
    l.encode v = (l.cells true v).flatMap Cell.encode
  | .scalar t, v => by simp [Layout.encode, Layout.cells, Cell.encode, Primitive.encode]
  | .text, s => by simp [Layout.encode, Layout.cells, Cell.encode, Primitive.encode]
  | .bytes, bs => by simp [Layout.encode, Layout.cells, Cell.encode, Primitive.encode]
  | .record fs, vs => by
      rw [Layout.encode, Layout.cells]
      exact Fields.encode_eq_flatMap_cells fs vs
  | .message tag fs, vs => by
      rw [Layout.encode, Layout.cells, if_pos rfl, List.flatMap_cons, Cell.encode_ofTag,
        Fields.encode_eq_flatMap_cells fs vs]
      rfl

theorem Fields.encode_eq_flatMap_cells : (fs : Fields) → (vs : fs.Values) →
    fs.encode vs = (fs.cells true vs).flatMap Cell.encode
  | .nil, () => by rw [Fields.encode, Fields.cells, List.flatMap_nil]
  | .cons _ l fs, (v, vs) => by
      rw [Fields.encode, Fields.cells, List.flatMap_append, Layout.encode_eq_flatMap_cells l v,
        Fields.encode_eq_flatMap_cells fs vs]
end

mutual
theorem Layout.append?_eq_foldlM_cells : (l : Layout) → (v : l.Value) → (b : Buffer) →
    l.append? v b = (l.cells true v).foldlM (fun b x ↦ x.append? b) b
  | .scalar t, v, b => by simp [Layout.append?, Layout.cells, Cell.append?, Primitive.append?]
  | .text, s, b => by simp [Layout.append?, Layout.cells, Cell.append?, Primitive.append?]
  | .bytes, bs, b => by simp [Layout.append?, Layout.cells, Cell.append?, Primitive.append?]
  | .record fs, vs, b => by
      rw [Layout.append?, Layout.cells]
      exact Fields.append?_eq_foldlM_cells fs vs b
  | .message tag fs, vs, b => by
      rw [Layout.append?, Layout.cells, if_pos rfl, List.foldlM_cons]
      apply congrArg
      funext b₁
      exact Fields.append?_eq_foldlM_cells fs vs b₁

theorem Fields.append?_eq_foldlM_cells : (fs : Fields) → (vs : fs.Values) → (b : Buffer) →
    fs.append? vs b = (fs.cells true vs).foldlM (fun b x ↦ x.append? b) b
  | .nil, (), b => by
      rw [Fields.append?, Fields.cells, List.foldlM_nil]
      rfl
  | .cons _ l fs, (v, vs), b => by
      rw [Fields.append?, Fields.cells, List.foldlM_append, Layout.append?_eq_foldlM_cells l v b]
      apply congrArg
      funext b₁
      exact Fields.append?_eq_foldlM_cells fs vs b₁
end

mutual
theorem Layout.cells_of_messageFree : (l : Layout) → l.messageFree → (v : l.Value) →
    l.cells true v = l.cells false v
  | .scalar _, _, _ => by simp only [Layout.cells]
  | .text, _, _ => by simp only [Layout.cells]
  | .bytes, _, _ => by simp only [Layout.cells]
  | .record fs, hfs, vs => by
      rw [Layout.messageFree] at hfs
      simpa only [Layout.cells] using Fields.cells_of_messageFree fs hfs vs

theorem Fields.cells_of_messageFree : (fs : Fields) → fs.messageFree → (vs : fs.Values) →
    fs.cells true vs = fs.cells false vs
  | .nil, _, () => by simp only [Fields.cells]
  | .cons _ l fs, hfs, (v, vs) => by
      rw [Fields.messageFree, Bool.and_eq_true] at hfs
      simp only [Fields.cells, Layout.cells_of_messageFree l hfs.1 v,
        Fields.cells_of_messageFree fs hfs.2 vs]
end

/-- Without messages as fields, what is written is the tag, if there is one, and the cells that have
no tags. -/
theorem Layout.encode_eq_tag_append_cells (l : Layout) (hl : l.untagged.messageFree)
    (v : l.Value) : l.encode v = l.tag?.toList ++ (l.cells false v).flatMap Cell.encode := by
  cases l with
  | message tag fs =>
      rw [Layout.untagged, Layout.messageFree] at hl
      rw [Layout.encode, Layout.cells, fs.encode_eq_flatMap_cells v, fs.cells_of_messageFree hl v]
      rfl
  | _ =>
      rw [Layout.encode_eq_flatMap_cells]
      exact congrArg (List.flatMap Cell.encode) (Layout.cells_of_messageFree _ hl v)

end TaggedWire
