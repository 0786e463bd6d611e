import TaggedWire.Proofs.Leafwise
import TaggedWire.Proofs.Verdict

/-!
# Texts taken for byte strings

A text is written as a byte string and read as one, apart from the check that its payload is UTF-8.
`Layout.raw` turns all texts of a layout into byte strings and `Layout.rawValue` does so with a
value. Both layouts write the same bytes. They also read alike, leaf by leaf, as long as no payload
fails the check; where one does, the layout with byte strings reads on.
-/

namespace TaggedWire

theorem Text.decode?_eq_none_iff {bs : Bytes} :
    Text.decode? bs = none ↔ ∀ s, Text.encode s ≠ bs := by
  rw [Option.eq_none_iff_forall_ne_some]
  apply forall_congr'
  intro s
  rw [ne_eq, Text.decode?_eq_some_iff, eq_comm]

theorem ReadM.bytes_ne_invalidUtf8 {c c' : Cursor} : ReadM.bytes c ≠ .error .invalidUtf8 c' := by
  intro h
  obtain ⟨-, htrunc | hdecode⟩ := ReadM.bytes_error h
  · cases htrunc
  · exact Varint.decodeFrom_ne_invalidUtf8 0 0 c.unread hdecode

theorem ReadM.Stable.error_of_outcome {α : Type} {x : ReadM α} (hx : Stable x) {c : Cursor}
    {e : Fault} {p : Nat} (h : x.outcome c = (.error e, p)) : x c = .error e ⟨c.buffer, p⟩ := by
  obtain ⟨c', hread⟩ := outcome_fst_eq_error_iff.mp (congrArg Prod.fst h)
  obtain ⟨k, -, hfinal⟩ := hx.forward c
  rw [final_of_error hread] at hfinal
  rw [outcome_of_error hread] at h
  obtain rfl : c'.pos = p := congrArg Prod.snd h
  rw [hread, hfinal]
  rfl

namespace Primitive

/-- The kind, with a byte string in place of a text. -/
def raw : Primitive → Primitive
  | scalar t => .scalar t
  | text => .bytes
  | bytes => .bytes

def rawValue : (k : Primitive) → k.Value → k.raw.Value
  | scalar _, v => v
  | text, s => Text.encode s
  | bytes, bs => bs

theorem encode_rawValue (k : Primitive) (v : k.Value) :
    k.raw.encode (k.rawValue v) = k.encode v := by
  cases k <;> rfl

theorem append?_rawValue (k : Primitive) (v : k.Value) (b : Buffer) :
    k.raw.append? (k.rawValue v) b = k.append? v b := by
  cases k <;> rfl

variable {k : Primitive} {c c' : Cursor} {e : Fault}

theorem read_raw_of_ok {v : k.Value} (h : k.read c = .ok v c') :
    k.raw.read c = .ok (k.rawValue v) c' := by
  cases k with
  | scalar t => exact h
  | text => exact ReadM.text_eq_ok_iff.mp h
  | bytes => exact h

theorem read_raw_ne_invalidUtf8 : k.raw.read c ≠ .error .invalidUtf8 c' := by
  cases k with
  | scalar t =>
      intro h
      cases (ReadM.scalar_error h).1
  | text => exact ReadM.bytes_ne_invalidUtf8
  | bytes => exact ReadM.bytes_ne_invalidUtf8

theorem read_raw_of_error (h : k.read c = .error e c') (he : e ≠ .invalidUtf8) :
    k.raw.read c = .error e c' := by
  cases k with
  | scalar t => exact h
  | text =>
      obtain ⟨rfl, hbytes | ⟨hinvalid, -⟩⟩ := ReadM.text_error h
      · exact hbytes
      · exact absurd hinvalid he
  | bytes => exact h

/-- Only a text is refused for its payload, and the payload can be read as a byte string. -/
theorem eq_text_of_read_invalidUtf8 (h : k.read c = .error .invalidUtf8 c') :
    k = .text ∧ ∃ bs c₁, ReadM.bytes c = .ok bs c₁ ∧ ∀ s, Text.encode s ≠ bs := by
  cases k with
  | scalar t => exact absurd h (read_raw_ne_invalidUtf8 (k := .scalar t))
  | text =>
      obtain ⟨-, hbytes | ⟨-, bs, c₁, hbytes, hdecode⟩⟩ := ReadM.text_error h
      · exact absurd hbytes ReadM.bytes_ne_invalidUtf8
      · exact ⟨rfl, bs, c₁, hbytes, Text.decode?_eq_none_iff.mp hdecode⟩
  | bytes => exact absurd h (read_raw_ne_invalidUtf8 (k := .bytes))

end Primitive

/-! ## Rows of cells -/

namespace Cell

def raw (x : Cell) : Cell := ⟨x.kind.raw, x.kind.rawValue x.value⟩

theorem encode_raw (x : Cell) : x.raw.encode = x.encode := x.kind.encode_rawValue x.value

theorem append?_raw (x : Cell) (b : Buffer) : x.raw.append? b = x.append? b :=
  x.kind.append?_rawValue x.value b

theorem map_kind_map_raw (xs : List Cell) :
    (xs.map raw).map kind = (xs.map kind).map Primitive.raw := by
  simp [raw, Function.comp_def]

variable {c c' : Cursor} {xs ys : List Cell} {ks rest : List Primitive} {e : Fault}

theorem Reads.raw (h : Reads c xs c') : Reads c (xs.map Cell.raw) c' := by
  induction h with
  | nil c => exact .nil c
  | cons hx _ ih => exact .cons (Primitive.read_raw_of_ok hx) ih

theorem Fails.raw (h : Fails c ks e c') (he : e ≠ .invalidUtf8) :
    Fails c (ks.map Primitive.raw) e c' := by
  obtain ⟨done, k, rest, rfl, hdone, hk⟩ := h
  refine ⟨done.map Cell.raw, k.raw, rest.map Primitive.raw, ?_, hdone.raw,
    Primitive.read_raw_of_error hk he⟩
  rw [map_kind_map_raw, List.map_append, List.map_cons]

theorem not_fails_raw_invalidUtf8 : ¬Fails c (ks.map Primitive.raw) .invalidUtf8 c' := by
  rintro ⟨done, k, rest, hks, -, hk⟩
  have hmem : k ∈ ks.map Primitive.raw := by simp [hks]
  obtain ⟨k', -, rfl⟩ := List.mem_map.mp hmem
  exact Primitive.read_raw_ne_invalidUtf8 hk

theorem Reads.not_fails {c₁ : Cursor} (h : Reads c xs c₁) : ¬Fails c (xs.map kind) e c' := by
  induction h with
  | nil c => exact not_fails_nil
  | cons hx _ ih =>
      rw [List.map_cons, fails_cons_iff]
      rintro (herror | ⟨v, c₃, hv, hfails⟩)
      · rw [hx] at herror
        cases herror
      · rw [hx] at hv
        cases hv
        exact ih hfails

end Cell

/-- A read gets at least as far as any of its leaves that can be read. -/
theorem Layout.pos_le_final_of_reads (l : Layout) {c c' : Cursor} {done : List Cell}
    {rest : List Primitive} (hkinds : l.kinds false = done.map Cell.kind ++ rest)
    (h : Cell.Reads c done c') : c'.pos ≤ (l.read.final c).pos := by
  cases hread : l.read c with
  | ok v c₁ =>
      have hreads := (l.read_eq_ok_iff_reads c v c₁).mp hread
      have hcells := l.map_kind_cells false v
      rw [hkinds] at hcells
      obtain ⟨ys, zs, hsplit, hys, -⟩ := List.map_eq_append_iff.mp hcells
      rw [hsplit] at hreads
      obtain ⟨c₂, hfirst, hlater⟩ := Cell.reads_append_iff.mp hreads
      rw [ReadM.final_of_ok hread, h.unique hfirst hys.symm]
      exact hlater.pos_le
  | error e c₁ =>
      have hfails := (l.read_eq_error_iff_fails c e c₁).mp hread
      rw [hkinds] at hfails
      obtain hfirst | ⟨ys, c₂, hys, hreads, hlater⟩ := Cell.fails_append_iff.mp hfails
      · exact absurd hfirst h.not_fails
      · obtain ⟨zs, -, -, -, hzs, -⟩ := hlater
        rw [ReadM.final_of_error hread, h.unique hreads hys.symm]
        exact hzs.pos_le

/-! ## Layouts -/

mutual
/-- The layout, with a byte string in place of each text. -/
def Layout.raw : Layout → Layout
  | .scalar t => .scalar t
  | .text => .bytes
  | .bytes => .bytes
  | .record fs => .record fs.raw
  | .message tag fs => .message tag fs.raw

@[inherit_doc Layout.raw]
def Fields.raw : Fields → Fields
  | .nil => .nil
  | .cons name l fs => .cons name l.raw fs.raw
end

mutual
/-- The value, with the UTF-8 form of each text in its place. -/
def Layout.rawValue : (l : Layout) → l.Value → l.raw.Value
  | .scalar _, v => v
  | .text, s => Text.encode s
  | .bytes, bs => bs
  | .record fs, vs => fs.rawValues vs
  | .message _ fs, vs => fs.rawValues vs

@[inherit_doc Layout.rawValue]
def Fields.rawValues : (fs : Fields) → fs.Values → fs.raw.Values
  | .nil, _ => ()
  | .cons _ l fs, (v, vs) => (l.rawValue v, fs.rawValues vs)
end

mutual
theorem Layout.kinds_raw (tags : Bool) : (l : Layout) →
    l.raw.kinds tags = (l.kinds tags).map Primitive.raw
  | .scalar _ => by simp [Layout.raw, Layout.kinds, Primitive.raw]
  | .text => by simp [Layout.raw, Layout.kinds, Primitive.raw]
  | .bytes => by simp [Layout.raw, Layout.kinds, Primitive.raw]
  | .record fs => by
      rw [Layout.raw, Layout.kinds, Layout.kinds]
      exact Fields.kinds_raw tags fs
  | .message _ fs => by
      rw [Layout.raw, Layout.kinds, Layout.kinds, Fields.kinds_raw tags fs]
      cases tags <;> rfl

theorem Fields.kinds_raw (tags : Bool) : (fs : Fields) →
    fs.raw.kinds tags = (fs.kinds tags).map Primitive.raw
  | .nil => by simp [Fields.raw, Fields.kinds]
  | .cons _ l fs => by
      rw [Fields.raw, Fields.kinds, Fields.kinds, List.map_append, Layout.kinds_raw tags l,
        Fields.kinds_raw tags fs]
end

mutual
theorem Layout.cells_rawValue (tags : Bool) : (l : Layout) → (v : l.Value) →
    l.raw.cells tags (l.rawValue v) = (l.cells tags v).map Cell.raw
  | .scalar _, _ => by
      simp only [Layout.raw, Layout.rawValue, Layout.cells]
      rfl
  | .text, _ => by
      simp only [Layout.raw, Layout.rawValue, Layout.cells]
      rfl
  | .bytes, _ => by
      simp only [Layout.raw, Layout.rawValue, Layout.cells]
      rfl
  | .record fs, vs => by
      simp only [Layout.raw, Layout.rawValue, Layout.cells]
      exact Fields.cells_rawValues tags fs vs
  | .message tag fs, vs => by
      simp only [Layout.raw, Layout.rawValue, Layout.cells]
      rw [Fields.cells_rawValues tags fs vs]
      cases tags <;> rfl

theorem Fields.cells_rawValues (tags : Bool) : (fs : Fields) → (vs : fs.Values) →
    fs.raw.cells tags (fs.rawValues vs) = (fs.cells tags vs).map Cell.raw
  | .nil, () => by
      simp only [Fields.raw, Fields.rawValues, Fields.cells]
      rfl
  | .cons _ l fs, (v, vs) => by
      simp only [Fields.raw, Fields.rawValues, Fields.cells, List.map_append]
      rw [Layout.cells_rawValue tags l v, Fields.cells_rawValues tags fs vs]
end

namespace Layout

variable (l : Layout)

theorem encode_rawValue (v : l.Value) : l.raw.encode (l.rawValue v) = l.encode v := by
  rw [l.raw.encode_eq_flatMap_cells, l.encode_eq_flatMap_cells, l.cells_rawValue, List.flatMap_map]
  simp only [Cell.encode_raw]

theorem append?_rawValue (v : l.Value) (b : Buffer) :
    l.raw.append? (l.rawValue v) b = l.append? v b := by
  rw [l.raw.append?_eq_foldlM_cells, l.append?_eq_foldlM_cells, l.cells_rawValue, List.foldlM_map]
  simp only [Cell.append?_raw]

variable {l} {c c' : Cursor} {e : Fault}

theorem read_raw_of_ok {v : l.Value} (h : l.read c = .ok v c') :
    l.raw.read c = .ok (l.rawValue v) c' := by
  have hreads := ((l.read_eq_ok_iff_reads c v c').mp h).raw
  rw [← l.cells_rawValue] at hreads
  exact (l.raw.read_eq_ok_iff_reads c _ c').mpr hreads

theorem read_raw_of_error (h : l.read c = .error e c') (he : e ≠ .invalidUtf8) :
    l.raw.read c = .error e c' := by
  have hfails := ((l.read_eq_error_iff_fails c e c').mp h).raw he
  rw [← l.kinds_raw] at hfails
  exact (l.raw.read_eq_error_iff_fails c e c').mpr hfails

theorem read_raw_ne_invalidUtf8 : l.raw.read c ≠ .error .invalidUtf8 c' := by
  intro h
  have hfails := (l.raw.read_eq_error_iff_fails c _ c').mp h
  rw [l.kinds_raw] at hfails
  exact Cell.not_fails_raw_invalidUtf8 hfails

/-- Where a payload is refused, byte strings take it and go on. -/
theorem exists_reads_of_read_invalidUtf8 (h : l.read c = .error .invalidUtf8 c') :
    ∃ done rest bs c₁, l.raw.kinds false = done.map Cell.kind ++ .bytes :: rest ∧
      Cell.Reads c done c' ∧ ReadM.bytes c' = .ok bs c₁ ∧ (∀ s, Text.encode s ≠ bs) ∧
      c₁.pos ≤ (l.raw.read.final c).pos := by
  obtain ⟨done, k, rest, hkinds, hdone, hk⟩ := (l.read_eq_error_iff_fails c _ c').mp h
  obtain ⟨rfl, bs, c₁, hbytes, hinvalid⟩ := Primitive.eq_text_of_read_invalidUtf8 hk
  have hraw : l.raw.kinds false =
      (done.map Cell.raw).map Cell.kind ++ .bytes :: rest.map Primitive.raw := by
    rw [l.kinds_raw, hkinds, Cell.map_kind_map_raw, List.map_append, List.map_cons]
    rfl
  let payload : Cell := ⟨.bytes, bs⟩
  have hnext : Cell.Reads c (done.map Cell.raw ++ [payload]) c₁ :=
    Cell.reads_append_iff.mpr ⟨c', hdone.raw, Cell.reads_singleton_iff.mpr hbytes⟩
  refine ⟨done.map Cell.raw, rest.map Primitive.raw, bs, c₁, hraw, hdone.raw, hbytes, hinvalid, ?_⟩
  have hrow : l.raw.kinds false = (done.map Cell.raw ++ [payload]).map Cell.kind ++
      rest.map Primitive.raw := by
    simpa using hraw
  exact l.raw.pos_le_final_of_reads hrow hnext

end Layout

/-- Texts and byte strings differ in nothing but the check of the payload. With byte strings for its
texts, a layout reads the UTF-8 forms of the same texts, ends at the same place and has the same
faults. Where a text is refused it reads the payload, which is the form of no text, and goes on
behind it. What it writes is the same. -/
theorem Layout.outcome_read_raw (l : Layout) :
    (∀ b, (l.read.outcome (.ofBytes b)).1 ≠ .error .invalidUtf8 →
      l.raw.read.outcome (.ofBytes b) =
        ((l.read.outcome (.ofBytes b)).1.map l.rawValue, (l.read.outcome (.ofBytes b)).2)) ∧
    (∀ b p, l.read.outcome (.ofBytes b) = (.error .invalidUtf8, p) →
      p < (l.raw.read.outcome (.ofBytes b)).2 ∧
      ∃ done rest bs q, l.raw.kinds false = done.map Cell.kind ++ .bytes :: rest ∧
        Cell.Reads (.ofBytes b) done ⟨b, p⟩ ∧ ReadM.bytes ⟨b, p⟩ = .ok bs ⟨b, q⟩ ∧
        (∀ s, Text.encode s ≠ bs) ∧ q ≤ (l.raw.read.outcome (.ofBytes b)).2) ∧
    (∀ b, (l.raw.read.outcome (.ofBytes b)).1 ≠ .error .invalidUtf8) ∧
    ∀ v, l.raw.encode (l.rawValue v) = l.encode v ∧
      ∀ w, l.raw.append? (l.rawValue v) w = l.append? v w := by
  refine ⟨?_, ?_, ?_, fun v ↦ ⟨l.encode_rawValue v, l.append?_rawValue v⟩⟩
  · intro b h
    cases hread : l.read (.ofBytes b) with
    | ok v c =>
        rw [ReadM.outcome_of_ok hread, ReadM.outcome_of_ok (Layout.read_raw_of_ok hread)]
        rfl
    | error e c =>
        rw [ReadM.outcome_of_error hread] at h ⊢
        have he : e ≠ .invalidUtf8 := fun he ↦ h (by rw [he])
        rw [ReadM.outcome_of_error (Layout.read_raw_of_error hread he)]
        rfl
  · intro b p h
    have hread := l.stable_read.error_of_outcome h
    obtain ⟨done, rest, bs, c₁, hkinds, hdone, hbytes, hinvalid, hle⟩ :=
      Layout.exists_reads_of_read_invalidUtf8 hread
    obtain ⟨g, hg, -, rfl⟩ := (Primitive.bytes.accepts_read _ bs c₁).mp hbytes
    have hpast : p < ((⟨b, p⟩ : Cursor).advance g.length).pos :=
      Nat.lt_add_of_pos_right hg.length_pos
    rw [ReadM.outcome_snd]
    exact ⟨Nat.lt_of_lt_of_le hpast hle, done, rest, bs, _, hkinds, hdone, hbytes, hinvalid, hle⟩
  · intro b h
    obtain ⟨c, hread⟩ := ReadM.outcome_fst_eq_error_iff.mp h
    exact Layout.read_raw_ne_invalidUtf8 hread

/-- Two bytes that are a character, and two that are none, before a byte string. -/
theorem Layout.outcome_read_raw_accent :
    let l : Layout := .record <|
      .cons "id" (.scalar .uint8) <| .cons "name" .text <| .cons "data" .bytes .nil
    (l.read.outcome (.ofBytes [7, 2, 0xC3, 0xA9, 0]) = (.ok (7, "é", [], ()), 5) ∧
      l.raw.read.outcome (.ofBytes [7, 2, 0xC3, 0xA9, 0]) =
        (.ok ((7 : UInt8), ([0xC3, 0xA9] : Bytes), ([] : Bytes), ()), 5)) ∧
    l.read.outcome (.ofBytes [7, 2, 0xC3, 0x28, 0]) = (.error .invalidUtf8, 1) ∧
      1 < (l.raw.read.outcome (.ofBytes [7, 2, 0xC3, 0x28, 0])).2 := by
  intro l
  have hvalid : l.read.outcome (.ofBytes [7, 2, 0xC3, 0xA9, 0]) = (.ok (7, "é", [], ()), 5) := rfl
  have hinvalid : l.read.outcome (.ofBytes [7, 2, 0xC3, 0x28, 0]) = (.error .invalidUtf8, 1) := rfl
  obtain ⟨hsame, hrefused, -⟩ := l.outcome_read_raw
  have hraw := hsame [7, 2, 0xC3, 0xA9, 0] (by simp [hvalid])
  rw [hvalid] at hraw
  exact ⟨⟨hvalid, hraw⟩, hinvalid, (hrefused _ 1 hinvalid).1⟩

end TaggedWire
