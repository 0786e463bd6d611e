import TaggedWire.Proofs.Dispatch
import TaggedWire.Proofs.SelfDelimiting

/-!
# Equal messages and equal bytes

Messages are compared by their numbers and written by their bit patterns. The two differ on NaNs,
which are equal to nothing, and on the zeros, which have two patterns. `Binary64.unsigned` drops the
sign of a zero: two numbers are equal if neither is a NaN and they agree without it. In the same way
two messages are equal if they hold no NaN and agree in kind, texts and coordinates up to the signs
of zeros.
-/

namespace TaggedWire

namespace Binary64

def posZero : Binary64 := ⟨0⟩

def negZero : Binary64 := ⟨0x8000000000000000⟩

/-- One is positive zero and the other negative zero. -/
def OppositeZeros (x y : Binary64) : Prop :=
  x = posZero ∧ y = negZero ∨ x = negZero ∧ y = posZero

/-- The pattern, with positive zero for both zeros. -/
def unsigned (x : Binary64) : Binary64 := if x.isZero then posZero else x

variable {x y : Binary64}

theorem isZero_iff : x.isZero ↔ x = posZero ∨ x = negZero := by
  obtain ⟨bits⟩ := x
  have hlt := bits.toNat_lt
  have hpos : bits = 0 ↔ bits.toNat = 0 := by simp [← UInt64.toNat_inj]
  have hneg : bits = 0x8000000000000000 ↔ bits.toNat = 0x8000000000000000 := by
    simp [← UInt64.toNat_inj]
  simp only [isZero, magnitude, posZero, negZero, mk.injEq, beq_iff_eq, hpos, hneg]
  omega

theorem posZero_ne_negZero : posZero ≠ negZero := by decide

theorem unsigned_eq_iff : x.unsigned = y.unsigned ↔ x = y ∨ x.isZero ∧ y.isZero := by
  have hzero : posZero.isZero := isZero_iff.mpr (.inl rfl)
  by_cases hx : x.isZero <;> by_cases hy : y.isZero
  · simp [unsigned, hx, hy]
  · have hne : x ≠ y := fun h ↦ hy (h ▸ hx)
    have hpos : posZero ≠ y := fun h ↦ hy (h ▸ hzero)
    simp [unsigned, hx, hy, hne, hpos]
  · have hne : x ≠ y := fun h ↦ hx (h ▸ hy)
    have hpos : x ≠ posZero := fun h ↦ hx (h ▸ hzero)
    simp [unsigned, hx, hy, hne, hpos]
  · simp [unsigned, hx, hy]

theorem sameNumber_iff :
    x.sameNumber y ↔ ¬x.isNaN ∧ ¬y.isNaN ∧ x.unsigned = y.unsigned := by
  simp [sameNumber, unsigned_eq_iff, and_assoc]

theorem eq_iff_of_unsigned_eq (h : x.unsigned = y.unsigned) : x = y ↔ ¬x.OppositeZeros y := by
  have hne := posZero_ne_negZero
  constructor
  · rintro rfl (⟨rfl, hneg⟩ | ⟨rfl, hpos⟩)
    · exact hne hneg
    · exact hne hpos.symm
  · intro hopposite
    obtain rfl | ⟨hx, hy⟩ := unsigned_eq_iff.mp h
    · rfl
    · rcases isZero_iff.mp hx with rfl | rfl <;> rcases isZero_iff.mp hy with rfl | rfl
      · rfl
      · exact absurd (.inl ⟨rfl, rfl⟩) hopposite
      · exact absurd (.inr ⟨rfl, rfl⟩) hopposite
      · rfl

/-- Rows of numbers that are equal up to the signs of zeros. -/
theorem row_eq_iff_of_map_unsigned_eq {xs ys : List Binary64}
    (h : xs.map unsigned = ys.map unsigned) :
    xs = ys ↔ ∀ p ∈ xs.zip ys, ¬p.1.OppositeZeros p.2 := by
  induction xs generalizing ys with
  | nil =>
      obtain rfl := List.map_eq_nil_iff.mp h.symm
      simp
  | cons x xs ih =>
      cases ys with
      | nil => simp at h
      | cons y ys =>
          obtain ⟨hxy, hrest⟩ := List.cons.inj h
          simp only [List.cons.injEq, List.zip_cons_cons, List.forall_mem_cons,
            eq_iff_of_unsigned_eq hxy, ih hrest]

end Binary64

/-- Scalars of one kind in a row are told apart by their bytes. -/
theorem Scalar.flatMap_encode_injective (t : Scalar) :
    Function.Injective fun vs : List t.Value ↦ vs.flatMap t.encode := by
  have hpos : ∀ v : t.Value, t.encode v ≠ [] := by
    intro v h
    have hlength := t.length_encode v
    have hsize := t.size_pos
    rw [h, List.length_nil] at hlength
    omega
  intro vs ws h
  induction vs generalizing ws with
  | nil =>
      cases ws with
      | nil => rfl
      | cons w ws => simp [hpos] at h
  | cons v vs ih =>
      cases ws with
      | nil => simp [hpos] at h
      | cons w ws =>
          have hsplit : t.encode v ++ vs.flatMap t.encode = t.encode w ++ ws.flatMap t.encode := by
            simpa using h
          obtain ⟨hfirst, hrest⟩ := List.append_inj hsplit (by simp)
          rw [t.encode_injective hfirst, ih hrest]

theorem Scalar.length_flatMap_encode (t : Scalar) (vs : List t.Value) :
    (vs.flatMap t.encode).length = vs.length * t.size := by
  induction vs with
  | nil => simp
  | cons v vs ih => simp [ih, Nat.add_mul, Nat.add_comm]

/-! ## Messages -/

namespace Presence.Message

/-- The coordinates of the position in a message, if there is one. -/
def coordinates : Message → List Binary64
  | clientRegister _ => []
  | serverRegister => []
  | clientUpdate pos => [pos.x, pos.y]
  | serverUpdate _ _ pos => [pos.x, pos.y]
  | serverDelete _ => []

theorem encode_eq_texts_append_coordinates (m : Message) :
    m.encode = m.tag :: ((m.texts.flatMap fun t ↦ (Text.encode t).encode) ++
      m.coordinates.flatMap Scalar.float64.encode) := by
  rw [m.encode_eq_cons]
  cases m <;>
    simp [kind, body, texts, coordinates, Kind.fields, Pos.fields, Fields.encode, Layout.encode]

variable {a b c : Message}

theorem sameValue_iff :
    a.sameValue b ↔ (∀ x ∈ a.coordinates, ¬x.isNaN) ∧ (∀ y ∈ b.coordinates, ¬y.isNaN) ∧
      a.kind = b.kind ∧ a.texts = b.texts ∧
      a.coordinates.map Binary64.unsigned = b.coordinates.map Binary64.unsigned := by
  cases a <;> cases b <;>
    simp [sameValue, kind, texts, coordinates, Pos.sameValue, Binary64.sameNumber_iff] <;> grind

theorem sameValue_comm (a b : Message) : a.sameValue b = b.sameValue a := by
  rw [Bool.eq_iff_iff, sameValue_iff, sameValue_iff]
  constructor
  · rintro ⟨ha, hb, hkind, htexts, hcoordinates⟩
    exact ⟨hb, ha, hkind.symm, htexts.symm, hcoordinates.symm⟩
  · rintro ⟨hb, ha, hkind, htexts, hcoordinates⟩
    exact ⟨ha, hb, hkind.symm, htexts.symm, hcoordinates.symm⟩

theorem sameValue_trans (hab : a.sameValue b) (hbc : b.sameValue c) : a.sameValue c := by
  obtain ⟨ha, -, hkind, htexts, hcoordinates⟩ := sameValue_iff.mp hab
  obtain ⟨-, hc, hkind', htexts', hcoordinates'⟩ := sameValue_iff.mp hbc
  exact sameValue_iff.mpr ⟨ha, hc, hkind.trans hkind', htexts.trans htexts',
    hcoordinates.trans hcoordinates'⟩

theorem sameValue_self_iff : a.sameValue a ↔ ∀ x ∈ a.coordinates, ¬x.isNaN := by
  rw [sameValue_iff]
  constructor
  · intro h
    exact h.1
  · intro h
    exact ⟨h, h, rfl, rfl, rfl⟩

theorem encode_injective (ha : ∀ t ∈ a.texts, (Text.encode t).length < 2 ^ 63)
    (hb : ∀ t ∈ b.texts, (Text.encode t).length < 2 ^ 63) (h : a.encode = b.encode) : a = b := by
  have hreada := dispatch_encode_append a ha []
  have hreadb := dispatch_encode_append b hb []
  rw [h, hreadb] at hreada
  exact (Except.ok.inj hreada).symm

/-- Messages that differ in their coordinates at most. -/
theorem encode_eq_iff (hkind : a.kind = b.kind) (htexts : a.texts = b.texts) :
    a.encode = b.encode ↔ a.coordinates = b.coordinates := by
  rw [a.encode_eq_texts_append_coordinates, b.encode_eq_texts_append_coordinates, tag, tag, hkind,
    htexts, List.cons_inj_right, List.append_cancel_left_eq]
  exact Scalar.float64.flatMap_encode_injective.eq_iff

theorem length_encode_eq (htexts : a.texts = b.texts)
    (hcoordinates : a.coordinates.length = b.coordinates.length) :
    a.encode.length = b.encode.length := by
  have ha := Scalar.float64.length_flatMap_encode a.coordinates
  have hb := Scalar.float64.length_flatMap_encode b.coordinates
  rw [a.encode_eq_texts_append_coordinates, b.encode_eq_texts_append_coordinates, htexts]
  simp [ha, hb, hcoordinates]

/-- Equality of messages and equality of their bytes differ on NaNs and on the signs of zeros, and
on nothing else. -/
theorem sameValue_and_encode :
    (∀ m : Message, (∀ w, m.kind.layout.append? m.body .empty = some w → w.bytes = m.encode) ∧
      ((∃ w, m.kind.layout.append? m.body .empty = some w) ↔ m.encode.length ≤ 2 ^ 62)) ∧
    (∀ a b : Message, a.sameValue b = b.sameValue a) ∧
    (∀ a b c : Message, a.sameValue b → b.sameValue c → a.sameValue c) ∧
    (∀ a : Message, a.sameValue a ↔ ∀ x ∈ a.coordinates, ¬x.isNaN) ∧
    (∀ a : Message, (∀ t ∈ a.texts, (Text.encode t).length < 2 ^ 63) →
      ∃ m, dispatch a.encode = .ok m ∧ (m.sameValue a ↔ ∀ x ∈ a.coordinates, ¬x.isNaN)) ∧
    (∀ a b : Message, (∀ t ∈ a.texts, (Text.encode t).length < 2 ^ 63) →
      (∀ t ∈ b.texts, (Text.encode t).length < 2 ^ 63) → a.encode = b.encode →
      (a.sameValue b ↔ ∀ x ∈ a.coordinates, ¬x.isNaN)) ∧
    ∀ a b : Message, a.sameValue b →
      a.encode.length = b.encode.length ∧
      (a.encode = b.encode ↔ ∀ p ∈ a.coordinates.zip b.coordinates, ¬p.1.OppositeZeros p.2) := by
  refine ⟨?_, sameValue_comm, fun a b c ↦ sameValue_trans, fun a ↦ sameValue_self_iff, ?_, ?_, ?_⟩
  · intro m
    exact ⟨fun w hw ↦ Layout.bytes_of_append? _ _ hw, m.exists_append?_empty_iff⟩
  · intro a ha
    have hread := dispatch_encode_append a ha []
    rw [List.append_nil] at hread
    exact ⟨a, hread, sameValue_self_iff⟩
  · intro a b ha hb h
    obtain rfl := encode_injective ha hb h
    exact sameValue_self_iff
  · intro a b h
    obtain ⟨-, -, hkind, htexts, hcoordinates⟩ := sameValue_iff.mp h
    have hlength : a.coordinates.length = b.coordinates.length := by
      simpa using congrArg List.length hcoordinates
    refine ⟨length_encode_eq htexts hlength, ?_⟩
    rw [encode_eq_iff hkind htexts]
    exact Binary64.row_eq_iff_of_map_unsigned_eq hcoordinates

/-- Two equal positions that are written differently, and a position that differs from what is read
for it. -/
theorem sameValue_and_encode_zeros :
    let a : Message := .clientUpdate ⟨⟨0⟩, ⟨0x3FF8000000000000⟩⟩
    let b : Message := .clientUpdate ⟨⟨0x8000000000000000⟩, ⟨0x3FF8000000000000⟩⟩
    let n : Message := .serverUpdate "é" "" ⟨⟨0x7FF0000000000001⟩, ⟨0⟩⟩
    (a.sameValue b ∧ a.encode.length = b.encode.length ∧ a.encode ≠ b.encode) ∧
      (∀ t ∈ n.texts, (Text.encode t).length < 2 ^ 63) ∧
      ∃ m, dispatch n.encode = .ok m ∧ ¬m.sameValue n := by
  intro a b n
  have hsame : a.sameValue b := by decide
  have hshort : ∀ t ∈ n.texts, (Text.encode t).length < 2 ^ 63 := by decide
  have hnan : ¬∀ x ∈ n.coordinates, ¬x.isNaN := by decide
  obtain ⟨-, -, -, -, hread, -, hequal⟩ := sameValue_and_encode
  obtain ⟨hlength, hbytes⟩ := hequal a b hsame
  obtain ⟨m, hm, hself⟩ := hread n hshort
  refine ⟨⟨hsame, hlength, ?_⟩, hshort, m, hm, fun h ↦ hnan (hself.mp h)⟩
  intro h
  exact hbytes.mp h (⟨0⟩, ⟨0x8000000000000000⟩) List.mem_cons_self (.inl ⟨rfl, rfl⟩)

end Presence.Message

end TaggedWire
