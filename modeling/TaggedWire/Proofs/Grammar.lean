import TaggedWire.Proofs.Reading

/-!
# The wire grammar

`Layout.WireForm` says which byte strings stand for a value: a scalar is its little-endian bytes, a
text or byte string is its payload behind a length prefix, and a record or message is its fields one
after the other. Readers accept exactly these strings. A value has many of them, because a length
may have leading zeros, and none contains a tag.
-/

namespace TaggedWire

mutual
/-- The byte string stands for a value of the layout. -/
inductive Layout.WireForm : (l : Layout) → l.Value → Bytes → Prop where
  | scalar (t : Scalar) (v : t.Value) :
      Layout.WireForm (.scalar t) v (Bytes.ofNatLE t.size (t.toBits v))
  | text {s : String} {g : Bytes} (hg : Varint.LengthPrefix (Text.encode s).length g) :
      Layout.WireForm .text s (g ++ Text.encode s)
  | bytes {bs g : Bytes} (hg : Varint.LengthPrefix bs.length g) :
      Layout.WireForm .bytes bs (g ++ bs)
  | record {fs : Fields} {vs : fs.Values} {g : Bytes} (hg : Fields.WireForm fs vs g) :
      Layout.WireForm (.record fs) vs g
  | message {tag : UInt8} {fs : Fields} {vs : fs.Values} {g : Bytes}
      (hg : Fields.WireForm fs vs g) : Layout.WireForm (.message tag fs) vs g

inductive Fields.WireForm : (fs : Fields) → fs.Values → Bytes → Prop where
  | nil : Fields.WireForm .nil () []
  | cons {name : String} {l : Layout} {fs : Fields} {v : l.Value} {vs : fs.Values} {g h : Bytes}
      (hg : Layout.WireForm l v g) (hh : Fields.WireForm fs vs h) :
      Fields.WireForm (.cons name l fs) (v, vs) (g ++ h)
end

namespace Layout

theorem wireForm_scalar_iff {t : Scalar} {v : t.Value} {k : Bytes} :
    WireForm (.scalar t) v k ↔ k = t.encode v := by
  constructor
  · intro h
    cases h
    rfl
  · intro h
    rw [h]
    exact .scalar t v

theorem wireForm_text_iff {s : String} {k : Bytes} :
    WireForm .text s k ↔
      ∃ g, Varint.LengthPrefix (Text.encode s).length g ∧ k = g ++ Text.encode s := by
  constructor
  · intro h
    cases h with
    | text hg => exact ⟨_, hg, rfl⟩
  · intro h
    obtain ⟨g, hg, rfl⟩ := h
    exact .text hg

theorem wireForm_bytes_iff {bs k : Bytes} :
    WireForm .bytes bs k ↔ ∃ g, Varint.LengthPrefix bs.length g ∧ k = g ++ bs := by
  constructor
  · intro h
    cases h with
    | bytes hg => exact ⟨_, hg, rfl⟩
  · intro h
    obtain ⟨g, hg, rfl⟩ := h
    exact .bytes hg

theorem wireForm_record_iff {fs : Fields} {vs : fs.Values} {k : Bytes} :
    WireForm (.record fs) vs k ↔ fs.WireForm vs k := by
  constructor
  · intro h
    cases h with
    | record hk => exact hk
  · exact .record

theorem wireForm_message_iff {tag : UInt8} {fs : Fields} {vs : fs.Values} {k : Bytes} :
    WireForm (.message tag fs) vs k ↔ fs.WireForm vs k := by
  constructor
  · intro h
    cases h with
    | message hk => exact hk
  · exact .message

end Layout

namespace Fields

theorem wireForm_nil_iff {vs : Unit} {k : Bytes} : WireForm .nil vs k ↔ vs = () ∧ k = [] := by
  constructor
  · intro h
    cases h
    exact ⟨rfl, rfl⟩
  · intro h
    obtain ⟨rfl, rfl⟩ := h
    exact .nil

theorem wireForm_cons_iff {name : String} {l : Layout} {fs : Fields} {p : l.Value × fs.Values}
    {k : Bytes} :
    WireForm (.cons name l fs) p k ↔ ∃ g h, l.WireForm p.1 g ∧ fs.WireForm p.2 h ∧ k = g ++ h := by
  constructor
  · intro hk
    cases hk with
    | cons hg hh => exact ⟨_, _, hg, hh, rfl⟩
  · intro hk
    obtain ⟨g, h, hg, hh, rfl⟩ := hk
    exact .cons hg hh

end Fields

/-! ## The readers accept the grammar -/

mutual
theorem Layout.accepts_read : (l : Layout) → ReadM.Accepts l.read l.WireForm
  | .scalar t => by
      rw [Layout.read]
      exact (ReadM.accepts_scalar t).congr fun _ _ ↦ Layout.wireForm_scalar_iff.symm
  | .text => by
      rw [Layout.read]
      exact ReadM.accepts_text.congr fun _ _ ↦ Layout.wireForm_text_iff.symm
  | .bytes => by
      rw [Layout.read]
      exact ReadM.accepts_bytes.congr fun _ _ ↦ Layout.wireForm_bytes_iff.symm
  | .record fs => by
      rw [Layout.read]
      exact (Fields.accepts_read fs).congr fun _ _ ↦ Layout.wireForm_record_iff.symm
  | .message _ fs => by
      rw [Layout.read]
      exact (Fields.accepts_read fs).congr fun _ _ ↦ Layout.wireForm_message_iff.symm

theorem Fields.accepts_read : (fs : Fields) → ReadM.Accepts fs.read fs.WireForm
  | .nil => by
      rw [Fields.read]
      exact (ReadM.accepts_pure ()).congr fun _ _ ↦ Fields.wireForm_nil_iff.symm
  | .cons _ l fs => by
      rw [Fields.read]
      have hpair := (Layout.accepts_read l).pair (Fields.accepts_read fs)
      exact hpair.congr fun _ _ ↦ Fields.wireForm_cons_iff.symm
end

theorem Layout.read_of_wireForm {l : Layout} {v : l.Value} {e : Bytes} (h : l.WireForm v e)
    (p s : Bytes) :
    l.read ⟨p ++ e ++ s, p.length⟩ = .ok v ⟨p ++ e ++ s, p.length + e.length⟩ := by
  apply (l.accepts_read _ v _).mpr
  refine ⟨e, h, ?_, rfl⟩
  rw [Cursor.unread, List.append_assoc, List.drop_left]
  exact List.prefix_append e s

theorem Layout.decode_eq_ok_iff {l : Layout} {b : Bytes} {v : l.Value} :
    l.decode b = .ok v ↔ ∃ g, l.WireForm v g ∧ g <+: b := by
  rw [Layout.decode]
  constructor
  · intro h
    cases hread : l.read (.ofBytes b) with
    | error e c => simp [hread] at h
    | ok w c =>
        obtain ⟨g, hg, hpre, -⟩ := (l.accepts_read _ w c).mp hread
        obtain rfl : w = v := by simpa [hread] using h
        exact ⟨g, hg, by simpa using hpre⟩
  · intro h
    obtain ⟨g, hg, hpre⟩ := h
    have hread := (l.accepts_read (.ofBytes b) v _).mpr ⟨g, hg, hpre, rfl⟩
    simp [hread]

/-- A read from the start of a byte string succeeds exactly if a wire form of the result stands
there, and ends behind it. -/
theorem Layout.outcome_read_eq_ok_iff (l : Layout) (b : Bytes) (v : l.Value) (n : Nat) :
    l.read.outcome (.ofBytes b) = (.ok v, n) ↔ n ≤ b.length ∧ l.WireForm v (b.take n) := by
  rw [ReadM.outcome_eq_ok_iff]
  constructor
  · intro h
    obtain ⟨c, hread, rfl⟩ := h
    obtain ⟨g, hg, hpre, rfl⟩ := (l.accepts_read _ v c).mp hread
    have hpos : ((Cursor.ofBytes b).advance g.length).pos = g.length := Nat.zero_add _
    rw [Cursor.unread_ofBytes] at hpre
    rw [hpos, ← List.prefix_iff_eq_take.mp hpre]
    exact ⟨hpre.length_le, hg⟩
  · intro h
    obtain ⟨hn, hg⟩ := h
    refine ⟨_, (l.accepts_read _ v _).mpr ⟨b.take n, hg, List.take_prefix n b, rfl⟩, ?_⟩
    rw [List.length_take_of_le hn]
    exact Nat.zero_add n

end TaggedWire
