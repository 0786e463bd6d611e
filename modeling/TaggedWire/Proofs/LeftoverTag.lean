import TaggedWire.Proofs.Canonical

/-!
# Reading with the tag left in

A message is read behind its tag. Where the tag is left in, the reader is one byte early from the
first field on. It still returns the message that was written if all bytes are the same, and only
then: a string that begins with what follows its own first byte repeats that byte throughout. The
one spare byte could also be a leading zero of a length, but then the tag would be such a zero
itself.
-/

namespace TaggedWire

namespace Bytes

/-- A string begins with its own tail exactly if it repeats its first byte. -/
theorem isPrefix_cons_self_iff {t : UInt8} {bs : Bytes} : bs <+: t :: bs ↔ ∀ x ∈ bs, x = t := by
  induction bs with
  | nil => simp
  | cons b bs ih =>
      rw [List.cons_prefix_cons, List.forall_mem_cons]
      apply and_congr_right
      rintro rfl
      exact ih

theorem eq_of_cons_eq_concat {t y : UInt8} {bs : Bytes} (h : t :: bs = bs ++ [y]) : y = t := by
  have hall := isPrefix_cons_self_iff.mp ⟨[y], h.symm⟩
  have hy : y ∈ t :: bs := by simp [h]
  rcases List.mem_cons.mp hy with hfirst | hlater
  · exact hfirst
  · exact hall y hlater

end Bytes

namespace Leaf.Spelled

variable {ls : List Leaf} {ps : List Bytes} {g : Bytes}

theorem eq_encode_of_sum (h : Spelled ls ps g) (hsum : (ps.map Varint.padding).sum = 0) :
    g = ls.flatMap Leaf.encode := by
  apply h.eq_encode
  intro p hp
  have hle := List.le_sum_of_mem (List.mem_map_of_mem hp (f := Varint.padding))
  omega

/-- A spelling with one byte more than the usual one has a single leading zero somewhere. -/
theorem exists_insert (h : Spelled ls ps g) (hsum : (ps.map Varint.padding).sum = 1) :
    ∃ pre post, ls.flatMap Leaf.encode = pre ++ post ∧ g = pre ++ 0x80 :: post := by
  induction h with
  | nil => simp at hsum
  | scalar t v _ ih =>
      obtain ⟨pre, post, hls, hg⟩ := ih hsum
      exact ⟨t.encode v ++ pre, post, by simp [Leaf.encode, hls], by simp [hg]⟩
  | @payload ls ps g bs p hp hrest ih =>
      have hleaf := Bytes.append_eq_padding_append_encode hp
      rw [List.map_cons, List.sum_cons] at hsum
      obtain ⟨hpad, hzero⟩ | ⟨hpad, hone⟩ : Varint.padding p = 1 ∧ (ps.map Varint.padding).sum = 0 ∨
          Varint.padding p = 0 ∧ (ps.map Varint.padding).sum = 1 := by omega
      · refine ⟨[], bs.encode ++ g, ?_, ?_⟩
        · simp [Leaf.encode, hrest.eq_encode_of_sum hzero]
        · simp [hleaf, hpad]
      · obtain ⟨pre, post, hls, hg⟩ := ih hone
        refine ⟨bs.encode ++ pre, post, by simp [Leaf.encode, hls], ?_⟩
        simp [hleaf, hpad, hg]

end Leaf.Spelled

/-- No spelling of a value stands at the start of its usual one behind another byte, unless it is
the usual one itself. -/
theorem Leaf.Spelled.eq_encode_of_isPrefix {ls : List Leaf} {ps : List Bytes} {g : Bytes}
    {t : UInt8} (h : Leaf.Spelled ls ps g) (ht : t ≠ 0x80)
    (hpre : g <+: t :: ls.flatMap Leaf.encode) : g = ls.flatMap Leaf.encode := by
  have hlength := h.length_eq
  have hle : g.length ≤ (ls.flatMap Leaf.encode).length + 1 := by simpa using hpre.length_le
  obtain hzero | hone : (ps.map Varint.padding).sum = 0 ∨ (ps.map Varint.padding).sum = 1 := by
    omega
  · exact h.eq_encode_of_sum hzero
  · -- The spelling takes in the whole string, and its leading zero falls on a copy of the tag.
    obtain ⟨pre, post, hls, hg⟩ := h.exists_insert hone
    have hwhole : g = t :: ls.flatMap Leaf.encode := hpre.eq_of_length (by simp [hlength, hone])
    have hshift : (t :: pre) ++ post = (pre ++ [0x80]) ++ post := by
      simpa [hls, hg] using hwhole.symm
    have hmark : 0x80 = t := Bytes.eq_of_cons_eq_concat (List.append_cancel_right hshift)
    exact absurd hmark.symm ht

theorem Fields.wireForm_isPrefix_cons_iff {fs : Fields} (hfs : fs.messageFree) {vs : fs.Values}
    (hvs : ∀ q ∈ fs.payloads vs, q.length < 2 ^ 63) {t : UInt8} (ht : t ≠ 0x80) :
    (∃ g, fs.WireForm vs g ∧ g <+: t :: fs.encode vs) ↔ ∀ x ∈ fs.encode vs, x = t := by
  constructor
  · intro h
    obtain ⟨g, hg, hpre⟩ := h
    obtain ⟨ps, hps⟩ := (fs.wireForm_iff_spelled vs g).mp hg
    rw [fs.encode_eq_flatMap_leaves hfs vs] at hpre ⊢
    obtain rfl := hps.eq_encode_of_isPrefix ht hpre
    exact Bytes.isPrefix_cons_self_iff.mp hpre
  · intro h
    exact ⟨fs.encode vs, fs.wireForm_encode hfs vs hvs, Bytes.isPrefix_cons_self_iff.mpr h⟩

/-- With the tag left in, a message reads as itself exactly if every byte that was written is the
tag. -/
theorem Layout.decode_encode_eq_ok_iff (tag : UInt8) (htag : tag ≠ 128) (fs : Fields)
    (hfs : fs.messageFree) (m : fs.Values) (hm : ∀ q ∈ fs.payloads m, q.length < 2 ^ 63) :
    let l : Layout := .message tag fs
    (∀ w, l.append? m .empty = some w → w.bytes = l.encode m) ∧
    ((∃ w, l.append? m .empty = some w) ↔ (l.encode m).length ≤ 2 ^ 62) ∧
    (l.decode (l.encode m) = .ok m ↔ ∀ x ∈ l.encode m, x = tag) := by
  intro l
  have hencode : l.encode m = tag :: fs.encode m := by simp [l, Layout.encode]
  refine ⟨fun w hw ↦ l.bytes_of_append? m hw, Buffer.exists_append?_empty_iff (.value l m), ?_⟩
  calc
    l.decode (l.encode m) = .ok m
      ↔ ∃ g, fs.WireForm m g ∧ g <+: tag :: fs.encode m := by
        rw [hencode, Layout.decode_eq_ok_iff]
        simp only [l, Layout.wireForm_message_iff]
    _ ↔ ∀ x ∈ fs.encode m, x = tag := Fields.wireForm_isPrefix_cons_iff hfs hm htag
    _ ↔ ∀ x ∈ l.encode m, x = tag := by simp [hencode]

/-- A number and a byte string that are written with the tag throughout: the length of the byte
string is the tag as well. -/
theorem Layout.decode_encode_eq_ok_iff_seven :
    let fs : Fields := .cons "seq" (.scalar .uint16) <| .cons "data" .bytes .nil
    let l : Layout := .message 7 fs
    let m : fs.Values := (0x0707, List.replicate 7 7, ())
    (fs.messageFree ∧ ∀ q ∈ fs.payloads m, q.length < 2 ^ 63) ∧
      l.encode m = List.replicate 11 7 ∧
      (∃ w, l.append? m .empty = some w ∧ w.bytes = l.encode m) ∧
      l.decode (l.encode m) = .ok m := by
  intro fs l m
  have hfree : fs.messageFree := rfl
  have hshort : ∀ q ∈ fs.payloads m, q.length < 2 ^ 63 := by decide
  have hencode : l.encode m = List.replicate 11 7 := by decide +kernel
  obtain ⟨hwritten, hgranted, hsame⟩ :=
    Layout.decode_encode_eq_ok_iff 7 (by decide) fs hfree m hshort
  have hreplicate : ∀ x ∈ l.encode m, x = 7 := by
    intro x hx
    rw [hencode] at hx
    exact List.eq_of_mem_replicate hx
  obtain ⟨w, hw⟩ := hgranted.mpr (by decide +kernel)
  exact ⟨⟨hfree, hshort⟩, hencode, ⟨w, hw, hwritten w hw⟩, hsame.mpr hreplicate⟩

-- A tag that is a leading zero of a length is read over without a trace.
example :
    let l : Layout := .message 128 <| .cons "name" .text .nil
    l.encode ("", ()) = [128, 0] ∧ l.decode [128, 0] = .ok ("", ()) := by
  decide +kernel

end TaggedWire
