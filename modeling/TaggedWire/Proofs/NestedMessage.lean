import TaggedWire.Proofs.Grammar
import TaggedWire.Proofs.Growth
import TaggedWire.Specimen

/-!
# A message inside a message

A message that is a field is written with its tag and read without it, so the tag is taken for the
beginning of its first field. An envelope carries a registration between a number and a checksum.
The tag of a registration is zero, which is also the length of an empty text: the reader takes the
name for empty, takes the first digit of the length that was written for the checksum, and does not
fail.
-/

namespace TaggedWire

namespace Varint

theorem exists_head?_encode (v : UInt64) : ∃ d, (encode v).head? = some d := by
  have hpos : 0 < (encode v).length := (numeral_digits v.toNat).length_pos
  obtain ⟨d, ds, hds⟩ := List.exists_cons_of_length_pos hpos
  exact ⟨d, by rw [hds, List.head?_cons]⟩

theorem encode_zero : encode 0 = [0] := by
  simp [encode_eq_digits, digits]

end Varint

theorem Text.encode_empty : Text.encode "" = [] := rfl

theorem Scalar.encode_uint16 (v : UInt16) :
    Scalar.uint16.encode v = [v.toUInt8, (v >>> 8).toUInt8] := by
  have hhigh : UInt8.ofNat (v.toNat / 256) = (v >>> 8).toUInt8 := by
    apply UInt8.toNat_inj.mp
    simp [Nat.shiftRight_eq_div_pow]
  simp [Scalar.encode, Scalar.size, Scalar.toBits, Bytes.ofNatLE, hhigh]

namespace Specimen

/-- What follows the tag of an envelope. -/
def envelopeBody (seq : UInt16) (name : String) (crc : UInt8) : Bytes :=
  [seq.toUInt8, (seq >>> 8).toUInt8, 0] ++
    Varint.encode (UInt64.ofNat (Text.encode name).length) ++ Text.encode name ++ [crc]

variable (tag : UInt8) (seq : UInt16) (name : String) (crc : UInt8)

theorem encode_envelopeWith :
    (envelopeWith tag).encode (seq, (name, ()), crc, ()) = tag :: envelopeBody seq name crc := by
  simp [envelopeWith, envelopeBody, Layout.encode, Fields.encode, Presence.Kind.layout,
    Presence.Kind.fields, Presence.Kind.tag, Bytes.encode, Scalar.encode_uint16,
    Scalar.encode_uint8]

/-- The tag of a registration is read as the length of its name. -/
theorem wireForm_clientRegister_tag :
    Presence.Kind.clientRegister.layout.WireForm ("", ()) [Presence.Kind.clientRegister.tag] := by
  have hzero : Varint.LengthPrefix (Text.encode "").length [0] := by
    have hprefix : Varint.LengthPrefix 0 _ := Varint.lengthPrefix_encode (by decide)
    simpa [Text.encode_empty, Varint.encode_zero] using hprefix
  exact .message (.cons (.text hzero) .nil)

theorem wireForm_envelopeWith (first : UInt8) :
    (envelopeWith tag).WireForm (seq, ("", ()), first, ())
      [seq.toUInt8, (seq >>> 8).toUInt8, 0, first] := by
  have hseq : (Layout.scalar .uint16).WireForm seq [seq.toUInt8, (seq >>> 8).toUInt8] :=
    Layout.wireForm_scalar_iff.mpr (Scalar.encode_uint16 seq).symm
  have hfirst : (Layout.scalar .uint8).WireForm first [first] :=
    Layout.wireForm_scalar_iff.mpr (Scalar.encode_uint8 first).symm
  exact .message (.cons hseq (.cons wireForm_clientRegister_tag (.cons hfirst .nil)))

/-- The body of an envelope is read up to the first digit of the length of the name. -/
theorem decode_envelopeBody {first : UInt8}
    (hfirst : (Varint.encode (UInt64.ofNat (Text.encode name).length)).head? = some first) :
    (envelopeWith tag).decode (envelopeBody seq name crc) = .ok (seq, ("", ()), first, ()) := by
  obtain ⟨ds, hds⟩ := List.head?_eq_some_iff.mp hfirst
  refine Layout.decode_eq_ok_iff.mpr ⟨_, wireForm_envelopeWith tag seq first, ?_⟩
  simp [envelopeBody, hds]

theorem decode_envelopeBody_eq_ok_iff :
    (envelopeWith tag).decode (envelopeBody seq name crc) = .ok (seq, (name, ()), crc, ()) ↔
      name = "" ∧ crc = 0 := by
  have hempty : (Varint.encode (UInt64.ofNat (Text.encode "").length)).head? = some 0 := by
    simp [Text.encode_empty, Varint.encode_zero]
  constructor
  · intro h
    obtain ⟨first, hfirst⟩ := Varint.exists_head?_encode (UInt64.ofNat (Text.encode name).length)
    rw [decode_envelopeBody tag seq name crc hfirst] at h
    have hvalue : ((seq, ("", ()), first, ()) : UInt16 × (String × Unit) × UInt8 × Unit) =
        (seq, (name, ()), crc, ()) := Except.ok.inj h
    obtain ⟨rfl, rfl⟩ : name = "" ∧ first = crc := by simpa using hvalue
    exact ⟨rfl, Option.some.inj (hfirst.symm.trans hempty)⟩
  · rintro ⟨rfl, rfl⟩
    exact decode_envelopeBody tag seq "" 0 hempty

/-- An envelope is written in full, and what follows its tag reads back without a fault, but as an
envelope with an empty name and with the first digit of the length of the name for its checksum.
Only an envelope whose name is empty and whose checksum is zero reads back as itself. -/
theorem decode_encode_envelope (tag : UInt8) (e : (envelopeWith tag).Value) :
    let l := envelopeWith tag
    let seq : UInt16 := e.1
    let name : String := e.2.1.1
    let crc : UInt8 := e.2.2.1
    let n := Varint.encode (UInt64.ofNat (Text.encode name).length)
    (∀ w, l.append? e .empty = some w → w.bytes = l.encode e) ∧
    ((∃ w, l.append? e .empty = some w) ↔ (l.encode e).length ≤ 2 ^ 62) ∧
    ∃ body first,
      splitTag? (l.encode e) = some (tag, body) ∧
      body = [seq.toUInt8, (seq >>> 8).toUInt8, 0] ++ n ++ Text.encode name ++ [crc] ∧
      n.head? = some first ∧
      l.decode body = .ok (seq, ("", ()), first, ()) ∧
      (l.decode body = .ok e ↔ name = "" ∧ crc = 0) := by
  intro l seq name crc n
  have hsplit : splitTag? (l.encode e) = some (tag, envelopeBody seq name crc) :=
    congrArg splitTag? (encode_envelopeWith tag seq name crc)
  obtain ⟨first, hfirst⟩ := Varint.exists_head?_encode (UInt64.ofNat (Text.encode name).length)
  exact ⟨fun w hw ↦ l.bytes_of_append? e hw, Buffer.exists_append?_empty_iff (.value l e),
    envelopeBody seq name crc, first, hsplit, rfl, hfirst,
    decode_envelopeBody tag seq name crc hfirst, decode_envelopeBody_eq_ok_iff tag seq name crc⟩

/-- The length of the name, two bytes, turns up as the checksum. -/
theorem decode_encode_envelope_accent :
    let e : envelope.Value := (1, ("é", ()), 7, ())
    (∃ w, envelope.append? e .empty = some w ∧ w.bytes = [200, 1, 0, 0, 2, 0xC3, 0xA9, 7]) ∧
      envelope.decode [1, 0, 0, 2, 0xC3, 0xA9, 7] = .ok (1, ("", ()), 2, ()) := by
  intro e
  have hencode : envelope.encode e = [200, 1, 0, 0, 2, 0xC3, 0xA9, 7] := by decide +kernel
  obtain ⟨hwritten, hfits, body, first, hsplit, -, hfirst, hdecode, -⟩ :=
    decode_encode_envelope 200 e
  obtain ⟨w, hw⟩ := hfits.mpr (by decide +kernel)
  refine ⟨⟨w, hw, (hwritten w hw).trans hencode⟩, ?_⟩
  have hbody : splitTag? [200, 1, 0, 0, 2, 0xC3, 0xA9, 7] = some (200, body) :=
    (congrArg splitTag? hencode).symm.trans hsplit
  obtain rfl : [1, 0, 0, 2, 0xC3, 0xA9, 7] = body := by simpa [splitTag?] using hbody
  obtain rfl : 2 = first := by
    have hdigit : (Varint.encode (UInt64.ofNat (Text.encode "é").length)).head? = some 2 := by
      decide +kernel
    exact Option.some.inj (hdigit.symm.trans hfirst)
  exact hdecode

end Specimen

end TaggedWire
