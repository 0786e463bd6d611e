import TaggedWire.Proofs.Canonical
import TaggedWire.Specimen

/-!
# Wire forms delimit themselves

What is written for a value shows where it ends and which value it is, whatever bytes follow. This
does not rest on the readers, and so it holds of messages that are fields as well, whose tags no
reader skips: tags are constant, scalars have a fixed width, and a length tells where a payload
ends.
-/

namespace TaggedWire

variable {α β : Type}

/-- Two strings that begin with the forms of two such values agree only if the values agree and what
follows them agrees. -/
def SelfDelimiting (ok : α → Prop) (form : α → Bytes) : Prop :=
  ∀ ⦃v w : α⦄ ⦃s t : Bytes⦄, ok v → ok w → form v ++ s = form w ++ t → v = w ∧ s = t

namespace SelfDelimiting

theorem append_eq_iff {ok : α → Prop} {form : α → Bytes} (h : SelfDelimiting ok form) {v w : α}
    (hv : ok v) (hw : ok w) (s t : Bytes) : form v ++ s = form w ++ t ↔ v = w ∧ s = t := by
  constructor
  · intro heq
    exact h hv hw heq
  · rintro ⟨rfl, rfl⟩
    rfl

theorem isPrefix_iff {ok : α → Prop} {form : α → Bytes} (h : SelfDelimiting ok form) {v w : α}
    (hv : ok v) (hw : ok w) : form v <+: form w ↔ v = w := by
  constructor
  · rintro ⟨s, hs⟩
    rw [← List.append_nil (form w)] at hs
    exact (h hv hw hs).1
  · rintro rfl
    exact List.prefix_refl _

theorem of_width {ok : α → Prop} {form : α → Bytes} {width : Nat}
    (hwidth : ∀ v, (form v).length = width) (hinj : Function.Injective form) :
    SelfDelimiting ok form := by
  intro v w s t _ _ h
  obtain ⟨hform, hrest⟩ := List.append_inj h ((hwidth v).trans (hwidth w).symm)
  exact ⟨hinj hform, hrest⟩

theorem comp {ok : β → Prop} {form : β → Bytes} (h : SelfDelimiting ok form) {f : α → β}
    (hf : Function.Injective f) : SelfDelimiting (fun v ↦ ok (f v)) fun v ↦ form (f v) := by
  intro v w s t hv hw heq
  obtain ⟨hfw, hrest⟩ := h hv hw heq
  exact ⟨hf hfw, hrest⟩

theorem cons {ok : α → Prop} {form : α → Bytes} (h : SelfDelimiting ok form) (tag : UInt8) :
    SelfDelimiting ok fun v ↦ tag :: form v := by
  intro v w s t hv hw heq
  rw [List.cons_append, List.cons_append] at heq
  exact h hv hw (List.cons.inj heq).2

/-- What follows the first form is the second one and the rest. -/
theorem pair {okFst : α → Prop} {okSnd : β → Prop} {formFst : α → Bytes} {formSnd : β → Bytes}
    (hfst : SelfDelimiting okFst formFst) (hsnd : SelfDelimiting okSnd formSnd) :
    SelfDelimiting (fun p : α × β ↦ okFst p.1 ∧ okSnd p.2) fun p ↦ formFst p.1 ++ formSnd p.2 := by
  rintro ⟨v, v'⟩ ⟨w, w'⟩ s t ⟨hv, hv'⟩ ⟨hw, hw'⟩ heq
  rw [List.append_assoc, List.append_assoc] at heq
  obtain ⟨hvw, hsecond⟩ := hfst hv hw heq
  obtain ⟨hvw', hrest⟩ := hsnd hv' hw' hsecond
  exact ⟨Prod.ext hvw hvw', hrest⟩

end SelfDelimiting

/-! ## Leaves -/

theorem Scalar.encode_injective (t : Scalar) : Function.Injective t.encode := by
  intro v w h
  have hv : t.load? (t.encode v) = some v := load?_eq_some_iff.mpr (List.prefix_refl _)
  have hw : t.load? (t.encode w) = some w := load?_eq_some_iff.mpr (List.prefix_refl _)
  rw [h, hw] at hv
  exact (Option.some.inj hv).symm

theorem Text.encode_injective : Function.Injective Text.encode := by
  intro s t h
  have hs := Text.decode?_encode s
  rw [h, Text.decode?_encode t] at hs
  exact (Option.some.inj hs).symm

theorem Varint.LengthPrefix.unique {n m : Nat} {g : Bytes} (hn : Varint.LengthPrefix n g)
    (hm : Varint.LengthPrefix m g) : n = m := by
  have hvalue := (Varint.lengthPrefix_iff.mp hn).2.1.value
  exact hvalue.symm.trans (Varint.lengthPrefix_iff.mp hm).2.1.value

/-- No length is the beginning of another one, and equal lengths give payloads of equal length. -/
theorem Bytes.selfDelimiting_encode :
    SelfDelimiting (fun bs : Bytes ↦ bs.length < 2 ^ 63) Bytes.encode := by
  intro v w s t hv hw heq
  have hpv : Varint.LengthPrefix v.length _ := Varint.lengthPrefix_encode (by omega)
  have hpw : Varint.LengthPrefix w.length _ := Varint.lengthPrefix_encode (by omega)
  rw [Bytes.encode, Bytes.encode, List.append_assoc, List.append_assoc] at heq
  have hbegins := hpv.eq_of_append_eq hpw heq
  rw [hbegins] at hpv heq
  exact List.append_inj (List.append_cancel_left heq) (hpv.unique hpw)

/-! ## Layouts -/

mutual
theorem Layout.selfDelimiting_encode : (l : Layout) →
    SelfDelimiting (fun v ↦ ∀ q ∈ l.payloads v, q.length < 2 ^ 63) l.encode
  | .scalar t => by
      simp only [Layout.encode]
      exact .of_width t.length_encode t.encode_injective
  | .text => by
      simp only [Layout.encode, Layout.payloads, List.forall_mem_singleton]
      exact Bytes.selfDelimiting_encode.comp Text.encode_injective
  | .bytes => by
      simp only [Layout.encode, Layout.payloads, List.forall_mem_singleton]
      exact Bytes.selfDelimiting_encode
  | .record fs => by
      simp only [Layout.encode, Layout.payloads]
      exact Fields.selfDelimiting_encode fs
  | .message tag fs => by
      simp only [Layout.encode, Layout.payloads]
      exact (Fields.selfDelimiting_encode fs).cons tag

theorem Fields.selfDelimiting_encode : (fs : Fields) →
    SelfDelimiting (fun vs ↦ ∀ q ∈ fs.payloads vs, q.length < 2 ^ 63) fs.encode
  | .nil => by
      intro vs ws s t _ _ heq
      simp only [Fields.encode, List.nil_append] at heq
      exact ⟨rfl, heq⟩
  | .cons _ l fs => by
      simp only [Fields.encode, Fields.payloads, List.forall_mem_append]
      exact (Layout.selfDelimiting_encode l).pair (Fields.selfDelimiting_encode fs)
end

/-- Values of one layout are told apart by what is written for them, whatever follows, and where the
one ends the other ends. So nothing that is written for a value begins what is written for another.
-/
theorem Layout.encode_append_eq_iff (l : Layout) (v w : l.Value)
    (hv : ∀ q ∈ l.payloads v, q.length < 2 ^ 63) (hw : ∀ q ∈ l.payloads w, q.length < 2 ^ 63) :
    (∀ s t, l.encode v ++ s = l.encode w ++ t ↔ v = w ∧ s = t) ∧
      (l.encode v <+: l.encode w ↔ v = w) :=
  ⟨l.selfDelimiting_encode.append_eq_iff hv hw, l.selfDelimiting_encode.isPrefix_iff hv hw⟩

/-- Two envelopes that are told apart by what is written for them, though what is written for the
second reads back as another envelope. -/
theorem Layout.encode_append_eq_iff_envelope :
    let l := Specimen.envelope
    let v : l.Value := (1, ("", ()), 1, ())
    let w : l.Value := (1, ("é", ()), 7, ())
    ((∀ q ∈ l.payloads v, q.length < 2 ^ 63) ∧ ∀ q ∈ l.payloads w, q.length < 2 ^ 63) ∧
      l.decode (l.encode w).tail ≠ .ok w ∧
      (∀ s t, l.encode v ++ s ≠ l.encode w ++ t) ∧ ¬l.encode v <+: l.encode w := by
  intro l v w
  have hv : ∀ q ∈ l.payloads v, q.length < 2 ^ 63 := by decide
  have hw : ∀ q ∈ l.payloads w, q.length < 2 ^ 63 := by decide
  have hne : ∀ {crc : UInt8} {name}, crc ≠ 7 → ((1, (name, ()), crc, ()) : l.Value) ≠ w := by
    intro crc name hcrc h
    exact hcrc (congrArg (fun x : l.Value ↦ x.2.2.1) h)
  have hbody : (l.encode w).tail = [1, 0, 0, 2, 0xC3, 0xA9, 7] := by decide +kernel
  have hread : l.decode [1, 0, 0, 2, 0xC3, 0xA9, 7] = .ok (1, ("", ()), 2, ()) := rfl
  have hmisread : l.decode (l.encode w).tail ≠ .ok w := by
    rw [hbody, hread]
    intro h
    exact hne (by decide) (Except.ok.inj h)
  obtain ⟨happend, hbegins⟩ := l.encode_append_eq_iff v w hv hw
  refine ⟨⟨hv, hw⟩, hmisread, ?_, ?_⟩
  · intro s t heq
    exact hne (by decide) ((happend s t).mp heq).1
  · intro hpre
    exact hne (by decide) (hbegins.mp hpre)

end TaggedWire
