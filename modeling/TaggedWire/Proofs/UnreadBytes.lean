import TaggedWire.Proofs.ReaderRuns
import TaggedWire.Proofs.Stream

/-!
# Reads depend on the unread bytes alone

What was read before, and where in its string a cursor stands, makes no difference to a read: from
all cursors with the same bytes before them it returns the same and moves on by the same number of
bytes, also where it fails in the middle of a value. A message can therefore be read behind its tag
by the same cursor, or its fields by another one that begins there.
-/

namespace TaggedWire

namespace ReadM

variable {α β : Type}

/-- What a read that starts at the cursor gives if it replies `r` after `k` bytes. -/
def finish (c : Cursor) (k : Nat) : Except Fault α → Result α
  | .ok v => .ok v (c.advance k)
  | .error e => .error e (c.advance k)

/-- The unread bytes determine the reply and by how much the cursor moves. -/
def Relative (x : ReadM α) : Prop :=
  ∀ u : Bytes, ∃ r k, ∀ c : Cursor, c.unread = u → x c = finish c k r

theorem outcome_of_finish {x : ReadM α} {c : Cursor} {k : Nat} {r : Except Fault α}
    (h : x c = finish c k r) : x.outcome c = (r, c.pos + k) := by
  cases r with
  | ok v => exact outcome_of_ok h
  | error e => exact outcome_of_error h

theorem relative_pure (a : α) : Relative (pure a : ReadM α) := by
  intro u
  exact ⟨.ok a, 0, fun c _ ↦ rfl⟩

/-- After the first read, the second sees the bytes that the first has left. -/
theorem Relative.bind {x : ReadM α} {f : α → ReadM β} (hx : Relative x)
    (hf : ∀ a, Relative (f a)) : Relative (x >>= f) := by
  intro u
  obtain ⟨r, k, hr⟩ := hx u
  cases r with
  | error e =>
      refine ⟨.error e, k, ?_⟩
      intro c hc
      exact bind_error (hr c hc)
  | ok a =>
      obtain ⟨r', k', hr'⟩ := hf a (u.drop k)
      refine ⟨r', k + k', ?_⟩
      intro c hc
      have hrest : (c.advance k).unread = u.drop k := by rw [Cursor.unread_advance, hc]
      rw [bind_ok (hr c hc), hr' _ hrest]
      cases r' <;> simp only [finish, Cursor.advance_advance]

/-! ## Primitive reads -/

theorem relative_scalar (t : Scalar) : Relative (scalar t) := by
  intro u
  cases hload : t.load? u with
  | none => exact ⟨.error .truncatedInput, 0, fun c hc ↦ by rw [scalar, hc, hload]; rfl⟩
  | some v => exact ⟨.ok v, t.size, fun c hc ↦ by rw [scalar, hc, hload]; rfl⟩

theorem relative_varint : Relative varint := by
  intro u
  cases hdecode : Varint.decode u with
  | error e => exact ⟨.error e, 0, fun c hc ↦ by rw [varint, hc, hdecode]; rfl⟩
  | ok p => exact ⟨.ok p.1, p.2, fun c hc ↦ by rw [varint, hc, hdecode]; rfl⟩

theorem relative_bytes : Relative bytes := by
  intro u
  cases hdecode : Varint.decode u with
  | error e => exact ⟨.error e, 0, fun c hc ↦ by rw [bytes, hc, hdecode]; rfl⟩
  | ok p =>
      obtain ⟨n, used⟩ := p
      by_cases hfit : n.toNat ≤ (u.drop used).length
      · refine ⟨.ok ((u.drop used).take n.toNat), used + n.toNat, fun c hc ↦ ?_⟩
        simp only [bytes, hc, hdecode, if_pos hfit, finish]
      · refine ⟨.error .truncatedInput, 0, fun c hc ↦ ?_⟩
        simp only [bytes, hc, hdecode, if_neg hfit, finish, Cursor.advance_zero]

theorem relative_text : Relative text := by
  intro u
  obtain ⟨r, k, hr⟩ := relative_bytes u
  cases r with
  | error e => exact ⟨.error e, k, fun c hc ↦ by rw [text, hr c hc]; rfl⟩
  | ok bs =>
      cases hdecode : Text.decode? bs with
      | none =>
          -- The cursor is put back before the length, however long that is.
          refine ⟨.error .invalidUtf8, 0, fun c hc ↦ ?_⟩
          simp only [text, hr c hc, finish, hdecode, Cursor.advance_zero]
      | some s =>
          refine ⟨.ok s, k, fun c hc ↦ ?_⟩
          simp only [text, hr c hc, finish, hdecode]

theorem compositional_relative : Compositional fun _ x ↦ Relative x where
  scalar := relative_scalar
  text := relative_text
  bytes := relative_bytes
  pure := relative_pure
  bind := Relative.bind

/-- A read from a position does what it does at the start of the bytes that follow. -/
theorem Relative.outcome_eq {x : ReadM α} (hx : Relative x) (b : Bytes) (p : Nat) :
    x.outcome ⟨b, p⟩ =
      ((x.outcome (.ofBytes (b.drop p))).1, p + (x.outcome (.ofBytes (b.drop p))).2) := by
  obtain ⟨r, k, hr⟩ := hx (b.drop p)
  have hfresh := outcome_of_finish (hr (.ofBytes (b.drop p)) rfl)
  rw [outcome_of_finish (hr ⟨b, p⟩ rfl), hfresh]
  simp [Cursor.ofBytes]

end ReadM

theorem Layout.relative_read (l : Layout) : ReadM.Relative l.read :=
  l.read_of_compositional ReadM.compositional_relative

theorem Cursor.Operation.relative_read (op : Operation) : ReadM.Relative op.read := by
  cases op with
  | leaf k =>
      cases k with
      | scalar t => exact ReadM.relative_scalar t
      | text => exact ReadM.relative_text
      | bytes => exact ReadM.relative_bytes
  | varint => exact ReadM.relative_varint
  | slice => exact ReadM.relative_bytes
  | value l => exact l.relative_read

/-! ## Messages -/

namespace Presence

theorem relative_readBody (tag : UInt8) : ReadM.Relative (readBody tag) := by
  rw [readBody]
  cases Kind.ofTag? tag with
  | none => exact ReadM.relative_pure _
  | some kind => exact kind.layout.relative_read.bind fun _ ↦ ReadM.relative_pure _

/-- What dispatch makes of a tag and fields that are read one after the other. -/
def verdict : Except Fault (Except UInt8 Message) → Except Rejection Message
  | .ok (.ok m) => .ok m
  | .ok (.error tag) => .error (.unknownTag tag)
  | .error e => .error (.malformedBody e)

theorem verdict_readBody (tag : UInt8) (body : Bytes) :
    verdict ((readBody tag).outcome (.ofBytes body)).1 = dispatch (tag :: body) := by
  cases hkind : Kind.ofTag? tag with
  | none =>
      have hbody : readBody tag (.ofBytes body) = .ok (.error tag) (.ofBytes body) := by
        simp only [readBody, hkind]
        rfl
      rw [ReadM.outcome_of_ok hbody]
      simp [verdict, dispatch, splitTag?, hkind]
  | some kind =>
      cases hread : kind.layout.read (.ofBytes body) with
      | ok v c =>
          have hbody : readBody tag (.ofBytes body) = .ok (.ok (.ofBody kind v)) c := by
            simp only [readBody, hkind, ReadM.bind_ok hread]
            rfl
          rw [ReadM.outcome_of_ok hbody]
          simp [verdict, dispatch, splitTag?, hkind, Layout.decode, hread]
      | error e c =>
          have hbody : readBody tag (.ofBytes body) = .error e c := by
            simp only [readBody, hkind, ReadM.bind_error hread]
          rw [ReadM.outcome_of_error hbody]
          simp [verdict, dispatch, splitTag?, hkind, Layout.decode, hread]

/-- The tag is read by the first of the two reads, and the second finds itself before the fields. -/
theorem outcome_readTagged_cons (tag : UInt8) (body : Bytes) :
    readTagged.outcome (.ofBytes (tag :: body)) =
      (((readBody tag).outcome (.ofBytes body)).1,
        1 + ((readBody tag).outcome (.ofBytes body)).2) := by
  have htag : ReadM.scalar .uint8 (.ofBytes (tag :: body)) = .ok tag ⟨tag :: body, 1⟩ := by
    apply (ReadM.accepts_scalar .uint8 _ tag _).mpr
    exact ⟨[tag], (Scalar.encode_uint8 tag).symm, List.prefix_append [tag] body, rfl⟩
  have hrest := (relative_readBody tag).outcome_eq (tag :: body) 1
  rw [List.drop_one, List.tail_cons] at hrest
  rw [← hrest, readTagged, ReadM.outcome, ReadM.bind_ok htag, ReadM.outcome]

/-- Reads see no more than the bytes before them: at a position of a string, each gives what it
gives at the start of the bytes that follow, and moves as far. This is so for reads that compute
with positions in the string as well. A message can therefore be told by its tag and read on by one
cursor, as it is by dispatch. -/
theorem outcome_read_and_dispatch :
    (∀ (op : Cursor.Operation) (b : Bytes) (p : Nat), p ≤ b.length →
      op.read.outcome ⟨b, p⟩ =
        ((op.read.outcome (.ofBytes (b.drop p))).1,
          p + (op.read.outcome (.ofBytes (b.drop p))).2) ∧
      (b.length ≤ Size.largest →
        op.read? ⟨b, p⟩ = some (op.read ⟨b, p⟩) ∧
        op.read? (.ofBytes (b.drop p)) = some (op.read (.ofBytes (b.drop p))))) ∧
    ∀ b : Bytes, b ≠ [] → dispatch b = verdict (readTagged.outcome (.ofBytes b)).1 := by
  constructor
  · intro op b p hp
    refine ⟨op.relative_read.outcome_eq b p, ?_⟩
    intro hb
    have hrest : (b.drop p).length ≤ Size.largest :=
      Nat.le_trans (List.drop_sublist p b).length_le hb
    exact ⟨op.read?_eq_some ⟨hp, hb⟩, op.read?_eq_some ⟨Cursor.inside_ofBytes _, hrest⟩⟩
  · intro b hb
    obtain ⟨tag, body, rfl⟩ := List.exists_cons_of_ne_nil hb
    rw [outcome_readTagged_cons, verdict_readBody]

/-- Behind two other bytes, a window whose height is cut; and a position whose second coordinate
is. -/
theorem outcome_read_and_dispatch_window :
    (Cursor.Operation.value (.record Specimen.window)).read.outcome
        ⟨[9, 9, 0x80, 1, 97, 5, 0, 6], 2⟩ = (.error .truncatedInput, 7) ∧
      dispatch [2, 0, 0, 0, 0, 0, 0, 0, 0, 1] = .error (.malformedBody .truncatedInput) := by
  constructor
  · have hwindow : (Cursor.Operation.value (.record Specimen.window)).read.outcome
        (.ofBytes [0x80, 1, 97, 5, 0, 6]) = (.error .truncatedInput, 5) := rfl
    have hhere := (outcome_read_and_dispatch.1 (.value (.record Specimen.window))
      [9, 9, 0x80, 1, 97, 5, 0, 6] 2 (by decide)).1
    simpa [hwindow] using hhere
  · have htagged : (readTagged.outcome (.ofBytes [2, 0, 0, 0, 0, 0, 0, 0, 0, 1])).1 =
        .error .truncatedInput := rfl
    have hdispatch := outcome_read_and_dispatch.2 [2, 0, 0, 0, 0, 0, 0, 0, 0, 1] (by decide)
    simpa [htagged, verdict] using hdispatch

end Presence

end TaggedWire
