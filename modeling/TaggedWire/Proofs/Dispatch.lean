import TaggedWire.Presence.Dispatch
import TaggedWire.Proofs.RoundTrip

/-!
# Recognising messages exactly

The first byte decides how a byte string is judged: without one it is empty, with a byte that marks
no kind of message it is unknown, and otherwise the fields of the kind are read from what follows. A
message that was written is recognised whatever bytes come after it.
-/

namespace TaggedWire.Presence

theorem Kind.ofTag?_eq_some_iff {t : UInt8} {k : Kind} : Kind.ofTag? t = some k ↔ t = k.tag := by
  constructor
  · intro h
    unfold Kind.ofTag? at h
    split at h <;> cases h <;> rfl
  · intro h
    rw [h, Kind.ofTag?_tag]

theorem Kind.ofTag?_eq_none_iff {t : UInt8} : Kind.ofTag? t = none ↔ ∀ k : Kind, k.tag ≠ t := by
  constructor
  · intro h k hk
    rw [← hk, Kind.ofTag?_tag] at h
    cases h
  · intro h
    by_contra hsome
    obtain ⟨k, hk⟩ := Option.ne_none_iff_exists'.mp hsome
    exact h k (Kind.ofTag?_eq_some_iff.mp hk).symm

namespace Message

def texts : Message → List String
  | clientRegister name => [name]
  | serverRegister => []
  | clientUpdate _ => []
  | serverUpdate userId name _ => [userId, name]
  | serverDelete userId => [userId]

theorem payloads_body (m : Message) :
    m.kind.layout.payloads m.body = m.texts.map Text.encode := by
  cases m <;> rfl

theorem encode_eq_cons (m : Message) : m.encode = m.tag :: m.kind.fields.encode m.body := by
  change (Layout.message m.kind.tag m.kind.fields).encode m.body = _
  rw [Layout.encode]
  rfl

/-- A message is written to an empty buffer unless its texts are too long for any doubling of the
capacity. -/
theorem exists_append?_empty_iff (m : Message) :
    (∃ w, m.kind.layout.append? m.body .empty = some w) ↔ m.encode.length ≤ 2 ^ 62 :=
  Buffer.exists_append?_empty_iff (.value m.kind.layout m.body)

theorem exists_body (k : Kind) (v : k.fields.Values) :
    ∃ m : Message, (⟨k, v⟩ : (k : Kind) × k.fields.Values) = ⟨m.kind, m.body⟩ := by
  cases k with
  | clientRegister => exact ⟨.clientRegister v.1, rfl⟩
  | serverRegister => exact ⟨.serverRegister, rfl⟩
  | clientUpdate => exact ⟨.clientUpdate ⟨v.1.1, v.1.2.1⟩, rfl⟩
  | serverUpdate => exact ⟨.serverUpdate v.1 v.2.1 ⟨v.2.2.1.1, v.2.2.1.2.1⟩, rfl⟩
  | serverDelete => exact ⟨.serverDelete v.1, rfl⟩

end Message

theorem Kind.layout_messageFree (k : Kind) : k.layout.untagged.messageFree := by
  cases k <;> rfl

theorem Kind.decode_layout (k : Kind) (body : Bytes) :
    k.layout.decode body = (k.fields.read.outcome (.ofBytes body)).1 := by
  change (Layout.message k.tag k.fields).decode body = _
  rw [Layout.decode_eq_outcome, Layout.read]

/-! ## The verdict by the first byte -/

theorem dispatch_unknown {t : UInt8} (h : ∀ k : Kind, k.tag ≠ t) (body : Bytes) :
    dispatch (t :: body) = .error (.unknownTag t) := by
  simp only [dispatch, splitTag?, Kind.ofTag?_eq_none_iff.mpr h]

theorem dispatch_tag (k : Kind) (body : Bytes) :
    dispatch (k.tag :: body) =
      match (k.fields.read.outcome (.ofBytes body)).1 with
      | .ok v => .ok (.ofBody k v)
      | .error e => .error (.malformedBody e) := by
  rw [← k.decode_layout body]
  simp only [dispatch, splitTag?, Kind.ofTag?_tag]
  cases k.layout.decode body <;> rfl

/-- Every byte string is empty, begins with an unknown byte or begins with the tag of a kind. -/
theorem empty_or_unknown_or_tag (b : Bytes) :
    b = [] ∨ (∃ t body, b = t :: body ∧ ∀ k : Kind, k.tag ≠ t) ∨
      ∃ (k : Kind) (body : Bytes), b = k.tag :: body := by
  cases b with
  | nil => exact .inl rfl
  | cons t body =>
      cases hk : Kind.ofTag? t with
      | none => exact .inr (.inl ⟨t, body, rfl, Kind.ofTag?_eq_none_iff.mp hk⟩)
      | some k =>
          rw [Kind.ofTag?_eq_some_iff.mp hk]
          exact .inr (.inr ⟨k, body, rfl⟩)

theorem dispatch_eq_empty_iff {b : Bytes} : dispatch b = .error .empty ↔ b = [] := by
  refine ⟨?_, fun h ↦ h ▸ rfl⟩
  intro h
  obtain rfl | ⟨t, body, rfl, ht⟩ | ⟨k, body, rfl⟩ := empty_or_unknown_or_tag b
  · rfl
  · rw [dispatch_unknown ht] at h
    cases h
  · rw [dispatch_tag] at h
    split at h <;> cases h

theorem dispatch_eq_unknownTag_iff {b : Bytes} {t : UInt8} :
    dispatch b = .error (.unknownTag t) ↔ ∃ body, b = t :: body ∧ ∀ k : Kind, k.tag ≠ t := by
  constructor
  · intro h
    obtain rfl | ⟨t', body, rfl, ht⟩ | ⟨k, body, rfl⟩ := empty_or_unknown_or_tag b
    · cases h
    · rw [dispatch_unknown ht] at h
      cases h
      exact ⟨body, rfl, ht⟩
    · rw [dispatch_tag] at h
      split at h <;> cases h
  · intro h
    obtain ⟨body, rfl, ht⟩ := h
    exact dispatch_unknown ht body

theorem dispatch_eq_ok_iff {b : Bytes} {m : Message} :
    dispatch b = .ok m ↔
      ∃ body, b = m.tag :: body ∧ (m.kind.fields.read.outcome (.ofBytes body)).1 = .ok m.body := by
  constructor
  · intro h
    obtain rfl | ⟨t, body, rfl, ht⟩ | ⟨k, body, rfl⟩ := empty_or_unknown_or_tag b
    · cases h
    · rw [dispatch_unknown ht] at h
      cases h
    · rw [dispatch_tag] at h
      cases hread : (k.fields.read.outcome (.ofBytes body)).1 with
      | error e =>
          rw [hread] at h
          cases h
      | ok v =>
          obtain ⟨m', hm'⟩ := Message.exists_body k v
          cases hm'
          rw [hread] at h
          simp only [Message.ofBody_body] at h
          cases h
          exact ⟨body, rfl, hread⟩
  · intro h
    obtain ⟨body, rfl, hread⟩ := h
    rw [Message.tag, dispatch_tag, hread]
    simp only [Message.ofBody_body]

/-- A message is written as its tag and a wire form of its fields. -/
theorem Message.exists_wireForm (m : Message)
    (hm : ∀ t ∈ m.texts, (Text.encode t).length < 2 ^ 63) :
    ∃ e, m.encode = m.tag :: e ∧ m.kind.layout.WireForm m.body e := by
  have hshort : ∀ q ∈ m.kind.layout.payloads m.body, q.length < 2 ^ 63 := by
    rw [m.payloads_body]
    exact List.forall_mem_map.mpr hm
  exact m.kind.layout.exists_wireForm_encode m.kind.layout_messageFree m.body hshort

theorem dispatch_encode_append (m : Message) (hm : ∀ t ∈ m.texts, (Text.encode t).length < 2 ^ 63)
    (s : Bytes) : dispatch (m.encode ++ s) = .ok m := by
  obtain ⟨e, hencode, he⟩ := m.exists_wireForm hm
  have hread : m.kind.layout.read (.ofBytes (e ++ s)) = .ok m.body _ :=
    Layout.read_of_wireForm he [] s
  refine dispatch_eq_ok_iff.mpr ⟨e ++ s, ?_, ?_⟩
  · exact congrArg (· ++ s) hencode
  · rw [← m.kind.decode_layout, Layout.decode_eq_outcome, ReadM.outcome_of_ok hread]
    rfl

/-- The first byte alone decides which fields are read, what they give is the verdict, and every
message that fits a buffer is written and recognised behind the tag with which it was written. -/
theorem dispatch_exact :
    (∀ b : Bytes,
      (dispatch b = .error .empty ↔ b = []) ∧
      (∀ t, dispatch b = .error (.unknownTag t) ↔ ∃ body, b = t :: body ∧ ∀ k : Kind, k.tag ≠ t) ∧
      (∀ (k : Kind) (body : Bytes), b = k.tag :: body →
        dispatch b =
          match (k.fields.read.outcome (.ofBytes body)).1 with
          | .ok v => .ok (.ofBody k v)
          | .error e => .error (.malformedBody e)) ∧
      ∀ m, dispatch b = .ok m →
        ∃ body, b = m.tag :: body ∧
          (m.kind.fields.read.outcome (.ofBytes body)).1 = .ok m.body) ∧
    ∀ m : Message,
      (∀ w, m.kind.layout.append? m.body .empty = some w → w.bytes = m.encode) ∧
      ((∃ w, m.kind.layout.append? m.body .empty = some w) ↔ m.encode.length ≤ 2 ^ 62) ∧
      m.encode.head? = some m.tag ∧
      ((∀ t ∈ m.texts, (Text.encode t).length < 2 ^ 63) →
        ∀ s : Bytes, dispatch (m.encode ++ s) = .ok m) := by
  constructor
  · intro b
    refine ⟨dispatch_eq_empty_iff, fun t ↦ dispatch_eq_unknownTag_iff, ?_, ?_⟩
    · intro k body hb
      rw [hb]
      exact dispatch_tag k body
    · intro m hm
      exact dispatch_eq_ok_iff.mp hm
  · intro m
    refine ⟨?_, m.exists_append?_empty_iff, ?_, dispatch_encode_append m⟩
    · intro w hw
      rw [Layout.bytes_of_append? _ _ hw]
      rfl
    · rw [m.encode_eq_cons]
      rfl

/-- A position that is not a number, with bytes after the message. -/
theorem dispatch_exact_nan :
    let m : Message := .serverUpdate "é" "" ⟨⟨0x7FF0000000000001⟩, ⟨0x8000000000000000⟩⟩
    (∀ t ∈ m.texts, (Text.encode t).length < 2 ^ 63) ∧
      (∃ w, m.kind.layout.append? m.body .empty = some w ∧ w.bytes = m.encode) ∧
      dispatch (m.encode ++ [7, 7]) = .ok m := by
  intro m
  have hshort : ∀ t ∈ m.texts, (Text.encode t).length < 2 ^ 63 := by decide
  obtain ⟨hwritten, hgranted, -, hread⟩ := dispatch_exact.2 m
  obtain ⟨w, hw⟩ := hgranted.mpr (by decide +kernel)
  exact ⟨hshort, ⟨w, hw, hwritten w hw⟩, hread hshort [7, 7]⟩

end TaggedWire.Presence
