import TaggedWire.Layout
import TaggedWire.Proofs.Numeral
import TaggedWire.Proofs.Scalar

/-!
# What reads accept

`ReadM.Accepts x form` says that the read `x` succeeds exactly on the byte strings that `form`
relates to its result, and moves past them. The primitive reads are described in this way, and so is
a read that is made of two. `ReadM.Compositional` collects what is needed to carry any other
property from the primitive reads to `Layout.read`.
-/

namespace TaggedWire

namespace Cursor

@[simp] theorem unread_ofBytes (bs : Bytes) : (ofBytes bs).unread = bs := rfl

@[simp] theorem unread_advance (c : Cursor) (n : Nat) : (c.advance n).unread = c.unread.drop n := by
  simp [unread, advance]

@[simp] theorem advance_zero (c : Cursor) : c.advance 0 = c := rfl

theorem advance_advance (c : Cursor) (m n : Nat) :
    (c.advance m).advance n = c.advance (m + n) := by
  simp [advance, Nat.add_assoc]

end Cursor

namespace Bytes

theorem append_isPrefix_iff {g h u : Bytes} : g ++ h <+: u ↔ g <+: u ∧ h <+: u.drop g.length := by
  constructor
  · intro h
    rcases h with ⟨t, rfl⟩
    rw [List.append_assoc, List.drop_left]
    exact ⟨List.prefix_append g _, List.prefix_append h t⟩
  · intro h
    rcases h with ⟨⟨t, rfl⟩, hh⟩
    rw [List.drop_left] at hh
    exact (List.prefix_append_right_inj g).mpr hh

end Bytes

theorem Text.decode?_encode (s : String) : Text.decode? (Text.encode s) = some s := by
  have hvalid : s.toByteArray.IsValidUTF8 := s.isValidUTF8
  rw [Text.decode?, Text.encode, Array.toArray_toList, String.toUTF8_eq_toByteArray,
    String.fromUTF8?, dif_pos hvalid]
  rfl

theorem Text.decode?_eq_some_iff {bs : Bytes} {s : String} :
    Text.decode? bs = some s ↔ bs = Text.encode s := by
  refine ⟨?_, fun h ↦ h ▸ Text.decode?_encode s⟩
  intro h
  rw [Text.decode?, String.fromUTF8?] at h
  split at h
  · cases h
    rfl
  · cases h

namespace ReadM

variable {α β : Type}

theorem bind_ok {x : ReadM α} {f : α → ReadM β} {c c' : Cursor} {a : α} (h : x c = .ok a c') :
    (x >>= f) c = f a c' := by
  simp only [bind, EStateM.bind, h]

theorem bind_error {x : ReadM α} {f : α → ReadM β} {c c' : Cursor} {e : Fault}
    (h : x c = .error e c') : (x >>= f) c = .error e c' := by
  simp only [bind, EStateM.bind, h]

theorem bind_eq_ok_iff {x : ReadM α} {f : α → ReadM β} {c c' : Cursor} {b : β} :
    (x >>= f) c = .ok b c' ↔ ∃ a c₁, x c = .ok a c₁ ∧ f a c₁ = .ok b c' := by
  cases hx : x c with
  | ok a c₁ => simp [bind_ok hx]
  | error e c₁ => simp [bind_error hx]

theorem bind_eq_error_iff {x : ReadM α} {f : α → ReadM β} {c c' : Cursor} {e : Fault} :
    (x >>= f) c = .error e c' ↔
      x c = .error e c' ∨ ∃ a c₁, x c = .ok a c₁ ∧ f a c₁ = .error e c' := by
  cases hx : x c with
  | ok a c₁ => simp [bind_ok hx]
  | error e c₁ => simp [bind_error hx]

/-- What a read returns, and the position at which it leaves the cursor. -/
def outcome (x : ReadM α) (c : Cursor) : Except Fault α × Nat :=
  match x c with
  | .ok v c' => (.ok v, c'.pos)
  | .error e c' => (.error e, c'.pos)

theorem outcome_of_ok {x : ReadM α} {c c' : Cursor} {v : α} (h : x c = .ok v c') :
    x.outcome c = (.ok v, c'.pos) := by
  rw [outcome, h]

theorem outcome_of_error {x : ReadM α} {c c' : Cursor} {e : Fault} (h : x c = .error e c') :
    x.outcome c = (.error e, c'.pos) := by
  rw [outcome, h]

theorem outcome_eq_ok_iff {x : ReadM α} {c : Cursor} {v : α} {n : Nat} :
    x.outcome c = (.ok v, n) ↔ ∃ c', x c = .ok v c' ∧ c'.pos = n := by
  cases hx : x c with
  | ok w c' => simp [outcome_of_ok hx]
  | error e c' => simp [outcome_of_error hx]

theorem outcome_fst_eq_error_iff {x : ReadM α} {c : Cursor} {e : Fault} :
    (x.outcome c).1 = .error e ↔ ∃ c', x c = .error e c' := by
  cases hx : x c with
  | ok w c' => simp [outcome_of_ok hx]
  | error e' c' => simp [outcome_of_error hx]

/-! ## Accepted strings -/

/-- The read succeeds exactly where one of the strings that belong to a result stands next, and
moves past that string. -/
def Accepts (x : ReadM α) (form : α → Bytes → Prop) : Prop :=
  ∀ c v c', x c = .ok v c' ↔ ∃ g, form v g ∧ g <+: c.unread ∧ c' = c.advance g.length

theorem Accepts.congr {x : ReadM α} {F G : α → Bytes → Prop} (hx : Accepts x F)
    (h : ∀ v g, F v g ↔ G v g) : Accepts x G := by
  intro c v c'
  rw [hx c v c']
  simp only [h]

theorem accepts_scalar (t : Scalar) : Accepts (scalar t) fun v g ↦ g = t.encode v := by
  intro c v c'
  simp only [exists_eq_left, ← Scalar.load?_eq_some_iff, Scalar.length_encode, scalar]
  cases hload : t.load? c.unread with
  | none => simp
  | some w => simp [eq_comm]

theorem accepts_varint : Accepts varint fun v g ↦ Varint.LengthPrefix v.toNat g := by
  intro c v c'
  rw [varint]
  cases hdecode : Varint.decode c.unread with
  | error e =>
      refine iff_of_false (by simp) ?_
      rintro ⟨g, hg, hpre, -⟩
      have hok := Varint.decode_eq_ok_iff_lengthPrefix.mpr ⟨g, hg, hpre, rfl⟩
      rw [hdecode] at hok
      cases hok
  | ok r =>
      obtain ⟨w, used⟩ := r
      constructor
      · intro h
        cases h
        obtain ⟨g, hg, hpre, rfl⟩ := Varint.decode_eq_ok_iff_lengthPrefix.mp hdecode
        exact ⟨g, hg, hpre, rfl⟩
      · rintro ⟨g, hg, hpre, rfl⟩
        have hok := Varint.decode_eq_ok_iff_lengthPrefix.mpr ⟨g, hg, hpre, rfl⟩
        rw [hdecode] at hok
        cases hok
        rfl

theorem accepts_bytes :
    Accepts bytes fun bs k ↦ ∃ g, Varint.LengthPrefix bs.length g ∧ k = g ++ bs := by
  intro c bs c'
  constructor
  · intro h
    rw [bytes] at h
    split at h
    · next n used hdecode =>
      obtain ⟨g, hg, hpre, rfl⟩ := Varint.decode_eq_ok_iff_lengthPrefix.mp hdecode
      dsimp only at h
      split at h
      · next hle =>
        cases h
        have hlength : ((c.unread.drop g.length).take n.toNat).length = n.toNat :=
          List.length_take_of_le hle
        refine ⟨g ++ (c.unread.drop g.length).take n.toNat, ⟨g, ?_, rfl⟩, ?_, ?_⟩
        · rw [hlength]
          exact hg
        · exact Bytes.append_isPrefix_iff.mpr ⟨hpre, List.take_prefix _ _⟩
        · rw [List.length_append, hlength]
      · cases h
    · cases h
  · intro h
    rcases h with ⟨_, ⟨g, hg, rfl⟩, hpre, rfl⟩
    obtain ⟨hgu, hbs⟩ := Bytes.append_isPrefix_iff.mp hpre
    have hword : (UInt64.ofNat bs.length).toNat = bs.length :=
      UInt64.toNat_ofNat_of_lt' (Varint.lengthPrefix_iff.mp hg).1
    have hdecode : Varint.decode c.unread = .ok (UInt64.ofNat bs.length, g.length) := by
      apply Varint.decode_eq_ok_iff_lengthPrefix.mpr
      rw [hword]
      exact ⟨g, hg, hgu, rfl⟩
    have htake : (c.unread.drop g.length).take bs.length = bs :=
      (List.prefix_iff_eq_take.mp hbs).symm
    simp only [bytes, hdecode, hword, if_pos hbs.length_le, htake, List.length_append]

theorem text_eq_ok_iff {c c' : Cursor} {s : String} :
    text c = .ok s c' ↔ bytes c = .ok (Text.encode s) c' := by
  rw [text]
  cases hbytes : bytes c with
  | error e c₁ => simp
  | ok bs c₁ =>
      dsimp only
      cases hdecode : Text.decode? bs with
      | none =>
          have hne : bs ≠ Text.encode s := by
            intro hbs
            rw [Text.decode?_eq_some_iff.mpr hbs] at hdecode
            cases hdecode
          simp [hne]
      | some s' =>
          obtain rfl := Text.decode?_eq_some_iff.mp hdecode
          have hinj : Text.encode s' = Text.encode s ↔ s' = s := by
            rw [← Text.decode?_eq_some_iff, hdecode, Option.some_inj]
          simp [hinj]

theorem accepts_text :
    Accepts text fun s k ↦
      ∃ g, Varint.LengthPrefix (Text.encode s).length g ∧ k = g ++ Text.encode s := by
  intro c s c'
  rw [text_eq_ok_iff]
  exact accepts_bytes c (Text.encode s) c'

theorem accepts_pure (a : α) : Accepts (pure a) fun v k ↦ v = a ∧ k = [] := by
  intro c v c'
  constructor
  · intro h
    cases h
    exact ⟨[], ⟨rfl, rfl⟩, List.nil_prefix, rfl⟩
  · intro h
    rcases h with ⟨_, ⟨rfl, rfl⟩, -, rfl⟩
    rfl

theorem Accepts.pair {x : ReadM α} {y : ReadM β} {F : α → Bytes → Prop} {G : β → Bytes → Prop}
    (hx : Accepts x F) (hy : Accepts y G) :
    Accepts (do let v ← x; let w ← y; return (v, w)) fun p k ↦
      ∃ g h, F p.1 g ∧ G p.2 h ∧ k = g ++ h := by
  intro c p c'
  constructor
  · intro hread
    obtain ⟨v, c₁, hv, hrest⟩ := bind_eq_ok_iff.mp hread
    obtain ⟨w, c₂, hw, hpure⟩ := bind_eq_ok_iff.mp hrest
    cases hpure
    obtain ⟨g, hg, hpre, rfl⟩ := (hx c v c₁).mp hv
    obtain ⟨h, hh, hpre', rfl⟩ := (hy _ w c').mp hw
    rw [Cursor.unread_advance] at hpre'
    refine ⟨g ++ h, ⟨g, h, hg, hh, rfl⟩, Bytes.append_isPrefix_iff.mpr ⟨hpre, hpre'⟩, ?_⟩
    rw [Cursor.advance_advance, List.length_append]
  · intro h
    rcases h with ⟨_, ⟨g, h, hg, hh, rfl⟩, hpre, rfl⟩
    obtain ⟨hgu, hhu⟩ := Bytes.append_isPrefix_iff.mp hpre
    rw [← Cursor.unread_advance] at hhu
    have hfst := (hx c p.1 _).mpr ⟨g, hg, hgu, rfl⟩
    have hsnd := (hy _ p.2 _).mpr ⟨h, hh, hhu, rfl⟩
    rw [bind_ok hfst, bind_ok hsnd, Cursor.advance_advance, List.length_append]
    rfl

/-! ## Primitive reads that fail -/

theorem scalar_error {t : Scalar} {c c' : Cursor} {e : Fault} (h : scalar t c = .error e c') :
    e = .truncatedInput ∧ c' = c := by
  rw [scalar] at h
  split at h
  · cases h
  · cases h
    exact ⟨rfl, rfl⟩

theorem varint_error {c c' : Cursor} {e : Fault} (h : varint c = .error e c') :
    c' = c ∧ Varint.decode c.unread = .error e := by
  rw [varint] at h
  split at h
  · cases h
  · next hdecode =>
    cases h
    exact ⟨rfl, hdecode⟩

theorem bytes_error {c c' : Cursor} {e : Fault} (h : bytes c = .error e c') :
    c' = c ∧ (e = .truncatedInput ∨ Varint.decode c.unread = .error e) := by
  rw [bytes] at h
  split at h
  · dsimp only at h
    split at h
    · cases h
    · cases h
      exact ⟨rfl, .inl rfl⟩
  · next hdecode =>
    cases h
    exact ⟨rfl, .inr hdecode⟩

theorem text_error {c c' : Cursor} {e : Fault} (h : text c = .error e c') :
    c' = c ∧ (bytes c = .error e c ∨
      e = .invalidUtf8 ∧ ∃ bs c₁, bytes c = .ok bs c₁ ∧ Text.decode? bs = none) := by
  rw [text] at h
  cases hbytes : bytes c with
  | error e' c₁ =>
      rw [hbytes] at h
      cases h
      obtain ⟨rfl, -⟩ := bytes_error hbytes
      exact ⟨rfl, .inl rfl⟩
  | ok bs c₁ =>
      rw [hbytes] at h
      dsimp only at h
      split at h
      · cases h
      · next hdecode =>
        cases h
        exact ⟨rfl, .inr ⟨rfl, bs, c₁, rfl, hdecode⟩⟩

/-! ## Properties of all reads -/

/-- A property that holds of the primitive reads and is kept by composition. -/
structure Compositional (P : ∀ α : Type, ReadM α → Prop) : Prop where
  scalar : ∀ t, P _ (scalar t)
  text : P _ text
  bytes : P _ bytes
  pure : ∀ {α : Type} (a : α), P α (pure a)
  bind : ∀ {α β : Type} {x : ReadM α} {f : α → ReadM β},
    P α x → (∀ a, P β (f a)) → P β (x >>= f)

end ReadM

variable {P : ∀ α : Type, ReadM α → Prop}

mutual
theorem Layout.read_of_compositional (hP : ReadM.Compositional P) : (l : Layout) → P _ l.read
  | .scalar t => by
      rw [Layout.read]
      exact hP.scalar t
  | .text => by
      rw [Layout.read]
      exact hP.text
  | .bytes => by
      rw [Layout.read]
      exact hP.bytes
  | .record fs => by
      rw [Layout.read]
      exact Fields.read_of_compositional hP fs
  | .message _ fs => by
      rw [Layout.read]
      exact Fields.read_of_compositional hP fs

theorem Fields.read_of_compositional (hP : ReadM.Compositional P) : (fs : Fields) → P _ fs.read
  | .nil => by
      rw [Fields.read]
      exact hP.pure ()
  | .cons _ l fs => by
      rw [Fields.read]
      apply hP.bind (Layout.read_of_compositional hP l)
      intro v
      apply hP.bind (Fields.read_of_compositional hP fs)
      intro vs
      exact hP.pure (v, vs)
end

theorem Layout.decode_eq_outcome (l : Layout) (bs : Bytes) :
    l.decode bs = (l.read.outcome (.ofBytes bs)).1 := by
  rw [Layout.decode]
  cases hread : l.read (.ofBytes bs) with
  | ok v c => rw [ReadM.outcome_of_ok hread]
  | error e c => rw [ReadM.outcome_of_error hread]

end TaggedWire
