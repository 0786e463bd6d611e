import TaggedWire.Proofs.Reading

/-!
# Cutting and extending the input

A read that fails for want of input may fare better when more bytes follow. Every other verdict is
final: it depends only on the bytes that were looked at, and so does the position. The property is
stated for reads at any position and carried from the primitive reads to all layouts.
-/

namespace TaggedWire

namespace Cursor

def extend (c : Cursor) (s : Bytes) : Cursor := { c with buffer := c.buffer ++ s }

def Inside (c : Cursor) : Prop := c.pos ≤ c.buffer.length

theorem inside_ofBytes (bs : Bytes) : (ofBytes bs).Inside := Nat.zero_le _

theorem Inside.advance {c : Cursor} (hc : c.Inside) {k : Nat} (hk : k ≤ c.unread.length) :
    (c.advance k).Inside := by
  rw [length_unread, remaining] at hk
  change c.pos + k ≤ c.buffer.length
  change c.pos ≤ c.buffer.length at hc
  omega

theorem Inside.unread_extend {c : Cursor} (hc : c.Inside) (s : Bytes) :
    (c.extend s).unread = c.unread ++ s :=
  List.drop_append_of_le_length hc

theorem Inside.decode_extend {c : Cursor} (hc : c.Inside) {e : Fault}
    (h : Varint.decode c.unread = .error e) (he : e ≠ .truncatedInput) (s : Bytes) :
    Varint.decode (c.extend s).unread = .error e := by
  have hne : Varint.decode c.unread ≠ .error .truncatedInput := by
    rw [h]
    intro herror
    cases herror
    exact he rfl
  rw [hc.unread_extend s, Varint.decode_append hne s, h]

end Cursor

namespace ReadM

variable {α β : Type}

def final (x : ReadM α) (c : Cursor) : Cursor :=
  match x c with
  | .ok _ c' => c'
  | .error _ c' => c'

theorem final_of_ok {x : ReadM α} {c c' : Cursor} {v : α} (h : x c = .ok v c') :
    x.final c = c' := by
  rw [final, h]

theorem final_of_error {x : ReadM α} {c c' : Cursor} {e : Fault} (h : x c = .error e c') :
    x.final c = c' := by
  rw [final, h]

theorem final_bind_of_ok {x : ReadM α} {f : α → ReadM β} {c c' : Cursor} {a : α}
    (h : x c = .ok a c') : (x >>= f).final c = (f a).final c' := by
  rw [final, bind_ok h, final]

theorem outcome_snd (x : ReadM α) (c : Cursor) : (x.outcome c).2 = (x.final c).pos := by
  cases hx : x c with
  | ok v c' => rw [outcome_of_ok hx, final_of_ok hx]
  | error e c' => rw [outcome_of_error hx, final_of_error hx]

/-- The read moves forward inside the input. When bytes are added behind the input, a verdict other
than a want of input stays, with its position, and a read in want of input gets no less far. -/
structure Stable (x : ReadM α) : Prop where
  forward : ∀ c, ∃ k ≤ c.unread.length, x.final c = c.advance k
  ok : ∀ {c v c'}, c.Inside → x c = .ok v c' → ∀ s, x (c.extend s) = .ok v (c'.extend s)
  error : ∀ {c e c'}, c.Inside → x c = .error e c' → e ≠ .truncatedInput →
    ∀ s, x (c.extend s) = .error e (c'.extend s)
  waits : ∀ {c c'}, c.Inside → x c = .error .truncatedInput c' →
    ∀ s, c'.pos ≤ (x.final (c.extend s)).pos

theorem Stable.le_final {x : ReadM α} (hx : Stable x) (c : Cursor) :
    c.pos ≤ (x.final c).pos := by
  obtain ⟨k, -, hfinal⟩ := hx.forward c
  rw [hfinal]
  exact Nat.le_add_right c.pos k

theorem Stable.inside_of_ok {x : ReadM α} (hx : Stable x) {c c' : Cursor} {v : α}
    (hc : c.Inside) (h : x c = .ok v c') : c'.Inside := by
  obtain ⟨k, hk, hfinal⟩ := hx.forward c
  rw [final_of_ok h] at hfinal
  rw [hfinal]
  exact hc.advance hk

/-- A read that takes nothing when it fails is stable if its other faults are final. -/
theorem Accepts.stable {x : ReadM α} {form : α → Bytes → Prop} (hx : Accepts x form)
    (hatomic : ∀ {c e c'}, x c = .error e c' → c' = c)
    (herror : ∀ {c e c'}, c.Inside → x c = .error e c' → e ≠ .truncatedInput →
      ∀ s, x (c.extend s) = .error e (c.extend s)) : Stable x := by
  have hforward : ∀ c, ∃ k ≤ c.unread.length, x.final c = c.advance k := by
    intro c
    cases hread : x c with
    | ok v c' =>
        obtain ⟨g, -, hpre, rfl⟩ := (hx c v c').mp hread
        exact ⟨g.length, hpre.length_le, final_of_ok hread⟩
    | error e c' =>
        refine ⟨0, Nat.zero_le _, ?_⟩
        rw [final_of_error hread, hatomic hread, Cursor.advance_zero]
  refine ⟨hforward, ?_, ?_, ?_⟩
  · intro c v c' hc hread s
    obtain ⟨g, hg, hpre, rfl⟩ := (hx c v c').mp hread
    apply (hx _ v _).mpr
    rw [hc.unread_extend s]
    exact ⟨g, hg, hpre.trans (List.prefix_append _ s), rfl⟩
  · intro c e c' hc hread he s
    rw [hatomic hread]
    exact herror hc hread he s
  · intro c c' hc hread s
    obtain ⟨k, -, hfinal⟩ := hforward (c.extend s)
    rw [hatomic hread, hfinal]
    exact Nat.le_add_right c.pos k

theorem stable_scalar (t : Scalar) : Stable (scalar t) := by
  apply (accepts_scalar t).stable
  · intro c e c' hread
    exact (scalar_error hread).2
  · intro c e c' _ hread he
    exact absurd (scalar_error hread).1 he

theorem stable_varint : Stable varint := by
  apply accepts_varint.stable
  · intro c e c' hread
    exact (varint_error hread).1
  · intro c e c' hc hread he s
    rw [varint, hc.decode_extend (varint_error hread).2 he s]

theorem stable_bytes : Stable bytes := by
  apply accepts_bytes.stable
  · intro c e c' hread
    exact (bytes_error hread).1
  · intro c e c' hc hread he s
    obtain ⟨-, htrunc | hdecode⟩ := bytes_error hread
    · exact absurd htrunc he
    · rw [bytes, hc.decode_extend hdecode he s]

theorem stable_text : Stable text := by
  apply accepts_text.stable
  · intro c e c' hread
    exact (text_error hread).1
  · intro c e c' hc hread he s
    obtain ⟨-, hbytes | ⟨rfl, bs, c₁, hbytes, hdecode⟩⟩ := text_error hread
    · rw [text, stable_bytes.error hc hbytes he s]
    · rw [text, stable_bytes.ok hc hbytes s]
      dsimp only
      rw [hdecode]

theorem stable_pure (a : α) : Stable (pure a : ReadM α) := by
  apply (accepts_pure a).stable
  · intro c e c' hread
    cases hread
  · intro c e c' _ hread
    cases hread

theorem Stable.bind {x : ReadM α} {f : α → ReadM β} (hx : Stable x) (hf : ∀ a, Stable (f a)) :
    Stable (x >>= f) := by
  refine ⟨?_, ?_, ?_, ?_⟩
  · intro c
    obtain ⟨k, hk, hfinal⟩ := hx.forward c
    cases hread : x c with
    | error e c₁ =>
        rw [final_of_error hread] at hfinal
        exact ⟨k, hk, (final_of_error (bind_error hread)).trans hfinal⟩
    | ok a c₁ =>
        rw [final_of_ok hread] at hfinal
        obtain ⟨k', hk', hfinal'⟩ := (hf a).forward c₁
        rw [hfinal, Cursor.unread_advance, List.length_drop] at hk'
        refine ⟨k + k', by omega, ?_⟩
        rw [final_bind_of_ok hread, hfinal', hfinal, Cursor.advance_advance]
  · intro c b c' hc hread s
    obtain ⟨a, c₁, ha, hb⟩ := bind_eq_ok_iff.mp hread
    rw [bind_ok (hx.ok hc ha s)]
    exact (hf a).ok (hx.inside_of_ok hc ha) hb s
  · intro c e c' hc hread he s
    obtain ha | ⟨a, c₁, ha, hb⟩ := bind_eq_error_iff.mp hread
    · exact bind_error (hx.error hc ha he s)
    · rw [bind_ok (hx.ok hc ha s)]
      exact (hf a).error (hx.inside_of_ok hc ha) hb he s
  · intro c c' hc hread s
    obtain ha | ⟨a, c₁, ha, hb⟩ := bind_eq_error_iff.mp hread
    · -- The first read lacks input. If it gets through on the longer string, the second one only
      -- moves further on.
      have hle := hx.waits hc ha s
      cases hlong : x (c.extend s) with
      | error e c₁ =>
          rw [final_of_error hlong] at hle
          rw [final_of_error (bind_error hlong)]
          exact hle
      | ok a c₁ =>
          rw [final_of_ok hlong] at hle
          rw [final_bind_of_ok hlong]
          exact Nat.le_trans hle ((hf a).le_final c₁)
    · rw [final_bind_of_ok (hx.ok hc ha s)]
      exact (hf a).waits (hx.inside_of_ok hc ha) hb s

/-! ## Verdicts on cut and extended strings -/

theorem Stable.outcome_extend {x : ReadM α} (hx : Stable x) {c : Cursor} (hc : c.Inside)
    (h : (x.outcome c).1 ≠ .error .truncatedInput) (s : Bytes) :
    x.outcome (c.extend s) = x.outcome c := by
  cases hread : x c with
  | ok v c' =>
      rw [outcome_of_ok hread, outcome_of_ok (hx.ok hc hread s)]
      rfl
  | error e c' =>
      rw [outcome_of_error hread] at h
      have he : e ≠ .truncatedInput := fun he ↦ h (by rw [he])
      rw [outcome_of_error hread, outcome_of_error (hx.error hc hread he s)]
      rfl

theorem Stable.outcome_waits {x : ReadM α} (hx : Stable x) {c : Cursor} (hc : c.Inside)
    (h : (x.outcome c).1 = .error .truncatedInput) (s : Bytes) :
    (x.outcome c).2 ≤ (x.outcome (c.extend s)).2 := by
  cases hread : x c with
  | ok v c' =>
      rw [outcome_of_ok hread] at h
      cases h
  | error e c' =>
      rw [outcome_of_error hread] at h
      cases h
      rw [outcome_snd, outcome_snd, final_of_error hread]
      exact hx.waits hc hread s

/-- A read that succeeds behind the end of a shorter string wants input there. -/
theorem Stable.truncated_of_short {x : ReadM α} (hx : Stable x) {c c' : Cursor} {v : α} {s : Bytes}
    (hc : c.Inside) (h : x (c.extend s) = .ok v c') (hshort : c.buffer.length < c'.pos) :
    (x.outcome c).1 = .error .truncatedInput := by
  by_contra hne
  have hsame := hx.outcome_extend hc hne s
  rw [outcome_of_ok h] at hsame
  -- The verdict would be the one on the longer string, whose position lies beyond the end.
  obtain ⟨k, hk, hfinal⟩ := hx.forward c
  have hpos : c'.pos = c.pos + k := by
    have hsnd := outcome_snd x c
    rw [← hsame, hfinal] at hsnd
    exact hsnd
  change c.pos ≤ c.buffer.length at hc
  rw [Cursor.length_unread, Cursor.remaining] at hk
  omega

/-- A read that succeeds wants input on every string that stops before the end of the value. -/
theorem Stable.truncated_of_cut {x : ReadM α} (hx : Stable x) {b : Bytes} {v : α} {n m : Nat}
    (h : x.outcome (.ofBytes b) = (.ok v, n)) (hm : m < n) :
    (x.outcome (.ofBytes (b.take m))).1 = .error .truncatedInput := by
  obtain ⟨c, hread, rfl⟩ := outcome_eq_ok_iff.mp h
  have hwhole : (Cursor.ofBytes (b.take m)).extend (b.drop m) = .ofBytes b := by
    simp [Cursor.extend, Cursor.ofBytes]
  rw [← hwhole] at hread
  apply hx.truncated_of_short (Cursor.inside_ofBytes _) hread
  exact Nat.lt_of_le_of_lt (List.length_take_le m b) hm

theorem compositional_stable : Compositional fun _ x ↦ Stable x where
  scalar := stable_scalar
  text := stable_text
  bytes := stable_bytes
  pure := stable_pure
  bind := Stable.bind

end ReadM

theorem Layout.stable_read (l : Layout) : ReadM.Stable l.read :=
  l.read_of_compositional ReadM.compositional_stable

/-- Only a want of input depends on the bytes that follow, and every cut in a value that can be read
is a want of input. -/
theorem Layout.outcome_read_append (l : Layout) (b s : Bytes) :
    ((l.read.outcome (.ofBytes b)).1 ≠ .error .truncatedInput →
      l.read.outcome (.ofBytes (b ++ s)) = l.read.outcome (.ofBytes b)) ∧
    ((l.read.outcome (.ofBytes b)).1 = .error .truncatedInput →
      (l.read.outcome (.ofBytes b)).2 ≤ (l.read.outcome (.ofBytes (b ++ s))).2) ∧
    ∀ v n, l.read.outcome (.ofBytes b) = (.ok v, n) → ∀ m < n,
      (l.read.outcome (.ofBytes (b.take m))).1 = .error .truncatedInput := by
  have hl := l.stable_read
  have hb := Cursor.inside_ofBytes b
  refine ⟨?_, ?_, ?_⟩
  · intro h
    exact hl.outcome_extend hb h s
  · intro h
    exact hl.outcome_waits hb h s
  · intro v n h m hm
    exact hl.truncated_of_cut h hm

/-- A cut inside a character, behind a length with a leading zero. -/
theorem Layout.outcome_read_append_accent :
    Layout.text.read.outcome (.ofBytes [0x80, 0x02, 0xC3, 0xA9]) = (.ok "é", 4) ∧
      (Layout.text.read.outcome (.ofBytes [0x80, 0x02, 0xC3])).1 = .error .truncatedInput := by
  have hwhole : Layout.text.read.outcome (.ofBytes [0x80, 0x02, 0xC3, 0xA9]) = (.ok "é", 4) := by
    rfl
  exact ⟨hwhole, (Layout.outcome_read_append .text _ []).2.2 "é" 4 hwhole 3 (by decide)⟩

end TaggedWire
