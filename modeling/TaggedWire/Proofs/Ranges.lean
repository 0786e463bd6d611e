import TaggedWire.Proofs.Leafwise

/-!
# Reading with sizes that can go out of range

Positions and lengths are words of 64 bits, and a length on the wire may be any of them. The reads
of this module compute with such words step by step: a sum beyond the largest word, a difference
below zero and a slice that does not lie in its string give nothing at all, which no read may do. On
every string that fits a word and from every position in it they give what the plain reads give.
-/

namespace TaggedWire

namespace Size

def add? (m n : Nat) : Option Nat := if m + n ≤ largest then some (m + n) else none

def sub? (m n : Nat) : Option Nat := if n ≤ m then some (m - n) else none

theorem add?_of_le {m n : Nat} (h : m + n ≤ largest) : add? m n = some (m + n) := if_pos h

theorem sub?_of_le {m n : Nat} (h : n ≤ m) : sub? m n = some (m - n) := if_pos h

end Size

namespace Varint

/-- The digits that follow `used` others, with the word and the count kept in range. -/
def decodeFrom? (used : Nat) (acc : UInt64) : Bytes → Option (Except Fault (UInt64 × Nat))
  | [] => some (.error .truncatedInput)
  | b :: bs =>
      if maxDigits ≤ used ∨ maxLeading < acc then
        some (.error .varintOverflow)
      else
        (Size.add? (acc.toNat * 128) (b.toNat % 128)).bind fun acc ↦
          (Size.add? used 1).bind fun used ↦
            if b < 128 then some (.ok (UInt64.ofNat acc, used))
            else decodeFrom? used (UInt64.ofNat acc) bs

def decode? (bs : Bytes) : Option (Except Fault (UInt64 × Nat)) := decodeFrom? 0 0 bs

theorem decodeFrom?_eq_some (used : Nat) (acc : UInt64) (bs : Bytes) :
    decodeFrom? used acc bs = some (decodeFrom used acc bs) := by
  induction bs generalizing used acc with
  | nil => rfl
  | cons b bs ih =>
      rw [decodeFrom?, decodeFrom]
      split
      · rfl
      · next hguard =>
        obtain ⟨hused, hacc⟩ := not_or.mp hguard
        have hstep := toNat_mul_add_digit hacc b
        have hword := UInt64.toNat_lt (acc * 128 + UInt64.ofNat (b.toNat % 128))
        have hsum : acc.toNat * 128 + b.toNat % 128 ≤ Size.largest := by
          rw [Size.largest]
          omega
        have hcount : used + 1 ≤ Size.largest := by
          rw [maxDigits] at hused
          rw [Size.largest]
          omega
        rw [Size.add?_of_le hsum, Option.bind_some, Size.add?_of_le hcount, Option.bind_some,
          ← hstep, UInt64.ofNat_toNat, ih]
        dsimp only
        split <;> rfl

theorem decode?_eq_some (bs : Bytes) : decode? bs = some (decode bs) :=
  decodeFrom?_eq_some 0 0 bs

theorem used_le_length {bs : Bytes} {v : UInt64} {used : Nat} (h : decode bs = .ok (v, used)) :
    used ≤ bs.length := by
  obtain ⟨ds, -, hpre, rfl, -⟩ := decode_eq_ok_iff.mp h
  exact hpre.length_le

end Varint

namespace Cursor

/-- The position lies in a string whose length is a word. -/
structure InRange (c : Cursor) : Prop where
  inside : c.Inside
  length_le : c.buffer.length ≤ Size.largest

def remaining? (c : Cursor) : Option Nat := Size.sub? c.buffer.length c.pos

def unread? (c : Cursor) : Option Bytes := c.buffer.slice? c.pos c.buffer.length

def advance? (c : Cursor) (n : Nat) : Option Cursor :=
  (Size.add? c.pos n).map fun pos ↦ { c with pos }

namespace InRange

variable {c : Cursor}

theorem remaining? (hc : c.InRange) : c.remaining? = some c.remaining :=
  Size.sub?_of_le hc.inside

theorem unread? (hc : c.InRange) : c.unread? = some c.unread := by
  rw [Cursor.unread?, Bytes.slice?_of_le hc.inside (Nat.le_refl _), ← List.length_drop,
    List.take_length]
  rfl

theorem advance (hc : c.InRange) {n : Nat} (hn : n ≤ c.unread.length) : (c.advance n).InRange :=
  ⟨hc.inside.advance hn, hc.length_le⟩

theorem advance? (hc : c.InRange) {n : Nat} (hn : n ≤ c.unread.length) :
    c.advance? n = some (c.advance n) := by
  have hinside : c.pos + n ≤ c.buffer.length := hc.inside.advance hn
  rw [Cursor.advance?, Size.add?_of_le (Nat.le_trans hinside hc.length_le)]
  rfl

end InRange

end Cursor

/-! ## Primitive reads -/

namespace ReadM

variable {α : Type}

/-- What a read gives: a value or a fault, and the cursor after it. -/
abbrev Result (α : Type) := EStateM.Result Fault Cursor α

def scalar? (t : Scalar) (c : Cursor) : Option (Result t.Value) := do
  if (← c.remaining?) < t.size then
    return .error .truncatedInput c
  else
    let v ← t.load? (← c.unread?)
    return .ok v (← c.advance? t.size)

def varint? (c : Cursor) : Option (Result UInt64) := do
  match ← Varint.decode? (← c.unread?) with
  | .ok (v, used) => return .ok v (← c.advance? used)
  | .error e => return .error e c

/-- The room behind the length is computed before the end of the payload, which may be out of range
unless the payload fits. -/
def bytes? (c : Cursor) : Option (Result Bytes) := do
  match ← Varint.decode? (← c.unread?) with
  | .ok (n, used) =>
      let start ← Size.add? c.pos used
      if (← Size.sub? c.buffer.length start) < n.toNat then
        return .error .truncatedInput c
      else
        let stop ← Size.add? start n.toNat
        return .ok (← c.buffer.slice? start stop) { c with pos := stop }
  | .error e => return .error e c

/-- The position is moved by the payload and put back if that is no text. -/
def text? (c : Cursor) : Option (Result String) := do
  match ← bytes? c with
  | .ok bs c' =>
      match Text.decode? bs with
      | some s => return .ok s c'
      | none => return .error .invalidUtf8 { c' with pos := c.pos }
  | .error e c' => return .error e c'

variable {c : Cursor}

theorem scalar?_eq_some (hc : c.InRange) (t : Scalar) : scalar? t c = some (scalar t c) := by
  simp only [scalar?, scalar, hc.remaining?, hc.unread?, Option.bind_eq_bind, Option.bind_some]
  by_cases hroom : t.size ≤ c.unread.length
  · have hnot : ¬c.remaining < t.size := by
      rw [← c.length_unread]
      omega
    rw [if_neg hnot, hc.advance? hroom, Scalar.load?, if_pos hroom]
    rfl
  · have hlt : c.remaining < t.size := by
      rw [← c.length_unread]
      omega
    rw [if_pos hlt, Scalar.load?, if_neg hroom]
    rfl

theorem varint?_eq_some (hc : c.InRange) : varint? c = some (varint c) := by
  simp only [varint?, varint, hc.unread?, Varint.decode?_eq_some, Option.bind_eq_bind,
    Option.bind_some]
  cases hdecode : Varint.decode c.unread with
  | error e => rfl
  | ok r =>
      obtain ⟨v, used⟩ := r
      dsimp only
      rw [hc.advance? (Varint.used_le_length hdecode)]
      rfl

theorem bytes?_eq_some (hc : c.InRange) : bytes? c = some (bytes c) := by
  simp only [bytes?, bytes, hc.unread?, Varint.decode?_eq_some, Option.bind_eq_bind,
    Option.bind_some]
  cases hdecode : Varint.decode c.unread with
  | error e => rfl
  | ok r =>
      obtain ⟨n, used⟩ := r
      have hused := Varint.used_le_length hdecode
      have hstart : c.pos + used ≤ c.buffer.length := hc.inside.advance hused
      have hlargest := hc.length_le
      have hrest : (c.unread.drop used).length = c.buffer.length - (c.pos + used) := by
        rw [List.length_drop, c.length_unread, Cursor.remaining]
        omega
      dsimp only
      rw [Size.add?_of_le (by omega), Option.bind_some, Size.sub?_of_le hstart, Option.bind_some,
        hrest]
      by_cases hfit : n.toNat ≤ c.buffer.length - (c.pos + used)
      · have hstop : c.pos + used + n.toNat ≤ c.buffer.length := by omega
        rw [if_neg (by omega), if_pos hfit, Size.add?_of_le (by omega), Option.bind_some,
          Bytes.slice?_of_le (Nat.le_add_right _ _) hstop, Nat.add_sub_cancel_left,
          ← List.drop_drop, Nat.add_assoc]
        rfl
      · rw [if_pos (by omega), if_neg hfit]
        rfl

theorem text?_eq_some (hc : c.InRange) : text? c = some (text c) := by
  simp only [text?, text, bytes?_eq_some hc, Option.bind_eq_bind, Option.bind_some]
  cases hbytes : bytes c with
  | error e c' => rfl
  | ok bs c' =>
      obtain ⟨g, -, -, rfl⟩ := (accepts_bytes c bs c').mp hbytes
      dsimp only
      cases Text.decode? bs <;> rfl

end ReadM

/-! ## Layouts -/

mutual
/-- Reads field by field, as long as no size leaves the range. -/
def Layout.read? : (l : Layout) → Cursor → Option (ReadM.Result l.Value)
  | .scalar t, c => ReadM.scalar? t c
  | .text, c => ReadM.text? c
  | .bytes, c => ReadM.bytes? c
  | .record fs, c => fs.read? c
  | .message _ fs, c => fs.read? c

@[inherit_doc Layout.read?]
def Fields.read? : (fs : Fields) → Cursor → Option (ReadM.Result fs.Values)
  | .nil, c => some (.ok () c)
  | .cons _ l fs, c => do
      match ← l.read? c with
      | .ok v c₁ =>
          match ← fs.read? c₁ with
          | .ok vs c₂ => return .ok (v, vs) c₂
          | .error e c₂ => return .error e c₂
      | .error e c₁ => return .error e c₁
end

theorem ReadM.Stable.inRange_final {α : Type} {x : ReadM α} (hx : Stable x) {c : Cursor}
    (hc : c.InRange) : (x.final c).InRange := by
  obtain ⟨k, hk, hfinal⟩ := hx.forward c
  rw [hfinal]
  exact hc.advance hk

mutual
theorem Layout.read?_eq_some : (l : Layout) → {c : Cursor} → c.InRange →
    l.read? c = some (l.read c)
  | .scalar t, c, hc => by
      rw [Layout.read?, Layout.read]
      exact ReadM.scalar?_eq_some hc t
  | .text, c, hc => by
      rw [Layout.read?, Layout.read]
      exact ReadM.text?_eq_some hc
  | .bytes, c, hc => by
      rw [Layout.read?, Layout.read]
      exact ReadM.bytes?_eq_some hc
  | .record fs, c, hc => by
      rw [Layout.read?, Layout.read]
      exact Fields.read?_eq_some fs hc
  | .message _ fs, c, hc => by
      rw [Layout.read?, Layout.read]
      exact Fields.read?_eq_some fs hc

theorem Fields.read?_eq_some : (fs : Fields) → {c : Cursor} → c.InRange →
    fs.read? c = some (fs.read c)
  | .nil, c, _ => by
      rw [Fields.read?, Fields.read]
      rfl
  | .cons _ l fs, c, hc => by
      rw [Fields.read?, Fields.read, Layout.read?_eq_some l hc, Option.bind_eq_bind,
        Option.bind_some]
      cases hv : l.read c with
      | error e c₁ => rw [ReadM.bind_error hv]; rfl
      | ok v c₁ =>
          -- The next field begins where this one ends, which is in range again.
          have hc₁ := l.stable_read.inRange_final hc
          rw [ReadM.final_of_ok hv] at hc₁
          dsimp only
          rw [ReadM.bind_ok hv, Fields.read?_eq_some fs hc₁, Option.bind_eq_bind, Option.bind_some]
          cases hvs : fs.read c₁ with
          | error e c₂ => rw [ReadM.bind_error hvs]; rfl
          | ok vs c₂ => rw [ReadM.bind_ok hvs]; rfl
end

end TaggedWire
