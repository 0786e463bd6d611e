import Mathlib.Algebra.GroupWithZero.Nat
import Mathlib.Algebra.Order.BigOperators.Group.List
import Mathlib.Algebra.Order.Group.Nat
import Mathlib.Tactic.TFAE
import TaggedWire.Proofs.Leaves

/-!
# Writing again what was read

A value that was read is written again with the shortest length prefixes. What this saves is the
marked zeros in front of the lengths, byte for byte, and nothing else changes: the value is written
as it was read exactly if there were none.
-/

namespace TaggedWire

namespace Varint

/-- The number of marked zeros at the start. -/
def padding (g : Bytes) : Nat := (g.takeWhile (· == 0x80)).length

theorem padding_eq_zero_iff {g : Bytes} : padding g = 0 ↔ g.head? ≠ some 0x80 := by
  cases g with
  | nil => simp [padding]
  | cons d ds =>
      by_cases hd : d = 0x80
      · simp [padding, hd]
      · simp [padding, hd]

theorem padding_replicate_append {g : Bytes} (hg : padding g = 0) (j : Nat) :
    padding (List.replicate j 0x80 ++ g) = j := by
  induction j with
  | zero => exact hg
  | succ j ih => simpa [padding, List.replicate_succ] using ih

theorem padding_digits (n : Nat) : padding (digits n) = 0 := by
  apply padding_eq_zero_iff.mpr
  intro h
  obtain ⟨ds, hds⟩ := List.head?_eq_some_iff.mp h
  exact digits_ne_cons n ds hds

/-- A length prefix is its marked zeros and the digits of the length. -/
theorem LengthPrefix.eq_padding_append {n : Nat} {g : Bytes} (h : LengthPrefix n g) :
    g = List.replicate (padding g) 0x80 ++ digits n ∧ padding g ≤ 9 := by
  cases h with
  | @padded j ds hword hds hlength =>
      obtain rfl := minimal_iff.mp hds
      have hpos := (numeral_digits n).length_pos
      rw [padding_replicate_append (padding_digits n)]
      refine ⟨rfl, ?_⟩
      rw [maxDigits] at hlength
      omega

/-- No length prefix is the beginning of another one. -/
theorem LengthPrefix.eq_of_append_eq {n m : Nat} {p q s t : Bytes} (hp : LengthPrefix n p)
    (hq : LengthPrefix m q) (h : p ++ s = q ++ t) : p = q := by
  have hdecode : ∀ {k r u}, LengthPrefix k r →
      decode (r ++ u) = .ok (UInt64.ofNat k, r.length) := by
    intro k r u hr
    apply decode_eq_ok_iff_lengthPrefix.mpr
    rw [UInt64.toNat_ofNat_of_lt' (lengthPrefix_iff.mp hr).1]
    exact ⟨r, hr, List.prefix_append r u, rfl⟩
  have hsame := hdecode hp (u := s)
  rw [h, hdecode hq] at hsame
  have hlength : q.length = p.length := (Prod.mk.inj (Except.ok.inj hsame)).2
  exact List.append_inj_left h hlength.symm

end Varint

theorem Bytes.append_eq_padding_append_encode {bs p : Bytes}
    (hp : Varint.LengthPrefix bs.length p) :
    p ++ bs = List.replicate (Varint.padding p) 0x80 ++ bs.encode := by
  have hword := (Varint.lengthPrefix_iff.mp hp).1
  have hdigits : Varint.encode (UInt64.ofNat bs.length) = Varint.digits bs.length := by
    rw [Varint.encode_eq_digits, UInt64.toNat_ofNat_of_lt' hword]
  rw [Bytes.encode, hdigits, ← List.append_assoc, ← hp.eq_padding_append.1]

namespace Leaf.Spelled

variable {ls : List Leaf} {ps qs : List Bytes} {g : Bytes}

theorem unique (h : Spelled ls ps g) (h' : Spelled ls qs g) : ps = qs := by
  induction h generalizing qs with
  | nil => exact (spelled_nil_iff.mp h').1.symm
  | scalar t v _ ih =>
      obtain ⟨g', hrest, hg⟩ := spelled_scalar_cons_iff.mp h'
      rw [List.append_cancel_left hg] at ih
      exact ih hrest
  | payload hp _ ih =>
      obtain ⟨p', qs, g', hp', hrest, rfl, hg⟩ := spelled_payload_cons_iff.mp h'
      rw [List.append_assoc, List.append_assoc] at hg
      obtain rfl := hp.eq_of_append_eq hp' hg
      rw [List.append_cancel_left (List.append_cancel_left hg)] at ih
      rw [ih hrest]

/-- A spelling is longer than the usual one by the marked zeros in its length prefixes. -/
theorem length_eq (h : Spelled ls ps g) :
    g.length = (ls.flatMap Leaf.encode).length + (ps.map Varint.padding).sum := by
  induction h with
  | nil => rfl
  | scalar t v _ ih =>
      simp only [List.flatMap_cons, Leaf.encode, List.length_append, ih]
      omega
  | payload hp _ ih =>
      have hleaf := congrArg List.length (Bytes.append_eq_padding_append_encode hp)
      rw [List.length_append, List.length_append, List.length_replicate] at hleaf
      simp only [List.flatMap_cons, Leaf.encode, List.length_append, List.map_cons,
        List.sum_cons, ih]
      omega

theorem eq_encode (h : Spelled ls ps g) (hps : ∀ p ∈ ps, Varint.padding p = 0) :
    g = ls.flatMap Leaf.encode := by
  induction h with
  | nil => rfl
  | scalar t v _ ih => rw [List.flatMap_cons, Leaf.encode, ← ih hps]
  | payload hp _ ih =>
      obtain ⟨hzero, hps⟩ := List.forall_mem_cons.mp hps
      rw [List.flatMap_cons, Leaf.encode, ← ih hps, Bytes.append_eq_padding_append_encode hp, hzero]
      rfl

theorem encode (h : Spelled ls ps g) : ∃ qs, Spelled ls qs (ls.flatMap Leaf.encode) := by
  induction h with
  | nil => exact ⟨[], .nil⟩
  | scalar t v _ ih =>
      obtain ⟨qs, hqs⟩ := ih
      exact ⟨qs, .scalar t v hqs⟩
  | payload hp _ ih =>
      obtain ⟨qs, hqs⟩ := ih
      have hword := (Varint.lengthPrefix_iff.mp hp).1
      exact ⟨_ :: qs, .payload (Varint.lengthPrefix_encode hword) hqs⟩

theorem forall_eq_padding_append (h : Spelled ls ps g) :
    ∀ p ∈ ps, Varint.padding p ≤ 9 ∧
      ∃ n ds, Varint.Minimal n ds ∧ p = List.replicate (Varint.padding p) 0x80 ++ ds := by
  induction h with
  | nil => simp
  | scalar t v _ ih => exact ih
  | payload hp _ ih =>
      obtain ⟨heq, hle⟩ := hp.eq_padding_append
      exact List.forall_mem_cons.mpr
        ⟨⟨hle, _, _, Varint.minimal_iff.mpr rfl, heq⟩, ih⟩

end Leaf.Spelled

/-- A value that was read is written again in no more bytes. The bytes that are saved are the marked
zeros in front of the lengths, the string stays as it is exactly if there are none, and what is
written reads as the same value. -/
theorem Layout.encode_of_outcome_read (l : Layout) (hl : l.untagged.messageFree) (b : Bytes)
    (v : l.Value) (n : Nat) (h : l.read.outcome (.ofBytes b) = (.ok v, n)) :
    ∃ (E : Bytes) (ps : List Bytes), l.encode v = l.tag?.toList ++ E ∧
      (∀ qs, Leaf.Spelled (l.leaves v) qs (b.take n) ↔ qs = ps) ∧
      E.length ≤ n ∧
      n - E.length = (ps.map Varint.padding).sum ∧
      (∀ p ∈ ps, Varint.padding p ≤ 9 ∧
        ∃ m ds, Varint.Minimal m ds ∧ p = List.replicate (Varint.padding p) 0x80 ++ ds) ∧
      [E = b.take n, E.length = n, ∀ p ∈ ps, p.head? ≠ some 0x80].TFAE ∧
      l.read.outcome (.ofBytes E) = (.ok v, E.length) := by
  obtain ⟨c, hread, rfl⟩ := ReadM.outcome_eq_ok_iff.mp h
  obtain ⟨g, hg, hpre, rfl⟩ := (l.accepts_read _ v c).mp hread
  have hpos : ((Cursor.ofBytes b).advance g.length).pos = g.length := Nat.zero_add _
  rw [Cursor.unread_ofBytes] at hpre
  rw [hpos, ← List.prefix_iff_eq_take.mp hpre]
  obtain ⟨ps, hps⟩ := (l.wireForm_iff_spelled v g).mp hg
  have hlength := hps.length_eq
  refine ⟨(l.leaves v).flatMap Leaf.encode, ps, l.encode_eq_tag_append_leaves hl v, ?_, ?_, ?_, ?_,
    ?_, ?_⟩
  · intro qs
    constructor
    · intro hqs
      exact hqs.unique hps
    · rintro rfl
      exact hps
  · omega
  · omega
  · exact hps.forall_eq_padding_append
  · tfae_have 1 → 2 := by
      intro hE
      rw [hE]
    tfae_have 2 → 3 := by
      intro hE p hp
      have hsum : (ps.map Varint.padding).sum = 0 := by omega
      have hle := List.le_sum_of_mem (List.mem_map_of_mem hp (f := Varint.padding))
      apply Varint.padding_eq_zero_iff.mp
      omega
    tfae_have 3 → 1 := by
      intro hhead
      symm
      apply hps.eq_encode
      intro p hp
      exact Varint.padding_eq_zero_iff.mpr (hhead p hp)
    tfae_finish
  · obtain ⟨qs, hqs⟩ := hps.encode
    have hE := (l.wireForm_iff_spelled v _).mpr ⟨qs, hqs⟩
    have hback := ReadM.outcome_of_ok (Layout.read_of_wireForm hE [] [])
    simpa [Cursor.ofBytes] using hback

/-- A length with two leading zeros in front of a text of two bytes. -/
theorem Layout.encode_of_outcome_read_accent :
    let l : Layout := .message 9 <| .cons "name" .text <| .cons "age" (.scalar .uint8) .nil
    let v : l.Value := ("é", 7, ())
    (l.untagged.messageFree ∧
        l.read.outcome (.ofBytes [0x80, 0x80, 2, 0xC3, 0xA9, 7, 99]) = (.ok v, 6)) ∧
      ∃ (E : Bytes) (ps : List Bytes), l.encode v = 9 :: E ∧
        6 - E.length = (ps.map Varint.padding).sum ∧
        l.read.outcome (.ofBytes E) = (.ok v, E.length) := by
  intro l v
  have hfree : l.untagged.messageFree := rfl
  have hread : l.read.outcome (.ofBytes [0x80, 0x80, 2, 0xC3, 0xA9, 7, 99]) = (.ok v, 6) := rfl
  obtain ⟨E, ps, hencode, -, -, hsaved, -, -, hback⟩ :=
    l.encode_of_outcome_read hfree _ v 6 hread
  exact ⟨⟨hfree, hread⟩, E, ps, hencode, hsaved, hback⟩

end TaggedWire
