import Mathlib.Order.Bounds.Defs
import TaggedWire.Proofs.Cells
import TaggedWire.Proofs.Truncation
import TaggedWire.Specimen

/-!
# Reading leaf by leaf

`Cell.Reads` performs the primitive reads of a row of cells one after the other. Reading a layout is
reading the cells of its values, however they are nested: it succeeds where all of them can be read,
and otherwise ends with the fault of the first that cannot, standing before it. On a string that is
cut, it therefore stands at the last end of a leaf before the cut.
-/

namespace TaggedWire

namespace Primitive

def read : (k : Primitive) → ReadM k.Value
  | scalar t => ReadM.scalar t
  | text => ReadM.text
  | bytes => ReadM.bytes

/-- The strings that are read as a value. -/
def Form : (k : Primitive) → k.Value → Bytes → Prop
  | scalar t, v, g => g = t.encode v
  | text, s, g => ∃ p, Varint.LengthPrefix (Text.encode s).length p ∧ g = p ++ Text.encode s
  | bytes, bs, g => ∃ p, Varint.LengthPrefix bs.length p ∧ g = p ++ bs

def payloads : (k : Primitive) → k.Value → List Bytes
  | scalar _, _ => []
  | text, s => [Text.encode s]
  | bytes, bs => [bs]

theorem accepts_read (k : Primitive) : ReadM.Accepts k.read k.Form := by
  cases k with
  | scalar t => exact ReadM.accepts_scalar t
  | text => exact ReadM.accepts_text
  | bytes => exact ReadM.accepts_bytes

theorem stable_read (k : Primitive) : ReadM.Stable k.read := by
  cases k with
  | scalar t => exact ReadM.stable_scalar t
  | text => exact ReadM.stable_text
  | bytes => exact ReadM.stable_bytes

theorem read_error {k : Primitive} {c c' : Cursor} {e : Fault} (h : k.read c = .error e c') :
    c' = c := by
  cases k with
  | scalar t => exact (ReadM.scalar_error h).2
  | text => exact (ReadM.text_error h).1
  | bytes => exact (ReadM.bytes_error h).1

theorem form_encode (k : Primitive) (v : k.Value) (hv : ∀ q ∈ k.payloads v, q.length < 2 ^ 63) :
    k.Form v (k.encode v) := by
  cases k with
  | scalar t => rfl
  | text =>
      have hshort := hv _ (List.mem_singleton_self _)
      exact ⟨_, Varint.lengthPrefix_encode (by omega), rfl⟩
  | bytes =>
      have hshort := hv _ (List.mem_singleton_self _)
      exact ⟨_, Varint.lengthPrefix_encode (by omega), rfl⟩

theorem Form.length_pos {k : Primitive} {v : k.Value} {g : Bytes} (h : k.Form v g) :
    0 < g.length := by
  cases k with
  | scalar t =>
      rw [show g = t.encode v from h, Scalar.length_encode]
      exact t.size_pos
  | text =>
      obtain ⟨p, hp, rfl⟩ := h
      rw [List.length_append]
      exact Nat.add_pos_left hp.length_pos _
  | bytes =>
      obtain ⟨p, hp, rfl⟩ := h
      rw [List.length_append]
      exact Nat.add_pos_left hp.length_pos _

/-- On a shorter string a read that succeeds either fits, and then nothing changes, or wants input
and takes nothing. -/
theorem read_of_read_extend {k : Primitive} {c c' : Cursor} {s : Bytes} {v : k.Value}
    (hc : c.Inside) (h : k.read (c.extend s) = .ok v c') :
    (∃ c₁, k.read c = .ok v c₁ ∧ c₁.Inside ∧ c₁.buffer = c.buffer ∧ c' = c₁.extend s) ∨
      c.buffer.length < c'.pos ∧ k.read c = .error .truncatedInput c := by
  obtain ⟨g, hg, hpre, rfl⟩ := (k.accepts_read _ v c').mp h
  rw [hc.unread_extend s] at hpre
  by_cases hfit : g.length ≤ c.unread.length
  · left
    have hshort : g <+: c.unread :=
      List.prefix_of_prefix_length_le hpre (List.prefix_append _ s) hfit
    exact ⟨c.advance g.length, (k.accepts_read c v _).mpr ⟨g, hg, hshort, rfl⟩, hc.advance hfit,
      rfl, rfl⟩
  · right
    have hlong : c.buffer.length < ((c.extend s).advance g.length).pos := by
      rw [Cursor.length_unread, Cursor.remaining] at hfit
      change c.buffer.length < c.pos + g.length
      omega
    obtain ⟨c₁, herror⟩ :=
      ReadM.outcome_fst_eq_error_iff.mp (k.stable_read.truncated_of_short hc h hlong)
    refine ⟨hlong, ?_⟩
    rw [herror, read_error herror]

end Primitive

/-! ## Rows of primitive reads -/

namespace Cell

def payloads (x : Cell) : List Bytes := x.kind.payloads x.value

/-- The cells can be read one after the other from the first cursor, and the last read leaves the
second one. -/
inductive Reads : Cursor → List Cell → Cursor → Prop where
  | nil (c : Cursor) : Reads c [] c
  | cons {c c₁ c₂ : Cursor} {x : Cell} {xs : List Cell} (hx : x.kind.read c = .ok x.value c₁)
      (hxs : Reads c₁ xs c₂) : Reads c (x :: xs) c₂

/-- After some of the kinds have been read, the next one cannot be read from where they end. -/
def Fails (c : Cursor) (ks : List Primitive) (e : Fault) (c' : Cursor) : Prop :=
  ∃ done k rest, ks = done.map kind ++ k :: rest ∧ Reads c done c' ∧ k.read c' = .error e c'

variable {c c' : Cursor} {xs ys : List Cell} {e : Fault}

theorem reads_nil_iff : Reads c [] c' ↔ c' = c := by
  constructor
  · intro h
    cases h
    rfl
  · rintro rfl
    exact .nil c'

theorem reads_cons_iff {x : Cell} :
    Reads c (x :: xs) c' ↔ ∃ c₁, x.kind.read c = .ok x.value c₁ ∧ Reads c₁ xs c' := by
  constructor
  · intro h
    cases h with
    | cons hx hxs => exact ⟨_, hx, hxs⟩
  · rintro ⟨c₁, hx, hxs⟩
    exact .cons hx hxs

theorem reads_singleton_iff {k : Primitive} {v : k.Value} :
    Reads c [⟨k, v⟩] c' ↔ k.read c = .ok v c' := by
  simp [reads_cons_iff, reads_nil_iff]

theorem reads_append_iff :
    Reads c (xs ++ ys) c' ↔ ∃ c₁, Reads c xs c₁ ∧ Reads c₁ ys c' := by
  induction xs generalizing c with
  | nil => simp [reads_nil_iff]
  | cons x xs ih =>
      simp only [List.cons_append, reads_cons_iff, ih]
      constructor
      · rintro ⟨c₁, hx, c₂, hxs, hys⟩
        exact ⟨c₂, ⟨c₁, hx, hxs⟩, hys⟩
      · rintro ⟨c₂, ⟨c₁, hx, hxs⟩, hys⟩
        exact ⟨c₁, hx, c₂, hxs, hys⟩

/-- Where a row of reads ends is determined by the kinds that are read. -/
theorem Reads.unique {c₁ c₂ : Cursor} (hxs : Reads c xs c₁) (hys : Reads c ys c₂)
    (hkinds : xs.map kind = ys.map kind) : c₁ = c₂ := by
  induction hxs generalizing ys with
  | nil c =>
      obtain rfl := List.map_eq_nil_iff.mp hkinds.symm
      exact (reads_nil_iff.mp hys).symm
  | @cons c c₃ c₄ x xs hx _ ih =>
      cases hys with
      | nil => cases hkinds
      | @cons _ c₅ _ y ys hy hys =>
          obtain ⟨kind, v⟩ := x
          obtain ⟨kind', w⟩ := y
          obtain ⟨rfl, hrest⟩ := List.cons.inj hkinds
          dsimp only at hx hy
          rw [hx] at hy
          cases hy
          exact ih hys hrest

theorem Reads.pos_le (h : Reads c xs c') : c.pos ≤ c'.pos := by
  induction h with
  | nil c => exact Nat.le_refl _
  | @cons c c₁ c₂ x xs hx _ ih =>
      have hle := x.kind.stable_read.le_final c
      rw [ReadM.final_of_ok hx] at hle
      exact Nat.le_trans hle ih

theorem Reads.pos_le_of_isPrefix {c₁ c₂ : Cursor} (h₁ : Reads c xs c₁) (h₂ : Reads c ys c₂)
    (hpre : xs <+: ys) : c₁.pos ≤ c₂.pos := by
  obtain ⟨zs, rfl⟩ := hpre
  obtain ⟨c₃, hxs, hzs⟩ := reads_append_iff.mp h₂
  rw [h₁.unique hxs rfl]
  exact hzs.pos_le

theorem not_fails_nil : ¬Fails c [] e c' := by
  rintro ⟨done, k, rest, hks, -⟩
  simp at hks

theorem fails_cons_iff {k : Primitive} {ks : List Primitive} :
    Fails c (k :: ks) e c' ↔
      k.read c = .error e c' ∨ ∃ v c₁, k.read c = .ok v c₁ ∧ Fails c₁ ks e c' := by
  constructor
  · rintro ⟨done, k', rest, hks, hdone, hfail⟩
    cases hdone with
    | nil =>
        cases hks
        exact .inl hfail
    | @cons _ c₁ _ x xs hx hxs =>
        obtain ⟨rfl, hrest⟩ := List.cons.inj hks
        exact .inr ⟨x.value, c₁, hx, xs, k', rest, hrest, hxs, hfail⟩
  · rintro (hfail | ⟨v, c₁, hk, done, k', rest, rfl, hdone, hfail⟩)
    · -- A primitive read that fails leaves the cursor before the leaf.
      obtain rfl := Primitive.read_error hfail
      exact ⟨[], k, ks, rfl, .nil c', hfail⟩
    · exact ⟨⟨k, v⟩ :: done, k', rest, rfl, .cons hk hdone, hfail⟩

theorem fails_singleton_iff {k : Primitive} : Fails c [k] e c' ↔ k.read c = .error e c' := by
  simp [fails_cons_iff, not_fails_nil]

theorem fails_append_iff {ks ls : List Primitive} :
    Fails c (ks ++ ls) e c' ↔
      Fails c ks e c' ∨ ∃ done c₁, done.map kind = ks ∧ Reads c done c₁ ∧ Fails c₁ ls e c' := by
  induction ks generalizing c with
  | nil => simp [not_fails_nil, reads_nil_iff]
  | cons k ks ih =>
      simp only [List.cons_append, fails_cons_iff, ih]
      constructor
      · rintro (hfail | ⟨v, c₁, hk, hfail | ⟨done, c₂, rfl, hdone, hfail⟩⟩)
        · exact .inl (.inl hfail)
        · exact .inl (.inr ⟨v, c₁, hk, hfail⟩)
        · exact .inr ⟨⟨k, v⟩ :: done, c₂, rfl, .cons hk hdone, hfail⟩
      · rintro ((hfail | ⟨v, c₁, hk, hfail⟩) | ⟨done, c₂, hks, hdone, hfail⟩)
        · exact .inl hfail
        · exact .inr ⟨v, c₁, hk, .inl hfail⟩
        · cases hdone with
          | nil => cases hks
          | @cons _ c₁ _ x xs hx hxs =>
              obtain ⟨rfl, rfl⟩ := List.cons.inj hks
              exact .inr ⟨x.value, c₁, hx, .inr ⟨xs, c₂, rfl, hxs, hfail⟩⟩

end Cell

/-! ## Layouts -/

mutual
theorem Layout.read_eq_ok_iff_reads : (l : Layout) → (c : Cursor) → (v : l.Value) → (c' : Cursor) →
    (l.read c = .ok v c' ↔ Cell.Reads c (l.cells false v) c')
  | .scalar _, c, v, c' => by
      rw [Layout.read, Layout.cells, Cell.reads_singleton_iff]
      rfl
  | .text, c, s, c' => by
      rw [Layout.read, Layout.cells, Cell.reads_singleton_iff]
      rfl
  | .bytes, c, bs, c' => by
      rw [Layout.read, Layout.cells, Cell.reads_singleton_iff]
      rfl
  | .record fs, c, vs, c' => by
      rw [Layout.read, Layout.cells]
      exact Fields.read_eq_ok_iff_reads fs c vs c'
  | .message _ fs, c, vs, c' => by
      rw [Layout.read, Layout.cells]
      exact Fields.read_eq_ok_iff_reads fs c vs c'

theorem Fields.read_eq_ok_iff_reads : (fs : Fields) → (c : Cursor) → (vs : fs.Values) →
    (c' : Cursor) → (fs.read c = .ok vs c' ↔ Cell.Reads c (fs.cells false vs) c')
  | .nil, c, (), c' => by
      rw [Fields.read, Fields.cells, Cell.reads_nil_iff]
      constructor
      · intro h
        cases h
        rfl
      · rintro rfl
        rfl
  | .cons _ l fs, c, (v, vs), c' => by
      rw [Fields.read, Fields.cells, Cell.reads_append_iff]
      simp only [← Layout.read_eq_ok_iff_reads l, ← Fields.read_eq_ok_iff_reads fs]
      constructor
      · intro h
        obtain ⟨w, c₁, hv, h⟩ := ReadM.bind_eq_ok_iff.mp h
        obtain ⟨ws, c₂, hvs, h⟩ := ReadM.bind_eq_ok_iff.mp h
        cases h
        exact ⟨c₁, hv, hvs⟩
      · rintro ⟨c₁, hv, hvs⟩
        rw [ReadM.bind_ok hv, ReadM.bind_ok hvs]
        rfl
end

theorem Layout.exists_reads_iff (l : Layout) (c c' : Cursor) :
    (∃ xs, xs.map Cell.kind = l.kinds false ∧ Cell.Reads c xs c') ↔ ∃ v, l.read c = .ok v c' := by
  constructor
  · rintro ⟨xs, hkinds, hxs⟩
    obtain ⟨v, rfl⟩ := l.exists_cells_eq hkinds
    exact ⟨v, (l.read_eq_ok_iff_reads c v c').mpr hxs⟩
  · rintro ⟨v, h⟩
    exact ⟨_, l.map_kind_cells false v, (l.read_eq_ok_iff_reads c v c').mp h⟩

mutual
theorem Layout.read_eq_error_iff_fails : (l : Layout) → (c : Cursor) → (e : Fault) →
    (c' : Cursor) → (l.read c = .error e c' ↔ Cell.Fails c (l.kinds false) e c')
  | .scalar _, c, e, c' => by
      rw [Layout.read, Layout.kinds, Cell.fails_singleton_iff]
      rfl
  | .text, c, e, c' => by
      rw [Layout.read, Layout.kinds, Cell.fails_singleton_iff]
      rfl
  | .bytes, c, e, c' => by
      rw [Layout.read, Layout.kinds, Cell.fails_singleton_iff]
      rfl
  | .record fs, c, e, c' => by
      rw [Layout.read, Layout.kinds]
      exact Fields.read_eq_error_iff_fails fs c e c'
  | .message _ fs, c, e, c' => by
      rw [Layout.read, Layout.kinds]
      exact Fields.read_eq_error_iff_fails fs c e c'

theorem Fields.read_eq_error_iff_fails : (fs : Fields) → (c : Cursor) → (e : Fault) →
    (c' : Cursor) → (fs.read c = .error e c' ↔ Cell.Fails c (fs.kinds false) e c')
  | .nil, c, e, c' => by
      rw [Fields.read, Fields.kinds]
      refine iff_of_false ?_ Cell.not_fails_nil
      intro h
      cases h
  | .cons _ l fs, c, e, c' => by
      rw [Fields.read, Fields.kinds, Cell.fails_append_iff, ← Layout.read_eq_error_iff_fails l,
        ReadM.bind_eq_error_iff]
      simp only [← Fields.read_eq_error_iff_fails fs]
      apply or_congr_right
      constructor
      · rintro ⟨v, c₁, hv, h⟩
        obtain ⟨xs, hkinds, hxs⟩ := (l.exists_reads_iff c c₁).mpr ⟨v, hv⟩
        obtain hvs | ⟨vs, c₂, hvs, h⟩ := ReadM.bind_eq_error_iff.mp h
        · exact ⟨xs, c₁, hkinds, hxs, hvs⟩
        · cases h
      · rintro ⟨xs, c₁, hkinds, hxs, hvs⟩
        obtain ⟨v, hv⟩ := (l.exists_reads_iff c c₁).mp ⟨xs, hkinds, hxs⟩
        exact ⟨v, c₁, hv, ReadM.bind_error hvs⟩
end

/-! ## Cut strings -/

/-- The induction is on the reads over the longer string: those before the cut go through over the
shorter one too, and the first that reaches beyond it wants input. -/
theorem Cell.Reads.cut {c c' : Cursor} {s : Bytes} {xs : List Cell} (hc : c.Inside)
    (h : Reads (c.extend s) xs c') (hlong : c.buffer.length < c'.pos) :
    ∃ done x rest c₁ c₂, xs = done ++ x :: rest ∧ Reads c done c₁ ∧
      x.kind.read c₁ = .error .truncatedInput c₁ ∧ c₁.Inside ∧ c₁.buffer = c.buffer ∧
      Reads (c.extend s) done (c₁.extend s) ∧ Reads (c.extend s) (done ++ [x]) c₂ ∧
      c.buffer.length < c₂.pos := by
  induction xs generalizing c with
  | nil =>
      obtain rfl := reads_nil_iff.mp h
      change c.pos ≤ c.buffer.length at hc
      change c.buffer.length < c.pos at hlong
      omega
  | cons x xs ih =>
      obtain ⟨c₂, hx, hxs⟩ := reads_cons_iff.mp h
      obtain ⟨c₁, hx₁, hc₁, hbuffer, rfl⟩ | ⟨hbeyond, herror⟩ :=
        Primitive.read_of_read_extend hc hx
      · rw [← hbuffer] at hlong
        obtain ⟨done, y, rest, c₃, c₄, rfl, hdone, herror, hc₃, hbuffer₃, hwhole, hnext, hbeyond⟩ :=
          ih hc₁ hxs hlong
        rw [hbuffer] at hbuffer₃ hbeyond
        exact ⟨x :: done, y, rest, c₃, c₄, rfl, .cons hx₁ hdone, herror, hc₃, hbuffer₃,
          .cons hx hwhole, .cons hx hnext, hbeyond⟩
      · exact ⟨[], x, xs, c, c₂, rfl, .nil c, herror, hc, rfl, .nil _, .cons hx (.nil c₂), hbeyond⟩

/-- Rows that end before the end of the next cell are no longer than the row before that cell. -/
theorem Cell.Reads.le_pos_of_cut {c c₁ c₂ c₃ : Cursor} {done row rest : List Cell} {x : Cell}
    (hdone : Reads c done c₁) (hnext : Reads c (done ++ [x]) c₂) (hrow : row <+: done ++ x :: rest)
    (hread : Reads c row c₃) (hlt : c₃.pos < c₂.pos) : c₃.pos ≤ c₁.pos := by
  by_cases hle : row.length ≤ done.length
  · have hpre : row <+: done :=
      List.prefix_of_prefix_length_le hrow (List.prefix_append done _) hle
    exact hread.pos_le_of_isPrefix hdone hpre
  · have hpre : done ++ [x] <+: row := by
      rw [List.append_cons] at hrow
      apply List.prefix_of_prefix_length_le (List.prefix_append _ rest) hrow
      rw [List.length_append, List.length_singleton]
      omega
    have hpos := hnext.pos_le_of_isPrefix hread hpre
    omega

theorem Layout.isGreatest_outcome_take (l : Layout) {b : Bytes} {v : l.Value} {n m : Nat}
    (h : l.read.outcome (.ofBytes b) = (.ok v, n)) (hm : m < n) :
    IsGreatest {q | q ≤ m ∧ ∃ done, done <+: l.cells false v ∧ Cell.Reads (.ofBytes b) done ⟨b, q⟩}
      (l.read.outcome (.ofBytes (b.take m))).2 := by
  obtain ⟨c', hread, rfl⟩ := ReadM.outcome_eq_ok_iff.mp h
  have hlength : (b.take m).length = m := by
    obtain ⟨k, hk, hfinal⟩ := l.stable_read.forward (.ofBytes b)
    have hpos : c'.pos = 0 + k := by
      rw [← ReadM.final_of_ok hread, hfinal]
      rfl
    rw [Cursor.unread_ofBytes] at hk
    rw [List.length_take]
    omega
  have hwhole : (Cursor.ofBytes (b.take m)).extend (b.drop m) = .ofBytes b := by
    simp [Cursor.extend, Cursor.ofBytes]
  have hreads := (l.read_eq_ok_iff_reads _ v c').mp hread
  rw [← hwhole] at hreads
  obtain ⟨done, x, rest, c₁, c₂, hcells, hdone, herror, hc₁, hbuffer, hdone', hnext, hbeyond⟩ :=
    hreads.cut (Cursor.inside_ofBytes _) (lt_of_eq_of_lt hlength hm)
  have hfails : Cell.Fails (.ofBytes (b.take m)) (l.kinds false) .truncatedInput c₁ := by
    refine ⟨done, x.kind, rest.map Cell.kind, ?_, hdone, herror⟩
    rw [← l.map_kind_cells false v, hcells, List.map_append, List.map_cons]
  have hextend : c₁.extend (b.drop m) = ⟨b, c₁.pos⟩ := by
    rw [Cursor.extend, hbuffer, Cursor.ofBytes, List.take_append_drop]
  have hbefore : c₁.pos ≤ m := by
    rw [Cursor.Inside, hbuffer] at hc₁
    exact le_of_le_of_eq hc₁ hlength
  rw [hwhole] at hdone' hnext
  rw [hextend] at hdone'
  rw [ReadM.outcome_of_error ((l.read_eq_error_iff_fails _ _ _).mpr hfails)]
  refine ⟨⟨hbefore, done, ?_, hdone'⟩, ?_⟩
  · rw [hcells]
    exact List.prefix_append done _
  · rintro q ⟨hq, row, hrow, hrow'⟩
    have hbeyond : m < c₂.pos := lt_of_eq_of_lt hlength.symm hbeyond
    rw [hcells] at hrow
    exact hdone'.le_pos_of_cut hnext hrow hrow' (Nat.lt_of_le_of_lt hq hbeyond)

/-! ## Cut encodings -/

mutual
theorem Layout.payloads_eq_flatMap_cells : (l : Layout) → (v : l.Value) →
    l.payloads v = (l.cells false v).flatMap Cell.payloads
  | .scalar _, _ => by rw [Layout.payloads, Layout.cells]; rfl
  | .text, _ => by rw [Layout.payloads, Layout.cells]; rfl
  | .bytes, _ => by
      rw [Layout.payloads, Layout.cells, List.flatMap_singleton]
      rfl
  | .record fs, vs => by
      rw [Layout.payloads, Layout.cells]
      exact Fields.payloads_eq_flatMap_cells fs vs
  | .message _ fs, vs => by
      rw [Layout.payloads, Layout.cells]
      exact Fields.payloads_eq_flatMap_cells fs vs

theorem Fields.payloads_eq_flatMap_cells : (fs : Fields) → (vs : fs.Values) →
    fs.payloads vs = (fs.cells false vs).flatMap Cell.payloads
  | .nil, () => by rw [Fields.payloads, Fields.cells, List.flatMap_nil]
  | .cons _ l fs, (v, vs) => by
      rw [Fields.payloads, Fields.cells, List.flatMap_append, Layout.payloads_eq_flatMap_cells l v,
        Fields.payloads_eq_flatMap_cells fs vs]
end

theorem Cell.reads_of_isPrefix {c : Cursor} {xs : List Cell}
    (hxs : ∀ q ∈ xs.flatMap payloads, q.length < 2 ^ 63) (h : xs.flatMap encode <+: c.unread) :
    Reads c xs (c.advance (xs.flatMap encode).length) := by
  induction xs generalizing c with
  | nil => exact .nil c
  | cons x xs ih =>
      rw [List.flatMap_cons, List.forall_mem_append] at hxs
      rw [List.flatMap_cons, Bytes.append_isPrefix_iff] at h
      have hx := (x.kind.accepts_read c x.value _).mpr
        ⟨x.encode, x.kind.form_encode x.value hxs.1, h.1, rfl⟩
      rw [← Cursor.unread_advance] at h
      rw [List.flatMap_cons, List.length_append, ← Cursor.advance_advance]
      exact .cons hx (ih hxs.2 h.2)

/-- In the row of their encodings, the cells before any place end at the sum of their lengths. -/
theorem Cell.reads_ofBytes_iff {xs done : List Cell}
    (hxs : ∀ q ∈ xs.flatMap payloads, q.length < 2 ^ 63) (hdone : done <+: xs) {q : Nat} :
    Reads (.ofBytes (xs.flatMap encode)) done ⟨xs.flatMap encode, q⟩ ↔
      q = (done.flatMap encode).length := by
  obtain ⟨rest, rfl⟩ := hdone
  have hreads : Reads (.ofBytes ((done ++ rest).flatMap encode)) done
      ⟨(done ++ rest).flatMap encode, (done.flatMap encode).length⟩ := by
    rw [List.flatMap_append, List.forall_mem_append] at hxs
    have hpre : done.flatMap encode <+:
        (Cursor.ofBytes ((done ++ rest).flatMap encode)).unread := by
      rw [Cursor.unread_ofBytes, List.flatMap_append]
      exact List.prefix_append _ _
    simpa [Cursor.advance, Cursor.ofBytes] using reads_of_isPrefix hxs.1 hpre
  constructor
  · intro h
    exact congrArg Cursor.pos (h.unique hreads rfl)
  · rintro rfl
    exact hreads

theorem Layout.outcome_flatMap_cells (l : Layout) (v : l.Value)
    (hv : ∀ q ∈ l.payloads v, q.length < 2 ^ 63) :
    l.read.outcome (.ofBytes ((l.cells false v).flatMap Cell.encode)) =
      (.ok v, ((l.cells false v).flatMap Cell.encode).length) := by
  rw [l.payloads_eq_flatMap_cells] at hv
  have hreads := (Cell.reads_ofBytes_iff hv (List.prefix_refl _)).mpr rfl
  exact ReadM.outcome_of_ok ((l.read_eq_ok_iff_reads _ v _).mpr hreads)

theorem Layout.isGreatest_outcome_take_cells (l : Layout) (v : l.Value)
    (hv : ∀ q ∈ l.payloads v, q.length < 2 ^ 63) {m : Nat}
    (hm : m < ((l.cells false v).flatMap Cell.encode).length) :
    IsGreatest
      {q | q ≤ m ∧ ∃ done, done <+: l.cells false v ∧ q = (done.flatMap Cell.encode).length}
      (l.read.outcome (.ofBytes (((l.cells false v).flatMap Cell.encode).take m))).2 := by
  have hgreatest := l.isGreatest_outcome_take (l.outcome_flatMap_cells v hv) hm
  rw [l.payloads_eq_flatMap_cells] at hv
  have hends : ∀ q done, (done <+: l.cells false v ∧
      Cell.Reads (.ofBytes ((l.cells false v).flatMap Cell.encode)) done
        ⟨(l.cells false v).flatMap Cell.encode, q⟩) ↔
      done <+: l.cells false v ∧ q = (done.flatMap Cell.encode).length := by
    intro q done
    apply and_congr_right
    intro hdone
    exact Cell.reads_ofBytes_iff hv hdone
  simpa only [hends] using hgreatest

/-- How the fields of a layout are nested shows neither on the wire nor in a fault. Values are rows
of cells of the kinds of the layout. To write a value is to write its cells in order, tags included.
To read one is to read its cells in order, tags left out, up to the first that cannot be read. A
string that is cut is read up to the last end of a cell that does not lie beyond the cut. -/
theorem Layout.append_and_read_leafwise (l : Layout) :
    (∀ xs, xs.map Cell.kind = l.kinds false ↔ ∃! v, l.cells false v = xs) ∧
    (∀ v, (l.cells true v).map Cell.kind = l.kinds true ∧
      l.encode v = (l.cells true v).flatMap Cell.encode ∧
      ∀ b, l.append? v b = (l.cells true v).foldlM (fun b x ↦ x.append? b) b ∧
        (∀ b', l.append? v b = some b' →
          b'.bytes = b.bytes ++ (l.cells true v).flatMap Cell.encode) ∧
        (b.Sound → ((∃ b', l.append? v b = some b') ↔
          ∃ d, b.length + ((l.cells true v).flatMap Cell.encode).length ≤ b.capacity * 2 ^ d ∧
            b.capacity * 2 ^ d ≤ 2 ^ 63 - 1))) ∧
    (∀ c v c', l.read c = .ok v c' ↔ Cell.Reads c (l.cells false v) c') ∧
    (∀ c e c', l.read c = .error e c' ↔
      ∃ done k rest, l.kinds false = done.map Cell.kind ++ k :: rest ∧
        Cell.Reads c done c' ∧ k.read c' = .error e c') ∧
    (∀ b v n, l.read.outcome (.ofBytes b) = (.ok v, n) → ∀ m < n,
      IsGreatest
        {q | q ≤ m ∧ ∃ done, done <+: l.cells false v ∧ Cell.Reads (.ofBytes b) done ⟨b, q⟩}
        (l.read.outcome (.ofBytes (b.take m))).2) ∧
    ∀ v, (∀ q ∈ l.payloads v, q.length < 2 ^ 63) →
      let E := (l.cells false v).flatMap Cell.encode
      (l.untagged.messageFree → l.encode v = l.tag?.toList ++ E) ∧
      l.read.outcome (.ofBytes E) = (.ok v, E.length) ∧
      ∀ m < E.length,
        IsGreatest
          {q | q ≤ m ∧ ∃ done, done <+: l.cells false v ∧ q = (done.flatMap Cell.encode).length}
          (l.read.outcome (.ofBytes (E.take m))).2 := by
  refine ⟨l.map_kind_eq_iff, ?_, l.read_eq_ok_iff_reads, l.read_eq_error_iff_fails, ?_, ?_⟩
  · intro v
    refine ⟨l.map_kind_cells true v, l.encode_eq_flatMap_cells v, ?_⟩
    intro b
    refine ⟨l.append?_eq_foldlM_cells v b, ?_, ?_⟩
    · intro b' hb'
      rw [l.bytes_of_append? v hb', l.encode_eq_flatMap_cells]
    · intro hb
      rw [← l.encode_eq_flatMap_cells]
      exact hb.exists_append?_iff (.value l v)
  · intro b v n h m hm
    exact l.isGreatest_outcome_take h hm
  · intro v hv E
    refine ⟨fun hl ↦ l.encode_eq_tag_append_cells hl v, l.outcome_flatMap_cells v hv, ?_⟩
    intro m hm
    exact l.isGreatest_outcome_take_cells v hv hm

/-- A cut in the middle of the height of a window, behind a title, the width and one of the two
bytes of the height. -/
theorem Layout.append_and_read_leafwise_window :
    let l : Layout := .record Specimen.window
    let v : l.Value := ("é", (5, 6, ()), -1, ())
    (l.read.outcome (.ofBytes [0x80, 2, 0xC3, 0xA9, 5, 0, 6, 0, 0xFF, 7]) = (.ok v, 9) ∧
      ∀ q ∈ l.payloads v, q.length < 2 ^ 63) ∧
    IsGreatest
      {q | q ≤ 7 ∧ ∃ done, done <+: l.cells false v ∧
        Cell.Reads (.ofBytes [0x80, 2, 0xC3, 0xA9, 5, 0, 6, 0, 0xFF, 7]) done
          ⟨[0x80, 2, 0xC3, 0xA9, 5, 0, 6, 0, 0xFF, 7], q⟩} 6 ∧
    IsGreatest
      {q | q ≤ 6 ∧ ∃ done, done <+: l.cells false v ∧ q = (done.flatMap Cell.encode).length} 5 := by
  intro l v
  have hread : l.read.outcome (.ofBytes [0x80, 2, 0xC3, 0xA9, 5, 0, 6, 0, 0xFF, 7]) = (.ok v, 9) :=
    rfl
  have hshort : ∀ q ∈ l.payloads v, q.length < 2 ^ 63 := by decide
  have hbytes : (l.cells false v).flatMap Cell.encode = [2, 0xC3, 0xA9, 5, 0, 6, 0, 0xFF] := by
    decide +kernel
  obtain ⟨-, -, -, -, hpadded, hencoded⟩ := l.append_and_read_leafwise
  have hcut := (hencoded v hshort).2.2 6
  rw [hbytes] at hcut
  exact ⟨⟨hread, hshort⟩, hpadded _ v 9 hread 7 (by decide), hcut (by decide)⟩

end TaggedWire
