import Mathlib.Algebra.Group.Nat.Defs
import Mathlib.Data.Nat.Find
import Mathlib.Order.Bounds.Basic
import TaggedWire.Proofs.Operations

/-!
# How buffers grow

A buffer grows by doubling, and it matters neither how often nor in which steps: the capacity is the
first one doubled as often as the largest size needs that was ever asked for. `Size.LeastDoubling`
says so of a single request. Requests one after the other are as good as one for the larger of them,
from which the capacity after a whole run follows.
-/

namespace TaggedWire

namespace Size

/-- The size is `base` doubled the least number of times that reaches `goal`. -/
def LeastDoubling (base goal size : Nat) : Prop :=
  ∃ k, IsLeast {k | goal ≤ base * 2 ^ k} k ∧ size = base * 2 ^ k

variable {base goal size mid r : Nat}

theorem mul_two_pow_add (base k j : Nat) : base * 2 ^ (k + j) = base * 2 ^ k * 2 ^ j := by
  rw [Nat.pow_add, Nat.mul_assoc]

theorem mul_two_pow_succ (base k : Nat) : base * 2 ^ (k + 1) = 2 * (base * 2 ^ k) := by
  rw [Nat.pow_succ', Nat.mul_left_comm]

namespace LeastDoubling

theorem goal_le (h : LeastDoubling base goal size) : goal ≤ size := by
  obtain ⟨k, hk, rfl⟩ := h
  exact hk.1

theorem base_le (h : LeastDoubling base goal size) : base ≤ size := by
  obtain ⟨k, -, rfl⟩ := h
  exact Nat.le_mul_of_pos_right base (Nat.two_pow_pos k)

theorem unique (h : LeastDoubling base goal size) (h' : LeastDoubling base goal r) : size = r := by
  obtain ⟨k, hk, rfl⟩ := h
  obtain ⟨j, hj, rfl⟩ := h'
  rw [hk.unique hj]

theorem of_le (h : goal ≤ base) : LeastDoubling base goal base :=
  ⟨0, ⟨by simpa using h, fun _ _ ↦ Nat.zero_le _⟩, by simp⟩

theorem exists_of_le {d : Nat} (h : goal ≤ base * 2 ^ d) :
    ∃ k ≤ d, LeastDoubling base goal (base * 2 ^ k) := by
  have hex : ∃ k, goal ≤ base * 2 ^ k := ⟨d, h⟩
  refine ⟨Nat.find hex, Nat.find_min' hex h, Nat.find hex, ⟨Nat.find_spec hex, ?_⟩, rfl⟩
  intro k hk
  exact Nat.find_min' hex hk

/-- Two requests one after the other are as good as the larger of them. -/
theorem trans {goal' : Nat} (h : LeastDoubling base goal mid) (h' : LeastDoubling mid goal' size) :
    LeastDoubling base (max goal goal') size := by
  obtain ⟨k, ⟨hk, hleast⟩, rfl⟩ := h
  obtain ⟨j, ⟨hj, hleast'⟩, rfl⟩ := h'
  have hpow := mul_two_pow_add base k j
  refine ⟨k + j, ⟨?_, ?_⟩, hpow.symm⟩
  · apply Nat.max_le.mpr
    refine ⟨?_, ?_⟩
    · rw [hpow]
      exact Nat.le_trans hk (Nat.le_mul_of_pos_right _ (Nat.two_pow_pos j))
    · rw [hpow]
      exact hj
  · intro i hi
    obtain ⟨hgoal, hgoal'⟩ := Nat.max_le.mp hi
    obtain ⟨d, rfl⟩ := Nat.exists_eq_add_of_le (hleast hgoal)
    have hd : j ≤ d := by
      apply hleast'
      change goal' ≤ base * 2 ^ k * 2 ^ d
      rw [← mul_two_pow_add]
      exact hgoal'
    exact Nat.add_le_add_left hd k

end LeastDoubling

theorem leastDoubling_two_mul_iff (hlt : base < goal) :
    LeastDoubling (2 * base) goal size ↔ LeastDoubling base goal size := by
  have hpow : ∀ k, 2 * base * 2 ^ k = base * 2 ^ (k + 1) := by
    intro k
    rw [mul_two_pow_succ, Nat.mul_assoc]
  have hzero : ¬goal ≤ base * 2 ^ 0 := by simpa using hlt
  constructor
  · rintro ⟨k, ⟨hk, hleast⟩, rfl⟩
    refine ⟨k + 1, ⟨?_, ?_⟩, hpow k⟩
    · simpa only [Set.mem_ofPred_eq, hpow] using hk
    · intro i hi
      cases i with
      | zero => exact absurd hi hzero
      | succ i =>
          apply Nat.succ_le_succ
          apply hleast
          simpa only [Set.mem_ofPred_eq, hpow] using hi
  · rintro ⟨k, ⟨hk, hleast⟩, rfl⟩
    cases k with
    | zero => exact absurd hk hzero
    | succ k =>
        refine ⟨k, ⟨?_, ?_⟩, (hpow k).symm⟩
        · simpa only [Set.mem_ofPred_eq, hpow] using hk
        · intro i hi
          apply Nat.le_of_succ_le_succ
          apply hleast
          simpa only [Set.mem_ofPred_eq, hpow] using hi

theorem le_doubleUntil (goal size : Nat) : size ≤ doubleUntil goal size := by
  fun_induction doubleUntil goal size with
  | case1 size h ih => exact Nat.le_trans (Nat.le_of_lt h.2) ih
  | case2 size h => exact Nat.le_refl size

/-- As long as the largest size is not reached, doubling stops at the least multiple. -/
theorem doubleUntil_eq_iff (hpos : 0 < size) (hr : r < largest) :
    doubleUntil goal size = r ↔ LeastDoubling size goal r := by
  fun_induction doubleUntil goal size with
  | case1 size h ih =>
      by_cases hle : 2 * size ≤ largest
      · have hdouble : double size = 2 * size := Nat.min_eq_left hle
        rw [ih (Nat.zero_lt_of_lt h.2), hdouble, leastDoubling_two_mul_iff h.1]
      · -- Doubling would stop at the largest size, and no multiple beyond `size` is small enough.
        have hdouble : double size = largest := Nat.min_eq_right (by omega)
        have hbig := le_doubleUntil goal (double size)
        rw [← leastDoubling_two_mul_iff h.1]
        constructor
        · intro hstop
          omega
        · intro hleast
          have hbase := hleast.base_le
          omega
  | case2 size h =>
      have hdouble : double size = min (2 * size) largest := rfl
      constructor
      · rintro rfl
        apply LeastDoubling.of_le
        omega
      · intro hleast
        have hbase := hleast.base_le
        exact (LeastDoubling.of_le (by omega)).unique hleast

end Size

namespace Buffer

open Size

theorem length_of_bytes_eq {b b' : Buffer} {bs : Bytes} (h : b'.bytes = b.bytes ++ bs) :
    b'.length = b.length + bs.length := by
  rw [Buffer.length, h, List.length_append, Buffer.length]

theorem maxCapacity_lt_largest : maxCapacity < largest := by decide

/-- A reservation is granted if the least doubling of the capacity with room for all bytes is
allowed, and changes nothing else. -/
theorem reserve?_eq_some_iff {b b' : Buffer} {n : Nat} (hpos : 0 < b.capacity) :
    b.reserve? n = some b' ↔
      b'.bytes = b.bytes ∧ LeastDoubling b.capacity (b.length + n) b'.capacity ∧
        b'.capacity ≤ maxCapacity := by
  have hshape : b.reserve? n = some b' ↔
      b'.bytes = b.bytes ∧ doubleUntil (Size.add b.length n) b.capacity = b'.capacity ∧
        b'.capacity ≤ maxCapacity := by
    obtain ⟨bytes', capacity'⟩ := b'
    simp only [reserve?, Option.ite_none_right_eq_some, Option.some_inj, Buffer.mk.injEq]
    grind
  rw [hshape]
  apply and_congr_right
  intro _
  apply and_congr_left
  intro hmax
  have hlt : b'.capacity < largest := Nat.lt_of_le_of_lt hmax maxCapacity_lt_largest
  rw [doubleUntil_eq_iff hpos hlt]
  by_cases hsum : b.length + n ≤ largest
  · rw [Size.add, Nat.min_eq_left hsum]
  · -- The sum is beyond every size, and so is what was asked for.
    have hadd : Size.add b.length n = largest := Nat.min_eq_right (by omega)
    constructor
    · intro h
      have hgoal := h.goal_le
      omega
    · intro h
      have hgoal := h.goal_le
      omega

theorem append?_eq_some_iff {b b' : Buffer} {bs : Bytes} (hpos : 0 < b.capacity) :
    b.append? bs = some b' ↔
      b'.bytes = b.bytes ++ bs ∧
        LeastDoubling b.capacity (b.length + bs.length) b'.capacity ∧
        b'.capacity ≤ maxCapacity := by
  rw [append?, Option.map_eq_some_iff]
  constructor
  · rintro ⟨b₁, hreserve, rfl⟩
    obtain ⟨hbytes, hgrowth⟩ := (reserve?_eq_some_iff hpos).mp hreserve
    exact ⟨congrArg (· ++ bs) hbytes, hgrowth⟩
  · rintro ⟨hbytes, hgrowth⟩
    refine ⟨⟨b.bytes, b'.capacity⟩, (reserve?_eq_some_iff hpos).mpr ⟨rfl, hgrowth⟩, ?_⟩
    rw [← hbytes]

/-- Pieces are not refused as long as some doubling of the capacity that is allowed has room for all
of them. -/
theorem exists_appendAll? {b : Buffer} (hpos : 0 < b.capacity) {d : Nat}
    (hmax : b.capacity * 2 ^ d ≤ maxCapacity) {ps : List Bytes}
    (hroom : b.length + ps.flatten.length ≤ b.capacity * 2 ^ d) :
    ∃ b', b.appendAll? ps = some b' := by
  induction ps generalizing b d with
  | nil => exact ⟨b, rfl⟩
  | cons p ps ih =>
      rw [List.flatten_cons, List.length_append] at hroom
      have hfirst : b.length + p.length ≤ b.capacity * 2 ^ d := by omega
      obtain ⟨k, hk, hdouble⟩ := LeastDoubling.exists_of_le hfirst
      obtain ⟨e, rfl⟩ := Nat.exists_eq_add_of_le hk
      have hstep : b.capacity * 2 ^ k ≤ b.capacity * 2 ^ k * 2 ^ e :=
        Nat.le_mul_of_pos_right _ (Nat.two_pow_pos e)
      rw [mul_two_pow_add] at hmax hroom
      have hp : b.append? p = some ⟨b.bytes ++ p, b.capacity * 2 ^ k⟩ :=
        (append?_eq_some_iff hpos).mpr ⟨rfl, hdouble, Nat.le_trans hstep hmax⟩
      rw [appendAll?_cons, hp, Option.bind_some]
      apply ih (d := e)
      · exact Nat.lt_of_lt_of_le hpos hdouble.base_le
      · exact hmax
      · simp only [Buffer.length, List.length_append]
        simp only [Buffer.length] at hroom
        omega

/-! ## Capacities -/

/-- The buffer began with capacity `base`, and `peak` is the largest size that was asked for. -/
structure Grown (base peak : Nat) (b : Buffer) : Prop where
  base_pos : 0 < base
  doubling : LeastDoubling base peak b.capacity
  length_le : b.length ≤ peak
  capacity_le : b.capacity ≤ maxCapacity

namespace Grown

variable {base peak : Nat} {b b' : Buffer}

theorem capacity_pos (h : Grown base peak b) : 0 < b.capacity :=
  Nat.lt_of_lt_of_le h.base_pos h.doubling.base_le

theorem length_le_capacity (h : Grown base peak b) : b.length ≤ b.capacity :=
  Nat.le_trans h.length_le h.doubling.goal_le

theorem reserve? (h : Grown base peak b) {n : Nat} (hb : b.reserve? n = some b') :
    Grown base (max peak (b.length + n)) b' := by
  obtain ⟨hbytes, hdouble, hmax⟩ := (reserve?_eq_some_iff h.capacity_pos).mp hb
  refine ⟨h.base_pos, h.doubling.trans hdouble, ?_, hmax⟩
  rw [Buffer.length, hbytes]
  exact Nat.le_trans h.length_le (Nat.le_max_left _ _)

theorem append? (h : Grown base peak b) {bs : Bytes} (hb : b.append? bs = some b') :
    Grown base (max peak (b.length + bs.length)) b' := by
  obtain ⟨hbytes, hdouble, hmax⟩ := (append?_eq_some_iff h.capacity_pos).mp hb
  refine ⟨h.base_pos, h.doubling.trans hdouble, ?_, hmax⟩
  rw [length_of_bytes_eq hbytes]
  exact Nat.le_max_right _ _

/-- Pieces that are added one after the other make the same demand as all of them together. -/
theorem appendAll? (h : Grown base peak b) {ps : List Bytes} (hb : b.appendAll? ps = some b') :
    Grown base (max peak (b.length + ps.flatten.length)) b' := by
  induction ps generalizing b peak with
  | nil =>
      cases hb
      rw [List.flatten_nil, List.length_nil, Nat.add_zero, Nat.max_eq_left h.length_le]
      exact h
  | cons p ps ih =>
      obtain ⟨b₁, hp, hps⟩ := Option.bind_eq_some_iff.mp hb
      have hlength : b₁.length = b.length + p.length := length_of_bytes_eq (bytes_of_append? hp)
      have hrest := ih (h.append? hp) hps
      rw [hlength, Nat.max_assoc, Nat.max_eq_right (Nat.le_add_right (b.length + p.length) _),
        Nat.add_assoc] at hrest
      rw [List.flatten_cons, List.length_append]
      exact hrest

end Grown

/-! ## When there is room -/

/-- The bytes fit the capacity, which is positive and may be allocated. -/
structure Sound (b : Buffer) : Prop where
  length_le : b.length ≤ b.capacity
  capacity_pos : 1 ≤ b.capacity
  capacity_le : b.capacity ≤ 2 ^ 63 - 1

theorem Grown.sound {base peak : Nat} {b : Buffer} (h : Grown base peak b) : b.Sound :=
  ⟨h.length_le_capacity, h.capacity_pos, h.capacity_le⟩

/-- Growth can be counted from any moment on. -/
theorem Sound.grown {b : Buffer} (hb : b.Sound) : Grown b.capacity b.length b :=
  ⟨hb.capacity_pos, .of_le hb.length_le, Nat.le_refl _, hb.capacity_le⟩

namespace Sound

variable {b : Buffer}

/-- Pieces are taken exactly if some doubling of the capacity that may be allocated has room for all
of them. -/
theorem exists_appendAll?_iff (hb : b.Sound) (ps : List Bytes) :
    (∃ b', b.appendAll? ps = some b') ↔
      ∃ d, b.length + ps.flatten.length ≤ b.capacity * 2 ^ d ∧ b.capacity * 2 ^ d ≤ 2 ^ 63 - 1 := by
  constructor
  · rintro ⟨b', hb'⟩
    have hgrown := hb.grown.appendAll? hb'
    obtain ⟨d, ⟨hroom, -⟩, hcapacity⟩ := hgrown.doubling
    refine ⟨d, Nat.le_trans (Nat.le_max_right _ _) hroom, ?_⟩
    rw [← hcapacity]
    exact hgrown.capacity_le
  · rintro ⟨d, hroom, hmax⟩
    exact exists_appendAll? hb.capacity_pos hmax hroom

theorem exists_append?_iff (hb : b.Sound) (x : Item) :
    (∃ b', x.append? b = some b') ↔
      ∃ d, b.length + x.encode.length ≤ b.capacity * 2 ^ d ∧ b.capacity * 2 ^ d ≤ 2 ^ 63 - 1 := by
  have hgranted := hb.exists_appendAll?_iff x.pieces
  simpa only [x.flatten_pieces, ← x.append?_eq_appendAll?] using hgranted

end Sound

theorem sound_empty : Buffer.empty.Sound := ⟨by decide, by decide, by decide⟩

/-- An empty buffer takes what is no longer than the largest doubling of its capacity that is
allowed. -/
theorem exists_append?_empty_iff (x : Item) :
    (∃ b, x.append? .empty = some b) ↔ x.encode.length ≤ 2 ^ 62 := by
  have hroom : ∀ d, empty.length + x.encode.length ≤ empty.capacity * 2 ^ d ↔
      x.encode.length ≤ 64 * 2 ^ d := by
    intro d
    simp [empty, defaultCapacity, Buffer.length]
  simp only [sound_empty.exists_append?_iff x, hroom]
  constructor
  · rintro ⟨d, hlength, hmax⟩
    have hallowed : 64 * 2 ^ d ≤ 2 ^ 63 - 1 := hmax
    have hd : d ≤ 56 := by
      by_contra hlt
      have hpow : 2 ^ 57 ≤ 2 ^ d := Nat.pow_le_pow_right (by decide) (by omega)
      omega
    have hpow : 2 ^ d ≤ 2 ^ 56 := Nat.pow_le_pow_right (by decide) hd
    omega
  · intro hlength
    exact ⟨56, hlength, by decide⟩

/-! ## Capacities in a run -/

/-- The room that an operation needs behind the bytes that are there. -/
def Operation.room : Operation → Nat
  | write x => x.encode.length
  | reserve n => n

theorem Grown.step? {base peak : Nat} {b b' : Buffer} (h : Grown base peak b) {op : Operation}
    (hb : op.step? b = some b') : Grown base (max peak (b.length + op.room)) b' := by
  cases op with
  | write x =>
      have hall : b.appendAll? x.pieces = some b' := (x.append?_eq_appendAll? b).symm.trans hb
      have hgrown := h.appendAll? hall
      rw [x.flatten_pieces] at hgrown
      exact hgrown
  | reserve n => exact h.reserve? hb

/-- The sizes that come up in a run: every length that is reached, and every sum that a reservation
asks for. A write asks for no more than the length that it reaches. -/
def demands (b : Buffer) (ops : List Operation) : Set Nat :=
  {d | ∃ pre post mid, ops = pre ++ post ∧ b.run? pre = some mid ∧
    (d = mid.length ∨ ∃ n rest, post = .reserve n :: rest ∧ d = mid.length + n)}

theorem length_mem_demands (b : Buffer) (ops : List Operation) : b.length ∈ b.demands ops :=
  ⟨[], ops, b, rfl, rfl, .inl rfl⟩

theorem demands_nil (b : Buffer) : b.demands [] = {b.length} := by
  ext d
  constructor
  · rintro ⟨pre, post, mid, hsplit, hrun, hd⟩
    obtain ⟨rfl, rfl⟩ := List.nil_eq_append_iff.mp hsplit
    cases hrun
    simpa using hd
  · rintro rfl
    exact b.length_mem_demands []

theorem mem_demands_cons_iff {b b₁ : Buffer} {op : Operation} {ops : List Operation} {d : Nat}
    (hop : op.step? b = some b₁) :
    d ∈ b.demands (op :: ops) ↔
      d = b.length ∨ (∃ n, op = .reserve n ∧ d = b.length + n) ∨ d ∈ b₁.demands ops := by
  have hrun : ∀ pre, b.run? (op :: pre) = b₁.run? pre := by
    intro pre
    rw [run?_cons, hop, Option.bind_some]
  constructor
  · rintro ⟨pre, post, mid, hsplit, hmid, hd⟩
    rcases List.cons_eq_append_iff.mp hsplit with ⟨rfl, rfl⟩ | ⟨pre, rfl, rfl⟩
    · cases hmid
      rcases hd with rfl | ⟨n, rest, hpost, rfl⟩
      · exact .inl rfl
      · cases hpost
        exact .inr (.inl ⟨n, rfl, rfl⟩)
    · rw [hrun] at hmid
      exact .inr (.inr ⟨pre, post, mid, rfl, hmid, hd⟩)
  · rintro (rfl | ⟨n, rfl, rfl⟩ | ⟨pre, post, mid, rfl, hmid, hd⟩)
    · exact b.length_mem_demands _
    · exact ⟨[], _, b, rfl, rfl, .inr ⟨n, ops, rfl, rfl⟩⟩
    · exact ⟨op :: pre, post, mid, rfl, (hrun pre).trans hmid, hd⟩

/-- An operation brings up the size that it needs room for. -/
theorem add_room_mem_demands {b b₁ : Buffer} {op : Operation} (ops : List Operation)
    (hop : op.step? b = some b₁) : b.length + op.room ∈ b.demands (op :: ops) := by
  rw [mem_demands_cons_iff hop]
  cases op with
  | write x =>
      have hlength : b₁.length = b.length + x.encode.length :=
        length_of_bytes_eq (Item.bytes_of_append? hop)
      refine .inr (.inr ?_)
      rw [Operation.room, ← hlength]
      exact b₁.length_mem_demands ops
  | reserve n => exact .inr (.inl ⟨n, rfl, rfl⟩)

/-- At the end of a run the capacity meets the largest size that came up in it or before it. -/
theorem Grown.run? {base peak : Nat} {b b' : Buffer} (h : Grown base peak b) {ops : List Operation}
    (hrun : b.run? ops = some b') :
    ∃ peak', IsGreatest (insert peak (b.demands ops)) peak' ∧ Grown base peak' b' := by
  induction ops generalizing b peak with
  | nil =>
      cases hrun
      refine ⟨peak, ⟨Set.mem_insert _ _, ?_⟩, h⟩
      rw [demands_nil]
      rintro d (rfl | rfl)
      · exact Nat.le_refl _
      · exact h.length_le
  | cons op ops ih =>
      obtain ⟨b₁, hop, hops⟩ := Option.bind_eq_some_iff.mp hrun
      obtain ⟨peak', ⟨hmem, hupper⟩, hgrown⟩ := ih (h.step? hop) hops
      have hle : max peak (b.length + op.room) ≤ peak' := hupper (Set.mem_insert _ _)
      obtain ⟨hpeak, hroom⟩ := Nat.max_le.mp hle
      refine ⟨peak', ⟨?_, ?_⟩, hgrown⟩
      · rcases hmem with hmax | hlater
        · -- The peak is the old one or the one of this operation.
          rcases Nat.le_total peak (b.length + op.room) with hle | hle
          · rw [hmax, Nat.max_eq_right hle]
            exact .inr (add_room_mem_demands ops hop)
          · rw [hmax, Nat.max_eq_left hle]
            exact .inl rfl
        · exact .inr ((mem_demands_cons_iff hop).mpr (.inr (.inr hlater)))
      · rintro d (rfl | hd)
        · exact hpeak
        · rcases (mem_demands_cons_iff hop).mp hd with rfl | ⟨n, rfl, rfl⟩ | hlater
          · omega
          · exact hroom
          · exact hupper (.inr hlater)

theorem Grown.run?_of_length {base : Nat} {b b' : Buffer} (h : Grown base b.length b)
    {ops : List Operation} (hrun : b.run? ops = some b') :
    ∃ peak, IsGreatest (b.demands ops) peak ∧ Grown base peak b' := by
  obtain ⟨peak, hpeak, hgrown⟩ := h.run? hrun
  rw [Set.insert_eq_of_mem (b.length_mem_demands ops)] at hpeak
  exact ⟨peak, hpeak, hgrown⟩

theorem grown_empty {c : Nat} (hc : c ≤ maxCapacity) : Grown (max c 1) 0 ⟨[], max c 1⟩ := by
  refine ⟨?_, .of_le (Nat.zero_le _), Nat.le_refl 0, ?_⟩
  · exact Nat.lt_of_lt_of_le Nat.zero_lt_one (Nat.le_max_right c 1)
  · exact Nat.max_le.mpr ⟨hc, by decide⟩

/-- After a run the capacity is the first one doubled as often as the largest size needs that came
up, whatever was written or reserved on the way, in place or not. -/
theorem capacity_of_run? (c : Nat) (hc : c ≤ 2 ^ 63 - 1) :
    ∃ start, ofCapacity? c = some start ∧ (∀ ops, start.runInPlace? ops = start.run? ops) ∧
      ∀ ops b, start.run? ops = some b →
        (∃ D, IsGreatest (start.demands ops) D ∧ LeastDoubling (max c 1) D b.capacity) ∧
        (∀ pre post mid, ops = pre ++ post → start.run? pre = some mid →
          mid.length ≤ mid.capacity ∧ mid.capacity ≤ 2 ^ 63 - 1 ∧ mid.capacity ≤ b.capacity) ∧
        ∀ ops' b' D, start.run? ops' = some b' → IsGreatest (start.demands ops) D →
          IsGreatest (start.demands ops') D → b'.capacity = b.capacity := by
  have hstart : Grown (max c 1) 0 ⟨[], max c 1⟩ := grown_empty hc
  refine ⟨⟨[], max c 1⟩, if_pos hc, runInPlace?_eq_run? _, ?_⟩
  intro ops b hrun
  obtain ⟨D, hD, hgrown⟩ := hstart.run?_of_length hrun
  refine ⟨⟨D, hD, hgrown.doubling⟩, ?_, ?_⟩
  · intro pre post mid hsplit hpre
    obtain ⟨_, _, hmid⟩ := hstart.run?_of_length hpre
    rw [hsplit, run?_append, hpre, Option.bind_some] at hrun
    obtain ⟨_, _, hend⟩ := hmid.sound.grown.run? hrun
    exact ⟨hmid.length_le_capacity, hmid.capacity_le, hend.doubling.base_le⟩
  · intro ops' b' D₁ hrun' hD₁ hD₁'
    obtain ⟨D', hD', hgrown'⟩ := hstart.run?_of_length hrun'
    obtain rfl : D = D₁ := hD.unique hD₁
    obtain rfl : D' = D := hD'.unique hD₁'
    exact hgrown'.doubling.unique hgrown.doubling

/-- From four bytes to sixty-four: a number, a text whose length does not fit, a reservation. -/
theorem capacity_of_run?_accent :
    let ops : List Operation := [.write (.scalar .uint32 1), .write (.text "é"), .reserve 30]
    4 ≤ 2 ^ 63 - 1 ∧ run? ⟨[], 4⟩ ops = some ⟨[1, 0, 0, 0, 2, 0xC3, 0xA9], 64⟩ ∧
      runInPlace? ⟨[], 4⟩ ops = some ⟨[1, 0, 0, 0, 2, 0xC3, 0xA9], 64⟩ ∧
      ∃ D, IsGreatest (demands ⟨[], 4⟩ ops) D ∧ LeastDoubling 4 D 64 := by
  intro ops
  have hfour : 4 ≤ 2 ^ 63 - 1 := by decide
  have hrun : run? ⟨[], 4⟩ ops = some ⟨[1, 0, 0, 0, 2, 0xC3, 0xA9], 64⟩ := by decide +kernel
  obtain ⟨start, hstart, hsame, hcapacity⟩ := capacity_of_run? 4 hfour
  cases hstart
  exact ⟨hfour, hrun, (hsame ops).trans hrun, (hcapacity ops _ hrun).1⟩

end Buffer

end TaggedWire
