import TaggedWire.Proofs.Growth

/-!
# Reservations up to the largest size

Sums and doublings of sizes stop at the largest word. A reservation compares such sizes, but it
comes to the same as exact arithmetic: the capacity is doubled as often as the exact sum needs, or
that takes it beyond what may be allocated and the reservation is refused. `Buffer.reserve` is the
call as a sequence of steps on the buffer that it is made on, so that it shows what a refusal leaves
behind.
-/

namespace TaggedWire

namespace Size

variable {base goal size : Nat}

/-! ## Rounds of doubling -/

/-- Doubling that stops at the largest size is doubling, cut off once at the end. -/
theorem iterate_double (hsize : size ≤ largest) (k : Nat) :
    double^[k] size = min (size * 2 ^ k) largest := by
  induction k with
  | zero => simpa using hsize
  | succ k ih =>
      rw [Function.iterate_succ_apply', ih, mul_two_pow_succ, double]
      omega

theorem le_iterate_double_iff (hsize : size ≤ largest) (hgoal : goal ≤ largest) (k : Nat) :
    goal ≤ double^[k] size ↔ goal ≤ size * 2 ^ k := by
  rw [iterate_double hsize]
  omega

theorem doubleUntil_of_le (h : goal ≤ size) : doubleUntil goal size = size := by
  rw [doubleUntil, if_neg]
  omega

/-- A loop that doubles a size for as long as it is below the goal ends, and ends with
`doubleUntil`. The induction is on the rounds that are still to come. -/
theorem exists_isLeast_iterate_double (hpos : 0 < size) (hsize : size ≤ largest)
    (hgoal : goal ≤ largest) :
    ∃ k, IsLeast {k | goal ≤ double^[k] size} k ∧ doubleUntil goal size = double^[k] size := by
  fun_induction doubleUntil goal size with
  | case1 size h ih =>
      obtain ⟨k, ⟨hk, hleast⟩, hend⟩ := ih (Nat.zero_lt_of_lt h.2) (Nat.min_le_right _ _)
      refine ⟨k + 1, ⟨hk, ?_⟩, hend⟩
      intro i hi
      cases i with
      | zero => exact absurd hi (Nat.not_le.mpr h.1)
      | succ i => exact Nat.succ_le_succ (hleast hi)
  | case2 size h =>
      have hdouble : double size = min (2 * size) largest := rfl
      have hreached : goal ≤ size := by omega
      exact ⟨0, ⟨hreached, fun i _ ↦ Nat.zero_le i⟩, rfl⟩

theorem isLeast_iterate_double_le {k : Nat} (hpos : 0 < size) (hsize : size ≤ largest)
    (hgoal : goal ≤ largest) (hk : IsLeast {k | goal ≤ double^[k] size} k) : k ≤ 64 := by
  apply hk.2
  apply (le_iterate_double_iff hsize hgoal 64).mpr
  calc
    goal ≤ 2 ^ 64 := Nat.le_trans hgoal (by decide)
    _ ≤ size * 2 ^ 64 := Nat.le_mul_of_pos_left _ hpos

/-! ## The least doubling -/

namespace LeastDoubling

theorem exists_of_pos (hpos : 0 < base) (goal : Nat) : ∃ size, LeastDoubling base goal size := by
  have hgoal : goal ≤ base * 2 ^ goal :=
    Nat.le_trans Nat.lt_two_pow_self.le (Nat.le_mul_of_pos_left _ hpos)
  obtain ⟨k, -, hk⟩ := exists_of_le hgoal
  exact ⟨base * 2 ^ k, hk⟩

theorem lt_two_mul (h : LeastDoubling base goal size) (hlt : base < goal) : size < 2 * goal := by
  obtain ⟨k, ⟨hk, hleast⟩, rfl⟩ := h
  cases k with
  | zero =>
      simp only [Set.mem_ofPred_eq, Nat.pow_zero, Nat.mul_one] at hk
      omega
  | succ k =>
      -- One doubling less does not reach the goal.
      have hshort : base * 2 ^ k < goal := by
        by_contra hreached
        exact absurd (hleast (Nat.not_lt.mp hreached)) (Nat.not_succ_le_self k)
      have hpow := mul_two_pow_succ base k
      omega

end LeastDoubling

end Size

namespace Buffer

open Size

theorem sound_of_run? {c : Nat} {start b : Buffer} (hstart : ofCapacity? c = some start)
    {ops : List Operation} (hrun : start.run? ops = some b) : b.Sound := by
  obtain ⟨hc, hempty⟩ := Option.ite_none_right_eq_some.mp hstart
  cases hempty
  obtain ⟨_, _, hgrown⟩ := (grown_empty hc).run?_of_length hrun
  exact hgrown.sound

/-! ## The call step by step -/

inductive Refusal where
  | capacityOverflow
  deriving DecidableEq, Repr

/-- Asks for room for `total` bytes, which is given unless it is more than may be allocated. -/
def allocate (total : Nat) : EStateM Refusal Buffer Unit :=
  if total ≤ maxCapacity then pure () else throw .capacityOverflow

def reserve (n : Nat) : EStateM Refusal Buffer Unit := do
  let b ← get
  let required := Size.add b.length n
  if required ≤ b.capacity then
    return
  let capacity := doubleUntil required b.capacity
  allocate (b.length + (capacity - b.length))
  set { b with capacity }

theorem reserve_apply (n : Nat) (b : Buffer) :
    reserve n b =
      (if Size.add b.length n ≤ b.capacity then pure ()
        else do
          let capacity := doubleUntil (Size.add b.length n) b.capacity
          allocate (b.length + (capacity - b.length))
          set { b with capacity } : EStateM Refusal Buffer Unit) b := rfl

theorem reserve_of_le {b : Buffer} {n : Nat} (h : Size.add b.length n ≤ b.capacity) :
    reserve n b = .ok () b := by
  rw [reserve_apply, if_pos h]
  rfl

/-- The call leaves the buffer that `reserve?` gives, or refuses and leaves the one it was made
on. -/
theorem reserve_eq {b : Buffer} (hb : b.Sound) (n : Nat) :
    reserve n b =
      match b.reserve? n with
      | some b' => .ok () b'
      | none => .error .capacityOverflow b := by
  rcases Nat.lt_or_ge b.capacity (Size.add b.length n) with hlt | hle
  · have hbase := le_doubleUntil (Size.add b.length n) b.capacity
    have htotal : b.length + (doubleUntil (Size.add b.length n) b.capacity - b.length) =
        doubleUntil (Size.add b.length n) b.capacity :=
      Nat.add_sub_cancel' (Nat.le_trans hb.length_le hbase)
    rw [reserve_apply, if_neg (Nat.not_le.mpr hlt), htotal, reserve?]
    by_cases hmax : doubleUntil (Size.add b.length n) b.capacity ≤ maxCapacity
    · simp only [allocate, if_pos hmax]
      rfl
    · simp only [allocate, if_neg hmax]
      rfl
  · have hsame : b.reserve? n = some b := by
      rw [reserve?, doubleUntil_of_le hle]
      exact if_pos hb.capacity_le
    rw [reserve_of_le hle, hsame]

theorem reserve_of_leastDoubling {b : Buffer} (hb : b.Sound) {n C : Nat}
    (hC : LeastDoubling b.capacity (b.length + n) C) :
    reserve n b = if C ≤ 2 ^ 63 - 1 then .ok () ⟨b.bytes, C⟩ else .error .capacityOverflow b := by
  rw [reserve_eq hb]
  split
  · next b' hsome =>
    obtain ⟨hbytes, hdouble, hmax⟩ := (reserve?_eq_some_iff hb.capacity_pos).mp hsome
    obtain rfl := hdouble.unique hC
    have hallowed : b'.capacity ≤ 2 ^ 63 - 1 := hmax
    rw [if_pos hallowed, ← hbytes]
  · next hnone =>
    have hrefused : ¬C ≤ 2 ^ 63 - 1 := by
      intro hmax
      have hsome : b.reserve? n = some ⟨b.bytes, C⟩ :=
        (reserve?_eq_some_iff hb.capacity_pos).mpr ⟨rfl, hC, hmax⟩
      simp [hnone] at hsome
    rw [if_neg hrefused]

/-- The loop of a reservation ends, and what the call does is settled by exact arithmetic: with room
enough it changes nothing, and otherwise the capacity becomes its least doubling with room for all
bytes. If that may not be allocated the call is refused and leaves the buffer as it was. -/
theorem reserve_least_doubling (b : Buffer) (n : Nat) :
    (∀ c start ops, ofCapacity? c = some start → start.run? ops = some b → b.Sound) ∧
    (b.Sound →
      (reserve n b =
        match b.reserve? n with
        | some b' => .ok () b'
        | none => .error .capacityOverflow b) ∧
      (∃ k ≤ 64, IsLeast {k | Size.add b.length n ≤ double^[k] b.capacity} k ∧
        doubleUntil (Size.add b.length n) b.capacity = double^[k] b.capacity) ∧
      (b.length + n ≤ b.capacity → reserve n b = .ok () b) ∧
      (b.capacity < b.length + n →
        ∃ C, LeastDoubling b.capacity (b.length + n) C ∧ C < 2 * (b.length + n) ∧
          (C ≤ 2 ^ 63 - 1 → reserve n b = .ok () ⟨b.bytes, C⟩) ∧
          (2 ^ 63 - 1 < C → reserve n b = .error .capacityOverflow b))) := by
  refine ⟨fun c start ops hstart hrun ↦ sound_of_run? hstart hrun, ?_⟩
  intro hb
  have hlargest : b.capacity ≤ largest := Nat.le_trans hb.capacity_le maxCapacity_lt_largest.le
  have hsum : Size.add b.length n ≤ largest := Nat.min_le_right _ _
  refine ⟨reserve_eq hb n, ?_, ?_, ?_⟩
  · obtain ⟨k, hk, hend⟩ := exists_isLeast_iterate_double hb.capacity_pos hlargest hsum
    exact ⟨k, isLeast_iterate_double_le hb.capacity_pos hlargest hsum hk, hk, hend⟩
  · intro hroom
    exact reserve_of_le (Nat.le_trans (Nat.min_le_left _ _) hroom)
  · intro hlt
    obtain ⟨C, hC⟩ := LeastDoubling.exists_of_pos hb.capacity_pos (b.length + n)
    have hcall := reserve_of_leastDoubling hb hC
    refine ⟨C, hC, hC.lt_two_mul hlt, ?_, ?_⟩
    · intro hmax
      rw [hcall, if_pos hmax]
    · intro hover
      rw [hcall, if_neg (Nat.not_le.mpr hover)]

/-- Two bytes in a buffer for three: ten more make room for twelve, and for as many as may be
allocated in all there is no room behind them. -/
theorem reserve_least_doubling_three :
    let b : Buffer := ⟨[1, 2], 3⟩
    b.Sound ∧ reserve 10 b = .ok () ⟨[1, 2], 12⟩ ∧
      reserve (2 ^ 63 - 1) b = .error .capacityOverflow b := by
  intro b
  have hwrite : run? ⟨[], 3⟩ [.write (.scalar .uint16 0x0201)] = some b := by decide +kernel
  have hb : b.Sound := (reserve_least_doubling b 10).1 3 _ _ rfl hwrite
  refine ⟨hb, ?_, ?_⟩
  · obtain ⟨C, hC, -, hgranted, -⟩ := ((reserve_least_doubling b 10).2 hb).2.2.2 (by decide)
    have htwelve : LeastDoubling 3 12 12 := by
      refine ⟨2, ⟨by decide, ?_⟩, rfl⟩
      intro k hk
      by_contra hsmall
      have hcases : k = 0 ∨ k = 1 := by omega
      rcases hcases with rfl | rfl <;> simp at hk
    obtain rfl : C = 12 := hC.unique htwelve
    exact hgranted (by decide)
  · obtain ⟨C, hC, -, -, hrefused⟩ :=
      ((reserve_least_doubling b (2 ^ 63 - 1)).2 hb).2.2.2 (by decide)
    have hgoal : 2 + (2 ^ 63 - 1) ≤ C := hC.goal_le
    exact hrefused (by omega)

end Buffer

end TaggedWire
