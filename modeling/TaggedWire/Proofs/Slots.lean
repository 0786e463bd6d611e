import TaggedWire.Proofs.Scalar
import TaggedWire.Proofs.Spellings

/-!
# Writing digits into slots

The digits of a word come off it least significant first and stand on the wire the other way round.
The writer of this module works on the word with masks and shifts: it collects marked digits in ten
slots from the first on, takes the mark off the one that is to come last, and copies what it has in
reverse over the slots that it was given. Where it reaches for a slot that is not there it gives
nothing at all. It never does, and it leaves behind what `store` leaves behind.
-/

namespace TaggedWire.Varint

/-- Puts a byte into the slot with index `i`. -/
def put? (slots : Bytes) (i : Nat) (b : UInt8) : Option Bytes :=
  if i < slots.length then some (slots.set i b) else none

theorem toNat_shiftRight_seven (v : UInt64) : (v >>> 7).toNat = v.toNat / 128 := by
  simp [UInt64.toNat_shiftRight, Nat.shiftRight_eq_div_pow]

/-- Collects the marked digits of a word in the slots from `count` on, least significant digit
first. Also returns the number of slots that are then in use. -/
def collect? (v : UInt64) (count : Nat) (slots : Bytes) : Option (Nat × Bytes) :=
  if v = 0 then some (count, slots)
  else
    (put? slots count (v.toUInt8 &&& 0x7F ||| 0x80)).bind fun slots ↦
      collect? (v >>> 7) (count + 1) slots
termination_by v.toNat
decreasing_by
  have hne := toNat_ne_zero ‹v ≠ 0›
  have hshift := toNat_shiftRight_seven v
  omega

/-- Writes new bytes over the first of the old ones, as far as there are both. -/
def overwrite : (old new : Bytes) → Bytes
  | _ :: old, b :: new => b :: overwrite old new
  | old, _ => old

/-- Writes the digits of a word over the first of the slots in `out`, one slot after the other. Also
returns how many slots were written. -/
def storeSlots? (v : UInt64) (out : Bytes) : Option (Nat × Bytes) :=
  if v = 0 then (put? out 0 0).map fun out ↦ (1, out)
  else
    (collect? v 0 (List.replicate maxDigits 0)).bind fun (count, slots) ↦
      slots[0]?.bind fun last ↦
        (put? slots 0 (last &&& 0x7F)).bind fun slots ↦
          (slots.slice? 0 count).map fun digits ↦ (count, overwrite out digits.reverse)

/-! ## Masks and shifts -/

theorem toUInt8_and (v : UInt64) : v.toUInt8 &&& 0x7F = UInt8.ofNat (v.toNat % 128) := by
  have hmask : v.toNat % 256 &&& 127 = v.toNat % 256 % 128 :=
    Nat.and_two_pow_sub_one_eq_mod (v.toNat % 256) 7
  have hleft : (v.toUInt8 &&& 0x7F).toNat = v.toNat % 256 % 128 := by
    simpa [UInt8.toNat_and] using hmask
  have hright := UInt8.toNat_ofNat' (n := v.toNat % 128)
  apply UInt8.toNat_inj.mp
  omega

theorem ofNat_or (n : Nat) : UInt8.ofNat (n % 128) ||| 0x80 = UInt8.ofNat (n % 128 + 128) := by
  have hbyte : ∀ d < 128, UInt8.ofNat d ||| 0x80 = UInt8.ofNat (d + 128) := by decide
  exact hbyte (n % 128) (Nat.mod_lt _ (by decide))

theorem ofNat_add_and (n : Nat) : UInt8.ofNat (n % 128 + 128) &&& 0x7F = UInt8.ofNat (n % 128) := by
  have hbyte : ∀ d < 128, UInt8.ofNat (d + 128) &&& 0x7F = UInt8.ofNat d := by decide
  exact hbyte (n % 128) (Nat.mod_lt _ (by decide))

/-! ## The writer stays within its slots -/

theorem put?_append_cons (pre post : Bytes) (old b : UInt8) :
    put? (pre ++ old :: post) pre.length b = some (pre ++ b :: post) := by
  simp [put?]

/-- The induction is on the number of slots that are left: each round takes one of them and a digit
off the word. -/
theorem collect?_append_replicate {v : UInt64} {room : Nat}
    (hroom : (leadingDigits v.toNat).length ≤ room) (used : Bytes) :
    collect? v used.length (used ++ List.replicate room 0) =
      some (used.length + (leadingDigits v.toNat).length,
        used ++ (leadingDigits v.toNat).reverse ++
          List.replicate (room - (leadingDigits v.toNat).length) 0) := by
  induction room generalizing v used with
  | zero =>
      have hzero : v.toNat = 0 := by
        have hlt := length_leadingDigits_le_iff.mp hroom
        omega
      have hv : v = 0 := UInt64.toNat_inj.mp hzero
      rw [collect?]
      simp [hv]
  | succ room ih =>
      by_cases hv : v = 0
      · rw [collect?]
        simp [hv]
      · have hdigits := leadingDigits_of_pos (toNat_ne_zero hv)
        have hshift := toNat_shiftRight_seven v
        have hleft : (leadingDigits (v >>> 7).toNat).length ≤ room := by
          simpa [hdigits, hshift] using hroom
        have hrest := ih hleft (used ++ [UInt8.ofNat (v.toNat % 128 + 128)])
        rw [collect?, if_neg hv, toUInt8_and, ofNat_or, List.replicate_succ, put?_append_cons,
          Option.bind_some]
        simpa [hdigits, hshift, Nat.add_assoc, Nat.add_comm 1] using hrest

theorem getElem?_overwrite (old new : Bytes) (i : Nat) :
    (overwrite old new)[i]? = old[i]?.map fun b ↦ new[i]?.getD b := by
  induction old generalizing new i with
  | nil => cases new <;> simp [overwrite]
  | cons a old ih =>
      cases new with
      | nil => simp [overwrite]
      | cons b new => cases i <;> simp [overwrite, ih]

theorem overwrite_toList (slots : Vector UInt8 maxDigits) (new : Bytes) :
    overwrite slots.toList new = (slots.mapIdx fun i old ↦ new[i]?.getD old).toList := by
  apply List.ext_getElem?
  intro i
  simp [getElem?_overwrite]

theorem put?_zero_zero (slots : Vector UInt8 maxDigits) :
    put? slots.toList 0 0 = some (overwrite slots.toList [0]) := by
  have hne : slots.toList ≠ [] :=
    List.ne_nil_of_length_pos ((Nat.zero_lt_succ 9).trans_eq slots.length_toList.symm)
  obtain ⟨old, rest, hslots⟩ := List.exists_cons_of_ne_nil hne
  cases rest <;> simp [hslots, put?, overwrite]

theorem collect?_of_ne_zero {v : UInt64} (hv : v ≠ 0) :
    collect? v 0 (List.replicate maxDigits 0) =
      some (encodedLength v, UInt8.ofNat (v.toNat % 128 + 128) ::
        ((leadingDigits (v.toNat / 128)).reverse ++
          List.replicate (maxDigits - encodedLength v) 0)) := by
  have hdigits := leadingDigits_of_pos (toNat_ne_zero hv)
  have hlength : (leadingDigits v.toNat).length = encodedLength v := by
    simp [hdigits, ← length_encode, encode]
  have hroom : (leadingDigits v.toNat).length ≤ maxDigits := hlength.trans_le (encodedLength_le v)
  have hcollect := collect?_append_replicate hroom []
  rw [hlength, hdigits] at hcollect
  simpa using hcollect

/-- Without its mark the first slot holds the last digit, and the slots in use hold the digits of
the word in reverse. -/
theorem put?_unmarked (v : UInt64) (rest : Bytes) :
    put? (UInt8.ofNat (v.toNat % 128 + 128) :: ((leadingDigits (v.toNat / 128)).reverse ++ rest)) 0
        (UInt8.ofNat (v.toNat % 128 + 128) &&& 0x7F) = some ((encode v).reverse ++ rest) := by
  have hput := put?_append_cons [] ((leadingDigits (v.toNat / 128)).reverse ++ rest)
    (UInt8.ofNat (v.toNat % 128 + 128)) (UInt8.ofNat (v.toNat % 128))
  rw [ofNat_add_and]
  simpa [encode] using hput

theorem slice?_reverse_encode (v : UInt64) (rest : Bytes) :
    Bytes.slice? ((encode v).reverse ++ rest) 0 (encodedLength v) = some (encode v).reverse := by
  have hlength : (encode v).reverse.length = encodedLength v := by simp [length_encode]
  simp [← hlength, Bytes.slice?]

theorem storeSlots?_toList (v : UInt64) (slots : Vector UInt8 maxDigits) :
    storeSlots? v slots.toList = some (encodedLength v, (store v slots).2.toList) := by
  have hstore : (store v slots).2.toList = overwrite slots.toList (encode v) :=
    (overwrite_toList slots (encode v)).symm
  rw [storeSlots?, hstore]
  by_cases hv : v = 0
  · have hzero : encode 0 = [0] := by simp [encode]
    simp [hv, put?_zero_zero, hzero, encodedLength]
  · simp only [if_neg hv, collect?_of_ne_zero hv, Option.bind_some, List.getElem?_cons_zero,
      put?_unmarked, slice?_reverse_encode, Option.map_some, List.reverse_reverse]

/-! ## Each digit in its place -/

theorem div_div_pow (n j : Nat) : n / 128 / 128 ^ j = n / 128 ^ (j + 1) := by
  rw [Nat.div_div_eq_div_mul, Nat.pow_succ']

theorem leadingDigits_of_lt_length {n j : Nat} (hj : j < (leadingDigits n).length) :
    leadingDigits n = leadingDigits (n / 128) ++ [UInt8.ofNat (n % 128 + 128)] := by
  apply leadingDigits_of_pos
  intro hn
  simp [hn] at hj

theorem getElem?_reverse_leadingDigits {n j : Nat} (hj : j < (leadingDigits n).length) :
    (leadingDigits n).reverse[j]? = some (UInt8.ofNat (n / 128 ^ j % 128 + 128)) := by
  induction j generalizing n with
  | zero => simp [leadingDigits_of_lt_length hj]
  | succ j ih =>
      have hdigits := leadingDigits_of_lt_length hj
      have hlower : j < (leadingDigits (n / 128)).length := by simpa [hdigits] using hj
      simpa [hdigits, div_div_pow] using ih hlower

theorem getElem?_reverse_digits {n j : Nat} (hj : j < (digits n).length) :
    (digits n).reverse[j]? =
      some (UInt8.ofNat (n / 128 ^ j % 128 + if j = 0 then 0 else 128)) := by
  cases j with
  | zero => simp [digits]
  | succ j =>
      have hlower : j < (leadingDigits (n / 128)).length := by simpa [digits] using hj
      simpa [digits, div_div_pow] using getElem?_reverse_leadingDigits hlower

theorem getElem?_encode {v : UInt64} {i : Nat} (hi : i < encodedLength v) :
    (encode v)[i]? = some (UInt8.ofNat (v.toNat / 128 ^ (encodedLength v - 1 - i) % 128 +
      if i + 1 = encodedLength v then 0 else 128)) := by
  have hlength : (digits v.toNat).length = encodedLength v := length_encode v
  have hreverse := getElem?_reverse_digits (n := v.toNat) (j := encodedLength v - 1 - i) (by omega)
  have hindex : encodedLength v - 1 - (encodedLength v - 1 - i) = i := by omega
  have hlast : encodedLength v - 1 - i = 0 ↔ i + 1 = encodedLength v := by omega
  rw [List.getElem?_reverse (by omega), hlength, hindex] at hreverse
  simpa only [hlast, encode_eq_digits] using hreverse

theorem getElem?_encode_of_le {v : UInt64} {i : Nat} (hi : encodedLength v ≤ i) :
    (encode v)[i]? = none :=
  List.getElem?_eq_none ((length_encode v).trans_le hi)

theorem getElem?_store (v : UInt64) (slots : Vector UInt8 maxDigits) (i : Nat) :
    (store v slots).2[i]? = if i < encodedLength v then (encode v)[i]? else slots[i]? := by
  have hshape : (store v slots).2[i]? = slots[i]?.map fun old ↦ (encode v)[i]?.getD old := by
    simp [store]
  have hmax := encodedLength_le v
  split
  · next hi =>
    have hslot : slots[i]? = some slots[i] := Vector.getElem?_eq_getElem (by omega)
    rw [hshape, hslot, getElem?_encode hi, Option.map_some, Option.getD_some]
  · next hi => simp [hshape, getElem?_encode_of_le (Nat.not_lt.mp hi)]

theorem take_store (v : UInt64) (slots : Vector UInt8 maxDigits) :
    (store v slots).2.toList.take (encodedLength v) = encode v := by
  apply List.ext_getElem?
  intro i
  rw [List.getElem?_take]
  split
  · next hi =>
    have hout := getElem?_store v slots i
    simpa [hi] using hout
  · next hi => exact (getElem?_encode_of_le (Nat.not_lt.mp hi)).symm

/-- The writer that works slot by slot never leaves its ten slots, and its count is the number of
digits that the highest bit tells, the least that can spell the word. The digits of the word stand
in the first slots, most significant first and with a mark on all but the last, and every other slot
keeps what it held. -/
theorem storeSlots?_digits_in_place (v : UInt64) (slots : Vector UInt8 maxDigits) :
    let L := encodedLength v
    let out := (store v slots).2
    storeSlots? v slots.toList = some (L, out.toList) ∧ (store v slots).1 = L ∧ L ≤ 10 ∧
    IsLeast {k | 1 ≤ k ∧ v.toNat < 128 ^ k} L ∧
    out.toList.take L = encode v ∧
    (∀ i < L, out[i]? =
      some (UInt8.ofNat (v.toNat / 128 ^ (L - 1 - i) % 128 + if i + 1 = L then 0 else 128))) ∧
    out[0]? ≠ some 0x80 ∧
    ∀ i, L ≤ i → out[i]? = slots[i]? := by
  intro L out
  refine ⟨storeSlots?_toList v slots, length_encode v, encodedLength_le v, isLeast_encodedLength v,
    take_store v slots, ?_, ?_, ?_⟩
  · intro i hi
    have hout := getElem?_store v slots i
    rw [if_pos hi, getElem?_encode hi] at hout
    exact hout
  · intro hzero
    have hout := getElem?_store v slots 0
    rw [if_pos (encodedLength_pos v), hzero, ← List.head?_eq_getElem?] at hout
    obtain ⟨ds, hds⟩ := List.head?_eq_some_iff.mp hout.symm
    exact digits_ne_cons v.toNat ds hds
  · intro i hi
    have hout := getElem?_store v slots i
    rw [if_neg (Nat.not_lt.mpr hi)] at hout
    exact hout

end TaggedWire.Varint
