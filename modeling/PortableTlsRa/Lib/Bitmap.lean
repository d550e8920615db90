import PortableTlsRa.Lib.Bytes

/-!
# Bitmaps

A byte string as a set of numbers: `i` is a member if bit `i % 8` of byte `i / 8` is set.  The members after bits are
set one after the other do not depend on their order or on repetitions (`has_foldl_setBit`), and equal bytes are equal
sets (`take_eq_take_iff`).
-/

namespace Bitmap

open CSem

def has (map : Bytes) (i : Nat) : Bool := (map.getD (i / 8) 0).toNat.testBit (i % 8)

/-- Set the bit of a number; one outside of the bytes is left out. -/
def setBit (map : Bytes) (i : Nat) : Bytes := map.modify (i / 8) (· ||| 1 <<< UInt8.ofNat (i % 8))

theorem length_setBit (map : Bytes) (i : Nat) : (setBit map i).length = map.length := by
  rw [setBit, List.length_modify]

theorem length_foldl_setBit (map : Bytes) (l : List Nat) : (l.foldl setBit map).length = map.length := by
  induction l generalizing map with
  | nil => rfl
  | cons i l ih => rw [List.foldl_cons, ih, length_setBit]

/-- A byte with one bit. -/
theorem toNat_one_shiftLeft {k : Nat} (h : k < 8) : ((1 : UInt8) <<< UInt8.ofNat k).toNat = 2 ^ k := by
  have hsmall : k % 2 ^ 8 = k := Nat.mod_eq_of_lt (by omega)
  have hpow : 2 ^ k < 2 ^ 8 := Nat.pow_lt_pow_right (by omega) h
  rw [UInt8.toNat_shiftLeft, UInt8.toNat_ofNat', hsmall, Nat.mod_eq_of_lt h, UInt8.toNat_one, Nat.shiftLeft_eq,
    Nat.one_mul, Nat.mod_eq_of_lt hpow]

theorem testBit_byte {byte : UInt8} {j : Nat} (h : 8 ≤ j) : byte.toNat.testBit j = false := by
  have hbyte := byte.toNat_lt
  have hpow : 2 ^ 8 ≤ 2 ^ j := Nat.pow_le_pow_right (by omega) h
  exact Nat.testBit_lt_two_pow (by omega)

/-- A bit is tested with a mask. -/
theorem and_shiftLeft_ne_zero_iff {n k : Nat} : n &&& 1 <<< k ≠ 0 ↔ n.testBit k = true := by
  have hmask (j : Nat) : (n &&& 1 <<< k).testBit j = (n.testBit j && decide (k = j)) := by
    rw [Nat.testBit_and, Nat.shiftLeft_eq, Nat.one_mul, Nat.testBit_two_pow]
  constructor
  · intro hne
    by_contra hbit
    have hfalse : n.testBit k = false := Bool.eq_false_iff.2 hbit
    apply hne
    apply Nat.eq_of_testBit_eq
    intro j
    rw [hmask, Nat.zero_testBit]
    by_cases hj : k = j
    · subst hj
      simp [hfalse]
    · simp [hj]
  · intro hbit hzero
    have hk := hmask k
    simp [hzero, hbit] at hk

variable {map : Bytes} {i j : Nat}

/-- The number becomes a member, and no other changes. -/
theorem has_setBit (hi : i < 8 * map.length) : has (setBit map i) j = (decide (i = j) || has map j) := by
  unfold has setBit
  rw [List.getD_eq_getElem?_getD, List.getD_eq_getElem?_getD, List.getElem?_modify]
  by_cases hbyte : i / 8 = j / 8
  · have hlt : j / 8 < map.length := by omega
    have hbit : decide (i % 8 = j % 8) = decide (i = j) := by
      rw [decide_eq_decide]
      omega
    rw [List.getElem?_eq_getElem hlt]
    simp only [Option.map_eq_map, Option.map_some, Option.getD_some, if_pos hbyte]
    rw [UInt8.toNat_or, Nat.testBit_or, toNat_one_shiftLeft (Nat.mod_lt i (by omega)), Nat.testBit_two_pow, hbit,
      Bool.or_comm]
  · have hne : i ≠ j := by
      rintro rfl
      exact hbyte rfl
    simp [hbyte, hne]

/-- The members after a run are those before it and those of the list. -/
theorem has_foldl_setBit {l : List Nat} (hl : ∀ i ∈ l, i < 8 * map.length) :
    has (l.foldl setBit map) j = (decide (j ∈ l) || has map j) := by
  induction l generalizing map with
  | nil => simp
  | cons i l ih =>
    rw [List.forall_mem_cons] at hl
    have hrest : ∀ i' ∈ l, i' < 8 * (setBit map i).length := by
      rw [length_setBit]
      exact hl.2
    rw [List.foldl_cons, ih hrest, has_setBit hl.1, Bool.or_left_comm, ← Bool.or_assoc]
    congr 1
    rw [← Bool.decide_or, decide_eq_decide, List.mem_cons]
    exact or_congr_left eq_comm

@[simp] theorem has_replicate_zero (n j : Nat) : has (List.replicate n 0) j = false := by
  have hzero : (List.replicate n (0 : UInt8)).getD (j / 8) 0 = 0 := by
    rw [List.getD_eq_getElem?_getD, List.getElem?_replicate]
    split <;> rfl
  rw [has, hzero]
  exact Nat.zero_testBit (j % 8)

/-- The first bytes of two bitmaps are equal where these have the same members. -/
theorem take_eq_take_iff {map' : Bytes} {n : Nat} (hle : n ≤ map.length) (hle' : n ≤ map'.length) :
    map.take n = map'.take n ↔ ∀ i < 8 * n, has map i = has map' i := by
  have hgetD {b : Bytes} {k : Nat} (hk : k < n) : (b.take n).getD k 0 = b.getD k 0 := by
    rw [List.getD_eq_getElem?_getD, List.getD_eq_getElem?_getD, List.getElem?_take_of_lt hk]
  constructor
  · intro heq i hi
    have hbyte : i / 8 < n := by omega
    rw [has, has, ← hgetD hbyte, heq, hgetD hbyte]
  · intro hsame
    apply List.ext_getElem
    · rw [List.length_take_of_le hle, List.length_take_of_le hle']
    · intro k hk hk'
      rw [List.length_take_of_le hle] at hk
      rw [List.getElem_take, List.getElem_take]
      apply UInt8.toNat_inj.1
      apply Nat.eq_of_testBit_eq
      intro b
      by_cases hb : b < 8
      · have hdiv : (8 * k + b) / 8 = k := by omega
        have hmod : (8 * k + b) % 8 = b := by omega
        have hbit := hsame (8 * k + b) (by omega)
        have hget : k < map.length := by omega
        have hget' : k < map'.length := by omega
        rw [has, has, hdiv, hmod] at hbit
        simpa [hget, hget'] using hbit
      · rw [testBit_byte (by omega), testBit_byte (by omega)]

end Bitmap
