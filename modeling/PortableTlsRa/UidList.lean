import PortableTlsRa.Grant

/-!
# The list of user ids

`parse_uid` takes an integer from every member of the list, whatever the member is, and `match_uid` compares the real
uid of a process, which is unsigned, with it as an `int`.  A member that is no uid is taken for one all the same: a
string without digits for uid 0.  The list means what is written exactly where all its members are integers from 0 up
to the largest `int` (`uidMeansWritten_iff`).
-/

namespace PortableTlsRa

open CSem Json

/-- The uid is accepted after the value has been parsed into the statement. -/
def UidAccepted (value : Value) (stmt : PicaStmt) (ruid : UInt32) : Prop :=
  matchUid (parseUid value stmt).uid (parseUid value stmt).uidCnt (toInt32 ruid.toNat) = .ok true

/-- The value is an array that contains the uid. -/
def UidWritten (value : Value) (ruid : UInt32) : Prop := ∃ items, value = .array items ∧ .int ruid.toNat ∈ items

/-- The member is an integer in the range of the uids. -/
def IsUid (item : Value) : Prop := ∃ ruid : UInt32, item = .int ruid.toNat

/-- A uid is accepted exactly if it is written, and what is no uid makes none acceptable. -/
structure UidMeansWritten (value : Value) : Prop where
  accepted_iff : ∀ stmt ruid, UidAccepted value stmt ruid ↔ UidWritten value ruid
  others : ∀ items, value = .array items → ∀ item ∈ items, ¬ IsUid item →
    ∀ stmt ruid, ¬ UidAccepted (.array [item]) stmt ruid

/-! ### What is accepted -/

/-- The members that are read: as many as an `int` says. -/
def readItems (items : List Value) : List Value := items.take (toInt32 items.length).toNat

theorem uidAccepted_array_iff {items : List Value} {stmt : PicaStmt} {ruid : UInt32} :
    UidAccepted (.array items) stmt ruid ↔ ∃ item ∈ readItems items, getInt item = toInt32 ruid.toNat := by
  unfold UidAccepted
  rw [matchUid_eq_true_iff]
  simp only [parseUid, ← List.map_take, List.take_take, Nat.min_self, List.mem_map]
  rfl

/-- Another value leaves the list as it was. -/
theorem uidAccepted_of_other {value : Value} (hvalue : ∀ items, value ≠ .array items) {stmt : PicaStmt}
    {ruid : UInt32} : UidAccepted value stmt ruid ↔ toInt32 ruid.toNat ∈ stmt.uids := by
  have hparse : parseUid value stmt = stmt := by
    cases value with
    | array items => exact absurd rfl (hvalue items)
    | _ => rfl
  rw [UidAccepted, hparse, matchUid_eq_true_iff]
  rfl

theorem getInt_bounds (item : Value) : -2 ^ 31 ≤ getInt item ∧ getInt item < 2 ^ 31 := by
  have hsaturate : ∀ n : Int, -2 ^ 31 ≤ saturate n ∧ saturate n < 2 ^ 31 := by
    intro n
    unfold saturate
    omega
  cases item with
  | boolean b => cases b <;> simp [getInt]
  | double integral => exact hsaturate integral
  | int n => exact hsaturate n
  | string chars => exact hsaturate (leadingNumber chars)
  | null => simp [getInt]
  | array items => simp [getInt]
  | object members => simp [getInt]

/-- Every `int` is a real uid as it is compared. -/
theorem exists_ruid {n : Int} (hlo : -2 ^ 31 ≤ n) (hhi : n < 2 ^ 31) : ∃ ruid : UInt32, toInt32 ruid.toNat = n := by
  by_cases hneg : n < 0
  · have hlt : (n + 2 ^ 32).toNat < 2 ^ 32 := by omega
    refine ⟨UInt32.ofNat (n + 2 ^ 32).toNat, ?_⟩
    rw [UInt32.toNat_ofNat', Nat.mod_eq_of_lt hlt, toInt32_of_ge (by omega) hlt]
    omega
  · have hlt : n.toNat < 2 ^ 32 := by omega
    refine ⟨UInt32.ofNat n.toNat, ?_⟩
    rw [UInt32.toNat_ofNat', Nat.mod_eq_of_lt hlt, toInt32_of_lt (by omega)]
    omega

/-- Every member alone makes some uid acceptable. -/
theorem exists_uidAccepted (item : Value) (stmt : PicaStmt) : ∃ ruid, UidAccepted (.array [item]) stmt ruid := by
  obtain ⟨hlo, hhi⟩ := getInt_bounds item
  obtain ⟨ruid, hruid⟩ := exists_ruid hlo hhi
  exact ⟨ruid, uidAccepted_array_iff.2 ⟨item, List.mem_cons_self, hruid.symm⟩⟩

theorem getInt_int_of_lt {n : Nat} (h : n < 2 ^ 31) : getInt (.int n) = n := by
  simp only [getInt, saturate]
  omega

/-- A uid that is no `int` is not accepted from a list of uids: none of them is read as a negative number. -/
theorem lt_of_getInt_eq {m : UInt32} {ruid : UInt32} (h : getInt (.int m.toNat) = toInt32 ruid.toNat) :
    ruid.toNat < 2 ^ 31 := by
  by_contra hge
  have hlt := ruid.toNat_lt
  rw [toInt32_of_ge (Nat.le_of_not_lt hge) hlt] at h
  have hnonneg : 0 ≤ getInt (.int m.toNat) := by
    simp only [getInt, saturate]
    omega
  omega

/-! ### When the list means what is written -/

/-- A member that is an integer which an `int` holds and that is read. -/
def PlainUid (items : List Value) (item : Value) : Prop :=
  item ∈ readItems items ∧ ∃ n : Nat, item = .int n ∧ n < 2 ^ 31

theorem UidMeansWritten.isArray {value : Value} (h : UidMeansWritten value) : ∃ items, value = .array items := by
  by_contra hno
  have hvalue : ∀ items, value ≠ .array items := fun items heq => hno ⟨items, heq⟩
  -- the memory of the statement holds uid 0
  let stmt : PicaStmt := ⟨none, 0, none, 1, [0], 0, [], 0, []⟩
  have haccepted : UidAccepted value stmt 0 := (uidAccepted_of_other hvalue).2 (by decide)
  obtain ⟨items, heq, -⟩ := (h.accepted_iff stmt 0).1 haccepted
  exact hvalue items heq

theorem UidMeansWritten.isUid {items : List Value} (h : UidMeansWritten (.array items)) :
    ∀ item ∈ items, IsUid item := by
  intro item hitem
  by_contra hno
  let stmt : PicaStmt := ⟨none, 0, none, 0, [], 0, [], 0, []⟩
  obtain ⟨ruid, hruid⟩ := exists_uidAccepted item stmt
  exact h.others items rfl item hitem hno stmt ruid hruid

theorem UidMeansWritten.plain {items : List Value} (h : UidMeansWritten (.array items)) :
    ∀ item ∈ items, PlainUid items item := by
  have huid := h.isUid
  let stmt : PicaStmt := ⟨none, 0, none, 0, [], 0, [], 0, []⟩
  -- a uid that is written is accepted because of a member that is read, which is a uid again
  have hread : ∀ ruid : UInt32, .int ruid.toNat ∈ items →
      ruid.toNat < 2 ^ 31 ∧ ∃ m : UInt32, .int m.toNat ∈ readItems items ∧
        getInt (.int m.toNat) = toInt32 ruid.toNat := by
    intro ruid hmem
    obtain ⟨item, hitem, hget⟩ := uidAccepted_array_iff.1 ((h.accepted_iff stmt ruid).2 ⟨items, rfl, hmem⟩)
    obtain ⟨m, rfl⟩ := huid item (List.mem_of_mem_take hitem)
    exact ⟨lt_of_getInt_eq hget, m, hitem, hget⟩
  intro item hitem
  obtain ⟨ruid, rfl⟩ := huid item hitem
  obtain ⟨hlt, m, hm, hget⟩ := hread ruid hitem
  obtain ⟨hmlt, -⟩ := hread m (List.mem_of_mem_take hm)
  rw [getInt_int_of_lt hmlt, toInt32_of_lt hlt] at hget
  have hsame : m.toNat = ruid.toNat := by omega
  rw [hsame] at hm
  exact ⟨hm, ruid.toNat, rfl, hlt⟩

/-- The list means what is written exactly where it is an array of integers that an `int` holds, all of which are
read. -/
theorem uidMeansWritten_iff (value : Value) :
    UidMeansWritten value ↔ ∃ items, value = .array items ∧ ∀ item ∈ items, PlainUid items item := by
  constructor
  · intro h
    obtain ⟨items, rfl⟩ := h.isArray
    exact ⟨items, rfl, h.plain⟩
  · rintro ⟨items, rfl, hplain⟩
    constructor
    · intro stmt ruid
      rw [uidAccepted_array_iff]
      constructor
      · intro ⟨item, hitem, hget⟩
        have hmem := List.mem_of_mem_take hitem
        obtain ⟨-, n, rfl, hn⟩ := hplain item hmem
        have hruid := ruid.toNat_lt
        have hsame : n = ruid.toNat := by
          rw [getInt_int_of_lt hn] at hget
          by_cases hlt : ruid.toNat < 2 ^ 31
          · rw [toInt32_of_lt hlt] at hget
            omega
          · rw [toInt32_of_ge (Nat.le_of_not_lt hlt) hruid] at hget
            omega
        rw [hsame] at hmem
        exact ⟨items, rfl, hmem⟩
      · intro ⟨items', heq, hmem⟩
        cases heq
        obtain ⟨hread, n, hint, hn⟩ := hplain _ hmem
        have hsame : ruid.toNat = n := by
          have hcast := Value.int.inj hint
          omega
        refine ⟨_, hread, ?_⟩
        rw [hsame, getInt_int_of_lt hn, toInt32_of_lt hn]
    · intro items' heq item hitem hno
      cases heq
      obtain ⟨-, n, rfl, hn⟩ := hplain item hitem
      have hsame : (UInt32.ofNat n).toNat = n := by
        rw [UInt32.toNat_ofNat']
        exact Nat.mod_eq_of_lt (by omega)
      exact absurd ⟨UInt32.ofNat n, by rw [hsame]⟩ hno

/-- A name in the place of a uid lets root in. -/
theorem uidList_name_is_root :
    ¬ UidMeansWritten (.array [.string (lit "alice")]) ∧
      ∃ stmt, UidAccepted (.array [.string (lit "alice")]) stmt 0 := by
  constructor
  · intro h
    obtain ⟨ruid, hruid⟩ := h.isUid _ List.mem_cons_self
    cases hruid
  · exact ⟨⟨none, 0, none, 0, [], 0, [], 0, []⟩, uidAccepted_array_iff.2 ⟨_, List.mem_cons_self, by decide⟩⟩

end PortableTlsRa
