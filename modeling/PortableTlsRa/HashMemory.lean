import PortableTlsRa.HashTable
import PortableTlsRa.Lib.LinkedList

/-!
# The hash table in memory

`reg_hashtable` and `find_hashtable` on the static array and the entries that `malloc` returns.  The first entry of a
bucket stands in the array and the others are linked to it, and each function treats the two in its own way.  The
abstract table keeps for every bucket the first registration of each type and path (`kept`); the memory holds it
after every run and for every hash function (`registerAll_holds`), and so it is a map where the first registration
counts (`registerAll_firstWins`), the same as the table of lists (`findHashtable_agrees`).
-/

namespace PortableTlsRa

open CSem

namespace InMemory

variable {α : Type}

/-! ### The functions -/

/-- An entry: `none` is `NULL`, and the next entry is a place among those that were allocated. -/
structure PicaHentry (α : Type) where
  path : Option CString
  type : Int
  addr : Option α
  next : Option Nat
deriving DecidableEq

structure PicaHtable (α : Type) where
  hash : UInt32
  hentry : PicaHentry α
deriving DecidableEq

/-- A bucket of the array before anything is written. -/
def PicaHtable.zero : PicaHtable α := ⟨0, ⟨none, 0, none, none⟩⟩

/-- The array `pica_htable` and the allocated entries. -/
structure Memory (α : Type) where
  picaHtable : HashIndex → PicaHtable α
  heap : List (PicaHentry α)

/-- The memory at the start of the program. -/
def Memory.zeroed : Memory α := ⟨fun _ => .zero, []⟩

/-- What a `struct pica_hentry *` points to: the entry of a bucket, or an allocated one. -/
inductive HentryPtr where
  | bucket (hash : HashIndex)
  | allocated (i : Nat)
deriving DecidableEq

def Memory.read (mem : Memory α) : HentryPtr → Checked (PicaHentry α)
  | .bucket hash => return (mem.picaHtable hash).hentry
  | .allocated i => readAt mem.heap i

/-- The test of both functions. -/
def PicaHentry.isFor (which : Int) (path : CString) (ph : PicaHentry α) : Checked Bool :=
  if ph.type = which then strcmpEq ph.path (some path) else return false

/-- `ph->next = nent` for an entry that is newly allocated. -/
def Memory.link (mem : Memory α) (ph : HentryPtr) (nent : PicaHentry α) : Checked (Memory α) := do
  let entry ← mem.read ph
  let entry := { entry with next := some mem.heap.length }
  match ph with
  | .bucket hash =>
    let bucket := { mem.picaHtable hash with hentry := entry }
    return ⟨Function.update mem.picaHtable hash bucket, mem.heap ++ [nent]⟩
  | .allocated i => return ⟨mem.picaHtable, mem.heap.set i entry ++ [nent]⟩

/-- The loop of `reg_hashtable`: the last entry, or nothing when the same entry is found (`goto skip`). -/
def findLast (mem : Memory α) (which : Int) (path : CString) : Nat → HentryPtr → Running (Option HentryPtr)
  | 0, _ => none
  | fuel + 1, ph => do
    let entry ← checked (mem.read ph)
    match entry.next with
    | none => return some ph
    | some i => do
      let entry ← checked (mem.read (.allocated i))
      let same ← checked (entry.isFor which path)
      if same then return none else findLast mem which path fuel (.allocated i)

def regHashtable (hash : CString → HashIndex) (fuel : Nat) (mem : Memory α) (which : Int) (addr : Option α)
    (path : Option CString) : Running (Memory α) := do
  let name ← checked (deref path)
  let bucket := mem.picaHtable (hash name)
  if bucket.hash = 0 then
    let bucket := ⟨(hash name).1, { bucket.hentry with type := which, path, addr }⟩
    return { mem with picaHtable := Function.update mem.picaHtable (hash name) bucket }
  else
    let same ← checked (bucket.hentry.isFor which name)
    if same then return mem
    else
      match ← findLast mem which name fuel (.bucket (hash name)) with
      | none => return mem
      | some ph => checked (mem.link ph ⟨path, which, addr, none⟩)

/-- The loop of `find_hashtable`. -/
def findFrom (mem : Memory α) (which : Int) (path : CString) : Nat → Option HentryPtr → Running (Option α)
  | _, none => return none
  | 0, some _ => none
  | fuel + 1, some ph => do
    let entry ← checked (mem.read ph)
    let same ← checked (entry.isFor which path)
    if same then return entry.addr else findFrom mem which path fuel (entry.next.map .allocated)

def findHashtable (hash : CString → HashIndex) (fuel : Nat) (mem : Memory α) (path : Option CString) (which : Int) :
    Running (Option α) := do
  let name ← checked (deref path)
  if (mem.picaHtable (hash name)).hash = 0 then return none
  else findFrom mem which name fuel (some (.bucket (hash name)))

/-! ### The table that is meant -/

/-- A call of `reg_hashtable` with a path and an address. -/
structure Registration (α : Type) where
  which : Int
  addr : α
  path : CString
deriving DecidableEq

def Registration.isFor (which : Int) (path : CString) (r : Registration α) : Bool := r.which = which && r.path = path

/-- The address of the first registration of a type and path. -/
def firstRegistered (regs : List (Registration α)) (which : Int) (path : CString) : Option α :=
  (regs.find? (·.isFor which path)).map (·.addr)

/-- A registration comes behind those that are kept, unless its type and path are there. -/
def keep (kept : List (Registration α)) (r : Registration α) : List (Registration α) :=
  if kept.any (·.isFor r.which r.path) then kept else kept ++ [r]

/-- What a bucket keeps of the registrations. -/
def kept (hash : CString → HashIndex) (regs : List (Registration α)) (h : HashIndex) : List (Registration α) :=
  (regs.filter fun r => hash r.path = h).foldl keep []

/-- The calls, in order. -/
def registerAll (hash : CString → HashIndex) (fuel : Nat) (mem : Memory α) (regs : List (Registration α)) :
    Running (Memory α) :=
  regs.foldlM (fun mem r => regHashtable hash fuel mem r.which (some r.addr) (some r.path)) mem

/-! ### What is kept -/

variable {hash : CString → HashIndex} {regs : List (Registration α)} {r : Registration α} {which : Int}
  {path : CString} {h : HashIndex}

theorem isFor_iff : r.isFor which path = true ↔ r.which = which ∧ r.path = path := by
  simp [Registration.isFor]

theorem kept_concat_self :
    kept hash (regs ++ [r]) (hash r.path) = keep (kept hash regs (hash r.path)) r := by
  simp [kept, List.filter_append]

theorem kept_concat_other (hne : hash r.path ≠ h) : kept hash (regs ++ [r]) h = kept hash regs h := by
  simp [kept, List.filter_append, hne]

/-- A registration is kept in the bucket of its path. -/
theorem hash_of_mem_kept (hr : r ∈ kept hash regs h) : hash r.path = h := by
  induction regs using List.reverseRecOn with
  | nil => cases hr
  | append_singleton regs s ih =>
    by_cases hs : hash s.path = h
    · subst hs
      rw [kept_concat_self, keep] at hr
      split_ifs at hr with hknown
      · exact ih hr
      · rcases List.mem_append.1 hr with hr | hr
        · exact ih hr
        · rw [List.mem_singleton.1 hr]
    · rw [kept_concat_other hs] at hr
      exact ih hr

/-- Keeping a registration is as good as adding it. -/
theorem find?_keep {l : List (Registration α)} :
    (keep l r).find? (·.isFor which path) = (l ++ [r]).find? (·.isFor which path) := by
  unfold keep
  split_ifs with hknown
  · rw [List.find?_append]
    by_cases hr : r.isFor which path = true
    · obtain ⟨rfl, rfl⟩ := isFor_iff.1 hr
      rw [List.any_eq_true] at hknown
      rw [Option.or_of_isSome (List.find?_isSome.2 hknown)]
    · rw [List.find?_singleton, if_neg hr, Option.or_none]
  · rfl

/-- The bucket of a path keeps the first registration for it. -/
theorem find?_kept : (kept hash regs (hash path)).find? (·.isFor which path) = regs.find? (·.isFor which path) := by
  induction regs using List.reverseRecOn with
  | nil => rfl
  | append_singleton regs r ih =>
    rw [List.find?_append, ← ih]
    by_cases hr : hash r.path = hash path
    · rw [← hr, kept_concat_self, find?_keep, List.find?_append]
    · have hfor : ¬ r.isFor which path = true := by
        intro hfor
        exact hr (congrArg hash (isFor_iff.1 hfor).2)
      rw [kept_concat_other hr, List.find?_singleton, if_neg hfor, Option.or_none]

/-! ### What the memory holds -/

/-- The fields of an entry but the pointer to the next one. -/
def PicaHentry.data (e : PicaHentry α) : Option CString × Int × Option α := (e.path, e.type, e.addr)

/-- The fields of an entry for a registration. -/
def Registration.data (r : Registration α) : Option CString × Int × Option α := (some r.path, r.which, some r.addr)

/-- A bucket holds the registrations, in order: the first in the array and the others linked to it. -/
def Memory.Holds (mem : Memory α) (h : HashIndex) : List (Registration α) → Prop
  | [] => mem.picaHtable h = .zero
  | r :: rs => (mem.picaHtable h).hash ≠ 0 ∧ (mem.picaHtable h).hentry.data = r.data ∧
      ∃ l, Linked PicaHentry.next mem.heap (mem.picaHtable h).hentry.next l ∧ l.map (·.2.data) = rs.map (·.data)

/-- Every bucket holds what it keeps of the registrations. -/
def Represents (hash : CString → HashIndex) (mem : Memory α) (regs : List (Registration α)) : Prop :=
  ∀ h, mem.Holds h (kept hash regs h)

variable {mem mem' : Memory α} {ph : HentryPtr} {e : PicaHentry α} {l : List (Nat × PicaHentry α)}
  {rs : List (Registration α)} {fuel : Nat}

theorem represents_zeroed (hash : CString → HashIndex) : Represents hash (Memory.zeroed : Memory α) [] :=
  fun _ => rfl

/-- Each linked entry is that of a registration. -/
theorem registered_of_mem (hdata : l.map (·.2.data) = rs.map (·.data)) {x : Nat × PicaHentry α} (hx : x ∈ l) :
    ∃ r ∈ rs, x.2.path = some r.path := by
  have hstored : x.2.data ∈ rs.map (·.data) := hdata ▸ List.mem_map_of_mem hx
  obtain ⟨r, hr, hsame⟩ := List.mem_map.1 hstored
  exact ⟨r, hr, (congrArg Prod.fst hsame).symm⟩

theorem isFor_of_data (hdata : e.data = r.data) : e.isFor which path = .ok (r.isFor which path) := by
  simp only [PicaHentry.data, Registration.data, Prod.mk.injEq] at hdata
  obtain ⟨hpath, htype, -⟩ := hdata
  by_cases hwhich : r.which = which
  · have hcmp : strcmpEq e.path (some path) = .ok (decide (r.path = path)) :=
      strcmpEq_eq_ok.2 ⟨r.path, path, hpath, rfl, rfl⟩
    simp [PicaHentry.isFor, Registration.isFor, htype, hwhich, hcmp]
  · simp [PicaHentry.isFor, Registration.isFor, htype, hwhich]

/-- Where the search ends that finds no entry. -/
def lastPtr : HentryPtr → List (Nat × PicaHentry α) → HentryPtr
  | ph, [] => ph
  | _, x :: l => lastPtr (.allocated x.1) l

theorem lastPtr_concat (ph : HentryPtr) (l : List (Nat × PicaHentry α)) (x : Nat × PicaHentry α) :
    lastPtr ph (l ++ [x]) = .allocated x.1 := by
  induction l generalizing ph with
  | nil => rfl
  | cons y l ih => exact ih _

/-- The loop of `reg_hashtable` along a linked list. -/
theorem findLast_eq (which : Int) (path : CString) (he : mem.read ph = .ok e)
    (hl : Linked PicaHentry.next mem.heap e.next l) (hdata : l.map (·.2.data) = rs.map (·.data))
    (hfuel : l.length < fuel) :
    findLast mem which path fuel ph =
      some (.ok (if rs.any (·.isFor which path) then none else some (lastPtr ph l))) := by
  induction l generalizing ph e rs fuel with
  | nil =>
    obtain ⟨fuel, rfl⟩ := Nat.exists_eq_add_of_le' hfuel
    obtain rfl : rs = [] := List.map_eq_nil_iff.1 hdata.symm
    have hnext : e.next = none := hl
    simp only [findLast, he, checked_ok_bind, hnext]
    rfl
  | cons x l ih =>
    rw [List.length_cons] at hfuel
    obtain ⟨fuel, rfl⟩ := Nat.exists_eq_add_of_le' (Nat.le_trans (Nat.le_add_left 1 _) hfuel)
    obtain ⟨a, e'⟩ := x
    obtain ⟨hnext, hcell, hrest⟩ := hl
    cases rs with
    | nil => cases hdata
    | cons r rs =>
      rw [List.map_cons, List.map_cons, List.cons.injEq] at hdata
      have hread : mem.read (.allocated a) = .ok e' := readAt_eq_ok.2 hcell
      simp only [findLast, he, checked_ok_bind, hnext, hread, isFor_of_data hdata.1]
      cases hfor : r.isFor which path with
      | true =>
        rw [List.any_cons, hfor, Bool.true_or]
        rfl
      | false =>
        rw [List.any_cons, hfor, Bool.false_or]
        exact ih hread hrest hdata.2 (by omega)

/-- A turn of the loop of `find_hashtable`. -/
theorem findFrom_turn (he : mem.read ph = .ok e) (hdata : e.data = r.data) :
    findFrom mem which path (fuel + 1) (some ph) =
      if r.isFor which path then some (.ok (some r.addr))
      else findFrom mem which path fuel (e.next.map .allocated) := by
  have haddr : e.addr = some r.addr := congrArg (fun d => d.2.2) hdata
  simp only [findFrom, he, checked_ok_bind, isFor_of_data hdata, haddr]
  rfl

/-- The loop of `find_hashtable` along a linked list. -/
theorem findFrom_eq {p : Option Nat} (hl : Linked PicaHentry.next mem.heap p l)
    (hdata : l.map (·.2.data) = rs.map (·.data)) (hfuel : l.length ≤ fuel) :
    findFrom mem which path fuel (p.map .allocated) =
      some (.ok (firstRegistered rs which path)) := by
  induction l generalizing p rs fuel with
  | nil =>
    obtain rfl : rs = [] := List.map_eq_nil_iff.1 hdata.symm
    obtain rfl : p = none := hl
    cases fuel <;> rfl
  | cons x l ih =>
    obtain ⟨a, e⟩ := x
    obtain ⟨rfl, hcell, hrest⟩ := hl
    rw [List.length_cons] at hfuel
    obtain ⟨fuel, rfl⟩ := Nat.exists_eq_add_of_le' (Nat.le_trans (Nat.le_add_left 1 _) hfuel)
    cases rs with
    | nil => cases hdata
    | cons r rs =>
      rw [List.map_cons, List.map_cons, List.cons.injEq] at hdata
      have hread : mem.read (.allocated a) = .ok e := readAt_eq_ok.2 hcell
      rw [Option.map_some, findFrom_turn hread hdata.1, ih hrest hdata.2 (by omega), firstRegistered, firstRegistered,
        List.find?_cons]
      cases r.isFor which path <;> rfl

/-! ### Writing -/

/-- A bucket holds the same when it and the entries of its paths are as they were. -/
theorem Memory.Holds.frame (hholds : mem.Holds h rs) (hpaths : ∀ r ∈ rs, hash r.path = h)
    (harray : mem'.picaHtable h = mem.picaHtable h)
    (hheap : ∀ (a : Nat) (e : PicaHentry α) (path : CString), mem.heap[a]? = some e → e.path = some path →
      hash path = h → mem'.heap[a]? = some e) : mem'.Holds h rs := by
  cases rs with
  | nil => exact harray.trans hholds
  | cons r rs =>
    obtain ⟨hused, hhead, l, hl, hdata⟩ := hholds
    rw [Memory.Holds, harray]
    refine ⟨hused, hhead, l, Segment.frame hl fun x hx => ?_, hdata⟩
    obtain ⟨s, hs, hpath⟩ := registered_of_mem hdata hx
    exact hheap x.1 x.2 s.path (hl.cell x hx) hpath (hpaths s (List.mem_cons_of_mem r hs))

/-- A new entry is linked to the last one of a bucket. -/
theorem link_holds (hholds : mem.Holds h (r :: rs)) (hl : Linked PicaHentry.next mem.heap
    (mem.picaHtable h).hentry.next l) (hdata : l.map (·.2.data) = rs.map (·.data)) (nent : PicaHentry α)
    (hnext : nent.next = none) {s : Registration α} (hnent : nent.data = s.data) :
    ∃ mem', mem.link (lastPtr (.bucket h) l) nent = .ok mem' ∧ mem'.Holds h (r :: (rs ++ [s])) ∧
      mem'.heap.length = mem.heap.length + 1 ∧ (∀ h', h' ≠ h → mem'.picaHtable h' = mem.picaHtable h') ∧
      ∀ a e, mem.heap[a]? = some e → (∀ x ∈ l, x.1 ≠ a) → mem'.heap[a]? = some e := by
  obtain ⟨hused, hhead, -⟩ := hholds
  rcases List.eq_nil_or_concat' l with rfl | ⟨front, ⟨a, last⟩, rfl⟩
  · -- the entry in the array is the last one
    obtain rfl : rs = [] := List.map_eq_nil_iff.1 hdata.symm
    refine ⟨_, rfl, ?_, List.length_append, ?_, ?_⟩
    · simp only [Memory.Holds, List.nil_append, Function.update_self]
      refine ⟨hused, hhead, [(mem.heap.length, nent)], ⟨rfl, ?_, hnext⟩, ?_⟩
      · simp
      · rw [List.map_singleton, List.map_singleton, hnent]
    · intro h' hne
      exact Function.update_of_ne hne _ _
    · intro a e ha _
      rw [List.getElem?_append_left (List.getElem?_eq_some_iff.1 ha).1, ha]
  · have hread : mem.read (.allocated a) = .ok last := readAt_eq_ok.2 (hl.cell (a, last) (by simp))
    rw [lastPtr_concat, Memory.link, hread, ok_bind]
    refine ⟨_, rfl, ?_, ?_, fun _ _ => rfl, ?_⟩
    · have hlinked := hl.concat { last with next := some mem.heap.length } rfl hnext
      refine ⟨hused, hhead, _, hlinked, ?_⟩
      have hlast : PicaHentry.data { last with next := some mem.heap.length } = last.data := rfl
      rw [List.map_append, List.map_append, ← hdata, List.map_append]
      simp [hlast, hnent]
    · rw [List.length_append, List.length_set]
      rfl
    · intro b e hb hother
      have hne : a ≠ b := hother (a, last) (by simp)
      exact cell_of_set hb hne.symm _ nent

/-- A registration in a bucket that is not in use. -/
theorem regHashtable_unused (fuel : Nat) (hrep : Represents hash mem regs)
    (hempty : kept hash regs (hash r.path) = []) :
    ∃ mem', regHashtable hash fuel mem r.which (some r.addr) (some r.path) = some (.ok mem') ∧
      Represents hash mem' (regs ++ [r]) ∧ mem'.heap.length = mem.heap.length := by
  have hzero : mem.picaHtable (hash r.path) = .zero := by
    have hholds := hrep (hash r.path)
    rwa [hempty] at hholds
  refine ⟨⟨Function.update mem.picaHtable (hash r.path) ⟨(hash r.path).1, ⟨some r.path, r.which, some r.addr, none⟩⟩,
    mem.heap⟩, ?_, ?_, rfl⟩
  · simp only [regHashtable, deref, checked_ok_bind, hzero]
    rfl
  · intro h
    by_cases hh : h = hash r.path
    · subst hh
      rw [kept_concat_self, hempty]
      have hkeep : keep [] r = [r] := rfl
      simp only [hkeep, Memory.Holds, Function.update_self]
      exact ⟨(hash r.path).2.1, rfl, [], rfl, rfl⟩
    · rw [kept_concat_other (Ne.symm hh)]
      exact (hrep h).frame (fun _ => hash_of_mem_kept) (Function.update_of_ne hh _ _) fun _ _ _ hcell _ _ => hcell

/-- A call on a bucket that is in use skips what is kept, and links the rest to the last entry. -/
theorem regHashtable_eq {s : Registration α} (hused : (mem.picaHtable (hash r.path)).hash ≠ 0)
    (hhead : (mem.picaHtable (hash r.path)).hentry.data = s.data)
    (hl : Linked PicaHentry.next mem.heap (mem.picaHtable (hash r.path)).hentry.next l)
    (hdata : l.map (·.2.data) = rs.map (·.data)) (hfuel : mem.heap.length < fuel) :
    regHashtable hash fuel mem r.which (some r.addr) (some r.path) =
      if (s :: rs).any (·.isFor r.which r.path) then some (.ok mem)
      else checked (mem.link (lastPtr (.bucket (hash r.path)) l) ⟨some r.path, r.which, some r.addr, none⟩) := by
  have hread : mem.read (.bucket (hash r.path)) = .ok (mem.picaHtable (hash r.path)).hentry := rfl
  have hlast := findLast_eq r.which r.path hread hl hdata (Nat.lt_of_le_of_lt hl.length_le hfuel)
  simp only [regHashtable, deref, checked_ok_bind, if_neg hused, isFor_of_data hhead]
  rw [List.any_cons]
  cases s.isFor r.which r.path with
  | true => rfl
  | false =>
    rw [Bool.false_or]
    refine (running_ok_bind hlast _).trans ?_
    cases rs.any (·.isFor r.which r.path) <;> rfl

/-- A registration keeps the memory in step, whatever else is in its bucket. -/
theorem regHashtable_represents (hrep : Represents hash mem regs) (hfuel : mem.heap.length < fuel)
    (r : Registration α) :
    ∃ mem', regHashtable hash fuel mem r.which (some r.addr) (some r.path) = some (.ok mem') ∧
      Represents hash mem' (regs ++ [r]) ∧ mem'.heap.length ≤ mem.heap.length + 1 := by
  rcases hkept : kept hash regs (hash r.path) with _ | ⟨s, rs⟩
  · obtain ⟨mem', hrun, hrep', hlen⟩ := regHashtable_unused fuel hrep hkept
    exact ⟨mem', hrun, hrep', by omega⟩
  · have hholds := hrep (hash r.path)
    rw [hkept] at hholds
    obtain ⟨hused, hhead, l, hl, hdata⟩ := id hholds
    rw [regHashtable_eq hused hhead hl hdata hfuel]
    by_cases hknown : (s :: rs).any (·.isFor r.which r.path) = true
    · rw [if_pos hknown]
      refine ⟨mem, rfl, ?_, by omega⟩
      intro h
      by_cases hh : h = hash r.path
      · subst hh
        rw [kept_concat_self, keep, hkept, if_pos hknown, ← hkept]
        exact hrep _
      · rw [kept_concat_other (Ne.symm hh)]
        exact hrep h
    · rw [if_neg hknown]
      obtain ⟨mem', hlink, hholds', hlen, harray, hheap⟩ := link_holds hholds hl hdata
        ⟨some r.path, r.which, some r.addr, none⟩ rfl (s := r) rfl
      rw [hlink]
      refine ⟨mem', rfl, ?_, Nat.le_of_eq hlen⟩
      intro h
      by_cases hh : h = hash r.path
      · subst hh
        rw [kept_concat_self, keep, hkept, if_neg hknown]
        exact hholds'
      · rw [kept_concat_other (Ne.symm hh)]
        refine (hrep h).frame (fun _ => hash_of_mem_kept) (harray h hh) fun a e path hcell hpath hbucket => ?_
        refine hheap a e hcell fun x hx haddr => hh ?_
        -- an entry of the bucket has the hash of the bucket
        have hsame : x.2 = e := Option.some_inj.1 ((hl.cell x hx).symm.trans (haddr ▸ hcell))
        obtain ⟨t, ht, htpath⟩ := registered_of_mem hdata hx
        obtain rfl : t.path = path := Option.some_inj.1 (htpath.symm.trans (hsame ▸ hpath))
        rw [← hbucket]
        exact hash_of_mem_kept (hkept ▸ List.mem_cons_of_mem s ht)

/-! ### Runs -/

/-- After every run the memory holds the registrations. -/
theorem registerAll_represents (hrep : Represents hash mem regs) {added : List (Registration α)}
    (hfuel : mem.heap.length + added.length ≤ fuel) :
    ∃ mem', registerAll hash fuel mem added = some (.ok mem') ∧ Represents hash mem' (regs ++ added) ∧
      mem'.heap.length ≤ mem.heap.length + added.length := by
  induction added generalizing mem regs with
  | nil => exact ⟨mem, rfl, (List.append_nil regs).symm ▸ hrep, Nat.le_refl _⟩
  | cons r added ih =>
    rw [List.length_cons] at hfuel
    have hroom : mem.heap.length < fuel := by omega
    obtain ⟨mem₁, hrun₁, hrep₁, hlen₁⟩ := regHashtable_represents hrep hroom r
    obtain ⟨mem₂, hrun₂, hrep₂, hlen₂⟩ := ih hrep₁ (by omega)
    rw [List.append_assoc, List.singleton_append] at hrep₂
    refine ⟨mem₂, ?_, hrep₂, ?_⟩
    · rw [registerAll, List.foldlM_cons]
      exact (running_ok_bind hrun₁ _).trans hrun₂
    · rw [List.length_cons]
      omega

/-- What is found is the first registration. -/
theorem findHashtable_represents (hrep : Represents hash mem regs) (hfuel : mem.heap.length < fuel) (which : Int)
    (path : CString) :
    findHashtable hash fuel mem (some path) which = some (.ok (firstRegistered regs which path)) := by
  have hfirst : firstRegistered (kept hash regs (hash path)) which path = firstRegistered regs which path := by
    rw [firstRegistered, find?_kept, firstRegistered]
  have hholds := hrep (hash path)
  rw [← hfirst]
  rcases hkept : kept hash regs (hash path) with _ | ⟨r, rs⟩
  · rw [hkept] at hholds
    have hzero : mem.picaHtable (hash path) = .zero := hholds
    simp only [findHashtable, deref, checked_ok_bind, hzero]
    rfl
  · rw [hkept] at hholds
    obtain ⟨hused, hhead, l, hl, hdata⟩ := hholds
    obtain ⟨fuel, rfl⟩ := Nat.exists_eq_add_of_le' (Nat.le_trans (Nat.le_add_left 1 _) hfuel)
    have hread : mem.read (.bucket (hash path)) = .ok (mem.picaHtable (hash path)).hentry := rfl
    simp only [findHashtable, deref, checked_ok_bind, if_neg hused]
    rw [findFrom_turn hread hhead, findFrom_eq hl hdata (Nat.le_trans hl.length_le (by omega)), firstRegistered,
      firstRegistered, List.find?_cons]
    cases r.isFor which path <;> rfl

/-- From the zeroed table on, what is found is the first registration. -/
theorem registerAll_lookup (hash : CString → HashIndex) (regs : List (Registration α)) (hfuel : regs.length < fuel) :
    ∃ mem, registerAll hash fuel .zeroed regs = some (.ok mem) ∧ ∀ which path,
      findHashtable hash fuel mem (some path) which = some (.ok (firstRegistered regs which path)) := by
  have hstart : (Memory.zeroed : Memory α).heap.length = 0 := rfl
  have hroom : (Memory.zeroed : Memory α).heap.length + regs.length ≤ fuel := by omega
  obtain ⟨mem, hrun, hrep, hlen⟩ := registerAll_represents (represents_zeroed hash) hroom
  rw [List.nil_append] at hrep
  exact ⟨mem, hrun, findHashtable_represents hrep (by omega)⟩

/-- The table that the calls leave: what is found in it is the first registration of the type and path, and the same is
found where only the entries of that type are registered. -/
def FirstWins (hash : CString → HashIndex) (fuel : Nat) (regs : List (Registration α)) : Prop :=
  ∃ mem, registerAll hash fuel .zeroed regs = some (.ok mem) ∧
    (∀ which path, findHashtable hash fuel mem (some path) which = some (.ok (firstRegistered regs which path))) ∧
    ∀ which, ∃ own, registerAll hash fuel .zeroed (regs.filter (·.which = which)) = some (.ok own) ∧
      ∀ path, findHashtable hash fuel own (some path) which = findHashtable hash fuel mem (some path) which

/-- The first registration of a type is among those of the type. -/
theorem firstRegistered_filter (regs : List (Registration α)) (which : Int) (path : CString) :
    firstRegistered (regs.filter (·.which = which)) which path = firstRegistered regs which path := by
  simp [firstRegistered, List.find?_filter, Registration.isFor]

/-- From the zeroed table on, the table is a map where the first registration counts, for every hash function. -/
theorem registerAll_firstWins (hash : CString → HashIndex) (regs : List (Registration α)) :
    ∃ bound, ∀ fuel ≥ bound, FirstWins hash fuel regs := by
  refine ⟨regs.length + 1, fun fuel hfuel => ?_⟩
  obtain ⟨mem, hrun, hfind⟩ := registerAll_lookup hash regs hfuel
  refine ⟨mem, hrun, hfind, fun which => ?_⟩
  have hfilter : (regs.filter (·.which = which)).length < fuel :=
    Nat.lt_of_le_of_lt (List.length_filter_le _ _) hfuel
  obtain ⟨own, hownRun, hownFind⟩ := registerAll_lookup hash (regs.filter (·.which = which)) hfilter
  refine ⟨own, hownRun, fun path => ?_⟩
  rw [hownFind, hfind, firstRegistered_filter]

/-! ### The table of lists -/

/-- The types of the entries that are registered: `PICA_ENT_CONF_PROCINFO` and `PICA_ENT_CONF_POLICY`. -/
def typeCode : EntryType → Int
  | .confProcinfo => 1
  | .confPolicy => 3

/-- The registration of a configuration entry or a policy statement. -/
def ofAddr (reg : HashAddr × CString) : Registration HashAddr := ⟨typeCode reg.1.type, reg.1, reg.2⟩

theorem firstRegistered_ofAddr (regs : List (HashAddr × CString)) (which : EntryType) (path : CString) :
    firstRegistered (regs.map ofAddr) (typeCode which) path =
      PortableTlsRa.firstRegistered (regs.map fun reg => (reg.1, some reg.2)) which path := by
  have hfor : (fun r => r.isFor (typeCode which) path) ∘ ofAddr =
      (fun reg => reg.1.type = which && reg.2 = some path) ∘ fun reg => (reg.1, some reg.2) := by
    funext reg
    have hcode : typeCode reg.1.type = typeCode which ↔ reg.1.type = which := by
      cases reg.1.type <;> cases which <;> decide
    rw [Bool.eq_iff_iff]
    simp only [Function.comp_apply, Registration.isFor, ofAddr, Bool.and_eq_true, decide_eq_true_eq, Option.some.injEq,
      hcode]
    exact and_congr_right fun _ => decide_eq_true_iff
  rw [firstRegistered, PortableTlsRa.firstRegistered, List.find?_map, List.find?_map, hfor, Option.map_map,
    Option.map_map]
  rfl

/-- The memory and the table whose buckets are lists find the same after the same registrations. -/
theorem findHashtable_agrees (murmurHash3 : Bytes → UInt32) (regs : List (HashAddr × CString)) :
    ∃ bound, ∀ fuel ≥ bound, ∃ mem table,
      registerAll (myhash murmurHash3) fuel .zeroed (regs.map ofAddr) = some (.ok mem) ∧
      PortableTlsRa.registerAll murmurHash3 .empty (regs.map fun reg => (reg.1, some reg.2)) = .ok table ∧
      ∀ which path, findHashtable (myhash murmurHash3) fuel mem (some path) (typeCode which) =
        checked (PortableTlsRa.findHashtable murmurHash3 table (some path) which) := by
  refine ⟨(regs.map ofAddr).length + 1, fun fuel hfuel => ?_⟩
  obtain ⟨mem, hrun, hfind⟩ := registerAll_lookup (myhash murmurHash3) (regs.map ofAddr) hfuel
  have hpaths : ∀ reg ∈ regs.map fun reg => (reg.1, some reg.2), reg.2.isSome := by
    intro reg hreg
    obtain ⟨reg', -, rfl⟩ := List.mem_map.1 hreg
    rfl
  obtain ⟨table, htable⟩ := registerAll_defined_iff.2 hpaths
  have hrep := PortableTlsRa.registerAll_represents represents_empty htable
  rw [List.nil_append] at hrep
  refine ⟨mem, table, hrun, htable, fun which path => ?_⟩
  rw [hfind, findHashtable_eq hrep, firstRegistered_ofAddr]
  rfl

end InMemory

end PortableTlsRa
