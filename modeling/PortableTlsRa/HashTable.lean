import PortableTlsRa.ProcInfo
import Mathlib.Logic.Function.Basic

/-!
# The hash table of registered configurations

`reg_hashtable` and `find_hashtable`, and the runs of the functions that fill the table.  The abstract table is the
list of registrations in the order they are made, where the first one of a type and path counts; the buckets
represent it whatever the hash function is (`Represents`), after every run (`runSetup_represents`).
-/

namespace PortableTlsRa

open CSem

/-- What an entry points to.  The constructor stands for the `type` of the entry: `PICA_ENT_CONF_PROCINFO` or
`PICA_ENT_CONF_POLICY`. -/
inductive HashAddr where
  | procinfo (p : Procinfo)
  | stmt (s : PicaStmt)
deriving DecidableEq

inductive EntryType where
  | confProcinfo
  | confPolicy
deriving DecidableEq

def HashAddr.type : HashAddr → EntryType
  | .procinfo _ => .confProcinfo
  | .stmt _ => .confPolicy

structure PicaHentry where
  path : CString
  addr : HashAddr
deriving DecidableEq

/-- The test of both functions on an entry: type and path are the ones asked for. -/
def PicaHentry.isFor (which : EntryType) (path : CString) (ph : PicaHentry) : Bool :=
  ph.addr.type = which && ph.path = path

/-- A bucket.  `hash` is 0 in a bucket that is not in use; `hentry` lists the entry of the bucket and the entries
that are chained to it. -/
structure PicaHtable where
  hash : UInt32
  hentry : List PicaHentry
deriving DecidableEq

/-- The values of `myhash`: bucket 0 is never used. -/
abbrev HashIndex := { h : UInt32 // h ≠ 0 ∧ h.toNat < 1024 }

abbrev HashTable := HashIndex → PicaHtable

def HashTable.empty : HashTable := fun _ => ⟨0, []⟩

variable (murmurHash3 : Bytes → UInt32)

def myhash (path : CString) : HashIndex :=
  let h := murmurHash3 path.1
  let hash := ((h >>> 16) ^^^ (h &&& 0xffff)) % 1024
  if hzero : hash = 0 then ⟨1, by decide⟩
  else ⟨hash, hzero, by
    have hmod : hash.toNat = ((h >>> 16) ^^^ (h &&& 0xffff)).toNat % 1024 := UInt32.toNat_mod _ _
    omega⟩

def regHashtable (table : HashTable) (addr : HashAddr) (path : Option CString) : Checked HashTable := do
  let path ← deref path
  let hash := myhash murmurHash3 path
  let bucket := table hash
  if bucket.hash = 0 then
    return Function.update table hash ⟨hash.1, ⟨path, addr⟩ :: bucket.hentry.tail⟩
  else if bucket.hentry.any (·.isFor addr.type path) then
    return table
  else
    return Function.update table hash { bucket with hentry := bucket.hentry ++ [⟨path, addr⟩] }

/-- The walk along the entries of a bucket. -/
def findEntry (entries : List PicaHentry) (which : EntryType) (path : CString) : Option HashAddr :=
  (entries.find? (·.isFor which path)).map (·.addr)

def findHashtable (table : HashTable) (path : Option CString) (which : EntryType) : Checked (Option HashAddr) := do
  let path ← deref path
  let bucket := table (myhash murmurHash3 path)
  if bucket.hash = 0 then return none
  return findEntry bucket.hentry which path

/-! ### Filling the table -/

/-- A call that registers entries: building the table anew, or reading a configuration or a policy into it. -/
inductive Setup where
  | buildHashtable (procinfo : List Procinfo)
  | readConfig (procinfo : List Procinfo)
  | readPolicy (stmt : List PicaStmt)

/-- The registrations of a loop over configuration entries or policy statements, in order. -/
def registerAll (table : HashTable) (regs : List (HashAddr × Option CString)) : Checked HashTable :=
  regs.foldlM (fun table reg => regHashtable murmurHash3 table reg.1 reg.2) table

def confRegistrations (procinfo : List Procinfo) : List (HashAddr × Option CString) :=
  procinfo.map fun p => (.procinfo p, p.path)

def policyRegistrations (stmt : List PicaStmt) : List (HashAddr × Option CString) :=
  stmt.map fun s => (.stmt s, s.execPath)

def setupStep (table : HashTable) : Setup → Checked HashTable
  | .buildHashtable procinfo => registerAll murmurHash3 HashTable.empty (confRegistrations procinfo)
  | .readConfig procinfo => registerAll murmurHash3 table (confRegistrations procinfo)
  | .readPolicy stmt => registerAll murmurHash3 table (policyRegistrations stmt)

/-- The table after a run of set-up calls. -/
def runSetup (setups : List Setup) : Checked HashTable :=
  setups.foldlM (setupStep murmurHash3) HashTable.empty

def setupRegistrations (regs : List (HashAddr × Option CString)) : Setup → List (HashAddr × Option CString)
  | .buildHashtable procinfo => confRegistrations procinfo
  | .readConfig procinfo => regs ++ confRegistrations procinfo
  | .readPolicy stmt => regs ++ policyRegistrations stmt

/-- The registrations that are in force after a run: those since the table was last built anew. -/
def registrations (setups : List Setup) : List (HashAddr × Option CString) :=
  setups.foldl setupRegistrations []

/-! ### What the table represents -/

/-- The first registration of a type and path. -/
def firstRegistered (regs : List (HashAddr × Option CString)) (which : EntryType) (path : CString) :
    Option HashAddr :=
  (regs.find? fun reg => reg.1.type = which && reg.2 = some path).map (·.1)

/-- The table holds the first registration of every type and path. -/
structure Represents (table : HashTable) (regs : List (HashAddr × Option CString)) : Prop where
  unused : ∀ h, (table h).hash = 0 → (table h).hentry = []
  lookup : ∀ which path,
    findEntry (table (myhash murmurHash3 path)).hentry which path = firstRegistered regs which path

variable {murmurHash3} {table table' : HashTable} {regs : List (HashAddr × Option CString)}

theorem represents_empty : Represents murmurHash3 HashTable.empty [] where
  unused := fun _ _ => rfl
  lookup := fun _ _ => rfl

theorem firstRegistered_append {which : EntryType} {path p : CString} {addr : HashAddr} :
    firstRegistered (regs ++ [(addr, some p)]) which path =
      (firstRegistered regs which path).or (if addr.type = which ∧ p = path then some addr else none) := by
  unfold firstRegistered
  rw [List.find?_append]
  cases hfind : regs.find? fun reg => reg.1.type = which && reg.2 = some path with
  | some reg => simp
  | none => by_cases hkey : addr.type = which ∧ p = path <;> simp [hkey]

theorem findEntry_append {entries : List PicaHentry} {which : EntryType} {path p : CString} {addr : HashAddr} :
    findEntry (entries ++ [⟨p, addr⟩]) which path =
      (findEntry entries which path).or (if addr.type = which ∧ p = path then some addr else none) := by
  unfold findEntry
  rw [List.find?_append]
  cases hfind : entries.find? (·.isFor which path) with
  | some ph => simp
  | none => by_cases hkey : addr.type = which ∧ p = path <;> simp [PicaHentry.isFor, hkey]

theorem findEntry_isSome {entries : List PicaHentry} {which : EntryType} {path : CString} :
    (findEntry entries which path).isSome = entries.any (·.isFor which path) := by
  rw [Bool.eq_iff_iff, findEntry, Option.isSome_map, List.find?_isSome, List.any_eq_true]

/-- Appending to one bucket is appending to the registrations. -/
theorem represents_append (addr : HashAddr) (p : CString) {hash : UInt32} (hrep : Represents murmurHash3 table regs)
    (hhash : hash ≠ 0) :
    Represents murmurHash3
      (Function.update table (myhash murmurHash3 p)
        ⟨hash, (table (myhash murmurHash3 p)).hentry ++ [⟨p, addr⟩]⟩)
      (regs ++ [(addr, some p)]) where
  unused := by
    intro h hzero
    by_cases heq : h = myhash murmurHash3 p
    · subst heq
      rw [Function.update_self] at hzero
      exact absurd hzero hhash
    · rw [Function.update_of_ne heq] at hzero ⊢
      exact hrep.unused h hzero
  lookup := by
    intro which path
    rw [firstRegistered_append, ← hrep.lookup]
    by_cases heq : myhash murmurHash3 path = myhash murmurHash3 p
    · rw [heq, Function.update_self, findEntry_append]
    · have hne : ¬ (addr.type = which ∧ p = path) := by
        intro h
        rcases h with ⟨-, rfl⟩
        exact heq rfl
      rw [Function.update_of_ne heq, if_neg hne, Option.or_none]

/-- Registering a second time changes nothing. -/
theorem represents_known {addr : HashAddr} {p : CString} (hrep : Represents murmurHash3 table regs)
    (hknown : (table (myhash murmurHash3 p)).hentry.any (·.isFor addr.type p) = true) :
    Represents murmurHash3 table (regs ++ [(addr, some p)]) where
  unused := hrep.unused
  lookup := by
    intro which path
    rw [firstRegistered_append, ← hrep.lookup]
    by_cases hkey : addr.type = which ∧ p = path
    · obtain ⟨rfl, rfl⟩ := hkey
      rw [← findEntry_isSome] at hknown
      obtain ⟨a, ha⟩ := Option.isSome_iff_exists.1 hknown
      rw [ha, Option.some_or]
    · rw [if_neg hkey, Option.or_none]

/-- Registering keeps the table in step with the list of registrations. -/
theorem regHashtable_represents {addr : HashAddr} {path : Option CString} (hrep : Represents murmurHash3 table regs)
    (h : regHashtable murmurHash3 table addr path = .ok table') :
    Represents murmurHash3 table' (regs ++ [(addr, path)]) := by
  obtain ⟨p, hp, hreg⟩ := bind_eq_ok.1 h
  rw [deref_eq_ok] at hp
  subst hp
  dsimp only at hreg
  split_ifs at hreg with hunused hknown
  · cases hreg
    have hempty := hrep.unused _ hunused
    have happend := represents_append addr p hrep (myhash murmurHash3 p).2.1
    rw [hempty] at happend ⊢
    exact happend
  · cases hreg
    exact represents_known hrep hknown
  · cases hreg
    exact represents_append _ _ hrep hunused

theorem registerAll_represents {added : List (HashAddr × Option CString)}
    (hrep : Represents murmurHash3 table regs)
    (h : registerAll murmurHash3 table added = .ok table') :
    Represents murmurHash3 table' (regs ++ added) := by
  have hrun : Represents murmurHash3 table' (added.foldl (fun regs reg => regs ++ [reg]) regs) := by
    apply foldlM_simulates (Represents murmurHash3) _ hrep h
    intro table regs reg table' hrep hreg
    exact regHashtable_represents hrep hreg
  rwa [List.foldl_append_eq_append, ← List.flatMap_def, List.flatMap_singleton'] at hrun

/-- A set-up call keeps the table in step with the registrations in force. -/
theorem setupStep_represents {setup : Setup} (hrep : Represents murmurHash3 table regs)
    (h : setupStep murmurHash3 table setup = .ok table') :
    Represents murmurHash3 table' (setupRegistrations regs setup) := by
  cases setup with
  | buildHashtable procinfo => exact registerAll_represents represents_empty h
  | readConfig procinfo => exact registerAll_represents hrep h
  | readPolicy stmt => exact registerAll_represents hrep h

/-- After every run of set-up calls the table holds the registrations in force. -/
theorem runSetup_represents {setups : List Setup} (h : runSetup murmurHash3 setups = .ok table) :
    Represents murmurHash3 table (registrations setups) := by
  apply foldlM_simulates (Represents murmurHash3) _ represents_empty h
  intro table regs setup table' hrep hsetup
  exact setupStep_represents hrep hsetup

theorem findHashtable_eq {path : CString} {which : EntryType} (hrep : Represents murmurHash3 table regs) :
    findHashtable murmurHash3 table (some path) which = .ok (firstRegistered regs which path) := by
  rw [← hrep.lookup]
  simp only [findHashtable, deref, ok_bind]
  split_ifs with hunused
  · rw [hrep.unused _ hunused]
    rfl
  · rfl

/-! ### When the set-up calls are defined -/

/-- Everything that a run registers has a path. -/
def HavePaths (setups : List Setup) : Prop :=
  ∀ setup ∈ setups, ∀ reg ∈ setupRegistrations [] setup, reg.2.isSome

theorem regHashtable_defined_iff (murmurHash3 : Bytes → UInt32) (table : HashTable) (addr : HashAddr)
    {path : Option CString} : (∃ table', regHashtable murmurHash3 table addr path = .ok table') ↔ path.isSome := by
  cases path with
  | none => simp [regHashtable, deref]
  | some p =>
    simp only [regHashtable, deref, ok_bind, Option.isSome_some, iff_true]
    split_ifs <;> exact ⟨_, rfl⟩

theorem registerAll_defined_iff {added : List (HashAddr × Option CString)} :
    (∃ table', registerAll murmurHash3 table added = .ok table') ↔ ∀ reg ∈ added, reg.2.isSome := by
  apply foldlM_exists_iff
  intro table reg
  exact regHashtable_defined_iff murmurHash3 table reg.1

/-- The statements of a policy are registered without a fault where every one has a path. -/
theorem registerPolicy_defined_iff (murmurHash3 : Bytes → UInt32) (table : HashTable) {stmts : List PicaStmt} :
    (∃ t, registerAll murmurHash3 table (policyRegistrations stmts) = .ok t) ↔
      ∀ path ∈ stmts.map (·.execPath), path.isSome := by
  rw [registerAll_defined_iff]
  simp [policyRegistrations]

theorem setupStep_defined_iff (murmurHash3 : Bytes → UInt32) (table : HashTable) {setup : Setup} :
    (∃ table', setupStep murmurHash3 table setup = .ok table') ↔
      ∀ reg ∈ setupRegistrations [] setup, reg.2.isSome := by
  cases setup <;> exact registerAll_defined_iff

theorem runSetup_defined_iff (murmurHash3 : Bytes → UInt32) {setups : List Setup} :
    (∃ table, runSetup murmurHash3 setups = .ok table) ↔ HavePaths setups := by
  apply foldlM_exists_iff
  intro table setup
  exact setupStep_defined_iff murmurHash3 table

/-! ### The registered process of a path -/

def HashAddr.path : HashAddr → Option CString
  | .procinfo p => p.path
  | .stmt s => s.execPath

/-- What a set-up call registers has its own path. -/
theorem setupRegistrations_path {setup : Setup} (hregs : ∀ reg ∈ regs, reg.2 = reg.1.path) :
    ∀ reg ∈ setupRegistrations regs setup, reg.2 = reg.1.path := by
  intro reg hreg
  cases setup with
  | buildHashtable procinfo =>
    obtain ⟨p, -, rfl⟩ := List.mem_map.1 hreg
    rfl
  | readConfig procinfo =>
    rcases List.mem_append.1 hreg with hreg | hreg
    · exact hregs reg hreg
    · obtain ⟨p, -, rfl⟩ := List.mem_map.1 hreg
      rfl
  | readPolicy stmt =>
    rcases List.mem_append.1 hreg with hreg | hreg
    · exact hregs reg hreg
    · obtain ⟨s, -, rfl⟩ := List.mem_map.1 hreg
      rfl

/-- Entries are registered under their own path. -/
theorem registrations_path (setups : List Setup) : ∀ reg ∈ registrations setups, reg.2 = reg.1.path := by
  refine List.foldlRecOn (motive := fun regs => ∀ reg ∈ regs, reg.2 = reg.1.path) setups setupRegistrations ?_ ?_
  · simp
  · intro regs hregs setup _
    exact setupRegistrations_path hregs

/-- The configuration entry that counts for a path: the first that is registered for it. -/
def registeredProcinfo (setups : List Setup) (path : CString) : Option Procinfo :=
  match firstRegistered (registrations setups) .confProcinfo path with
  | some (.procinfo p) => some p
  | _ => none

theorem registeredProcinfo_path {setups : List Setup} {path : CString} {p : Procinfo}
    (h : registeredProcinfo setups path = some p) : p.path = some path := by
  unfold registeredProcinfo at h
  split at h
  · rename_i q hfirst
    cases h
    obtain ⟨reg, hfind, hreg⟩ := Option.map_eq_some_iff.1 hfirst
    have hmem := registrations_path setups reg (List.mem_of_find?_eq_some hfind)
    have hkey := List.find?_some hfind
    simp only [Bool.and_eq_true, decide_eq_true_eq] at hkey
    rw [hreg] at hmem
    exact hmem.symm.trans hkey.2
  · cases h

end PortableTlsRa
