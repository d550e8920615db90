import PortableTlsRa.Lib.Bytes
import Mathlib.Logic.Function.Basic

/-!
# The cache of file digests

`sha256_file` of the daemon measures a file the first time that it is asked for a key and answers from
`filepath_htable` from then on.  The entry is made before the file is opened, so that a read that fails leaves an
entry with a digest of zeros.  The table represents the list of what was read for the keys, whatever the hash function
is (`sha256File_represents`): what is reported for a key is the digest of what was read for it first.
-/

namespace PortableTlsRa.Libmeasurement

open CSem

/-- An entry of `filepath_htable`; `path` is the buffer that the key was copied to. -/
structure FpHentry where
  path : Bytes
  digest : ByteBuf 32
deriving DecidableEq

/-- The values of `myhash`. -/
abbrev FpIndex := { h : UInt32 // h.toNat < 512 }

/-- `filepath_htable`, with the entry of a bucket and those chained to it in one list.  `reads` says for the entries, in
the order in which they were made, what key they were made for and what was read from the file, if it could be; no
function looks at it. -/
structure FpHtable where
  buckets : FpIndex → List FpHentry
  reads : List (CString × Option Bytes)

def FpHtable.empty : FpHtable := ⟨fun _ => [], []⟩

variable (sha256 : Bytes → ByteBuf 32) (murmurHash3 : Bytes → UInt32)

def myhash (cp : CString) : FpIndex :=
  let hash := murmurHash3 cp.1
  let hash := ((hash >>> 16) ^^^ (hash &&& 0xffff)) % 512
  ⟨hash, by
    have hmod : hash.toNat = ((murmurHash3 cp.1 >>> 16) ^^^ (murmurHash3 cp.1 &&& 0xffff)).toNat % 512 :=
      UInt32.toNat_mod _ _
    omega⟩

/-- `!strcmp(buffer, s)`, where the buffer need not hold a NUL byte. -/
def strcmpBuffer : Bytes → Bytes → Checked Bool
  | [], _ => .error .outOfBounds
  | b :: _, [] => .ok (b = 0)
  | b :: buffer, c :: s => if b = c then strcmpBuffer buffer s else .ok false

/-- The walk along the entries of a bucket. -/
def findHashentry : List FpHentry → CString → Checked (Option FpHentry)
  | [], _ => .ok none
  | fp :: entries, path => do
    if ← strcmpBuffer fp.path path.1 then return some fp
    findHashentry entries path

/-- The key as it is copied: as many bytes as the path of the file has, with its NUL byte.  What stands behind the NUL
byte of the key does not matter. -/
def keyBuffer (libpath path : CString) : Bytes := (libpath.1 ++ [0]).take (path.1.length + 1)

/-- What an entry holds when the file has been read, or could not be. -/
def storedDigest (file : Option Bytes) : ByteBuf 32 := (file.map sha256).getD (ByteBuf.zero 32)

/-- `file` is what there is to read at `path`, unless it cannot be opened, read whole or hashed.  Returns the digest if
the code is 0. -/
def sha256File (table : FpHtable) (libpath path : CString) (file : Option Bytes) :
    Checked (Option (ByteBuf 32) × FpHtable) := do
  let hash := myhash murmurHash3 libpath
  match ← findHashentry (table.buckets hash) libpath with
  | some fp => return (some fp.digest, table)
  | none =>
    let fp : FpHentry := ⟨keyBuffer libpath path, storedDigest sha256 file⟩
    return (file.map sha256,
      ⟨Function.update table.buckets hash (table.buckets hash ++ [fp]), table.reads ++ [(libpath, file)]⟩)

/-! ### The table and the reads -/

variable {sha256} {murmurHash3}

/-- The entry was made for the read. -/
def EntryOf (sha256 : Bytes → ByteBuf 32) (fp : FpHentry) (read : CString × Option Bytes) : Prop :=
  (∃ n, fp.path = (read.1.1 ++ [0]).take n) ∧ fp.digest = storedDigest sha256 read.2

/-- Every bucket holds the entries of the reads whose keys have its hash, in their order. -/
def Represents (sha256 : Bytes → ByteBuf 32) (murmurHash3 : Bytes → UInt32) (table : FpHtable) : Prop :=
  ∀ hash, List.Forall₂ (EntryOf sha256) (table.buckets hash)
    (table.reads.filter fun read => myhash murmurHash3 read.1 = hash)

/-- What was read for a key first. -/
def FpHtable.firstRead (table : FpHtable) (path : CString) : Option (Option Bytes) := table.reads.lookup path

theorem represents_empty : Represents sha256 murmurHash3 FpHtable.empty := by
  intro hash
  exact .nil

/-- A comparison with the buffer of a key tells whether it is the key, or reads past a buffer that is cut off. -/
theorem strcmpBuffer_key {key : CString} {n : Nat} {path : CString} {r : Bool}
    (h : strcmpBuffer ((key.1 ++ [0]).take n) path.1 = .ok r) : r = decide (key = path) := by
  obtain ⟨key, hkey⟩ := key
  obtain ⟨path, hpath⟩ := path
  simp only [Subtype.mk.injEq] at h ⊢
  induction key generalizing n path with
  | nil =>
    cases n with
    | zero => cases h
    | succ n =>
      cases path with
      | nil =>
        cases h
        rfl
      | cons c path =>
        have hc : ¬ 0 = c := fun hzero => hpath (hzero ▸ List.mem_cons_self)
        simp only [List.nil_append, List.take_succ_cons, strcmpBuffer, if_neg hc, Except.ok.injEq] at h
        rw [← h]
        rfl
  | cons k key ih =>
    rw [List.mem_cons, not_or] at hkey
    cases n with
    | zero => cases h
    | succ n =>
      cases path with
      | nil =>
        have hk : ¬ k = 0 := fun hzero => hkey.1 hzero.symm
        simp only [List.cons_append, List.take_succ_cons, strcmpBuffer, hk, decide_false, Except.ok.injEq] at h
        rw [← h]
        rfl
      | cons c path =>
        rw [List.mem_cons, not_or] at hpath
        simp only [List.cons_append, List.take_succ_cons, strcmpBuffer] at h
        by_cases hkc : k = c
        · rw [if_pos hkc] at h
          rw [ih hkey.2 path hpath.2 h]
          simp [hkc]
        · rw [if_neg hkc, Except.ok.injEq] at h
          rw [← h]
          simp [hkc]

/-- The walk along a bucket finds the entry of the first read for the key. -/
theorem findHashentry_represents {entries : List FpHentry} {reads : List (CString × Option Bytes)} {path : CString}
    {found : Option FpHentry} (hentries : List.Forall₂ (EntryOf sha256) entries reads)
    (h : findHashentry entries path = .ok found) :
    (reads.lookup path).map (storedDigest sha256) = found.map (·.digest) := by
  induction hentries with
  | nil =>
    cases h
    rfl
  | @cons fp read entries reads hentry _ ih =>
    obtain ⟨⟨n, hbuffer⟩, hdigest⟩ := hentry
    rw [findHashentry, bind_eq_ok] at h
    obtain ⟨same, hcmp, hrest⟩ := h
    rw [hbuffer] at hcmp
    have hsame := strcmpBuffer_key hcmp
    by_cases hkey : read.1 = path
    · rw [decide_eq_true hkey] at hsame
      subst hsame
      cases hrest
      rw [← hkey, List.lookup_cons_self, Option.map_some, Option.map_some, hdigest]
    · rw [decide_eq_false hkey] at hsame
      subst hsame
      have hne : (path == read.1) = false := beq_eq_false_iff_ne.2 (Ne.symm hkey)
      rw [List.lookup_cons, hne]
      exact ih hrest

/-- The reads of other hashes do not matter to what was read for a key. -/
theorem lookup_filter_hash {reads : List (CString × Option Bytes)} {path : CString} :
    (reads.filter fun read => myhash murmurHash3 read.1 = myhash murmurHash3 path).lookup path =
      reads.lookup path := by
  induction reads with
  | nil => rfl
  | cons read reads ih =>
    by_cases hkey : read.1 = path
    · rw [List.filter_cons_of_pos (by simp [hkey]), ← hkey, List.lookup_cons_self, List.lookup_cons_self]
    · have hne : (path == read.1) = false := beq_eq_false_iff_ne.2 (Ne.symm hkey)
      rw [List.lookup_cons, hne]
      by_cases hhash : myhash murmurHash3 read.1 = myhash murmurHash3 path
      · rw [List.filter_cons_of_pos (by simpa using hhash), List.lookup_cons, hne]
        exact ih
      · rw [List.filter_cons_of_neg (by simpa using hhash)]
        exact ih

/-- The digest is the one that was made of what was read for the key first. -/
def KeptFor (sha256 : Bytes → ByteBuf 32) (table : FpHtable) (path : CString) (digest : ByteBuf 32) : Prop :=
  ∃ read, table.firstRead path = some read ∧ digest = storedDigest sha256 read

/-- What a call leaves: a table that represents the reads, of which there may be more. -/
structure Grown (sha256 : Bytes → ByteBuf 32) (murmurHash3 : Bytes → UInt32) (table table' : FpHtable) : Prop where
  represents : Represents sha256 murmurHash3 table'
  reads : ∃ more, table'.reads = table.reads ++ more

theorem Grown.refl {table : FpHtable} (hrep : Represents sha256 murmurHash3 table) :
    Grown sha256 murmurHash3 table table :=
  ⟨hrep, [], (List.append_nil _).symm⟩

theorem Grown.trans {table table' table'' : FpHtable} (h : Grown sha256 murmurHash3 table table')
    (h' : Grown sha256 murmurHash3 table' table'') : Grown sha256 murmurHash3 table table'' := by
  obtain ⟨-, more, hmore⟩ := h
  obtain ⟨hrep, more', hmore'⟩ := h'
  exact ⟨hrep, more ++ more', by rw [hmore', hmore, List.append_assoc]⟩

/-- Later reads do not change what was read first. -/
theorem KeptFor.of_grown {table table' : FpHtable} {path : CString} {digest : ByteBuf 32}
    (h : KeptFor sha256 table path digest) (hgrown : Grown sha256 murmurHash3 table table') :
    KeptFor sha256 table' path digest := by
  obtain ⟨read, hread, hdigest⟩ := h
  obtain ⟨-, more, hmore⟩ := hgrown
  refine ⟨read, ?_, hdigest⟩
  rw [FpHtable.firstRead] at hread
  rw [FpHtable.firstRead, hmore, List.lookup_append, hread]
  rfl

/-- What a call does: it answers from what was read for the key, or adds what is read now. -/
theorem sha256File_turn {table table' : FpHtable} {libpath path : CString} {file : Option Bytes}
    {digest : Option (ByteBuf 32)} (hrep : Represents sha256 murmurHash3 table)
    (h : sha256File sha256 murmurHash3 table libpath path file = .ok (digest, table')) :
    Represents sha256 murmurHash3 table' ∧
      ((∃ read, table.firstRead libpath = some read ∧ digest = some (storedDigest sha256 read) ∧ table' = table) ∨
        (table.firstRead libpath = none ∧ digest = file.map sha256 ∧
          table'.reads = table.reads ++ [(libpath, file)])) := by
  unfold sha256File at h
  obtain ⟨found, hfind, hrest⟩ := bind_eq_ok.1 h
  have hfirst := findHashentry_represents (hrep (myhash murmurHash3 libpath)) hfind
  rw [lookup_filter_hash] at hfirst
  cases found with
  | some fp =>
    cases hrest
    obtain ⟨read, hread, hstored⟩ := Option.map_eq_some_iff.1 hfirst
    exact ⟨hrep, .inl ⟨read, hread, congrArg some hstored.symm, rfl⟩⟩
  | none =>
    cases hrest
    have hnew : table.reads.lookup libpath = none := by
      rw [Option.map_none, Option.map_eq_none_iff] at hfirst
      exact hfirst
    refine ⟨?_, .inr ⟨hnew, rfl, rfl⟩⟩
    intro hash
    dsimp only
    rw [List.filter_append]
    by_cases hhash : myhash murmurHash3 libpath = hash
    · subst hhash
      rw [Function.update_self]
      refine List.rel_append (hrep _) ?_
      rw [List.filter_cons_of_pos (by simp)]
      exact .cons ⟨⟨_, rfl⟩, rfl⟩ .nil
    · rw [Function.update_of_ne (Ne.symm hhash), List.filter_cons_of_neg (by simpa using hhash), List.filter_nil,
        List.append_nil]
      exact hrep hash

/-- A call reports, if anything, the digest of what was read for the key first. -/
theorem sha256File_represents {table table' : FpHtable} {libpath path : CString} {file : Option Bytes}
    {digest : Option (ByteBuf 32)} (hrep : Represents sha256 murmurHash3 table)
    (h : sha256File sha256 murmurHash3 table libpath path file = .ok (digest, table')) :
    Grown sha256 murmurHash3 table table' ∧ ∀ d, digest = some d → KeptFor sha256 table' libpath d := by
  obtain ⟨hrep', ⟨read, hread, rfl, rfl⟩ | ⟨hnew, rfl, hreads⟩⟩ := sha256File_turn hrep h
  · refine ⟨.refl hrep, ?_⟩
    intro d hd
    cases hd
    exact ⟨read, hread, rfl⟩
  · refine ⟨⟨hrep', _, hreads⟩, ?_⟩
    intro d hd
    obtain ⟨content, rfl, rfl⟩ := Option.map_eq_some_iff.1 hd
    refine ⟨some content, ?_, rfl⟩
    rw [FpHtable.firstRead] at hnew
    rw [FpHtable.firstRead, hreads, List.lookup_append, hnew, List.lookup_cons_self]
    rfl

end PortableTlsRa.Libmeasurement
