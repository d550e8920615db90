import PortableTlsRa.DigestCache
import PortableTlsRa.Lib.LinkedList

/-!
# The cache of file digests in memory

`find_hashentry` and `sha256_file` on the static array and the blocks that `malloc` returns, with every call that can
fail.  The key of an entry is a block of `strlen(path) + 1` bytes, copied from `libpath`, and it is stored before the
file is opened.  The memory represents the entries that were made, for every hash function: a call faults where the
search for its key leaves a block, or when it gets no entry, and otherwise it ends as these entries say
(`sha256File_cases`).
-/

namespace PortableTlsRa.Libmeasurement.InMemory

open CSem

/-! ### The functions -/

/-- An entry: the key is a block of bytes or `NULL`, and the next entry is a place among those that were allocated. -/
structure FpHentry where
  path : Option Bytes
  digest : ByteBuf 32
  next : Option Nat
deriving DecidableEq

def FpHentry.zero : FpHentry := ⟨none, ByteBuf.zero 32, none⟩

/-- The entries in the array `filepath_htable`, and the allocated ones. -/
structure Memory where
  filepathHtable : FpIndex → FpHentry
  heap : List FpHentry

/-- The memory at the start of the program. -/
def Memory.zeroed : Memory := ⟨fun _ => .zero, []⟩

/-- What a `struct fp_hentry *` points to. -/
inductive FpHentryPtr where
  | bucket (hash : FpIndex)
  | allocated (i : Nat)
deriving DecidableEq

def Memory.read (mem : Memory) : FpHentryPtr → Checked FpHentry
  | .bucket hash => return mem.filepathHtable hash
  | .allocated i => readAt mem.heap i

/-- `*fp = entry`, for an entry that was read before. -/
def Memory.write (mem : Memory) (fp : FpHentryPtr) (entry : FpHentry) : Memory :=
  match fp with
  | .bucket hash => { mem with filepathHtable := Function.update mem.filepathHtable hash entry }
  | .allocated i => { mem with heap := mem.heap.set i entry }

/-- What the calls return that measure a file, the results of those that are not reached being arbitrary.  `read`
returns -1 or what is there, as far as it was asked for. -/
structure FileCalls where
  opens : Bool
  fstat : Option Nat
  malloc : Bool
  read : Option Bytes
  ctxNew : Bool
  digestInit : Bool
  digestUpdate : Bool
  digestFinal : Bool

/-- The bytes that are hashed, unless a call fails. -/
def FileCalls.measure (calls : FileCalls) : Option Bytes := do
  guard calls.opens
  let size ← calls.fstat
  guard calls.malloc
  let there ← calls.read
  let cp := there.take size
  guard (¬ cp.length < size)
  guard calls.ctxNew
  guard calls.digestInit
  guard calls.digestUpdate
  guard calls.digestFinal
  return cp

/-- A call of `sha256_file`: `behind` is what stands behind `libpath` in its object, and the flags tell whether
`malloc` gives a block for a new entry and for its key. -/
structure Call where
  libpath : CString
  behind : Bytes
  path : CString
  entryBlock : Bool
  keyBlock : Bool
  file : FileCalls

/-- The `int len`, as the size that it is for `malloc` and `memcpy`. -/
def Call.len (call : Call) : Nat := (BitVec.ofInt 64 (toInt32 (call.path.1.length + 1))).toNat

/-- The object that `libpath` points to. -/
def Call.object (call : Call) : Bytes := call.libpath.1 ++ 0 :: call.behind

/-- `fp->path = (char*) malloc(len); memcpy(fp->path, libpath, len)`. -/
def Call.copyKey (call : Call) : Checked Bytes :=
  if call.keyBlock then readRange call.object 0 call.len else .error .nullPointer

/-- `!strcmp(key, path)`. -/
def strcmpKey (key : Option Bytes) (path : CString) : Checked Bool := do
  strcmpBuffer (← deref key) path.1

/-- A zeroed entry is linked behind `fp`. -/
def Memory.append (mem : Memory) (fp : FpHentryPtr) (entryBlock : Bool) : Checked (FpHentryPtr × Memory) := do
  let entry ← mem.read fp
  if entryBlock then
    let mem' := mem.write fp { entry with next := some mem.heap.length }
    return (.allocated mem.heap.length, { mem' with heap := mem'.heap ++ [.zero] })
  else .error .nullPointer

/-- The loop of `find_hashentry` and what follows it. -/
def findNext (mem : Memory) (path : CString) (entryBlock : Bool) :
    Nat → FpHentryPtr → Running (FpHentryPtr × Memory)
  | 0, _ => none
  | fuel + 1, fp => do
    let entry ← checked (mem.read fp)
    match entry.next with
    | none => checked (mem.append fp entryBlock)
    | some i => do
      let entry ← checked (mem.read (.allocated i))
      let same ← checked (strcmpKey entry.path path)
      if same then return (.allocated i, mem) else findNext mem path entryBlock fuel (.allocated i)

def findHashentry (hash : CString → FpIndex) (fuel : Nat) (mem : Memory) (path : CString) (entryBlock : Bool) :
    Running (FpHentryPtr × Memory) :=
  let entry := mem.filepathHtable (hash path)
  if entry.path = none then return (.bucket (hash path), mem)
  else do
    let same ← checked (strcmpKey entry.path path)
    if same then return (.bucket (hash path), mem) else findNext mem path entryBlock fuel (.bucket (hash path))

/-- How a call ends: with 0 and a digest that is in the entry or was computed, or with -1. -/
inductive Outcome where
  | cached (digest : ByteBuf 32)
  | measured (digest : ByteBuf 32)
  | failed
deriving DecidableEq

/-- The digest, if the code is 0. -/
def Outcome.digest? : Outcome → Option (ByteBuf 32)
  | .cached digest => some digest
  | .measured digest => some digest
  | .failed => none

def sha256File (hash : CString → FpIndex) (sha256 : Bytes → ByteBuf 32) (fuel : Nat) (mem : Memory) (call : Call) :
    Running (Outcome × Memory) := do
  let (fp, mem) ← findHashentry hash fuel mem call.libpath call.entryBlock
  let entry ← checked (mem.read fp)
  match entry.path with
  | some _ => return (.cached entry.digest, mem)
  | none => do
    let key ← checked call.copyKey
    let entry := { entry with path := some key }
    match call.file.measure with
    | none => return (.failed, mem.write fp entry)
    | some content =>
      let digest := sha256 content
      return (.measured digest, mem.write fp { entry with digest })

/-- The calls, in order. -/
def runCalls (hash : CString → FpIndex) (sha256 : Bytes → ByteBuf 32) (fuel : Nat) :
    Memory → List Call → Running (List Outcome × Memory)
  | mem, [] => return ([], mem)
  | mem, call :: calls => do
    let (outcome, mem) ← sha256File hash sha256 fuel mem call
    let (outcomes, mem) ← runCalls hash sha256 fuel mem calls
    return (outcome :: outcomes, mem)

/-! ### The entries that are made -/

/-- An entry that was made for a key; the block holds bytes of the object that the key begins. -/
structure Made where
  libpath : CString
  block : Bytes
  digest : ByteBuf 32
  block_eq : ∃ behind n, block = (libpath.1 ++ 0 :: behind).take n

/-- The entry of a call that makes one. -/
def Call.made (sha256 : Bytes → ByteBuf 32) (call : Call) : Made where
  libpath := call.libpath
  block := call.object.take call.len
  digest := storedDigest sha256 call.file.measure
  block_eq := ⟨call.behind, call.len, rfl⟩

/-- A call makes an entry, unless there is one for its key. -/
def make (sha256 : Bytes → ByteBuf 32) (made : List Made) (call : Call) : List Made :=
  if made.any (·.libpath = call.libpath) then made else made ++ [call.made sha256]

/-- The entries that the calls make. -/
def makeAll (sha256 : Bytes → ByteBuf 32) (calls : List Call) : List Made := calls.foldl (make sha256) []

/-- How a call ends. -/
def answer (sha256 : Bytes → ByteBuf 32) (made : List Made) (call : Call) : Outcome :=
  match made.find? (·.libpath = call.libpath) with
  | some m => .cached m.digest
  | none =>
    match call.file.measure with
    | none => .failed
    | some content => .measured (sha256 content)

/-- The key is stored whole, and nothing behind it. -/
def Made.Complete (m : Made) : Prop := m.block = m.libpath.1 ++ [0]

variable {sha256 : Bytes → ByteBuf 32} {hash : CString → FpIndex} {made ms : List Made} {m : Made} {call : Call}
  {calls : List Call} {path : CString} {h : FpIndex}

theorem makeAll_concat (calls : List Call) (call : Call) :
    makeAll sha256 (calls ++ [call]) = make sha256 (makeAll sha256 calls) call := by
  rw [makeAll, List.foldl_append]
  rfl

theorem make_of_any (h : made.any (·.libpath = call.libpath) = true) : make sha256 made call = made := if_pos h

theorem make_of_new (h : ¬ made.any (·.libpath = call.libpath) = true) :
    make sha256 made call = made ++ [call.made sha256] := if_neg h

/-- The entry for a key is that of the first call for it. -/
theorem find?_makeAll (calls : List Call) (path : CString) :
    (makeAll sha256 calls).find? (·.libpath = path) =
      (calls.find? (·.libpath = path)).map (Call.made sha256) := by
  induction calls using List.reverseRecOn with
  | nil => rfl
  | append_singleton calls call ih =>
    rw [makeAll_concat, List.find?_append]
    by_cases hknown : (makeAll sha256 calls).any (·.libpath = call.libpath) = true
    · rw [make_of_any hknown, ih]
      by_cases hpath : call.libpath = path
      · -- an earlier call is for the same key
        rw [List.any_eq_true] at hknown
        have hfound := List.find?_isSome.2 hknown
        rw [hpath, ih, Option.isSome_map] at hfound
        rw [Option.or_of_isSome hfound]
      · rw [List.find?_singleton, if_neg (by simpa using hpath), Option.or_none]
    · rw [make_of_new hknown, List.find?_append, ih, Option.map_or]
      congr 1
      by_cases hpath : call.libpath = path
      · simp [hpath, Call.made]
      · simp [hpath, Call.made]

/-- A key has an entry when there was a call for it. -/
theorem any_makeAll {calls : List Call} {path : CString} :
    (makeAll sha256 calls).any (·.libpath = path) = true ↔ ∃ call ∈ calls, call.libpath = path := by
  have hfind : ((makeAll sha256 calls).find? (·.libpath = path)).isSome =
      (calls.find? (·.libpath = path)).isSome := by rw [find?_makeAll, Option.isSome_map]
  rw [List.any_eq_true, ← List.find?_isSome, hfind, List.find?_isSome]
  simp

/-- Each entry is that of a call. -/
theorem mem_makeAll (hm : m ∈ makeAll sha256 calls) : ∃ call ∈ calls, m = call.made sha256 := by
  induction calls using List.reverseRecOn with
  | nil => cases hm
  | append_singleton calls call ih =>
    rw [makeAll_concat, make] at hm
    have hearlier : m ∈ makeAll sha256 calls → ∃ call' ∈ calls ++ [call], m = call'.made sha256 := by
      intro hm
      obtain ⟨call', hcall', rfl⟩ := ih hm
      exact ⟨call', List.mem_append_left _ hcall', rfl⟩
    split_ifs at hm with hknown
    · exact hearlier hm
    · rcases List.mem_append.1 hm with hm | hm
      · exact hearlier hm
      · exact ⟨call, by simp, List.mem_singleton.1 hm⟩

/-- What stands behind the NUL byte of a key does not matter to a comparison. -/
theorem strcmpBuffer_behind {key : Bytes} {behind : Bytes} {n : Nat} {path : CString} :
    strcmpBuffer ((key ++ 0 :: behind).take n) path.1 = strcmpBuffer ((key ++ [0]).take n) path.1 := by
  obtain ⟨path, hpath⟩ := path
  dsimp only
  induction key generalizing n path with
  | nil =>
    cases n with
    | zero => rfl
    | succ n =>
      cases path with
      | nil => rfl
      | cons c path =>
        have hc : ¬ 0 = c := fun hzero => hpath (hzero ▸ List.mem_cons_self)
        simp only [List.nil_append, List.take_succ_cons, strcmpBuffer, if_neg hc]
  | cons k key ih =>
    cases n with
    | zero => rfl
    | succ n =>
      cases path with
      | nil => rfl
      | cons c path =>
        rw [List.mem_cons, not_or] at hpath
        simp only [List.cons_append, List.take_succ_cons, strcmpBuffer, ih path hpath.2]

/-- A comparison with the block of a key tells whether it is the key, if it stays in the block. -/
theorem strcmpBuffer_made (m : Made) {path : CString} {r : Bool} (h : strcmpBuffer m.block path.1 = .ok r) :
    r = decide (m.libpath = path) := by
  obtain ⟨behind, n, hblock⟩ := m.block_eq
  rw [hblock, strcmpBuffer_behind] at h
  exact strcmpBuffer_key h

/-- A comparison with a complete key stays in its block. -/
theorem strcmpBuffer_complete (hm : m.Complete) (path : CString) :
    strcmpBuffer m.block path.1 = .ok (decide (m.libpath = path)) := by
  suffices hdefined : ∃ r, strcmpBuffer (m.libpath.1 ++ [0]) path.1 = .ok r by
    obtain ⟨r, hr⟩ := hdefined
    rw [← hm] at hr
    rw [hr, strcmpBuffer_made m hr]
  obtain ⟨path, hpath⟩ := path
  dsimp only
  generalize m.libpath.1 = key
  induction key generalizing path with
  | nil =>
    cases path with
    | nil => exact ⟨_, rfl⟩
    | cons c path =>
      have hc : ¬ 0 = c := fun hzero => hpath (hzero ▸ List.mem_cons_self)
      exact ⟨false, by rw [List.nil_append, strcmpBuffer, if_neg hc]⟩
  | cons k key ih =>
    cases path with
    | nil => exact ⟨_, rfl⟩
    | cons c path =>
      rw [List.mem_cons, not_or] at hpath
      rw [List.cons_append, strcmpBuffer]
      split_ifs with hkc
      · exact ih path hpath.2
      · exact ⟨false, rfl⟩

/-! ### What the memory holds -/

/-- The fields of an entry but the pointer to the next one. -/
def FpHentry.data (e : FpHentry) : Option Bytes × ByteBuf 32 := (e.path, e.digest)

/-- The same fields of an entry that was made. -/
def Made.data (m : Made) : Option Bytes × ByteBuf 32 := (some m.block, m.digest)

/-- A bucket holds the entries, in order: the first in the array and the others linked to it.  `bucketOf` tells which
bucket the allocated entries are linked in. -/
def Memory.Holds (mem : Memory) (bucketOf : Nat → FpIndex) (h : FpIndex) : List Made → Prop
  | [] => mem.filepathHtable h = .zero
  | m :: ms => (mem.filepathHtable h).data = m.data ∧
      ∃ l, Linked FpHentry.next mem.heap (mem.filepathHtable h).next l ∧ l.map (·.2.data) = ms.map (·.data) ∧
        ∀ x ∈ l, bucketOf x.1 = h

/-- Every bucket holds the entries whose keys have its hash, and nothing else is allocated. -/
structure Represents (hash : CString → FpIndex) (mem : Memory) (made : List Made) : Prop where
  buckets : ∃ bucketOf, ∀ h, mem.Holds bucketOf h (made.filter fun m => hash m.libpath = h)
  cells : ∀ e ∈ mem.heap, ∃ m ∈ made, e.path = some m.block

variable {mem mem' : Memory} {fp : FpHentryPtr} {e nent : FpHentry} {l : List (Nat × FpHentry)} {fuel : Nat}
  {bucketOf : Nat → FpIndex} {m' : Made} {entryBlock : Bool}

theorem represents_zeroed (hash : CString → FpIndex) : Represents hash Memory.zeroed [] :=
  ⟨⟨fun _ => ⟨0, by decide⟩, fun _ => rfl⟩, fun _ he => absurd he List.not_mem_nil⟩

theorem strcmpKey_of_data (hdata : e.data = m.data) (path : CString) :
    strcmpKey e.path path = strcmpBuffer m.block path.1 := by
  have hpath : e.path = some m.block := congrArg Prod.fst hdata
  rw [hpath]
  rfl

/-! ### The search for an entry -/

/-- Where the search ends that finds no entry. -/
def lastPtr : FpHentryPtr → List (Nat × FpHentry) → FpHentryPtr
  | fp, [] => fp
  | _, x :: l => lastPtr (.allocated x.1) l

theorem lastPtr_concat (fp : FpHentryPtr) (l : List (Nat × FpHentry)) (x : Nat × FpHentry) :
    lastPtr fp (l ++ [x]) = .allocated x.1 := by
  induction l generalizing fp with
  | nil => rfl
  | cons y l ih => exact ih _

/-- The comparisons with the keys of a bucket. -/
def search : List Made → CString → Checked (Option Made)
  | [], _ => .ok none
  | m :: ms, path => do
    if ← strcmpBuffer m.block path.1 then return some m
    search ms path

theorem search_cons (m : Made) (ms : List Made) (path : CString) :
    search (m :: ms) path = strcmpBuffer m.block path.1 >>= fun same =>
      if same then .ok (some m) else search ms path := by
  rw [search]
  cases strcmpBuffer m.block path.1 with
  | error f => rfl
  | ok same => cases same <;> rfl

/-- A search that stays in the blocks finds the entry of the key. -/
theorem search_eq_ok {found : Option Made} (h : search ms path = .ok found) :
    found = ms.find? (·.libpath = path) := by
  induction ms with
  | nil =>
    cases h
    rfl
  | cons m ms ih =>
    rw [search_cons, bind_eq_ok] at h
    obtain ⟨same, hcmp, hrest⟩ := h
    obtain rfl := strcmpBuffer_made m hcmp
    by_cases hkey : m.libpath = path
    · rw [if_pos (by simpa using hkey)] at hrest
      cases hrest
      rw [List.find?_cons_of_pos (by simpa using hkey)]
    · rw [if_neg (by simpa using hkey)] at hrest
      rw [List.find?_cons_of_neg (by simpa using hkey)]
      exact ih hrest

/-- A search leaves a block only at a key that is not complete. -/
theorem search_eq_error {f : Fault} (h : search ms path = .error f) : ∃ m ∈ ms, ¬ m.Complete := by
  induction ms with
  | nil => cases h
  | cons m ms ih =>
    by_cases hcomplete : m.Complete
    · rw [search_cons, strcmpBuffer_complete hcomplete, ok_bind] at h
      split_ifs at h with hkey
      obtain ⟨m', hm', hincomplete⟩ := ih h
      exact ⟨m', List.mem_cons_of_mem m hm', hincomplete⟩
    · exact ⟨m, List.mem_cons_self, hcomplete⟩

/-- The entry at the pointer is the one that was made. -/
def Memory.IsAt (mem : Memory) (m : Made) (fp : FpHentryPtr) : Prop := ∃ e, mem.read fp = .ok e ∧ e.data = m.data

/-- The walk along a linked list fails where the search does, finds what it finds, or appends an entry. -/
theorem findNext_cases (path : CString) (entryBlock : Bool) (he : mem.read fp = .ok e)
    (hl : Linked FpHentry.next mem.heap e.next l) (hdata : l.map (·.2.data) = ms.map (·.data))
    (hfuel : l.length < fuel) :
    (∃ f, search ms path = .error f ∧ findNext mem path entryBlock fuel fp = some (.error f)) ∨
      (∃ m found, search ms path = .ok (some m) ∧ mem.IsAt m found ∧
        findNext mem path entryBlock fuel fp = some (.ok (found, mem))) ∨
      (search ms path = .ok none ∧
        findNext mem path entryBlock fuel fp = some (mem.append (lastPtr fp l) entryBlock)) := by
  induction l generalizing fp e ms fuel with
  | nil =>
    obtain ⟨fuel, rfl⟩ := Nat.exists_eq_add_of_le' hfuel
    obtain rfl : ms = [] := List.map_eq_nil_iff.1 hdata.symm
    have hnext : e.next = none := hl
    refine .inr (.inr ⟨rfl, ?_⟩)
    simp only [findNext, he, checked_ok_bind, hnext]
    rfl
  | cons x l ih =>
    rw [List.length_cons] at hfuel
    obtain ⟨fuel, rfl⟩ := Nat.exists_eq_add_of_le' (Nat.le_trans (Nat.le_add_left 1 _) hfuel)
    obtain ⟨a, e'⟩ := x
    obtain ⟨hnext, hcell, hrest⟩ := hl
    cases ms with
    | nil => cases hdata
    | cons m ms =>
      rw [List.map_cons, List.map_cons, List.cons.injEq] at hdata
      have hread : mem.read (.allocated a) = .ok e' := readAt_eq_ok.2 hcell
      have hroom : l.length < fuel := by omega
      simp only [findNext, he, checked_ok_bind, hnext, hread, strcmpKey_of_data hdata.1, search_cons]
      cases hcmp : strcmpBuffer m.block path.1 with
      | error f => exact .inl ⟨f, rfl, rfl⟩
      | ok same =>
        cases same with
        | true => exact .inr (.inl ⟨m, .allocated a, rfl, ⟨e', hread, hdata.1⟩, rfl⟩)
        | false => exact ih hread hrest hdata.2 hroom

/-- The search in a bucket that is in use. -/
theorem findHashentry_cases (entryBlock : Bool) (hhead : (mem.filepathHtable (hash path)).data = m.data)
    (hl : Linked FpHentry.next mem.heap (mem.filepathHtable (hash path)).next l)
    (hdata : l.map (·.2.data) = ms.map (·.data)) (hfuel : l.length < fuel) :
    (∃ f, search (m :: ms) path = .error f ∧ findHashentry hash fuel mem path entryBlock = some (.error f)) ∨
      (∃ m' found, search (m :: ms) path = .ok (some m') ∧ mem.IsAt m' found ∧
        findHashentry hash fuel mem path entryBlock = some (.ok (found, mem))) ∨
      (search (m :: ms) path = .ok none ∧ findHashentry hash fuel mem path entryBlock =
        some (mem.append (lastPtr (.bucket (hash path)) l) entryBlock)) := by
  have hused : ¬ (mem.filepathHtable (hash path)).path = none := by
    have hpath : (mem.filepathHtable (hash path)).path = some m.block := congrArg Prod.fst hhead
    rw [hpath]
    exact Option.some_ne_none _
  have hread : mem.read (.bucket (hash path)) = .ok (mem.filepathHtable (hash path)) := rfl
  simp only [findHashentry, if_neg hused, strcmpKey_of_data hhead, search_cons]
  cases hcmp : strcmpBuffer m.block path.1 with
  | error f => exact .inl ⟨f, rfl, rfl⟩
  | ok same =>
    cases same with
    | true => exact .inr (.inl ⟨m, .bucket (hash path), rfl, ⟨_, hread, hhead⟩, rfl⟩)
    | false => exact findNext_cases path entryBlock hread hl hdata hfuel

/-! ### Writing -/

/-- The memory after an entry was linked behind the entry `e` at `fp`. -/
def Memory.link (mem : Memory) (fp : FpHentryPtr) (e nent : FpHentry) : Memory :=
  let mem' := mem.write fp { e with next := some mem.heap.length }
  { mem' with heap := mem'.heap ++ [nent] }

theorem Memory.write_heap_length (mem : Memory) (fp : FpHentryPtr) (e : FpHentry) :
    (mem.write fp e).heap.length = mem.heap.length := by
  cases fp with
  | bucket h => rfl
  | allocated i => exact List.length_set

theorem Memory.link_heap_length (mem : Memory) (fp : FpHentryPtr) (e nent : FpHentry) :
    (mem.link fp e nent).heap.length = mem.heap.length + 1 := by
  rw [link, List.length_append, write_heap_length, List.length_singleton]

theorem append_eq (he : mem.read fp = .ok e) :
    mem.append fp true = .ok (.allocated mem.heap.length, mem.link fp e .zero) := by
  rw [Memory.append, he]
  rfl

theorem link_read : (mem.link fp e nent).read (.allocated mem.heap.length) = .ok nent := by
  refine readAt_eq_ok.2 ?_
  have hlen := mem.write_heap_length fp { e with next := some mem.heap.length }
  have hlast := List.getElem?_concat_length (l := (mem.write fp { e with next := some mem.heap.length }).heap)
    (a := nent)
  rwa [hlen] at hlast

theorem link_write (new : FpHentry) :
    (mem.link fp e nent).write (.allocated mem.heap.length) new = mem.link fp e new := by
  have hset : ∀ cells : List FpHentry, cells.length = mem.heap.length →
      (cells ++ [nent]).set mem.heap.length new = cells ++ [new] := by
    intro cells hlen
    rw [← hlen, List.set_append_right _ _ (Nat.le_refl _), Nat.sub_self]
    rfl
  exact congrArg (Memory.mk _) (hset _ (mem.write_heap_length fp _))

/-- The allocated entries after a link are those from before, with their paths, and the new one. -/
theorem mem_link_heap (he : mem.read fp = .ok e) {e' : FpHentry} (h : e' ∈ (mem.link fp e nent).heap) :
    e' = nent ∨ ∃ e'' ∈ mem.heap, e'.path = e''.path := by
  rcases List.mem_append.1 h with h | h
  · cases fp with
    | bucket hash => exact .inr ⟨e', h, rfl⟩
    | allocated i =>
      rcases List.mem_or_eq_of_mem_set h with h | h
      · exact .inr ⟨e', h, rfl⟩
      · exact .inr ⟨e, List.mem_of_getElem? (readAt_eq_ok.1 he), by rw [h]⟩
  · exact .inl (List.mem_singleton.1 h)

/-- A bucket holds the same when it and the entries that are linked in it are as they were. -/
theorem Memory.Holds.frame {bucketOf' : Nat → FpIndex} (hholds : mem.Holds bucketOf h ms)
    (harray : mem'.filepathHtable h = mem.filepathHtable h)
    (hheap : ∀ (a : Nat) (e : FpHentry), mem.heap[a]? = some e → bucketOf a = h →
      mem'.heap[a]? = some e ∧ bucketOf' a = h) : mem'.Holds bucketOf' h ms := by
  cases ms with
  | nil => exact harray.trans hholds
  | cons m ms =>
    obtain ⟨hhead, l, hl, hdata, hbucket⟩ := hholds
    rw [Memory.Holds, harray]
    refine ⟨hhead, l, Segment.frame hl fun x hx => ?_, hdata, fun x hx => ?_⟩
    · exact (hheap x.1 x.2 (hl.cell x hx) (hbucket x hx)).1
    · exact (hheap x.1 x.2 (hl.cell x hx) (hbucket x hx)).2

/-- The bucket that a pointer belongs to. -/
def FpHentryPtr.home (bucketOf : Nat → FpIndex) : FpHentryPtr → FpIndex
  | .bucket h => h
  | .allocated i => bucketOf i

theorem lastPtr_home (hbucket : ∀ x ∈ l, bucketOf x.1 = h) :
    (lastPtr (.bucket h) l).home bucketOf = h := by
  rcases List.eq_nil_or_concat' l with rfl | ⟨front, x, rfl⟩
  · rfl
  · rw [lastPtr_concat]
    exact hbucket x (by simp)

/-- The other buckets stay when an entry is linked. -/
theorem link_other (hholds : mem.Holds bucketOf h ms) (he : mem.read fp = .ok e) (hne : fp.home bucketOf ≠ h)
    (nent : FpHentry) (new : FpIndex) :
    (mem.link fp e nent).Holds (Function.update bucketOf mem.heap.length new) h ms := by
  refine hholds.frame ?_ fun a e' ha hbucket => ⟨?_, ?_⟩
  · cases fp with
    | bucket h' => exact Function.update_of_ne hne.symm _ _
    | allocated i => rfl
  · have hlt := (List.getElem?_eq_some_iff.1 ha).1
    cases fp with
    | bucket h' =>
      rw [← ha]
      exact List.getElem?_append_left hlt
    | allocated i =>
      have hai : a ≠ i := by
        rintro rfl
        exact hne hbucket
      exact cell_of_set ha hai _ nent
  · have hlt := (List.getElem?_eq_some_iff.1 ha).1
    rw [Function.update_of_ne (Nat.ne_of_lt hlt), hbucket]

/-- The last entry of a bucket can be read. -/
theorem lastPtr_read (hl : Linked FpHentry.next mem.heap (mem.filepathHtable h).next l) :
    ∃ e, mem.read (lastPtr (.bucket h) l) = .ok e := by
  rcases List.eq_nil_or_concat' l with rfl | ⟨front, x, rfl⟩
  · exact ⟨_, rfl⟩
  · rw [lastPtr_concat]
    exact ⟨x.2, readAt_eq_ok.2 (hl.cell x (by simp))⟩

/-- A new entry is linked to the last one of a bucket. -/
theorem link_holds (hhead : (mem.filepathHtable h).data = m.data)
    (hl : Linked FpHentry.next mem.heap (mem.filepathHtable h).next l) (hdata : l.map (·.2.data) = ms.map (·.data))
    (hbucket : ∀ x ∈ l, bucketOf x.1 = h) (hnext : nent.next = none) (hnent : nent.data = m'.data)
    (he : mem.read (lastPtr (.bucket h) l) = .ok e) :
    (mem.link (lastPtr (.bucket h) l) e nent).Holds (Function.update bucketOf mem.heap.length h) h
      (m :: (ms ++ [m'])) := by
  have hnew : Function.update bucketOf mem.heap.length h mem.heap.length = h := Function.update_self _ _ _
  rcases List.eq_nil_or_concat' l with rfl | ⟨front, ⟨a, last⟩, rfl⟩
  · -- the entry in the array is the last one
    obtain rfl : ms = [] := List.map_eq_nil_iff.1 hdata.symm
    obtain rfl : mem.filepathHtable h = e := Except.ok.inj he
    simp only [Memory.link, Memory.write, lastPtr, Memory.Holds, List.nil_append, Function.update_self]
    refine ⟨hhead, [(mem.heap.length, nent)], ⟨rfl, ?_, hnext⟩, ?_, ?_⟩
    · exact List.getElem?_concat_length
    · rw [List.map_singleton, List.map_singleton, hnent]
    · intro x hx
      rw [List.mem_singleton.1 hx, hnew]
  · have hread : mem.read (.allocated a) = .ok last := readAt_eq_ok.2 (hl.cell (a, last) (by simp))
    rw [lastPtr_concat] at he ⊢
    obtain rfl : last = e := Except.ok.inj (hread.symm.trans he)
    refine ⟨hhead, _, hl.concat { last with next := some mem.heap.length } rfl hnext, ?_, ?_⟩
    · have hlast : FpHentry.data { last with next := some mem.heap.length } = last.data := rfl
      rw [List.map_append, List.map_append, ← hdata, List.map_append]
      simp [hlast, hnent]
    · intro x hx
      by_cases hx' : x.1 = mem.heap.length
      · rw [hx', hnew]
      · rw [Function.update_of_ne hx']
        simp only [List.mem_append, List.mem_cons, List.not_mem_nil, or_false] at hx
        rcases hx with hx | rfl | rfl
        · exact hbucket x (List.mem_append_left _ hx)
        · exact hbucket (a, last) (by simp)
        · exact absurd rfl hx'

/-- What a call writes into the entry that it makes. -/
def Call.entry (sha256 : Bytes → ByteBuf 32) (call : Call) (key : Bytes) : FpHentry :=
  ⟨some key, storedDigest sha256 call.file.measure, none⟩

theorem copyKey_eq_ok {key : Bytes} (h : call.copyKey = .ok key) :
    call.keyBlock = true ∧ call.len ≤ call.object.length ∧ key = call.object.take call.len := by
  unfold Call.copyKey at h
  split_ifs at h with hblock
  unfold readRange at h
  split_ifs at h with hle
  cases h
  rw [Nat.zero_add] at hle
  exact ⟨hblock, hle, rfl⟩

/-- A call whose key was not found fills the zeroed entry that it was given. -/
theorem sha256File_new (hfind : findHashentry hash fuel mem call.libpath call.entryBlock = some (.ok (fp, mem')))
    (hread : mem'.read fp = .ok .zero) :
    sha256File hash sha256 fuel mem call = some (call.copyKey >>= fun key =>
      .ok (answer sha256 [] call, mem'.write fp (call.entry sha256 key))) := by
  rw [sha256File, running_ok_bind hfind]
  simp only [hread, checked_ok_bind, FpHentry.zero, answer, List.find?_nil, Call.entry]
  cases call.copyKey with
  | error f => rfl
  | ok key =>
    cases call.file.measure with
    | none => rfl
    | some content => rfl

theorem entry_data {key : Bytes} (h : call.copyKey = .ok key) :
    (call.entry sha256 key).data = (call.made sha256).data := by
  obtain ⟨-, -, rfl⟩ := copyKey_eq_ok h
  rfl

/-- A call whose key is found reports what the entry holds. -/
theorem sha256File_known (hfind : findHashentry hash fuel mem call.libpath call.entryBlock = some (.ok (fp, mem)))
    (hat : mem.IsAt m fp) (hm : made.find? (·.libpath = call.libpath) = some m) :
    sha256File hash sha256 fuel mem call = some (.ok (answer sha256 made call, mem)) := by
  obtain ⟨e, hread, hdata⟩ := hat
  simp only [FpHentry.data, Made.data, Prod.mk.injEq] at hdata
  rw [sha256File, running_ok_bind hfind]
  simp only [hread, checked_ok_bind, hdata.1, hdata.2, answer, hm]
  rfl

/-- What a call needs that makes an entry: a block for the entry if its bucket is in use, a block for the key, and an
object that is as long as what is copied. -/
structure Call.GetsEntry (hash : CString → FpIndex) (made : List Made) (call : Call) : Prop where
  entryBlock : (∃ m ∈ made, hash m.libpath = hash call.libpath) → call.entryBlock = true
  keyBlock : call.keyBlock = true
  object : call.len ≤ call.object.length

theorem copyKey_of_getsEntry (h : call.GetsEntry hash made) : ∃ key, call.copyKey = .ok key := by
  refine ⟨call.object.take call.len, ?_⟩
  rw [Call.copyKey, if_pos h.keyBlock, readRange, if_pos (by rw [Nat.zero_add]; exact h.object), List.drop_zero]

theorem bucket_concat_self : ((made ++ [call.made sha256]).filter fun m => hash m.libpath = hash call.libpath) =
    (made.filter fun m => hash m.libpath = hash call.libpath) ++ [call.made sha256] := by
  simp [List.filter_append, Call.made]

theorem bucket_concat_other (hne : hash call.libpath ≠ h) :
    ((made ++ [call.made sha256]).filter fun m => hash m.libpath = h) = made.filter fun m => hash m.libpath = h := by
  simp [List.filter_append, Call.made, hne]

/-- An entry in a bucket that is not in use. -/
theorem represents_bucket (hrep : Represents hash mem made)
    (hempty : made.filter (fun m => hash m.libpath = hash call.libpath) = []) (hdata : e.data = (call.made sha256).data)
    (hnext : e.next = none) :
    Represents hash (mem.write (.bucket (hash call.libpath)) e) (made ++ [call.made sha256]) := by
  obtain ⟨⟨bucketOf, hbuckets⟩, hcells⟩ := hrep
  refine ⟨⟨bucketOf, fun h => ?_⟩, fun e he => ?_⟩
  · by_cases hh : hash call.libpath = h
    · subst hh
      rw [bucket_concat_self, hempty, List.nil_append]
      simp only [Memory.Holds, Memory.write, Function.update_self]
      exact ⟨hdata, [], hnext, rfl, fun _ hx => absurd hx List.not_mem_nil⟩
    · rw [bucket_concat_other hh]
      exact (hbuckets h).frame (Function.update_of_ne (Ne.symm hh) _ _) fun _ _ ha hbucket => ⟨ha, hbucket⟩
  · obtain ⟨m, hm, hpath⟩ := hcells e he
    exact ⟨m, List.mem_append_left _ hm, hpath⟩

/-- An entry that is linked in its bucket. -/
theorem represents_link (hbuckets : ∀ h, mem.Holds bucketOf h (made.filter fun m => hash m.libpath = h))
    (hcells : ∀ e ∈ mem.heap, ∃ m ∈ made, e.path = some m.block)
    (hms : made.filter (fun m => hash m.libpath = hash call.libpath) = m :: ms)
    (hhead : (mem.filepathHtable (hash call.libpath)).data = m.data)
    (hl : Linked FpHentry.next mem.heap (mem.filepathHtable (hash call.libpath)).next l)
    (hdata : l.map (·.2.data) = ms.map (·.data)) (hbucket : ∀ x ∈ l, bucketOf x.1 = hash call.libpath)
    (hnext : nent.next = none) (hnent : nent.data = (call.made sha256).data)
    (he : mem.read (lastPtr (.bucket (hash call.libpath)) l) = .ok e) :
    Represents hash (mem.link (lastPtr (.bucket (hash call.libpath)) l) e nent) (made ++ [call.made sha256]) := by
  refine ⟨⟨Function.update bucketOf mem.heap.length (hash call.libpath), fun h => ?_⟩, fun e' he' => ?_⟩
  · by_cases hh : hash call.libpath = h
    · subst hh
      rw [bucket_concat_self, hms, List.cons_append]
      exact link_holds hhead hl hdata hbucket hnext hnent he
    · rw [bucket_concat_other hh]
      refine link_other (hbuckets h) he ?_ nent _
      rw [lastPtr_home hbucket]
      exact hh
  · rcases mem_link_heap he he' with rfl | ⟨e'', he'', hpath⟩
    · exact ⟨call.made sha256, by simp, congrArg Prod.fst hnent⟩
    · obtain ⟨m', hm', hpath'⟩ := hcells e'' he''
      exact ⟨m', List.mem_append_left _ hm', hpath.trans hpath'⟩

theorem find?_bucket (made : List Made) (path : CString) :
    (made.filter fun m => hash m.libpath = hash path).find? (·.libpath = path) = made.find? (·.libpath = path) := by
  rw [List.find?_filter]
  congr 1
  funext m
  by_cases hm : m.libpath = path
  · simp [hm]
  · simp [hm]

/-- The entry of a key that is not in its bucket is not there at all. -/
theorem new_of_bucket (h : ∀ m ∈ made.filter (fun m => hash m.libpath = hash path), m.libpath ≠ path) :
    ¬ made.any (·.libpath = path) = true := by
  intro hknown
  obtain ⟨m, hm, hpath⟩ := List.any_eq_true.1 hknown
  have hpath : m.libpath = path := of_decide_eq_true hpath
  exact h m (List.mem_filter.2 ⟨hm, by simp [hpath]⟩) hpath

/-- What is there of a call that makes an entry, once it got a zeroed one: it faults when the key is copied, or leaves
a memory that represents the entry too. -/
theorem sha256File_make (hnew : ¬ made.any (·.libpath = call.libpath) = true)
    (hfind : findHashentry hash fuel mem call.libpath call.entryBlock = some (.ok (fp, mem')))
    (hread : mem'.read fp = .ok .zero)
    (hentry : (∃ m ∈ made, hash m.libpath = hash call.libpath) → call.entryBlock = true)
    (hrep : ∀ e, e.data = (call.made sha256).data → e.next = none →
      Represents hash (mem'.write fp e) (made ++ [call.made sha256])) :
    (∃ f, sha256File hash sha256 fuel mem call = some (.error f) ∧ ¬ call.GetsEntry hash made) ∨
    (∃ e, sha256File hash sha256 fuel mem call = some (.ok (answer sha256 made call, mem'.write fp e)) ∧
      Represents hash (mem'.write fp e) (make sha256 made call) ∧ call.GetsEntry hash made) := by
  have hanswer : answer sha256 [] call = answer sha256 made call := by
    have hnone : made.find? (·.libpath = call.libpath) = none := by
      rw [List.find?_eq_none]
      intro m hm hpath
      exact hnew (List.any_eq_true.2 ⟨m, hm, hpath⟩)
    rw [answer, answer, hnone]
    rfl
  rw [sha256File_new hfind hread, hanswer, make_of_new hnew]
  cases hcopy : call.copyKey with
  | error f =>
    refine .inl ⟨f, rfl, fun hgets => ?_⟩
    obtain ⟨key, hkey⟩ := copyKey_of_getsEntry hgets
    rw [hcopy] at hkey
    cases hkey
  | ok key =>
    obtain ⟨hblock, hle, -⟩ := copyKey_eq_ok hcopy
    exact .inr ⟨call.entry sha256 key, rfl, hrep _ (entry_data hcopy) rfl, hentry, hblock, hle⟩

/-- A call that makes an entry in a bucket that is in use. -/
theorem sha256File_append (hbuckets : ∀ h, mem.Holds bucketOf h (made.filter fun m => hash m.libpath = h))
    (hcells : ∀ e ∈ mem.heap, ∃ m ∈ made, e.path = some m.block)
    (hms : made.filter (fun m => hash m.libpath = hash call.libpath) = m :: ms)
    (hhead : (mem.filepathHtable (hash call.libpath)).data = m.data)
    (hl : Linked FpHentry.next mem.heap (mem.filepathHtable (hash call.libpath)).next l)
    (hdata : l.map (·.2.data) = ms.map (·.data)) (hbucket : ∀ x ∈ l, bucketOf x.1 = hash call.libpath)
    (hnew : ¬ made.any (·.libpath = call.libpath) = true)
    (hfind : findHashentry hash fuel mem call.libpath call.entryBlock =
      some (mem.append (lastPtr (.bucket (hash call.libpath)) l) call.entryBlock)) :
    (∃ f, sha256File hash sha256 fuel mem call = some (.error f) ∧ ¬ call.GetsEntry hash made) ∨
    (∃ mem', sha256File hash sha256 fuel mem call = some (.ok (answer sha256 made call, mem')) ∧
      Represents hash mem' (make sha256 made call) ∧ mem'.heap.length = mem.heap.length + 1 ∧
      call.GetsEntry hash made) := by
  have hused : ∃ m ∈ made, hash m.libpath = hash call.libpath := by
    have hm := List.mem_filter.1 (hms ▸ List.mem_cons_self : m ∈ made.filter _)
    exact ⟨m, hm.1, of_decide_eq_true hm.2⟩
  obtain ⟨e, he⟩ := lastPtr_read hl
  cases hblock : call.entryBlock with
  | false =>
    have happend : mem.append (lastPtr (.bucket (hash call.libpath)) l) false = .error .nullPointer := by
      rw [Memory.append, he]
      rfl
    refine .inl ⟨.nullPointer, ?_, fun hgets => ?_⟩
    · rw [sha256File, hfind, hblock, happend]
      rfl
    · have htrue := hgets.entryBlock hused
      rw [hblock] at htrue
      cases htrue
  | true =>
    rw [hblock, append_eq he, ← hblock] at hfind
    have hrep : ∀ e', e'.data = (call.made sha256).data → e'.next = none →
        Represents hash ((mem.link (lastPtr (.bucket (hash call.libpath)) l) e .zero).write
          (.allocated mem.heap.length) e') (made ++ [call.made sha256]) := by
      intro e' hdata' hnext'
      rw [link_write]
      exact represents_link hbuckets hcells hms hhead hl hdata hbucket hnext' hdata' he
    rcases sha256File_make hnew hfind link_read (fun _ => hblock) hrep with ⟨f, hrun, hgets⟩ | ⟨e', hrun, hrep', hgets⟩
    · exact .inl ⟨f, hrun, hgets⟩
    · refine .inr ⟨_, hrun, hrep', ?_, hgets⟩
      rw [link_write, Memory.link_heap_length]

/-- The entries that the search for the key of a call goes through. -/
def bucketFor (hash : CString → FpIndex) (made : List Made) (path : CString) : List Made :=
  made.filter fun m => hash m.libpath = hash path

/-- A call faults where the search for its key does or when it gets no entry; otherwise it ends as the entries that were
made say, and the memory represents those that are made then. -/
theorem sha256File_cases (hrep : Represents hash mem made) (hfuel : mem.heap.length < fuel) (call : Call) :
    (∃ f, sha256File hash sha256 fuel mem call = some (.error f) ∧
      ((∃ f, search (bucketFor hash made call.libpath) call.libpath = .error f) ∨
        (¬ made.any (·.libpath = call.libpath) = true ∧ ¬ call.GetsEntry hash made))) ∨
    (∃ mem', sha256File hash sha256 fuel mem call = some (.ok (answer sha256 made call, mem')) ∧
      Represents hash mem' (make sha256 made call) ∧ mem'.heap.length ≤ mem.heap.length + 1 ∧
      (∃ found, search (bucketFor hash made call.libpath) call.libpath = .ok found) ∧
      (made.any (·.libpath = call.libpath) = true ∨ call.GetsEntry hash made)) := by
  obtain ⟨⟨bucketOf, hbuckets⟩, hcells⟩ := id hrep
  have hholds := hbuckets (hash call.libpath)
  rcases hms : made.filter (fun m => hash m.libpath = hash call.libpath) with _ | ⟨m, ms⟩
  · have hfor : bucketFor hash made call.libpath = [] := hms
    rw [hms] at hholds
    rw [hfor]
    have hzero : mem.filepathHtable (hash call.libpath) = .zero := hholds
    have hnone : ∀ m ∈ made.filter (fun m => hash m.libpath = hash call.libpath), m.libpath ≠ call.libpath := by
      rw [hms]
      exact fun _ hm => absurd hm List.not_mem_nil
    have hfind : findHashentry hash fuel mem call.libpath call.entryBlock =
        some (.ok (.bucket (hash call.libpath), mem)) := by
      rw [findHashentry, hzero]
      rfl
    have hentry : (∃ m ∈ made, hash m.libpath = hash call.libpath) → call.entryBlock = true := by
      intro ⟨m, hm, hhash⟩
      have hmem : m ∈ made.filter (fun m => hash m.libpath = hash call.libpath) :=
        List.mem_filter.2 ⟨hm, by simpa using hhash⟩
      rw [hms] at hmem
      cases hmem
    have hread : mem.read (.bucket (hash call.libpath)) = .ok .zero := congrArg Except.ok hzero
    rcases sha256File_make (new_of_bucket hnone) hfind hread hentry fun e => represents_bucket hrep hms with
      ⟨f, hrun, hgets⟩ | ⟨e, hrun, hrep', hgets⟩
    · exact .inl ⟨f, hrun, .inr ⟨new_of_bucket hnone, hgets⟩⟩
    · exact .inr ⟨_, hrun, hrep', Nat.le_succ _, ⟨none, rfl⟩, .inr hgets⟩
  · have hfor : bucketFor hash made call.libpath = m :: ms := hms
    rw [hms] at hholds
    rw [hfor]
    obtain ⟨hhead, l, hl, hdata, hbucket⟩ := hholds
    have hroom : l.length < fuel := Nat.lt_of_le_of_lt hl.length_le hfuel
    rcases findHashentry_cases call.entryBlock hhead hl hdata hroom with
      ⟨f, hsearch, hfind⟩ | ⟨m', found, hsearch, hat, hfind⟩ | ⟨hsearch, hfind⟩
    · refine .inl ⟨f, ?_, .inl ⟨f, hsearch⟩⟩
      rw [sha256File, hfind]
      rfl
    · -- the call is answered from the entry
      have hm' := search_eq_ok hsearch
      rw [← hms, find?_bucket] at hm'
      have hknown : made.any (·.libpath = call.libpath) = true := by
        have hkey := List.find?_some hm'.symm
        exact List.any_eq_true.2 ⟨m', List.mem_of_find?_eq_some hm'.symm, hkey⟩
      refine .inr ⟨mem, sha256File_known hfind hat hm'.symm, ?_, Nat.le_succ _, ⟨_, hsearch⟩, .inl hknown⟩
      rw [make_of_any hknown]
      exact hrep
    · have hm' := search_eq_ok hsearch
      rw [← hms, find?_bucket] at hm'
      have hnew : ¬ made.any (·.libpath = call.libpath) = true := by
        intro hknown
        obtain ⟨m', hmem, hkey⟩ := List.any_eq_true.1 hknown
        exact List.find?_eq_none.1 hm'.symm m' hmem hkey
      rcases sha256File_append hbuckets hcells hms hhead hl hdata hbucket hnew hfind with
        ⟨f, hrun, hgets⟩ | ⟨mem', hrun, hrep', hlen, hgets⟩
      · exact .inl ⟨f, hrun, .inr ⟨hnew, hgets⟩⟩
      · exact .inr ⟨mem', hrun, hrep', Nat.le_of_eq hlen, ⟨none, hsearch⟩, .inr hgets⟩

end PortableTlsRa.Libmeasurement.InMemory
