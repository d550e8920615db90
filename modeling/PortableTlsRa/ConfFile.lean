import PortableTlsRa.Lib.Layout
import PortableTlsRa.ProcInfo

/-!
# The configuration file

`reg_config` assembles a configuration in one buffer: a header, the table of processes, the table of library digests
and the string area, with positions in place of pointers.  `build_conf` finds the sections again.  The file format is
`ConfigurationOf`: the buffer that `reg_config` assembles has it (`regConfigBuffer_configuration`), and what
`build_conf` yields of a file that has it are the entries of the configuration (`buildConf_entries_iff`).
-/

namespace PortableTlsRa

open CSem

/-! ### The records of the file -/

/-- `PROCCONF_MAGIC`. -/
def procconfMagic : ByteBuf 8 := ⟨lit "PROCCNF" ++ [0], by decide⟩

structure Confhead where
  magic : ByteBuf 8
  procCnt : Int32
  fdigCnt : Int32
  strSize : Int32

/-- A `struct procinfo` with the positions of its unions.  `pad` is the gap in front of the last member. -/
structure ConfProcinfo where
  pid : Int32
  ppid : Int32
  ruid : UInt32
  rgid : UInt32
  euid : UInt32
  egid : UInt32
  suid : UInt32
  sgid : UInt32
  spos : UInt64
  digest : ByteBuf 32
  count : Int32
  pad : UInt32
  fpos : UInt64

/-- The record with what its positions stand for. -/
def ConfProcinfo.toProcinfo (p : ConfProcinfo) (path : CString) (libs : List Fdigest) : Procinfo where
  pid := p.pid.toInt
  ppid := p.ppid.toInt
  ruid := p.ruid
  rgid := p.rgid
  euid := p.euid
  egid := p.egid
  suid := p.suid
  sgid := p.sgid
  path := some path
  digest := p.digest
  count := p.count.toInt
  libs := libs

/-- A `struct fdigest` with the position of its union. -/
structure ConfFdigest where
  spos : UInt64
  digest : ByteBuf 32

def Confhead.layout : Layout Confhead :=
  ((Layout.bytes 8).prod (Layout.int32.prod (Layout.int32.prod Layout.int32))).map
    { toFun := fun h => (h.magic, h.procCnt, h.fdigCnt, h.strSize)
      invFun := fun (magic, procCnt, fdigCnt, strSize) => ⟨magic, procCnt, fdigCnt, strSize⟩
      left_inv := fun _ => rfl
      right_inv := fun _ => rfl }

def ConfProcinfo.layout : Layout ConfProcinfo :=
  (Layout.int32.prod (Layout.int32.prod (Layout.uint32.prod (Layout.uint32.prod (Layout.uint32.prod
    (Layout.uint32.prod (Layout.uint32.prod (Layout.uint32.prod (Layout.uint64.prod ((Layout.bytes 32).prod
      (Layout.int32.prod (Layout.uint32.prod Layout.uint64)))))))))))).map
    { toFun := fun p => (p.pid, p.ppid, p.ruid, p.rgid, p.euid, p.egid, p.suid, p.sgid, p.spos, p.digest, p.count,
        p.pad, p.fpos)
      invFun := fun (pid, ppid, ruid, rgid, euid, egid, suid, sgid, spos, digest, count, pad, fpos) =>
        ⟨pid, ppid, ruid, rgid, euid, egid, suid, sgid, spos, digest, count, pad, fpos⟩
      left_inv := fun _ => rfl
      right_inv := fun _ => rfl }

def ConfFdigest.layout : Layout ConfFdigest :=
  (Layout.uint64.prod (Layout.bytes 32)).map
    { toFun := fun fd => (fd.spos, fd.digest)
      invFun := fun (spos, digest) => ⟨spos, digest⟩
      left_inv := fun _ => rfl
      right_inv := fun _ => rfl }

@[simp] theorem Confhead.layout_size : Confhead.layout.size = 20 := rfl

@[simp] theorem ConfProcinfo.layout_size : ConfProcinfo.layout.size = 88 := rfl

@[simp] theorem ConfFdigest.layout_size : ConfFdigest.layout.size = 40 := rfl

/-! ### Decoding -/

/-- The three sections of a buffer.  A pointer into a section is its place there; a pointer that leaves its section
cannot be followed. -/
structure Conf where
  procinfo : List ConfProcinfo
  fdigest : List ConfFdigest
  strings : Bytes

/-- The table of library digests; it starts in front of the buffer when the count of processes is negative. -/
def readFdigests (buf : Bytes) (fdpAt : Int) (n : Int) : Checked (List ConfFdigest) :=
  if fdpAt < 0 ∧ 0 < n then .error .outOfBounds
  else readTable ConfFdigest.layout buf fdpAt.toNat n.toNat

/-- Returns the number of processes and what `*pinfop` is set to. -/
def buildConf (buf : Bytes) (sz : Nat) : Checked (Int × Option Conf) := do
  let head ← readCell Confhead.layout buf 0
  -- the sizes of the three structures are 20, 88 and 40
  let fdpAt : Int := 20 + 88 * head.procCnt.toInt
  let sbufAt : Int := fdpAt + 40 * head.fdigCnt.toInt
  -- the sum of the sizes is a size_t
  if (sz : Int) ≠ (sbufAt + head.strSize.toInt) % 2 ^ 64 then return (0, none)
  let procinfo ← readTable ConfProcinfo.layout buf 20 head.procCnt.toInt.toNat
  let fdigest ← readFdigests buf fdpAt head.fdigCnt.toInt
  -- with a negative count the string area starts inside the other sections
  let strings := if head.fdigCnt.toInt < 0 then [] else buf.drop sbufAt.toNat
  return (head.procCnt.toInt, some ⟨procinfo, fdigest, strings⟩)

namespace Conf

variable (c : Conf)

/-- `fdp[i]`. -/
def fdigestAt (i : Nat) : Checked Fdigest := do
  let fd ← readAt c.fdigest i
  let path ← stringAt c.strings fd.spos.toNat
  return ⟨some path, fd.digest⟩

/-- The libraries from place `i` on, at most `n`, as far as they can be read. -/
def libs (i : Nat) : Nat → List Fdigest
  | 0 => []
  | n + 1 =>
    match c.fdigestAt i with
    | .ok fd => fd :: libs (i + 1) n
    | .error _ => []

/-- The process that a record stands for. -/
def process (p : ConfProcinfo) : Checked Procinfo := do
  let path ← stringAt c.strings p.spos.toNat
  return p.toProcinfo path (c.libs p.fpos.toNat p.count.toInt.toNat)

/-- All processes of the configuration. -/
def entries : Checked (List Procinfo) := c.procinfo.mapM c.process

end Conf

/-! ### Encoding -/

/-- What the copy of a `struct procinfo` holds where the original has a pointer or a gap. -/
structure Stale where
  path : UInt64
  libs : UInt64
  pad : UInt32

def copyProcinfo (stale : Stale) (p : Procinfo) : ConfProcinfo where
  pid := Int32.ofInt p.pid
  ppid := Int32.ofInt p.ppid
  ruid := p.ruid
  rgid := p.rgid
  euid := p.euid
  egid := p.egid
  suid := p.suid
  sgid := p.sgid
  spos := stale.path
  digest := p.digest
  count := Int32.ofInt p.count
  pad := stale.pad
  fpos := stale.libs

/-- `memcpy(cpif, pinfo, sizeof(struct procinfo)*entries)`. -/
def copyProcinfos (stale : Nat → Stale) : Nat → List Procinfo → List ConfProcinfo
  | _, [] => []
  | i, p :: pinfo => copyProcinfo (stale i) p :: copyProcinfos stale (i + 1) pinfo

/-- The sum of two `int` values. -/
def addInt (a b : Int) : Checked Int :=
  if -2 ^ 31 ≤ a + b ∧ a + b < 2 ^ 31 then .ok (a + b) else .error .signedOverflow

/-- `malloc` of an array, and `memset`: no heap has room for a negative number of cells or for half of all addresses,
and the null pointer is written through then. -/
def mallocArray {α : Type} (n : Int) (cell : α) : Checked (List α) :=
  if n < 0 ∨ 2 ^ 63 ≤ n then .error .nullPointer else .ok (List.replicate n.toNat cell)

def sizeLibrary (ssz : Nat) (lib : Fdigest) : Checked (Turn Nat Empty) := do
  let path ← deref lib.path
  return .next (ssz + (path.1.length + 1))

/-- One turn of the loop that adds up the sizes; `exit` is `break`. -/
def sizeProcess (st : Nat × Int) (p : Procinfo) : Checked (Turn (Nat × Int) (Nat × Int)) := do
  match p.path with
  | none => return .exit st
  | some path =>
    let (ssz, fdcnt) := st
    let fdcnt ← addInt fdcnt p.count
    match ← forEach (fun ssz j => readAt p.libs j >>= sizeLibrary ssz) (ssz + (path.1.length + 1))
        (List.range p.count.toNat) with
    | .next ssz => return .next (ssz, fdcnt)

/-- The variables of the loop that copies. -/
structure Placing where
  i : Nat
  cpif : List ConfProcinfo
  fdpDst : List ConfFdigest
  fpos : Nat
  sbuf : Bytes
  spos : Nat

def placeLibrary (st : Placing) (lib : Fdigest) : Checked (Turn Placing Empty) := do
  let path ← deref lib.path
  let sbuf ← writeRange st.sbuf st.spos path.1
  let fdpDst ← writeRange st.fdpDst st.fpos [⟨UInt64.ofNat st.spos, lib.digest⟩]
  return .next { st with sbuf, fdpDst, spos := st.spos + (path.1.length + 1), fpos := st.fpos + 1 }

/-- One turn of the loop that copies; `exit` is `break`. -/
def placeProcess (st : Placing) (p : Procinfo) : Checked (Turn Placing Placing) := do
  match p.path with
  | none => return .exit st
  | some path =>
    let sbuf ← writeRange st.sbuf st.spos path.1
    let cell ← readAt st.cpif st.i
    let fpos := if p.count > 0 then UInt64.ofNat st.fpos else cell.fpos
    let cpif ← writeRange st.cpif st.i [{ cell with spos := UInt64.ofNat st.spos, fpos }]
    let st := { st with sbuf, cpif, i := st.i + 1, spos := st.spos + (path.1.length + 1) }
    match ← forEach (fun st j => readAt p.libs j >>= placeLibrary st) st (List.range p.count.toNat) with
    | .next st => return .next st

/-- The state that a loop with `break` ends in. -/
def Turn.final {σ : Type} : Turn σ σ → σ
  | .next s => s
  | .exit s => s

/-- The `entries` processes at `pinfo`, for a copy to memory that `malloc` gives: it gives none for a negative
number. -/
def readProcinfos (pinfo : Option (List Procinfo)) (entries : Int) : Checked (List Procinfo) := do
  if entries < 0 then .error .nullPointer
  else
    let cells ← deref pinfo
    if cells.length < entries.toNat then .error .outOfBounds
    else return cells.take entries.toNat

/-- The part of `reg_config` that assembles the buffer. -/
def regConfigBuffer (stale : Nat → Stale) (pinfo : Option (List Procinfo)) (entries : Int) : Checked Bytes := do
  let cells ← readProcinfos pinfo entries
  let cpif := copyProcinfos stale 0 cells
  let sizes ← forEach sizeProcess (0, 0) cells
  let (ssz, fdcnt) := Turn.final sizes
  let fdpDst ← mallocArray fdcnt ⟨0, ByteBuf.zero 32⟩
  let sbuf ← mallocArray ssz 0
  let placing ← forEach placeProcess { i := 0, cpif, fdpDst, fpos := 0, sbuf, spos := 0 } cells
  let placed := Turn.final placing
  let head : Confhead := ⟨procconfMagic, Int32.ofInt entries, Int32.ofInt fdcnt, Int32.ofNat ssz⟩
  return Confhead.layout.encode head ++ encodeTable ConfProcinfo.layout placed.cpif ++
    encodeTable ConfFdigest.layout placed.fdpDst ++ placed.sbuf

/-! ### What the buffer holds -/

/-- A string of the area, with its NUL byte. -/
def pathBytes : Option CString → Bytes
  | some path => path.1 ++ [0]
  | none => []

def libStrings (libs : List Fdigest) : Bytes := libs.flatMap fun lib => pathBytes lib.path

def Procinfo.strings (p : Procinfo) : Bytes := pathBytes p.path ++ libStrings p.libs

def chainStrings (pinfo : List Procinfo) : Bytes := pinfo.flatMap Procinfo.strings

def chainLibs (pinfo : List Procinfo) : List Fdigest := pinfo.flatMap (·.libs)

def storedLibs (spos : Nat) : List Fdigest → List ConfFdigest
  | [] => []
  | lib :: libs => ⟨UInt64.ofNat spos, lib.digest⟩ :: storedLibs (spos + (pathBytes lib.path).length) libs

def storedFdigests (spos : Nat) : List Procinfo → List ConfFdigest
  | [] => []
  | p :: pinfo =>
    storedLibs (spos + (pathBytes p.path).length) p.libs ++ storedFdigests (spos + p.strings.length) pinfo

def storedProcess (stale : Stale) (spos fpos : Nat) (p : Procinfo) : ConfProcinfo :=
  { copyProcinfo stale p with
    spos := UInt64.ofNat spos
    fpos := if p.count > 0 then UInt64.ofNat fpos else stale.libs }

def storedProcesses (stale : Nat → Stale) (i spos fpos : Nat) : List Procinfo → List ConfProcinfo
  | [] => []
  | p :: pinfo =>
    storedProcess (stale i) spos fpos p ::
      storedProcesses stale (i + 1) (spos + p.strings.length) (fpos + p.libs.length) pinfo

def confHeader (pinfo : List Procinfo) : Confhead where
  magic := procconfMagic
  procCnt := Int32.ofInt pinfo.length
  fdigCnt := Int32.ofInt (chainLibs pinfo).length
  strSize := Int32.ofNat (chainStrings pinfo).length

/-- The buffer for the entries. -/
def confBytes (stale : Nat → Stale) (pinfo : List Procinfo) : Bytes :=
  Confhead.layout.encode (confHeader pinfo) ++
    encodeTable ConfProcinfo.layout (storedProcesses stale 0 0 0 pinfo) ++
    encodeTable ConfFdigest.layout (storedFdigests 0 pinfo) ++ chainStrings pinfo

/-- A measured process: its numbers are `int` values, every path is set, and `count` is the number of libraries. -/
structure Procinfo.Measured (p : Procinfo) : Prop where
  pid : -2 ^ 31 ≤ p.pid ∧ p.pid < 2 ^ 31
  ppid : -2 ^ 31 ≤ p.ppid ∧ p.ppid < 2 ^ 31
  path : p.path.isSome
  libs : ∀ lib ∈ p.libs, lib.path.isSome
  count : p.count = p.libs.length

@[simp] theorem pathBytes_length (path : CString) : (pathBytes (some path)).length = path.1.length + 1 := by
  simp [pathBytes]

@[simp] theorem libStrings_cons (lib : Fdigest) (libs : List Fdigest) :
    libStrings (lib :: libs) = pathBytes lib.path ++ libStrings libs := rfl

@[simp] theorem chainStrings_cons (p : Procinfo) (pinfo : List Procinfo) :
    chainStrings (p :: pinfo) = p.strings ++ chainStrings pinfo := rfl

@[simp] theorem chainLibs_cons (p : Procinfo) (pinfo : List Procinfo) :
    chainLibs (p :: pinfo) = p.libs ++ chainLibs pinfo := rfl

theorem storedLibs_length (spos : Nat) (libs : List Fdigest) : (storedLibs spos libs).length = libs.length := by
  induction libs generalizing spos with
  | nil => rfl
  | cons lib libs ih => simp [storedLibs, ih]

theorem storedFdigests_length (spos : Nat) (pinfo : List Procinfo) :
    (storedFdigests spos pinfo).length = (chainLibs pinfo).length := by
  induction pinfo generalizing spos with
  | nil => rfl
  | cons p pinfo ih => simp [storedFdigests, storedLibs_length, ih]

theorem storedProcesses_length (stale : Nat → Stale) (i spos fpos : Nat) (pinfo : List Procinfo) :
    (storedProcesses stale i spos fpos pinfo).length = pinfo.length := by
  induction pinfo generalizing i spos fpos with
  | nil => rfl
  | cons p pinfo ih => simp [storedProcesses, ih]

/-! ### The loops of `reg_config` -/

theorem sizeLibraries {libs : List Fdigest} (hlibs : ∀ lib ∈ libs, lib.path.isSome) (ssz : Nat) :
    forEach (fun ssz j => readAt libs j >>= sizeLibrary ssz) ssz (List.range libs.length) =
      .ok (.next (ssz + (libStrings libs).length)) := by
  rw [forEach_range_readAt]
  induction libs generalizing ssz with
  | nil => rfl
  | cons lib libs ih =>
    rw [List.forall_mem_cons] at hlibs
    obtain ⟨path, hpath⟩ := Option.isSome_iff_exists.1 hlibs.1
    have hturn : sizeLibrary ssz lib = .ok (.next (ssz + (path.1.length + 1))) := by
      rw [sizeLibrary, hpath]
      rfl
    rw [forEach_cons_of_next hturn, ih hlibs.2, libStrings_cons, List.length_append, hpath, pathBytes_length,
      Nat.add_assoc]

theorem sizeProcess_eq {p : Procinfo} (hp : p.Measured) (ssz n : Nat) :
    sizeProcess (ssz, n) p =
      if n + p.libs.length < 2 ^ 31 then .ok (.next (ssz + p.strings.length, (n + p.libs.length : Nat)))
      else .error .signedOverflow := by
  obtain ⟨path, hpath⟩ := Option.isSome_iff_exists.1 hp.path
  simp only [sizeProcess, hpath, hp.count, addInt, Int.toNat_natCast]
  by_cases hfits : n + p.libs.length < 2 ^ 31
  · have hsum : -2 ^ 31 ≤ (n : Int) + p.libs.length ∧ (n : Int) + p.libs.length < 2 ^ 31 := by omega
    rw [if_pos hsum, if_pos hfits, ok_bind, sizeLibraries hp.libs, ok_bind, Procinfo.strings, List.length_append,
      hpath, pathBytes_length, Nat.add_assoc, Int.natCast_add]
    rfl
  · have hsum : ¬ (-2 ^ 31 ≤ (n : Int) + p.libs.length ∧ (n : Int) + p.libs.length < 2 ^ 31) := by omega
    rw [if_neg hsum, if_neg hfits, error_bind]

/-- The first loop adds up the sizes, unless the number of libraries leaves the range of an `int`. -/
theorem sizeProcesses {pinfo : List Procinfo} (hpinfo : ∀ p ∈ pinfo, p.Measured) (ssz n : Nat) (hn : n < 2 ^ 31) :
    forEach sizeProcess (ssz, n) pinfo =
      if n + (chainLibs pinfo).length < 2 ^ 31 then
        .ok (.next (ssz + (chainStrings pinfo).length, (n + (chainLibs pinfo).length : Nat)))
      else .error .signedOverflow := by
  induction pinfo generalizing ssz n with
  | nil => exact (if_pos hn).symm
  | cons p pinfo ih =>
    rw [List.forall_mem_cons] at hpinfo
    have hturn := sizeProcess_eq hpinfo.1 ssz n
    simp only [chainLibs_cons, chainStrings_cons, List.length_append, ← Nat.add_assoc]
    by_cases hfits : n + p.libs.length < 2 ^ 31
    · rw [if_pos hfits] at hturn
      rw [forEach_cons_of_next hturn, ih hpinfo.2 _ _ hfits]
    · rw [if_neg hfits] at hturn
      rw [forEach_cons_of_error hturn, if_neg (by omega)]

/-- The state of the second loop when `fdpDst` and `sbuf` are filled so far, with room for `kf` records and `ks`
bytes more. -/
def Placing.filled (i : Nat) (cpif : List ConfProcinfo) (fdpDst : List ConfFdigest) (kf : Nat) (sbuf : Bytes)
    (ks : Nat) : Placing where
  i := i
  cpif := cpif
  fdpDst := fdpDst ++ List.replicate kf ⟨0, ByteBuf.zero 32⟩
  fpos := fdpDst.length
  sbuf := sbuf ++ List.replicate ks 0
  spos := sbuf.length

/-- A path is copied in front of the NUL byte that the area was cleared to. -/
theorem writeRange_path (sbuf : Bytes) (path : CString) (ks : Nat) :
    writeRange (sbuf ++ List.replicate (path.1.length + 1 + ks) 0) sbuf.length path.1 =
      .ok (sbuf ++ pathBytes (some path) ++ List.replicate ks 0) := by
  have hwrite := writeRange_replicate sbuf path.1 0 (1 + ks)
  rw [← Nat.add_assoc] at hwrite
  rw [hwrite, ← List.replicate_append_replicate]
  simp [pathBytes]

theorem placeLibrary_filled {lib : Fdigest} {path : CString} (hpath : lib.path = some path) (i : Nat)
    (cpif : List ConfProcinfo) (fdpDst : List ConfFdigest) (kf : Nat) (sbuf : Bytes) (ks : Nat) :
    placeLibrary (Placing.filled i cpif fdpDst (1 + kf) sbuf (path.1.length + 1 + ks)) lib =
      .ok (.next (Placing.filled i cpif (fdpDst ++ [⟨UInt64.ofNat sbuf.length, lib.digest⟩]) kf
        (sbuf ++ pathBytes (some path)) ks)) := by
  have hdst := writeRange_replicate fdpDst [(⟨UInt64.ofNat sbuf.length, lib.digest⟩ : ConfFdigest)]
    ⟨0, ByteBuf.zero 32⟩ kf
  rw [List.length_singleton] at hdst
  simp only [placeLibrary, hpath, deref, ok_bind, Placing.filled, writeRange_path, hdst, pure_eq_ok]
  simp

theorem placeLibraries {libs : List Fdigest} (hlibs : ∀ lib ∈ libs, lib.path.isSome) (i : Nat)
    (cpif : List ConfProcinfo) (fdpDst : List ConfFdigest) (kf : Nat) (sbuf : Bytes) (ks : Nat) :
    forEach (fun st j => readAt libs j >>= placeLibrary st)
        (Placing.filled i cpif fdpDst (libs.length + kf) sbuf ((libStrings libs).length + ks))
        (List.range libs.length) =
      .ok (.next (Placing.filled i cpif (fdpDst ++ storedLibs sbuf.length libs) kf (sbuf ++ libStrings libs) ks)) := by
  rw [forEach_range_readAt]
  induction libs generalizing fdpDst sbuf with
  | nil => simp [storedLibs, libStrings]
  | cons lib libs ih =>
    rw [List.forall_mem_cons] at hlibs
    obtain ⟨path, hpath⟩ := Option.isSome_iff_exists.1 hlibs.1
    have hturn := placeLibrary_filled hpath i cpif fdpDst (libs.length + kf) sbuf ((libStrings libs).length + ks)
    have hrest := ih hlibs.2 (fdpDst ++ [⟨UInt64.ofNat sbuf.length, lib.digest⟩]) (sbuf ++ pathBytes lib.path)
    rw [hpath] at hrest
    have hkf : (lib :: libs).length + kf = 1 + (libs.length + kf) := by
      rw [List.length_cons]
      omega
    have hks : (libStrings (lib :: libs)).length + ks = path.1.length + 1 + ((libStrings libs).length + ks) := by
      rw [libStrings_cons, List.length_append, hpath, pathBytes_length]
      omega
    rw [hkf, hks, forEach_cons_of_next hturn, hrest]
    simp [storedLibs, hpath]

theorem placeProcess_filled {p : Procinfo} (hp : p.Measured) (stale : Stale) (cpif copies : List ConfProcinfo)
    (fdpDst : List ConfFdigest) (kf : Nat) (sbuf : Bytes) (ks : Nat) :
    placeProcess (Placing.filled cpif.length (cpif ++ copyProcinfo stale p :: copies) fdpDst (p.libs.length + kf) sbuf
        (p.strings.length + ks)) p =
      .ok (.next (Placing.filled (cpif.length + 1)
        (cpif ++ storedProcess stale sbuf.length fdpDst.length p :: copies)
        (fdpDst ++ storedLibs (sbuf.length + (pathBytes p.path).length) p.libs) kf (sbuf ++ p.strings) ks)) := by
  obtain ⟨path, hpath⟩ := Option.isSome_iff_exists.1 hp.path
  have hks : p.strings.length + ks = path.1.length + 1 + ((libStrings p.libs).length + ks) := by
    rw [Procinfo.strings, List.length_append, hpath, pathBytes_length]
    omega
  have hcell : readAt (cpif ++ copyProcinfo stale p :: copies) cpif.length = .ok (copyProcinfo stale p) := by
    rw [readAt_eq_ok, List.getElem?_append_right (Nat.le_refl _), Nat.sub_self]
    rfl
  have hwrite := writeRange_append cpif [copyProcinfo stale p] [storedProcess stale sbuf.length fdpDst.length p] copies
    rfl
  have hlibs := placeLibraries hp.libs (cpif.length + 1)
    (cpif ++ storedProcess stale sbuf.length fdpDst.length p :: copies) fdpDst kf (sbuf ++ pathBytes p.path) ks
  have hcount : p.count.toNat = p.libs.length := by rw [hp.count, Int.toNat_natCast]
  have hstart : { Placing.filled cpif.length (cpif ++ copyProcinfo stale p :: copies) fdpDst (p.libs.length + kf) sbuf
        (path.1.length + 1 + ((libStrings p.libs).length + ks)) with
      i := cpif.length + 1
      cpif := cpif ++ storedProcess stale sbuf.length fdpDst.length p :: copies
      sbuf := sbuf ++ pathBytes (some path) ++ List.replicate ((libStrings p.libs).length + ks) 0
      spos := sbuf.length + (path.1.length + 1) } =
      Placing.filled (cpif.length + 1) (cpif ++ storedProcess stale sbuf.length fdpDst.length p :: copies) fdpDst
        (p.libs.length + kf) (sbuf ++ pathBytes p.path) ((libStrings p.libs).length + ks) := by
    simp [Placing.filled, hpath]
  rw [← hstart] at hlibs
  rw [hks, placeProcess]
  simp only [hpath, hcount]
  apply bind_eq_ok.2 ⟨_, writeRange_path sbuf path _, _⟩
  apply bind_eq_ok.2 ⟨_, hcell, _⟩
  apply bind_eq_ok.2 ⟨_, hwrite, _⟩
  apply bind_eq_ok.2 ⟨_, hlibs, _⟩
  rw [Procinfo.strings, hpath, List.length_append, List.append_assoc]
  rfl

/-- The second loop fills the tables and the string area in step. -/
theorem placeProcesses {pinfo : List Procinfo} (hpinfo : ∀ p ∈ pinfo, p.Measured) (stale : Nat → Stale)
    (cpif : List ConfProcinfo) (fdpDst : List ConfFdigest) (kf : Nat) (sbuf : Bytes) (ks : Nat) :
    forEach placeProcess
        (Placing.filled cpif.length (cpif ++ copyProcinfos stale cpif.length pinfo) fdpDst
          ((chainLibs pinfo).length + kf) sbuf ((chainStrings pinfo).length + ks)) pinfo =
      .ok (.next (Placing.filled (cpif.length + pinfo.length)
        (cpif ++ storedProcesses stale cpif.length sbuf.length fdpDst.length pinfo)
        (fdpDst ++ storedFdigests sbuf.length pinfo) kf (sbuf ++ chainStrings pinfo) ks)) := by
  induction pinfo generalizing cpif fdpDst sbuf with
  | nil => simp [copyProcinfos, storedProcesses, storedFdigests, chainStrings, chainLibs]
  | cons p pinfo ih =>
    rw [List.forall_mem_cons] at hpinfo
    have hturn := placeProcess_filled hpinfo.1 (stale cpif.length) cpif
      (copyProcinfos stale (cpif.length + 1) pinfo) fdpDst ((chainLibs pinfo).length + kf) sbuf
      ((chainStrings pinfo).length + ks)
    have hrest := ih hpinfo.2 (cpif ++ [storedProcess (stale cpif.length) sbuf.length fdpDst.length p])
      (fdpDst ++ storedLibs (sbuf.length + (pathBytes p.path).length) p.libs) (sbuf ++ p.strings)
    have hkf : (chainLibs (p :: pinfo)).length + kf = p.libs.length + ((chainLibs pinfo).length + kf) := by
      rw [chainLibs_cons, List.length_append, Nat.add_assoc]
    have hks : (chainStrings (p :: pinfo)).length + ks =
        p.strings.length + ((chainStrings pinfo).length + ks) := by
      rw [chainStrings_cons, List.length_append, Nat.add_assoc]
    have hcells : (cpif ++ [storedProcess (stale cpif.length) sbuf.length fdpDst.length p]).length =
        cpif.length + 1 := by
      rw [List.length_append, List.length_singleton]
    rw [hcells, List.append_assoc, List.singleton_append] at hrest
    rw [hkf, hks, copyProcinfos, forEach_cons_of_next hturn, hrest]
    simp [storedProcesses, storedFdigests, storedLibs_length, Nat.add_assoc, Nat.add_comm 1]

theorem mallocArray_of_lt {α : Type} {n : Nat} (cell : α) (h : n < 2 ^ 63) :
    mallocArray (n : Int) cell = .ok (List.replicate n cell) :=
  if_neg (by omega)

theorem readProcinfos_length (pinfo : List Procinfo) : readProcinfos (some pinfo) pinfo.length = .ok pinfo := by
  have hentries : ¬ (pinfo.length : Int) < 0 := by omega
  simp [readProcinfos, hentries, deref]

/-- The buffer is assembled, unless the libraries are too many or the strings too long for the memory. -/
theorem regConfigBuffer_eq (stale : Nat → Stale) {pinfo : List Procinfo} (hpinfo : ∀ p ∈ pinfo, p.Measured) :
    regConfigBuffer stale (some pinfo) pinfo.length =
      if (chainLibs pinfo).length < 2 ^ 31 then
        if (chainStrings pinfo).length < 2 ^ 63 then .ok (confBytes stale pinfo) else .error .nullPointer
      else .error .signedOverflow := by
  have hsizes := sizeProcesses hpinfo 0 0 (by omega)
  have hplaced := placeProcesses hpinfo stale [] [] 0 [] 0
  rw [Nat.zero_add, Nat.zero_add] at hsizes
  rw [regConfigBuffer, readProcinfos_length, ok_bind]
  by_cases hlibs : (chainLibs pinfo).length < 2 ^ 31
  · rw [if_pos hlibs] at hsizes ⊢
    have hfdpDst := mallocArray_of_lt (⟨0, ByteBuf.zero 32⟩ : ConfFdigest) (Nat.lt_trans hlibs (by omega : _ < 2 ^ 63))
    by_cases hstrings : (chainStrings pinfo).length < 2 ^ 63
    · rw [if_pos hstrings]
      apply bind_eq_ok.2 ⟨_, hsizes, _⟩
      apply bind_eq_ok.2 ⟨_, hfdpDst, _⟩
      apply bind_eq_ok.2 ⟨_, mallocArray_of_lt 0 hstrings, _⟩
      apply bind_eq_ok.2 ⟨_, hplaced, _⟩
      simp [Turn.final, Placing.filled, confBytes, confHeader]
    · have hsbuf : mallocArray ((chainStrings pinfo).length : Int) (0 : UInt8) = .error .nullPointer :=
        if_pos (by omega)
      rw [if_neg hstrings]
      have hcast : ((0 : Nat) : Int) = 0 := rfl
      rw [hcast] at hsizes
      simp only [hsizes, ok_bind, Turn.final, hfdpDst, hsbuf, error_bind]
  · rw [if_neg hlibs] at hsizes ⊢
    exact congrArg (· >>= _) hsizes

/-! ### The file format -/

/-- The library stands in place `i` of the table of library digests. -/
def Conf.LibraryStored (c : Conf) (i : Nat) (lib : Fdigest) : Prop :=
  ∃ fd path, c.fdigest[i]? = some fd ∧ StringStored c.strings fd.spos.toNat path ∧ lib = ⟨some path, fd.digest⟩

/-- The libraries stand in the table from place `i` on. -/
def Conf.LibrariesStored (c : Conf) (i : Nat) : List Fdigest → Prop
  | [] => True
  | lib :: libs => c.LibraryStored i lib ∧ LibrariesStored c (i + 1) libs

/-- The record stands for the process. -/
def Conf.Holds (c : Conf) (r : ConfProcinfo) (p : Procinfo) : Prop :=
  ∃ path libs, StringStored c.strings r.spos.toNat path ∧ c.LibrariesStored r.fpos.toNat libs ∧
    r.count.toInt = libs.length ∧ p = r.toProcinfo path libs

/-- The bytes are a configuration of the processes: a header with the sizes, and the three sections. -/
def ConfigurationOf (file : Bytes) (pinfo : List Procinfo) : Prop :=
  ∃ (head : Confhead) (c : Conf), file = Confhead.layout.encode head ++ encodeTable ConfProcinfo.layout c.procinfo ++
      encodeTable ConfFdigest.layout c.fdigest ++ c.strings ∧
    head.procCnt.toInt = c.procinfo.length ∧ head.fdigCnt.toInt = c.fdigest.length ∧
    head.strSize.toInt = c.strings.length ∧ List.Forall₂ c.Holds c.procinfo pinfo

theorem Conf.fdigestAt_eq_ok_iff {c : Conf} {i : Nat} {lib : Fdigest} :
    c.fdigestAt i = .ok lib ↔ c.LibraryStored i lib := by
  simp only [Conf.fdigestAt, bind_eq_ok, readAt_eq_ok, stringAt_eq_ok_iff, pure_eq_ok, Except.ok.injEq,
    Conf.LibraryStored]
  constructor
  · intro ⟨fd, hfd, path, hpath, heq⟩
    exact ⟨fd, path, hfd, hpath, heq.symm⟩
  · intro ⟨fd, path, hfd, hpath, heq⟩
    exact ⟨fd, hfd, path, hpath, heq.symm⟩

/-- All of the libraries are read exactly when they stand in the table. -/
theorem Conf.libs_eq_iff {c : Conf} {i : Nat} {libs : List Fdigest} :
    c.libs i libs.length = libs ↔ c.LibrariesStored i libs := by
  induction libs generalizing i with
  | nil => exact iff_of_true rfl trivial
  | cons lib libs ih =>
    rw [List.length_cons, Conf.libs, Conf.LibrariesStored, ← Conf.fdigestAt_eq_ok_iff, ← ih]
    split
    · rename_i fd hfd
      rw [List.cons.injEq, hfd, Except.ok.injEq]
    · rename_i e he
      simp [he]

theorem Conf.process_eq_ok_iff {c : Conf} {r : ConfProcinfo} {p : Procinfo} (hcount : p.count = p.libs.length) :
    c.process r = .ok p ↔ c.Holds r p := by
  simp only [Conf.process, bind_eq_ok, stringAt_eq_ok_iff, pure_eq_ok, Except.ok.injEq, Conf.Holds]
  constructor
  · intro h
    rcases h with ⟨path, hpath, rfl⟩
    have hlen : r.count.toInt = (c.libs r.fpos.toNat r.count.toInt.toNat).length := hcount
    refine ⟨path, _, hpath, Conf.libs_eq_iff.1 ?_, hlen, rfl⟩
    rw [← Int.toNat_natCast (List.length _), ← hlen]
  · intro h
    rcases h with ⟨path, libs, hpath, hlibs, hlen, rfl⟩
    refine ⟨path, hpath, ?_⟩
    rw [hlen, Int.toNat_natCast, Conf.libs_eq_iff.2 hlibs]

/-! ### The buffer has the format -/

theorem storedLibs_stored {c : Conf} {libs : List Fdigest} (hlibs : ∀ lib ∈ libs, lib.path.isSome)
    {F F' : List ConfFdigest} {S S' : Bytes} (hF : c.fdigest = F ++ (storedLibs S.length libs ++ F'))
    (hS : c.strings = S ++ (libStrings libs ++ S')) (hlen : c.strings.length < 2 ^ 64) :
    c.LibrariesStored F.length libs := by
  induction libs generalizing F S with
  | nil => trivial
  | cons lib libs ih =>
    rw [List.forall_mem_cons] at hlibs
    obtain ⟨path, hpath⟩ := Option.isSome_iff_exists.1 hlibs.1
    constructor
    · refine ⟨⟨UInt64.ofNat S.length, lib.digest⟩, path, ?_, ?_, ?_⟩
      · rw [hF, List.getElem?_append_right (Nat.le_refl _), Nat.sub_self]
        rfl
      · have hpos : (UInt64.ofNat S.length).toNat = S.length := by
          rw [UInt64.toNat_ofNat']
          apply Nat.mod_eq_of_lt
          rw [hS, List.length_append] at hlen
          omega
        refine ⟨S, libStrings libs ++ S', ?_, hpos.symm⟩
        rw [hS, libStrings_cons, hpath]
        simp [pathBytes]
      · rw [← hpath]
    · have hrest := ih hlibs.2 (F := F ++ [⟨UInt64.ofNat S.length, lib.digest⟩]) (S := S ++ pathBytes lib.path) ?_ ?_
      · rwa [List.length_append, List.length_singleton] at hrest
      · rw [hF, storedLibs, List.length_append]
        simp
      · rw [hS, libStrings_cons]
        simp

theorem storedProcess_holds {c : Conf} {p : Procinfo} (hp : p.Measured) (hcount : p.libs.length < 2 ^ 31)
    (stale : Stale) {F F' : List ConfFdigest} {S S' : Bytes}
    (hF : c.fdigest = F ++ (storedLibs (S.length + (pathBytes p.path).length) p.libs ++ F'))
    (hS : c.strings = S ++ (p.strings ++ S')) (hlen : c.strings.length < 2 ^ 64) (hfdig : F.length < 2 ^ 64) :
    c.Holds (storedProcess stale S.length F.length p) p := by
  obtain ⟨path, hpath⟩ := Option.isSome_iff_exists.1 hp.path
  have hpos : (UInt64.ofNat S.length).toNat = S.length := by
    rw [UInt64.toNat_ofNat']
    apply Nat.mod_eq_of_lt
    rw [hS, List.length_append] at hlen
    omega
  have hnumber : (Int32.ofInt p.count).toInt = p.libs.length := by
    rw [hp.count]
    exact Int32.toInt_ofInt_of_le (by omega) (by omega)
  refine ⟨path, p.libs, ⟨S, libStrings p.libs ++ S', ?_, hpos.symm⟩, ?_, hnumber, ?_⟩
  · rw [hS, Procinfo.strings, hpath]
    simp [pathBytes]
  · -- without libraries the place in the table says nothing
    by_cases hnone : p.libs = []
    · rw [hnone]
      trivial
    · have hlibs := List.length_pos_iff.2 hnone
      have hfpos : (storedProcess stale S.length F.length p).fpos.toNat = F.length := by
        rw [storedProcess, if_pos (by rw [hp.count]; omega), UInt64.toNat_ofNat']
        exact Nat.mod_eq_of_lt hfdig
      rw [hfpos]
      rw [← List.length_append] at hF
      have hstrings : c.strings = (S ++ pathBytes p.path) ++ (libStrings p.libs ++ S') := by
        rw [hS, Procinfo.strings]
        simp
      exact storedLibs_stored hp.libs hF hstrings hlen
  · have hpid : (Int32.ofInt p.pid).toInt = p.pid := Int32.toInt_ofInt_of_le hp.pid.1 hp.pid.2
    have hppid : (Int32.ofInt p.ppid).toInt = p.ppid := Int32.toInt_ofInt_of_le hp.ppid.1 hp.ppid.2
    simp only [ConfProcinfo.toProcinfo, storedProcess, copyProcinfo, hpid, hppid, hnumber, ← hpath, ← hp.count]

theorem storedProcesses_hold {c : Conf} {pinfo : List Procinfo} (hpinfo : ∀ p ∈ pinfo, p.Measured)
    (stale : Nat → Stale) (i : Nat) {F : List ConfFdigest} {S : Bytes}
    (hF : c.fdigest = F ++ storedFdigests S.length pinfo) (hS : c.strings = S ++ chainStrings pinfo)
    (hlen : c.strings.length < 2 ^ 64) (hfdig : c.fdigest.length < 2 ^ 31) :
    List.Forall₂ c.Holds (storedProcesses stale i S.length F.length pinfo) pinfo := by
  induction pinfo generalizing i F S with
  | nil => exact .nil
  | cons p pinfo ih =>
    rw [List.forall_mem_cons] at hpinfo
    have hcount : F.length + p.libs.length < 2 ^ 31 := by
      rw [hF, storedFdigests, List.length_append, List.length_append, storedLibs_length] at hfdig
      omega
    constructor
    · exact storedProcess_holds hpinfo.1 (by omega) (stale i) hF hS hlen (by omega)
    · have hrest := ih hpinfo.2 (i + 1) (F := F ++ storedLibs (S.length + (pathBytes p.path).length) p.libs)
        (S := S ++ p.strings) ?_ ?_
      · rwa [List.length_append, List.length_append, storedLibs_length] at hrest
      · rw [hF, storedFdigests, List.append_assoc, List.length_append]
      · rw [hS, chainStrings_cons, List.append_assoc]

/-- What `reg_config` writes is a configuration of the processes, if the sizes fit the header. -/
theorem confBytes_configuration (stale : Nat → Stale) {pinfo : List Procinfo} (hpinfo : ∀ p ∈ pinfo, p.Measured)
    (hentries : pinfo.length < 2 ^ 31) (hlibs : (chainLibs pinfo).length < 2 ^ 31)
    (hstrings : (chainStrings pinfo).length < 2 ^ 31) : ConfigurationOf (confBytes stale pinfo) pinfo := by
  refine ⟨_, ⟨storedProcesses stale 0 0 0 pinfo, storedFdigests 0 pinfo, chainStrings pinfo⟩, rfl, ?_, ?_, ?_, ?_⟩
  · rw [storedProcesses_length]
    exact Int32.toInt_ofInt_of_le (by omega) (by omega)
  · rw [storedFdigests_length]
    exact Int32.toInt_ofInt_of_le (by omega) (by omega)
  · exact Int32.toInt_ofNat_of_lt hstrings
  · apply storedProcesses_hold hpinfo stale 0 (F := []) (S := []) rfl rfl
    · show (chainStrings pinfo).length < 2 ^ 64
      omega
    · show (storedFdigests 0 pinfo).length < 2 ^ 31
      rwa [storedFdigests_length]

/-! ### Decoding the format -/

theorem readCell_head {file rest : Bytes} {head : Confhead} (hfile : file = Confhead.layout.encode head ++ rest) :
    readCell Confhead.layout file 0 = .ok head := by
  rw [hfile]
  exact readCell_append Confhead.layout [] head rest

/-- The three sections are found where the header says. -/
theorem buildConf_sections {file : Bytes} {head : Confhead} {c : Conf}
    (hfile : file = Confhead.layout.encode head ++ encodeTable ConfProcinfo.layout c.procinfo ++
      encodeTable ConfFdigest.layout c.fdigest ++ c.strings)
    (hproc : head.procCnt.toInt = c.procinfo.length) (hfdig : head.fdigCnt.toInt = c.fdigest.length)
    (hstr : head.strSize.toInt = c.strings.length) :
    buildConf file file.length = .ok (head.procCnt.toInt, some c) := by
  have hprocs := encodeTable_length ConfProcinfo.layout c.procinfo
  have hfdigs := encodeTable_length ConfFdigest.layout c.fdigest
  have hheadlen := Confhead.layout.encode_length head
  have hhead : readCell Confhead.layout file 0 = .ok head := by
    rw [List.append_assoc, List.append_assoc] at hfile
    exact readCell_head hfile
  have hlen : file.length = 20 + 88 * c.procinfo.length + 40 * c.fdigest.length + c.strings.length := by
    rw [hfile]
    simp only [List.length_append, hprocs, hfdigs, hheadlen, Confhead.layout_size, ConfProcinfo.layout_size,
      ConfFdigest.layout_size]
  have hprocRead : readTable ConfProcinfo.layout file 20 c.procinfo.length = .ok c.procinfo := by
    have hread := readTable_append ConfProcinfo.layout (Confhead.layout.encode head) c.procinfo
      (encodeTable ConfFdigest.layout c.fdigest ++ c.strings)
    rwa [← List.append_assoc, ← hfile, hheadlen] at hread
  have hfdigRead : readTable ConfFdigest.layout file (20 + 88 * c.procinfo.length) c.fdigest.length =
      .ok c.fdigest := by
    have hread := readTable_append ConfFdigest.layout
      (Confhead.layout.encode head ++ encodeTable ConfProcinfo.layout c.procinfo) c.fdigest c.strings
    rwa [← hfile, List.length_append, hheadlen, hprocs] at hread
  have hstrings : file.drop (20 + 88 * c.procinfo.length + 40 * c.fdigest.length) = c.strings := by
    rw [hfile]
    apply List.drop_left'
    simp only [List.length_append, hprocs, hfdigs, hheadlen, Confhead.layout_size, ConfProcinfo.layout_size,
      ConfFdigest.layout_size]
  have hproclt := head.procCnt.toInt_lt
  have hfdiglt := head.fdigCnt.toInt_lt
  have hstrlt := head.strSize.toInt_lt
  have hsum : (file.length : Int) =
      (20 + 88 * (c.procinfo.length : Int) + 40 * (c.fdigest.length : Int) + c.strings.length) % 2 ^ 64 := by
    rw [Int.emod_eq_of_lt] <;> omega
  have hfdpAt : ¬ (20 + 88 * (c.procinfo.length : Int) < 0 ∧ 0 < (c.fdigest.length : Int)) := by omega
  have hfdpNat : (20 + 88 * (c.procinfo.length : Int)).toNat = 20 + 88 * c.procinfo.length := by omega
  have hsbufNat : (20 + 88 * (c.procinfo.length : Int) + 40 * (c.fdigest.length : Int)).toNat =
      20 + 88 * c.procinfo.length + 40 * c.fdigest.length := by
    omega
  have hnonneg : ¬ (c.fdigest.length : Int) < 0 := by omega
  simp only [buildConf, hhead, ok_bind, hproc, hfdig, hstr, ← hsum, ne_eq, not_true_eq_false, if_false,
    Int.toNat_natCast, hprocRead, readFdigests, hfdpAt, hfdpNat, hfdigRead, hnonneg, hsbufNat, hstrings]
  rfl

theorem confBytes_length (stale : Nat → Stale) (pinfo : List Procinfo) :
    (confBytes stale pinfo).length =
      20 + 88 * pinfo.length + 40 * (chainLibs pinfo).length + (chainStrings pinfo).length := by
  simp only [confBytes, List.length_append, encodeTable_length, Layout.encode_length, storedProcesses_length,
    storedFdigests_length, Confhead.layout_size, ConfProcinfo.layout_size, ConfFdigest.layout_size]

theorem readCell_confBytes (stale : Nat → Stale) (pinfo : List Procinfo) (rest : Bytes) :
    readCell Confhead.layout (confBytes stale pinfo ++ rest) 0 = .ok (confHeader pinfo) := by
  rw [confBytes, List.append_assoc, List.append_assoc, List.append_assoc]
  exact readCell_head rfl

/-- A string area that is too long for the header is taken for a file that is too short. -/
theorem buildConf_oversize (stale : Nat → Stale) {pinfo : List Procinfo} (hentries : pinfo.length < 2 ^ 31)
    (hlibs : (chainLibs pinfo).length < 2 ^ 31) (hlong : 2 ^ 31 ≤ (chainStrings pinfo).length)
    (hmemory : (chainStrings pinfo).length < 2 ^ 63) :
    buildConf (confBytes stale pinfo) (confBytes stale pinfo).length = .ok (0, none) := by
  have hhead := readCell_confBytes stale pinfo []
  rw [List.append_nil] at hhead
  have hproc : (confHeader pinfo).procCnt.toInt = pinfo.length := Int32.toInt_ofInt_of_le (by omega) (by omega)
  have hfdig : (confHeader pinfo).fdigCnt.toInt = (chainLibs pinfo).length :=
    Int32.toInt_ofInt_of_le (by omega) (by omega)
  have hstrlt := (confHeader pinfo).strSize.toInt_lt
  have hstrge := (confHeader pinfo).strSize.le_toInt
  have hsum : ((confBytes stale pinfo).length : Int) ≠ (20 + 88 * (pinfo.length : Int) +
      40 * ((chainLibs pinfo).length : Int) + (confHeader pinfo).strSize.toInt) % 2 ^ 64 := by
    rw [confBytes_length]
    omega
  rw [buildConf, hhead, ok_bind]
  dsimp only
  rw [hproc, hfdig, if_pos hsum]
  rfl

/-- What `build_conf` yields of a configuration are its processes. -/
theorem ConfigurationOf.buildConf {file : Bytes} {pinfo : List Procinfo} (h : ConfigurationOf file pinfo) :
    ∃ c, buildConf file file.length = .ok (pinfo.length, some c) ∧ c.entries = .ok pinfo := by
  obtain ⟨head, c, hfile, hproc, hfdig, hstr, hholds⟩ := h
  refine ⟨c, ?_, mapM_eq_ok_iff.2 (hholds.imp ?_)⟩
  · rw [buildConf_sections hfile hproc hfdig hstr, hproc, hholds.length_eq]
  · intro r p hp
    have hcount : p.count = p.libs.length := by
      rcases hp with ⟨path, libs, -, -, hlen, rfl⟩
      exact hlen
    exact (Conf.process_eq_ok_iff hcount).2 hp

theorem stringAt_ne_nil {area : Bytes} {pos : Nat} {s : CString} (h : stringAt area pos = .ok s) : area ≠ [] := by
  intro hnil
  obtain ⟨pre, post, harea, -⟩ := stringAt_eq_ok_iff.1 h
  simp [hnil] at harea

/-- What the header and the sections are when a configuration is found. -/
theorem buildConf_eq_some {buf : Bytes} {sz : Nat} {n : Int} {c : Conf} (h : buildConf buf sz = .ok (n, some c)) :
    ∃ head, readCell Confhead.layout buf 0 = .ok head ∧ n = head.procCnt.toInt ∧
      (sz : Int) = (20 + 88 * head.procCnt.toInt + 40 * head.fdigCnt.toInt + head.strSize.toInt) % 2 ^ 64 ∧
      readTable ConfProcinfo.layout buf 20 head.procCnt.toInt.toNat = .ok c.procinfo ∧
      readFdigests buf (20 + 88 * head.procCnt.toInt) head.fdigCnt.toInt = .ok c.fdigest ∧
      c.strings = if head.fdigCnt.toInt < 0 then []
        else buf.drop (20 + 88 * head.procCnt.toInt + 40 * head.fdigCnt.toInt).toNat := by
  obtain ⟨head, hhead, hrest⟩ := bind_eq_ok.1 h
  dsimp only at hrest
  split at hrest
  · cases hrest
  · rename_i hsum
    obtain ⟨procinfo, hproc, hrest⟩ := bind_eq_ok.1 hrest
    obtain ⟨fdigest, hfdig, hrest⟩ := bind_eq_ok.1 hrest
    cases hrest
    exact ⟨head, hhead, rfl, not_not.1 hsum, hproc, hfdig, rfl⟩

/-- A header and two tables that are read one behind the other are the start of the file. -/
theorem sections_of_reads {file : Bytes} {head : Confhead} {procinfo : List ConfProcinfo} {fdigest : List ConfFdigest}
    (hlen : 20 + 88 * procinfo.length + 40 * fdigest.length ≤ file.length)
    (hhead : readCell Confhead.layout file 0 = .ok head)
    (hproc : readTable ConfProcinfo.layout file 20 procinfo.length = .ok procinfo)
    (hfdig : readTable ConfFdigest.layout file (20 + 88 * procinfo.length) fdigest.length = .ok fdigest) :
    file = Confhead.layout.encode head ++ encodeTable ConfProcinfo.layout procinfo ++
      encodeTable ConfFdigest.layout fdigest ++ file.drop (20 + 88 * procinfo.length + 40 * fdigest.length) := by
  obtain ⟨pre₀, rest₀, hfile₀, hpre₀⟩ := readCell_eq_ok _ hhead
  obtain ⟨pre₁, rest₁, hfile₁, hpre₁⟩ := readTable_eq_ok _ (by rw [ConfProcinfo.layout_size]; omega) hproc
  obtain ⟨pre₂, rest₂, hfile₂, hpre₂⟩ := readTable_eq_ok _ (by rw [ConfFdigest.layout_size]; omega) hfdig
  have hnil : pre₀ = [] := List.eq_nil_of_length_eq_zero hpre₀
  have hheadLen := Confhead.layout.encode_length head
  have hprocLen := encodeTable_length ConfProcinfo.layout procinfo
  have hfdigLen := encodeTable_length ConfFdigest.layout fdigest
  rw [Confhead.layout_size] at hheadLen
  rw [ConfProcinfo.layout_size] at hprocLen
  rw [ConfFdigest.layout_size] at hfdigLen
  have hpre₁' : pre₁ = Confhead.layout.encode head := by
    have heq := hfile₁.symm.trans hfile₀
    rw [hnil, List.nil_append, List.append_assoc] at heq
    exact List.append_inj_left heq (by omega)
  have hpre₂' : pre₂ = Confhead.layout.encode head ++ encodeTable ConfProcinfo.layout procinfo := by
    have heq := hfile₂.symm.trans hfile₁
    rw [hpre₁', List.append_assoc] at heq
    refine List.append_inj_left heq ?_
    rw [List.length_append]
    omega
  have hrest₂ : file.drop (20 + 88 * procinfo.length + 40 * fdigest.length) = rest₂ := by
    rw [hfile₂]
    apply List.drop_left'
    rw [List.length_append]
    omega
  rw [hrest₂, ← hpre₂']
  exact hfile₂

/-- A file that is read as processes is a configuration of them. -/
theorem configurationOf_of_entries {file : Bytes} {n : Int} {c : Conf} {pinfo : List Procinfo}
    (hsize : file.length < 2 ^ 64 - 2 ^ 31) (hne : pinfo ≠ []) (hcounts : ∀ p ∈ pinfo, p.count = p.libs.length)
    (hbuild : buildConf file file.length = .ok (n, some c)) (hentries : c.entries = .ok pinfo) :
    ConfigurationOf file pinfo := by
  obtain ⟨head, hhead, -, hsum, hproc, hfdig, hstrings⟩ := buildConf_eq_some hbuild
  have hread : List.Forall₂ (fun r p => c.process r = .ok p) c.procinfo pinfo := mapM_eq_ok_iff.1 hentries
  have hstr : c.strings ≠ [] := by
    obtain ⟨p, others, rfl⟩ := List.exists_cons_of_ne_nil hne
    obtain ⟨r, records, hfirst, -, -⟩ := List.forall₂_cons_right_iff.1 hread
    obtain ⟨path, hpath, -⟩ := bind_eq_ok.1 hfirst
    exact stringAt_ne_nil hpath
  have hnonneg : ¬ head.fdigCnt.toInt < 0 := by
    intro hneg
    rw [if_pos hneg] at hstrings
    exact hstr hstrings
  rw [if_neg hnonneg] at hstrings
  -- the sections fill the file
  have hprocCnt := readTable_length _ hproc
  have hrecords := hread.length_eq
  have hentriesPos := List.length_pos_iff.2 hne
  have hprocPos : head.procCnt.toInt = c.procinfo.length := by omega
  have hfdpAt : ¬ (20 + 88 * head.procCnt.toInt < 0 ∧ 0 < head.fdigCnt.toInt) := by omega
  rw [readFdigests, if_neg hfdpAt] at hfdig
  have hfdigCnt := readTable_length _ hfdig
  have hfdigEq : head.fdigCnt.toInt = c.fdigest.length := by omega
  have hstrPos := List.length_pos_iff.2 hstr
  have hstrLen := congrArg List.length hstrings
  rw [List.length_drop] at hstrLen
  have hlen : file.length = 20 + 88 * c.procinfo.length + 40 * c.fdigest.length + c.strings.length := by omega
  have hproclt := head.procCnt.toInt_lt
  have hfdiglt := head.fdigCnt.toInt_lt
  have hstrlt := head.strSize.toInt_lt
  have hstrge := head.strSize.le_toInt
  have hstrEq : head.strSize.toInt = c.strings.length := by omega
  -- each section stands where the one before it ends
  rw [hprocPos, Int.toNat_natCast] at hproc
  have hfdpNat : (20 + 88 * head.procCnt.toInt).toNat = 20 + 88 * c.procinfo.length := by omega
  have hstrNat : (20 + 88 * head.procCnt.toInt + 40 * head.fdigCnt.toInt).toNat =
      20 + 88 * c.procinfo.length + 40 * c.fdigest.length := by
    omega
  rw [hfdpNat, hfdigEq, Int.toNat_natCast] at hfdig
  have hsections := sections_of_reads (by omega) hhead hproc hfdig
  rw [← hstrNat, ← hstrings] at hsections
  have hholds : List.Forall₂ (fun p r => p.count = p.libs.length ∧ c.process r = .ok p) pinfo c.procinfo :=
    (List.forall₂_and_left _ _).2 ⟨hcounts, hread.flip⟩
  refine ⟨head, c, hsections, hprocPos, hfdigEq, hstrEq, (hholds.imp ?_).flip⟩
  intro p r ⟨hcount, hp⟩
  exact (Conf.process_eq_ok_iff hcount).1 hp

/-! ### The round trip -/

/-- `build_conf` decodes what `reg_config` assembles. -/
theorem buildConf_regConfigBuffer (stale : Nat → Stale) (pinfo : List Procinfo) (hpinfo : ∀ p ∈ pinfo, p.Measured)
    (hentries : pinfo.length < 2 ^ 31) (hlibs : (chainLibs pinfo).length < 2 ^ 31)
    (hstrings : (chainStrings pinfo).length < 2 ^ 31) :
    ∃ buf conf, regConfigBuffer stale (some pinfo) pinfo.length = .ok buf ∧
      buildConf buf buf.length = .ok (pinfo.length, some conf) ∧ conf.entries = .ok pinfo := by
  obtain ⟨conf, hbuild, hread⟩ := (confBytes_configuration stale hpinfo hentries hlibs hstrings).buildConf
  refine ⟨confBytes stale pinfo, conf, ?_, hbuild, hread⟩
  rw [regConfigBuffer_eq stale hpinfo, if_pos hlibs, if_pos (Nat.lt_trans hstrings (by omega))]

/-- A shell that runs an editor: two processes, three libraries. -/
def shellAndEditor : List Procinfo :=
  [{ processAt (cstr "/bin/sh") with count := 1, libs := [⟨some (cstr "/lib/libc.so"), ByteBuf.zero 32⟩] },
    { processAt (cstr "/bin/ed") with
      count := 2
      libs := [⟨some (cstr "/lib/libc.so"), ByteBuf.zero 32⟩, ⟨some (cstr "/lib/libm.so"), ByteBuf.zero 32⟩] }]

theorem shellAndEditor_measured : ∀ p ∈ shellAndEditor, p.Measured := by
  intro p hp
  rcases List.mem_pair.1 hp with rfl | rfl <;> exact ⟨by decide, by decide, rfl, by decide, rfl⟩

/-- The configuration of the shell and the editor is read back. -/
theorem buildConf_shellAndEditor :
    ∃ buf conf, regConfigBuffer (fun _ => ⟨0, 0, 0⟩) (some shellAndEditor) 2 = .ok buf ∧
      buildConf buf buf.length = .ok (2, some conf) ∧ conf.entries = .ok shellAndEditor :=
  buildConf_regConfigBuffer (fun _ => ⟨0, 0, 0⟩) shellAndEditor shellAndEditor_measured (by decide) (by decide)
    (by decide)

end PortableTlsRa
