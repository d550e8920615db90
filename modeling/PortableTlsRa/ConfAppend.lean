import PortableTlsRa.ConfFile

/-!
# Appending to a configuration

`append_conf` of the conftool reads a configuration into memory, puts the entry of a measured command behind its
entries and writes everything anew, with its own copy of the encoder of `reg_config`.  On a configuration the copy
makes the bytes that `reg_config` would make (`appendBuffer_eq`).  It keeps what was there exactly where its counts and
sizes are `int` values and all bytes reach the file (`appendConf_preserves_iff`): neither is looked at.
-/

namespace PortableTlsRa

open CSem

namespace Conftool

/-! ### Reading -/

/-- What `fread` leaves in a buffer of `size` bytes that held `heap`. -/
def fread (heap : Nat → UInt8) (file : Bytes) (pos size : Nat) : Bytes :=
  let got := (file.drop pos).take size
  got ++ (List.range' got.length (size - got.length)).map heap

/-- `malloc` and `fread` of `n` records.  There is no memory for a negative number of them. -/
def freadTable {α : Type} (L : Layout α) (heap : Nat → UInt8) (file : Bytes) (pos : Nat) (n : Int) :
    Checked (List α) :=
  if n < 0 then .error .nullPointer else readTable L (fread heap file pos (L.size * n.toNat)) 0 n.toNat

/-- Returns the header and the three sections, or nothing when the file cannot be opened. -/
def readConf (heap : Nat → Nat → UInt8) : Option Bytes → Checked (Option (Confhead × Conf))
  | none => return none
  | some file => do
    let head ← readCell Confhead.layout (fread (heap 0) file 0 20) 0
    let cpifAt := 20
    let cpif ← freadTable ConfProcinfo.layout (heap 1) file cpifAt head.procCnt.toInt
    let fdpAt := cpifAt + 88 * head.procCnt.toInt.toNat
    let fdp ← freadTable ConfFdigest.layout (heap 2) file fdpAt head.fdigCnt.toInt
    let sbufAt := fdpAt + 40 * head.fdigCnt.toInt.toNat
    if head.strSize.toInt < 0 then .error .nullPointer
    else
      let sbuf := fread (heap 3) file sbufAt head.strSize.toInt.toNat
      return some (head, ⟨cpif, fdp, sbuf⟩)

/-! ### Measuring -/

/-- How the calls of `read_binary` end: the digests of files, none where one cannot be measured, whether the command
that lists libraries is there, and the lines that it prints, none where it cannot be run. -/
structure ReadCalls where
  sha256File : CString → Option (ByteBuf 32)
  getlibsThere : Bool
  lines : Option (List CString)

/-- The record of a library; its digest stays zero when it cannot be measured, which is only reported. -/
def ReadCalls.library (calls : ReadCalls) (path : CString) : Fdigest :=
  ⟨some path, (calls.sha256File path).getD (ByteBuf.zero 32)⟩

/-- Returns the number of libraries or an error, and the list that starts with the command itself. -/
def readBinary (calls : ReadCalls) (fname : CString) : Checked (Int × List Fdigest) :=
  match calls.sha256File fname with
  | none => return (-1, [])
  | some digest =>
    if !calls.getlibsThere then return (-2, [])
    else
      match calls.lines with
      | none => return (-1, [])
      | some lines => do
        let count ← lines.foldlM (fun count _ => addInt count 1) 0
        return (count, ⟨some fname, digest⟩ :: lines.map calls.library)

/-! ### Encoding -/

/-- One turn of the loop that adds up the sizes; the count of libraries is a size_t here. -/
def sizeEntry (st : Nat × Nat) (p : Procinfo) : Checked (Turn (Nat × Nat) (Nat × Nat)) := do
  match p.path with
  | none => return .exit st
  | some path =>
    let (ssz, fdcnt) := st
    let fdcnt := ((fdcnt + p.count) % 2 ^ 64).toNat
    match ← forEach (fun ssz j => readAt p.libs j >>= sizeLibrary ssz) (ssz + (path.1.length + 1))
        (List.range p.count.toNat) with
    | .next ssz => return .next (ssz, fdcnt)

/-- A string is copied with its NUL byte, and the place in the table is an int. -/
def placeEntryLibrary (st : Placing) (lib : Fdigest) : Checked (Turn Placing Empty) := do
  let path ← deref lib.path
  let sbuf ← writeRange st.sbuf st.spos (path.1 ++ [0])
  let fdpDst ← writeRange st.fdpDst st.fpos [⟨UInt64.ofNat st.spos, lib.digest⟩]
  let fpos ← addInt st.fpos 1
  return .next { st with sbuf, fdpDst, spos := st.spos + (path.1.length + 1), fpos := fpos.toNat }

/-- One turn of the loop that copies; `exit` is `break`. -/
def placeEntry (st : Placing) (p : Procinfo) : Checked (Turn Placing Placing) := do
  match p.path with
  | none => return .exit st
  | some path =>
    let sbuf ← writeRange st.sbuf st.spos (path.1 ++ [0])
    let cell ← readAt st.cpif st.i
    let fpos := if p.count > 0 then UInt64.ofNat st.fpos else cell.fpos
    let cpif ← writeRange st.cpif st.i [{ cell with spos := UInt64.ofNat st.spos, fpos }]
    let st := { st with sbuf, cpif, i := st.i + 1, spos := st.spos + (path.1.length + 1) }
    match ← forEach (fun st j => readAt p.libs j >>= placeEntryLibrary st) st (List.range p.count.toNat) with
    | .next st => return .next st

/-- The bytes that are written for the entries.  `stale` is what the copied records hold in place of positions. -/
def appendBuffer (stale : Nat → Stale) (newpinfo : List Procinfo) : Checked Bytes := do
  let cpif := copyProcinfos stale 0 newpinfo
  let sizes ← forEach sizeEntry (0, 0) newpinfo
  let (ssz, fdcnt) := Turn.final sizes
  let fdpDst ← mallocArray fdcnt ⟨0, ByteBuf.zero 32⟩
  let sbuf ← mallocArray ssz 0
  let placing ← forEach placeEntry { i := 0, cpif, fdpDst, fpos := 0, sbuf, spos := 0 } newpinfo
  let placed := Turn.final placing
  let head : Confhead := ⟨procconfMagic, Int32.ofInt newpinfo.length, Int32.ofInt fdcnt, Int32.ofNat ssz⟩
  return Confhead.layout.encode head ++ encodeTable ConfProcinfo.layout placed.cpif ++
    encodeTable ConfFdigest.layout placed.fdpDst ++ placed.sbuf

/-! ### The command -/

/-- What a run depends on: the calls of `read_binary`, what memory holds, the ids of the caller, whether the file can
be opened for writing, and how many bytes reach it, of which nothing is known where the writes fail.  `wild` is what
happens after the configuration could not be opened for reading, when nothing is set. -/
structure AppendCalls where
  read : ReadCalls
  heap : Nat → Nat → UInt8
  stale : Nat → Stale
  uid : UInt32
  gid : UInt32
  opens : Bool
  written : Nat
  wild : Checked (Int × Option Bytes)

/-- The entry of a command. -/
def commandEntry (uid gid : UInt32) (command : Fdigest) (libs : List Fdigest) : Procinfo where
  pid := 0
  ppid := 0
  ruid := uid
  euid := uid
  suid := uid
  rgid := gid
  egid := gid
  sgid := gid
  path := command.path
  digest := command.digest
  count := libs.length
  libs := libs

/-- Returns the code and the file after the call. -/
def appendConf (calls : AppendCalls) (file : Option Bytes) (afile : CString) : Checked (Int × Option Bytes) := do
  let (libsCnt, dlist) ← readBinary calls.read afile
  if libsCnt ≤ 0 then return (libsCnt, file)
  match ← readConf calls.heap file with
  | none => calls.wild
  | some (head, conf) =>
    let _entries ← addInt head.procCnt.toInt 1
    let oinfo ← conf.entries
    let command ← readAt dlist 0
    let newpinfo := oinfo ++ [commandEntry calls.uid calls.gid command (dlist.drop 1)]
    if !calls.opens then return (-1, file)
    else
      let buf ← appendBuffer calls.stale newpinfo
      -- what fwrite returns is not looked at
      return (0, some (buf.take calls.written))

/-! ### The copy of the encoder -/

variable {stale : Nat → Stale} {pinfo : List Procinfo}

/-- The string area is clear from the position on. -/
def Clear (st : Placing) : Prop := ∃ filled k, st.sbuf = filled ++ List.replicate k 0 ∧ filled.length = st.spos

/-- The positions are inside the string area and the `int` values. -/
def InRange (st : Placing) : Prop := st.spos ≤ st.sbuf.length ∧ st.fpos < 2 ^ 31

/-- With room for its NUL byte, a path leaves the same in a clear area with the byte and without. -/
theorem writeRange_nul {st : Placing} (hclear : Clear st) {path : CString}
    (hroom : st.spos + (path.1.length + 1) ≤ st.sbuf.length) :
    ∃ sbuf, writeRange st.sbuf st.spos path.1 = .ok sbuf ∧ writeRange st.sbuf st.spos (path.1 ++ [0]) = .ok sbuf ∧
      ∃ filled k, sbuf = filled ++ List.replicate k 0 ∧ filled.length = st.spos + (path.1.length + 1) := by
  obtain ⟨filled, k, hsbuf, hspos⟩ := hclear
  have hk : k = path.1.length + 1 + (k - (path.1.length + 1)) := by
    rw [hsbuf, List.length_append, List.length_replicate] at hroom
    omega
  have hplain := writeRange_path filled path (k - (path.1.length + 1))
  have hnul := writeRange_replicate filled (path.1 ++ [0]) 0 (k - (path.1.length + 1))
  rw [List.length_append, List.length_singleton, ← hk, ← hsbuf, hspos] at hnul
  rw [← hk, ← hsbuf, hspos] at hplain
  refine ⟨_, hplain, hnul, filled ++ pathBytes (some path), _, rfl, ?_⟩
  rw [List.length_append, pathBytes_length, hspos]

/-- What a turn over a library changes. -/
theorem placeLibrary_inv {st st' : Placing} {lib : Fdigest} (h : placeLibrary st lib = .ok (.next st')) :
    ∃ path sbuf fdpDst, lib.path = some path ∧ writeRange st.sbuf st.spos path.1 = .ok sbuf ∧
      writeRange st.fdpDst st.fpos [⟨UInt64.ofNat st.spos, lib.digest⟩] = .ok fdpDst ∧
      st' = { st with sbuf, fdpDst, spos := st.spos + (path.1.length + 1), fpos := st.fpos + 1 } := by
  obtain ⟨path, hpath, hrest⟩ := bind_eq_ok.1 h
  obtain ⟨sbuf, hsbuf, hrest⟩ := bind_eq_ok.1 hrest
  obtain ⟨fdpDst, hdst, hret⟩ := bind_eq_ok.1 hrest
  cases hret
  exact ⟨path, sbuf, fdpDst, deref_eq_ok.1 hpath, hsbuf, hdst, rfl⟩

theorem placeLibrary_back (st : Placing) (lib : Fdigest) (st' : Placing) (h : placeLibrary st lib = .ok (.next st'))
    (hrange : InRange st') : InRange st := by
  obtain ⟨path, sbuf, fdpDst, -, hsbuf, -, rfl⟩ := placeLibrary_inv h
  have hlen := (writeRange_length hsbuf).2
  have hspos := hrange.1
  have hfpos := hrange.2
  simp only at hspos hfpos
  exact ⟨by omega, by omega⟩

/-- The copy of a library, where it stays in range, is the one that `reg_config` makes. -/
theorem placeEntryLibrary_of_placeLibrary (st : Placing) (lib : Fdigest) (st' : Placing) (hclear : Clear st)
    (h : placeLibrary st lib = .ok (.next st')) (hrange : InRange st') :
    placeEntryLibrary st lib = .ok (.next st') ∧ Clear st' := by
  obtain ⟨path, sbuf, fdpDst, hpath, hsbuf, hdst, rfl⟩ := placeLibrary_inv h
  have hlen := (writeRange_length hsbuf).2
  have hspos : st.spos + (path.1.length + 1) ≤ sbuf.length := hrange.1
  have hfpos : st.fpos + 1 < 2 ^ 31 := hrange.2
  obtain ⟨sbuf', hplain, hnul, hclear'⟩ := writeRange_nul hclear (hlen ▸ hspos)
  rw [hplain] at hsbuf
  cases hsbuf
  have hadd : addInt st.fpos 1 = .ok ((st.fpos : Int) + 1) := if_pos (by omega)
  refine ⟨?_, hclear'⟩
  rw [placeEntryLibrary, hpath]
  simp only [deref, ok_bind, hnul, hdst, hadd]
  rfl

/-- What a turn over an entry does before its libraries. -/
theorem placeProcess_inv {st st' : Placing} {p : Procinfo} (h : placeProcess st p = .ok (.next st')) :
    ∃ path sbuf cell cpif, p.path = some path ∧ writeRange st.sbuf st.spos path.1 = .ok sbuf ∧
      readAt st.cpif st.i = .ok cell ∧
      writeRange st.cpif st.i [{ cell with
        spos := UInt64.ofNat st.spos, fpos := if p.count > 0 then UInt64.ofNat st.fpos else cell.fpos }] = .ok cpif ∧
      forEach (fun st j => readAt p.libs j >>= placeLibrary st)
        { st with sbuf, cpif, i := st.i + 1, spos := st.spos + (path.1.length + 1) } (List.range p.count.toNat) =
          .ok (.next st') := by
  unfold placeProcess at h
  cases hpath : p.path with
  | none =>
    rw [hpath] at h
    cases h
  | some path =>
    rw [hpath] at h
    obtain ⟨sbuf, hsbuf, hrest⟩ := bind_eq_ok.1 h
    obtain ⟨cell, hcell, hrest⟩ := bind_eq_ok.1 hrest
    obtain ⟨cpif, hcpif, hrest⟩ := bind_eq_ok.1 hrest
    obtain ⟨turn, hturn, hret⟩ := bind_eq_ok.1 hrest
    cases turn with
    | exit e => exact e.elim
    | next st'' =>
      cases hret
      exact ⟨path, sbuf, cell, cpif, rfl, hsbuf, hcell, hcpif, hturn⟩

theorem placeLibraryAt_back {libs : List Fdigest} (st : Placing) (j : Nat) (st' : Placing)
    (h : (readAt libs j >>= placeLibrary st) = .ok (.next st')) (hrange : InRange st') : InRange st := by
  obtain ⟨lib, -, hplace⟩ := bind_eq_ok.1 h
  exact placeLibrary_back st lib st' hplace hrange

theorem placeProcess_back (st : Placing) (p : Procinfo) (st' : Placing) (h : placeProcess st p = .ok (.next st'))
    (hrange : InRange st') : InRange st := by
  obtain ⟨path, sbuf, cell, cpif, -, hsbuf, -, -, hlibs⟩ := placeProcess_inv h
  have hstart := forEach_back placeLibraryAt_back hlibs hrange
  have hlen := (writeRange_length hsbuf).2
  have hspos : st.spos + (path.1.length + 1) ≤ sbuf.length := hstart.1
  exact ⟨by omega, hstart.2⟩

theorem placeEntry_of_placeProcess (st : Placing) (p : Procinfo) (st' : Placing) (hclear : Clear st)
    (h : placeProcess st p = .ok (.next st')) (hrange : InRange st') :
    placeEntry st p = .ok (.next st') ∧ Clear st' := by
  obtain ⟨path, sbuf, cell, cpif, hpath, hsbuf, hcell, hcpif, hlibs⟩ := placeProcess_inv h
  have hstart := forEach_back placeLibraryAt_back hlibs hrange
  have hlen := (writeRange_length hsbuf).2
  have hspos : st.spos + (path.1.length + 1) ≤ sbuf.length := hstart.1
  obtain ⟨sbuf', hplain, hnul, hclear'⟩ := writeRange_nul hclear (hlen ▸ hspos)
  rw [hplain] at hsbuf
  cases hsbuf
  have hstep : ∀ (st : Placing) (j : Nat) (st' : Placing), Clear st →
      (readAt p.libs j >>= placeLibrary st) = .ok (.next st') → InRange st' →
      (readAt p.libs j >>= placeEntryLibrary st) = .ok (.next st') ∧ Clear st' := by
    intro st j st' hclear h hrange
    obtain ⟨lib, hlib, hplace⟩ := bind_eq_ok.1 h
    obtain ⟨hentry, hclear'⟩ := placeEntryLibrary_of_placeLibrary st lib st' hclear hplace hrange
    exact ⟨bind_eq_ok.2 ⟨lib, hlib, hentry⟩, hclear'⟩
  have hclearStart : Clear { st with sbuf, cpif, i := st.i + 1, spos := st.spos + (path.1.length + 1) } := hclear'
  obtain ⟨hrun, hclearEnd⟩ := forEach_next_transfer placeLibraryAt_back hstep hclearStart hlibs hrange
  refine ⟨?_, hclearEnd⟩
  rw [placeEntry, hpath]
  dsimp only
  rw [hnul, ok_bind, hcell, ok_bind, hcpif, ok_bind, hrun]
  rfl

/-! ### The buffer of the copy -/

theorem sizeEntry_eq {p : Procinfo} (hp : p.Measured) (ssz n : Nat) (hn : n + p.libs.length < 2 ^ 64) :
    sizeEntry (ssz, n) p = .ok (.next (ssz + p.strings.length, n + p.libs.length)) := by
  obtain ⟨path, hpath⟩ := Option.isSome_iff_exists.1 hp.path
  have hfdcnt : (((n : Int) + p.count) % 2 ^ 64).toNat = n + p.libs.length := by
    rw [hp.count, Int.emod_eq_of_lt (by omega) (by omega)]
    omega
  simp only [sizeEntry, hpath, hfdcnt]
  rw [hp.count, Int.toNat_natCast, sizeLibraries hp.libs, ok_bind, Procinfo.strings, List.length_append, hpath,
    pathBytes_length, Nat.add_assoc]
  rfl

theorem sizeEntries (hpinfo : ∀ p ∈ pinfo, p.Measured) (ssz n : Nat)
    (hn : n + (chainLibs pinfo).length < 2 ^ 64) :
    forEach sizeEntry (ssz, n) pinfo =
      .ok (.next (ssz + (chainStrings pinfo).length, n + (chainLibs pinfo).length)) := by
  induction pinfo generalizing ssz n with
  | nil => rfl
  | cons p pinfo ih =>
    rw [List.forall_mem_cons] at hpinfo
    rw [chainLibs_cons, List.length_append] at hn
    rw [forEach_cons_of_next (sizeEntry_eq hpinfo.1 ssz n (by omega)), ih hpinfo.2 _ _ (by omega), chainLibs_cons,
      chainStrings_cons, List.length_append, List.length_append, Nat.add_assoc, Nat.add_assoc]

/-- Where the numbers fit, the bytes are those that `reg_config` writes. -/
theorem appendBuffer_eq (stale : Nat → Stale) (hpinfo : ∀ p ∈ pinfo, p.Measured)
    (hlibs : (chainLibs pinfo).length < 2 ^ 31) (hstrings : (chainStrings pinfo).length < 2 ^ 63) :
    appendBuffer stale pinfo = .ok (confBytes stale pinfo) := by
  have hsizes := sizeEntries hpinfo 0 0 (by omega)
  rw [Nat.zero_add, Nat.zero_add] at hsizes
  have hplaced := placeProcesses hpinfo stale [] [] 0 [] 0
  have hclear : Clear (Placing.filled 0 (copyProcinfos stale 0 pinfo) [] ((chainLibs pinfo).length + 0) []
      ((chainStrings pinfo).length + 0)) := ⟨[], _, rfl, rfl⟩
  have hrange : InRange (Placing.filled (0 + pinfo.length) (storedProcesses stale 0 0 0 pinfo)
      (storedFdigests 0 pinfo) 0 (chainStrings pinfo) 0) := by
    constructor
    · simp [Placing.filled]
    · simpa [Placing.filled, storedFdigests_length] using hlibs
  obtain ⟨hrun, -⟩ := forEach_next_transfer placeProcess_back placeEntry_of_placeProcess hclear hplaced hrange
  apply bind_eq_ok.2 ⟨_, hsizes, _⟩
  apply bind_eq_ok.2 ⟨_, mallocArray_of_lt _ (Nat.lt_trans hlibs (by omega : _ < 2 ^ 63)), _⟩
  apply bind_eq_ok.2 ⟨_, mallocArray_of_lt 0 hstrings, _⟩
  apply bind_eq_ok.2 ⟨_, hrun, _⟩
  simp [Turn.final, Placing.filled, confBytes, confHeader]

/-! ### Numbers that do not fit -/

theorem addInt_eq_ok {a b c : Int} (h : addInt a b = .ok c) : c = a + b ∧ c < 2 ^ 31 := by
  unfold addInt at h
  split_ifs at h with hfits
  cases h
  exact ⟨rfl, hfits.2⟩

theorem placeEntryLibrary_fpos {st st' : Placing} {lib : Fdigest} (h : placeEntryLibrary st lib = .ok (.next st')) :
    st'.fpos = st.fpos + 1 ∧ st'.fpos < 2 ^ 31 := by
  obtain ⟨path, -, hrest⟩ := bind_eq_ok.1 h
  obtain ⟨sbuf, -, hrest⟩ := bind_eq_ok.1 hrest
  obtain ⟨fdpDst, -, hrest⟩ := bind_eq_ok.1 hrest
  obtain ⟨fpos, hfpos, hret⟩ := bind_eq_ok.1 hrest
  cases hret
  obtain ⟨rfl, hlt⟩ := addInt_eq_ok hfpos
  have hnat : ((st.fpos : Int) + 1).toNat = st.fpos + 1 := by omega
  have hnear : ((st.fpos : Int) + 1).toNat < 2 ^ 31 := by omega
  exact ⟨hnat, hnear⟩

/-- The place in the table moves on by the libraries of the entry, as an `int`. -/
theorem placeEntry_fpos {st : Placing} {p : Procinfo} (hp : p.Measured) {turn : Turn Placing Placing}
    (h : placeEntry st p = .ok turn) (hst : st.fpos < 2 ^ 31) :
    ∃ st', turn = .next st' ∧ st'.fpos = st.fpos + p.libs.length ∧ st'.fpos < 2 ^ 31 := by
  obtain ⟨path, hpath⟩ := Option.isSome_iff_exists.1 hp.path
  rw [placeEntry, hpath] at h
  obtain ⟨sbuf, -, hrest⟩ := bind_eq_ok.1 h
  obtain ⟨cell, -, hrest⟩ := bind_eq_ok.1 hrest
  obtain ⟨cpif, -, hrest⟩ := bind_eq_ok.1 hrest
  obtain ⟨turn', hlibs, hret⟩ := bind_eq_ok.1 hrest
  cases turn' with
  | exit e => exact e.elim
  | next st' =>
    cases hret
    rw [hp.count, Int.toNat_natCast, forEach_range_readAt] at hlibs
    have hinvariant := forEach_invariant (fun pre st' => st'.fpos = st.fpos + pre.length ∧ st'.fpos < 2 ^ 31)
      ⟨rfl, hst⟩ (fun pre lib t t' hpre hturn => ?_) hlibs
    · exact ⟨st', rfl, hinvariant⟩
    · obtain ⟨hfpos, hlt⟩ := placeEntryLibrary_fpos hturn
      rw [List.length_append, List.length_singleton]
      exact ⟨by omega, hlt⟩

theorem placeEntries_fpos (hpinfo : ∀ p ∈ pinfo, p.Measured) {st : Placing} {turn : Turn Placing Placing}
    (h : forEach placeEntry st pinfo = .ok turn) (hst : st.fpos < 2 ^ 31) :
    st.fpos + (chainLibs pinfo).length < 2 ^ 31 := by
  induction pinfo generalizing st with
  | nil => exact hst
  | cons p pinfo ih =>
    rw [List.forall_mem_cons] at hpinfo
    rcases hturn : placeEntry st p with e | turn'
    · rw [forEach_cons_of_error hturn] at h
      cases h
    · obtain ⟨st', rfl, hfpos, hlt⟩ := placeEntry_fpos hpinfo.1 hturn hst
      rw [forEach_cons_of_next hturn] at h
      have hrest := ih hpinfo.2 h hlt
      rw [chainLibs_cons, List.length_append]
      omega

/-- Bytes are only made where the numbers fit. -/
theorem appendBuffer_eq_ok_iff (stale : Nat → Stale) (hpinfo : ∀ p ∈ pinfo, p.Measured) {buf : Bytes} :
    appendBuffer stale pinfo = .ok buf ↔
      ((chainLibs pinfo).length < 2 ^ 31 ∧ (chainStrings pinfo).length < 2 ^ 63) ∧ buf = confBytes stale pinfo := by
  constructor
  · intro h
    have hfits : (chainLibs pinfo).length < 2 ^ 31 ∧ (chainStrings pinfo).length < 2 ^ 63 := by
      obtain ⟨sizes, hsizes, hrest⟩ := bind_eq_ok.1 h
      obtain ⟨fdpDst, -, hrest⟩ := bind_eq_ok.1 hrest
      obtain ⟨sbuf, hsbuf, hrest⟩ := bind_eq_ok.1 hrest
      obtain ⟨placing, hplacing, -⟩ := bind_eq_ok.1 hrest
      have hlibs := placeEntries_fpos hpinfo hplacing (by decide : 0 < 2 ^ 31)
      rw [Nat.zero_add] at hlibs
      refine ⟨hlibs, ?_⟩
      have hexact := sizeEntries hpinfo 0 0 (by omega)
      rw [hsizes] at hexact
      cases hexact
      unfold mallocArray at hsbuf
      split_ifs at hsbuf with hlarge
      simp only at hlarge
      omega
    refine ⟨hfits, ?_⟩
    rw [appendBuffer_eq stale hpinfo hfits.1 hfits.2] at h
    cases h
    rfl
  · intro ⟨⟨hlibs, hstrings⟩, hbuf⟩
    rw [hbuf, appendBuffer_eq stale hpinfo hlibs hstrings]

/-! ### Reading a configuration -/

theorem fread_append (heap : Nat → UInt8) (pre mid post : Bytes) :
    fread heap (pre ++ mid ++ post) pre.length mid.length = mid := by
  simp [fread]

theorem freadTable_append {α : Type} (L : Layout α) (heap : Nat → UInt8) (pre : Bytes) (l : List α) (post : Bytes) :
    freadTable L heap (pre ++ encodeTable L l ++ post) pre.length l.length = .ok l := by
  have hread := fread_append heap pre (encodeTable L l) post
  have htable := readTable_append L [] l []
  rw [List.nil_append, List.append_nil, List.length_nil] at htable
  rw [freadTable, if_neg (by omega), Int.toNat_natCast, ← encodeTable_length, hread, htable]

/-- The two decoders find the same sections. -/
theorem readConf_sections (heap : Nat → Nat → UInt8) {file : Bytes} {head : Confhead} {c : Conf}
    (hfile : file = Confhead.layout.encode head ++ encodeTable ConfProcinfo.layout c.procinfo ++
      encodeTable ConfFdigest.layout c.fdigest ++ c.strings)
    (hproc : head.procCnt.toInt = c.procinfo.length) (hfdig : head.fdigCnt.toInt = c.fdigest.length)
    (hstr : head.strSize.toInt = c.strings.length) : readConf heap (some file) = .ok (some (head, c)) := by
  have hprocs := encodeTable_length ConfProcinfo.layout c.procinfo
  have hfdigs := encodeTable_length ConfFdigest.layout c.fdigest
  have hheadlen := Confhead.layout.encode_length head
  rw [ConfProcinfo.layout_size] at hprocs
  rw [ConfFdigest.layout_size] at hfdigs
  rw [Confhead.layout_size] at hheadlen
  have hhead : readCell Confhead.layout (fread (heap 0) file 0 20) 0 = .ok head := by
    have hread := fread_append (heap 0) [] (Confhead.layout.encode head)
      (encodeTable ConfProcinfo.layout c.procinfo ++ encodeTable ConfFdigest.layout c.fdigest ++ c.strings)
    rw [List.nil_append, ← List.append_assoc, ← List.append_assoc, ← hfile, hheadlen] at hread
    have hcell := readCell_append Confhead.layout [] head []
    rw [List.nil_append, List.append_nil] at hcell
    rw [List.length_nil] at hread hcell
    rw [hread, hcell]
  have hprocRead : freadTable ConfProcinfo.layout (heap 1) file 20 c.procinfo.length = .ok c.procinfo := by
    have hread := freadTable_append ConfProcinfo.layout (heap 1) (Confhead.layout.encode head) c.procinfo
      (encodeTable ConfFdigest.layout c.fdigest ++ c.strings)
    rwa [← List.append_assoc, ← hfile, hheadlen] at hread
  have hfdigRead : freadTable ConfFdigest.layout (heap 2) file (20 + 88 * c.procinfo.length) c.fdigest.length =
      .ok c.fdigest := by
    have hread := freadTable_append ConfFdigest.layout (heap 2)
      (Confhead.layout.encode head ++ encodeTable ConfProcinfo.layout c.procinfo) c.fdigest c.strings
    rwa [← hfile, List.length_append, hheadlen, hprocs] at hread
  have hstrRead : fread (heap 3) file (20 + 88 * c.procinfo.length + 40 * c.fdigest.length) c.strings.length =
      c.strings := by
    have hread := fread_append (heap 3) (Confhead.layout.encode head ++ encodeTable ConfProcinfo.layout c.procinfo ++
      encodeTable ConfFdigest.layout c.fdigest) c.strings []
    rwa [List.append_nil, ← hfile, List.length_append, List.length_append, hheadlen, hprocs, hfdigs] at hread
  rw [readConf, hhead, ok_bind]
  dsimp only
  rw [hproc, hprocRead, ok_bind, Int.toNat_natCast, hfdig, hfdigRead, ok_bind, Int.toNat_natCast, hstr,
    if_neg (by omega), Int.toNat_natCast, hstrRead]
  rfl

/-- Both decoders yield the entries. -/
def DecodesTo (file : Bytes) (pinfo : List Procinfo) : Prop :=
  (∃ c, buildConf file file.length = .ok (pinfo.length, some c) ∧ c.entries = .ok pinfo) ∧
  ∀ heap, ∃ head c, readConf heap (some file) = .ok (some (head, c)) ∧ head.procCnt.toInt = pinfo.length ∧
    c.entries = .ok pinfo

theorem decodesTo_of_configuration {file : Bytes} (h : ConfigurationOf file pinfo) : DecodesTo file pinfo := by
  refine ⟨h.buildConf, ?_⟩
  obtain ⟨c', hbuild, hentries⟩ := h.buildConf
  intro heap
  obtain ⟨head, c, hfile, hproc, hfdig, hstr, hholds⟩ := h
  rw [buildConf_sections hfile hproc hfdig hstr] at hbuild
  obtain rfl : c = c' := Option.some_inj.1 (Prod.mk.inj (Except.ok.inj hbuild)).2
  refine ⟨head, c, readConf_sections heap hfile hproc hfdig hstr, ?_, hentries⟩
  rw [hproc, hholds.length_eq]

theorem librariesStored_paths {c : Conf} {i : Nat} {libs : List Fdigest} (h : c.LibrariesStored i libs) :
    ∀ lib ∈ libs, lib.path.isSome := by
  induction libs generalizing i with
  | nil => simp
  | cons lib libs ih =>
    rw [List.forall_mem_cons]
    refine ⟨?_, ih h.2⟩
    obtain ⟨fd, path, -, -, rfl⟩ := h.1
    rfl

/-- The entries of a configuration have the numbers of measured processes, and an `int` counts them. -/
theorem configuration_measured {file : Bytes} (h : ConfigurationOf file pinfo) :
    (∀ p ∈ pinfo, p.Measured) ∧ pinfo.length < 2 ^ 31 := by
  obtain ⟨head, c, -, hproc, -, -, hholds⟩ := h
  constructor
  · intro p hp
    obtain ⟨i, hi, rfl⟩ := List.getElem_of_mem hp
    obtain ⟨hlen, hget⟩ := List.forall₂_iff_get.1 hholds
    obtain ⟨path, libs, -, hlibs, hcount, hrecord⟩ := hget i (by omega) hi
    rw [List.get_eq_getElem] at hrecord
    rw [hrecord]
    exact ⟨⟨Int32.le_toInt _, Int32.toInt_lt _⟩, ⟨Int32.le_toInt _, Int32.toInt_lt _⟩, rfl,
      librariesStored_paths hlibs, hcount⟩
  · have hlt := head.procCnt.toInt_lt
    rw [hproc, hholds.length_eq] at hlt
    omega

/-! ### Files that are cut off -/

theorem storedLibs_append (spos : Nat) (libs libs' : List Fdigest) :
    storedLibs spos (libs ++ libs') = storedLibs spos libs ++ storedLibs (spos + (libStrings libs).length) libs' := by
  induction libs generalizing spos with
  | nil => rfl
  | cons lib libs ih =>
    rw [List.cons_append, storedLibs, storedLibs, ih, libStrings_cons, List.length_append, List.cons_append,
      Nat.add_assoc]

theorem storedFdigests_append (spos : Nat) (pinfo pinfo' : List Procinfo) :
    storedFdigests spos (pinfo ++ pinfo') =
      storedFdigests spos pinfo ++ storedFdigests (spos + (chainStrings pinfo).length) pinfo' := by
  induction pinfo generalizing spos with
  | nil => rfl
  | cons p pinfo ih =>
    rw [List.cons_append, storedFdigests, storedFdigests, ih, chainStrings_cons, List.length_append, List.append_assoc,
      Nat.add_assoc]

theorem storedProcesses_append (stale : Nat → Stale) (i spos fpos : Nat) (pinfo pinfo' : List Procinfo) :
    storedProcesses stale i spos fpos (pinfo ++ pinfo') =
      storedProcesses stale i spos fpos pinfo ++ storedProcesses stale (i + pinfo.length)
        (spos + (chainStrings pinfo).length) (fpos + (chainLibs pinfo).length) pinfo' := by
  induction pinfo generalizing i spos fpos with
  | nil => rfl
  | cons p pinfo ih =>
    rw [List.cons_append, storedProcesses, storedProcesses, ih, chainStrings_cons, chainLibs_cons, List.length_append,
      List.length_append, List.length_cons, List.cons_append, Nat.add_assoc, Nat.add_assoc, Nat.add_assoc,
      Nat.add_comm 1]

theorem librariesStored_append {c : Conf} {i : Nat} {libs libs' : List Fdigest}
    (h : c.LibrariesStored i (libs ++ libs')) : c.LibrariesStored (i + libs.length) libs' := by
  induction libs generalizing i with
  | nil => exact h
  | cons lib libs ih =>
    have hrest := ih h.2
    rwa [Nat.add_assoc, Nat.add_comm 1] at hrest

theorem readTable_append_left {α : Type} {L : Layout α} {b : Bytes} {off n : Nat} {l : List α}
    (h : readTable L b off n = .ok l) (post : Bytes) : readTable L (b ++ post) off n = .ok l := by
  induction n generalizing off l with
  | zero => exact h
  | succ n ih =>
    obtain ⟨a, ha, hrest⟩ := bind_eq_ok.1 h
    obtain ⟨l', hl', hret⟩ := bind_eq_ok.1 hrest
    obtain ⟨cell, hcell, hcellRet⟩ := bind_eq_ok.1 ha
    cases hret
    cases hcellRet
    rw [readTable, readCell, readRange_append_left hcell post, ok_bind, ih hl']
    rfl

/-- In an area that ends before the NUL byte of its last string, that string is not there. -/
theorem not_stringStored_take {pre : Bytes} {path s : CString} {m : Nat}
    (hm : m < (pre ++ (path.1 ++ [0])).length) : ¬ StringStored ((pre ++ (path.1 ++ [0])).take m) pre.length s := by
  intro ⟨pre', post, harea, hlen⟩
  have hdrop : (0 : UInt8) ∈ ((pre ++ (path.1 ++ [0])).take m).drop pre.length := by
    rw [harea, ← hlen, List.drop_left]
    simp
  rw [List.drop_take, List.drop_left, List.take_append_of_le_length] at hdrop
  · exact path.2 (List.mem_of_mem_take hdrop)
  · simp only [List.length_append, List.length_singleton] at hm
    omega

/-- Where the sections of the file are. -/
theorem confBytes_sections (stale : Nat → Stale) (pinfo : List Procinfo) :
    readTable ConfProcinfo.layout (confBytes stale pinfo) 20 pinfo.length = .ok (storedProcesses stale 0 0 0 pinfo) ∧
    readTable ConfFdigest.layout (confBytes stale pinfo) (20 + 88 * pinfo.length) (chainLibs pinfo).length =
      .ok (storedFdigests 0 pinfo) ∧
    (confBytes stale pinfo).drop (20 + 88 * pinfo.length + 40 * (chainLibs pinfo).length) = chainStrings pinfo := by
  have hheadlen := Confhead.layout.encode_length (confHeader pinfo)
  have hprocs := encodeTable_length ConfProcinfo.layout (storedProcesses stale 0 0 0 pinfo)
  have hfdigs := encodeTable_length ConfFdigest.layout (storedFdigests 0 pinfo)
  rw [Confhead.layout_size] at hheadlen
  rw [ConfProcinfo.layout_size, storedProcesses_length] at hprocs
  rw [ConfFdigest.layout_size, storedFdigests_length] at hfdigs
  refine ⟨?_, ?_, ?_⟩
  · have hread := readTable_append ConfProcinfo.layout (Confhead.layout.encode (confHeader pinfo))
      (storedProcesses stale 0 0 0 pinfo)
      (encodeTable ConfFdigest.layout (storedFdigests 0 pinfo) ++ chainStrings pinfo)
    rwa [← List.append_assoc, hheadlen, storedProcesses_length] at hread
  · have hread := readTable_append ConfFdigest.layout (Confhead.layout.encode (confHeader pinfo) ++
      encodeTable ConfProcinfo.layout (storedProcesses stale 0 0 0 pinfo)) (storedFdigests 0 pinfo)
      (chainStrings pinfo)
    rwa [List.length_append, hheadlen, hprocs, storedFdigests_length] at hread
  · rw [confBytes]
    apply List.drop_left'
    rw [List.length_append, List.length_append, hheadlen, hprocs, hfdigs]

/-- What is read of a file that was cut off behind its tables. -/
theorem sections_of_take {n : Nat} {k : Int} {c : Conf} (hentries : pinfo.length < 2 ^ 31)
    (hlibs : (chainLibs pinfo).length < 2 ^ 31)
    (h : buildConf ((confBytes stale pinfo).take n) ((confBytes stale pinfo).take n).length = .ok (k, some c)) :
    c.procinfo = storedProcesses stale 0 0 0 pinfo ∧ c.fdigest = storedFdigests 0 pinfo ∧
      c.strings = (chainStrings pinfo).take (n - (20 + 88 * pinfo.length + 40 * (chainLibs pinfo).length)) := by
  have hproc : (confHeader pinfo).procCnt.toInt = pinfo.length := Int32.toInt_ofInt_of_le (by omega) (by omega)
  have hfdig : (confHeader pinfo).fdigCnt.toInt = (chainLibs pinfo).length :=
    Int32.toInt_ofInt_of_le (by omega) (by omega)
  have hwhole : (confBytes stale pinfo).take n ++ (confBytes stale pinfo).drop n = confBytes stale pinfo :=
    List.take_append_drop n _
  obtain ⟨head, hhead, -, -, hprocs, hfdigs, hstrings⟩ := buildConf_eq_some h
  obtain ⟨cell, hcell, hret⟩ := bind_eq_ok.1 hhead
  have hheader : head = confHeader pinfo := by
    have hread := readCell_confBytes stale pinfo []
    rw [List.append_nil, ← hwhole, readCell, readRange_append_left hcell] at hread
    cases hret
    exact Except.ok.inj hread
  subst hheader
  rw [hproc, hfdig] at hstrings
  rw [hproc, Int.toNat_natCast] at hprocs
  rw [hproc, hfdig] at hfdigs
  obtain ⟨hprocsWhole, hfdigsWhole, hstringsWhole⟩ := confBytes_sections stale pinfo
  refine ⟨?_, ?_, ?_⟩
  · have hread := readTable_append_left hprocs ((confBytes stale pinfo).drop n)
    rw [hwhole, hprocsWhole] at hread
    exact (Except.ok.inj hread).symm
  · rw [readFdigests, if_neg (by omega)] at hfdigs
    have hat : (20 + 88 * (pinfo.length : Int)).toNat = 20 + 88 * pinfo.length := by omega
    rw [hat, Int.toNat_natCast] at hfdigs
    have hread := readTable_append_left hfdigs ((confBytes stale pinfo).drop n)
    rw [hwhole, hfdigsWhole] at hread
    exact (Except.ok.inj hread).symm
  · have hat : (20 + 88 * (pinfo.length : Int) + 40 * ((chainLibs pinfo).length : Int)).toNat =
        20 + 88 * pinfo.length + 40 * (chainLibs pinfo).length := by
      omega
    rw [if_neg (by omega), hat, List.drop_take, hstringsWhole] at hstrings
    exact hstrings

/-- The last string of the area belongs to the last library of the last entry. -/
theorem exists_lastLibrary (old : List Procinfo) {p : Procinfo} (hp : p.Measured) (hne : p.libs ≠ []) :
    ∃ libs lib, ∃ path : CString, p.libs = libs ++ [lib] ∧ chainStrings (old ++ [p]) =
      chainStrings old ++ pathBytes p.path ++ libStrings libs ++ (path.1 ++ [0]) := by
  obtain ⟨libs, lib, hsplit⟩ := (List.eq_nil_or_concat' p.libs).resolve_left hne
  obtain ⟨path, hpath⟩ := Option.isSome_iff_exists.1 (hp.libs lib (by simp [hsplit]))
  refine ⟨libs, lib, path, hsplit, ?_⟩
  simp [chainStrings, Procinfo.strings, libStrings, hsplit, hpath, pathBytes]

/-- The record of the last entry. -/
theorem storedProcesses_last (stale : Nat → Stale) (old : List Procinfo) (p : Procinfo) :
    (storedProcesses stale 0 0 0 (old ++ [p]))[old.length]? =
      some (storedProcess (stale old.length) (chainStrings old).length (chainLibs old).length p) := by
  rw [storedProcesses_append, List.getElem?_append_right (by rw [storedProcesses_length]), storedProcesses_length,
    Nat.sub_self]
  simp [storedProcesses]

/-- The record of the last library of the last entry. -/
theorem storedFdigests_last (old : List Procinfo) {p : Procinfo} {libs : List Fdigest} {lib : Fdigest}
    (hsplit : p.libs = libs ++ [lib]) :
    (storedFdigests 0 (old ++ [p]))[(chainLibs old).length + libs.length]? =
      some ⟨UInt64.ofNat (chainStrings old ++ pathBytes p.path ++ libStrings libs).length, lib.digest⟩ := by
  rw [storedFdigests_append, List.getElem?_append_right (by rw [storedFdigests_length]; omega), storedFdigests_length,
    Nat.add_sub_cancel_left, storedFdigests, storedFdigests, List.append_nil, hsplit, storedLibs_append,
    List.getElem?_append_right (by rw [storedLibs_length]), storedLibs_length, Nat.sub_self]
  simp [storedLibs, Nat.add_assoc]

/-- Where the last entry is decoded, its libraries are read behind those of the others. -/
theorem lastLibraries_stored {old : List Procinfo} {p : Procinfo} {c : Conf} (hp : p.Measured) (hne : p.libs ≠ [])
    (hlibs : (chainLibs (old ++ [p])).length < 2 ^ 31)
    (hprocs : c.procinfo = storedProcesses stale 0 0 0 (old ++ [p])) (hdecoded : c.entries = .ok (old ++ [p])) :
    c.LibrariesStored (chainLibs old).length p.libs := by
  have hrecord := storedProcesses_last stale old p
  rw [← hprocs] at hrecord
  obtain ⟨hplace, hcell⟩ := List.getElem?_eq_some_iff.1 hrecord
  have hread : List.Forall₂ (fun r p => c.process r = .ok p) c.procinfo (old ++ [p]) := mapM_eq_ok_iff.1 hdecoded
  have hprocess := (List.forall₂_iff_get.1 hread).2 old.length hplace (by simp)
  simp only [List.get_eq_getElem, hcell, List.getElem_concat_length] at hprocess
  obtain ⟨path, libs, -, hstored, -, hfields⟩ := (Conf.process_eq_ok_iff hp.count).1 hprocess
  have hsame : p.libs = libs := congrArg Procinfo.libs hfields
  have hpos : p.count > 0 := by
    have hlen := List.length_pos_of_ne_nil hne
    rw [hp.count]
    omega
  have hlibsOld : (chainLibs old).length < 2 ^ 31 := by
    have happend : chainLibs (old ++ [p]) = chainLibs old ++ chainLibs [p] := List.flatMap_append
    rw [happend, List.length_append] at hlibs
    omega
  have hfpos : (storedProcess (stale old.length) (chainStrings old).length (chainLibs old).length p).fpos.toNat =
      (chainLibs old).length := by
    rw [storedProcess, if_pos hpos]
    exact UInt64.toNat_ofNat_of_lt' (Nat.lt_trans hlibsOld (by decide))
  rwa [hfpos, ← hsame] at hstored

/-- A file that was cut off does not decode to the entries that it was made for. -/
theorem whole_of_entries {old : List Procinfo} {p : Procinfo} {n : Nat} {k : Int} {c : Conf} (hp : p.Measured)
    (hne : p.libs ≠ []) (hentries : (old ++ [p]).length < 2 ^ 31) (hlibs : (chainLibs (old ++ [p])).length < 2 ^ 31)
    (hmemory : (chainStrings (old ++ [p])).length < 2 ^ 63)
    (h : buildConf ((confBytes stale (old ++ [p])).take n) ((confBytes stale (old ++ [p])).take n).length =
      .ok (k, some c)) (hdecoded : c.entries = .ok (old ++ [p])) : (confBytes stale (old ++ [p])).length ≤ n := by
  by_contra hcut
  obtain ⟨hprocs, hfdigs, hstrings⟩ := sections_of_take hentries hlibs h
  obtain ⟨libs, lib, path, hsplit, hlast⟩ := exists_lastLibrary old hp hne
  have hstored := lastLibraries_stored hp hne hlibs hprocs hdecoded
  rw [hsplit] at hstored
  obtain ⟨⟨fd, path', hfd, hstring, -⟩, -⟩ := librariesStored_append hstored
  rw [hfdigs, storedFdigests_last old hsplit] at hfd
  cases hfd
  have hlen := congrArg List.length hlast
  rw [List.length_append] at hlen
  have hspos : (UInt64.ofNat (chainStrings old ++ pathBytes p.path ++ libStrings libs).length).toNat =
      (chainStrings old ++ pathBytes p.path ++ libStrings libs).length :=
    UInt64.toNat_ofNat_of_lt' (Nat.lt_of_le_of_lt (by omega) (Nat.lt_trans hmemory (by decide)))
  simp only [hspos, hstrings, hlast] at hstring
  refine not_stringStored_take ?_ hstring
  rw [confBytes_length, hlast] at hcut
  simp only [List.length_append, List.length_singleton] at hcut ⊢
  omega

/-! ### Appending -/

/-- The command can be measured: its digest, and the lines that name its libraries. -/
structure Measurable (calls : ReadCalls) (afile : CString) (digest : ByteBuf 32) (lines : List CString) : Prop where
  command : calls.sha256File afile = some digest
  getlibs : calls.getlibsThere = true
  printed : calls.lines = some lines

/-- The entry of a measured command. -/
def AppendCalls.entry (calls : AppendCalls) (afile : CString) (digest : ByteBuf 32) (lines : List CString) : Procinfo :=
  commandEntry calls.uid calls.gid ⟨some afile, digest⟩ (lines.map calls.read.library)

/-- The call has a result, and a successful one leaves a file that both decoders read as the old entries and the one of
the command. -/
def AppendPreserves (calls : AppendCalls) (file : Bytes) (old : List Procinfo) (afile : CString) : Prop :=
  ∃ rc newFile, appendConf calls (some file) afile = .ok (rc, newFile) ∧
    (rc = 0 → ∃ bytes digest lines, newFile = some bytes ∧ Measurable calls.read afile digest lines ∧
      DecodesTo bytes (old ++ [calls.entry afile digest lines]))

/-- The numbers of libraries and of entries are `int` values, and if the file can be written then so are the sizes, and
all bytes reach it. -/
structure EntryFits (calls : AppendCalls) (old : List Procinfo) (entry : Procinfo) : Prop where
  libs : entry.libs.length < 2 ^ 31
  entries : old.length + 1 < 2 ^ 31
  written : calls.opens = true → (chainLibs (old ++ [entry])).length < 2 ^ 31 ∧
    (chainStrings (old ++ [entry])).length < 2 ^ 31 ∧
    20 + 88 * (old.length + 1) + 40 * (chainLibs (old ++ [entry])).length + (chainStrings (old ++ [entry])).length ≤
      calls.written

theorem countLines (lines : List CString) (n : Nat) (hn : n < 2 ^ 31) :
    lines.foldlM (fun count _ => addInt count 1) (n : Int) =
      if n + lines.length < 2 ^ 31 then .ok ((n + lines.length : Nat) : Int) else .error .signedOverflow := by
  induction lines generalizing n with
  | nil => exact (if_pos hn).symm
  | cons line lines ih =>
    rw [List.foldlM_cons, List.length_cons]
    by_cases hnext : n + 1 < 2 ^ 31
    · have hadd : addInt (n : Int) 1 = .ok ((n + 1 : Nat) : Int) := if_pos (by omega)
      rw [hadd, ok_bind, ih (n + 1) hnext, Nat.add_assoc, Nat.add_comm 1]
    · have hadd : addInt (n : Int) 1 = .error .signedOverflow := if_neg (by omega)
      rw [hadd, if_neg (by omega)]
      rfl

theorem readBinary_eq {calls : ReadCalls} {afile : CString} {digest : ByteBuf 32} {lines : List CString}
    (h : Measurable calls afile digest lines) :
    readBinary calls afile =
      if lines.length < 2 ^ 31 then .ok ((lines.length : Int), ⟨some afile, digest⟩ :: lines.map calls.library)
      else .error .signedOverflow := by
  have hcount := countLines lines 0 (by decide)
  rw [Nat.zero_add] at hcount
  have hzero : ((0 : Nat) : Int) = 0 := rfl
  rw [hzero] at hcount
  simp only [readBinary, h.command, h.getlibs, h.printed, hcount]
  by_cases hlt : lines.length < 2 ^ 31
  · rw [if_pos hlt, if_pos hlt]
    rfl
  · rw [if_neg hlt, if_neg hlt]
    rfl

theorem entry_measured (calls : AppendCalls) (afile : CString) (digest : ByteBuf 32) (lines : List CString) :
    (calls.entry afile digest lines).Measured where
  pid := (by decide : (-2 ^ 31 : Int) ≤ 0 ∧ (0 : Int) < 2 ^ 31)
  ppid := (by decide : (-2 ^ 31 : Int) ≤ 0 ∧ (0 : Int) < 2 ^ 31)
  path := rfl
  libs := by
    intro lib hlib
    obtain ⟨line, -, rfl⟩ := List.mem_map.1 hlib
    rfl
  count := rfl

section

variable {calls : AppendCalls} {file : Bytes} {old : List Procinfo} {afile : CString} {digest : ByteBuf 32}
  {lines : List CString}

/-- The run on a configuration. -/
theorem appendConf_eq (hfile : ConfigurationOf file old) (hcommand : Measurable calls.read afile digest lines)
    (hlibs : lines ≠ []) :
    appendConf calls (some file) afile =
      if lines.length < 2 ^ 31 ∧ old.length + 1 < 2 ^ 31 then
        if calls.opens then
          appendBuffer calls.stale (old ++ [calls.entry afile digest lines]) >>= fun buf =>
            .ok (0, some (buf.take calls.written))
        else .ok (-1, some file)
      else .error .signedOverflow := by
  obtain ⟨-, hread⟩ := decodesTo_of_configuration hfile
  obtain ⟨head, conf, hconf, hproc, hentries⟩ := hread calls.heap
  have hpos := List.length_pos_of_ne_nil hlibs
  rw [appendConf, readBinary_eq hcommand]
  by_cases hlines : lines.length < 2 ^ 31
  · rw [if_pos hlines, ok_bind]
    dsimp only
    rw [if_neg (by omega), hconf, ok_bind]
    dsimp only
    rw [hproc]
    by_cases hold : old.length + 1 < 2 ^ 31
    · have hadd : addInt (old.length : Int) 1 = .ok ((old.length : Int) + 1) := if_pos (by omega)
      rw [hadd, ok_bind, hentries, ok_bind, if_pos ⟨hlines, hold⟩]
      have hcell : readAt (⟨some afile, digest⟩ :: lines.map calls.read.library) 0 = .ok ⟨some afile, digest⟩ := rfl
      rw [hcell, ok_bind]
      cases calls.opens <;> rfl
    · have hadd : addInt (old.length : Int) 1 = .error .signedOverflow := if_neg (by omega)
      rw [hadd, error_bind, if_neg (by omega)]
  · rw [if_neg hlines, error_bind, if_neg (by omega)]

/-- A command that cannot be measured is an error, and the file is as it was. -/
theorem appendConf_unmeasurable
    (hcommand : ∀ digest lines, ¬ Measurable calls.read afile digest lines) :
    ∃ rc, rc < 0 ∧ appendConf calls (some file) afile = .ok (rc, some file) := by
  have hfails : ∃ rc, rc < 0 ∧ readBinary calls.read afile = .ok (rc, []) := by
    rw [readBinary]
    rcases hdigest : calls.read.sha256File afile with _ | digest
    · exact ⟨-1, by decide, rfl⟩
    · cases hgetlibs : calls.read.getlibsThere with
      | false => exact ⟨-2, by decide, rfl⟩
      | true =>
        rcases hlines : calls.read.lines with _ | lines
        · exact ⟨-1, by decide, rfl⟩
        · exact absurd ⟨hdigest, hgetlibs, hlines⟩ (hcommand digest lines)
  obtain ⟨rc, hrc, hread⟩ := hfails
  refine ⟨rc, hrc, ?_⟩
  rw [appendConf, hread, ok_bind]
  exact if_pos (by omega)

theorem decodesTo_fits {old : List Procinfo} {entry : Procinfo} {n : Nat} (hentry : entry.Measured)
    (hne : entry.libs ≠ []) (hentries : (old ++ [entry]).length < 2 ^ 31)
    (hlibs : (chainLibs (old ++ [entry])).length < 2 ^ 31)
    (hmemory : (chainStrings (old ++ [entry])).length < 2 ^ 63)
    (h : DecodesTo ((confBytes stale (old ++ [entry])).take n) (old ++ [entry])) :
    (chainStrings (old ++ [entry])).length < 2 ^ 31 ∧ (confBytes stale (old ++ [entry])).length ≤ n := by
  obtain ⟨c, hbuild, hdecoded⟩ := h.1
  have hwhole := whole_of_entries hentry hne hentries hlibs hmemory hbuild hdecoded
  refine ⟨?_, hwhole⟩
  by_contra hlong
  rw [List.take_of_length_le hwhole, buildConf_oversize stale hentries hlibs (Nat.not_lt.1 hlong) hmemory] at hbuild
  cases (Prod.mk.inj (Except.ok.inj hbuild)).2

/-- The entries that are written. -/
theorem entries_measured (hfile : ConfigurationOf file old) :
    ∀ p ∈ old ++ [calls.entry afile digest lines], p.Measured := by
  obtain ⟨hold, -⟩ := configuration_measured hfile
  intro p hp
  rcases List.mem_append.1 hp with hp | hp
  · exact hold p hp
  · rw [List.mem_singleton.1 hp]
    exact entry_measured calls afile digest lines

theorem entry_libs_length (calls : AppendCalls) (afile : CString) (digest : ByteBuf 32) (lines : List CString) :
    (calls.entry afile digest lines).libs.length = lines.length := List.length_map _

theorem entry_libs_ne_nil (hlibs : lines ≠ []) : (calls.entry afile digest lines).libs ≠ [] := by
  rw [← List.length_pos_iff, entry_libs_length]
  exact List.length_pos_of_ne_nil hlibs

/-- Where the numbers fit, the call is successful, and what reaches the file is the start of what `reg_config` would
write. -/
theorem appendConf_success (hfile : ConfigurationOf file old) (hcommand : Measurable calls.read afile digest lines)
    (hlibs : lines ≠ []) (hlines : lines.length < 2 ^ 31) (hentries : old.length + 1 < 2 ^ 31)
    (hopens : calls.opens = true) (hfits : (chainLibs (old ++ [calls.entry afile digest lines])).length < 2 ^ 31)
    (hmemory : (chainStrings (old ++ [calls.entry afile digest lines])).length < 2 ^ 63) :
    appendConf calls (some file) afile =
      .ok (0, some ((confBytes calls.stale (old ++ [calls.entry afile digest lines])).take calls.written)) := by
  rw [appendConf_eq hfile hcommand hlibs, if_pos ⟨hlines, hentries⟩, hopens, if_pos rfl,
    appendBuffer_eq calls.stale (entries_measured hfile) hfits hmemory, ok_bind]

theorem entryFits_iff (hfile : ConfigurationOf file old) (hcommand : Measurable calls.read afile digest lines)
    (hlibs : lines ≠ []) :
    AppendPreserves calls file old afile ↔ EntryFits calls old (calls.entry afile digest lines) := by
  have hall : ∀ p ∈ old ++ [calls.entry afile digest lines], p.Measured := entries_measured hfile
  have hcount := entry_libs_length calls afile digest lines
  have hlen : (old ++ [calls.entry afile digest lines]).length = old.length + 1 := List.length_append
  have hsize := confBytes_length calls.stale (old ++ [calls.entry afile digest lines])
  rw [hlen] at hsize
  constructor
  · intro ⟨rc, newFile, hrun, hkept⟩
    rw [appendConf_eq hfile hcommand hlibs] at hrun
    split_ifs at hrun with hcounts hopens
    · obtain ⟨buf, hbuf, hret⟩ := bind_eq_ok.1 hrun
      cases hret
      obtain ⟨⟨hlibsFit, hmemory⟩, rfl⟩ := (appendBuffer_eq_ok_iff calls.stale hall).1 hbuf
      obtain ⟨bytes, digest', lines', hbytes, hcommand', hdecodes⟩ := hkept rfl
      cases hbytes
      obtain rfl : digest = digest' := Option.some_inj.1 (hcommand.command.symm.trans hcommand'.command)
      obtain rfl : lines = lines' := Option.some_inj.1 (hcommand.printed.symm.trans hcommand'.printed)
      obtain ⟨hstrings, hwritten⟩ := decodesTo_fits (entry_measured calls afile digest lines)
        (entry_libs_ne_nil hlibs) (hlen ▸ hcounts.2) hlibsFit hmemory hdecodes
      exact ⟨hcount ▸ hcounts.1, hcounts.2, fun _ => ⟨hlibsFit, hstrings, hsize ▸ hwritten⟩⟩
    · exact ⟨hcount ▸ hcounts.1, hcounts.2, fun hopens' => absurd hopens' hopens⟩
  · intro ⟨hlines, hentries, hwritten⟩
    rw [hcount] at hlines
    cases hopens : calls.opens with
    | false =>
      refine ⟨-1, some file, ?_, fun h => absurd h (by decide)⟩
      rw [appendConf_eq hfile hcommand hlibs, if_pos ⟨hlines, hentries⟩, hopens]
      rfl
    | true =>
      obtain ⟨hlibsFit, hstrings, hwhole⟩ := hwritten hopens
      rw [← hsize] at hwhole
      have hmemory := Nat.lt_trans hstrings (by decide : 2 ^ 31 < 2 ^ 63)
      refine ⟨_, _, appendConf_success hfile hcommand hlibs hlines hentries hopens hlibsFit hmemory,
        fun _ => ⟨_, digest, lines, rfl, hcommand, ?_⟩⟩
      rw [List.take_of_length_le hwhole]
      exact decodesTo_of_configuration (confBytes_configuration calls.stale hall (hlen ▸ hentries) hlibsFit hstrings)

/-- A command with libraries is appended to a configuration, and nothing else is changed, exactly where it cannot be
measured or where its entry fits. -/
theorem appendConf_preserves_iff (hfile : ConfigurationOf file old) (hlibs : calls.read.lines ≠ some []) :
    AppendPreserves calls file old afile ↔
      ∀ digest lines, Measurable calls.read afile digest lines →
        EntryFits calls old (calls.entry afile digest lines) := by
  by_cases hcommand : ∃ digest lines, Measurable calls.read afile digest lines
  · obtain ⟨digest, lines, hcommand⟩ := hcommand
    have hne : lines ≠ [] := by
      intro hnil
      rw [hcommand.printed, hnil] at hlibs
      exact hlibs rfl
    rw [entryFits_iff hfile hcommand hne]
    constructor
    · intro hfits digest' lines' hcommand'
      obtain rfl : digest = digest' := Option.some_inj.1 (hcommand.command.symm.trans hcommand'.command)
      obtain rfl : lines = lines' := Option.some_inj.1 (hcommand.printed.symm.trans hcommand'.printed)
      exact hfits
    · exact fun h => h digest lines hcommand
  · simp only [not_exists] at hcommand
    obtain ⟨rc, hrc, hrun⟩ := @appendConf_unmeasurable calls file afile hcommand
    constructor
    · exact fun _ digest lines h => absurd h (hcommand digest lines)
    · exact fun _ => ⟨rc, some file, hrun, fun h => absurd h (by omega)⟩

end

/-! ### An editor that is appended -/

/-- The calls for an editor with one library, where so many bytes reach the file. -/
def editorCalls (written : Nat) : AppendCalls :=
  ⟨⟨fun _ => some (ByteBuf.zero 32), true, some [cstr "/lib/libc.so"]⟩, fun _ _ => 0, fun _ => ⟨0, 0, 0⟩, 0, 0, true,
    written, .error .nullPointer⟩

theorem editor_measurable (written : Nat) :
    Measurable (editorCalls written).read (cstr "/bin/ed") (ByteBuf.zero 32) [cstr "/lib/libc.so"] :=
  ⟨rfl, rfl, rfl⟩

/-- The configuration of the shell and the editor. -/
def shellAndEditorFile : Bytes := confBytes (fun _ => ⟨0, 0, 0⟩) shellAndEditor

theorem shellAndEditorFile_configuration : ConfigurationOf shellAndEditorFile shellAndEditor :=
  confBytes_configuration _ shellAndEditor_measured (by decide) (by decide) (by decide)

/-- It is appended when all bytes reach the file. -/
theorem editor_appended :
    AppendPreserves (editorCalls 1024) shellAndEditorFile shellAndEditor (cstr "/bin/ed") := by
  apply (appendConf_preserves_iff shellAndEditorFile_configuration (by simp [editorCalls])).2
  intro digest lines hcommand
  cases hcommand.command
  cases hcommand.printed
  exact ⟨by decide, by decide, fun _ => ⟨by decide, by decide, by decide⟩⟩

/-- An entry whose path makes the string area as long as the header can tell. -/
def longEntry : Procinfo :=
  processAt ⟨List.replicate (2 ^ 31 - 2) 97, fun h => absurd (List.eq_of_mem_replicate h) (by decide)⟩

theorem longEntry_strings : longEntry.strings.length = 2 ^ 31 - 1 := by
  have hstrings : longEntry.strings = List.replicate (2 ^ 31 - 2) 97 ++ [0] := List.append_nil _
  rw [hstrings, List.length_append, List.length_replicate]
  rfl

theorem longEntry_configuration : ConfigurationOf (confBytes (fun _ => ⟨0, 0, 0⟩) [longEntry]) [longEntry] := by
  refine confBytes_configuration _ ?_ (by decide) (by decide) ?_
  · intro p hp
    rw [List.mem_singleton.1 hp]
    exact ⟨by decide, by decide, rfl, by decide, rfl⟩
  · rw [chainStrings_cons, List.length_append, longEntry_strings]
    decide

/-- The call is successful, but what it leaves does not decode to the old entries and the one of the editor. -/
def LosesEditor (calls : AppendCalls) (file : Bytes) (old : List Procinfo) : Prop :=
  ∃ bytes, appendConf calls (some file) (cstr "/bin/ed") = .ok (0, some bytes) ∧
    ¬ DecodesTo bytes (old ++ [calls.entry (cstr "/bin/ed") (ByteBuf.zero 32) [cstr "/lib/libc.so"]])

/-- On a disk with room for a header only, a configuration is cut off; behind a string area that is as long as can be,
the size that is written is negative. -/
theorem append_loses :
    LosesEditor (editorCalls 20) shellAndEditorFile shellAndEditor ∧
    LosesEditor (editorCalls (2 ^ 32)) (confBytes (fun _ => ⟨0, 0, 0⟩) [longEntry]) [longEntry] := by
  have hlibs : [cstr "/lib/libc.so"] ≠ [] := by decide
  constructor
  · have hmemory : (chainStrings (shellAndEditor ++
        [(editorCalls 20).entry (cstr "/bin/ed") (ByteBuf.zero 32) [cstr "/lib/libc.so"]])).length < 2 ^ 63 := by
      decide
    refine ⟨_, appendConf_success shellAndEditorFile_configuration (editor_measurable 20) hlibs (by decide) (by decide)
      rfl (by decide) hmemory, fun h => ?_⟩
    have hwritten := (decodesTo_fits (entry_measured _ _ _ _) (entry_libs_ne_nil hlibs) (by decide) (by decide)
      hmemory h).2
    rw [confBytes_length] at hwritten
    revert hwritten
    decide
  · have hstrings : (chainStrings ([longEntry] ++
        [(editorCalls (2 ^ 32)).entry (cstr "/bin/ed") (ByteBuf.zero 32) [cstr "/lib/libc.so"]])).length =
          2 ^ 31 - 1 + 21 := by
      rw [List.cons_append, chainStrings_cons, List.length_append, longEntry_strings]
      rfl
    have hmemory : (chainStrings ([longEntry] ++
        [(editorCalls (2 ^ 32)).entry (cstr "/bin/ed") (ByteBuf.zero 32) [cstr "/lib/libc.so"]])).length < 2 ^ 63 := by
      rw [hstrings]
      decide
    refine ⟨_, appendConf_success longEntry_configuration (editor_measurable (2 ^ 32)) hlibs (by decide) (by decide)
      rfl (by decide) hmemory, fun h => ?_⟩
    have hfits := (decodesTo_fits (entry_measured _ _ _ _) (entry_libs_ne_nil hlibs) (by decide) (by decide)
      hmemory h).1
    rw [hstrings] at hfits
    revert hfits
    decide

end Conftool

end PortableTlsRa
