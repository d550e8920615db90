import PortableTlsRa.Binaries
import PortableTlsRa.ConfFile
import PortableTlsRa.ProcChain

/-!
# Registering a configuration

`pica_reg_config` writes the measured chain to the configuration file and `pica_read_config` reads it back and enters
it in the hash table.  A file is its bytes; it is opened without truncation and written from its start, so that the
tail of a longer file stays (`overlay`).  A chain that is registered is accepted when it is measured again exactly if
every process agrees with the first one of its path (`registrationVerifies_iff`), and a registration that reports
success is read back exactly if nothing of the old file stays, or what stays fits (`registeredReadsBack_iff`).
-/

namespace PortableTlsRa

open CSem Cbor

/-! ### Writing the file -/

/-- How the calls of `reg_config` end: the file cannot be opened, there is no memory for the buffer, or `n` bytes are
written at most, none when `write` fails. -/
inductive RegCalls where
  | openFails
  | noMemory
  | writes (n : Nat)
deriving DecidableEq

/-- The file after the first `n` bytes of `data` are written from its start. -/
def overlay (old data : Bytes) (n : Nat) : Bytes := data.take n ++ old.drop (data.take n).length

/-- The file after the call, or `none` when the program is aborted. -/
def regConfig (calls : RegCalls) (stale : Nat → Stale) (file : Option Bytes) (pinfo : Option (List Procinfo))
    (entries : Int) : Checked (Option Bytes) :=
  match calls with
  | .openFails => return none
  | .noMemory => do
    let _ ← regConfigBuffer stale pinfo entries
    return some (file.getD [])
  | .writes n => do
    let buf ← regConfigBuffer stale pinfo entries
    -- a short write is reported as 0, which is no error
    return some (overlay (file.getD []) buf n)

inductive Registered where
  | aborted
  | returned (rc : Int) (file : Option Bytes)
deriving DecidableEq

section

variable (cbor : Libcbor) (untypedMap : Item → Checked (List (Item × Item))) (uninit : Nat → Nat → ByteBuf 32)

def picaRegConfig (calls : RegCalls) (stale : Nat → Stale) (file : Option Bytes) (picabody : Bytes) :
    Checked Registered := do
  let (entries, pinfo) ← picaExtractPinfo cbor untypedMap uninit picabody
  if entries = 0 then return .returned (-1) file
  match ← regConfig calls stale file pinfo entries with
  | none => return .aborted
  | some file => return .returned 0 (some file)

end

/-! ### Reading the file -/

/-- What `file_seal_read_close` gives for a file that is opened: the allocated buffer and the size that was read,
(size_t)-1 when `read` fails.  `heap` is what the buffer holds at first. -/
def fileSealReadClose (heap : Nat → UInt8) : FileRead → Option (Bytes × Nat)
  | .absent => none
  | .opened size data =>
    some (data.1 ++ (List.range' data.1.length (size - data.1.length)).map heap, data.1.length)
  | .unread size stale => some (stale ++ (List.range' stale.length (size - stale.length)).map heap, 2 ^ 64 - 1)

/-- Returns the number of entries, what `*procinfo` is set to, and the hash table. -/
def picaReadConfig (murmurHash3 : Bytes → UInt32) (heap : Nat → UInt8) (table : HashTable) (f : FileRead) :
    Checked (Int × Option (List Procinfo) × HashTable) := do
  match fileSealReadClose heap f with
  | none => return (0, none, table)
  | some (buffer, decSz) =>
    match ← buildConf buffer decSz with
    | (entries, none) => return (entries, none, table)
    | (entries, some conf) =>
      let procinfo ← conf.entries
      let table ← registerAll murmurHash3 table (confRegistrations procinfo)
      return (entries, some procinfo, table)

variable {murmurHash3 : Bytes → UInt32} {heap : Nat → UInt8} {stale : Nat → Stale} {pinfo : List Procinfo}

@[simp] theorem fileSealReadClose_wholeFile (file : Bytes) :
    fileSealReadClose heap (wholeFile file) = some (file, file.length) := by
  simp [fileSealReadClose, wholeFile]

/-- What is read is registered, if every process has a path. -/
theorem picaReadConfig_of_entries (murmurHash3 : Bytes → UInt32) (heap : Nat → UInt8) (table : HashTable)
    {file : Bytes} {n : Int} {conf : Conf} (hpinfo : ∀ p ∈ pinfo, p.Measured)
    (hbuild : buildConf file file.length = .ok (n, some conf)) (hentries : conf.entries = .ok pinfo) :
    ∃ table', registerAll murmurHash3 table (confRegistrations pinfo) = .ok table' ∧
      picaReadConfig murmurHash3 heap table (wholeFile file) = .ok (n, some pinfo, table') := by
  have hpaths : ∀ reg ∈ confRegistrations pinfo, reg.2.isSome := by
    intro reg hreg
    obtain ⟨p, hp, rfl⟩ := List.mem_map.1 hreg
    exact (hpinfo p hp).path
  have hdefined : ∃ table', registerAll murmurHash3 table (confRegistrations pinfo) = .ok table' :=
    registerAll_defined_iff.2 hpaths
  obtain ⟨table', htable⟩ := hdefined
  refine ⟨table', htable, ?_⟩
  simp [picaReadConfig, hbuild, hentries, htable]

/-- What `pica_read_config` sets is what the file decodes to. -/
theorem picaReadConfig_eq_some {file : Bytes} {n : Int} {table table' : HashTable}
    (h : picaReadConfig murmurHash3 heap table (wholeFile file) = .ok (n, some pinfo, table')) :
    ∃ conf, buildConf file file.length = .ok (n, some conf) ∧ conf.entries = .ok pinfo ∧
      registerAll murmurHash3 table (confRegistrations pinfo) = .ok table' := by
  rw [picaReadConfig, fileSealReadClose_wholeFile] at h
  obtain ⟨⟨entries, conf⟩, hbuild, hrest⟩ := bind_eq_ok.1 h
  cases conf with
  | none => cases hrest
  | some conf =>
    obtain ⟨procinfo, hentries, hrest⟩ := bind_eq_ok.1 hrest
    obtain ⟨table'', htable, hret⟩ := bind_eq_ok.1 hrest
    cases hret
    exact ⟨conf, hbuild, hentries, htable⟩

/-! ### Registration and verification -/

/-- The chain is accepted when it is measured again, after it was registered and read into an empty table. -/
def RegistrationVerifies (murmurHash3 : Bytes → UInt32) (heap : Nat → UInt8) (stale : Nat → Stale)
    (pinfo : List Procinfo) : Prop :=
  ∃ buf n procinfo table, regConfigBuffer stale (some pinfo) pinfo.length = .ok buf ∧
    picaReadConfig murmurHash3 heap HashTable.empty (wholeFile buf) = .ok (n, procinfo, table) ∧
    picaVerifyBinaries murmurHash3 table (some pinfo) pinfo.length = .ok VerifyFlag.picaBinaries

/-- The process passes the comparison with the first process of the chain that has its path. -/
def AgreesWithFirst (pinfo : List Procinfo) (p : Procinfo) : Prop :=
  ∃ r, pinfo.find? (·.path = p.path) = some r ∧ DigestPasses r p

theorem registeredProcinfo_readConfig (pinfo : List Procinfo) (path : CString) :
    registeredProcinfo [.readConfig pinfo] path = pinfo.find? (·.path = some path) := by
  have hregs : registrations [.readConfig pinfo] = confRegistrations pinfo := rfl
  rw [registeredProcinfo, hregs, firstRegistered, confRegistrations, List.find?_map]
  cases hfind : pinfo.find? (·.path = some path) with
  | none =>
    have hnone : pinfo.find? ((fun reg : HashAddr × Option CString =>
        (reg.1.type = EntryType.confProcinfo && reg.2 = some path)) ∘ fun p => (.procinfo p, p.path)) = none := by
      simpa [Function.comp_def, HashAddr.type] using hfind
    rw [hnone]
    rfl
  | some r =>
    have hsome : pinfo.find? ((fun reg : HashAddr × Option CString =>
        (reg.1.type = EntryType.confProcinfo && reg.2 = some path)) ∘ fun p => (.procinfo p, p.path)) = some r := by
      simpa [Function.comp_def, HashAddr.type] using hfind
    rw [hsome]
    rfl

theorem processPasses_readConfig_iff {p : Procinfo} (hp : p.path.isSome) :
    ProcessPasses [.readConfig pinfo] p ↔ AgreesWithFirst pinfo p := by
  obtain ⟨path, hpath⟩ := Option.isSome_iff_exists.1 hp
  unfold ProcessPasses AgreesWithFirst
  constructor
  · intro ⟨path', r, hpath', hr, hpass⟩
    rw [registeredProcinfo_readConfig, ← hpath'] at hr
    exact ⟨r, hr, hpass⟩
  · intro ⟨r, hr, hpass⟩
    refine ⟨path, r, hpath, ?_, hpass⟩
    rw [registeredProcinfo_readConfig, ← hpath, hr]

theorem chainPasses_length_iff {setups : List Setup} :
    ChainPasses setups pinfo pinfo.length ↔ ∀ p ∈ pinfo, ProcessPasses setups p := by
  unfold ChainPasses
  rw [Int.toNat_natCast]
  constructor
  · intro h p hp
    obtain ⟨i, hi, hget⟩ := List.mem_iff_getElem.1 hp
    obtain ⟨q, hq, hpass⟩ := h i hi
    rw [List.getElem?_eq_getElem hi, hget, Option.some.injEq] at hq
    exact hq ▸ hpass
  · intro h i hi
    exact ⟨pinfo[i], List.getElem?_eq_getElem hi, h _ (List.getElem_mem hi)⟩

/-- After the registered chain is read, the chain is accepted exactly when all its processes agree. -/
theorem picaVerifyBinaries_registered_iff {table : HashTable} (hpinfo : ∀ p ∈ pinfo, p.Measured)
    (htable : registerAll murmurHash3 HashTable.empty (confRegistrations pinfo) = .ok table) :
    picaVerifyBinaries murmurHash3 table (some pinfo) pinfo.length = .ok VerifyFlag.picaBinaries ↔
      ∀ p ∈ pinfo, AgreesWithFirst pinfo p := by
  have hrun : runSetup murmurHash3 [.readConfig pinfo] = .ok table := bind_eq_ok.2 ⟨table, htable, rfl⟩
  rw [picaVerifyBinaries_accepts_iff (runSetup_represents hrun), chainPasses_length_iff]
  constructor
  · intro h p hp
    exact (processPasses_readConfig_iff (hpinfo p hp).path).1 (h p hp)
  · intro h p hp
    exact (processPasses_readConfig_iff (hpinfo p hp).path).2 (h p hp)

/-- Nothing is accepted with an empty table. -/
theorem picaVerifyBinaries_empty (hne : pinfo ≠ []) :
    picaVerifyBinaries murmurHash3 HashTable.empty (some pinfo) pinfo.length ≠ .ok VerifyFlag.picaBinaries := by
  intro haccepted
  have hempty : Represents murmurHash3 HashTable.empty (registrations []) := represents_empty
  rw [picaVerifyBinaries_accepts_iff hempty, chainPasses_length_iff] at haccepted
  obtain ⟨p, others, rfl⟩ := List.exists_cons_of_ne_nil hne
  obtain ⟨path, r, -, hr, -⟩ := haccepted p (List.mem_cons_self ..)
  cases hr

/-- A chain that fits the file is accepted exactly when all its processes agree. -/
theorem registrationVerifies_iff_of_fits (hpinfo : ∀ p ∈ pinfo, p.Measured) (hentries : pinfo.length < 2 ^ 31)
    (hlibs : (chainLibs pinfo).length < 2 ^ 31) (hstrings : (chainStrings pinfo).length < 2 ^ 31) :
    RegistrationVerifies murmurHash3 heap stale pinfo ↔ ∀ p ∈ pinfo, AgreesWithFirst pinfo p := by
  have hbuf : regConfigBuffer stale (some pinfo) pinfo.length = .ok (confBytes stale pinfo) := by
    rw [regConfigBuffer_eq stale hpinfo, if_pos hlibs, if_pos (Nat.lt_trans hstrings (by omega))]
  obtain ⟨conf, hbuild, hconf⟩ := (confBytes_configuration stale hpinfo hentries hlibs hstrings).buildConf
  obtain ⟨table, htable, hread⟩ := picaReadConfig_of_entries murmurHash3 heap HashTable.empty hpinfo hbuild hconf
  rw [← picaVerifyBinaries_registered_iff hpinfo htable]
  constructor
  · intro ⟨buf, n, procinfo, table', hbuf', hread', haccepted⟩
    rw [hbuf] at hbuf'
    cases hbuf'
    rw [hread] at hread'
    cases hread'
    exact haccepted
  · intro haccepted
    exact ⟨_, _, _, table, hbuf, hread, haccepted⟩

/-- A registered chain is accepted exactly when its sizes fit the file and each process agrees with the first one of
its path. -/
theorem registrationVerifies_iff (murmurHash3 : Bytes → UInt32) (heap : Nat → UInt8) (stale : Nat → Stale)
    (pinfo : List Procinfo) (hpinfo : ∀ p ∈ pinfo, p.Measured) (hentries : pinfo.length < 2 ^ 31) :
    RegistrationVerifies murmurHash3 heap stale pinfo ↔
      (chainLibs pinfo).length < 2 ^ 31 ∧ (chainStrings pinfo).length < 2 ^ 31 ∧
        ∀ p ∈ pinfo, AgreesWithFirst pinfo p := by
  constructor
  · intro hverifies
    have ⟨buf, n, procinfo, table, hbuf, hread, haccepted⟩ := hverifies
    rw [regConfigBuffer_eq stale hpinfo] at hbuf
    split_ifs at hbuf with hlibs hmemory
    cases hbuf
    have hstrings : (chainStrings pinfo).length < 2 ^ 31 := by
      by_contra hlong
      have hbuild := buildConf_oversize stale hentries hlibs (Nat.not_lt.1 hlong) hmemory
      rw [picaReadConfig, fileSealReadClose_wholeFile] at hread
      simp only [hbuild, ok_bind] at hread
      cases hread
      have hne : pinfo ≠ [] := by
        intro hnil
        rw [hnil] at hlong
        exact hlong (Nat.two_pow_pos 31)
      exact picaVerifyBinaries_empty hne haccepted
    exact ⟨hlibs, hstrings, (registrationVerifies_iff_of_fits hpinfo hentries hlibs hstrings).1 hverifies⟩
  · intro ⟨hlibs, hstrings, hagree⟩
    exact (registrationVerifies_iff_of_fits hpinfo hentries hlibs hstrings).2 hagree

/-- The shell and the editor are accepted after their registration. -/
theorem shellAndEditor_verifies :
    RegistrationVerifies (fun _ => 0) (fun _ => 0) (fun _ => ⟨0, 0, 0⟩) shellAndEditor := by
  apply (registrationVerifies_iff _ _ _ shellAndEditor shellAndEditor_measured (by decide)).2
  refine ⟨by decide, by decide, ?_⟩
  intro p hp
  rcases List.mem_pair.1 hp with rfl | rfl
  · exact ⟨_, rfl, picaVerifyDigest_nonneg_iff.1 ⟨0, rfl, by decide⟩⟩
  · exact ⟨_, rfl, picaVerifyDigest_nonneg_iff.1 ⟨0, rfl, by decide⟩⟩

/-- The editor has started a second shell, which has loaded one more library. -/
def shellEditorShell : List Procinfo :=
  shellAndEditor ++ [{ processAt (cstr "/bin/sh") with
    count := 2
    libs := [⟨some (cstr "/lib/libc.so"), ByteBuf.zero 32⟩, ⟨some (cstr "/lib/libm.so"), ByteBuf.zero 32⟩] }]

theorem shellEditorShell_measured : ∀ p ∈ shellEditorShell, p.Measured := by
  intro p hp
  rcases List.mem_append.1 hp with hp | hp
  · exact shellAndEditor_measured p hp
  · rw [List.mem_singleton.1 hp]
    exact ⟨by decide, by decide, rfl, by decide, rfl⟩

/-- Whatever the hash function: the chain with the second shell is refused right after its registration. -/
theorem registration_refuses_second_shell :
    ¬ ∃ murmurHash3 heap stale, RegistrationVerifies murmurHash3 heap stale shellEditorShell := by
  intro ⟨murmurHash3, heap, stale, hverifies⟩
  have hagree := (registrationVerifies_iff_of_fits shellEditorShell_measured (by decide) (by decide) (by decide)).1
    hverifies
  obtain ⟨r, hr, hpass⟩ := hagree _ (List.mem_append_right _ (List.mem_singleton_self _))
  cases hr
  have hcount := hpass.count_eq
  revert hcount
  decide

/-! ### Reading back what was written -/

/-- A file is read as the processes exactly when it is a configuration of them. -/
theorem picaReadConfig_reads_iff (murmurHash3 : Bytes → UInt32) (heap : Nat → UInt8) (table : HashTable)
    {file : Bytes} (hpinfo : ∀ p ∈ pinfo, p.Measured) (hne : pinfo ≠ []) (hsize : file.length < 2 ^ 64 - 2 ^ 31) :
    (∃ table', picaReadConfig murmurHash3 heap table (wholeFile file) = .ok (pinfo.length, some pinfo, table')) ↔
      ConfigurationOf file pinfo := by
  constructor
  · intro ⟨table', hread⟩
    obtain ⟨conf, hbuild, hconf, -⟩ := picaReadConfig_eq_some hread
    exact configurationOf_of_entries hsize hne (fun p hp => (hpinfo p hp).count) hbuild hconf
  · intro hfile
    obtain ⟨conf, hbuild, hconf⟩ := hfile.buildConf
    obtain ⟨table', -, hread⟩ := picaReadConfig_of_entries murmurHash3 heap table hpinfo hbuild hconf
    exact ⟨table', hread⟩

/-- What is appended to a configuration spoils it. -/
theorem configurationOf_append_iff {rest : Bytes} (hpinfo : ∀ p ∈ pinfo, p.Measured)
    (hentries : pinfo.length < 2 ^ 31) (hlibs : (chainLibs pinfo).length < 2 ^ 31) :
    ConfigurationOf (confBytes stale pinfo ++ rest) pinfo ↔ (chainStrings pinfo).length < 2 ^ 31 ∧ rest = [] := by
  constructor
  · intro h
    obtain ⟨head, c, hfile, hproc, hfdig, hstr, -⟩ := h
    have hhead : head = confHeader pinfo := by
      have hread := readCell_confBytes stale pinfo rest
      rw [hfile, List.append_assoc, List.append_assoc, readCell_head rfl, Except.ok.injEq] at hread
      exact hread
    subst hhead
    have hprocCnt : (confHeader pinfo).procCnt.toInt = pinfo.length :=
      Int32.toInt_ofInt_of_le (by omega) (by omega)
    have hfdigCnt : (confHeader pinfo).fdigCnt.toInt = (chainLibs pinfo).length :=
      Int32.toInt_ofInt_of_le (by omega) (by omega)
    have hlen := congrArg List.length hfile
    simp only [List.length_append, confBytes_length, encodeTable_length, Layout.encode_length, Confhead.layout_size,
      ConfProcinfo.layout_size, ConfFdigest.layout_size] at hlen
    have hstrlt := (confHeader pinfo).strSize.toInt_lt
    -- the size in the header is that of the section, so it was not cut
    have hstrings : (chainStrings pinfo).length < 2 ^ 31 := by omega
    have hstrSize : (confHeader pinfo).strSize.toInt = (chainStrings pinfo).length := Int32.toInt_ofNat_of_lt hstrings
    exact ⟨hstrings, List.eq_nil_of_length_eq_zero (by omega)⟩
  · intro h
    rcases h with ⟨hstrings, rfl⟩
    rw [List.append_nil]
    exact confBytes_configuration stale hpinfo hentries hlibs hstrings

section

variable (cbor : Libcbor) (untypedMap : Item → Checked (List (Item × Item))) (uninit : Nat → Nat → ByteBuf 32)
  (murmurHash3 : Bytes → UInt32) (heap : Nat → UInt8)

/-- A registration that returns 0 leaves a file from which the registered processes are read. -/
def RegisteredReadsBack (table : HashTable) (calls : RegCalls) (stale : Nat → Stale) (file : Option Bytes)
    (picabody : Bytes) (pinfo : List Procinfo) : Prop :=
  ∀ file', picaRegConfig cbor untypedMap uninit calls stale file picabody = .ok (.returned 0 file') →
    ∃ content table', file' = some content ∧
      picaReadConfig murmurHash3 heap table (wholeFile content) = .ok (pinfo.length, some pinfo, table')

end

/-- What the calls leave in the file is a configuration of the processes.  After a complete write that is a matter of
the lengths; after a short one, and when there is no memory, it is what stays of the old file that decides. -/
def LeavesConfiguration (calls : RegCalls) (stale : Nat → Stale) (old : Bytes) (pinfo : List Procinfo) : Prop :=
  match calls with
  | .openFails => True
  | .noMemory => ConfigurationOf old pinfo
  | .writes n =>
    if (confBytes stale pinfo).length ≤ n then
      (chainStrings pinfo).length < 2 ^ 31 ∧ old.length ≤ (confBytes stale pinfo).length
    else ConfigurationOf ((confBytes stale pinfo).take n ++ old.drop n) pinfo

theorem overlay_of_le {old data : Bytes} {n : Nat} (h : data.length ≤ n) :
    overlay old data n = data ++ old.drop data.length := by
  rw [overlay, List.take_of_length_le h]

theorem overlay_of_lt {old data : Bytes} {n : Nat} (h : n ≤ data.length) :
    overlay old data n = data.take n ++ old.drop n := by
  rw [overlay, List.length_take, Nat.min_eq_left h]

theorem overlay_length_le (old data : Bytes) (n : Nat) :
    (overlay old data n).length ≤ max data.length old.length := by
  simp only [overlay, List.length_append, List.length_take, List.length_drop]
  omega

variable {cbor : Libcbor} {untypedMap : Item → Checked (List (Item × Item))} {uninit : Nat → Nat → ByteBuf 32}
  {calls : RegCalls} {file : Option Bytes} {picabody : Bytes} {table : HashTable}

theorem picaRegConfig_of_extract (hne : pinfo ≠ [])
    (hextract : picaExtractPinfo cbor untypedMap uninit picabody = .ok (pinfo.length, some pinfo)) :
    picaRegConfig cbor untypedMap uninit calls stale file picabody =
      regConfig calls stale file (some pinfo) pinfo.length >>= fun file' =>
        match file' with
        | none => .ok .aborted
        | some file' => .ok (.returned 0 (some file')) := by
  have hentries := List.length_pos_iff.2 hne
  have hnonzero : ¬ (pinfo.length : Int) = 0 := by omega
  simp only [picaRegConfig, hextract, ok_bind, if_neg hnonzero]
  rfl

/-- A registration that leaves a file leaves one that is read back exactly if it is a configuration. -/
theorem readsBack_of_leaves (hpinfo : ∀ p ∈ pinfo, p.Measured) (hne : pinfo ≠ [])
    (hextract : picaExtractPinfo cbor untypedMap uninit picabody = .ok (pinfo.length, some pinfo)) {left : Bytes}
    (hleft : regConfig calls stale file (some pinfo) pinfo.length = .ok (some left))
    (hsize : left.length < 2 ^ 64 - 2 ^ 31) :
    RegisteredReadsBack cbor untypedMap uninit murmurHash3 heap table calls stale file picabody pinfo ↔
      ConfigurationOf left pinfo := by
  rw [← picaReadConfig_reads_iff murmurHash3 heap table hpinfo hne hsize]
  unfold RegisteredReadsBack
  rw [picaRegConfig_of_extract hne hextract, hleft, ok_bind]
  constructor
  · intro h
    obtain ⟨content, table', hcontent, hread⟩ := h _ rfl
    cases hcontent
    exact ⟨table', hread⟩
  · intro ⟨table', hread⟩ file' hreturn
    cases hreturn
    exact ⟨left, table', rfl, hread⟩

/-- A registration that ends otherwise promises nothing. -/
theorem readsBack_of_not_leaves (hne : pinfo ≠ [])
    (hextract : picaExtractPinfo cbor untypedMap uninit picabody = .ok (pinfo.length, some pinfo))
    (hnone : ∀ left, regConfig calls stale file (some pinfo) pinfo.length ≠ .ok (some left)) :
    RegisteredReadsBack cbor untypedMap uninit murmurHash3 heap table calls stale file picabody pinfo := by
  intro file' hreturn
  rw [picaRegConfig_of_extract hne hextract] at hreturn
  obtain ⟨left, hleft, hret⟩ := bind_eq_ok.1 hreturn
  cases left with
  | none => cases hret
  | some left => exact absurd hleft (hnone left)

/-- After a complete write the lengths decide. -/
theorem readsBack_complete_iff (hpinfo : ∀ p ∈ pinfo, p.Measured) (hne : pinfo ≠ [])
    (hentries : pinfo.length < 2 ^ 31) (hlibs : (chainLibs pinfo).length < 2 ^ 31)
    (hmemory : (chainStrings pinfo).length < 2 ^ 63) (hfile : (file.getD []).length < 2 ^ 63)
    (hextract : picaExtractPinfo cbor untypedMap uninit picabody = .ok (pinfo.length, some pinfo)) {n : Nat}
    (hcomplete : (confBytes stale pinfo).length ≤ n) :
    RegisteredReadsBack cbor untypedMap uninit murmurHash3 heap table (.writes n) stale file picabody pinfo ↔
      (chainStrings pinfo).length < 2 ^ 31 ∧ (file.getD []).length ≤ (confBytes stale pinfo).length := by
  have hleft : regConfig (.writes n) stale file (some pinfo) pinfo.length =
      .ok (some (overlay (file.getD []) (confBytes stale pinfo) n)) := by
    have hbuffer := regConfigBuffer_eq stale hpinfo
    rw [if_pos hlibs, if_pos hmemory] at hbuffer
    simp [regConfig, hbuffer]
  have hdata := confBytes_length stale pinfo
  have hsize := overlay_length_le (file.getD []) (confBytes stale pinfo) n
  rw [readsBack_of_leaves hpinfo hne hextract hleft (by omega), overlay_of_le hcomplete,
    configurationOf_append_iff hpinfo hentries hlibs, List.drop_eq_nil_iff]

/-- A registration that reports success is read back exactly when what it leaves in the file is a configuration. -/
theorem registeredReadsBack_iff (cbor : Libcbor) (untypedMap : Item → Checked (List (Item × Item)))
    (uninit : Nat → Nat → ByteBuf 32) (murmurHash3 : Bytes → UInt32) (heap : Nat → UInt8) (table : HashTable)
    (calls : RegCalls) (stale : Nat → Stale) (file : Option Bytes) (picabody : Bytes) (pinfo : List Procinfo)
    (hextract : picaExtractPinfo cbor untypedMap uninit picabody = .ok (pinfo.length, some pinfo))
    (hpinfo : ∀ p ∈ pinfo, p.Measured) (hentries : pinfo.length < 2 ^ 31) (hfile : (file.getD []).length < 2 ^ 63) :
    RegisteredReadsBack cbor untypedMap uninit murmurHash3 heap table calls stale file picabody pinfo ↔
      ((chainLibs pinfo).length < 2 ^ 31 → (chainStrings pinfo).length < 2 ^ 63 →
        LeavesConfiguration calls stale (file.getD []) pinfo) := by
  have hne : pinfo ≠ [] := by
    rcases picaExtractPinfo_cases hextract with ⟨-, hnone⟩ | ⟨processes, hsome, hne, -⟩
    · cases hnone
    · cases hsome
      exact hne
  have hbuffer := regConfigBuffer_eq stale hpinfo
  have hdata := confBytes_length stale pinfo
  by_cases hfits : (chainLibs pinfo).length < 2 ^ 31 ∧ (chainStrings pinfo).length < 2 ^ 63
  · obtain ⟨hlibs, hmemory⟩ := hfits
    rw [if_pos hlibs, if_pos hmemory] at hbuffer
    simp only [hlibs, hmemory, true_implies]
    cases calls with
    | openFails =>
      refine iff_of_true (readsBack_of_not_leaves hne hextract ?_) trivial
      intro left hleft
      cases hleft
    | noMemory =>
      have hleft : regConfig .noMemory stale file (some pinfo) pinfo.length = .ok (some (file.getD [])) := by
        simp [regConfig, hbuffer]
      exact readsBack_of_leaves hpinfo hne hextract hleft (by omega)
    | writes n =>
      unfold LeavesConfiguration
      dsimp only
      by_cases hcomplete : (confBytes stale pinfo).length ≤ n
      · rw [if_pos hcomplete]
        exact readsBack_complete_iff hpinfo hne hentries hlibs hmemory hfile hextract hcomplete
      · have hleft : regConfig (.writes n) stale file (some pinfo) pinfo.length =
            .ok (some (overlay (file.getD []) (confBytes stale pinfo) n)) := by
          simp [regConfig, hbuffer]
        have hsize := overlay_length_le (file.getD []) (confBytes stale pinfo) n
        rw [if_neg hcomplete, ← overlay_of_lt (by omega)]
        exact readsBack_of_leaves hpinfo hne hextract hleft (by omega)
  · -- the buffer is not assembled, and the call does not return
    refine iff_of_true (readsBack_of_not_leaves hne hextract ?_) fun hlibs hmemory => absurd ⟨hlibs, hmemory⟩ hfits
    intro left hleft
    have herror : ∀ buf, regConfigBuffer stale (some pinfo) pinfo.length ≠ .ok buf := by
      intro buf hbuf
      rw [hbuffer] at hbuf
      split_ifs at hbuf with hlibs hmemory
      exact hfits ⟨hlibs, hmemory⟩
    cases calls with
    | openFails => cases hleft
    | noMemory =>
      obtain ⟨buf, hbuf, -⟩ := bind_eq_ok.1 hleft
      exact herror buf hbuf
    | writes n =>
      obtain ⟨buf, hbuf, -⟩ := bind_eq_ok.1 hleft
      exact herror buf hbuf

/-- The measured chain of the editor. -/
def editorChain : List Procinfo := [20, 10].reverse.map fun p => (editorTable p).procinfo p

theorem editorChain_measured : ∀ p ∈ editorChain, p.Measured := by
  intro p hp
  rcases List.mem_pair.1 hp with rfl | rfl <;> exact ⟨by decide, by decide, rfl, by decide, rfl⟩

theorem editorChain_extract :
    picaExtractPinfo ⟨Cbor.load, fun _ => .error .nullPointer⟩ (fun _ => .error .nullPointer)
        (fun _ _ => ByteBuf.zero 32) (encode (packedChain editorTable [20, 10])) = .ok (2, some editorChain) :=
  picaExtractPinfo_packedChain (fun _ => .error .nullPointer) (fun _ _ => ByteBuf.zero 32) load_encode_eq
    editorTable_chain editorTable_measurable

theorem editorChain_size_lt : (encode (packedChain editorTable [20, 10])).length < 2 ^ 64 := by
  decide +kernel

/-- The chain of the editor is read back after it was written to a new file. -/
theorem registeredReadsBack_newFile :
    RegisteredReadsBack ⟨Cbor.load, fun _ => .error .nullPointer⟩ (fun _ => .error .nullPointer)
      (fun _ _ => ByteBuf.zero 32) (fun _ => 0) (fun _ => 0) HashTable.empty (.writes 4096) (fun _ => ⟨0, 0, 0⟩) none
      (encode (packedChain editorTable [20, 10])) editorChain := by
  apply (registeredReadsBack_iff _ _ _ _ _ _ _ _ _ _ editorChain editorChain_extract editorChain_measured (by decide)
    (by decide)).2
  intro _ _
  have hcomplete : (confBytes (fun _ => ⟨0, 0, 0⟩) editorChain).length ≤ 4096 := by
    rw [confBytes_length]
    decide
  dsimp only [LeavesConfiguration]
  rw [if_pos hcomplete]
  exact ⟨by decide, Nat.zero_le _⟩

/-- It is not read back after it was written over a longer file. -/
theorem registeredReadsBack_longerFile :
    ¬ RegisteredReadsBack ⟨Cbor.load, fun _ => .error .nullPointer⟩ (fun _ => .error .nullPointer)
      (fun _ _ => ByteBuf.zero 32) (fun _ => 0) (fun _ => 0) HashTable.empty (.writes 4096) (fun _ => ⟨0, 0, 0⟩)
      (some (List.replicate 1000 0)) (encode (packedChain editorTable [20, 10])) editorChain := by
  intro h
  have hlen := confBytes_length (fun _ => ⟨0, 0, 0⟩) editorChain
  have hdata : 20 + 88 * editorChain.length + 40 * (chainLibs editorChain).length + (chainStrings editorChain).length <
      1000 := by
    decide
  have hold : ((some (List.replicate 1000 (0 : UInt8))).getD []).length < 2 ^ 63 := by
    rw [Option.getD_some, List.length_replicate]
    omega
  rw [readsBack_complete_iff editorChain_measured (by decide) (by decide) (by decide) (by decide) hold
    editorChain_extract (by omega)] at h
  simp only [Option.getD_some, List.length_replicate] at h
  omega

end PortableTlsRa
