import PortableTlsRa.ConfAppend
import PortableTlsRa.MeasureExchange
import PortableTlsRa.PocClient
import PortableTlsRa.Registry

/-!
# The configuration file over its life

Any number of runs of `pica_poc`, with and without `-r`, and of `conftool -a`, in any order, on one configuration file
that is written and read as the build without an enclave does it, unsealed.
Where what is written fits and reaches the file the runs do with it what is done with the registry
(`uses_simulate`): every chain that a daemon measures is granted by exactly the statements that the registry admits it
by.  So a registration over a longer one locks everybody out until something is appended or a chain as long is
registered (`request_after_registrations_iff`), and what is appended allows what was not there before and changes
nothing else (`request_after_appends_iff`).
-/

namespace PortableTlsRa

open CSem Cbor Conftool

/-! ### The uses of the file -/

/-- A run of one of the programs. -/
inductive Use (PKey : Type) where
  | register (env : PocEnv PKey)
  | append (calls : AppendCalls) (afile : CString)
  | request (env : PocEnv PKey)

/-- How a run ends.  A fault in a request ends the process and leaves the file alone. -/
inductive UseResult where
  | registered (outcome : PocOutcome)
  | appended (rc : Int)
  | requested (outcome : Checked PocOutcome)

section

variable {PKey : Type} (sha256 : Bytes → ByteBuf 32) (murmurHash3 : Bytes → UInt32)

/-- The file as it is opened for reading. -/
def fileRead : Option Bytes → FileRead
  | none => .absent
  | some file => wholeFile file

/-- The run finds this configuration file. -/
def PocEnv.onFile (env : PocEnv PKey) (file : Option Bytes) : PocEnv PKey :=
  { env with conf := file, confFile := fileRead file }

/-- Returns how the run ends, and the file then. -/
def Use.run (file : Option Bytes) : Use PKey → Checked (UseResult × Option Bytes)
  | .register env => do
    match ← pocMain sha256 murmurHash3 (env.onFile file) true with
    | .registered (.returned rc file') => return (.registered (.registered (.returned rc file')), file')
    | outcome => return (.registered outcome, file)
  | .append calls afile => do
    let (rc, file') ← appendConf calls file afile
    return (.appended rc, file')
  | .request env => return (.requested (pocMain sha256 murmurHash3 (env.onFile file) false), file)

/-- The policy file is a document that is decoded to the policy, and every statement has a path. -/
def PolicyRead (env : PocEnv PKey) (ppol : PicaPolicy) : Prop :=
  ∃ size data document, env.policyFile = .opened size data ∧ data.1.length = size ∧ env.parse data.1 = some document ∧
    picaJsonParse env.staleStmt document PicaPolicy.zero = .ok ppol ∧ ∀ pstmt ∈ ppol.stmt, pstmt.execPath.isSome

/-- The run reads the policy, and the reply of the daemon is accepted and decoded to the chain. -/
structure Measures (env : PocEnv PKey) (ppol : PicaPolicy) (chain : List Procinfo) : Prop where
  policy : PolicyRead env ppol
  reply : ∃ nonce measure picabody, env.random = some nonce ∧ env.reply = some measure ∧
    picaVerifyTpm2all sha256 env.client measure nonce =
      .ok (VerifyFlag.tpm2Fresh ||| VerifyFlag.tpm2Quote, some picabody) ∧
    env.extractPinfo picabody = .ok (chain.length, some chain)
  measured : ∀ p ∈ chain, p.Measured
  nonempty : chain ≠ []

/-- The entries fit the format of the file. -/
structure Fits (entries : List Procinfo) : Prop where
  measured : ∀ p ∈ entries, p.Measured
  count : entries.length < 2 ^ 31
  libs : (chainLibs entries).length < 2 ^ 31
  strings : (chainStrings entries).length < 2 ^ 31

/-- The run does this with the registry: what it writes fits, and all of it reaches the file. -/
inductive Performs (r : Registry) : Deed → Use PKey → Prop
  | register {env : PocEnv PKey} {ppol : PicaPolicy} {chain : List Procinfo} {n : Nat} :
      Measures sha256 env ppol chain → Fits chain → env.regCalls = .writes n → confSize chain ≤ n →
      Performs r (.register chain) (.register env)
  | append {calls : AppendCalls} {afile : CString} {digest : ByteBuf 32} {lines : List CString} {c : Contents} :
      r = some c → Measurable calls.read afile digest lines → lines ≠ [] → calls.opens = true →
      Fits (c.entries ++ [calls.entry afile digest lines]) →
      confSize (c.entries ++ [calls.entry afile digest lines]) ≤ calls.written →
      Performs r (.append (calls.entry afile digest lines)) (.append calls afile)
  | request {env : PocEnv PKey} {ppol : PicaPolicy} {chain : List Procinfo} :
      Measures sha256 env ppol chain → Performs r (.request ppol chain) (.request env)

end

/-- The file holds what the registry says. -/
inductive Holds : Option Bytes → Registry → Prop
  | absent : Holds none none
  | file {stale : Nat → Stale} {c : Contents} {tail : Bytes} : Fits c.entries → tail.length = c.leftover →
      Holds (some (confBytes stale c.entries ++ tail)) (some c)

/-- The request is granted by exactly these statements, with this chain. -/
def GrantedBy (outcome : Checked PocOutcome) (chain : List Procinfo) (allowed : PicaStmt → Prop) : Prop :=
  ∀ (pstmt : PicaStmt) (pinfo : List Procinfo) (ent : Int), outcome = .ok (.granted pstmt pinfo ent) ↔
    pinfo = chain ∧ ent = chain.length ∧ allowed pstmt

/-- A request is granted by the statements that the registry admits it by; the other runs are successful. -/
def Shows (r : Registry) : Deed → UseResult → Prop
  | .register chain, result => ∃ file, result = .registered (.registered (.returned 0 (some file))) ∧
      (∃ stale tail, file = confBytes stale chain ++ tail)
  | .append _, result => result = .appended 0
  | .request ppol chain, result =>
    ∃ outcome, result = .requested outcome ∧ GrantedBy outcome chain (r.Admits ppol chain)

variable {PKey : Type} {sha256 : Bytes → ByteBuf 32} {murmurHash3 : Bytes → UInt32} {env : PocEnv PKey}
  {ppol : PicaPolicy} {chain entries : List Procinfo} {stale : Nat → Stale} {tail : Bytes}

/-! ### What a daemon measures -/

/-- A measured process, as it is decoded. -/
theorem Measurement.Measurable.measured {m : Measurement} {pid : Int} (h : m.Measurable pid) :
    (m.procinfo pid).Measured where
  pid := ⟨by have := h.pid.1; show -2 ^ 31 ≤ pid; omega, h.pid.2⟩
  ppid := by
    obtain ⟨ppid, hppid, hbounds⟩ := h.ppid
    rw [Measurement.procinfo, hppid]
    exact hbounds
  path := rfl
  libs := by
    intro lib hlib
    obtain ⟨pa, -, rfl⟩ := List.mem_map.1 hlib
    rfl
  count := by
    rw [Measurement.procinfo, List.length_map]

/-- A run that gets a reply of an honest daemon, to its nonce or to another, measures the processes that the daemon has
packed. -/
theorem measures_of_packs {renv : Tpmdaemon.RequestEnv} {daemon : DaemonEnv} {key : PKey} {regAtst : TpmsAttest}
    {table : Int → Measurement} {pid : Int} {pids : List Int} {pica : Bytes} {nonce nonce' : ByteBuf 32}
    (hpacks : Packs renv table pid pids pica) (honest : RsaAttester daemon env.client key regAtst)
    (hmade : MadeBy renv daemon) (hpica : pica.length < 2 ^ 64) (hpolicy : PolicyRead env ppol)
    (hrandom : env.random = some nonce) (hreply : env.reply = some (honestPayload sha256 daemon nonce' pica)) :
    Measures sha256 env ppol (pids.reverse.map fun p => (table p).procinfo p) where
  policy := hpolicy
  reply := by
    obtain ⟨-, hextract⟩ := hpacks.accepted honest hmade hpica sha256 nonce env.untypedMap env.uninit
    refine ⟨nonce, _, pica, hrandom, hreply, picaVerifyTpm2all_daemonReply sha256 nonce' honest hpica nonce, ?_⟩
    rw [List.length_map, List.length_reverse]
    exact hextract
  measured := by
    intro p hp
    obtain ⟨q, hq, rfl⟩ := List.mem_map.1 hp
    exact (hpacks.measurable q (List.mem_reverse.1 hq)).measured
  nonempty := by
    cases hpacks.ancestors <;> simp

/-! ### Reading the file -/

theorem Fits.configuration (h : Fits entries) (stale : Nat → Stale) :
    ConfigurationOf (confBytes stale entries) entries :=
  confBytes_configuration stale h.measured h.count h.libs h.strings

/-- With something behind the entries the size is not the one that the header gives. -/
theorem buildConf_leftover (h : Fits entries) (htail : tail ≠ []) :
    buildConf (confBytes stale entries ++ tail) (confBytes stale entries ++ tail).length = .ok (0, none) := by
  have hcount := h.count
  have hlibs := h.libs
  have hstrings := h.strings
  have hproc : (confHeader entries).procCnt.toInt = entries.length :=
    Int32.toInt_ofInt_of_le (by omega) (by omega)
  have hfdig : (confHeader entries).fdigCnt.toInt = (chainLibs entries).length :=
    Int32.toInt_ofInt_of_le (by omega) (by omega)
  have hstr : (confHeader entries).strSize.toInt = (chainStrings entries).length := Int32.toInt_ofNat_of_lt h.strings
  have hpos := List.length_pos_of_ne_nil htail
  rw [buildConf, readCell_confBytes, ok_bind, hproc, hfdig, hstr]
  dsimp only
  rw [if_pos]
  · rfl
  · rw [List.length_append, confBytes_length]
    omega

theorem readConfiguration_absent : readConfiguration murmurHash3 (env.onFile none) false = .ok none := rfl

theorem readConfiguration_leftover (h : Fits entries) (htail : tail ≠ []) :
    readConfiguration murmurHash3 (env.onFile (some (confBytes stale entries ++ tail))) false = .ok none := by
  have hread : picaReadConfig murmurHash3 env.heap HashTable.empty (wholeFile (confBytes stale entries ++ tail)) =
      .ok (0, none, HashTable.empty) := by
    rw [picaReadConfig, fileSealReadClose_wholeFile]
    dsimp only
    rw [buildConf_leftover h htail]
    rfl
  simp only [readConfiguration, PocEnv.onFile, fileRead, hread, ok_bind]
  rfl

/-- Without, the entries are registered; there must be one. -/
theorem readConfiguration_entries (h : Fits entries) :
    ∃ table, registerAll murmurHash3 HashTable.empty (confRegistrations entries) = .ok table ∧
      readConfiguration murmurHash3 (env.onFile (some (confBytes stale entries))) false =
        .ok (if entries = [] then none else some table) := by
  obtain ⟨conf, hbuild, hentries⟩ := (h.configuration stale).buildConf
  obtain ⟨table, htable, hread⟩ :=
    picaReadConfig_of_entries murmurHash3 env.heap HashTable.empty h.measured hbuild hentries
  refine ⟨table, htable, ?_⟩
  have hzero : (entries.length : Int) = 0 ↔ entries = [] := by simp
  simp only [readConfiguration, PocEnv.onFile, fileRead, hread, ok_bind, hzero, Bool.false_eq_true, if_false]
  rfl

/-! ### Registering -/

/-- With a configuration the run comes to the verification. -/
theorem pocSetup_of_measures (hpolicy : PolicyRead env ppol) {file : Option Bytes} {rflag : Bool} {table : HashTable}
    {nonce : ByteBuf 32} {measure : Bytes} (hrandom : env.random = some nonce) (hreply : env.reply = some measure)
    (hconf : readConfiguration murmurHash3 (env.onFile file) rflag = .ok (some table)) :
    ∃ table', registerAll murmurHash3 table (policyRegistrations ppol.stmt) = .ok table' ∧
      pocSetup murmurHash3 (env.onFile file) rflag = .ok (some ⟨table', ppol, nonce, measure⟩) := by
  obtain ⟨size, data, document, hfile, hsize, hparse, hppol, hpaths⟩ := hpolicy
  have hdefined : ∃ table', registerAll murmurHash3 table (policyRegistrations ppol.stmt) = .ok table' := by
    rw [registerPolicy_defined_iff]
    simpa using hpaths
  obtain ⟨table', htable⟩ := hdefined
  have hread : picaReadPolicy murmurHash3 env.parse env.staleStmt table env.policyFile PicaPolicy.zero =
      .ok (0, ppol, table') := by
    rw [hfile, picaReadPolicy]
    simp only [hsize, ne_eq, not_true_eq_false, if_false, hparse, hppol, ok_bind, htable]
    rfl
  refine ⟨table', htable, ?_⟩
  have hsame : picaReadPolicy murmurHash3 (env.onFile file).parse (env.onFile file).staleStmt table
      (env.onFile file).policyFile PicaPolicy.zero = .ok (0, ppol, table') := hread
  have hrandom' : (env.onFile file).random = some nonce := hrandom
  have hreply' : (env.onFile file).reply = some measure := hreply
  simp only [pocSetup, hconf, ok_bind, hsame, hrandom', hreply']
  rfl

/-- The new entries are written over the start of the file. -/
theorem run_register (h : Measures sha256 env ppol chain) (hfits : Fits chain) {n : Nat}
    (hcalls : env.regCalls = .writes n) (hwritten : confSize chain ≤ n) (file : Option Bytes) :
    Use.run sha256 murmurHash3 file (.register env) =
      .ok (.registered (.registered (.returned 0
          (some (confBytes env.staleConf chain ++ (file.getD []).drop (confSize chain))))),
        some (confBytes env.staleConf chain ++ (file.getD []).drop (confSize chain))) := by
  obtain ⟨nonce, measure, picabody, hrandom, hreply, hverify, hextract⟩ := h.reply
  have hconf : readConfiguration murmurHash3 (env.onFile file) true = .ok (some HashTable.empty) := rfl
  obtain ⟨table', -, hsetup⟩ := pocSetup_of_measures h.policy hrandom hreply hconf
  have hlength : (confBytes env.staleConf chain).length = confSize chain := confBytes_length _ _
  have hregister : regConfig env.regCalls env.staleConf file (some chain) chain.length =
      .ok (some (confBytes env.staleConf chain ++ (file.getD []).drop (confSize chain))) := by
    rw [hcalls, regConfig, regConfigBuffer_eq _ hfits.measured, if_pos hfits.libs,
      if_pos (Nat.lt_trans hfits.strings (by decide)), ok_bind, overlay_of_le (hlength ▸ hwritten), hlength]
    rfl
  have hrun : pocMain sha256 murmurHash3 (env.onFile file) true = .ok (.registered (.returned 0
      (some (confBytes env.staleConf chain ++ (file.getD []).drop (confSize chain))))) := by
    refine pocMain_registered_iff.2 ⟨_, _, some picabody, hsetup, hverify, ?_⟩
    have hsame : picaRegConfig env.client.cbor env.untypedMap env.uninit env.regCalls env.staleConf file picabody =
        _ := picaRegConfig_of_extract h.nonempty hextract
    rw [hregister, ok_bind] at hsame
    exact hsame
  rw [Use.run, hrun]
  rfl

/-! ### Appending -/

theorem fread_append_left {heap : Nat → UInt8} {file : Bytes} {pos size : Nat} (h : pos + size ≤ file.length)
    (tail : Bytes) : fread heap (file ++ tail) pos size = fread heap file pos size := by
  have hpos : pos ≤ file.length := by omega
  have hsize : size ≤ (file.drop pos).length := by
    rw [List.length_drop]
    omega
  rw [fread, fread, List.drop_append_of_le_length hpos, List.take_append_of_le_length hsize]

/-- `read_conf` does not look at what is behind the sections. -/
theorem readConf_leftover {heap : Nat → Nat → UInt8} {file : Bytes} {head : Confhead} {c : Conf}
    (h : readConf heap (some file) = .ok (some (head, c)))
    (hlength : file.length = 20 + 88 * head.procCnt.toInt.toNat + 40 * head.fdigCnt.toInt.toNat +
      head.strSize.toInt.toNat) (tail : Bytes) :
    readConf heap (some (file ++ tail)) = .ok (some (head, c)) := by
  obtain ⟨head', hhead, hrest⟩ := bind_eq_ok.1 h
  obtain ⟨cpif, hcpif, hrest⟩ := bind_eq_ok.1 hrest
  obtain ⟨fdp, hfdp, hret⟩ := bind_eq_ok.1 hrest
  split_ifs at hret with hneg
  cases hret
  have hhead' : readCell Confhead.layout (fread (heap 0) (file ++ tail) 0 20) 0 = .ok head := by
    rw [fread_append_left (by omega)]
    exact hhead
  have hcpif' : freadTable ConfProcinfo.layout (heap 1) (file ++ tail) 20 head.procCnt.toInt = .ok cpif := by
    rw [freadTable, ConfProcinfo.layout_size, fread_append_left (by omega)]
    exact hcpif
  have hfdp' : freadTable ConfFdigest.layout (heap 2) (file ++ tail) (20 + 88 * head.procCnt.toInt.toNat)
      head.fdigCnt.toInt = .ok fdp := by
    rw [freadTable, ConfFdigest.layout_size, fread_append_left (by omega)]
    exact hfdp
  rw [readConf, hhead', ok_bind]
  dsimp only
  rw [hcpif', ok_bind, hfdp', ok_bind, if_neg hneg, fread_append_left (by omega)]
  rfl

section

variable {calls : AppendCalls} {afile : CString} {digest : ByteBuf 32} {lines : List CString}

/-- A command is appended to what is in front of the bytes that are left over. -/
theorem appendConf_leftover (hfits : Fits entries) (hcommand : Measurable calls.read afile digest lines)
    (hlibs : lines ≠ []) (hlines : lines.length < 2 ^ 31) (hopens : calls.opens = true) (tail : Bytes) :
    appendConf calls (some (confBytes stale entries ++ tail)) afile =
      appendConf calls (some (confBytes stale entries)) afile := by
  obtain ⟨head, c, hfile, hproc, hfdig, hstr, -⟩ := hfits.configuration stale
  have hread := readConf_sections calls.heap hfile hproc hfdig hstr
  have hlength := congrArg List.length hfile
  simp only [List.length_append, encodeTable_length, Layout.encode_length, Confhead.layout_size,
    ConfProcinfo.layout_size, ConfFdigest.layout_size] at hlength
  have htail := readConf_leftover hread (by omega) tail
  have hpos := List.length_pos_of_ne_nil hlibs
  have hcount : ¬ (lines.length : Int) ≤ 0 := by omega
  simp only [appendConf, readBinary_eq hcommand, if_pos hlines, ok_bind, if_neg hcount, hread, htail, hopens,
    Bool.not_true, Bool.false_eq_true, if_false]

/-- Everything is written anew. -/
theorem run_append {c : Contents} (hcommand : Measurable calls.read afile digest lines) (hlibs : lines ≠ [])
    (hopens : calls.opens = true) (hold : Fits c.entries)
    (hfits : Fits (c.entries ++ [calls.entry afile digest lines]))
    (hwritten : confSize (c.entries ++ [calls.entry afile digest lines]) ≤ calls.written) (stale : Nat → Stale)
    (tail : Bytes) :
    Use.run sha256 murmurHash3 (some (confBytes stale c.entries ++ tail)) (.append calls afile : Use PKey) =
      .ok (.appended 0, some (confBytes calls.stale (c.entries ++ [calls.entry afile digest lines]))) := by
  have hcount := hfits.count
  have hall := hfits.libs
  have hentry := entry_libs_length calls afile digest lines
  have hsplit : chainLibs (c.entries ++ [calls.entry afile digest lines]) =
      chainLibs c.entries ++ ((calls.entry afile digest lines).libs ++ []) := List.flatMap_append
  rw [hsplit, List.append_nil, List.length_append, hentry] at hall
  rw [List.length_append, List.length_singleton] at hcount
  have hlines : lines.length < 2 ^ 31 := by omega
  have hbytes : (confBytes calls.stale (c.entries ++ [calls.entry afile digest lines])).length ≤ calls.written :=
    (confBytes_length _ _).trans_le hwritten
  have hrun := appendConf_success (hold.configuration stale) hcommand hlibs hlines hcount hopens hfits.libs
    (Nat.lt_trans hfits.strings (by decide))
  rw [List.take_of_length_le hbytes] at hrun
  rw [Use.run, appendConf_leftover hold hcommand hlibs hlines hopens, hrun]
  rfl

end

/-! ### Asking -/

theorem lastEntry_length_iff {mybinary : Procinfo} :
    lastEntry (some chain) chain.length = .ok mybinary ↔ chain.getLast? = some mybinary := by
  have hderef : deref (some chain) = .ok chain := rfl
  rw [lastEntry, hderef, ok_bind]
  cases chain with
  | nil => exact iff_of_false nofun nofun
  | cons p chain =>
    have hpos : ¬ (((p :: chain).length : Int) - 1 < 0) := by
      rw [List.length_cons]
      omega
    have hlast : (((p :: chain).length : Int) - 1).toNat = (p :: chain).length - 1 := by omega
    rw [if_neg hpos, hlast, readAt_eq_ok, List.getLast?_eq_getElem?]

/-- The binaries pass against the table that the entries and the policy are registered in exactly if they agree. -/
theorem verifyBinaries_entries_iff {table table' : HashTable} (hchain : ∀ p ∈ chain, p.Measured)
    (htable : registerAll murmurHash3 HashTable.empty (confRegistrations entries) = .ok table)
    (htable' : registerAll murmurHash3 table (policyRegistrations ppol.stmt) = .ok table') :
    picaVerifyBinaries murmurHash3 table' (some chain) chain.length = .ok VerifyFlag.picaBinaries ↔
      ∀ p ∈ chain, AgreesWithFirst entries p := by
  have hrun : runSetup murmurHash3 [.readConfig entries] = .ok table := bind_eq_ok.2 ⟨table, htable, rfl⟩
  rw [picaVerifyBinaries_registerPolicy (registerAll_represents represents_empty htable) htable',
    picaVerifyBinaries_accepts_iff (runSetup_represents hrun), chainPasses_length_iff]
  constructor
  · intro h p hp
    exact (processPasses_readConfig_iff (hchain p hp).path).1 (h p hp)
  · intro h p hp
    exact (processPasses_readConfig_iff (hchain p hp).path).2 (h p hp)

/-- The checks on the chain, after a verification that has set the bits of the quote alone. -/
theorem checksPass_iff {table table' : HashTable} {pstmt : PicaStmt} (hchain : ∀ p ∈ chain, p.Measured)
    (htable : registerAll murmurHash3 HashTable.empty (confRegistrations entries) = .ok table)
    (htable' : registerAll murmurHash3 table (policyRegistrations ppol.stmt) = .ok table') :
    ChecksPass murmurHash3 table' ppol (VerifyFlag.tpm2Fresh ||| VerifyFlag.tpm2Quote) pstmt chain chain.length ↔
      (∀ p ∈ chain, AgreesWithFirst entries p) ∧ PolicyAllows ppol chain pstmt := by
  rw [← verifyBinaries_entries_iff hchain htable htable']
  constructor
  · rintro ⟨⟨mybinary, hlast, hselected⟩, ⟨rc, hrc, hbit⟩, hmatches, huids⟩
    rcases picaVerifyBinaries_cases hrc with rfl | rfl
    · exact absurd (by decide) hbit
    · exact ⟨hrc, ⟨mybinary, lastEntry_length_iff.1 hlast, hselected⟩, hmatches, huids⟩
  · rintro ⟨hbinaries, ⟨mybinary, hlast, hselected⟩, hmatches, huids⟩
    exact ⟨⟨mybinary, lastEntry_length_iff.2 hlast, hselected⟩, ⟨_, hbinaries, by decide⟩, hmatches, huids⟩

/-- Against these entries a chain is granted by the statements of the policy that allow it, if its programs agree. -/
theorem pocMain_granted_entries_iff (h : Measures sha256 env ppol chain) {file : Option Bytes} {table : HashTable}
    (htable : registerAll murmurHash3 HashTable.empty (confRegistrations entries) = .ok table)
    (hconf : readConfiguration murmurHash3 (env.onFile file) false = .ok (some table)) {pstmt : PicaStmt}
    {pinfo : List Procinfo} {ent : Int} :
    pocMain sha256 murmurHash3 (env.onFile file) false = .ok (.granted pstmt pinfo ent) ↔
      pinfo = chain ∧ ent = chain.length ∧ (∀ p ∈ chain, AgreesWithFirst entries p) ∧
        PolicyAllows ppol chain pstmt := by
  obtain ⟨nonce, measure, picabody, hrandom, hreply, hverify, hextract⟩ := h.reply
  obtain ⟨table', htable', hsetup⟩ := pocSetup_of_measures h.policy hrandom hreply hconf
  rw [pocMain_granted_iff]
  constructor
  · rintro ⟨s, hsetup', verified, body, hset, ⟨bytes, hbytes, hpinfo⟩, hchecks⟩
    rw [hsetup] at hsetup'
    cases hsetup'
    obtain ⟨out, hverify', -, rfl⟩ := quoteBitSet_iff.1 hset
    cases hverify.symm.trans hverify'
    cases hbytes
    cases hextract.symm.trans hpinfo
    exact ⟨rfl, rfl, (checksPass_iff h.measured htable htable').1 hchecks⟩
  · rintro ⟨rfl, rfl, hallowed⟩
    exact ⟨_, hsetup, _, _, quoteBitSet_iff.2 ⟨some picabody, hverify, by decide, rfl⟩, ⟨picabody, rfl, hextract⟩,
      (checksPass_iff h.measured htable htable').2 hallowed⟩

/-- Without a configuration nothing is granted. -/
theorem not_granted_of_no_configuration {file : Option Bytes}
    (hconf : readConfiguration murmurHash3 (env.onFile file) false = .ok none) {pstmt : PicaStmt}
    {pinfo : List Procinfo} {ent : Int} :
    pocMain sha256 murmurHash3 (env.onFile file) false ≠ .ok (.granted pstmt pinfo ent) := by
  intro hgranted
  obtain ⟨s, hsetup, -⟩ := pocMain_granted_iff.1 hgranted
  rw [pocSetup, hconf, ok_bind] at hsetup
  cases hsetup

/-- A request is granted as the registry says. -/
theorem run_request (h : Measures sha256 env ppol chain) {file : Option Bytes} {r : Registry} (hfile : Holds file r)
    {pstmt : PicaStmt} {pinfo : List Procinfo} {ent : Int} :
    pocMain sha256 murmurHash3 (env.onFile file) false = .ok (.granted pstmt pinfo ent) ↔
      pinfo = chain ∧ ent = chain.length ∧ r.Admits ppol chain pstmt := by
  cases hfile with
  | absent =>
    refine iff_of_false (not_granted_of_no_configuration readConfiguration_absent) ?_
    rintro ⟨-, -, c, hc, -⟩
    cases hc
  | @file stale c tail hfits htail =>
    unfold Registry.Admits
    simp only [Option.some.injEq, exists_eq_left']
    by_cases hnil : tail = []
    · subst hnil
      obtain ⟨table, htable, hconf⟩ := @readConfiguration_entries PKey murmurHash3 env c.entries stale hfits
      rw [List.append_nil, and_iff_right (htail.symm.trans List.length_nil : c.leftover = 0)]
      by_cases hempty : c.entries = []
      · rw [if_pos hempty] at hconf
        refine iff_of_false (not_granted_of_no_configuration hconf) ?_
        rintro ⟨-, -, hagree, -⟩
        obtain ⟨p, hp⟩ := List.exists_mem_of_ne_nil chain h.nonempty
        obtain ⟨e, he, -⟩ := hagree p hp
        rw [hempty] at he
        cases he
      · rw [if_neg hempty] at hconf
        exact pocMain_granted_entries_iff h htable hconf
    · have hleftover : c.leftover ≠ 0 := by
        rw [← htail, Ne, List.length_eq_zero_iff]
        exact hnil
      refine iff_of_false (not_granted_of_no_configuration (readConfiguration_leftover hfits hnil)) ?_
      rintro ⟨-, -, hzero, -⟩
      exact hleftover hzero

/-! ### Steps -/

/-- The file after a registration. -/
theorem Holds.register {file : Option Bytes} {r : Registry} (hfile : Holds file r) (hfits : Fits chain)
    (stale : Nat → Stale) :
    Holds (some (confBytes stale chain ++ (file.getD []).drop (confSize chain))) (r.after (.register chain)) := by
  refine @Holds.file stale ⟨chain, r.size - confSize chain⟩ _ hfits ?_
  rw [List.length_drop]
  cases hfile with
  | absent => rfl
  | @file stale c tail _ htail =>
    have hsize : Registry.size (some c) = confSize c.entries + c.leftover := rfl
    have hlength : (confBytes stale c.entries).length = confSize c.entries := confBytes_length _ _
    rw [hsize, Option.getD_some, List.length_append, htail, hlength]

theorem Holds.append {c : Contents} {entry : Procinfo} (hfits : Fits (c.entries ++ [entry])) (stale : Nat → Stale) :
    Holds (some (confBytes stale (c.entries ++ [entry]))) (Registry.after (some c) (.append entry)) := by
  have hfile : Holds (some (confBytes stale (c.entries ++ [entry]) ++ [])) (some ⟨c.entries ++ [entry], 0⟩) :=
    @Holds.file stale ⟨c.entries ++ [entry], 0⟩ [] hfits rfl
  rwa [List.append_nil] at hfile

/-- Every run does with the file what it does with the registry. -/
theorem uses_simulate (sha256 : Bytes → ByteBuf 32) (murmurHash3 : Bytes → UInt32) :
    Simulates (Use.run sha256 murmurHash3 : Option Bytes → Use PKey → _) Registry.after (Performs sha256) Shows
      Holds where
  step := by
    intro file r deed use hfile hperforms
    cases hperforms with
    | @register env ppol chain n hmeasures hfits hcalls hwritten =>
      exact ⟨_, _, run_register hmeasures hfits hcalls hwritten file, ⟨_, rfl, env.staleConf, _, rfl⟩,
        hfile.register hfits env.staleConf⟩
    | @append calls afile digest lines c hr hcommand hlibs hopens hfits hwritten =>
      subst hr
      cases hfile with
      | @file stale _ tail hold htail =>
        exact ⟨_, _, run_append hcommand hlibs hopens hold hfits hwritten stale tail, rfl, .append hfits calls.stale⟩
    | request hmeasures => exact ⟨_, _, rfl, ⟨_, rfl, fun _ _ _ => run_request hmeasures hfile⟩, hfile⟩

/-! ### An editor and a browser -/

/-- A run of the editor, whose writes reach the file. -/
def editorUse (effect : String) : PocEnv Unit := editorRun plainClient effect (editorPayload Sha256.hash)

/-- The policy for the editor. -/
def editorPolicy (effect : String) : PicaPolicy :=
  ⟨some (cstr "PICA-2026-09-25"), 1, [editorStmt (parseEffect (.string (lit effect)))]⟩

theorem editorRun_policyRead (client : ClientEnv Unit) (effect : String) (reply : Bytes) :
    PolicyRead (editorRun client effect reply) (editorPolicy effect) := by
  have hparse : (editorRun client effect reply).parse (policyText effect) = some (policyDocument effect) := if_pos rfl
  refine ⟨_, _, policyDocument effect, rfl, rfl, hparse, rfl, ?_⟩
  intro pstmt hpstmt
  rw [List.mem_singleton.1 hpstmt]
  rfl

theorem editorUse_measures (effect : String) :
    Measures Sha256.hash (editorUse effect) (editorPolicy effect) editorChain :=
  measures_of_packs editorDaemon_packs plain_honest editorDaemon_madeBy editorChain_size_lt
    (editorRun_policyRead plainClient effect (editorPayload Sha256.hash)) rfl rfl

theorem editorChain_fits : Fits editorChain := ⟨editorChain_measured, by decide, by decide, by decide⟩

/-- The file of the editor, with a byte behind the entries. -/
def longFile : Bytes := confBytes (fun _ => ⟨0, 0, 0⟩) editorChain ++ [0]

theorem longFile_holds : Holds (some longFile) (some ⟨editorChain, 1⟩) :=
  @Holds.file (fun _ => ⟨0, 0, 0⟩) ⟨editorChain, 1⟩ [0] editorChain_fits rfl

/-- What is appended for a browser. -/
def browserEntry : Procinfo :=
  (editorCalls 1024).entry (cstr "/bin/lynx") (ByteBuf.zero 32) [cstr "/lib/libc.so"]

theorem editorAndBrowser_fits : Fits (editorChain ++ [browserEntry]) where
  measured := by
    intro p hp
    rcases List.mem_append.1 hp with hp | hp
    · exact editorChain_measured p hp
    · rw [List.mem_singleton.1 hp]
      exact entry_measured _ _ _ _
  count := by decide
  libs := by decide
  strings := by decide

/-- A browser is appended, and the editor asks. -/
def browserDeeds : List Deed :=
  [browserEntry].map .append ++ [.request (editorPolicy "Allow") editorChain]

theorem browserThenEditor (sha256 : Bytes → ByteBuf 32)
    (h : Measures sha256 (editorUse "Allow") (editorPolicy "Allow") editorChain) :
    Along Registry.after (Performs sha256) (some ⟨editorChain, 1⟩) browserDeeds
      [.append (editorCalls 1024) (cstr "/bin/lynx"), .request (editorUse "Allow")] :=
  .cons (.append rfl ⟨rfl, rfl, rfl⟩ (by decide) rfl editorAndBrowser_fits (by decide)) (.cons (.request h) .nil)

/-! ### Runs -/

/-- Whatever the runs and their order, the file holds in the end what the registry says, and every request on the way is
granted by exactly the statements that the registry admits it by. -/
theorem uses_refine_registry (sha256 : Bytes → ByteBuf 32) (murmurHash3 : Bytes → UInt32) {file : Option Bytes}
    {r : Registry} {deeds : List Deed} {uses : List (Use PKey)} (hfile : Holds file r)
    (huses : Along Registry.after (Performs sha256) r deeds uses) :
    ∃ results file', runAll (Use.run sha256 murmurHash3) file uses = .ok (results, file') ∧
      Along Registry.after Shows r deeds results ∧ Holds file' (deeds.foldl Registry.after r) :=
  (uses_simulate sha256 murmurHash3).run hfile huses

/-- A browser is appended to the file with a byte too many, and the editor asks. -/
theorem uses_refine_registry_browser :
    ∃ results file', runAll (Use.run Sha256.hash fun _ => 0) (some longFile)
        [.append (editorCalls 1024) (cstr "/bin/lynx"), .request (editorUse "Allow")] = .ok (results, file') ∧
      Along Registry.after Shows (some ⟨editorChain, 1⟩) browserDeeds results ∧
      Holds file' (browserDeeds.foldl Registry.after (some ⟨editorChain, 1⟩)) :=
  uses_refine_registry Sha256.hash (fun _ => 0) longFile_holds (browserThenEditor _ (editorUse_measures "Allow"))

/-- The last run is a request. -/
theorem uses_request {file : Option Bytes} {r : Registry} {deeds : List Deed} {uses : List (Use PKey)}
    (hfile : Holds file r) (huses : Along Registry.after (Performs sha256) r (deeds ++ [.request ppol chain]) uses) :
    ∃ results outcome file', runAll (Use.run sha256 murmurHash3) file uses =
        .ok (results ++ [.requested outcome], file') ∧
      GrantedBy outcome chain ((deeds.foldl Registry.after r).Admits ppol chain) := by
  obtain ⟨results, file', hrun, hshows, -⟩ := (uses_simulate sha256 murmurHash3).run hfile huses
  obtain ⟨before, result, rfl, outcome, rfl, hgranted⟩ := hshows.exists_last
  exact ⟨before, outcome, file', hrun, hgranted⟩

/-- After registrations a chain is granted exactly if the last registration was a longest, every program of the chain
agrees with it, and the policy allows the chain. -/
theorem request_after_registrations_iff (sha256 : Bytes → ByteBuf 32) (murmurHash3 : Bytes → UInt32)
    {file : Option Bytes} {r : Registry} {deeds : List Deed} {uses : List (Use PKey)} {ppol : PicaPolicy}
    {chain last : List Procinfo} (hfile : Holds file r)
    (huses : Along Registry.after (Performs sha256) r (deeds ++ [.request ppol chain]) uses) (hno : NoAppend deeds)
    (hlast : (registered deeds).getLast? = some last) :
    ∃ results outcome file', runAll (Use.run sha256 murmurHash3) file uses =
        .ok (results ++ [.requested outcome], file') ∧
      GrantedBy outcome chain fun pstmt =>
        (r.size ≤ confSize last ∧ ∀ other ∈ registered deeds, confSize other ≤ confSize last) ∧
          (∀ p ∈ chain, AgreesWithFirst last p) ∧ PolicyAllows ppol chain pstmt := by
  obtain ⟨results, outcome, file', hrun, hgranted⟩ := @uses_request PKey sha256 murmurHash3 ppol chain file r deeds uses
    hfile huses
  refine ⟨results, outcome, file', hrun, fun pstmt pinfo ent => ?_⟩
  obtain ⟨leftover, hafter⟩ := @entries_eq_last r deeds last hno hlast
  rw [hgranted pstmt pinfo ent, ← leftover_eq_zero_iff hno hlast hafter, hafter]
  simp only [Registry.Admits, Option.some.injEq, exists_eq_left']

/-- The chain is registered, and the editor asks. -/
theorem editor_registered :
    ∃ results outcome file', runAll (Use.run Sha256.hash fun _ => 0) none
        [.register (editorUse "Allow"), .request (editorUse "Allow")] = .ok (results ++ [.requested outcome], file') ∧
      GrantedBy outcome editorChain fun pstmt =>
        (Registry.size none ≤ confSize editorChain ∧
            ∀ other ∈ registered [.register editorChain], confSize other ≤ confSize editorChain) ∧
          (∀ p ∈ editorChain, AgreesWithFirst editorChain p) ∧
          PolicyAllows (editorPolicy "Allow") editorChain pstmt :=
  request_after_registrations_iff Sha256.hash (fun _ => 0) .absent
    (.cons (.register (editorUse_measures "Allow") editorChain_fits rfl (by decide))
      (.cons (.request (editorUse_measures "Allow")) .nil))
    (fun _ h => by cases List.mem_singleton.1 h) rfl

/-- After entries were appended a chain is granted exactly if every program agrees with its first entry, which is one of
before if there is one, and the policy allows the chain, whatever was behind the entries before. -/
theorem request_after_appends_iff (sha256 : Bytes → ByteBuf 32) (murmurHash3 : Bytes → UInt32)
    {file : Option Bytes} {c : Contents} {added : List Procinfo} {uses : List (Use PKey)} {ppol : PicaPolicy}
    {chain : List Procinfo} (hfile : Holds file (some c))
    (huses : Along Registry.after (Performs sha256) (some c) (added.map .append ++ [.request ppol chain]) uses)
    (hadded : added ≠ []) :
    ∃ results outcome file', runAll (Use.run sha256 murmurHash3) file uses =
        .ok (results ++ [.requested outcome], file') ∧
      GrantedBy outcome chain fun pstmt =>
        (∀ p ∈ chain, AgreesWithFirst c.entries p ∨ (∀ e ∈ c.entries, e.path ≠ p.path) ∧ AgreesWithFirst added p) ∧
          PolicyAllows ppol chain pstmt := by
  obtain ⟨results, outcome, file', hrun, hgranted⟩ := @uses_request PKey sha256 murmurHash3 ppol chain file (some c)
    (added.map .append) uses hfile huses
  refine ⟨results, outcome, file', hrun, fun pstmt pinfo ent => ?_⟩
  rw [hgranted pstmt pinfo ent, after_appends hadded]
  simp only [Registry.Admits, Option.some.injEq, exists_eq_left', true_and, agreesWithFirst_append_iff]

/-- The editor asks after the browser was appended. -/
theorem request_after_browser :
    ∃ results outcome file', runAll (Use.run Sha256.hash fun _ => 0) (some longFile)
        [.append (editorCalls 1024) (cstr "/bin/lynx"), .request (editorUse "Allow")] =
          .ok (results ++ [.requested outcome], file') ∧
      GrantedBy outcome editorChain fun pstmt =>
        (∀ p ∈ editorChain, AgreesWithFirst editorChain p ∨
            (∀ e ∈ editorChain, e.path ≠ p.path) ∧ AgreesWithFirst [browserEntry] p) ∧
          PolicyAllows (editorPolicy "Allow") editorChain pstmt :=
  request_after_appends_iff Sha256.hash (fun _ => 0) longFile_holds
    (browserThenEditor _ (editorUse_measures "Allow")) (List.cons_ne_nil _ _)

end PortableTlsRa
