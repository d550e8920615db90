import PortableTlsRa.RegistryRuns
import PortableTlsRa.SealedConf

/-!
# The sealed configuration over its life

`main` of `pica_poc` as it is built for the enclave: the configuration is sealed before it is handed to the host, and
what the host returns is unsealed.  On a host that keeps the file the last registration decides, whatever was
registered before (`sealed_request_iff`), since the sealed bytes say where they end: the bytes of a longer file behind
them are not looked at, as they are when the file is plain.  A host that does not keep the file can get exactly those
chains granted that some registration allows, be it the first, or have the configuration read through a pointer that
was never set (`hostile_request_iff`): the enclave has nothing that tells it which of its files is the last.
-/

namespace PortableTlsRa

open CSem

namespace Tee

/-! ### Sealing -/

/-- The sealing of the SGX library.  `Seals data blob` says that `sgx_seal_data` may leave `blob` in its buffer for
`data`; `sgx_unseal_data` takes the lengths from the sealed bytes, and is not given the size of the file. -/
structure Sealing where
  sgxCalcSealedDataSize : Nat → Nat
  Seals : Bytes → Bytes → Prop
  sgxGetEncryptTxtLen : Bytes → Nat
  sgxUnsealData : Bytes → Unsealing
  length_eq : ∀ {data blob}, Seals data blob → blob.length = sgxCalcSealedDataSize data.length
  txtLen : ∀ {data blob}, Seals data blob → ∀ tail, sgxGetEncryptTxtLen (blob ++ tail) = data.length
  unsealed : ∀ {data blob}, Seals data blob → ∀ tail, sgxUnsealData (blob ++ tail) = .unsealed data

/-- How the calls end that `file_seal_write` makes: `sealed` is what `sgx_seal_data` leaves in the buffer, or none when
it fails, and `written` is the size that the host says it has written. -/
structure SealWriteCalls where
  malloc : Nat → Bool
  sealed : Bytes → Option Bytes
  written : Nat

/-- How the calls of `reg_config` end. -/
inductive RegCalls where
  | openFails
  | noMemory
  | seals (calls : SealWriteCalls)

/-- What a registration comes to; `written` is what the host is asked to write to the start of the file, if it comes to
that. -/
inductive Registered where
  | aborted
  | returned (rc : Int) (written : Option Bytes)

/-- How a run ends: with a registration, or as the plain one. -/
inductive PocOutcome where
  | registered (r : Registered)
  | other (outcome : PortableTlsRa.PocOutcome)

section

variable {PKey : Type} (sha256 : Bytes → ByteBuf 32) (murmurHash3 : Bytes → UInt32) (S : Sealing) (env : PocEnv PKey)

/-- Returns the code, and what the host is asked to write. -/
def fileSealWrite (calls : SealWriteCalls) (buf : Bytes) : Int × Option Bytes :=
  -- the size is a uint32_t for the library
  let wsz := buf.length % 2 ^ 32
  let enclen := S.sgxCalcSealedDataSize wsz
  if !calls.malloc enclen then (-1, none)
  else
    match calls.sealed (buf.take wsz) with
    | none => (-1, none)
    | some encbuf => (if calls.written = enclen then 1 else 0, some encbuf)

/-- What the host is asked to write once the file is open, or `none` when the program is aborted. -/
def regConfig (calls : RegCalls) (pinfo : Option (List Procinfo)) (entries : Int) : Checked (Option (Option Bytes)) :=
  match calls with
  | .openFails => return none
  | .noMemory => do
    let _ ← regConfigBuffer env.staleConf pinfo entries
    return some none
  | .seals calls => do
    let buf ← regConfigBuffer env.staleConf pinfo entries
    return some (fileSealWrite S calls buf).2

def picaRegConfig (calls : RegCalls) (picabody : Bytes) : Checked Registered := do
  let (entries, pinfo) ← env.extractPinfo picabody
  if entries = 0 then return .returned (-1) none
  match ← regConfig S env calls pinfo entries with
  | none => return .aborted
  | some written => return .returned 0 written

def pocRegister (calls : RegCalls) (picabody : Option Bytes) : Checked Registered := do
  let picabody ← env.readPicabody picabody
  picaRegConfig S env calls picabody

/-- The hash table after the configuration, or none when `main` ends. -/
def readConfiguration (calls : SealCalls) (wild : Checked Bytes) (rflag : Bool) : Checked (Option HashTable) :=
  if rflag then .ok (some HashTable.empty)
  else do
    let (entries, _, table) ← picaReadConfig calls murmurHash3 wild HashTable.empty
    return if entries = 0 then none else some table

def pocSetup (calls : SealCalls) (wild : Checked Bytes) (rflag : Bool) : Checked (Option PocSetup) := do
  match ← readConfiguration murmurHash3 calls wild rflag with
  | none => return none
  | some table =>
    let (rc, ppol, table) ← picaReadPolicy murmurHash3 env.parse env.staleStmt table env.policyFile PicaPolicy.zero
    if rc < 0 then return none
    match env.random with
    | none => return none
    | some nonce =>
      match env.reply with
      | none => return none
      | some measure => return some ⟨table, ppol, nonce, measure⟩

/-- `reading` and `writing` are the calls on the configuration file, `wild` is what reading through an unset pointer
gives; the fields of the environment for the plain file are not looked at. -/
def pocMain (reading : SealCalls) (wild : Checked Bytes) (writing : RegCalls) (rflag : Bool) : Checked PocOutcome := do
  match ← pocSetup murmurHash3 env reading wild rflag with
  | none => return .other .ended
  | some s =>
    let (verified, picabody) ← picaVerifyTpm2all sha256 env.client s.measure s.nonce
    if rflag then
      let r ← pocRegister S env writing picabody
      return .registered r
    else
      let outcome ← pocDecide murmurHash3 env s verified picabody
      return .other outcome

/-! ### The host -/

/-- A run of the enclave.  A host is what it answers to the calls on the configuration file, after it was asked to write
these bytes, one after the other, from the start of the file. -/
structure Use (PKey : Type) where
  env : PocEnv PKey
  host : List Bytes → SealCalls
  wild : Checked Bytes
  writing : RegCalls
  rflag : Bool

/-- The bytes that the host is asked to write.  A fault ends the enclave before it asks. -/
def written : Checked PocOutcome → List Bytes
  | .ok (.registered (.returned _ (some blob))) => [blob]
  | _ => []

def Use.outcome (log : List Bytes) (use : Use PKey) : Checked PocOutcome :=
  pocMain sha256 murmurHash3 S use.env (use.host log) use.wild use.writing use.rflag

/-- The state is what the host was asked to write so far. -/
def Use.run (log : List Bytes) (use : Use PKey) : Checked (Checked PocOutcome × List Bytes) :=
  .ok (use.outcome sha256 murmurHash3 S log, log ++ written (use.outcome sha256 murmurHash3 S log))

end

/-- The file of a host that keeps it: what is written lies over the start of what was there. -/
def fileOf (log : List Bytes) : Option Bytes :=
  if log = [] then none else some (log.foldl (fun file blob => overlay file blob blob.length) [])

/-- The memory of the enclave: which sizes `malloc` has, and what reading through an unset pointer gives. -/
structure Memory where
  mallocEnc : Nat → Bool
  mallocDec : Nat → Bool
  wild : Checked Bytes

/-- A read of the file that the host has kept. -/
def keptFile (S : Sealing) (mem : Memory) (log : List Bytes) : SealCalls where
  fileSize := (fileOf log).map List.length
  mallocEnc := mem.mallocEnc
  read := fun encSz => ((((fileOf log).getD []).take encSz).length, ((fileOf log).getD []).take encSz)
  sgxGetEncryptTxtLen := S.sgxGetEncryptTxtLen
  mallocDec := mem.mallocDec
  sgxUnsealData := S.sgxUnsealData

/-- The answers of any host: it returns what it likes, and the library opens it, but only to what the enclave has had
sealed. -/
structure Answers (S : Sealing) (log : List Bytes) (calls : SealCalls) : Prop where
  txtLen : calls.sgxGetEncryptTxtLen = S.sgxGetEncryptTxtLen
  unseals : calls.sgxUnsealData = S.sgxUnsealData
  unforged : ∀ encSz data, calls.fileSize = some encSz →
    S.sgxUnsealData (calls.read encSz).2 = .unsealed data → ∃ blob ∈ log, S.Seals data blob

variable {PKey : Type} {sha256 : Bytes → ByteBuf 32} {murmurHash3 : Bytes → UInt32} {S : Sealing} {env : PocEnv PKey}
  {ppol : PicaPolicy} {chain : List Procinfo} {log : List Bytes} {data blob : Bytes}

theorem Sealing.inj {data' : Bytes} (h : S.Seals data blob) (h' : S.Seals data' blob) : data = data' := by
  have hdata := (S.unsealed h []).symm.trans (S.unsealed h' [])
  cases hdata
  rfl

/-! ### Requests -/

section

variable {reading : SealCalls} {wild : Checked Bytes} {writing : RegCalls}

/-- Where the sealed bytes are opened, the run is that of the plain program on the plaintext. -/
theorem pocMain_of_unsealed (h : Unsealed reading data) :
    pocMain sha256 murmurHash3 S env reading wild writing false =
      PortableTlsRa.pocMain sha256 murmurHash3 (env.onFile (some data)) false >>= fun outcome =>
        .ok (.other outcome) := by
  have hconf : readConfiguration murmurHash3 reading wild false =
      PortableTlsRa.readConfiguration murmurHash3 (env.onFile (some data)) false := by
    have hread := picaReadConfig_of_unsealed h murmurHash3 env.heap wild HashTable.empty
    simp only [readConfiguration, PortableTlsRa.readConfiguration, PocEnv.onFile, fileRead, hread, Bool.false_eq_true,
      if_false, bind_assoc]
    rfl
  have hsetup : pocSetup murmurHash3 env reading wild false =
      PortableTlsRa.pocSetup murmurHash3 (env.onFile (some data)) false := by
    rw [pocSetup, hconf]
    rfl
  rw [pocMain, hsetup, PortableTlsRa.pocMain]
  cases PortableTlsRa.pocSetup murmurHash3 (env.onFile (some data)) false with
  | error e => rfl
  | ok s =>
    cases s with
    | none => rfl
    | some s =>
      simp only [ok_bind, bind_assoc]
      rfl

/-- A grant needs a configuration. -/
theorem readConfiguration_of_granted {pstmt : PicaStmt} {pinfo : List Procinfo} {ent : Int}
    (h : pocMain sha256 murmurHash3 S env reading wild writing false = .ok (.other (.granted pstmt pinfo ent))) :
    ∃ table, readConfiguration murmurHash3 reading wild false = .ok (some table) := by
  obtain ⟨s, hsetup, hmain⟩ := bind_eq_ok.1 h
  obtain ⟨conf, hconf, hpolicy⟩ := bind_eq_ok.1 hsetup
  cases conf with
  | some table => exact ⟨table, hconf⟩
  | none =>
    cases hpolicy
    cases hmain

/-- So the sealed bytes are opened, or what is decoded is read through the unset pointer. -/
theorem unsealed_of_granted {pstmt : PicaStmt} {pinfo : List Procinfo} {ent : Int}
    (h : pocMain sha256 murmurHash3 S env reading wild writing false = .ok (.other (.granted pstmt pinfo ent))) :
    (∃ data, Unsealed reading data) ∨ ∃ decSz, buildConfCall reading = some (.unset, decSz) := by
  by_contra hnot
  rw [not_or] at hnot
  obtain ⟨hsealed, hset⟩ := hnot
  obtain ⟨table, htable⟩ := readConfiguration_of_granted h
  cases hsize : reading.fileSize with
  | none =>
    have hcall : buildConfCall reading = none := by
      rw [buildConfCall, hsize]
      rfl
    simp only [readConfiguration, picaReadConfig, hcall] at htable
    cases htable
  | some encSz =>
    rcases call_of_failed hsize hsealed with hnull | hunset
    · simp only [readConfiguration, picaReadConfig, hnull] at htable
      cases htable
    · exact hset hunset

/-- A request whose read is opened to the configuration of some entries is granted as these say. -/
theorem granted_of_unsealed_iff (h : Measures sha256 env ppol chain) {entries : List Procinfo} (hfits : Fits entries)
    {stale : Nat → Stale} (hopened : Unsealed reading (confBytes stale entries)) {pstmt : PicaStmt}
    {pinfo : List Procinfo} {ent : Int} :
    pocMain sha256 murmurHash3 S env reading wild writing false = .ok (.other (.granted pstmt pinfo ent)) ↔
      pinfo = chain ∧ ent = chain.length ∧ (∀ p ∈ chain, AgreesWithFirst entries p) ∧
        PolicyAllows ppol chain pstmt := by
  have hholds : Holds (some (confBytes stale entries ++ [])) (some ⟨entries, 0⟩) :=
    @Holds.file stale ⟨entries, 0⟩ [] hfits rfl
  rw [List.append_nil] at hholds
  have hplain := @run_request PKey sha256 murmurHash3 env ppol chain h _ _ hholds pstmt pinfo ent
  simp only [Registry.Admits, Option.some.injEq, exists_eq_left', true_and] at hplain
  rw [← hplain, pocMain_of_unsealed hopened]
  constructor
  · intro hgranted
    obtain ⟨outcome, hmain, hret⟩ := bind_eq_ok.1 hgranted
    cases hret
    exact hmain
  · intro hgranted
    rw [hgranted]
    rfl

end

/-! ### Registrations -/

/-- There is memory, and the library seals. -/
structure SealWriteCalls.Seals (S : Sealing) (calls : SealWriteCalls) (data blob : Bytes) : Prop where
  memory : calls.malloc (S.sgxCalcSealedDataSize data.length) = true
  library : calls.sealed data = some blob
  seals : S.Seals data blob

theorem fileSealWrite_seals {calls : SealWriteCalls} (h : calls.Seals S data blob) (hsize : data.length < 2 ^ 32) :
    (fileSealWrite S calls data).2 = some blob := by
  have hmod : data.length % 2 ^ 32 = data.length := Nat.mod_eq_of_lt hsize
  simp only [fileSealWrite, hmod, h.memory, List.take_length, h.library, Bool.not_true, Bool.false_eq_true, if_false]

/-- A registration hands the sealed configuration of the measured chain to the host. -/
theorem pocMain_register (h : Measures sha256 env ppol chain) (hfits : Fits chain) (hsize : confSize chain < 2 ^ 32)
    {calls : SealWriteCalls} (hseals : calls.Seals S (confBytes env.staleConf chain) blob) (reading : SealCalls)
    (wild : Checked Bytes) :
    pocMain sha256 murmurHash3 S env reading wild (.seals calls) true =
      .ok (.registered (.returned 0 (some blob))) := by
  obtain ⟨nonce, measure, picabody, hrandom, hreply, hverify, hextract⟩ := h.reply
  have hconf : PortableTlsRa.readConfiguration murmurHash3 (env.onFile none) true = .ok (some HashTable.empty) := rfl
  obtain ⟨table, -, hplain⟩ := pocSetup_of_measures h.policy hrandom hreply hconf
  have hsetup : pocSetup murmurHash3 env reading wild true = .ok (some ⟨table, ppol, nonce, measure⟩) := hplain
  have hlength : (confBytes env.staleConf chain).length < 2 ^ 32 := by
    rw [confBytes_length]
    exact hsize
  have hwrite : regConfig S env (.seals calls) (some chain) chain.length = .ok (some (some blob)) := by
    rw [regConfig, regConfigBuffer_eq _ hfits.measured, if_pos hfits.libs,
      if_pos (Nat.lt_trans hfits.strings (by decide)), ok_bind, fileSealWrite_seals hseals hlength]
    rfl
  have hentries : (chain.length : Int) ≠ 0 := by
    have hpos := List.length_pos_of_ne_nil h.nonempty
    omega
  have hregister : pocRegister S env (.seals calls) (some picabody) = .ok (.returned 0 (some blob)) := by
    have hreg : picaRegConfig S env (.seals calls) picabody = .ok (.returned 0 (some blob)) := by
      rw [picaRegConfig, hextract, ok_bind]
      dsimp only
      rw [if_neg hentries, hwrite]
      rfl
    exact hreg
  rw [pocMain, hsetup, ok_bind]
  dsimp only
  rw [hverify, ok_bind]
  dsimp only
  rw [hregister]
  rfl

/-- A request does not write. -/
theorem written_request (reading : SealCalls) (wild : Checked Bytes) (writing : RegCalls) :
    written (pocMain sha256 murmurHash3 S env reading wild writing false) = [] := by
  rw [pocMain]
  cases pocSetup murmurHash3 env reading wild false with
  | error e => rfl
  | ok s =>
    cases s with
    | none => rfl
    | some s =>
      rw [ok_bind]
      dsimp only
      cases picaVerifyTpm2all sha256 env.client s.measure s.nonce with
      | error e => rfl
      | ok verified =>
        rw [ok_bind]
        cases pocDecide murmurHash3 env s verified.1 verified.2 <;> rfl

/-! ### Histories -/

/-- The chains that were registered, in order. -/
def after : List (List Procinfo) → Deed → List (List Procinfo)
  | chains, .register chain => chains ++ [chain]
  | chains, _ => chains

/-- A registration fits, and is sealed; nothing is said of a request, nor of what the host answers. -/
inductive Performs (sha256 : Bytes → ByteBuf 32) (S : Sealing) :
    List (List Procinfo) → Deed → Use PKey → Prop
  | register {chains : List (List Procinfo)} {use : Use PKey} {ppol : PicaPolicy} {chain : List Procinfo}
      {calls : SealWriteCalls} {blob : Bytes} :
      use.rflag = true → use.writing = .seals calls → Measures sha256 use.env ppol chain → Fits chain →
      confSize chain < 2 ^ 32 → calls.Seals S (confBytes use.env.staleConf chain) blob →
      Performs sha256 S chains (.register chain) use
  | request {chains : List (List Procinfo)} {use : Use PKey} {ppol : PicaPolicy} {chain : List Procinfo} :
      use.rflag = false → Performs sha256 S chains (.request ppol chain) use

/-- The blob is what the chain was sealed to. -/
def SealedTo (S : Sealing) (blob : Bytes) (chain : List Procinfo) : Prop :=
  Fits chain ∧ ∃ stale, S.Seals (confBytes stale chain) blob

/-- A registration is successful. -/
def Shows (_ : List (List Procinfo)) : Deed → Checked PocOutcome → Prop
  | .register _, outcome => ∃ blob, outcome = .ok (.registered (.returned 0 (some blob)))
  | _, _ => True

theorem foldl_after (chains : List (List Procinfo)) (deeds : List Deed) :
    deeds.foldl after chains = chains ++ registered deeds := by
  induction deeds generalizing chains with
  | nil => exact (List.append_nil chains).symm
  | cons deed deeds ih =>
    rw [List.foldl_cons, ih]
    cases deed with
    | register chain =>
      have hregistered : registered (.register chain :: deeds) = chain :: registered deeds := rfl
      rw [hregistered, after, List.append_assoc, List.singleton_append]
    | append entry => rfl
    | request ppol chain => rfl

/-- What the host was asked to write are the registered chains, sealed. -/
theorem uses_simulate (sha256 : Bytes → ByteBuf 32) (murmurHash3 : Bytes → UInt32) (S : Sealing) :
    Simulates (Use.run sha256 murmurHash3 S : List Bytes → Use PKey → _) after (Performs sha256 S) Shows
      (List.Forall₂ (SealedTo S)) where
  step := by
    intro log chains use deed hlog hperforms
    refine ⟨_, _, rfl, ?_⟩
    cases hperforms with
    | @register _ ppol chain calls blob hrflag hwriting hmeasures hfits hsize hseals =>
      have houtcome : use.outcome sha256 murmurHash3 S log = .ok (.registered (.returned 0 (some blob))) := by
        rw [Use.outcome, hrflag, hwriting]
        exact pocMain_register hmeasures hfits hsize hseals _ _
      rw [houtcome]
      refine ⟨⟨blob, rfl⟩, ?_⟩
      exact List.rel_append hlog (.cons ⟨hfits, _, hseals.seals⟩ .nil)
    | request hrflag =>
      have hwritten : written (use.outcome sha256 murmurHash3 S log) = [] := by
        rw [Use.outcome, hrflag]
        exact written_request _ _ _
      rw [hwritten, List.append_nil]
      exact ⟨trivial, hlog⟩

/-- After any history the host has been asked to write the registered chains, and nothing else. -/
theorem exists_log (murmurHash3 : Bytes → UInt32) {deeds : List Deed} {uses : List (Use PKey)}
    (huses : Along after (Performs sha256 S) [] deeds uses) :
    ∃ outcomes log, runAll (Use.run sha256 murmurHash3 S) [] uses = .ok (outcomes, log) ∧
      List.Forall₂ (SealedTo S) log (registered deeds) := by
  obtain ⟨outcomes, log, hrun, -, hlog⟩ := (uses_simulate sha256 murmurHash3 S).run List.Forall₂.nil huses
  rw [foldl_after, List.nil_append] at hlog
  exact ⟨outcomes, log, hrun, hlog⟩

/-! ### A host that keeps the file -/

/-- The size of the file after these registrations. -/
def fileSize (S : Sealing) (chains : List (List Procinfo)) : Nat :=
  (chains.map fun chain => S.sgxCalcSealedDataSize (confSize chain)).foldl max 0

theorem overlay_all (old data : Bytes) : overlay old data data.length = data ++ old.drop data.length := by
  rw [overlay, List.take_length]

theorem foldl_overlay_length (old : Bytes) (log : List Bytes) :
    (log.foldl (fun file blob => overlay file blob blob.length) old).length =
      (log.map List.length).foldl max old.length := by
  induction log generalizing old with
  | nil => rfl
  | cons blob log ih =>
    have hlength : (overlay old blob blob.length).length = max old.length blob.length := by
      rw [overlay_all, List.length_append, List.length_drop]
      omega
    rw [List.foldl_cons, ih, hlength]
    rfl

/-- The sealed chains have their sizes. -/
theorem map_length_of_sealed {chains : List (List Procinfo)} (h : List.Forall₂ (SealedTo S) log chains) :
    log.map List.length = chains.map fun chain => S.sgxCalcSealedDataSize (confSize chain) := by
  induction h with
  | nil => rfl
  | @cons blob chain log chains hblob _ ih =>
    obtain ⟨-, stale, hseals⟩ := hblob
    have hlength : blob.length = S.sgxCalcSealedDataSize (confSize chain) := by
      rw [S.length_eq hseals, confBytes_length]
      rfl
    rw [List.map_cons, List.map_cons, hlength, ih]

/-- The last chain that was registered stands at the start of the file. -/
theorem fileOf_of_sealed {chains : List (List Procinfo)} {last : List Procinfo}
    (h : List.Forall₂ (SealedTo S) log chains) (hlast : chains.getLast? = some last) :
    ∃ blob tail, fileOf log = some (blob ++ tail) ∧ (blob ++ tail).length = fileSize S chains ∧
      SealedTo S blob last := by
  obtain ⟨chains, rfl⟩ := List.getLast?_eq_some_iff.1 hlast
  have hcount := h.length_eq
  rw [List.length_append, List.length_singleton] at hcount
  rcases List.eq_nil_or_concat log with rfl | ⟨log, blob, rfl⟩
  · cases hcount
  rw [List.length_concat, Nat.add_right_cancel_iff] at hcount
  rw [List.concat_eq_append] at h ⊢
  have hdrop := List.forall₂_drop_append _ _ _ h
  rw [← hcount, List.drop_left] at hdrop
  let old := log.foldl (fun file blob => overlay file blob blob.length) []
  have hfold : (log ++ [blob]).foldl (fun file blob => overlay file blob blob.length) [] =
      blob ++ old.drop blob.length := by
    rw [List.foldl_append, List.foldl_cons, List.foldl_nil, overlay_all]
  refine ⟨blob, old.drop blob.length, ?_, ?_, (List.forall₂_cons.1 hdrop).1⟩
  · rw [fileOf, if_neg (List.append_ne_nil_of_right_ne_nil _ (List.cons_ne_nil _ _)), hfold]
  · rw [← hfold, foldl_overlay_length, map_length_of_sealed h]
    rfl

theorem unsealed_keptFile {chains : List (List Procinfo)} {last : List Procinfo} {mem : Memory}
    (h : List.Forall₂ (SealedTo S) log chains) (hlast : chains.getLast? = some last)
    (henc : mem.mallocEnc (fileSize S chains) = true) (hdec : mem.mallocDec (confSize last) = true) :
    Fits last ∧ ∃ stale, Unsealed (keptFile S mem log) (confBytes stale last) := by
  obtain ⟨blob, tail, hfile, hsize, hfits, stale, hseals⟩ := fileOf_of_sealed h hlast
  have hread : (keptFile S mem log).read (blob ++ tail).length = ((blob ++ tail).length, blob ++ tail) := by
    simp only [keptFile, hfile, Option.getD_some, List.take_length]
  refine ⟨hfits, stale, (blob ++ tail).length, blob ++ tail, ?_, ?_, hread, ?_, S.unsealed hseals tail⟩
  · rw [keptFile, hfile]
    rfl
  · rw [hsize]
    exact henc
  · have hlength : S.sgxGetEncryptTxtLen (blob ++ tail) = confSize last := by
      rw [S.txtLen hseals, confBytes_length]
      rfl
    have hsame : (keptFile S mem log).mallocDec (S.sgxGetEncryptTxtLen (blob ++ tail)) = true := by
      rw [hlength]
      exact hdec
    exact hsame

/-! ### A library that does not encrypt -/

section

variable {front size middle text : Bytes}

theorem drop_clear (hfront : front.length = 528) (hsize : size.length = 4) (hmiddle : middle.length = 28)
    (tail : Bytes) :
    ((front ++ size ++ middle ++ text ++ tail).drop 528).take 4 = size ∧
      (front ++ size ++ middle ++ text ++ tail).drop 560 = text ++ tail := by
  have hall : front ++ size ++ middle ++ text ++ tail = front ++ (size ++ (middle ++ text ++ tail)) := by
    simp only [List.append_assoc]
  have hhead : front ++ size ++ middle ++ text ++ tail = (front ++ size ++ middle) ++ (text ++ tail) := by
    simp only [List.append_assoc]
  constructor
  · rw [hall, ← hfront, List.drop_left, ← hsize, List.take_left]
  · have hlength : (front ++ size ++ middle).length = 560 := by
      rw [List.length_append, List.length_append, hfront, hsize, hmiddle]
    rw [hhead, ← hlength, List.drop_left]

end

/-- The layout of sealed data: the size of the text stands behind 528 bytes, and the text behind 560. -/
def clearBlob (data : Bytes) : Bytes :=
  List.replicate 528 0 ++ toLittleEndian 4 data.length ++ List.replicate 28 0 ++ data

theorem clearBlob_drop (data tail : Bytes) :
    ((clearBlob data ++ tail).drop 528).take 4 = toLittleEndian 4 data.length ∧
      (clearBlob data ++ tail).drop 560 = data ++ tail :=
  drop_clear List.length_replicate (toLittleEndian_length 4 data.length) List.length_replicate tail

def clearSealing : Sealing where
  sgxCalcSealedDataSize := fun n => 560 + n
  Seals := fun data blob => data.length < 2 ^ 32 ∧ blob = clearBlob data
  sgxGetEncryptTxtLen := fun blob => ofLittleEndian ((blob.drop 528).take 4)
  sgxUnsealData := fun blob =>
    let size := ofLittleEndian ((blob.drop 528).take 4)
    if size ≤ (blob.drop 560).length then .unsealed ((blob.drop 560).take size) else .failed size
  length_eq := by
    rintro data _ ⟨-, rfl⟩
    rw [clearBlob, List.length_append, List.length_append, List.length_append, List.length_replicate,
      List.length_replicate, toLittleEndian_length]
  txtLen := by
    rintro data _ ⟨hsize, rfl⟩ tail
    rw [(clearBlob_drop data tail).1, ofLittleEndian_toLittleEndian hsize]
  unsealed := by
    rintro data _ ⟨hsize, rfl⟩ tail
    dsimp only
    rw [(clearBlob_drop data tail).1, (clearBlob_drop data tail).2, ofLittleEndian_toLittleEndian hsize, if_pos,
      List.take_left]
    rw [List.length_append]
    exact Nat.le_add_right _ _

/-- On a host that keeps the file the last registration decides. -/
theorem sealed_request_iff (sha256 : Bytes → ByteBuf 32) (murmurHash3 : Bytes → UInt32) (S : Sealing)
    {deeds : List Deed} {uses : List (Use PKey)} {ppol : PicaPolicy} {chain last : List Procinfo} {env : PocEnv PKey}
    {mem : Memory} (huses : Along after (Performs sha256 S) [] deeds uses)
    (hlast : (registered deeds).getLast? = some last) (henc : mem.mallocEnc (fileSize S (registered deeds)) = true)
    (hdec : mem.mallocDec (confSize last) = true) (h : Measures sha256 env ppol chain) :
    ∃ outcomes log, runAll (Use.run sha256 murmurHash3 S) [] uses = .ok (outcomes, log) ∧ ∀ pstmt pinfo ent,
      pocMain sha256 murmurHash3 S env (keptFile S mem log) mem.wild .openFails false =
          .ok (.other (.granted pstmt pinfo ent)) ↔
        pinfo = chain ∧ ent = chain.length ∧ (∀ p ∈ chain, AgreesWithFirst last p) ∧
          PolicyAllows ppol chain pstmt := by
  obtain ⟨outcomes, log, hrun, hlog⟩ := @exists_log PKey sha256 S murmurHash3 deeds uses huses
  obtain ⟨hfits, stale, hopened⟩ := unsealed_keptFile hlog hlast henc hdec
  exact ⟨outcomes, log, hrun, fun _ _ _ => granted_of_unsealed_iff h hfits hopened⟩

/-! ### A host that does not -/

/-- What the host returns when it has kept all blobs and chooses one. -/
def chosenBlob (S : Sealing) (blob : Bytes) : SealCalls where
  fileSize := some blob.length
  mallocEnc := fun _ => true
  read := fun _ => (blob.length, blob)
  sgxGetEncryptTxtLen := S.sgxGetEncryptTxtLen
  mallocDec := fun _ => true
  sgxUnsealData := S.sgxUnsealData

theorem unsealed_chosenBlob (h : S.Seals data blob) : Unsealed (chosenBlob S blob) data := by
  have hopened := S.unsealed h []
  rw [List.append_nil] at hopened
  exact ⟨blob.length, blob, rfl, rfl, rfl, rfl, hopened⟩

/-- Every blob is one of the chains, and every chain one of the blobs. -/
theorem exists_of_mem_sealed {chains : List (List Procinfo)} (h : List.Forall₂ (SealedTo S) log chains) :
    (∀ blob ∈ log, ∃ chain ∈ chains, SealedTo S blob chain) ∧
      ∀ chain ∈ chains, ∃ blob ∈ log, SealedTo S blob chain := by
  induction h with
  | nil => simp
  | @cons blob chain _ _ hblob _ ih =>
    constructor
    · rw [List.forall_mem_cons]
      refine ⟨⟨chain, List.mem_cons_self .., hblob⟩, fun other hother => ?_⟩
      obtain ⟨chain', hchain', hsealed⟩ := ih.1 other hother
      exact ⟨chain', List.mem_cons_of_mem _ hchain', hsealed⟩
    · rw [List.forall_mem_cons]
      refine ⟨⟨blob, List.mem_cons_self .., hblob⟩, fun other hother => ?_⟩
      obtain ⟨blob', hblob', hsealed⟩ := ih.2 other hother
      exact ⟨blob', List.mem_cons_of_mem _ hblob', hsealed⟩

/-- Any host can get exactly those chains granted that one of the registrations allows, if the enclave does not read
through the unset pointer. -/
theorem hostile_request_iff (sha256 : Bytes → ByteBuf 32) (murmurHash3 : Bytes → UInt32) (S : Sealing)
    {deeds : List Deed} {uses : List (Use PKey)} {ppol : PicaPolicy} {chain : List Procinfo} {env : PocEnv PKey}
    (huses : Along after (Performs sha256 S) [] deeds uses) (h : Measures sha256 env ppol chain) :
    ∃ outcomes log, runAll (Use.run sha256 murmurHash3 S) [] uses = .ok (outcomes, log) ∧ ∀ pstmt pinfo ent,
      (∃ reading wild, Answers S log reading ∧ (∀ decSz, buildConfCall reading ≠ some (.unset, decSz)) ∧
          pocMain sha256 murmurHash3 S env reading wild .openFails false =
            .ok (.other (.granted pstmt pinfo ent))) ↔
        pinfo = chain ∧ ent = chain.length ∧
          (∃ earlier ∈ registered deeds, ∀ p ∈ chain, AgreesWithFirst earlier p) ∧
          PolicyAllows ppol chain pstmt := by
  obtain ⟨outcomes, log, hrun, hlog⟩ := @exists_log PKey sha256 S murmurHash3 deeds uses huses
  refine ⟨outcomes, log, hrun, fun pstmt pinfo ent => ?_⟩
  constructor
  · rintro ⟨reading, wild, hanswers, hset, hgranted⟩
    rcases unsealed_of_granted hgranted with ⟨data, hopened⟩ | ⟨decSz, hunset⟩
    · have hdata := hopened
      obtain ⟨encSz, encp, hsize, -, hread, -, hunseals⟩ := hdata
      rw [hanswers.unseals] at hunseals
      obtain ⟨blob, hblob, hseals⟩ := hanswers.unforged encSz data hsize (by rw [hread]; exact hunseals)
      obtain ⟨earlier, hearlier, hfits, stale, hsealed⟩ := (exists_of_mem_sealed hlog).1 blob hblob
      obtain rfl := S.inj hseals hsealed
      obtain ⟨hpinfo, hent, hagree, hallows⟩ := (granted_of_unsealed_iff h hfits hopened).1 hgranted
      exact ⟨hpinfo, hent, ⟨earlier, hearlier, hagree⟩, hallows⟩
    · exact absurd hunset (hset decSz)
  · rintro ⟨hpinfo, hent, ⟨earlier, hearlier, hagree⟩, hallows⟩
    obtain ⟨blob, hblob, hfits, stale, hseals⟩ := (exists_of_mem_sealed hlog).2 earlier hearlier
    have hopened := unsealed_chosenBlob hseals
    refine ⟨chosenBlob S blob, .error .nullPointer, ⟨rfl, rfl, ?_⟩, ?_,
      (granted_of_unsealed_iff h hfits hopened).2 ⟨hpinfo, hent, hagree, hallows⟩⟩
    · intro encSz data hsize hunseals
      have hdata : S.sgxUnsealData blob = .unsealed data := hunseals
      have hopened' := S.unsealed hseals []
      rw [List.append_nil, hdata] at hopened'
      cases hopened'
      exact ⟨blob, hblob, hseals⟩
    · intro decSz hunset
      rw [hopened.call] at hunset
      cases hunset

/-! ### The chain of a browser -/

/-- A browser, process 30, that the editor has started. -/
def browserTable (pid : Int) : Measurement :=
  if pid = 30 then
    PortableTlsRa.measured (cstr "/bin/lynx") 20
      [(cstr "/lib/libc.so", ByteBuf.zero 32), (cstr "/lib/libz.so", ByteBuf.zero 32)]
  else editorTable pid

theorem browserTable_of_ne {pid : Int} (hpid : pid ≠ 30) : browserTable pid = editorTable pid := if_neg hpid

theorem browserTable_measurable : ∀ p ∈ [(30 : Int), 20, 10], (browserTable p).Measurable p := by
  rw [List.forall_mem_cons]
  refine ⟨⟨by decide, ⟨20, rfl, by decide⟩, rfl, by decide, by decide, by decide⟩, fun p hp => ?_⟩
  have hpid : p ≠ 30 := by
    rcases List.mem_pair.1 hp with rfl | rfl <;> decide
  rw [browserTable_of_ne hpid]
  exact editorTable_measurable p hp

theorem shell_chain : AncestorChain browserTable 10 [10] := .last rfl

theorem editor_chain : AncestorChain browserTable 20 [20, 10] := .parent rfl (by decide) shell_chain

theorem browser_chain : AncestorChain browserTable 30 [30, 20, 10] := .parent rfl (by decide) editor_chain

/-- What is measured for these processes. -/
def chainOf (pids : List Int) : List Procinfo := pids.reverse.map fun p => (browserTable p).procinfo p

/-- A run that gets what was measured for the processes. -/
def chainUse (pids : List Int) : PocEnv Unit :=
  editorRun plainClient "Allow"
    (honestPayload Sha256.hash plainDaemon (ByteBuf.zero 32) (Cbor.encode (packedChain browserTable pids)))

section

variable {pid : Int} {pids : List Int}

theorem chainUse_measures (hchain : AncestorChain browserTable pid pids) (hpids : pids ⊆ [30, 20, 10])
    (hpica : (Cbor.encode (packedChain browserTable pids)).length < 2 ^ 64) :
    Measures Sha256.hash (chainUse pids) (editorPolicy "Allow") (chainOf pids) := by
  have hmeasurable : ∀ p ∈ pids, (browserTable p).Measurable p := fun p hp => browserTable_measurable p (hpids hp)
  have hpacks : Packs { Tpmdaemon.workingDaemon with procchain := some (Cbor.encode (packedChain browserTable pids)) }
      browserTable pid pids (Cbor.encode (packedChain browserTable pids)) :=
    ⟨hchain, hmeasurable, ⟨_, 0, le_refl _, mycborPackProcchain_chain hchain hmeasurable (le_refl _) 0⟩, rfl⟩
  exact measures_of_packs hpacks plain_honest ⟨editorDaemon_madeBy.quote, rfl⟩ hpica
    (editorRun_policyRead plainClient "Allow" _) rfl rfl

/-- A registration of the processes. -/
def chainRegistered (pids : List Int) : Use Unit where
  env := chainUse pids
  host := fun _ => tamperedFile
  wild := .error .nullPointer
  writing := .seals ⟨fun _ => true, fun data => some (clearBlob data), 560 + confSize (chainOf pids)⟩
  rflag := true

theorem chainRegistered_performs {chains : List (List Procinfo)} (hchain : AncestorChain browserTable pid pids)
    (hpids : pids ⊆ [30, 20, 10]) (hpica : (Cbor.encode (packedChain browserTable pids)).length < 2 ^ 64)
    (hfits : Fits (chainOf pids)) (hsize : confSize (chainOf pids) < 2 ^ 32) :
    Performs Sha256.hash clearSealing chains (.register (chainOf pids)) (chainRegistered pids) := by
  refine .register rfl rfl (chainUse_measures hchain hpids hpica) hfits hsize ⟨rfl, rfl, ?_, rfl⟩
  rw [confBytes_length]
  exact hsize

theorem chainOf_measured (hpids : pids ⊆ [30, 20, 10]) : ∀ p ∈ chainOf pids, p.Measured := by
  intro p hp
  obtain ⟨q, hq, rfl⟩ := List.mem_map.1 hp
  exact (browserTable_measurable q (hpids (List.mem_reverse.1 hq))).measured

end

/-- The browser is registered, which is three processes, and then the last of these. -/
theorem registrations_perform {pid : Int} {pids : List Int} (hchain : AncestorChain browserTable pid pids)
    (hpids : pids ⊆ [30, 20, 10]) (hpica : (Cbor.encode (packedChain browserTable pids)).length < 2 ^ 64)
    (hfits : Fits (chainOf pids)) (hsize : confSize (chainOf pids) < 2 ^ 32) :
    Along after (Performs Sha256.hash clearSealing) [] [.register (chainOf [30, 20, 10]), .register (chainOf pids)]
      [chainRegistered [30, 20, 10], chainRegistered pids] :=
  .cons (chainRegistered_performs browser_chain (List.Subset.refl _) (by decide +kernel)
    ⟨chainOf_measured (List.Subset.refl _), by decide, by decide, by decide⟩ (by decide))
    (.cons (chainRegistered_performs hchain hpids hpica hfits hsize) .nil)

/-- The editor is registered over the longer chain of the browser, and asks. -/
theorem sealed_request_editor :
    ∃ outcomes log, runAll (Use.run Sha256.hash (fun _ => 0) clearSealing) []
          [chainRegistered [30, 20, 10], chainRegistered [20, 10]] = .ok (outcomes, log) ∧ ∀ pstmt pinfo ent,
      pocMain Sha256.hash (fun _ => 0) clearSealing (editorUse "Allow")
          (keptFile clearSealing ⟨fun _ => true, fun _ => true, .error .nullPointer⟩ log) (.error .nullPointer)
          .openFails false = .ok (.other (.granted pstmt pinfo ent)) ↔
        pinfo = editorChain ∧ ent = editorChain.length ∧ (∀ p ∈ editorChain, AgreesWithFirst (chainOf [20, 10]) p) ∧
          PolicyAllows (editorPolicy "Allow") editorChain pstmt :=
  @sealed_request_iff Unit Sha256.hash (fun _ => 0) clearSealing
    [.register (chainOf [30, 20, 10]), .register (chainOf [20, 10])]
    [chainRegistered [30, 20, 10], chainRegistered [20, 10]] (editorPolicy "Allow") editorChain (chainOf [20, 10])
    (editorUse "Allow") ⟨fun _ => true, fun _ => true, .error .nullPointer⟩
    (registrations_perform editor_chain (by decide) (by decide +kernel)
      ⟨chainOf_measured (by decide), by decide, by decide, by decide⟩ (by decide))
    rfl rfl rfl (editorUse_measures "Allow")

/-- After the browser only the shell is registered.  What a host can get granted to the editor is what the first
registration allows. -/
theorem hostile_request_editor :
    ∃ outcomes log, runAll (Use.run Sha256.hash (fun _ => 0) clearSealing) []
          [chainRegistered [30, 20, 10], chainRegistered [10]] = .ok (outcomes, log) ∧ ∀ pstmt pinfo ent,
      (∃ reading wild, Answers clearSealing log reading ∧ (∀ decSz, buildConfCall reading ≠ some (.unset, decSz)) ∧
          pocMain Sha256.hash (fun _ => 0) clearSealing (editorUse "Allow") reading wild .openFails false =
            .ok (.other (.granted pstmt pinfo ent))) ↔
        pinfo = editorChain ∧ ent = editorChain.length ∧
          (∃ earlier ∈ registered [.register (chainOf [30, 20, 10]), .register (chainOf [10])],
            ∀ p ∈ editorChain, AgreesWithFirst earlier p) ∧
          PolicyAllows (editorPolicy "Allow") editorChain pstmt :=
  @hostile_request_iff Unit Sha256.hash (fun _ => 0) clearSealing
    [.register (chainOf [30, 20, 10]), .register (chainOf [10])]
    [chainRegistered [30, 20, 10], chainRegistered [10]] (editorPolicy "Allow") editorChain (editorUse "Allow")
    (registrations_perform shell_chain (by decide) (by decide +kernel)
      ⟨chainOf_measured (by decide), by decide, by decide, by decide⟩ (by decide))
    (editorUse_measures "Allow")

end Tee

end PortableTlsRa
