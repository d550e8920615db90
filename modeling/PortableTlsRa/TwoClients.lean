import PortableTlsRa.PicaSgx
import PortableTlsRa.RegistryRuns

/-!
# The two clients on the replies of an honest daemon

The client on the host and the client in the enclave decode a reply with loops of their own, and compare the nonce that
they have sent in two different wrong ways.  On what an honest daemon with a recognised TPM has ever sent, to whomever
and for whatever nonce, they come to the same decisions: both grant what the configuration and the policy allow
(`clients_agree_iff`), so that neither tells an old reply from a new one.
-/

namespace PortableTlsRa

namespace PicaSgx

open CSem Cbor

variable {PKey : Type} {sha256 : Bytes → ByteBuf 32} {murmurHash3 : Bytes → UInt32} {sgx : SgxEnv PKey}
  {daemon : DaemonEnv} {client : ClientEnv PKey} {key : PKey} {regAtst : TpmsAttest} {nonce : ByteBuf 32}
  {pica : Bytes}

/-- The client in the enclave is given what the client on the host is given: the libraries, the key of the TPM and the
registered quote. -/
structure SameGiven (sgx : SgxEnv PKey) (client : ClientEnv PKey) (key : PKey) (regAtst : TpmsAttest) : Prop where
  cbor : sgx.cbor = client.cbor
  tss2 : sgx.tss2 = client.tss2
  verifyCalls : sgx.verifyCalls key = client.verifyCalls (some key)
  akKey : ∃ buf, sgx.akPub = some buf ∧ sgx.pemKey buf = some key
  regQuote : ∃ serQt, sgx.regQuote = some serQt ∧ IsQuote sgx.tss2 serQt sgx.regAtst regAtst

/-! ### The bundle -/

theorem bundleTurn_quote {b : Bundle} {data : Bytes} (h : data.length < 2 ^ 31) :
    bundleTurn sgx b (.text (lit "quote"), .bytes data) = .ok (.next { b with sQuote := some data }) := by
  simp [bundleTurn, Item.isString, Item.stringBytes, Libcbor.bytestring, intSized_of_lt h]

theorem bundleTurn_sign {b : Bundle} {data : Bytes} (h : data.length < 2 ^ 31) :
    bundleTurn sgx b (.text (lit "sign"), .bytes data) =
      .ok (.next { b with tpmSig := (sgx.tss2.unmarshalSignature data b.tpmSig).2 }) := by
  have hother : strncmpEq (lit "quote") (lit "sign") = false := by decide
  simp [bundleTurn, Item.isString, Item.stringBytes, Libcbor.bytestring, intSized_of_lt h, hother]

theorem bundleTurn_appHash {b : Bundle} (data : ByteBuf 32) :
    bundleTurn sgx b (.text (lit "app-hash"), .bytes data.1) = .ok (.next { b with qdata := data }) := by
  have hquote : strncmpEq (lit "quote") (lit "app-hash") = false := by decide
  have hsign : strncmpEq (lit "sign") (lit "app-hash") = false := by decide
  simp [bundleTurn, Item.isString, Item.stringBytes, Libcbor.bytestring, intSized_of_lt, data.2, hquote, hsign,
    memcpy_of_length]

/-- The loop over the bundle of an honest daemon. -/
theorem bundleLoop_honest (sgx : SgxEnv PKey) (sha256 : Bytes → ByteBuf 32) (daemon : DaemonEnv) (nonce : ByteBuf 32)
    (pica : Bytes) (qdata : ByteBuf 32) :
    forEach (bundleTurn sgx) ⟨none, sgx.tpmSig, qdata⟩ (honestBundle sha256 daemon nonce pica) =
      .ok (.next ⟨some (daemon.makeTpm2Quote (extendedHash sha256 pica nonce)).2.quote.1,
        (sgx.tss2.unmarshalSignature (daemon.makeTpm2Quote (extendedHash sha256 pica nonce)).2.sign.1 sgx.tpmSig).2,
        sha256 pica⟩) := by
  have hquote := (daemon.makeTpm2Quote (extendedHash sha256 pica nonce)).2.quote.2
  have hsign := (daemon.makeTpm2Quote (extendedHash sha256 pica nonce)).2.sign.2
  simp only [honestBundle, quoteBundle, addCborMap, List.nil_append, List.cons_append]
  rw [forEach_cons_of_next (bundleTurn_quote (by omega)), forEach_cons_of_next (bundleTurn_sign (by omega)),
    forEach_cons_of_next (bundleTurn_appHash _)]
  rfl

/-- The quote of an honest daemon passes, whatever its extra data is compared with later. -/
theorem quotePasses_honest (honest : RsaAttester daemon client key regAtst)
    (hsame : SameGiven sgx client key regAtst) (d : ByteBuf 32) :
    ∃ atst, QuotePasses sgx key (daemon.makeTpm2Quote d).2.quote.1
      (sgx.tss2.unmarshalSignature (daemon.makeTpm2Quote d).2.sign.1 sgx.tpmSig).2 atst := by
  obtain ⟨sig, hsig, hgenuine⟩ := honest.sign d sgx.tpmSig
  obtain ⟨atst, hquote, -, hselects⟩ := honest.quote d sgx.tpmAtst
  obtain ⟨serQt, hserQt, hreg⟩ := hsame.regQuote
  have halg := honest.rsa d sgx.tpmSig
  rw [← hsame.tss2] at hsig hquote halg
  rw [← hsame.verifyCalls] at hgenuine
  rw [hsig] at halg
  refine ⟨atst, ?_, hquote, serQt, regAtst, hserQt, hreg, hselects⟩
  rw [hsig]
  exact (signatureAccepted_iff.1 ⟨hgenuine, halg⟩).1

theorem bundlePasses_honest (honest : RsaAttester daemon client key regAtst)
    (hsame : SameGiven sgx client key regAtst) (sha256 : Bytes → ByteBuf 32) (nonce : ByteBuf 32) (pica : Bytes) :
    ∃ qdata udata, BundlePasses sgx (.bytes (daemon.serialize (.map true (honestBundle sha256 daemon nonce pica))))
      (ByteBuf.zero 32) sgx.udata qdata udata := by
  have hload : sgx.cbor.load (daemon.serialize (.map true (honestBundle sha256 daemon nonce pica))) =
      some (.map true (honestBundle sha256 daemon nonce pica)) := by
    rw [hsame.cbor]
    exact honest.load _ (serializable_quoteBundle _ _)
  have hread : BundleRead sgx (.bytes (daemon.serialize (.map true (honestBundle sha256 daemon nonce pica))))
      (ByteBuf.zero 32) _ :=
    ⟨true, _, hload, rfl, bundleLoop_honest sgx sha256 daemon nonce pica (ByteBuf.zero 32)⟩
  obtain ⟨buf, hbuf, hkey⟩ := hsame.akKey
  obtain ⟨atst, hpasses⟩ := quotePasses_honest honest hsame (extendedHash sha256 pica nonce)
  exact ⟨_, _, .checked hread rfl hbuf hkey hpasses⟩

/-! ### The reply -/

theorem replyParts_honest (honest : RsaAttester daemon client key regAtst)
    (hsame : SameGiven sgx client key regAtst) (hpica : pica.length < 2 ^ 64) (sha256 : Bytes → ByteBuf 32)
    (nonce : ByteBuf 32) :
    ReplyParts sgx (honestPayload sha256 daemon nonce pica)
      (.bytes (daemon.serialize (.map true (honestBundle sha256 daemon nonce pica)))) (.bytes pica) := by
  have hle : (daemon.serialize (.map true (honestBundle sha256 daemon nonce pica))).length ≤ 2048 :=
    honest.bundle_le _ _
  refine ⟨true, .text (lit "tpm2_quote"), .text (lit "pica"), _, ?_, ⟨rfl, by decide⟩, ⟨rfl, by decide, by decide⟩,
    .inl rfl⟩
  rw [hsame.cbor]
  exact honest.load _ (serializable_replyMap _ (by omega) hpica)

/-- A reply of an honest daemon is granted exactly if the checks on its chain pass, whatever nonce it was made for. -/
theorem clientMain_honest_iff (honest : RsaAttester daemon client key regAtst)
    (hsame : SameGiven sgx client key regAtst) (hpica : pica.length < 2 ^ 64) {nonce' : ByteBuf 32} {pstmt : PicaStmt}
    {pinfo : List Procinfo} {ent : Int} :
    clientMain sha256 murmurHash3 sgx nonce (honestPayload sha256 daemon nonce' pica) =
        .ok (.granted pstmt pinfo ent) ↔
      handlePica sgx (.bytes pica) = .ok (ent, some pinfo) ∧
        ChecksPass murmurHash3 sgx.table sgx.ppol 0 pstmt pinfo ent := by
  have hparts := replyParts_honest honest hsame hpica sha256 nonce'
  rw [clientMain_granted_iff]
  constructor
  · rintro ⟨bundle, chain, pica', ⟨hparts', -, hhandle, hchecks⟩, -⟩
    obtain ⟨-, rfl⟩ := hparts.unique hparts'
    exact ⟨hhandle, hchecks⟩
  · rintro ⟨hhandle, hchecks⟩
    exact ⟨_, _, pica, ⟨hparts, rfl, hhandle, hchecks⟩, bundlePasses_honest honest hsame sha256 nonce' pica⟩

/-! ### Both clients -/

/-- The enclave has registered the entries of the configuration, and then the statements of the policy. -/
structure Configured (murmurHash3 : Bytes → UInt32) (sgx : SgxEnv PKey) (entries : List Procinfo)
    (ppol : PicaPolicy) : Prop where
  table : ∃ table, registerAll murmurHash3 HashTable.empty (confRegistrations entries) = .ok table ∧
    registerAll murmurHash3 table (policyRegistrations ppol.stmt) = .ok sgx.table
  ppol : sgx.ppol = ppol

/-- The checks of the enclave on a measured chain. -/
theorem Configured.checksPass_iff {entries : List Procinfo} {ppol : PicaPolicy} {pstmt : PicaStmt}
    {chain : List Procinfo} (h : Configured murmurHash3 sgx entries ppol) (hchain : ∀ p ∈ chain, p.Measured) :
    ChecksPass murmurHash3 sgx.table sgx.ppol 0 pstmt chain chain.length ↔
      (∀ p ∈ chain, AgreesWithFirst entries p) ∧ PolicyAllows ppol chain pstmt := by
  obtain ⟨table, htable, htable'⟩ := h.table
  rw [h.ppol, checksPass_zero_iff (show VerifyFlag.tpm2Fresh ||| VerifyFlag.tpm2Quote < 4 by decide)]
  exact PortableTlsRa.checksPass_iff hchain htable htable'

/-! ### An old reply for the editor -/

/-- A nonce that the client has not sent. -/
def otherNonce : ByteBuf 32 := ⟨List.replicate 32 7, List.length_replicate⟩

/-- The reply to it, with the editor and its shell. -/
def oldReply (sha256 : Bytes → ByteBuf 32) : Bytes :=
  honestPayload sha256 plainDaemon otherNonce (encode (packedChain editorTable [20, 10]))

theorem editorRun_oldReply (sha256 : Bytes → ByteBuf 32) :
    (editorRun plainClient "Allow" (oldReply sha256)).reply =
      some (honestPayload sha256 plainDaemon otherNonce (encode (packedChain editorTable [20, 10]))) := rfl

theorem editorFile_holds : Holds (some (confBytes (fun _ => ⟨0, 0, 0⟩) editorChain)) (some ⟨editorChain, 0⟩) := by
  have h := @Holds.file (fun _ => ⟨0, 0, 0⟩) ⟨editorChain, 0⟩ [] editorChain_fits rfl
  rwa [List.append_nil] at h

/-- The table after the registrations. -/
def tableAfter (murmurHash3 : Bytes → UInt32) (table : HashTable) (regs : List (HashAddr × Option CString)) :
    HashTable :=
  (registerAll murmurHash3 table regs).toOption.getD HashTable.empty

theorem registerAll_tableAfter {table : HashTable} {regs : List (HashAddr × Option CString)}
    (h : ∃ table', registerAll murmurHash3 table regs = .ok table') :
    registerAll murmurHash3 table regs = .ok (tableAfter murmurHash3 table regs) := by
  obtain ⟨table', htable⟩ := h
  rw [tableAfter, htable]
  rfl

/-- The enclave of the editor with the files of the client on the host. -/
def editorSgx (murmurHash3 : Bytes → UInt32) : SgxEnv Unit :=
  { editorEnclave murmurHash3 with
    tss2 := plainTss2
    pemKey := fun _ => some ()
    verifyCalls := fun key => plainClient.verifyCalls (some key)
    akPub := some [0]
    regQuote := some (List.replicate 32 0)
    table := tableAfter murmurHash3 (editorConfigured murmurHash3) (policyRegistrations (editorPolicy "Allow").stmt)
    ppol := editorPolicy "Allow" }

theorem editorSgx_sameGiven (murmurHash3 : Bytes → UInt32) :
    SameGiven (editorSgx murmurHash3) plainClient () (quoteOfPcr10 []) where
  cbor := rfl
  tss2 := rfl
  verifyCalls := rfl
  akKey := ⟨[0], rfl, rfl⟩
  regQuote := by
    obtain ⟨size, data, hfile, -, -, hquote⟩ := plain_honest.regQuote
    cases hfile
    exact ⟨_, rfl, hquote⟩

theorem editorSgx_configured (murmurHash3 : Bytes → UInt32) :
    Configured murmurHash3 (editorSgx murmurHash3) editorChain (editorPolicy "Allow") where
  table := by
    have hpolicy : ∃ table', registerAll murmurHash3 (editorConfigured murmurHash3)
        (policyRegistrations (editorPolicy "Allow").stmt) = .ok table' := registerAll_defined_iff.2 (by decide)
    refine ⟨editorConfigured murmurHash3, registerAll_editorConfigured murmurHash3, ?_⟩
    dsimp only [editorSgx]
    exact registerAll_tableAfter hpolicy
  ppol := rfl

/-- Both clients grant what an honest daemon has measured exactly if the programs agree with the configuration and the
policy allows the chain, be the reply for their nonce or for any other. -/
theorem clients_agree_iff (sha256 : Bytes → ByteBuf 32) (murmurHash3 : Bytes → UInt32) {env : PocEnv PKey}
    {sgx : SgxEnv PKey} {renv : Tpmdaemon.RequestEnv} {daemon : DaemonEnv} {key : PKey} {regAtst : TpmsAttest}
    {table : Int → Measurement} {pid : Int} {pids : List Int} {pica : Bytes} {nonce nonce' : ByteBuf 32}
    {ppol : PicaPolicy} {entries chain : List Procinfo} {file : Option Bytes}
    (honest : RsaAttester daemon env.client key regAtst) (hmade : MadeBy renv daemon)
    (hpacks : Packs renv table pid pids pica) (hpica : pica.length < 2 ^ 64) (hpolicy : PolicyRead env ppol)
    (hrandom : env.random = some nonce) (hreply : env.reply = some (honestPayload sha256 daemon nonce' pica))
    (hfile : Holds file (some ⟨entries, 0⟩)) (hsame : SameGiven sgx env.client key regAtst)
    (hconfigured : Configured murmurHash3 sgx entries ppol)
    (hchain : chain = pids.reverse.map fun p => (table p).procinfo p) (pstmt : PicaStmt) (pinfo : List Procinfo)
    (ent : Int) :
    (pocMain sha256 murmurHash3 (env.onFile file) false = .ok (.granted pstmt pinfo ent) ↔
      pinfo = chain ∧ ent = chain.length ∧ (∀ p ∈ chain, AgreesWithFirst entries p) ∧ PolicyAllows ppol chain pstmt) ∧
    (clientMain sha256 murmurHash3 sgx nonce (honestPayload sha256 daemon nonce' pica) =
        .ok (.granted pstmt pinfo ent) ↔
      pinfo = chain ∧ ent = chain.length ∧ (∀ p ∈ chain, AgreesWithFirst entries p) ∧
        PolicyAllows ppol chain pstmt) := by
  have hmeasures : Measures sha256 env ppol chain := by
    rw [hchain]
    exact measures_of_packs hpacks honest hmade hpica hpolicy hrandom hreply
  constructor
  · rw [run_request hmeasures hfile]
    simp only [Registry.Admits, Option.some.injEq, exists_eq_left', true_and]
  · have hhandle : handlePica sgx (.bytes pica) = .ok (chain.length, some chain) := by
      obtain ⟨-, hextract⟩ := hpacks.accepted honest hmade hpica sha256 nonce sgx.untypedMap sgx.uninit
      rw [← hchain, ← hsame.cbor] at hextract
      rw [handlePica_of_extract hextract, hchain, List.length_map, List.length_reverse]
    rw [clientMain_honest_iff honest hsame hpica, hhandle, Except.ok.injEq, Prod.mk.injEq, Option.some.injEq]
    constructor
    · rintro ⟨⟨rfl, rfl⟩, hchecks⟩
      exact ⟨rfl, rfl, (hconfigured.checksPass_iff hmeasures.measured).1 hchecks⟩
    · rintro ⟨rfl, rfl, hallowed⟩
      exact ⟨⟨rfl, rfl⟩, (hconfigured.checksPass_iff hmeasures.measured).2 hallowed⟩

/-- The reply of the editor is an old one. -/
theorem clients_agree_editor :
    (pocMain Sha256.hash (fun _ => 0) ((editorRun plainClient "Allow" (oldReply Sha256.hash)).onFile
          (some (confBytes (fun _ => ⟨0, 0, 0⟩) editorChain))) false =
        .ok (.granted (editorStmt Effect.allow) editorChain 2) ↔
      editorChain = editorChain ∧ (2 : Int) = editorChain.length ∧ (∀ p ∈ editorChain, AgreesWithFirst editorChain p) ∧
        PolicyAllows (editorPolicy "Allow") editorChain (editorStmt Effect.allow)) ∧
    (clientMain Sha256.hash (fun _ => 0) (editorSgx fun _ => 0) (ByteBuf.zero 32) (oldReply Sha256.hash) =
        .ok (.granted (editorStmt Effect.allow) editorChain 2) ↔
      editorChain = editorChain ∧ (2 : Int) = editorChain.length ∧ (∀ p ∈ editorChain, AgreesWithFirst editorChain p) ∧
        PolicyAllows (editorPolicy "Allow") editorChain (editorStmt Effect.allow)) :=
  @clients_agree_iff Unit Sha256.hash (fun _ => 0) (editorRun plainClient "Allow" (oldReply Sha256.hash))
    (editorSgx fun _ => 0) editorDaemon plainDaemon () (quoteOfPcr10 []) editorTable 20 [20, 10]
    (encode (packedChain editorTable [20, 10])) (ByteBuf.zero 32) otherNonce (editorPolicy "Allow") editorChain
    editorChain (some (confBytes (fun _ => ⟨0, 0, 0⟩) editorChain)) plain_honest editorDaemon_madeBy
    editorDaemon_packs editorChain_size_lt (editorRun_policyRead plainClient "Allow" (oldReply Sha256.hash)) rfl
    (editorRun_oldReply Sha256.hash) editorFile_holds (editorSgx_sameGiven fun _ => 0)
    (editorSgx_configured fun _ => 0) rfl (editorStmt Effect.allow) editorChain 2

end PicaSgx

end PortableTlsRa
