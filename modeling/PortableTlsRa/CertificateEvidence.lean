import PortableTlsRa.DaemonReply
import PortableTlsRa.SgxOnlyEvidence

/-!
# Evidence that fails on its way into the certificate

`make_certificate_evidence` of the two enclaves, `make_x509cert` and the callbacks `on_client_hello` and
`on_client_cert`.  The callbacks do not give the code to `make_x509cert`, which adds the extensions where a pointer is
not null; so what a failed function leaves in its output parameters is what counts (`callbacks_right_iff`).
-/

namespace PortableTlsRa.Libcert

open CSem Cbor Tpmdaemon

/-! ### The evidence -/

/-- Which calls of `make_cbor_sgx_evidence` succeed. -/
structure EvidenceCalls where
  newArray : Bool
  buildQuote : Bool
  buildClaims : Bool
  pushQuote : Bool
  pushClaims : Bool
  newTag : Bool
  serialize : Bool

/-- The status of `sgx_tls_get_quote_ocall`, the code of the host, and what the buffer holds after the call. -/
structure QuoteReply (n : Nat) where
  status : Int
  qrc : Int
  buf : ByteBuf n

/-- The outcomes of the steps of `make_certificate_evidence`: the code of the claims builder with the claims, if it has
set them; the target information of the quoting enclave, a report for it, and the size and the bytes of a quote of a
report, each with its status and the calls to the host also with the code of the host.  `csz` is what the size of the
claims is at first. -/
structure EvidenceEnv where
  claims : (pubkey : Option Bytes) → (nonce : Bytes) → Int × Option Bytes
  csz : Nat
  sha256 : Bytes → ByteBuf 32
  qeTargetInfo : Int × Int × Bytes
  createReport : (targetInfo : Bytes) → ByteBuf 64 → Int × Bytes
  quoteSize : Int × Int × UInt32
  mallocQuote : Bool
  getQuote : (report : Bytes) → (qsz : UInt32) → QuoteReply qsz.toNat
  evidence : EvidenceCalls

/-- The output parameters; a pointer is null or points to an array. -/
structure Outputs where
  quote : Option Bytes
  qsz : UInt32
  evidence : Option Bytes
  evsz : Nat
deriving DecidableEq

/-- Returns the code and what `*out_evidence` is set to. -/
def makeCborSgxEvidence (calls : EvidenceCalls) (quote : Bytes) (claim : Option Bytes) (claimsz ctype : Nat) :
    Checked (Int × Option Bytes) := do
  if !calls.newArray then return (-1, none)
  if !calls.buildQuote then return (-1, none)
  if !calls.buildClaims then return (-1, none)
  let cborClaims ← readBytes claim claimsz
  if !calls.pushQuote then return (-1, none)
  if !calls.pushClaims then return (-1, none)
  -- a reference to the tag is dropped, which is null
  if !calls.newTag then throw .nullPointer
  let taggedEvidence := Item.tag ctype (.array true [.bytes quote, .bytes cborClaims])
  return (0, if calls.serialize then some (encode taggedEvidence) else none)

namespace EvidenceEnv

variable (env : EvidenceEnv)

/-- The size of the claims after the call of the builder. -/
def claimsSize (claims : Option Bytes) : Nat := (claims.map List.length).getD env.csz

/-- The report data: the hash of the claims and 32 zero bytes. -/
def reportData (message : Bytes) : ByteBuf 64 :=
  ⟨(env.sha256 message).1 ++ List.replicate 32 0, by rw [List.length_append, (env.sha256 message).2]; rfl⟩

end EvidenceEnv

/-- The function for both enclaves, which differ in the test of the code of the claims builder and in the tag. -/
def makeCertificateEvidence (testsClaims : Bool) (ctype : Nat) (env : EvidenceEnv) (pubkey : Option Bytes)
    (nonce : Bytes) (out : Outputs) : Checked (Int × Outputs) := do
  let (rc, claims) := env.claims pubkey nonce
  if testsClaims && rc < 0 then return (-1, out)
  let message ← readBytes claims (env.claimsSize claims)
  let reportData := env.reportData message
  let (rc, qrc, targetInfo) := env.qeTargetInfo
  if rc ≠ 0 ∨ qrc ≠ 0 then return (-1, out)
  let (rc, appReport) := env.createReport targetInfo reportData
  if rc ≠ 0 then return (-1, out)
  let (rc, qrc, qsz) := env.quoteSize
  let out := { out with qsz := qsz }
  if rc ≠ 0 ∨ qrc ≠ 0 then return (-1, out)
  if !env.mallocQuote then return (-1, { out with quote := none })
  let reply := env.getQuote appReport qsz
  let out := { out with quote := some reply.buf.1 }
  -- the code of the host is not looked at here
  if reply.status ≠ 0 then return (-1, out)
  let (rc, evidence) ← makeCborSgxEvidence env.evidence reply.buf.1 claims (env.claimsSize claims) ctype
  let out := { out with evidence := evidence, evsz := (evidence.map List.length).getD 0 }
  if rc < 0 then return (-1, out)
  return (0, out)

/-- `make_certificate_evidence` of an enclave with an SGX quote alone. -/
def Sgx.makeCertificateEvidence : EvidenceEnv → Option Bytes → Bytes → Outputs → Checked (Int × Outputs) :=
  Libcert.makeCertificateEvidence true teeQuoteCborTag

/-- `make_certificate_evidence` of an enclave with a TPM, where the code of the claims builder is ignored. -/
def SgxTpm2.makeCertificateEvidence : EvidenceEnv → Option Bytes → Bytes → Outputs → Checked (Int × Outputs) :=
  Libcert.makeCertificateEvidence false teeTpm2QuoteCborTag

/-- The two enclaves. -/
inductive Build where
  | sgx
  | sgxTpm2

namespace Build

def testsClaims : Build → Bool
  | sgx => true
  | sgxTpm2 => false

def ctype : Build → Nat
  | sgx => teeQuoteCborTag
  | sgxTpm2 => teeTpm2QuoteCborTag

def makeCertificateEvidence : Build → EvidenceEnv → Option Bytes → Bytes → Outputs → Checked (Int × Outputs)
  | sgx => Sgx.makeCertificateEvidence
  | sgxTpm2 => SgxTpm2.makeCertificateEvidence

theorem makeCertificateEvidence_eq (build : Build) :
    build.makeCertificateEvidence = Libcert.makeCertificateEvidence build.testsClaims build.ctype := by
  cases build <;> rfl

end Build

/-! ### The certificate -/

/-- What `ASN1_OCTET_STRING_set` is given. -/
structure OctetString where
  data : Option Bytes
  len : Int

inductive Extension where
  | basicConstraints (value : String)
  | subjectKeyIdentifier (value : String)
  | authorityKeyIdentifier (value : String)
  | quote (data : OctetString)
  | taggedEvidence (data : OctetString)

def Extension.IsEvidence : Extension → Prop
  | quote _ => True
  | taggedEvidence _ => True
  | _ => False

/-- Which of the calls of `make_x509cert` that are tested succeed. -/
structure CertCalls where
  setPubkey : Bool
  setSubjectName : Bool
  setIssuerName : Bool
  quoteOid : Bool
  taggedOid : Bool

def keyExtensions : List Extension :=
  [.basicConstraints "critical,CA:FALSE", .subjectKeyIdentifier "hash", .authorityKeyIdentifier "keyid:always"]

/-- The extensions of the certificate, or none when `*px509` is not set. -/
def makeX509cert (calls : CertCalls) (pkey : Bool) (out : Outputs) : Option (List Extension) :=
  if !(pkey && calls.setPubkey) then none
  else if !calls.setSubjectName then none
  else if !calls.setIssuerName then none
  else if out.quote.isSome || out.evidence.isSome then
    if !calls.quoteOid then none
    else if !calls.taggedOid then none
    else some (keyExtensions ++
      [.quote ⟨out.quote, toInt32 out.qsz.toNat⟩, .taggedEvidence ⟨out.evidence, toInt32 out.evsz⟩])
  else some keyExtensions

/-! ### The callbacks -/

/-- What the callbacks find: the public key that `make_keypair` has made, if it has, the nonce of the session, and which
calls succeed; `evidence` and `evsz` are what these variables of `on_client_cert` hold at first. -/
structure CallbackEnv where
  keypair : Option Bytes
  nonce : Bytes
  cert : CertCalls
  useCertificate : Bool
  usePrivateKey : Bool
  serverCrt : Bool
  serverKey : Bool
  evidence : Option Bytes
  evsz : Nat

/-- The result of a callback, the code of `make_certificate_evidence`, where it is called, and the certificate that is
built, if one is. -/
structure CallbackRun where
  ret : Int
  evidenceRc : Option Int
  cert : Option (List Extension)

def sslClientHelloSuccess : Int := 1
def sslClientHelloError : Int := 0

section

variable (build : Build) (env : EvidenceEnv) (con : CallbackEnv)

/-- The certificate is used for the session, and then the key. -/
def useBuilt (cert : Option (List Extension)) : Int :=
  if cert.isSome && con.useCertificate && con.usePrivateKey then sslClientHelloSuccess else sslClientHelloError

def onClientHello (rflag : Int) : Checked CallbackRun := do
  if rflag ≠ 0 then
    let out : Outputs := ⟨none, 0, none, 0⟩
    if rflag = 2 then
      let cert := makeX509cert con.cert con.keypair.isSome out
      return ⟨useBuilt con cert, none, cert⟩
    let (rc, out) ← build.makeCertificateEvidence env con.keypair con.nonce out
    let cert := makeX509cert con.cert con.keypair.isSome out
    return ⟨useBuilt con cert, some rc, cert⟩
  else
    return ⟨if con.serverCrt && con.serverKey then sslClientHelloSuccess else sslClientHelloError, none, none⟩

def onClientCert : Checked CallbackRun := do
  -- evidence and evsz are not set
  let (rc, out) ← build.makeCertificateEvidence env con.keypair con.nonce ⟨none, 0, con.evidence, con.evsz⟩
  return ⟨1, some rc, makeX509cert con.cert con.keypair.isSome out⟩

end

/-! ### The outcomes of the steps -/

/-- The items of the evidence are made and put into the array. -/
structure EvidenceCalls.Pushed (calls : EvidenceCalls) : Prop where
  newArray : calls.newArray = true
  buildQuote : calls.buildQuote = true
  buildClaims : calls.buildClaims = true
  pushQuote : calls.pushQuote = true
  pushClaims : calls.pushClaims = true

namespace EvidenceEnv

variable (env : EvidenceEnv) (pubkey : Option Bytes) (nonce : Bytes)

/-- The bytes of which the hash is taken. -/
def message : Bytes := (env.claims pubkey nonce).2.getD []

def report : Int × Bytes := env.createReport env.qeTargetInfo.2.2 (env.reportData (env.message pubkey nonce))

/-- The answer to the call for the quote of the report. -/
def reply : QuoteReply env.quoteSize.2.2.toNat := env.getQuote (env.report pubkey nonce).2 env.quoteSize.2.2

/-- The function leaves with the test of the claims. -/
def Refused (testsClaims : Bool) : Prop := testsClaims = true ∧ (env.claims pubkey nonce).1 < 0

/-- No size that is not set is taken for that of the claims. -/
def Hashable : Prop := (env.claims pubkey nonce).2 = none → env.csz = 0

/-- The platform lets a quote be asked for. -/
structure Prepared (testsClaims : Bool) : Prop where
  claims : ¬ env.Refused pubkey nonce testsClaims
  hashable : env.Hashable pubkey nonce
  qeTargetInfo : env.qeTargetInfo.1 = 0 ∧ env.qeTargetInfo.2.1 = 0
  report : (env.report pubkey nonce).1 = 0
  quoteSize : env.quoteSize.1 = 0 ∧ env.quoteSize.2.1 = 0
  mallocQuote : env.mallocQuote = true

end EvidenceEnv

section

variable {env : EvidenceEnv} {pubkey : Option Bytes} {nonce : Bytes} {testsClaims : Bool} {ctype : Nat} {out : Outputs}

theorem readBytes_claims (h : env.Hashable pubkey nonce) :
    readBytes (env.claims pubkey nonce).2 (env.claimsSize (env.claims pubkey nonce).2) =
      .ok (env.message pubkey nonce) := by
  unfold EvidenceEnv.claimsSize EvidenceEnv.message
  unfold EvidenceEnv.Hashable at h
  cases hclaims : (env.claims pubkey nonce).2 with
  | none => rw [Option.map_none, Option.getD_none, h hclaims, readBytes, if_pos rfl, Option.getD_none]
  | some claims => rw [Option.map_some, Option.getD_some, readBytes_self, Option.getD_some]

theorem readBytes_claims_error (h : ¬ env.Hashable pubkey nonce) :
    readBytes (env.claims pubkey nonce).2 (env.claimsSize (env.claims pubkey nonce).2) = .error .nullPointer := by
  unfold EvidenceEnv.Hashable at h
  push Not at h
  obtain ⟨hclaims, hcsz⟩ := h
  rw [hclaims, EvidenceEnv.claimsSize, Option.map_none, Option.getD_none, readBytes, if_neg hcsz]
  rfl

/-- The claims are refused. -/
theorem makeCertificateEvidence_refused (ctype : Nat) (out : Outputs) (h : env.Refused pubkey nonce testsClaims) :
    makeCertificateEvidence testsClaims ctype env pubkey nonce out = .ok (-1, out) := by
  have htest : (testsClaims && decide ((env.claims pubkey nonce).1 < 0)) = true := by simp [h.1, h.2]
  unfold makeCertificateEvidence
  dsimp only
  rw [if_pos htest]
  rfl

/-- A size that is not set is taken for that of claims that are not. -/
theorem makeCertificateEvidence_unhashable (ctype : Nat) (out : Outputs)
    (hclaims : ¬ env.Refused pubkey nonce testsClaims) (h : ¬ env.Hashable pubkey nonce) :
    makeCertificateEvidence testsClaims ctype env pubkey nonce out = .error .nullPointer := by
  have htest : ¬ (testsClaims && decide ((env.claims pubkey nonce).1 < 0)) = true := by
    simpa [EvidenceEnv.Refused] using hclaims
  unfold makeCertificateEvidence
  dsimp only
  rw [if_neg htest, readBytes_claims_error h]
  rfl

/-- Before the quote is asked for, a failure leaves the pointers as they were. -/
theorem makeCertificateEvidence_unprepared (ctype : Nat) (hout : out.quote = none)
    (hclaims : ¬ env.Refused pubkey nonce testsClaims) (hhash : env.Hashable pubkey nonce)
    (h : ¬ env.Prepared pubkey nonce testsClaims) :
    ∃ qsz, makeCertificateEvidence testsClaims ctype env pubkey nonce out = .ok (-1, { out with qsz := qsz }) := by
  have htest : ¬ (testsClaims && decide ((env.claims pubkey nonce).1 < 0)) = true := by
    simpa [EvidenceEnv.Refused] using hclaims
  unfold makeCertificateEvidence
  dsimp only
  rw [if_neg htest, readBytes_claims hhash, ok_bind]
  by_cases hinfo : env.qeTargetInfo.1 ≠ 0 ∨ env.qeTargetInfo.2.1 ≠ 0
  · exact ⟨out.qsz, if_pos hinfo⟩
  by_cases hreport : (env.report pubkey nonce).1 ≠ 0
  · exact ⟨out.qsz, (if_neg hinfo).trans (if_pos hreport)⟩
  by_cases hsize : env.quoteSize.1 ≠ 0 ∨ env.quoteSize.2.1 ≠ 0
  · exact ⟨env.quoteSize.2.2, (if_neg hinfo).trans ((if_neg hreport).trans (if_pos hsize))⟩
  by_cases hmalloc : (!env.mallocQuote) = true
  · refine ⟨env.quoteSize.2.2, (if_neg hinfo).trans ((if_neg hreport).trans ((if_neg hsize).trans ?_))⟩
    rw [if_pos hmalloc, ← hout]
    rfl
  · rw [not_or, not_not, not_not] at hinfo hsize
    exact absurd ⟨hclaims, hhash, hinfo, not_not.1 hreport, hsize, by simpa using hmalloc⟩ h

/-- The outputs after the call for the quote. -/
def EvidenceEnv.quoted (env : EvidenceEnv) (pubkey : Option Bytes) (nonce : Bytes) (out : Outputs) : Outputs :=
  { out with quote := some (env.reply pubkey nonce).buf.1, qsz := env.quoteSize.2.2 }

/-- The outputs after the call for the evidence. -/
def Outputs.withEvidence (out : Outputs) (evidence : Option Bytes) : Outputs :=
  { out with evidence := evidence, evsz := (evidence.map List.length).getD 0 }

/-- Once a quote can be asked for, the status of the call and the calls for the evidence decide. -/
theorem makeCertificateEvidence_prepared (ctype : Nat) (out : Outputs) (h : env.Prepared pubkey nonce testsClaims) :
    makeCertificateEvidence testsClaims ctype env pubkey nonce out =
      if (env.reply pubkey nonce).status ≠ 0 then .ok (-1, env.quoted pubkey nonce out) else
        makeCborSgxEvidence env.evidence (env.reply pubkey nonce).buf.1 (env.claims pubkey nonce).2
            (env.claimsSize (env.claims pubkey nonce).2) ctype >>= fun r =>
          if r.1 < 0 then .ok (-1, (env.quoted pubkey nonce out).withEvidence r.2)
          else .ok (0, (env.quoted pubkey nonce out).withEvidence r.2) := by
  have htest : ¬ (testsClaims && decide ((env.claims pubkey nonce).1 < 0)) = true := by
    simpa [EvidenceEnv.Refused] using h.claims
  have hinfo : ¬ (env.qeTargetInfo.1 ≠ 0 ∨ env.qeTargetInfo.2.1 ≠ 0) := by simp [h.qeTargetInfo]
  have hreport : ¬ (env.report pubkey nonce).1 ≠ 0 := not_not.2 h.report
  have hsize : ¬ (env.quoteSize.1 ≠ 0 ∨ env.quoteSize.2.1 ≠ 0) := by simp [h.quoteSize]
  have hmalloc : ¬ (!env.mallocQuote) = true := by simp [h.mallocQuote]
  unfold makeCertificateEvidence
  dsimp only
  rw [if_neg htest, readBytes_claims h.hashable, ok_bind]
  exact (if_neg hinfo).trans ((if_neg hreport).trans ((if_neg hsize).trans (if_neg hmalloc)))

section

variable {calls : EvidenceCalls} {quote bytes : Bytes} {claim : Option Bytes} {claimsz : Nat}

theorem makeCborSgxEvidence_of_pushed (ctype : Nat) (hread : readBytes claim claimsz = .ok bytes)
    (h : calls.Pushed) :
    makeCborSgxEvidence calls quote claim claimsz ctype =
      if calls.newTag then
        .ok (0, if calls.serialize then some (encode (.tag ctype (.array true [.bytes quote, .bytes bytes]))) else none)
      else .error .nullPointer := by
  simp only [makeCborSgxEvidence, h.newArray, h.buildQuote, h.buildClaims, hread, h.pushQuote, h.pushClaims, ok_bind,
    Bool.not_true, Bool.false_eq_true, if_false]
  cases calls.newTag <;> rfl

theorem makeCborSgxEvidence_of_not_pushed (ctype : Nat) (hread : readBytes claim claimsz = .ok bytes)
    (h : ¬ calls.Pushed) : makeCborSgxEvidence calls quote claim claimsz ctype = .ok (-1, none) := by
  unfold makeCborSgxEvidence
  refine unless_eq_ok fun harray => unless_eq_ok fun hquote => unless_eq_ok fun hclaims => ?_
  rw [hread, ok_bind]
  refine unless_eq_ok fun hpushQuote => unless_eq_ok fun hpushClaims => ?_
  exact absurd ⟨harray, hquote, hclaims, hpushQuote, hpushClaims⟩ h

end

end

/-! ### The steps of an enclave where libcbor does not fail -/

/-- The outcomes of the steps for claims that are made, or are not. -/
def outcomesOf (env : IssueEnv) (claims : Option Bytes) : EvidenceEnv where
  claims := fun _ _ => (if claims.isSome then 0 else -1, claims)
  csz := 0
  sha256 := env.sha256
  qeTargetInfo := env.qeTargetInfo
  createReport := env.createReport
  quoteSize := env.quoteSize
  mallocQuote := env.mallocQuote
  getQuote := fun report qsz =>
    ⟨(env.getQuote report qsz).1, (env.getQuote report qsz).2.1, (env.getQuote report qsz).2.2⟩
  evidence := ⟨true, true, true, true, true, true, true⟩

theorem makeCertificateEvidence_outcomesOf {env : IssueEnv} {pubkey nonce : Bytes} {claims : Option Bytes}
    {issued : IssuedEvidence} (hserialize : env.serialize = encode)
    (hclaims : makeCborSgxClaims env pubkey = .ok claims)
    (h : PortableTlsRa.makeCertificateEvidence env pubkey nonce = .ok issued) :
    ∃ out, Sgx.makeCertificateEvidence (outcomesOf env claims) (some pubkey) nonce ⟨none, 0, none, 0⟩ =
        .ok (issued.rc, out) ∧ out.quote = issued.quote ∧ out.evidence = issued.evidence := by
  rw [PortableTlsRa.makeCertificateEvidence, hclaims, ok_bind] at h
  cases claims with
  | none =>
    cases h
    exact ⟨_, makeCertificateEvidence_refused teeQuoteCborTag _ ⟨rfl, show (-1 : Int) < 0 by decide⟩, rfl, rfl⟩
  | some claims =>
    have hrefused : ¬ (outcomesOf env (some claims)).Refused (some pubkey) nonce true :=
      fun hrefused => Int.lt_irrefl 0 hrefused.2
    have hhash : (outcomesOf env (some claims)).Hashable (some pubkey) nonce := by
      intro hnone
      cases hnone
    have hunprepared (hnot : ¬ (outcomesOf env (some claims)).Prepared (some pubkey) nonce true)
        (hissued : issued = ⟨-1, none, none⟩) :
        ∃ out, Sgx.makeCertificateEvidence (outcomesOf env (some claims)) (some pubkey) nonce ⟨none, 0, none, 0⟩ =
          .ok (issued.rc, out) ∧ out.quote = issued.quote ∧ out.evidence = issued.evidence := by
      have hout : (⟨none, 0, none, 0⟩ : Outputs).quote = none := rfl
      obtain ⟨qsz, hmake⟩ := makeCertificateEvidence_unprepared teeQuoteCborTag hout hrefused hhash hnot
      subst hissued
      exact ⟨_, hmake, rfl, rfl⟩
    dsimp only at h
    split_ifs at h with hinfo hreport hsize hmalloc hstatus hrc
    · cases h
      exact hunprepared (fun hp => hinfo.elim (absurd hp.qeTargetInfo.1) (absurd hp.qeTargetInfo.2)) rfl
    · cases h
      exact hunprepared (fun hp => hreport hp.report) rfl
    · cases h
      exact hunprepared (fun hp => hsize.elim (absurd hp.quoteSize.1) (absurd hp.quoteSize.2)) rfl
    · cases h
      exact hunprepared (fun hp => by simp [show env.mallocQuote = true from hp.mallocQuote] at hmalloc) rfl
    all_goals
      rw [not_or, not_not, not_not] at hinfo hsize
      have hmade : env.mallocQuote = true := by simpa using hmalloc
      have hprepared : (outcomesOf env (some claims)).Prepared (some pubkey) nonce true :=
        ⟨hrefused, hhash, hinfo, not_not.1 hreport, hsize, hmade⟩
      have hmake := makeCertificateEvidence_prepared teeQuoteCborTag ⟨none, 0, none, 0⟩ hprepared
    · cases h
      exact ⟨_, hmake.trans (if_pos hstatus), rfl, rfl⟩
    · exact absurd hrc (Int.lt_irrefl 0)
    · cases h
      have hpushed : (outcomesOf env (some claims)).evidence.Pushed := ⟨rfl, rfl, rfl, rfl, rfl⟩
      have hgiven : ¬ ((outcomesOf env (some claims)).reply (some pubkey) nonce).status ≠ 0 := hstatus
      rw [if_neg hgiven, makeCborSgxEvidence_of_pushed teeQuoteCborTag (readBytes_claims hhash) hpushed] at hmake
      refine ⟨_, hmake, rfl, ?_⟩
      show some _ = some _
      rw [PortableTlsRa.makeCborSgxEvidence, hserialize]
      rfl

/-! ### What the certificate is to hold -/

section

variable (env : EvidenceEnv) (con : CallbackEnv)

/-- After a code that is not 0 the certificate has no evidence; after the code 0 the quote in it was written by the
call for it, of which both the status and the code of the host are those of success. -/
structure CertRight (rc : Int) (extensions : List Extension) : Prop where
  none_added : rc ≠ 0 → ∀ e ∈ extensions, ¬ e.IsEvidence
  quote_written : rc = 0 → ∀ s, .quote s ∈ extensions →
    (env.reply con.keypair con.nonce).status = 0 ∧ (env.reply con.keypair con.nonce).qrc = 0 ∧
      s.data = some (env.reply con.keypair con.nonce).buf.1

/-- If `make_certificate_evidence` returns, the certificate that is built next is as it is to be. -/
def CallbackRight (run : Checked CallbackRun) : Prop :=
  ∀ r rc extensions, run = .ok r → r.evidenceRc = some rc → r.cert = some extensions →
    CertRight env con rc extensions

/-- A certificate with evidence can be made. -/
structure CallbackEnv.Certifies : Prop where
  keypair : con.keypair.isSome = true
  setPubkey : con.cert.setPubkey = true
  setSubjectName : con.cert.setSubjectName = true
  setIssuerName : con.cert.setIssuerName = true
  quoteOid : con.cert.quoteOid = true
  taggedOid : con.cert.taggedOid = true

/-- The calls for the quote and the evidence succeed; the code of the host, which is ignored, too, where the function
goes on to its end. -/
structure EvidenceEnv.Delivered (pubkey : Option Bytes) (nonce : Bytes) : Prop where
  status : (env.reply pubkey nonce).status = 0
  pushed : env.evidence.Pushed
  qrc : env.evidence.newTag = true → (env.reply pubkey nonce).qrc = 0

end

section

variable {env : EvidenceEnv} {con : CallbackEnv} {out : Outputs} {extensions : List Extension}

theorem isSome_or_iff {α : Type} {a b : Option α} : (a.isSome || b.isSome) = true ↔ ¬ (a = none ∧ b = none) := by
  cases a <;> cases b <;> simp

/-- The certificate has the two extensions if a pointer is not null, and else only those for the key. -/
theorem makeX509cert_cases (h : makeX509cert con.cert con.keypair.isSome out = some extensions) :
    (extensions = keyExtensions ∧ out.quote = none ∧ out.evidence = none) ∨
      con.Certifies ∧ ¬ (out.quote = none ∧ out.evidence = none) ∧ extensions = keyExtensions ++
        [.quote ⟨out.quote, toInt32 out.qsz.toNat⟩, .taggedEvidence ⟨out.evidence, toInt32 out.evsz⟩] := by
  unfold makeX509cert at h
  split_ifs at h with hkey hsubject hissuer hout hquoteOid htaggedOid
  · cases h
    rw [Bool.not_eq_true', Bool.not_eq_false, Bool.and_eq_true] at hkey
    exact .inr ⟨⟨hkey.1, hkey.2, by simpa using hsubject, by simpa using hissuer, by simpa using hquoteOid,
      by simpa using htaggedOid⟩, isSome_or_iff.1 hout, rfl⟩
  · cases h
    exact .inl ⟨rfl, by simpa using hout⟩

theorem makeX509cert_of_certifies (h : con.Certifies) (hout : ¬ (out.quote = none ∧ out.evidence = none)) :
    makeX509cert con.cert con.keypair.isSome out = some (keyExtensions ++
      [.quote ⟨out.quote, toInt32 out.qsz.toNat⟩, .taggedEvidence ⟨out.evidence, toInt32 out.evsz⟩]) := by
  simp only [makeX509cert, h.keypair, h.setPubkey, h.setSubjectName, h.setIssuerName, h.quoteOid, h.taggedOid,
    isSome_or_iff.2 hout, Bool.and_true, Bool.not_true, Bool.false_eq_true, if_false, if_true]

theorem keyExtensions_not_evidence : ∀ e ∈ keyExtensions, ¬ e.IsEvidence := by
  simp [keyExtensions, Extension.IsEvidence]

/-- After a failure the certificate is right if both pointers are null, or none with evidence can be made. -/
theorem certRight_failed_iff {rc : Int} (hrc : rc ≠ 0) :
    (∀ extensions, makeX509cert con.cert con.keypair.isSome out = some extensions → CertRight env con rc extensions) ↔
      (con.Certifies → out.quote = none ∧ out.evidence = none) := by
  constructor
  · intro h hcertifies
    by_contra hout
    have hright := h _ (makeX509cert_of_certifies hcertifies hout)
    exact hright.none_added hrc (.quote ⟨out.quote, toInt32 out.qsz.toNat⟩) (by simp) trivial
  · intro h extensions hbuilt
    refine ⟨fun _ => ?_, fun hzero => absurd hzero hrc⟩
    rcases makeX509cert_cases hbuilt with ⟨rfl, -, -⟩ | ⟨hcertifies, hout, -⟩
    · exact keyExtensions_not_evidence
    · exact absurd (h hcertifies) hout

/-- After success it is right if the code of the host was that of success. -/
theorem certRight_zero_iff (hquote : out.quote = some (env.reply con.keypair con.nonce).buf.1)
    (hstatus : (env.reply con.keypair con.nonce).status = 0) :
    (∀ extensions, makeX509cert con.cert con.keypair.isSome out = some extensions → CertRight env con 0 extensions) ↔
      (con.Certifies → (env.reply con.keypair con.nonce).qrc = 0) := by
  have hout : ¬ (out.quote = none ∧ out.evidence = none) := fun hnone => nomatch hquote.symm.trans hnone.1
  constructor
  · intro h hcertifies
    have hright := h _ (makeX509cert_of_certifies hcertifies hout)
    exact (hright.quote_written rfl ⟨out.quote, toInt32 out.qsz.toNat⟩ (by simp)).2.1
  · intro h extensions hbuilt
    refine ⟨fun hne => absurd rfl hne, fun _ s hs => ?_⟩
    rcases makeX509cert_cases hbuilt with ⟨-, hnone⟩ | ⟨hcertifies, -, rfl⟩
    · exact absurd hnone hout
    · have hsOut : s = ⟨out.quote, toInt32 out.qsz.toNat⟩ := by simpa [keyExtensions] using hs
      rw [hsOut]
      exact ⟨hstatus, h hcertifies, hquote⟩

/-- The certificate is right for what `make_certificate_evidence` returns, if it does. -/
def MadeRight (env : EvidenceEnv) (con : CallbackEnv) (made : Checked (Int × Outputs)) : Prop :=
  ∀ rc out, made = .ok (rc, out) →
    ∀ extensions, makeX509cert con.cert con.keypair.isSome out = some extensions → CertRight env con rc extensions

theorem madeRight_ok_iff {rc : Int} :
    MadeRight env con (.ok (rc, out)) ↔
      ∀ extensions, makeX509cert con.cert con.keypair.isSome out = some extensions →
        CertRight env con rc extensions := by
  constructor
  · intro h
    exact h rc out rfl
  · intro h rc' out' hmade
    cases hmade
    exact h

theorem madeRight_error (env : EvidenceEnv) (con : CallbackEnv) (e : Fault) : MadeRight env con (.error e) :=
  fun _ _ hmade => nomatch hmade

theorem callbackRight_bind_iff {made : Checked (Int × Outputs)} (ret : Option (List Extension) → Int) :
    CallbackRight env con (made >>= fun r => .ok ⟨ret (makeX509cert con.cert con.keypair.isSome r.2), some r.1,
      makeX509cert con.cert con.keypair.isSome r.2⟩) ↔ MadeRight env con made := by
  constructor
  · rintro h rc out rfl extensions hbuilt
    exact h _ rc extensions rfl rfl hbuilt
  · intro h r rc extensions hrun hrc hbuilt
    obtain ⟨⟨rc', out⟩, rfl, hr⟩ := bind_eq_ok.1 hrun
    cases hr
    cases hrc
    exact h rc' out rfl extensions hbuilt

/-- What is right where a quote can be asked for. -/
theorem madeRight_prepared_iff {testsClaims : Bool} (ctype : Nat) (out : Outputs)
    (h : env.Prepared con.keypair con.nonce testsClaims) :
    MadeRight env con (makeCertificateEvidence testsClaims ctype env con.keypair con.nonce out) ↔
      (con.Certifies → env.Delivered con.keypair con.nonce) := by
  rw [makeCertificateEvidence_prepared ctype out h]
  by_cases hstatus : (env.reply con.keypair con.nonce).status = 0
  swap
  · rw [if_pos hstatus, madeRight_ok_iff, certRight_failed_iff (by decide)]
    refine imp_congr_right fun _ => iff_of_false nofun ?_
    exact fun hdelivered => hstatus hdelivered.status
  rw [if_neg (not_not.2 hstatus)]
  by_cases hpushed : env.evidence.Pushed
  swap
  · rw [makeCborSgxEvidence_of_not_pushed ctype (readBytes_claims h.hashable) hpushed, ok_bind, if_pos (by decide),
      madeRight_ok_iff, certRight_failed_iff (by decide)]
    refine imp_congr_right fun _ => iff_of_false nofun ?_
    exact fun hdelivered => hpushed hdelivered.pushed
  rw [makeCborSgxEvidence_of_pushed ctype (readBytes_claims h.hashable) hpushed]
  cases htag : env.evidence.newTag with
  | false =>
    refine iff_of_true (madeRight_error env con .nullPointer) fun _ => ⟨hstatus, hpushed, fun h => ?_⟩
    cases htag.symm.trans h
  | true =>
    rw [if_pos rfl, ok_bind, if_neg (Int.lt_irrefl 0), madeRight_ok_iff, certRight_zero_iff rfl hstatus]
    exact imp_congr_right fun _ => ⟨fun hqrc => ⟨hstatus, hpushed, fun _ => hqrc⟩, fun h => h.qrc htag⟩

/-- What is right for variables of which the quote is null at first. -/
theorem madeRight_iff (testsClaims : Bool) (ctype : Nat) (hout : out.quote = none) :
    MadeRight env con (makeCertificateEvidence testsClaims ctype env con.keypair con.nonce out) ↔
      (con.Certifies →
        (env.Prepared con.keypair con.nonce testsClaims → env.Delivered con.keypair con.nonce) ∧
        (¬ env.Prepared con.keypair con.nonce testsClaims →
          env.Refused con.keypair con.nonce testsClaims ∨ env.Hashable con.keypair con.nonce →
            out.evidence = none)) := by
  by_cases hprepared : env.Prepared con.keypair con.nonce testsClaims
  · rw [madeRight_prepared_iff ctype out hprepared]
    simp only [hprepared, forall_const, not_true_eq_false, false_imp_iff, and_true]
  by_cases hrefused : env.Refused con.keypair con.nonce testsClaims
  · rw [makeCertificateEvidence_refused ctype out hrefused, madeRight_ok_iff, certRight_failed_iff (by decide)]
    simp [hprepared, hrefused, hout]
  by_cases hhash : env.Hashable con.keypair con.nonce
  · obtain ⟨qsz, hmake⟩ := makeCertificateEvidence_unprepared ctype hout hrefused hhash hprepared
    rw [hmake, madeRight_ok_iff, certRight_failed_iff (by decide)]
    simp [hprepared, hhash, hout]
  · rw [makeCertificateEvidence_unhashable ctype out hrefused hhash]
    simp [hprepared, hrefused, hhash, madeRight_error]

theorem onClientCert_right_iff (build : Build) :
    CallbackRight env con (onClientCert build env con) ↔
      (con.Certifies →
        (env.Prepared con.keypair con.nonce build.testsClaims → env.Delivered con.keypair con.nonce) ∧
        (¬ env.Prepared con.keypair con.nonce build.testsClaims →
          env.Refused con.keypair con.nonce build.testsClaims ∨ env.Hashable con.keypair con.nonce →
            con.evidence = none)) := by
  have hout : (⟨none, 0, con.evidence, con.evsz⟩ : Outputs).quote = none := rfl
  rw [← madeRight_iff build.testsClaims build.ctype hout, onClientCert, build.makeCertificateEvidence_eq]
  exact callbackRight_bind_iff fun _ => 1

theorem onClientHello_right_iff (build : Build) (rflag : Int) :
    CallbackRight env con (onClientHello build env con rflag) ↔
      (rflag ≠ 0 → rflag ≠ 2 → con.Certifies → env.Prepared con.keypair con.nonce build.testsClaims →
        env.Delivered con.keypair con.nonce) := by
  have hout : (⟨none, 0, none, 0⟩ : Outputs).quote = none := rfl
  unfold onClientHello
  by_cases hzero : rflag = 0
  · rw [if_neg (not_not.2 hzero)]
    refine iff_of_true ?_ fun hne => absurd hzero hne
    rintro r rc extensions ⟨⟩ hrc
    cases hrc
  by_cases htwo : rflag = 2
  · rw [if_pos hzero]
    dsimp only
    rw [if_pos htwo]
    refine iff_of_true ?_ fun _ hne => absurd htwo hne
    rintro r rc extensions ⟨⟩ hrc
    cases hrc
  · rw [if_pos hzero]
    dsimp only
    rw [if_neg htwo, build.makeCertificateEvidence_eq]
    refine (callbackRight_bind_iff (useBuilt con)).trans ((madeRight_iff build.testsClaims build.ctype hout).trans ?_)
    simp [hzero, htwo]

/-- The certificates of the callbacks are right where none with evidence can be made, where the quote is delivered and
the evidence built, and where no quote can be asked for, but in `on_client_cert` only if the pointer to the evidence,
which is not set, is null by chance. -/
theorem callbacks_right_iff (build : Build) (env : EvidenceEnv) (con : CallbackEnv) (rflag : Int) :
    (CallbackRight env con (onClientHello build env con rflag) ↔
      (rflag ≠ 0 → rflag ≠ 2 → con.Certifies → env.Prepared con.keypair con.nonce build.testsClaims →
        env.Delivered con.keypair con.nonce)) ∧
    (CallbackRight env con (onClientCert build env con) ↔
      (con.Certifies →
        (env.Prepared con.keypair con.nonce build.testsClaims → env.Delivered con.keypair con.nonce) ∧
        (¬ env.Prepared con.keypair con.nonce build.testsClaims →
          env.Refused con.keypair con.nonce build.testsClaims ∨ env.Hashable con.keypair con.nonce →
            con.evidence = none))) :=
  ⟨onClientHello_right_iff build rflag, onClientCert_right_iff build⟩

end

/-! ### A quote that is not given -/

/-- An enclave whose call for the quote itself fails. -/
def withoutQuote : EvidenceEnv where
  claims := fun _ _ => (0, some [0xa0])
  csz := 0
  sha256 := fun _ => ByteBuf.zero 32
  qeTargetInfo := (0, 0, [])
  createReport := fun _ _ => (0, [])
  quoteSize := (0, 0, 8)
  mallocQuote := true
  getQuote := fun _ qsz => ⟨1, 0, ByteBuf.zero qsz.toNat⟩
  evidence := ⟨true, true, true, true, true, true, true⟩

/-- A session for which every call succeeds. -/
def plainSession : CallbackEnv where
  keypair := some [0x2d]
  nonce := List.replicate 32 0
  cert := ⟨true, true, true, true, true⟩
  useCertificate := true
  usePrivateKey := true
  serverCrt := true
  serverKey := true
  evidence := none
  evsz := 0

/-- The code is -1, and both extensions are in the certificate, the quote with a buffer that no call has written. -/
theorem withoutQuote_not_right : ¬ CallbackRight withoutQuote plainSession
    (onClientHello .sgx withoutQuote plainSession 1) := by
  intro h
  have hrun : onClientHello .sgx withoutQuote plainSession 1 = .ok ⟨1, some (-1), some (keyExtensions ++
      [.quote ⟨some (List.replicate 8 0), 8⟩, .taggedEvidence ⟨none, 0⟩])⟩ := rfl
  have hright := h _ (-1) _ hrun rfl rfl
  exact hright.none_added (by decide) (.quote ⟨some (List.replicate 8 0), 8⟩) (by simp) trivial

end PortableTlsRa.Libcert
