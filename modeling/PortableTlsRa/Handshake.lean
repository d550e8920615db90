import PortableTlsRa.CertAdmission
import PortableTlsRa.CertificateEvidence
import PortableTlsRa.KeyAgreement
import PortableTlsRa.Lib.Correspondence

/-!
# What an admission rests on

Servers that admit certificates, enclaves that have evidence made and enclaves of other make, in any order.  The
network and the hosts are not modelled: a certificate is whatever a server is given, and of a quote no more is known
than that one that verifies is of a report that was made.  An admitted certificate then has the key of an enclave that
has asked for its quote; if that enclave has a TPM the evidence was asked for in the session and in no other
(`admission_agrees`, `admission_injective`).  Nothing compares the identity of the enclave, so that a quote of any other
enclave does as well, and what an enclave without a TPM has made is good for every session.
-/

namespace PortableTlsRa.Libtlsra

open CSem Cbor Libcert Protocol Tpmdaemon
open scoped List

/-! ### The enclaves -/

/-- The claims builder of an enclave, with the calls it makes. -/
inductive ClaimsSource (PKey : Type) where
  | sgx (env : IssueEnv)
  | sgxTpm2 (env : Libtpm2.ClaimsEnv PKey)

variable {PKey : Type} {σ : Type} (sha256 : Bytes → ByteBuf 32)

namespace ClaimsSource

def build : ClaimsSource PKey → Libcert.Build
  | sgx _ => .sgx
  | sgxTpm2 _ => .sgxTpm2

/-- The code of the claims builder and the claims. -/
def claims (pubkey nonce : Bytes) : ClaimsSource PKey → Checked (Int × Option Bytes)
  | sgx env => makeCborSgxClaims env pubkey >>= fun claims => .ok (if claims.isSome then 0 else -1, claims)
  | sgxTpm2 env => Libtpm2.makeCborTpm2ClaimsFromEnclave sha256 env pubkey nonce

/-- The bytes of the key that the claims builder hashes. -/
def keyDer (pubkey : Bytes) : ClaimsSource PKey → Option Bytes
  | sgx env =>
    match pem2Der env.mallocPem pubkey with
    | .ok (0, der) => some der
    | _ => none
  | sgxTpm2 env => (env.readPubkey pubkey).bind fun pkey => (env.i2dPubkey pkey).der

/-- libcbor encodes as the standard says, and OpenSSL has the one SHA-256. -/
def Works : ClaimsSource PKey → Prop
  | sgx env => env.serialize = encode ∧ env.sha256 = sha256
  | sgxTpm2 env => env.digests = true

end ClaimsSource

/-- The part of `make_certificate_evidence` up to the report: the report data, or none where the function has left. -/
def makeReport (testsClaims : Bool) (env : EvidenceEnv) (pubkey : Option Bytes) (nonce : Bytes) :
    Checked (Option (ByteBuf 64)) := do
  let (rc, claims) := env.claims pubkey nonce
  if testsClaims && rc < 0 then return none
  let message ← readBytes claims (env.claimsSize claims)
  let reportData := env.reportData message
  let (rc, qrc, targetInfo) := env.qeTargetInfo
  if rc ≠ 0 ∨ qrc ≠ 0 then return none
  let (rc, _) := env.createReport targetInfo reportData
  if rc ≠ 0 then return none
  return some reportData

/-- A run of `make_certificate_evidence` as far as the report: the calls, the public key that was made for the session,
its nonce, and the report data. -/
structure Issue (PKey : Type) where
  source : ClaimsSource PKey
  steps : EvidenceEnv
  pubkey : Bytes
  nonce : ByteBuf 32
  reportData : ByteBuf 64

namespace Issue

variable (i : Issue PKey)

/-- The bytes of which the report data has the hash. -/
def message : Bytes := i.steps.message (some i.pubkey) i.nonce.1

/-- The code made the claims, with a SHA-256 that is the function. -/
structure Genuine : Prop where
  works : i.source.Works sha256
  claims : i.source.claims sha256 i.pubkey i.nonce.1 = .ok (i.steps.claims (some i.pubkey) i.nonce.1)
  sha256 : i.steps.sha256 = sha256
  report : makeReport i.source.build.testsClaims i.steps (some i.pubkey) i.nonce.1 = .ok (some i.reportData)

end Issue

/-- The report data is where the header of the SGX SDK has it in a quote of an enclave. -/
structure QuoteOfReport (quote : Bytes) (reportData : ByteBuf 64) : Prop where
  quoteType : ∃ quoteType, readRange quote 4 4 = .ok quoteType ∧ ofLittleEndian quoteType = 0
  reportData : readRange quote 368 64 = .ok reportData.1

/-! ### The histories -/

/-- A call of the verification callback for a self-signed leaf: the session, the outcomes of the calls, the certificate,
the random numbers of the session, what the array for the nonce held, and the call of the evidence verifier. -/
structure Admission (σ : Type) where
  session : σ
  env : CertEnv
  cert : PeerCert
  ssl : SslSession
  old : ByteBuf 32
  call : Option EvidenceCall

namespace Admission

variable (a : Admission σ)

def ctx : StoreCtx := ⟨some a.cert, some a.ssl, 0, x509VErrDepthZeroSelfSignedCert⟩

def nonce : ByteBuf 32 := sessionNonce a.ssl .serverside a.old

/-- The certificate has the key. -/
def KeyDer (der : Bytes) : Prop :=
  ∃ pubkey, a.cert.pubkey = some pubkey ∧ pem2Der a.env.verifyEnv.mallocPem pubkey = .ok (0, der)

/-- A tagged extension of the certificate has the quote and the claims. -/
def Carries (quote claims : Bytes) : Prop :=
  ∃ oct ctype, (tcgDiceTaggedOid, oct) ∈ a.cert.extensions ∧
    EvidenceIs a.env.verifyEnv.toSgxEnv oct ctype quote claims

/-- The evidence that the verifier was called with has a quote of the report. -/
def Quotes (reportData : ByteBuf 64) : Prop :=
  ∃ call ctype quote claims, a.call = some call ∧
    EvidenceIs a.env.verifyEnv.toSgxEnv call.oct ctype quote claims ∧ QuoteOfReport quote reportData

/-- The evidence in the certificate passes for its key, the quote verifies, and the nonce that is compared is that of
the session. -/
structure Passed (quote claims : Bytes) (pairs : List (Item × Item)) : Prop where
  evidence : ∃ oct pubkey ctype, a.call = some ⟨oct, pubkey, a.nonce, VerifiedFlag.evidence⟩ ∧
    (tcgDiceTaggedOid, oct) ∈ a.cert.extensions ∧ a.cert.pubkey = some pubkey ∧
    EvidencePasses a.env.verifyEnv.toSgxEnv oct pubkey ctype quote claims pairs
  quoted : ¬ (a.env.verifyEnv.qvResult quote).Refused
  nonce : a.nonce = (lastOf (nonceOf a.env.verifyEnv.cbor) pairs).getD a.env.stack.outNonce

end Admission

/-- A session begins with a nonce, a report is made for evidence, a quote is made for an enclave of other make, and a
certificate is admitted. -/
inductive Event (PKey σ : Type) where
  | begin (session : σ) (nonce : ByteBuf 32)
  | issue (i : Issue PKey)
  | foreign (quote : Bytes)
  | accept (a : Admission σ)

/-- The quote is of a report that was made. -/
def Quoted (events : List (Event PKey σ)) (quote : Bytes) : Prop :=
  .foreign quote ∈ events ∨ ∃ i, .issue i ∈ events ∧ QuoteOfReport quote i.reportData

/-- What is relied on of a server: libcbor decodes what the standard says, a digest is the one of SHA-256, and a quote
that verifies is of a report that was made. -/
structure Trusted (events : List (Event PKey σ)) (env : VerifyEnv) : Prop where
  codec : Codec env.cbor.load encode
  sha256 : ∀ message digest, env.sha256 message = some digest → digest = sha256 message
  quoted : ∀ quote, ¬ (env.qvResult quote).Refused → Quoted events quote

/-- What may happen after the events.  Sessions begin once, and with nonces that nobody has used before. -/
inductive Allowed (events : List (Event PKey σ)) : Event PKey σ → Prop
  | begin {session : σ} {nonce : ByteBuf 32} : (∀ other, .begin session other ∉ events) →
      (∀ other, .begin other nonce ∉ events) → (∀ i, .issue i ∈ events → i.nonce ≠ nonce) →
      Allowed events (.begin session nonce)
  | issue {i : Issue PKey} : i.Genuine sha256 → Allowed events (.issue i)
  | foreign {quote : Bytes} : Allowed events (.foreign quote)
  | accept {a : Admission σ} : .begin a.session a.nonce ∈ events → Trusted sha256 events a.env.verifyEnv →
      verify a.env 0 a.ctx .serverside a.old = .ok (1, a.call) → Allowed events (.accept a)

/-- The messages that are hashed on either side: claims, and keys. -/
def hashedMessages (events : List (Event PKey σ)) : Set Bytes :=
  {message | (∃ i, .issue i ∈ events ∧ (i.message = message ∨ i.source.keyDer i.pubkey = some message)) ∨
    ∃ a, .accept a ∈ events ∧ ((∃ quote, a.Carries quote message) ∨ a.KeyDer message)}

/-! ### The report -/

section
variable {env : EvidenceEnv} {pubkey : Option Bytes} {nonce : Bytes} {testsClaims : Bool} {reportData : ByteBuf 64}

/-- A report is made of the hash of the claims, or of what is taken for them. -/
theorem makeReport_eq_some_iff :
    makeReport testsClaims env pubkey nonce = .ok (some reportData) ↔
      ¬ env.Refused pubkey nonce testsClaims ∧ env.Hashable pubkey nonce ∧
        (env.qeTargetInfo.1 = 0 ∧ env.qeTargetInfo.2.1 = 0) ∧ (env.report pubkey nonce).1 = 0 ∧
        reportData = env.reportData (env.message pubkey nonce) := by
  by_cases hclaims : env.Refused pubkey nonce testsClaims
  · have htest : (testsClaims && decide ((env.claims pubkey nonce).1 < 0)) = true := by
      simpa [EvidenceEnv.Refused] using hclaims
    refine iff_of_false ?_ fun h => h.1 hclaims
    unfold makeReport
    dsimp only
    rw [if_pos htest]
    simp
  have htest : ¬ (testsClaims && decide ((env.claims pubkey nonce).1 < 0)) = true := by
    simpa [EvidenceEnv.Refused] using hclaims
  unfold makeReport
  dsimp only
  rw [if_neg htest]
  by_cases hhash : env.Hashable pubkey nonce
  · rw [readBytes_claims hhash, ok_bind]
    by_cases hinfo : env.qeTargetInfo.1 ≠ 0 ∨ env.qeTargetInfo.2.1 ≠ 0
    · rw [if_pos hinfo]
      refine iff_of_false (by simp) fun h => ?_
      omega
    rw [if_neg hinfo]
    by_cases hreport : (env.createReport env.qeTargetInfo.2.2 (env.reportData (env.message pubkey nonce))).1 ≠ 0
    · rw [if_pos hreport]
      exact iff_of_false (by simp) fun h => hreport h.2.2.2.1
    rw [if_neg hreport]
    rw [not_or, not_not, not_not] at hinfo
    simp only [pure_eq_ok, Except.ok.injEq, Option.some.injEq]
    exact ⟨fun h => ⟨hclaims, hhash, hinfo, not_not.1 hreport, h.symm⟩, fun h => h.2.2.2.2.symm⟩
  · rw [readBytes_claims_error hhash]
    exact iff_of_false (by rintro ⟨⟩) fun h => hhash h.2.1

/-- No quote is asked for without a report: whatever code `make_certificate_evidence` returns, a quote in its outputs
that was not there before comes after a report of the claims. -/
theorem makeReport_of_quote {ctype : Nat} {out out' : Outputs} {rc : Int} (hout : out.quote = none)
    (h : Libcert.makeCertificateEvidence testsClaims ctype env pubkey nonce out = .ok (rc, out'))
    (hquote : out'.quote ≠ none) :
    makeReport testsClaims env pubkey nonce = .ok (some (env.reportData (env.message pubkey nonce))) := by
  by_cases hclaims : env.Refused pubkey nonce testsClaims
  · rw [makeCertificateEvidence_refused ctype out hclaims] at h
    cases h
    exact absurd hout hquote
  by_cases hhash : env.Hashable pubkey nonce
  · by_cases hprepared : env.Prepared pubkey nonce testsClaims
    · exact makeReport_eq_some_iff.2 ⟨hclaims, hhash, hprepared.qeTargetInfo, hprepared.report, rfl⟩
    · obtain ⟨qsz, hrun⟩ := makeCertificateEvidence_unprepared ctype hout hclaims hhash hprepared
      rw [hrun] at h
      cases h
      exact absurd hout hquote
  · rw [makeCertificateEvidence_unhashable ctype out hclaims hhash] at h
    cases h

theorem QuoteOfReport.sgxQuoteOf {quote message : Bytes} (h : QuoteOfReport quote (env.reportData message)) :
    SgxQuoteOf env.sha256 quote message := by
  refine ⟨h.quoteType, ?_⟩
  have hread := h.reportData
  have hhash := (env.sha256 message).2
  unfold readRange at hread ⊢
  split_ifs at hread with hle
  rw [if_pos (by omega)]
  have hstart := congrArg (List.take 32) (Except.ok.inj hread)
  rw [List.take_take, Nat.min_eq_left (by decide), EvidenceEnv.reportData, List.take_left' hhash] at hstart
  rw [hstart]

end

/-! ### The claims -/

/-- The claims of the two enclaves for the bytes of a key and a nonce. -/
def ClaimsSource.pairs (der nonce : Bytes) : ClaimsSource PKey → List (Item × Item)
  | sgx _ => [Libtpm2.hashPair (sha256 der)]
  | sgxTpm2 env => [Libtpm2.hashPair (sha256 der), Libtpm2.noncePair nonce,
      Libtpm2.quotePair (env.quoteAnswer (nonce.take 32)).quote]

section
variable {sha256} {source : ClaimsSource PKey} {pubkey nonce message der : Bytes} {rc : Int}

theorem makeCborSgxClaims_eq_some {env : IssueEnv} (hserialize : env.serialize = encode)
    (h : makeCborSgxClaims env pubkey = .ok (some message)) :
    ∃ der, pem2Der env.mallocPem pubkey = .ok (0, der) ∧
      message = encode (.map true [Libtpm2.hashPair (env.sha256 der)]) := by
  obtain ⟨entry, hentry, h⟩ := bind_eq_ok.1 h
  obtain ⟨hash, hhash, hentry⟩ := bind_eq_ok.1 hentry
  obtain ⟨⟨rc, der⟩, hder, hhash⟩ := bind_eq_ok.1 hhash
  by_cases hrc : rc = 0
  · subst hrc
    refine ⟨der, hder, ?_⟩
    cases hsha : env.mallocSha with
    | false =>
      rw [hsha] at hhash
      cases hhash
      cases hentry
      cases h
    | true =>
      rw [hsha] at hhash
      cases hhash
      rw [hserialize] at h hentry
      have hentry := Except.ok.inj hentry
      rw [if_neg (encode_array_ne_nil true _)] at hentry
      subst hentry
      have h := Except.ok.inj h
      rw [if_neg (encode_map_ne_nil true _)] at h
      exact (Option.some.inj h).symm
  · simp only [ne_eq, hrc, not_false_eq_true, if_true] at hhash
    cases hhash
    cases hentry
    cases h

/-- What a claims builder has set its claims to are the claims for the key it has read. -/
theorem ClaimsSource.claims_eq_some (hworks : source.Works sha256)
    (h : source.claims sha256 pubkey nonce = .ok (rc, some message)) :
    ∃ der, source.keyDer pubkey = some der ∧ message = encode (.map true (source.pairs sha256 der nonce)) := by
  cases source with
  | sgx env =>
    obtain ⟨claims, hclaims, h⟩ := bind_eq_ok.1 h
    cases h
    obtain ⟨der, hder, rfl⟩ := makeCborSgxClaims_eq_some hworks.1 hclaims
    refine ⟨der, ?_, ?_⟩
    · simp only [keyDer, hder]
    · rw [pairs, hworks.2]
  | sgxTpm2 env =>
    obtain ⟨-, -, der, hcalls, -, rfl⟩ := Libtpm2.makeCborTpm2ClaimsFromEnclave_eq_some_iff.1 h
    obtain ⟨pkey, hread, hmade, -⟩ := hcalls.key
    have hdigests : env.digests = true := hworks
    refine ⟨der, ?_, ?_⟩
    · rw [keyDer, hread, Option.bind_some, hmade, Libtpm2.DerResult.der]
    · rw [pairs, Libtpm2.ClaimsEnv.keyHash, if_pos hdigests]

theorem namedBytes_pairs (source : ClaimsSource PKey) (der : Bytes) (nonce : ByteBuf 32) :
    ∀ pair ∈ source.pairs sha256 der nonce.1, NamedBytes 11 1024 pair := by
  have hentry : (encode (Libtpm2.pkhashItem (sha256 der).1)).length ≤ 59 :=
    @pkhashEntry_length_le { makingEnclave with sha256 := sha256 } enclave codec_encode der
  have hhash : NamedBytes 11 1024 (Libtpm2.hashPair (sha256 der)) := ⟨_, _, rfl, by decide, by omega⟩
  cases source with
  | sgx env =>
    intro pair hpair
    rw [ClaimsSource.pairs, List.mem_singleton] at hpair
    exact hpair ▸ hhash
  | sgxTpm2 env =>
    have hlen := nonce.2
    have hquote := (env.quoteAnswer (nonce.1.take 32)).buf.2
    intro pair hpair
    simp only [ClaimsSource.pairs, List.mem_cons, List.not_mem_nil, or_false] at hpair
    rcases hpair with rfl | rfl | rfl
    · exact hhash
    · exact ⟨_, _, rfl, by decide, by omega⟩
    · refine ⟨_, _, rfl, by decide, ?_⟩
      rw [Libtpm2.QuoteAnswer.quote, List.length_take]
      omega

theorem serializable_pairs (sha256 : Bytes → ByteBuf 32) (source : ClaimsSource PKey) (der : Bytes)
    (nonce : ByteBuf 32) :
    Serializable (.map true (source.pairs sha256 der nonce.1)) := by
  refine serializable_namedBytes (by decide) (by decide) ?_ (namedBytes_pairs source der nonce)
  cases source with
  | sgx env => exact show 1 < 2 ^ 64 by decide
  | sgxTpm2 env => exact show 3 < 2 ^ 64 by decide

theorem hashPair_mem_pairs (source : ClaimsSource PKey) (der nonce : Bytes) :
    Libtpm2.hashPair (sha256 der) ∈ source.pairs sha256 der nonce := by
  cases source <;> exact List.mem_cons_self

/-- What the verifier takes for the nonce of the session is the nonce of the claims, if they have one. -/
theorem lastOf_nonceOf_pairs (cbor : Libcbor) (source : ClaimsSource PKey) (der : Bytes) (nonce : ByteBuf 32) :
    lastOf (nonceOf cbor) (source.pairs sha256 der nonce.1) =
      match source.build with
      | .sgx => none
      | .sgxTpm2 => some nonce := by
  have hhash : claimKey (lit "pubkey-hash") = .pubkeyHash := by decide
  have hnonce : claimKey (lit "nonce") = .nonce := by decide
  have hquote : claimKey (lit "tpm2-quote") = .tpm2Quote := by decide
  have hlen := nonce.2
  cases source <;>
    simp [lastOf, ClaimsSource.pairs, ClaimsSource.build, Libtpm2.hashPair, Libtpm2.noncePair, Libtpm2.quotePair,
      nonceOf, claimBytes, Libcbor.bytestring, hhash, hnonce, hquote, hlen]

end

/-! ### One admission and one issue -/

section
variable {sha256} {i : Issue PKey} {venv : VerifyEnv} {oct pem quote claims : Bytes} {ctype : Nat}
  {pairs : List (Item × Item)}

/-- Of one quote that is of a report, the claims that pass have the digest of the message that was reported. -/
theorem sha256_claims_eq {message : Bytes} {env : EvidenceEnv} (hsha : ∀ m digest, venv.sha256 m = some digest →
    digest = env.sha256 m) (hquote : QuoteOfReport quote (env.reportData message))
    (hreport : ReportDataIs venv.toSgxEnv quote claims) : env.sha256 claims = env.sha256 message := by
  obtain ⟨⟨quoteType, htype, hzero⟩, hdata⟩ := hquote.sgxQuoteOf
  obtain ⟨quoteType', htype', ⟨htdx, -⟩ | ⟨-, digest, hdigest, hread⟩⟩ := hreport
  · rw [htype] at htype'
    cases htype'
    omega
  · rw [hdata] at hread
    rw [← hsha claims digest hdigest]
    exact (Subtype.ext (Except.ok.inj hread)).symm

/-- A claim with the hash of a key passes for a certificate whose key has that hash. -/
theorem keyDer_of_hashPair {hash : ByteBuf 32} (hcodec : Codec venv.cbor.load encode)
    (hsha : ∀ m digest, venv.sha256 m = some digest → digest = sha256 m)
    (h : ClaimPasses venv.toSgxEnv pem (Libtpm2.hashPair hash)) :
    ∃ der, pem2Der venv.mallocPem pem = .ok (0, der) ∧ sha256 der = hash := by
  have hkey : claimKey (lit "pubkey-hash") = .pubkeyHash := by decide
  have hitem : Serializable (Libtpm2.pkhashItem hash.1) :=
    serializable_pkhashEntry { makingEnclave with sha256 := fun _ => hash } []
  obtain ⟨name, hname, -, hpass⟩ := h
  cases hname
  rw [hkey] at hpass
  obtain ⟨entry, hashEntry, der, hvalue, -, hload, hder, hof⟩ := hpass
  cases hvalue
  rw [hcodec.load _ hitem] at hload
  cases hload
  obtain ⟨digest, hdigest, hbytes⟩ := Libtpm2.hashEntryOf_sha256_iff.1 hof
  refine ⟨der, hder, ?_⟩
  rw [← hsha der digest hdigest]
  exact (Subtype.ext (Item.bytes.inj hbytes)).symm

/-- Evidence that passes with a quote of the report has the claims that were made, and the certificate has a key with
the hash that the issuer took. -/
theorem Issue.Genuine.claims_of_passes (hgenuine : i.Genuine sha256) (hcodec : Codec venv.cbor.load encode)
    (hsha : ∀ m digest, venv.sha256 m = some digest → digest = sha256 m)
    (hpasses : EvidencePasses venv.toSgxEnv oct pem ctype quote claims pairs)
    (hquote : QuoteOfReport quote i.reportData) (hinj : sha256 claims = sha256 i.message → claims = i.message) :
    ∃ der der', i.source.keyDer i.pubkey = some der ∧ pairs = i.source.pairs sha256 der i.nonce.1 ∧
      pem2Der venv.mallocPem pem = .ok (0, der') ∧ sha256 der' = sha256 der := by
  obtain ⟨-, -, -, -, hreported⟩ := makeReport_eq_some_iff.1 hgenuine.report
  rw [hreported] at hquote
  have hsteps := hgenuine.sha256
  have heq : claims = i.message := by
    refine hinj ?_
    rw [← hsteps] at hsha ⊢
    exact sha256_claims_eq hsha hquote hpasses.reportData
  rcases hmade : i.steps.claims (some i.pubkey) i.nonce.1 with ⟨rc, made⟩
  cases made with
  | none =>
    refine absurd heq ?_
    rw [Issue.message, EvidenceEnv.message, hmade]
    exact hpasses.parts.claims_ne_nil
  | some message =>
    have hmessage : i.message = message := by
      rw [Issue.message, EvidenceEnv.message, hmade]
      rfl
    have hsource := hgenuine.claims
    rw [hmade] at hsource
    obtain ⟨der, hder, hencode⟩ := ClaimsSource.claims_eq_some hgenuine.works hsource
    have hload := hcodec.load _ (serializable_pairs sha256 i.source der i.nonce)
    rw [← hencode, ← hmessage, ← heq, hpasses.load] at hload
    have hpairs : pairs = i.source.pairs sha256 der i.nonce.1 := by simpa using hload
    have hpair := hpasses.claims _ (hpairs ▸ hashPair_mem_pairs i.source der i.nonce.1)
    obtain ⟨der', hder', hhash⟩ := keyDer_of_hashPair hcodec hsha hpair
    exact ⟨der, der', hder, hpairs, hder', hhash⟩

end

/-! ### Correspondence -/

/-- A session begins with the nonce. -/
def OpensNonce (e : Event PKey σ) (nonce : ByteBuf 32) : Prop := ∃ session, e = .begin session nonce

/-- A session begins with the nonce, or evidence is asked for with it. -/
def UsesNonce (e : Event PKey σ) (nonce : ByteBuf 32) : Prop :=
  OpensNonce e nonce ∨ ∃ i, e = .issue i ∧ i.nonce = nonce

/-- The admission rests on the issue: it is later and for the same key.  With a TPM the evidence was asked for in the
session of the admission; without one the nonce of the session was on the stack of the server. -/
structure RestsOn (events : List (Event PKey σ)) (a : Admission σ) (i : Issue PKey) : Prop where
  before : [.issue i, .accept a] <+ events
  key : ∃ der, i.source.keyDer i.pubkey = some der ∧ a.KeyDer der
  sgx : i.source.build = .sgx → a.env.stack.outNonce = a.nonce
  sgxTpm2 : i.source.build = .sgxTpm2 →
    i.nonce = a.nonce ∧ [.begin a.session a.nonce, .issue i, .accept a] <+ events

/-- A certificate is admitted for its evidence, with a quote of the report of the issue. -/
structure AdmittedFor (events : List (Event PKey σ)) (a : Admission σ) (i : Issue PKey) : Prop where
  accepted : .accept a ∈ events
  decides : OnlyEvidenceDecides a.env a.cert
  quotes : a.Quotes i.reportData

section
variable {sha256} {events pre post : List (Event PKey σ)} {a : Admission σ}

theorem fresh_nonce : Fresh (@Allowed PKey σ sha256) OpensNonce UsesNonce := by
  rintro pre e nonce hallowed ⟨session, rfl⟩ f hf huses
  cases hallowed with
  | begin hsession hnonce hissue =>
    rcases huses with ⟨other, rfl⟩ | ⟨i, rfl, hi⟩
    · exact hnonce other hf
    · exact hissue i hf hi

/-- What is hashed for an admission. -/
theorem claims_mem_hashedMessages {quote claims : Bytes} (ha : .accept a ∈ events) (h : a.Carries quote claims) :
    claims ∈ hashedMessages events := .inr ⟨a, ha, .inl ⟨quote, h⟩⟩

theorem key_mem_hashedMessages {der : Bytes} (ha : .accept a ∈ events) (h : a.KeyDer der) :
    der ∈ hashedMessages events := .inr ⟨a, ha, .inr h⟩

/-- Where only evidence decides, an admitted certificate carries evidence that passes. -/
theorem passed_of_verify (hdecides : OnlyEvidenceDecides a.env a.cert)
    (h : verify a.env 0 a.ctx .serverside a.old = .ok (1, a.call)) :
    ∃ quote claims pairs, a.Passed quote claims pairs := by
  rw [verify_of_leaf rfl rfl rfl rfl] at h
  obtain ⟨⟨rc, call⟩, hcert, hret⟩ := bind_eq_ok.1 h
  have hcontents : verifyContents a.env a.cert a.nonce = .ok (rc, call) := by
    rw [← hcert, verifyCert, if_neg (not_not.2 hdecides.chain)]
    rfl
  have hflag : hasVerifiedFlag rc = true := by
    by_contra hflag
    rw [if_neg hflag] at hret
    cases hret
  obtain ⟨oct, pubkey, hcall, hext, hpubkey, haccepted⟩ := hdecides.accepted hcontents hflag
  have hcalled : a.call = some ⟨oct, pubkey, a.nonce, VerifiedFlag.evidence⟩ := by
    rw [if_pos hflag] at hret
    cases hret
    exact hcall
  obtain ⟨pairs, ⟨ctype, quote, claims, hpasses, hlater⟩, hnonce⟩ := verifySgxEvidence_accepts_iff.1 haccepted
  exact ⟨quote, claims, pairs, ⟨oct, pubkey, ctype, hcalled, hext, hpubkey, hpasses⟩, hlater.qvResult, hnonce⟩

/-- The nonce that the evidence of an issue is accepted for. -/
theorem nonce_of_pairs {i : Issue PKey} {der : Bytes} {nonce : ByteBuf 32} {stack : EvidenceOut} {cbor : Libcbor}
    (h : nonce = (lastOf (nonceOf cbor) (i.source.pairs sha256 der i.nonce.1)).getD stack.outNonce) :
    (i.source.build = .sgx → stack.outNonce = nonce) ∧ (i.source.build = .sgxTpm2 → i.nonce = nonce) := by
  rw [lastOf_nonceOf_pairs] at h
  constructor <;> intro hbuild <;> rw [hbuild] at h <;> exact h.symm

theorem Issue.genuine_of_mem {i : Issue PKey} (run : Protocol.Run (Allowed sha256) events) (hi : .issue i ∈ events) :
    i.Genuine sha256 := by
  obtain ⟨pre, post, -, -, hallowed⟩ := run.exists_pre hi
  cases hallowed with
  | issue hgenuine => exact hgenuine

/-- A certificate whose evidence passes with a quote of a report has the key of the claims that were reported, and was
admitted for their nonce. -/
theorem key_nonce_of_passed {i : Issue PKey} {quote claims : Bytes} {pairs : List (Item × Item)}
    (hinj : Set.InjOn sha256 (hashedMessages events)) (hgenuine : i.Genuine sha256) (hi : .issue i ∈ events)
    (ha : .accept a ∈ events) (htrusted : Trusted sha256 pre a.env.verifyEnv) (hpassed : a.Passed quote claims pairs)
    (hquote : QuoteOfReport quote i.reportData) :
    (∃ der, i.source.keyDer i.pubkey = some der ∧ a.KeyDer der) ∧
      (i.source.build = .sgx → a.env.stack.outNonce = a.nonce) ∧ (i.source.build = .sgxTpm2 → i.nonce = a.nonce) := by
  obtain ⟨oct, pubkey, ctype, -, hext, hpubkey, hpasses⟩ := hpassed.evidence
  have hcarried : claims ∈ hashedMessages events := claims_mem_hashedMessages ha ⟨oct, ctype, hext, hpasses.parts⟩
  have hmade : i.message ∈ hashedMessages events := .inl ⟨i, hi, .inl rfl⟩
  obtain ⟨der, der', hder, rfl, hder', hhash⟩ :=
    hgenuine.claims_of_passes htrusted.codec htrusted.sha256 hpasses hquote (hinj hcarried hmade)
  have hkey : a.KeyDer der' := ⟨pubkey, hpubkey, hder'⟩
  have hsame : der' = der := hinj (key_mem_hashedMessages ha hkey) (.inl ⟨i, hi, .inr hder⟩) hhash
  exact ⟨⟨der, hder, hsame ▸ hkey⟩, nonce_of_pairs hpassed.nonce⟩

/-- An admission rests on every issue before it that the quote in the certificate is of. -/
theorem restsOn_of_passed {i : Issue PKey} {quote claims : Bytes} {pairs : List (Item × Item)}
    (run : Protocol.Run (Allowed sha256) pre) (hinj : Set.InjOn sha256 (hashedMessages (pre ++ .accept a :: post)))
    (hallowed : Allowed sha256 pre (.accept a)) (hpassed : a.Passed quote claims pairs) (hi : .issue i ∈ pre)
    (hquote : QuoteOfReport quote i.reportData) : RestsOn (pre ++ .accept a :: post) a i := by
  have haccept : .accept a ∈ pre ++ .accept a :: post := List.mem_append_right pre List.mem_cons_self
  have hissue : .issue i ∈ pre ++ .accept a :: post := List.mem_append_left _ hi
  cases hallowed with
  | accept hbegin htrusted hverify =>
    obtain ⟨hkey, hsgx, htpm2⟩ :=
      key_nonce_of_passed hinj (Issue.genuine_of_mem run hi) hissue haccept htrusted hpassed hquote
    refine ⟨pair_sublist_iff.2 ⟨pre, post, rfl, hi⟩, hkey, hsgx, fun hbuild => ?_⟩
    have hnonce := htpm2 hbuild
    have hbefore : [.begin a.session a.nonce, .issue i] <+ pre :=
      run.sublist_of_fresh fresh_nonce hbegin hi nofun ⟨a.session, rfl⟩ (.inr ⟨i, rfl, hnonce⟩)
    exact ⟨hnonce, sublist_append_cons hbefore⟩

/-- In every history of trusted servers, unless SHA-256 collides in it, a certificate that is admitted for its evidence
has a quote of an enclave of other make, or its key is one that an enclave of this library has had quoted.  If that one
has a TPM it was after the session began and for its nonce, and if not the nonce was on the stack of the server. -/
theorem admission_agrees (sha256 : Bytes → ByteBuf 32) (events : List (Event PKey σ)) (a : Admission σ)
    (run : Protocol.Run (Allowed sha256) events) (hinj : Set.InjOn sha256 (hashedMessages events))
    (ha : .accept a ∈ events) (hdecides : OnlyEvidenceDecides a.env a.cert) :
    (∃ quote claims, a.Carries quote claims ∧ [.foreign quote, .accept a] <+ events) ∨ ∃ i, RestsOn events a i := by
  obtain ⟨pre, post, rfl, hrun, hallowed⟩ := run.exists_pre ha
  have hguard := hallowed
  cases hguard with
  | accept hbegin htrusted hverify =>
    obtain ⟨quote, claims, pairs, hpassed⟩ := passed_of_verify hdecides hverify
    rcases htrusted.quoted quote hpassed.quoted with hforeign | ⟨i, hi, hquote⟩
    · obtain ⟨oct, pubkey, ctype, -, hext, -, hpasses⟩ := hpassed.evidence
      exact .inl ⟨quote, claims, ⟨oct, ctype, hext, hpasses.parts⟩, pair_sublist_iff.2 ⟨pre, post, rfl, hforeign⟩⟩
    · exact .inr ⟨i, restsOn_of_passed hrun hinj hallowed hpassed hi hquote⟩

/-- What is admitted for the report of an enclave with a TPM is admitted into the session that began with the nonce of
its claims. -/
theorem AdmittedFor.begin_mem {i : Issue PKey} (h : AdmittedFor events a i)
    (run : Protocol.Run (Allowed sha256) events) (hinj : Set.InjOn sha256 (hashedMessages events))
    (hi : .issue i ∈ events) (hbuild : i.source.build = .sgxTpm2) : .begin a.session i.nonce ∈ events := by
  obtain ⟨pre, post, hevents, -, hallowed⟩ := run.exists_pre h.accepted
  cases hallowed with
  | accept hbegin htrusted hverify =>
    obtain ⟨quote, claims, pairs, hpassed⟩ := passed_of_verify h.decides hverify
    have hquote : QuoteOfReport quote i.reportData := by
      obtain ⟨call, ctype, quote', claims', hcall, hparts, hquote⟩ := h.quotes
      obtain ⟨oct, pubkey, ctype', hcalled, -, -, hpasses⟩ := hpassed.evidence
      rw [hcalled] at hcall
      cases hcall
      have hload := hparts.load
      rw [hpasses.parts.load] at hload
      cases hload
      exact hquote
    obtain ⟨-, -, htpm2⟩ :=
      key_nonce_of_passed hinj (Issue.genuine_of_mem run hi) hi h.accepted htrusted hpassed hquote
    rw [htpm2 hbuild, hevents]
    exact List.mem_append_left _ hbegin

/-- Two certificates that are admitted with a quote of one report of an enclave with a TPM are admitted into one
session, by whatever servers. -/
theorem admission_injective (sha256 : Bytes → ByteBuf 32) (events : List (Event PKey σ)) (a a' : Admission σ)
    (i : Issue PKey) (run : Protocol.Run (Allowed sha256) events) (hinj : Set.InjOn sha256 (hashedMessages events))
    (hi : .issue i ∈ events) (hbuild : i.source.build = .sgxTpm2) (h : AdmittedFor events a i)
    (h' : AdmittedFor events a' i) : a.session = a'.session := by
  have hbegin := h.begin_mem run hinj hi hbuild
  have hbegin' := h'.begin_mem run hinj hi hbuild
  have hsame := run.opens_unique fresh_nonce (fun _ _ => .inl) hbegin hbegin' ⟨a.session, rfl⟩ ⟨a'.session, rfl⟩
  exact (Event.begin.inj hsame).1

end

/-! ### The tag of the evidence -/

section
variable {venv : VerifyEnv} {body : Item} {pem quote claims : Bytes} {ctype c c' : Nat} {pairs : List (Item × Item)}

/-- The quote is of the claims alone, so that the tag may be exchanged. -/
theorem evidencePasses_retag (hcodec : Codec venv.cbor.load encode) (hbody : Serializable body)
    (hc : c = teeQuoteCborTag ∨ c = teeTpm2QuoteCborTag) (hc' : c' = teeQuoteCborTag ∨ c' = teeTpm2QuoteCborTag)
    (h : EvidencePasses venv.toSgxEnv (encode (.tag c body)) pem ctype quote claims pairs) :
    ctype = c ∧ EvidencePasses venv.toSgxEnv (encode (.tag c' body)) pem c' quote claims pairs := by
  have hserializable (n : Nat) (hn : n = teeQuoteCborTag ∨ n = teeTpm2QuoteCborTag) : Serializable (.tag n body) := by
    refine ⟨?_, hbody⟩
    rcases hn with rfl | rfl <;> decide
  have hload := h.parts.load
  rw [hcodec.load _ (hserializable c hc), Option.some.injEq, Item.tag.injEq] at hload
  obtain ⟨rfl, rfl⟩ := hload
  refine ⟨rfl, { h with parts := { h.parts with ctype_mem := hc', load := ?_, evidence_ne_nil := ?_ } }⟩
  · exact hcodec.load _ (hserializable c' hc')
  · exact encode_ne_nil (hserializable c' hc')

/-- Evidence of an enclave with a TPM whose tag is exchanged is accepted exactly when the evidence itself would be with
a host that accepts every TPM2 quote. -/
theorem retagged_accepted_iff (venv : VerifyEnv) (body : Item) (pem : Bytes) (nonce : ByteBuf 32) (stack : EvidenceOut)
    (hcodec : Codec venv.cbor.load encode) (hbody : Serializable body) :
    verifySgxEvidence venv (encode (.tag teeQuoteCborTag body)) pem nonce stack = .ok VerifiedFlag.evidence ↔
      verifySgxEvidence { venv with ocallVerifyTpm2Quote := fun _ _ => (0, 0) }
        (encode (.tag teeTpm2QuoteCborTag body)) pem nonce stack = .ok VerifiedFlag.evidence := by
  rw [verifySgxEvidence_accepts_iff, verifySgxEvidence_accepts_iff]
  constructor
  · rintro ⟨pairs, ⟨ctype, quote, claims, hpasses, hlater⟩, hnonce⟩
    obtain ⟨-, hpasses'⟩ := evidencePasses_retag hcodec hbody (.inl rfl) (.inr rfl) hpasses
    exact ⟨pairs, ⟨_, quote, claims, hpasses', { hlater with tpm2 := fun _ => ⟨rfl, le_refl 0⟩ }⟩, hnonce⟩
  · rintro ⟨pairs, ⟨ctype, quote, claims, hpasses, hlater⟩, hnonce⟩
    obtain ⟨-, hpasses'⟩ := evidencePasses_retag hcodec hbody (.inr rfl) (.inl rfl) hpasses
    exact ⟨pairs, ⟨_, quote, claims, hpasses', { hlater with tpm2 := fun h => absurd h (by decide) }⟩, hnonce⟩

end

/-! ### A session with one enclave -/

/-- An enclave that reads every key as the short one and is given a TPM2 quote of one byte. -/
def shortKeyEnclave : Libtpm2.ClaimsEnv Unit :=
  { Libtpm2.refusedNonce with
    i2dPubkey := fun _ => .made shortKey.der
    addNonce := ⟨true, true, true⟩
    ocallMakeTpm2Quote := fun nonce => ⟨0, (makingEnclave.ocallMakeTpm2Quote nonce).1, 1⟩ }

def shortKeyClaims : Bytes := encode (.map true (tpm2Claims makingEnclave shortKey.der (ByteBuf.zero 32).1 [7]))

def shortKeyIssue : Issue Unit where
  source := .sgxTpm2 shortKeyEnclave
  steps := { withoutQuote with claims := fun _ _ => (0, some shortKeyClaims), sha256 := Sha256.hash }
  pubkey := shortKey.text
  nonce := ByteBuf.zero 32
  reportData := ⟨(Sha256.hash shortKeyClaims).1 ++ List.replicate 32 0, by
    rw [List.length_append, (Sha256.hash shortKeyClaims).2, List.length_replicate]⟩

def shortKeyQuote : Bytes := quoteOfDigest (Sha256.hash shortKeyClaims)

def shortKeyEvidence : Bytes := (makeCborSgxEvidence makingEnclave shortKeyQuote shortKeyClaims teeTpm2QuoteCborTag).2

/-- A server that verifies the one quote, with a host that accepts the TPM2 quote. -/
def shortKeyServer : CertEnv :=
  { refusingServer with
    x509VerifyCert := 1
    verifyEnv := { verifyingEnclave with
      qvResult := fun quote => if quote = shortKeyQuote then .ok else .invalidSignature
      ocallVerifyTpm2Quote := fun _ _ => (0, 0) } }

theorem length_zeros_le : (List.replicate 32 (0 : UInt8)).length ≤ 32 := by decide

/-- The admission of the certificate with the evidence, over what the array for the nonce held. -/
def shortKeyAdmission (old : ByteBuf 32) : Admission Nat where
  session := 0
  env := shortKeyServer
  cert := ⟨some shortKey.text, [(x509OidForQuote, []), (tcgDiceTaggedOid, shortKeyEvidence)]⟩
  ssl := ⟨⟨List.replicate 32 0, length_zeros_le⟩, ⟨List.replicate 32 0, length_zeros_le⟩⟩
  old := old
  call := some ⟨shortKeyEvidence, shortKey.text, ByteBuf.zero 32, VerifiedFlag.evidence⟩

theorem shortKeyIssue_genuine : shortKeyIssue.Genuine Sha256.hash where
  works := rfl
  claims := by
    refine Libtpm2.makeCborTpm2ClaimsFromEnclave_eq_some_iff.2 ⟨rfl, rfl, shortKey.der, ⟨?_, ?_, ?_, ?_, rfl⟩, ?_, ?_⟩
    · exact ⟨rfl, rfl, rfl, rfl, rfl, rfl, rfl⟩
    · exact ⟨(), rfl, rfl, by decide⟩
    · exact ⟨rfl, rfl, rfl⟩
    · exact ⟨rfl, rfl, rfl⟩
    · exact ⟨by decide, by decide, by decide, rfl, rfl, rfl⟩
    · exact congrArg (fun pairs => encode (.map true pairs)) rfl
  sha256 := rfl
  report := makeReport_eq_some_iff.2 ⟨by rintro ⟨⟨⟩, -⟩, by rintro ⟨⟩, ⟨rfl, rfl⟩, rfl, rfl⟩

theorem shortKeyIssue_pairs : tpm2Claims makingEnclave shortKey.der (ByteBuf.zero 32).1 [7] =
    shortKeyIssue.source.pairs Sha256.hash shortKey.der (ByteBuf.zero 32).1 := rfl

theorem shortKeyQuote_of_report : QuoteOfReport shortKeyQuote shortKeyIssue.reportData where
  quoteType := ⟨_, quoteOfDigest_type _, by decide⟩
  reportData := by
    have hquote : shortKeyQuote =
        List.replicate 368 0 ++ shortKeyIssue.reportData.1 ++ List.replicate 588 0 := by
      have hzeros : List.replicate 620 (0 : UInt8) = List.replicate 32 0 ++ List.replicate 588 0 := by
        rw [List.replicate_append_replicate]
      rw [shortKeyQuote, quoteOfDigest, hzeros]
      simp only [shortKeyIssue, List.append_assoc]
    have hread := readRange_append (List.replicate 368 0) shortKeyIssue.reportData.1 (List.replicate 588 0)
    rwa [List.length_replicate, shortKeyIssue.reportData.2, ← hquote] at hread

theorem shortKeyEvidence_passes :
    EvidencePasses shortKeyServer.verifyEnv.toSgxEnv shortKeyEvidence shortKey.text teeTpm2QuoteCborTag shortKeyQuote
      shortKeyClaims (tpm2Claims makingEnclave shortKey.der (ByteBuf.zero 32).1 [7]) := by
  have hlength : shortKeyQuote.length = 1020 := length_quoteOfDigest _
  exact evidencePasses_tpm2Claims codec_encode enclave_works (by decide) (by decide) (by decide)
    (by rw [hlength]; decide) (by rw [hlength]; decide) (sgxQuoteOf_quoteOfDigest shortKeyClaims)

theorem shortKeyAdmission_nonce (old : ByteBuf 32) : (shortKeyAdmission old).nonce = ByteBuf.zero 32 := by
  refine Subtype.ext ?_
  have hdrop : old.1.drop 32 = [] := List.drop_eq_nil_of_le (by rw [old.2])
  exact (congrArg (List.replicate 32 (0 : UInt8) ++ ·) hdrop).trans (List.append_nil _)

theorem shortKeyEvidence_accepted :
    verifySgxEvidence shortKeyServer.verifyEnv shortKeyEvidence shortKey.text (ByteBuf.zero 32) shortKeyServer.stack =
      .ok VerifiedFlag.evidence := by
  refine verifySgxEvidence_accepts_iff.2 ⟨_, ⟨_, _, _, shortKeyEvidence_passes, ?_⟩, ?_⟩
  · refine ⟨rfl, rfl, rfl, rfl, rfl, ?_, fun _ => ⟨rfl, Int.le_refl 0⟩⟩
    have hok : shortKeyServer.verifyEnv.qvResult shortKeyQuote = .ok := by
      simp only [shortKeyServer, if_true]
    rw [hok]
    exact not_false
  · rw [shortKeyIssue_pairs, lastOf_nonceOf_pairs]
    rfl

/-- With the other tag it is accepted although the host refuses the TPM2 quote. -/
theorem shortKeyEvidence_retagged :
    verifySgxEvidence { shortKeyServer.verifyEnv with ocallVerifyTpm2Quote := fun _ _ => (0, -1) }
      (encode (.tag teeQuoteCborTag (.array true [.bytes shortKeyQuote, .bytes shortKeyClaims]))) shortKey.text
      (ByteBuf.zero 32) shortKeyServer.stack = .ok VerifiedFlag.evidence := by
  have hquote : shortKeyQuote.length = 1020 := length_quoteOfDigest _
  have hclaims : shortKeyClaims.length < 2 ^ 64 :=
    @tpm2Claims_length_lt makingEnclave enclave [7] codec_encode shortKey.der (ByteBuf.zero 32) (by decide)
  have hbody : Serializable (.array true [.bytes shortKeyQuote, .bytes shortKeyClaims]) :=
    ⟨rfl, show 2 < 2 ^ 64 by decide, show shortKeyQuote.length < 2 ^ 64 by rw [hquote]; decide, hclaims, trivial⟩
  exact (retagged_accepted_iff _ _ _ _ _ codec_encode hbody).2 shortKeyEvidence_accepted

theorem shortKeyEvidence_found (old : ByteBuf 32) :
    ExtensionFound shortKeyServer.calls (shortKeyAdmission old).cert tcgDiceTaggedOid shortKeyEvidence := by
  refine ⟨rfl, 1, by decide, rfl, ?_⟩
  intro j hj ext hext
  obtain rfl : j = 0 := by omega
  cases hext
  decide

theorem shortKeyAdmission_decides (old : ByteBuf 32) :
    OnlyEvidenceDecides shortKeyServer (shortKeyAdmission old).cert where
  chain := rfl
  pemWrite := fun _ _ h => absurd rfl h
  mallocPub := fun _ _ _ => rfl
  extension := fun _ _ => .inl ⟨_, shortKeyEvidence_found old⟩

theorem shortKeyAdmission_verify (old : ByteBuf 32) :
    verify shortKeyServer 0 (shortKeyAdmission old).ctx .serverside old = .ok (1, (shortKeyAdmission old).call) := by
  have hnonce : sessionNonce (shortKeyAdmission old).ssl .serverside old = ByteBuf.zero 32 :=
    shortKeyAdmission_nonce old
  have hchain : ¬ shortKeyServer.x509VerifyCert ≠ 1 := fun h => h rfl
  have hcontents : verifyContents shortKeyServer (shortKeyAdmission old).cert (ByteBuf.zero 32) =
      .ok ((VerifiedFlag.evidence : Int), (shortKeyAdmission old).call) := by
    rw [verifyContents_of_evidence ⟨rfl, rfl, rfl, rfl⟩ (shortKeyEvidence_found old), shortKeyEvidence_accepted]
    rfl
  have hserver : ¬ Which.serverside = Which.clientside := by decide
  have hflag : hasVerifiedFlag (VerifiedFlag.evidence : Int) = true := by decide
  rw [verify_of_leaf rfl rfl rfl rfl, hnonce, verifyCert, if_neg hchain, if_neg hserver, hcontents, ok_bind,
    if_pos hflag]

/-- An array that is not clear. -/
def filledArray : ByteBuf 32 := ⟨List.replicate 32 1, List.length_replicate⟩

/-- The session begins, evidence is asked for, and the certificate is admitted twice. -/
def shortKeyEvents : List (Event Unit Nat) :=
  [.begin 0 (ByteBuf.zero 32), .issue shortKeyIssue, .accept (shortKeyAdmission (ByteBuf.zero 32)),
    .accept (shortKeyAdmission filledArray)]

theorem shortKeyServer_trusted {events : List (Event Unit Nat)} (h : .issue shortKeyIssue ∈ events) :
    Trusted Sha256.hash events shortKeyServer.verifyEnv where
  codec := codec_encode
  sha256 := fun message digest hdigest => (Option.some.inj hdigest).symm
  quoted := by
    intro quote hquote
    by_cases hsame : quote = shortKeyQuote
    · exact hsame ▸ .inr ⟨shortKeyIssue, h, shortKeyQuote_of_report⟩
    · have hrefused : shortKeyServer.verifyEnv.qvResult quote = .invalidSignature := if_neg hsame
      rw [hrefused] at hquote
      exact absurd trivial hquote

theorem shortKeyEvents_run : Protocol.Run (Allowed Sha256.hash) shortKeyEvents := by
  have haccept (events : List (Event Unit Nat)) (old : ByteBuf 32) (hbegin : .begin 0 (ByteBuf.zero 32) ∈ events)
      (hissue : .issue shortKeyIssue ∈ events) : Allowed Sha256.hash events (.accept (shortKeyAdmission old)) := by
    refine .accept ?_ (shortKeyServer_trusted hissue) (shortKeyAdmission_verify old)
    rw [shortKeyAdmission_nonce]
    exact hbegin
  have hbegin : Protocol.Run (Allowed Sha256.hash) (([] : List (Event Unit Nat)) ++ [.begin 0 (ByteBuf.zero 32)]) :=
    .step .nil (.begin (fun _ => List.not_mem_nil) (fun _ => List.not_mem_nil) fun _ h => absurd h List.not_mem_nil)
  have hissue := hbegin.step (.issue shortKeyIssue_genuine)
  have hfirst := hissue.step (haccept _ (ByteBuf.zero 32) (.head _) (.tail _ (.head _)))
  exact hfirst.step (haccept _ filledArray (.head _) (.tail _ (.head _)))

/-- The claims and the key have different digests. -/
theorem shortKeyClaims_ne : Sha256.hash shortKeyClaims ≠ Sha256.hash shortKey.der := by
  decide +kernel

/-- What is hashed for one of the admissions. -/
theorem shortKeyAdmission_hashed {old : ByteBuf 32} {message : Bytes}
    (h : (∃ quote, (shortKeyAdmission old).Carries quote message) ∨ (shortKeyAdmission old).KeyDer message) :
    message = shortKeyClaims ∨ message = shortKey.der := by
  rcases h with ⟨quote, oct, ctype, hext, hparts⟩ | ⟨pubkey, hpubkey, hder⟩
  · have hoct : oct = shortKeyEvidence := by
      have hne : tcgDiceTaggedOid ≠ x509OidForQuote := by decide
      simpa [shortKeyAdmission, hne] using hext
    have hload := hparts.load
    rw [hoct] at hload
    have hsame := shortKeyEvidence_passes.parts.load.symm.trans hload
    simp only [Option.some.injEq, Item.tag.injEq, Item.array.injEq, List.cons.injEq, Item.bytes.injEq] at hsame
    exact .inl hsame.2.2.2.1.symm
  · obtain rfl := Option.some.inj hpubkey
    obtain ⟨-, -, -, hsame⟩ := pem2Der_pem_iff.1 hder
    exact .inr hsame

theorem shortKeyEvents_injOn : Set.InjOn Sha256.hash (hashedMessages shortKeyEvents) := by
  have hmem : ∀ message ∈ hashedMessages shortKeyEvents, message = shortKeyClaims ∨ message = shortKey.der := by
    rintro message (⟨i, hi, hmessage⟩ | ⟨a, ha, hmessage⟩)
    · obtain rfl : i = shortKeyIssue := by simpa [shortKeyEvents] using hi
      rcases hmessage with rfl | hder
      · exact .inl rfl
      · exact .inr (Option.some.inj hder).symm
    · simp only [shortKeyEvents, List.mem_cons, reduceCtorEq, Event.accept.injEq, List.not_mem_nil, or_false,
        false_or] at ha
      rcases ha with rfl | rfl <;> exact shortKeyAdmission_hashed hmessage
  intro message hmessage message' hmessage' hsame
  rcases hmem message hmessage with rfl | rfl <;> rcases hmem message' hmessage' with rfl | rfl
  · rfl
  · exact absurd hsame shortKeyClaims_ne
  · exact absurd hsame.symm shortKeyClaims_ne
  · rfl

/-- The admission rests on the issue, or on a quote for an enclave of other make. -/
theorem shortKeyEvents_agree :
    (∃ quote claims, (shortKeyAdmission (ByteBuf.zero 32)).Carries quote claims ∧
      [.foreign quote, .accept (shortKeyAdmission (ByteBuf.zero 32))] <+ shortKeyEvents) ∨
      ∃ i, RestsOn shortKeyEvents (shortKeyAdmission (ByteBuf.zero 32)) i :=
  admission_agrees Sha256.hash shortKeyEvents _ shortKeyEvents_run shortKeyEvents_injOn (.tail _ (.tail _ (.head _)))
    (shortKeyAdmission_decides _)

theorem shortKeyAdmission_quotes (old : ByteBuf 32) : (shortKeyAdmission old).Quotes shortKeyIssue.reportData :=
  ⟨_, _, _, _, rfl, shortKeyEvidence_passes.parts, shortKeyQuote_of_report⟩

/-- Both admissions are into the one session. -/
theorem shortKeyEvents_injective :
    (shortKeyAdmission (ByteBuf.zero 32)).session = (shortKeyAdmission filledArray).session :=
  admission_injective Sha256.hash shortKeyEvents _ _ shortKeyIssue shortKeyEvents_run shortKeyEvents_injOn
    (.tail _ (.head _)) rfl
    ⟨.tail _ (.tail _ (.head _)), shortKeyAdmission_decides _, shortKeyAdmission_quotes _⟩
    ⟨.tail _ (.tail _ (.tail _ (.head _))), shortKeyAdmission_decides _, shortKeyAdmission_quotes _⟩

end PortableTlsRa.Libtlsra
