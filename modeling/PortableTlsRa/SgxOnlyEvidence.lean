import PortableTlsRa.SgxTpm2Evidence

/-!
# The evidence of an enclave without a TPM

`make_certificate_evidence` of an enclave with an SGX quote alone, and `make_cbor_sgx_claims` with the functions of
`libintel.c` below it.  The only claim is the hash of the key.  The nonce of the session is an argument that is not
used, but the verifier compares it all the same, with a buffer that no claim has written: the evidence is accepted
where the stack held the nonce before (`sgxOnlyEvidence_complete_iff`).
-/

namespace PortableTlsRa

open CSem Cbor

/-! ### The code -/

/-- libcbor, OpenSSL, the allocations and the platform: the target information of the quoting enclave, a report for
it, and the size and the bytes of a quote of a report.  The calls give their status, the calls to the host also the
code of the host. -/
structure IssueEnv extends MakeEnv where
  mallocPem : Bool
  mallocSha : Bool
  qeTargetInfo : Int × Int × Bytes
  createReport : Bytes → ByteBuf 64 → Int × Bytes
  quoteSize : Int × Int × UInt32
  mallocQuote : Bool
  getQuote : Bytes → (qsz : UInt32) → Int × Int × ByteBuf qsz.toNat

namespace Libintel

/-- What `*hash` is set to, or none when the code is -1. -/
def cborBstrFromPkSha (env : IssueEnv) (pubKey : Bytes) : Checked (Option Item) := do
  let (rc, pkDer) ← pem2Der env.mallocPem pubKey
  if rc ≠ 0 then return none
  if !env.mallocSha then return none
  return some (.bytes (env.sha256 pkDer).1)

/-- Returns the serialised entry, or none when the result is false. -/
def makeCborPkhashEntry (env : IssueEnv) (pPubKey : Bytes) : Checked (Option Bytes) := do
  match ← cborBstrFromPkSha env pPubKey with
  | none => return none
  | some cborHashValue =>
    let hashEntryBuf := env.serialize (.array true [.uint .w8 ianaHashAlgRegistrySha256, cborHashValue])
    return if hashEntryBuf = [] then none else some hashEntryBuf

end Libintel

/-- Returns the claims, or none when the code is -1. -/
def makeCborSgxClaims (env : IssueEnv) (pubkey : Bytes) : Checked (Option Bytes) := do
  match ← Libintel.makeCborPkhashEntry env pubkey with
  | none => return none
  | some hashEntryBuf =>
    let claims := env.serialize (.map true (addCborMap [] "pubkey-hash" hashEntryBuf))
    return if claims = [] then none else some claims

/-- The code of `make_certificate_evidence` and what it has set `*quote` and `*evidence` to. -/
structure IssuedEvidence where
  rc : Int
  quote : Option Bytes
  evidence : Option Bytes
deriving DecidableEq

/-- The report data: the hash of the claims and 32 zero bytes. -/
def reportDataOf (env : IssueEnv) (claims : Bytes) : ByteBuf 64 :=
  ⟨(env.sha256 claims).1 ++ List.replicate 32 0, by rw [List.length_append, (env.sha256 claims).2]; rfl⟩

def makeCertificateEvidence (env : IssueEnv) (pubkey _nonce : Bytes) : Checked IssuedEvidence := do
  match ← makeCborSgxClaims env pubkey with
  | none => return ⟨-1, none, none⟩
  | some claims =>
    let reportData := reportDataOf env claims
    let (rc, qrc, targetInfo) := env.qeTargetInfo
    if rc ≠ 0 ∨ qrc ≠ 0 then return ⟨-1, none, none⟩
    let (rc, appReport) := env.createReport targetInfo reportData
    if rc ≠ 0 then return ⟨-1, none, none⟩
    let (rc, qrc, qsz) := env.quoteSize
    if rc ≠ 0 ∨ qrc ≠ 0 then return ⟨-1, none, none⟩
    if !env.mallocQuote then return ⟨-1, none, none⟩
    -- the code of the host is not looked at here
    let (rc, _, quote) := env.getQuote appReport qsz
    if rc ≠ 0 then return ⟨-1, some quote.1, none⟩
    let (rc, evidence) := makeCborSgxEvidence env.toMakeEnv quote.1 claims teeQuoteCborTag
    if rc < 0 then return ⟨-1, some quote.1, some evidence⟩
    return ⟨0, some quote.1, some evidence⟩

/-! ### What is made -/

/-- The quote of the platform for the claims. -/
def IssueEnv.quoteOf (env : IssueEnv) (claims : Bytes) : ByteBuf env.quoteSize.2.2.toNat :=
  (env.getQuote (env.createReport env.qeTargetInfo.2.2 (reportDataOf env claims)).2 env.quoteSize.2.2).2.2

/-- The allocations and the calls of the platform succeed, and a quote is an SGX quote that holds the report data where
the header of the SGX SDK has it. -/
structure IssueEnv.Works (env : IssueEnv) : Prop where
  mallocPem : env.mallocPem = true
  mallocSha : env.mallocSha = true
  mallocQuote : env.mallocQuote = true
  qeTargetInfo : env.qeTargetInfo.1 = 0 ∧ env.qeTargetInfo.2.1 = 0
  createReport : ∀ targetInfo reportData, (env.createReport targetInfo reportData).1 = 0
  quoteSize : env.quoteSize.1 = 0 ∧ env.quoteSize.2.1 = 0
  getQuote : ∀ report qsz, (env.getQuote report qsz).1 = 0
  quoteType : ∀ claims, ∃ quoteType, readRange (env.quoteOf claims).1 4 4 = .ok quoteType ∧ ofLittleEndian quoteType = 0
  reportData : ∀ claims, readRange (env.quoteOf claims).1 368 64 = .ok (reportDataOf env claims).1

/-- The claims that are made for a key. -/
def sgxClaims (env : MakeEnv) (der : Bytes) : List (Item × Item) :=
  addCborMap [] "pubkey-hash" (env.serialize (pkhashEntry env der))

/-- The calls of the verifier succeed, and every quote verifies. -/
structure VerifyEnv.Succeeds (venv : VerifyEnv) : Prop where
  mallocOut : venv.mallocOut = true
  supplementalStatus : venv.supplementalStatus = 0
  supplementalQrc : venv.supplementalQrc = 0
  mallocSup : venv.mallocSup = true
  readRand : venv.readRand = 0
  qvResult : ∀ quote, venv.qvResult quote = .ok

/-- The evidence for the key and the nonce is made, and the verifier accepts it for them. -/
def SgxOnlyComplete (env : IssueEnv) (venv : VerifyEnv) (key : PemKey) (nonce : ByteBuf 32) (stack : EvidenceOut) :
    Prop :=
  ∃ quote evidence, makeCertificateEvidence env key.text nonce.1 = .ok ⟨0, some quote, some evidence⟩ ∧
    verifySgxEvidence venv evidence key.text nonce stack = .ok VerifiedFlag.evidence

section

variable {env : IssueEnv} {denv : SgxEnv} {venv : VerifyEnv} {key : PemKey} {nonce : ByteBuf 32}

theorem namedBytes_sgxClaims (hcodec : Codec denv.cbor.load env.serialize) (der : Bytes) :
    ∀ pair ∈ sgxClaims env.toMakeEnv der, NamedBytes 11 59 pair :=
  namedBytes_addCborMap (List.forall_mem_nil _) (by decide) (pkhashEntry_length_le hcodec der)

theorem serializable_sgxClaims (hcodec : Codec denv.cbor.load env.serialize) (der : Bytes) :
    Serializable (.map true (sgxClaims env.toMakeEnv der)) :=
  serializable_namedBytes (by decide) (by decide) (show 1 < 2 ^ 64 by decide) (namedBytes_sgxClaims hcodec der)

theorem sgxClaims_length_lt (hcodec : Codec denv.cbor.load env.serialize) (der : Bytes) :
    (env.serialize (.map true (sgxClaims env.toMakeEnv der))).length < 2 ^ 64 := by
  have hle := hcodec.length_le _ (serializable_sgxClaims hcodec der)
  have hencode := encode_namedBytes_length_le true (namedBytes_sgxClaims hcodec der)
  have hone : (sgxClaims env.toMakeEnv der).length = 1 := rfl
  rw [hone] at hencode
  omega

/-! ### The evidence is made -/

theorem libintel_makeCborPkhashEntry_iff (hcodec : Codec denv.cbor.load env.serialize) (hworks : env.Works)
    {entry : Bytes} :
    Libintel.makeCborPkhashEntry env key.text = .ok (some entry) ↔
      key.der ≠ [] ∧ key.der.length ≤ pubKeyMaxSize ∧ entry = env.serialize (pkhashEntry env.toMakeEnv key.der) := by
  have hne := hcodec.ne_nil _ (serializable_pkhashEntry env.toMakeEnv key.der)
  have hsha : ¬ (!env.mallocSha) = true := by simp [hworks.mallocSha]
  constructor
  · intro h
    obtain ⟨hash, hhash, h⟩ := bind_eq_ok.1 h
    obtain ⟨⟨rc, der⟩, hder, hhash⟩ := bind_eq_ok.1 hhash
    by_cases hrc : rc = 0
    · subst hrc
      obtain ⟨-, hderne, hderle, rfl⟩ := pem2Der_pem_iff.1 hder
      simp only [ne_eq, not_true_eq_false, if_false, hsha] at hhash
      cases hhash
      refine ⟨hderne, hderle, ?_⟩
      have hentry := Except.ok.inj h
      rw [pkhashEntry] at hne ⊢
      rw [if_neg hne, Option.some.injEq] at hentry
      exact hentry.symm
    · simp only [ne_eq, hrc, not_false_eq_true, if_true] at hhash
      cases hhash
      cases h
  · rintro ⟨hderne, hderle, hentry⟩
    have hder : pem2Der env.mallocPem key.text = .ok (0, key.der) :=
      pem2Der_pem_iff.2 ⟨hworks.mallocPem, hderne, hderle, rfl⟩
    have hhash : Libintel.cborBstrFromPkSha env key.text = .ok (some (.bytes (env.sha256 key.der).1)) := by
      rw [Libintel.cborBstrFromPkSha, hder, ok_bind]
      exact if_neg hsha
    rw [Libintel.makeCborPkhashEntry, hhash, hentry]
    exact congrArg Except.ok (if_neg hne)

theorem makeCborSgxClaims_iff (hcodec : Codec denv.cbor.load env.serialize) (hworks : env.Works) {claims : Bytes} :
    makeCborSgxClaims env key.text = .ok (some claims) ↔
      key.der ≠ [] ∧ key.der.length ≤ pubKeyMaxSize ∧
        claims = env.serialize (.map true (sgxClaims env.toMakeEnv key.der)) := by
  have hne := hcodec.ne_nil _ (serializable_sgxClaims hcodec key.der)
  rw [sgxClaims] at hne
  constructor
  · intro h
    obtain ⟨entry, hentry, h⟩ := bind_eq_ok.1 h
    cases entry with
    | none => cases h
    | some entry =>
      obtain ⟨hderne, hderle, rfl⟩ := (libintel_makeCborPkhashEntry_iff hcodec hworks).1 hentry
      have hclaims := Except.ok.inj h
      rw [if_neg hne, Option.some.injEq] at hclaims
      exact ⟨hderne, hderle, hclaims.symm⟩
  · intro ⟨hderne, hderle, hclaims⟩
    have hentry := (libintel_makeCborPkhashEntry_iff hcodec hworks).2 ⟨hderne, hderle, rfl⟩
    rw [makeCborSgxClaims, hentry, hclaims]
    exact congrArg Except.ok (if_neg hne)

/-- The evidence over the claims. -/
def sgxEvidence (env : IssueEnv) (claims : Bytes) : Bytes :=
  env.serialize (.tag teeQuoteCborTag (.array true [.bytes (env.quoteOf claims).1, .bytes claims]))

/-- Once the claims are made a working platform lets the evidence be made. -/
theorem makeCertificateEvidence_of_claims (hworks : env.Works) {claims pubkey nonce : Bytes}
    (hclaims : makeCborSgxClaims env pubkey = .ok (some claims)) :
    makeCertificateEvidence env pubkey nonce =
      .ok ⟨0, some (env.quoteOf claims).1, some (sgxEvidence env claims)⟩ := by
  have hinfo : ¬ (env.qeTargetInfo.1 ≠ 0 ∨ env.qeTargetInfo.2.1 ≠ 0) := by simp [hworks.qeTargetInfo]
  have hreport : ¬ (env.createReport env.qeTargetInfo.2.2 (reportDataOf env claims)).1 ≠ 0 := by
    simp [hworks.createReport]
  have hsize : ¬ (env.quoteSize.1 ≠ 0 ∨ env.quoteSize.2.1 ≠ 0) := by simp [hworks.quoteSize]
  have hmalloc : ¬ (!env.mallocQuote) = true := by simp [hworks.mallocQuote]
  have hquote : ¬ (env.getQuote (env.createReport env.qeTargetInfo.2.2 (reportDataOf env claims)).2
      env.quoteSize.2.2).1 ≠ 0 := by
    simp [hworks.getQuote]
  rw [makeCertificateEvidence, hclaims, ok_bind]
  dsimp only
  rw [if_neg hinfo, if_neg hreport, if_neg hsize, if_neg hmalloc, if_neg hquote]
  rfl

theorem makeCertificateEvidence_iff (hcodec : Codec denv.cbor.load env.serialize) (hworks : env.Works)
    {quote evidence : Bytes} :
    makeCertificateEvidence env key.text nonce.1 = .ok ⟨0, some quote, some evidence⟩ ↔
      key.der ≠ [] ∧ key.der.length ≤ pubKeyMaxSize ∧
        ∃ claims, claims = env.serialize (.map true (sgxClaims env.toMakeEnv key.der)) ∧
          quote = (env.quoteOf claims).1 ∧ evidence = sgxEvidence env claims := by
  constructor
  · intro h
    obtain ⟨claims, hclaims, hrest⟩ := bind_eq_ok.1 h
    cases claims with
    | none => cases hrest
    | some claims =>
      obtain ⟨hne, hle, heq⟩ := (makeCborSgxClaims_iff hcodec hworks).1 hclaims
      rw [makeCertificateEvidence_of_claims hworks hclaims] at h
      cases h
      exact ⟨hne, hle, claims, heq, rfl, rfl⟩
  · intro h
    rcases h with ⟨hne, hle, claims, heq, rfl, rfl⟩
    exact makeCertificateEvidence_of_claims hworks ((makeCborSgxClaims_iff hcodec hworks).2 ⟨hne, hle, heq⟩)

/-! ### The evidence is verified -/

/-- The quote for the claims holds the hash of the claims. -/
theorem sgxQuoteOf_quoteOf (hworks : env.Works) (claims : Bytes) :
    SgxQuoteOf env.sha256 (env.quoteOf claims).1 claims := by
  refine ⟨hworks.quoteType claims, ?_⟩
  have hread := hworks.reportData claims
  have hhash := (env.sha256 claims).2
  unfold readRange at hread ⊢
  split_ifs at hread with hle
  rw [if_pos (by omega)]
  have hstart := congrArg (List.take 32) (Except.ok.inj hread)
  rw [List.take_take, Nat.min_eq_left (by decide), reportDataOf, List.take_left' hhash] at hstart
  rw [hstart]

theorem serializable_sgxEvidence (hcodec : Codec denv.cbor.load env.serialize) (der : Bytes) :
    Serializable (.tag teeQuoteCborTag (.array true
      [.bytes (env.quoteOf (env.serialize (.map true (sgxClaims env.toMakeEnv der)))).1,
        .bytes (env.serialize (.map true (sgxClaims env.toMakeEnv der)))])) := by
  have hclaims := sgxClaims_length_lt hcodec der
  have hquote : (env.quoteOf (env.serialize (.map true (sgxClaims env.toMakeEnv der)))).1.length < 2 ^ 64 := by
    rw [(env.quoteOf _).2]
    have hlt := env.quoteSize.2.2.toNat_lt
    omega
  have htwo : [Item.bytes (env.quoteOf (env.serialize (.map true (sgxClaims env.toMakeEnv der)))).1,
      .bytes (env.serialize (.map true (sgxClaims env.toMakeEnv der)))].length < 2 ^ 64 := by
    rw [List.length_cons, List.length_singleton]
    decide
  exact ⟨by decide, rfl, htwo, hquote, hclaims, trivial⟩

/-- No claim is taken for a nonce. -/
theorem nonceOf_sgxClaims (cbor : Libcbor) (menv : MakeEnv) (der : Bytes) :
    lastOf (nonceOf cbor) (sgxClaims menv der) = none := by
  have hkey : claimKey (lit "pubkey-hash") = .pubkeyHash := by decide
  simp [lastOf, sgxClaims, addCborMap, nonceOf, claimBytes, Libcbor.bytestring, hkey]

/-- The evidence passes every check of the decoder exactly when the quote has an admissible size. -/
theorem evidencePasses_sgxClaims_iff (hcodec : Codec denv.cbor.load env.serialize) (hworks : env.Works)
    (hdworks : denv.Works env.sha256) (hne : key.der ≠ []) (hder : key.der.length ≤ pubKeyMaxSize) {claims : Bytes}
    (hclaims : claims = env.serialize (.map true (sgxClaims env.toMakeEnv key.der))) {ctype : Nat}
    {quote claims' : Bytes} {pairs : List (Item × Item)} :
    EvidencePasses denv (sgxEvidence env claims) key.text ctype quote claims' pairs ↔
      (quoteMinSize ≤ env.quoteSize.2.2.toNat ∧ env.quoteSize.2.2.toNat ≤ rawQuoteMaxSize) ∧
        ctype = teeQuoteCborTag ∧ quote = (env.quoteOf claims).1 ∧ claims' = claims ∧
        pairs = sgxClaims env.toMakeEnv key.der := by
  have hserializable := serializable_sgxClaims hcodec key.der
  have hevidence := serializable_sgxEvidence hcodec key.der
  rw [← hclaims] at hevidence
  have hloadEvidence : denv.cbor.load (sgxEvidence env claims) =
      some (.tag teeQuoteCborTag (.array true [.bytes (env.quoteOf claims).1, .bytes claims])) :=
    hcodec.load _ hevidence
  have hloadClaims : denv.cbor.load claims = some (.map true (sgxClaims env.toMakeEnv key.der)) := by
    rw [hclaims]
    exact hcodec.load _ hserializable
  have hsize := (env.quoteOf claims).2
  constructor
  · intro hpass
    have hparts := hpass.parts.load
    rw [hloadEvidence] at hparts
    cases hparts
    have hpairs := hpass.load
    rw [hloadClaims] at hpairs
    cases hpairs
    have hmin := hpass.parts.quote_le
    have hmax := hpass.quote_le
    rw [hsize] at hmin hmax
    exact ⟨⟨hmin, hmax⟩, rfl, rfl, rfl, rfl⟩
  · intro h
    rcases h with ⟨⟨hmin, hmax⟩, rfl, rfl, rfl, rfl⟩
    have hkey : claimKey (lit "pubkey-hash") = .pubkeyHash := by decide
    have hclaimsNe : claims' ≠ [] := by
      rw [hclaims]
      exact hcodec.ne_nil _ hserializable
    rw [← hsize] at hmin hmax
    constructor
    · exact ⟨hloadEvidence, hcodec.ne_nil _ hevidence, .inl rfl, hmin, hclaimsNe⟩
    · exact hdworks.mallocQuote
    · exact hdworks.mallocHash
    · exact (sgxQuoteOf_quoteOf hworks _).reportDataIs hdworks
    · exact hloadClaims
    · exact List.cons_ne_nil _ _
    · intro pair hpair
      simp only [sgxClaims, addCborMap, List.nil_append, List.mem_singleton] at hpair
      subst hpair
      refine ⟨lit "pubkey-hash", rfl, by decide, ?_⟩
      rw [hkey]
      exact pubkeyHashOf_pkhashEntry hcodec hdworks hne hder
    · exact hmax

/-- What is needed for the evidence to be made and accepted. -/
theorem SgxOnlyComplete.conditions (hcodec : Codec venv.cbor.load env.serialize) (hworks : env.Works)
    (hvworks : venv.toSgxEnv.Works env.sha256) {stack : EvidenceOut}
    (hcomplete : SgxOnlyComplete env venv key nonce stack) :
    (1 ≤ key.der.length ∧ key.der.length ≤ pubKeyMaxSize) ∧
      (quoteMinSize ≤ env.quoteSize.2.2.toNat ∧ env.quoteSize.2.2.toNat ≤ rawQuoteMaxSize) ∧
      stack.outNonce = nonce := by
  obtain ⟨quote, evidence, hmade, haccepted⟩ := hcomplete
  obtain ⟨hne, hder, claims, hclaims, -, rfl⟩ := (makeCertificateEvidence_iff hcodec hworks).1 hmade
  obtain ⟨pairs, ⟨ctype, quote', claims', hpass, -⟩, hnonce⟩ := verifySgxEvidence_accepts_iff.1 haccepted
  obtain ⟨hquote, -, -, -, rfl⟩ := (evidencePasses_sgxClaims_iff hcodec hworks hvworks hne hder hclaims).1 hpass
  rw [nonceOf_sgxClaims] at hnonce
  exact ⟨⟨List.length_pos_iff.2 hne, hder⟩, hquote, hnonce.symm⟩

/-- The evidence is made and accepted exactly when the key and the quote have admissible sizes and the stack of the
verifier holds the nonce. -/
theorem sgxOnlyEvidence_complete_iff (env : IssueEnv) (venv : VerifyEnv)
    (hcodec : Codec venv.cbor.load env.serialize) (hworks : env.Works) (hvworks : venv.toSgxEnv.Works env.sha256)
    (hsucceeds : venv.Succeeds) (key : PemKey) (nonce : ByteBuf 32) (stack : EvidenceOut) :
    SgxOnlyComplete env venv key nonce stack ↔
      (1 ≤ key.der.length ∧ key.der.length ≤ pubKeyMaxSize) ∧
        (quoteMinSize ≤ env.quoteSize.2.2.toNat ∧ env.quoteSize.2.2.toNat ≤ rawQuoteMaxSize) ∧
        stack.outNonce = nonce := by
  constructor
  · exact SgxOnlyComplete.conditions hcodec hworks hvworks
  · intro ⟨⟨hpos, hder⟩, hquote, hnonce⟩
    have hne : key.der ≠ [] := List.ne_nil_of_length_pos hpos
    have hmade : makeCertificateEvidence env key.text nonce.1 = .ok ⟨0, some _, some _⟩ :=
      (makeCertificateEvidence_iff hcodec hworks).2 ⟨hne, hder, _, rfl, rfl, rfl⟩
    refine ⟨_, _, hmade, verifySgxEvidence_accepts_iff.2 ⟨sgxClaims env.toMakeEnv key.der, ?_, ?_⟩⟩
    · have hpass := (evidencePasses_sgxClaims_iff hcodec hworks hvworks hne hder rfl).2 ⟨hquote, rfl, rfl, rfl, rfl⟩
      have hqv : ∀ quote, ¬ (venv.qvResult quote).Refused := by
        intro quote
        rw [hsucceeds.qvResult]
        exact id
      exact ⟨_, _, _, hpass, hsucceeds.mallocOut, hsucceeds.supplementalStatus, hsucceeds.supplementalQrc,
        hsucceeds.mallocSup, hsucceeds.readRand, hqv _, fun htpm2 => absurd htpm2 (by decide)⟩
    · rw [nonceOf_sgxClaims, ← hnonce]
      rfl

end

/-! ### A platform with quotes of 1020 bytes -/

/-- The first bytes of a quote with the report data, as many as the buffer has. -/
def quoteBuffer (report : Bytes) (qsz : UInt32) : ByteBuf qsz.toNat :=
  ⟨(List.replicate 368 0 ++ (report ++ List.replicate qsz.toNat 0)).take qsz.toNat, by
    rw [List.length_take, List.length_append, List.length_append, List.length_replicate, List.length_replicate]
    omega⟩

/-- A report is its report data, and every call succeeds. -/
def quotingPlatform : IssueEnv where
  toMakeEnv := makingEnclave
  mallocPem := true
  mallocSha := true
  qeTargetInfo := (0, 0, [])
  createReport := fun _ reportData => (0, reportData.1)
  quoteSize := (0, 0, 1020)
  mallocQuote := true
  getQuote := fun report qsz => (0, 0, quoteBuffer report qsz)

theorem quotingPlatform_quoteOf (claims : Bytes) :
    (quotingPlatform.quoteOf claims).1 =
      (List.replicate 368 0 ++ ((reportDataOf quotingPlatform claims).1 ++ List.replicate 1020 0)).take 1020 := by
  have hsize : (1020 : UInt32).toNat = 1020 := rfl
  show (quoteBuffer (reportDataOf quotingPlatform claims).1 1020).1 = _
  simp only [quoteBuffer, hsize]

theorem length_quotingPlatform_quoteOf (claims : Bytes) : (quotingPlatform.quoteOf claims).1.length = 1020 :=
  (quotingPlatform.quoteOf claims).2

theorem quotingPlatform_quoteType (claims : Bytes) :
    readRange (quotingPlatform.quoteOf claims).1 4 4 = .ok (List.replicate 4 0) := by
  rw [readRange, length_quotingPlatform_quoteOf, if_pos (by decide), quotingPlatform_quoteOf, List.drop_take,
    List.take_take, List.drop_append_of_le_length (by rw [List.length_replicate]; decide), List.drop_replicate,
    List.take_append_of_le_length (by rw [List.length_replicate]; decide), List.take_replicate]
  rfl

theorem quotingPlatform_reportData (claims : Bytes) :
    readRange (quotingPlatform.quoteOf claims).1 368 64 = .ok (reportDataOf quotingPlatform claims).1 := by
  have hdata := (reportDataOf quotingPlatform claims).2
  have hmin : min 64 (1020 - 368) = 64 := rfl
  rw [readRange, length_quotingPlatform_quoteOf, if_pos (by decide), quotingPlatform_quoteOf, List.drop_take,
    List.take_take, List.drop_left' List.length_replicate, hmin, List.take_left' hdata]

theorem quotingPlatform_works : quotingPlatform.Works where
  mallocPem := rfl
  mallocSha := rfl
  mallocQuote := rfl
  qeTargetInfo := ⟨rfl, rfl⟩
  createReport _ _ := rfl
  quoteSize := ⟨rfl, rfl⟩
  getQuote _ _ := rfl
  quoteType claims := ⟨_, quotingPlatform_quoteType claims, by decide⟩
  reportData := quotingPlatform_reportData

theorem verifyingEnclave_succeeds : verifyingEnclave.Succeeds := ⟨rfl, rfl, rfl, rfl, rfl, fun _ => rfl⟩

/-- A stack that is clear. -/
def clearStack : EvidenceOut := ⟨ByteBuf.zero 8192, 0, ByteBuf.zero 1000, 0, ByteBuf.zero 32, 0⟩

/-- The evidence of the key is accepted for the nonce that the stack holds. -/
theorem sgxOnlyEvidence_basePoint :
    SgxOnlyComplete quotingPlatform verifyingEnclave basePointKey countingNonce
      { clearStack with outNonce := countingNonce } :=
  (sgxOnlyEvidence_complete_iff quotingPlatform verifyingEnclave codec_encode quotingPlatform_works
    ⟨fun _ => rfl, rfl, rfl, rfl⟩ verifyingEnclave_succeeds basePointKey countingNonce
    { clearStack with outNonce := countingNonce }).2 ⟨⟨by decide, by decide⟩, ⟨by decide, by decide⟩, rfl⟩

/-- It is refused for another nonce. -/
theorem sgxOnlyEvidence_refuses_nonce :
    ¬ SgxOnlyComplete quotingPlatform verifyingEnclave basePointKey countingNonce clearStack := by
  intro hcomplete
  obtain ⟨-, -, hnonce⟩ := hcomplete.conditions codec_encode quotingPlatform_works ⟨fun _ => rfl, rfl, rfl, rfl⟩
  revert hnonce
  decide

end PortableTlsRa
