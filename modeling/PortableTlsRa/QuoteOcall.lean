import PortableTlsRa.SgxTpm2Evidence

/-!
# The verification of the quote as a call to the host

What `qv_result` holds when `verify_SGX_evidence` looks at it.  The status of `sgx_tls_verify_quote_ocall` and the code
of the quote library are assigned and not read again, and `qv_result` is not set before the call, so that a host that
writes nothing leaves the verdict to the stack.  With what the call leaves as the result, the function is
`verifySgxEvidence` (`verifySgxEvidenceOcall_eq`); `quoteVerified_iff` says when every accepted quote was verified.
-/

namespace PortableTlsRa

open CSem Cbor

/-! ### The code -/

/-- How `sgx_tls_verify_quote_ocall` ends: its status, and what it writes to `qrc` and to `qv_result`. -/
structure QuoteOcall where
  status : Int
  qrc : Option Int
  qvResult : Option QvResult
deriving DecidableEq

/-- The outcomes of the calls that `verify_SGX_evidence` makes itself, with that of the verification of a quote. -/
structure OcallEnv extends SgxEnv where
  mallocOut : Bool
  supplementalStatus : Int
  supplementalQrc : Int
  mallocSup : Bool
  readRand : Int
  verifyQuote : Bytes → QuoteOcall
  ocallVerifyTpm2Quote : Bytes → ByteBuf 32 → Int × Int

/-- `rc`, `qrc` and `qv_result` after the call. -/
def QuoteOcall.assign (o : QuoteOcall) (qrc : Int) (qvResult : QvResult) : Int × Int × QvResult :=
  (o.status, o.qrc.getD qrc, o.qvResult.getD qvResult)

/-- The part of `verify_SGX_evidence` after the extraction; `qvResult` is what the variable holds at first. -/
def verifyExtractedOcall (env : OcallEnv) (nonce : ByteBuf 32) (out : EvidenceOut) (qvResult : QvResult) : Nat :=
  if env.supplementalStatus ≠ 0 then 0
  else if env.supplementalQrc ≠ 0 then 0
  else if !env.mallocSup then 0
  else if env.readRand ≠ 0 then 0
  else
    let outQt := out.outQuote.1.take out.outQuoteSize
    -- the status and the code of the quote library are dropped here
    let (_, _, qvResult) := (env.verifyQuote outQt).assign env.supplementalQrc qvResult
    if qvResult.Refused then 0
    else if nonce ≠ out.outNonce then 0
    else if out.ctype = teeTpm2QuoteCborTag then
      if (env.ocallVerifyTpm2Quote out.sertpm2 nonce).1 ≠ 0 ∨ (env.ocallVerifyTpm2Quote out.sertpm2 nonce).2 < 0 then 0
      else VerifiedFlag.evidence
    else VerifiedFlag.evidence

/-- `stack` is what the buffers hold before the call. -/
def verifySgxEvidenceOcall (env : OcallEnv) (oct pemPubkey : Bytes) (nonce : ByteBuf 32) (stack : EvidenceOut)
    (qvResult : QvResult) : Checked Nat := do
  if !env.mallocOut then return 0
  match ← extractCborEvidenceAndCompareHash env.toSgxEnv oct pemPubkey stack with
  | .error _ => return 0
  | .ok out => return verifyExtractedOcall env nonce out qvResult

/-! ### The verification for given results -/

/-- The environment in which the verification of a quote leaves the result `r`. -/
def OcallEnv.withResult (env : OcallEnv) (r : Bytes → QvResult) : VerifyEnv where
  toSgxEnv := env.toSgxEnv
  mallocOut := env.mallocOut
  supplementalStatus := env.supplementalStatus
  supplementalQrc := env.supplementalQrc
  mallocSup := env.mallocSup
  readRand := env.readRand
  qvResult := r
  ocallVerifyTpm2Quote := env.ocallVerifyTpm2Quote

/-- What the variable holds after the call for a quote. -/
def OcallEnv.resultOf (env : OcallEnv) (qvResult : QvResult) (quote : Bytes) : QvResult :=
  (env.verifyQuote quote).qvResult.getD qvResult

variable {env : OcallEnv} {oct pemPubkey quote tpm2Quote : Bytes} {nonce : ByteBuf 32} {stack : EvidenceOut}
  {qvResult : QvResult} {ctype : Nat}

theorem verifySgxEvidenceOcall_eq :
    verifySgxEvidenceOcall env oct pemPubkey nonce stack qvResult =
      verifySgxEvidence (env.withResult (env.resultOf qvResult)) oct pemPubkey nonce stack := rfl

/-- The result of the quote is one check among the later ones. -/
theorem laterPass_withResult_iff {r : Bytes → QvResult} :
    LaterPass (env.withResult r) ctype quote tpm2Quote nonce ↔
      LaterPass (env.withResult fun _ => .ok) ctype quote tpm2Quote nonce ∧ ¬ (r quote).Refused := by
  constructor
  · intro ⟨hmalloc, hstatus, hqrc, hsup, hrand, hresult, htpm2⟩
    exact ⟨⟨hmalloc, hstatus, hqrc, hsup, hrand, id, htpm2⟩, hresult⟩
  · intro ⟨⟨hmalloc, hstatus, hqrc, hsup, hrand, _, htpm2⟩, hresult⟩
    exact ⟨hmalloc, hstatus, hqrc, hsup, hrand, hresult, htpm2⟩

/-- All checks but that of the quote pass, for claims whose entries are `pairs`. -/
def PassesButQuote (env : OcallEnv) (oct pemPubkey : Bytes) (nonce : ByteBuf 32) (quote : Bytes)
    (pairs : List (Item × Item)) : Prop :=
  ∃ ctype claims, EvidencePasses env.toSgxEnv oct pemPubkey ctype quote claims pairs ∧
    LaterPass (env.withResult fun _ => .ok) ctype quote ((lastOf (tpm2QuoteOf env.cbor) pairs).getD []) nonce

/-- What the verdict depends on. -/
theorem verifySgxEvidenceOcall_accepts_iff :
    verifySgxEvidenceOcall env oct pemPubkey nonce stack qvResult = .ok VerifiedFlag.evidence ↔
      ∃ quote pairs, PassesButQuote env oct pemPubkey nonce quote pairs ∧ ¬ (env.resultOf qvResult quote).Refused ∧
        nonce = (lastOf (nonceOf env.cbor) pairs).getD stack.outNonce := by
  rw [verifySgxEvidenceOcall_eq, verifySgxEvidence_accepts_iff]
  constructor
  · intro ⟨pairs, ⟨ctype, quote, claims, hpass, hlater⟩, hnonce⟩
    obtain ⟨hlater, hresult⟩ := laterPass_withResult_iff.1 hlater
    exact ⟨quote, pairs, ⟨ctype, claims, hpass, hlater⟩, hresult, hnonce⟩
  · intro ⟨quote, pairs, ⟨ctype, claims, hpass, hlater⟩, hresult, hnonce⟩
    exact ⟨pairs, ⟨ctype, quote, claims, hpass, laterPass_withResult_iff.2 ⟨hlater, hresult⟩⟩, hnonce⟩

/-! ### The quote that is submitted -/

/-- The run comes to the call of the host, with this quote. -/
def QuoteSubmitted (env : OcallEnv) (oct pemPubkey : Bytes) (stack : EvidenceOut) (quote : Bytes) : Prop :=
  ∃ out, extractCborEvidenceAndCompareHash env.toSgxEnv oct pemPubkey stack = .ok (.ok out) ∧
    quote = out.outQuote.1.take out.outQuoteSize ∧ env.mallocOut = true ∧ env.supplementalStatus = 0 ∧
    env.supplementalQrc = 0 ∧ env.mallocSup = true ∧ env.readRand = 0

/-- The call succeeds, the quote library too, and a result is written that is not a failure. -/
def QuoteOcall.Verified (o : QuoteOcall) : Prop :=
  o.status = 0 ∧ o.qrc = some 0 ∧ ∃ r, o.qvResult = some r ∧ ¬ r.Refused

theorem PassesButQuote.submitted {pairs : List (Item × Item)} (h : PassesButQuote env oct pemPubkey nonce quote pairs)
    (stack : EvidenceOut) : QuoteSubmitted env oct pemPubkey stack quote := by
  obtain ⟨ctype, claims, hpass, hlater⟩ := h
  obtain ⟨out, hextract⟩ := hpass.extracted stack
  obtain ⟨-, -, -, hquote⟩ := hpass.buffers hextract
  exact ⟨out, hextract, hquote.symm, hlater.mallocOut, hlater.supplementalStatus, hlater.supplementalQrc,
    hlater.mallocSup, hlater.readRand⟩

theorem QuoteSubmitted.unique {quote' : Bytes} (h : QuoteSubmitted env oct pemPubkey stack quote)
    (h' : QuoteSubmitted env oct pemPubkey stack quote') : quote = quote' := by
  obtain ⟨out, hextract, rfl, -⟩ := h
  obtain ⟨out', hextract', rfl, -⟩ := h'
  rw [hextract] at hextract'
  cases hextract'
  rfl

/-- A run that comes to the call ends with a verdict. -/
theorem QuoteSubmitted.verdict (h : QuoteSubmitted env oct pemPubkey stack quote) (nonce : ByteBuf 32)
    (qvResult : QvResult) :
    verifySgxEvidenceOcall env oct pemPubkey nonce stack qvResult = .ok 0 ∨
      verifySgxEvidenceOcall env oct pemPubkey nonce stack qvResult = .ok VerifiedFlag.evidence := by
  obtain ⟨out, hextract, -, hmalloc, -⟩ := h
  have hrun : verifySgxEvidenceOcall env oct pemPubkey nonce stack qvResult =
      .ok (verifyExtracted (env.withResult (env.resultOf qvResult)) nonce out) := by
    simp only [verifySgxEvidenceOcall, hmalloc, Bool.not_true, Bool.false_eq_true, if_false, hextract, ok_bind]
    rfl
  rw [hrun]
  rcases verifyExtracted_cases (env.withResult (env.resultOf qvResult)) nonce out with hzero | haccepted
  · left
    rw [hzero]
  · right
    rw [haccepted]

/-! ### What acceptance should mean -/

/-- Evidence is accepted only after its quote was verified, and a failing call ends with 0, whatever the stack holds. -/
structure QuoteVerifiedFirst (env : OcallEnv) (oct pemPubkey : Bytes) (nonce : ByteBuf 32) : Prop where
  verified : ∀ stack qvResult,
    verifySgxEvidenceOcall env oct pemPubkey nonce stack qvResult = .ok VerifiedFlag.evidence →
      ∃ quote, QuoteSubmitted env oct pemPubkey stack quote ∧ (env.verifyQuote quote).Verified
  failed : ∀ stack qvResult quote, QuoteSubmitted env oct pemPubkey stack quote →
    (env.verifyQuote quote).status ≠ 0 → verifySgxEvidenceOcall env oct pemPubkey nonce stack qvResult = .ok 0

/-- The nonce of the claims, if there is one, is the nonce of the session. -/
def NonceMayMatch (cbor : Libcbor) (nonce : ByteBuf 32) (pairs : List (Item × Item)) : Prop :=
  ∀ claimed, lastOf (nonceOf cbor) pairs = some claimed → claimed = nonce

/-- The quote of evidence whose other checks pass is verified first exactly when the host writes a result for it, and
that result is a failure unless the call and the quote library succeed. -/
theorem quoteVerified_iff (env : OcallEnv) (oct pemPubkey : Bytes) (nonce : ByteBuf 32) :
    QuoteVerifiedFirst env oct pemPubkey nonce ↔
      ∀ quote pairs, PassesButQuote env oct pemPubkey nonce quote pairs → NonceMayMatch env.cbor nonce pairs →
        ∃ r, (env.verifyQuote quote).qvResult = some r ∧
          (r.Refused ∨ (env.verifyQuote quote).status = 0 ∧ (env.verifyQuote quote).qrc = some 0) := by
  constructor
  · intro hfirst quote pairs hpass hmatch
    let stack : EvidenceOut := ⟨ByteBuf.zero 8192, 0, ByteBuf.zero 1000, 0, nonce, 0⟩
    have hnonce : nonce = (lastOf (nonceOf env.cbor) pairs).getD stack.outNonce := by
      cases hlast : lastOf (nonceOf env.cbor) pairs with
      | none => rfl
      | some claimed => exact (hmatch claimed hlast).symm
    -- the stack holds a result that is accepted
    have hverified : ¬ (env.resultOf .ok quote).Refused → (env.verifyQuote quote).Verified := by
      intro hresult
      have haccepted := verifySgxEvidenceOcall_accepts_iff.2 ⟨quote, pairs, hpass, hresult, hnonce⟩
      obtain ⟨quote', hsubmitted, hverified⟩ := hfirst.verified stack .ok haccepted
      obtain rfl := hsubmitted.unique (hpass.submitted stack)
      exact hverified
    unfold OcallEnv.resultOf at hverified
    cases hwritten : (env.verifyQuote quote).qvResult with
    | none =>
      rw [hwritten] at hverified
      obtain ⟨-, -, r, hr, -⟩ := hverified id
      rw [hwritten] at hr
      cases hr
    | some r =>
      refine ⟨r, rfl, ?_⟩
      by_cases hrefused : r.Refused
      · exact .inl hrefused
      · rw [hwritten] at hverified
        obtain ⟨hstatus, hqrc, -⟩ := hverified hrefused
        exact .inr ⟨hstatus, hqrc⟩
  · intro hcond
    have hverified : ∀ stack qvResult,
        verifySgxEvidenceOcall env oct pemPubkey nonce stack qvResult = .ok VerifiedFlag.evidence →
          ∃ quote, QuoteSubmitted env oct pemPubkey stack quote ∧ (env.verifyQuote quote).Verified := by
      intro stack qvResult haccepted
      obtain ⟨quote, pairs, hpass, hresult, hnonce⟩ := verifySgxEvidenceOcall_accepts_iff.1 haccepted
      have hmatch : NonceMayMatch env.cbor nonce pairs := by
        intro claimed hlast
        rw [hlast] at hnonce
        exact hnonce.symm
      obtain ⟨r, hr, hor⟩ := hcond quote pairs hpass hmatch
      rw [OcallEnv.resultOf, hr, Option.getD_some] at hresult
      obtain ⟨hstatus, hqrc⟩ := hor.resolve_left hresult
      exact ⟨quote, hpass.submitted stack, hstatus, hqrc, r, hr, hresult⟩
    constructor
    · exact hverified
    · intro stack qvResult quote hsubmitted hstatus
      rcases hsubmitted.verdict nonce qvResult with hzero | haccepted
      · exact hzero
      · obtain ⟨quote', hsubmitted', hsuccess, -⟩ := hverified stack qvResult haccepted
        obtain rfl := hsubmitted.unique hsubmitted'
        exact absurd hsuccess hstatus

/-! ### A host that does not verify -/

/-- The host refuses to verify quotes and writes nothing; all other calls succeed. -/
def refusingHost : OcallEnv where
  toSgxEnv := enclave
  mallocOut := true
  supplementalStatus := 0
  supplementalQrc := 0
  mallocSup := true
  readRand := 0
  verifyQuote := fun _ => ⟨1, none, none⟩
  ocallVerifyTpm2Quote := fun _ _ => (0, 0)

/-- The claims for the short key, a nonce of zeros and a TPM2 quote of one byte. -/
def shortKeyClaims : List (Item × Item) := tpm2Claims makingEnclave shortKey.der (ByteBuf.zero 32).1 [7]

def shortKeyQuote : Bytes := quoteOfDigest (Sha256.hash (encode (.map true shortKeyClaims)))

def shortKeyEvidence : Bytes :=
  (makeCborSgxEvidence makingEnclave shortKeyQuote (encode (.map true shortKeyClaims)) teeTpm2QuoteCborTag).2

theorem refusingHost_passesButQuote :
    PassesButQuote refusingHost shortKeyEvidence shortKey.text (ByteBuf.zero 32) shortKeyQuote shortKeyClaims := by
  have hsize : shortKeyQuote.length = 1020 := length_quoteOfDigest (Sha256.hash (encode (.map true shortKeyClaims)))
  have hmin : quoteMinSize ≤ shortKeyQuote.length := by
    rw [hsize]
    decide
  have hmax : shortKeyQuote.length ≤ rawQuoteMaxSize := by
    rw [hsize]
    decide
  have hpass : EvidencePasses enclave shortKeyEvidence shortKey.text teeTpm2QuoteCborTag shortKeyQuote
      (encode (.map true shortKeyClaims)) shortKeyClaims :=
    evidencePasses_tpm2Claims codec_encode enclave_works (by decide) (by decide) (by decide) hmin hmax
      (sgxQuoteOf_quoteOfDigest _)
  exact ⟨_, _, hpass, rfl, rfl, rfl, rfl, rfl, id, fun _ => ⟨rfl, Int.le_refl 0⟩⟩

/-- The evidence is accepted although the call fails, when the stack holds the result of a verified quote. -/
theorem verifySgxEvidence_accepts_unverified :
    ¬ QuoteVerifiedFirst refusingHost shortKeyEvidence shortKey.text (ByteBuf.zero 32) := by
  intro hfirst
  have hpass := refusingHost_passesButQuote
  have hlast : lastOf (nonceOf refusingHost.cbor) shortKeyClaims = some (ByteBuf.zero 32) := by decide
  have haccepted : verifySgxEvidenceOcall refusingHost shortKeyEvidence shortKey.text (ByteBuf.zero 32)
      ⟨ByteBuf.zero 8192, 0, ByteBuf.zero 1000, 0, ByteBuf.zero 32, 0⟩ .ok = .ok VerifiedFlag.evidence :=
    verifySgxEvidenceOcall_accepts_iff.2 ⟨_, _, hpass, id, by rw [hlast]; rfl⟩
  have hzero := hfirst.failed _ .ok _ (hpass.submitted ⟨ByteBuf.zero 8192, 0, ByteBuf.zero 1000, 0, ByteBuf.zero 32, 0⟩)
    (by decide)
  rw [haccepted] at hzero
  cases hzero

end PortableTlsRa
