import PortableTlsRa.SgxEvidence

/-!
# Verifying SGX evidence

`verify_SGX_evidence`.  The nonce of the session is compared with a buffer on the stack that is written by a claim taken
for "nonce" whose value has 32 bytes, and by nothing else: without such a claim the verdict is about what the stack held
before (`verifySgxEvidence_accepts_iff`).
-/

namespace PortableTlsRa

open CSem Cbor

/-- What `qv_result` holds after the verification of the quote. -/
inductive QvResult where
  | ok
  | outOfDate
  | invalidSignature
  | revoked
  | unspecified
  | other (code : Nat)
deriving DecidableEq

/-- The results that end the verification. -/
def QvResult.Refused : QvResult → Prop
  | .invalidSignature | .revoked | .unspecified => True
  | _ => False

instance : DecidablePred QvResult.Refused := fun r => by
  cases r <;> unfold QvResult.Refused <;> infer_instance

/-- The outcomes of the calls that `verify_SGX_evidence` makes itself. -/
structure VerifyEnv extends SgxEnv where
  mallocOut : Bool
  supplementalStatus : Int
  supplementalQrc : Int
  mallocSup : Bool
  readRand : Int
  qvResult : Bytes → QvResult
  ocallVerifyTpm2Quote : Bytes → ByteBuf 32 → Int × Int

namespace VerifiedFlag

def quote : Nat := 1
def evidence : Nat := 2

end VerifiedFlag

/-- The bytes of the TPM2 quote that was received. -/
def EvidenceOut.sertpm2 (out : EvidenceOut) : Bytes := out.outSertpm2.1.take out.sersz

/-- The part of `verify_SGX_evidence` after the extraction. -/
def verifyExtracted (env : VerifyEnv) (nonce : ByteBuf 32) (out : EvidenceOut) : Nat :=
  if env.supplementalStatus ≠ 0 then 0
  else if env.supplementalQrc ≠ 0 then 0
  else if !env.mallocSup then 0
  else if env.readRand ≠ 0 then 0
  else if (env.qvResult (out.outQuote.1.take out.outQuoteSize)).Refused then 0
  else if nonce ≠ out.outNonce then 0
  else if out.ctype = teeTpm2QuoteCborTag then
    -- the status of the call, and what the host says
    if (env.ocallVerifyTpm2Quote out.sertpm2 nonce).1 ≠ 0 ∨ (env.ocallVerifyTpm2Quote out.sertpm2 nonce).2 < 0 then 0
    else VerifiedFlag.evidence
  else VerifiedFlag.evidence

/-- `stack` is what the buffers hold before the call. -/
def verifySgxEvidence (env : VerifyEnv) (oct pemPubkey : Bytes) (nonce : ByteBuf 32) (stack : EvidenceOut) :
    Checked Nat := do
  if !env.mallocOut then return 0
  match ← extractCborEvidenceAndCompareHash env.toSgxEnv oct pemPubkey stack with
  | .error _ => return 0
  | .ok out => return verifyExtracted env nonce out

/-! ### What the claims leave in the buffers -/

/-- What a claim is taken for, and the bytes of its value. -/
def claimBytes (cbor : Libcbor) (pair : Item × Item) : Option (ClaimKey × Bytes) :=
  match pair.1, cbor.bytestring pair.2 with
  | .text name, .ok data => some (claimKey name, data)
  | _, _ => none

/-- The 32 bytes of a claim that is taken for the nonce. -/
def nonceOf (cbor : Libcbor) (pair : Item × Item) : Option (ByteBuf 32) :=
  match claimBytes cbor pair with
  | some (.nonce, data) => if h : data.length = 32 then some ⟨data, h⟩ else none
  | _ => none

/-- The bytes of a claim that is taken for the TPM2 quote; a quote that is too long counts as an empty one. -/
def tpm2QuoteOf (cbor : Libcbor) (pair : Item × Item) : Option Bytes :=
  match claimBytes cbor pair with
  | some (.tpm2Quote, data) => some (if data.length ≤ maxsizeSerTpm2Quote then data else [])
  | _ => none

variable {env : SgxEnv} {pemPubKey : Bytes} {out out' : EvidenceOut} {pair : Item × Item}

/-- A claim that is taken for neither writes no buffer. -/
theorem buffers_of_other (cbor : Libcbor) {name : Bytes} (value : Item) (hnonce : claimKey name ≠ .nonce)
    (htpm2 : claimKey name ≠ .tpm2Quote) :
    nonceOf cbor (.text name, value) = none ∧ tpm2QuoteOf cbor (.text name, value) = none := by
  unfold nonceOf tpm2QuoteOf claimBytes
  cases hdata : cbor.bytestring value with
  | error e => exact ⟨rfl, rfl⟩
  | ok data => cases hkey : claimKey name <;> simp_all

/-- What one turn does to the buffers. -/
theorem claimTurn_buffers (h : claimTurn env pemPubKey out pair = .ok (.next out')) :
    out'.outNonce = (nonceOf env.cbor pair).getD out.outNonce ∧
      out'.sertpm2 = (tpm2QuoteOf env.cbor pair).getD out.sertpm2 ∧ out'.ctype = out.ctype := by
  cases claimTurn_step_iff.1 h with
  | @pubkeyHash name value _ hkey _ =>
    obtain ⟨hnonce, htpm2⟩ := buffers_of_other env.cbor value (hkey ▸ by decide : claimKey name ≠ .nonce)
      (hkey ▸ by decide)
    rw [hnonce, htpm2]
    exact ⟨rfl, rfl, rfl⟩
  | tpm2Quote _ hkey hdata hlen hcopy =>
    simp only [nonceOf, tpm2QuoteOf, claimBytes, hkey, hdata, Option.getD_some, Option.getD_none, if_pos hlen]
    refine ⟨trivial, ?_, trivial⟩
    rw [EvidenceOut.sertpm2, memcpy_eq_ok hcopy, List.take_left]
  | longTpm2Quote _ hkey hdata hlen =>
    simp only [nonceOf, tpm2QuoteOf, claimBytes, hkey, hdata, Option.getD_some, Option.getD_none, if_neg hlen]
    exact ⟨trivial, List.take_zero, trivial⟩
  | nonce _ hkey hdata hlen =>
    simp only [nonceOf, tpm2QuoteOf, claimBytes, hkey, hdata, Option.getD_none, dif_pos hlen]
    exact ⟨rfl, rfl, trivial⟩
  | otherNonce _ hkey hdata hlen =>
    simp only [nonceOf, tpm2QuoteOf, claimBytes, hkey, hdata, Option.getD_none, dif_neg hlen]
    exact ⟨trivial, trivial, trivial⟩
  | @other name value _ hkey =>
    obtain ⟨hnonce, htpm2⟩ := buffers_of_other env.cbor value (hkey ▸ by decide : claimKey name ≠ .nonce)
      (hkey ▸ by decide)
    rw [hnonce, htpm2]
    exact ⟨rfl, rfl, rfl⟩

/-- A turn that does not go on ends in the same way whatever the buffers hold. -/
theorem claimTurn_parallel (env : SgxEnv) (pemPubKey : Bytes) (out₁ out₂ : EvidenceOut) (pair : Item × Item) :
    (∃ t₁ t₂, claimTurn env pemPubKey out₁ pair = .ok (.next t₁) ∧ claimTurn env pemPubKey out₂ pair = .ok (.next t₂)) ∨
      claimTurn env pemPubKey out₁ pair = claimTurn env pemPubKey out₂ pair := by
  by_cases hpass : ClaimPasses env pemPubKey pair
  · have h₁ : ∃ t₁, claimTurn env pemPubKey out₁ pair = .ok (.next t₁) := claimTurn_next_iff.2 hpass
    have h₂ : ∃ t₂, claimTurn env pemPubKey out₂ pair = .ok (.next t₂) := claimTurn_next_iff.2 hpass
    obtain ⟨t₁, h₁⟩ := h₁
    obtain ⟨t₂, h₂⟩ := h₂
    exact .inl ⟨t₁, t₂, h₁, h₂⟩
  · right
    have hstops : ∀ t, claimTurn env pemPubKey out₁ pair ≠ .ok (.next t) := by
      intro t h
      exact hpass (claimTurn_next_iff.1 ⟨t, h⟩)
    obtain ⟨key, value⟩ := pair
    unfold claimTurn at hstops ⊢
    cases key with
    | text name =>
      by_cases hname : name = []
      · simp only [hname, if_true]
      simp only [hname, if_false] at hstops ⊢
      cases hkey : claimKey name with
      | pubkeyHash =>
        simp only [hkey] at hstops ⊢
        cases value with
        | bytes entry =>
          by_cases hentry : entry = []
          · simp only [hentry, if_true]
          simp only [hentry, if_false] at hstops ⊢
          cases hload : env.cbor.load entry with
          | none => rfl
          | some hashEntry =>
            simp only [hload] at hstops ⊢
            cases hret : compareCertPubkeyAgainstCborClaimHash env pemPubKey hashEntry with
            | error e => rfl
            | ok ret =>
              simp only [hret, ok_bind] at hstops ⊢
              by_cases hsuccess : ret = .success
              · exact absurd (by rw [if_pos hsuccess]; rfl) (hstops out₁)
              · rw [if_neg hsuccess, if_neg hsuccess]
        | _ => rfl
      | tpm2Quote | nonce =>
        cases hdata : env.cbor.bytestring value with
        | error e => rfl
        | ok data => exact absurd ⟨name, rfl, hname, by rw [hkey]; exact ⟨data, hdata⟩⟩ hpass
      | other => exact absurd (by rw [hkey]; rfl) (hstops out₁)
    | _ => rfl

/-- An extraction that fails does so in the same way whatever the buffers hold. -/
theorem extractCborEvidence_parallel (env : SgxEnv) (evidence pemPubKey : Bytes) (out₁ out₂ : EvidenceOut) :
    (∃ t₁ t₂, extractCborEvidenceAndCompareHash env evidence pemPubKey out₁ = .ok (.ok t₁) ∧
        extractCborEvidenceAndCompareHash env evidence pemPubKey out₂ = .ok (.ok t₂)) ∨
      extractCborEvidenceAndCompareHash env evidence pemPubKey out₁ =
        extractCborEvidenceAndCompareHash env evidence pemPubKey out₂ := by
  unfold extractCborEvidenceAndCompareHash
  cases hparts : evidenceParts env evidence with
  | error ret => exact .inr rfl
  | ok parts =>
    obtain ⟨ctype, quote, claims⟩ := parts
    cases hret : sgxTlsCompareQuoteHash env quote claims with
    | error e => exact .inr (by simp only [hret, error_bind])
    | ok ret =>
      simp only [hret, ok_bind]
      by_cases hsuccess : ret ≠ .success
      · rw [if_pos hsuccess, if_pos hsuccess]
        exact .inr rfl
      rw [if_neg hsuccess, if_neg hsuccess]
      cases hload : env.cbor.load claims with
      | none => exact .inr rfl
      | some item =>
        cases item with
        | map definite pairs =>
          cases definite with
          | false => exact .inr rfl
          | true =>
            by_cases hnil : pairs = []
            · simp only [hnil, if_true]
              exact .inr trivial
            simp only [hnil, if_false]
            have hruns : ∀ s₁ s₂, (∃ t₁ t₂, forEach (claimTurn env pemPubKey) s₁ pairs = .ok (.next t₁) ∧
                forEach (claimTurn env pemPubKey) s₂ pairs = .ok (.next t₂)) ∨
                  forEach (claimTurn env pemPubKey) s₁ pairs = forEach (claimTurn env pemPubKey) s₂ pairs := by
              intro s₁ s₂
              exact forEach_parallel (claimTurn_parallel env pemPubKey)
            rcases hruns { out₁ with sersz := 0, ctype := ctype } { out₂ with sersz := 0, ctype := ctype } with
              ⟨last₁, last₂, h₁, h₂⟩ | heq
            · rw [h₁, h₂]
              simp only [ok_bind]
              by_cases hle : quote.length ≤ 8192
              · obtain ⟨outQuote₁, hcopy₁, -⟩ := memcpy_of_le last₁.outQuote hle
                obtain ⟨outQuote₂, hcopy₂, -⟩ := memcpy_of_le last₂.outQuote hle
                exact .inl ⟨_, _, by rw [hcopy₁]; rfl, by rw [hcopy₂]; rfl⟩
              · have hcopy : ∀ dst : ByteBuf 8192, memcpy dst quote = .error .outOfBounds := by
                  intro dst
                  simp [memcpy, hle]
                rw [hcopy, hcopy]
                exact .inr rfl
            · rw [heq]
              exact .inr rfl
        | _ => exact .inr rfl

/-- What the extraction leaves in the buffers. -/
theorem EvidencePasses.buffers {evidence quote claims : Bytes} {ctype : Nat} {pairs : List (Item × Item)}
    (h : EvidencePasses env evidence pemPubKey ctype quote claims pairs)
    (hextract : extractCborEvidenceAndCompareHash env evidence pemPubKey out = .ok (.ok out')) :
    out'.outNonce = (lastOf (nonceOf env.cbor) pairs).getD out.outNonce ∧
      out'.sertpm2 = (lastOf (tpm2QuoteOf env.cbor) pairs).getD [] ∧ out'.ctype = ctype ∧
      out'.outQuote.1.take out'.outQuoteSize = quote := by
  obtain ⟨ctype', quote', claims', pairs', hpass, last, outQuote, hloop, hcopy, rfl⟩ :=
    extractCborEvidence_eq_ok_iff.1 hextract
  obtain ⟨rfl, rfl, rfl, rfl⟩ := h.unique hpass
  have hnonce := forEach_lastOf (fun out : EvidenceOut => out.outNonce) (nonceOf env.cbor)
    (fun _ _ _ hturn => (claimTurn_buffers hturn).1) hloop
  have htpm2 := forEach_lastOf EvidenceOut.sertpm2 (tpm2QuoteOf env.cbor)
    (fun _ _ _ hturn => (claimTurn_buffers hturn).2.1) hloop
  have hctype : last.ctype = ctype := forEach_invariant (fun _ t => t.ctype = ctype) rfl
    (fun _ _ _ _ ht hturn => (claimTurn_buffers hturn).2.2.trans ht) hloop
  refine ⟨hnonce, ?_, hctype, ?_⟩
  · rw [← List.take_zero (l := out.outSertpm2.1)]
    exact htpm2
  · rw [memcpy_eq_ok hcopy, List.take_left]

/-! ### The verdict -/

/-- The checks after the extraction pass, but for the nonce. -/
structure LaterPass (env : VerifyEnv) (ctype : Nat) (quote tpm2Quote : Bytes) (nonce : ByteBuf 32) : Prop where
  mallocOut : env.mallocOut = true
  supplementalStatus : env.supplementalStatus = 0
  supplementalQrc : env.supplementalQrc = 0
  mallocSup : env.mallocSup = true
  readRand : env.readRand = 0
  qvResult : ¬ (env.qvResult quote).Refused
  tpm2 : ctype = teeTpm2QuoteCborTag →
    (env.ocallVerifyTpm2Quote tpm2Quote nonce).1 = 0 ∧ 0 ≤ (env.ocallVerifyTpm2Quote tpm2Quote nonce).2

/-- All checks pass but for the nonce, for claims whose entries are `pairs`. -/
def OtherwiseAccepted (env : VerifyEnv) (oct pemPubkey : Bytes) (nonce : ByteBuf 32) (pairs : List (Item × Item)) :
    Prop :=
  ∃ ctype quote claims, EvidencePasses env.toSgxEnv oct pemPubkey ctype quote claims pairs ∧
    LaterPass env ctype quote ((lastOf (tpm2QuoteOf env.cbor) pairs).getD []) nonce

variable {venv : VerifyEnv} {oct : Bytes} {nonce : ByteBuf 32} {stack : EvidenceOut} {pairs : List (Item × Item)}

theorem verifyExtracted_cases (env : VerifyEnv) (nonce : ByteBuf 32) (out : EvidenceOut) :
    verifyExtracted env nonce out = 0 ∨ verifyExtracted env nonce out = VerifiedFlag.evidence := by
  unfold verifyExtracted
  split_ifs <;> simp

/-- The last part accepts exactly when its checks pass and the buffer holds the nonce. -/
theorem verifyExtracted_accepts_iff (hmalloc : venv.mallocOut = true) :
    verifyExtracted venv nonce out = VerifiedFlag.evidence ↔
      LaterPass venv out.ctype (out.outQuote.1.take out.outQuoteSize) out.sertpm2 nonce ∧ nonce = out.outNonce := by
  unfold verifyExtracted VerifiedFlag.evidence
  constructor
  · intro h
    split_ifs at h with hstatus hqrc hsup hrand hqv hnonce hctype hocall
    · have hmallocSup : venv.mallocSup = true := by simpa using hsup
      rw [not_or, not_not, Int.not_lt] at hocall
      exact ⟨⟨hmalloc, not_not.1 hstatus, not_not.1 hqrc, hmallocSup, not_not.1 hrand, hqv, fun _ => hocall⟩,
        not_not.1 hnonce⟩
    · have hmallocSup : venv.mallocSup = true := by simpa using hsup
      exact ⟨⟨hmalloc, not_not.1 hstatus, not_not.1 hqrc, hmallocSup, not_not.1 hrand, hqv,
        fun htpm2 => absurd htpm2 hctype⟩, not_not.1 hnonce⟩
  · intro ⟨hlater, hnonce⟩
    have hsup : ¬ (!venv.mallocSup) = true := by simp [hlater.mallocSup]
    rw [if_neg (not_not.2 hlater.supplementalStatus), if_neg (not_not.2 hlater.supplementalQrc), if_neg hsup,
      if_neg (not_not.2 hlater.readRand), if_neg hlater.qvResult, if_neg (not_not.2 hnonce)]
    split_ifs with hctype hocall
    · obtain ⟨hrc, horc⟩ := hlater.tpm2 hctype
      exact absurd hocall (not_or.2 ⟨not_not.2 hrc, Int.not_lt.2 horc⟩)
    · rfl
    · rfl

/-- What the verdict is about: the nonce is compared with the value of the last claim taken for a nonce, and without
one with what the stack held. -/
theorem verifySgxEvidence_accepts_iff :
    verifySgxEvidence venv oct pemPubKey nonce stack = .ok VerifiedFlag.evidence ↔
      ∃ pairs, OtherwiseAccepted venv oct pemPubKey nonce pairs ∧
        nonce = (lastOf (nonceOf venv.cbor) pairs).getD stack.outNonce := by
  have hne : (0 : Nat) ≠ VerifiedFlag.evidence := by decide
  unfold verifySgxEvidence
  constructor
  · intro h
    cases hmalloc : venv.mallocOut with
    | false =>
      simp only [hmalloc, Bool.not_false, if_true, pure_eq_ok, Except.ok.injEq] at h
      exact absurd h hne
    | true =>
      simp only [hmalloc, Bool.not_true, Bool.false_eq_true, if_false] at h
      obtain ⟨result, hextract, h⟩ := bind_eq_ok.1 h
      cases result with
      | error ret =>
        simp only [pure_eq_ok, Except.ok.injEq] at h
        exact absurd h hne
      | ok out =>
        simp only [pure_eq_ok, Except.ok.injEq] at h
        obtain ⟨hlater, hnonce⟩ := (verifyExtracted_accepts_iff hmalloc).1 h
        obtain ⟨ctype, quote, claims, pairs, hpass, -⟩ := extractCborEvidence_eq_ok_iff.1 hextract
        obtain ⟨hbuffer, htpm2, hctype, hquote⟩ := hpass.buffers hextract
        rw [hctype, hquote, htpm2] at hlater
        exact ⟨pairs, ⟨ctype, quote, claims, hpass, hlater⟩, hnonce.trans hbuffer⟩
  · intro ⟨pairs, ⟨ctype, quote, claims, hpass, hlater⟩, hnonce⟩
    obtain ⟨out, hextract⟩ := hpass.extracted stack
    obtain ⟨hbuffer, htpm2, hctype, hquote⟩ := hpass.buffers hextract
    have haccepts : verifyExtracted venv nonce out = VerifiedFlag.evidence := by
      rw [verifyExtracted_accepts_iff hlater.mallocOut, hctype, hquote, htpm2, hbuffer]
      exact ⟨hlater, hnonce⟩
    simp only [hlater.mallocOut, Bool.not_true, Bool.false_eq_true, if_false, hextract, ok_bind, haccepts, pure_eq_ok]

/-- There is no verdict but `VERIFIED_EVIDENCE` and 0. -/
theorem verifySgxEvidence_cases {verdict : Nat} (h : verifySgxEvidence venv oct pemPubKey nonce stack = .ok verdict) :
    verdict = 0 ∨ verdict = VerifiedFlag.evidence := by
  unfold verifySgxEvidence at h
  split_ifs at h
  · cases h
    exact .inl rfl
  · obtain ⟨result, -, h⟩ := bind_eq_ok.1 h
    cases result with
    | error ret =>
      cases h
      exact .inl rfl
    | ok out =>
      cases h
      exact verifyExtracted_cases venv nonce out

/-- Two runs that differ in what the stack held both end with a verdict, or end in the same way. -/
theorem verifySgxEvidence_parallel (env : VerifyEnv) (oct pemPubKey : Bytes) (nonce : ByteBuf 32)
    (stack₁ stack₂ : EvidenceOut) :
    (∃ v₁ v₂, verifySgxEvidence env oct pemPubKey nonce stack₁ = .ok v₁ ∧
        verifySgxEvidence env oct pemPubKey nonce stack₂ = .ok v₂) ∨
      verifySgxEvidence env oct pemPubKey nonce stack₁ = verifySgxEvidence env oct pemPubKey nonce stack₂ := by
  unfold verifySgxEvidence
  cases env.mallocOut with
  | false => exact .inr rfl
  | true =>
    rcases extractCborEvidence_parallel env.toSgxEnv oct pemPubKey stack₁ stack₂ with ⟨out₁, out₂, h₁, h₂⟩ | heq
    · rw [h₁, h₂]
      exact .inl ⟨_, _, rfl, rfl⟩
    · rw [heq]
      exact .inr rfl

/-- Where two such runs accept alike they end alike. -/
theorem verifySgxEvidence_eq_of_accepts_iff {stack₁ stack₂ : EvidenceOut}
    (h : verifySgxEvidence venv oct pemPubKey nonce stack₁ = .ok VerifiedFlag.evidence ↔
      verifySgxEvidence venv oct pemPubKey nonce stack₂ = .ok VerifiedFlag.evidence) :
    verifySgxEvidence venv oct pemPubKey nonce stack₁ = verifySgxEvidence venv oct pemPubKey nonce stack₂ := by
  rcases verifySgxEvidence_parallel venv oct pemPubKey nonce stack₁ stack₂ with ⟨v₁, v₂, h₁, h₂⟩ | heq
  · rw [h₁, h₂, Except.ok.injEq, Except.ok.injEq] at h
    have hequal : v₁ = v₂ := by
      rcases verifySgxEvidence_cases h₁ with rfl | rfl <;> rcases verifySgxEvidence_cases h₂ with rfl | rfl <;>
        simp_all
    rw [h₁, h₂, hequal]
  · exact heq

/-! ### What acceptance should mean -/

/-- The claims that the quote is of have a "nonce" with the nonce of the session. -/
def NonceClaimed (env : SgxEnv) (evidence : Bytes) (nonce : ByteBuf 32) : Prop :=
  ∃ ctype quote claims pairs, EvidenceIs env evidence ctype quote claims ∧ ReportDataIs env quote claims ∧
    env.cbor.load claims = some (.map true pairs) ∧ (.text (lit "nonce"), .bytes nonce.1) ∈ pairs

/-- Accepted evidence claims the nonce, and the verdict is the same whatever the stack held. -/
structure EvidenceFresh (env : VerifyEnv) (oct pemPubKey : Bytes) (nonce : ByteBuf 32) : Prop where
  claimed : ∀ stack, verifySgxEvidence env oct pemPubKey nonce stack = .ok VerifiedFlag.evidence →
    NonceClaimed env.toSgxEnv oct nonce
  independent : ∀ stack₁ stack₂,
    verifySgxEvidence env oct pemPubKey nonce stack₁ = verifySgxEvidence env oct pemPubKey nonce stack₂

theorem exists_ne_nonce (nonce : ByteBuf 32) : ∃ other : ByteBuf 32, nonce ≠ other := by
  by_cases hzero : nonce = ByteBuf.zero 32
  · refine ⟨⟨List.replicate 32 1, List.length_replicate⟩, ?_⟩
    rw [hzero]
    decide
  · exact ⟨ByteBuf.zero 32, hzero⟩

/-- Evidence is fresh exactly when, all else passing, a claim is taken for a nonce, and the last one so taken is not
the nonce of the session unless a claim with the key "nonce" is. -/
theorem verifySgxEvidence_fresh_iff (env : VerifyEnv) (oct pemPubKey : Bytes) (nonce : ByteBuf 32) :
    EvidenceFresh env oct pemPubKey nonce ↔
      ∀ pairs, OtherwiseAccepted env oct pemPubKey nonce pairs →
        ∃ claimed, lastOf (nonceOf env.cbor) pairs = some claimed ∧
          (claimed = nonce → (.text (lit "nonce"), .bytes nonce.1) ∈ pairs) := by
  constructor
  · intro hfresh pairs hother
    let stackWith (old : ByteBuf 32) : EvidenceOut := ⟨ByteBuf.zero 8192, 0, ByteBuf.zero 1000, 0, old, 0⟩
    have hnonce : verifySgxEvidence env oct pemPubKey nonce (stackWith nonce) = .ok VerifiedFlag.evidence →
        (.text (lit "nonce"), .bytes nonce.1) ∈ pairs := by
      intro haccepted
      obtain ⟨ctype, quote, claims, pairs', hparts, -, hload, hmem⟩ := hfresh.claimed _ haccepted
      obtain ⟨ctype', quote', claims', hpass, -⟩ := hother
      obtain rfl := hpass.pairs_eq hparts hload
      exact hmem
    cases hlast : lastOf (nonceOf env.cbor) pairs with
    | some claimed =>
      refine ⟨claimed, rfl, ?_⟩
      intro hclaimed
      apply hnonce
      have hsame : nonce = (lastOf (nonceOf env.cbor) pairs).getD nonce := by
        rw [hlast, hclaimed]
        rfl
      exact verifySgxEvidence_accepts_iff.2 ⟨pairs, hother, hsame⟩
    | none =>
      -- the stack decides: it holds the nonce in one run and something else in another
      obtain ⟨old, hold⟩ := exists_ne_nonce nonce
      have haccepted : verifySgxEvidence env oct pemPubKey nonce (stackWith nonce) = .ok VerifiedFlag.evidence :=
        verifySgxEvidence_accepts_iff.2 ⟨pairs, hother, by rw [hlast]; rfl⟩
      rw [hfresh.independent (stackWith nonce) (stackWith old), verifySgxEvidence_accepts_iff] at haccepted
      obtain ⟨pairs', hother', hsame⟩ := haccepted
      obtain ⟨ctype, quote, claims, hpass, -⟩ := hother
      obtain ⟨ctype', quote', claims', hpass', -⟩ := hother'
      obtain ⟨-, -, -, rfl⟩ := hpass.unique hpass'
      rw [hlast] at hsame
      exact absurd hsame hold
  · intro hcond
    have hverdict : ∀ stack, verifySgxEvidence env oct pemPubKey nonce stack = .ok VerifiedFlag.evidence ↔
        ∃ pairs, OtherwiseAccepted env oct pemPubKey nonce pairs ∧ lastOf (nonceOf env.cbor) pairs = some nonce := by
      intro stack
      rw [verifySgxEvidence_accepts_iff]
      apply exists_congr
      intro pairs
      apply and_congr_right
      intro hother
      obtain ⟨claimed, hlast, -⟩ := hcond pairs hother
      rw [hlast, Option.getD_some, Option.some_inj]
      exact eq_comm
    constructor
    · intro stack haccepted
      obtain ⟨pairs, hother, hlast⟩ := (hverdict stack).1 haccepted
      obtain ⟨claimed, hlast', hmem⟩ := hcond pairs hother
      rw [hlast] at hlast'
      obtain ⟨ctype, quote, claims, hpass, -⟩ := hother
      exact ⟨ctype, quote, claims, pairs, hpass.parts, hpass.reportData, hpass.load,
        hmem (Option.some_inj.1 hlast').symm⟩
    · intro stack₁ stack₂
      exact verifySgxEvidence_eq_of_accepts_iff ((hverdict stack₁).trans (hverdict stack₂).symm)

/-! ### Evidence without a nonce -/

/-- An enclave whose own calls succeed, on which every quote verifies. -/
def verifyingEnclave : VerifyEnv where
  toSgxEnv := enclave
  mallocOut := true
  supplementalStatus := 0
  supplementalQrc := 0
  mallocSup := true
  readRand := 0
  qvResult := fun _ => .ok
  ocallVerifyTpm2Quote := fun _ _ => (0, -1)

/-- Claims without a nonce are accepted when the stack holds the nonce. -/
theorem verifySgxEvidence_accepts_stale :
    ¬ EvidenceFresh verifyingEnclave (evidenceOfClaims (encode (.map true unrelatedClaims))) shortKey.text
      (ByteBuf.zero 32) := by
  intro hfresh
  have hpass := evidencePasses_unrelated shortKey.text
  have hother : OtherwiseAccepted verifyingEnclave (evidenceOfClaims (encode (.map true unrelatedClaims)))
      shortKey.text (ByteBuf.zero 32) unrelatedClaims :=
    ⟨_, _, _, hpass, rfl, rfl, rfl, rfl, rfl, id, fun htpm2 => absurd htpm2 (by decide)⟩
  have hnone : lastOf (nonceOf verifyingEnclave.cbor) unrelatedClaims = none := by decide
  have haccepted : verifySgxEvidence verifyingEnclave (evidenceOfClaims (encode (.map true unrelatedClaims)))
      shortKey.text (ByteBuf.zero 32) ⟨ByteBuf.zero 8192, 0, ByteBuf.zero 1000, 0, ByteBuf.zero 32, 0⟩ =
      .ok VerifiedFlag.evidence :=
    verifySgxEvidence_accepts_iff.2 ⟨unrelatedClaims, hother, by rw [hnone]; rfl⟩
  obtain ⟨ctype, quote, claims, pairs, hparts, -, hload, hmem⟩ := hfresh.claimed _ haccepted
  obtain rfl := hpass.pairs_eq hparts hload
  simp [unrelatedClaims] at hmem

end PortableTlsRa
