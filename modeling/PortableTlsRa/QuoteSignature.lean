import PortableTlsRa.Platform

/-!
# Verifying the signature of a quote

`verify_tpm2quote_sig` of the client and `verify_tpm2_quote` of the host code make the same calls in the same order.
Both accept a signature exactly when every call succeeds and it is no ECDSA signature (`verifyQuoteSignature_ok_iff`):
`ECDSA_SIG_set0` hands `r` and `s` over to the signature, and `tpm_ecdsa_to_der` frees all three of them at its end, so
that no ECDSA signature with which it comes that far is verified (`verifyQuoteSignature_error_iff`).  Every other
signature is refused with -1.
-/

namespace PortableTlsRa

open CSem

/-- The size of the buffer for the DER form of an ECDSA signature. -/
def ecdsaDerSize : Int := 1024

/-- The end of `tpm_ecdsa_to_der`: `r` and `s` are freed, and then the signature, which frees them if it owns them. -/
def freeSignature (owned : Bool) (rc : Int) : Checked Int := if owned then .error .freedTwice else .ok rc

def tpmEcdsaToDer (c : VerifyCalls) : Checked Int :=
  if !c.binR then freeSignature false (-1)
  else if !c.binS then freeSignature false (-1)
  else if !c.sigNew then freeSignature false (-1)
  else if c.set0 ≠ 1 then freeSignature false (-1)
  -- from here on `r` and `s` belong to the signature
  else if c.derLen ≤ 0 then freeSignature true (-1)
  else if c.derLen > ecdsaDerSize then freeSignature true (-1)
  else if c.derLenWritten ≠ c.derLen then freeSignature true (-1)
  else freeSignature true 0

/-- The hash algorithm of a signature of a supported kind. -/
def TpmtSignature.hashAlg (sig : TpmtSignature) : Option UInt16 :=
  if sig.sigAlg = Tpm2Alg.rsassa then some sig.rsassa.hash
  else if sig.sigAlg = Tpm2Alg.rsapss then some sig.rsapss.hash
  else if sig.sigAlg = Tpm2Alg.ecdsa then some sig.ecdsa.hash
  else none

def supportedDigests : List UInt16 := [Tpm2Alg.sha1, Tpm2Alg.sha256, Tpm2Alg.sha384, Tpm2Alg.sha512]

/-- The conversion that a signature of the kind needs. -/
def signatureToDer (c : VerifyCalls) (sig : TpmtSignature) : Checked Int :=
  if sig.sigAlg = Tpm2Alg.ecdsa then tpmEcdsaToDer c else .ok 0

/-- The calls of `EVP_DigestVerify`. -/
def digestVerify (c : VerifyCalls) (sig : TpmtSignature) (hashAlg : UInt16) : Int :=
  if hashAlg ∉ supportedDigests then -1
  else if !c.ctxNew then -1
  else if c.init ≠ 1 then -1
  else if sig.sigAlg = Tpm2Alg.rsassa ∧ c.setPadding ≤ 0 then -1
  else if sig.sigAlg = Tpm2Alg.rsapss ∧ c.setPadding ≤ 0 then -1
  else if sig.sigAlg = Tpm2Alg.rsapss ∧ c.setMgf1 ≤ 0 then -1
  else if c.update ≠ 1 then -1
  else if c.final = 1 then 0
  else -1

/-- The body of both functions, given what the calls return for the signature, the data and the key. -/
def verifyQuoteSignature (c : VerifyCalls) (sig : TpmtSignature) : Checked Int :=
  match sig.hashAlg with
  | none => .ok (-1)
  | some hashAlg => do
    let rc ← signatureToDer c sig
    if rc ≠ 0 then return -1
    return digestVerify c sig hashAlg

/-- `verify_tpm2quote_sig` of the PICA client. -/
def verifyTpm2quoteSig (c : VerifyCalls) (sig : TpmtSignature) : Checked Int := verifyQuoteSignature c sig

/-- `verify_tpm2_quote` of the TPM2 host code. -/
def verifyTpm2Quote (c : VerifyCalls) (sig : TpmtSignature) : Checked Int := verifyQuoteSignature c sig

/-- `ECDSA_SIG_set0` succeeds. -/
def SignatureOwned (c : VerifyCalls) : Prop :=
  c.binR = true ∧ c.binS = true ∧ c.sigNew = true ∧ c.set0 = 1

instance (c : VerifyCalls) : Decidable (SignatureOwned c) := inferInstanceAs (Decidable (_ ∧ _))

/-- All calls of the conversion to DER succeed. -/
structure EcdsaConverted (c : VerifyCalls) : Prop where
  owned : SignatureOwned c
  derLen : 0 < c.derLen ∧ c.derLen ≤ ecdsaDerSize
  written : c.derLenWritten = c.derLen

/-- The signature is of a supported kind and every call made for its kind succeeds. -/
structure SignatureGenuine (c : VerifyCalls) (sig : TpmtSignature) : Prop where
  digest : ∃ hashAlg ∈ supportedDigests, sig.hashAlg = some hashAlg
  der : sig.sigAlg = Tpm2Alg.ecdsa → EcdsaConverted c
  context : c.ctxNew = true ∧ c.init = 1
  padding : sig.sigAlg = Tpm2Alg.rsassa ∨ sig.sigAlg = Tpm2Alg.rsapss → 0 < c.setPadding
  mgf1 : sig.sigAlg = Tpm2Alg.rsapss → 0 < c.setMgf1
  update : c.update = 1
  final : c.final = 1

/-- The signature is genuine and needs no conversion. -/
structure SignatureAccepted (c : VerifyCalls) (sig : TpmtSignature) : Prop extends SignatureGenuine c sig where
  not_ecdsa : sig.sigAlg ≠ Tpm2Alg.ecdsa

/-- `r` and `s` of an ECDSA signature are freed a second time. -/
def FreedTwice (c : VerifyCalls) (sig : TpmtSignature) : Prop := sig.sigAlg = Tpm2Alg.ecdsa ∧ SignatureOwned c

instance (c : VerifyCalls) (sig : TpmtSignature) : Decidable (FreedTwice c sig) :=
  inferInstanceAs (Decidable (_ ∧ _))

/-! ### A check that refuses with -1 -/

theorem refuse_eq_zero_iff {p : Prop} [Decidable p] {rc : Int} : (if p then -1 else rc) = 0 ↔ ¬ p ∧ rc = 0 := by
  by_cases hp : p
  · have hne : (-1 : Int) ≠ 0 := by omega
    simp [hp, hne]
  · simp [hp]

theorem refuse_cases (p : Prop) [Decidable p] {rc : Int} (h : rc = 0 ∨ rc = -1) :
    (if p then -1 else rc) = 0 ∨ (if p then -1 else rc) = -1 := by
  by_cases hp : p
  · simp [hp]
  · simp [hp, h]

theorem ite_refused {α : Type} (p : Prop) [Decidable p] (rc : Int) (a b : α) :
    (if (if p then -1 else rc) = 0 then a else b) = if p then b else if rc = 0 then a else b := by
  by_cases hp : p
  · have hne : (-1 : Int) ≠ 0 := by omega
    rw [if_pos hp, if_pos hp, if_neg hne]
  · rw [if_neg hp, if_neg hp]

/-! ### What is accepted -/

variable {c : VerifyCalls} {sig : TpmtSignature}

theorem SignatureAccepted.not_freedTwice (h : SignatureAccepted c sig) : ¬ FreedTwice c sig :=
  fun hfreed => h.not_ecdsa hfreed.1

/-- A genuine ECDSA signature is one that is freed twice. -/
theorem SignatureGenuine.freedTwice (h : SignatureGenuine c sig) (halg : sig.sigAlg = Tpm2Alg.ecdsa) :
    FreedTwice c sig :=
  ⟨halg, (h.der halg).owned⟩

/-- Whatever the other calls give, a conversion that comes to `ECDSA_SIG_set0` ends in the second free. -/
theorem tpmEcdsaToDer_eq (c : VerifyCalls) :
    tpmEcdsaToDer c = if SignatureOwned c then .error .freedTwice else .ok (-1) := by
  unfold tpmEcdsaToDer SignatureOwned
  by_cases hr : c.binR = true
  · by_cases hs : c.binS = true
    · by_cases hnew : c.sigNew = true
      · by_cases hset : c.set0 = 1
        · simp [hr, hs, hnew, hset, freeSignature]
        · simp [hr, hs, hnew, hset, freeSignature]
      · simp [hr, hs, hnew, freeSignature]
    · simp [hr, hs, freeSignature]
  · simp [hr, freeSignature]

theorem signatureToDer_of_freedTwice (h : FreedTwice c sig) : signatureToDer c sig = .error .freedTwice := by
  rw [signatureToDer, if_pos h.1, tpmEcdsaToDer_eq, if_pos h.2]

/-- Otherwise the conversion is not made, or fails. -/
theorem signatureToDer_of_not_freedTwice (h : ¬ FreedTwice c sig) :
    signatureToDer c sig = .ok (if sig.sigAlg = Tpm2Alg.ecdsa then -1 else 0) := by
  unfold signatureToDer
  by_cases halg : sig.sigAlg = Tpm2Alg.ecdsa
  · rw [if_pos halg, if_pos halg, tpmEcdsaToDer_eq, if_neg fun howned => h ⟨halg, howned⟩]
  · rw [if_neg halg, if_neg halg]

theorem digestVerify_eq_zero_iff {hashAlg : UInt16} (hhash : sig.hashAlg = some hashAlg)
    (halg : sig.sigAlg ≠ Tpm2Alg.ecdsa) : digestVerify c sig hashAlg = 0 ↔ SignatureAccepted c sig := by
  have hlast : (if c.final = 1 then (0 : Int) else -1) = 0 ↔ c.final = 1 := by
    by_cases hfinal : c.final = 1 <;> simp [hfinal]
  unfold digestVerify
  simp only [refuse_eq_zero_iff, hlast]
  constructor
  · intro ⟨hdigest, hctx, hinit, hrsassa, hrsapss, hmgf1, hupdate, hfinal⟩
    refine ⟨⟨⟨hashAlg, by simpa using hdigest, hhash⟩, fun h => absurd h halg,
      ⟨by simpa using hctx, by simpa using hinit⟩, ?_, ?_, by simpa using hupdate, hfinal⟩, halg⟩
    · intro h
      rcases h with hkind | hkind
      · by_contra hle
        exact hrsassa ⟨hkind, by omega⟩
      · by_contra hle
        exact hrsapss ⟨hkind, by omega⟩
    · intro hkind
      by_contra hle
      exact hmgf1 ⟨hkind, by omega⟩
  · rintro ⟨⟨⟨hashAlg', hdigest, hhash'⟩, -, ⟨hctx, hinit⟩, hpadding, hmgf1, hupdate, hfinal⟩, -⟩
    rw [hhash] at hhash'
    cases hhash'
    have hpadding₁ : ¬ (sig.sigAlg = Tpm2Alg.rsassa ∧ c.setPadding ≤ 0) := by
      intro ⟨hkind, hle⟩
      have := hpadding (.inl hkind)
      omega
    have hpadding₂ : ¬ (sig.sigAlg = Tpm2Alg.rsapss ∧ c.setPadding ≤ 0) := by
      intro ⟨hkind, hle⟩
      have := hpadding (.inr hkind)
      omega
    have hmgf1' : ¬ (sig.sigAlg = Tpm2Alg.rsapss ∧ c.setMgf1 ≤ 0) := by
      intro ⟨hkind, hle⟩
      have := hmgf1 hkind
      omega
    exact ⟨not_not.2 hdigest, by simp [hctx], not_not.2 hinit, hpadding₁, hpadding₂, hmgf1', not_not.2 hupdate, hfinal⟩

theorem digestVerify_cases (c : VerifyCalls) (sig : TpmtSignature) (hashAlg : UInt16) :
    digestVerify c sig hashAlg = 0 ∨ digestVerify c sig hashAlg = -1 := by
  have hlast : (if c.final = 1 then (0 : Int) else -1) = 0 ∨ (if c.final = 1 then (0 : Int) else -1) = -1 := by
    by_cases hfinal : c.final = 1 <;> simp [hfinal]
  unfold digestVerify
  iterate 7 apply refuse_cases
  exact hlast

/-- The verification does not come back from an ECDSA signature that is freed twice. -/
theorem verifyQuoteSignature_of_freedTwice (h : FreedTwice c sig) :
    verifyQuoteSignature c sig = .error .freedTwice := by
  have hkinds : Tpm2Alg.ecdsa ≠ Tpm2Alg.rsassa ∧ Tpm2Alg.ecdsa ≠ Tpm2Alg.rsapss := by decide
  have hhash : sig.hashAlg = some sig.ecdsa.hash := by
    rw [TpmtSignature.hashAlg, h.1, if_neg hkinds.1, if_neg hkinds.2, if_pos rfl]
  simp only [verifyQuoteSignature, hhash, signatureToDer_of_freedTwice h, error_bind]

/-- Of all other signatures the accepted ones give 0, and what is not accepted gives -1. -/
theorem verifyQuoteSignature_of_not_freedTwice (h : ¬ FreedTwice c sig) :
    (SignatureAccepted c sig ∧ verifyQuoteSignature c sig = .ok 0) ∨
      (¬ SignatureAccepted c sig ∧ verifyQuoteSignature c sig = .ok (-1)) := by
  unfold verifyQuoteSignature
  cases hhash : sig.hashAlg with
  | none =>
    refine .inr ⟨?_, rfl⟩
    intro haccepted
    obtain ⟨hashAlg, -, hhash'⟩ := haccepted.digest
    rw [hhash] at hhash'
    cases hhash'
  | some hashAlg =>
    simp only [signatureToDer_of_not_freedTwice h, ok_bind]
    by_cases halg : sig.sigAlg = Tpm2Alg.ecdsa
    · rw [if_pos halg, if_pos (by decide)]
      exact .inr ⟨fun haccepted => haccepted.not_ecdsa halg, rfl⟩
    · rw [if_neg halg, if_neg (by decide)]
      have hiff := digestVerify_eq_zero_iff (c := c) hhash halg
      rcases digestVerify_cases c sig hashAlg with hzero | hneg
      · exact .inl ⟨hiff.1 hzero, by rw [hzero]; rfl⟩
      · refine .inr ⟨?_, by rw [hneg]; rfl⟩
        intro haccepted
        have hzero := hiff.2 haccepted
        rw [hneg] at hzero
        cases hzero

theorem verifyQuoteSignature_ok_iff : verifyQuoteSignature c sig = .ok 0 ↔ SignatureAccepted c sig := by
  constructor
  · intro h
    by_cases hfreed : FreedTwice c sig
    · rw [verifyQuoteSignature_of_freedTwice hfreed] at h
      cases h
    · rcases verifyQuoteSignature_of_not_freedTwice hfreed with ⟨haccepted, -⟩ | ⟨-, hneg⟩
      · exact haccepted
      · rw [hneg] at h
        cases h
  · intro haccepted
    rcases verifyQuoteSignature_of_not_freedTwice haccepted.not_freedTwice with ⟨-, hzero⟩ | ⟨hnot, -⟩
    · exact hzero
    · exact absurd haccepted hnot

/-- A signature that is neither accepted nor freed twice is refused with -1. -/
theorem verifyQuoteSignature_of_refused (haccepted : ¬ SignatureAccepted c sig) (hfreed : ¬ FreedTwice c sig) :
    verifyQuoteSignature c sig = .ok (-1) := by
  rcases verifyQuoteSignature_of_not_freedTwice hfreed with ⟨h, -⟩ | ⟨-, hneg⟩
  · exact absurd h haccepted
  · exact hneg

theorem verifyQuoteSignature_error_iff {e : Fault} :
    verifyQuoteSignature c sig = .error e ↔ FreedTwice c sig ∧ e = .freedTwice := by
  constructor
  · intro h
    by_cases hfreed : FreedTwice c sig
    · rw [verifyQuoteSignature_of_freedTwice hfreed] at h
      cases h
      exact ⟨hfreed, rfl⟩
    · rcases verifyQuoteSignature_of_not_freedTwice hfreed with ⟨-, hzero⟩ | ⟨-, hneg⟩
      · rw [hzero] at h
        cases h
      · rw [hneg] at h
        cases h
  · rintro ⟨hfreed, rfl⟩
    exact verifyQuoteSignature_of_freedTwice hfreed

end PortableTlsRa
