import PortableTlsRa.Lib.Cbor
import PortableTlsRa.Lib.Sha256
import PortableTlsRa.PemKey
import PortableTlsRa.Platform

/-!
# Extracting SGX evidence

`extract_cbor_evidence_and_compare_hash`: from the tagged evidence to the quote and the claims, whose hash is the report
data of the quote, and from the claims to the TPM2 quote and the nonce.  That a claim holds the hash of the
certificate's key is checked where the claim is met, and nothing after the loop asks whether one was
(`extractCborEvidence_bound_iff`).
-/

namespace PortableTlsRa

open CSem Cbor

/-! ### The code -/

inductive SgxStatus where
  | success
  | unexpected
  | outOfMemory
  | outOfEpc
  | invalidSignature
  | tlsX509InvalidExtension
deriving DecidableEq

def quoteMinSize : Nat := 1020
def rawQuoteMaxSize : Nat := 8192
def maxsizeSerTpm2Quote : Nat := 1000

/-- `TCG_DICE_TAGGED_EVIDENCE_TEE_QUOTE_CBOR_TAG` -/
def teeQuoteCborTag : Nat := 60000

/-- `LOCAL_CBOR_TAG_INTEL_TEE_TPM2_QUOTE` -/
def teeTpm2QuoteCborTag : Nat := 60004

/-- libcbor and OpenSSL, whose hash functions may fail, and whether the allocations succeed. -/
structure SgxEnv where
  cbor : Libcbor
  sha256 : Bytes → Option (ByteBuf 32)
  sha384 : Bytes → Option (ByteBuf 48)
  sha512 : Bytes → Option (ByteBuf 64)
  mallocPem : Bool
  mallocHash : Bool
  mallocQuote : Bool

/-- What the output parameters point to. -/
structure EvidenceOut where
  outQuote : ByteBuf 8192
  outQuoteSize : Nat
  outSertpm2 : ByteBuf 1000
  sersz : Nat
  outNonce : ByteBuf 32
  ctype : Nat
deriving DecidableEq

variable (env : SgxEnv)

/-- `sgx_tls_compare_quote_hash`.  The report data is where the header of the SGX SDK for the kind of quote has it. -/
def sgxTlsCompareQuoteHash (pQuote inBuf : Bytes) : Checked SgxStatus := do
  let quoteType ← readRange pQuote 4 4
  if !env.mallocHash then return .outOfMemory
  if ofLittleEndian quoteType = 0x81 then
    let version ← readRange pQuote 0 2
    let offset := if ofLittleEndian version = 5 then 574 else 568
    match env.sha384 inBuf with
    | none => return .unexpected
    | some hash =>
      let reportData ← readRange pQuote offset 48
      return if reportData = hash.1 then .success else .invalidSignature
  else if ofLittleEndian quoteType = 0 then
    match env.sha256 inBuf with
    | none => return .unexpected
    | some hash =>
      let reportData ← readRange pQuote 368 32
      return if reportData = hash.1 then .success else .invalidSignature
  else return .unexpected

/-- The hash algorithms of the IANA registry that are supported, with the size of their digest. -/
def SgxEnv.namedHash : Nat → Option ((n : Nat) × (Bytes → Option (ByteBuf n)))
  | 1 => some ⟨32, env.sha256⟩
  | 7 => some ⟨48, env.sha384⟩
  | 8 => some ⟨64, env.sha512⟩
  | _ => none

def compareCertPubkeyAgainstCborClaimHash (pemPubKey : Bytes) (hashEntry : Item) : Checked SgxStatus := do
  let (rc, pkDer) ← pem2Der env.mallocPem pemPubKey
  if rc ≠ 0 then return .unexpected
  match hashEntry with
  | .array true [.uint _ hashAlgId, .bytes hashValue] =>
    match env.namedHash hashAlgId with
    | none => return .tlsX509InvalidExtension
    | some ⟨shaSize, sha⟩ =>
      if hashValue.length ≠ shaSize then return .tlsX509InvalidExtension
      match sha pkDer with
      | none => return .unexpected
      | some digest => return if hashValue = digest.1 then .success else .invalidSignature
  | _ => return .tlsX509InvalidExtension

inductive ClaimKey where
  | pubkeyHash
  | tpm2Quote
  | nonce
  | other
deriving DecidableEq

/-- What a claim is taken for: the first of the keys that its own key is a prefix of. -/
def claimKey (name : Bytes) : ClaimKey :=
  if strncmpEq (lit "pubkey-hash") name then .pubkeyHash
  else if strncmpEq (lit "tpm2-quote") name then .tpm2Quote
  else if strncmpEq (lit "nonce") name then .nonce
  else .other

/-- One turn of the loop over the claims; `exit` is `goto out` with an error. -/
def claimTurn (pemPubKey : Bytes) (out : EvidenceOut) (pair : Item × Item) : Checked (Turn EvidenceOut SgxStatus) := do
  match pair.1 with
  | .text name =>
    if name = [] then return .exit .tlsX509InvalidExtension
    match claimKey name with
    | .pubkeyHash =>
      match pair.2 with
      | .bytes entry =>
        if entry = [] then return .exit .tlsX509InvalidExtension
        match env.cbor.load entry with
        | none => return .exit .tlsX509InvalidExtension
        | some hashEntry =>
          let ret ← compareCertPubkeyAgainstCborClaimHash env pemPubKey hashEntry
          if ret = .success then return .next out
          return .exit ret
      | _ => return .exit .tlsX509InvalidExtension
    | .tpm2Quote =>
      let tpm2q ← env.cbor.bytestring pair.2
      if tpm2q.length ≤ maxsizeSerTpm2Quote then
        let outSertpm2 ← memcpy out.outSertpm2 tpm2q
        return .next { out with sersz := tpm2q.length, outSertpm2 := outSertpm2 }
      return .next { out with sersz := 0 }
    | .nonce =>
      let nonce ← env.cbor.bytestring pair.2
      -- another length is only reported
      if nonce.length ≠ 32 then return .next out
      let outNonce ← memcpy out.outNonce nonce
      return .next { out with outNonce := outNonce }
    | .other => return .next out
  | _ => return .exit .tlsX509InvalidExtension

/-- The part of the function before the hash is compared: the tag, the quote and the claims. -/
def evidenceParts (evidence : Bytes) : Except SgxStatus (Nat × Bytes × Bytes) :=
  if evidence = [] then .error .unexpected
  else
    match env.cbor.load evidence with
    | none => .error .unexpected
    | some (.tag ctype (.array true [.bytes quote, claims])) =>
      if ctype ≠ teeQuoteCborTag ∧ ctype ≠ teeTpm2QuoteCborTag then .error .tlsX509InvalidExtension
      else if quote.length < quoteMinSize then .error .tlsX509InvalidExtension
      else if !env.mallocQuote then .error .outOfMemory
      else
        match claims with
        | .bytes claims => if claims = [] then .error .tlsX509InvalidExtension else .ok (ctype, quote, claims)
        | _ => .error .tlsX509InvalidExtension
    | some _ => .error .tlsX509InvalidExtension

/-- Returns the output parameters, which are read by nobody after an error. -/
def extractCborEvidenceAndCompareHash (evidence pemPubKey : Bytes) (out : EvidenceOut) :
    Checked (Except SgxStatus EvidenceOut) := do
  match evidenceParts env evidence with
  | .error ret => return .error ret
  | .ok (ctype, quote, claims) =>
    let ret ← sgxTlsCompareQuoteHash env quote claims
    if ret ≠ .success then return .error ret
    match env.cbor.load claims with
    | some (.map true pairs) =>
      if pairs = [] then return .error .tlsX509InvalidExtension
      match ← forEach (claimTurn env pemPubKey) { out with sersz := 0, ctype := ctype } pairs with
      | .exit ret => return .error ret
      | .next out =>
        let outQuote ← memcpy out.outQuote quote
        return .ok { out with outQuote := outQuote, outQuoteSize := quote.length }
    | _ => return .error .tlsX509InvalidExtension

/-! ### What the evidence consists of -/

/-- The evidence is a tagged pair of a quote and claims. -/
structure EvidenceIs (evidence : Bytes) (ctype : Nat) (quote claims : Bytes) : Prop where
  load : env.cbor.load evidence = some (.tag ctype (.array true [.bytes quote, .bytes claims]))
  evidence_ne_nil : evidence ≠ []
  ctype_mem : ctype = teeQuoteCborTag ∨ ctype = teeTpm2QuoteCborTag
  quote_le : quoteMinSize ≤ quote.length
  claims_ne_nil : claims ≠ []

/-- The report data of the quote is the hash of the bytes. -/
def ReportDataIs (quote claims : Bytes) : Prop :=
  ∃ quoteType, readRange quote 4 4 = .ok quoteType ∧
    (ofLittleEndian quoteType = 0x81 ∧ (∃ version hash, readRange quote 0 2 = .ok version ∧
        env.sha384 claims = some hash ∧
        readRange quote (if ofLittleEndian version = 5 then 574 else 568) 48 = .ok hash.1) ∨
      ofLittleEndian quoteType = 0 ∧ ∃ hash, env.sha256 claims = some hash ∧ readRange quote 368 32 = .ok hash.1)

/-- The entry names an algorithm, and holds the digest of the key under it. -/
def HashEntryOf (der : Bytes) (hashEntry : Item) : Prop :=
  ∃ width hashAlgId n, ∃ sha : Bytes → Option (ByteBuf n), ∃ digest,
    hashEntry = .array true [.uint width hashAlgId, .bytes digest.1] ∧ env.namedHash hashAlgId = some ⟨n, sha⟩ ∧
      sha der = some digest

variable {env} {evidence pemPubKey quote claims : Bytes} {ctype : Nat}

theorem evidenceParts_eq_ok_iff :
    evidenceParts env evidence = .ok (ctype, quote, claims) ↔
      env.mallocQuote = true ∧ EvidenceIs env evidence ctype quote claims := by
  unfold evidenceParts
  constructor
  · intro h
    by_cases hnil : evidence = []
    · rw [if_pos hnil] at h
      cases h
    rw [if_neg hnil] at h
    split at h
    · cases h
    · rename_i ctype' quote' item hload
      split_ifs at h with htag hsize hmalloc
      split at h
      · split_ifs at h with hclaims
        cases h
        have htag' : ctype = teeQuoteCborTag ∨ ctype = teeTpm2QuoteCborTag := by
          by_contra hne
          exact htag (not_or.1 hne)
        exact ⟨by simpa using hmalloc, hload, hnil, htag', Nat.not_lt.1 hsize, hclaims⟩
      · cases h
    · cases h
  · intro ⟨hmalloc, hload, hnil, htag, hsize, hclaims⟩
    have htag' : ¬ (ctype ≠ teeQuoteCborTag ∧ ctype ≠ teeTpm2QuoteCborTag) := by
      intro ⟨h₁, h₂⟩
      exact htag.elim h₁ h₂
    simp only [hload, hnil, if_false, htag', Nat.not_lt.2 hsize, hmalloc, hclaims, Bool.not_true, Bool.false_eq_true]

theorem sgxTlsCompareQuoteHash_iff :
    sgxTlsCompareQuoteHash env quote claims = .ok .success ↔ env.mallocHash = true ∧ ReportDataIs env quote claims := by
  have hstatus : ∀ p : Prop, ∀ [Decidable p], (if p then SgxStatus.success else .invalidSignature) = .success ↔ p := by
    intro p _
    by_cases hp : p
    · simp [hp]
    · simp [hp]
  unfold sgxTlsCompareQuoteHash ReportDataIs
  rw [bind_eq_ok]
  constructor
  · intro ⟨quoteType, htype, h⟩
    cases hmalloc : env.mallocHash with
    | false => simp [hmalloc] at h
    | true =>
      simp only [hmalloc, Bool.not_true, Bool.false_eq_true, if_false] at h
      refine ⟨rfl, quoteType, htype, ?_⟩
      split_ifs at h with htdx hsgx
      · obtain ⟨version, hversion, h⟩ := bind_eq_ok.1 h
        left
        refine ⟨htdx, version, ?_⟩
        cases hhash : env.sha384 claims with
        | none => simp [hhash] at h
        | some hash =>
          simp only [hhash] at h
          obtain ⟨reportData, hdata, h⟩ := bind_eq_ok.1 h
          rw [pure_eq_ok, Except.ok.injEq, hstatus] at h
          exact ⟨hash, hversion, rfl, h ▸ hdata⟩
      · right
        refine ⟨hsgx, ?_⟩
        cases hhash : env.sha256 claims with
        | none => simp [hhash] at h
        | some hash =>
          simp only [hhash] at h
          obtain ⟨reportData, hdata, h⟩ := bind_eq_ok.1 h
          rw [pure_eq_ok, Except.ok.injEq, hstatus] at h
          exact ⟨hash, rfl, h ▸ hdata⟩
      · cases h
  · intro ⟨hmalloc, quoteType, htype, hkind⟩
    rcases hkind with ⟨htdx, version, hash, hversion, hhash, hdata⟩ | ⟨hsgx, hash, hhash, hdata⟩
    · refine ⟨quoteType, htype, ?_⟩
      simp only [hmalloc, htdx, hversion, hhash, hdata, ok_bind, Bool.not_true, Bool.false_eq_true, if_false, if_true,
        pure_eq_ok]
    · have hne : ¬ (0 : Nat) = 0x81 := by decide
      refine ⟨quoteType, htype, ?_⟩
      simp only [hmalloc, hsgx, hne, hhash, hdata, ok_bind, Bool.not_true, Bool.false_eq_true, if_false, if_true,
        pure_eq_ok]

theorem compareCertPubkeyAgainstCborClaimHash_iff {hashEntry : Item} :
    compareCertPubkeyAgainstCborClaimHash env pemPubKey hashEntry = .ok .success ↔
      ∃ der, pem2Der env.mallocPem pemPubKey = .ok (0, der) ∧ HashEntryOf env der hashEntry := by
  unfold compareCertPubkeyAgainstCborClaimHash HashEntryOf
  rw [bind_eq_ok]
  constructor
  · intro ⟨⟨rc, der⟩, hder, h⟩
    by_cases hrc : rc = 0
    · subst hrc
      refine ⟨der, hder, ?_⟩
      simp only [ne_eq, not_true_eq_false, if_false] at h
      split at h
      · rename_i width hashAlgId hashValue
        cases hsha : env.namedHash hashAlgId with
        | none => simp [hsha] at h
        | some named =>
          obtain ⟨n, sha⟩ := named
          simp only [hsha] at h
          by_cases hlen : hashValue.length = n
          · cases hdigest : sha der with
            | none => simp [hlen, hdigest] at h
            | some digest =>
              simp only [hlen, not_true_eq_false, if_false, hdigest, pure_eq_ok, Except.ok.injEq] at h
              split_ifs at h with heq
              exact ⟨width, hashAlgId, n, sha, digest, by rw [heq], hsha, hdigest⟩
          · simp [hlen] at h
      · cases h
    · simp [hrc] at h
  · intro h
    rcases h with ⟨der, hder, width, hashAlgId, n, sha, digest, rfl, hsha, hdigest⟩
    refine ⟨(0, der), hder, ?_⟩
    simp only [hsha, hdigest, digest.2, ne_eq, not_true_eq_false, if_false, if_true, pure_eq_ok]

/-! ### The loop over the claims -/

/-- The value is the serialised hash entry of the key. -/
def PubkeyHashOf (env : SgxEnv) (pemPubKey : Bytes) (value : Item) : Prop :=
  ∃ entry hashEntry der, value = .bytes entry ∧ entry ≠ [] ∧ env.cbor.load entry = some hashEntry ∧
    pem2Der env.mallocPem pemPubKey = .ok (0, der) ∧ HashEntryOf env der hashEntry

/-- A claim that the loop goes on after: its key is a text, and what its key is taken for accepts its value. -/
def ClaimPasses (env : SgxEnv) (pemPubKey : Bytes) (pair : Item × Item) : Prop :=
  ∃ name, pair.1 = .text name ∧ name ≠ [] ∧
    match claimKey name with
    | .pubkeyHash => PubkeyHashOf env pemPubKey pair.2
    | .tpm2Quote | .nonce => ∃ data, env.cbor.bytestring pair.2 = .ok data
    | .other => True

/-- The turns after which the loop goes on, and what they write. -/
inductive ClaimStep (env : SgxEnv) (pemPubKey : Bytes) (out : EvidenceOut) : Item × Item → EvidenceOut → Prop where
  | pubkeyHash {name : Bytes} {value : Item} : name ≠ [] → claimKey name = .pubkeyHash →
      PubkeyHashOf env pemPubKey value → ClaimStep env pemPubKey out (.text name, value) out
  | tpm2Quote {name tpm2q : Bytes} {value : Item} {outSertpm2 : ByteBuf maxsizeSerTpm2Quote} : name ≠ [] →
      claimKey name = .tpm2Quote → env.cbor.bytestring value = .ok tpm2q → tpm2q.length ≤ maxsizeSerTpm2Quote →
      memcpy out.outSertpm2 tpm2q = .ok outSertpm2 →
      ClaimStep env pemPubKey out (.text name, value) { out with sersz := tpm2q.length, outSertpm2 := outSertpm2 }
  | longTpm2Quote {name tpm2q : Bytes} {value : Item} : name ≠ [] → claimKey name = .tpm2Quote →
      env.cbor.bytestring value = .ok tpm2q → ¬ tpm2q.length ≤ maxsizeSerTpm2Quote →
      ClaimStep env pemPubKey out (.text name, value) { out with sersz := 0 }
  | nonce {name nonce : Bytes} {value : Item} : name ≠ [] → claimKey name = .nonce →
      env.cbor.bytestring value = .ok nonce → (hlen : nonce.length = 32) →
      ClaimStep env pemPubKey out (.text name, value) { out with outNonce := ⟨nonce, hlen⟩ }
  | otherNonce {name nonce : Bytes} {value : Item} : name ≠ [] → claimKey name = .nonce →
      env.cbor.bytestring value = .ok nonce → nonce.length ≠ 32 → ClaimStep env pemPubKey out (.text name, value) out
  | other {name : Bytes} {value : Item} : name ≠ [] → claimKey name = .other →
      ClaimStep env pemPubKey out (.text name, value) out

theorem claimTurn_pubkeyHash_iff {out out' : EvidenceOut} {name : Bytes} {value : Item} (hname : name ≠ [])
    (hkey : claimKey name = .pubkeyHash) :
    claimTurn env pemPubKey out (.text name, value) = .ok (.next out') ↔
      PubkeyHashOf env pemPubKey value ∧ out' = out := by
  unfold claimTurn PubkeyHashOf
  simp only [hname, hkey, if_false]
  cases value with
  | bytes entry =>
    by_cases hentry : entry = []
    · simp [hentry]
    cases hload : env.cbor.load entry with
    | none => simp [hentry, hload]
    | some hashEntry =>
      simp only [hentry, if_false, Item.bytes.injEq, exists_and_left, exists_eq_left', hload, ne_eq,
        not_false_eq_true, true_and, Option.some.injEq, ← compareCertPubkeyAgainstCborClaimHash_iff, bind_eq_ok]
      constructor
      · intro ⟨ret, hret, h⟩
        split_ifs at h with hsuccess
        · cases h
          exact ⟨hsuccess ▸ hret, rfl⟩
        · cases h
      · intro ⟨hret, heq⟩
        exact ⟨.success, hret, by rw [heq]; rfl⟩
  | _ => simp

/-- One turn, by what the key of the claim is taken for. -/
theorem claimTurn_step_iff {out out' : EvidenceOut} {pair : Item × Item} :
    claimTurn env pemPubKey out pair = .ok (.next out') ↔ ClaimStep env pemPubKey out pair out' := by
  constructor
  · intro h
    obtain ⟨key, value⟩ := pair
    cases key with
    | text name =>
      by_cases hname : name = []
      · simp [claimTurn, hname] at h
      cases hkey : claimKey name with
      | pubkeyHash =>
        obtain ⟨hhash, rfl⟩ := (claimTurn_pubkeyHash_iff hname hkey).1 h
        exact .pubkeyHash hname hkey hhash
      | tpm2Quote =>
        simp only [claimTurn, hname, hkey, if_false] at h
        obtain ⟨tpm2q, hdata, h⟩ := bind_eq_ok.1 h
        by_cases hlen : tpm2q.length ≤ maxsizeSerTpm2Quote
        · rw [if_pos hlen] at h
          obtain ⟨outSertpm2, hcopy, h⟩ := bind_eq_ok.1 h
          cases h
          exact .tpm2Quote hname hkey hdata hlen hcopy
        · rw [if_neg hlen] at h
          cases h
          exact .longTpm2Quote hname hkey hdata hlen
      | nonce =>
        simp only [claimTurn, hname, hkey, if_false] at h
        obtain ⟨nonce, hdata, h⟩ := bind_eq_ok.1 h
        by_cases hlen : nonce.length = 32
        · rw [if_neg (not_not.2 hlen), memcpy_of_length hlen] at h
          cases h
          exact .nonce hname hkey hdata hlen
        · rw [if_pos hlen] at h
          cases h
          exact .otherNonce hname hkey hdata hlen
      | other =>
        simp only [claimTurn, hname, hkey, if_false] at h
        cases h
        exact .other hname hkey
    | _ => cases h
  · intro h
    cases h with
    | pubkeyHash hname hkey hhash => exact (claimTurn_pubkeyHash_iff hname hkey).2 ⟨hhash, rfl⟩
    | tpm2Quote hname hkey hdata hlen hcopy =>
      simp only [claimTurn, hname, hkey, hdata, hlen, hcopy, if_false, if_true, ok_bind]
      rfl
    | longTpm2Quote hname hkey hdata hlen =>
      simp only [claimTurn, hname, hkey, hdata, hlen, if_false, ok_bind]
      rfl
    | nonce hname hkey hdata hlen =>
      simp only [claimTurn, hname, hkey, hdata, if_false, ok_bind, if_neg (not_not.2 hlen), memcpy_of_length hlen]
      rfl
    | otherNonce hname hkey hdata hlen =>
      simp only [claimTurn, hname, hkey, hdata, hlen, if_false, if_true, ok_bind, ne_eq, not_false_eq_true]
      rfl
    | other hname hkey =>
      simp only [claimTurn, hname, hkey, if_false]
      rfl

theorem claimTurn_next_iff {out : EvidenceOut} {pair : Item × Item} :
    (∃ out', claimTurn env pemPubKey out pair = .ok (.next out')) ↔ ClaimPasses env pemPubKey pair := by
  simp only [claimTurn_step_iff]
  constructor
  · intro ⟨out', h⟩
    cases h with
    | pubkeyHash hname hkey hhash => exact ⟨_, rfl, hname, by rwa [hkey]⟩
    | tpm2Quote hname hkey hdata _ _ => exact ⟨_, rfl, hname, by rw [hkey]; exact ⟨_, hdata⟩⟩
    | longTpm2Quote hname hkey hdata _ => exact ⟨_, rfl, hname, by rw [hkey]; exact ⟨_, hdata⟩⟩
    | nonce hname hkey hdata _ => exact ⟨_, rfl, hname, by rw [hkey]; exact ⟨_, hdata⟩⟩
    | otherNonce hname hkey hdata _ => exact ⟨_, rfl, hname, by rw [hkey]; exact ⟨_, hdata⟩⟩
    | other hname hkey => exact ⟨_, rfl, hname, by rw [hkey]; trivial⟩
  · intro ⟨name, hpair, hname, hpasses⟩
    obtain ⟨key, value⟩ := pair
    cases hpair
    cases hkey : claimKey name with
    | pubkeyHash =>
      rw [hkey] at hpasses
      exact ⟨_, .pubkeyHash hname hkey hpasses⟩
    | tpm2Quote =>
      rw [hkey] at hpasses
      obtain ⟨tpm2q, hdata⟩ := hpasses
      by_cases hlen : tpm2q.length ≤ maxsizeSerTpm2Quote
      · obtain ⟨outSertpm2, hcopy, -⟩ := memcpy_of_le out.outSertpm2 hlen
        exact ⟨_, .tpm2Quote hname hkey hdata hlen hcopy⟩
      · exact ⟨_, .longTpm2Quote hname hkey hdata hlen⟩
    | nonce =>
      rw [hkey] at hpasses
      obtain ⟨nonce, hdata⟩ := hpasses
      by_cases hlen : nonce.length = 32
      · exact ⟨_, .nonce hname hkey hdata hlen⟩
      · exact ⟨_, .otherNonce hname hkey hdata hlen⟩
    | other => exact ⟨_, .other hname hkey⟩

/-- The loop runs to its end exactly when every claim passes. -/
theorem claimsLoop_next_iff {out : EvidenceOut} {pairs : List (Item × Item)} :
    (∃ last, forEach (claimTurn env pemPubKey) out pairs = .ok (.next last)) ↔
      ∀ pair ∈ pairs, ClaimPasses env pemPubKey pair := by
  apply forEach_next_exists_iff
  intro out pair
  exact claimTurn_next_iff

/-- Every check that the function makes passes, for the parts of the evidence. -/
structure EvidencePasses (env : SgxEnv) (evidence pemPubKey : Bytes) (ctype : Nat) (quote claims : Bytes)
    (pairs : List (Item × Item)) : Prop where
  parts : EvidenceIs env evidence ctype quote claims
  mallocQuote : env.mallocQuote = true
  mallocHash : env.mallocHash = true
  reportData : ReportDataIs env quote claims
  load : env.cbor.load claims = some (.map true pairs)
  pairs_ne_nil : pairs ≠ []
  claims : ∀ pair ∈ pairs, ClaimPasses env pemPubKey pair
  quote_le : quote.length ≤ rawQuoteMaxSize

variable {pairs : List (Item × Item)} {out out' : EvidenceOut}

/-- The parts are determined by the evidence. -/
theorem EvidencePasses.unique {ctype' : Nat} {quote' claims' : Bytes} {pairs' : List (Item × Item)}
    (h : EvidencePasses env evidence pemPubKey ctype quote claims pairs)
    (h' : EvidencePasses env evidence pemPubKey ctype' quote' claims' pairs') :
    ctype = ctype' ∧ quote = quote' ∧ claims = claims' ∧ pairs = pairs' := by
  have hload := h.parts.load
  rw [h'.parts.load] at hload
  cases hload
  have hclaims := h.load
  rw [h'.load] at hclaims
  cases hclaims
  exact ⟨rfl, rfl, rfl, rfl⟩

/-- Whatever the evidence is said to be, its claims are the ones that pass. -/
theorem EvidencePasses.pairs_eq {ctype' : Nat} {quote' claims' : Bytes} {definite : Bool}
    {pairs' : List (Item × Item)} (h : EvidencePasses env evidence pemPubKey ctype quote claims pairs)
    (hparts : EvidenceIs env evidence ctype' quote' claims')
    (hload : env.cbor.load claims' = some (.map definite pairs')) : pairs' = pairs := by
  have hevidence := h.parts.load
  rw [hparts.load] at hevidence
  cases hevidence
  rw [h.load] at hload
  cases hload
  rfl

/-- What a success comes from: passing evidence, the loop over its claims and the copy of its quote. -/
theorem extractCborEvidence_eq_ok_iff :
    extractCborEvidenceAndCompareHash env evidence pemPubKey out = .ok (.ok out') ↔
      ∃ ctype quote claims pairs, EvidencePasses env evidence pemPubKey ctype quote claims pairs ∧
        ∃ last outQuote, forEach (claimTurn env pemPubKey) { out with sersz := 0, ctype := ctype } pairs =
            .ok (.next last) ∧
          memcpy last.outQuote quote = .ok outQuote ∧
          out' = { last with outQuote := outQuote, outQuoteSize := quote.length } := by
  unfold extractCborEvidenceAndCompareHash
  constructor
  · intro h
    split at h
    · cases h
    · rename_i ctype quote claims hparts
      obtain ⟨hmallocQuote, hparts⟩ := evidenceParts_eq_ok_iff.1 hparts
      obtain ⟨ret, hret, h⟩ := bind_eq_ok.1 h
      by_cases hsuccess : ret = .success
      · subst hsuccess
        obtain ⟨hmallocHash, hdata⟩ := sgxTlsCompareQuoteHash_iff.1 hret
        rw [if_neg (not_not.2 rfl)] at h
        split at h
        · rename_i pairs hload
          by_cases hnil : pairs = []
          · rw [if_pos hnil] at h
            cases h
          rw [if_neg hnil] at h
          obtain ⟨turn, hloop, h⟩ := bind_eq_ok.1 h
          cases turn with
          | exit e => cases h
          | next last =>
            obtain ⟨outQuote, hcopy, h⟩ := bind_eq_ok.1 h
            cases h
            have hclaims := claimsLoop_next_iff.1 ⟨last, hloop⟩
            have hle : quote.length ≤ rawQuoteMaxSize := by
              by_contra hgt
              simp [memcpy, show ¬ quote.length ≤ 8192 from hgt] at hcopy
            exact ⟨ctype, quote, claims, pairs, ⟨hparts, hmallocQuote, hmallocHash, hdata, hload, hnil, hclaims, hle⟩,
              last, outQuote, hloop, hcopy, rfl⟩
        · cases h
      · rw [if_pos hsuccess] at h
        cases h
  · intro h
    rcases h with ⟨ctype, quote, claims, pairs, hpass, last, outQuote, hloop, hcopy, rfl⟩
    rw [evidenceParts_eq_ok_iff.2 ⟨hpass.mallocQuote, hpass.parts⟩]
    simp only [sgxTlsCompareQuoteHash_iff.2 ⟨hpass.mallocHash, hpass.reportData⟩, ok_bind, ne_eq, not_true_eq_false,
      if_false, hpass.load, hpass.pairs_ne_nil, hloop, hcopy, pure_eq_ok]

/-- Evidence that passes is extracted, whatever the output parameters hold. -/
theorem EvidencePasses.extracted (h : EvidencePasses env evidence pemPubKey ctype quote claims pairs)
    (out : EvidenceOut) : ∃ out', extractCborEvidenceAndCompareHash env evidence pemPubKey out = .ok (.ok out') := by
  have hrun : ∃ last, forEach (claimTurn env pemPubKey) { out with sersz := 0, ctype := ctype } pairs =
      .ok (.next last) := claimsLoop_next_iff.2 h.claims
  obtain ⟨last, hloop⟩ := hrun
  obtain ⟨outQuote, hcopy, -⟩ := memcpy_of_le last.outQuote h.quote_le
  exact ⟨_, extractCborEvidence_eq_ok_iff.2 ⟨ctype, quote, claims, pairs, h, last, outQuote, hloop, hcopy, rfl⟩⟩

/-! ### What success should mean -/

/-- The claims have a "pubkey-hash" with a digest of the key, and the quote is one of the claims. -/
def KeyBound (env : SgxEnv) (evidence der : Bytes) : Prop :=
  ∃ ctype quote claims pairs, EvidenceIs env evidence ctype quote claims ∧ ReportDataIs env quote claims ∧
    env.cbor.load claims = some (.map true pairs) ∧
    ∃ entry hashEntry, (.text (lit "pubkey-hash"), .bytes entry) ∈ pairs ∧ env.cbor.load entry = some hashEntry ∧
      HashEntryOf env der hashEntry

/-- Extracted evidence is bound to the key. -/
def ExtractionBound (env : SgxEnv) (evidence : Bytes) (key : PemKey) : Prop :=
  ∀ out out', extractCborEvidenceAndCompareHash env evidence key.text out = .ok (.ok out') →
    KeyBound env evidence key.der

/-- A claim with the key "pubkey-hash" passes only with a digest of the key. -/
theorem ClaimPasses.pubkeyHash {key : PemKey} {value : Item}
    (h : ClaimPasses env key.text (.text (lit "pubkey-hash"), value)) :
    ∃ entry hashEntry, value = .bytes entry ∧ env.cbor.load entry = some hashEntry ∧
      HashEntryOf env key.der hashEntry := by
  have hkey : claimKey (lit "pubkey-hash") = .pubkeyHash := by decide
  obtain ⟨name, hname, -, hpass⟩ := h
  cases hname
  rw [hkey] at hpass
  obtain ⟨entry, hashEntry, der, hvalue, -, hload, hder, hof⟩ := hpass
  obtain ⟨-, -, -, rfl⟩ := pem2Der_pem_iff.1 hder
  exact ⟨entry, hashEntry, hvalue, hload, hof⟩

/-- Extracted evidence is bound to the key exactly when evidence whose other checks pass has a claim with the key
"pubkey-hash". -/
theorem extractCborEvidence_bound_iff (env : SgxEnv) (evidence : Bytes) (key : PemKey) :
    ExtractionBound env evidence key ↔
      ∀ ctype quote claims pairs, EvidencePasses env evidence key.text ctype quote claims pairs →
        ∃ value, (.text (lit "pubkey-hash"), value) ∈ pairs := by
  constructor
  · intro hbound ctype quote claims pairs hpass
    have hout : EvidenceOut := ⟨ByteBuf.zero 8192, 0, ByteBuf.zero 1000, 0, ByteBuf.zero 32, 0⟩
    obtain ⟨out', hextract⟩ := hpass.extracted hout
    obtain ⟨ctype', quote', claims', pairs', hparts, -, hload, entry, -, hmem, -⟩ := hbound hout out' hextract
    obtain rfl := hpass.pairs_eq hparts hload
    exact ⟨_, hmem⟩
  · intro hcond out out' hextract
    obtain ⟨ctype, quote, claims, pairs, hpass, -⟩ := extractCborEvidence_eq_ok_iff.1 hextract
    obtain ⟨value, hmem⟩ := hcond ctype quote claims pairs hpass
    obtain ⟨entry, hashEntry, rfl, hload, hof⟩ := (hpass.claims _ hmem).pubkeyHash
    exact ⟨ctype, quote, claims, pairs, hpass.parts, hpass.reportData, hpass.load, entry, hashEntry, hmem, hload, hof⟩

/-! ### Claims without the hash of a key -/

/-- An enclave with SHA-256 alone, which does not run out of memory. -/
def enclave : SgxEnv where
  cbor := ⟨Cbor.load, fun _ => .error .nullPointer⟩
  sha256 := fun message => some (Sha256.hash message)
  sha384 := fun _ => none
  sha512 := fun _ => none
  mallocPem := true
  mallocHash := true
  mallocQuote := true

/-- An SGX quote whose report data starts with the digest. -/
def quoteOfDigest (digest : ByteBuf 32) : Bytes := List.replicate 368 0 ++ digest.1 ++ List.replicate 620 0

theorem length_quoteOfDigest (digest : ByteBuf 32) : (quoteOfDigest digest).length = 1020 := by
  simp only [quoteOfDigest, List.length_append, List.length_replicate, digest.2]

theorem quoteOfDigest_type (digest : ByteBuf 32) : readRange (quoteOfDigest digest) 4 4 = .ok [0, 0, 0, 0] := by
  have hzeros : List.replicate 368 (0 : UInt8) = List.replicate 4 0 ++ [0, 0, 0, 0] ++ List.replicate 360 0 := rfl
  rw [quoteOfDigest, hzeros, List.append_assoc, List.append_assoc]
  exact readRange_append _ _ _

theorem quoteOfDigest_reportData (digest : ByteBuf 32) : readRange (quoteOfDigest digest) 368 32 = .ok digest.1 := by
  have hread := readRange_append (List.replicate 368 0) digest.1 (List.replicate 620 0)
  rwa [List.length_replicate, digest.2] at hread

/-- The report data of the quote of a hash. -/
theorem reportDataIs_quoteOfDigest (claims : Bytes) :
    ReportDataIs enclave (quoteOfDigest (Sha256.hash claims)) claims :=
  ⟨[0, 0, 0, 0], quoteOfDigest_type _, .inr ⟨by decide, _, rfl, quoteOfDigest_reportData _⟩⟩

/-- A quote of the claims, and the claims. -/
def evidenceOfClaims (claims : Bytes) : Bytes :=
  encode (.tag teeQuoteCborTag (.array true [.bytes (quoteOfDigest (Sha256.hash claims)), .bytes claims]))

/-- Claims that pass can be put into evidence that passes. -/
theorem evidencePasses_of_claims (hserializable : Serializable (.map true pairs)) (hne : pairs ≠ [])
    (hsize : (encode (.map true pairs)).length < 2 ^ 64)
    (hclaims : ∀ pair ∈ pairs, ClaimPasses enclave pemPubKey pair) :
    EvidencePasses enclave (evidenceOfClaims (encode (.map true pairs))) pemPubKey teeQuoteCborTag
      (quoteOfDigest (Sha256.hash (encode (.map true pairs)))) (encode (.map true pairs)) pairs := by
  have hquote := length_quoteOfDigest (Sha256.hash (encode (.map true pairs)))
  have hlt : (quoteOfDigest (Sha256.hash (encode (.map true pairs)))).length < 2 ^ 64 := by
    rw [hquote]
    decide
  have hevidence : Serializable (.tag teeQuoteCborTag (.array true
      [.bytes (quoteOfDigest (Sha256.hash (encode (.map true pairs)))), .bytes (encode (.map true pairs))])) :=
    ⟨by decide, rfl, by rw [List.length_cons, List.length_singleton]; decide, hlt, hsize, trivial⟩
  have hparts : EvidenceIs enclave (evidenceOfClaims (encode (.map true pairs))) teeQuoteCborTag
      (quoteOfDigest (Sha256.hash (encode (.map true pairs)))) (encode (.map true pairs)) :=
    ⟨load_encode_eq _ hevidence, encode_ne_nil hevidence, .inl rfl, Nat.le_of_eq hquote.symm,
      encode_ne_nil hserializable⟩
  have hfit : (quoteOfDigest (Sha256.hash (encode (.map true pairs)))).length ≤ rawQuoteMaxSize := by
    rw [hquote]
    decide
  exact ⟨hparts, rfl, rfl, reportDataIs_quoteOfDigest _, load_encode_eq _ hserializable, hne, hclaims, hfit⟩

/-- A map with the one claim "x". -/
def unrelatedClaims : List (Item × Item) := [(.text (lit "x"), .uint .w8 0)]

theorem unrelatedClaims_pass : ∀ pair ∈ unrelatedClaims, ClaimPasses enclave pemPubKey pair := by
  intro pair hpair
  obtain rfl := List.mem_singleton.1 hpair
  have hkey : claimKey (lit "x") = .other := by decide
  refine ⟨lit "x", rfl, by decide, ?_⟩
  rw [hkey]
  trivial

theorem evidencePasses_unrelated (pemPubKey : Bytes) :
    EvidencePasses enclave (evidenceOfClaims (encode (.map true unrelatedClaims))) pemPubKey teeQuoteCborTag
      (quoteOfDigest (Sha256.hash (encode (.map true unrelatedClaims)))) (encode (.map true unrelatedClaims))
      unrelatedClaims := by
  have hkey : Serializable (.text (lit "x")) := show (lit "x").length < 2 ^ 64 by decide
  have hvalue : Serializable (.uint .w8 0) := show 0 < 256 ^ Width.w8.bytes by decide
  exact evidencePasses_of_claims ⟨rfl, by decide, ⟨hkey, hvalue⟩, trivial⟩ (List.cons_ne_nil _ _) (by decide)
    unrelatedClaims_pass

/-- A key of one byte. -/
def shortKey : PemKey := ⟨[0], [lit "AA=="], rfl, by decide⟩

/-- Claims without "pubkey-hash" are extracted for that key. -/
theorem extractCborEvidence_accepts_unbound :
    ¬ ExtractionBound enclave (evidenceOfClaims (encode (.map true unrelatedClaims))) shortKey := by
  intro hbound
  have hpass := evidencePasses_unrelated shortKey.text
  obtain ⟨out', hextract⟩ := hpass.extracted
    ⟨ByteBuf.zero 8192, 0, ByteBuf.zero 1000, 0, ByteBuf.zero 32, 0⟩
  obtain ⟨ctype, quote, claims, pairs, hparts, -, hload, entry, -, hmem, -⟩ := hbound _ out' hextract
  obtain rfl := hpass.pairs_eq hparts hload
  simp [unrelatedClaims] at hmem

end PortableTlsRa
