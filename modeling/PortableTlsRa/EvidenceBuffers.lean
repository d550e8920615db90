import PortableTlsRa.SgxEvidence

/-!
# The buffers of fixed size that evidence is extracted to

A copy that does not fit its buffer is the fault `outOfBounds` of the model.  The copies of the TPM2 quote and of the
nonce are guarded by their size, and a quote that is long enough is never read past its end.  The copy of the quote is
not: there is a least size for a quote but no greatest.  Nor is that of the key, which is decoded to the end of its
text when it is compared with a claim.  `extractCborEvidence_no_overflow_iff` says for which evidence and which key
nothing overruns.
-/

namespace PortableTlsRa

open CSem Cbor

/-- The checks that are made before the loop over the claims pass. -/
def ReachesClaims (env : SgxEnv) (evidence quote : Bytes) (pairs : List (Item × Item)) : Prop :=
  env.mallocQuote = true ∧ env.mallocHash = true ∧ ∃ ctype claims, EvidenceIs env evidence ctype quote claims ∧
    ReportDataIs env quote claims ∧ env.cbor.load claims = some (.map true pairs) ∧ pairs ≠ []

/-- Every check that is made before the quote is copied passes. -/
def ReachesCopy (env : SgxEnv) (evidence pemPubKey quote : Bytes) : Prop :=
  ∃ pairs, ReachesClaims env evidence quote pairs ∧ ∀ pair ∈ pairs, ClaimPasses env pemPubKey pair

/-- The claim is taken for "pubkey-hash", and its value decodes to the hash entry. -/
def IsKeyClaim (env : SgxEnv) (pair : Item × Item) (hashEntry : Item) : Prop :=
  ∃ name entry, pair = (.text name, .bytes entry) ∧ name ≠ [] ∧ claimKey name = .pubkeyHash ∧ entry ≠ [] ∧
    env.cbor.load entry = some hashEntry

/-- The key is compared with a hash entry of the evidence: all claims before it pass. -/
def ComparesKey (env : SgxEnv) (evidence pemPubKey : Bytes) (hashEntry : Item) : Prop :=
  ∃ quote pre pair post, ReachesClaims env evidence quote (pre ++ pair :: post) ∧
    (∀ claim ∈ pre, ClaimPasses env pemPubKey claim) ∧ IsKeyClaim env pair hashEntry

/-- Neither the extraction nor the comparison with the key, where it is made, writes past the end of a buffer, and the
comparison of the hash does not read past the end of the quote. -/
structure NoOverflow (env : SgxEnv) (evidence pemPubKey : Bytes) : Prop where
  extract : ∀ out, extractCborEvidenceAndCompareHash env evidence pemPubKey out ≠ .error .outOfBounds
  compareKey : ∀ hashEntry, ComparesKey env evidence pemPubKey hashEntry →
    compareCertPubkeyAgainstCborClaimHash env pemPubKey hashEntry ≠ .error .outOfBounds
  compareHash : ∀ ctype quote claims, evidenceParts env evidence = .ok (ctype, quote, claims) →
    sgxTlsCompareQuoteHash env quote claims ≠ .error .outOfBounds

variable {env : SgxEnv} {evidence pemPubKey quote : Bytes} {key : PemKey} {out : EvidenceOut}

/-! ### The quote -/

/-- The header of a long enough quote, its kind and its report data lie inside it. -/
theorem sgxTlsCompareQuoteHash_defined (env : SgxEnv) (inBuf : Bytes) (hmin : quoteMinSize ≤ quote.length) :
    ∃ ret, sgxTlsCompareQuoteHash env quote inBuf = .ok ret := by
  have hread : ∀ off n, off + n ≤ 1020 → ∃ b, readRange quote off n = .ok b := by
    intro off n hle
    unfold quoteMinSize at hmin
    exact ⟨_, by rw [readRange, if_pos (by omega)]⟩
  obtain ⟨quoteType, htype⟩ := hread 4 4 (by omega)
  unfold sgxTlsCompareQuoteHash
  rw [htype, ok_bind]
  cases env.mallocHash with
  | false => exact ⟨_, rfl⟩
  | true =>
    simp only [Bool.not_true, Bool.false_eq_true, if_false]
    by_cases htdx : ofLittleEndian quoteType = 0x81
    · obtain ⟨version, hversion⟩ := hread 0 2 (by omega)
      rw [if_pos htdx, hversion, ok_bind]
      cases env.sha384 inBuf with
      | none => exact ⟨_, rfl⟩
      | some hash =>
        have hoffset : (if ofLittleEndian version = 5 then 574 else 568) + 48 ≤ 1020 := by
          split_ifs <;> omega
        obtain ⟨reportData, hdata⟩ := hread _ _ hoffset
        simp only [hdata, ok_bind]
        exact ⟨_, rfl⟩
    · rw [if_neg htdx]
      by_cases hsgx : ofLittleEndian quoteType = 0
      · rw [if_pos hsgx]
        cases env.sha256 inBuf with
        | none => exact ⟨_, rfl⟩
        | some hash =>
          obtain ⟨reportData, hdata⟩ := hread 368 32 (by omega)
          simp only [hdata, ok_bind]
          exact ⟨_, rfl⟩
      · rw [if_neg hsgx]
        exact ⟨_, rfl⟩

/-! ### The key -/

/-- The comparison with the key faults nowhere but in `PEM2DER`. -/
theorem compareCertPubkey_overflow_iff {hashEntry : Item} {e : Fault} :
    compareCertPubkeyAgainstCborClaimHash env pemPubKey hashEntry = .error e ↔
      pem2Der env.mallocPem pemPubKey = .error e := by
  unfold compareCertPubkeyAgainstCborClaimHash
  rw [bind_eq_error]
  constructor
  · intro h
    rcases h with h | ⟨⟨rc, pkDer⟩, -, h⟩
    · exact h
    · by_cases hrc : rc = 0
      · simp only [hrc, ne_eq, not_true_eq_false, if_false] at h
        split at h
        · rename_i width hashAlgId hashValue
          cases hsha : env.namedHash hashAlgId with
          | none => simp [hsha] at h
          | some named =>
            obtain ⟨n, sha⟩ := named
            simp only [hsha] at h
            by_cases hlen : hashValue.length = n
            · cases hdigest : sha pkDer <;> simp [hlen, hdigest] at h
            · simp [hlen] at h
        · cases h
      · simp [hrc] at h
  · exact .inl

/-! ### The claims -/

/-- The copies of the TPM2 quote and of the nonce fit: what overruns is the buffer for the key, at a claim that is taken
for "pubkey-hash". -/
theorem claimTurn_overflow (huntyped : ∀ item, env.cbor.untyped item ≠ .error .outOfBounds) {pair : Item × Item}
    (h : claimTurn env pemPubKey out pair = .error .outOfBounds) :
    (∃ hashEntry, IsKeyClaim env pair hashEntry) ∧ pem2Der env.mallocPem pemPubKey = .error .outOfBounds := by
  have hbytes : ∀ item, env.cbor.bytestring item ≠ .error .outOfBounds := by
    intro item
    cases item with
    | bytes data => simp [Libcbor.bytestring]
    | bytesIndefinite => simp [Libcbor.bytestring]
    | _ => exact huntyped _
  obtain ⟨label, value⟩ := pair
  unfold claimTurn at h
  cases label with
  | text name =>
    by_cases hname : name = []
    · simp [hname] at h
    simp only [hname, if_false] at h
    cases hkey : claimKey name with
    | pubkeyHash =>
      simp only [hkey] at h
      cases value with
      | bytes entry =>
        by_cases hentry : entry = []
        · simp [hentry] at h
        simp only [hentry, if_false] at h
        cases hload : env.cbor.load entry with
        | none => simp [hload] at h
        | some hashEntry =>
          simp only [hload] at h
          rcases bind_eq_error.1 h with h | ⟨ret, -, h⟩
          · exact ⟨⟨hashEntry, name, entry, rfl, hname, hkey, hentry, hload⟩, compareCertPubkey_overflow_iff.1 h⟩
          · split_ifs at h <;> cases h
      | _ => cases h
    | tpm2Quote =>
      simp only [hkey] at h
      rcases bind_eq_error.1 h with h | ⟨data, -, h⟩
      · exact absurd h (hbytes value)
      · by_cases hlen : data.length ≤ maxsizeSerTpm2Quote
        · obtain ⟨outSertpm2, hcopy, -⟩ := memcpy_of_le out.outSertpm2 hlen
          rw [if_pos hlen, hcopy] at h
          cases h
        · rw [if_neg hlen] at h
          cases h
    | nonce =>
      simp only [hkey] at h
      rcases bind_eq_error.1 h with h | ⟨data, -, h⟩
      · exact absurd h (hbytes value)
      · by_cases hlen : data.length = 32
        · rw [if_neg (not_not.2 hlen), memcpy_of_length hlen] at h
          cases h
        · rw [if_pos hlen] at h
          cases h
    | other =>
      simp only [hkey] at h
      cases h
  | _ => cases h

/-! ### The extraction -/

theorem memcpy_overflow_iff {n : Nat} {dst : ByteBuf n} {src : Bytes} :
    memcpy dst src = .error .outOfBounds ↔ n < src.length := by
  unfold memcpy
  by_cases hle : src.length ≤ n
  · simp [hle]
  · simp [hle, Nat.lt_of_not_le hle]

/-- What overruns is the buffer for the key, at a claim of the evidence, or the one for the quote. -/
theorem extractCborEvidence_overflow (huntyped : ∀ item, env.cbor.untyped item ≠ .error .outOfBounds)
    (h : extractCborEvidenceAndCompareHash env evidence pemPubKey out = .error .outOfBounds) :
    (∃ hashEntry, ComparesKey env evidence pemPubKey hashEntry) ∧
        pem2Der env.mallocPem pemPubKey = .error .outOfBounds ∨
      ∃ quote, ReachesCopy env evidence pemPubKey quote ∧ rawQuoteMaxSize < quote.length := by
  unfold extractCborEvidenceAndCompareHash at h
  cases hparts : evidenceParts env evidence with
  | error ret => simp [hparts] at h
  | ok parts =>
    obtain ⟨ctype, quote, claims⟩ := parts
    obtain ⟨hmallocQuote, hevidence⟩ := evidenceParts_eq_ok_iff.1 hparts
    obtain ⟨ret, hret⟩ := sgxTlsCompareQuoteHash_defined env claims hevidence.quote_le
    simp only [hparts, hret, ok_bind] at h
    by_cases hsuccess : ret = .success
    · subst hsuccess
      obtain ⟨hmallocHash, hdata⟩ := sgxTlsCompareQuoteHash_iff.1 hret
      simp only [ne_eq, not_true_eq_false, if_false] at h
      cases hload : env.cbor.load claims with
      | none => simp [hload] at h
      | some item =>
        cases item with
        | map definite pairs =>
          cases definite with
          | false => simp [hload] at h
          | true =>
            by_cases hnil : pairs = []
            · simp [hload, hnil] at h
            simp only [hload, hnil, if_false] at h
            have hreaches : ReachesClaims env evidence quote pairs :=
              ⟨hmallocQuote, hmallocHash, ctype, claims, hevidence, hdata, hload, hnil⟩
            rcases bind_eq_error.1 h with hloop | ⟨turn, hloop, h⟩
            · obtain ⟨pre, pair, post, t, rfl, hpre, hturn⟩ := forEach_error_iff.1 hloop
              obtain ⟨⟨hashEntry, hkey⟩, hoverflow⟩ := claimTurn_overflow huntyped hturn
              exact .inl ⟨⟨hashEntry, quote, pre, pair, post, hreaches, claimsLoop_next_iff.1 ⟨t, hpre⟩, hkey⟩,
                hoverflow⟩
            · cases turn with
              | exit e => cases h
              | next last =>
                rcases bind_eq_error.1 h with hcopy | ⟨outQuote, -, h⟩
                · exact .inr ⟨quote, ⟨pairs, hreaches, claimsLoop_next_iff.1 ⟨last, hloop⟩⟩,
                    memcpy_overflow_iff.1 hcopy⟩
                · cases h
        | _ => simp [hload] at h
    · simp [hsuccess] at h

/-- A quote that is too long is copied all the same. -/
theorem ReachesCopy.overflow (h : ReachesCopy env evidence pemPubKey quote) (hlong : rawQuoteMaxSize < quote.length)
    (out : EvidenceOut) : extractCborEvidenceAndCompareHash env evidence pemPubKey out = .error .outOfBounds := by
  obtain ⟨pairs, ⟨hmallocQuote, hmallocHash, ctype, claims, hevidence, hdata, hload, hnil⟩, hclaims⟩ := h
  have hrun : ∃ last, forEach (claimTurn env pemPubKey) { out with sersz := 0, ctype := ctype } pairs =
      .ok (.next last) := claimsLoop_next_iff.2 hclaims
  obtain ⟨last, hloop⟩ := hrun
  have hcopy : memcpy last.outQuote quote = .error .outOfBounds := memcpy_overflow_iff.2 hlong
  unfold extractCborEvidenceAndCompareHash
  rw [evidenceParts_eq_ok_iff.2 ⟨hmallocQuote, hevidence⟩]
  simp only [sgxTlsCompareQuoteHash_iff.2 ⟨hmallocHash, hdata⟩, ok_bind, ne_eq, not_true_eq_false, if_false, hload,
    hnil, hloop, hcopy, error_bind]

/-- Nothing overruns exactly when a key that comes to be compared fits its buffer, if that is allocated at all, and a
quote that comes to be copied fits the buffer for quotes. -/
theorem extractCborEvidence_no_overflow_iff (env : SgxEnv)
    (huntyped : ∀ item, env.cbor.untyped item ≠ .error .outOfBounds) (evidence : Bytes) (key : PemKey) :
    NoOverflow env evidence key.text ↔
      ((∃ hashEntry, ComparesKey env evidence key.text hashEntry) → env.mallocPem = true →
          key.der.length ≤ pubKeyMaxSize) ∧
        ∀ quote, ReachesCopy env evidence key.text quote → quote.length ≤ rawQuoteMaxSize := by
  constructor
  · intro hsafe
    constructor
    · intro ⟨hashEntry, hcompares⟩ hmalloc
      by_contra hlong
      have hoverflow : pem2Der env.mallocPem key.text = .error .outOfBounds :=
        pem2Der_overflow_iff.2 ⟨hmalloc, Nat.lt_of_not_le hlong⟩
      exact hsafe.compareKey hashEntry hcompares (compareCertPubkey_overflow_iff.2 hoverflow)
    · intro quote hreaches
      by_contra hlong
      exact hsafe.extract ⟨ByteBuf.zero 8192, 0, ByteBuf.zero 1000, 0, ByteBuf.zero 32, 0⟩
        (hreaches.overflow (Nat.lt_of_not_le hlong) _)
  · intro ⟨hkey, hquote⟩
    have hpem : (∃ hashEntry, ComparesKey env evidence key.text hashEntry) →
        pem2Der env.mallocPem key.text ≠ .error .outOfBounds := by
      intro hcompares hoverflow
      obtain ⟨hmalloc, hlong⟩ := pem2Der_overflow_iff.1 hoverflow
      have hle := hkey hcompares hmalloc
      omega
    constructor
    · intro out hoverflow
      rcases extractCborEvidence_overflow huntyped hoverflow with ⟨hcompares, hoverflow⟩ | ⟨quote, hreaches, hlong⟩
      · exact hpem hcompares hoverflow
      · have hle := hquote quote hreaches
        omega
    · intro hashEntry hcompares hoverflow
      exact hpem ⟨hashEntry, hcompares⟩ (compareCertPubkey_overflow_iff.1 hoverflow)
    · intro ctype quote claims hparts hoverflow
      obtain ⟨-, hevidence⟩ := evidenceParts_eq_ok_iff.1 hparts
      obtain ⟨ret, hret⟩ := sgxTlsCompareQuoteHash_defined env claims hevidence.quote_le
      rw [hret] at hoverflow
      cases hoverflow

theorem enclave_untyped (item : Item) : enclave.cbor.untyped item ≠ .error .outOfBounds := by
  show Except.error Fault.nullPointer ≠ .error .outOfBounds
  decide

/-- A quote of 1020 bytes for the short key overruns nothing. -/
theorem extractCborEvidence_no_overflow_unrelated :
    NoOverflow enclave (evidenceOfClaims (encode (.map true unrelatedClaims))) shortKey.text := by
  refine (extractCborEvidence_no_overflow_iff enclave enclave_untyped _ shortKey).2 ⟨fun _ _ => by decide, ?_⟩
  intro quote hreaches
  obtain ⟨pairs, ⟨-, -, ctype, claims, hevidence, -⟩, -⟩ := hreaches
  have hpass := evidencePasses_unrelated shortKey.text
  have hload := hpass.parts.load
  rw [hevidence.load] at hload
  cases hload
  exact hpass.quote_le

/-! ### A long quote -/

/-- A quote of the claims that is followed by other bytes, and the claims. -/
def paddedEvidence (claims padding : Bytes) : Bytes :=
  encode (.tag teeQuoteCborTag
    (.array true [.bytes (quoteOfDigest (Sha256.hash claims) ++ padding), .bytes claims]))

theorem reachesCopy_padded (pemPubKey : Bytes) {padding : Bytes} (hpadding : padding.length < 2 ^ 32) :
    ReachesCopy enclave (paddedEvidence (encode (.map true unrelatedClaims)) padding) pemPubKey
      (quoteOfDigest (Sha256.hash (encode (.map true unrelatedClaims))) ++ padding) := by
  have hpass := evidencePasses_unrelated pemPubKey
  have hlength : (quoteOfDigest (Sha256.hash (encode (.map true unrelatedClaims))) ++ padding).length =
      1020 + padding.length := by
    rw [List.length_append, length_quoteOfDigest]
  have hclaims : (encode (.map true unrelatedClaims)).length < 2 ^ 64 := by decide
  have hquote : (quoteOfDigest (Sha256.hash (encode (.map true unrelatedClaims))) ++ padding).length < 2 ^ 64 := by
    omega
  have htwo : [Item.bytes (quoteOfDigest (Sha256.hash (encode (.map true unrelatedClaims))) ++ padding),
      .bytes (encode (.map true unrelatedClaims))].length < 2 ^ 64 := by
    rw [List.length_cons, List.length_singleton]
    decide
  have hserializable : Serializable (.tag teeQuoteCborTag (.array true
      [.bytes (quoteOfDigest (Sha256.hash (encode (.map true unrelatedClaims))) ++ padding),
        .bytes (encode (.map true unrelatedClaims))])) :=
    ⟨by decide, rfl, htwo, hquote, hclaims, trivial⟩
  have hmin : quoteMinSize ≤ (quoteOfDigest (Sha256.hash (encode (.map true unrelatedClaims))) ++ padding).length := by
    unfold quoteMinSize
    omega
  refine ⟨unrelatedClaims, ⟨rfl, rfl, teeQuoteCborTag, _, ?_, ?_, hpass.load, hpass.pairs_ne_nil⟩, hpass.claims⟩
  · exact ⟨load_encode_eq _ hserializable, encode_ne_nil hserializable, .inl rfl, hmin, hpass.parts.claims_ne_nil⟩
  · exact ⟨[0, 0, 0, 0], readRange_append_left (quoteOfDigest_type _) _,
      .inr ⟨by decide, _, rfl, readRange_append_left (quoteOfDigest_reportData _) _⟩⟩

/-- A quote of 9020 bytes overruns the buffer for quotes. -/
theorem extractCborEvidence_overflows_long :
    ¬ NoOverflow enclave (paddedEvidence (encode (.map true unrelatedClaims)) (List.replicate 8000 0))
      shortKey.text := by
  intro hsafe
  have hpadding : (List.replicate 8000 (0 : UInt8)).length = 8000 := List.length_replicate
  have hreaches := reachesCopy_padded shortKey.text (show (List.replicate 8000 (0 : UInt8)).length < 2 ^ 32 by omega)
  have hlong : rawQuoteMaxSize <
      (quoteOfDigest (Sha256.hash (encode (.map true unrelatedClaims))) ++ List.replicate 8000 0).length := by
    rw [List.length_append, length_quoteOfDigest, hpadding]
    decide
  exact hsafe.extract ⟨ByteBuf.zero 8192, 0, ByteBuf.zero 1000, 0, ByteBuf.zero 32, 0⟩ (hreaches.overflow hlong _)

end PortableTlsRa
