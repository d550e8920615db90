import PortableTlsRa.AttesterDaemon
import PortableTlsRa.SgxVerify

/-!
# The evidence of an enclave with a TPM

`make_cbor_tpm2_claims_from_enclave` with `make_cbor_pkhash_entry`, and `make_cbor_sgx_evidence`: the claims hold the
hash of the key, the nonce and the TPM2 quote, and the evidence the SGX quote and the claims.  The encoder reads the key
with OpenSSL and the decoder with `PEM2DER`; what the one makes the other takes apart (`sgxTpm2Evidence_roundtrip`).
-/

namespace PortableTlsRa

open CSem Cbor

/-! ### The code -/

/-- `IANA_HASH_ALG_REGISTRY_SHA256` -/
def ianaHashAlgRegistrySha256 : Nat := 1

/-- libcbor, OpenSSL and the host.  `readPubkey` is `PEM_read_bio_PUBKEY` followed by `i2d_PUBKEY`.  A quote comes with
what the buffer and the size hold after the call, whose status is ignored. -/
structure MakeEnv where
  serialize : Item → Bytes
  sha256 : Bytes → ByteBuf 32
  readPubkey : Bytes → Option Bytes
  atflag : Bool
  myseal : Bytes → Bytes
  ocallMakeTpm2Quote : Bytes → ByteBuf 1024 × Nat
  ocallMakeTpm2QuoteViaDaemon : Bytes → ByteBuf 1024 × Nat

variable (env : MakeEnv)

/-- What `*sha256` is set to, or none when the code is -1. -/
def pem2derSha256 (pem : Bytes) : Option Item := (env.readPubkey pem).map fun der => .bytes (env.sha256 der).1

/-- Returns the serialised entry, or none when the result is false.  The code of `pem2der_sha256` is assigned to an
unsigned variable, so that no code counts as negative, and an unset item is pushed. -/
def makeCborPkhashEntry (pubkey : Bytes) : Checked (Option Bytes) := do
  let chashVal ← deref (pem2derSha256 env pubkey)
  let hash := env.serialize (.array true [.uint .w8 ianaHashAlgRegistrySha256, chashVal])
  return if hash = [] then none else some hash

/-- The buffer and the size after the call for the quote. -/
def receiveTpm2Quote (nonce : Bytes) : Checked (ByteBuf 1024 × Nat) :=
  if env.atflag then do
    let sealedNonce ← readRange nonce 0 32
    return env.ocallMakeTpm2QuoteViaDaemon (env.myseal sealedNonce)
  else .ok (env.ocallMakeTpm2Quote nonce)

/-- Returns the code and the claims, which are set only with the code 0; the codes 0 and 1 of the failures are what the
boolean calls returned. -/
def makeCborTpm2ClaimsFromEnclave (pubkey nonce : Bytes) : Checked (Int × Option Bytes) := do
  match ← makeCborPkhashEntry env pubkey with
  | none => return (0, none)
  | some chashVal =>
    let cClaims := addCborMap (addCborMap [] "pubkey-hash" chashVal) "nonce" nonce
    let (tpm2Qbuf, tpm2Qbsz) ← receiveTpm2Quote env nonce
    if tpm2Qbsz = 0 then return (1, none)
    let tpm2Quote ← readRange tpm2Qbuf.1 0 tpm2Qbsz
    let claims := env.serialize (.map true (addCborMap cClaims "tpm2-quote" tpm2Quote))
    if claims = [] then return (1, none)
    return (0, some claims)

/-- Returns the code and the evidence. -/
def makeCborSgxEvidence (quote claim : Bytes) (ctype : Nat) : Int × Bytes :=
  (0, env.serialize (.tag ctype (.array true [.bytes quote, .bytes claim])))

/-! ### What is made -/

/-- The hash entry of a key. -/
def pkhashEntry (der : Bytes) : Item := .array true [.uint .w8 ianaHashAlgRegistrySha256, .bytes (env.sha256 der).1]

/-- The claims that are made for a key, a nonce and a TPM2 quote. -/
def tpm2Claims (der nonce tpm2Quote : Bytes) : List (Item × Item) :=
  addCborMap (addCborMap (addCborMap [] "pubkey-hash" (env.serialize (pkhashEntry env der))) "nonce" nonce)
    "tpm2-quote" tpm2Quote

/-- The host answers the request for a quote over the nonce with the bytes. -/
def Tpm2QuoteReceived (nonce tpm2Quote : Bytes) : Prop :=
  ∃ buf, receiveTpm2Quote env nonce = .ok (buf, tpm2Quote.length) ∧ buf.1.take tpm2Quote.length = tpm2Quote

/-- The quote is an SGX quote whose report data starts with the hash of the claims. -/
structure SgxQuoteOf (sha256 : Bytes → ByteBuf 32) (quote claims : Bytes) : Prop where
  quoteType : ∃ quoteType, readRange quote 4 4 = .ok quoteType ∧ ofLittleEndian quoteType = 0
  reportData : readRange quote 368 32 = .ok (sha256 claims).1

/-- No allocation of the decoder fails, and its SHA-256 is the function. -/
structure SgxEnv.Works (env : SgxEnv) (sha256 : Bytes → ByteBuf 32) : Prop where
  sha256 : ∀ message, env.sha256 message = some (sha256 message)
  mallocPem : env.mallocPem = true
  mallocHash : env.mallocHash = true
  mallocQuote : env.mallocQuote = true

/-- What the output parameters hold: the quote, the nonce and the TPM2 quote with their sizes. -/
structure ExtractedAs (out : EvidenceOut) (ctype : Nat) (quote : Bytes) (nonce : ByteBuf 32) (tpm2Quote : Bytes) :
    Prop where
  outQuoteSize : out.outQuoteSize = quote.length
  outQuote : out.outQuote.1.take out.outQuoteSize = quote
  outNonce : out.outNonce = nonce
  sersz : out.sersz = tpm2Quote.length
  outSertpm2 : out.outSertpm2.1.take out.sersz = tpm2Quote
  ctype : out.ctype = ctype

variable {env} {denv : SgxEnv} {key : PemKey} {nonce : ByteBuf 32} {tpm2Quote : Bytes}

theorem serializable_pkhashEntry (env : MakeEnv) (der : Bytes) : Serializable (pkhashEntry env der) := by
  have hhash : Serializable (.bytes (env.sha256 der).1) := by
    show (env.sha256 der).1.length < 2 ^ 64
    rw [(env.sha256 der).2]
    decide
  have halg : Serializable (.uint .w8 ianaHashAlgRegistrySha256) :=
    show ianaHashAlgRegistrySha256 < 256 ^ Width.w8.bytes by decide
  have hlength : [Item.uint .w8 ianaHashAlgRegistrySha256, .bytes (env.sha256 der).1].length < 2 ^ 64 := by
    rw [List.length_cons, List.length_singleton]
    decide
  exact ⟨rfl, hlength, halg, hhash, trivial⟩

theorem pkhashEntry_length_le (hcodec : Codec denv.cbor.load env.serialize) (der : Bytes) :
    (env.serialize (pkhashEntry env der)).length ≤ 59 := by
  have hle := hcodec.length_le _ (serializable_pkhashEntry env der)
  have hhash := (encode_string_length_le (env.sha256 der).1).1
  have halg := putHead_length_le 0 .w8 ianaHashAlgRegistrySha256
  have hhead := putHead_length_le 4 (widthOf 2) 2
  rw [(env.sha256 der).2] at hhash
  have hencode : (encode (pkhashEntry env der)).length ≤ 59 := by
    simp only [pkhashEntry, encode, encodeItems, List.length_append, List.length_cons, List.length_nil, Nat.zero_add,
      Nat.reduceAdd] at hhash ⊢
    omega
  omega

theorem namedBytes_tpm2Claims (hcodec : Codec denv.cbor.load env.serialize) (der : Bytes) (nonce : ByteBuf 32)
    (hlen : tpm2Quote.length ≤ maxsizeSerTpm2Quote) :
    ∀ pair ∈ tpm2Claims env der nonce.1 tpm2Quote, NamedBytes 11 1000 pair := by
  have hentry := pkhashEntry_length_le hcodec der
  have hnonce := nonce.2
  unfold maxsizeSerTpm2Quote at hlen
  exact namedBytes_addCborMap
    (namedBytes_addCborMap (namedBytes_addCborMap (List.forall_mem_nil _) (by decide) (by omega)) (by decide)
      (by omega)) (by decide) (by omega)

/-- The claims fit any buffer. -/
theorem serializable_tpm2Claims (hcodec : Codec denv.cbor.load env.serialize) (der : Bytes) (nonce : ByteBuf 32)
    (hlen : tpm2Quote.length ≤ maxsizeSerTpm2Quote) :
    Serializable (.map true (tpm2Claims env der nonce.1 tpm2Quote)) :=
  serializable_namedBytes (by decide) (by decide) (show 3 < 2 ^ 64 by decide)
    (namedBytes_tpm2Claims hcodec der nonce hlen)

theorem tpm2Claims_length_lt (hcodec : Codec denv.cbor.load env.serialize) (der : Bytes) (nonce : ByteBuf 32)
    (hlen : tpm2Quote.length ≤ maxsizeSerTpm2Quote) :
    (env.serialize (.map true (tpm2Claims env der nonce.1 tpm2Quote))).length < 2 ^ 64 := by
  have hle := hcodec.length_le _ (serializable_tpm2Claims hcodec der nonce hlen)
  have hencode := encode_namedBytes_length_le true (namedBytes_tpm2Claims hcodec der nonce hlen)
  have hthree : (tpm2Claims env der nonce.1 tpm2Quote).length = 3 := rfl
  rw [hthree] at hencode
  omega

/-! ### The claims are made -/

theorem makeCborPkhashEntry_eq (hcodec : Codec denv.cbor.load env.serialize)
    (hkey : env.readPubkey key.text = some key.der) :
    makeCborPkhashEntry env key.text = .ok (some (env.serialize (pkhashEntry env key.der))) := by
  have hne := hcodec.ne_nil _ (serializable_pkhashEntry env key.der)
  have hhash : pem2derSha256 env key.text = some (.bytes (env.sha256 key.der).1) := by
    rw [pem2derSha256, hkey, Option.map_some]
  rw [makeCborPkhashEntry, hhash]
  exact congrArg Except.ok (if_neg hne)

theorem makeCborTpm2Claims_eq (hcodec : Codec denv.cbor.load env.serialize)
    (hkey : env.readPubkey key.text = some key.der) (hreceived : Tpm2QuoteReceived env nonce.1 tpm2Quote)
    (hne : tpm2Quote ≠ []) (hlen : tpm2Quote.length ≤ maxsizeSerTpm2Quote) :
    makeCborTpm2ClaimsFromEnclave env key.text nonce.1 =
      .ok (0, some (env.serialize (.map true (tpm2Claims env key.der nonce.1 tpm2Quote)))) := by
  obtain ⟨buf, hreceive, htake⟩ := hreceived
  have hpos : tpm2Quote.length ≠ 0 := fun h => hne (List.eq_nil_of_length_eq_zero h)
  have hclaims := hcodec.ne_nil _ (serializable_tpm2Claims hcodec key.der nonce hlen)
  have hread : readRange buf.1 0 tpm2Quote.length = .ok tpm2Quote := by
    have hle : 0 + tpm2Quote.length ≤ buf.1.length := by
      have hbuf := buf.2
      unfold maxsizeSerTpm2Quote at hlen
      omega
    rw [readRange, if_pos hle, List.drop_zero, htake]
  unfold makeCborTpm2ClaimsFromEnclave
  rw [makeCborPkhashEntry_eq hcodec hkey, ok_bind]
  dsimp only
  rw [hreceive, ok_bind]
  dsimp only
  rw [if_neg hpos, hread, ok_bind]
  exact if_neg hclaims

/-! ### The evidence is taken apart -/

theorem claimTurn_pubkeyHash (out : EvidenceOut) {value : Item} (h : PubkeyHashOf denv key.text value) :
    claimTurn denv key.text out (.text (lit "pubkey-hash"), value) = .ok (.next out) := by
  have hkey : claimKey (lit "pubkey-hash") = .pubkeyHash := by decide
  have hname : lit "pubkey-hash" ≠ [] := by decide
  obtain ⟨entry, hashEntry, der, rfl, hentry, hload, hder, hof⟩ := h
  have hcompare := compareCertPubkeyAgainstCborClaimHash_iff.2 ⟨der, hder, hof⟩
  simp only [claimTurn, if_neg hname, hkey, if_neg hentry, hload, hcompare, ok_bind, if_true]
  rfl

theorem claimTurn_nonce (denv : SgxEnv) (pemPubKey : Bytes) (out : EvidenceOut) (nonce : ByteBuf 32) :
    claimTurn denv pemPubKey out (.text (lit "nonce"), .bytes nonce.1) =
      .ok (.next { out with outNonce := nonce }) := by
  have hkey : claimKey (lit "nonce") = .nonce := by decide
  have hname : lit "nonce" ≠ [] := by decide
  simp only [claimTurn, if_neg hname, hkey, Libcbor.bytestring, ok_bind, if_neg (not_not.2 nonce.2),
    memcpy_of_length nonce.2]
  rfl

theorem claimTurn_tpm2Quote (denv : SgxEnv) (pemPubKey : Bytes) (out : EvidenceOut)
    (hlen : tpm2Quote.length ≤ maxsizeSerTpm2Quote) :
    ∃ outSertpm2 : ByteBuf 1000, outSertpm2.1.take tpm2Quote.length = tpm2Quote ∧
      claimTurn denv pemPubKey out (.text (lit "tpm2-quote"), .bytes tpm2Quote) =
        .ok (.next { out with sersz := tpm2Quote.length, outSertpm2 := outSertpm2 }) := by
  have hkey : claimKey (lit "tpm2-quote") = .tpm2Quote := by decide
  have hname : lit "tpm2-quote" ≠ [] := by decide
  obtain ⟨outSertpm2, hcopy, htake⟩ := memcpy_of_le out.outSertpm2 hlen
  refine ⟨outSertpm2, htake, ?_⟩
  simp only [claimTurn, if_neg hname, hkey, Libcbor.bytestring, ok_bind, if_pos hlen, hcopy]
  rfl

/-- The decoder finds the hash of the key that the encoder put into the claims. -/
theorem pubkeyHashOf_pkhashEntry (hcodec : Codec denv.cbor.load env.serialize) (hworks : denv.Works env.sha256)
    (hne : key.der ≠ []) (hder : key.der.length ≤ pubKeyMaxSize) :
    PubkeyHashOf denv key.text (.bytes (env.serialize (pkhashEntry env key.der))) := by
  have hserializable := serializable_pkhashEntry env key.der
  have hpem : pem2Der denv.mallocPem key.text = .ok (0, key.der) :=
    pem2Der_pem_iff.2 ⟨hworks.mallocPem, hne, hder, rfl⟩
  have hof : HashEntryOf denv key.der (pkhashEntry env key.der) :=
    ⟨.w8, ianaHashAlgRegistrySha256, 32, denv.sha256, env.sha256 key.der, rfl, rfl, hworks.sha256 key.der⟩
  exact ⟨_, _, key.der, rfl, hcodec.ne_nil _ hserializable, hcodec.load _ hserializable, hpem, hof⟩

/-- The loop over the claims leaves the nonce and the TPM2 quote in the buffers. -/
theorem claimsLoop_tpm2Claims (hcodec : Codec denv.cbor.load env.serialize) (hworks : denv.Works env.sha256)
    (hne : key.der ≠ []) (hder : key.der.length ≤ pubKeyMaxSize) (hlen : tpm2Quote.length ≤ maxsizeSerTpm2Quote)
    (nonce : ByteBuf 32) (out : EvidenceOut) :
    ∃ outSertpm2 : ByteBuf 1000, outSertpm2.1.take tpm2Quote.length = tpm2Quote ∧
      forEach (claimTurn denv key.text) out (tpm2Claims env key.der nonce.1 tpm2Quote) =
        .ok (.next { out with outNonce := nonce, sersz := tpm2Quote.length, outSertpm2 := outSertpm2 }) := by
  have hhash := claimTurn_pubkeyHash out (pubkeyHashOf_pkhashEntry hcodec hworks hne hder)
  have hnonce := claimTurn_nonce denv key.text out nonce
  obtain ⟨outSertpm2, htake, hquote⟩ := claimTurn_tpm2Quote denv key.text { out with outNonce := nonce } hlen
  refine ⟨outSertpm2, htake, ?_⟩
  simp only [tpm2Claims, addCborMap, List.nil_append, List.cons_append]
  rw [forEach_cons_of_next hhash, forEach_cons_of_next hnonce, forEach_cons_of_next hquote, forEach_nil]

theorem SgxQuoteOf.reportDataIs {quote claims : Bytes} (hworks : denv.Works env.sha256)
    (h : SgxQuoteOf env.sha256 quote claims) : ReportDataIs denv quote claims := by
  obtain ⟨⟨quoteType, hread, htype⟩, hdata⟩ := h
  exact ⟨quoteType, hread, .inr ⟨htype, env.sha256 claims, hworks.sha256 claims, hdata⟩⟩

/-- The evidence passes every check of the decoder. -/
theorem evidencePasses_tpm2Claims (hcodec : Codec denv.cbor.load env.serialize) (hworks : denv.Works env.sha256)
    (hne : key.der ≠ []) (hder : key.der.length ≤ pubKeyMaxSize) (hlen : tpm2Quote.length ≤ maxsizeSerTpm2Quote)
    {quote : Bytes} (hmin : quoteMinSize ≤ quote.length) (hmax : quote.length ≤ rawQuoteMaxSize)
    (hquote : SgxQuoteOf env.sha256 quote (env.serialize (.map true (tpm2Claims env key.der nonce.1 tpm2Quote)))) :
    EvidencePasses denv
      (makeCborSgxEvidence env quote (env.serialize (.map true (tpm2Claims env key.der nonce.1 tpm2Quote)))
        teeTpm2QuoteCborTag).2 key.text teeTpm2QuoteCborTag quote
      (env.serialize (.map true (tpm2Claims env key.der nonce.1 tpm2Quote)))
      (tpm2Claims env key.der nonce.1 tpm2Quote) := by
  have hclaims := serializable_tpm2Claims hcodec key.der nonce hlen
  have hsize := tpm2Claims_length_lt hcodec key.der nonce hlen
  have hquoteSize : quote.length < 2 ^ 64 := by
    unfold rawQuoteMaxSize at hmax
    omega
  have hpair : [Item.bytes quote,
      .bytes (env.serialize (.map true (tpm2Claims env key.der nonce.1 tpm2Quote)))].length < 2 ^ 64 := by
    rw [List.length_cons, List.length_singleton]
    decide
  have hevidence : Serializable (.tag teeTpm2QuoteCborTag (.array true [.bytes quote,
      .bytes (env.serialize (.map true (tpm2Claims env key.der nonce.1 tpm2Quote)))])) :=
    ⟨by decide, rfl, hpair, hquoteSize, hsize, trivial⟩
  obtain ⟨outSertpm2, -, hloop⟩ := claimsLoop_tpm2Claims hcodec hworks hne hder hlen nonce
    ⟨ByteBuf.zero 8192, 0, ByteBuf.zero 1000, 0, ByteBuf.zero 32, 0⟩
  constructor
  · exact ⟨hcodec.load _ hevidence, hcodec.ne_nil _ hevidence, .inr rfl, hmin, hcodec.ne_nil _ hclaims⟩
  · exact hworks.mallocQuote
  · exact hworks.mallocHash
  · exact hquote.reportDataIs hworks
  · exact hcodec.load _ hclaims
  · exact List.cons_ne_nil _ _
  · exact claimsLoop_next_iff.1 ⟨_, hloop⟩
  · exact hmax

/-- The evidence that is made over the claims that are made is extracted, with the quote, the nonce and the TPM2 quote
that were put in. -/
theorem sgxTpm2Evidence_roundtrip (env : MakeEnv) (denv : SgxEnv) (hcodec : Codec denv.cbor.load env.serialize)
    (hworks : denv.Works env.sha256) (hpubkey : ∀ pem der, env.readPubkey pem = some der → der ≠ []) (key : PemKey)
    (hkey : env.readPubkey key.text = some key.der) (hder : key.der.length ≤ pubKeyMaxSize) (nonce : ByteBuf 32)
    (tpm2Quote : Bytes) (hpos : 1 ≤ tpm2Quote.length) (hlen : tpm2Quote.length ≤ maxsizeSerTpm2Quote)
    (hreceived : Tpm2QuoteReceived env nonce.1 tpm2Quote) :
    ∃ claims, makeCborTpm2ClaimsFromEnclave env key.text nonce.1 = .ok (0, some claims) ∧
      ∀ quote : Bytes, quoteMinSize ≤ quote.length → quote.length ≤ rawQuoteMaxSize →
        SgxQuoteOf env.sha256 quote claims →
        ∃ evidence, makeCborSgxEvidence env quote claims teeTpm2QuoteCborTag = (0, evidence) ∧
          ∀ out, ∃ out', extractCborEvidenceAndCompareHash denv evidence key.text out = .ok (.ok out') ∧
            ExtractedAs out' teeTpm2QuoteCborTag quote nonce tpm2Quote := by
  have hne := hpubkey _ _ hkey
  have hquoteNe : tpm2Quote ≠ [] := List.ne_nil_of_length_pos hpos
  refine ⟨_, makeCborTpm2Claims_eq hcodec hkey hreceived hquoteNe hlen, ?_⟩
  intro quote hmin hmax hquote
  refine ⟨_, rfl, ?_⟩
  intro out
  have hpasses := evidencePasses_tpm2Claims hcodec hworks hne hder hlen hmin hmax hquote
  obtain ⟨outSertpm2, htake, hloop⟩ := claimsLoop_tpm2Claims hcodec hworks hne hder hlen nonce
    { out with sersz := 0, ctype := teeTpm2QuoteCborTag }
  obtain ⟨outQuote, hcopy, houtQuote⟩ := memcpy_of_le out.outQuote hmax
  exact ⟨_, extractCborEvidence_eq_ok_iff.2 ⟨_, _, _, _, hpasses, _, outQuote, hloop, hcopy, rfl⟩,
    rfl, houtQuote, rfl, rfl, htake, rfl⟩

/-! ### The evidence of a short key -/

/-- The encoder of an enclave that can read the one key and is given a TPM2 quote of one byte. -/
def makingEnclave : MakeEnv where
  serialize := encode
  sha256 := Sha256.hash
  readPubkey := fun pem => if pem = shortKey.text then some shortKey.der else none
  atflag := false
  myseal := id
  ocallMakeTpm2Quote := fun _ => (⟨7 :: List.replicate 1023 0, by rw [List.length_cons, List.length_replicate]⟩, 1)
  ocallMakeTpm2QuoteViaDaemon := fun _ => (ByteBuf.zero 1024, 0)

theorem enclave_works : enclave.Works makingEnclave.sha256 := ⟨fun _ => rfl, rfl, rfl, rfl⟩

theorem sgxQuoteOf_quoteOfDigest (claims : Bytes) :
    SgxQuoteOf makingEnclave.sha256 (quoteOfDigest (Sha256.hash claims)) claims :=
  ⟨⟨_, quoteOfDigest_type _, by decide⟩, quoteOfDigest_reportData _⟩

/-! ### The evidence of a key of two lines -/

/-- The key of the curve P-256 with the base point, as it is in a certificate. -/
def basePointDer : Bytes :=
  [0x30, 0x59, 0x30, 0x13, 0x06, 0x07, 0x2a, 0x86, 0x48, 0xce, 0x3d, 0x02, 0x01, 0x06, 0x08, 0x2a, 0x86, 0x48, 0xce,
    0x3d, 0x03, 0x01, 0x07, 0x03, 0x42, 0x00, 0x04,
    0x6b, 0x17, 0xd1, 0xf2, 0xe1, 0x2c, 0x42, 0x47, 0xf8, 0xbc, 0xe6, 0xe5, 0x63, 0xa4, 0x40, 0xf2,
    0x77, 0x03, 0x7d, 0x81, 0x2d, 0xeb, 0x33, 0xa0, 0xf4, 0xa1, 0x39, 0x45, 0xd8, 0x98, 0xc2, 0x96,
    0x4f, 0xe3, 0x42, 0xe2, 0xfe, 0x1a, 0x7f, 0x9b, 0x8e, 0xe7, 0xeb, 0x4a, 0x7c, 0x0f, 0x9e, 0x16,
    0x2b, 0xce, 0x33, 0x57, 0x6b, 0x31, 0x5e, 0xce, 0xcb, 0xb6, 0x40, 0x68, 0x37, 0xbf, 0x51, 0xf5]

def basePointKey : PemKey :=
  ⟨basePointDer, [lit "MFkwEwYHKoZIzj0CAQYIKoZIzj0DAQcDQgAEaxfR8uEsQkf4vOblY6RA8ncDfYEt",
    lit "6zOg9KE5RdiYwpZP40Li/hp/m47n60p8D54WK84zV2sxXs7LtkBoN79R9Q=="], by decide +kernel, by decide +kernel⟩

def countingNonce : ByteBuf 32 := ⟨(List.range 32).map UInt8.ofNat, rfl⟩

/-- What the host answers: the bundle of a quote, its signature and the measurement. -/
def basePointBundle : Bytes :=
  encode (.map true [(.text (lit "quote"), .bytes (List.replicate 145 0xff)),
    (.text (lit "sign"), .bytes (List.replicate 262 0x5a)), (.text (lit "app-hash"), .bytes (List.replicate 32 0x11))])

theorem length_basePointBundle : basePointBundle.length = 467 := by decide +kernel

/-- The encoder of an enclave that can read the key and is given the bundle. -/
def basePointEnclave : MakeEnv :=
  { makingEnclave with
    readPubkey := fun pem => if pem = basePointKey.text then some basePointKey.der else none
    ocallMakeTpm2Quote := fun _ => (⟨basePointBundle ++ List.replicate 557 0, by
      rw [List.length_append, length_basePointBundle, List.length_replicate]⟩, basePointBundle.length) }

theorem basePointEnclave_readPubkey {pem der : Bytes} (h : basePointEnclave.readPubkey pem = some der) :
    der ≠ [] := by
  have hread : (if pem = basePointKey.text then some basePointKey.der else none) = some der := h
  split_ifs at hread
  cases hread
  exact List.cons_ne_nil _ _

theorem basePointEnclave_reads : basePointEnclave.readPubkey basePointKey.text = some basePointKey.der := by
  simp only [basePointEnclave, if_true]

theorem basePointEnclave_tpm2Quote (nonce : Bytes) : Tpm2QuoteReceived basePointEnclave nonce basePointBundle :=
  ⟨_, rfl, List.take_left⟩

/-- The evidence for the key is extracted. -/
theorem sgxTpm2Evidence_basePoint :
    ∃ claims, makeCborTpm2ClaimsFromEnclave basePointEnclave basePointKey.text countingNonce.1 =
        .ok (0, some claims) ∧
      ∃ evidence, makeCborSgxEvidence basePointEnclave (quoteOfDigest (Sha256.hash claims)) claims
          teeTpm2QuoteCborTag = (0, evidence) ∧
        ∀ out, ∃ out', extractCborEvidenceAndCompareHash enclave evidence basePointKey.text out = .ok (.ok out') ∧
          ExtractedAs out' teeTpm2QuoteCborTag (quoteOfDigest (Sha256.hash claims)) countingNonce basePointBundle := by
  have hlen := length_basePointBundle
  have hpos : 1 ≤ basePointBundle.length := by omega
  have hle : basePointBundle.length ≤ maxsizeSerTpm2Quote := by
    rw [hlen]
    decide
  obtain ⟨claims, hclaims, hround⟩ := sgxTpm2Evidence_roundtrip basePointEnclave enclave codec_encode enclave_works
    (fun _ _ => basePointEnclave_readPubkey) basePointKey basePointEnclave_reads (by decide) countingNonce
    basePointBundle hpos hle (basePointEnclave_tpm2Quote _)
  have hsize := length_quoteOfDigest (Sha256.hash claims)
  have hmin : quoteMinSize ≤ (quoteOfDigest (Sha256.hash claims)).length := by
    rw [hsize]
    decide
  have hmax : (quoteOfDigest (Sha256.hash claims)).length ≤ rawQuoteMaxSize := by
    rw [hsize]
    decide
  exact ⟨claims, hclaims, hround _ hmin hmax (sgxQuoteOf_quoteOfDigest claims)⟩

end PortableTlsRa
