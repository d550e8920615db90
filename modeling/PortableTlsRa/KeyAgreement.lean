import PortableTlsRa.Tpm2Claims

/-!
# The two conversions of a key

The issuer of a certificate hashes its key in `pem2der_sha256`, which has OpenSSL convert the PEM form, and the verifier
in `compare_cert_pubkey_against_cbor_claim_hash`, which converts it with `PEM2DER`.  On the PEM form that OpenSSL writes
for a key that fits the buffer the two hash the same bytes (`pemConversions_agree`).
-/

namespace PortableTlsRa.Libtpm2

open CSem Base64 Cbor

/-- What `PEM_write_bio_PUBKEY` writes for a key with these bytes. -/
def pubkeyText (der : Bytes) : Bytes := standardPem publicKeyLabel der

/-! ### PEM2DER on the standard form -/

theorem length_beginLine : (beginLine publicKeyLabel).length = 26 := by decide

theorem length_pubkeyText_lt {der : Bytes} (h : der.length ≤ pubKeyMaxSize) : (pubkeyText der).length < 2 ^ 31 := by
  have hbody := length_body (cutLines 64 (encode der))
  have hlines := length_cutLines_le 64 (encode der)
  have hend := length_endLine
  rw [flatten_cutLines, length_encode] at hbody
  rw [length_encode] at hlines
  simp only [pubkeyText, standardPem, pem, List.length_append, List.length_cons, List.length_nil, hbody,
    length_beginLine, hend]
  unfold pubKeyMaxSize at h
  omega

/-- The standard form of bytes that fit the buffer is that of a key. -/
def standardKey (der : Bytes) (h : der.length ≤ pubKeyMaxSize) : PemKey where
  der := der
  lines := cutLines 64 (encode der)
  lines_eq := flatten_cutLines 64 (encode der)
  size_lt := length_pubkeyText_lt h

/-- `PEM2DER` fails on it for want of memory alone. -/
theorem pem2Der_pubkeyText_iff {der pkDer : Bytes} {mallocPem : Bool} (hne : der ≠ [])
    (hlen : der.length ≤ pubKeyMaxSize) :
    pem2Der mallocPem (pubkeyText der) = .ok (0, pkDer) ↔ mallocPem = true ∧ pkDer = der := by
  have hkey : pem2Der mallocPem (standardKey der hlen).text = .ok (0, pkDer) ↔
      mallocPem = true ∧ der ≠ [] ∧ der.length ≤ pubKeyMaxSize ∧ pkDer = der := pem2Der_pem_iff
  constructor
  · intro h
    obtain ⟨hmalloc, -, -, heq⟩ := hkey.1 h
    exact ⟨hmalloc, heq⟩
  · intro ⟨hmalloc, heq⟩
    exact hkey.2 ⟨hmalloc, hne, hlen, heq⟩

/-! ### The two hashes -/

section

variable {PKey : Type}

/-- What is assumed of OpenSSL: what is read from the text of a key is that key, if it is read, `SHA256` succeeds, and
a digest under SHA-256 that the verifier gets is what `SHA256` gives. -/
structure OneOpenssl (sha256 : Bytes → ByteBuf 32) (env : ClaimsEnv PKey) (venv : SgxEnv) : Prop where
  read : ∀ pkey pkey' der, env.i2dPubkey pkey = .made der → env.readPubkey (pubkeyText der) = some pkey' →
    env.i2dPubkey pkey' = .made der
  digests : env.digests = true
  sha256 : ∀ data digest, venv.sha256 data = some digest → digest = sha256 data

/-- For a key with these bytes, the issuer's hash is the digest of what `PEM2DER` gives, and the verifier accepts that
hash and no other if it gets a digest. -/
structure HashesAgree (sha256 : Bytes → ByteBuf 32) (env : ClaimsEnv PKey) (venv : SgxEnv) (der : Bytes) : Prop where
  hash : ∀ pkey item, env.i2dPubkey pkey = .made der → pem2derSha256 sha256 env (pubkeyText der) = .ok (some item) →
    ∀ pkDer digest, pem2Der venv.mallocPem (pubkeyText der) = .ok (0, pkDer) → venv.sha256 pkDer = some digest →
      item = .bytes digest.1
  accepted : ∀ pkey item, env.i2dPubkey pkey = .made der →
    pem2derSha256 sha256 env (pubkeyText der) = .ok (some item) → ∀ width hashValue,
      compareCertPubkeyAgainstCborClaimHash venv (pubkeyText der)
          (.array true [.uint width ianaHashAlgRegistrySha256, hashValue]) = .ok .success ↔
        venv.mallocPem = true ∧ (venv.sha256 der).isSome ∧ hashValue = item

variable {sha256 : Bytes → ByteBuf 32} {env : ClaimsEnv PKey} {venv : SgxEnv} {der : Bytes} {item : Item}

/-- The issuer hashes the bytes of the key. -/
theorem OneOpenssl.item_eq (h : OneOpenssl sha256 env venv) {pkey : PKey} (hmade : env.i2dPubkey pkey = .made der)
    (hitem : pem2derSha256 sha256 env (pubkeyText der) = .ok (some item)) : item = .bytes (sha256 der).1 := by
  obtain ⟨-, -, der', ⟨pkey', hread, hmade', -⟩, rfl⟩ := pem2derSha256_eq_some_iff.1 hitem
  have hsame : env.i2dPubkey pkey' = .made der := h.read pkey pkey' der hmade hread
  cases hmade'.symm.trans hsame
  rw [ClaimsEnv.keyHash, h.digests, if_pos rfl]

/-- The entry of the verifier for SHA-256 holds a digest of the key. -/
theorem hashEntryOf_sha256_iff {width : Width} {hashValue : Item} :
    HashEntryOf venv der (.array true [.uint width ianaHashAlgRegistrySha256, hashValue]) ↔
      ∃ digest, venv.sha256 der = some digest ∧ hashValue = .bytes digest.1 := by
  have hnamed : venv.namedHash ianaHashAlgRegistrySha256 = some ⟨32, venv.sha256⟩ := rfl
  constructor
  · rintro ⟨width', hashAlgId, n, sha, digest, hentry, hsha, hdigest⟩
    simp only [Item.array.injEq, List.cons.injEq, Item.uint.injEq, and_true, true_and] at hentry
    obtain ⟨⟨rfl, rfl⟩, rfl⟩ := hentry
    cases hnamed.symm.trans hsha
    exact ⟨digest, hdigest, rfl⟩
  · rintro ⟨digest, hdigest, rfl⟩
    exact ⟨width, _, 32, venv.sha256, digest, rfl, hnamed, hdigest⟩

theorem OneOpenssl.hashesAgree (h : OneOpenssl sha256 env venv) (hne : der ≠ [])
    (hlen : der.length ≤ pubKeyMaxSize) : HashesAgree sha256 env venv der := by
  constructor
  · intro pkey item hmade hitem pkDer digest hpkDer hdigest
    obtain ⟨-, rfl⟩ := (pem2Der_pubkeyText_iff hne hlen).1 hpkDer
    rw [h.item_eq hmade hitem, h.sha256 _ _ hdigest]
  · intro pkey item hmade hitem width hashValue
    rw [compareCertPubkeyAgainstCborClaimHash_iff, h.item_eq hmade hitem]
    constructor
    · rintro ⟨pkDer, hpkDer, hentry⟩
      obtain ⟨hmalloc, rfl⟩ := (pem2Der_pubkeyText_iff hne hlen).1 hpkDer
      obtain ⟨digest, hdigest, rfl⟩ := hashEntryOf_sha256_iff.1 hentry
      exact ⟨hmalloc, by rw [hdigest]; rfl, by rw [h.sha256 _ _ hdigest]⟩
    · rintro ⟨hmalloc, hsome, rfl⟩
      obtain ⟨digest, hdigest⟩ := Option.isSome_iff_exists.1 hsome
      refine ⟨der, (pem2Der_pubkeyText_iff hne hlen).2 ⟨hmalloc, rfl⟩, hashEntryOf_sha256_iff.2 ⟨digest, hdigest, ?_⟩⟩
      rw [h.sha256 _ _ hdigest]

end

/-- `PEM2DER` inverts the standard PEM encoding of 1 to 626 bytes, and so the verifier hashes a key as the issuer. -/
theorem pemConversions_agree (der : Bytes) (hpos : 1 ≤ der.length) (hlen : der.length ≤ 626) :
    pem2Der true (pubkeyText der) = .ok (0, der) ∧
      ∀ (PKey : Type) (sha256 : Bytes → ByteBuf 32) (env : ClaimsEnv PKey) (venv : SgxEnv),
        OneOpenssl sha256 env venv → HashesAgree sha256 env venv der := by
  have hne : der ≠ [] := List.ne_nil_of_length_pos hpos
  refine ⟨(pem2Der_pubkeyText_iff hne hlen).2 ⟨rfl, rfl⟩, ?_⟩
  intro PKey sha256 env venv hopenssl
  exact hopenssl.hashesAgree hne hlen

/-- A host whose OpenSSL reads one key, of two lines. -/
def oneKeyHost : ClaimsEnv Unit :=
  { refusedNonce with
    readPubkey := fun pem => if pem = pubkeyText basePointDer then some () else none
    i2dPubkey := fun _ => .made basePointDer }

/-- The verifier accepts what that host hashes. -/
theorem oneKeyHost_agrees :
    pem2Der true (pubkeyText basePointDer) = .ok (0, basePointDer) ∧
      ∃ item, pem2derSha256 Sha256.hash oneKeyHost (pubkeyText basePointDer) = .ok (some item) ∧
        compareCertPubkeyAgainstCborClaimHash enclave (pubkeyText basePointDer)
          (.array true [.uint .w8 ianaHashAlgRegistrySha256, item]) = .ok .success := by
  have hopenssl : OneOpenssl Sha256.hash oneKeyHost enclave := by
    refine ⟨fun _ _ _ hmade _ => hmade, rfl, ?_⟩
    intro data digest hdigest
    exact (Option.some.inj hdigest).symm
  have hread : oneKeyHost.readPubkey (pubkeyText basePointDer) = some () := by
    simp only [oneKeyHost, if_true]
  have hitem : pem2derSha256 Sha256.hash oneKeyHost (pubkeyText basePointDer) =
      .ok (some (.bytes (Sha256.hash basePointDer).1)) :=
    pem2derSha256_eq_some_iff.2 ⟨rfl, rfl, basePointDer, ⟨(), hread, rfl, List.cons_ne_nil _ _⟩, rfl⟩
  obtain ⟨hder, hhashes⟩ := pemConversions_agree basePointDer (by decide) (by decide)
  have hagree := hhashes Unit Sha256.hash oneKeyHost enclave hopenssl
  exact ⟨hder, _, hitem, (hagree.accepted () _ rfl hitem .w8 _).2 ⟨rfl, rfl, rfl⟩⟩

end PortableTlsRa.Libtpm2
