import PortableTlsRa.VerifyTpm2

/-!
# The attester daemon

The reply of the daemon to a PICA request: `make_tpm2_pica`, `make_tpm2_quote_with_pid` and `reply_pica`.  The daemon
puts the hash of the process chain into "app-hash" and the extended hash into the extra data of the quote, while the
client compares both with the extended hash; and the client accepts whatever the comparison gives.  With an honest TPM
that signs with an RSA key every reply is accepted for every nonce (`picaVerifyTpm2all_daemonReply`), and with one that
signs with an ECC key the client frees the signature twice (`picaVerifyTpm2all_daemonReply_ecdsa`), so the two programs
agree on the format only where the hashes happen to coincide and the key is no ECC key (`daemon_client_agree_iff`).
-/

namespace PortableTlsRa

open CSem Cbor

/-- `struct tpm2_quote`: the marshalled quote and the marshalled signature. -/
structure Tpm2Quote where
  quote : { q : Bytes // q.length ≤ 256 }
  sign : { s : Bytes // s.length ≤ 518 }

/-- libcbor, TSS2, the TPM and OpenSSL on the side of the daemon, and what its variables hold at first.
`makeTpm2Quote` gives the code and the quote over the given extra data. -/
structure DaemonEnv where
  serialize : Item → Bytes
  tss2 : Tss2
  makeTpm2Quote : ByteBuf 32 → Int × Tpm2Quote
  digestCalls : DigestCalls
  newhash : ByteBuf 32
  tpmAtst : TpmsAttest
  buf : ByteBuf 2048

def addCborMap (map : List (Item × Item)) (key : String) (val : Bytes) : List (Item × Item) :=
  map ++ [(.text (lit key), .bytes val)]

/-- The map that `make_tpm2_quote_with_pid` serialises. -/
def quoteBundle (tQuote : Tpm2Quote) (apphash : ByteBuf 32) : List (Item × Item) :=
  addCborMap (addCborMap (addCborMap [] "quote" tQuote.quote.1) "sign" tQuote.sign.1) "app-hash" apphash.1

/-- The map that `reply_pica` serialises. -/
def replyMap (tpm2Quote pica : Bytes) : List (Item × Item) :=
  addCborMap (addCborMap [] "tpm2_quote" tpm2Quote) "pica" pica

variable (sha256 : Bytes → ByteBuf 32) (daemon : DaemonEnv)

/-- Returns the code, the buffer and the size that is reported for it. -/
def makeTpm2QuoteWithPid (nonce apphash : ByteBuf 32) : Checked (Int × ByteBuf 2048 × Nat) := do
  -- the code of the hash is overwritten by that of the quote
  let (_, newhash) := hashExtendSha256 sha256 daemon.digestCalls apphash nonce daemon.newhash
  let (rc, tQuote) := daemon.makeTpm2Quote newhash
  if rc < 0 then return (rc, daemon.buf, 0)
  let (_, tpmAtst) := daemon.tss2.unmarshalAttest tQuote.quote.1 daemon.tpmAtst
  if tpmAtst.type ≠ tpm2StAttestQuote then return (rc, daemon.buf, 0)
  let tpm2Qbuf := daemon.serialize (.map true (quoteBundle tQuote apphash))
  if tpm2Qbuf.length = 0 ∨ tpm2Qbuf.length > 2048 then return (0, daemon.buf, tpm2Qbuf.length)
  let tpm2Serial ← memcpy daemon.buf tpm2Qbuf
  return (0, tpm2Serial, tpm2Qbuf.length)

/-- The buffer, its size, and the process chain, which `mycbor_pack_procchain` gives. -/
def makeTpm2Pica (nonce : ByteBuf 32) (procchain : Bytes) : Checked (ByteBuf 2048 × Nat × Bytes) := do
  let hash := sha256 procchain
  let (_, tpm2Ser, qsz) ← makeTpm2QuoteWithPid sha256 daemon nonce hash
  return (tpm2Ser, qsz, procchain)

/-- The payload that is sent, or none when the reply is an error. -/
def replyPica (tpm2Quote : ByteBuf 2048) (tSize : Nat) (pica : Bytes) : Checked (Option Bytes) := do
  if tSize > 2048 then .error .outOfBounds
  let sendbuf := daemon.serialize (.map true (replyMap (tpm2Quote.1.take tSize) pica))
  if sendbuf.length = 0 then return none
  return some sendbuf

/-- The reply to `TPMD_REQ_PICA`. -/
def daemonReply (nonce : ByteBuf 32) (procchain : Bytes) : Checked (Option Bytes) := do
  let (buf, size, pica) ← makeTpm2Pica sha256 daemon nonce procchain
  replyPica daemon buf size pica

/-! ### An honest attester and its client -/

variable {PKey : Type} (client : ClientEnv PKey) (key : PKey) (regAtst : TpmsAttest)

/-- The TPM quotes the extra data it is given over the registered registers, its signature is genuine under the key of
the client, decoding undoes serialising, and no call fails. -/
structure HonestAttester : Prop where
  load : ∀ i, Serializable i → client.cbor.load (daemon.serialize i) = some i
  serialize_ne_nil : ∀ i, Serializable i → daemon.serialize i ≠ []
  bundle_le : ∀ tQuote apphash, (daemon.serialize (.map true (quoteBundle tQuote apphash))).length ≤ 2048
  tss2_eq : daemon.tss2 = client.tss2
  makeTpm2Quote : ∀ d, 0 ≤ (daemon.makeTpm2Quote d).1
  quote : ∀ d old, ∃ atst, IsQuote client.tss2 (daemon.makeTpm2Quote d).2.quote.1 old atst ∧
    atst.extraData.digest = d ∧ SamePcrSelection atst regAtst
  sign : ∀ d old, ∃ sig, client.tss2.unmarshalSignature (daemon.makeTpm2Quote d).2.sign.1 old = (0, sig) ∧
    SignatureGenuine (client.verifyCalls (some key) (daemon.makeTpm2Quote d).2.quote.1 sig) sig
  daemonDigest : daemon.digestCalls.Succeed
  clientDigest : client.digestCalls.Succeed
  akKey : AkKeyRead client key
  regQuote : RegQuoteRead client regAtst

/-- The TPM of an honest attester signs with an RSA key. -/
structure RsaAttester : Prop extends HonestAttester daemon client key regAtst where
  rsa : ∀ d old, (client.tss2.unmarshalSignature (daemon.makeTpm2Quote d).2.sign.1 old).2.sigAlg ≠ Tpm2Alg.ecdsa

/-- The signature that the client unmarshals from a quote. -/
def ClientEnv.signatureOf (tQuote : Tpm2Quote) : TpmtSignature :=
  (client.tss2.unmarshalSignature tQuote.sign.1 client.evidence.tpmSig).2

variable {sha256} {daemon} {client} {key} {regAtst} {nonce : ByteBuf 32} {pica : Bytes}

/-- The bundle of an honest daemon: the quote over the extended hash, with the hash of the process chain. -/
def honestBundle (sha256 : Bytes → ByteBuf 32) (daemon : DaemonEnv) (nonce : ByteBuf 32) (pica : Bytes) :
    List (Item × Item) :=
  quoteBundle (daemon.makeTpm2Quote (extendedHash sha256 pica nonce)).2 (sha256 pica)

theorem namedBytes_addCborMap {map : List (Item × Item)} {key : String} {val : Bytes} {n k : Nat}
    (hmap : ∀ pair ∈ map, NamedBytes n k pair) (hkey : (lit key).length ≤ n) (hval : val.length ≤ k) :
    ∀ pair ∈ addCborMap map key val, NamedBytes n k pair := by
  rw [addCborMap, List.forall_mem_append, List.forall_mem_singleton]
  exact ⟨hmap, lit key, val, rfl, hkey, hval⟩

/-- The entries of a bundle have short names and at most the size of a signature. -/
theorem namedBytes_bundle {quote sign apphash : Bytes} (hquote : quote.length ≤ 256) (hsign : sign.length ≤ 518)
    (happ : apphash.length ≤ 32) :
    ∀ pair ∈ addCborMap (addCborMap (addCborMap [] "quote" quote) "sign" sign) "app-hash" apphash,
      NamedBytes 8 518 pair :=
  namedBytes_addCborMap
    (namedBytes_addCborMap (namedBytes_addCborMap (List.forall_mem_nil _) (by decide) (by omega)) (by decide) hsign)
    (by decide) (by omega)

theorem serializable_quoteBundle (tQuote : Tpm2Quote) (apphash : ByteBuf 32) :
    Serializable (.map true (quoteBundle tQuote apphash)) :=
  serializable_namedBytes (by decide) (by decide) (show 3 < 2 ^ 64 by decide)
    (namedBytes_bundle tQuote.quote.2 tQuote.sign.2 (Nat.le_of_eq apphash.2))

theorem encode_bundle_length_le {quote sign apphash : Bytes} (hquote : quote.length ≤ 256) (hsign : sign.length ≤ 518)
    (happ : apphash.length ≤ 32) :
    (encode (.map true (addCborMap (addCborMap (addCborMap [] "quote" quote) "sign" sign) "app-hash" apphash))).length ≤
      2048 := by
  have hle := encode_namedBytes_length_le true (namedBytes_bundle hquote hsign happ)
  simp only [addCborMap, List.nil_append, List.cons_append, List.length_cons, List.length_nil] at hle ⊢
  omega

theorem serializable_replyMap (tpm2Quote : Bytes) (hquote : tpm2Quote.length < 2 ^ 64) (hpica : pica.length < 2 ^ 64) :
    Serializable (.map true (replyMap tpm2Quote pica)) :=
  serializable_namedBytes (n := 10) (by decide) (show 2 ^ 64 - 1 < 2 ^ 64 by decide) (show 2 < 2 ^ 64 by decide)
    (namedBytes_addCborMap (namedBytes_addCborMap (List.forall_mem_nil _) (by decide) (by omega)) (by decide)
      (by omega))

/-- The payload of an honest daemon. -/
def honestPayload (sha256 : Bytes → ByteBuf 32) (daemon : DaemonEnv) (nonce : ByteBuf 32) (pica : Bytes) : Bytes :=
  daemon.serialize (.map true
    (replyMap (daemon.serialize (.map true (honestBundle sha256 daemon nonce pica))) pica))

theorem makeTpm2QuoteWithPid_honest (sha256 : Bytes → ByteBuf 32) (nonce : ByteBuf 32) (pica : Bytes)
    (honest : HonestAttester daemon client key regAtst) :
    ∃ rc tpm2Serial,
      makeTpm2QuoteWithPid sha256 daemon nonce (sha256 pica) =
        .ok (rc, tpm2Serial, (daemon.serialize (.map true (honestBundle sha256 daemon nonce pica))).length) ∧
      tpm2Serial.1.take (daemon.serialize (.map true (honestBundle sha256 daemon nonce pica))).length =
        daemon.serialize (.map true (honestBundle sha256 daemon nonce pica)) := by
  have hhash : hashExtendSha256 sha256 daemon.digestCalls (sha256 pica) nonce daemon.newhash =
      (0, extendedHash sha256 pica nonce) := hashExtendSha256_of_succeed honest.daemonDigest
  have hrc : ¬ (daemon.makeTpm2Quote (extendedHash sha256 pica nonce)).1 < 0 := Int.not_lt.2 (honest.makeTpm2Quote _)
  obtain ⟨atst, ⟨hun, htype⟩, -⟩ := honest.quote (extendedHash sha256 pica nonce) daemon.tpmAtst
  have hle := honest.bundle_le (daemon.makeTpm2Quote (extendedHash sha256 pica nonce)).2 (sha256 pica)
  have hne := honest.serialize_ne_nil _
    (serializable_quoteBundle (daemon.makeTpm2Quote (extendedHash sha256 pica nonce)).2 (sha256 pica))
  obtain ⟨out, hcopy, htake⟩ := memcpy_of_le daemon.buf hle
  refine ⟨0, out, ?_, htake⟩
  simp only [makeTpm2QuoteWithPid, hhash, hrc, honest.tss2_eq, hun, htype, hcopy, ok_bind, if_false, ne_eq,
    not_true_eq_false, List.length_eq_zero_iff, hne, Nat.not_lt.2 hle, or_self]
  rfl

theorem daemonReply_honest (honest : HonestAttester daemon client key regAtst) (hpica : pica.length < 2 ^ 64) :
    daemonReply sha256 daemon nonce pica = .ok (some (honestPayload sha256 daemon nonce pica)) := by
  obtain ⟨rc, tpm2Serial, hmake, htake⟩ := makeTpm2QuoteWithPid_honest sha256 nonce pica honest
  have hle : (daemon.serialize (.map true (honestBundle sha256 daemon nonce pica))).length ≤ 2048 :=
    honest.bundle_le _ _
  have hne := honest.serialize_ne_nil _ (serializable_replyMap
    (daemon.serialize (.map true (honestBundle sha256 daemon nonce pica))) (by omega) hpica)
  simp only [daemonReply, makeTpm2Pica, replyPica, hmake, ok_bind, pure_eq_ok, gt_iff_lt, Nat.not_lt.2 hle, if_false,
    htake, List.length_eq_zero_iff, hne]
  rfl

/-- What the client extracts from the payload: the hash of the process chain stands for the application hash. -/
theorem extractTpm2evidence_honest (sha256 : Bytes → ByteBuf 32) (nonce : ByteBuf 32)
    (honest : HonestAttester daemon client key regAtst) (hpica : pica.length < 2 ^ 64) :
    extractTpm2evidence client.cbor client.tss2 (honestPayload sha256 daemon nonce pica) client.evidence =
        .ok (7, ⟨(daemon.makeTpm2Quote (extendedHash sha256 pica nonce)).2.quote.1, sha256 pica,
          client.signatureOf (daemon.makeTpm2Quote (extendedHash sha256 pica nonce)).2, pica⟩) ∧
      SignatureGenuine (client.verifyCalls (some key) (daemon.makeTpm2Quote (extendedHash sha256 pica nonce)).2.quote.1
          (client.signatureOf (daemon.makeTpm2Quote (extendedHash sha256 pica nonce)).2))
        (client.signatureOf (daemon.makeTpm2Quote (extendedHash sha256 pica nonce)).2) := by
  have hle : (daemon.serialize (.map true (honestBundle sha256 daemon nonce pica))).length ≤ 2048 :=
    honest.bundle_le _ _
  have houter := honest.load _ (serializable_replyMap
    (daemon.serialize (.map true (honestBundle sha256 daemon nonce pica))) (by omega) hpica)
  have hinner : client.cbor.load (daemon.serialize (.map true (honestBundle sha256 daemon nonce pica))) =
    some (.map true (honestBundle sha256 daemon nonce pica)) := honest.load _ (serializable_quoteBundle _ _)
  obtain ⟨sig, hsig, hgenuine⟩ := honest.sign (extendedHash sha256 pica nonce) client.evidence.tpmSig
  rw [ClientEnv.signatureOf, hsig]
  refine ⟨?_, hgenuine⟩
  have hquote := (daemon.makeTpm2Quote (extendedHash sha256 pica nonce)).2.quote.2
  have hsign := (daemon.makeTpm2Quote (extendedHash sha256 pica nonce)).2.sign.2
  have hbundle : extractTpm2evidenceBundle client.cbor client.tss2
      (.bytes (daemon.serialize (.map true (honestBundle sha256 daemon nonce pica)))) client.evidence =
      .ok (7, ⟨(daemon.makeTpm2Quote (extendedHash sha256 pica nonce)).2.quote.1, sha256 pica, sig,
        client.evidence.picabody⟩) := by
    have hcount : (toInt32 3).toNat = 3 := by decide
    simp only [extractTpm2evidenceBundle, unpackSercbor, hinner]
    simp only [honestBundle, quoteBundle, addCborMap, List.nil_append, List.cons_append, List.length_cons,
      List.length_nil, Nat.zero_add, Nat.reduceAdd, hcount, List.take_succ_cons, List.take_zero]
    rw [forEach_cons_of_next (bundleTurn_quote (by omega)), forEach_cons_of_next (bundleTurn_sign (by omega)),
      forEach_cons_of_next (bundleTurn_appHash _)]
    simp [hsig, ExtractFlag.tpm2Qute, ExtractFlag.tpm2Sign, ExtractFlag.tpm2Aphash]
  simp only [extractTpm2evidence, honestPayload, houter]
  simp only [replyMap, addCborMap, List.nil_append, List.cons_append, List.length_cons, List.length_nil,
    Nat.zero_add, Nat.reduceAdd, ne_eq, not_true_eq_false, if_false]
  rw [forEach_cons_of_next (evidenceTurn_tpm2Quote hbundle), forEach_cons_of_next evidenceTurn_pica]
  simp

/-- The payload of an honest daemon is accepted for every nonce, fresh or not, if it is no ECDSA signature that comes
with it. -/
theorem picaVerifyTpm2all_daemonReply_of_ne (sha256 : Bytes → ByteBuf 32) (nonce : ByteBuf 32)
    (honest : HonestAttester daemon client key regAtst) (hpica : pica.length < 2 ^ 64) (nonce' : ByteBuf 32)
    (halg : (client.signatureOf (daemon.makeTpm2Quote (extendedHash sha256 pica nonce)).2).sigAlg ≠ Tpm2Alg.ecdsa) :
    picaVerifyTpm2all sha256 client (honestPayload sha256 daemon nonce pica) nonce' =
      .ok (VerifyFlag.tpm2Fresh ||| VerifyFlag.tpm2Quote, some pica) := by
  obtain ⟨hextract, hgenuine⟩ := extractTpm2evidence_honest sha256 nonce honest hpica
  obtain ⟨atst, hquote, hdata, hsel⟩ := honest.quote (extendedHash sha256 pica nonce) client.tpmAtst
  have hverified : QuoteVerified client
      ⟨(daemon.makeTpm2Quote (extendedHash sha256 pica nonce)).2.quote.1, sha256 pica,
        client.signatureOf (daemon.makeTpm2Quote (extendedHash sha256 pica nonce)).2, pica⟩ :=
    ⟨key, atst, regAtst, honest.akKey, ⟨hgenuine, halg⟩, hquote, honest.regQuote, pcrsAccepted_iff.2 hsel⟩
  have hpass : LaterChecksPass sha256 client nonce' _ :=
    hverified.laterChecksPass (checkApphash_eq_zero_iff.2 (.inr (.inl honest.clientDigest.runsThrough)))
  rw [picaVerifyTpm2all_of_authenticated hextract hverified.authenticated, verifyAttested_of_pass hpass]

theorem picaVerifyTpm2all_daemonReply (sha256 : Bytes → ByteBuf 32) (nonce : ByteBuf 32)
    (honest : RsaAttester daemon client key regAtst) (hpica : pica.length < 2 ^ 64) (nonce' : ByteBuf 32) :
    picaVerifyTpm2all sha256 client (honestPayload sha256 daemon nonce pica) nonce' =
      .ok (VerifyFlag.tpm2Fresh ||| VerifyFlag.tpm2Quote, some pica) :=
  picaVerifyTpm2all_daemonReply_of_ne sha256 nonce honest.toHonestAttester hpica nonce' (honest.rsa _ _)

/-- The client does not come back from a genuine ECDSA signature. -/
theorem picaVerifyTpm2all_daemonReply_ecdsa (sha256 : Bytes → ByteBuf 32) (nonce : ByteBuf 32)
    (honest : HonestAttester daemon client key regAtst) (hpica : pica.length < 2 ^ 64) (nonce' : ByteBuf 32)
    (halg : (client.signatureOf (daemon.makeTpm2Quote (extendedHash sha256 pica nonce)).2).sigAlg = Tpm2Alg.ecdsa) :
    picaVerifyTpm2all sha256 client (honestPayload sha256 daemon nonce pica) nonce' = .error .freedTwice := by
  obtain ⟨hextract, hgenuine⟩ := extractTpm2evidence_honest sha256 nonce honest hpica
  apply picaVerifyTpm2all_of_freedTwice hextract
  constructor
  · rw [honest.akKey.2]
  · rw [ClientEnv.signatureCalls, honest.akKey.2]
    exact hgenuine.freedTwice halg

/-! ### Agreement on the format -/

/-- The payload for `nonce` satisfies both comparisons of `check_apphash` when it is checked with `nonce`, and the
client accepts it for `nonce'`, with the same process chain, exactly when that gives the same extended hash. -/
def DaemonClientAgree (sha256 : Bytes → ByteBuf 32) (daemon : DaemonEnv) (client : ClientEnv PKey) (pica : Bytes)
    (nonce nonce' : ByteBuf 32) : Prop :=
  ∃ payload, daemonReply sha256 daemon nonce pica = .ok (some payload) ∧
    (∃ ev, extractTpm2evidence client.cbor client.tss2 payload client.evidence = .ok (7, ev) ∧
      (client.quoteAttest ev.quote).extraData.digest = extendedHash sha256 ev.picabody nonce ∧
      ev.apphash = extendedHash sha256 ev.picabody nonce) ∧
    ∃ rc out, picaVerifyTpm2all sha256 client payload nonce' = .ok (rc, out) ∧
      (rc &&& (VerifyFlag.tpm2Quote ||| VerifyFlag.tpm2Fresh) = VerifyFlag.tpm2Quote ||| VerifyFlag.tpm2Fresh ↔
        extendedHash sha256 pica nonce' = extendedHash sha256 pica nonce) ∧
      (rc &&& (VerifyFlag.tpm2Quote ||| VerifyFlag.tpm2Fresh) = VerifyFlag.tpm2Quote ||| VerifyFlag.tpm2Fresh →
        out = some pica)

theorem DaemonClientAgree.hash_eq {nonce' : ByteBuf 32} (honest : HonestAttester daemon client key regAtst)
    (hpica : pica.length < 2 ^ 64) (h : DaemonClientAgree sha256 daemon client pica nonce nonce') :
    (client.signatureOf (daemon.makeTpm2Quote (extendedHash sha256 pica nonce)).2).sigAlg ≠ Tpm2Alg.ecdsa ∧
      sha256 pica = extendedHash sha256 pica nonce ∧
      extendedHash sha256 pica nonce' = extendedHash sha256 pica nonce := by
  obtain ⟨payload, hpayload, ⟨ev, hev, -, happ⟩, rc, out, hrc, hiff, -⟩ := h
  obtain ⟨hextract, -⟩ := extractTpm2evidence_honest sha256 nonce honest hpica
  rw [daemonReply_honest honest hpica] at hpayload
  cases hpayload
  rw [hextract] at hev
  cases hev
  have halg : (client.signatureOf (daemon.makeTpm2Quote (extendedHash sha256 pica nonce)).2).sigAlg ≠
      Tpm2Alg.ecdsa := by
    intro halg
    rw [picaVerifyTpm2all_daemonReply_ecdsa sha256 nonce honest hpica nonce' halg] at hrc
    cases hrc
  rw [picaVerifyTpm2all_daemonReply_of_ne sha256 nonce honest hpica nonce' halg] at hrc
  cases hrc
  exact ⟨halg, happ, hiff.1 (by decide)⟩

/-- With an honest attester the two programs agree only where the signature is no ECDSA signature, the hash of the
chain is its own extended hash, and the other nonce gives the same extended hash. -/
theorem daemon_client_agree_iff (sha256 : Bytes → ByteBuf 32) (daemon : DaemonEnv) (client : ClientEnv PKey)
    (key : PKey) (regAtst : TpmsAttest) (honest : HonestAttester daemon client key regAtst) (pica : Bytes)
    (hpica : pica.length < 2 ^ 64) (nonce nonce' : ByteBuf 32) :
    DaemonClientAgree sha256 daemon client pica nonce nonce' ↔
      (client.signatureOf (daemon.makeTpm2Quote (extendedHash sha256 pica nonce)).2).sigAlg ≠ Tpm2Alg.ecdsa ∧
        sha256 pica = extendedHash sha256 pica nonce ∧
        extendedHash sha256 pica nonce' = extendedHash sha256 pica nonce := by
  constructor
  · exact DaemonClientAgree.hash_eq honest hpica
  · intro ⟨halg, happ, hsame⟩
    obtain ⟨hextract, -⟩ := extractTpm2evidence_honest sha256 nonce honest hpica
    obtain ⟨atst, hquote, hquoted, -⟩ := honest.quote (extendedHash sha256 pica nonce) client.tpmAtst
    have hdata : (client.quoteAttest
        (daemon.makeTpm2Quote (extendedHash sha256 pica nonce)).2.quote.1).extraData.digest =
        extendedHash sha256 pica nonce := by
      rw [ClientEnv.quoteAttest, hquote.extract]
      exact hquoted
    have hverify := picaVerifyTpm2all_daemonReply_of_ne sha256 nonce honest hpica nonce' halg
    have hflags : (VerifyFlag.tpm2Fresh ||| VerifyFlag.tpm2Quote) &&& (VerifyFlag.tpm2Quote ||| VerifyFlag.tpm2Fresh) =
        VerifyFlag.tpm2Quote ||| VerifyFlag.tpm2Fresh := by decide
    exact ⟨_, daemonReply_honest honest hpica, ⟨_, hextract, hdata, happ⟩, _, _, hverify, iff_of_true hflags hsame,
      fun _ => rfl⟩

/-! ### A TPM whose marshalled quote is its extra data -/

def plainTss2 : Tss2 where
  unmarshalAttest := fun bytes old =>
    if h : bytes.length = 32 then
      (0, { quoteOfPcr10 [] with extraData := ⟨32, ⟨bytes ++ List.replicate 34 0, by simp [h]⟩⟩ })
    else (1, old)
  unmarshalSignature := fun _ old => (0, { old with sigAlg := Tpm2Alg.rsassa, rsassa := ⟨Tpm2Alg.sha256, [0]⟩ })

def allCallsSucceed : DigestCalls := ⟨true, 1, 1, 1, 1, 32, ByteBuf.zero 32⟩

def plainDaemon : DaemonEnv where
  serialize := encode
  tss2 := plainTss2
  makeTpm2Quote := fun d => (0, ⟨⟨d.1, by rw [d.2]; decide⟩, ⟨[0], by decide⟩⟩)
  digestCalls := allCallsSucceed
  newhash := ByteBuf.zero 32
  tpmAtst := quoteOfPcr10 []
  buf := ByteBuf.zero 2048

def plainClient : ClientEnv Unit where
  cbor := ⟨Cbor.load, fun _ => .error .nullPointer⟩
  tss2 := plainTss2
  pemKey := fun _ => some ()
  verifyCalls := fun _ _ _ => { (default : VerifyCalls) with
    ctxNew := true, init := 1, setPadding := 1, setMgf1 := 1, update := 1, final := 1 }
  digestCalls := allCallsSucceed
  akPub := wholeFile [0]
  regQuote := wholeFile (List.replicate 32 0)
  evidence := ⟨[], ByteBuf.zero 32, default, []⟩
  tpmAtst := quoteOfPcr10 []
  regAtst := quoteOfPcr10 []
  picahash := ByteBuf.zero 32

theorem plain_honest : RsaAttester plainDaemon plainClient () (quoteOfPcr10 []) where
  load := load_encode_eq
  serialize_ne_nil := fun _ hi => encode_ne_nil hi
  bundle_le := fun tQuote apphash => encode_bundle_length_le tQuote.quote.2 tQuote.sign.2 (Nat.le_of_eq apphash.2)
  tss2_eq := rfl
  makeTpm2Quote := fun _ => le_refl 0
  quote := by
    intro d old
    have hsame : compPcrSelection (quoteOfPcr10 []).quote.pcrSelect (quoteOfPcr10 []).quote.pcrSelect = .ok 0 := by
      decide
    refine ⟨_, ⟨dif_pos d.2, rfl⟩, Subtype.ext ?_, compPcrSelection_eq_zero_iff.1 hsame⟩
    exact List.take_left' d.2
  sign := by
    intro d old
    exact ⟨_, rfl, (verifyQuoteSignature_ok_iff.1 rfl).toSignatureGenuine⟩
  daemonDigest := by decide
  clientDigest := by decide
  akKey := ⟨⟨1, _, rfl⟩, by decide⟩
  regQuote := ⟨32, _, rfl, by decide, by decide, by decide, rfl⟩
  rsa := by
    intro d old
    have hne : Tpm2Alg.rsassa ≠ Tpm2Alg.ecdsa := by decide
    exact hne

/-- An empty process chain and the nonce 0, asked for again. -/
theorem daemon_client_agree_plain :
    DaemonClientAgree Sha256.hash plainDaemon plainClient [] (ByteBuf.zero 32) (ByteBuf.zero 32) ↔
      (plainClient.signatureOf (plainDaemon.makeTpm2Quote (extendedHash Sha256.hash [] (ByteBuf.zero 32))).2).sigAlg ≠
          Tpm2Alg.ecdsa ∧
        Sha256.hash [] = extendedHash Sha256.hash [] (ByteBuf.zero 32) ∧
        extendedHash Sha256.hash [] (ByteBuf.zero 32) = extendedHash Sha256.hash [] (ByteBuf.zero 32) :=
  daemon_client_agree_iff Sha256.hash plainDaemon plainClient () (quoteOfPcr10 []) plain_honest.toHonestAttester []
    (by decide) (ByteBuf.zero 32) (ByteBuf.zero 32)

set_option maxRecDepth 20000 in
theorem sha256_ne_extendedHash : Sha256.hash [] ≠ extendedHash Sha256.hash [] (ByteBuf.zero 32) := by
  decide +kernel

/-- The daemon's reply does not satisfy the comparison of the application hash. -/
theorem daemon_client_disagree :
    ¬ DaemonClientAgree Sha256.hash plainDaemon plainClient [] (ByteBuf.zero 32) (ByteBuf.zero 32) := by
  intro h
  obtain ⟨-, happ, -⟩ := h.hash_eq plain_honest.toHonestAttester (by decide)
  exact sha256_ne_extendedHash happ

end PortableTlsRa
