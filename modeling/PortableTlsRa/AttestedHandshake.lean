import PortableTlsRa.Handshake
import PortableTlsRa.QuoteExchange

/-!
# A session of an enclave with a TPM

The way of the nonce of a session through the programs: the enclave seals it, its host sends it to the daemon, the
daemon unseals it and answers with a TPM quote, the enclave puts what its host gives it into its claims and its
certificate, and the host of the server looks at it.  Where no call fails the certificate is admitted, whatever the
buffers hold and however the bytes are split on the way (`attestedCertificate_admitted`).
-/

namespace PortableTlsRa.Libtlsra

open CSem Cbor Libcert Tpmdaemon

/-! ### The certificate of the enclave -/

/-- An enclave with a TPM and its host: what the request of the host finds, the two buffers for the quote, the calls for
the claims, the steps of the evidence, and what the callback finds. -/
structure AttestedClient (PKey : Type) where
  cbor : Libcbor
  mem : FetchMemory
  calls : RequestCalls
  tpm2Serial : ByteBuf 1024
  tpm2Qbuf : ByteBuf 1024
  claims : Libtpm2.ClaimsEnv PKey
  steps : EvidenceEnv
  con : CallbackEnv

namespace AttestedClient

variable {PKey : Type} (sha256 : Bytes → ByteBuf 32) (client : AttestedClient PKey)

/-- The calls for the claims where the call to the host for a quote ends so. -/
def answered (answer : Libtpm2.QuoteAnswer) : Libtpm2.ClaimsEnv PKey :=
  { client.claims with ocallMakeTpm2QuoteViaDaemon := fun _ => answer }

/-- The certificate that the callback of the client makes, with what comes back from the daemon; there is none after
`abort`. -/
def makeCertificate (fuel : Nat) (pubkey nonce : Bytes) (back : List Arrival) : Running (Option (List Extension)) := do
  let sealedNonce := client.claims.myseal (nonce.take 32)
  match ← ocallMakeTpm2QuoteViaDaemon client.cbor client.mem fuel client.calls sealedNonce client.tpm2Serial.1 back with
  | none => return none
  | some (tpm2Serial, sz) =>
    -- on the way back into the enclave
    let tpm2Qbuf ← checked (memcpy client.tpm2Qbuf tpm2Serial)
    let claims ← checked
      (Libtpm2.makeCborTpm2ClaimsFromEnclave sha256 (client.answered ⟨0, tpm2Qbuf, sz⟩) pubkey nonce)
    let run ← checked (onClientCert .sgxTpm2 { client.steps with claims := fun _ _ => claims } client.con)
    return run.cert

/-- The key of the session is the one, no call fails, and the quote is of the report. -/
structure Works (key : PemKey) (nonce : ByteBuf 32) : Prop where
  load : ∀ i, Serializable i → client.cbor.load (encode i) = some i
  newMap : client.claims.newMap = true
  atflag : client.claims.atflag = true
  digests : client.claims.digests = true
  keyCalls : client.claims.KeyCalls key.text key.der
  addQuote : client.claims.addQuote.Succeed
  keypair : client.con.keypair = some key.text
  nonce : client.con.nonce = nonce.1
  certifies : client.con.Certifies
  sha256 : client.steps.sha256 = sha256
  qeTargetInfo : client.steps.qeTargetInfo.1 = 0 ∧ client.steps.qeTargetInfo.2.1 = 0
  createReport : ∀ info data, (client.steps.createReport info data).1 = 0
  quoteSize : client.steps.quoteSize.1 = 0 ∧ client.steps.quoteSize.2.1 = 0
  mallocQuote : client.steps.mallocQuote = true
  getQuote : ∀ report, (client.steps.getQuote report client.steps.quoteSize.2.2).status = 0
  quoteOfReport : ∀ info data, QuoteOfReport
    (client.steps.getQuote (client.steps.createReport info data).2 client.steps.quoteSize.2.2).buf.1 data
  quoteMin : quoteMinSize ≤ client.steps.quoteSize.2.2.toNat
  quoteMax : client.steps.quoteSize.2.2.toNat ≤ rawQuoteMaxSize
  pushed : client.steps.evidence.Pushed
  newTag : client.steps.evidence.newTag = true
  serialize : client.steps.evidence.serialize = true

end AttestedClient

section

variable {PKey : Type} {sha256 : Bytes → ByteBuf 32} {client : AttestedClient PKey} {key : PemKey}
  {nonce : ByteBuf 32} {answer : Libtpm2.QuoteAnswer}

/-- The claims with a quote that was answered. -/
def answeredClaims (sha256 : Bytes → ByteBuf 32) (key : PemKey) (nonce : ByteBuf 32) (quote : Bytes) : Bytes :=
  encode (.map true [Libtpm2.hashPair (sha256 key.der), Libtpm2.noncePair nonce.1, Libtpm2.quotePair quote])

theorem makeClaims_answered (hworks : client.Works sha256 key nonce) (hpos : 0 < answer.size)
    (hsize : answer.size ≤ 1024) :
    Libtpm2.makeCborTpm2ClaimsFromEnclave sha256 (client.answered answer) key.text nonce.1 =
      .ok (0, some (answeredClaims sha256 key nonce answer.quote)) := by
  have hanswer : (client.answered answer).quoteAnswer (nonce.1.take 32) = answer := if_pos hworks.atflag
  have hhash : (client.answered answer).keyHash sha256 key.der = sha256 key.der := if_pos hworks.digests
  have hcalls := hworks.keyCalls
  refine Libtpm2.makeCborTpm2ClaimsFromEnclave_eq_some_iff.2 ⟨rfl, hworks.newMap, key.der, ?_, ?_, ?_⟩
  · exact ⟨⟨hcalls.entry.newArray, hcalls.entry.buildAlg, hcalls.entry.newBio, hcalls.entry.buildHash,
      hcalls.entry.pushAlg, hcalls.entry.pushHash, hcalls.entry.serializeEntry⟩, hcalls.key, hcalls.addHash,
      hcalls.addNonce, hcalls.serializeClaims⟩
  · exact ⟨Nat.le_of_eq nonce.2.symm, by rw [hanswer]; exact hpos, by rw [hanswer]; exact hsize, hworks.addQuote⟩
  · rw [hanswer, hhash]
    rfl

/-- The SGX quote over claims. -/
def AttestedClient.quoteOf (client : AttestedClient PKey) (claims : Bytes) : Bytes :=
  (client.steps.getQuote (client.steps.createReport client.steps.qeTargetInfo.2.2
    (client.steps.reportData claims)).2 client.steps.quoteSize.2.2).buf.1

/-- The evidence over claims, and the extensions of a certificate with it. -/
def AttestedClient.evidenceOf (client : AttestedClient PKey) (claims : Bytes) : Bytes :=
  encode (.tag teeTpm2QuoteCborTag (.array true [.bytes (client.quoteOf claims), .bytes claims]))

def AttestedClient.extensionsOf (client : AttestedClient PKey) (claims : Bytes) : List Extension :=
  keyExtensions ++ [.quote ⟨some (client.quoteOf claims), toInt32 client.steps.quoteSize.2.2.toNat⟩,
    .taggedEvidence ⟨some (client.evidenceOf claims), toInt32 (client.evidenceOf claims).length⟩]

theorem onClientCert_answered (hworks : client.Works sha256 key nonce) (claims : Bytes) :
    onClientCert .sgxTpm2 { client.steps with claims := fun _ _ => (0, some claims) } client.con =
      .ok ⟨1, some 0, some (client.extensionsOf claims)⟩ := by
  have hprepared : EvidenceEnv.Prepared { client.steps with claims := fun _ _ => (0, some claims) } client.con.keypair
      client.con.nonce false := by
    refine ⟨fun hrefused => Bool.false_ne_true hrefused.1, fun hnone => ?_, hworks.qeTargetInfo,
      hworks.createReport _ _, hworks.quoteSize, hworks.mallocQuote⟩
    cases hnone
  have hread := readBytes_claims hprepared.hashable
  have hstatus : (EvidenceEnv.reply { client.steps with claims := fun _ _ => (0, some claims) } client.con.keypair
      client.con.nonce).status = 0 := hworks.getQuote _
  have hmade := makeCertificateEvidence_prepared teeTpm2QuoteCborTag
    ⟨none, 0, client.con.evidence, client.con.evsz⟩ hprepared
  rw [if_neg (not_not.2 hstatus), makeCborSgxEvidence_of_pushed _ hread hworks.pushed, if_pos hworks.newTag,
    if_pos hworks.serialize, ok_bind, if_neg (Int.lt_irrefl 0)] at hmade
  have hcert := @makeX509cert_of_certifies _ ⟨some (client.quoteOf claims), client.steps.quoteSize.2.2,
    some (client.evidenceOf claims), (client.evidenceOf claims).length⟩ hworks.certifies (fun hnone => nomatch hnone.1)
  have hrun : Libcert.Build.makeCertificateEvidence .sgxTpm2 { client.steps with claims := fun _ _ => (0, some claims) }
      client.con.keypair client.con.nonce ⟨none, 0, client.con.evidence, client.con.evsz⟩ =
        .ok (0, ⟨some (client.quoteOf claims), client.steps.quoteSize.2.2, some (client.evidenceOf claims),
          (client.evidenceOf claims).length⟩) := hmade
  rw [onClientCert, hrun, ok_bind]
  dsimp only
  rw [hcert]
  rfl

/-- The claims that are made of a packet have the quote, and what follows it in the buffer of the host. -/
theorem makeCertificate_attested {env : RequestEnv} {apphash : ByteBuf 32} {tpm2Quote : Bytes} {back : List Arrival}
    {r : Tpmdaemon.TpmdPacket} (hworks : client.Works sha256 key nonce)
    (hasks : AsksQuote client.calls (client.claims.myseal nonce.1))
    (hback : Carries back (replyWire r)) (hattests : Attests sha256 env nonce apphash tpm2Quote)
    (hdata : r.data = encode (.map true (attestPairs nonce.1 tpm2Quote)))
    (hlen : r.len = UInt32.ofNat r.data.length) :
    ∃ rest, (tpm2Quote ++ rest).length = r.data.length ∧ ∀ fuel ≥ 1024,
      client.makeCertificate sha256 fuel key.text nonce.1 back =
        some (.ok (some (client.extensionsOf (answeredClaims sha256 key nonce (tpm2Quote ++ rest))))) := by
  have hsize := attestPacket_length_le hattests
  have hquoteSize := length_lt_of_attestPairs nonce.1 tpm2Quote
  rw [← hdata] at hsize hquoteSize
  have hserial := client.tpm2Serial.2
  have hlength : (tpm2Quote ++ client.tpm2Serial.1.drop tpm2Quote.length).length = 1024 := by
    rw [List.length_append, List.length_drop]
    omega
  refine ⟨(client.tpm2Serial.1.drop tpm2Quote.length).take (r.data.length - tpm2Quote.length), ?_, ?_⟩
  · rw [List.length_append, List.length_take, List.length_drop]
    omega
  · intro fuel hfuel
    have hfetch : ocallMakeTpm2QuoteViaDaemon client.cbor client.mem fuel client.calls (client.claims.myseal nonce.1)
        client.tpm2Serial.1 back = _ :=
      ocallMakeTpm2QuoteViaDaemon_attested hworks.load hasks hback hattests hdata hlen fuel hfuel
    have hnonce : nonce.1.take 32 = nonce.1 := List.take_of_length_le (Nat.le_of_eq nonce.2)
    have hclaims := @makeClaims_answered _ _ _ _ _ ⟨0, ⟨_, hlength⟩, r.data.length⟩ hworks
      (Nat.lt_of_le_of_lt (Nat.zero_le _) hquoteSize) (Nat.le_trans hsize (by decide))
    have hquote : Libtpm2.QuoteAnswer.quote ⟨0, ⟨_, hlength⟩, r.data.length⟩ =
        tpm2Quote ++ (client.tpm2Serial.1.drop tpm2Quote.length).take (r.data.length - tpm2Quote.length) := by
      show List.take r.data.length (tpm2Quote ++ _) = _
      rw [List.take_append, List.take_of_length_le (Nat.le_of_lt hquoteSize)]
    unfold AttestedClient.makeCertificate
    dsimp only
    rw [hnonce, running_ok_bind hfetch]
    dsimp only
    rw [memcpy_of_length hlength, checked_ok_bind, hclaims, checked_ok_bind, hquote, onClientCert_answered hworks]
    rfl

end

/-! ### The server -/

/-- The extension as it is read in the certificate of the peer. -/
inductive Written : Extension → Oid × Bytes → Prop
  | quote {s : OctetString} {data : Bytes} : s.data = some data → s.len = data.length →
      Written (.quote s) (x509OidForQuote, data)
  | taggedEvidence {s : OctetString} {data : Bytes} : s.data = some data → s.len = data.length →
      Written (.taggedEvidence s) (tcgDiceTaggedOid, data)
  | other {e : Extension} {oid : Oid} {data : Bytes} : ¬ e.IsEvidence → oid ≠ x509OidForQuote →
      oid ≠ tcgDiceTaggedOid → Written e (oid, data)

/-- No call of the server fails, and its enclave hears what its host says of a TPM2 quote. -/
structure ServerWorks {PKey : Type} (sha256 : Bytes → ByteBuf 32) (server : CertEnv) (host : HostEnv PKey) :
    Prop where
  codec : Codec server.verifyEnv.cbor.load encode
  enclave : server.verifyEnv.toSgxEnv.Works sha256
  mallocOut : server.verifyEnv.mallocOut = true
  supplementalStatus : server.verifyEnv.supplementalStatus = 0
  supplementalQrc : server.verifyEnv.supplementalQrc = 0
  mallocSup : server.verifyEnv.mallocSup = true
  readRand : server.verifyEnv.readRand = 0
  ocall : ∀ sertpm2 nonce orc, ocallVerifyTpm2Quote host sertpm2 nonce = .ok orc →
    server.verifyEnv.ocallVerifyTpm2Quote sertpm2 nonce = (0, orc)
  bioNew : server.calls.bioNew = true
  pemWrite : server.calls.pemWrite = 1
  mallocPub : server.calls.mallocPub = true
  txt2obj : server.calls.txt2obj tcgDiceTaggedOid = true
  x509VerifyCert : server.x509VerifyCert = 1

section

variable {PKey PKey' : Type} {sha256 : Bytes → ByteBuf 32} {client : AttestedClient PKey} {server : CertEnv}
  {host : HostEnv PKey'} {key : PemKey} {nonce : ByteBuf 32} {tpm2Quote : Bytes}

/-- What the claims leave in the buffers of the verifier. -/
theorem buffers_answeredClaims (cbor : Libcbor) (hash nonce : ByteBuf 32)
    (hlen : tpm2Quote.length ≤ maxsizeSerTpm2Quote) :
    lastOf (nonceOf cbor) [Libtpm2.hashPair hash, Libtpm2.noncePair nonce.1, Libtpm2.quotePair tpm2Quote] = some nonce ∧
      lastOf (tpm2QuoteOf cbor) [Libtpm2.hashPair hash, Libtpm2.noncePair nonce.1, Libtpm2.quotePair tpm2Quote] =
        some tpm2Quote := by
  have hhash : claimKey (lit "pubkey-hash") = .pubkeyHash := by decide
  have hnonce : claimKey (lit "nonce") = .nonce := by decide
  have hquote : claimKey (lit "tpm2-quote") = .tpm2Quote := by decide
  have hsize := nonce.2
  constructor
  · simp [lastOf, Libtpm2.hashPair, Libtpm2.noncePair, Libtpm2.quotePair, nonceOf, claimBytes, Libcbor.bytestring,
      hhash, hnonce, hquote, hsize]
  · simp [lastOf, Libtpm2.hashPair, Libtpm2.noncePair, Libtpm2.quotePair, tpm2QuoteOf, claimBytes, Libcbor.bytestring,
      hhash, hnonce, hquote, hlen]

/-- The evidence over the claims is accepted for the nonce, if the host accepts the TPM2 quote. -/
theorem verifySgxEvidence_answered (hworks : client.Works sha256 key nonce) (hserver : ServerWorks sha256 server host)
    (hder : key.der.length ≤ pubKeyMaxSize) (hlen : tpm2Quote.length ≤ maxsizeSerTpm2Quote)
    (hqv : ¬ (server.verifyEnv.qvResult (client.quoteOf (answeredClaims sha256 key nonce tpm2Quote))).Refused)
    {orc : Int} (horc : ocallVerifyTpm2Quote host tpm2Quote nonce = .ok orc) (hnonneg : 0 ≤ orc) :
    verifySgxEvidence server.verifyEnv (client.evidenceOf (answeredClaims sha256 key nonce tpm2Quote)) key.text nonce
      server.stack = .ok VerifiedFlag.evidence := by
  obtain ⟨pkey, -, -, hne⟩ := hworks.keyCalls.key
  have hquote : SgxQuoteOf client.steps.sha256 (client.quoteOf (answeredClaims sha256 key nonce tpm2Quote))
      (answeredClaims sha256 key nonce tpm2Quote) := (hworks.quoteOfReport _ _).sgxQuoteOf
  rw [hworks.sha256] at hquote
  have hsize : (client.quoteOf (answeredClaims sha256 key nonce tpm2Quote)).length =
      client.steps.quoteSize.2.2.toNat := (client.steps.getQuote _ client.steps.quoteSize.2.2).buf.2
  have hmin := hworks.quoteMin
  have hmax := hworks.quoteMax
  rw [← hsize] at hmin hmax
  have hpasses := @evidencePasses_tpm2Claims { makingEnclave with sha256 := sha256 } server.verifyEnv.toSgxEnv key nonce
    tpm2Quote hserver.codec hserver.enclave hne hder hlen _ hmin hmax hquote
  obtain ⟨hnonceOf, hquoteOf⟩ := buffers_answeredClaims server.verifyEnv.cbor (sha256 key.der) nonce hlen
  have hocall := hserver.ocall _ _ _ horc
  refine verifySgxEvidence_accepts_iff.2 ⟨_, ⟨_, _, _, hpasses, ?_⟩, ?_⟩
  · refine ⟨hserver.mallocOut, hserver.supplementalStatus, hserver.supplementalQrc, hserver.mallocSup, hserver.readRand,
      hqv, fun _ => ?_⟩
    have htpm2 : (lastOf (tpm2QuoteOf server.verifyEnv.cbor) (tpm2Claims { makingEnclave with sha256 := sha256 } key.der
        nonce.1 tpm2Quote)).getD [] = tpm2Quote := congrArg (Option.getD · []) hquoteOf
    rw [htpm2, hocall]
    exact ⟨rfl, hnonneg⟩
  · exact (congrArg (Option.getD · server.stack.outNonce) hnonceOf).symm

theorem Written.eq_of_taggedEvidence {s : OctetString} {data : Bytes} {ext : Oid × Bytes} (hdata : s.data = some data)
    (h : Written (.taggedEvidence s) ext) : ext = (tcgDiceTaggedOid, data) := by
  cases h with
  | taggedEvidence hdata' _ =>
    rw [hdata] at hdata'
    cases hdata'
    rfl
  | other hnot _ _ => exact absurd trivial hnot

theorem Written.ne_tcgDiceTaggedOid {e : Extension} {ext : Oid × Bytes} (h : Written e ext)
    (he : ∀ s, e ≠ .taggedEvidence s) : ext.1 ≠ tcgDiceTaggedOid := by
  cases h with
  | quote _ _ => exact show x509OidForQuote ≠ tcgDiceTaggedOid by decide
  | taggedEvidence _ _ => exact absurd rfl (he _)
  | other _ _ hne => exact hne

/-- Every extension has a size that its structure can state. -/
theorem exists_written (hworks : client.Works sha256 key nonce) (hlen : tpm2Quote.length ≤ maxsizeSerTpm2Quote) :
    ∃ exts, List.Forall₂ Written (client.extensionsOf (answeredClaims sha256 key nonce tpm2Quote)) exts := by
  have hclaims : (answeredClaims sha256 key nonce tpm2Quote).length ≤ 9 + (18 + 11 + 1000) * 3 :=
    encode_namedBytes_length_le true
      (@namedBytes_tpm2Claims { makingEnclave with sha256 := sha256 } enclave tpm2Quote codec_encode key.der nonce hlen)
  have hquote : (client.quoteOf (answeredClaims sha256 key nonce tpm2Quote)).length ≤ rawQuoteMaxSize := by
    rw [AttestedClient.quoteOf, (client.steps.getQuote _ client.steps.quoteSize.2.2).buf.2]
    exact hworks.quoteMax
  unfold rawQuoteMaxSize at hquote
  have hevidence : (client.evidenceOf (answeredClaims sha256 key nonce tpm2Quote)).length < 2 ^ 31 := by
    have htag := putHead_length_le 6 (widthOf teeTpm2QuoteCborTag) teeTpm2QuoteCborTag
    have harray := putHead_length_le 4 (widthOf 2) 2
    have hfirst := (encode_string_length_le (client.quoteOf (answeredClaims sha256 key nonce tpm2Quote))).1
    have hsecond := (encode_string_length_le (answeredClaims sha256 key nonce tpm2Quote)).1
    simp only [AttestedClient.evidenceOf, encode, encodeItems, List.length_append, List.length_cons, List.length_nil,
      Nat.zero_add, Nat.reduceAdd] at hfirst hsecond ⊢
    omega
  have hsize := (client.steps.getQuote (client.steps.createReport client.steps.qeTargetInfo.2.2
    (client.steps.reportData (answeredClaims sha256 key nonce tpm2Quote))).2 client.steps.quoteSize.2.2).buf.2
  have hquoteLen : toInt32 client.steps.quoteSize.2.2.toNat =
      (client.quoteOf (answeredClaims sha256 key nonce tpm2Quote)).length := by
    rw [AttestedClient.quoteOf, hsize] at hquote ⊢
    exact toInt32_of_lt (by omega)
  have hother {e : Extension} {oid : Oid} (he : e ∈ keyExtensions) (hquote : oid ≠ x509OidForQuote)
      (htagged : oid ≠ tcgDiceTaggedOid) : Written e (oid, []) :=
    .other (keyExtensions_not_evidence e he) hquote htagged
  exact ⟨[([2, 5, 29, 19], []), ([2, 5, 29, 14], []), ([2, 5, 29, 35], []), (x509OidForQuote, _),
      (tcgDiceTaggedOid, _)],
    .cons (hother (by simp [keyExtensions]) (by decide) (by decide))
      (.cons (hother (by simp [keyExtensions]) (by decide) (by decide))
        (.cons (hother (by simp [keyExtensions]) (by decide) (by decide))
          (.cons (.quote rfl hquoteLen) (.cons (.taggedEvidence rfl (toInt32_of_lt hevidence)) .nil))))⟩

/-- The tagged evidence is the last extension of the certificate. -/
theorem extensionFound_answered {claims : Bytes} {exts : List (Oid × Bytes)} {calls : ContentsCalls}
    (htxt : calls.txt2obj tcgDiceTaggedOid = true) (hwritten : List.Forall₂ Written (client.extensionsOf claims) exts) :
    ExtensionFound calls ⟨some key.text, exts⟩ tcgDiceTaggedOid (client.evidenceOf claims) := by
  unfold AttestedClient.extensionsOf keyExtensions at hwritten
  rcases hwritten with _ | ⟨h₀, _ | ⟨h₁, _ | ⟨h₂, _ | ⟨h₃, _ | ⟨h₄, ⟨⟩⟩⟩⟩⟩⟩
  refine ⟨htxt, 4, by decide, congrArg some (h₄.eq_of_taggedEvidence rfl), ?_⟩
  intro j hj ext hext
  interval_cases j <;> cases hext
  · exact h₀.ne_tcgDiceTaggedOid nofun
  · exact h₁.ne_tcgDiceTaggedOid nofun
  · exact h₂.ne_tcgDiceTaggedOid nofun
  · exact h₃.ne_tcgDiceTaggedOid nofun

/-- A certificate with the evidence is admitted into the session of the nonce. -/
theorem verify_answered {exts : List (Oid × Bytes)} {ssl : SslSession} {old : ByteBuf 32}
    (hworks : client.Works sha256 key nonce) (hserver : ServerWorks sha256 server host)
    (hnonce : sessionNonce ssl .serverside old = nonce) (hder : key.der.length ≤ pubKeyMaxSize)
    (hlen : tpm2Quote.length ≤ maxsizeSerTpm2Quote)
    (hqv : ¬ (server.verifyEnv.qvResult (client.quoteOf (answeredClaims sha256 key nonce tpm2Quote))).Refused)
    {orc : Int} (horc : ocallVerifyTpm2Quote host tpm2Quote nonce = .ok orc) (hnonneg : 0 ≤ orc)
    (hwritten : List.Forall₂ Written (client.extensionsOf (answeredClaims sha256 key nonce tpm2Quote)) exts) :
    verify server 0 ⟨some ⟨some key.text, exts⟩, some ssl, 0, x509VErrDepthZeroSelfSignedCert⟩ .serverside old =
      .ok (1, some ⟨client.evidenceOf (answeredClaims sha256 key nonce tpm2Quote), key.text, nonce,
        VerifiedFlag.evidence⟩) := by
  have hfound : ExtensionFound server.calls ⟨some key.text, exts⟩ tcgDiceTaggedOid _ :=
    extensionFound_answered hserver.txt2obj hwritten
  have haccepted := verifySgxEvidence_answered hworks hserver hder hlen hqv horc hnonneg
  have hcontents : verifyContents server ⟨some key.text, exts⟩ nonce =
      .ok ((VerifiedFlag.evidence : Int), some ⟨client.evidenceOf (answeredClaims sha256 key nonce tpm2Quote), key.text,
        nonce, VerifiedFlag.evidence⟩) := by
    rw [verifyContents_of_evidence ⟨rfl, hserver.bioNew, hserver.pemWrite, hserver.mallocPub⟩ hfound, haccepted]
    rfl
  have hside : ¬ Which.serverside = Which.clientside := by decide
  have hflag : hasVerifiedFlag (VerifiedFlag.evidence : Int) = true := by decide
  rw [verify_of_leaf rfl rfl rfl rfl, hnonce, verifyCert, if_neg (not_not.2 hserver.x509VerifyCert), if_neg hside,
    hcontents, ok_bind, if_pos hflag]

end

/-! ### The session -/

/-- However the bytes are split on the way, whatever the buffers hold: the daemon unseals the nonce of the session and
answers with a quote over it, the enclave makes a certificate of what its host gives it, and the server admits it. -/
theorem attestedCertificate_admitted {PKey PKey' : Type} (sha256 : Bytes → ByteBuf 32) (sealedReads : Bytes → Nat)
    (c : Tpmdaemon.Connection) (daemon : DaemonEnv) (client : AttestedClient PKey) (server : CertEnv)
    (host : HostEnv PKey') (key : PemKey) (nonce : ByteBuf 32) (ssl : SslSession) (old : ByteBuf 32)
    (hworks : client.Works sha256 key nonce) (hserver : ServerWorks sha256 server host)
    (hrecognises : Recognises host daemon) (hmade : MadeBy (c.env 0) daemon)
    (hsucceeds : Succeeds sha256 (c.env 0) (.attest (client.claims.myseal nonce.1)))
    (hunseal : NonceOf (c.env 0) (.attest (client.claims.myseal nonce.1)) nonce)
    (hreads : sealedReads (client.claims.myseal nonce.1) ≤ (client.claims.myseal nonce.1).length)
    (hasks : AsksQuote client.calls (client.claims.myseal nonce.1))
    (hcon : Carries c.arrivals
      (attestHead client.calls (client.claims.myseal nonce.1) ++ client.claims.myseal nonce.1))
    (hmem : ∀ i, (c.mem i).Works) (hnonce : sessionNonce ssl .serverside old = nonce)
    (hder : key.der.length ≤ pubKeyMaxSize)
    (hqv : ∀ claims, ¬ (server.verifyEnv.qvResult (client.quoteOf claims)).Refused) :
    ∃ r apphash tpm2Quote,
      EndsIn (fun fuel => serveLoop sha256 .sgx sealedReads c fuel 0 c.arrivals) (· = ([r], -1)) ∧
      c.measured = some apphash ∧ Attests sha256 (c.env 0) nonce apphash tpm2Quote ∧
      ∀ back, Carries back (replyWire r) →
        EndsIn (fun fuel => client.makeCertificate sha256 fuel key.text nonce.1 back) fun cert =>
          ∃ extensions, cert = some extensions ∧ (∃ exts, List.Forall₂ Written extensions exts) ∧
            ∀ exts, List.Forall₂ Written extensions exts → ∃ call, verify server 0
              ⟨some ⟨some key.text, exts⟩, some ssl, 0, x509VErrDepthZeroSelfSignedCert⟩ .serverside old =
                .ok (1, call) := by
  obtain ⟨r, apphash, tpm2Quote, hr, happ, hattests, hdata, hlen⟩ := tpmddaemon_attest hsucceeds hunseal
  have hpacket := attestPacket_length_le hattests
  refine ⟨r, apphash, tpm2Quote, ?_, happ, hattests, ?_⟩
  · exact ⟨1041, fun fuel hfuel => ⟨_, serveLoop_sealedRequest hasks.nonceSize hmem hcon hreads hr hfuel, rfl⟩⟩
  · intro back hback
    obtain ⟨rest, hrest, hrun⟩ := makeCertificate_attested hworks hasks hback hattests hdata hlen
    rw [← hdata, ← hrest] at hpacket
    obtain ⟨orc, horc, hnonneg⟩ := ocallVerifyTpm2Quote_attested hrecognises hmade hattests rest nonce
    rw [endsIn_of_returns hrun]
    refine ⟨_, rfl, exists_written hworks hpacket, fun exts hwritten => ?_⟩
    exact ⟨_, verify_answered hworks hserver hnonce hder hpacket (hqv _) horc hnonneg hwritten⟩

/-! ### A session with the working daemon -/

/-- A block that the working daemon unseals to its nonce. -/
def sealedBlock : Bytes := List.replicate 32 0

/-- A quote of 1020 bytes with the report in it. -/
def quoteBytes (report : Bytes) : Bytes := List.replicate 368 0 ++ report ++ List.replicate 588 0

def quoteOfData (report : Bytes) (qsz : UInt32) : QuoteReply qsz.toNat :=
  ⟨0, 0, if h : (quoteBytes report).length = qsz.toNat then ⟨quoteBytes report, h⟩ else ByteBuf.zero qsz.toNat⟩

/-- An enclave that reads every key as the short one, with a platform where nothing fails. -/
def attestedEnclave : AttestedClient Unit where
  cbor := ⟨load, fun _ => .ok []⟩
  mem := ⟨ByteBuf.zero 1024, 0⟩
  calls := ⟨3, [some 40], 0⟩
  tpm2Serial := ByteBuf.zero 1024
  tpm2Qbuf := ByteBuf.zero 1024
  claims := { shortKeyEnclave with atflag := true, myseal := fun _ => sealedBlock }
  steps := { withoutQuote with
    sha256 := Sha256.hash
    createReport := fun _ data => (0, data.1)
    quoteSize := (0, 0, 1020)
    getQuote := quoteOfData }
  con := { plainSession with keypair := some shortKey.text, nonce := filledArray.1 }

/-- The daemon gets the block in one part. -/
def attestedConnection : Tpmdaemon.Connection where
  arrivals := [.bytes (attestHead attestedEnclave.calls sealedBlock ++ sealedBlock)]
  mem := fun _ => clearMemory
  measured := workingDaemon.measured
  unmeasured := workingDaemon.unmeasured
  calls := fun _ => workingDaemon

/-- A host with a registered quote over PCR 10, for which the marshalled quote is the extra data. -/
def registeredHost : HostEnv Unit :=
  { hostRefusing with tss2 := plainTss2, regQuote := wholeFile (List.replicate 32 0) }

def attestingServer : CertEnv :=
  { refusingServer with
    x509VerifyCert := 1
    verifyEnv := { verifyingEnclave with
      ocallVerifyTpm2Quote := fun sertpm2 nonce =>
        match ocallVerifyTpm2Quote registeredHost sertpm2 nonce with
        | .ok orc => (0, orc)
        | .error _ => (1, 0) } }

theorem quoteOfData_report (data : ByteBuf 64) : QuoteOfReport (quoteOfData data.1 1020).buf.1 data := by
  have hdata := data.2
  have hlength : (quoteBytes data.1).length = UInt32.toNat 1020 := by
    rw [quoteBytes, List.length_append, List.length_append, List.length_replicate, List.length_replicate, hdata]
    decide
  have hquote : (quoteOfData data.1 1020).buf.1 = quoteBytes data.1 := congrArg Subtype.val (dif_pos hlength)
  rw [hquote]
  constructor
  · have hzeros : List.replicate 368 (0 : UInt8) =
        List.replicate 4 0 ++ List.replicate 4 0 ++ List.replicate 360 0 := by
      rw [List.replicate_append_replicate, List.replicate_append_replicate]
    refine ⟨List.replicate 4 0, ?_, by decide⟩
    rw [quoteBytes, hzeros, List.append_assoc, List.append_assoc]
    exact readRange_append (List.replicate 4 0) (List.replicate 4 0) _
  · have hread := readRange_append (List.replicate 368 0) data.1 (List.replicate 588 0)
    rw [List.length_replicate, hdata] at hread
    exact hread

theorem attestedEnclave_works : attestedEnclave.Works Sha256.hash shortKey filledArray where
  load := load_encode_eq
  newMap := rfl
  atflag := rfl
  digests := rfl
  keyCalls := ⟨⟨rfl, rfl, rfl, rfl, rfl, rfl, rfl⟩, ⟨(), rfl, rfl, by decide⟩, by decide, by decide, rfl⟩
  addQuote := by decide
  keypair := rfl
  nonce := rfl
  certifies := ⟨rfl, rfl, rfl, rfl, rfl, rfl⟩
  sha256 := rfl
  qeTargetInfo := ⟨rfl, rfl⟩
  createReport := fun _ _ => rfl
  quoteSize := ⟨rfl, rfl⟩
  mallocQuote := rfl
  getQuote := fun _ => rfl
  quoteOfReport := fun _ data => quoteOfData_report data
  quoteMin := by decide
  quoteMax := by decide
  pushed := ⟨rfl, rfl, rfl, rfl, rfl⟩
  newTag := rfl
  serialize := rfl

theorem attestingServer_works : ServerWorks Sha256.hash attestingServer registeredHost where
  codec := codec_encode
  enclave := enclave_works
  mallocOut := rfl
  supplementalStatus := rfl
  supplementalQrc := rfl
  mallocSup := rfl
  readRand := rfl
  ocall := by
    intro sertpm2 nonce orc horc
    simp only [attestingServer, horc]
  bioNew := rfl
  pemWrite := rfl
  mallocPub := rfl
  txt2obj := rfl
  x509VerifyCert := rfl

theorem registeredHost_recognises : Recognises registeredHost plainDaemon where
  load := fun _ rest hi => load_encode hi rest
  akPubkey := ⟨(), rfl⟩
  registered := by
    have hsame : compPcrSelection (quoteOfPcr10 []).quote.pcrSelect (quoteOfPcr10 []).quote.pcrSelect = .ok 0 := by
      decide
    have hread : ∀ (b : Bytes) (old : TpmsAttest), b.length = 32 → ∃ atst, plainTss2.unmarshalAttest b old = (0, atst) ∧
        atst.type = tpm2StAttestQuote ∧ atst.quote = (quoteOfPcr10 []).quote := fun _ _ h => ⟨_, dif_pos h, rfl, rfl⟩
    obtain ⟨regAtst, hreg, htype, hquote⟩ := hread (List.replicate 32 0) registeredHost.regAtst List.length_replicate
    refine ⟨_, regAtst, rfl, hreg, htype, fun d old => ?_⟩
    obtain ⟨atst, hatst, -, hquote'⟩ := hread d.1 old d.2
    refine ⟨atst, hatst, ?_⟩
    rw [SamePcrSelection, hquote, hquote']
    exact compPcrSelection_eq_zero_iff.1 hsame
  rsa := plain_honest.rsa

theorem workingDaemon_attests : Succeeds Sha256.hash workingDaemon (.attest sealedBlock) where
  quote := ⟨filledArray, ByteBuf.zero 32, ⟨rfl, rfl⟩, rfl, workingDaemon_quoteSucceeds _ _ _⟩
  reply := ⟨rfl, by decide, by decide, rfl⟩

/-- The certificate of the enclave is admitted. -/
theorem attestedEnclave_admitted :
    ∃ r apphash tpm2Quote,
      EndsIn (fun fuel => serveLoop Sha256.hash .sgx List.length attestedConnection fuel 0 attestedConnection.arrivals)
        (· = ([r], -1)) ∧
      attestedConnection.measured = some apphash ∧
      Attests Sha256.hash (attestedConnection.env 0) filledArray apphash tpm2Quote ∧
      ∀ back, Carries back (replyWire r) →
        EndsIn
          (fun fuel => attestedEnclave.makeCertificate Sha256.hash fuel shortKey.text filledArray.1 back) fun cert =>
          ∃ extensions, cert = some extensions ∧ (∃ exts, List.Forall₂ Written extensions exts) ∧
            ∀ exts, List.Forall₂ Written extensions exts → ∃ call, verify attestingServer 0
              ⟨some ⟨some shortKey.text, exts⟩, some ⟨⟨filledArray.1, by decide⟩, ⟨filledArray.1, by decide⟩⟩, 0,
                x509VErrDepthZeroSelfSignedCert⟩ .serverside (ByteBuf.zero 32) = .ok (1, call) :=
  attestedCertificate_admitted Sha256.hash List.length attestedConnection plainDaemon attestedEnclave attestingServer
    registeredHost shortKey filledArray ⟨⟨filledArray.1, by decide⟩, ⟨filledArray.1, by decide⟩⟩ (ByteBuf.zero 32)
    attestedEnclave_works attestingServer_works registeredHost_recognises ⟨editorDaemon_madeBy.quote, rfl⟩
    workingDaemon_attests ⟨rfl, rfl⟩ (Nat.le_refl _) ⟨by decide, by decide, _, [], rfl⟩
    (.single (List.append_ne_nil_of_right_ne_nil _ (List.cons_ne_nil _ _))) (fun _ _ => rfl) rfl (by decide)
    (fun _ h => h)

end PortableTlsRa.Libtlsra
