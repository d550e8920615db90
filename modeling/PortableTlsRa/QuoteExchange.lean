import PortableTlsRa.HostTpm2
import PortableTlsRa.MeasureExchange
import PortableTlsRa.QuoteFetch

/-!
# A quote, from the daemon to the hosts

`tpmddaemon` answers a sealed nonce with a packet that holds the nonce and the bundle of a TPM quote, and
`ocall_make_tpm2_quote_via_daemon` gives its enclave the bundle with the size of the packet, so that bytes of its buffer
count as a part of the bundle.  A packet fits every buffer it comes into (`attestPacket_length_le`), and a host that
checks the bundle takes no notice of what follows it (`ocallVerifyTpm2Quote_attested`).
-/

namespace PortableTlsRa

open CSem Cbor Tpmdaemon

/-! ### The packet of the daemon -/

section

variable {sha256 : Bytes → ByteBuf 32} {env : RequestEnv} {nonce apphash : ByteBuf 32} {tpm2Quote sealedNonce : Bytes}

/-- A short byte string under a short name. -/
theorem encodePair_short_length {name data : Bytes} (hname : name.length < 2 ^ 16) (hdata : data.length < 2 ^ 16) :
    (encodePair (.text name, .bytes data)).length ≤ 6 + name.length + data.length := by
  have hhead : ∀ major n, n < 2 ^ 16 → (putHead major (widthOf n) n).length ≤ 3 := by
    intro major n hn
    unfold putHead widthOf
    split_ifs <;> simp_all [Width.bytes, bigEndian_length]
  have htext := hhead 3 name.length hname
  have hbytes := hhead 2 data.length hdata
  simp only [encodePair.eq_def, encode.eq_def, List.length_append]
  omega

/-- The bundle of a quote is small. -/
theorem encode_quoteBundle_length (quote : Tpm2Quote) (apphash : ByteBuf 32) :
    (encode (.map true (quoteBundle quote apphash))).length ≤ 842 := by
  have hquote := quote.quote.2
  have hsign := quote.sign.2
  have happhash := apphash.2
  have h₁ := @encodePair_short_length (lit "quote") quote.quote.1 (by decide) (by omega)
  have h₂ := @encodePair_short_length (lit "sign") quote.sign.1 (by decide) (by omega)
  have h₃ := @encodePair_short_length (lit "app-hash") apphash.1 (by decide) (by omega)
  have hnames : (lit "quote").length = 5 ∧ (lit "sign").length = 4 ∧ (lit "app-hash").length = 8 := by decide
  have hhead : (putHead 5 (widthOf 3) 3).length = 1 := by decide
  rw [encode.eq_def]
  simp only [quoteBundle, PortableTlsRa.addCborMap, List.nil_append, List.cons_append, encodePairs.eq_def,
    List.length_append, List.length_cons, List.length_nil, Nat.zero_add, Nat.reduceAdd, hhead]
  omega

/-- So is the packet that it comes in. -/
theorem attestPacket_length_le (h : Attests sha256 env nonce apphash tpm2Quote) :
    (encode (.map true (attestPairs nonce.1 tpm2Quote))).length ≤ 1000 := by
  obtain ⟨quote, -, rfl⟩ := h
  have hbundle := encode_quoteBundle_length quote apphash
  have hnonce := nonce.2
  have h₁ := @encodePair_short_length (lit "nonce") nonce.1 (by decide) (by omega)
  have h₂ := @encodePair_short_length (lit "tpm2_quote") (encode (.map true (quoteBundle quote apphash))) (by decide)
    (by omega)
  have hnames : (lit "nonce").length = 5 ∧ (lit "tpm2_quote").length = 10 := by decide
  have hhead : (putHead 5 (widthOf 2) 2).length = 1 := by decide
  rw [encode.eq_def]
  simp only [attestPairs, PortableTlsRa.addCborMap, List.nil_append, List.cons_append, encodePairs.eq_def,
    List.length_append, List.length_cons, List.length_nil, Nat.zero_add, Nat.reduceAdd, hhead]
  omega

/-- Where nothing fails the payload holds the unsealed nonce and a quote over it. -/
theorem tpmddaemon_attest (hsucceeds : Succeeds sha256 env (.attest sealedNonce))
    (hnonce : NonceOf env (.attest sealedNonce) nonce) :
    ∃ r apphash tpm2Quote, tpmddaemon sha256 env (.attest sealedNonce) = .ok r ∧ env.measured = some apphash ∧
      Attests sha256 env nonce apphash tpm2Quote ∧ r.data = encode (.map true (attestPairs nonce.1 tpm2Quote)) ∧
      r.len = UInt32.ofNat r.data.length := by
  obtain ⟨r, hr, nonce', apphash, tpm2Quote, hnonce', happ, hdata, hattests⟩ := tpmddaemon_of_succeeds hsucceeds
  obtain rfl : nonce = nonce' :=
    Except.ok.inj ((unsealNonce_of_nonceOf hnonce).symm.trans (unsealNonce_of_nonceOf hnonce'))
  have hne : r.data ≠ [] := by
    rw [hdata]
    exact encode_map_ne_nil _ _
  have hreply := hr
  rw [tpmddaemon, bind_eq_ok] at hreply
  obtain ⟨unsealed, -, hreply⟩ := hreply
  obtain ⟨⟨rc, buf, size⟩, -, hreply⟩ := bind_eq_ok.1 hreply
  exact ⟨r, apphash, tpm2Quote, hr, happ, hattests, hdata, (reply_length_eq hreply hne).2.2⟩

/-- The request of the host is a packet. -/
def sealedRequest (calls : RequestCalls) (sealedNonce : Bytes) (h : sealedNonce.length ≤ 1024) : WellFormedPacket where
  head := ⟨tpmdReqAttest, calls.aux, UInt32.ofNat sealedNonce.length⟩
  data := sealedNonce
  length_eq := (UInt32.toNat_ofNat_of_lt' (Nat.lt_of_le_of_lt h (by decide))).symm

/-- One request and the end of the stream: the daemon sends one reply. -/
theorem serveLoop_sealedRequest {sealedReads : Bytes → Nat} {calls : RequestCalls} {c : Tpmdaemon.Connection}
    {r : Tpmdaemon.TpmdPacket} (hsize : sealedNonce.length ≤ 1024) (hmem : ∀ i, (c.mem i).Works)
    (hcon : Carries c.arrivals (attestHead calls sealedNonce ++ sealedNonce))
    (hreads : sealedReads sealedNonce ≤ sealedNonce.length)
    (hr : tpmddaemon sha256 (c.env 0) (.attest sealedNonce) = .ok r) {fuel : Nat} (hfuel : fuel ≥ 1041) :
    serveLoop sha256 .sgx sealedReads c fuel 0 c.arrivals = some (.ok ([r], -1)) := by
  have hwire : attestHead calls sealedNonce ++ sealedNonce =
      [sealedRequest calls sealedNonce hsize].flatMap WellFormedPacket.wire ++ [] := by
    rw [List.append_nil, List.flatMap_singleton]
    rfl
  have hlength : ([sealedRequest calls sealedNonce hsize].flatMap WellFormedPacket.wire).length ≤ 1032 := by
    rw [List.flatMap_singleton, WellFormedPacket.wire_length]
    exact Nat.add_le_add_left hsize 8
  rw [hwire] at hcon
  have hsends : Sends c [sealedRequest calls sealedNonce hsize] [] := ⟨hcon, .inl (Nat.zero_lt_succ 7)⟩
  have hpacket : handlePacket sha256 .sgx sealedReads (c.env 0) (sealedRequest calls sealedNonce hsize).toTpmdPacket =
      .ok (some r) := by
    rw [handlePacket_sealed ⟨rfl, rfl⟩ fun _ => hreads]
    exact congrArg (fun x : Checked Tpmdaemon.TpmdPacket => some <$> x) hr
  have hanswers : answers sha256 .sgx sealedReads c 0
      ([sealedRequest calls sealedNonce hsize].map (·.toTpmdPacket)) = .ok [r] := by
    simp only [List.map_cons, List.map_nil, answers, hpacket, ok_bind]
    rfl
  rw [serveLoop_sends hmem hsends (by omega), hanswers, checked_ok_bind, if_pos (.inl rfl)]

/-! ### The host of the enclave -/

/-- The host has a connection and has sent its request. -/
structure AsksQuote (calls : RequestCalls) (sealedNonce : Bytes) : Prop where
  nonceSize : sealedNonce.length ≤ 1024
  connected : ¬ calls.con < 0
  sent : ∃ wire rest, sockSendOn (8 + sealedNonce.length) (attestHead calls sealedNonce ++ sealedNonce) calls.written =
    some (.ok (0, wire, rest))

theorem AsksQuote.requestSent {calls : RequestCalls} (h : AsksQuote calls sealedNonce) :
    RequestSent calls sealedNonce := by
  obtain ⟨wire, rest, hsent⟩ := h.sent
  refine ⟨h.nonceSize, h.connected, ?_⟩
  rintro ⟨wire', rest', hrefused⟩
  cases hsent.symm.trans hrefused

/-- The host gives the enclave the quote and what follows it in its buffer, with the size of the packet. -/
theorem ocallMakeTpm2QuoteViaDaemon_attested {cbor : Libcbor} {mem : FetchMemory} {calls : RequestCalls}
    {tpm2Serial : ByteBuf 1024} {back : List Arrival} {r : Tpmdaemon.TpmdPacket}
    (hload : ∀ i, Serializable i → cbor.load (encode i) = some i) (hasks : AsksQuote calls sealedNonce)
    (hback : Carries back (replyWire r)) (hattests : Attests sha256 env nonce apphash tpm2Quote)
    (hdata : r.data = encode (.map true (attestPairs nonce.1 tpm2Quote)))
    (hlen : r.len = UInt32.ofNat r.data.length) :
    ∀ fuel ≥ 1024, ocallMakeTpm2QuoteViaDaemon cbor mem fuel calls sealedNonce tpm2Serial.1 back =
      some (.ok (some (tpm2Quote ++ tpm2Serial.1.drop tpm2Quote.length, r.data.length))) := by
  have hsize := attestPacket_length_le hattests
  have hquoteSize := length_lt_of_attestPairs nonce.1 tpm2Quote
  rw [← hdata] at hsize hquoteSize
  have hserial := tpm2Serial.2
  have hserializable : Serializable (.map true (attestPairs nonce.1 tpm2Quote)) := by
    refine serializable_namedBytes (n := 10) (k := 1024) (by decide) (by decide) (show 2 < 2 ^ 64 by decide) ?_
    intro pair hpair
    have hnonce := nonce.2
    rcases List.mem_pair.1 hpair with rfl | rfl
    · exact ⟨_, _, rfl, by decide, by omega⟩
    · exact ⟨_, _, rfl, by decide, by omega⟩
  have hreply : AttestReply cbor r.data (some tpm2Quote) := by
    rw [hdata]
    exact attestReply_of_attestPairs (hload _ hserializable)
  have hhead : r.data.length = r.len.toNat := by
    rw [hlen]
    exact (UInt32.toNat_ofNat_of_lt' (Nat.lt_of_le_of_lt hsize (by decide))).symm
  have hends : sockSendOn (8 + sealedNonce.length) (attestHead calls sealedNonce ++ sealedNonce) calls.written ≠
      none := by
    obtain ⟨wire, rest, hsent⟩ := hasks.sent
    rw [hsent]
    exact nofun
  intro fuel hfuel
  rcases ocallMakeTpm2QuoteViaDaemon_cases cbor mem tpm2Serial.1 back hends with ⟨hnot, -⟩ | ⟨-, hrun⟩
  · exact absurd hasks.requestSent hnot
  · have hcarries : Carries back (tpmdHead.encode ⟨r.cmd, r.aux, r.len⟩ ++ (r.data ++ [])) := by
      rw [List.append_nil]
      exact hback
    have hreceived := receiveQuote_eq cbor mem calls sealedNonce tpm2Serial.1 hcarries hhead hreply.ne_nil
      (by rw [← hhead]; omega) fuel (by rw [← hhead]; omega)
    have htake : (r.data ++ mem.buf.1.drop r.len.toNat).take r.len.toNat = r.data := List.take_left' hhead
    have hwrite : writeRange tpm2Serial.1 0 tpm2Quote =
        .ok (tpm2Quote ++ tpm2Serial.1.drop tpm2Quote.length) := by
      rw [writeRange, if_pos (by omega), List.take_zero, List.nil_append, Nat.zero_add]
    have hread : readBytes (some tpm2Quote) (fetchedSize mem (some tpm2Quote)) = .ok tpm2Quote :=
      readBytes_self tpm2Quote
    have hfits : ¬ tpm2Serial.1.length < fetchedSize mem (some tpm2Quote) := by
      show ¬ tpm2Serial.1.length < tpm2Quote.length
      omega
    rw [hrun, hreceived, extractQuote_eq (htake.symm ▸ hreply), if_neg hfits, hread, ok_bind, hwrite, ok_bind, hhead]
    rfl

end

/-! ### The host of the server -/

section

variable {PKey : Type} {sha256 : Bytes → ByteBuf 32} {env : RequestEnv} {daemon : DaemonEnv} {host : HostEnv PKey}
  {nonce apphash : ByteBuf 32} {tpm2Quote : Bytes}

/-- The host has a key, and a registered quote over the registers of the TPM, which signs with an RSA key; of what
follows an item libcbor takes no notice. -/
structure Recognises (host : HostEnv PKey) (daemon : DaemonEnv) : Prop where
  load : ∀ i rest, Serializable i → host.cbor.load (encode i ++ rest) = some i
  akPubkey : ∃ akPubkey, host.readAkPubkey = some akPubkey
  registered : ∃ serQt regAtst, host.readRegQuote = some serQt ∧
    host.tss2.unmarshalAttest serQt host.regAtst = (0, regAtst) ∧ regAtst.type = tpm2StAttestQuote ∧
    ∀ d old, ∃ atst, host.tss2.unmarshalAttest (daemon.makeTpm2Quote d).2.quote.1 old = (0, atst) ∧
      SamePcrSelection atst regAtst
  rsa : ∀ d old, (host.tss2.unmarshalSignature (daemon.makeTpm2Quote d).2.sign.1 old).2.sigAlg ≠ Tpm2Alg.ecdsa

/-- The bundle of the daemon is accepted whatever follows it. -/
theorem ocallVerifyTpm2Quote_attested (hrecognises : Recognises host daemon) (hmade : MadeBy env daemon)
    (hattests : Attests sha256 env nonce apphash tpm2Quote) (rest : Bytes) (nonce' : ByteBuf 32) :
    ∃ orc, ocallVerifyTpm2Quote host (tpm2Quote ++ rest) nonce' = .ok orc ∧ 0 ≤ orc := by
  obtain ⟨quote, hquote, rfl⟩ := hattests
  obtain ⟨akPubkey, hkey⟩ := hrecognises.akPubkey
  obtain ⟨serQt, regAtst, hread, hreg, htype, hpcrs⟩ := hrecognises.registered
  obtain ⟨atst, hatst, hsame⟩ := hpcrs (sha256 (join32 apphash nonce)) host.tpmAtst
  have halg := hrecognises.rsa (sha256 (join32 apphash nonce)) host.tpmSig
  rw [hmade.quote _ _ hquote] at hatst halg
  have hload := hrecognises.load _ rest (serializable_quoteBundle quote apphash)
  have hloop : forEach (hostBundleTurn host) ⟨none, none, host.tpmAtst, host.tpmSig⟩ (quoteBundle quote apphash) =
      .ok (.next ⟨some quote.quote.1, some apphash.1, atst,
        (host.tss2.unmarshalSignature quote.sign.1 host.tpmSig).2⟩) := by
    have hsign : strncmpEq (lit "quote") (lit "sign") = false := by decide
    have happ : strncmpEq (lit "quote") (lit "app-hash") = false := by decide
    have happ' : strncmpEq (lit "sign") (lit "app-hash") = false := by decide
    simp [quoteBundle, PortableTlsRa.addCborMap, forEach, hostBundleTurn, Item.isString, Item.stringBytes,
      Libcbor.bytestring, hatst, hsign, happ, happ']
  exact ocallVerifyTpm2Quote_accepts_iff.2
    ⟨_, akPubkey, serQt, ⟨⟨true, _, hload, hloop⟩, hkey, hread⟩, fun hfreed => halg hfreed.1,
      .inl ⟨regAtst, hreg, htype, hsame⟩⟩

end

end PortableTlsRa
