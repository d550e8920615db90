import PortableTlsRa.ConfRegistration
import PortableTlsRa.DaemonService
import PortableTlsRa.MeasureRequest

/-!
# One measurement, from the client to the daemon and back

The two programs on the two ends of a socket: `pica_request_measure` sends a nonce, the loop of `tpmddaemon` answers
it, and what comes back is verified and decoded.  The bytes may be split in any way in both directions.  With a TPM that
the client recognises the daemon sends one reply, which `pica_verify_tpm2all` accepts, and which decodes to the
processes that were measured; it is in the buffer of the client exactly when there is room for it
(`measurement_arrives_iff`).
-/

namespace PortableTlsRa

open CSem Cbor Tpmdaemon

/-- The quotes of the daemon are made by this TPM, and its maps are serialised by libcbor. -/
structure MadeBy (env : RequestEnv) (daemon : DaemonEnv) : Prop where
  quote : ∀ d quote, env.QuoteMade d quote → (daemon.makeTpm2Quote d).2 = quote
  serialize : daemon.serialize = encode

/-- The bytes of a reply on the wire. -/
def replyWire (r : Tpmdaemon.TpmdPacket) : Bytes := tpmdHead.encode ⟨r.cmd, r.aux, r.len⟩ ++ r.data

variable {sha256 : Bytes → ByteBuf 32} {env : RequestEnv} {daemon : DaemonEnv} {nonce : ByteBuf 32} {pica : Bytes}

/-! ### The reply of the daemon -/

/-- A reply with a payload states its length. -/
theorem reply_length_eq {cmd cmdErr : UInt16} {entries : List Entry} {r : Tpmdaemon.TpmdPacket}
    (h : reply env cmd cmdErr entries = .ok r) (hdata : r.data ≠ []) :
    r.cmd = cmd ∧ r.aux = Tpmdaemon.tpmdAuxOk ∧ r.len = UInt32.ofNat r.data.length := by
  rw [reply, bind_eq_ok] at h
  obtain ⟨map, -, h⟩ := h
  cases map with
  | none =>
    cases h
    exact absurd rfl hdata
  | some map =>
    dsimp only at h
    split_ifs at h
    · cases h
      exact absurd rfl hdata
    · cases h
      exact ⟨rfl, rfl, rfl⟩

/-- Where nothing fails the payload is that of an honest daemon with the TPM. -/
theorem tpmddaemon_honestPayload (hsucceeds : Succeeds sha256 env (.pica nonce)) (hmade : MadeBy env daemon)
    (hpica : env.procchain = some pica) :
    ∃ r, tpmddaemon sha256 env (.pica nonce) = .ok r ∧ r.data = honestPayload sha256 daemon nonce pica ∧
      r.cmd = Tpmdaemon.tpmdRplPica ∧ r.aux = Tpmdaemon.tpmdAuxOk ∧ r.len = UInt32.ofNat r.data.length := by
  obtain ⟨r, hr, nonce', apphash, tpm2Quote, hnonce, happ, ⟨pica', hpica', hdata⟩, quote, hquote, rfl⟩ :=
    tpmddaemon_of_succeeds hsucceeds
  obtain ⟨-, -, pica'', hpica'', rfl⟩ := happ
  obtain rfl : nonce = nonce' := hnonce.symm
  obtain rfl : pica = pica' := Option.some.inj (hpica.symm.trans hpica')
  obtain rfl : pica = pica'' := Option.some.inj (hpica.symm.trans hpica'')
  have hne : r.data ≠ [] := by
    rw [hdata]
    exact encode_map_ne_nil _ _
  have hhonest : r.data = honestPayload sha256 daemon nonce pica := by
    rw [hdata, honestPayload, honestBundle, hmade.serialize, extendedHash, HashBinding.bound, hmade.quote _ _ hquote]
  have hreply := hr
  rw [tpmddaemon, bind_eq_ok] at hreply
  obtain ⟨⟨buf, size⟩, -, hreply⟩ := hreply
  exact ⟨r, hr, hhonest, reply_length_eq hreply hne⟩

/-- The request is a packet with the nonce as its payload. -/
def nonceRequest (calls : RequestCalls) (nonce : ByteBuf 32) : WellFormedPacket where
  head := ⟨tpmdReqPica, calls.aux, 32⟩
  data := nonce.1
  length_eq := nonce.2

theorem readNonce_nonce (nonce : ByteBuf 32) : readNonce nonce.1 = .ok nonce := by
  have hlength : 32 ≤ nonce.1.length := Nat.le_of_eq nonce.2.symm
  rw [readNonce, dif_pos hlength]
  refine congrArg Except.ok (Subtype.ext ?_)
  exact List.take_of_length_le (Nat.le_of_eq nonce.2)

theorem handlePacket_nonceRequest {build : Build} {sealedReads : Bytes → Nat} {calls : RequestCalls}
    {r : Tpmdaemon.TpmdPacket} (hr : tpmddaemon sha256 env (.pica nonce) = .ok r) :
    handlePacket sha256 build sealedReads env (nonceRequest calls nonce).toTpmdPacket = .ok (some r) := by
  rw [handlePacket_pica rfl (readNonce_nonce nonce), hr]
  rfl

/-- One request and the end of the stream: the daemon sends one reply. -/
theorem serveLoop_nonceRequest {build : Build} {sealedReads : Bytes → Nat} {calls : RequestCalls}
    {c : Tpmdaemon.Connection} {r : Tpmdaemon.TpmdPacket} (hmem : ∀ i, (c.mem i).Works)
    (hcon : Carries c.arrivals (requestPacket calls nonce)) (hr : tpmddaemon sha256 (c.env 0) (.pica nonce) = .ok r)
    {fuel : Nat} (hfuel : fuel ≥ 49) :
    serveLoop sha256 build sealedReads c fuel 0 c.arrivals = some (.ok ([r], -1)) := by
  have hwire : requestPacket calls nonce = [nonceRequest calls nonce].flatMap WellFormedPacket.wire ++ [] := by
    rw [List.append_nil, List.flatMap_singleton]
    rfl
  have hlength : ([nonceRequest calls nonce].flatMap WellFormedPacket.wire).length = 40 := by
    rw [← List.append_nil (List.flatMap _ _), ← hwire, requestPacket_length]
  rw [hwire] at hcon
  have hsends : Sends c [nonceRequest calls nonce] [] := ⟨hcon, .inl (Nat.zero_lt_succ 7)⟩
  have hanswers : answers sha256 build sealedReads c 0 ([nonceRequest calls nonce].map (·.toTpmdPacket)) = .ok [r] := by
    simp only [List.map_cons, List.map_nil, answers, handlePacket_nonceRequest hr, ok_bind]
    rfl
  rw [serveLoop_sends hmem hsends (by omega), hanswers, checked_ok_bind, if_pos (.inl rfl)]

/-! ### The buffer of the client -/

section

variable {calls : RequestCalls} {measure : Bytes} {msz sz : Nat} {con : List Arrival} {r : Tpmdaemon.TpmdPacket}

/-- The payload is in the buffer, and nothing else is said to be. -/
def InBuffer (data : Bytes) (out : Int × Bytes × Nat) : Prop := out.1 = 0 ∧ out.2.1.take out.2.2 = data

/-- Whatever arrives, the buffer keeps its size. -/
theorem receiveReply_length {fuel : Nat} {out : Int × Bytes × Nat}
    (h : receiveReply fuel calls measure msz sz con = some (.ok out)) : out.2.1.length = measure.length := by
  obtain ⟨⟨rc, head, con'⟩, -, h⟩ := running_bind_eq_ok.1 h
  dsimp only at h
  split_ifs at h
  · cases h
    rfl
  · rw [receiveMeasure] at h
    split_ifs at h
    · cases h
      rfl
    · obtain ⟨⟨rc', measure', con''⟩, hrecv, h⟩ := running_bind_eq_ok.1 h
      have hlength := sockRecvLoop_length hrecv
      dsimp only at h
      split_ifs at h
      · cases h
        exact hlength
      · cases h
        exact hlength

/-- A reply that comes as a whole is in the buffer exactly when there is room for it. -/
theorem receiveReply_inBuffer_iff (hcon : Carries con (replyWire r)) (hmeasure : measure.length = msz)
    (hmsz : msz < 2 ^ 32) (hlen : r.len = UInt32.ofNat r.data.length) (hdata : r.data ≠ []) :
    EndsIn (fun fuel => receiveReply fuel calls measure msz sz con) (InBuffer r.data) ↔ r.data.length ≤ msz := by
  constructor
  · rintro ⟨bound, hends⟩
    obtain ⟨out, hrun, -, hinBuffer⟩ := hends bound (Nat.le_refl bound)
    rw [← hinBuffer, ← hmeasure, ← receiveReply_length hrun]
    exact List.length_take_le' _ _
  · intro hroom
    have hhead : (requestHead calls).length = 8 := tpmdHead_encode_length _
    have hwire : (tpmdHead.encode ⟨r.cmd, r.aux, r.len⟩).length = 8 := tpmdHead_encode_length _
    have henough : 8 ≤ (replyWire r).length := by
      rw [replyWire, List.length_append]
      omega
    have hsize : r.len.toNat = r.data.length := by
      rw [hlen]
      exact UInt32.toNat_ofNat_of_lt' (Nat.lt_of_le_of_lt hroom hmsz)
    obtain ⟨con', hrun, hcon'⟩ := sockRecv_within hcon (by decide) henough (Nat.le_of_eq hhead.symm)
    rw [replyWire, List.drop_left' hwire] at hcon'
    have hturn : ∀ fuel ≥ 8, receiveReply fuel calls measure msz sz con =
        receiveMeasure fuel 0 ⟨r.cmd, r.aux, r.len⟩ measure msz sz con' := by
      intro fuel hfuel
      rw [receiveReply, running_ok_bind (hrun fuel hfuel), List.drop_eq_nil_of_le (Nat.le_of_eq hhead),
        List.append_nil, replyWire, List.take_left' hwire]
      dsimp only
      rw [tpmdHead.decode_encode]
      rfl
    have hpos : 0 < r.len.toNat := hsize ▸ List.length_pos_iff.2 hdata
    have hreturns : ∀ fuel ≥ r.len.toNat, receiveMeasure fuel 0 ⟨r.cmd, r.aux, r.len⟩ measure msz sz con' =
        some (.ok (0, r.data.take r.len.toNat ++ measure.drop r.len.toNat, r.len.toNat)) := fun _ hfuel =>
      receiveMeasure_received hcon' hmeasure (hsize ▸ hroom) hpos (Nat.le_of_eq hsize) hfuel
    rw [endsIn_congr hturn, endsIn_of_returns hreturns]
    refine ⟨rfl, ?_⟩
    rw [hsize, List.take_length]
    exact List.take_left

/-- The client has a connection and has sent its request. -/
structure Asks (calls : RequestCalls) (nonce : ByteBuf 32) : Prop where
  connected : ¬ calls.con < 0
  sent : ∃ wire rest, sockSendOn 40 (requestPacket calls nonce) calls.written = some (.ok (0, wire, rest))

theorem picaRequestMeasure_inBuffer_iff (hasks : Asks calls nonce) (hcon : Carries con (replyWire r))
    (hmeasure : measure.length = msz) (hmsz : msz < 2 ^ 32) (hlen : r.len = UInt32.ofNat r.data.length)
    (hdata : r.data ≠ []) :
    EndsIn (fun fuel => picaRequestMeasure fuel calls nonce measure msz sz con) (InBuffer r.data) ↔
      r.data.length ≤ msz := by
  obtain ⟨wire, rest, hsent⟩ := hasks.sent
  have hturn : ∀ fuel ≥ 0, picaRequestMeasure fuel calls nonce measure msz sz con =
      receiveReply fuel calls measure msz sz con := by
    intro fuel _
    rw [picaRequestMeasure, if_neg hasks.connected, running_ok_bind hsent]
    rfl
  rw [endsIn_congr hturn]
  exact receiveReply_inBuffer_iff hcon hmeasure hmsz hlen hdata

end

/-! ### The exchange -/

/-- The processes from `pid` on are measured, and `mycbor_pack_procchain` has packed them. -/
structure Packs (env : RequestEnv) (table : Int → Measurement) (pid : Int) (chain : List Int) (pica : Bytes) :
    Prop where
  ancestors : AncestorChain table pid chain
  measurable : ∀ p ∈ chain, (table p).Measurable p
  packed : ∃ fuel ppid, chain.length ≤ fuel ∧
    mycborPackProcchain (fun _ => table) fuel pid ppid = some (.ok pica)
  procchain : env.procchain = some pica

theorem Packs.eq {table : Int → Measurement} {pid : Int} {chain : List Int} (h : Packs env table pid chain pica) :
    pica = encode (packedChain table chain) := by
  obtain ⟨fuel, ppid, hfuel, hpack⟩ := h.packed
  rw [mycborPackProcchain_chain h.ancestors h.measurable hfuel ppid] at hpack
  cases hpack
  rfl

section

variable {PKey : Type} {client : ClientEnv PKey} {key : PKey} {regAtst : TpmsAttest}

/-- What an honest daemon sends is no empty payload. -/
theorem honestPayload_ne_nil (hmade : MadeBy env daemon) : honestPayload sha256 daemon nonce pica ≠ [] := by
  rw [honestPayload, hmade.serialize]
  exact encode_map_ne_nil _ _

/-- What an honest daemon sends is accepted and decoded to the processes that were measured. -/
theorem Packs.accepted {table : Int → Measurement} {pid : Int} {chain : List Int}
    (hpacks : Packs env table pid chain pica) (honest : RsaAttester daemon client key regAtst)
    (hmade : MadeBy env daemon) (hpica : pica.length < 2 ^ 64) (sha256 : Bytes → ByteBuf 32) (nonce : ByteBuf 32)
    (untypedMap : Item → Checked (List (Item × Item))) (uninit : Nat → Nat → ByteBuf 32) :
    picaVerifyTpm2all sha256 client (honestPayload sha256 daemon nonce pica) nonce =
        .ok (VerifyFlag.tpm2Fresh ||| VerifyFlag.tpm2Quote, some pica) ∧
      picaExtractPinfo client.cbor untypedMap uninit pica =
        .ok (chain.length, some (chain.reverse.map fun p => (table p).procinfo p)) := by
  refine ⟨picaVerifyTpm2all_daemonReply sha256 nonce honest hpica nonce, ?_⟩
  have hload : ∀ item, Serializable item → client.cbor.load (encode item) = some item := by
    intro item hitem
    rw [← hmade.serialize]
    exact honest.load item hitem
  rw [hpacks.eq]
  exact picaExtractPinfo_packedChain untypedMap uninit hload hpacks.ancestors hpacks.measurable

/-- However the bytes are split on the way, a daemon with a TPM that the client recognises sends one reply, which the
client accepts and decodes to the processes that were measured, the requester last; the reply is in the buffer exactly
when there is room for it. -/
theorem measurement_arrives_iff (sha256 : Bytes → ByteBuf 32) (build : Build) (sealedReads : Bytes → Nat)
    (c : Tpmdaemon.Connection) (daemon : DaemonEnv) (client : ClientEnv PKey) (key : PKey) (regAtst : TpmsAttest)
    (untypedMap : Item → Checked (List (Item × Item))) (uninit : Nat → Nat → ByteBuf 32) (calls : RequestCalls)
    (nonce : ByteBuf 32) {msz : Nat} (measure : ByteBuf msz) (sz : Nat) (table : Int → Measurement) (pid : Int)
    (chain : List Int) (pica : Bytes)
    (honest : RsaAttester daemon client key regAtst) (hmade : MadeBy (c.env 0) daemon)
    (hpacks : Packs (c.env 0) table pid chain pica) (hpica : pica.length < 2 ^ 64)
    (hsucceeds : Succeeds sha256 (c.env 0) (.pica nonce)) (hasks : Asks calls nonce)
    (hcon : Carries c.arrivals (requestPacket calls nonce)) (hmem : ∀ i, (c.mem i).Works) (hmsz : msz < 2 ^ 32) :
    ∃ r, EndsIn (fun fuel => serveLoop sha256 build sealedReads c fuel 0 c.arrivals) (· = ([r], -1)) ∧
      (∀ back, Carries back (replyWire r) →
        (EndsIn (fun fuel => picaRequestMeasure fuel calls nonce measure.1 msz sz back) (InBuffer r.data) ↔
          r.data.length ≤ msz)) ∧
      picaVerifyTpm2all sha256 client r.data nonce = .ok (VerifyFlag.tpm2Fresh ||| VerifyFlag.tpm2Quote, some pica) ∧
      picaExtractPinfo client.cbor untypedMap uninit pica =
        .ok (chain.length, some (chain.reverse.map fun p => (table p).procinfo p)) := by
  obtain ⟨r, hr, hdata, -, -, hlen⟩ := tpmddaemon_honestPayload hsucceeds hmade hpacks.procchain
  have hne : r.data ≠ [] := by
    rw [hdata]
    exact honestPayload_ne_nil hmade
  refine ⟨r, ?_, ?_, ?_⟩
  · exact ⟨49, fun fuel hfuel => ⟨_, serveLoop_nonceRequest hmem hcon hr hfuel, rfl⟩⟩
  · intro back hback
    exact picaRequestMeasure_inBuffer_iff hasks hback measure.2 hmsz hlen hne
  · rw [hdata]
    exact hpacks.accepted honest hmade hpica sha256 nonce untypedMap uninit

end

/-! ### The editor asks -/

/-- The working daemon, where the editor asks. -/
def editorDaemon : RequestEnv :=
  { workingDaemon with procchain := some (encode (packedChain editorTable [20, 10])) }

theorem editorDaemon_succeeds (sha256 : Bytes → ByteBuf 32) (nonce : ByteBuf 32) :
    Succeeds sha256 editorDaemon (.pica nonce) := by
  have h := workingDaemon_quoteSucceeds sha256 nonce (sha256 (encode (packedChain editorTable [20, 10])))
  exact ⟨⟨nonce, _, rfl, ⟨rfl, rfl, _, rfl, rfl⟩, h.digestCalls, h.trSetAuth, h.quote, h.bundleMap, h.addQuote,
    h.addSign, h.addAppHash, h.bundleSerialize⟩, rfl, by decide, by decide, rfl⟩

theorem editorDaemon_madeBy : MadeBy editorDaemon plainDaemon where
  quote := by
    rintro d quote ⟨sig, ⟨⟨sigScheme, -, hquote⟩, -⟩, hsign⟩
    have hbytes : d.1 = quote.quote.1 := (Prod.mk.inj (Prod.mk.inj hquote).2).1
    have hsigned : (⟨[0], length_shortSignature⟩ : { s : Bytes // s.length ≤ 518 }) = quote.sign :=
      (Prod.mk.inj hsign).2
    obtain ⟨⟨bytes, hle⟩, sign⟩ := quote
    cases hbytes
    cases hsigned
    rfl
  serialize := rfl

theorem editorDaemon_packs :
    Packs editorDaemon editorTable 20 [20, 10] (encode (packedChain editorTable [20, 10])) where
  ancestors := editorTable_chain
  measurable := editorTable_measurable
  packed := ⟨2, 0, Nat.le_refl 2, mycborPackProcchain_chain editorTable_chain editorTable_measurable (Nat.le_refl 2) 0⟩
  procchain := rfl

/-- The request comes in two parts, the first of which ends inside the header. -/
def editorConnection : Tpmdaemon.Connection where
  arrivals := [.bytes [3, 0, 0], .bytes ([0, 32, 0, 0, 0] ++ List.replicate 32 0)]
  mem := fun _ => clearMemory
  measured := editorDaemon.measured
  unmeasured := editorDaemon.unmeasured
  calls := fun _ => editorDaemon

theorem editorConnection_carries :
    Carries editorConnection.arrivals (requestPacket ⟨3, [some 40], 0⟩ (ByteBuf.zero 32)) := by
  have hbytes : requestPacket ⟨3, [some 40], 0⟩ (ByteBuf.zero 32) =
      [3, 0, 0] ++ (([0, 32, 0, 0, 0] ++ List.replicate 32 0) ++ []) := by decide
  rw [hbytes]
  exact .chunk (by decide) (.chunk (by decide) .eof)

/-- The buffer is that of `main`. -/
theorem measurement_arrives_editor :
    ∃ r, EndsIn (fun fuel => serveLoop Sha256.hash .host List.length editorConnection fuel 0 editorConnection.arrivals)
        (· = ([r], -1)) ∧
      (∀ back, Carries back (replyWire r) →
        (EndsIn (fun fuel => picaRequestMeasure fuel ⟨3, [some 40], 0⟩ (ByteBuf.zero 32) (ByteBuf.zero 131072).1 131072
          131072 back) (InBuffer r.data) ↔ r.data.length ≤ 131072)) ∧
      picaVerifyTpm2all Sha256.hash plainClient r.data (ByteBuf.zero 32) =
        .ok (VerifyFlag.tpm2Fresh ||| VerifyFlag.tpm2Quote, some (encode (packedChain editorTable [20, 10]))) ∧
      picaExtractPinfo plainClient.cbor (fun _ => .error .nullPointer) (fun _ _ => ByteBuf.zero 32)
        (encode (packedChain editorTable [20, 10])) = .ok (2, some editorChain) :=
  measurement_arrives_iff Sha256.hash .host List.length editorConnection plainDaemon plainClient () (quoteOfPcr10 [])
    (fun _ => .error .nullPointer) (fun _ _ => ByteBuf.zero 32) ⟨3, [some 40], 0⟩ (ByteBuf.zero 32)
    (ByteBuf.zero 131072) 131072 editorTable 20 [20, 10] (encode (packedChain editorTable [20, 10])) plain_honest
    editorDaemon_madeBy editorDaemon_packs editorChain_size_lt (editorDaemon_succeeds Sha256.hash (ByteBuf.zero 32))
    ⟨by decide, _, [], rfl⟩ editorConnection_carries (fun _ _ => rfl) (by decide)

end PortableTlsRa
