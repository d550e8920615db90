import PortableTlsRa.DaemonReply
import PortableTlsRa.Framing

/-!
# The nonce of a packet

Which bytes `tpmddaemon` uses as the nonce of a request.  The length that the packet states is not compared with the 32
bytes of a nonce, and neither the codes of `ecall_unseal` nor the length of what it unseals are looked at, so that the
nonce is the one that was sent exactly when the client sent enough and the unsealing gave 32 bytes
(`usesOnlySent_iff`).
-/

namespace PortableTlsRa.Tpmdaemon

open CSem

def tpmdReqAttest : UInt16 := 0x0002
def tpmdReqPica : UInt16 := 0x0003

/-- With `SGXENV` the nonce of an attest request is sealed. -/
inductive Build where
  | host
  | sgx
deriving DecidableEq

/-- The 32 bytes at `&pktp->data[0]`. -/
def readNonce (data : Bytes) : Checked (ByteBuf 32) :=
  if h : 32 ≤ data.length then .ok ⟨data.take 32, by rw [List.length_take, Nat.min_eq_left h]⟩
  else .error .outOfBounds

section

variable (sha256 : Bytes → ByteBuf 32) (build : Build) (sealedReads : Bytes → Nat) (env : RequestEnv)

/-- What `unsealed` holds after the call of `ecall_unseal`, with what the SDK reads: `sealedReads` is how far it goes
into the block, by the sizes that the block states of itself. -/
def unsealPacket (data : Bytes) : Checked (ByteBuf 32) := do
  if env.ecall ≠ 0 then return env.unsealed
  let _ ← readRange data 0 (sealedReads data)
  unsealNonce env data

/-- The nonce that `make_tpm2_quote_with_pid` is given, with its size of 32, for a request that has one. -/
def takeNonce (pkt : PortableTlsRa.TpmdPacket) : Checked (Option (ByteBuf 32)) :=
  if pkt.head.cmd = tpmdReqAttest then
    match build with
    | .sgx => some <$> unsealPacket sealedReads env pkt.data
    | .host => some <$> readNonce pkt.data
  else if pkt.head.cmd = tpmdReqPica then some <$> readNonce pkt.data
  -- TPMD_REQ_HELLO, or an unknown command
  else return none

/-- The quote over the nonce, and the reply. -/
def answer (cmd : UInt16) (nonce : ByteBuf 32) : Checked TpmdPacket :=
  if cmd = tpmdReqAttest then do
    let (_, buf, size) ← makeTpm2QuoteWithPid sha256 env nonce env.apphash (toInt32 env.usize.toNat)
    replyAttest env nonce buf size
  else do
    let (buf, size) ← makeTpm2Pica sha256 env nonce
    replyPica env buf size env.procchain env.chainSize

/-- One turn of the inner loop of `tpmddaemon`: the packet that is sent, if any is. -/
def handlePacket (pkt : PortableTlsRa.TpmdPacket) : Checked (Option TpmdPacket) := do
  match ← takeNonce build sealedReads env pkt with
  | none => return none
  | some nonce => some <$> answer sha256 env pkt.head.cmd nonce

/-! ### What a request may use -/

/-- The nonce of an attest request is sealed. -/
def IsSealed (pkt : PortableTlsRa.TpmdPacket) : Prop := build = .sgx ∧ pkt.head.cmd = tpmdReqAttest

/-- The 32 bytes are the first of the payload, or are what it was successfully unsealed to. -/
def SentNonce (pkt : PortableTlsRa.TpmdPacket) (nonce : ByteBuf 32) : Prop :=
  (¬ IsSealed build pkt → nonce.1 = pkt.data.take 32) ∧
    (IsSealed build pkt → env.ecall = 0 ∧ env.decdata = true ∧ env.unsealData pkt.data = (0, nonce.1))

/-- No byte is read behind the payload or written behind `unsealed`, the nonce is one that was sent, and a request
without one gets an error. -/
structure UsesOnlySent (pkt : PortableTlsRa.TpmdPacket) : Prop where
  inside : ∀ f, takeNonce build sealedReads env pkt ≠ .error f
  nonce : ∀ nonce, takeNonce build sealedReads env pkt = .ok (some nonce) → SentNonce build env pkt nonce
  refusal : takeNonce build sealedReads env pkt = .ok none →
    ∃ r, handlePacket sha256 build sealedReads env pkt = .ok (some r) ∧ r.aux = tpmdAuxErr

/-- The sealed block is no shorter than it says, and is unsealed to 32 bytes. -/
structure SealsNonce (data : Bytes) : Prop where
  ecall : env.ecall = 0
  reads : sealedReads data ≤ data.length
  decdata : env.decdata = true
  status : (env.unsealData data).1 = 0
  length : (env.unsealData data).2.length = 32

end

variable {sha256 : Bytes → ByteBuf 32} {build : Build} {sealedReads : Bytes → Nat} {env : RequestEnv}
  {nonce : ByteBuf 32} {data : Bytes} {pkt : PortableTlsRa.TpmdPacket}

theorem map_some_eq_ok {α : Type} {x : Checked α} {r : Option α} :
    some <$> x = .ok r ↔ ∃ a, x = .ok a ∧ r = some a := by
  rw [map_eq_pure_bind, bind_eq_ok]
  simp only [pure_eq_ok, Except.ok.injEq, eq_comm]

theorem takeNonce_sealed (h : IsSealed build pkt) :
    takeNonce build sealedReads env pkt = some <$> unsealPacket sealedReads env pkt.data := by
  obtain ⟨rfl, hcmd⟩ := h
  exact if_pos hcmd

theorem takeNonce_plain (hcmd : pkt.head.cmd = tpmdReqAttest ∨ pkt.head.cmd = tpmdReqPica) (h : ¬ IsSealed build pkt) :
    takeNonce build sealedReads env pkt = some <$> readNonce pkt.data := by
  unfold takeNonce
  by_cases hattest : pkt.head.cmd = tpmdReqAttest
  · cases build with
    | sgx => exact absurd ⟨rfl, hattest⟩ h
    | host => exact if_pos hattest
  · rw [if_neg hattest, if_pos (hcmd.resolve_left hattest)]

/-- Every request gets to the quote with some nonce, or the way there leaves the payload or the buffer. -/
theorem takeNonce_request (hcmd : pkt.head.cmd = tpmdReqAttest ∨ pkt.head.cmd = tpmdReqPica)
    (hinside : ∀ f, takeNonce build sealedReads env pkt ≠ .error f) :
    ∃ nonce, takeNonce build sealedReads env pkt = .ok (some nonce) := by
  obtain ⟨x, hx⟩ : ∃ x, takeNonce build sealedReads env pkt = some <$> x := by
    by_cases hsealed : IsSealed build pkt
    · exact ⟨_, takeNonce_sealed hsealed⟩
    · exact ⟨_, takeNonce_plain hcmd hsealed⟩
  cases x with
  | error f => exact absurd hx (hinside f)
  | ok nonce => exact ⟨nonce, hx⟩

/-- What is unsealed to 32 bytes is the nonce. -/
theorem unsealPacket_of_seals (h : SealsNonce sealedReads env data) :
    unsealPacket sealedReads env data = .ok ⟨(env.unsealData data).2, h.length⟩ := by
  have hcopy : memcpy (ByteBuf.zero 32) (env.unsealData data).2 = _ := memcpy_of_length h.length
  rw [unsealPacket, if_neg (not_not.2 h.ecall), readRange, if_pos (by rw [Nat.zero_add]; exact h.reads), ok_bind]
  simp only [unsealNonce, ecallUnseal, h.ecall, h.decdata, h.status, ne_eq, not_true_eq_false, if_false, Bool.not_true,
    Bool.false_eq_true, hcopy, ok_bind, pure_eq_ok]

theorem reads_le_of_unsealPacket (h : unsealPacket sealedReads env data = .ok nonce) (hecall : env.ecall = 0) :
    sealedReads data ≤ data.length := by
  rw [unsealPacket, if_neg (not_not.2 hecall), bind_eq_ok] at h
  obtain ⟨block, hread, -⟩ := h
  unfold readRange at hread
  split_ifs at hread with hle
  rwa [Nat.zero_add] at hle

/-- A request is handled with what was sent alone exactly when its payload has the 32 bytes of a nonce, or seals
them. -/
theorem usesOnlySent_iff (sha256 : Bytes → ByteBuf 32) (build : Build) (sealedReads : Bytes → Nat) (env : RequestEnv)
    (pkt : WellFormedPacket) (hcmd : pkt.head.cmd = tpmdReqAttest ∨ pkt.head.cmd = tpmdReqPica) :
    UsesOnlySent sha256 build sealedReads env pkt.toTpmdPacket ↔
      (¬ IsSealed build pkt.toTpmdPacket → 32 ≤ pkt.head.len.toNat) ∧
        (IsSealed build pkt.toTpmdPacket → SealsNonce sealedReads env pkt.data) := by
  rw [← pkt.length_eq]
  constructor
  · intro h
    obtain ⟨nonce, htake⟩ := takeNonce_request hcmd h.inside
    obtain ⟨hplain, hunsealed⟩ := h.nonce nonce htake
    constructor
    · intro hsealed
      have hlength := congrArg List.length (hplain hsealed)
      rw [nonce.2, List.length_take] at hlength
      omega
    · intro hsealed
      obtain ⟨hecall, hdec, hdata⟩ := hunsealed hsealed
      rw [takeNonce_sealed hsealed, map_some_eq_ok] at htake
      obtain ⟨nonce', hunseal, -⟩ := htake
      exact ⟨hecall, reads_le_of_unsealPacket hunseal hecall, hdec, by rw [hdata], by rw [hdata]; exact nonce.2⟩
  · rintro ⟨hplain, hunsealed⟩
    by_cases hsealed : IsSealed build pkt.toTpmdPacket
    · have hseals := hunsealed hsealed
      have htake : takeNonce build sealedReads env pkt.toTpmdPacket =
          .ok (some ⟨(env.unsealData pkt.data).2, hseals.length⟩) := by
        rw [takeNonce_sealed hsealed, unsealPacket_of_seals hseals]
        rfl
      refine ⟨by rw [htake]; nofun, ?_, by rw [htake]; nofun⟩
      intro nonce hnonce
      rw [htake] at hnonce
      cases hnonce
      exact ⟨absurd hsealed, fun _ => ⟨hseals.ecall, hseals.decdata, Prod.ext hseals.status rfl⟩⟩
    · have hlength := hplain hsealed
      have htake : takeNonce build sealedReads env pkt.toTpmdPacket = .ok (some
          ⟨pkt.data.take 32, by rw [List.length_take, Nat.min_eq_left hlength]⟩) := by
        rw [takeNonce_plain hcmd hsealed, readNonce, dif_pos hlength]
        rfl
      refine ⟨by rw [htake]; nofun, ?_, by rw [htake]; nofun⟩
      intro nonce hnonce
      rw [htake] at hnonce
      cases hnonce
      exact ⟨fun _ => rfl, fun h => absurd h hsealed⟩

theorem usesOnlySent_fullNonce :
    UsesOnlySent (fun _ => ByteBuf.zero 32) .host List.length workingDaemon
        ⟨⟨tpmdReqPica, 0, 32⟩, List.replicate 32 7⟩ ↔
      (¬ IsSealed .host ⟨⟨tpmdReqPica, 0, 32⟩, List.replicate 32 7⟩ → 32 ≤ (32 : UInt32).toNat) ∧
        (IsSealed .host ⟨⟨tpmdReqPica, 0, 32⟩, List.replicate 32 7⟩ →
          SealsNonce List.length workingDaemon (List.replicate 32 7)) :=
  usesOnlySent_iff (fun _ => ByteBuf.zero 32) .host List.length workingDaemon
    ⟨⟨⟨tpmdReqPica, 0, 32⟩, List.replicate 32 7⟩, rfl⟩ (.inr rfl)

/-- After a failure in the enclave the nonce is what the buffer for it is cleared to. -/
theorem unsealPacket_of_status (hecall : env.ecall = 0) (hreads : sealedReads data ≤ data.length)
    (hstatus : (env.unsealData data).1 ≠ 0) : unsealPacket sealedReads env data = .ok (ByteBuf.zero 32) := by
  rw [unsealPacket, if_neg (not_not.2 hecall), readRange, if_pos (by rwa [Nat.zero_add]), ok_bind]
  cases hdec : env.decdata with
  | false => simp only [unsealNonce, ecallUnseal, hecall, hdec, ne_eq, not_true_eq_false, if_false, Bool.not_false,
      if_true, pure_eq_ok, ok_bind]
  | true => simp only [unsealNonce, ecallUnseal, hecall, hdec, hstatus, ne_eq, not_true_eq_false, not_false_eq_true,
      if_false, Bool.not_true, Bool.false_eq_true, if_true, pure_eq_ok, ok_bind]

/-- A request without payload, and a block that the enclave refuses. -/
theorem emptyRequest_refusedBlock_not_onlySent :
    (¬ ∃ sha256, UsesOnlySent sha256 .host List.length workingDaemon ⟨⟨tpmdReqPica, 0, 0⟩, []⟩) ∧
      ¬ ∃ sha256, UsesOnlySent sha256 .sgx List.length { workingDaemon with unsealData := fun _ => (0x3001, []) }
        ⟨⟨tpmdReqAttest, 0, 32⟩, List.replicate 32 7⟩ := by
  constructor
  · rintro ⟨sha256, h⟩
    exact h.inside .outOfBounds rfl
  · rintro ⟨sha256, h⟩
    have hsealed : IsSealed .sgx ⟨⟨tpmdReqAttest, 0, 32⟩, List.replicate 32 7⟩ := ⟨rfl, rfl⟩
    have htake : takeNonce .sgx List.length { workingDaemon with unsealData := fun _ => (0x3001, []) }
        ⟨⟨tpmdReqAttest, 0, 32⟩, List.replicate 32 7⟩ = _ := takeNonce_sealed hsealed
    rw [unsealPacket_of_status rfl (Nat.le_refl _) (by decide)] at htake
    obtain ⟨-, -, hdata⟩ := (h.nonce _ htake).2 hsealed
    have hstatus : (0x3001 : UInt32) = 0 := congrArg Prod.fst hdata
    exact absurd hstatus (by decide)

/-! ### The requests of the daemon -/

/-- A sealed request is answered as its block is. -/
theorem handlePacket_sealed (h : IsSealed build pkt) (hreads : env.ecall = 0 → sealedReads pkt.data ≤ pkt.data.length) :
    handlePacket sha256 build sealedReads env pkt = some <$> tpmddaemon sha256 env (.attest pkt.data) := by
  have hunseal : unsealPacket sealedReads env pkt.data = unsealNonce env pkt.data := by
    by_cases hecall : env.ecall = 0
    · rw [unsealPacket, if_neg (not_not.2 hecall), readRange, if_pos (by rw [Nat.zero_add]; exact hreads hecall)]
      rfl
    · rw [unsealPacket, unsealNonce, if_pos hecall, if_pos hecall]
  rw [handlePacket, takeNonce_sealed h, hunseal, tpmddaemon]
  cases unsealNonce env pkt.data with
  | error f => rfl
  | ok nonce =>
    have hanswer : answer sha256 env pkt.head.cmd nonce = (do
        let (_, buf, size) ← makeTpm2QuoteWithPid sha256 env nonce env.apphash (toInt32 env.usize.toNat)
        replyAttest env nonce buf size) := if_pos h.2
    exact congrArg (fun x : Checked TpmdPacket => some <$> x) hanswer

/-- A measurement is answered as its nonce is. -/
theorem handlePacket_pica (hcmd : pkt.head.cmd = tpmdReqPica) (hnonce : readNonce pkt.data = .ok nonce) :
    handlePacket sha256 build sealedReads env pkt = some <$> tpmddaemon sha256 env (.pica nonce) := by
  have hne : pkt.head.cmd ≠ tpmdReqAttest := by
    rw [hcmd]
    decide
  rw [handlePacket, takeNonce_plain (.inr hcmd) fun h => hne h.2, hnonce]
  exact congrArg (fun x : Checked TpmdPacket => some <$> x) (if_neg hne)

end PortableTlsRa.Tpmdaemon
