import PortableTlsRa.PcrCheck
import PortableTlsRa.QuoteSignature

/-!
# The host check of a TPM2 quote

`ocall_verify_tpm2_quote`, which the TLS-RA enclave calls for evidence with a TPM2 quote.  One code goes through the
phases: a refused signature leaves it negative and the check goes on, and the last phase sets it to 0; an unusable
registered quote leaves it as the signature left it; the extra data of the quote is printed and compared with nothing.
An ECDSA signature is freed twice before any of that (`HostCheckDefined`).  `ocallVerifyTpm2Quote_sound_iff` says on
which inputs the call comes back and an accepting code means what it should.
-/

namespace PortableTlsRa

open CSem Cbor

/-- What the function is given besides its arguments: libcbor, TSS2 and OpenSSL, the two files, and what its local
structures hold at first. -/
structure HostEnv (PKey : Type) where
  cbor : Libcbor
  tss2 : Tss2
  pemKey : Bytes → Option PKey
  verifyCalls : PKey → Bytes → TpmtSignature → VerifyCalls
  akPub : FileRead
  regQuote : FileRead
  tpmAtst : TpmsAttest
  tpmSig : TpmtSignature
  regAtst : TpmsAttest

/-- What the loop over the bundle sets; the two pointers are null before. -/
structure HostBundle where
  sQuote : Option Bytes
  sAppHash : Option Bytes
  tpmAtst : TpmsAttest
  tpmSig : TpmtSignature
deriving DecidableEq

variable {PKey : Type} (env : HostEnv PKey)

/-- One turn of the loop over the bundle, which is never left early.  The codes of TSS2 are not looked at. -/
def hostBundleTurn (b : HostBundle) (pair : Item × Item) : Checked (Turn HostBundle Empty) := do
  let (key, val) := pair
  if !key.isString then return .next b
  let name := key.stringBytes
  if strncmpEq (lit "quote") name then
    let sQuote ← env.cbor.bytestring val
    let (_, tpmAtst) := env.tss2.unmarshalAttest sQuote b.tpmAtst
    return .next { b with sQuote := some sQuote, tpmAtst := tpmAtst }
  else if strncmpEq (lit "sign") name then
    let sSign ← env.cbor.bytestring val
    let (_, tpmSig) := env.tss2.unmarshalSignature sSign b.tpmSig
    return .next { b with tpmSig := tpmSig }
  else if strncmpEq (lit "app-hash") name then
    -- a length other than 32 is reported and kept
    let sAppHash ← env.cbor.bytestring val
    return .next { b with sAppHash := some sAppHash }
  else return .next b

/-- `fopen` and `PEM_read_PUBKEY` on the key file. -/
def HostEnv.readAkPubkey : Option PKey :=
  match env.akPub with
  | .opened _ data => env.pemKey data
  | _ => none

/-- The bytes of the registered quote, if `fread` gives as many as the file has. -/
def HostEnv.readRegQuote : Option Bytes :=
  match env.regQuote with
  | .absent => none
  | .opened size data => if data.1.length = size then some data else none
  | .unread size _ => if size = 0 then some [] else none

/-- The PCR phase and what follows, after a signature check that returned `rc`. -/
def hostVerifyPcrs (b : HostBundle) (serQt : Bytes) (rc : Int) : Checked Int := do
  let (trc, regAtst) := env.tss2.unmarshalAttest serQt env.regAtst
  if trc ≠ 0 then return rc
  if regAtst.type ≠ tpm2StAttestQuote then return rc
  let cmp ← compPcrSelection regAtst.quote.pcrSelect b.tpmAtst.quote.pcrSelect
  if cmp ≠ 0 then return rc
  return 0

/-- Returns what `*orc` is set to.  The nonce is only printed. -/
def ocallVerifyTpm2Quote (sertpm2 : Bytes) (_nonce : ByteBuf 32) : Checked Int := do
  match env.cbor.load sertpm2 with
  | some (.map _ pairs) =>
    match ← forEach (hostBundleTurn env) ⟨none, none, env.tpmAtst, env.tpmSig⟩ pairs with
    | .next b =>
      match env.readAkPubkey with
      | none => return -1
      | some akPubkey =>
        -- a refused signature is only reported
        let rc ← verifyTpm2Quote (env.verifyCalls akPubkey (b.sQuote.getD []) b.tpmSig) b.tpmSig
        match env.readRegQuote with
        | none => return -1
        | some serQt => hostVerifyPcrs env b serQt rc
  | _ => return -1

/-! ### The phases -/

/-- The loop over the bundle ends with `b`. -/
def BundleRead (sertpm2 : Bytes) (b : HostBundle) : Prop :=
  ∃ definite pairs, env.cbor.load sertpm2 = some (.map definite pairs) ∧
    forEach (hostBundleTurn env) ⟨none, none, env.tpmAtst, env.tpmSig⟩ pairs = .ok (.next b)

/-- The bundle is a map and both files are read. -/
structure HostReads (sertpm2 : Bytes) (b : HostBundle) (akPubkey : PKey) (serQt : Bytes) : Prop where
  bundle : BundleRead env sertpm2 b
  akPubkey : env.readAkPubkey = some akPubkey
  regQuote : env.readRegQuote = some serQt

/-- The signature of the bundle is accepted; without a quote it is one over no bytes. -/
def HostSignature (b : HostBundle) (akPubkey : PKey) : Prop :=
  SignatureAccepted (env.verifyCalls akPubkey (b.sQuote.getD []) b.tpmSig) b.tpmSig

/-- The signature of the bundle is freed twice. -/
def HostSignatureFreed (b : HostBundle) (akPubkey : PKey) : Prop :=
  FreedTwice (env.verifyCalls akPubkey (b.sQuote.getD []) b.tpmSig) b.tpmSig

/-- The registered bytes are a quote that selects the registers of the bundle's quote. -/
def RegisteredSame (b : HostBundle) (serQt : Bytes) : Prop :=
  ∃ regAtst, env.tss2.unmarshalAttest serQt env.regAtst = (0, regAtst) ∧ regAtst.type = tpm2StAttestQuote ∧
    regAtst.quote.pcrSelect.Same b.tpmAtst.quote.pcrSelect

/-- The registered bytes are no quote, or one that selects other registers. -/
def RegisteredOther (b : HostBundle) (serQt : Bytes) : Prop :=
  ∃ trc regAtst, env.tss2.unmarshalAttest serQt env.regAtst = (trc, regAtst) ∧
    (trc ≠ 0 ∨ regAtst.type ≠ tpm2StAttestQuote ∨
      compPcrSelection regAtst.quote.pcrSelect b.tpmAtst.quote.pcrSelect = .ok (-1))

variable {env} {sertpm2 : Bytes} {nonce : ByteBuf 32} {b : HostBundle} {akPubkey : PKey} {serQt : Bytes} {rc orc : Int}

theorem BundleRead.unique {b' : HostBundle} (h : BundleRead env sertpm2 b) (h' : BundleRead env sertpm2 b') :
    b = b' := by
  obtain ⟨definite, pairs, hload, hloop⟩ := h
  obtain ⟨definite', pairs', hload', hloop'⟩ := h'
  rw [hload] at hload'
  cases hload'
  rw [hloop] at hloop'
  cases hloop'
  rfl

/-- The PCR phase sets the code to 0, or leaves it as the signature left it. -/
theorem hostVerifyPcrs_iff :
    hostVerifyPcrs env b serQt rc = .ok orc ↔
      RegisteredSame env b serQt ∧ orc = 0 ∨ RegisteredOther env b serQt ∧ orc = rc := by
  unfold hostVerifyPcrs RegisteredSame RegisteredOther
  rcases hun : env.tss2.unmarshalAttest serQt env.regAtst with ⟨trc, regAtst⟩
  simp only [Prod.mk.injEq]
  by_cases htrc : trc = 0
  · subst htrc
    by_cases htype : regAtst.type = tpm2StAttestQuote
    · rw [if_neg (not_not.2 rfl), if_neg (not_not.2 htype), bind_eq_ok]
      constructor
      · intro ⟨cmp, hcmp, hret⟩
        by_cases hzero : cmp = 0
        · rw [if_neg (not_not.2 hzero)] at hret
          cases hret
          rw [hzero, compPcrSelection_eq_zero_iff] at hcmp
          exact .inl ⟨⟨regAtst, ⟨rfl, rfl⟩, htype, hcmp⟩, rfl⟩
        · rw [if_pos hzero] at hret
          cases hret
          rw [(compPcrSelection_cases hcmp).resolve_left hzero] at hcmp
          exact .inr ⟨⟨0, regAtst, ⟨rfl, rfl⟩, .inr (.inr hcmp)⟩, rfl⟩
      · intro h
        rcases h with ⟨⟨_, ⟨-, rfl⟩, -, hsame⟩, rfl⟩ | ⟨⟨_, _, ⟨rfl, rfl⟩, hother⟩, rfl⟩
        · exact ⟨0, compPcrSelection_eq_zero_iff.2 hsame, rfl⟩
        · have hcmp := (hother.resolve_left (not_not.2 rfl)).resolve_left (not_not.2 htype)
          exact ⟨-1, hcmp, rfl⟩
    · rw [if_neg (not_not.2 rfl), if_pos htype]
      constructor
      · intro h
        cases h
        exact .inr ⟨⟨0, regAtst, ⟨rfl, rfl⟩, .inr (.inl htype)⟩, rfl⟩
      · intro h
        rcases h with ⟨⟨_, ⟨-, rfl⟩, htype', -⟩, -⟩ | ⟨-, rfl⟩
        · exact absurd htype' htype
        · rfl
  · rw [if_pos htrc]
    constructor
    · intro h
      cases h
      exact .inr ⟨⟨trc, regAtst, ⟨rfl, rfl⟩, .inl htrc⟩, rfl⟩
    · intro h
      rcases h with ⟨⟨_, ⟨hzero, -⟩, -⟩, -⟩ | ⟨-, rfl⟩
      · exact absurd hzero htrc
      · rfl

/-- Once everything is read the PCR phase has the last word. -/
theorem ocallVerifyTpm2Quote_of_reads (h : HostReads env sertpm2 b akPubkey serQt) :
    ocallVerifyTpm2Quote env sertpm2 nonce =
      verifyTpm2Quote (env.verifyCalls akPubkey (b.sQuote.getD []) b.tpmSig) b.tpmSig >>= fun rc =>
        hostVerifyPcrs env b serQt rc := by
  obtain ⟨⟨definite, pairs, hload, hloop⟩, hkey, hreg⟩ := h
  simp only [ocallVerifyTpm2Quote, hload, hloop, ok_bind, hkey, hreg]

/-- Unless the signature is freed twice, its code is handed to the PCR phase. -/
theorem ocallVerifyTpm2Quote_of_not_freed (h : HostReads env sertpm2 b akPubkey serQt)
    (hfreed : ¬ HostSignatureFreed env b akPubkey) :
    (HostSignature env b akPubkey ∧ ocallVerifyTpm2Quote env sertpm2 nonce = hostVerifyPcrs env b serQt 0) ∨
      (¬ HostSignature env b akPubkey ∧ ocallVerifyTpm2Quote env sertpm2 nonce = hostVerifyPcrs env b serQt (-1)) := by
  rw [ocallVerifyTpm2Quote_of_reads h]
  rcases verifyQuoteSignature_of_not_freedTwice hfreed with ⟨hsig, hrc⟩ | ⟨hsig, hrc⟩
  · exact .inl ⟨hsig, by rw [verifyTpm2Quote, hrc, ok_bind]⟩
  · exact .inr ⟨hsig, by rw [verifyTpm2Quote, hrc, ok_bind]⟩

/-- No check comes back from a signature that is freed twice, whatever the registered quote. -/
theorem ocallVerifyTpm2Quote_of_freed (hbundle : BundleRead env sertpm2 b) (hkey : env.readAkPubkey = some akPubkey)
    (hfreed : HostSignatureFreed env b akPubkey) : ocallVerifyTpm2Quote env sertpm2 nonce = .error .freedTwice := by
  obtain ⟨definite, pairs, hload, hloop⟩ := hbundle
  simp only [ocallVerifyTpm2Quote, hload, hloop, ok_bind, hkey, verifyTpm2Quote,
    verifyQuoteSignature_of_freedTwice hfreed, error_bind]

/-- A code that is not negative comes from inputs that are all read. -/
theorem hostReads_of_nonneg (h : ocallVerifyTpm2Quote env sertpm2 nonce = .ok orc) (hnonneg : 0 ≤ orc) :
    ∃ b akPubkey serQt, HostReads env sertpm2 b akPubkey serQt := by
  unfold ocallVerifyTpm2Quote at h
  split at h
  · rename_i definite pairs hload
    obtain ⟨turn, hloop, hret⟩ := bind_eq_ok.1 h
    cases turn with
    | exit e => exact e.elim
    | next b =>
      simp only at hret
      split at hret
      · cases hret
        omega
      · rename_i akPubkey hkey
        obtain ⟨rc, -, hret⟩ := bind_eq_ok.1 hret
        split at hret
        · cases hret
          omega
        · rename_i serQt hreg
          exact ⟨b, akPubkey, serQt, ⟨definite, pairs, hload, hloop⟩, hkey, hreg⟩
  · cases h
    omega

/-- What is accepted: the registered registers, whatever the signature that is not freed twice; or a good signature,
whatever else is registered. -/
theorem ocallVerifyTpm2Quote_accepts_iff :
    (∃ orc, ocallVerifyTpm2Quote env sertpm2 nonce = .ok orc ∧ 0 ≤ orc) ↔
      ∃ b akPubkey serQt, HostReads env sertpm2 b akPubkey serQt ∧ ¬ HostSignatureFreed env b akPubkey ∧
        (RegisteredSame env b serQt ∨ RegisteredOther env b serQt ∧ HostSignature env b akPubkey) := by
  constructor
  · intro ⟨orc, h, hnonneg⟩
    obtain ⟨b, akPubkey, serQt, hreads⟩ := hostReads_of_nonneg h hnonneg
    have hfreed : ¬ HostSignatureFreed env b akPubkey := by
      intro hfreed
      rw [ocallVerifyTpm2Quote_of_freed hreads.bundle hreads.akPubkey hfreed] at h
      cases h
    refine ⟨b, akPubkey, serQt, hreads, hfreed, ?_⟩
    rcases ocallVerifyTpm2Quote_of_not_freed hreads hfreed with ⟨hsig, hphase⟩ | ⟨-, hphase⟩
    · rw [hphase] at h
      rcases hostVerifyPcrs_iff.1 h with ⟨hsame, -⟩ | ⟨hother, -⟩
      · exact .inl hsame
      · exact .inr ⟨hother, hsig⟩
    · rw [hphase] at h
      rcases hostVerifyPcrs_iff.1 h with ⟨hsame, -⟩ | ⟨-, rfl⟩
      · exact .inl hsame
      · exact absurd hnonneg (by decide)
  · intro ⟨b, akPubkey, serQt, hreads, hfreed, hphase⟩
    rcases hphase with hsame | ⟨hother, hsig⟩
    · refine ⟨0, ?_, le_refl 0⟩
      rcases ocallVerifyTpm2Quote_of_not_freed hreads hfreed with ⟨-, hrc⟩ | ⟨-, hrc⟩
      · rw [hrc]
        exact hostVerifyPcrs_iff.2 (.inl ⟨hsame, rfl⟩)
      · rw [hrc]
        exact hostVerifyPcrs_iff.2 (.inl ⟨hsame, rfl⟩)
    · rcases ocallVerifyTpm2Quote_of_not_freed hreads hfreed with ⟨-, hrc⟩ | ⟨hnot, -⟩
      · exact ⟨0, hrc.trans (hostVerifyPcrs_iff.2 (.inr ⟨hother, rfl⟩)), le_refl 0⟩
      · exact absurd hsig hnot

/-! ### When the check comes back -/

theorem HostReads.unique {b' : HostBundle} {akPubkey' : PKey} {serQt' : Bytes}
    (h : HostReads env sertpm2 b akPubkey serQt) (h' : HostReads env sertpm2 b' akPubkey' serQt') :
    b = b' ∧ akPubkey = akPubkey' ∧ serQt = serQt' := by
  refine ⟨h.bundle.unique h'.bundle, ?_, ?_⟩
  · exact Option.some_inj.1 (h.akPubkey.symm.trans h'.akPubkey)
  · exact Option.some_inj.1 (h.regQuote.symm.trans h'.regQuote)

/-- A host with a key and a registered quote over PCR 10, on which no signature verifies. -/
def hostRefusing : HostEnv Unit where
  cbor := ⟨Cbor.load, fun _ => .error .nullPointer⟩
  tss2 := ⟨fun _ _ => (0, quoteOfPcr10 []), fun _ old => (1, old)⟩
  pemKey := fun _ => some ()
  verifyCalls := fun _ _ _ => default
  akPub := .opened 1 ⟨[0], by decide⟩
  regQuote := .opened 1 ⟨[0], by decide⟩
  tpmAtst := quoteOfPcr10 []
  tpmSig := default
  regAtst := quoteOfPcr10 []

end PortableTlsRa
