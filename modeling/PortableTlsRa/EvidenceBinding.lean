import PortableTlsRa.AttesterDaemon

/-!
# One quote, one process chain and one nonce

What `check_apphash` should give the client: the extra data of a quote determines the process chain and the nonce it
is accepted with, as long as SHA-256 has no collision among the messages hashed on the way.  Whether a reply gets the
quote bit depends neither on the chain nor on the nonce (`quoteAccepted_iff`), so that a reply accepted in one session
is accepted in every other (`QuoteAccepted.replay`).  Two runs refuse what is replayed exactly where the replies
themselves see to it (`apphash_binds_evidence`), as those do that honest daemons make for the two nonces
(`replayRefused_honest`).
-/

namespace PortableTlsRa

open CSem HashBinding

variable {PKey : Type}

/-- The run ends with the quote bit, for the evidence `ev`. -/
def QuoteAccepted (sha256 : Bytes → ByteBuf 32) (env : ClientEnv PKey) (measure : Bytes) (nonce : ByteBuf 32)
    (ev : Evidence) : Prop :=
  ∃ bits rc out, extractTpm2evidence env.cbor env.tss2 measure env.evidence = .ok (bits, ev) ∧
    picaVerifyTpm2all sha256 env measure nonce = .ok (rc, out) ∧ rc &&& VerifyFlag.tpm2Quote ≠ 0

/-- The code of `check_apphash` is 0: what counts is how the digest calls end, and after a positive code what they
leave. -/
def AppHashPasses (c : DigestCalls) (apphash : ByteBuf 32) (udata : Tpm2bData) (picahash : ByteBuf 32) : Prop :=
  c.FailsWithZero ∨ c.RunsThrough ∨
    c.FailsPositive ∧ c.leftover picahash = udata.digest ∧ apphash = c.leftover picahash

/-- The evidence gets the quote bit: it has the bit of the quote but is incomplete, it is refused at the key or the
signature, or the attestations are read, the registers fit and the code of `check_apphash` is 0. -/
inductive GetsQuoteBit (env : ClientEnv PKey) (measure : Bytes) (ev : Evidence) : Prop
  | incomplete (hbits : replyBits env.cbor measure ≠ 7)
      (hquote : replyBits env.cbor measure &&& VerifyFlag.tpm2Quote ≠ 0)
  | unauthenticated (hbits : replyBits env.cbor measure = 7) (hauth : ¬ Authenticated env ev)
      (hfreed : ¬ SignatureFreedTwice env ev)
  | passed (hbits : replyBits env.cbor measure = 7) (hauth : Authenticated env ev)
      (hattest : 0 ≤ (extractTpm2attest env.tss2 ev.quote env.tpmAtst).1)
      (hreg : 0 ≤ (readTpm2attest env.tss2 env.regQuote env.regAtst).1)
      (hpcrs : PcrsAccepted (env.quoteAttest ev.quote) env.registeredAttest)
      (happhash : AppHashPasses env.digestCalls ev.apphash (env.quoteAttest ev.quote).extraData env.picahash)

variable {sha256 : Bytes → ByteBuf 32} {env env₁ env₂ : ClientEnv PKey} {measure measure₁ measure₂ : Bytes}
  {nonce nonce₁ nonce₂ : ByteBuf 32} {ev ev₁ ev₂ : Evidence}

/-- A run ends with the quote bit exactly when its evidence gets the bit, whatever the nonce. -/
theorem quoteAccepted_iff :
    QuoteAccepted sha256 env measure nonce ev ↔
      (∃ bits, extractTpm2evidence env.cbor env.tss2 measure env.evidence = .ok (bits, ev)) ∧
        GetsQuoteBit env measure ev := by
  constructor
  · intro ⟨bits, rc, out, hextract, hresult, hset⟩
    refine ⟨⟨bits, hextract⟩, ?_⟩
    have hreply := (extractTpm2evidence_eq_ok_iff.1 hextract).1
    obtain ⟨bits', ev', hextract', hcases⟩ := picaVerifyTpm2all_cases hresult
    rw [hextract] at hextract'
    cases hextract'
    rcases hcases with ⟨hrefused, rfl, -⟩ | ⟨⟨hbits, hauth⟩, hattested⟩
    · by_cases hbits : rc = 7
      · exact .unauthenticated (hreply.symm.trans hbits) (fun hauth => hrefused.not_authenticated ⟨hbits, hauth⟩)
          fun hfreed => hrefused.not_freedTwice ⟨hbits, hfreed⟩
      · rw [hreply] at hbits hset
        exact .incomplete hbits hset
    · rcases verifyAttested_cases hattested with ⟨hpass, -⟩ | ⟨-, rfl⟩
      · exact .passed (hreply.symm.trans hbits) hauth hpass.attest hpass.registered hpass.pcrs
          (checkApphash_eq_zero_iff.1 hpass.apphash)
      · exact absurd (by decide) hset
  · intro ⟨⟨bits, hextract⟩, hbit⟩
    obtain ⟨rfl, -⟩ := extractTpm2evidence_eq_ok_iff.1 hextract
    cases hbit with
    | incomplete hbits hquote =>
      exact ⟨_, _, none, hextract, picaVerifyTpm2all_of_incomplete hextract hbits, hquote⟩
    | unauthenticated hbits hauth hfreed =>
      rw [hbits] at hextract
      exact ⟨7, 7, none, hextract, picaVerifyTpm2all_of_unauthenticated hextract hauth hfreed, by decide⟩
    | passed hbits hauth hattest hreg hpcrs happhash =>
      rw [hbits] at hextract
      have hpass : LaterChecksPass sha256 env nonce ev := ⟨hattest, hreg, hpcrs, checkApphash_eq_zero_iff.2 happhash⟩
      have hbit : (VerifyFlag.tpm2Fresh ||| VerifyFlag.tpm2Quote) &&& VerifyFlag.tpm2Quote ≠ 0 := by decide
      exact ⟨7, _, _, hextract,
        (picaVerifyTpm2all_of_authenticated hextract hauth).trans (verifyAttested_of_pass hpass), hbit⟩

/-- Evidence that is accepted for one nonce is accepted for every nonce. -/
theorem QuoteAccepted.replay (h : QuoteAccepted sha256 env measure nonce ev) (nonce' : ByteBuf 32) :
    QuoteAccepted sha256 env measure nonce' ev :=
  quoteAccepted_iff.2 (quoteAccepted_iff.1 h)

/-- Both runs come back, and if both are accepted with one value of the extra data then they have the same process
chain and the same nonce, unless SHA-256 collides on their messages. -/
structure ReplayRefused (sha256 : Bytes → ByteBuf 32) (env₁ env₂ : ClientEnv PKey) (measure₁ measure₂ : Bytes)
    (nonce₁ nonce₂ : ByteBuf 32) : Prop where
  returns₁ : ∃ result, picaVerifyTpm2all sha256 env₁ measure₁ nonce₁ = .ok result
  returns₂ : ∃ result, picaVerifyTpm2all sha256 env₂ measure₂ nonce₂ = .ok result
  same : ∀ ev₁ ev₂, QuoteAccepted sha256 env₁ measure₁ nonce₁ ev₁ → QuoteAccepted sha256 env₂ measure₂ nonce₂ ev₂ →
    (env₁.quoteAttest ev₁.quote).extraData.digest = (env₂.quoteAttest ev₂.quote).extraData.digest →
    Set.InjOn sha256 (boundMessages sha256 join32 ev₁.picabody nonce₁ ∪
      boundMessages sha256 join32 ev₂.picabody nonce₂) →
    ev₁.picabody = ev₂.picabody ∧ nonce₁ = nonce₂

/-- What a client accepts of the reply of an honest daemon is bound to the chain and the nonce it was made for. -/
theorem QuoteAccepted.bound_honest {daemon : DaemonEnv} {key : PKey} {regAtst : TpmsAttest} {pica : Bytes}
    {nonce' : ByteBuf 32} (honest : HonestAttester daemon env key regAtst) (hpica : pica.length < 2 ^ 64)
    (h : QuoteAccepted sha256 env (honestPayload sha256 daemon nonce pica) nonce' ev) :
    ev.picabody = pica ∧ (env.quoteAttest ev.quote).extraData.digest = extendedHash sha256 pica nonce := by
  obtain ⟨bits, -, -, hextract', -⟩ := h
  obtain ⟨hextract, -⟩ := extractTpm2evidence_honest sha256 nonce honest hpica
  obtain ⟨atst, hquote, hdata, -⟩ := honest.quote (extendedHash sha256 pica nonce) env.tpmAtst
  rw [hextract] at hextract'
  cases hextract'
  refine ⟨rfl, ?_⟩
  rw [ClientEnv.quoteAttest, hquote.extract]
  exact hdata

/-- Two runs on replies that honest daemons make for their nonces, each of a chain of its own. -/
theorem replayRefused_honest {daemon₁ daemon₂ : DaemonEnv} {key₁ key₂ : PKey} {regAtst₁ regAtst₂ : TpmsAttest}
    {pica₁ pica₂ : Bytes} (honest₁ : RsaAttester daemon₁ env₁ key₁ regAtst₁)
    (honest₂ : RsaAttester daemon₂ env₂ key₂ regAtst₂) (hpica₁ : pica₁.length < 2 ^ 64)
    (hpica₂ : pica₂.length < 2 ^ 64) :
    ReplayRefused sha256 env₁ env₂ (honestPayload sha256 daemon₁ nonce₁ pica₁)
      (honestPayload sha256 daemon₂ nonce₂ pica₂) nonce₁ nonce₂ := by
  refine ⟨⟨_, picaVerifyTpm2all_daemonReply sha256 nonce₁ honest₁ hpica₁ nonce₁⟩,
    ⟨_, picaVerifyTpm2all_daemonReply sha256 nonce₂ honest₂ hpica₂ nonce₂⟩, ?_⟩
  intro ev₁ ev₂ hacc₁ hacc₂ hsame hfree
  obtain ⟨rfl, hdata₁⟩ := hacc₁.bound_honest honest₁.toHonestAttester hpica₁
  obtain ⟨rfl, hdata₂⟩ := hacc₂.bound_honest honest₂.toHonestAttester hpica₂
  apply bound_injective join32_injective hfree
  calc bound sha256 join32 ev₁.picabody nonce₁
      = (env₁.quoteAttest ev₁.quote).extraData.digest := hdata₁.symm
    _ = (env₂.quoteAttest ev₂.quote).extraData.digest := hsame
    _ = bound sha256 join32 ev₂.picabody nonce₂ := hdata₂

/-- The reply that an honest daemon makes for one nonce, replayed for another: it is accepted again. -/
theorem not_replayRefused_honest {daemon : DaemonEnv} {key : PKey} {regAtst : TpmsAttest} {pica : Bytes}
    (honest : RsaAttester daemon env key regAtst) (hpica : pica.length < 2 ^ 64) (hne : nonce₁ ≠ nonce₂)
    (hfree : Set.InjOn sha256 (boundMessages sha256 join32 pica nonce₁ ∪ boundMessages sha256 join32 pica nonce₂)) :
    ¬ ReplayRefused sha256 env env (honestPayload sha256 daemon nonce₁ pica) (honestPayload sha256 daemon nonce₁ pica)
      nonce₁ nonce₂ := by
  intro hrefused
  obtain ⟨hextract, -⟩ := extractTpm2evidence_honest sha256 nonce₁ honest.toHonestAttester hpica
  have hbit : (VerifyFlag.tpm2Fresh ||| VerifyFlag.tpm2Quote) &&& VerifyFlag.tpm2Quote ≠ 0 := by decide
  have haccepted : QuoteAccepted sha256 env (honestPayload sha256 daemon nonce₁ pica) nonce₁ _ :=
    ⟨7, _, _, hextract, picaVerifyTpm2all_daemonReply sha256 nonce₁ honest hpica nonce₁, hbit⟩
  exact hne (hrefused.same _ _ haccepted (haccepted.replay nonce₂) rfl hfree).2

end PortableTlsRa
