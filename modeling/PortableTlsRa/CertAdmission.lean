import PortableTlsRa.SgxVerify

/-!
# Admission of a peer certificate

`verify`, the verification callback of TLS-RA, with `verify_cert` and `verify_contents`.  A self-signed leaf is admitted
if the code of `verify_cert` has one of the two verdict bits.  That code is -1 when the certificate itself is refused,
and otherwise whatever the last call in `verify_contents` returned: the writing of the key, the number of bytes read,
or a verifier.  `verify_admission_iff` says when only the evidence verifier can set a bit.
-/

namespace PortableTlsRa

open CSem

/-! ### The code -/

abbrev Oid := List Nat

/-- `TCG_DICE_TAGGED_OID_STR` -/
def tcgDiceTaggedOid : Oid := [2, 23, 133, 5, 4, 9]

/-- `X509_OID_FOR_QUOTE_STRING` -/
def x509OidForQuote : Oid := [1, 2, 840, 113741, 1, 13, 1]

/-- The key in the PEM form that OpenSSL writes, unless OpenSSL cannot get it, and the extensions in order. -/
structure PeerCert where
  pubkey : Option Bytes
  extensions : List (Oid × Bytes)

/-- What the calls of `verify_contents` to OpenSSL and to `malloc` return. -/
structure ContentsCalls where
  bioNew : Bool
  pemWrite : Int
  mallocPub : Bool
  txt2obj : Oid → Bool

/-- A call of `verify_SGX_evidence` and its verdict. -/
structure EvidenceCall where
  oct : Bytes
  pemPubkey : Bytes
  nonce : ByteBuf 32
  verdict : Nat
deriving DecidableEq

/-- The enclave and its stack, and the outcomes of the calls of `libcert.c`. -/
structure CertEnv where
  verifyEnv : VerifyEnv
  stack : EvidenceOut
  calls : ContentsCalls
  x509VerifyCert : Int

/-- `X509_get_ext_by_OBJ`: the index of the first extension with the identifier, or -1. -/
def x509GetExtByObj (extensions : List (Oid × Bytes)) (oid : Oid) : Int :=
  match extensions.findIdx? (fun ext => ext.1 == oid) with
  | some loc => loc
  | none => -1

/-- `BIO_read` of all that is pending in a memory BIO, which has nothing to say about an empty one. -/
def bioRead (pending : Bytes) : Int := if pending = [] then -1 else pending.length

variable (env : CertEnv)

/-- `verify_tab`: the identifiers and their verifiers, with the call of the evidence verifier that is made. -/
def verifyTab : List (Oid × (Bytes → Bytes → ByteBuf 32 → Checked (Int × Option EvidenceCall))) := [
  (tcgDiceTaggedOid, fun oct pemPubkey nonce => do
    let verdict ← verifySgxEvidence env.verifyEnv oct pemPubkey nonce env.stack
    return (verdict, some ⟨oct, pemPubkey, nonce, verdict⟩)),
  -- `verify_SGX_quote`, which looks at nothing
  (x509OidForQuote, fun _ _ _ => return (VerifiedFlag.quote, none))]

/-- One turn of the loop over the table. -/
def verifyTabTurn (cert : PeerCert) (pubkey : Bytes) (nonce : ByteBuf 32) (rc : Int)
    (entry : Oid × (Bytes → Bytes → ByteBuf 32 → Checked (Int × Option EvidenceCall))) :
    Checked (Turn Int (Int × Option EvidenceCall)) := do
  if !env.calls.txt2obj entry.1 then return .next rc
  let loc := x509GetExtByObj cert.extensions entry.1
  if loc > 0 then
    let ext ← readAt cert.extensions loc.toNat
    let result ← entry.2 ext.2 pubkey nonce
    return .exit result
  return .next rc

def verifyContents (cert : PeerCert) (nonce : ByteBuf 32) : Checked (Int × Option EvidenceCall) := do
  match cert.pubkey with
  | none => return (0, none)
  | some pubkey =>
    if !env.calls.bioNew then return (0, none)
    if env.calls.pemWrite ≠ 1 then return (env.calls.pemWrite, none)
    if !env.calls.mallocPub then return (env.calls.pemWrite, none)
    match ← forEach (verifyTabTurn env cert pubkey nonce) (bioRead pubkey) (verifyTab env) with
    | .exit result => return result
    | .next rc => return (rc, none)

inductive Which where
  | serverside
  | clientside
deriving DecidableEq

def verifyCert (cert : PeerCert) (nonce : ByteBuf 32) (which : Which) : Checked (Int × Option EvidenceCall) := do
  if env.x509VerifyCert ≠ 1 then return (-1, none)
  if which = .clientside then return (VerifiedFlag.evidence, none)
  verifyContents env cert nonce

/-- `rc & (VERIFIED_QUOTE|VERIFIED_EVIDENCE)` is not 0. -/
def hasVerifiedFlag (rc : Int) : Bool :=
  (BitVec.ofInt 32 rc &&& BitVec.ofNat 32 (VerifiedFlag.quote ||| VerifiedFlag.evidence)) != 0

/-- What `SSL_get_server_random` and `SSL_get_client_random` copy. -/
structure SslSession where
  serverRandom : { d : Bytes // d.length ≤ 32 }
  clientRandom : { d : Bytes // d.length ≤ 32 }

structure StoreCtx where
  currentCert : Option PeerCert
  ssl : Option SslSession
  depth : Int
  error : Int

def x509VErrDepthZeroSelfSignedCert : Int := 18

/-- The nonce of the session, over what the array of that name held before. -/
def sessionNonce (ssl : SslSession) (which : Which) (nonce : ByteBuf 32) : ByteBuf 32 :=
  let random := if which = .serverside then ssl.serverRandom else ssl.clientRandom
  -- a shorter one is only reported
  ⟨random.1 ++ nonce.1.drop random.1.length, by
    have hle := random.2
    have hlen := nonce.2
    simp only [List.length_append, List.length_drop]
    omega⟩

def verify (ok : Int) (ctx : StoreCtx) (which : Which) (nonce : ByteBuf 32) : Checked (Int × Option EvidenceCall) := do
  match ctx.currentCert, ctx.ssl with
  | some cert, some ssl =>
    if ok = 1 then return (ok, none)
    if ctx.depth = 0 ∧ ctx.error = x509VErrDepthZeroSelfSignedCert then
      let (rc, call) ← verifyCert env cert (sessionNonce ssl which nonce) which
      return (if hasVerifiedFlag rc then 1 else 0, call)
    return (ok, none)
  | _, _ => return (0, none)

/-! ### The search for an extension -/

/-- The first extension with the identifier, which is not the first of all. -/
def ExtensionFound (calls : ContentsCalls) (cert : PeerCert) (oid : Oid) (oct : Bytes) : Prop :=
  calls.txt2obj oid = true ∧ ∃ loc > 0, cert.extensions[loc]? = some (oid, oct) ∧
    ∀ j < loc, ∀ ext, cert.extensions[j]? = some ext → ext.1 ≠ oid

variable {env} {cert : PeerCert} {pubkey : Bytes} {nonce : ByteBuf 32}

/-- The index that is looked up is the one that is found, if it is not 0. -/
theorem extensionFound_iff {calls : ContentsCalls} {oid : Oid} {oct : Bytes} :
    ExtensionFound calls cert oid oct ↔ calls.txt2obj oid = true ∧ 0 < x509GetExtByObj cert.extensions oid ∧
      cert.extensions[(x509GetExtByObj cert.extensions oid).toNat]? = some (oid, oct) := by
  unfold ExtensionFound
  apply and_congr_right
  intro _
  constructor
  · intro ⟨loc, hpos, hget, hfirst⟩
    obtain ⟨hlt, hext⟩ := List.getElem?_eq_some_iff.1 hget
    have hloc : cert.extensions.findIdx? (fun ext => ext.1 == oid) = some loc := by
      refine List.findIdx?_eq_some_iff_getElem.2 ⟨hlt, by simp [hext], ?_⟩
      intro j hj
      have hne := hfirst j hj _ (List.getElem?_eq_getElem (by omega))
      simpa using hne
    have hindex : x509GetExtByObj cert.extensions oid = loc := by rw [x509GetExtByObj, hloc]
    rw [hindex]
    exact ⟨by omega, hget⟩
  · intro ⟨hpos, hget⟩
    unfold x509GetExtByObj at hpos hget
    cases hloc : cert.extensions.findIdx? (fun ext => ext.1 == oid) with
    | none =>
      rw [hloc] at hpos
      simp at hpos
    | some loc =>
      rw [hloc] at hpos hget
      obtain ⟨hlt, -, hfirst⟩ := List.findIdx?_eq_some_iff_getElem.1 hloc
      refine ⟨loc, by simpa using hpos, hget, ?_⟩
      intro j hj ext hj'
      obtain ⟨hjlt, rfl⟩ := List.getElem?_eq_some_iff.1 hj'
      simpa using hfirst j hj

/-- Where the index is not 0 there is an extension with the identifier. -/
theorem exists_extensionFound {calls : ContentsCalls} {oid : Oid} (htxt : calls.txt2obj oid = true)
    (hpos : 0 < x509GetExtByObj cert.extensions oid) : ∃ oct, ExtensionFound calls cert oid oct := by
  cases hloc : cert.extensions.findIdx? (fun ext => ext.1 == oid) with
  | none =>
    rw [x509GetExtByObj, hloc] at hpos
    simp at hpos
  | some loc =>
    obtain ⟨hlt, hoid, -⟩ := List.findIdx?_eq_some_iff_getElem.1 hloc
    have hindex : x509GetExtByObj cert.extensions oid = loc := by rw [x509GetExtByObj, hloc]
    refine ⟨cert.extensions[loc].2, extensionFound_iff.2 ⟨htxt, hpos, ?_⟩⟩
    rw [hindex, Int.toNat_natCast, List.getElem?_eq_getElem hlt, ← beq_iff_eq.1 hoid]

variable {rc : Int} {entry : Oid × (Bytes → Bytes → ByteBuf 32 → Checked (Int × Option EvidenceCall))}
  {result : Int × Option EvidenceCall}

/-- A turn leaves the loop where the extension is found, with the result of its verifier. -/
theorem verifyTabTurn_of_found {oct : Bytes} (h : ExtensionFound env.calls cert entry.1 oct) :
    verifyTabTurn env cert pubkey nonce rc entry = entry.2 oct pubkey nonce >>= fun result => .ok (.exit result) := by
  obtain ⟨htxt, hpos, hget⟩ := extensionFound_iff.1 h
  simp only [verifyTabTurn, htxt, Bool.not_true, Bool.false_eq_true, if_false, gt_iff_lt, hpos, if_true,
    readAt_eq_ok.2 hget, ok_bind, pure_eq_ok]

theorem verifyTabTurn_of_not_found (h : ∀ oct, ¬ ExtensionFound env.calls cert entry.1 oct) :
    verifyTabTurn env cert pubkey nonce rc entry = .ok (.next rc) := by
  unfold verifyTabTurn
  cases htxt : env.calls.txt2obj entry.1 with
  | false => simp
  | true =>
    have hpos : ¬ 0 < x509GetExtByObj cert.extensions entry.1 := by
      intro hpos
      obtain ⟨oct, hfound⟩ := exists_extensionFound htxt hpos
      exact h oct hfound
    simp [hpos]

/-! ### What `verify_contents` returns -/

/-- The key is read and the table is searched. -/
structure TableSearched (calls : ContentsCalls) (cert : PeerCert) (pubkey : Bytes) : Prop where
  pubkey : cert.pubkey = some pubkey
  bioNew : calls.bioNew = true
  pemWrite : calls.pemWrite = 1
  mallocPub : calls.mallocPub = true

theorem verifyContents_of_searched (h : TableSearched env.calls cert pubkey) :
    verifyContents env cert nonce =
      forEach (verifyTabTurn env cert pubkey nonce) (bioRead pubkey) (verifyTab env) >>= fun
        | .exit result => .ok result
        | .next rc => .ok (rc, none) := by
  simp only [verifyContents, h.pubkey, h.bioNew, h.pemWrite, h.mallocPub, Bool.not_true, Bool.false_eq_true, if_false,
    ne_eq, not_true_eq_false, pure_eq_ok]

/-- With tagged evidence after the first extension the code is that of the evidence verifier. -/
theorem verifyContents_of_evidence {oct : Bytes} (h : TableSearched env.calls cert pubkey)
    (hfound : ExtensionFound env.calls cert tcgDiceTaggedOid oct) :
    verifyContents env cert nonce = verifySgxEvidence env.verifyEnv oct pubkey nonce env.stack >>= fun verdict =>
      .ok ((verdict : Int), some ⟨oct, pubkey, nonce, verdict⟩) := by
  rw [verifyContents_of_searched h, verifyTab, forEach_cons_of_leaving (verifyTabTurn_of_found hfound)]
  cases hverdict : verifySgxEvidence env.verifyEnv oct pubkey nonce env.stack with
  | error e => simp only [hverdict, error_bind]
  | ok verdict => simp only [hverdict, ok_bind, pure_eq_ok]

/-- With the old extension alone after the first the code is `VERIFIED_QUOTE`. -/
theorem verifyContents_of_quote {oct : Bytes} (h : TableSearched env.calls cert pubkey)
    (hnot : ∀ oct, ¬ ExtensionFound env.calls cert tcgDiceTaggedOid oct)
    (hfound : ExtensionFound env.calls cert x509OidForQuote oct) :
    verifyContents env cert nonce = .ok ((VerifiedFlag.quote : Int), none) := by
  rw [verifyContents_of_searched h, verifyTab, forEach_cons_of_next (verifyTabTurn_of_not_found hnot),
    forEach_cons_of_leaving (verifyTabTurn_of_found hfound)]
  rfl

/-- With neither the code is the number of bytes of the key. -/
theorem verifyContents_of_neither (h : TableSearched env.calls cert pubkey)
    (hnot : ∀ oct, ¬ ExtensionFound env.calls cert tcgDiceTaggedOid oct)
    (hnot' : ∀ oct, ¬ ExtensionFound env.calls cert x509OidForQuote oct) :
    verifyContents env cert nonce = .ok (bioRead pubkey, none) := by
  rw [verifyContents_of_searched h, verifyTab, forEach_cons_of_next (verifyTabTurn_of_not_found hnot),
    forEach_cons_of_next (verifyTabTurn_of_not_found hnot')]
  rfl

/-! ### What admission should mean -/

/-- The call is one of the evidence verifier on a tagged extension of the certificate, its key and the nonce, and it
accepted. -/
def EvidenceAccepted (env : CertEnv) (cert : PeerCert) (nonce : ByteBuf 32) (call : Option EvidenceCall) : Prop :=
  ∃ oct pubkey, call = some ⟨oct, pubkey, nonce, VerifiedFlag.evidence⟩ ∧ (tcgDiceTaggedOid, oct) ∈ cert.extensions ∧
    cert.pubkey = some pubkey ∧
    verifySgxEvidence env.verifyEnv oct pubkey nonce env.stack = .ok VerifiedFlag.evidence

/-- On the server side a self-signed leaf that was not accepted before is admitted for its evidence alone. -/
def AdmissionSound (env : CertEnv) (ctx : StoreCtx) (old : ByteBuf 32) : Prop :=
  ctx.depth = 0 → ctx.error = x509VErrDepthZeroSelfSignedCert →
    ∀ call, verify env 0 ctx .serverside old = .ok (1, call) →
      env.x509VerifyCert = 1 ∧ ∃ cert ssl, ctx.currentCert = some cert ∧ ctx.ssl = some ssl ∧
        EvidenceAccepted env cert (sessionNonce ssl .serverside old) call

/-- The certificate is not refused, and nothing but the evidence verifier leaves a verdict bit in the code. -/
structure OnlyEvidenceDecides (env : CertEnv) (cert : PeerCert) : Prop where
  chain : env.x509VerifyCert = 1
  pemWrite : cert.pubkey.isSome → env.calls.bioNew = true → env.calls.pemWrite ≠ 1 →
    hasVerifiedFlag env.calls.pemWrite = false
  mallocPub : cert.pubkey.isSome → env.calls.bioNew = true → env.calls.pemWrite = 1 → env.calls.mallocPub = true
  extension : ∀ pubkey, TableSearched env.calls cert pubkey →
    (∃ oct, ExtensionFound env.calls cert tcgDiceTaggedOid oct) ∨
      (∀ oct, ¬ ExtensionFound env.calls cert x509OidForQuote oct) ∧ hasVerifiedFlag (bioRead pubkey) = false

theorem ExtensionFound.mem {calls : ContentsCalls} {oid : Oid} {oct : Bytes}
    (h : ExtensionFound calls cert oid oct) : (oid, oct) ∈ cert.extensions := by
  obtain ⟨-, loc, -, hget, -⟩ := h
  exact List.mem_of_getElem? hget

/-- Where only the evidence decides a verdict bit is the evidence verifier's. -/
theorem OnlyEvidenceDecides.accepted {rc : Int} {call : Option EvidenceCall} (hcond : OnlyEvidenceDecides env cert)
    (h : verifyContents env cert nonce = .ok (rc, call)) (hflag : hasVerifiedFlag rc = true) :
    EvidenceAccepted env cert nonce call := by
  cases hpubkey : cert.pubkey with
  | none =>
    simp only [verifyContents, hpubkey] at h
    cases h
    cases hflag
  | some pubkey =>
    have hsome : cert.pubkey.isSome := by rw [hpubkey]; rfl
    cases hbio : env.calls.bioNew with
    | false =>
      simp only [verifyContents, hpubkey, hbio, Bool.not_false, if_true] at h
      cases h
      cases hflag
    | true =>
      by_cases hwrite : env.calls.pemWrite = 1
      · have hsearched : TableSearched env.calls cert pubkey :=
          ⟨hpubkey, hbio, hwrite, hcond.mallocPub hsome hbio hwrite⟩
        by_cases hfound : ∃ oct, ExtensionFound env.calls cert tcgDiceTaggedOid oct
        · obtain ⟨oct, hfound⟩ := hfound
          rw [verifyContents_of_evidence hsearched hfound] at h
          obtain ⟨verdict, hverdict, hret⟩ := bind_eq_ok.1 h
          cases hret
          rcases verifySgxEvidence_cases hverdict with rfl | rfl
          · cases hflag
          · exact ⟨oct, pubkey, rfl, hfound.mem, hpubkey, hverdict⟩
        · obtain ⟨hquote, hlength⟩ := (hcond.extension pubkey hsearched).resolve_left hfound
          rw [verifyContents_of_neither hsearched (not_exists.1 hfound) hquote] at h
          cases h
          rw [hlength] at hflag
          cases hflag
      · simp only [verifyContents, hpubkey, hbio, Bool.not_true, Bool.false_eq_true, if_false, ne_eq, hwrite,
          not_false_eq_true, if_true] at h
        cases h
        rw [hcond.pemWrite hsome hbio hwrite] at hflag
        cases hflag

theorem verify_of_leaf {ctx : StoreCtx} {ssl : SslSession} {old : ByteBuf 32} (hcert : ctx.currentCert = some cert)
    (hssl : ctx.ssl = some ssl) (hdepth : ctx.depth = 0) (herror : ctx.error = x509VErrDepthZeroSelfSignedCert) :
    verify env 0 ctx .serverside old =
      verifyCert env cert (sessionNonce ssl .serverside old) .serverside >>= fun result =>
        .ok (if hasVerifiedFlag result.1 then 1 else 0, result.2) := by
  have hok : (0 : Int) ≠ 1 := by decide
  simp only [verify, hcert, hssl, hok, if_false, hdepth, herror, and_self, if_true, pure_eq_ok]

/-- Where no code without a call of the evidence verifier has a verdict bit only the evidence decides. -/
theorem OnlyEvidenceDecides.of_unflagged (hchain : env.x509VerifyCert = 1)
    (hunflagged : ∀ rc, verifyContents env cert nonce = .ok (rc, none) → hasVerifiedFlag rc = false) :
    OnlyEvidenceDecides env cert := by
  constructor
  · exact hchain
  · intro hsome hbio hwrite
    obtain ⟨pubkey, hpubkey⟩ := Option.isSome_iff_exists.1 hsome
    apply hunflagged
    simp [verifyContents, hpubkey, hbio, hwrite]
  · intro hsome hbio hwrite
    obtain ⟨pubkey, hpubkey⟩ := Option.isSome_iff_exists.1 hsome
    by_contra hmalloc
    have hone : hasVerifiedFlag 1 = false := by
      apply hunflagged
      simp [verifyContents, hpubkey, hbio, hwrite, hmalloc]
    exact absurd hone (by decide)
  · intro pubkey hsearched
    by_cases hfound : ∃ oct, ExtensionFound env.calls cert tcgDiceTaggedOid oct
    · exact .inl hfound
    · have hquote : ∀ oct, ¬ ExtensionFound env.calls cert x509OidForQuote oct := by
        intro oct hquote
        have hflag : hasVerifiedFlag (VerifiedFlag.quote : Int) = false :=
          hunflagged _ (verifyContents_of_quote hsearched (not_exists.1 hfound) hquote)
        exact absurd hflag (by decide)
      exact .inr ⟨hquote, hunflagged _ (verifyContents_of_neither hsearched (not_exists.1 hfound) hquote)⟩

/-- Admission of a certificate says what it should exactly where only its evidence decides. -/
theorem verify_admission_iff (env : CertEnv) (ctx : StoreCtx) (old : ByteBuf 32) :
    AdmissionSound env ctx old ↔
      (ctx.depth = 0 → ctx.error = x509VErrDepthZeroSelfSignedCert → ∀ cert ssl, ctx.currentCert = some cert →
        ctx.ssl = some ssl → OnlyEvidenceDecides env cert) := by
  constructor
  · intro hsound hdepth herror cert ssl hcert hssl
    -- a code with a verdict bit and no call of the evidence verifier would be admitted
    have hadmitted : ∀ rc, verifyCert env cert (sessionNonce ssl .serverside old) .serverside = .ok (rc, none) →
        hasVerifiedFlag rc = true → False := by
      intro rc hrc hflag
      have hverify : verify env 0 ctx .serverside old = .ok (1, none) := by
        rw [verify_of_leaf hcert hssl hdepth herror, hrc, ok_bind, if_pos hflag]
      obtain ⟨-, cert', ssl', -, -, oct, pubkey, hcall, -⟩ := hsound hdepth herror none hverify
      cases hcall
    have hchain : env.x509VerifyCert = 1 := by
      by_contra hne
      exact hadmitted (-1) (by simp [verifyCert, hne]) (by decide)
    have hcontents : verifyCert env cert (sessionNonce ssl .serverside old) .serverside =
        verifyContents env cert (sessionNonce ssl .serverside old) := by simp [verifyCert, hchain]
    rw [hcontents] at hadmitted
    have hunflagged : ∀ rc, verifyContents env cert (sessionNonce ssl .serverside old) = .ok (rc, none) →
        hasVerifiedFlag rc = false := by
      intro rc hrc
      rw [Bool.eq_false_iff]
      exact hadmitted rc hrc
    exact .of_unflagged hchain hunflagged
  · intro hcond hdepth herror call hverify
    cases hcert : ctx.currentCert with
    | none =>
      simp only [verify, hcert] at hverify
      cases hverify
    | some cert =>
      cases hssl : ctx.ssl with
      | none =>
        simp only [verify, hcert, hssl] at hverify
        cases hverify
      | some ssl =>
        have honly := hcond hdepth herror cert ssl hcert hssl
        rw [verify_of_leaf hcert hssl hdepth herror] at hverify
        obtain ⟨⟨rc, call'⟩, hresult, hret⟩ := bind_eq_ok.1 hverify
        have hcontents : verifyContents env cert (sessionNonce ssl .serverside old) = .ok (rc, call') := by
          rw [← hresult]
          simp [verifyCert, honly.chain]
        by_cases hflag : hasVerifiedFlag rc = true
        · rw [if_pos hflag] at hret
          cases hret
          exact ⟨honly.chain, cert, ssl, rfl, rfl, honly.accepted hcontents hflag⟩
        · rw [if_neg hflag] at hret
          cases hret

/-! ### A certificate that is refused -/

/-- A server on which `X509_verify_cert` refuses the certificate. -/
def refusingServer : CertEnv where
  verifyEnv := verifyingEnclave
  stack := ⟨ByteBuf.zero 8192, 0, ByteBuf.zero 1000, 0, ByteBuf.zero 32, 0⟩
  calls := ⟨true, 1, true, fun _ => true⟩
  x509VerifyCert := 0

/-- A self-signed leaf without extensions. -/
def plainLeaf : StoreCtx where
  currentCert := some ⟨some shortKey.text, []⟩
  ssl := some ⟨⟨List.replicate 32 0, by decide⟩, ⟨List.replicate 32 0, by decide⟩⟩
  depth := 0
  error := x509VErrDepthZeroSelfSignedCert

/-- The refused certificate is admitted: -1 has both verdict bits. -/
theorem verify_admits_refused : ¬ AdmissionSound refusingServer plainLeaf (ByteBuf.zero 32) := by
  intro hsound
  have hverify : verify refusingServer 0 plainLeaf .serverside (ByteBuf.zero 32) = .ok (1, none) := rfl
  obtain ⟨hchain, -⟩ := hsound rfl rfl none hverify
  exact absurd hchain (by decide)

end PortableTlsRa
