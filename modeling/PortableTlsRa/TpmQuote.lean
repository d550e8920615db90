import PortableTlsRa.Platform

/-!
# Making a TPM2 quote

`make_tpm2_quote` of the daemon.  The variable for its code gets the code of `make_sig_scheme`, so that it is 0 before
the quote is made, and no later failure changes it; `struct tpm2_quote` then keeps what it held before, in whole or in
part (`makeTpm2Quote_spec`).
-/

namespace PortableTlsRa.Libquote

open CSem

/-- `struct tpm2_quote`, with the arrays in full. -/
structure QuoteStruct where
  qtype : Int
  qsize : Int
  ssize : Int
  quote : ByteBuf 256
  sign : ByteBuf 518

def quoteTpm2 : Int := 1

/-! ### The key and the registers -/

/-- The fields of `TPMT_PUBLIC` that are read. -/
structure PublicArea where
  objectAttributes : UInt32
  type : UInt16
  scheme : UInt16
  hashAlg : UInt16

structure SigScheme where
  scheme : UInt16
  hashAlg : UInt16

def tpmaObjectSignEncrypt : UInt32 := 0x00040000

def tpm2AlgRsa : UInt16 := 0x0001
def tpm2AlgNull : UInt16 := 0x0010
def tpm2AlgEcc : UInt16 := 0x0023

/-- On the code and the public area of `Esys_ReadPublic`; none stands for the code -1. -/
def makeSigScheme (readPublic : UInt32 × PublicArea) : Option SigScheme :=
  let (rc, pub) := readPublic
  if rc ≠ 0 then none
  else if pub.objectAttributes &&& tpmaObjectSignEncrypt = 0 then none
  else if pub.scheme ≠ tpm2AlgNull ∧ pub.hashAlg ≠ tpm2AlgNull ∧ pub.hashAlg ≠ Tpm2Alg.sha256 then none
  else if pub.type = tpm2AlgRsa then
    if pub.scheme = tpm2AlgNull then some ⟨Tpm2Alg.rsassa, Tpm2Alg.sha256⟩
    else if pub.scheme = Tpm2Alg.rsassa ∨ pub.scheme = Tpm2Alg.rsapss then some ⟨pub.scheme, Tpm2Alg.sha256⟩
    else none
  else if pub.type = tpm2AlgEcc then
    if pub.scheme = tpm2AlgNull then some ⟨Tpm2Alg.ecdsa, Tpm2Alg.sha256⟩
    else if pub.scheme = Tpm2Alg.ecdsa then some ⟨pub.scheme, Tpm2Alg.sha256⟩
    else none
  else none

/-- `pcrSelect[pcr / 8] |= 1 << (pcr % 8)`. -/
def selectPcr (sel : ByteBuf 4) (pcr : Fin 32) : ByteBuf 4 :=
  ⟨sel.1.modify (pcr.1 / 8) (· ||| 1 <<< UInt8.ofNat (pcr.1 % 8)), by rw [List.length_modify, sel.2]⟩

/-- One bank with 24 registers. -/
def pcrSelect (alg : UInt16) (pcrs : List (Fin 32)) : TpmlPcrSelection where
  count := 1
  pcrSelections := ⟨⟨alg, 3, pcrs.foldl selectPcr (ByteBuf.zero 4)⟩ :: List.replicate 15 ⟨0, 0, ByteBuf.zero 4⟩, rfl⟩

/-! ### The quote -/

/-- What the calls of one `make_tpm2_quote` return.  `quote` is `Esys_Quote`, with the attestation and the signature
that it allocates; `marshalSignature` gives the code and the bytes that are written, in part where it fails. -/
structure QuoteCalls where
  tctiInitialize : UInt32
  esysInitialize : UInt32
  trFromTpmPublic : UInt32
  trSetAuth : UInt32
  readPublic : UInt32 × PublicArea
  quote : ByteBuf 32 → SigScheme → TpmlPcrSelection → UInt32 × Bytes × TpmtSignature
  marshalSignature : TpmtSignature → UInt32 × { s : Bytes // s.length ≤ 518 }

/-- From `Esys_Quote` on, with the code 0; what `t_quote` holds then. -/
def quoteAndMarshal (calls : QuoteCalls) (udata : ByteBuf 32) (sigScheme : SigScheme) (pcrSel : TpmlPcrSelection)
    (tQuote : QuoteStruct) : Checked QuoteStruct := do
  let (rc, quoted, sig) := calls.quote udata sigScheme pcrSel
  if rc ≠ 0 then return tQuote
  if quoted.length > 256 then return tQuote
  let quote ← memcpy tQuote.quote quoted
  let (rc, off) := calls.marshalSignature sig
  let sign ← memcpy tQuote.sign off.1
  let tQuote := { tQuote with qtype := quoteTpm2, qsize := quoted.length, quote := quote, sign := sign }
  if rc ≠ 0 then return tQuote
  return { tQuote with ssize := off.1.length }

/-- Returns the code and what `t_quote` holds then. -/
def makeTpm2Quote (calls : QuoteCalls) (udata : ByteBuf 32) (alg : UInt16) (pcrs : List (Fin 32))
    (tQuote : QuoteStruct) : Checked (Int × QuoteStruct) := do
  if calls.tctiInitialize ≠ 0 then return (-1, tQuote)
  if calls.esysInitialize ≠ 0 then return (-1, tQuote)
  if calls.trFromTpmPublic ≠ 0 then return (-1, tQuote)
  -- the code of Esys_TR_SetAuth is overwritten
  match makeSigScheme calls.readPublic with
  | none => return (-1, tQuote)
  | some sigScheme =>
    let tQuote ← quoteAndMarshal calls udata sigScheme (pcrSelect alg pcrs) tQuote
    return (0, tQuote)

/-! ### What is left in the structure -/

/-- The calls before `Esys_Quote` let it be made, with this scheme. -/
structure QuoteCalls.Reached (calls : QuoteCalls) (sigScheme : SigScheme) : Prop where
  tctiInitialize : calls.tctiInitialize = 0
  esysInitialize : calls.esysInitialize = 0
  trFromTpmPublic : calls.trFromTpmPublic = 0
  sigScheme : makeSigScheme calls.readPublic = some sigScheme

/-- `Esys_Quote` is called, succeeds, and gives a quote over the extra data that fits the structure. -/
structure QuoteCalls.Quoted (calls : QuoteCalls) (udata : ByteBuf 32) (alg : UInt16) (pcrs : List (Fin 32))
    (quoted : Bytes) (sig : TpmtSignature) : Prop where
  quote : ∃ sigScheme, calls.Reached sigScheme ∧ calls.quote udata sigScheme (pcrSelect alg pcrs) = (0, quoted, sig)
  size_le : quoted.length ≤ 256

/-- Bytes are written over the start of a buffer. -/
def Overwritten {n : Nat} (old : ByteBuf n) (bytes : Bytes) (new : ByteBuf n) : Prop :=
  new.1 = bytes ++ old.1.drop bytes.length

/-- What `t_quote` holds after a call whose code is 0. -/
inductive QuoteCalls.Leaves (calls : QuoteCalls) (udata : ByteBuf 32) (alg : UInt16) (pcrs : List (Fin 32))
    (old : QuoteStruct) : QuoteStruct → Prop where
  /-- `Esys_Quote` fails, or gives too much -/
  | unquoted {sigScheme : SigScheme} : calls.Reached sigScheme →
      (∀ quoted sig, ¬ calls.Quoted udata alg pcrs quoted sig) → calls.Leaves udata alg pcrs old old
  /-- the signature is not marshalled -/
  | unsigned {quoted : Bytes} {sig : TpmtSignature} {quote : ByteBuf 256} {sign : ByteBuf 518} :
      calls.Quoted udata alg pcrs quoted sig → (calls.marshalSignature sig).1 ≠ 0 →
      Overwritten old.quote quoted quote → Overwritten old.sign (calls.marshalSignature sig).2.1 sign →
      calls.Leaves udata alg pcrs old ⟨quoteTpm2, quoted.length, old.ssize, quote, sign⟩
  | signed {quoted : Bytes} {sig : TpmtSignature} {quote : ByteBuf 256} {sign : ByteBuf 518} :
      calls.Quoted udata alg pcrs quoted sig → (calls.marshalSignature sig).1 = 0 →
      Overwritten old.quote quoted quote → Overwritten old.sign (calls.marshalSignature sig).2.1 sign →
      calls.Leaves udata alg pcrs old
        ⟨quoteTpm2, quoted.length, (calls.marshalSignature sig).2.1.length, quote, sign⟩

variable {calls : QuoteCalls} {udata : ByteBuf 32} {alg : UInt16} {pcrs : List (Fin 32)} {old : QuoteStruct}

theorem QuoteCalls.Reached.unique {sigScheme sigScheme' : SigScheme} (h : calls.Reached sigScheme)
    (h' : calls.Reached sigScheme') : sigScheme = sigScheme' :=
  Option.some_inj.1 (h.sigScheme.symm.trans h'.sigScheme)

theorem QuoteCalls.Quoted.unique {quoted quoted' : Bytes} {sig sig' : TpmtSignature}
    (h : calls.Quoted udata alg pcrs quoted sig) (h' : calls.Quoted udata alg pcrs quoted' sig') :
    quoted = quoted' ∧ sig = sig' := by
  obtain ⟨⟨sigScheme, hreached, hquote⟩, -⟩ := h
  obtain ⟨⟨sigScheme', hreached', hquote'⟩, -⟩ := h'
  rw [hreached.unique hreached', hquote'] at hquote
  cases hquote
  exact ⟨rfl, rfl⟩

theorem QuoteCalls.Leaves.reached {tQuote : QuoteStruct} (h : calls.Leaves udata alg pcrs old tQuote) :
    ∃ sigScheme, calls.Reached sigScheme := by
  cases h with
  | unquoted hreached _ => exact ⟨_, hreached⟩
  | unsigned hquoted _ _ _ =>
    obtain ⟨sigScheme, hreached, -⟩ := hquoted.quote
    exact ⟨sigScheme, hreached⟩
  | signed hquoted _ _ _ =>
    obtain ⟨sigScheme, hreached, -⟩ := hquoted.quote
    exact ⟨sigScheme, hreached⟩

theorem memcpy_overwritten {n : Nat} (old : ByteBuf n) {bytes : Bytes} (h : bytes.length ≤ n) :
    ∃ new, memcpy old bytes = .ok new ∧ Overwritten old bytes new := by
  obtain ⟨new, hnew, -⟩ := memcpy_of_le old h
  exact ⟨new, hnew, memcpy_eq_ok hnew⟩

theorem Overwritten.unique {n : Nat} {old new new' : ByteBuf n} {bytes : Bytes} (h : Overwritten old bytes new)
    (h' : Overwritten old bytes new') : new = new' :=
  Subtype.ext (h.trans h'.symm)

theorem QuoteCalls.Leaves.unique {tQuote tQuote' : QuoteStruct} (h : calls.Leaves udata alg pcrs old tQuote)
    (h' : calls.Leaves udata alg pcrs old tQuote') : tQuote = tQuote' := by
  cases h with
  | unquoted _ hnone =>
    cases h' with
    | unquoted _ _ => rfl
    | unsigned hquoted _ _ _ => exact absurd hquoted (hnone _ _)
    | signed hquoted _ _ _ => exact absurd hquoted (hnone _ _)
  | unsigned hquoted hmarshal hquote hsign =>
    cases h' with
    | unquoted _ hnone => exact absurd hquoted (hnone _ _)
    | unsigned hquoted' _ hquote' hsign' =>
      obtain ⟨rfl, rfl⟩ := hquoted.unique hquoted'
      rw [hquote.unique hquote', hsign.unique hsign']
    | signed hquoted' hmarshal' _ _ =>
      obtain ⟨rfl, rfl⟩ := hquoted.unique hquoted'
      exact absurd hmarshal' hmarshal
  | signed hquoted hmarshal hquote hsign =>
    cases h' with
    | unquoted _ hnone => exact absurd hquoted (hnone _ _)
    | unsigned hquoted' hmarshal' _ _ =>
      obtain ⟨rfl, rfl⟩ := hquoted.unique hquoted'
      exact absurd hmarshal hmarshal'
    | signed hquoted' _ hquote' hsign' =>
      obtain ⟨rfl, rfl⟩ := hquoted.unique hquoted'
      rw [hquote.unique hquote', hsign.unique hsign']

/-- Every failure from `Esys_Quote` on leaves the structure as it is by then. -/
theorem quoteAndMarshal_leaves {sigScheme : SigScheme} (hreached : calls.Reached sigScheme) (udata : ByteBuf 32)
    (alg : UInt16) (pcrs : List (Fin 32)) (old : QuoteStruct) :
    ∃ tQuote, quoteAndMarshal calls udata sigScheme (pcrSelect alg pcrs) old = .ok tQuote ∧
      calls.Leaves udata alg pcrs old tQuote := by
  unfold quoteAndMarshal
  rcases hquote : calls.quote udata sigScheme (pcrSelect alg pcrs) with ⟨rc, quoted, sig⟩
  have hquoted : ∀ quoted' sig', calls.Quoted udata alg pcrs quoted' sig' → rc = 0 ∧ quoted.length ≤ 256 := by
    intro quoted' sig' h
    obtain ⟨⟨sigScheme', hreached', hquote'⟩, hle⟩ := h
    rw [hreached'.unique hreached, hquote] at hquote'
    cases hquote'
    exact ⟨rfl, hle⟩
  simp only
  by_cases hrc : rc = 0
  · rw [if_neg (not_not.2 hrc)]
    by_cases hsize : quoted.length ≤ 256
    · rw [if_neg (Nat.not_lt.2 hsize)]
      have hmade : calls.Quoted udata alg pcrs quoted sig := ⟨⟨sigScheme, hreached, hrc ▸ hquote⟩, hsize⟩
      obtain ⟨quote, hcopy, hover⟩ := memcpy_overwritten old.quote hsize
      obtain ⟨sign, hcopySign, hoverSign⟩ := memcpy_overwritten old.sign (calls.marshalSignature sig).2.2
      rw [hcopy, ok_bind, hcopySign, ok_bind]
      by_cases hmarshal : (calls.marshalSignature sig).1 = 0
      · rw [if_neg (not_not.2 hmarshal)]
        exact ⟨_, rfl, .signed hmade hmarshal hover hoverSign⟩
      · rw [if_pos hmarshal]
        exact ⟨_, rfl, .unsigned hmade hmarshal hover hoverSign⟩
    · rw [if_pos (Nat.lt_of_not_le hsize)]
      exact ⟨old, rfl, .unquoted hreached fun _ _ h => hsize (hquoted _ _ h).2⟩
  · rw [if_pos hrc]
    exact ⟨old, rfl, .unquoted hreached fun _ _ h => hrc (hquoted _ _ h).1⟩

/-- The code is -1 and nothing is written, or it is 0 whatever `Esys_Quote` and what follows it do. -/
theorem makeTpm2Quote_spec (calls : QuoteCalls) (udata : ByteBuf 32) (alg : UInt16) (pcrs : List (Fin 32))
    (old : QuoteStruct) :
    (¬ ∃ sigScheme, calls.Reached sigScheme) ∧ makeTpm2Quote calls udata alg pcrs old = .ok (-1, old) ∨
      ∃ tQuote, calls.Leaves udata alg pcrs old tQuote ∧ makeTpm2Quote calls udata alg pcrs old = .ok (0, tQuote) := by
  unfold makeTpm2Quote
  by_cases htcti : calls.tctiInitialize = 0
  · by_cases hesys : calls.esysInitialize = 0
    · by_cases hfrom : calls.trFromTpmPublic = 0
      · rw [if_neg (not_not.2 htcti), if_neg (not_not.2 hesys), if_neg (not_not.2 hfrom)]
        cases hscheme : makeSigScheme calls.readPublic with
        | none =>
          refine .inl ⟨?_, rfl⟩
          intro ⟨sigScheme, hreached⟩
          rw [hreached.sigScheme] at hscheme
          cases hscheme
        | some sigScheme =>
          obtain ⟨tQuote, hmake, hleaves⟩ :=
            quoteAndMarshal_leaves ⟨htcti, hesys, hfrom, hscheme⟩ udata alg pcrs old
          exact .inr ⟨tQuote, hleaves, by simp only [hmake, ok_bind, pure_eq_ok]⟩
      · rw [if_neg (not_not.2 htcti), if_neg (not_not.2 hesys), if_pos hfrom]
        exact .inl ⟨fun ⟨_, hreached⟩ => hfrom hreached.trFromTpmPublic, rfl⟩
    · rw [if_neg (not_not.2 htcti), if_pos hesys]
      exact .inl ⟨fun ⟨_, hreached⟩ => hesys hreached.esysInitialize, rfl⟩
  · rw [if_pos htcti]
    exact .inl ⟨fun ⟨_, hreached⟩ => htcti hreached.tctiInitialize, rfl⟩

/-- After a quote whose signature is marshalled the structure has both. -/
theorem QuoteCalls.Leaves.signed_of {tQuote : QuoteStruct} (h : calls.Leaves udata alg pcrs old tQuote)
    {quoted : Bytes} {sig : TpmtSignature} {sign : { s : Bytes // s.length ≤ 518 }}
    (hquoted : calls.Quoted udata alg pcrs quoted sig) (hmarshal : calls.marshalSignature sig = (0, sign)) :
    tQuote.qsize = quoted.length ∧ tQuote.quote.1.take quoted.length = quoted ∧
      tQuote.ssize = sign.1.length ∧ tQuote.sign.1.take sign.1.length = sign.1 := by
  cases h with
  | unquoted _ hnone => exact absurd hquoted (hnone _ _)
  | unsigned hquoted' hmarshal' _ _ =>
    obtain ⟨rfl, rfl⟩ := hquoted.unique hquoted'
    rw [hmarshal] at hmarshal'
    exact absurd rfl hmarshal'
  | @signed _ _ quote' sign' hquoted' _ hquote hsign =>
    obtain ⟨rfl, rfl⟩ := hquoted.unique hquoted'
    rw [hmarshal] at hsign ⊢
    have htake : quote'.1.take quoted.length = quoted := by
      rw [show quote'.1 = _ from hquote]
      exact List.take_left
    have htakeSign : sign'.1.take sign.1.length = sign.1 := by
      rw [show sign'.1 = _ from hsign]
      exact List.take_left
    exact ⟨rfl, htake, rfl, htakeSign⟩

end PortableTlsRa.Libquote
