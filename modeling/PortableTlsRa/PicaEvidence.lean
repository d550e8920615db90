import PortableTlsRa.Platform

/-!
# Extracting PICA evidence

`extract_tpm2evidence` and `extract_tpm2evidence_bundle`: from the bytes the attester sends to the quote, its
signature, the application hash and the process chain, and a bit for each of the first three.  Keys are compared with
`strncmp` over the length of the key that was sent, so that every prefix of a key is taken for it.
-/

namespace PortableTlsRa

open CSem Cbor

namespace ExtractFlag

def tpm2Qute : Nat := 1
def tpm2Sign : Nat := 2
def tpm2Aphash : Nat := 4

end ExtractFlag

def isExtractTpm2All (rc : Nat) : Bool := rc &&& 7 == 7

/-- What the output parameters of the two functions point to. -/
structure Evidence where
  quote : Bytes
  apphash : ByteBuf 32
  tpmSig : TpmtSignature
  picabody : Bytes
deriving DecidableEq

/-- The bytes of an item whose length is kept in an `int`. -/
def intSized (data : Bytes) : Checked Bytes :=
  let size := toInt32 data.length
  if size < 0 then .error .outOfBounds else .ok (data.take size.toNat)

variable (cbor : Libcbor) (tss2 : Tss2)

def unpackSercbor : Item → Option Item
  | .bytes data => cbor.load data
  | .bytesIndefinite => cbor.load []
  | _ => none

/-- One turn of the loop over the bundle; `exit` is `goto err_ext`, which keeps what was written before. -/
def bundleTurn (st : Nat × Evidence) (pair : Item × Item) : Checked (Turn (Nat × Evidence) Evidence) := do
  let (key, val) := pair
  let (rc, ev) := st
  if !key.isString then return .exit ev
  let name := key.stringBytes
  if strncmpEq (lit "quote") name then
    let quote ← cbor.bytestring val >>= intSized
    return .next (rc ||| ExtractFlag.tpm2Qute, { ev with quote := quote })
  else if strncmpEq (lit "sign") name then
    let sigBody ← cbor.bytestring val >>= intSized
    -- a failing call is reported and otherwise ignored
    let (_, tpmSig) := tss2.unmarshalSignature sigBody ev.tpmSig
    return .next (rc ||| ExtractFlag.tpm2Sign, { ev with tpmSig := tpmSig })
  else if strncmpEq (lit "app-hash") name then
    let body ← cbor.bytestring val >>= intSized
    let apphash ← memcpy ev.apphash body
    return .next (rc ||| ExtractFlag.tpm2Aphash, { ev with apphash := apphash })
  else return .exit ev

def extractTpm2evidenceBundle (item : Item) (ev : Evidence) : Checked (Nat × Evidence) := do
  match unpackSercbor cbor item with
  | some (.map _ pairs) =>
    match ← forEach (bundleTurn cbor tss2) (0, ev) (pairs.take (toInt32 pairs.length).toNat) with
    | .next (rc, ev) => return (rc, ev)
    | .exit ev => return (0, ev)
  | _ => return (0, ev)

/-- One turn of the loop over the evidence map, which is never left early. -/
def evidenceTurn (st : Nat × Evidence) (pair : Item × Item) : Checked (Turn (Nat × Evidence) Empty) := do
  let (key, val) := pair
  let (rc, ev) := st
  if !key.isString then return .next (rc, ev)
  let name := key.stringBytes
  if strncmpEq (lit "tpm2_quote") name then
    let (bits, ev) ← extractTpm2evidenceBundle cbor tss2 val ev
    return .next (rc ||| bits, ev)
  else if strncmpEq (lit "pica") name then
    let picabody ← cbor.bytestring val
    return .next (rc, { ev with picabody := picabody })
  else return .next (rc, ev)

def extractTpm2evidence (measure : Bytes) (ev : Evidence) : Checked (Nat × Evidence) := do
  match cbor.load measure with
  | some (.map _ pairs) =>
    if pairs.length ≠ 2 then return (0, ev)
    match ← forEach (evidenceTurn cbor tss2) (0, ev) pairs with
    | .next (rc, ev) => return (rc, ev)
  | _ => return (0, ev)

/-! ### The bits of a result -/

variable {cbor tss2}

theorem bits_or_lt {a b : Nat} (ha : a < 8) (hb : b < 8) : a ||| b < 8 := Nat.or_lt_two_pow (n := 3) ha hb

theorem bundleTurn_bits {st st' : Nat × Evidence} {pair : Item × Item} (hst : st.1 < 8)
    (h : bundleTurn cbor tss2 st pair = .ok (.next st')) : st'.1 < 8 := by
  obtain ⟨key, val⟩ := pair
  obtain ⟨rc, ev⟩ := st
  simp only [bundleTurn] at h
  split_ifs at h
  · cases h
  · obtain ⟨quote, -, hret⟩ := bind_eq_ok.1 h
    cases hret
    exact bits_or_lt hst (by decide)
  · obtain ⟨sigBody, -, hret⟩ := bind_eq_ok.1 h
    cases hret
    exact bits_or_lt hst (by decide)
  · obtain ⟨body, -, hret⟩ := bind_eq_ok.1 h
    obtain ⟨apphash, -, hret⟩ := bind_eq_ok.1 hret
    cases hret
    exact bits_or_lt hst (by decide)
  · cases h

theorem extractTpm2evidenceBundle_bits {item : Item} {ev : Evidence} {out : Nat × Evidence}
    (h : extractTpm2evidenceBundle cbor tss2 item ev = .ok out) : out.1 < 8 := by
  unfold extractTpm2evidenceBundle at h
  split at h
  · obtain ⟨turn, hloop, hret⟩ := bind_eq_ok.1 h
    cases turn with
    | next st =>
      cases hret
      apply forEach_invariant (fun _ st => st.1 < 8) (Nat.succ_pos 7) _ hloop
      intro _ pair st st' hst hturn
      exact bundleTurn_bits hst hturn
    | exit ev =>
      cases hret
      exact Nat.succ_pos 7
  · cases h
    exact Nat.succ_pos 7

theorem evidenceTurn_bits {st st' : Nat × Evidence} {pair : Item × Item} (hst : st.1 < 8)
    (h : evidenceTurn cbor tss2 st pair = .ok (.next st')) : st'.1 < 8 := by
  obtain ⟨key, val⟩ := pair
  obtain ⟨rc, ev⟩ := st
  simp only [evidenceTurn] at h
  split_ifs at h
  · cases h
    exact hst
  · obtain ⟨⟨bits, ev'⟩, hbundle, hret⟩ := bind_eq_ok.1 h
    cases hret
    exact bits_or_lt hst (extractTpm2evidenceBundle_bits hbundle)
  · obtain ⟨body, -, hret⟩ := bind_eq_ok.1 h
    cases hret
    exact hst
  · cases h
    exact hst

/-- The result is a set of the three extraction bits. -/
theorem extractTpm2evidence_bits {measure : Bytes} {ev : Evidence} {out : Nat × Evidence}
    (h : extractTpm2evidence cbor tss2 measure ev = .ok out) : out.1 < 8 := by
  unfold extractTpm2evidence at h
  split at h
  · split_ifs at h
    · cases h
      exact Nat.succ_pos 7
    · obtain ⟨turn, hloop, hret⟩ := bind_eq_ok.1 h
      cases turn with
      | exit e => exact e.elim
      | next st =>
        cases hret
        apply forEach_invariant (fun _ st => st.1 < 8) (Nat.succ_pos 7) _ hloop
        intro _ pair st st' hst hturn
        exact evidenceTurn_bits hst hturn
  · cases h
    exact Nat.succ_pos 7

/-! ### Entries with their own keys -/

theorem intSized_of_lt {data : Bytes} (h : data.length < 2 ^ 31) : intSized data = .ok data := by
  simp [intSized, toInt32_of_lt h]

theorem bundleTurn_quote {rc : Nat} {ev : Evidence} {data : Bytes} (h : data.length < 2 ^ 31) :
    bundleTurn cbor tss2 (rc, ev) (.text (lit "quote"), .bytes data) =
      .ok (.next (rc ||| ExtractFlag.tpm2Qute, { ev with quote := data })) := by
  simp [bundleTurn, Item.isString, Item.stringBytes, Libcbor.bytestring, intSized_of_lt h]

theorem bundleTurn_sign {rc : Nat} {ev : Evidence} {data : Bytes} (h : data.length < 2 ^ 31) :
    bundleTurn cbor tss2 (rc, ev) (.text (lit "sign"), .bytes data) =
      .ok (.next (rc ||| ExtractFlag.tpm2Sign, { ev with tpmSig := (tss2.unmarshalSignature data ev.tpmSig).2 })) := by
  have hother : strncmpEq (lit "quote") (lit "sign") = false := by decide
  simp [bundleTurn, Item.isString, Item.stringBytes, Libcbor.bytestring, intSized_of_lt h, hother]

theorem bundleTurn_appHash {rc : Nat} {ev : Evidence} (data : ByteBuf 32) :
    bundleTurn cbor tss2 (rc, ev) (.text (lit "app-hash"), .bytes data.1) =
      .ok (.next (rc ||| ExtractFlag.tpm2Aphash, { ev with apphash := data })) := by
  have hquote : strncmpEq (lit "quote") (lit "app-hash") = false := by decide
  have hsign : strncmpEq (lit "sign") (lit "app-hash") = false := by decide
  simp [bundleTurn, Item.isString, Item.stringBytes, Libcbor.bytestring, intSized_of_lt, data.2, hquote, hsign,
    memcpy_of_length]

theorem evidenceTurn_tpm2Quote {rc : Nat} {ev : Evidence} {val : Item} {bits : Nat} {ev' : Evidence}
    (h : extractTpm2evidenceBundle cbor tss2 val ev = .ok (bits, ev')) :
    evidenceTurn cbor tss2 (rc, ev) (.text (lit "tpm2_quote"), val) = .ok (.next (rc ||| bits, ev')) := by
  simp [evidenceTurn, Item.isString, Item.stringBytes, h]

theorem evidenceTurn_pica {rc : Nat} {ev : Evidence} {data : Bytes} :
    evidenceTurn cbor tss2 (rc, ev) (.text (lit "pica"), .bytes data) =
      .ok (.next (rc, { ev with picabody := data })) := by
  have hother : strncmpEq (lit "tpm2_quote") (lit "pica") = false := by decide
  simp [evidenceTurn, Item.isString, Item.stringBytes, Libcbor.bytestring, hother]

end PortableTlsRa
