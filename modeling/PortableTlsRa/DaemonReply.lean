import PortableTlsRa.AttesterDaemon
import PortableTlsRa.ProcChain
import PortableTlsRa.TpmQuote

/-!
# The replies of the attester daemon

From a request to the header that is sent, with what every call on the way returns: `ecall_unseal`,
`make_tpm2_quote_with_pid`, `make_tpm2_pica` and the two reply functions.  The callers of
`make_tpm2_quote_with_pid` do not look at its code and the reply functions do not look at the size of the quote, so
that only a failure of the reply's own map is reported (`tpmddaemon_right_iff`).
-/

namespace PortableTlsRa.Tpmdaemon

open CSem Cbor Libquote

/-- `struct tpmd_packet`. -/
structure TpmdPacket where
  cmd : UInt16
  aux : UInt16
  len : UInt32
  data : Bytes
deriving DecidableEq

def tpmdRplAttest : UInt16 := 0x0102
def tpmdRplPica : UInt16 := 0x0103
def tpmdAuxOk : UInt16 := 0x0
def tpmdAuxErr : UInt16 := 0x1

/-! ### Maps -/

/-- Which calls of one `add_cbor_map` succeed. -/
structure AddCalls where
  key : Bool
  val : Bool
  add : Bool

/-- One call of `add_cbor_map`; the value is null or points to an array. -/
structure Entry where
  calls : AddCalls
  key : String
  val : Option Bytes
  sz : Nat

/-- What a function that is given a pointer and a size reads. -/
def readBytes (p : Option Bytes) (sz : Nat) : Checked Bytes :=
  if sz = 0 then .ok [] else do readRange (← deref p) 0 sz

/-- Returns the map, unless the code is 0. -/
def addCborMap (map : List (Item × Item)) (e : Entry) : Checked (Option (List (Item × Item))) := do
  if !e.calls.key then return none
  if !e.calls.val then return none
  let bytes ← readBytes e.val e.sz
  if !e.calls.add then return none
  return some (PortableTlsRa.addCborMap map e.key bytes)

/-- Calls of `add_cbor_map`, up to the first that fails. -/
def addEntries : List (Item × Item) → List Entry → Checked (Option (List (Item × Item)))
  | map, [] => .ok (some map)
  | map, e :: es => do
    match ← addCborMap map e with
    | none => return none
    | some map => addEntries map es

/-- `cbor_new_definite_map` and the entries that the map is made for. -/
def buildMap (newMap : Bool) (entries : List Entry) : Checked (Option (List (Item × Item))) :=
  if newMap then addEntries [] entries else .ok none

/-- `cbor_serialize_alloc`; the size is 0 where it fails. -/
def serializeAlloc (succeeds : Bool) (map : List (Item × Item)) : Bytes :=
  if succeeds then encode (.map true map) else []

/-! ### One request -/

/-- What the calls for one request return, and what the variables hold at first.  `measured` is the digest that
`sha256_pid` has given when the connection was accepted, `unmeasured` what `apphash` and `usize` hold if it has failed;
`procchain` and `pcsz` are what `mycbor_pack_procchain` returns and the size if that is null, `chainMeasured` whether
every call on its way has succeeded; `chainDigest` is whether `SHA256` does. -/
structure RequestEnv where
  measured : Option (ByteBuf 32)
  unmeasured : ByteBuf 32 × UInt32
  ecall : UInt32
  decdata : Bool
  unsealData : Bytes → UInt32 × Bytes
  unsealed : ByteBuf 32
  procchain : Option Bytes
  pcsz : Nat
  chainMeasured : Bool
  chainDigest : Bool
  hash : ByteBuf 32
  digestCalls : DigestCalls
  newhash : ByteBuf 32
  quoteCalls : QuoteCalls
  tQuote : QuoteStruct
  unmarshalAttest : Bytes → TpmsAttest → UInt32 × TpmsAttest
  tpmAtst : TpmsAttest
  bundleMap : Bool
  addQuote : AddCalls
  addSign : AddCalls
  addAppHash : AddCalls
  bundleSerialize : Bool
  buf : ByteBuf 2048
  headCmd : UInt16
  replyMap : Bool
  replyFirst : AddCalls
  replySecond : AddCalls
  replySerialize : Bool

inductive Request where
  | attest (sealedData : Bytes)
  | pica (nonce : ByteBuf 32)

variable (sha256 : Bytes → ByteBuf 32) (env : RequestEnv)

namespace RequestEnv

def apphash : ByteBuf 32 := env.measured.getD env.unmeasured.1

def usize : UInt32 := if env.measured.isSome then 32 else env.unmeasured.2

/-- The size that `mycbor_pack_procchain` writes. -/
def chainSize : Nat := (env.procchain.map List.length).getD env.pcsz

/-- What `hash` holds after the call of `SHA256` for the bytes of the chain. -/
def chainHash (sha256 : Bytes → ByteBuf 32) (chain : Bytes) : ByteBuf 32 :=
  if env.chainDigest then sha256 chain else env.hash

end RequestEnv

def sgxErrorOutOfMemory : UInt32 := 3

/-- In the enclave, where `outp` is cleared; returns the status and `outp`. -/
def ecallUnseal (datp : Bytes) : Checked (UInt32 × ByteBuf 32) := do
  let outp := ByteBuf.zero 32
  if !env.decdata then return (sgxErrorOutOfMemory, outp)
  let (st, decdata) := env.unsealData datp
  if st ≠ 0 then return (st, outp)
  -- len_out is not compared with the length
  let outp ← memcpy outp decdata
  return (st, outp)

/-- What `unsealed` holds after the call from outside, whose two codes are not looked at. -/
def unsealNonce (sealedData : Bytes) : Checked (ByteBuf 32) := do
  if env.ecall ≠ 0 then return env.unsealed
  let (_, outp) ← ecallUnseal env sealedData
  return outp

def quotedPcrs : List (Fin 32) := [0, 1, 2, 7, 10]

def bundleEntries (tQuote : QuoteStruct) (apphash : ByteBuf 32) (appsz : Int) : List Entry :=
  [⟨env.addQuote, "quote", some tQuote.quote.1, toUint64 tQuote.qsize⟩,
    ⟨env.addSign, "sign", some tQuote.sign.1, toUint64 tQuote.ssize⟩,
    ⟨env.addAppHash, "app-hash", some apphash.1, toUint64 appsz⟩]

/-- The type that the quote is printed with. -/
def attestOf (tQuote : QuoteStruct) : UInt32 × TpmsAttest :=
  env.unmarshalAttest (tQuote.quote.1.take (toUint64 tQuote.qsize)) env.tpmAtst

/-- The bundle in the buffer, and its size, which is reported also where nothing is copied. -/
def serializeBundle (tQuote : QuoteStruct) (apphash : ByteBuf 32) (appsz : Int) : Checked (ByteBuf 2048 × Nat) := do
  match ← buildMap env.bundleMap (bundleEntries env tQuote apphash appsz) with
  | none => return (env.buf, 0)
  | some map =>
    let tpm2Qbuf := serializeAlloc env.bundleSerialize map
    if tpm2Qbuf.length = 0 ∨ tpm2Qbuf.length > 2048 then return (env.buf, tpm2Qbuf.length)
    let tpm2Serial ← memcpy env.buf tpm2Qbuf
    return (tpm2Serial, tpm2Qbuf.length)

/-- Returns the code, the buffer and the size. -/
def makeTpm2QuoteWithPid (nonce apphash : ByteBuf 32) (appsz : Int) : Checked (Int × ByteBuf 2048 × Nat) := do
  -- the code of the hash is overwritten by that of the quote
  let (_, newhash) := hashExtendSha256 sha256 env.digestCalls apphash nonce env.newhash
  let (rc, tQuote) ← makeTpm2Quote env.quoteCalls newhash Tpm2Alg.sha256 quotedPcrs env.tQuote
  if rc < 0 then return (rc, env.buf, 0)
  let (_, tpmAtst) := attestOf env tQuote
  if tpmAtst.type ≠ tpm2StAttestQuote then return (rc, env.buf, 0)
  let (tpm2Serial, sz) ← serializeBundle env tQuote apphash appsz
  return (0, tpm2Serial, sz)

/-- Returns the buffer and its size; the process chain is that of the environment. -/
def makeTpm2Pica (nonce : ByteBuf 32) : Checked (ByteBuf 2048 × Nat) := do
  -- SHA256 is given the chain also where it is null
  let chain ← readBytes env.procchain env.chainSize
  let (_, tpm2Ser, qsz) ← makeTpm2QuoteWithPid sha256 env nonce (env.chainHash sha256 chain) 32
  return (tpm2Ser, qsz)

/-- What the two reply functions have in common.  `cmdErr` is the command where the map cannot be serialised. -/
def reply (cmd cmdErr : UInt16) (entries : List Entry) : Checked TpmdPacket := do
  match ← buildMap env.replyMap entries with
  | none => return ⟨env.headCmd, tpmdAuxErr, 0, []⟩
  | some map =>
    let sendbuf := serializeAlloc env.replySerialize map
    if sendbuf.length = 0 then return ⟨cmdErr, tpmdAuxErr, 0, []⟩
    return ⟨cmd, tpmdAuxOk, UInt32.ofNat sendbuf.length, sendbuf⟩

def replyAttest (nonce : ByteBuf 32) (tpm2Quote : ByteBuf 2048) (size : Nat) : Checked TpmdPacket :=
  reply env tpmdRplAttest tpmdRplAttest
    [⟨env.replyFirst, "nonce", some nonce.1, 32⟩, ⟨env.replySecond, "tpm2_quote", some tpm2Quote.1, size⟩]

/-- The command of an error is never set. -/
def replyPica (tpm2Quote : ByteBuf 2048) (tSize : Nat) (pica : Option Bytes) (pSize : Nat) : Checked TpmdPacket :=
  reply env tpmdRplPica env.headCmd
    [⟨env.replyFirst, "tpm2_quote", some tpm2Quote.1, tSize⟩, ⟨env.replySecond, "pica", pica, pSize⟩]

/-- One turn of the inner loop of `tpmddaemon`: the packet that is sent. -/
def tpmddaemon : Request → Checked TpmdPacket
  | .attest sealedData => do
    let unsealed ← unsealNonce env sealedData
    let (_, buf, size) ← makeTpm2QuoteWithPid sha256 env unsealed env.apphash (toInt32 env.usize.toNat)
    replyAttest env unsealed buf size
  | .pica nonce => do
    let (buf, size) ← makeTpm2Pica sha256 env nonce
    replyPica env buf size env.procchain env.chainSize

/-! ### Maps that are built -/

def AddCalls.Succeed (c : AddCalls) : Prop := c.key = true ∧ c.val = true ∧ c.add = true

instance (c : AddCalls) : Decidable c.Succeed := by
  unfold AddCalls.Succeed
  infer_instance

/-- The size is within the array. -/
def Entry.Readable (e : Entry) : Prop := e.sz = 0 ∨ ∃ cells, e.val = some cells ∧ e.sz ≤ cells.length

/-- The bytes that are copied. -/
def Entry.bytes (e : Entry) : Bytes := (e.val.getD []).take e.sz

def Entry.Added (e : Entry) : Prop := e.calls.Succeed ∧ e.Readable

def Entry.pair (e : Entry) : Item × Item := (.text (lit e.key), .bytes e.bytes)

/-- Every entry that is come to is readable when it is copied. -/
def EntriesInBounds : List Entry → Prop
  | [] => True
  | e :: es => (e.calls.key = true → e.calls.val = true → e.Readable) ∧ (e.calls.Succeed → EntriesInBounds es)

theorem readBytes_of_readable {e : Entry} (h : e.Readable) : readBytes e.val e.sz = .ok e.bytes := by
  unfold readBytes Entry.bytes
  by_cases hsz : e.sz = 0
  · rw [if_pos hsz, hsz, List.take_zero]
  · obtain ⟨cells, hval, hle⟩ := h.resolve_left hsz
    rw [if_neg hsz, hval, deref, ok_bind, readRange, if_pos (by omega), List.drop_zero, Option.getD_some]

theorem readBytes_self (cells : Bytes) : readBytes (some cells) cells.length = .ok cells := by
  unfold readBytes
  split_ifs with hempty
  · rw [List.length_eq_zero_iff.1 hempty]
  · rw [deref, ok_bind, readRange, if_pos (by omega), List.drop_zero, List.take_length]

theorem readable_of_readBytes {e : Entry} {bytes : Bytes} (h : readBytes e.val e.sz = .ok bytes) : e.Readable := by
  unfold readBytes at h
  by_cases hsz : e.sz = 0
  · exact .inl hsz
  · rw [if_neg hsz, bind_eq_ok] at h
    obtain ⟨cells, hval, hread⟩ := h
    unfold readRange at hread
    split_ifs at hread with hle
    exact .inr ⟨cells, deref_eq_ok.1 hval, by omega⟩

theorem addCborMap_of_added (map : List (Item × Item)) {e : Entry} (h : e.Added) :
    addCborMap map e = .ok (some (map ++ [e.pair])) := by
  obtain ⟨⟨hkey, hval, hadd⟩, hread⟩ := h
  simp only [addCborMap, hkey, hval, hadd, readBytes_of_readable hread, ok_bind, Bool.not_true, Bool.false_eq_true,
    if_false, pure_eq_ok]
  rfl

theorem addCborMap_of_refused (map : List (Item × Item)) {e : Entry} (hcalls : ¬ e.calls.Succeed)
    (hbounds : e.calls.key = true → e.calls.val = true → e.Readable) : addCborMap map e = .ok none := by
  unfold addCborMap
  refine unless_eq_ok fun hkey => unless_eq_ok fun hval => ?_
  rw [readBytes_of_readable (hbounds hkey hval), ok_bind]
  exact unless_eq_ok fun hadd => absurd ⟨hkey, hval, hadd⟩ hcalls

theorem readable_of_addCborMap {map : List (Item × Item)} {e : Entry} {r : Option (List (Item × Item))}
    (h : addCborMap map e = .ok r) (hkey : e.calls.key = true) (hval : e.calls.val = true) : e.Readable := by
  simp only [addCborMap, hkey, hval, Bool.not_true, Bool.false_eq_true, if_false, bind_eq_ok] at h
  obtain ⟨bytes, hread, -⟩ := h
  exact readable_of_readBytes hread

theorem addCborMap_eq_some_iff {map added : List (Item × Item)} {e : Entry} :
    addCborMap map e = .ok (some added) ↔ e.Added ∧ added = map ++ [e.pair] := by
  constructor
  · intro h
    by_cases hcalls : e.calls.Succeed
    · have he : e.Added := ⟨hcalls, readable_of_addCborMap h hcalls.1 hcalls.2.1⟩
      rw [addCborMap_of_added map he] at h
      cases h
      exact ⟨he, rfl⟩
    · rw [addCborMap_of_refused map hcalls fun hkey hval => readable_of_addCborMap h hkey hval] at h
      cases h
  · rintro ⟨he, rfl⟩
    exact addCborMap_of_added map he

theorem addEntries_of_added {entries : List Entry} (h : ∀ e ∈ entries, e.Added) (map : List (Item × Item)) :
    addEntries map entries = .ok (some (map ++ entries.map Entry.pair)) := by
  induction entries generalizing map with
  | nil => rw [addEntries, List.map_nil, List.append_nil]
  | cons e entries ih =>
    rw [List.forall_mem_cons] at h
    rw [addEntries, addCborMap_of_added map h.1, ok_bind]
    simp only
    rw [ih h.2, List.map_cons, List.append_assoc, List.singleton_append]

theorem addEntries_eq_some_iff {map added : List (Item × Item)} {entries : List Entry} :
    addEntries map entries = .ok (some added) ↔ (∀ e ∈ entries, e.Added) ∧ added = map ++ entries.map Entry.pair := by
  induction entries generalizing map with
  | nil =>
    rw [addEntries, List.map_nil, List.append_nil, Except.ok.injEq, Option.some.injEq]
    exact ⟨fun h => ⟨List.forall_mem_nil _, h.symm⟩, fun h => h.2.symm⟩
  | cons e entries ih =>
    rw [addEntries, bind_eq_ok, List.forall_mem_cons]
    constructor
    · rintro ⟨_ | first, hfirst, hrest⟩
      · cases hrest
      · obtain ⟨he, rfl⟩ := addCborMap_eq_some_iff.1 hfirst
        obtain ⟨hentries, rfl⟩ := ih.1 hrest
        exact ⟨⟨he, hentries⟩, by rw [List.map_cons, List.append_assoc, List.singleton_append]⟩
    · rintro ⟨⟨he, hentries⟩, rfl⟩
      refine ⟨some (map ++ [e.pair]), addCborMap_of_added map he, ih.2 ⟨hentries, ?_⟩⟩
      rw [List.map_cons, List.append_assoc, List.singleton_append]

/-- Within the arrays the only other outcome is a failed call. -/
theorem addEntries_of_refused {entries : List Entry} (hbounds : EntriesInBounds entries)
    (hcalls : ¬ ∀ e ∈ entries, e.calls.Succeed) (map : List (Item × Item)) : addEntries map entries = .ok none := by
  induction entries generalizing map with
  | nil => exact absurd (List.forall_mem_nil _) hcalls
  | cons e entries ih =>
    rw [List.forall_mem_cons, not_and] at hcalls
    rw [addEntries]
    by_cases he : e.calls.Succeed
    · rw [addCborMap_of_added map ⟨he, hbounds.1 he.1 he.2.1⟩, ok_bind]
      exact ih (hbounds.2 he) (hcalls he) _
    · rw [addCborMap_of_refused map he hbounds.1, ok_bind]
      rfl

theorem inBounds_of_addEntries {entries : List Entry} {map : List (Item × Item)} {r : Option (List (Item × Item))}
    (h : addEntries map entries = .ok r) : EntriesInBounds entries := by
  induction entries generalizing map with
  | nil => trivial
  | cons e entries ih =>
    rw [addEntries, bind_eq_ok] at h
    obtain ⟨added, hadd, hrest⟩ := h
    refine ⟨fun hkey hval => readable_of_addCborMap hadd hkey hval, ?_⟩
    intro hcalls
    have hread : e.Readable := readable_of_addCborMap hadd hcalls.1 hcalls.2.1
    rw [addCborMap_of_added map ⟨hcalls, hread⟩] at hadd
    cases hadd
    exact ih hrest

theorem entriesInBounds_of_readable {entries : List Entry} (h : ∀ e ∈ entries, e.Readable) :
    EntriesInBounds entries := by
  induction entries with
  | nil => trivial
  | cons e entries ih =>
    rw [List.forall_mem_cons] at h
    exact ⟨fun _ _ => h.1, fun _ => ih h.2⟩

theorem EntriesInBounds.added {entries : List Entry} (hbounds : EntriesInBounds entries)
    (hcalls : ∀ e ∈ entries, e.calls.Succeed) : ∀ e ∈ entries, e.Added := by
  induction entries with
  | nil => exact List.forall_mem_nil _
  | cons e entries ih =>
    rw [List.forall_mem_cons] at hcalls ⊢
    have he : e.calls.Succeed := hcalls.1
    exact ⟨⟨he, hbounds.1 he.1 he.2.1⟩, ih (hbounds.2 he) hcalls.2⟩

/-- The map is made and every call for an entry succeeds. -/
def MapSucceeds (newMap : Bool) (entries : List Entry) : Prop := newMap = true ∧ ∀ e ∈ entries, e.calls.Succeed

theorem buildMap_of_succeeds {newMap : Bool} {entries : List Entry} (hbounds : EntriesInBounds entries)
    (h : MapSucceeds newMap entries) : buildMap newMap entries = .ok (some (entries.map Entry.pair)) := by
  rw [buildMap, if_pos h.1, addEntries_of_added (hbounds.added h.2), List.nil_append]

theorem buildMap_of_fails {newMap : Bool} {entries : List Entry} (hbounds : newMap = true → EntriesInBounds entries)
    (h : ¬ MapSucceeds newMap entries) : buildMap newMap entries = .ok none := by
  unfold buildMap
  by_cases hnew : newMap = true
  · rw [if_pos hnew]
    exact addEntries_of_refused (hbounds hnew) (fun hcalls => h ⟨hnew, hcalls⟩) []
  · rw [if_neg hnew]

theorem inBounds_of_buildMap {newMap : Bool} {entries : List Entry} {r : Option (List (Item × Item))}
    (h : buildMap newMap entries = .ok r) (hnew : newMap = true) : EntriesInBounds entries := by
  rw [buildMap, if_pos hnew] at h
  exact inBounds_of_addEntries h

/-! ### The quote -/

section

variable {sha256 : Bytes → ByteBuf 32} {env : RequestEnv} {nonce apphash : ByteBuf 32} {appsz : Int}

/-- `t_quote` as `make_tpm2_quote` leaves it, if its code is not negative. -/
def RequestEnv.LeftQuote (sha256 : Bytes → ByteBuf 32) (env : RequestEnv) (nonce apphash : ByteBuf 32)
    (tQuote : QuoteStruct) : Prop :=
  env.quoteCalls.Leaves (hashExtendSha256 sha256 env.digestCalls apphash nonce env.newhash).2 Tpm2Alg.sha256 quotedPcrs
    env.tQuote tQuote

/-- Where a bundle is made, its entries are within their arrays. -/
def BundleInBounds (sha256 : Bytes → ByteBuf 32) (env : RequestEnv) (nonce apphash : ByteBuf 32) (appsz : Int) : Prop :=
  ∀ tQuote, env.LeftQuote sha256 nonce apphash tQuote → (attestOf env tQuote).2.type = tpm2StAttestQuote →
    env.bundleMap = true → EntriesInBounds (bundleEntries env tQuote apphash appsz)

/-- The entries of the bundle as its map has them. -/
def bundlePairs (env : RequestEnv) (tQuote : QuoteStruct) (apphash : ByteBuf 32) (appsz : Int) : List (Item × Item) :=
  (bundleEntries env tQuote apphash appsz).map Entry.pair

theorem entry_bytes_length_le {n : Nat} (calls : AddCalls) (key : String) (cells : ByteBuf n) (sz : Nat) :
    (Entry.bytes ⟨calls, key, some cells.1, sz⟩).length ≤ n := by
  rw [Entry.bytes, Option.getD_some, List.length_take, cells.2]
  exact Nat.min_le_right _ _

/-- The check of the size never applies. -/
theorem encode_bundlePairs_length_le (env : RequestEnv) (tQuote : QuoteStruct) (apphash : ByteBuf 32) (appsz : Int) :
    (encode (.map true (bundlePairs env tQuote apphash appsz))).length ≤ 2048 :=
  encode_bundle_length_le (entry_bytes_length_le _ _ tQuote.quote _) (entry_bytes_length_le _ _ tQuote.sign _)
    (entry_bytes_length_le _ _ apphash _)

/-- Within the arrays the bundle is serialised, or the size is 0. -/
theorem serializeBundle_ok {tQuote : QuoteStruct}
    (hbounds : env.bundleMap = true → EntriesInBounds (bundleEntries env tQuote apphash appsz)) :
    ∃ buf size, serializeBundle env tQuote apphash appsz = .ok (buf, size) ∧ size ≤ 2048 ∧
      (MapSucceeds env.bundleMap (bundleEntries env tQuote apphash appsz) → env.bundleSerialize = true →
        buf.1.take size = encode (.map true (bundlePairs env tQuote apphash appsz))) := by
  unfold serializeBundle
  by_cases hmap : MapSucceeds env.bundleMap (bundleEntries env tQuote apphash appsz)
  · have hlength := encode_bundlePairs_length_le env tQuote apphash appsz
    have hne := encode_map_ne_nil true (bundlePairs env tQuote apphash appsz)
    rw [buildMap_of_succeeds (hbounds hmap.1) hmap, ok_bind]
    simp only [serializeAlloc]
    rw [← bundlePairs]
    cases hserialize : env.bundleSerialize with
    | false => exact ⟨env.buf, 0, rfl, by omega, by simp⟩
    | true =>
      simp only [if_true]
      obtain ⟨buf, hcopy, htake⟩ := memcpy_of_le env.buf hlength
      rw [if_neg (by rw [List.length_eq_zero_iff]; simp only [hne, false_or]; omega), hcopy]
      exact ⟨buf, _, rfl, hlength, fun _ _ => htake⟩
  · rw [buildMap_of_fails hbounds hmap]
    exact ⟨env.buf, 0, rfl, by omega, fun h => absurd h hmap⟩

theorem inBounds_of_serializeBundle {tQuote : QuoteStruct} {r : ByteBuf 2048 × Nat}
    (h : serializeBundle env tQuote apphash appsz = .ok r) (hnew : env.bundleMap = true) :
    EntriesInBounds (bundleEntries env tQuote apphash appsz) := by
  unfold serializeBundle at h
  rw [bind_eq_ok] at h
  obtain ⟨map, hmap, -⟩ := h
  exact inBounds_of_buildMap hmap hnew

/-- The code of the quote is -1, or its structure is used whatever it holds. -/
theorem makeTpm2QuoteWithPid_cases (sha256 : Bytes → ByteBuf 32) (env : RequestEnv) (nonce apphash : ByteBuf 32)
    (appsz : Int) :
    (∀ tQuote, ¬ env.LeftQuote sha256 nonce apphash tQuote) ∧
        makeTpm2QuoteWithPid sha256 env nonce apphash appsz = .ok (-1, env.buf, 0) ∨
      ∃ tQuote, env.LeftQuote sha256 nonce apphash tQuote ∧
        makeTpm2QuoteWithPid sha256 env nonce apphash appsz =
          if (attestOf env tQuote).2.type ≠ tpm2StAttestQuote then .ok (0, env.buf, 0)
          else do return (0, ← serializeBundle env tQuote apphash appsz) := by
  unfold makeTpm2QuoteWithPid RequestEnv.LeftQuote
  rcases hashExtendSha256 sha256 env.digestCalls apphash nonce env.newhash with ⟨rc, newhash⟩
  simp only
  rcases makeTpm2Quote_spec env.quoteCalls newhash Tpm2Alg.sha256 quotedPcrs env.tQuote with
    ⟨hreached, hmake⟩ | ⟨tQuote, hleaves, hmake⟩
  · left
    refine ⟨?_, by rw [hmake]; rfl⟩
    intro tQuote hleaves
    exact hreached hleaves.reached
  · right
    refine ⟨tQuote, hleaves, ?_⟩
    rw [hmake, ok_bind]
    rfl

theorem makeTpm2QuoteWithPid_ok (h : BundleInBounds sha256 env nonce apphash appsz) :
    ∃ rc buf size, makeTpm2QuoteWithPid sha256 env nonce apphash appsz = .ok (rc, buf, size) ∧ size ≤ 2048 := by
  rcases makeTpm2QuoteWithPid_cases sha256 env nonce apphash appsz with ⟨-, hmake⟩ | ⟨tQuote, hleft, hmake⟩
  · exact ⟨-1, env.buf, 0, hmake, by omega⟩
  · by_cases htype : (attestOf env tQuote).2.type = tpm2StAttestQuote
    · obtain ⟨buf, size, hbundle, hsize, -⟩ := serializeBundle_ok (h tQuote hleft htype)
      rw [if_neg (not_not.2 htype), hbundle, ok_bind] at hmake
      exact ⟨0, buf, size, hmake, hsize⟩
    · rw [if_pos htype] at hmake
      exact ⟨0, env.buf, 0, hmake, by omega⟩

theorem bundleInBounds_of_ok {r : Int × ByteBuf 2048 × Nat}
    (h : makeTpm2QuoteWithPid sha256 env nonce apphash appsz = .ok r) :
    BundleInBounds sha256 env nonce apphash appsz := by
  intro tQuote hleft htype hnew
  rcases makeTpm2QuoteWithPid_cases sha256 env nonce apphash appsz with ⟨hnone, -⟩ | ⟨tQuote', hleft', hmake⟩
  · exact absurd hleft (hnone tQuote)
  · obtain rfl := hleft.unique hleft'
    rw [h, if_neg (not_not.2 htype)] at hmake
    obtain ⟨bundle, hbundle, -⟩ := bind_eq_ok.1 hmake.symm
    exact inBounds_of_serializeBundle hbundle hnew

/-! ### What a reply should mean -/

/-- A quote that a successful `Esys_Quote` of this request returns over the extra data, with its marshalled
signature. -/
def RequestEnv.QuoteMade (env : RequestEnv) (udata : ByteBuf 32) (quote : Tpm2Quote) : Prop :=
  ∃ sig, env.quoteCalls.Quoted udata Tpm2Alg.sha256 quotedPcrs quote.quote.1 sig ∧
    env.quoteCalls.marshalSignature sig = (0, quote.sign)

/-- The serialised bundle of such a quote over `HASH(app-hash || nonce)`. -/
def Attests (sha256 : Bytes → ByteBuf 32) (env : RequestEnv) (nonce apphash : ByteBuf 32) (tpm2Quote : Bytes) : Prop :=
  ∃ quote, env.QuoteMade (sha256 (join32 apphash nonce)) quote ∧
    tpm2Quote = encode (.map true (quoteBundle quote apphash))

/-- Every call of `make_tpm2_quote_with_pid` succeeds, and what is quoted is a quote. -/
structure QuoteSucceeds (sha256 : Bytes → ByteBuf 32) (env : RequestEnv) (nonce apphash : ByteBuf 32) : Prop where
  digestCalls : env.digestCalls.Succeed
  trSetAuth : env.quoteCalls.trSetAuth = 0
  quote : ∃ quote, env.QuoteMade (sha256 (join32 apphash nonce)) quote ∧
    ∃ atst, env.unmarshalAttest quote.quote.1 env.tpmAtst = (0, atst) ∧ atst.type = tpm2StAttestQuote
  bundleMap : env.bundleMap = true
  addQuote : env.addQuote.Succeed
  addSign : env.addSign.Succeed
  addAppHash : env.addAppHash.Succeed
  bundleSerialize : env.bundleSerialize = true

theorem toUint64_natCast {n : Nat} (h : n < 2 ^ 64) : toUint64 n = n := by
  unfold toUint64
  omega

theorem makeTpm2QuoteWithPid_of_succeeds (h : QuoteSucceeds sha256 env nonce apphash) :
    ∃ rc buf size, makeTpm2QuoteWithPid sha256 env nonce apphash 32 = .ok (rc, buf, size) ∧ size ≤ 2048 ∧
      Attests sha256 env nonce apphash (buf.1.take size) := by
  obtain ⟨quote, ⟨sig, hquoted, hmarshal⟩, atst, hun, htype⟩ := h.quote
  have hhash : (hashExtendSha256 sha256 env.digestCalls apphash nonce env.newhash).2 =
      sha256 (join32 apphash nonce) := by
    rw [hashExtendSha256_of_succeed h.digestCalls]
  rcases makeTpm2QuoteWithPid_cases sha256 env nonce apphash 32 with ⟨hnone, -⟩ | ⟨tQuote, hleft, hmake⟩
  · obtain ⟨⟨sigScheme, hreached, -⟩, -⟩ := hquoted
    obtain ⟨tQuote, -, hleaves⟩ := quoteAndMarshal_leaves hreached
      (hashExtendSha256 sha256 env.digestCalls apphash nonce env.newhash).2 Tpm2Alg.sha256 quotedPcrs env.tQuote
    exact absurd hleaves (hnone tQuote)
  · rw [RequestEnv.LeftQuote, hhash] at hleft
    obtain ⟨hqsize, hquote, hssize, hsign⟩ := hleft.signed_of hquoted hmarshal
    have hqle := quote.quote.2
    have hsle := quote.sign.2
    have hqsz : toUint64 tQuote.qsize = quote.quote.1.length := by rw [hqsize, toUint64_natCast (by omega)]
    have hssz : toUint64 tQuote.ssize = quote.sign.1.length := by rw [hssize, toUint64_natCast (by omega)]
    have hattest : attestOf env tQuote = (0, atst) := by rw [attestOf, hqsz, hquote, hun]
    have hbounds : EntriesInBounds (bundleEntries env tQuote apphash 32) := by
      apply entriesInBounds_of_readable
      simp only [bundleEntries, List.forall_mem_cons, List.not_mem_nil, false_implies, implies_true, and_true]
      refine ⟨.inr ⟨_, rfl, ?_⟩, .inr ⟨_, rfl, ?_⟩, .inr ⟨_, rfl, ?_⟩⟩
      · rw [hqsz, tQuote.quote.2]
        exact hqle
      · rw [hssz, tQuote.sign.2]
        exact hsle
      · rw [apphash.2]
        exact (by decide : toUint64 32 ≤ 32)
    have hsucceeds : MapSucceeds env.bundleMap (bundleEntries env tQuote apphash 32) := by
      refine ⟨h.bundleMap, ?_⟩
      simp only [bundleEntries, List.forall_mem_cons, List.not_mem_nil, false_implies, implies_true, and_true]
      exact ⟨h.addQuote, h.addSign, h.addAppHash⟩
    have hpairs : bundlePairs env tQuote apphash 32 = quoteBundle quote apphash := by
      have happ : apphash.1.take (toUint64 32) = apphash.1 := by
        rw [show toUint64 32 = apphash.1.length by rw [apphash.2]; decide, List.take_length]
      simp only [bundlePairs, bundleEntries, List.map_cons, List.map_nil, Entry.pair, Entry.bytes, Option.getD_some,
        hqsz, hquote, hssz, hsign, happ]
      rfl
    obtain ⟨buf, size, hbundle, hsize, htake⟩ := serializeBundle_ok (fun _ => hbounds)
    rw [hattest, if_neg (not_not.2 htype), hbundle] at hmake
    refine ⟨0, buf, size, hmake, hsize, quote, ⟨sig, hquoted, hmarshal⟩, ?_⟩
    rw [htake hsucceeds h.bundleSerialize, hpairs]

/-! ### The replies -/

/-- Every call for the map of the reply succeeds. -/
structure ReplySucceeds (env : RequestEnv) : Prop where
  replyMap : env.replyMap = true
  replyFirst : env.replyFirst.Succeed
  replySecond : env.replySecond.Succeed
  replySerialize : env.replySerialize = true

theorem replySucceeds_iff {key₁ key₂ : String} {val₁ val₂ : Option Bytes} {sz₁ sz₂ : Nat} :
    MapSucceeds env.replyMap [⟨env.replyFirst, key₁, val₁, sz₁⟩, ⟨env.replySecond, key₂, val₂, sz₂⟩] ∧
        env.replySerialize = true ↔ ReplySucceeds env := by
  simp only [MapSucceeds, List.forall_mem_cons, List.not_mem_nil, false_implies, implies_true, and_true]
  constructor
  · intro ⟨⟨hmap, hfirst, hsecond⟩, hserialize⟩
    exact ⟨hmap, hfirst, hsecond, hserialize⟩
  · intro h
    exact ⟨⟨h.replyMap, h.replyFirst, h.replySecond⟩, h.replySerialize⟩

theorem reply_of_succeeds {entries : List Entry} (cmd cmdErr : UInt16) (hread : ∀ e ∈ entries, e.Readable)
    (h : MapSucceeds env.replyMap entries ∧ env.replySerialize = true) :
    ∃ len, reply env cmd cmdErr entries =
      .ok ⟨cmd, tpmdAuxOk, len, encode (.map true (entries.map Entry.pair))⟩ := by
  refine ⟨UInt32.ofNat (encode (.map true (entries.map Entry.pair))).length, ?_⟩
  rw [reply, buildMap_of_succeeds (entriesInBounds_of_readable hread) h.1, ok_bind]
  simp only [serializeAlloc, h.2, if_true, List.length_eq_zero_iff, encode_map_ne_nil, if_false]
  rfl

theorem reply_of_fails {entries : List Entry} (cmd cmdErr : UInt16) (hread : ∀ e ∈ entries, e.Readable)
    (h : ¬ (MapSucceeds env.replyMap entries ∧ env.replySerialize = true)) :
    ∃ r, reply env cmd cmdErr entries = .ok r ∧ r.aux = tpmdAuxErr ∧ r.len = 0 := by
  have hbounds : EntriesInBounds entries := entriesInBounds_of_readable hread
  by_cases hmap : MapSucceeds env.replyMap entries
  · have hserialize : env.replySerialize = false := by
      rw [← Bool.not_eq_true]
      exact fun hserialize => h ⟨hmap, hserialize⟩
    refine ⟨⟨cmdErr, tpmdAuxErr, 0, []⟩, ?_, rfl, rfl⟩
    rw [reply, buildMap_of_succeeds hbounds hmap, ok_bind]
    simp only [serializeAlloc, hserialize, Bool.false_eq_true, if_false, List.length_nil, if_true]
    rfl
  · refine ⟨⟨env.headCmd, tpmdAuxErr, 0, []⟩, ?_, rfl, rfl⟩
    rw [reply, buildMap_of_fails (fun _ => hbounds) hmap]
    rfl

/-- The nonce of a request; that of an ATTEST is what the enclave unseals. -/
def NonceOf (env : RequestEnv) : Request → ByteBuf 32 → Prop
  | .attest sealedData, nonce => env.ecall = 0 ∧ ecallUnseal env sealedData = .ok (0, nonce)
  | .pica nonce', nonce => nonce = nonce'

/-- The application hash, if every call that measures it succeeds: the digest of the process on the other side, or that
of the chain. -/
def AppHashOf (sha256 : Bytes → ByteBuf 32) (env : RequestEnv) : Request → ByteBuf 32 → Prop
  | .attest _, apphash => env.measured = some apphash
  | .pica _, apphash => env.chainMeasured = true ∧ env.chainDigest = true ∧
      ∃ chain, env.procchain = some chain ∧ apphash = sha256 chain

/-- The payload of a reply with this value for "tpm2_quote". -/
def Payload (env : RequestEnv) : Request → ByteBuf 32 → Bytes → Bytes → Prop
  | .attest _, nonce, tpm2Quote, data => data = encode (.map true
      (PortableTlsRa.addCborMap (PortableTlsRa.addCborMap [] "nonce" nonce.1) "tpm2_quote" tpm2Quote))
  | .pica _, _, tpm2Quote, data => ∃ pica, env.procchain = some pica ∧
      data = encode (.map true (PortableTlsRa.replyMap tpm2Quote pica))

/-- No call on the way fails. -/
structure Succeeds (sha256 : Bytes → ByteBuf 32) (env : RequestEnv) (req : Request) : Prop where
  quote : ∃ nonce apphash, NonceOf env req nonce ∧ AppHashOf sha256 env req apphash ∧
    QuoteSucceeds sha256 env nonce apphash
  reply : ReplySucceeds env

/-- A packet with the code for success carries a bundle over the nonce and the application hash of the request, and
after a failure the packet is an error without payload. -/
def ReplyRight (sha256 : Bytes → ByteBuf 32) (env : RequestEnv) (req : Request) : Prop :=
  ∃ r, tpmddaemon sha256 env req = .ok r ∧
    (r.aux = tpmdAuxOk → ∃ nonce apphash tpm2Quote, NonceOf env req nonce ∧ AppHashOf sha256 env req apphash ∧
      Payload env req nonce tpm2Quote r.data ∧ Attests sha256 env nonce apphash tpm2Quote) ∧
    (¬ Succeeds sha256 env req → r.aux = tpmdAuxErr ∧ r.len = 0)

/-- What is unsealed fits its buffer. -/
def UnsealInBounds (env : RequestEnv) (sealedData : Bytes) : Prop :=
  env.ecall = 0 → env.decdata = true → (env.unsealData sealedData).1 = 0 → (env.unsealData sealedData).2.length ≤ 32

/-- Nothing is read or written outside its array before the reply is made. -/
def StaysInBounds (sha256 : Bytes → ByteBuf 32) (env : RequestEnv) : Request → Prop
  | .attest sealedData => UnsealInBounds env sealedData ∧ ∀ unsealed, unsealNonce env sealedData = .ok unsealed →
      BundleInBounds sha256 env unsealed env.apphash (toInt32 env.usize.toNat)
  | .pica nonce => (env.procchain = none → env.pcsz = 0) ∧
      BundleInBounds sha256 env nonce (env.chainHash sha256 (env.procchain.getD [])) 32

variable {req : Request}

theorem unsealNonce_ok {sealedData : Bytes} (h : UnsealInBounds env sealedData) :
    ∃ unsealed, unsealNonce env sealedData = .ok unsealed := by
  unfold unsealNonce ecallUnseal
  by_cases hecall : env.ecall = 0
  · rw [if_neg (not_not.2 hecall)]
    cases hdec : env.decdata with
    | false => exact ⟨ByteBuf.zero 32, rfl⟩
    | true =>
      by_cases hst : (env.unsealData sealedData).1 = 0
      · obtain ⟨outp, hcopy, -⟩ := memcpy_of_le (ByteBuf.zero 32) (h hecall hdec hst)
        refine ⟨outp, ?_⟩
        simp only [Bool.not_true, Bool.false_eq_true, if_false, hst, ne_eq, not_true_eq_false, hcopy, ok_bind,
          pure_eq_ok]
      · refine ⟨ByteBuf.zero 32, ?_⟩
        simp only [Bool.not_true, Bool.false_eq_true, if_false, ne_eq, hst, not_false_eq_true, if_true, ok_bind,
          pure_eq_ok]
  · rw [if_pos hecall]
    exact ⟨env.unsealed, rfl⟩

theorem inBounds_of_unsealNonce {sealedData : Bytes} {unsealed : ByteBuf 32}
    (h : unsealNonce env sealedData = .ok unsealed) : UnsealInBounds env sealedData := by
  intro hecall hdec hst
  simp only [unsealNonce, ecallUnseal, hecall, hdec, hst, ne_eq, not_true_eq_false, if_false, Bool.not_true,
    Bool.false_eq_true, bind_eq_ok] at h
  obtain ⟨_, ⟨outp, hcopy, -⟩, -⟩ := h
  by_contra hle
  rw [memcpy, dif_neg hle] at hcopy
  cases hcopy

theorem unsealNonce_of_nonceOf {sealedData : Bytes} (h : NonceOf env (.attest sealedData) nonce) :
    unsealNonce env sealedData = .ok nonce := by
  obtain ⟨hecall, hunseal⟩ := h
  simp only [unsealNonce, hecall, hunseal, ne_eq, not_true_eq_false, if_false, ok_bind, pure_eq_ok]

/-- The chain is read, or it is null and has no size. -/
theorem readBytes_chain (h : env.procchain = none → env.pcsz = 0) :
    readBytes env.procchain env.chainSize = .ok (env.procchain.getD []) ∧
      Entry.Readable ⟨env.replySecond, "pica", env.procchain, env.chainSize⟩ := by
  unfold RequestEnv.chainSize
  cases hchain : env.procchain with
  | none =>
    simp only [Option.map_none, Option.getD_none, h hchain]
    exact ⟨rfl, .inl rfl⟩
  | some chain =>
    have hread : Entry.Readable ⟨env.replySecond, "pica", some chain, chain.length⟩ :=
      .inr ⟨chain, rfl, Nat.le_refl _⟩
    simp only [Option.map_some, Option.getD_some]
    exact ⟨readBytes_self chain, hread⟩

theorem readable_array {n : Nat} (calls : AddCalls) (key : String) (cells : ByteBuf n) {sz : Nat} (h : sz ≤ n) :
    Entry.Readable ⟨calls, key, some cells.1, sz⟩ :=
  .inr ⟨cells.1, rfl, by rw [cells.2]; exact h⟩

theorem forall_mem_pair {α : Type} {p : α → Prop} {a b : α} (ha : p a) (hb : p b) : ∀ x ∈ [a, b], p x := by
  intro x hx
  rcases List.mem_pair.1 hx with rfl | rfl
  · exact ha
  · exact hb

/-- A readable reply is an error exactly where a call for its own map fails. -/
theorem reply_decides {key₁ key₂ : String} {val₁ val₂ : Option Bytes} {sz₁ sz₂ : Nat} (cmd cmdErr : UInt16)
    (hread₁ : Entry.Readable ⟨env.replyFirst, key₁, val₁, sz₁⟩)
    (hread₂ : Entry.Readable ⟨env.replySecond, key₂, val₂, sz₂⟩) :
    ∃ r, reply env cmd cmdErr [⟨env.replyFirst, key₁, val₁, sz₁⟩, ⟨env.replySecond, key₂, val₂, sz₂⟩] = .ok r ∧
      (ReplySucceeds env → r.aux = tpmdAuxOk) ∧ (¬ ReplySucceeds env → r.aux = tpmdAuxErr ∧ r.len = 0) := by
  by_cases hsucceeds : ReplySucceeds env
  · obtain ⟨len, hok⟩ := reply_of_succeeds cmd cmdErr (forall_mem_pair hread₁ hread₂) (replySucceeds_iff.2 hsucceeds)
    exact ⟨_, hok, fun _ => rfl, fun hfails => absurd hsucceeds hfails⟩
  · obtain ⟨r, hr, herr⟩ := reply_of_fails cmd cmdErr (forall_mem_pair hread₁ hread₂)
      (fun h => hsucceeds (replySucceeds_iff.1 h))
    exact ⟨r, hr, fun h => absurd h hsucceeds, fun _ => herr⟩

/-- Within the arrays every request comes to a reply, and only the calls for the map of the reply decide on its code. -/
theorem tpmddaemon_of_inBounds (h : StaysInBounds sha256 env req) :
    ∃ r, tpmddaemon sha256 env req = .ok r ∧
      (ReplySucceeds env → r.aux = tpmdAuxOk) ∧ (¬ ReplySucceeds env → r.aux = tpmdAuxErr ∧ r.len = 0) := by
  cases req with
  | attest sealedData =>
    obtain ⟨unsealed, hunseal⟩ := unsealNonce_ok h.1
    obtain ⟨rc, buf, size, hmake, hsize⟩ := makeTpm2QuoteWithPid_ok (h.2 unsealed hunseal)
    simp only [tpmddaemon, hunseal, hmake, ok_bind, replyAttest]
    exact reply_decides _ _ (readable_array _ _ unsealed (Nat.le_refl _)) (readable_array _ _ buf hsize)
  | pica nonce =>
    obtain ⟨hchain, hread⟩ := readBytes_chain h.1
    obtain ⟨rc, buf, size, hmake, hsize⟩ := makeTpm2QuoteWithPid_ok h.2
    simp only [tpmddaemon, makeTpm2Pica, hchain, hmake, ok_bind, pure_eq_ok, replyPica]
    exact reply_decides _ _ (readable_array _ _ buf hsize) hread

theorem inBounds_of_tpmddaemon {r : TpmdPacket} (h : tpmddaemon sha256 env req = .ok r) :
    StaysInBounds sha256 env req := by
  cases req with
  | attest sealedData =>
    simp only [tpmddaemon, bind_eq_ok] at h
    obtain ⟨unsealed, hunseal, bundle, hmake, -⟩ := h
    refine ⟨inBounds_of_unsealNonce hunseal, ?_⟩
    intro unsealed' hunseal'
    rw [hunseal] at hunseal'
    cases hunseal'
    exact bundleInBounds_of_ok hmake
  | pica nonce =>
    simp only [tpmddaemon, makeTpm2Pica, bind_eq_ok] at h
    obtain ⟨_, ⟨chain, hchain, bundle, hmake, -⟩, -⟩ := h
    have hnull : env.procchain = none → env.pcsz = 0 := by
      intro hnone
      by_contra hsize
      rw [hnone, RequestEnv.chainSize, hnone, Option.map_none, Option.getD_none, readBytes, if_neg hsize] at hchain
      cases hchain
    rw [(readBytes_chain hnull).1] at hchain
    cases hchain
    exact ⟨hnull, bundleInBounds_of_ok hmake⟩

/-- Where nothing fails the packet is what it should be. -/
theorem tpmddaemon_of_succeeds (h : Succeeds sha256 env req) :
    ∃ r, tpmddaemon sha256 env req = .ok r ∧
      ∃ nonce apphash tpm2Quote, NonceOf env req nonce ∧ AppHashOf sha256 env req apphash ∧
        Payload env req nonce tpm2Quote r.data ∧ Attests sha256 env nonce apphash tpm2Quote := by
  obtain ⟨⟨nonce, apphash, hnonce, happ, hquote⟩, hreply⟩ := h
  obtain ⟨rc, buf, size, hmake, hsize, hattests⟩ := makeTpm2QuoteWithPid_of_succeeds hquote
  cases req with
  | attest sealedData =>
    have hsz : toInt32 env.usize.toNat = 32 := by
      rw [RequestEnv.usize, show env.measured = some apphash from happ, Option.isSome_some, if_pos rfl]
      decide
    have happhash : env.apphash = apphash := by
      rw [RequestEnv.apphash, show env.measured = some apphash from happ, Option.getD_some]
    obtain ⟨len, hr⟩ := reply_of_succeeds tpmdRplAttest tpmdRplAttest
      (forall_mem_pair (readable_array env.replyFirst "nonce" nonce (Nat.le_refl 32))
        (readable_array env.replySecond "tpm2_quote" buf hsize)) (replySucceeds_iff.2 hreply)
    have hsent : tpmddaemon sha256 env (.attest sealedData) = replyAttest env nonce buf size := by
      simp only [tpmddaemon, unsealNonce_of_nonceOf hnonce, happhash, hsz, hmake, ok_bind]
    refine ⟨_, hsent.trans hr, nonce, apphash, _, hnonce, happ, ?_, hattests⟩
    have htake : nonce.1.take 32 = nonce.1 := List.take_of_length_le (Nat.le_of_eq nonce.2)
    simp only [Payload, List.map_cons, List.map_nil, Entry.pair, Entry.bytes, Option.getD_some, htake]
    rfl
  | pica nonce' =>
    obtain ⟨hmeasured, hdigest, chain, hchain, rfl⟩ := happ
    obtain rfl : nonce = nonce' := hnonce
    have hnull : env.procchain = none → env.pcsz = 0 := by
      intro hnone
      rw [hchain] at hnone
      cases hnone
    obtain ⟨hread, hreadable⟩ := readBytes_chain hnull
    have hhash : env.chainHash sha256 (env.procchain.getD []) = sha256 chain := by
      rw [RequestEnv.chainHash, if_pos hdigest, hchain, Option.getD_some]
    obtain ⟨len, hr⟩ := reply_of_succeeds tpmdRplPica env.headCmd
      (forall_mem_pair (readable_array env.replyFirst "tpm2_quote" buf hsize) hreadable) (replySucceeds_iff.2 hreply)
    have hsent : tpmddaemon sha256 env (.pica nonce) = replyPica env buf size env.procchain env.chainSize := by
      simp only [tpmddaemon, makeTpm2Pica, hread, hhash, hmake, ok_bind, pure_eq_ok]
    refine ⟨_, hsent.trans hr, nonce, _, _, rfl, ⟨hmeasured, hdigest, chain, hchain, rfl⟩, ⟨chain, hchain, ?_⟩,
      hattests⟩
    have htake : chain.take env.chainSize = chain := by
      rw [RequestEnv.chainSize, hchain, Option.map_some, Option.getD_some, List.take_length]
    simp only [List.map_cons, List.map_nil, Entry.pair, Entry.bytes, hchain, Option.getD_some, htake]
    rfl

/-- The reply is right exactly where no call fails, or where the calls for its own map do, after a way on which every
array is kept to. -/
theorem tpmddaemon_right_iff (sha256 : Bytes → ByteBuf 32) (env : RequestEnv) (req : Request) :
    ReplyRight sha256 env req ↔
      Succeeds sha256 env req ∨ StaysInBounds sha256 env req ∧ ¬ ReplySucceeds env := by
  have hne : tpmdAuxOk ≠ tpmdAuxErr := by decide
  constructor
  · intro ⟨r, hr, _, hfail⟩
    by_cases hsucceeds : Succeeds sha256 env req
    · exact .inl hsucceeds
    · have hbounds := inBounds_of_tpmddaemon hr
      refine .inr ⟨hbounds, fun hreply => ?_⟩
      obtain ⟨r', hr', hok, -⟩ := tpmddaemon_of_inBounds hbounds
      rw [hr] at hr'
      cases hr'
      exact hne ((hok hreply).symm.trans (hfail hsucceeds).1)
  · intro h
    rcases h with hsucceeds | ⟨hbounds, hfails⟩
    · obtain ⟨r, hr, hcarries⟩ := tpmddaemon_of_succeeds hsucceeds
      exact ⟨r, hr, fun _ => hcarries, fun hnot => absurd hsucceeds hnot⟩
    · obtain ⟨r, hr, -, herr⟩ := tpmddaemon_of_inBounds hbounds
      refine ⟨r, hr, ?_, fun _ => herr hfails⟩
      intro hok
      exact absurd (hok.symm.trans (herr hfails).1) hne

end

/-! ### The daemon of the client's side -/

section

variable {sha256 : Bytes → ByteBuf 32} {env : RequestEnv} {nonce : ByteBuf 32}

/-- The daemon with this quote, as it is seen where no call for a map fails. -/
def RequestEnv.daemonEnv (env : RequestEnv) (quote : Tpm2Quote) : DaemonEnv where
  serialize := encode
  tss2 := ⟨env.unmarshalAttest, fun _ old => (0, old)⟩
  makeTpm2Quote := fun _ => (0, quote)
  digestCalls := env.digestCalls
  newhash := env.newhash
  tpmAtst := env.tpmAtst
  buf := env.buf

theorem daemonReply_daemonEnv {quote : Tpm2Quote} {atst : TpmsAttest}
    (hun : env.unmarshalAttest quote.quote.1 env.tpmAtst = (0, atst)) (htype : atst.type = tpm2StAttestQuote)
    (chain : Bytes) :
    daemonReply sha256 (env.daemonEnv quote) nonce chain = .ok (some (encode (.map true
      (PortableTlsRa.replyMap (encode (.map true (quoteBundle quote (sha256 chain)))) chain)))) := by
  have hle : (encode (.map true (quoteBundle quote (sha256 chain)))).length ≤ 2048 :=
    encode_bundle_length_le quote.quote.2 quote.sign.2 (Nat.le_of_eq (sha256 chain).2)
  obtain ⟨buf, hcopy, htake⟩ := memcpy_of_le env.buf hle
  simp only [daemonReply, PortableTlsRa.makeTpm2Pica, PortableTlsRa.makeTpm2QuoteWithPid, PortableTlsRa.replyPica,
    RequestEnv.daemonEnv, hun, htype, hcopy, ok_bind, pure_eq_ok, lt_irrefl, if_false, ne_eq, not_true_eq_false,
    List.length_eq_zero_iff, encode_map_ne_nil, gt_iff_lt, Nat.not_lt.2 hle, or_self, htake]

/-- Where nothing fails the two descriptions of the daemon send the same payload. -/
theorem tpmddaemon_eq_daemonReply (h : Succeeds sha256 env (.pica nonce)) :
    ∃ quote chain r, env.procchain = some chain ∧ tpmddaemon sha256 env (.pica nonce) = .ok r ∧
      daemonReply sha256 (env.daemonEnv quote) nonce chain = .ok (some r.data) := by
  obtain ⟨r, hr, _, apphash, _, rfl, happ, ⟨chain, hchain, hdata⟩, hattests⟩ := tpmddaemon_of_succeeds h
  obtain ⟨_, _, rfl, happ', hquote⟩ := h.quote
  obtain ⟨-, -, chain₁, hchain₁, rfl⟩ := happ
  obtain ⟨-, -, chain₂, hchain₂, rfl⟩ := happ'
  rw [hchain] at hchain₁ hchain₂
  cases hchain₁
  cases hchain₂
  obtain ⟨quote, ⟨sig, hquoted, hmarshal⟩, atst, hun, htype⟩ := hquote.quote
  obtain ⟨quote', ⟨sig', hquoted', hmarshal'⟩, rfl⟩ := hattests
  obtain ⟨hsame, rfl⟩ := hquoted.unique hquoted'
  rw [hmarshal] at hmarshal'
  have heq : quote = quote' := by
    cases quote
    cases quote'
    rw [Tpm2Quote.mk.injEq]
    exact ⟨Subtype.ext hsame, (Prod.mk.injEq _ _ _ _ ▸ hmarshal').2⟩
  refine ⟨quote, chain, r, hchain, hr, ?_⟩
  rw [daemonReply_daemonEnv hun htype, hdata, heq]

end

/-! ### A daemon without a TPM -/

theorem length_shortSignature : ([0] : Bytes).length ≤ 518 := by decide

/-- Every call succeeds. -/
def workingDaemon : RequestEnv where
  measured := some (ByteBuf.zero 32)
  unmeasured := (ByteBuf.zero 32, 0)
  ecall := 0
  decdata := true
  unsealData := fun _ => (0, List.replicate 32 1)
  unsealed := ByteBuf.zero 32
  procchain := some []
  pcsz := 0
  chainMeasured := true
  chainDigest := true
  hash := ByteBuf.zero 32
  digestCalls := allCallsSucceed
  newhash := ByteBuf.zero 32
  quoteCalls :=
    { tctiInitialize := 0
      esysInitialize := 0
      trFromTpmPublic := 0
      trSetAuth := 0
      readPublic := (0, ⟨tpmaObjectSignEncrypt, tpm2AlgRsa, tpm2AlgNull, tpm2AlgNull⟩)
      quote := fun udata _ _ => (0, udata.1, default)
      marshalSignature := fun _ => (0, ⟨[0], length_shortSignature⟩) }
  tQuote := ⟨0, 0, 0, ByteBuf.zero 256, ByteBuf.zero 518⟩
  unmarshalAttest := fun _ _ => (0, quoteOfPcr10 [])
  tpmAtst := quoteOfPcr10 []
  bundleMap := true
  addQuote := ⟨true, true, true⟩
  addSign := ⟨true, true, true⟩
  addAppHash := ⟨true, true, true⟩
  bundleSerialize := true
  buf := ByteBuf.zero 2048
  headCmd := 0
  replyMap := true
  replyFirst := ⟨true, true, true⟩
  replySecond := ⟨true, true, true⟩
  replySerialize := true

theorem workingDaemon_quoteSucceeds (sha256 : Bytes → ByteBuf 32) (nonce apphash : ByteBuf 32) :
    QuoteSucceeds sha256 workingDaemon nonce apphash where
  digestCalls := by decide
  trSetAuth := rfl
  quote := by
    have hle : (sha256 (join32 apphash nonce)).1.length ≤ 256 := by
      rw [(sha256 (join32 apphash nonce)).2]
      decide
    have hreached : workingDaemon.quoteCalls.Reached ⟨Tpm2Alg.rsassa, Tpm2Alg.sha256⟩ := ⟨rfl, rfl, rfl, rfl⟩
    exact ⟨⟨⟨_, hle⟩, ⟨[0], by decide⟩⟩, ⟨default, ⟨⟨_, hreached, rfl⟩, hle⟩, rfl⟩, _, rfl, rfl⟩
  bundleMap := rfl
  addQuote := by decide
  addSign := by decide
  addAppHash := by decide
  bundleSerialize := rfl

theorem workingDaemon_succeeds (sha256 : Bytes → ByteBuf 32) (req : Request) :
    Succeeds sha256 workingDaemon req := by
  refine ⟨?_, ⟨rfl, by decide, by decide, rfl⟩⟩
  cases req with
  | attest sealedData =>
    exact ⟨_, _, ⟨rfl, rfl⟩, rfl, workingDaemon_quoteSucceeds sha256 _ _⟩
  | pica nonce =>
    exact ⟨nonce, _, rfl, ⟨rfl, rfl, [], rfl, rfl⟩, workingDaemon_quoteSucceeds sha256 _ _⟩

/-- `Tss2_TctiLdr_Initialize` fails. -/
def withoutTpm : RequestEnv :=
  { workingDaemon with quoteCalls := { workingDaemon.quoteCalls with tctiInitialize := 0x000a000a } }

theorem withoutTpm_not_reached (sigScheme : SigScheme) : ¬ withoutTpm.quoteCalls.Reached sigScheme := by
  intro h
  have htcti : (0x000a000a : UInt32) = 0 := h.tctiInitialize
  exact absurd htcti (by decide)

/-- It answers every request with the code for success. -/
theorem tpmddaemon_answers_without_tpm : ¬ ∃ sha256 req, ReplyRight sha256 withoutTpm req := by
  intro ⟨sha256, req, r, hr, _, hfail⟩
  have hfails : ¬ Succeeds sha256 withoutTpm req := by
    intro ⟨⟨_, _, _, _, hquote⟩, _⟩
    obtain ⟨_, ⟨_, hquoted, _⟩, _⟩ := hquote.quote
    obtain ⟨⟨sigScheme, hreached, _⟩, _⟩ := hquoted
    exact withoutTpm_not_reached sigScheme hreached
  have hreply : ReplySucceeds withoutTpm := ⟨rfl, by decide, by decide, rfl⟩
  obtain ⟨r', hr', hok, -⟩ := tpmddaemon_of_inBounds (inBounds_of_tpmddaemon hr)
  rw [hr] at hr'
  cases hr'
  exact absurd ((hok hreply).symm.trans (hfail hfails).1) (by decide)

end PortableTlsRa.Tpmdaemon
