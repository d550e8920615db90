import PortableTlsRa.DaemonReply
import PortableTlsRa.SgxTpm2Evidence

/-!
# The claims builders and the calls that fail

`make_cbor_tpm2_claims` and `make_cbor_tpm2_claims_from_enclave`, with every call that may fail on the way.  The code
that they return is the one variable to which the boolean calls are assigned, so that it is negative only where the
first allocation fails; every later failure is returned as 0 or 1 (`makeCborTpm2Claims_right_iff`).
-/

namespace PortableTlsRa.Libtpm2

open CSem Cbor Tpmdaemon

/-! ### The code -/

/-- What `i2d_PUBKEY` returns: the bytes it has allocated, or a code that is not positive. -/
inductive DerResult where
  | made (der : Bytes)
  | failed (code : Int)

namespace DerResult

/-- The result as it is assigned to a variable of type `size_t`. -/
def len : DerResult → Nat
  | made der => der.length
  | failed code => toUint64 code

def der : DerResult → Option Bytes
  | made der => some der
  | failed _ => none

end DerResult

/-- The status of the call for a quote, which is ignored, and what the buffer and the size hold after it. -/
structure QuoteAnswer where
  status : UInt32
  buf : ByteBuf 1024
  size : Nat

/-- Which calls succeed, and what they give.  `pksha` is what the array holds before `SHA256`, and `myseal` what the
buffer of the sealed nonce holds up to its size, which is nothing where sealing fails. -/
structure ClaimsEnv (PKey : Type) where
  newMap : Bool
  newArray : Bool
  buildAlg : Bool
  newBio : Bool
  readPubkey : Bytes → Option PKey
  i2dPubkey : PKey → DerResult
  digests : Bool
  pksha : ByteBuf 32
  buildHash : Bool
  pushAlg : Bool
  pushHash : Bool
  serializeEntry : Bool
  addHash : AddCalls
  addNonce : AddCalls
  atflag : Bool
  myseal : Bytes → Bytes
  ocallMakeTpm2Quote : Bytes → QuoteAnswer
  ocallMakeTpm2QuoteViaDaemon : Bytes → QuoteAnswer
  addQuote : AddCalls
  serializeClaims : Bool

section

variable {PKey : Type} (sha256 : Bytes → ByteBuf 32) (env : ClaimsEnv PKey)

/-- What `pksha` holds after the call of `SHA256`, whose result is ignored. -/
def ClaimsEnv.keyHash (der : Bytes) : ByteBuf 32 := if env.digests then sha256 der else env.pksha

/-- Returns what `*sha256` is set to, or none when the code is -1. -/
def pem2derSha256 (pem : Bytes) : Checked (Option Item) := do
  if !env.newBio then return none
  match env.readPubkey pem with
  | none => return none
  | some pkey =>
    let result := env.i2dPubkey pkey
    -- the length is unsigned, and a negative code is a length too
    if result.len = 0 then return none
    let message ← readBytes result.der result.len
    if !env.buildHash then return none
    return some (.bytes (env.keyHash sha256 message).1)

def pkhashItem (hash : Bytes) : Item := .array true [.uint .w8 ianaHashAlgRegistrySha256, .bytes hash]

/-- Returns the serialised entry, or none when the result is false. -/
def makeCborPkhashEntry (pubkey : Bytes) : Checked (Option Bytes) := do
  if !env.newArray then return none
  if !env.buildAlg then return none
  -- the code is assigned to an unsigned variable, and no code is below 0 there
  let chashVal ← pem2derSha256 sha256 env pubkey
  -- every way on pushes the item or drops a reference to it
  let chashVal ← deref chashVal
  if !env.pushAlg then return none
  if !env.pushHash then return none
  let hash := if env.serializeEntry then encode (.array true [.uint .w8 ianaHashAlgRegistrySha256, chashVal]) else []
  if hash.length = 0 then return none
  return some hash

def keyEntries (chashVal nonce : Bytes) : List Entry :=
  [⟨env.addHash, "pubkey-hash", some chashVal, chashVal.length⟩, ⟨env.addNonce, "nonce", some nonce, nonce.length⟩]

/-- The first two entries, which are the same in both functions; none where a call has returned 0. -/
def addKeyEntries (pubkey nonce : Bytes) : Checked (Option (List (Item × Item))) := do
  match ← makeCborPkhashEntry sha256 env pubkey with
  | none => return none
  | some chashVal => addEntries [] (keyEntries env chashVal nonce)

/-- The end of both functions; `rc` is 1 before it. -/
def serializeAll (cClaims : List (Item × Item)) : Int × Option Bytes :=
  let claims := serializeAlloc env.serializeClaims cClaims
  if claims.length = 0 then (1, none) else (0, some claims)

/-- Returns the code, and what `*claims` and `*csz` are set to, if they are. -/
def makeCborTpm2Claims (pubkey nonce : Bytes) : Checked (Int × Option Bytes) := do
  if !env.newMap then return (-1, none)
  match ← addKeyEntries sha256 env pubkey nonce with
  | none => return (0, none)
  | some cClaims => return serializeAll env cClaims

/-- The call for a quote over 32 bytes of the nonce. -/
def ClaimsEnv.quoteAnswer (nonce : Bytes) : QuoteAnswer :=
  if env.atflag then env.ocallMakeTpm2QuoteViaDaemon (env.myseal nonce) else env.ocallMakeTpm2Quote nonce

def makeCborTpm2ClaimsFromEnclave (pubkey nonce : Bytes) : Checked (Int × Option Bytes) := do
  if !env.newMap then return (-1, none)
  match ← addKeyEntries sha256 env pubkey nonce with
  | none => return (0, none)
  | some cClaims =>
    let answer := env.quoteAnswer (← readRange nonce 0 32)
    if answer.size = 0 then return (1, none)
    match ← Tpmdaemon.addCborMap cClaims ⟨env.addQuote, "tpm2-quote", some answer.buf.1, answer.size⟩ with
    | none => return (0, none)
    | some cClaims => return serializeAll env cClaims

/-! ### What the functions are to return -/

/-- The function returns: with the code 0 if and only if the claims are set and complete, with a negative code and the
outputs as they were otherwise; and a caller that goes on unless the code is negative finds the claims set. -/
structure ClaimsSignalled (complete : Bytes → Prop) (rc : Int) (claims : Option Bytes) : Prop where
  zero_iff : rc = 0 ↔ ∃ bytes, claims = some bytes ∧ complete bytes
  negative : rc ≠ 0 → rc < 0 ∧ claims = none
  tested : ¬ rc < 0 → claims ≠ none

def ClaimsRight (complete : Bytes → Prop) (run : Checked (Int × Option Bytes)) : Prop :=
  ∃ rc claims, run = .ok (rc, claims) ∧ ClaimsSignalled complete rc claims

/-- The key is read, and these are its bytes in DER. -/
def KeyDer (pubkey der : Bytes) : Prop :=
  ∃ pkey, env.readPubkey pubkey = some pkey ∧ env.i2dPubkey pkey = .made der ∧ der ≠ []

def hashPair (hash : ByteBuf 32) : Item × Item := (.text (lit "pubkey-hash"), .bytes (encode (pkhashItem hash.1)))

def noncePair (nonce : Bytes) : Item × Item := (.text (lit "nonce"), .bytes nonce)

/-- The bytes that a call for a quote has answered. -/
def QuoteAnswer.quote (answer : QuoteAnswer) : Bytes := answer.buf.1.take answer.size

def quotePair (quote : Bytes) : Item × Item := (.text (lit "tpm2-quote"), .bytes quote)

/-- The complete claims of the host. -/
def HostClaims (pubkey nonce claims : Bytes) : Prop :=
  ∃ der, KeyDer env pubkey der ∧ claims = encode (.map true [hashPair (sha256 der), noncePair nonce])

/-- The complete claims of the enclave, with the quote of a call that has succeeded. -/
def EnclaveClaims (pubkey nonce claims : Bytes) : Prop :=
  ∃ der, KeyDer env pubkey der ∧ (env.quoteAnswer (nonce.take 32)).status = 0 ∧
    claims = encode (.map true
      [hashPair (sha256 der), noncePair nonce, quotePair (env.quoteAnswer (nonce.take 32)).quote])

/-- Every call for the entry succeeds but the conversion of the key and its digest. -/
structure ClaimsEnv.EntryCalls : Prop where
  newArray : env.newArray = true
  buildAlg : env.buildAlg = true
  newBio : env.newBio = true
  buildHash : env.buildHash = true
  pushAlg : env.pushAlg = true
  pushHash : env.pushHash = true
  serializeEntry : env.serializeEntry = true

/-- Every call for the claims of the host succeeds, for a key with these bytes. -/
structure ClaimsEnv.KeyCalls (pubkey der : Bytes) : Prop where
  entry : env.EntryCalls
  key : KeyDer env pubkey der
  addHash : env.addHash.Succeed
  addNonce : env.addNonce.Succeed
  serializeClaims : env.serializeClaims = true

/-- The nonce is long enough to be read, and the buffer for the quote that is answered. -/
structure ClaimsEnv.QuoteCalls (nonce : Bytes) : Prop where
  nonce_length : 32 ≤ nonce.length
  size_pos : 0 < (env.quoteAnswer (nonce.take 32)).size
  size_le : (env.quoteAnswer (nonce.take 32)).size ≤ 1024
  addQuote : env.addQuote.Succeed

variable {sha256 env} {pubkey nonce der : Bytes} {rc : Int} {claims : Option Bytes}

/-! ### The hash of the key -/

theorem KeyDer.unique {der' : Bytes} (h : KeyDer env pubkey der) (h' : KeyDer env pubkey der') : der = der' := by
  obtain ⟨pkey, hread, hmade, -⟩ := h
  obtain ⟨pkey', hread', hmade', -⟩ := h'
  cases hread.symm.trans hread'
  cases hmade.symm.trans hmade'
  rfl

/-- The length and the pointer that `i2d_PUBKEY` gives go together where it succeeds, and nowhere else. -/
theorem readBytes_derResult {result : DerResult} {message : Bytes} :
    result.len ≠ 0 ∧ readBytes result.der result.len = .ok message ↔ result = .made message ∧ message ≠ [] := by
  cases result with
  | made der =>
    rw [DerResult.len, DerResult.der, readBytes_self, Except.ok.injEq, DerResult.made.injEq, ne_eq,
      List.length_eq_zero_iff]
    constructor
    · rintro ⟨hne, rfl⟩
      exact ⟨rfl, hne⟩
    · rintro ⟨rfl, hne⟩
      exact ⟨hne, rfl⟩
  | failed code =>
    refine iff_of_false ?_ nofun
    rintro ⟨hlen, hread⟩
    rw [readBytes, if_neg hlen] at hread
    cases hread

theorem pem2derSha256_eq_some_iff {item : Item} :
    pem2derSha256 sha256 env pubkey = .ok (some item) ↔
      env.newBio = true ∧ env.buildHash = true ∧
        ∃ der, KeyDer env pubkey der ∧ item = .bytes (env.keyHash sha256 der).1 := by
  rw [pem2derSha256, unless_none_eq_some_iff]
  refine and_congr_right fun _ => ?_
  cases hread : env.readPubkey pubkey with
  | none =>
    refine iff_of_false nofun ?_
    rintro ⟨-, der, ⟨pkey, hpkey, -⟩, -⟩
    cases hread.symm.trans hpkey
  | some pkey =>
    dsimp only
    constructor
    · intro h
      split_ifs at h with hlen hbuild
      · cases h
      · obtain ⟨_, _, h⟩ := bind_eq_ok.1 h
        cases h
      · obtain ⟨message, hmessage, h⟩ := bind_eq_ok.1 h
        obtain ⟨hmade, hne⟩ := readBytes_derResult.1 ⟨hlen, hmessage⟩
        cases h
        exact ⟨by simpa using hbuild, message, ⟨pkey, hread, hmade, hne⟩, rfl⟩
    · rintro ⟨hbuild, der, ⟨pkey', hpkey, hmade, hne⟩, rfl⟩
      cases hread.symm.trans hpkey
      obtain ⟨hlen, hmessage⟩ := readBytes_derResult.2 ⟨hmade, hne⟩
      rw [if_neg hlen, hmessage, ok_bind, hbuild]
      rfl

/-- The entry is made where every call succeeds and the key is read; else the result is false or a fault. -/
theorem makeCborPkhashEntry_eq_some_iff {chashVal : Bytes} :
    makeCborPkhashEntry sha256 env pubkey = .ok (some chashVal) ↔
      env.EntryCalls ∧ ∃ der, KeyDer env pubkey der ∧ chashVal = encode (pkhashItem (env.keyHash sha256 der).1) := by
  unfold makeCborPkhashEntry
  constructor
  · intro h
    obtain ⟨harray, h⟩ := unless_none_eq_some_iff.1 h
    obtain ⟨halg, h⟩ := unless_none_eq_some_iff.1 h
    obtain ⟨item, hitem, h⟩ := bind_eq_ok.1 h
    obtain ⟨value, hvalue, h⟩ := bind_eq_ok.1 h
    obtain ⟨hpushAlg, h⟩ := unless_none_eq_some_iff.1 h
    obtain ⟨hpushHash, h⟩ := unless_none_eq_some_iff.1 h
    rw [deref_eq_ok.1 hvalue] at hitem
    obtain ⟨hbio, hbuild, der, hkey, rfl⟩ := pem2derSha256_eq_some_iff.1 hitem
    cases hserialize : env.serializeEntry with
    | false =>
      rw [hserialize] at h
      cases h
    | true =>
      simp only [hserialize, if_true] at h
      split at h
      · cases h
      · cases h
        exact ⟨⟨harray, halg, hbio, hbuild, hpushAlg, hpushHash, hserialize⟩, der, hkey, rfl⟩
  · rintro ⟨hcalls, der, hkey, rfl⟩
    have hsha : pem2derSha256 sha256 env pubkey = .ok (some (.bytes (env.keyHash sha256 der).1)) :=
      pem2derSha256_eq_some_iff.2 ⟨hcalls.newBio, hcalls.buildHash, der, hkey, rfl⟩
    have hne : (encode (pkhashItem (env.keyHash sha256 der).1)).length ≠ 0 :=
      fun h => encode_array_ne_nil true _ (List.length_eq_zero_iff.1 h)
    simp only [hcalls.newArray, hcalls.buildAlg, hsha, hcalls.pushAlg, hcalls.pushHash, hcalls.serializeEntry, deref,
      ok_bind, Bool.not_true, Bool.false_eq_true, if_false, if_true]
    exact if_neg hne

/-! ### The claims -/

/-- What is serialised for one hash of the key is not serialised for another. -/
theorem encode_hashPair_inj {hash hash' : ByteBuf 32} {pairs : List (Item × Item)}
    (h : encode (.map true (hashPair hash :: pairs)) = encode (.map true (hashPair hash' :: pairs))) :
    hash = hash' := by
  have hbytes (b : ByteBuf 32) : encode (.bytes b.1) = putHead 2 (widthOf 32) 32 ++ b.1 := by
    rw [encode.eq_def]
    simp only [b.2]
  have hitem (b : ByteBuf 32) : encode (pkhashItem b.1) = putHead 4 (widthOf 2) 2 ++
      (encode (.uint .w8 ianaHashAlgRegistrySha256) ++ (putHead 2 (widthOf 32) 32 ++ b.1)) := by
    rw [pkhashItem, encode.eq_def]
    simp only [encodeItems, hbytes, List.length_cons, List.length_nil, Nat.zero_add, Nat.reduceAdd, List.append_nil]
  have hlength : (encode (pkhashItem hash.1)).length = (encode (pkhashItem hash'.1)).length := by
    simp only [hitem, List.length_append, hash.2, hash'.2]
  have hvalue (b : ByteBuf 32) : encode (.bytes (encode (pkhashItem b.1))) =
      putHead 2 (widthOf (encode (pkhashItem b.1)).length) (encode (pkhashItem b.1)).length ++
        encode (pkhashItem b.1) := by
    rw [encode.eq_def]
  have hmap (b : ByteBuf 32) : encode (.map true (hashPair b :: pairs)) =
      putHead 5 (widthOf (pairs.length + 1)) (pairs.length + 1) ++
        ((encode (.text (lit "pubkey-hash")) ++ encode (.bytes (encode (pkhashItem b.1)))) ++ encodePairs pairs) := by
    rw [encode.eq_def]
    rfl
  rw [hmap, hmap, List.append_cancel_left_eq, List.append_cancel_right_eq, List.append_cancel_left_eq, hvalue, hvalue,
    hlength, List.append_cancel_left_eq, hitem, hitem] at h
  simp only [List.append_cancel_left_eq] at h
  exact Subtype.ext h

theorem serializeAll_eq_some_iff {cClaims : List (Item × Item)} {bytes : Bytes} :
    serializeAll env cClaims = (rc, some bytes) ↔
      rc = 0 ∧ env.serializeClaims = true ∧ bytes = encode (.map true cClaims) := by
  unfold serializeAll serializeAlloc
  cases env.serializeClaims with
  | false => simp
  | true =>
    simp only [if_true, List.length_eq_zero_iff, if_neg (encode_map_ne_nil true cClaims), Prod.mk.injEq,
      Option.some.injEq, true_and]
    exact and_congr eq_comm eq_comm

theorem serializeAll_nonneg (env : ClaimsEnv PKey) (cClaims : List (Item × Item)) :
    0 ≤ (serializeAll env cClaims).1 := by
  unfold serializeAll
  dsimp only
  split_ifs
  · exact Int.one_nonneg
  · exact Int.le_refl 0

theorem addKeyEntries_eq_some_iff {cClaims : List (Item × Item)} :
    addKeyEntries sha256 env pubkey nonce = .ok (some cClaims) ↔
      env.EntryCalls ∧ env.addHash.Succeed ∧ env.addNonce.Succeed ∧
        ∃ der, KeyDer env pubkey der ∧ cClaims = [hashPair (env.keyHash sha256 der), noncePair nonce] := by
  have hadded (chashVal : Bytes) : (∀ e ∈ keyEntries env chashVal nonce, e.Added) ↔
      env.addHash.Succeed ∧ env.addNonce.Succeed := by
    rw [keyEntries, List.forall_mem_cons, List.forall_mem_singleton]
    exact and_congr (and_iff_left (.inr ⟨chashVal, rfl, Nat.le_refl _⟩))
      (and_iff_left (.inr ⟨nonce, rfl, Nat.le_refl _⟩))
  have hpairs (chashVal : Bytes) : (keyEntries env chashVal nonce).map Entry.pair =
      [(.text (lit "pubkey-hash"), .bytes chashVal), noncePair nonce] := by
    simp only [keyEntries, List.map_cons, List.map_nil, Entry.pair, Entry.bytes, Option.getD_some, List.take_length,
      noncePair]
  rw [addKeyEntries, bind_eq_ok]
  constructor
  · rintro ⟨_ | chashVal, hentry, hentries⟩
    · cases hentries
    · obtain ⟨hcalls, der, hkey, rfl⟩ := makeCborPkhashEntry_eq_some_iff.1 hentry
      obtain ⟨hall, rfl⟩ := addEntries_eq_some_iff.1 hentries
      obtain ⟨hhash, hnonce⟩ := (hadded _).1 hall
      exact ⟨hcalls, hhash, hnonce, der, hkey, hpairs _⟩
  · rintro ⟨hcalls, hhash, hnonce, der, hkey, rfl⟩
    refine ⟨some _, makeCborPkhashEntry_eq_some_iff.2 ⟨hcalls, der, hkey, rfl⟩, ?_⟩
    exact addEntries_eq_some_iff.2 ⟨(hadded _).2 ⟨hhash, hnonce⟩, (hpairs _).symm⟩

theorem makeCborTpm2Claims_eq_some_iff {bytes : Bytes} :
    makeCborTpm2Claims sha256 env pubkey nonce = .ok (rc, some bytes) ↔
      rc = 0 ∧ env.newMap = true ∧ ∃ der, env.KeyCalls pubkey der ∧
        bytes = encode (.map true [hashPair (env.keyHash sha256 der), noncePair nonce]) := by
  unfold makeCborTpm2Claims
  cases hmap : env.newMap with
  | false => simp
  | true =>
    rw [Bool.not_true, if_neg Bool.false_ne_true, bind_eq_ok]
    constructor
    · rintro ⟨_ | cClaims, hadd, hend⟩
      · cases hend
      · obtain ⟨hcalls, hhash, hnonce, der, hkey, rfl⟩ := addKeyEntries_eq_some_iff.1 hadd
        obtain ⟨rfl, hserialize, rfl⟩ := serializeAll_eq_some_iff.1 (Except.ok.inj hend)
        exact ⟨rfl, rfl, der, ⟨hcalls, hkey, hhash, hnonce, hserialize⟩, rfl⟩
    · rintro ⟨rfl, -, der, h, rfl⟩
      refine ⟨some _, addKeyEntries_eq_some_iff.2 ⟨h.entry, h.addHash, h.addNonce, der, h.key, rfl⟩, ?_⟩
      exact congrArg Except.ok (serializeAll_eq_some_iff.2 ⟨rfl, h.serializeClaims, rfl⟩)

theorem quoteEntry_added_iff {calls : AddCalls} {answer : QuoteAnswer} :
    Entry.Added ⟨calls, "tpm2-quote", some answer.buf.1, answer.size⟩ ↔ calls.Succeed ∧ answer.size ≤ 1024 := by
  refine and_congr_right fun _ => ?_
  constructor
  · rintro (hzero | ⟨cells, hcells, hle⟩)
    · exact hzero.trans_le (Nat.zero_le 1024)
    · cases hcells
      exact answer.buf.2 ▸ hle
  · intro hle
    exact .inr ⟨answer.buf.1, rfl, answer.buf.2.symm ▸ hle⟩

theorem makeCborTpm2ClaimsFromEnclave_eq_some_iff {bytes : Bytes} :
    makeCborTpm2ClaimsFromEnclave sha256 env pubkey nonce = .ok (rc, some bytes) ↔
      rc = 0 ∧ env.newMap = true ∧ ∃ der, env.KeyCalls pubkey der ∧ env.QuoteCalls nonce ∧
        bytes = encode (.map true [hashPair (env.keyHash sha256 der), noncePair nonce,
          quotePair (env.quoteAnswer (nonce.take 32)).quote]) := by
  unfold makeCborTpm2ClaimsFromEnclave
  cases hmap : env.newMap with
  | false => simp
  | true =>
    rw [Bool.not_true, if_neg Bool.false_ne_true, bind_eq_ok]
    constructor
    · rintro ⟨_ | cClaims, hadd, hend⟩
      · cases hend
      · obtain ⟨hcalls, hhash, hnonce, der, hkey, rfl⟩ := addKeyEntries_eq_some_iff.1 hadd
        obtain ⟨given, hread, hend⟩ := bind_eq_ok.1 hend
        unfold readRange at hread
        split_ifs at hread with hlen
        cases hread
        rw [List.drop_zero] at hend
        dsimp only at hend
        split_ifs at hend with hsize
        · cases hend
        · obtain ⟨_ | cClaims, hquote, hend⟩ := bind_eq_ok.1 hend
          · cases hend
          · obtain ⟨hadded, rfl⟩ := addCborMap_eq_some_iff.1 hquote
            obtain ⟨haddQuote, hle⟩ := quoteEntry_added_iff.1 hadded
            obtain ⟨rfl, hserialize, rfl⟩ := serializeAll_eq_some_iff.1 (Except.ok.inj hend)
            exact ⟨rfl, rfl, der, ⟨hcalls, hkey, hhash, hnonce, hserialize⟩,
              ⟨by omega, Nat.pos_of_ne_zero hsize, hle, haddQuote⟩, rfl⟩
    · rintro ⟨rfl, -, der, h, hquote, rfl⟩
      refine ⟨some _, addKeyEntries_eq_some_iff.2 ⟨h.entry, h.addHash, h.addNonce, der, h.key, rfl⟩, ?_⟩
      have hread : readRange nonce 0 32 = .ok (nonce.take 32) := by
        have hlen := hquote.nonce_length
        rw [readRange, if_pos (by omega), List.drop_zero]
      have hadded := quoteEntry_added_iff.2 ⟨hquote.addQuote, hquote.size_le⟩
      dsimp only
      rw [hread, ok_bind, if_neg (Nat.ne_of_gt hquote.size_pos), addCborMap_of_added _ hadded, ok_bind]
      exact congrArg Except.ok (serializeAll_eq_some_iff.2 ⟨rfl, h.serializeClaims, rfl⟩)

/-! ### The codes -/

theorem makeCborTpm2Claims_nonneg (hmap : env.newMap = true)
    (h : makeCborTpm2Claims sha256 env pubkey nonce = .ok (rc, claims)) : 0 ≤ rc := by
  unfold makeCborTpm2Claims at h
  rw [hmap, Bool.not_true, if_neg Bool.false_ne_true, bind_eq_ok] at h
  obtain ⟨_ | cClaims, -, hend⟩ := h
  · cases hend
    exact Int.le_refl 0
  · have hnonneg := serializeAll_nonneg env cClaims
    rw [Except.ok.inj hend] at hnonneg
    exact hnonneg

theorem makeCborTpm2ClaimsFromEnclave_nonneg (hmap : env.newMap = true)
    (h : makeCborTpm2ClaimsFromEnclave sha256 env pubkey nonce = .ok (rc, claims)) : 0 ≤ rc := by
  unfold makeCborTpm2ClaimsFromEnclave at h
  rw [hmap, Bool.not_true, if_neg Bool.false_ne_true, bind_eq_ok] at h
  obtain ⟨_ | cClaims, -, h⟩ := h
  · cases h
    exact Int.le_refl 0
  · obtain ⟨given, -, h⟩ := bind_eq_ok.1 h
    dsimp only at h
    split_ifs at h
    · cases h
      exact Int.one_nonneg
    · obtain ⟨_ | cClaims, -, hend⟩ := bind_eq_ok.1 h
      · cases hend
        exact Int.le_refl 0
      · have hnonneg := serializeAll_nonneg env cClaims
        rw [Except.ok.inj hend] at hnonneg
        exact hnonneg

/-- Where no code is negative, a run is right only with complete claims. -/
theorem claimsRight_iff_of_nonneg {complete : Bytes → Prop} {run : Checked (Int × Option Bytes)}
    (hnonneg : ∀ rc claims, run = .ok (rc, claims) → 0 ≤ rc) :
    ClaimsRight complete run ↔ ∃ bytes, run = .ok (0, some bytes) ∧ complete bytes := by
  constructor
  · rintro ⟨rc, claims, hrun, hsignalled⟩
    have hzero : rc = 0 := by
      by_contra hne
      exact Int.not_lt.2 (hnonneg rc claims hrun) (hsignalled.negative hne).1
    obtain ⟨bytes, rfl, hcomplete⟩ := hsignalled.zero_iff.1 hzero
    exact ⟨bytes, hzero ▸ hrun, hcomplete⟩
  · rintro ⟨bytes, hrun, hcomplete⟩
    exact ⟨0, some bytes, hrun, iff_of_true rfl ⟨bytes, rfl, hcomplete⟩, nofun, nofun⟩

theorem claimsRight_of_negative (complete : Bytes → Prop) : ClaimsRight complete (.ok (-1, none)) :=
  ⟨-1, none, rfl, iff_of_false nofun nofun, fun _ => ⟨by decide, rfl⟩, fun h => absurd (by decide) h⟩

/-! ### The calls that succeed -/

/-- What the calls give where none fails. -/
def ClaimsEnv.makeEnv (sha256 : Bytes → ByteBuf 32) (env : ClaimsEnv PKey) : MakeEnv where
  serialize := encode
  sha256 := env.keyHash sha256
  readPubkey := fun pem => (env.readPubkey pem).bind fun pkey => (env.i2dPubkey pkey).der
  atflag := env.atflag
  myseal := env.myseal
  ocallMakeTpm2Quote := fun nonce => ((env.ocallMakeTpm2Quote nonce).buf, (env.ocallMakeTpm2Quote nonce).size)
  ocallMakeTpm2QuoteViaDaemon := fun sealedNonce =>
    ((env.ocallMakeTpm2QuoteViaDaemon sealedNonce).buf, (env.ocallMakeTpm2QuoteViaDaemon sealedNonce).size)

theorem makeCborPkhashEntry_makeEnv (h : KeyDer env pubkey der) :
    PortableTlsRa.makeCborPkhashEntry (env.makeEnv sha256) pubkey =
      .ok (some (encode (pkhashItem (env.keyHash sha256 der).1))) := by
  obtain ⟨pkey, hread, hmade, -⟩ := h
  have hder : (env.makeEnv sha256).readPubkey pubkey = some der := by
    simp only [ClaimsEnv.makeEnv, hread, Option.bind_some, hmade, DerResult.der]
  rw [PortableTlsRa.makeCborPkhashEntry, PortableTlsRa.pem2derSha256, hder]
  exact congrArg Except.ok (if_neg (encode_array_ne_nil true _))

theorem receiveTpm2Quote_makeEnv (hlen : nonce.length = 32) :
    receiveTpm2Quote (env.makeEnv sha256) nonce =
      .ok ((env.quoteAnswer nonce).buf, (env.quoteAnswer nonce).size) := by
  have hread : readRange nonce 0 32 = .ok nonce := by
    rw [readRange, if_pos (by omega), List.drop_zero, ← hlen, List.take_length]
  unfold receiveTpm2Quote ClaimsEnv.quoteAnswer
  rw [hread, ok_bind]
  cases hflag : env.atflag with
  | false => simp only [ClaimsEnv.makeEnv, hflag, Bool.false_eq_true, if_false]
  | true => simp only [ClaimsEnv.makeEnv, hflag, if_true, pure_eq_ok]

/-- Claims that are made although calls may fail are those that are made where no call can. -/
theorem makeCborTpm2ClaimsFromEnclave_makeEnv {bytes : Bytes} (hlen : nonce.length = 32)
    (h : makeCborTpm2ClaimsFromEnclave sha256 env pubkey nonce = .ok (rc, some bytes)) :
    PortableTlsRa.makeCborTpm2ClaimsFromEnclave (env.makeEnv sha256) pubkey nonce = .ok (rc, some bytes) := by
  obtain ⟨rfl, -, der, hkey, hquote, rfl⟩ := makeCborTpm2ClaimsFromEnclave_eq_some_iff.1 h
  have hall : nonce.take 32 = nonce := by rw [← hlen, List.take_length]
  obtain ⟨-, hpos, hle, -⟩ := hquote
  rw [hall] at hpos hle ⊢
  have hread : readRange (env.quoteAnswer nonce).buf.1 0 (env.quoteAnswer nonce).size =
      .ok (env.quoteAnswer nonce).quote := by
    have hbuf := (env.quoteAnswer nonce).buf.2
    rw [readRange, if_pos (by omega), List.drop_zero]
    rfl
  rw [PortableTlsRa.makeCborTpm2ClaimsFromEnclave, makeCborPkhashEntry_makeEnv hkey.key, ok_bind]
  dsimp only
  rw [receiveTpm2Quote_makeEnv hlen, ok_bind]
  dsimp only
  rw [if_neg (Nat.ne_of_gt hpos), hread, ok_bind]
  exact if_neg (encode_map_ne_nil true _)

/-! ### Which codes are right -/

/-- The host's claims are signalled rightly where the map is not allocated and where every call succeeds, and nowhere
else; those of the enclave where also the nonce has 32 bytes and the call for a quote succeeds, with a size within the
buffer. -/
theorem makeCborTpm2Claims_right_iff (sha256 : Bytes → ByteBuf 32) (env : ClaimsEnv PKey) (pubkey nonce : Bytes) :
    (ClaimsRight (HostClaims sha256 env pubkey nonce) (makeCborTpm2Claims sha256 env pubkey nonce) ↔
      env.newMap = true → ∃ der, env.KeyCalls pubkey der ∧ env.keyHash sha256 der = sha256 der) ∧
    (ClaimsRight (EnclaveClaims sha256 env pubkey nonce) (makeCborTpm2ClaimsFromEnclave sha256 env pubkey nonce) ↔
      env.newMap = true → (∃ der, env.KeyCalls pubkey der ∧ env.keyHash sha256 der = sha256 der) ∧
        env.QuoteCalls nonce ∧ (env.quoteAnswer (nonce.take 32)).status = 0) := by
  cases hmap : env.newMap with
  | false =>
    have hhost : makeCborTpm2Claims sha256 env pubkey nonce = .ok (-1, none) := by
      rw [makeCborTpm2Claims, hmap]
      rfl
    have henclave : makeCborTpm2ClaimsFromEnclave sha256 env pubkey nonce = .ok (-1, none) := by
      rw [makeCborTpm2ClaimsFromEnclave, hmap]
      rfl
    rw [hhost, henclave]
    exact ⟨iff_of_true (claimsRight_of_negative _) nofun, iff_of_true (claimsRight_of_negative _) nofun⟩
  | true =>
    rw [claimsRight_iff_of_nonneg fun _ _ => makeCborTpm2Claims_nonneg hmap,
      claimsRight_iff_of_nonneg fun _ _ => makeCborTpm2ClaimsFromEnclave_nonneg hmap]
    simp only [forall_const]
    constructor
    · constructor
      · rintro ⟨bytes, hrun, der, hkey, hbytes⟩
        obtain ⟨-, -, der', hcalls, hbytes'⟩ := makeCborTpm2Claims_eq_some_iff.1 hrun
        cases hkey.unique hcalls.key
        exact ⟨der, hcalls, encode_hashPair_inj (hbytes'.symm.trans hbytes)⟩
      · rintro ⟨der, hcalls, hhash⟩
        exact ⟨_, makeCborTpm2Claims_eq_some_iff.2 ⟨rfl, hmap, der, hcalls, rfl⟩, der, hcalls.key, by rw [hhash]⟩
    · constructor
      · rintro ⟨bytes, hrun, der, hkey, hstatus, hbytes⟩
        obtain ⟨-, -, der', hcalls, hquote, hbytes'⟩ := makeCborTpm2ClaimsFromEnclave_eq_some_iff.1 hrun
        cases hkey.unique hcalls.key
        exact ⟨⟨der, hcalls, encode_hashPair_inj (hbytes'.symm.trans hbytes)⟩, hquote, hstatus⟩
      · rintro ⟨⟨der, hcalls, hhash⟩, hquote, hstatus⟩
        exact ⟨_, makeCborTpm2ClaimsFromEnclave_eq_some_iff.2 ⟨rfl, hmap, der, hcalls, hquote, rfl⟩, der, hcalls.key,
          hstatus, by rw [hhash]⟩

end

/-- A host where every call succeeds but the one that makes the byte string of the nonce. -/
def refusedNonce : ClaimsEnv Unit where
  newMap := true
  newArray := true
  buildAlg := true
  newBio := true
  readPubkey := fun _ => some ()
  i2dPubkey := fun _ => .made [0x30]
  digests := true
  pksha := ByteBuf.zero 32
  buildHash := true
  pushAlg := true
  pushHash := true
  serializeEntry := true
  addHash := ⟨true, true, true⟩
  addNonce := ⟨true, false, true⟩
  atflag := false
  myseal := id
  ocallMakeTpm2Quote := fun _ => ⟨0, ByteBuf.zero 1024, 8⟩
  ocallMakeTpm2QuoteViaDaemon := fun _ => ⟨0, ByteBuf.zero 1024, 8⟩
  addQuote := ⟨true, true, true⟩
  serializeClaims := true

theorem makeCborTpm2Claims_refusedNonce (sha256 : Bytes → ByteBuf 32) (pubkey nonce : Bytes) :
    makeCborTpm2Claims sha256 refusedNonce pubkey nonce = .ok (0, none) := by
  have hcalls : refusedNonce.EntryCalls := ⟨rfl, rfl, rfl, rfl, rfl, rfl, rfl⟩
  have hentry : makeCborPkhashEntry sha256 refusedNonce pubkey =
      .ok (some (encode (pkhashItem (refusedNonce.keyHash sha256 [0x30]).1))) :=
    makeCborPkhashEntry_eq_some_iff.2 ⟨hcalls, [0x30], ⟨(), rfl, rfl, List.cons_ne_nil _ _⟩, rfl⟩
  have hrefused (chashVal : Bytes) : addEntries [] (keyEntries refusedNonce chashVal nonce) = .ok none := by
    refine addEntries_of_refused (entriesInBounds_of_readable ?_) ?_ []
    · exact forall_mem_pair (.inr ⟨chashVal, rfl, Nat.le_refl _⟩) (.inr ⟨nonce, rfl, Nat.le_refl _⟩)
    · rw [keyEntries, List.forall_mem_cons, List.forall_mem_singleton]
      rintro ⟨-, -, hval, -⟩
      cases hval
  have hadd : addKeyEntries sha256 refusedNonce pubkey nonce = .ok none := by
    rw [addKeyEntries, hentry, ok_bind]
    exact hrefused _
  rw [makeCborTpm2Claims, hadd]
  rfl

/-- The code 0, and no claims. -/
theorem refusedNonce_not_right : ¬ ∃ sha256 pubkey nonce,
    ClaimsRight (HostClaims sha256 refusedNonce pubkey nonce)
      (makeCborTpm2Claims sha256 refusedNonce pubkey nonce) := by
  rintro ⟨sha256, pubkey, nonce, rc, claims, hrun, hsignalled⟩
  cases (makeCborTpm2Claims_refusedNonce sha256 pubkey nonce).symm.trans hrun
  exact hsignalled.tested (by decide) rfl

end PortableTlsRa.Libtpm2
