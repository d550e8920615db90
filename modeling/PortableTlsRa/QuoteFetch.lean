import PortableTlsRa.MeasureRequest

/-!
# The quote that is fetched from the daemon

`ocall_make_tpm2_quote_via_daemon` copies the value of "tpm2_quote" out of the reply and sets `*sz` to its length, and
then again, to the length of the packet; and the size that it copies is not set where the reply has no such value.  So
what it says of the quote is right only where it gives up (`quoteFetched_iff`): the packet is always longer than the
value (`length_lt_of_attestPairs`).
-/

namespace PortableTlsRa

open CSem Cbor Tpmdaemon

/-- What the variables hold that are not set: the buffer of the reply and `s_sz`. -/
structure FetchMemory where
  buf : ByteBuf 1024
  sSz : Nat

section

variable (cbor : Libcbor) (mem : FetchMemory)

/-- One turn of the loop over the reply; `s_quote` and `s_sz` are set together. -/
def memberTurn (sQuote : Option Bytes) (pair : Item × Item) : Checked (Turn (Option Bytes) Empty) := do
  let (key, val) := pair
  if !key.isString then return .next sQuote
  let name := key.stringBytes
  if strncmpEq (lit "nonce") name then
    let _ ← cbor.bytestring val
    return .next sQuote
  else if strncmpEq (lit "tpm2_quote") name then return .next (some (← cbor.bytestring val))
  else return .next sQuote

/-- The end of the function, from the reply on, of which `rc` is the code and `len` the length; `none` is `abort`.
Returns what `tpm2_serial` holds and `*sz`. -/
def extractQuote (rc : Int) (len : Nat) (buf tpm2Serial : Bytes) : Checked (Option (Bytes × Nat)) := do
  match cbor.load (buf.take len) with
  | some (.map _ pairs) =>
    match ← forEach (memberTurn cbor) none pairs with
    | .next sQuote =>
      let sSz := (sQuote.map List.length).getD mem.sSz
      if tpm2Serial.length < sSz then return none
      let tpm2Serial ← writeRange tpm2Serial 0 (← readBytes sQuote sSz)
      if rc < 0 then return none
      -- the length of the packet takes the place of that of the quote
      return some (tpm2Serial, len)
  | _ => return none

variable (fuel : Nat) (calls : RequestCalls) (nonce tpm2Serial : Bytes) (con : List Arrival)

def attestHead : Bytes := tpmdHead.encode ⟨tpmdReqAttest, calls.aux, UInt32.ofNat nonce.length⟩

/-- `ocall_make_tpm2_quote_via_daemon` after the request was sent. -/
def receiveQuote : Running (Option (Bytes × Nat)) := do
  let (rc, head, con) ← sockRecv fuel con (attestHead calls nonce) 8
  if rc < 0 then return none
  let head := tpmdHead.decode head
  if 1024 < head.len.toNat then return none
  let (rc, buf, _) ← sockRecv fuel con mem.buf.1 head.len.toNat
  checked (extractQuote cbor mem rc head.len.toNat buf tpm2Serial)

/-- The nonce, sealed or not, and `tpm2_serial` come with their sizes. -/
def ocallMakeTpm2QuoteViaDaemon : Running (Option (Bytes × Nat)) := do
  if nonce.length > 1024 then return none
  if calls.con < 0 then return none
  let (rc, _) ← sockSendOn (8 + nonce.length) (attestHead calls nonce ++ nonce) calls.written
  if rc < 0 then return none
  receiveQuote cbor mem fuel calls nonce tpm2Serial con

end

/-! ### Replies -/

/-- The value of a pair whose key is "tpm2_quote". -/
def quoteMember : Item × Item → Option Bytes
  | (.text key, .bytes val) => if key = lit "tpm2_quote" then some val else none
  | _ => none

/-- A name and a byte string; a name other than the two of the reply is not taken for one of them. -/
def IsMember (pair : Item × Item) : Prop :=
  ∃ key val, pair = (.text key, .bytes val) ∧ (key = lit "nonce" ∨ key = lit "tpm2_quote" ∨
    strncmpEq (lit "nonce") key = false ∧ strncmpEq (lit "tpm2_quote") key = false)

/-- The payload of a reply is a map of members, and has this quote or none. -/
structure AttestReply (cbor : Libcbor) (payload : Bytes) (quote : Option Bytes) : Prop where
  ne_nil : payload ≠ []
  map : ∃ definite pairs, cbor.load payload = some (.map definite pairs) ∧ (∀ pair ∈ pairs, IsMember pair) ∧
    lastOf quoteMember pairs = quote

/-- What is returned is the quote of the reply, with its length. -/
def QuoteGiven (quote : Option Bytes) (r : Option (Bytes × Nat)) : Prop :=
  ∀ tpm2Serial sz, r = some (tpm2Serial, sz) → ∃ q, quote = some q ∧ sz = q.length ∧ tpm2Serial.take sz = q

variable {cbor : Libcbor} {mem : FetchMemory} {calls : RequestCalls} {nonce tpm2Serial payload rest b : Bytes}
  {quote : Option Bytes} {con : List Arrival} {head : TpmdHead} {fuel : Nat}

theorem memberTurn_of_isMember {pair : Item × Item} (h : IsMember pair) (sQuote : Option Bytes) :
    memberTurn cbor sQuote pair = .ok (.next ((quoteMember pair).or sQuote)) := by
  obtain ⟨key, val, rfl, rfl | rfl | ⟨hnonce, hquote⟩⟩ := h
  · have hne : lit "nonce" ≠ lit "tpm2_quote" := by decide
    simp only [memberTurn, quoteMember, Item.isString, Item.stringBytes, strncmpEq_self, if_neg hne]
    rfl
  · have hother : strncmpEq (lit "nonce") (lit "tpm2_quote") = false := by decide
    simp only [memberTurn, quoteMember, Item.isString, Item.stringBytes, strncmpEq_self, hother]
    rfl
  · have hne : key ≠ lit "tpm2_quote" := by
      rintro rfl
      rw [strncmpEq_self] at hquote
      cases hquote
    simp only [memberTurn, quoteMember, Item.isString, Item.stringBytes, hnonce, hquote, if_neg hne]
    rfl

/-! ### What is copied -/

/-- What the function takes for the size of the quote. -/
def fetchedSize (mem : FetchMemory) (quote : Option Bytes) : Nat := (quote.map List.length).getD mem.sSz

theorem extractQuote_eq {buf : Bytes} {len : Nat} (hreply : AttestReply cbor (buf.take len) quote) :
    extractQuote cbor mem 0 len buf tpm2Serial =
      if tpm2Serial.length < fetchedSize mem quote then .ok none
      else do
        let data ← readBytes quote (fetchedSize mem quote)
        let tpm2Serial ← writeRange tpm2Serial 0 data
        return some (tpm2Serial, len) := by
  obtain ⟨definite, pairs, hload, hmembers, hquote⟩ := hreply.map
  have hloop : forEach (memberTurn cbor) none pairs = .ok (.next quote) := by
    rw [forEach_assign fun s pair hpair => memberTurn_of_isMember (hmembers pair hpair) s, hquote, Option.or_none]
  unfold extractQuote
  rw [hload]
  dsimp only
  rw [hloop]
  rfl

/-- Where the size fits, the length of the packet is reported, or a null pointer is read. -/
theorem extractQuote_told_iff {buf : Bytes} {len : Nat} (hreply : AttestReply cbor (buf.take len) quote)
    (hsize : fetchedSize mem quote ≤ tpm2Serial.length) :
    (∃ r, extractQuote cbor mem 0 len buf tpm2Serial = .ok r ∧ QuoteGiven quote r) ↔
      ∃ q, quote = some q ∧ q.length = len := by
  rw [extractQuote_eq hreply, if_neg (Nat.not_lt.2 hsize)]
  cases quote with
  | none =>
    refine iff_of_false ?_ nofun
    rintro ⟨r, hrun, hgiven⟩
    obtain ⟨data, -, hwrite⟩ := bind_eq_ok.1 hrun
    obtain ⟨tpm2Serial', -, hreturn⟩ := bind_eq_ok.1 hwrite
    cases hreturn
    obtain ⟨q, hq, -⟩ := hgiven _ _ rfl
    cases hq
  | some q =>
    have hle : q.length ≤ tpm2Serial.length := hsize
    have hread : readBytes (some q) (fetchedSize mem (some q)) = .ok q := readBytes_self q
    have hwrite : writeRange tpm2Serial 0 q = .ok (q ++ tpm2Serial.drop q.length) := by
      rw [writeRange, if_pos (by omega), List.take_zero, List.nil_append, Nat.zero_add]
    rw [hread, ok_bind, hwrite, ok_bind]
    constructor
    · rintro ⟨r, hrun, hgiven⟩
      cases hrun
      obtain ⟨q', hq', hlength, -⟩ := hgiven _ _ rfl
      exact ⟨q', hq', hlength.symm⟩
    · rintro ⟨q', hq', rfl⟩
      cases hq'
      refine ⟨_, rfl, fun tpm2Serial' sz hr => ?_⟩
      cases hr
      exact ⟨q, rfl, rfl, List.take_left' rfl⟩

/-! ### The whole call -/

/-- `write` has taken no byte of what was still to be sent. -/
def AttestRefused (calls : RequestCalls) (nonce : Bytes) : Prop :=
  ∃ wire rest, sockSendOn (8 + nonce.length) (attestHead calls nonce ++ nonce) calls.written =
    some (.ok (-1, wire, rest))

/-- The request is sent. -/
structure RequestSent (calls : RequestCalls) (nonce : Bytes) : Prop where
  nonceSize : nonce.length ≤ 1024
  connected : ¬ calls.con < 0
  sent : ¬ AttestRefused calls nonce

/-- The call gets to the copy, for a quote of this size. -/
structure Copies (calls : RequestCalls) (nonce : Bytes) (head : TpmdHead) (size serialSize : Nat) : Prop where
  request : RequestSent calls nonce
  packet : head.len.toNat ≤ 1024
  quote : size ≤ serialSize

/-- The call gives up before anything is received, or goes on to the reply. -/
theorem ocallMakeTpm2QuoteViaDaemon_cases (cbor : Libcbor) (mem : FetchMemory) (tpm2Serial : Bytes)
    (con : List Arrival)
    (hsent : sockSendOn (8 + nonce.length) (attestHead calls nonce ++ nonce) calls.written ≠ none) :
    (¬ RequestSent calls nonce ∧
        ∀ fuel, ocallMakeTpm2QuoteViaDaemon cbor mem fuel calls nonce tpm2Serial con = some (.ok none)) ∨
      RequestSent calls nonce ∧ ∀ fuel, ocallMakeTpm2QuoteViaDaemon cbor mem fuel calls nonce tpm2Serial con =
        receiveQuote cbor mem fuel calls nonce tpm2Serial con := by
  by_cases hnonce : nonce.length ≤ 1024
  swap
  · exact .inl ⟨fun h => hnonce h.nonceSize, fun _ => if_pos (Nat.lt_of_not_le hnonce)⟩
  by_cases hconnect : calls.con < 0
  · refine .inl ⟨fun h => h.connected hconnect, fun _ => ?_⟩
    rw [ocallMakeTpm2QuoteViaDaemon, if_neg (Nat.not_lt.2 hnonce), if_pos hconnect]
    rfl
  have hpacket : (attestHead calls nonce ++ nonce).length = 8 + nonce.length := by
    rw [attestHead, List.length_append, tpmdHead_encode_length]
  obtain ⟨rc, wire, left, hrun, rfl | rfl⟩ := sockSendOn_ends hpacket hsent
  · right
    have hnot : ¬ AttestRefused calls nonce := by
      rintro ⟨wire', left', hrefused⟩
      cases hrun.symm.trans hrefused
    refine ⟨⟨hnonce, hconnect, hnot⟩, fun fuel => ?_⟩
    rw [ocallMakeTpm2QuoteViaDaemon, if_neg (Nat.not_lt.2 hnonce), if_neg hconnect, running_ok_bind hrun]
    rfl
  · left
    refine ⟨fun h => h.sent ⟨wire, left, hrun⟩, fun fuel => ?_⟩
    rw [ocallMakeTpm2QuoteViaDaemon, if_neg (Nat.not_lt.2 hnonce), if_neg hconnect, running_ok_bind hrun]
    rfl

/-- The header is read off the stream. -/
theorem receiveQuote_head (cbor : Libcbor) (mem : FetchMemory) (calls : RequestCalls) (nonce tpm2Serial : Bytes)
    {body : Bytes} (hcon : Carries con (tpmdHead.encode head ++ body)) :
    ∃ con₁, Carries con₁ body ∧ ∀ fuel ≥ 8, receiveQuote cbor mem fuel calls nonce tpm2Serial con =
      if 1024 < head.len.toNat then return none
      else sockRecv fuel con₁ mem.buf.1 head.len.toNat >>= fun r =>
        checked (extractQuote cbor mem r.1 head.len.toNat r.2.1 tpm2Serial) := by
  have hhead : (attestHead calls nonce).length = 8 := tpmdHead_encode_length _
  have hencode : (tpmdHead.encode head).length = 8 := tpmdHead_encode_length head
  have hdecode : tpmdHead.decode (tpmdHead.encode head) = head := tpmdHead.decode_encode head
  have henough : 8 ≤ (tpmdHead.encode head ++ body).length := by
    rw [List.length_append, hencode]
    omega
  obtain ⟨con₁, hread, hcon₁⟩ := sockRecv_within hcon (by decide) henough (Nat.le_of_eq hhead.symm)
  rw [List.take_left' hencode, List.drop_eq_nil_of_le (Nat.le_of_eq hhead), List.append_nil] at hread
  rw [List.drop_left' hencode] at hcon₁
  refine ⟨con₁, hcon₁, fun fuel hfuel => ?_⟩
  rw [receiveQuote, running_ok_bind (hread fuel hfuel)]
  dsimp only
  rw [hdecode]
  rfl

/-- A reply that the buffer has room for is extracted. -/
theorem receiveQuote_eq (cbor : Libcbor) (mem : FetchMemory) (calls : RequestCalls) (nonce tpm2Serial : Bytes)
    (hcon : Carries con (tpmdHead.encode head ++ (payload ++ rest))) (hlen : payload.length = head.len.toNat)
    (hne : payload ≠ []) (hroom : head.len.toNat ≤ 1024) :
    ∀ fuel ≥ max 8 head.len.toNat, receiveQuote cbor mem fuel calls nonce tpm2Serial con =
      some (extractQuote cbor mem 0 head.len.toNat (payload ++ mem.buf.1.drop head.len.toNat) tpm2Serial) := by
  have hpos : 0 < payload.length := List.length_pos_iff.2 hne
  have hbody : head.len.toNat ≤ (payload ++ rest).length := by
    rw [List.length_append]
    omega
  obtain ⟨con₁, hcon₁, hturn⟩ := receiveQuote_head cbor mem calls nonce tpm2Serial hcon
  obtain ⟨con₂, hread, -⟩ := sockRecv_within hcon₁ (by omega) hbody (by rwa [mem.buf.2])
  rw [List.take_left' hlen] at hread
  intro fuel hfuel
  rw [hturn fuel (Nat.le_trans (Nat.le_max_left _ _) hfuel), if_neg (Nat.not_lt.2 hroom),
    running_ok_bind (hread fuel (Nat.le_trans (Nat.le_max_right _ _) hfuel))]
  rfl

theorem quoteGiven_none : QuoteGiven quote none := nofun

/-- What is told of the quote of a well-formed reply is right exactly when the call does not get to the copy, or the
quote is as long as the packet it is in. -/
theorem quoteFetched_iff (hreply : AttestReply cbor payload quote) (hlen : payload.length = head.len.toNat)
    (hcon : Carries con (tpmdHead.encode head ++ (payload ++ rest)))
    (hsent : sockSendOn (8 + nonce.length) (attestHead calls nonce ++ nonce) calls.written ≠ none) :
    EndsIn (fun fuel => ocallMakeTpm2QuoteViaDaemon cbor mem fuel calls nonce tpm2Serial con) (QuoteGiven quote) ↔
      ¬ Copies calls nonce head (fetchedSize mem quote) tpm2Serial.length ∨
        ∃ q, quote = some q ∧ q.length = head.len.toNat := by
  rcases ocallMakeTpm2QuoteViaDaemon_cases cbor mem tpm2Serial con hsent with ⟨hnot, hrun⟩ | ⟨hrequest, hrun⟩
  · rw [endsIn_of_returns (k := 0) fun fuel _ => hrun fuel]
    exact iff_of_true quoteGiven_none (.inl fun h => hnot h.request)
  rw [endsIn_congr (k := 0) fun fuel _ => hrun fuel]
  by_cases hroom : head.len.toNat ≤ 1024
  swap
  · obtain ⟨con₁, -, hhead⟩ := receiveQuote_head cbor mem calls nonce tpm2Serial hcon
    have hreturns : ∀ fuel ≥ 8, receiveQuote cbor mem fuel calls nonce tpm2Serial con = some (.ok none) := by
      intro fuel hfuel
      rw [hhead fuel hfuel, if_pos (Nat.lt_of_not_le hroom)]
      rfl
    rw [endsIn_of_returns hreturns]
    exact iff_of_true quoteGiven_none (.inl fun h => hroom h.packet)
  have hextract := receiveQuote_eq cbor mem calls nonce tpm2Serial hcon hlen hreply.ne_nil hroom
  have hreply' : AttestReply cbor ((payload ++ mem.buf.1.drop head.len.toNat).take head.len.toNat) quote := by
    rwa [List.take_left' hlen]
  by_cases hsize : fetchedSize mem quote ≤ tpm2Serial.length
  · rw [or_iff_right (not_not.2 ⟨hrequest, hroom, hsize⟩), ← extractQuote_told_iff hreply' hsize]
    cases hresult : extractQuote cbor mem 0 head.len.toNat (payload ++ mem.buf.1.drop head.len.toNat) tpm2Serial with
    | error f =>
      rw [hresult] at hextract
      exact iff_of_false (not_endsIn_of_error hextract) nofun
    | ok r =>
      rw [hresult] at hextract
      rw [endsIn_of_returns hextract]
      constructor
      · intro hgiven
        exact ⟨r, rfl, hgiven⟩
      · rintro ⟨r', hr', hgiven⟩
        cases hr'
        exact hgiven
  · rw [extractQuote_eq hreply', if_pos (Nat.lt_of_not_le hsize)] at hextract
    rw [endsIn_of_returns hextract]
    exact iff_of_true quoteGiven_none (.inl fun h => hsize h.quote)

/-- A packet with a quote of one byte. -/
def shortReply : Bytes :=
  encode (.map true (addCborMap (addCborMap [] "nonce" (List.replicate 32 1)) "tpm2_quote" [7]))

def shortReplyHead : TpmdHead := ⟨tpmdRplAttest, tpmdAuxOk, 54⟩

theorem attestReply_shortReply : AttestReply ⟨load, fun _ => .ok []⟩ shortReply (some [7]) where
  ne_nil := by decide +kernel
  map := by
    refine ⟨true, _, rfl, ?_, rfl⟩
    intro pair hpair
    rcases List.mem_pair.1 hpair with rfl | rfl
    · exact ⟨lit "nonce", _, rfl, .inl rfl⟩
    · exact ⟨lit "tpm2_quote", _, rfl, .inr (.inl rfl)⟩

theorem carries_shortReply : Carries [.bytes (tpmdHead.encode shortReplyHead ++ shortReply)]
    (tpmdHead.encode shortReplyHead ++ (shortReply ++ [])) := by
  rw [List.append_nil]
  exact .single (by decide +kernel)

theorem quoteFetched_shortReply :
    Copies ⟨3, [some 40], 0⟩ (List.replicate 32 1) shortReplyHead (fetchedSize ⟨ByteBuf.zero 1024, 0⟩ (some [7])) 4 ∧
      (EndsIn (fun fuel => ocallMakeTpm2QuoteViaDaemon ⟨load, fun _ => .ok []⟩ ⟨ByteBuf.zero 1024, 0⟩ fuel
            ⟨3, [some 40], 0⟩ (List.replicate 32 1) [0, 0, 0, 0]
            [.bytes (tpmdHead.encode shortReplyHead ++ shortReply)])
          (QuoteGiven (some [7])) ↔
        ¬ Copies ⟨3, [some 40], 0⟩ (List.replicate 32 1) shortReplyHead
            (fetchedSize ⟨ByteBuf.zero 1024, 0⟩ (some [7])) 4 ∨
          ∃ q : Bytes, some [7] = some q ∧ q.length = shortReplyHead.len.toNat) := by
  have hlen : shortReply.length = shortReplyHead.len.toNat := by decide +kernel
  have hsent : sockSendOn 40 (attestHead ⟨3, [some 40], 0⟩ (List.replicate 32 1) ++ List.replicate 32 1)
      [some 40] ≠ none := nofun
  exact ⟨⟨⟨by decide, by decide, nofun⟩, by decide, by decide⟩,
    quoteFetched_iff attestReply_shortReply hlen carries_shortReply hsent⟩

/-- The buffer holds the quote and three bytes that are not set, and is said to hold 54 bytes. -/
theorem shortReply_not_fetched :
    ¬ EndsIn (fun fuel => ocallMakeTpm2QuoteViaDaemon ⟨load, fun _ => .ok []⟩ ⟨ByteBuf.zero 1024, 0⟩ fuel
          ⟨3, [some 40], 0⟩ (List.replicate 32 1) [0, 0, 0, 0]
          [.bytes (tpmdHead.encode shortReplyHead ++ shortReply)])
        (QuoteGiven (some [7])) := by
  have hlen : shortReply.length = shortReplyHead.len.toNat := by decide +kernel
  have hreturns := receiveQuote_eq ⟨load, fun _ => .ok []⟩ ⟨ByteBuf.zero 1024, 0⟩ ⟨3, [some 40], 0⟩
    (List.replicate 32 1) [0, 0, 0, 0] carries_shortReply hlen attestReply_shortReply.ne_nil (by decide)
  have hextract : extractQuote ⟨load, fun _ => .ok []⟩ ⟨ByteBuf.zero 1024, 0⟩ 0 shortReplyHead.len.toNat
      (shortReply ++ (ByteBuf.zero 1024).1.drop shortReplyHead.len.toNat) [0, 0, 0, 0] =
        .ok (some ([7, 0, 0, 0], 54)) := by
    decide +kernel
  rw [hextract] at hreturns
  have hcall : ∀ fuel ≥ max 8 shortReplyHead.len.toNat,
      ocallMakeTpm2QuoteViaDaemon ⟨load, fun _ => .ok []⟩ ⟨ByteBuf.zero 1024, 0⟩ fuel ⟨3, [some 40], 0⟩
        (List.replicate 32 1) [0, 0, 0, 0] [.bytes (tpmdHead.encode shortReplyHead ++ shortReply)] =
          some (.ok (some ([7, 0, 0, 0], 54))) := hreturns
  rw [endsIn_of_returns hcall]
  intro hgiven
  obtain ⟨q, hq, hlength, -⟩ := hgiven _ _ rfl
  cases hq
  exact absurd hlength (by decide)

/-! ### The replies of the daemon -/

/-- The map that `reply_attest` serialises. -/
def attestPairs (nonce tpm2Quote : Bytes) : List (Item × Item) :=
  PortableTlsRa.addCborMap (PortableTlsRa.addCborMap [] "nonce" nonce) "tpm2_quote" tpm2Quote

/-- The reply of the daemon has its quote. -/
theorem attestReply_of_attestPairs {q : Bytes}
    (hload : cbor.load (encode (.map true (attestPairs nonce q))) = some (.map true (attestPairs nonce q))) :
    AttestReply cbor (encode (.map true (attestPairs nonce q))) (some q) := by
  refine ⟨encode_map_ne_nil _ _, true, attestPairs nonce q, hload, ?_, ?_⟩
  · intro pair hpair
    rcases List.mem_pair.1 hpair with rfl | rfl
    · exact ⟨lit "nonce", nonce, rfl, .inl rfl⟩
    · exact ⟨lit "tpm2_quote", q, rfl, .inr (.inl rfl)⟩
  · have hne : lit "nonce" ≠ lit "tpm2_quote" := by decide
    simp only [lastOf, attestPairs, PortableTlsRa.addCborMap, List.nil_append, List.cons_append, List.filterMap_cons,
      quoteMember, if_neg hne, if_true, List.filterMap_nil, List.getLast?_singleton]

/-- A packet is longer than the quote in it. -/
theorem length_lt_of_attestPairs (nonce q : Bytes) : q.length < (encode (.map true (attestPairs nonce q))).length := by
  have hhead := putHead_length_pos 2 (widthOf q.length) q.length
  simp only [encode.eq_def, encodePairs.eq_def, encodePair.eq_def, attestPairs, PortableTlsRa.addCborMap,
    List.nil_append, List.cons_append, List.length_append, List.length_cons, List.length_nil]
  omega

end PortableTlsRa
