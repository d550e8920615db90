import PortableTlsRa.PicaEvidence
import Mathlib.Data.Nat.Bitwise

/-!
# What the extraction reports

The extraction of the evidence as the log of its writes: which output parameter is written, from which member of the
reply, in the order of the reply (`replyWrites`).  The log and the bits that are returned depend on the reply alone
(`extractTpm2evidence_eq`), but the bits say only which members were come to: what the output parameters hold in the
end is what the last writes left there.  The extraction reports what it has exactly where these are writes of proper
members (`extractTpm2evidence_reports_iff`).
-/

namespace PortableTlsRa

open CSem Cbor

/-! ### The log -/

/-- The output parameters. -/
inductive EvidenceField where
  | quote
  | sign
  | appHash
  | pica
deriving DecidableEq

def EvidenceField.bit : EvidenceField → Nat
  | .quote => ExtractFlag.tpm2Qute
  | .sign => ExtractFlag.tpm2Sign
  | .appHash => ExtractFlag.tpm2Aphash
  | .pica => 0

/-- What a member of the bundle is taken for. -/
def bundleField (key : Item) : Option EvidenceField :=
  if !key.isString then none
  else if strncmpEq (lit "quote") key.stringBytes then some .quote
  else if strncmpEq (lit "sign") key.stringBytes then some .sign
  else if strncmpEq (lit "app-hash") key.stringBytes then some .appHash
  else none

/-- A write with the bytes of the member that it is made from, or the fault in place of them. -/
inductive Write where
  | copy (field : EvidenceField) (member : Item × Item) (body : Bytes)
  | fault (e : Fault)

/-- The write to an output parameter. -/
def Write.apply (tss2 : Tss2) (ev : Evidence) : Write → Checked Evidence
  | .copy .quote _ body => do
    let quote ← intSized body
    return { ev with quote }
  | .copy .sign _ body => do
    let sigBody ← intSized body
    return { ev with tpmSig := (tss2.unmarshalSignature sigBody ev.tpmSig).2 }
  | .copy .appHash _ body => do
    let body ← intSized body
    let apphash ← memcpy ev.apphash body
    return { ev with apphash }
  | .copy .pica _ body => return { ev with picabody := body }
  | .fault e => .error e

section

variable (cbor : Libcbor)

def memberWrite (field : EvidenceField) (member : Item × Item) : Write :=
  match cbor.bytestring member.2 with
  | .ok body => .copy field member body
  | .error e => .fault e

/-- The writes of a bundle, up to the first member that is taken for no field. -/
def bundleWrites : List (Item × Item) → List Write
  | [] => []
  | member :: members =>
    match bundleField member.1 with
    | some field => memberWrite cbor field member :: bundleWrites members
    | none => []

/-- The bits of a bundle, where `rc` are those so far; a member that is taken for no field clears them. -/
def bundleBits (rc : Nat) : List (Item × Item) → Nat
  | [] => rc
  | member :: members =>
    match bundleField member.1 with
    | some field => bundleBits (rc ||| field.bit) members
    | none => 0

/-- The members of a bundle that are looked at; there are none if it is no serialised map. -/
def bundleMembers (item : Item) : List (Item × Item) :=
  match unpackSercbor cbor item with
  | some (.map _ pairs) => pairs.take (toInt32 pairs.length).toNat
  | _ => []

/-- The writes that a member of the reply leads to. -/
def entryWrites (entry : Item × Item) : List Write :=
  if !entry.1.isString then []
  else if strncmpEq (lit "tpm2_quote") entry.1.stringBytes then bundleWrites cbor (bundleMembers cbor entry.2)
  else if strncmpEq (lit "pica") entry.1.stringBytes then [memberWrite cbor .pica entry]
  else []

def entryBits (entry : Item × Item) : Nat :=
  if entry.1.isString && strncmpEq (lit "tpm2_quote") entry.1.stringBytes then bundleBits 0 (bundleMembers cbor entry.2)
  else 0

/-- The members of a reply; there are none if it is no map of two. -/
def replyEntries (measure : Bytes) : List (Item × Item) :=
  match cbor.load measure with
  | some (.map _ pairs) => if pairs.length = 2 then pairs else []
  | _ => []

/-- The writes of the extraction, in order. -/
def replyWrites (measure : Bytes) : List Write := (replyEntries cbor measure).flatMap (entryWrites cbor)

/-- What the extraction returns if it returns. -/
def replyBits (measure : Bytes) : Nat :=
  (replyEntries cbor measure).foldl (fun rc entry => rc ||| entryBits cbor entry) 0

end

variable {cbor : Libcbor} {tss2 : Tss2} {measure : Bytes}

theorem bundleTurn_eq (rc : Nat) (ev : Evidence) (member : Item × Item) :
    bundleTurn cbor tss2 (rc, ev) member =
      match bundleField member.1 with
      | some field => (memberWrite cbor field member).apply tss2 ev >>= fun ev => .ok (.next (rc ||| field.bit, ev))
      | none => .ok (.exit ev) := by
  obtain ⟨key, val⟩ := member
  unfold bundleTurn bundleField memberWrite
  dsimp only
  split_ifs
  · rfl
  · cases cbor.bytestring val with
    | error e => rfl
    | ok body =>
      simp only [ok_bind, Write.apply]
      cases intSized body <;> rfl
  · cases cbor.bytestring val with
    | error e => rfl
    | ok body =>
      simp only [ok_bind, Write.apply]
      cases intSized body <;> rfl
  · cases hbody : cbor.bytestring val with
    | error e => rfl
    | ok body =>
      simp only [ok_bind, Write.apply]
      cases intSized body with
      | error e => rfl
      | ok sized =>
        simp only [ok_bind]
        cases memcpy ev.apphash sized <;> rfl
  · rfl

/-- The loop over a bundle makes the writes of the bundle and gives its bits. -/
theorem bundleLoop_eq (rc : Nat) (ev : Evidence) (members : List (Item × Item)) :
    (forEach (bundleTurn cbor tss2) (rc, ev) members >>= fun turn =>
      match turn with
      | .next (rc, ev) => .ok (rc, ev)
      | .exit ev => .ok (0, ev)) =
      (bundleWrites cbor members).foldlM (Write.apply tss2) ev >>= fun ev => .ok (bundleBits rc members, ev) := by
  induction members generalizing rc ev with
  | nil => rfl
  | cons member members ih =>
    have hturn : bundleTurn cbor tss2 (rc, ev) member = _ := bundleTurn_eq rc ev member
    cases hfield : bundleField member.1 with
    | none =>
      rw [hfield] at hturn
      rw [forEach_cons_of_exit hturn, bundleWrites, bundleBits, hfield]
      rfl
    | some field =>
      rw [hfield] at hturn
      dsimp only at hturn
      rw [bundleWrites, bundleBits, hfield]
      dsimp only
      rw [List.foldlM_cons]
      cases hwrite : (memberWrite cbor field member).apply tss2 ev with
      | error e =>
        rw [hwrite] at hturn
        rw [forEach_cons_of_error hturn]
        rfl
      | ok ev' =>
        rw [hwrite] at hturn
        rw [forEach_cons_of_next hturn, ih]
        rfl

theorem extractTpm2evidenceBundle_eq (item : Item) (ev : Evidence) :
    extractTpm2evidenceBundle cbor tss2 item ev =
      (bundleWrites cbor (bundleMembers cbor item)).foldlM (Write.apply tss2) ev >>= fun ev =>
        .ok (bundleBits 0 (bundleMembers cbor item), ev) := by
  rw [← bundleLoop_eq, extractTpm2evidenceBundle, bundleMembers]
  cases unpackSercbor cbor item with
  | none => rfl
  | some cmap => cases cmap <;> rfl

theorem evidenceTurn_eq (rc : Nat) (ev : Evidence) (entry : Item × Item) :
    evidenceTurn cbor tss2 (rc, ev) entry =
      (entryWrites cbor entry).foldlM (Write.apply tss2) ev >>= fun ev =>
        .ok (.next (rc ||| entryBits cbor entry, ev)) := by
  obtain ⟨key, val⟩ := entry
  unfold evidenceTurn entryWrites entryBits
  dsimp only
  by_cases hstring : key.isString
  · simp only [hstring, Bool.not_true, Bool.false_eq_true, if_false, Bool.true_and]
    split_ifs
    · rw [extractTpm2evidenceBundle_eq]
      cases (bundleWrites cbor (bundleMembers cbor val)).foldlM (Write.apply tss2) ev <;> rfl
    · unfold memberWrite
      dsimp only
      cases cbor.bytestring val with
      | error e => rfl
      | ok body => simp [Write.apply]
    · simp
  · simp [hstring]

/-- The extraction makes the writes of the reply, in order, and returns the bits of the reply. -/
theorem extractTpm2evidence_eq (measure : Bytes) (ev : Evidence) :
    extractTpm2evidence cbor tss2 measure ev =
      (replyWrites cbor measure).foldlM (Write.apply tss2) ev >>= fun ev => .ok (replyBits cbor measure, ev) := by
  have hloop : ∀ (rc : Nat) (ev : Evidence) (entries : List (Item × Item)),
      forEach (evidenceTurn cbor tss2) (rc, ev) entries =
        (entries.flatMap (entryWrites cbor)).foldlM (Write.apply tss2) ev >>= fun ev =>
          .ok (.next (entries.foldl (fun rc entry => rc ||| entryBits cbor entry) rc, ev)) := by
    intro rc ev entries
    induction entries generalizing rc ev with
    | nil => rfl
    | cons entry entries ih =>
      have hturn : evidenceTurn cbor tss2 (rc, ev) entry = _ := evidenceTurn_eq rc ev entry
      rw [List.flatMap_cons, List.foldlM_append, List.foldl_cons]
      cases hwrites : (entryWrites cbor entry).foldlM (Write.apply tss2) ev with
      | error e =>
        rw [hwrites] at hturn
        rw [forEach_cons_of_error hturn]
        rfl
      | ok ev' =>
        rw [hwrites] at hturn
        rw [forEach_cons_of_next hturn, ih]
        rfl
  unfold extractTpm2evidence replyWrites replyBits replyEntries
  cases cbor.load measure with
  | none => rfl
  | some cmap =>
    cases cmap with
    | map definite pairs =>
      by_cases hlen : pairs.length = 2
      · simp only [hlen, ne_eq, not_true_eq_false, if_false, if_true, hloop]
        cases (pairs.flatMap (entryWrites cbor)).foldlM (Write.apply tss2) ev <;> rfl
      · simp [hlen]
    | _ => rfl

/-- A result of the extraction has the bits of the reply and what its writes leave. -/
theorem extractTpm2evidence_eq_ok_iff {ev ev' : Evidence} {bits : Nat} :
    extractTpm2evidence cbor tss2 measure ev = .ok (bits, ev') ↔
      bits = replyBits cbor measure ∧ (replyWrites cbor measure).foldlM (Write.apply tss2) ev = .ok ev' := by
  rw [extractTpm2evidence_eq, bind_eq_ok]
  constructor
  · rintro ⟨out, hrun, hret⟩
    cases hret
    exact ⟨rfl, hrun⟩
  · rintro ⟨rfl, hrun⟩
    exact ⟨ev', hrun, rfl⟩

/-! ### What is reported -/

/-- The field is written from a byte string of the name, which is `data`. -/
def Copied (log : List Write) (field : EvidenceField) (name : String) (data : Bytes) : Prop :=
  .copy field (.text (lit name), .bytes data) data ∈ log

/-- What the output parameters hold is what proper members of the reply say. -/
structure Reported (tss2 : Tss2) (log : List Write) (ev : Evidence) : Prop where
  quote : ∃ data, Copied log .quote "quote" data ∧ ev.quote = data
  sign : ∃ data before, Copied log .sign "sign" data ∧ tss2.unmarshalSignature data before = (0, ev.tpmSig)
  appHash : ∃ data, Copied log .appHash "app-hash" data ∧ data.length = 32 ∧ ev.apphash.1 = data
  pica : ∃ data, Copied log .pica "pica" data ∧ ev.picabody = data

/-- What the three parts of a bundle left is what proper members of the reply say. -/
structure BundleReported (tss2 : Tss2) (log : List Write) (ev : Evidence) : Prop where
  quote : ∃ data, Copied log .quote "quote" data ∧ ev.quote = data
  sign : ∃ data before, Copied log .sign "sign" data ∧ tss2.unmarshalSignature data before = (0, ev.tpmSig)
  appHash : ∃ data, Copied log .appHash "app-hash" data ∧ data.length = 32 ∧ ev.apphash.1 = data

/-- The number of bytes that are copied to `apphash`: an `int` that is taken for a `size_t`. -/
def copiedSize (body : Bytes) : Int := toInt32 body.length % 2 ^ 64

/-- The extraction comes to the write of `body` to `apphash`. -/
def ComesToAppHash (tss2 : Tss2) (log : List Write) (ev : Evidence) (body : Bytes) : Prop :=
  ∃ pre member post, log = pre ++ .copy .appHash member body :: post ∧ ∃ ev', pre.foldlM (Write.apply tss2) ev = .ok ev'

/-- A result with all bits is the one of proper members, and no write to `apphash` is longer than it. -/
structure ReportsWhatItHas (cbor : Libcbor) (tss2 : Tss2) (measure : Bytes) : Prop where
  reported : ∀ ev rc ev', extractTpm2evidence cbor tss2 measure ev = .ok (rc, ev') → isExtractTpm2All rc →
    Reported tss2 (replyWrites cbor measure) ev'
  fits : ∀ ev body, ComesToAppHash tss2 (replyWrites cbor measure) ev body → copiedSize body ≤ 32

/-! ### When a reply is in order -/

/-- The write reaches no fault. -/
def Write.Sound : Write → Prop
  | .copy .quote _ body => 0 ≤ toInt32 body.length
  | .copy .sign _ body => 0 ≤ toInt32 body.length
  | .copy .appHash _ body => 0 ≤ toInt32 body.length ∧ toInt32 body.length ≤ 32
  | .copy .pica _ _ => True
  | .fault _ => False

/-- The bytes that the write puts into the field. -/
def Write.body (field : EvidenceField) : Write → Option Bytes
  | .copy f _ body =>
    if f = field then some (if f = .pica then body else body.take (toInt32 body.length).toNat) else none
  | .fault _ => none

def bodies (log : List Write) (field : EvidenceField) : List Bytes := log.filterMap (Write.body field)

/-- What copies to one place leave, one over the other. -/
def copyOver (out body : Bytes) : Bytes := body ++ out.drop body.length

/-- What the writes of the reply leave is what proper members say: for `quote` and `pica` the last write, for the
signature all calls of the unmarshalling function, for `apphash` all copies. -/
structure LastsInOrder (tss2 : Tss2) (log : List Write) : Prop where
  quote : ∃ data, Copied log .quote "quote" data ∧ (bodies log .quote).getLast? = some data
  sign : ∀ sig, ∃ data before, Copied log .sign "sign" data ∧ tss2.unmarshalSignature data before =
    (0, (bodies log .sign).foldl (fun sig body => (tss2.unmarshalSignature body sig).2) sig)
  appHash : ∃ data, Copied log .appHash "app-hash" data ∧ data.length = 32 ∧
    (bodies log .appHash).foldl copyOver [] = data
  pica : ∃ data, Copied log .pica "pica" data ∧ (bodies log .pica).getLast? = some data

/-- What the writes of the three parts of a bundle leave is what proper members say; `sig` is what the variable of the
signature holds at first. -/
structure BundleInOrder (tss2 : Tss2) (log : List Write) (sig : TpmtSignature) : Prop where
  quote : ∃ data, Copied log .quote "quote" data ∧ (bodies log .quote).getLast? = some data
  sign : ∃ data before, Copied log .sign "sign" data ∧ tss2.unmarshalSignature data before =
    (0, (bodies log .sign).foldl (fun sig body => (tss2.unmarshalSignature body sig).2) sig)
  appHash : ∃ data, Copied log .appHash "app-hash" data ∧ data.length = 32 ∧
    (bodies log .appHash).foldl copyOver [] = data

/-- All members of the bundle are taken for fields, one of them for `field`. -/
def BundleHas (members : List (Item × Item)) (field : EvidenceField) : Prop :=
  (∀ member ∈ members, (bundleField member.1).isSome) ∧ ∃ member ∈ members, bundleField member.1 = some field

/-- A member of the reply is taken for a bundle that has the field. -/
def ReplyHas (cbor : Libcbor) (measure : Bytes) (field : EvidenceField) : Prop :=
  ∃ entry ∈ replyEntries cbor measure, entry.1.isString ∧ strncmpEq (lit "tpm2_quote") entry.1.stringBytes ∧
    BundleHas (bundleMembers cbor entry.2) field

/-- The reply leads to no copy to `apphash` that is longer than it, and if it has all fields of a bundle then its
writes leave what proper members say. -/
structure ReplyInOrder (cbor : Libcbor) (tss2 : Tss2) (measure : Bytes) : Prop where
  fits : ∀ pre member body post, replyWrites cbor measure = pre ++ .copy .appHash member body :: post →
    (∀ w ∈ pre, w.Sound) → copiedSize body ≤ 32
  lasts : (∀ field, field ≠ .pica → ReplyHas cbor measure field) → (∀ w ∈ replyWrites cbor measure, w.Sound) →
    LastsInOrder tss2 (replyWrites cbor measure)

theorem toInt32_le (n : Nat) : toInt32 n ≤ n := by
  have hlt := (BitVec.ofNat 32 n).isLt
  have hmod : (BitVec.ofNat 32 n).toNat ≤ n := by
    rw [BitVec.toNat_ofNat]
    exact Nat.mod_le _ _
  rw [toInt32, BitVec.toInt_eq_toNat_cond]
  split_ifs <;> omega

theorem intSized_eq_ok {data body : Bytes} (h : intSized data = .ok body) :
    0 ≤ toInt32 data.length ∧ body = data.take (toInt32 data.length).toNat := by
  unfold intSized at h
  dsimp only at h
  split_ifs at h with hneg
  cases h
  exact ⟨by omega, rfl⟩

theorem intSized_of_nonneg {data : Bytes} (h : 0 ≤ toInt32 data.length) :
    intSized data = .ok (data.take (toInt32 data.length).toNat) := by
  unfold intSized
  dsimp only
  rw [if_neg (by omega)]

theorem sized_length (data : Bytes) (h : 0 ≤ toInt32 data.length) :
    ((data.take (toInt32 data.length).toNat).length : Int) = toInt32 data.length := by
  have hle := toInt32_le data.length
  rw [List.length_take]
  omega

/-- It depends on the write alone whether it reaches a fault. -/
theorem Write.apply_defined_iff (ev : Evidence) (w : Write) : (∃ ev', w.apply tss2 ev = .ok ev') ↔ w.Sound := by
  rcases w with ⟨field, member, body⟩ | e
  · have hsized : (∃ sized, intSized body = .ok sized) ↔ 0 ≤ toInt32 body.length := by
      constructor
      · intro ⟨sized, h⟩
        exact (intSized_eq_ok h).1
      · intro h
        exact ⟨_, intSized_of_nonneg h⟩
    cases field with
    | quote =>
      rw [Write.Sound, ← hsized]
      simp [Write.apply, bind_eq_ok]
    | sign =>
      rw [Write.Sound, ← hsized]
      simp [Write.apply, bind_eq_ok]
    | appHash =>
      simp only [Write.apply, bind_eq_ok, Write.Sound]
      constructor
      · intro ⟨ev', sized, hsize, apphash, hcopy, _⟩
        obtain ⟨hnonneg, rfl⟩ := intSized_eq_ok hsize
        have hlen := sized_length body hnonneg
        unfold memcpy at hcopy
        split_ifs at hcopy with hle
        exact ⟨hnonneg, by omega⟩
      · intro ⟨hnonneg, hle⟩
        have hlen := sized_length body hnonneg
        have hfits : (body.take (toInt32 body.length).toNat).length ≤ 32 := by omega
        obtain ⟨out, hout, -⟩ := memcpy_of_le ev.apphash hfits
        exact ⟨_, _, intSized_of_nonneg hnonneg, out, hout, rfl⟩
    | pica => exact iff_of_true ⟨_, rfl⟩ trivial
  · exact iff_of_false (fun h => by cases h.choose_spec) id

/-- The writes reach no fault exactly when all of them are sound. -/
theorem log_defined_iff (ev : Evidence) (log : List Write) :
    (∃ ev', log.foldlM (Write.apply tss2) ev = .ok ev') ↔ ∀ w ∈ log, w.Sound :=
  foldlM_exists_iff Write.apply_defined_iff

/-- The bit of the field is set. -/
def Has (rc : Nat) (field : EvidenceField) : Prop := rc &&& field.bit ≠ 0

theorem has_or {a b : Nat} {field : EvidenceField} : Has (a ||| b) field ↔ Has a field ∨ Has b field := by
  rw [Has, Nat.and_or_distrib_right, Ne, Nat.or_eq_zero_iff, not_and_or]
  rfl

theorem has_bit {field other : EvidenceField} (h : field ≠ .pica) : Has other.bit field ↔ other = field := by
  cases field <;> cases other <;> simp_all [Has, EvidenceField.bit, ExtractFlag.tpm2Qute, ExtractFlag.tpm2Sign,
    ExtractFlag.tpm2Aphash]

theorem hasAll_iff {rc : Nat} : isExtractTpm2All rc ↔ ∀ field, field ≠ .pica → Has rc field := by
  have hseven : rc &&& 7 = (rc &&& 1) ||| (rc &&& 2) ||| (rc &&& 4) := by
    rw [← Nat.and_or_distrib_left, ← Nat.and_or_distrib_left]
    rfl
  have hquote : rc &&& 1 = _ := Nat.and_two_pow rc 0
  have hsign : rc &&& 2 = _ := Nat.and_two_pow rc 1
  have happHash : rc &&& 4 = _ := Nat.and_two_pow rc 2
  have hall : (∀ field, field ≠ .pica → Has rc field) ↔ rc &&& 1 ≠ 0 ∧ rc &&& 2 ≠ 0 ∧ rc &&& 4 ≠ 0 := by
    constructor
    · intro h
      exact ⟨h .quote (by decide), h .sign (by decide), h .appHash (by decide)⟩
    · intro ⟨h1, h2, h4⟩ field hfield
      cases field with
      | quote => exact h1
      | sign => exact h2
      | appHash => exact h4
      | pica => exact absurd rfl hfield
  rw [hall, isExtractTpm2All, beq_iff_eq, hseven, hquote, hsign, happHash]
  cases rc.testBit 0 <;> cases rc.testBit 1 <;> cases rc.testBit 2 <;> decide

theorem bundleBits_has_iff {field : EvidenceField} (hfield : field ≠ .pica) (rc : Nat) (members : List (Item × Item)) :
    Has (bundleBits rc members) field ↔
      (∀ member ∈ members, (bundleField member.1).isSome) ∧
        (Has rc field ∨ ∃ member ∈ members, bundleField member.1 = some field) := by
  induction members generalizing rc with
  | nil => simp [bundleBits]
  | cons member members ih =>
    cases hother : bundleField member.1 with
    | none => simp [bundleBits, hother, Has]
    | some other => simp [bundleBits, hother, ih, has_or, has_bit hfield, or_assoc]

/-- A bit is returned exactly when the reply has its field. -/
theorem replyBits_has_iff {field : EvidenceField} (hfield : field ≠ .pica) :
    Has (replyBits cbor measure) field ↔ ReplyHas cbor measure field := by
  have hentry : ∀ entry, Has (entryBits cbor entry) field ↔ entry.1.isString ∧
      strncmpEq (lit "tpm2_quote") entry.1.stringBytes ∧ BundleHas (bundleMembers cbor entry.2) field := by
    intro entry
    unfold entryBits
    split_ifs with hkey
    · rw [bundleBits_has_iff hfield]
      simp_all [BundleHas, Has]
    · simp_all [Has]
  have hloop : ∀ (entries : List (Item × Item)) (rc : Nat),
      Has (entries.foldl (fun rc entry => rc ||| entryBits cbor entry) rc) field ↔
        Has rc field ∨ ∃ entry ∈ entries, Has (entryBits cbor entry) field := by
    intro entries
    induction entries with
    | nil => simp
    | cons entry entries ih =>
      intro rc
      rw [List.foldl_cons, ih, has_or]
      simp [or_assoc]
  unfold replyBits ReplyHas
  rw [hloop, or_iff_right (fun h : Has 0 field => h (Nat.zero_and _))]
  exact exists_congr fun entry => and_congr_right fun _ => hentry entry

/-! ### What the writes leave -/

/-- A part of the evidence that only the writes of one field change is what these writes make of it, in order. -/
theorem log_view {β : Type} (view : Evidence → β) (field : EvidenceField) (f : β → Bytes → β)
    (step : ∀ ev w ev', Write.apply tss2 ev w = .ok ev' → view ev' = (w.body field).elim (view ev) (f (view ev)))
    {ev ev' : Evidence} {log : List Write} (h : log.foldlM (Write.apply tss2) ev = .ok ev') :
    view ev' = (bodies log field).foldl f (view ev) := by
  induction log generalizing ev with
  | nil =>
    cases h
    rfl
  | cons w log ih =>
    obtain ⟨mid, hmid, hrest⟩ := bind_eq_ok.1 h
    have hstep := step ev w mid hmid
    rw [ih hrest, hstep, bodies, bodies, List.filterMap_cons]
    cases w.body field <;> rfl

/-- What one write changes. -/
theorem Write.apply_spec {ev ev' : Evidence} {w : Write} (h : w.apply tss2 ev = .ok ev') :
    ev'.quote = (w.body .quote).elim ev.quote id ∧
    ev'.tpmSig = (w.body .sign).elim ev.tpmSig (fun body => (tss2.unmarshalSignature body ev.tpmSig).2) ∧
    ev'.apphash.1 = (w.body .appHash).elim ev.apphash.1 (copyOver ev.apphash.1) ∧
    ev'.picabody = (w.body .pica).elim ev.picabody id := by
  rcases w with ⟨field, member, body⟩ | e
  · cases field with
    | quote =>
      obtain ⟨sized, hsize, hret⟩ := bind_eq_ok.1 h
      cases hret
      obtain ⟨-, rfl⟩ := intSized_eq_ok hsize
      exact ⟨rfl, rfl, rfl, rfl⟩
    | sign =>
      obtain ⟨sized, hsize, hret⟩ := bind_eq_ok.1 h
      cases hret
      obtain ⟨-, rfl⟩ := intSized_eq_ok hsize
      exact ⟨rfl, rfl, rfl, rfl⟩
    | appHash =>
      obtain ⟨sized, hsize, hret⟩ := bind_eq_ok.1 h
      obtain ⟨apphash, hcopy, hret⟩ := bind_eq_ok.1 hret
      cases hret
      obtain ⟨-, rfl⟩ := intSized_eq_ok hsize
      exact ⟨rfl, rfl, memcpy_eq_ok hcopy, rfl⟩
    | pica =>
      cases h
      exact ⟨rfl, rfl, rfl, rfl⟩
  · cases h

theorem foldl_last (bodies : List Bytes) (out : Bytes) :
    bodies.foldl (fun _ body => body) out = bodies.getLast?.getD out := by
  induction bodies using List.reverseRecOn with
  | nil => rfl
  | append_singleton bodies body _ => simp

/-- Once a copy fills the place, it does not matter what stood there. -/
theorem copyOver_filled {bodies : List Bytes} {data out out' : Bytes} (hmem : data ∈ bodies)
    (hout : out.length ≤ data.length) (hout' : out'.length ≤ data.length)
    (hle : ∀ body ∈ bodies, body.length ≤ data.length) :
    bodies.foldl copyOver out = bodies.foldl copyOver out' := by
  induction bodies generalizing out out' with
  | nil => cases hmem
  | cons body bodies ih =>
    rw [List.forall_mem_cons] at hle
    rw [List.foldl_cons, List.foldl_cons]
    rcases List.mem_cons.1 hmem with rfl | hrest
    · have hfilled : copyOver out data = copyOver out' data := by
        rw [copyOver, copyOver, List.drop_eq_nil_of_le hout, List.drop_eq_nil_of_le hout']
      rw [hfilled]
    · have hlen : ∀ o : Bytes, o.length ≤ data.length → (copyOver o body).length ≤ data.length := by
        intro o ho
        rw [copyOver, List.length_append, List.length_drop]
        have hbody := hle.1
        omega
      exact ih hrest (hlen out hout) (hlen out' hout') hle.2

theorem last_of_getD {l : List Bytes} {data out : Bytes} (hmem : l ≠ []) (h : l.getLast?.getD out = data) :
    l.getLast? = some data := by
  rw [List.getLast?_eq_some_getLast hmem] at h ⊢
  exact congrArg some h

/-- What a run leaves, field by field. -/
theorem log_spec {ev ev' : Evidence} {log : List Write} (h : log.foldlM (Write.apply tss2) ev = .ok ev') :
    ev'.quote = (bodies log .quote).getLast?.getD ev.quote ∧
    ev'.tpmSig = (bodies log .sign).foldl (fun sig body => (tss2.unmarshalSignature body sig).2) ev.tpmSig ∧
    ev'.apphash.1 = (bodies log .appHash).foldl copyOver ev.apphash.1 ∧
    ev'.picabody = (bodies log .pica).getLast?.getD ev.picabody := by
  refine ⟨?_, ?_, ?_, ?_⟩
  · rw [← foldl_last]
    exact log_view Evidence.quote .quote _ (fun _ _ _ hw => (Write.apply_spec hw).1) h
  · exact log_view Evidence.tpmSig .sign _ (fun _ _ _ hw => (Write.apply_spec hw).2.1) h
  · exact log_view (fun ev => ev.apphash.1) .appHash _ (fun _ _ _ hw => (Write.apply_spec hw).2.2.1) h
  · rw [← foldl_last]
    exact log_view Evidence.picabody .pica _ (fun _ _ _ hw => (Write.apply_spec hw).2.2.2) h

theorem Copied.bodies_ne_nil {log : List Write} {field : EvidenceField} {name : String} {data : Bytes}
    (h : Copied log field name data) : bodies log field ≠ [] := by
  apply List.ne_nil_of_mem
  exact List.mem_filterMap.2 ⟨_, h, if_pos rfl⟩

/-- A proper hash is copied whole, so that nothing of what stood in `apphash` is left. -/
theorem copyOver_of_copied {log : List Write} {data : Bytes} (hsound : ∀ w ∈ log, w.Sound)
    (hcopied : Copied log .appHash "app-hash" data) (hlen : data.length = 32) (out : ByteBuf 32) :
    (bodies log .appHash).foldl copyOver out.1 = (bodies log .appHash).foldl copyOver [] := by
  have hbody : data ∈ bodies log .appHash := by
    apply List.mem_filterMap.2 ⟨_, hcopied, _⟩
    rw [Write.body, if_pos rfl, if_neg (by decide), hlen]
    exact congrArg some (List.take_of_length_le (Nat.le_of_eq hlen))
  apply copyOver_filled hbody (by rw [out.2, hlen]) (Nat.zero_le _)
  intro body hmem
  obtain ⟨w, hw, hwbody⟩ := List.mem_filterMap.1 hmem
  have hok := hsound w hw
  rcases w with ⟨field, member, src⟩ | e
  · rw [Write.body] at hwbody
    split_ifs at hwbody with hfield hpica
    · exact absurd (hfield ▸ hpica) (by decide)
    · subst hfield
      cases hwbody
      have hsize := sized_length src hok.1
      have hle := hok.2
      omega
  · cases hwbody

/-- What a run leaves of a bundle is what proper members say exactly where its writes are in order. -/
theorem bundleReported_iff {ev ev' : Evidence} {log : List Write} (h : log.foldlM (Write.apply tss2) ev = .ok ev') :
    BundleReported tss2 log ev' ↔ BundleInOrder tss2 log ev.tpmSig := by
  obtain ⟨hquote, hsign, happHash, -⟩ := log_spec h
  have hsound := (log_defined_iff ev log).1 ⟨ev', h⟩
  constructor
  · intro hreported
    refine ⟨?_, ?_, ?_⟩
    · obtain ⟨data, hcopied, hdata⟩ := hreported.quote
      exact ⟨data, hcopied, last_of_getD hcopied.bodies_ne_nil (hquote.symm.trans hdata)⟩
    · obtain ⟨data, before, hcopied, hdata⟩ := hreported.sign
      exact ⟨data, before, hcopied, by rw [hdata, hsign]⟩
    · obtain ⟨data, hcopied, hlen, hdata⟩ := hreported.appHash
      refine ⟨data, hcopied, hlen, ?_⟩
      rw [← copyOver_of_copied hsound hcopied hlen ev.apphash, ← happHash, hdata]
  · intro ⟨⟨quote, hquoteCopied, hquoteLast⟩, ⟨sign, before, hsignCopied, hsignLast⟩,
      ⟨hash, hhashCopied, hlen, hhashLast⟩⟩
    refine ⟨⟨quote, hquoteCopied, ?_⟩, ⟨sign, before, hsignCopied, ?_⟩, ⟨hash, hhashCopied, hlen, ?_⟩⟩
    · rw [hquote, hquoteLast]
      rfl
    · rw [hsignLast, hsign]
    · rw [happHash, copyOver_of_copied hsound hhashCopied hlen, hhashLast]

/-- A run whose writes are in order reports proper members. -/
theorem reported_iff {ev ev' : Evidence} {log : List Write} (h : log.foldlM (Write.apply tss2) ev = .ok ev') :
    Reported tss2 log ev' ↔
      BundleInOrder tss2 log ev.tpmSig ∧
      (∃ data, Copied log .pica "pica" data ∧ (bodies log .pica).getLast? = some data) := by
  obtain ⟨-, -, -, hpica⟩ := log_spec h
  rw [← bundleReported_iff h]
  constructor
  · intro ⟨hquote, hsign, happHash, data, hcopied, hdata⟩
    exact ⟨⟨hquote, hsign, happHash⟩, data, hcopied, last_of_getD hcopied.bodies_ne_nil (hpica.symm.trans hdata)⟩
  · intro ⟨⟨hquote, hsign, happHash⟩, data, hcopied, hlast⟩
    refine ⟨hquote, hsign, happHash, data, hcopied, ?_⟩
    rw [hpica, hlast]
    rfl

/-- The extraction reports what it has exactly on the replies in order. -/
theorem extractTpm2evidence_reports_iff (cbor : Libcbor) (tss2 : Tss2) (measure : Bytes) :
    ReportsWhatItHas cbor tss2 measure ↔ ReplyInOrder cbor tss2 measure := by
  have hall : isExtractTpm2All (replyBits cbor measure) ↔ ∀ field, field ≠ .pica → ReplyHas cbor measure field := by
    rw [hasAll_iff]
    exact forall₂_congr fun field hfield => replyBits_has_iff hfield
  constructor
  · intro h
    constructor
    · intro pre member body post hlog hsound
      let ev : Evidence := ⟨[], ByteBuf.zero 32, default, []⟩
      exact h.fits ev body ⟨pre, member, post, hlog, (log_defined_iff ev pre).2 hsound⟩
    · intro hfields hsound
      have hreported : ∀ sig, ∃ ev : Evidence, ev.tpmSig = sig ∧ ∃ ev',
          (replyWrites cbor measure).foldlM (Write.apply tss2) ev = .ok ev' ∧
          Reported tss2 (replyWrites cbor measure) ev' := by
        intro sig
        let ev : Evidence := ⟨[], ByteBuf.zero 32, sig, []⟩
        obtain ⟨ev', hrun⟩ : ∃ ev', (replyWrites cbor measure).foldlM (Write.apply tss2) ev = .ok ev' :=
          (log_defined_iff ev _).2 hsound
        refine ⟨ev, rfl, ev', hrun, h.reported ev _ ev' ?_ (hall.2 hfields)⟩
        rw [extractTpm2evidence_eq, hrun]
        rfl
      obtain ⟨ev, -, ev', hrun, hev⟩ := hreported default
      obtain ⟨⟨hquote, -, happHash⟩, hpica⟩ := (reported_iff hrun).1 hev
      refine ⟨hquote, ?_, happHash, hpica⟩
      intro sig
      obtain ⟨ev, rfl, ev', hrun, hev⟩ := hreported sig
      exact ((reported_iff hrun).1 hev).1.sign
  · intro h
    constructor
    · intro ev rc ev' hrun hbits
      rw [extractTpm2evidence_eq] at hrun
      obtain ⟨out, hwrites, hret⟩ := bind_eq_ok.1 hrun
      cases hret
      have hlasts := h.lasts (hall.1 hbits) ((log_defined_iff ev _).1 ⟨_, hwrites⟩)
      exact (reported_iff hwrites).2 ⟨⟨hlasts.quote, hlasts.sign ev.tpmSig, hlasts.appHash⟩, hlasts.pica⟩
    · intro ev body ⟨pre, member, post, hlog, hpre⟩
      exact h.fits pre member body post hlog ((log_defined_iff ev pre).1 hpre)

/-- A reply whose bundle has an "app-hash" of 33 bytes. -/
def longAppHash : Bytes :=
  encode (.map true [
    (.text (lit "tpm2_quote"), .bytes (encode (.map true [(.text (lit "app-hash"), .bytes (List.replicate 33 0))]))),
    (.text (lit "pica"), .bytes [])])

/-- All of its bytes go to `apphash`. -/
theorem longAppHash_overflows :
    ¬ ReportsWhatItHas ⟨Cbor.load, fun _ => .error .nullPointer⟩ ⟨fun _ old => (1, old), fun _ old => (1, old)⟩
      longAppHash := by
  intro h
  let member : Item × Item := (.text (lit "app-hash"), .bytes (List.replicate 33 0))
  let post : List Write := [.copy .pica (.text (lit "pica"), .bytes []) []]
  have hlog : replyWrites ⟨Cbor.load, fun _ => .error .nullPointer⟩ longAppHash =
      .copy .appHash member (List.replicate 33 0) :: post := by
    rfl
  have hsize := h.fits ⟨[], ByteBuf.zero 32, default, []⟩ _ ⟨[], member, post, hlog, _, rfl⟩
  exact absurd hsize (by decide)

end PortableTlsRa
