import PortableTlsRa.HostTpm2
import PortableTlsRa.PicaEvidence
import PortableTlsRa.SgxEvidence

/-!
# How members are selected by their keys

Four decoders go through the members of a map and compare every key with the names of their fields, in order, over the
length of the key that was sent.  A member is taken for a field when it might as well have the name of the field as
its key (`TakenFor`).  A key is selected exactly when it is the key of no other field, where it is a text that is no
proper prefix of a name and does not go on after a name with a NUL; three of the decoders call the accessors of text
strings on the key before they ask whether it is one (`selectsExactly_iff`).
-/

namespace PortableTlsRa

open CSem Cbor

/-! ### Decoders -/

/-- A decoder of the members of a map: the names of its fields, in the order in which they are compared, and one turn
of its loop.  The first argument is what the accessors of text strings give on an item that is none. -/
structure KeyDecoder where
  Env : Type
  State : Type
  Result : Type
  names : List Bytes
  turn : (Item → Checked Bytes) → Env → State → Item × Item → Checked (Turn State Result)

/-- `cbor_string_handle` and `cbor_string_length`. -/
def stringOf (untyped : Item → Checked Bytes) (key : Item) : Checked Bytes :=
  if key.isString then .ok key.stringBytes else untyped key

/-- The turns of a decoder that calls the accessors of text strings on the key before anything else. -/
def readingKey {ε σ ρ : Type} (turn : ε → σ → Item × Item → Checked (Turn σ ρ)) (untyped : Item → Checked Bytes)
    (env : ε) (s : σ) (member : Item × Item) : Checked (Turn σ ρ) :=
  stringOf untyped member.1 >>= fun _ => turn env s member

def evidenceNames : List Bytes := [lit "tpm2_quote", lit "pica"]
def bundleNames : List Bytes := [lit "quote", lit "sign", lit "app-hash"]
def claimNames : List Bytes := [lit "pubkey-hash", lit "tpm2-quote", lit "nonce"]

/-- `extract_tpm2evidence` -/
def evidenceDecoder : KeyDecoder where
  Env := Libcbor × Tss2
  State := Nat × Evidence
  Result := Empty
  names := evidenceNames
  turn := readingKey fun env st pair => evidenceTurn env.1 env.2 st pair

/-- `extract_tpm2evidence_bundle` -/
def bundleDecoder : KeyDecoder where
  Env := Libcbor × Tss2
  State := Nat × Evidence
  Result := Evidence
  names := bundleNames
  turn := readingKey fun env st pair => bundleTurn env.1 env.2 st pair

/-- `ocall_verify_tpm2_quote` -/
def hostDecoder (PKey : Type) : KeyDecoder where
  Env := HostEnv PKey
  State := HostBundle
  Result := Empty
  names := bundleNames
  turn := readingKey hostBundleTurn

/-- `extract_cbor_evidence_and_compare_hash`, the only one that asks first whether the key is a string. -/
def claimsDecoder : KeyDecoder where
  Env := SgxEnv × Bytes
  State := EvidenceOut
  Result := SgxStatus
  names := claimNames
  turn := fun _ env out pair => claimTurn env.1 env.2 out pair

/-! ### What a member is taken for -/

namespace KeyDecoder

variable (d : KeyDecoder)

/-- In every map, nothing would change if a member with the key had the name as its key. -/
def TakenFor (name : Bytes) (key : Item) : Prop :=
  ∀ untyped env s pre value post,
    forEach (d.turn untyped env) s (pre ++ (key, value) :: post) =
      forEach (d.turn untyped env) s (pre ++ (.text name, value) :: post)

/-- A member with the key is taken for a field exactly if the key is its name, and a key that is no text string is not
read as one. -/
structure SelectsExactly (key : Item) : Prop where
  exact : ∀ name ∈ d.names, d.TakenFor name key ↔ key = .text name
  unread : key.isString = false → ∀ untyped untyped' env s value,
    d.turn untyped env s (key, value) = d.turn untyped' env s (key, value)

/-- The turns on two keys are the same. -/
def SameTurn (key key' : Item) : Prop :=
  ∀ untyped env s value, d.turn untyped env s (key, value) = d.turn untyped env s (key', value)

variable {d} {name : Bytes} {key : Item}

/-- What a key is taken for is decided in one turn. -/
theorem takenFor_iff : d.TakenFor name key ↔ d.SameTurn key (.text name) := by
  constructor
  · intro h untyped env s value
    have hrun := h untyped env s [] value []
    cases hkey : d.turn untyped env s (key, value) with
    | error e =>
      cases hname : d.turn untyped env s (.text name, value) with
      | error e' => simpa [forEach, hkey, hname] using hrun
      | ok turn => cases turn <;> simp [forEach, hkey, hname] at hrun
    | ok turn =>
      cases hname : d.turn untyped env s (.text name, value) with
      | error e' => cases turn <;> simp [forEach, hkey, hname] at hrun
      | ok turn' => cases turn <;> cases turn' <;> simp_all [forEach]
  · intro h untyped env s pre value post
    induction pre generalizing s with
    | nil => simp only [List.nil_append, forEach, h untyped env s value]
    | cons member pre ih => simp only [List.cons_append, forEach, ih]

/-- The decoder goes on with every text key as with its representative, one of the names or of some other keys, no two
of which lead to the same turns. -/
structure Represented (d : KeyDecoder) (rep : Bytes → Bytes) (others : List Bytes) : Prop where
  same : ∀ k, d.SameTurn (.text k) (.text (rep k))
  mem : ∀ k, rep k ∈ d.names ++ others
  distinct : ∀ a ∈ d.names ++ others, ∀ b ∈ d.names ++ others, d.SameTurn (.text a) (.text b) → a = b

/-- Text keys are selected exactly where a name stands for itself only. -/
theorem Represented.exact_iff {rep : Bytes → Bytes} {others : List Bytes} (h : d.Represented rep others) (k : Bytes) :
    (∀ name ∈ d.names, d.TakenFor name (.text k) ↔ Item.text k = .text name) ↔ (rep k ∈ d.names → rep k = k) := by
  constructor
  · intro hexact hmem
    have hkey := (hexact _ hmem).1 (takenFor_iff.2 (h.same k))
    exact (Item.text.inj hkey).symm
  · intro hrep name hmem
    constructor
    · intro htaken
      have hsame : d.SameTurn (.text (rep k)) (.text name) := by
        intro untyped env s value
        rw [← h.same k untyped env s value]
        exact takenFor_iff.1 htaken untyped env s value
      have hname := h.distinct _ (h.mem k) _ (List.mem_append_left _ hmem) hsame
      rw [← hname, hrep (by rwa [hname])]
    · intro hkey
      rw [hkey]
      exact fun _ _ _ _ _ _ => rfl

end KeyDecoder

/-! ### The first name that matches -/

/-- The first of the names that the key is compared equal to. -/
def firstMatch (names : List Bytes) (k : Bytes) : Option Bytes := names.find? (fun name => strncmpEq name k)

/-- A key that is no name and not taken for one. -/
def unknownKey : Bytes := lit "?"

/-- The first match, or the unknown key where there is none. -/
def matched (names : List Bytes) (k : Bytes) : Bytes := (firstMatch names k).getD unknownKey

theorem matched_mem (names : List Bytes) (k : Bytes) : matched names k ∈ names ++ [unknownKey] := by
  unfold matched
  cases hfirst : firstMatch names k with
  | none => exact List.mem_append_right _ (List.mem_singleton_self _)
  | some name => exact List.mem_append_left _ (List.mem_of_find?_eq_some hfirst)

/-- No name is taken for another one, and none for the unknown key. -/
structure Apart (names : List Bytes) : Prop where
  known : ∀ a ∈ names, ∀ b ∈ names, strncmpEq a b → a = b
  unknown : ∀ a ∈ names, strncmpEq a unknownKey = false

/-- After comparisons that fail, the next one comes out on the first match as on the key. -/
theorem Apart.compare {names : List Bytes} (h : Apart names) {k : Bytes} (pre : List Bytes) (name : Bytes)
    (post : List Bytes) (hsplit : names = pre ++ name :: post) (hpre : ∀ a ∈ pre, strncmpEq a k = false) :
    strncmpEq name (matched names k) = strncmpEq name k := by
  have hmem : name ∈ names := by simp [hsplit]
  unfold matched
  cases hmatch : strncmpEq name k with
  | true =>
    have hfirst : firstMatch names k = some name := by
      have hnone : pre.find? (fun a => strncmpEq a k) = none := by simpa using hpre
      rw [firstMatch, hsplit, List.find?_append, hnone, List.find?_cons_of_pos (by exact hmatch)]
      rfl
    rw [hfirst]
    exact strncmpEq_self name
  | false =>
    cases hfirst : firstMatch names k with
    | none => exact h.unknown name hmem
    | some other =>
      have hother : strncmpEq other k = true := List.find?_some (p := fun a => strncmpEq a k) hfirst
      rw [Option.getD_some, Bool.eq_false_iff]
      intro hsame
      rw [h.known name hmem other (List.mem_of_find?_eq_some hfirst) hsame, hother] at hmatch
      cases hmatch

/-- A chain of comparisons with names. -/
def branch {α : Type} (k : Bytes) (other : α) : List (Bytes × α) → α
  | [] => other
  | (name, x) :: branches => if strncmpEq name k then x else branch k other branches

/-- A chain of comparisons ends in the same branch for the first match as for the key. -/
theorem Apart.branch_matched {α : Type} {names : List Bytes} (h : Apart names) (k : Bytes) (other : α)
    (branches : List (Bytes × α)) (pre : List Bytes) (hsplit : names = pre ++ branches.map Prod.fst)
    (hpre : ∀ a ∈ pre, strncmpEq a k = false) :
    branch k other branches = branch (matched names k) other branches := by
  induction branches generalizing pre with
  | nil => rfl
  | cons head branches ih =>
    obtain ⟨name, x⟩ := head
    rw [branch, branch, h.compare pre name _ hsplit hpre]
    by_cases hname : strncmpEq name k = true
    · rw [if_pos hname, if_pos hname]
    · rw [if_neg hname, if_neg hname]
      apply ih (pre ++ [name]) (by rw [hsplit]; simp)
      intro a ha
      rcases List.mem_append.1 ha with hold | hnew
      · exact hpre a hold
      · rw [List.mem_singleton.1 hnew]
        exact Bool.eq_false_iff.2 hname

/-- The bytes are no proper prefix of a name, and go on after none with a NUL. -/
def NoAlias (names : List Bytes) (k : Bytes) : Prop :=
  ∀ name ∈ names, k ≠ name → ¬ k <+: name ∧ ¬ name ++ [0] <+: k

/-- Where no name is taken for another one, the first match is the key itself exactly if the key is no alias. -/
theorem Apart.exact_iff {names : List Bytes} (hnames : Apart names) (k : Bytes) :
    (matched names k ∈ names → matched names k = k) ↔ NoAlias names k := by
  constructor
  · intro h name hmem hne
    rw [← not_or, ← strncmpEq_iff]
    intro hmatch
    obtain ⟨first, hfirst⟩ : ∃ first, firstMatch names k = some first := by
      rw [← Option.isSome_iff_exists, firstMatch, List.find?_isSome]
      exact ⟨name, hmem, hmatch⟩
    have hfirstMem := List.mem_of_find?_eq_some hfirst
    simp only [matched, hfirst, Option.getD_some] at h
    obtain rfl := h hfirstMem
    exact hne (hnames.known name hmem first hfirstMem hmatch).symm
  · intro h hmem
    unfold matched at hmem ⊢
    cases hfirst : firstMatch names k with
    | none =>
      rw [hfirst] at hmem
      have hself : strncmpEq unknownKey unknownKey = false := hnames.unknown _ hmem
      exact absurd hself (by decide)
    | some name =>
      have hname := List.mem_of_find?_eq_some hfirst
      by_contra hne
      have hmatch : strncmpEq name k = true := List.find?_some (p := fun name => strncmpEq name k) hfirst
      rcases strncmpEq_iff.1 hmatch with hprefix | hnul
      · exact (h name hname (Ne.symm hne)).1 hprefix
      · exact (h name hname (Ne.symm hne)).2 hnul

/-! ### The four decoders -/

section

variable {PKey : Type}

theorem bundleNames_apart : Apart bundleNames := ⟨by decide, by decide⟩

/-- A decoder that reads the key first reads it as a string where it is none. -/
theorem not_unread {ε σ ρ : Type} (turn : ε → σ → Item × Item → Checked (Turn σ ρ)) (env : ε) {key value : Item} {s : σ}
    {t : Turn σ ρ} (hkey : key.isString = false) (hturn : turn env s (key, value) = .ok t) :
    ¬ ∀ untyped untyped' env s value,
      readingKey turn untyped env s (key, value) = readingKey turn untyped' env s (key, value) := by
  intro h
  have hsame := h (fun _ => .ok []) (fun _ => .error .wrongType) env s value
  simp [readingKey, stringOf, hkey, hturn] at hsame

theorem evidenceNames_apart : Apart evidenceNames := ⟨by decide, by decide⟩

theorem claimNames_apart : Apart claimNames := ⟨by decide, by decide⟩

theorem claimKey_matched (k : Bytes) : claimKey k = claimKey (matched claimNames k) :=
  claimNames_apart.branch_matched k ClaimKey.other [(lit "pubkey-hash", .pubkeyHash), (lit "tpm2-quote", .tpm2Quote),
    (lit "nonce", .nonce)] [] rfl (by simp)

theorem matched_ne_nil (k : Bytes) : matched claimNames k ≠ [] := by
  intro hnil
  have hmem := matched_mem claimNames k
  rw [hnil] at hmem
  exact absurd hmem (by decide)

/-- libcbor where nothing is a byte string but byte strings. -/
def strictCbor : Libcbor := ⟨Cbor.load, fun _ => .error .wrongType⟩

/-- TSS2 functions that change the signature only. -/
def markingTss2 : Tss2 := ⟨fun _ old => (0, old), fun _ old => (0, { old with sigAlg := 1 })⟩

def emptyEvidence : Evidence := ⟨[], ByteBuf.zero 32, default, []⟩

/-- A bundle with a quote. -/
def someBundle : Item := .bytes (encode (.map true [(.text (lit "quote"), .bytes [0])]))

theorem evidenceDecoder_represented : evidenceDecoder.Represented (matched evidenceNames) [unknownKey] where
  same := by
    intro k untyped (cbor, tss2) st value
    exact evidenceNames_apart.branch_matched k _ [(lit "tpm2_quote", _), (lit "pica", _)] [] rfl (by simp)
  mem := matched_mem evidenceNames
  distinct := by
    have hdistinct : ∀ a ∈ evidenceNames ++ [unknownKey], ∀ b ∈ evidenceNames ++ [unknownKey],
        evidenceTurn strictCbor markingTss2 (0, emptyEvidence) (.text a, someBundle) =
          evidenceTurn strictCbor markingTss2 (0, emptyEvidence) (.text b, someBundle) → a = b := by
      decide
    intro a ha b hb hsame
    exact hdistinct a ha b hb (hsame (fun _ => .ok []) (strictCbor, markingTss2) (0, emptyEvidence) someBundle)

theorem bundleDecoder_represented : bundleDecoder.Represented (matched bundleNames) [unknownKey] where
  same := by
    intro k untyped (cbor, tss2) st value
    exact bundleNames_apart.branch_matched k _ [(lit "quote", _), (lit "sign", _), (lit "app-hash", _)] []
      rfl (by simp)
  mem := matched_mem bundleNames
  distinct := by
    have hdistinct : ∀ a ∈ bundleNames ++ [unknownKey], ∀ b ∈ bundleNames ++ [unknownKey],
        bundleTurn strictCbor markingTss2 (0, emptyEvidence) (.text a, .bytes []) =
          bundleTurn strictCbor markingTss2 (0, emptyEvidence) (.text b, .bytes []) → a = b := by
      decide
    intro a ha b hb hsame
    exact hdistinct a ha b hb (hsame (fun _ => .ok []) (strictCbor, markingTss2) (0, emptyEvidence) (.bytes []))

/-- A host without files. -/
def bareHost (PKey : Type) : HostEnv PKey where
  cbor := strictCbor
  tss2 := markingTss2
  pemKey := fun _ => none
  verifyCalls := fun _ _ _ => default
  akPub := .absent
  regQuote := .absent
  tpmAtst := quoteOfPcr10 []
  tpmSig := default
  regAtst := quoteOfPcr10 []

theorem hostDecoder_represented : (hostDecoder PKey).Represented (matched bundleNames) [unknownKey] where
  same := by
    intro k untyped env b value
    exact bundleNames_apart.branch_matched k _ [(lit "quote", _), (lit "sign", _), (lit "app-hash", _)] []
      rfl (by simp)
  mem := matched_mem bundleNames
  distinct := by
    have hdistinct : ∀ a ∈ bundleNames ++ [unknownKey], ∀ b ∈ bundleNames ++ [unknownKey],
        hostBundleTurn (bareHost Unit) ⟨none, none, quoteOfPcr10 [], default⟩ (.text a, .bytes []) =
          hostBundleTurn (bareHost Unit) ⟨none, none, quoteOfPcr10 [], default⟩ (.text b, .bytes []) → a = b := by
      decide
    intro a ha b hb hsame
    exact hdistinct a ha b hb
      (hsame (fun _ => .ok []) (bareHost PKey) ⟨none, none, quoteOfPcr10 [], default⟩ (.bytes []))

/-- An enclave without memory for the text of the key, in which every hash entry is a number. -/
def bareEnclave : SgxEnv where
  cbor := ⟨fun _ => some (.uint .w8 0), fun _ => .error .wrongType⟩
  sha256 := fun _ => none
  sha384 := fun _ => none
  sha512 := fun _ => none
  mallocPem := false
  mallocHash := false
  mallocQuote := false

/-- What a claim is taken for: the empty key for nothing, as it is refused. -/
def claimRep (k : Bytes) : Bytes := if k = [] then [] else matched claimNames k

/-- What a turn leaves of the size and the nonce, or the error. -/
def claimOutcome : Checked (Turn EvidenceOut SgxStatus) → Option ((Nat × Bytes) ⊕ SgxStatus)
  | .ok (.next out) => some (.inl (out.sersz, out.outNonce.1))
  | .ok (.exit ret) => some (.inr ret)
  | .error _ => none

theorem claimsDecoder_represented : claimsDecoder.Represented claimRep [unknownKey, []] where
  same := by
    intro k untyped (env, pemPubKey) out value
    unfold claimRep
    by_cases hk : k = []
    · rw [if_pos hk, hk]
    · rw [if_neg hk]
      simp only [claimsDecoder, claimTurn, if_neg hk, if_neg (matched_ne_nil k), claimKey_matched k]
  mem := by
    intro k
    unfold claimRep
    by_cases hk : k = []
    · rw [if_pos hk]
      exact List.mem_append_right _ (by simp)
    · rw [if_neg hk]
      have hmem := matched_mem claimNames k
      simp only [List.mem_append, List.mem_cons] at hmem ⊢
      tauto
  distinct := by
    let out : EvidenceOut := ⟨ByteBuf.zero 8192, 0, ByteBuf.zero 1000, 0, ByteBuf.zero 32, 0⟩
    have hdistinct : ∀ a ∈ claimNames ++ [unknownKey, []], ∀ b ∈ claimNames ++ [unknownKey, []],
        claimOutcome (claimTurn bareEnclave [0] out (.text a, .bytes (List.replicate 32 1))) =
          claimOutcome (claimTurn bareEnclave [0] out (.text b, .bytes (List.replicate 32 1))) → a = b := by
      decide
    intro a ha b hb hsame
    have hturn := hsame (fun _ => .ok []) (bareEnclave, [0]) out (.bytes (List.replicate 32 1))
    exact hdistinct a ha b hb (congrArg claimOutcome hturn)

/-! ### Which keys are selected exactly -/

/-- The key is a text of definite length that is no alias of a name. -/
def PlainKey (names : List Bytes) (key : Item) : Prop := ∃ k, key = .text k ∧ NoAlias names k

/-- A decoder that reads its keys first, takes strings of indefinite length for empty ones and goes on over some member
whose key is no string selects the plain keys exactly. -/
theorem readingKey_selects_iff {d : KeyDecoder} (hnames : Apart d.names)
    (hrep : d.Represented (matched d.names) [unknownKey])
    (hindefinite : ∃ name ∈ d.names, d.TakenFor name .textIndefinite)
    (hreads : ∀ key, key.isString = false → ¬ ∀ untyped untyped' env s value,
      d.turn untyped env s (key, value) = d.turn untyped' env s (key, value)) (key : Item) :
    d.SelectsExactly key ↔ PlainKey d.names key := by
  constructor
  · intro h
    by_cases hkey : key.isString = true
    · cases key with
      | text k => exact ⟨k, rfl, (hnames.exact_iff k).1 ((hrep.exact_iff k).1 h.exact)⟩
      | textIndefinite =>
        obtain ⟨name, hmem, htaken⟩ := hindefinite
        cases (h.exact name hmem).1 htaken
      | _ => cases hkey
    · have hkey := Bool.eq_false_iff.2 hkey
      exact absurd (h.unread hkey) (hreads key hkey)
  · intro ⟨k, hkey, halias⟩
    subst hkey
    refine ⟨(hrep.exact_iff k).2 ((hnames.exact_iff k).2 halias), ?_⟩
    intro hstring
    cases hstring

theorem evidenceDecoder_selects_iff (key : Item) :
    evidenceDecoder.SelectsExactly key ↔ PlainKey evidenceNames key := by
  apply readingKey_selects_iff evidenceNames_apart evidenceDecoder_represented
  · exact ⟨lit "tpm2_quote", by decide, KeyDecoder.takenFor_iff.2 fun _ _ _ _ => rfl⟩
  · intro key hkey
    have hturn : evidenceTurn strictCbor markingTss2 (0, emptyEvidence) (key, key) =
        .ok (.next (0, emptyEvidence)) := by
      simp [evidenceTurn, hkey]
    exact not_unread (fun env => evidenceTurn env.1 env.2) (strictCbor, markingTss2) hkey hturn

theorem bundleDecoder_selects_iff (key : Item) : bundleDecoder.SelectsExactly key ↔ PlainKey bundleNames key := by
  apply readingKey_selects_iff bundleNames_apart bundleDecoder_represented
  · exact ⟨lit "quote", List.mem_cons_self, KeyDecoder.takenFor_iff.2 fun _ _ _ _ => rfl⟩
  · intro key hkey
    have hturn : bundleTurn strictCbor markingTss2 (0, emptyEvidence) (key, key) = .ok (.exit emptyEvidence) := by
      simp [bundleTurn, hkey]
    exact not_unread (fun env => bundleTurn env.1 env.2) (strictCbor, markingTss2) hkey hturn

theorem hostDecoder_selects_iff (key : Item) :
    (hostDecoder PKey).SelectsExactly key ↔ PlainKey bundleNames key := by
  apply readingKey_selects_iff bundleNames_apart hostDecoder_represented
  · exact ⟨lit "quote", List.mem_cons_self, KeyDecoder.takenFor_iff.2 fun _ _ _ _ => rfl⟩
  · intro key hkey
    let b : HostBundle := ⟨none, none, quoteOfPcr10 [], default⟩
    have hturn : hostBundleTurn (bareHost PKey) b (key, key) = .ok (.next b) := by
      simp [hostBundleTurn, hkey]
    exact not_unread hostBundleTurn (bareHost PKey) hkey hturn

theorem claimsDecoder_selects_iff (key : Item) :
    claimsDecoder.SelectsExactly key ↔ ∀ k, key = .text k → k ≠ [] → NoAlias claimNames k := by
  have hunread : ∀ untyped untyped' env s value,
      claimsDecoder.turn untyped env s (key, value) = claimsDecoder.turn untyped' env s (key, value) :=
    fun _ _ _ _ _ => rfl
  have hrep : ∀ k, (claimRep k ∈ claimNames → claimRep k = k) ↔ (k ≠ [] → NoAlias claimNames k) := by
    intro k
    unfold claimRep
    by_cases hk : k = []
    · rw [if_pos hk]
      exact iff_of_true (fun h => absurd h (by decide)) (fun h => absurd hk h)
    · rw [if_neg hk, claimNames_apart.exact_iff]
      exact ⟨fun h _ => h, fun h => h hk⟩
  constructor
  · intro h k hkey
    subst hkey
    exact (hrep k).1 ((claimsDecoder_represented.exact_iff k).1 h.exact)
  · intro h
    refine ⟨?_, fun _ => hunread⟩
    by_cases htext : ∃ k, key = .text k
    · obtain ⟨k, rfl⟩ := htext
      exact (claimsDecoder_represented.exact_iff k).2 ((hrep k).2 (h k rfl))
    · intro name hmem
      refine iff_of_false ?_ (fun hkey => htext ⟨name, hkey⟩)
      intro htaken
      -- every key that is no text of definite length is refused, as the empty one is
      have hrefused : claimsDecoder.SameTurn (.text []) (.text name) := by
        intro untyped env s value
        rw [← KeyDecoder.takenFor_iff.1 htaken untyped env s value]
        cases key with
        | text k => exact absurd ⟨k, rfl⟩ htext
        | _ => rfl
      have hname := claimsDecoder_represented.distinct [] (by decide) name (List.mem_append_left _ hmem) hrefused
      rw [← hname] at hmem
      exact absurd hmem (by decide)

end

/-- The four decoders select a member exactly by its key where the key is a plain one; the one of the claims also
refuses, unread, all keys that are empty or no text of definite length. -/
theorem selectsExactly_iff (PKey : Type) (key : Item) :
    (evidenceDecoder.SelectsExactly key ↔ PlainKey evidenceNames key) ∧
    (bundleDecoder.SelectsExactly key ↔ PlainKey bundleNames key) ∧
    ((hostDecoder PKey).SelectsExactly key ↔ PlainKey bundleNames key) ∧
    (claimsDecoder.SelectsExactly key ↔ ∀ k, key = .text k → k ≠ [] → NoAlias claimNames k) :=
  ⟨evidenceDecoder_selects_iff key, bundleDecoder_selects_iff key, hostDecoder_selects_iff key,
    claimsDecoder_selects_iff key⟩

/-- The empty key is taken for the quote. -/
theorem emptyKey_taken : ¬ bundleDecoder.SelectsExactly (.text []) := by
  intro h
  have hquote := (h.exact (lit "quote") (by decide)).1 (KeyDecoder.takenFor_iff.2 fun _ _ _ _ => rfl)
  exact absurd (Item.text.inj hquote) (by decide)

end PortableTlsRa
