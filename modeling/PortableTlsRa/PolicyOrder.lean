import PortableTlsRa.PolicyWellFormed

/-!
# The order of the members of a policy

The members of a JSON object have no order, but `pica_json_parse` handles them as they stand.  What the document says is
looked up by keys and is the same in every order (`itemStatement_reordered`), but the version that the chains are read
with is the one that stands before the statements: with chains to read, the document is read or not by where "Version"
stands (`picaJsonParse_order_iff`).
-/

namespace PortableTlsRa

open CSem Json

/-! ### Documents in another order -/

/-- The relation at one key; at other keys the values are the same. -/
def atKey (key : CString) (rel : Value → Value → Prop) : CString → Value → Value → Prop :=
  fun other => if other = key then rel else Eq

/-- The same value, or an object with its members in another order, where values are related. -/
def ReorderedIn (rel : CString → Value → Value → Prop) (v v' : Value) : Prop :=
  v = v' ∨ ∃ members members', v = .object members ∧ v' = .object members' ∧ Reordered rel members members'

def ReorderedPrincipal : Value → Value → Prop := ReorderedIn fun _ => Eq

def ReorderedStatement : Value → Value → Prop := ReorderedIn (atKey (cstr "Principal") ReorderedPrincipal)

/-- The same value, or an array of statements with their members in another order. -/
def ReorderedStatements (v v' : Value) : Prop :=
  v = v' ∨ ∃ items items', v = .array items ∧ v' = .array items' ∧ List.Forall₂ ReorderedStatement items items'

/-- The document with the members in another order at the top, in the statements and in their principals. -/
def ReorderedDocument : Value → Value → Prop := ReorderedIn (atKey (cstr "Statement") ReorderedStatements)

/-- No key stands twice in a statement or in its principal. -/
def StatementKeys (item : Value) : Prop :=
  ∀ attributes, item = .object attributes → DistinctKeys attributes ∧
    ∀ principal, principalMembers attributes = some principal → DistinctKeys principal

def NoDuplicateKeys (document : Value) : Prop :=
  ∀ members, document = .object members → DistinctKeys members ∧
    ∀ items, lookup (cstr "Statement") members = some (.array items) → ∀ item ∈ items, StatementKeys item

/-- In whatever order the members stand, the document is parsed or not, to the same policy. -/
def OrderOfMembersIrrelevant (document : Value) : Prop :=
  ∀ document', ReorderedDocument document document' → ∀ stale,
    SameOutcome Eq (picaJsonParse stale document PicaPolicy.zero) (picaJsonParse stale document' PicaPolicy.zero)

/-- The item has chains to read. -/
def HasChains (item : Value) : Prop :=
  ∃ attributes chains, item = .object attributes ∧ lookup (cstr "InvocationChain") attributes = some (.array chains)

/-- The document says a version and statements with chains, which are parsed when the version stands before them. -/
def NeedsVersion (document : Value) : Prop :=
  ∃ members items v, document = .object members ∧ versionIn members = some v ∧
    lookup (cstr "Statement") members = some (.array items) ∧ items.length < 2 ^ 31 ∧
    (∃ item ∈ items, HasChains item) ∧ ∀ item ∈ items, ItemParses (some v) item

/-! ### A statement in another order -/

theorem atKey_refl (key : CString) {rel : Value → Value → Prop} (hrefl : ∀ v, rel v v) (other : CString) (v : Value) :
    atKey key rel other v v := by
  unfold atKey
  by_cases hkey : other = key
  · rw [if_pos hkey]
    exact hrefl v
  · rw [if_neg hkey]

theorem eq_of_optionRel {a b : Option Value} (h : Option.Rel Eq a b) : a = b := by
  cases h with
  | none => rfl
  | some heq => rw [heq]

section

variable {attributes : List (CString × Value)}

theorem writtenExecPath_eq :
    writtenExecPath attributes = ((principalMembers attributes).bind (lookup (cstr "Binary"))).map parseBinary := by
  unfold writtenExecPath
  cases principalMembers attributes <;> rfl

theorem writtenUid_eq :
    writtenUid attributes = ((principalMembers attributes).bind (lookup (cstr "Uid"))).bind uidsOf := by
  unfold writtenUid
  cases principalMembers attributes <;> rfl

/-- The items are parsed or not, to the same statement. -/
def SameItem (version version' : Option CString) (item item' : Value) : Prop :=
  (ItemParses version item ↔ ItemParses version' item') ∧ itemStatement version item = itemStatement version' item'

/-- The members of the principal are the same at every key. -/
theorem principalMembers_reordered {attributes' : List (CString × Value)} (hdistinct : DistinctKeys attributes)
    (hprincipal : ∀ principal, principalMembers attributes = some principal → DistinctKeys principal)
    (hreordered : Reordered (atKey (cstr "Principal") ReorderedPrincipal) attributes attributes') (key : CString) :
    (principalMembers attributes).bind (lookup key) = (principalMembers attributes').bind (lookup key) := by
  have hrel := hreordered.lookup hdistinct (cstr "Principal")
  rw [atKey, if_pos rfl] at hrel
  unfold principalMembers at hprincipal ⊢
  rcases hattr : lookup (cstr "Principal") attributes with - | attr
  · rw [hattr] at hrel
    rcases hattr' : lookup (cstr "Principal") attributes' with - | attr'
    · rfl
    · rw [hattr'] at hrel
      cases hrel
  · rw [hattr] at hrel hprincipal
    rcases hattr' : lookup (cstr "Principal") attributes' with - | attr'
    · rw [hattr'] at hrel
      cases hrel
    · rw [hattr'] at hrel
      cases hrel with
      | some hattrs =>
        rcases hattrs with rfl | ⟨principal, principal', rfl, rfl, hperm⟩
        · rfl
        · exact eq_of_optionRel (hperm.lookup (hprincipal principal rfl) key)

/-- What is made of a statement does not depend on the order of its members. -/
theorem itemStatement_reordered (version : Option CString) {item item' : Value} (hkeys : StatementKeys item)
    (hitem : ReorderedStatement item item') : SameItem version version item item' := by
  rcases hitem with rfl | ⟨attributes, attributes', rfl, rfl, hreordered⟩
  · exact ⟨Iff.rfl, rfl⟩
  obtain ⟨hdistinct, hprincipal⟩ := hkeys attributes rfl
  have hsame : ∀ key, key ≠ cstr "Principal" → lookup key attributes = lookup key attributes' := by
    intro key hne
    have hrel := hreordered.lookup hdistinct key
    rw [atKey, if_neg hne] at hrel
    exact eq_of_optionRel hrel
  have hinner := principalMembers_reordered hdistinct hprincipal hreordered
  have hsid := hsame (cstr "Sid") (by decide)
  have heffect := hsame (cstr "Effect") (by decide)
  have hresource := hsame (cstr "Resource") (by decide)
  have haction := hsame (cstr "Action") (by decide)
  have hchain := hsame (cstr "InvocationChain") (by decide)
  constructor
  · have hmembers : MembersParse attributes version ↔ MembersParse attributes' version := by
      constructor
      · intro ⟨h₁, h₂, h₃⟩
        exact ⟨by rwa [← hresource], by rwa [← haction], by rwa [← hchain]⟩
      · intro ⟨h₁, h₂, h₃⟩
        exact ⟨by rwa [hresource], by rwa [haction], by rwa [hchain]⟩
    simpa [ItemParses] using hmembers
  · funext stmt
    show itemStmt attributes version stmt = itemStmt attributes' version stmt
    simp only [itemStmt, writtenSid, writtenEffect, writtenExecPath_eq, writtenUid_eq, writtenAction, writtenChain,
      hsid, heffect, haction, hchain, hinner]

end

/-! ### The version of the statements -/

section

variable {item : Value} {items items' : List Value} {version : Option CString} {v : CString}

/-- Without chains the version is not read. -/
theorem sameItem_of_noChains (hchains : ¬ HasChains item) (version version' : Option CString) :
    SameItem version version' item item := by
  cases item with
  | object attributes =>
    have hnoArray : ∀ attr, lookup (cstr "InvocationChain") attributes = some attr →
        ∀ version, ChainParses version attr ∧ chainsOf version attr = none := by
      intro attr hattr version
      cases attr with
      | array chains => exact absurd ⟨attributes, chains, rfl, hattr⟩ hchains
      | _ => exact ⟨fun chains heq => (by cases heq), rfl⟩
    have hmembers : ∀ version version', MembersParse attributes version → MembersParse attributes version' := by
      intro version version' h
      exact ⟨h.resource, h.action, fun attr hattr => (hnoArray attr hattr version').1⟩
    have hwritten : ∀ version, writtenChain attributes version = none := by
      intro version
      unfold writtenChain
      rcases hattr : lookup (cstr "InvocationChain") attributes with - | attr
      · rfl
      · exact (hnoArray attr hattr version).2
    constructor
    · constructor
      · intro h attributes' heq
        cases heq
        exact hmembers version version' (h attributes rfl)
      · intro h attributes' heq
        cases heq
        exact hmembers version' version (h attributes rfl)
    · funext stmt
      simp only [itemStatement, itemStmt, hwritten]
  | _ => exact ⟨⟨fun _ attributes heq => (by cases heq), fun _ attributes heq => (by cases heq)⟩, rfl⟩

/-- Without a version, chains make the parser compare a null pointer. -/
theorem not_itemParses_none (hchains : HasChains item) : ¬ ItemParses none item := by
  obtain ⟨attributes, chains, rfl, hattr⟩ := hchains
  intro h
  obtain ⟨v, hv, -⟩ := (h attributes rfl).chain _ hattr chains rfl
  cases hv

theorem versionAtStatement_version (val : Value) (others : List (CString × Value)) :
    versionAtStatement ((cstr "Version", val) :: others) = jsonVersion val := by
  have hne : cstr "Version" ≠ cstr "Statement" := by decide
  simp [versionAtStatement, versionIn, hne, lookup_cons]

theorem versionAtStatement_statement (val : Value) (others : List (CString × Value)) :
    versionAtStatement ((cstr "Statement", val) :: others) = none := by
  simp [versionAtStatement, versionIn]

theorem versionAtStatement_cases (members : List (CString × Value)) :
    versionAtStatement members = versionIn members ∨ versionAtStatement members = none := by
  have hsplit : members.takeWhile (fun m => m.1 ≠ cstr "Statement") ++
      members.dropWhile (fun m => m.1 ≠ cstr "Statement") = members := List.takeWhile_append_dropWhile
  rcases hfirst : lookup (cstr "Version") (members.takeWhile fun m => m.1 ≠ cstr "Statement") with - | val
  · right
    rw [versionAtStatement, versionIn, hfirst]
    rfl
  · left
    have hmembers : lookup (cstr "Version") members = some val := by
      rw [← hsplit, lookup_append, hfirst]
      rfl
    rw [versionAtStatement, versionIn, versionIn, hfirst, hmembers]

theorem sameItems {version' : Option CString} (h : List.Forall₂ (SameItem version version') items items') :
    ((∀ item ∈ items, ItemParses version item) ↔ ∀ item ∈ items', ItemParses version' item) ∧
      ∀ stale i, statementsOf version stale i items = statementsOf version' stale i items' := by
  induction h with
  | nil => exact ⟨by simp, fun _ _ => rfl⟩
  | cons hitem _ ih =>
    obtain ⟨hparses, hstatement⟩ := hitem
    obtain ⟨hparsesRest, hrest⟩ := ih
    constructor
    · rw [List.forall_mem_cons, List.forall_mem_cons, hparses, hparsesRest]
    · intro stale i
      rw [statementsOf_cons, statementsOf_cons, hstatement, hrest]

end

/-! ### The document in another order -/

section

variable {members members' : List (CString × Value)} {items : List Value}

/-- Where the version is not needed, the statements are the same whichever version has been read before them. -/
theorem statements_version (hneeds : ¬ NeedsVersion (.object members)) (hlt : items.length < 2 ^ 31)
    (hstatement : lookup (cstr "Statement") members = some (.array items)) {version version' : Option CString}
    (hversion : version = versionIn members ∨ version = none)
    (hversion' : version' = versionIn members ∨ version' = none) :
    ((∀ item ∈ items, ItemParses version item) ↔ ∀ item ∈ items, ItemParses version' item) ∧
      ((∀ item ∈ items, ItemParses version item) →
        ∀ stale i, statementsOf version stale i items = statementsOf version' stale i items) := by
  by_cases hchains : ∃ item ∈ items, HasChains item
  · -- without a version there is a fault, and with the version there is one as well
    have hfault : ∀ version, version = versionIn members ∨ version = none →
        ¬ ∀ item ∈ items, ItemParses version item := by
      intro version hversion hparses
      obtain ⟨item, hitem, hhas⟩ := hchains
      cases version with
      | none => exact not_itemParses_none hhas (hparses item hitem)
      | some v =>
        rcases hversion with hv | hv
        · exact hneeds ⟨members, items, v, rfl, hv.symm, hstatement, hlt, ⟨item, hitem, hhas⟩, hparses⟩
        · cases hv
    have hfirst := hfault version hversion
    have hsecond := hfault version' hversion'
    exact ⟨⟨fun h => absurd h hfirst, fun h => absurd h hsecond⟩, fun h => absurd h hfirst⟩
  · have hsame : List.Forall₂ (SameItem version version') items items := by
      refine List.forall₂_same.2 ?_
      intro item hitem
      apply sameItem_of_noChains
      intro hhas
      exact hchains ⟨item, hitem, hhas⟩
    exact ⟨(sameItems hsame).1, fun _ => (sameItems hsame).2⟩

theorem versionIn_reordered {rel : Value → Value → Prop} (hkeys : DistinctKeys members)
    (h : Reordered (atKey (cstr "Statement") rel) members members') : versionIn members = versionIn members' := by
  have hrel := h.lookup hkeys (cstr "Version")
  rw [atKey, if_neg (by decide)] at hrel
  rw [versionIn, versionIn, eq_of_optionRel hrel]

/-- The statements of the document are items of the other one, in the same places. -/
theorem statements_reordered (hdistinct : DistinctKeys members)
    (h : Reordered (atKey (cstr "Statement") ReorderedStatements) members members')
    (hstatement : lookup (cstr "Statement") members = some (.array items)) :
    ∃ items', lookup (cstr "Statement") members' = some (.array items') ∧
      List.Forall₂ ReorderedStatement items items' := by
  have hrel := h.lookup hdistinct (cstr "Statement")
  rw [atKey, if_pos rfl] at hrel
  rcases hattr' : lookup (cstr "Statement") members' with - | attr'
  · rw [hstatement, hattr'] at hrel
    cases hrel
  · rw [hstatement, hattr'] at hrel
    cases hrel with
    | some hattrs =>
      rcases hattrs with rfl | ⟨items₁, items', hitems₁, rfl, hpair⟩
      · exact ⟨items, rfl, List.forall₂_same.2 fun item _ => .inl rfl⟩
      · cases hitems₁
        exact ⟨items', rfl, hpair⟩

theorem noStatements_reordered (hdistinct : DistinctKeys members)
    (h : Reordered (atKey (cstr "Statement") ReorderedStatements) members members')
    (harray : ¬ ∃ items, lookup (cstr "Statement") members = some (.array items)) :
    ¬ ∃ items, lookup (cstr "Statement") members' = some (.array items) := by
  have hrel := h.lookup hdistinct (cstr "Statement")
  rw [atKey, if_pos rfl] at hrel
  intro ⟨items', hstatement'⟩
  rw [hstatement'] at hrel
  rcases hattr : lookup (cstr "Statement") members with - | attr
  · rw [hattr] at hrel
    cases hrel
  · rw [hattr] at hrel
    cases hrel with
    | some hattrs =>
      rcases hattrs with rfl | ⟨items, items', rfl, -⟩
      · exact harray ⟨items', hattr⟩
      · exact harray ⟨items, hattr⟩

/-- The parser makes the same of a document whose members stand in another order, unless it needs the version. -/
theorem document_reordered (hkeys : NoDuplicateKeys (.object members)) (hneeds : ¬ NeedsVersion (.object members))
    (h : Reordered (atKey (cstr "Statement") ReorderedStatements) members members') (stale : Nat → PicaStmt) :
    (DocumentParses members ↔ DocumentParses members') ∧
      (DocumentParses members → policyOf members stale = policyOf members' stale) := by
  obtain ⟨hdistinct, hitems⟩ := hkeys members rfl
  have hversion := versionIn_reordered hdistinct h
  by_cases harray : ∃ items, lookup (cstr "Statement") members = some (.array items)
  · obtain ⟨items, hstatement⟩ := harray
    obtain ⟨items', hstatement', hpair⟩ := statements_reordered hdistinct h hstatement
    have hitem : List.Forall₂ (SameItem (versionAtStatement members') (versionAtStatement members')) items items' := by
      refine ((List.forall₂_and_left items items').2 ⟨hitems items hstatement, hpair⟩).imp ?_
      intro item item' ⟨hitemKeys, hreordered⟩
      exact itemStatement_reordered _ hitemKeys hreordered
    obtain ⟨hparses, hstatements⟩ := sameItems hitem
    have hlength := hpair.length_eq
    by_cases hlt : items.length < 2 ^ 31
    · obtain ⟨hswitch, hsame⟩ := statements_version hneeds hlt hstatement (versionAtStatement_cases members)
        (by rw [hversion]; exact versionAtStatement_cases members')
      have hdocument : DocumentParses members ↔
          ∀ item ∈ items, ItemParses (versionAtStatement members) item := by
        rw [documentParses_iff hstatement, and_iff_right hlt]
      have hdocument' : DocumentParses members' ↔
          ∀ item ∈ items', ItemParses (versionAtStatement members') item := by
        rw [documentParses_iff hstatement', and_iff_right (hlength ▸ hlt)]
      constructor
      · rw [hdocument, hdocument', hswitch, hparses]
      · intro hall
        rw [policyOf_array hstatement, policyOf_array hstatement', hversion, hsame (hdocument.1 hall), hstatements,
          hlength]
    · have hfault : ¬ DocumentParses members := by
        intro hall
        exact hlt (hall items hstatement).1
      have hfault' : ¬ DocumentParses members' := by
        intro hall
        exact hlt (hlength ▸ (hall items' hstatement').1)
      exact ⟨⟨fun hall => absurd hall hfault, fun hall => absurd hall hfault'⟩, fun hall => absurd hall hfault⟩
  · have harray' := noStatements_reordered hdistinct h harray
    have hparses : DocumentParses members := fun items hstatement => absurd ⟨items, hstatement⟩ harray
    have hparses' : DocumentParses members' := fun items hstatement => absurd ⟨items, hstatement⟩ harray'
    refine ⟨⟨fun _ => hparses', fun _ => hparses⟩, fun _ => ?_⟩
    rw [policyOf_noArray harray, policyOf_noArray harray', hversion]

/-- A document that needs its version is read with "Version" in front and not with "Statement" in front. -/
theorem order_of_needsVersion (hkeys : NoDuplicateKeys (.object members)) (hneeds : NeedsVersion (.object members)) :
    ¬ OrderOfMembersIrrelevant (.object members) := by
  obtain ⟨members₁, items, v, hobject, hversion, hstatement, hlt, ⟨item, hitem, hhas⟩, hparses⟩ := hneeds
  cases hobject
  obtain ⟨hdistinct, -⟩ := hkeys members rfl
  obtain ⟨val, hval, hv⟩ := Option.bind_eq_some_iff.1 hversion
  intro hirrelevant
  have hfront : ∀ m ∈ members, ∃ others, members.Perm (m :: others) := by
    intro m hm
    obtain ⟨before, after, rfl⟩ := List.append_of_mem hm
    exact ⟨before ++ after, List.perm_middle⟩
  have houtcome : ∀ members', members.Perm members' → ∀ ppol,
      (DocumentParses members ∧ ppol = policyOf members fun _ => default) ↔
        (DocumentParses members' ∧ ppol = policyOf members' fun _ => default) := by
    intro members' hperm ppol
    have hreordered : Reordered (atKey (cstr "Statement") ReorderedStatements) members members' :=
      reordered_of_perm (atKey_refl _ fun _ => .inl rfl) hperm
    have hsame := hirrelevant (.object members') (.inr ⟨members, members', rfl, rfl, hreordered⟩) fun _ => default
    rw [sameOutcome_eq_iff] at hsame
    rw [← picaJsonParse_ok_iff hdistinct, ← picaJsonParse_ok_iff (hreordered.distinctKeys hdistinct)]
    exact hsame ppol
  obtain ⟨first, hfirst⟩ := hfront _ (mem_of_lookup hval)
  obtain ⟨last, hlast⟩ := hfront _ (mem_of_lookup hstatement)
  have hread : DocumentParses ((cstr "Version", val) :: first) := by
    intro items' hstatement'
    rw [lookup_perm hdistinct hfirst, hstatement] at hstatement'
    cases hstatement'
    rw [versionAtStatement_version, hv]
    exact ⟨hlt, hparses⟩
  have hunread : ¬ DocumentParses ((cstr "Statement", .array items) :: last) := by
    intro hall
    have hlookup : lookup (cstr "Statement") ((cstr "Statement", .array items) :: last) = some (.array items) := by
      rw [lookup_cons, if_pos rfl]
    have hnone := (hall items hlookup).2
    rw [versionAtStatement_statement] at hnone
    exact not_itemParses_none hhas (hnone item hitem)
  have hmembers := ((houtcome _ hfirst _).2 ⟨hread, rfl⟩).1
  exact hunread ((houtcome _ hlast _).1 ⟨hmembers, rfl⟩).1

end

/-- The order of the members of a document does not matter to the parser, unless the document has chains that are
parsed with the version that it says. -/
theorem picaJsonParse_order_iff {document : Value} (hkeys : NoDuplicateKeys document) :
    OrderOfMembersIrrelevant document ↔ ¬ NeedsVersion document := by
  constructor
  · intro hirrelevant hneeds
    cases document with
    | object members => exact order_of_needsVersion hkeys hneeds hirrelevant
    | _ =>
      obtain ⟨members, items, v, hobject, -⟩ := hneeds
      cases hobject
  · intro hneeds document' hreordered stale
    rw [sameOutcome_eq_iff]
    intro ppol
    rcases hreordered with rfl | ⟨members, members', rfl, rfl, hreordered⟩
    · rfl
    · obtain ⟨hdistinct, -⟩ := hkeys members rfl
      obtain ⟨hparses, hpolicy⟩ := document_reordered hkeys hneeds hreordered stale
      rw [picaJsonParse_ok_iff hdistinct, picaJsonParse_ok_iff (hreordered.distinctKeys hdistinct), ← hparses]
      constructor
      · intro ⟨hall, heq⟩
        exact ⟨hall, heq.trans (hpolicy hall)⟩
      · intro ⟨hall, heq⟩
        exact ⟨hall, heq.trans (hpolicy hall).symm⟩

/-! ### Two documents in two orders -/

def denyAll : Value :=
  .object [(cstr "Statement", .array [.object [(cstr "Effect", .string (lit "Deny"))]]),
    (cstr "Version", .string (lit "PICA-2026-09-25"))]

/-- A statement without chains is parsed in every order. -/
theorem picaJsonParse_order_denyAll : OrderOfMembersIrrelevant denyAll := by
  refine (picaJsonParse_order_iff ?_).2 ?_
  · intro members hmembers
    cases hmembers
    refine ⟨by unfold DistinctKeys; decide, ?_⟩
    intro items hstatement item hitem attributes hattributes
    cases hstatement
    cases List.mem_singleton.1 hitem
    cases hattributes
    refine ⟨by unfold DistinctKeys; decide, ?_⟩
    intro principal hprincipal
    cases hprincipal
  · intro ⟨members, items, v, hmembers, _, hstatement, _, ⟨item, hitem, attributes, chains, hattributes, hchains⟩, _⟩
    cases hmembers
    cases hstatement
    cases List.mem_singleton.1 hitem
    cases hattributes
    cases hchains

def versionMember : CString × Value := (cstr "Version", .string (lit "PICA-2026-09-15"))

def chainMember : CString × Value :=
  (cstr "Statement", .array [.object [(cstr "InvocationChain", .array [.string (lit "/bin/ed")])]])

/-- With "Statement" before "Version" the version is compared through a null pointer. -/
theorem picaJsonParse_order_statementFirst :
    ¬ OrderOfMembersIrrelevant (.object [versionMember, chainMember]) := by
  intro hirrelevant
  have hreordered : Reordered (atKey (cstr "Statement") ReorderedStatements) [versionMember, chainMember]
      [chainMember, versionMember] :=
    reordered_of_perm (atKey_refl _ fun _ => .inl rfl) (List.Perm.swap _ _ _)
  have hsame := hirrelevant (.object [chainMember, versionMember]) (.inr ⟨_, _, rfl, rfl, hreordered⟩) fun _ => default
  exact hsame

end PortableTlsRa
