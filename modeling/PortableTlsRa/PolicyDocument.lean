import PortableTlsRa.Policy

/-!
# What the parser makes of a policy document

A statement is made of what its members say and, where they say nothing, of what the memory held (`itemStmt`); the
parser reaches a fault at some members of another type and goes on after others (`ItemParses`).  The version that a
statement is read with is the one that stands before "Statement" in the document (`versionAtStatement`).  The results
about the documents of a policy are read off `picaJsonParse_ok_iff`.
-/

namespace PortableTlsRa

open CSem Json

def picaPolicyV0 : CString := cstr "PICA-2026-09-15"

def picaPolicyV1 : CString := cstr "PICA-2026-09-25"

theorem picaPolicyV1_ne_V0 : picaPolicyV1 ≠ picaPolicyV0 := by decide

/-! ### Writing into a statement -/

def PicaStmt.setUids (stmt : PicaStmt) : Option (Int × List Int) → PicaStmt
  | some (uidCnt, uid) => { stmt with uidCnt, uid }
  | none => stmt

def PicaStmt.setActions (stmt : PicaStmt) : Option (Int × List (Option CString)) → PicaStmt
  | some (actCnt, action) => { stmt with actCnt, action }
  | none => stmt

def PicaStmt.setChains (stmt : PicaStmt) : Option (Int × List InvArray) → PicaStmt
  | some (aryCnt, iarray) => { stmt with aryCnt, iarray }
  | none => stmt

def PicaStmt.setExecPath (stmt : PicaStmt) : Option (Option CString) → PicaStmt
  | some execPath => { stmt with execPath }
  | none => stmt

/-! ### What the members of a statement write -/

section

variable (members : List (CString × Value))

/-- What is written to `sid`, if anything. -/
def writtenSid : Option (Option CString) := (lookup (cstr "Sid") members).map parseSid

def writtenEffect : Option Int := (lookup (cstr "Effect") members).map parseEffect

/-- The members of the principal, if it is an object. -/
def principalMembers : Option (List (CString × Value)) :=
  match lookup (cstr "Principal") members with
  | some (.object principal) => some principal
  | _ => none

def writtenExecPath : Option (Option CString) :=
  (principalMembers members).bind fun principal => (lookup (cstr "Binary") principal).map parseBinary

/-- The count and the identifiers of an array. -/
def uidsOf : Value → Option (Int × List Int)
  | .array items => some (toInt32 items.length, (items.take (toInt32 items.length).toNat).map getInt)
  | _ => none

def writtenUid : Option (Int × List Int) :=
  (principalMembers members).bind fun principal => (lookup (cstr "Uid") principal).bind uidsOf

def actionsOf : Value → Option (Int × List (Option CString))
  | .array items => some (items.length, items.map stringCopy)
  | _ => none

def writtenAction : Option (Int × List (Option CString)) := (lookup (cstr "Action") members).bind actionsOf

/-- The alternative that is made of an array. -/
def alternativeOf : Value → InvArray
  | .array items => ⟨items.length, items.map stringCopy⟩
  | _ => ⟨0, []⟩

/-- The count and the alternatives that are made of an array, by the version. -/
def chainsOf (version : Option CString) : Value → Option (Int × List InvArray)
  | .array items =>
    if version = some picaPolicyV0 then some (1, [⟨items.length, items.map stringCopy⟩])
    else if version = some picaPolicyV1 then some (items.length, items.map alternativeOf)
    else none
  | _ => none

def writtenChain (version : Option CString) : Option (Int × List InvArray) :=
  (lookup (cstr "InvocationChain") members).bind (chainsOf version)

/-- The statement with what the members write. -/
def itemStmt (version : Option CString) (stmt : PicaStmt) : PicaStmt where
  sid := (writtenSid members).getD stmt.sid
  effect := (writtenEffect members).getD stmt.effect
  execPath := (writtenExecPath members).getD stmt.execPath
  uidCnt := ((writtenUid members).map (·.1)).getD stmt.uidCnt
  uid := ((writtenUid members).map (·.2)).getD stmt.uid
  actCnt := ((writtenAction members).map (·.1)).getD stmt.actCnt
  action := ((writtenAction members).map (·.2)).getD stmt.action
  aryCnt := ((writtenChain members version).map (·.1)).getD stmt.aryCnt
  iarray := ((writtenChain members version).map (·.2)).getD stmt.iarray

/-! ### Where the parser reaches no fault -/

/-- An array that an `int` can count. -/
def CountedArray (attr : Value) : Prop := ∃ items, attr = .array items ∧ items.length < 2 ^ 31

/-- The chain is no array; or there is a version to compare, and the arrays that it makes the parser count are. -/
def ChainParses (version : Option CString) (attr : Value) : Prop :=
  ∀ items, attr = .array items → ∃ v, version = some v ∧
    (v = picaPolicyV0 → items.length < 2 ^ 31) ∧
    (v = picaPolicyV1 → items.length < 2 ^ 31 ∧ ∀ item ∈ items, CountedArray item)

/-- The members of a statement that the parser reaches no fault at. -/
structure MembersParse (version : Option CString) : Prop where
  resource : ∀ attr, lookup (cstr "Resource") members = some attr → (parseResource attr).isSome
  action : ∀ items, lookup (cstr "Action") members = some (.array items) → items.length < 2 ^ 31
  chain : ∀ attr, lookup (cstr "InvocationChain") members = some attr → ChainParses version attr

end

/-- An item of the statements that the parser reaches no fault at. -/
def ItemParses (version : Option CString) (item : Value) : Prop :=
  ∀ members, item = .object members → MembersParse members version

/-- What is made of an item in place of a statement. -/
def itemStatement (version : Option CString) (item : Value) (stmt : PicaStmt) : PicaStmt :=
  match item with
  | .object members => itemStmt members version stmt
  | _ => stmt

/-! ### One member -/

variable {members : List (CString × Value)} {version : Option CString} {stmt stmt' : PicaStmt}

theorem arrayCount_of_lt {items : List Value} (hlt : items.length < 2 ^ 31) :
    arrayCount (.array items) = .ok items.length := by
  rw [arrayCount, if_pos hlt]

theorem arrayCount_of_not_lt {items : List Value} (hlt : ¬ items.length < 2 ^ 31) :
    arrayCount (.array items) = .error .signedOverflow := by
  rw [arrayCount, if_neg hlt]

theorem arrayCount_eq_ok_iff {attr : Value} {n : Int} :
    arrayCount attr = .ok n ↔ ∃ items, attr = .array items ∧ items.length < 2 ^ 31 ∧ n = items.length := by
  cases attr with
  | array items =>
    by_cases hlt : items.length < 2 ^ 31
    · rw [arrayCount_of_lt hlt]
      constructor
      · intro h
        cases h
        exact ⟨items, rfl, hlt, rfl⟩
      · intro ⟨items', hitems, _, hn⟩
        cases hitems
        rw [hn]
    · rw [arrayCount_of_not_lt hlt]
      constructor
      · intro h
        cases h
      · intro ⟨items', hitems, hlt', _⟩
        cases hitems
        exact absurd hlt' hlt
  | _ => simp [arrayCount]

theorem parseAlternative_eq_ok_iff {array : Value} {alternative : InvArray} :
    parseAlternative array = .ok alternative ↔ CountedArray array ∧ alternative = alternativeOf array := by
  unfold parseAlternative CountedArray
  cases array with
  | array items =>
    rw [bind_eq_ok]
    constructor
    · intro ⟨ichnCnt, hcount, hret⟩
      obtain ⟨items', hitems, hlt, rfl⟩ := arrayCount_eq_ok_iff.1 hcount
      cases hret
      cases hitems
      exact ⟨⟨items, rfl, hlt⟩, rfl⟩
    · intro ⟨⟨items', hitems, hlt⟩, halternative⟩
      cases hitems
      exact ⟨_, arrayCount_of_lt hlt, by rw [halternative]; rfl⟩
  | _ => simp [arrayCount]

theorem mapM_parseAlternative_eq_ok_iff {items : List Value} {iarray : List InvArray} :
    items.mapM parseAlternative = .ok iarray ↔
      (∀ item ∈ items, CountedArray item) ∧ iarray = items.map alternativeOf := by
  rw [mapM_eq_ok_iff]
  simp only [parseAlternative_eq_ok_iff]
  induction items generalizing iarray with
  | nil => simp
  | cons item items ih =>
    rw [List.forall₂_cons_left_iff, List.forall_mem_cons, List.map_cons]
    constructor
    · intro h
      rcases h with ⟨alternative, rest, ⟨hitem, rfl⟩, hrest, rfl⟩
      obtain ⟨hitems, rfl⟩ := ih.1 hrest
      exact ⟨⟨hitem, hitems⟩, rfl⟩
    · intro h
      rcases h with ⟨⟨hitem, hitems⟩, rfl⟩
      exact ⟨_, _, ⟨hitem, rfl⟩, ih.2 ⟨hitems, rfl⟩, rfl⟩

theorem onMember_resource_ok_iff :
    onMember members (cstr "Resource") checkResource stmt = .ok stmt' ↔
      (∀ attr, lookup (cstr "Resource") members = some attr → (parseResource attr).isSome) ∧ stmt' = stmt := by
  unfold onMember
  cases hattr : lookup (cstr "Resource") members with
  | none =>
    simp only [reduceCtorEq, false_implies, implies_true, true_and, Except.ok.injEq]
    exact eq_comm
  | some attr =>
    simp only [checkResource, Option.some.injEq, forall_eq']
    cases hres : parseResource attr with
    | none =>
      have hfault : strcmpEq none (some (cstr "enclave")) = .error .nullPointer := rfl
      simp [hfault]
    | some cp =>
      have hcmp : ∃ same, strcmpEq (some cp) (some (cstr "enclave")) = .ok same := ⟨_, rfl⟩
      obtain ⟨same, hcmp⟩ := hcmp
      simp [hcmp, eq_comm]

theorem onMember_principal :
    onMember members (cstr "Principal") (fun attr stmt => .ok (parsePrincipal attr stmt)) stmt =
      .ok ((stmt.setExecPath (writtenExecPath members)).setUids (writtenUid members)) := by
  unfold onMember writtenExecPath writtenUid principalMembers
  cases hattr : lookup (cstr "Principal") members with
  | none => rfl
  | some attr =>
    cases attr with
    | object principal =>
      cases hbinary : lookup (cstr "Binary") principal with
      | none =>
        cases huid : lookup (cstr "Uid") principal with
        | none => simp [parsePrincipal, hbinary, huid, PicaStmt.setExecPath, PicaStmt.setUids]
        | some uid =>
          cases uid <;> simp [parsePrincipal, hbinary, huid, parseUid, uidsOf, PicaStmt.setExecPath, PicaStmt.setUids]
      | some binary =>
        cases huid : lookup (cstr "Uid") principal with
        | none => simp [parsePrincipal, hbinary, huid, PicaStmt.setExecPath, PicaStmt.setUids]
        | some uid =>
          cases uid <;> simp [parsePrincipal, hbinary, huid, parseUid, uidsOf, PicaStmt.setExecPath, PicaStmt.setUids]
    | _ => rfl

theorem onMember_action_ok_iff :
    onMember members (cstr "Action") parseAction stmt = .ok stmt' ↔
      (∀ items, lookup (cstr "Action") members = some (.array items) → items.length < 2 ^ 31) ∧
        stmt' = stmt.setActions (writtenAction members) := by
  unfold onMember writtenAction
  cases hattr : lookup (cstr "Action") members with
  | none => simp [PicaStmt.setActions, eq_comm]
  | some attr =>
    cases attr with
    | array items =>
      simp only [parseAction, bind_eq_ok, arrayCount_eq_ok_iff, Option.some.injEq, Value.array.injEq, forall_eq']
      constructor
      · intro ⟨actCnt, ⟨items', hitems, hlt, hcount⟩, hret⟩
        cases hret
        rw [hcount, ← hitems]
        exact ⟨by rw [hitems]; exact hlt, rfl⟩
      · intro ⟨hlt, hstmt⟩
        exact ⟨items.length, ⟨items, rfl, hlt, rfl⟩, by rw [hstmt]; rfl⟩
    | _ => simp [parseAction, actionsOf, PicaStmt.setActions, eq_comm]

/-- The comparison with the two versions, where there is a version. -/
theorem parseInvchain_of_version (v : CString) (items : List Value) (stmt : PicaStmt) :
    parseInvchain (some v) (.array items) stmt =
      if v = picaPolicyV0 then
        parseAlternative (.array items) >>= fun alternative => .ok { stmt with aryCnt := 1, iarray := [alternative] }
      else if v = picaPolicyV1 then
        arrayCount (.array items) >>= fun aryCnt =>
          items.mapM parseAlternative >>= fun iarray => .ok { stmt with aryCnt, iarray }
      else .ok stmt := by
  have hcmp : ∀ w, strcmpEq (some v) (some w) = .ok (decide (v = w)) := fun w => rfl
  simp only [parseInvchain, hcmp, ok_bind, decide_eq_true_eq]
  rfl

theorem chainParses_some_iff {v : CString} {items : List Value} :
    ChainParses (some v) (.array items) ↔
      (v = picaPolicyV0 → items.length < 2 ^ 31) ∧
        (v = picaPolicyV1 → items.length < 2 ^ 31 ∧ ∀ item ∈ items, CountedArray item) := by
  constructor
  · intro h
    obtain ⟨w, hw, hparses⟩ := h items rfl
    cases hw
    exact hparses
  · intro h items' hitems
    cases hitems
    exact ⟨v, rfl, h⟩

theorem chainsOf_V0 (items : List Value) :
    chainsOf (some picaPolicyV0) (.array items) = some (1, [alternativeOf (.array items)]) := by
  rw [chainsOf, if_pos rfl]
  rfl

theorem chainsOf_V1 (items : List Value) :
    chainsOf (some picaPolicyV1) (.array items) = some ((items.length : Int), items.map alternativeOf) := by
  have hne : ¬ some picaPolicyV1 = some picaPolicyV0 := by
    intro h
    exact picaPolicyV1_ne_V0 (Option.some.inj h)
  rw [chainsOf, if_neg hne, if_pos rfl]

theorem chainsOf_unknown {v : CString} (hv0 : v ≠ picaPolicyV0) (hv1 : v ≠ picaPolicyV1) (attr : Value) :
    chainsOf (some v) attr = none := by
  cases attr with
  | array items => simp [chainsOf, hv0, hv1]
  | _ => rfl

theorem parseInvchain_ok_iff {attr : Value} :
    parseInvchain version attr stmt = .ok stmt' ↔
      ChainParses version attr ∧ stmt' = stmt.setChains (chainsOf version attr) := by
  cases attr with
  | array items =>
    cases version with
    | none =>
      have hfault : parseInvchain none (.array items) stmt = .error .nullPointer := rfl
      simp [hfault, ChainParses]
    | some v =>
      rw [parseInvchain_of_version, chainParses_some_iff]
      by_cases hv0 : v = picaPolicyV0
      · subst hv0
        simp only [if_true, bind_eq_ok, parseAlternative_eq_ok_iff, chainsOf_V0, PicaStmt.setChains, Except.ok.injEq]
        constructor
        · intro h
          rcases h with ⟨alternative, ⟨⟨items', hitems, hlt⟩, rfl⟩, rfl⟩
          cases hitems
          exact ⟨⟨fun _ => hlt, fun hv1 => absurd hv1.symm picaPolicyV1_ne_V0⟩, rfl⟩
        · intro h
          rcases h with ⟨⟨hlt, -⟩, rfl⟩
          exact ⟨_, ⟨⟨items, rfl, hlt trivial⟩, rfl⟩, rfl⟩
      · rw [if_neg hv0]
        by_cases hv1 : v = picaPolicyV1
        · subst hv1
          simp only [if_true, bind_eq_ok, arrayCount_eq_ok_iff, mapM_parseAlternative_eq_ok_iff, chainsOf_V1,
            PicaStmt.setChains, Except.ok.injEq]
          constructor
          · intro h
            rcases h with ⟨n, ⟨items', hitems, hlt, rfl⟩, iarray, ⟨hall, rfl⟩, rfl⟩
            cases hitems
            exact ⟨⟨fun hv0' => absurd hv0' hv0, fun _ => ⟨hlt, hall⟩⟩, rfl⟩
          · intro h
            rcases h with ⟨⟨-, hparses⟩, rfl⟩
            exact ⟨_, ⟨items, rfl, (hparses trivial).1, rfl⟩, _, ⟨(hparses trivial).2, rfl⟩, rfl⟩
        · rw [if_neg hv1, chainsOf_unknown hv0 hv1, PicaStmt.setChains, Except.ok.injEq]
          constructor
          · intro h
            exact ⟨⟨fun h₀ => absurd h₀ hv0, fun h₁ => absurd h₁ hv1⟩, h.symm⟩
          · intro ⟨_, h⟩
            exact h.symm
  | _ => simp [parseInvchain, ChainParses, chainsOf, PicaStmt.setChains, eq_comm]

/-! ### The statements -/

theorem onMember_chain_ok_iff :
    onMember members (cstr "InvocationChain") (parseInvchain version) stmt = .ok stmt' ↔
      (∀ attr, lookup (cstr "InvocationChain") members = some attr → ChainParses version attr) ∧
        stmt' = stmt.setChains (writtenChain members version) := by
  unfold onMember writtenChain
  cases hattr : lookup (cstr "InvocationChain") members with
  | none => simp [PicaStmt.setChains, eq_comm]
  | some attr => simp [parseInvchain_ok_iff]

/-- The members of a statement are written one after the other. -/
theorem itemStmt_eq (members : List (CString × Value)) (version : Option CString) (stmt : PicaStmt) :
    itemStmt members version stmt =
      PicaStmt.setChains (PicaStmt.setActions (PicaStmt.setUids (PicaStmt.setExecPath
        { stmt with
          sid := (writtenSid members).getD stmt.sid
          effect := (writtenEffect members).getD stmt.effect }
        (writtenExecPath members)) (writtenUid members)) (writtenAction members)) (writtenChain members version) := by
  unfold itemStmt
  cases writtenExecPath members with
  | none | some execPath =>
    cases writtenUid members with
    | none | some uids =>
      cases writtenAction members with
      | none | some actions => cases writtenChain members version <;> rfl

/-- What the parser makes of the members of a statement. -/
theorem parseStatement_object_ok_iff :
    parseStatement version (.object members) stmt = .ok stmt' ↔
      MembersParse members version ∧ stmt' = itemStmt members version stmt := by
  have hsid : onMember members (cstr "Sid") (fun attr stmt => .ok { stmt with sid := parseSid attr }) stmt =
      .ok { stmt with sid := (writtenSid members).getD stmt.sid } := by
    unfold onMember writtenSid
    cases lookup (cstr "Sid") members <;> rfl
  have heffect : ∀ stmt : PicaStmt,
      onMember members (cstr "Effect") (fun attr stmt => .ok { stmt with effect := parseEffect attr }) stmt =
        .ok { stmt with effect := (writtenEffect members).getD stmt.effect } := by
    intro stmt
    unfold onMember writtenEffect
    cases lookup (cstr "Effect") members <;> rfl
  rw [parseStatement_object, hsid, ok_bind, heffect, ok_bind, parseAfterEffect, itemStmt_eq]
  simp only [bind_eq_ok, onMember_resource_ok_iff, onMember_principal, Except.ok.injEq, exists_eq_left',
    onMember_action_ok_iff, onMember_chain_ok_iff]
  constructor
  · intro h
    rcases h with ⟨s₁, ⟨hresource, rfl⟩, s₂, ⟨haction, rfl⟩, hchain, rfl⟩
    exact ⟨⟨hresource, haction, hchain⟩, rfl⟩
  · intro h
    rcases h with ⟨⟨hresource, haction, hchain⟩, rfl⟩
    exact ⟨_, ⟨hresource, rfl⟩, _, ⟨haction, rfl⟩, hchain, rfl⟩

theorem parseStatement_ok_iff {item : Value} :
    parseStatement version item stmt = .ok stmt' ↔
      ItemParses version item ∧ stmt' = itemStatement version item stmt := by
  cases item with
  | object members => simp [parseStatement_object_ok_iff, ItemParses, itemStatement]
  | _ => simp [parseStatement, ItemParses, itemStatement, eq_comm]

/-- The statements that are made of the items, from place `i` on. -/
def statementsOf (version : Option CString) (stale : Nat → PicaStmt) (i : Nat) (items : List Value) : List PicaStmt :=
  items.mapIdx fun k item => itemStatement version item (stale (i + k))

theorem statementsOf_cons (version : Option CString) (stale : Nat → PicaStmt) (i : Nat) (item : Value)
    (items : List Value) :
    statementsOf version stale i (item :: items) =
      itemStatement version item (stale i) :: statementsOf version stale (i + 1) items := by
  unfold statementsOf
  rw [List.mapIdx_cons]
  simp only [Nat.add_zero, Nat.add_assoc, Nat.add_comm 1]

theorem parseStatements_ok_iff {stale : Nat → PicaStmt} {i : Nat} {items : List Value} {stmts : List PicaStmt} :
    parseStatements version stale i items = .ok stmts ↔
      (∀ item ∈ items, ItemParses version item) ∧ stmts = statementsOf version stale i items := by
  induction items generalizing i stmts with
  | nil => simp [parseStatements, statementsOf, eq_comm]
  | cons item items ih =>
    rw [parseStatements, List.forall_mem_cons, statementsOf_cons]
    simp only [bind_eq_ok, parseStatement_ok_iff, ih, pure_eq_ok, Except.ok.injEq]
    constructor
    · intro h
      rcases h with ⟨stmt, ⟨hitem, rfl⟩, others, ⟨hitems, rfl⟩, rfl⟩
      exact ⟨⟨hitem, hitems⟩, rfl⟩
    · intro h
      rcases h with ⟨⟨hitem, hitems⟩, rfl⟩
      exact ⟨_, ⟨hitem, rfl⟩, _, ⟨hitems, rfl⟩, rfl⟩

/-! ### The document -/

section

variable (members : List (CString × Value))

/-- The version that the members say. -/
def versionIn : Option CString := (lookup (cstr "Version") members).bind jsonVersion

/-- The version that has been read when the statements are. -/
def versionAtStatement : Option CString := versionIn (members.takeWhile fun m => m.1 ≠ cstr "Statement")

/-- The policy that is made of the members. -/
def policyOf (stale : Nat → PicaStmt) : PicaPolicy :=
  match lookup (cstr "Statement") members with
  | some (.array items) =>
    ⟨versionIn members, items.length, statementsOf (versionAtStatement members) stale 0 items⟩
  | _ => ⟨versionIn members, 0, []⟩

/-- The statements are no array; or one that an `int` can count, with items that the parser reaches no fault at. -/
def DocumentParses : Prop :=
  ∀ items, lookup (cstr "Statement") members = some (.array items) →
    items.length < 2 ^ 31 ∧ ∀ item ∈ items, ItemParses (versionAtStatement members) item

end

theorem documentParses_iff {items : List Value} (hstatement : lookup (cstr "Statement") members = some (.array items)) :
    DocumentParses members ↔
      items.length < 2 ^ 31 ∧ ∀ item ∈ items, ItemParses (versionAtStatement members) item := by
  constructor
  · intro h
    exact h items hstatement
  · intro h items' hstatement'
    rw [hstatement] at hstatement'
    cases hstatement'
    exact h

variable {stale : Nat → PicaStmt} {pp ppol : PicaPolicy}

theorem parseMember_version (stale : Nat → PicaStmt) (pp : PicaPolicy) (val : Value) :
    parseMember stale pp (cstr "Version", val) = .ok { pp with version := jsonVersion val } := rfl

theorem parseMember_statement (stale : Nat → PicaStmt) (pp : PicaPolicy) (val : Value) :
    parseMember stale pp (cstr "Statement", val) = jsonStatement stale val pp := rfl

theorem parseMember_other {member : CString × Value} (hversion : member.1 ≠ cstr "Version")
    (hstatement : member.1 ≠ cstr "Statement") : parseMember stale pp member = .ok pp := by
  obtain ⟨label, val⟩ := member
  simp only [parseMember, if_neg hversion, if_neg hstatement]
  rfl

/-- Members other than the statements leave the version that they say. -/
theorem foldlM_parseMember_version (stale : Nat → PicaStmt) (pp : PicaPolicy) (hkeys : DistinctKeys members)
    (hnone : ∀ m ∈ members, m.1 ≠ cstr "Statement") :
    members.foldlM (parseMember stale) pp =
      .ok { pp with version := ((lookup (cstr "Version") members).map jsonVersion).getD pp.version } := by
  induction members generalizing pp with
  | nil => rfl
  | cons m members ih =>
    rw [List.forall_mem_cons] at hnone
    have hkeys' : DistinctKeys members := (List.nodup_cons.1 hkeys).2
    rw [List.foldlM_cons, lookup_cons]
    by_cases hversion : m.1 = cstr "Version"
    · obtain ⟨label, val⟩ := m
      obtain rfl : label = cstr "Version" := hversion
      have habsent : lookup (cstr "Version") members = none := by
        rw [lookup_eq_none_iff]
        intro other hother heq
        exact (List.nodup_cons.1 hkeys).1 (List.mem_map.2 ⟨other, hother, heq⟩)
      rw [parseMember_version, ok_bind, ih _ hkeys' hnone.2, habsent, if_pos rfl]
      rfl
    · rw [parseMember_other hversion hnone.1, ok_bind, ih _ hkeys' hnone.2, if_neg hversion]

theorem jsonStatement_ok_iff {val : Value} :
    jsonStatement stale val pp = .ok ppol ↔
      (∀ items, val = .array items → items.length < 2 ^ 31 ∧ ∀ item ∈ items, ItemParses pp.version item) ∧
        ppol = match val with
          | .array items => { pp with entries := items.length, stmt := statementsOf pp.version stale 0 items }
          | _ => pp := by
  cases val with
  | array items =>
    simp only [jsonStatement, bind_eq_ok, arrayCount_eq_ok_iff, parseStatements_ok_iff, pure_eq_ok, Except.ok.injEq,
      Value.array.injEq, forall_eq']
    constructor
    · intro h
      rcases h with ⟨n, ⟨items', rfl, hlt, rfl⟩, stmts, ⟨hparse, rfl⟩, rfl⟩
      exact ⟨⟨hlt, hparse⟩, rfl⟩
    · intro h
      rcases h with ⟨⟨hlt, hparse⟩, rfl⟩
      exact ⟨_, ⟨items, rfl, hlt, rfl⟩, _, ⟨hparse, rfl⟩, rfl⟩
  | _ => simp [jsonStatement, eq_comm]

theorem map_getD_none {α : Type} (o : Option α) (f : α → Option CString) : (o.map f).getD none = o.bind f := by
  cases o <;> rfl

section

variable {pre post : List (CString × Value)} {val : Value}

theorem versionAtStatement_split (hpre : ∀ m ∈ pre, m.1 ≠ cstr "Statement") :
    versionAtStatement (pre ++ (cstr "Statement", val) :: post) = versionIn pre := by
  have htake : (pre ++ (cstr "Statement", val) :: post).takeWhile (fun m => m.1 ≠ cstr "Statement") = pre := by
    rw [List.takeWhile_append_of_pos (by simpa using hpre), List.takeWhile_cons_of_neg (by simp), List.append_nil]
  rw [versionAtStatement, htake]

/-- The version is said before the statements or behind them. -/
theorem versionIn_split (hkeys : DistinctKeys (pre ++ (cstr "Statement", val) :: post)) :
    versionIn (pre ++ (cstr "Statement", val) :: post) =
      ((lookup (cstr "Version") post).map jsonVersion).getD (versionIn pre) := by
  have hne : cstr "Statement" ≠ cstr "Version" := by decide
  rw [DistinctKeys, List.map_append, List.map_cons, List.nodup_append] at hkeys
  unfold versionIn
  rw [lookup_append, lookup_cons, if_neg hne]
  cases hvpre : lookup (cstr "Version") pre with
  | none => simp [map_getD_none]
  | some v =>
    have habsent : lookup (cstr "Version") post = none := by
      rw [lookup_eq_none_iff]
      intro m hm heq
      exact hkeys.2.2 _ (List.mem_map_of_mem (mem_of_lookup hvpre)) _
        (List.mem_cons_of_mem _ (List.mem_map_of_mem hm)) heq.symm
    rw [habsent]
    rfl

/-- A document with statements: the members before them say the version that they are read with. -/
theorem foldlM_parseMember_split (hkeys : DistinctKeys (pre ++ (cstr "Statement", val) :: post))
    (hpre : ∀ m ∈ pre, m.1 ≠ cstr "Statement") :
    (pre ++ (cstr "Statement", val) :: post).foldlM (parseMember stale) PicaPolicy.zero = .ok ppol ↔
      DocumentParses (pre ++ (cstr "Statement", val) :: post) ∧
        ppol = policyOf (pre ++ (cstr "Statement", val) :: post) stale := by
  have hnodup := hkeys
  rw [DistinctKeys, List.map_append, List.map_cons, List.nodup_append] at hnodup
  obtain ⟨hkeysPre, hkeysPost, -⟩ := hnodup
  rw [List.nodup_cons] at hkeysPost
  have hpost : ∀ m ∈ post, m.1 ≠ cstr "Statement" := by
    intro m hm heq
    exact hkeysPost.1 (List.mem_map.2 ⟨m, hm, heq⟩)
  have hlookup : lookup (cstr "Statement") (pre ++ (cstr "Statement", val) :: post) = some val := by
    rw [lookup_append, lookup_eq_none_iff.2 hpre, lookup_cons, if_pos rfl]
    rfl
  have hzero : ((lookup (cstr "Version") pre).map jsonVersion).getD PicaPolicy.zero.version = versionIn pre :=
    map_getD_none _ _
  rw [List.foldlM_append, foldlM_parseMember_version stale _ hkeysPre hpre, ok_bind, List.foldlM_cons,
    parseMember_statement, bind_eq_ok]
  simp only [jsonStatement_ok_iff, foldlM_parseMember_version stale _ hkeysPost.2 hpost, Except.ok.injEq,
    DocumentParses, policyOf, hlookup, Option.some.injEq, versionAtStatement_split hpre, versionIn_split hkeys, hzero]
  constructor
  · intro h
    rcases h with ⟨mid, ⟨hparses, rfl⟩, rfl⟩
    refine ⟨hparses, ?_⟩
    cases val <;> rfl
  · intro h
    rcases h with ⟨hparses, rfl⟩
    refine ⟨_, ⟨hparses, rfl⟩, ?_⟩
    cases val <;> rfl

end

/-- What the parser makes of a document. -/
theorem picaJsonParse_ok_iff (hkeys : DistinctKeys members) :
    picaJsonParse stale (.object members) PicaPolicy.zero = .ok ppol ↔
      DocumentParses members ∧ ppol = policyOf members stale := by
  show members.foldlM (parseMember stale) PicaPolicy.zero = .ok ppol ↔ _
  rcases hstatement : lookup (cstr "Statement") members with - | val
  · rw [foldlM_parseMember_version stale _ hkeys (lookup_eq_none_iff.1 hstatement)]
    simp only [DocumentParses, policyOf, hstatement, reduceCtorEq, false_implies, implies_true, true_and,
      Except.ok.injEq]
    rw [show PicaPolicy.zero.version = none from rfl, map_getD_none]
    exact eq_comm
  · obtain ⟨pre, post, rfl, hpre⟩ := exists_split_of_lookup hstatement
    exact foldlM_parseMember_split hkeys hpre

/-! ### The statements of the policy -/

theorem statementsOf_getElem? (version : Option CString) (stale : Nat → PicaStmt) (items : List Value) (k : Nat) :
    (statementsOf version stale 0 items)[k]? = items[k]?.map fun item => itemStatement version item (stale k) := by
  rw [statementsOf, List.getElem?_mapIdx, Nat.zero_add]

theorem policyOf_array {items : List Value} (hstatement : lookup (cstr "Statement") members = some (.array items))
    (stale : Nat → PicaStmt) :
    policyOf members stale =
      ⟨versionIn members, items.length, statementsOf (versionAtStatement members) stale 0 items⟩ := by
  rw [policyOf, hstatement]

theorem policyOf_noArray (hstatement : ¬ ∃ items, lookup (cstr "Statement") members = some (.array items))
    (stale : Nat → PicaStmt) : policyOf members stale = ⟨versionIn members, 0, []⟩ := by
  unfold policyOf
  cases hattr : lookup (cstr "Statement") members with
  | none => rfl
  | some attr =>
    cases attr with
    | array items => exact absurd ⟨items, hattr⟩ hstatement
    | _ => rfl

/-- The statement in place `k` of the policy. -/
theorem policyOf_getElem? {items : List Value}
    (hstatement : lookup (cstr "Statement") members = some (.array items))
    (stale : Nat → PicaStmt) (k : Nat) :
    (policyOf members stale).stmt[k]? =
      items[k]?.map fun item => itemStatement (versionAtStatement members) item (stale k) := by
  rw [policyOf_array hstatement]
  exact statementsOf_getElem? _ stale items k

theorem policyOf_entries (members : List (CString × Value)) (stale : Nat → PicaStmt) :
    (policyOf members stale).entries = (policyOf members stale).stmt.length := by
  unfold policyOf
  split
  · simp [statementsOf]
  · rfl

end PortableTlsRa
