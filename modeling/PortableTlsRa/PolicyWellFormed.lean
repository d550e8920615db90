import PortableTlsRa.PolicyDocument

/-!
# Which policies are accepted

`pica_read_policy` is to give 0 for well-formed policies only (`WellFormedPolicy`) and a negative code otherwise, with
no accessor of json-c called on a value of another type and no null pointer compared on the way.  The functions below
it report what is wrong and go on, so that this is so for the documents that have nothing wrong (`StrictDocument`) and
for no others (`picaReadPolicy_wellFormed_iff`).
-/

namespace PortableTlsRa

open CSem Json

/-! ### What the code 0 promises -/

/-- Every place up to the count is there and has the property. -/
def UpTo {α : Type} (cnt : Int) (xs : List α) (p : α → Prop) : Prop :=
  ∀ k : Nat, (k : Int) < cnt → ∃ x, xs[k]? = some x ∧ p x

/-- Every slot up to the count is a string. -/
def Filled (cnt : Int) (slots : List (Option CString)) : Prop := UpTo cnt slots fun slot => slot.isSome

structure PicaStmt.WellFormed (stmt : PicaStmt) : Prop where
  effect : stmt.effect = Effect.allow ∨ stmt.effect = Effect.deny
  execPath : stmt.execPath.isSome
  action : Filled stmt.actCnt stmt.action
  chains : UpTo stmt.aryCnt stmt.iarray fun alternative => Filled alternative.ichnCnt alternative.ichain

/-- The document and the policy that is made of it are well formed. -/
structure WellFormedPolicy (document : Value) (ppol : PicaPolicy) : Prop where
  version : ppol.version = some picaPolicyV0 ∨ ppol.version = some picaPolicyV1
  statement : ∃ members items, document = .object members ∧ lookup (cstr "Statement") members = some (.array items) ∧
    ∀ item ∈ items, ∃ attributes, item = .object attributes ∧
      ∀ attr, lookup (cstr "Resource") attributes = some attr → parseResource attr = some (cstr "enclave")
  stmt : UpTo ppol.entries ppol.stmt PicaStmt.WellFormed

/-- The values that `json_object_get_int` is called on for a statement. -/
def readAsInt (attributes : List (CString × Value)) : List Value :=
  match (principalMembers attributes).bind (lookup (cstr "Uid")) with
  | some (.array items) => items.take (toInt32 items.length).toNat
  | _ => []

/-- `json_object_get_int`, which takes any value, is called on integers alone. -/
def ReadsInts (document : Value) : Prop :=
  ∀ members items, document = .object members → lookup (cstr "Statement") members = some (.array items) →
    ∀ attributes, .object attributes ∈ items → ∀ v ∈ readAsInt attributes, ∃ n, v = .int n

/-- The document in a file that can be read. -/
def documentOf (parse : Bytes → Option Value) : FileRead → Option Value
  | .opened size data => if data.1.length = size then parse data.1 else none
  | _ => none

/-- Whatever the memory holds, reading the file reaches no fault and gives 0 for a well-formed policy only. -/
def AcceptsOnlyWellFormed (murmurHash3 : Bytes → UInt32) (parse : Bytes → Option Value) (f : FileRead) : Prop :=
  ∀ stale table, ∃ rc ppol table',
    picaReadPolicy murmurHash3 parse stale table f PicaPolicy.zero = .ok (rc, ppol, table') ∧
      (rc < 0 ∨ rc = 0 ∧
        ∃ document, documentOf parse f = some document ∧ WellFormedPolicy document ppol ∧ ReadsInts document)

/-! ### Documents with nothing wrong -/

/-- An array of strings that an `int` can count. -/
def StringArray (attr : Value) : Prop :=
  ∃ items, attr = .array items ∧ items.length < 2 ^ 31 ∧ ∀ item ∈ items, (stringCopy item).isSome

structure StrictStatement (version : Option CString) (attributes : List (CString × Value)) : Prop where
  effect : ∃ attr, lookup (cstr "Effect") attributes = some attr ∧
    (stringCopy attr = some (cstr "Allow") ∨ stringCopy attr = some (cstr "Deny"))
  resource : ∀ attr, lookup (cstr "Resource") attributes = some attr → stringCopy attr = some (cstr "enclave")
  binary : ∃ principal attr, principalMembers attributes = some principal ∧
    lookup (cstr "Binary") principal = some attr ∧ (stringCopy attr).isSome
  uid : ∀ v ∈ readAsInt attributes, ∃ n, v = .int n
  action : ∃ attr, lookup (cstr "Action") attributes = some attr ∧ StringArray attr
  chain : ∃ attr, lookup (cstr "InvocationChain") attributes = some attr ∧
    (version = some picaPolicyV0 ∧ StringArray attr ∨
      version = some picaPolicyV1 ∧
        ∃ items, attr = .array items ∧ items.length < 2 ^ 31 ∧ ∀ item ∈ items, StringArray item)

/-- The document says a known version, before the statements if there are any, and every statement has the members
that a policy needs, of the types that it needs. -/
def StrictDocument (document : Value) : Prop :=
  ∃ members items, document = .object members ∧
    (versionIn members = some picaPolicyV0 ∨ versionIn members = some picaPolicyV1) ∧
    lookup (cstr "Statement") members = some (.array items) ∧ items.length < 2 ^ 31 ∧
    ∀ item ∈ items, ∃ attributes, item = .object attributes ∧
      StrictStatement (versionAtStatement members) attributes

/-! ### The fields of a statement -/

theorem upTo_length_iff {α : Type} {xs : List α} {p : α → Prop} : UpTo xs.length xs p ↔ ∀ x ∈ xs, p x := by
  constructor
  · intro h x hx
    obtain ⟨k, hk, rfl⟩ := List.mem_iff_getElem.1 hx
    obtain ⟨y, hy, hp⟩ := h k (by exact_mod_cast hk)
    rw [List.getElem?_eq_getElem hk] at hy
    cases hy
    exact hp
  · intro h k hk
    have hlt : k < xs.length := by exact_mod_cast hk
    exact ⟨xs[k], List.getElem?_eq_getElem hlt, h _ (List.getElem_mem hlt)⟩

/-- Nothing is in place 0 of an empty list. -/
theorem not_upTo_one_nil {α : Type} (p : α → Prop) : ¬ UpTo 1 [] p := by
  intro h
  obtain ⟨x, hx, _⟩ := h 0 (by decide)
  cases hx

theorem filled_stringCopy_iff {items : List Value} :
    Filled items.length (items.map stringCopy) ↔ ∀ item ∈ items, (stringCopy item).isSome := by
  have hlength : (items.length : Int) = (items.map stringCopy).length := by rw [List.length_map]
  rw [Filled, hlength, upTo_length_iff, List.forall_mem_map]

theorem parseEffect_known_iff {attr : Value} :
    (parseEffect attr = Effect.allow ∨ parseEffect attr = Effect.deny) ↔
      (stringCopy attr = some (cstr "Allow") ∨ stringCopy attr = some (cstr "Deny")) := by
  unfold parseEffect
  cases hcopy : stringCopy attr with
  | none => simp [Effect.none, Effect.allow, Effect.deny]
  | some cp =>
    by_cases hallow : cp = cstr "Allow"
    · simp [hallow]
    · have hne : cstr "Deny" ≠ cstr "Allow" := by decide
      by_cases hdeny : cp = cstr "Deny"
      · simp [hdeny, hne]
      · simp [hallow, hdeny, Effect.none, Effect.allow, Effect.deny]

/-- A statement of cleared memory. -/
instance : Inhabited PicaStmt := ⟨⟨none, Effect.none, none, 0, [], 0, [], 0, []⟩⟩

theorem StringArray.counted {item : Value} (h : StringArray item) : CountedArray item := by
  obtain ⟨items, hitem, hlt, -⟩ := h
  exact ⟨items, hitem, hlt⟩

theorem filled_alternativeOf_iff {item : Value} (hcounted : CountedArray item) :
    Filled (alternativeOf item).ichnCnt (alternativeOf item).ichain ↔ StringArray item := by
  obtain ⟨items, rfl, hlt⟩ := hcounted
  simp only [alternativeOf, filled_stringCopy_iff, StringArray, Value.array.injEq, exists_eq_left']
  exact (and_iff_right hlt).symm

section

variable {attributes : List (CString × Value)} {version : Option CString}

theorem itemStmt_effect_iff (version : Option CString) :
    (∀ stmt, (itemStmt attributes version stmt).effect = Effect.allow ∨
        (itemStmt attributes version stmt).effect = Effect.deny) ↔
      ∃ attr, lookup (cstr "Effect") attributes = some attr ∧
        (stringCopy attr = some (cstr "Allow") ∨ stringCopy attr = some (cstr "Deny")) := by
  simp only [itemStmt, writtenEffect]
  cases hattr : lookup (cstr "Effect") attributes with
  | none =>
    constructor
    · intro h
      rcases h default with hallow | hdeny
      · cases hallow
      · cases hdeny
    · intro ⟨attr, hsome, _⟩
      cases hsome
  | some attr => simp [parseEffect_known_iff]

theorem itemStmt_execPath_iff (version : Option CString) :
    (∀ stmt, (itemStmt attributes version stmt).execPath.isSome) ↔
      ∃ principal attr, principalMembers attributes = some principal ∧
        lookup (cstr "Binary") principal = some attr ∧ (stringCopy attr).isSome := by
  have hstale : writtenExecPath attributes = none →
      ¬ ∀ stmt, (itemStmt attributes version stmt).execPath.isSome := by
    intro hnone h
    have hpath := h default
    simp only [itemStmt, hnone] at hpath
    cases hpath
  cases hprincipal : principalMembers attributes with
  | none => simp [hstale (by simp [writtenExecPath, hprincipal])]
  | some principal =>
    cases hbinary : lookup (cstr "Binary") principal with
    | none => simp [hstale (by simp [writtenExecPath, hprincipal, hbinary]), hbinary]
    | some attr => simp [itemStmt, writtenExecPath, hprincipal, hbinary, parseBinary]

/-- The slots of the actions are filled, and the parser can count them. -/
theorem itemStmt_action_iff (version : Option CString) :
    ((∀ items, lookup (cstr "Action") attributes = some (.array items) → items.length < 2 ^ 31) ∧
        ∀ stmt, Filled (itemStmt attributes version stmt).actCnt (itemStmt attributes version stmt).action) ↔
      ∃ attr, lookup (cstr "Action") attributes = some attr ∧ StringArray attr := by
  have hstale : writtenAction attributes = none →
      ¬ ∀ stmt, Filled (itemStmt attributes version stmt).actCnt (itemStmt attributes version stmt).action := by
    intro hnone h
    have hfilled := h { (default : PicaStmt) with actCnt := 1 }
    simp only [itemStmt, hnone] at hfilled
    exact not_upTo_one_nil _ hfilled
  cases hattr : lookup (cstr "Action") attributes with
  | none => simp [hstale (by simp [writtenAction, hattr])]
  | some attr =>
    cases attr with
    | array items => simp [itemStmt, writtenAction, hattr, actionsOf, filled_stringCopy_iff, StringArray]
    | _ => simp [hstale (by simp [writtenAction, hattr, actionsOf]), StringArray]

/-- The slots of an alternative, one for each path, are filled. -/
def AlternativeFilled (alternative : InvArray) : Prop := Filled alternative.ichnCnt alternative.ichain

/-- In version 0 the one alternative is the array itself. -/
theorem alternativesV0_iff {items : List Value} :
    (items.length < 2 ^ 31 ∧ UpTo 1 [alternativeOf (.array items)] AlternativeFilled) ↔ StringArray (.array items) := by
  have hone : UpTo 1 [alternativeOf (.array items)] AlternativeFilled ↔
      AlternativeFilled (alternativeOf (.array items)) := by
    rw [show (1 : Int) = [alternativeOf (.array items)].length from rfl, upTo_length_iff]
    simp
  rw [hone]
  constructor
  · intro ⟨hlt, hfilled⟩
    exact (filled_alternativeOf_iff ⟨items, rfl, hlt⟩).1 hfilled
  · intro hstrings
    obtain ⟨items', hitems, hlt⟩ := hstrings.counted
    cases hitems
    exact ⟨hlt, (filled_alternativeOf_iff hstrings.counted).2 hstrings⟩

/-- In version 1 every item of the array is an alternative. -/
theorem alternativesV1_iff {items : List Value} :
    ((items.length < 2 ^ 31 ∧ ∀ item ∈ items, ∃ paths, item = .array paths ∧ paths.length < 2 ^ 31) ∧
        UpTo (items.length : Int) (items.map alternativeOf) AlternativeFilled) ↔
      items.length < 2 ^ 31 ∧ ∀ item ∈ items, StringArray item := by
  have hlength : (items.length : Int) = (items.map alternativeOf).length := by rw [List.length_map]
  rw [hlength, upTo_length_iff, List.forall_mem_map]
  constructor
  · intro ⟨⟨hlt, hcounted⟩, hfilled⟩
    refine ⟨hlt, ?_⟩
    intro item hitem
    exact (filled_alternativeOf_iff (hcounted item hitem)).1 (hfilled item hitem)
  · intro ⟨hlt, hstrings⟩
    refine ⟨⟨hlt, fun item hitem => (hstrings item hitem).counted⟩, ?_⟩
    intro item hitem
    exact (filled_alternativeOf_iff (hstrings item hitem).counted).2 (hstrings item hitem)

/-- The slots of the chains are filled, and the parser reaches no fault at them. -/
theorem itemStmt_chain_iff :
    ((∀ attr, lookup (cstr "InvocationChain") attributes = some attr → ChainParses version attr) ∧
        ∀ stmt, UpTo (itemStmt attributes version stmt).aryCnt (itemStmt attributes version stmt).iarray
          fun alternative => Filled alternative.ichnCnt alternative.ichain) ↔
      ∃ attr, lookup (cstr "InvocationChain") attributes = some attr ∧
        (version = some picaPolicyV0 ∧ StringArray attr ∨
          version = some picaPolicyV1 ∧
            ∃ items, attr = .array items ∧ items.length < 2 ^ 31 ∧ ∀ item ∈ items, StringArray item) := by
  have hstale : writtenChain attributes version = none →
      ¬ ∀ stmt, UpTo (itemStmt attributes version stmt).aryCnt (itemStmt attributes version stmt).iarray
        fun alternative => Filled alternative.ichnCnt alternative.ichain := by
    intro hnone h
    have hfilled := h { (default : PicaStmt) with aryCnt := 1 }
    simp only [itemStmt, hnone] at hfilled
    exact not_upTo_one_nil _ hfilled
  cases hattr : lookup (cstr "InvocationChain") attributes with
  | none => simp [hstale (by simp [writtenChain, hattr])]
  | some attr =>
    cases attr with
    | array items =>
      cases version with
      | none => simp [ChainParses]
      | some v =>
        simp only [Option.some.injEq, forall_eq', chainParses_some_iff, exists_eq_left', Value.array.injEq]
        by_cases hv0 : v = picaPolicyV0
        · subst hv0
          have hwritten : writtenChain attributes (some picaPolicyV0) =
              some (1, [alternativeOf (.array items)]) := by
            rw [writtenChain, hattr]
            exact chainsOf_V0 items
          have hne : picaPolicyV0 ≠ picaPolicyV1 := picaPolicyV1_ne_V0.symm
          simp only [itemStmt, hwritten, Option.map_some, Option.getD_some, forall_const, hne, false_implies,
            and_true, true_and, false_and, or_false]
          exact alternativesV0_iff
        · by_cases hv1 : v = picaPolicyV1
          · subst hv1
            have hwritten : writtenChain attributes (some picaPolicyV1) =
                some ((items.length : Int), items.map alternativeOf) := by
              rw [writtenChain, hattr]
              exact chainsOf_V1 items
            simp only [itemStmt, hwritten, Option.map_some, Option.getD_some, forall_const, hv0, false_implies,
              true_and, false_and, false_or]
            exact alternativesV1_iff
          · have hnone : writtenChain attributes (some v) = none := by
              rw [writtenChain, hattr, Option.bind_some, chainsOf_unknown hv0 hv1]
            simp [hv0, hv1, hstale hnone]
    | _ => simp [hstale (by simp [writtenChain, hattr, chainsOf]), StringArray]

/-- What has to be so of an item, whatever the memory holds, is that it is a statement with nothing wrong. -/
theorem strictStatement_iff :
    StrictStatement version attributes ↔
      MembersParse attributes version ∧
        (∀ attr, lookup (cstr "Resource") attributes = some attr → parseResource attr = some (cstr "enclave")) ∧
        (∀ v ∈ readAsInt attributes, ∃ n, v = .int n) ∧
        ∀ stmt, (itemStmt attributes version stmt).WellFormed := by
  constructor
  · intro h
    obtain ⟨hcounted, haction⟩ := (itemStmt_action_iff version).2 h.action
    obtain ⟨hparses, hchains⟩ := itemStmt_chain_iff.2 h.chain
    have heffect := (itemStmt_effect_iff version).2 h.effect
    have hpath := (itemStmt_execPath_iff version).2 h.binary
    refine ⟨⟨?_, hcounted, hparses⟩, h.resource, h.uid,
      fun stmt => ⟨heffect stmt, hpath stmt, haction stmt, hchains stmt⟩⟩
    intro attr hattr
    rw [show parseResource attr = _ from h.resource attr hattr]
    rfl
  · intro ⟨hparses, hresource, huid, hfilled⟩
    exact {
      effect := (itemStmt_effect_iff version).1 fun stmt => (hfilled stmt).effect
      resource := hresource
      binary := (itemStmt_execPath_iff version).1 fun stmt => (hfilled stmt).execPath
      uid := huid
      action := (itemStmt_action_iff version).1 ⟨hparses.action, fun stmt => (hfilled stmt).action⟩
      chain := itemStmt_chain_iff.1 ⟨hparses.chain, fun stmt => (hfilled stmt).chains⟩ }

end

/-! ### The document and the file -/

section

variable {members : List (CString × Value)}

theorem StrictDocument.readsInts (h : StrictDocument (.object members)) : ReadsInts (.object members) := by
  obtain ⟨members', items, hdocument, -, hstatement, -, hstrict⟩ := h
  cases hdocument
  intro members' items' hdocument hstatement' attributes hattributes
  cases hdocument
  rw [hstatement] at hstatement'
  cases hstatement'
  obtain ⟨attributes', hitem, hstrictItem⟩ := hstrict _ hattributes
  cases hitem
  exact hstrictItem.uid

theorem StrictDocument.parses (h : StrictDocument (.object members)) : DocumentParses members := by
  obtain ⟨members', items, hdocument, -, hstatement, hlt, hstrict⟩ := h
  cases hdocument
  intro items' hstatement'
  rw [hstatement] at hstatement'
  cases hstatement'
  refine ⟨hlt, ?_⟩
  intro item hitem attributes hattributes
  obtain ⟨attributes', hitem', hstrictItem⟩ := hstrict item hitem
  rw [hattributes] at hitem'
  cases hitem'
  exact (strictStatement_iff.1 hstrictItem).1

theorem StrictDocument.wellFormed (h : StrictDocument (.object members)) (stale : Nat → PicaStmt) :
    WellFormedPolicy (.object members) (policyOf members stale) := by
  obtain ⟨members', items, hdocument, hversion, hstatement, -, hstrict⟩ := h
  cases hdocument
  rw [policyOf_array hstatement]
  refine ⟨hversion, ⟨members, items, rfl, hstatement, ?_⟩, ?_⟩
  · intro item hitem
    obtain ⟨attributes, hitem', hstrictItem⟩ := hstrict item hitem
    exact ⟨attributes, hitem', hstrictItem.resource⟩
  · intro k hk
    have hlength : k < items.length := Int.ofNat_lt.1 hk
    obtain ⟨attributes, hitem, hstrictItem⟩ := hstrict items[k] (List.getElem_mem hlength)
    refine ⟨itemStmt attributes (versionAtStatement members) (stale k), ?_, ?_⟩
    · rw [statementsOf_getElem?, List.getElem?_eq_getElem hlength, hitem]
      rfl
    · exact (strictStatement_iff.1 hstrictItem).2.2.2 (stale k)

/-- What has to be so of a document, whatever the memory holds, is that it has nothing wrong. -/
theorem strictDocument_iff :
    StrictDocument (.object members) ↔
      ReadsInts (.object members) ∧
        ∀ stale, DocumentParses members ∧ WellFormedPolicy (.object members) (policyOf members stale) := by
  constructor
  · intro h
    exact ⟨h.readsInts, fun stale => ⟨h.parses, h.wellFormed stale⟩⟩
  · intro ⟨hints, hall⟩
    obtain ⟨hparses, hversion, ⟨members', items, hdocument, hstatement, hitems⟩, -⟩ := hall fun _ => default
    cases hdocument
    rw [policyOf_array hstatement] at hversion
    obtain ⟨hlt, hitemsParse⟩ := hparses items hstatement
    refine ⟨members, items, rfl, hversion, hstatement, hlt, ?_⟩
    intro item hitem
    obtain ⟨attributes, rfl, hresource⟩ := hitems item hitem
    refine ⟨attributes, rfl, strictStatement_iff.2 ⟨hitemsParse _ hitem attributes rfl, hresource,
      hints members items rfl hstatement attributes hitem, ?_⟩⟩
    -- the memory that holds the statement in every place
    intro stmt
    obtain ⟨k, hk, hget⟩ := List.mem_iff_getElem.1 hitem
    have hwf := (hall fun _ => stmt).2.stmt
    rw [policyOf_array hstatement] at hwf
    obtain ⟨stmt', hstmt', hfilled⟩ := hwf k (Int.ofNat_lt.2 hk)
    rw [statementsOf_getElem?, List.getElem?_eq_getElem hk, hget] at hstmt'
    cases hstmt'
    exact hfilled

end

variable {murmurHash3 : Bytes → UInt32} {parse : Bytes → Option Value} {f : FileRead}

theorem picaReadPolicy_unread (hnone : documentOf parse f = none) (stale : Nat → PicaStmt) (table : HashTable)
    (pp : PicaPolicy) : picaReadPolicy murmurHash3 parse stale table f pp = .ok (-1, pp, table) := by
  unfold picaReadPolicy
  unfold documentOf at hnone
  cases f with
  | absent | unread size data => rfl
  | opened size data =>
    by_cases hshort : data.1.length = size
    · simp only [hshort, if_true] at hnone
      simp [hshort, hnone]
    · simp [hshort]

/-- There is a document where the file is read whole and parsed. -/
theorem documentOf_eq_some {document : Value} (hsome : documentOf parse f = some document) :
    ∃ size data, f = .opened size data ∧ data.1.length = size ∧ parse data.1 = some document := by
  unfold documentOf at hsome
  cases f with
  | absent | unread size data => cases hsome
  | opened size data =>
    by_cases hshort : data.1.length = size
    · simp only [hshort, if_true] at hsome
      exact ⟨size, data, rfl, hshort, hsome⟩
    · simp [hshort] at hsome

theorem picaReadPolicy_document {document : Value} (hsome : documentOf parse f = some document)
    (stale : Nat → PicaStmt) (table : HashTable) (pp : PicaPolicy) :
    picaReadPolicy murmurHash3 parse stale table f pp =
      picaJsonParse stale document pp >>= fun ppol =>
        registerAll murmurHash3 table (policyRegistrations ppol.stmt) >>= fun table => .ok (0, ppol, table) := by
  obtain ⟨size, data, rfl, hshort, hparse⟩ := documentOf_eq_some hsome
  simp [picaReadPolicy, hshort, hparse]

theorem documentOf_parse {document : Value} (hsome : documentOf parse f = some document) :
    ∃ data, parse data = some document := by
  obtain ⟨size, data, -, -, hparse⟩ := documentOf_eq_some hsome
  exact ⟨data.1, hparse⟩

/-- Reading a document: its statements are parsed and registered. -/
theorem picaReadPolicy_object_ok_iff {members : List (CString × Value)}
    (hdocument : documentOf parse f = some (.object members)) (hkeys : DistinctKeys members) {stale : Nat → PicaStmt}
    {table table' : HashTable} {rc : Int} {ppol : PicaPolicy} :
    picaReadPolicy murmurHash3 parse stale table f PicaPolicy.zero = .ok (rc, ppol, table') ↔
      rc = 0 ∧ DocumentParses members ∧ ppol = policyOf members stale ∧
        registerAll murmurHash3 table (policyRegistrations ppol.stmt) = .ok table' := by
  rw [picaReadPolicy_document hdocument, bind_eq_ok]
  simp only [bind_eq_ok, picaJsonParse_ok_iff hkeys]
  constructor
  · intro h
    rcases h with ⟨ppol', ⟨hparses, hpolicy⟩, table'', hregister, hreturn⟩
    cases hreturn
    exact ⟨rfl, hparses, hpolicy, hregister⟩
  · intro h
    rcases h with ⟨rfl, hparses, hpolicy, hregister⟩
    exact ⟨ppol, ⟨hparses, hpolicy⟩, table', hregister, rfl⟩

/-- The parser accepts well-formed policies only, without a fault, for the files without a document and the documents
with nothing wrong. -/
theorem picaReadPolicy_wellFormed_iff
    (hjson : ∀ data members, parse data = some (.object members) → DistinctKeys members) :
    AcceptsOnlyWellFormed murmurHash3 parse f ↔
      ∀ document, documentOf parse f = some document → StrictDocument document := by
  unfold AcceptsOnlyWellFormed
  cases hdocument : documentOf parse f with
  | none =>
    constructor
    · intro _ document hsome
      cases hsome
    · intro _ stale table
      exact ⟨-1, PicaPolicy.zero, table, picaReadPolicy_unread hdocument stale table _, .inl (by decide)⟩
  | some document =>
    simp only [Option.some.injEq, forall_eq', exists_eq_left']
    cases document with
    | object members =>
      obtain ⟨data, hparsed⟩ := documentOf_parse hdocument
      have hkeys : DistinctKeys members := hjson data members hparsed
      rw [strictDocument_iff]
      constructor
      · intro h
        have hall : ∀ stale, ReadsInts (.object members) ∧ DocumentParses members ∧
            WellFormedPolicy (.object members) (policyOf members stale) := by
          intro stale
          obtain ⟨rc, ppol, table', hrun, hrc⟩ := h stale HashTable.empty
          obtain ⟨rfl, hparses, rfl, -⟩ := (picaReadPolicy_object_ok_iff hdocument hkeys).1 hrun
          rcases hrc with hnegative | ⟨-, hwf, hints⟩
          · exact absurd hnegative (by decide)
          · exact ⟨hints, hparses, hwf⟩
        exact ⟨(hall fun _ => default).1, fun stale => (hall stale).2⟩
      · intro ⟨hints, hall⟩ stale table
        obtain ⟨hparses, hwf⟩ := hall stale
        -- every statement has a path, so that the registration reaches no null pointer
        have hstmt := hwf.stmt
        rw [policyOf_entries, upTo_length_iff] at hstmt
        obtain ⟨table', htable'⟩ := (registerPolicy_defined_iff murmurHash3 table).2
          (List.forall_mem_map.2 fun stmt hmem => (hstmt stmt hmem).execPath)
        exact ⟨0, policyOf members stale, table',
          (picaReadPolicy_object_ok_iff hdocument hkeys).2 ⟨rfl, hparses, rfl, htable'⟩, .inr ⟨rfl, hwf, hints⟩⟩
    | _ =>
      constructor
      · intro h
        obtain ⟨rc, ppol, table', hrun, -⟩ := h (fun _ => default) HashTable.empty
        rw [picaReadPolicy_document hdocument] at hrun
        cases hrun
      · intro ⟨members, items, hobject, _⟩
        cases hobject

/-! ### Two documents without surprises -/

/-- The parser on a text that it reads as the document. -/
def parseOf (text : Bytes) (document : Value) (data : Bytes) : Option Value :=
  if data = text then some document else none

theorem documentOf_parseOf (text : Bytes) (document : Value) :
    documentOf (parseOf text document) (wholeFile text) = some document := by
  simp [documentOf, wholeFile, parseOf]

theorem parseOf_distinctKeys {text : Bytes} {document : Value}
    (hkeys : ∀ members, document = .object members → DistinctKeys members) (data : Bytes)
    (members : List (CString × Value)) (hparsed : parseOf text document data = some (.object members)) :
    DistinctKeys members := by
  unfold parseOf at hparsed
  by_cases htext : data = text
  · rw [if_pos htext] at hparsed
    exact hkeys members (Option.some.inj hparsed)
  · rw [if_neg htext] at hparsed
    cases hparsed

/-- A statement for the editor, run by two users from the shell, by itself or by make. -/
def strictText : Bytes :=
  lit ("\x7b\"Version\": \"PICA-2026-09-25\", \"Statement\": [\x7b\"Effect\": \"Deny\", " ++
    "\"Principal\": \x7b\"Binary\": \"/bin/ed\", \"Uid\": [1000, 1001]\x7d, \"Action\": [\"read\", \"write\"], " ++
    "\"Resource\": \"enclave\", " ++
    "\"InvocationChain\": [[\"/bin/sh\"], [\"/bin/sh\", \"/usr/bin/make\"]]\x7d]\x7d")

def strictUids : List Value := [.int 1000, .int 1001]

def strictAttributes : List (CString × Value) :=
  [(cstr "Effect", .string (lit "Deny")),
    (cstr "Principal", .object [(cstr "Binary", .string (lit "/bin/ed")), (cstr "Uid", .array strictUids)]),
    (cstr "Action", .array ([lit "read", lit "write"].map .string)), (cstr "Resource", .string (lit "enclave")),
    (cstr "InvocationChain", .array ([[lit "/bin/sh"], [lit "/bin/sh", lit "/usr/bin/make"]].map
      fun paths => .array (paths.map .string)))]

def strictMembers : List (CString × Value) :=
  [(cstr "Version", .string (lit "PICA-2026-09-25")), (cstr "Statement", .array [.object strictAttributes])]

theorem strictMembers_distinct : DistinctKeys strictMembers := by
  unfold DistinctKeys
  decide

theorem stringArray_strings {texts : List Bytes} (hlt : texts.length < 2 ^ 31) :
    StringArray (.array (texts.map .string)) := by
  refine ⟨_, rfl, by rwa [List.length_map], ?_⟩
  intro item hitem
  obtain ⟨text, -, rfl⟩ := List.mem_map.1 hitem
  rfl

theorem strictAttributes_strict : StrictStatement (some picaPolicyV1) strictAttributes where
  effect := ⟨_, rfl, .inr rfl⟩
  resource := by
    intro attr hattr
    cases hattr
    rfl
  binary := ⟨_, _, rfl, rfl, rfl⟩
  uid := by
    intro v hv
    have hread : readAsInt strictAttributes = strictUids := rfl
    rw [hread, strictUids, List.mem_pair] at hv
    rcases hv with rfl | rfl
    · exact ⟨1000, rfl⟩
    · exact ⟨1001, rfl⟩
  action := ⟨_, rfl, stringArray_strings (by decide)⟩
  chain := by
    refine ⟨_, rfl, .inr ⟨rfl, _, rfl, by decide, ?_⟩⟩
    intro item hitem
    obtain ⟨paths, hpaths, rfl⟩ := List.mem_map.1 hitem
    rw [List.mem_pair] at hpaths
    rcases hpaths with rfl | rfl <;> exact stringArray_strings (by decide)

theorem strictMembers_strict : StrictDocument (.object strictMembers) := by
  refine ⟨strictMembers, _, rfl, .inr rfl, rfl, by decide, ?_⟩
  intro item hitem
  obtain rfl := List.mem_singleton.1 hitem
  exact ⟨strictAttributes, rfl, strictAttributes_strict⟩

/-- The policy is read without a fault, and is well formed. -/
theorem picaReadPolicy_wellFormed_deny :
    AcceptsOnlyWellFormed (fun _ => 0) (parseOf strictText (.object strictMembers)) (wholeFile strictText) := by
  refine (picaReadPolicy_wellFormed_iff (parseOf_distinctKeys ?_)).2 ?_
  · intro members hmembers
    cases hmembers
    exact strictMembers_distinct
  · intro document hdocument
    rw [documentOf_parseOf] at hdocument
    cases hdocument
    exact strictMembers_strict

def unknownVersionText : Bytes := lit "\x7b\"Version\": \"2026-09-25\", \"Statement\": []\x7d"

def unknownVersion : Value :=
  .object [(cstr "Version", .string (lit "2026-09-25")), (cstr "Statement", .array [])]

/-- A policy of another version is accepted. -/
theorem picaReadPolicy_accepts_unknown :
    ¬ ∃ murmurHash3,
      AcceptsOnlyWellFormed murmurHash3 (parseOf unknownVersionText unknownVersion) (wholeFile unknownVersionText) := by
  intro ⟨murmurHash3, haccepts⟩
  obtain ⟨rc, ppol, table', hrun, hrc⟩ := haccepts (fun _ => default) HashTable.empty
  have hread : picaReadPolicy murmurHash3 (parseOf unknownVersionText unknownVersion) (fun _ => default)
      HashTable.empty (wholeFile unknownVersionText) PicaPolicy.zero =
        .ok (0, ⟨some (cstr "2026-09-25"), 0, []⟩, HashTable.empty) := by
    rw [picaReadPolicy_document (documentOf_parseOf _ _)]
    rfl
  cases hread.symm.trans hrun
  rcases hrc with hnegative | ⟨-, document, -, hwf, -⟩
  · exact absurd hnegative (by decide)
  · exact absurd hwf.version (by decide)

end PortableTlsRa
