import PortableTlsRa.Grant
import PortableTlsRa.PolicyWellFormed
import Mathlib.Data.Fintype.EquivFin

/-!
# What a policy means

Two readings of one file differ in what the memory of the statements held before.  They are to give policies of one
meaning: the same statements are found and the checks against a statement have the same results (`SameMeaning`), and
what a document leaves out is empty (`AbsentIsEmpty`).  The memory is not cleared, so that this is so where every
statement says all that is read, and nowhere else (`picaReadPolicy_meaning_iff`).
-/

namespace PortableTlsRa

open CSem Json

/-! ### Policies of one meaning -/

/-- The statements are found in the same place, or none is. -/
def SameFound (ppol₁ ppol₂ : PicaPolicy) (bin : Procinfo) : Option PicaStmt → Option PicaStmt → Prop
  | some pstmt₁, some pstmt₂ => ∃ j, SelectedAt ppol₁ bin j pstmt₁ ∧ SelectedAt ppol₂ bin j pstmt₂
  | none, none => True
  | _, _ => False

/-- The two functions that check a chain against a statement do not tell the statements apart. -/
def SameChecks (pstmt₁ pstmt₂ : PicaStmt) : Prop :=
  ∀ pinfo ent, picaCheckIchain pstmt₁ pinfo ent = picaCheckIchain pstmt₂ pinfo ent ∧
    picaCheckUids pstmt₁ pinfo ent = picaCheckUids pstmt₂ pinfo ent

structure SameMeaning (ppol₁ ppol₂ : PicaPolicy) : Prop where
  length : ppol₁.stmt.length = ppol₂.stmt.length
  found : ∀ bin, SameOutcome (SameFound ppol₁ ppol₂ bin) (picaFindPolicy ppol₁ bin) (picaFindPolicy ppol₂ bin)
  checks : ∀ (k : Nat) pstmt₁ pstmt₂, ppol₁.stmt[k]? = some pstmt₁ → ppol₂.stmt[k]? = some pstmt₂ →
    SameChecks pstmt₁ pstmt₂

/-- What the members of a statement leave out is empty in the statement. -/
structure AbsentIsEmpty (attributes : List (CString × Value)) (pstmt : PicaStmt) : Prop where
  uid : (principalMembers attributes).bind (lookup (cstr "Uid")) = none → pstmt.uidCnt = 0
  chain : lookup (cstr "InvocationChain") attributes = none → pstmt.aryCnt = 0
  action : lookup (cstr "Action") attributes = none → pstmt.actCnt = 0
  effect : lookup (cstr "Effect") attributes = none → pstmt.effect = Effect.none

/-- `AbsentIsEmpty` for the statements of a document, in their places. -/
def LeftOutIsEmpty (document : Value) (ppol : PicaPolicy) : Prop :=
  ∀ members items, document = .object members → lookup (cstr "Statement") members = some (.array items) →
    ∀ (k : Nat) attributes pstmt, items[k]? = some (.object attributes) → ppol.stmt[k]? = some pstmt →
      AbsentIsEmpty attributes pstmt

/-- Whatever the memory held, the file is read to the same code and a policy of the same meaning, in which what the
document leaves out is empty. -/
def MeaningOfDocument (murmurHash3 : Bytes → UInt32) (parse : Bytes → Option Value) (f : FileRead) : Prop :=
  ∀ stale₁ stale₂ table,
    SameOutcome (fun r₁ r₂ => r₁.1 = r₂.1 ∧ SameMeaning r₁.2.1 r₂.2.1 ∧
        ∀ document, documentOf parse f = some document → LeftOutIsEmpty document r₁.2.1)
      (picaReadPolicy murmurHash3 parse stale₁ table f PicaPolicy.zero)
      (picaReadPolicy murmurHash3 parse stale₂ table f PicaPolicy.zero)

/-! ### Documents that say all -/

/-- The statement has all members that are read when a chain is checked, of the types that are read, and says actions
and an effect of any type. -/
structure SaysAll (version : Option CString) (attributes : List (CString × Value)) : Prop where
  principal : ∃ principal ids, principalMembers attributes = some principal ∧
    (lookup (cstr "Binary") principal).isSome ∧ lookup (cstr "Uid") principal = some (.array ids)
  chain : (version = some picaPolicyV0 ∨ version = some picaPolicyV1) ∧
    ∃ chains, lookup (cstr "InvocationChain") attributes = some (.array chains)
  action : (lookup (cstr "Action") attributes).isSome
  effect : (lookup (cstr "Effect") attributes).isSome

/-- The members say no path that is no string. -/
def PathsAreStrings (members : List (CString × Value)) : Prop :=
  ∀ items, lookup (cstr "Statement") members = some (.array items) →
    ∀ attributes principal binary, .object attributes ∈ items → principalMembers attributes = some principal →
      lookup (cstr "Binary") principal = some binary → (stringCopy binary).isSome

/-- If the document can be read at all, every statement is an object that says all. -/
def DocumentSaysAll (document : Value) : Prop :=
  ∀ members items, document = .object members → DocumentParses members → PathsAreStrings members →
    lookup (cstr "Statement") members = some (.array items) →
      ∀ item ∈ items, ∃ attributes, item = .object attributes ∧ SaysAll (versionAtStatement members) attributes

/-! ### Finding a statement by the paths alone -/

section

variable {ppol ppol₁ ppol₂ : PicaPolicy} {bin : Procinfo}

/-- No statement is found where the path of every statement is another one. -/
theorem picaFindPolicy_eq_none_iff :
    picaFindPolicy ppol bin = .ok none ↔
      ∀ k < ppol.entries.toNat, ∃ stmt path otherPath, ppol.stmt[k]? = some stmt ∧ bin.path = some path ∧
        stmt.execPath = some otherPath ∧ otherPath ≠ path := by
  have hscan : picaFindPolicy ppol bin = .ok none ↔
      forEach (fun u i => readAt ppol.stmt i >>= comparePolicyPath bin u) () (List.range ppol.entries.toNat) =
        .ok (.next ()) := by
    rw [picaFindPolicy, bind_eq_ok]
    constructor
    · rintro ⟨turn, hturn, hret⟩
      cases turn with
      | next u => exact hturn
      | exit stmt => cases hret
    · intro hturn
      exact ⟨.next (), hturn, rfl⟩
  have hturn : ∀ stmt, comparePolicyPath bin () stmt = .ok (.next ()) ↔
      ∃ path otherPath, bin.path = some path ∧ stmt.execPath = some otherPath ∧ otherPath ≠ path := by
    intro stmt
    cases hbin : bin.path with
    | none =>
      constructor
      · intro h
        obtain ⟨same, hcmp, -⟩ := bind_eq_ok.1 h
        obtain ⟨s, t, -, ht, -⟩ := strcmpEq_eq_ok.1 hcmp
        rw [hbin] at ht
        cases ht
      · rintro ⟨path, otherPath, hpath, -⟩
        cases hpath
    | some path =>
      rw [comparePolicyPath_next_iff hbin]
      simp
  rw [hscan, scan_next_iff]
  simp only [List.mem_range, bind_eq_ok, readAt_eq_ok, hturn]
  constructor
  · intro h k hk
    obtain ⟨stmt, hstmt, path, otherPath, hne⟩ := h k hk
    exact ⟨stmt, path, otherPath, hstmt, hne⟩
  · intro h k hk
    obtain ⟨stmt, path, otherPath, hstmt, hne⟩ := h k hk
    exact ⟨stmt, hstmt, path, otherPath, hne⟩

/-- The policies have the same paths in the same places. -/
def SamePaths (ppol₁ ppol₂ : PicaPolicy) : Prop :=
  ppol₁.entries = ppol₂.entries ∧ ppol₁.stmt.map (·.execPath) = ppol₂.stmt.map (·.execPath)

theorem SamePaths.symm (h : SamePaths ppol₁ ppol₂) : SamePaths ppol₂ ppol₁ := ⟨h.1.symm, h.2.symm⟩

theorem SamePaths.at (h : SamePaths ppol₁ ppol₂) {k : Nat} {stmt₁ : PicaStmt} (hstmt : ppol₁.stmt[k]? = some stmt₁) :
    ∃ stmt₂, ppol₂.stmt[k]? = some stmt₂ ∧ stmt₂.execPath = stmt₁.execPath := by
  have hget : (ppol₁.stmt.map (·.execPath))[k]? = (ppol₂.stmt.map (·.execPath))[k]? := by rw [h.2]
  rw [List.getElem?_map, List.getElem?_map, hstmt] at hget
  exact Option.map_eq_some_iff.1 hget.symm

theorem SamePaths.selectedAt (h : SamePaths ppol₁ ppol₂) {j : Nat} {pstmt₁ : PicaStmt}
    (hselected : SelectedAt ppol₁ bin j pstmt₁) : ∃ pstmt₂, SelectedAt ppol₂ bin j pstmt₂ := by
  obtain ⟨hj, path, hbin, hstmt, hpath, hearlier⟩ := hselected
  obtain ⟨pstmt₂, hstmt₂, hpath₂⟩ := h.at hstmt
  refine ⟨pstmt₂, by rw [← h.1]; exact hj, path, hbin, hstmt₂, hpath₂.trans hpath, ?_⟩
  intro k hk
  obtain ⟨other, hother, otherPath, hotherPath, hne⟩ := hearlier k hk
  obtain ⟨other₂, hother₂, hotherPath₂⟩ := h.at hother
  exact ⟨other₂, hother₂, otherPath, hotherPath₂.trans hotherPath, hne⟩

theorem SamePaths.find_none (h : SamePaths ppol₁ ppol₂) (hnone : picaFindPolicy ppol₁ bin = .ok none) :
    picaFindPolicy ppol₂ bin = .ok none := by
  rw [picaFindPolicy_eq_none_iff] at hnone ⊢
  intro k hk
  obtain ⟨stmt, path, otherPath, hstmt, hbin, hpath, hne⟩ := hnone k (by rw [h.1]; exact hk)
  obtain ⟨stmt₂, hstmt₂, hpath₂⟩ := h.at hstmt
  exact ⟨stmt₂, path, otherPath, hstmt₂, hbin, hpath₂.trans hpath, hne⟩

/-- In policies with the same paths the same statements are found. -/
theorem SamePaths.sameFound (h : SamePaths ppol₁ ppol₂) (bin : Procinfo) :
    SameOutcome (SameFound ppol₁ ppol₂ bin) (picaFindPolicy ppol₁ bin) (picaFindPolicy ppol₂ bin) := by
  rcases hfind₁ : picaFindPolicy ppol₁ bin with e₁ | found₁
  · rcases hfind₂ : picaFindPolicy ppol₂ bin with e₂ | found₂
    · trivial
    · cases found₂ with
      | none => cases hfind₁.symm.trans (h.symm.find_none hfind₂)
      | some pstmt₂ =>
        obtain ⟨j, hselected₂⟩ := picaFindPolicy_eq_some_iff.1 hfind₂
        obtain ⟨pstmt₁, hselected₁⟩ := h.symm.selectedAt hselected₂
        cases hfind₁.symm.trans (picaFindPolicy_eq_some_iff.2 ⟨j, hselected₁⟩)
  · cases found₁ with
    | none =>
      rw [h.find_none hfind₁]
      trivial
    | some pstmt₁ =>
      obtain ⟨j, hselected₁⟩ := picaFindPolicy_eq_some_iff.1 hfind₁
      obtain ⟨pstmt₂, hselected₂⟩ := h.selectedAt hselected₁
      rw [picaFindPolicy_eq_some_iff.2 ⟨j, hselected₂⟩]
      exact ⟨j, hselected₁, hselected₂⟩

end

/-! ### The checks of a statement -/

theorem picaCheckIchain_congr {pstmt₁ pstmt₂ : PicaStmt} (hcount : pstmt₁.aryCnt = pstmt₂.aryCnt)
    (hchains : pstmt₁.iarray = pstmt₂.iarray) (pinfo : List Procinfo) (ent : Int) :
    picaCheckIchain pstmt₁ pinfo ent = picaCheckIchain pstmt₂ pinfo ent := by
  unfold picaCheckIchain
  rw [hcount, hchains]

theorem picaCheckUids_congr {pstmt₁ pstmt₂ : PicaStmt} (hcount : pstmt₁.uidCnt = pstmt₂.uidCnt)
    (huid : pstmt₁.uid = pstmt₂.uid) (pinfo : List Procinfo) (ent : Int) :
    picaCheckUids pstmt₁ pinfo ent = picaCheckUids pstmt₂ pinfo ent := by
  have hcheck : checkUid pstmt₁ = checkUid pstmt₂ := by
    funext p
    rw [checkUid, checkUid, hcount, huid]
  rw [picaCheckUids, picaCheckUids, hcheck]

/-- The checks tell a statement without alternatives from one whose alternative is missing. -/
theorem not_sameChecks_of_chains {pstmt₁ pstmt₂ : PicaStmt} (hnone : pstmt₁.aryCnt = 0) (hone : pstmt₂.aryCnt = 1)
    (hmissing : pstmt₂.iarray = []) : ¬ SameChecks pstmt₁ pstmt₂ := by
  intro hsame
  have hchain := (hsame [] 0).1
  simp only [picaCheckIchain, hnone, hone, hmissing] at hchain
  cases hchain

/-- The checks tell a statement without identifiers from one that lists root. -/
theorem not_sameChecks_of_uids {pstmt₁ pstmt₂ : PicaStmt} (hnone : pstmt₁.uidCnt = 0) (hone : pstmt₂.uidCnt = 1)
    (hroot : pstmt₂.uid = [0]) : ¬ SameChecks pstmt₁ pstmt₂ := by
  intro hsame
  have huids := (hsame [processAt (cstr "/bin/ed")] 1).2
  have haccepts : picaCheckUids pstmt₂ [processAt (cstr "/bin/ed")] 1 = .ok VerifyFlag.picaUids := by
    rw [picaCheckUids_accepts_iff]
    intro i hi
    obtain rfl : i = 0 := by
      have hlt : i < 1 := hi
      omega
    refine ⟨_, rfl, ?_⟩
    rw [PicaStmt.uids, hone, hroot]
    exact List.mem_singleton.2 (by decide)
  rw [haccepts, picaCheckUids_accepts_iff] at huids
  obtain ⟨p, hp, hmem⟩ := huids 0 (by decide)
  rw [PicaStmt.uids, hnone] at hmem
  cases hmem

/-! ### What a statement says -/

section

variable {attributes : List (CString × Value)} {version : Option CString}

theorem saysAll_iff :
    SaysAll version attributes ↔
      (writtenExecPath attributes).isSome ∧ (writtenUid attributes).isSome ∧
        (writtenChain attributes version).isSome ∧ (lookup (cstr "Action") attributes).isSome ∧
        (lookup (cstr "Effect") attributes).isSome := by
  have hprincipal : (∃ principal ids, principalMembers attributes = some principal ∧
      (lookup (cstr "Binary") principal).isSome ∧ lookup (cstr "Uid") principal = some (.array ids)) ↔
        (writtenExecPath attributes).isSome ∧ (writtenUid attributes).isSome := by
    unfold writtenExecPath writtenUid
    cases principalMembers attributes with
    | none => simp
    | some principal =>
      cases huid : lookup (cstr "Uid") principal with
      | none => simp [huid]
      | some uid => cases uid <;> simp [huid, uidsOf]
  have hchain : ((version = some picaPolicyV0 ∨ version = some picaPolicyV1) ∧
      ∃ chains, lookup (cstr "InvocationChain") attributes = some (.array chains)) ↔
        (writtenChain attributes version).isSome := by
    unfold writtenChain
    cases lookup (cstr "InvocationChain") attributes with
    | none => simp
    | some attr =>
      cases attr with
      | array chains =>
        by_cases hv0 : version = some picaPolicyV0
        · simp [chainsOf, hv0]
        · by_cases hv1 : version = some picaPolicyV1 <;> simp [chainsOf, hv0, hv1, picaPolicyV1_ne_V0]
      | _ => simp [chainsOf]
  constructor
  · intro h
    obtain ⟨hpath, huid⟩ := hprincipal.1 h.principal
    exact ⟨hpath, huid, hchain.1 h.chain, h.action, h.effect⟩
  · rintro ⟨hpath, huid, hchains, haction, heffect⟩
    exact ⟨hprincipal.2 ⟨hpath, huid⟩, hchain.2 hchains, haction, heffect⟩

/-- Where a statement says all, the memory is not read. -/
theorem SaysAll.itemStmt_same (h : SaysAll version attributes) (stmt₁ stmt₂ : PicaStmt) :
    (itemStmt attributes version stmt₁).execPath = (itemStmt attributes version stmt₂).execPath ∧
      SameChecks (itemStmt attributes version stmt₁) (itemStmt attributes version stmt₂) := by
  obtain ⟨hpath, huid, hchain, -, -⟩ := saysAll_iff.1 h
  obtain ⟨path, hpath⟩ := Option.isSome_iff_exists.1 hpath
  obtain ⟨uids, huid⟩ := Option.isSome_iff_exists.1 huid
  obtain ⟨chains, hchain⟩ := Option.isSome_iff_exists.1 hchain
  refine ⟨?_, ?_⟩
  · simp only [itemStmt, hpath, Option.getD_some]
  · intro pinfo ent
    constructor
    · apply picaCheckIchain_congr <;> simp only [itemStmt, hchain, Option.map_some, Option.getD_some]
    · apply picaCheckUids_congr <;> simp only [itemStmt, huid, Option.map_some, Option.getD_some]

/-- Where a statement says all, nothing that could be empty is left out. -/
theorem SaysAll.absentIsEmpty (h : SaysAll version attributes) (pstmt : PicaStmt) :
    AbsentIsEmpty attributes pstmt := by
  obtain ⟨principal, ids, hprincipal, -, huid⟩ := h.principal
  obtain ⟨-, chains, hchain⟩ := h.chain
  constructor
  · intro hnone
    rw [hprincipal, Option.bind_some, huid] at hnone
    cases hnone
  · intro hnone
    rw [hchain] at hnone
    cases hnone
  · intro hnone
    have haction := h.action
    rw [hnone] at haction
    cases haction
  · intro hnone
    have heffect := h.effect
    rw [hnone] at heffect
    cases heffect

end

/-! ### Reading the document -/

section

variable {members : List (CString × Value)} {items : List Value}

/-- The paths that the statements say. -/
def writtenPaths (items : List Value) : List CString :=
  items.filterMap fun item =>
    match item with
    | .object attributes => (writtenExecPath attributes).getD none
    | _ => none

/-- The path of a statement is one that the document says or the one of the memory. -/
theorem itemStatement_execPath (version : Option CString) (hpaths : PathsAreStrings members)
    (hstatement : lookup (cstr "Statement") members = some (.array items)) {item : Value} (hitem : item ∈ items)
    (stmt : PicaStmt) {held : CString} (hheld : stmt.execPath = some held) :
    ∃ path, (itemStatement version item stmt).execPath = some path ∧ (path = held ∨ path ∈ writtenPaths items) := by
  cases item with
  | object attributes =>
    have hexec : (itemStatement version (.object attributes) stmt).execPath =
        (writtenExecPath attributes).getD (some held) := by
      rw [← hheld]
      rfl
    rw [hexec]
    cases hwritten : writtenExecPath attributes with
    | none => exact ⟨held, rfl, .inl rfl⟩
    | some written =>
      obtain ⟨principal, hprincipal, hbinary⟩ := Option.bind_eq_some_iff.1 hwritten
      obtain ⟨binary, hlookup, hparse⟩ := Option.map_eq_some_iff.1 hbinary
      have hstring := hpaths items hstatement attributes principal binary hitem hprincipal hlookup
      obtain ⟨path, hpath⟩ := Option.isSome_iff_exists.1 hstring
      have hpath' : written = some path := by
        rw [← hparse]
        exact hpath
      refine ⟨path, hpath', .inr ?_⟩
      rw [writtenPaths, List.mem_filterMap]
      exact ⟨.object attributes, hitem, by simp [hwritten, hpath']⟩
  | _ => exact ⟨held, hheld, .inl rfl⟩

theorem exists_fresh (paths : List CString) : ∃ path, path ∉ paths := by
  have hslashes : ∀ n, (0 : UInt8) ∉ List.replicate n (0x2f : UInt8) := by
    intro n hmem
    exact absurd (List.eq_of_mem_replicate hmem) (by decide)
  have hinfinite : Infinite CString := by
    apply Infinite.of_injective fun n : Nat => (⟨List.replicate n 0x2f, hslashes n⟩ : CString)
    intro m n heq
    simpa using congrArg (fun path : CString => path.1.length) heq
  obtain ⟨path, hpath⟩ := Infinite.exists_notMem_finset paths.toFinset
  exact ⟨path, by simpa using hpath⟩

end

variable {murmurHash3 : Bytes → UInt32} {parse : Bytes → Option Value} {f : FileRead}

/-- A path that is no string is not registered. -/
theorem pathsAreStrings_of_registered {members : List (CString × Value)} {stale : Nat → PicaStmt}
    (hregistered : ∀ path ∈ (policyOf members stale).stmt.map (·.execPath), path.isSome) : PathsAreStrings members := by
  intro items hstatement attributes principal binary hitem hprincipal hbinary
  obtain ⟨k, hk, hget⟩ := List.mem_iff_getElem.1 hitem
  have hplace := policyOf_getElem? hstatement stale k
  rw [List.getElem?_eq_getElem hk, hget, Option.map_some] at hplace
  have hpath := hregistered _ (List.mem_map_of_mem (List.mem_of_getElem? hplace))
  simpa [itemStatement, itemStmt, writtenExecPath, hprincipal, hbinary, parseBinary] using hpath

theorem length_policyOf {members : List (CString × Value)} {items : List Value}
    (hstatement : lookup (cstr "Statement") members = some (.array items)) (stale : Nat → PicaStmt) :
    (policyOf members stale).stmt.length = items.length := by
  rw [policyOf_array hstatement]
  simp [statementsOf]

/-- Where the statements have the same paths place by place the policies have. -/
theorem samePaths_of_places {members : List (CString × Value)} {items : List Value}
    (hstatement : lookup (cstr "Statement") members = some (.array items)) {stale₁ stale₂ : Nat → PicaStmt}
    (hplaces : ∀ (k : Nat) pstmt₁ pstmt₂, (policyOf members stale₁).stmt[k]? = some pstmt₁ →
      (policyOf members stale₂).stmt[k]? = some pstmt₂ → pstmt₁.execPath = pstmt₂.execPath) :
    SamePaths (policyOf members stale₁) (policyOf members stale₂) := by
  constructor
  · rw [policyOf_array hstatement, policyOf_array hstatement]
  · apply List.ext_getElem
    · rw [List.length_map, List.length_map, length_policyOf hstatement, length_policyOf hstatement]
    · intro k h₁ h₂
      rw [List.length_map] at h₁ h₂
      rw [List.getElem_map, List.getElem_map]
      exact hplaces k _ _ (List.getElem?_eq_getElem h₁) (List.getElem?_eq_getElem h₂)

/-- Where a document whose statements say all is read, it is read to the same meaning from other memory. -/
theorem policyOf_sameMeaning {members : List (CString × Value)} (hall : DocumentSaysAll (.object members))
    (hparses : DocumentParses members) {stale₁ : Nat → PicaStmt}
    (hregistered : ∀ path ∈ (policyOf members stale₁).stmt.map (·.execPath), path.isSome) (stale₂ : Nat → PicaStmt) :
    SamePaths (policyOf members stale₁) (policyOf members stale₂) ∧
      SameMeaning (policyOf members stale₁) (policyOf members stale₂) ∧
        LeftOutIsEmpty (.object members) (policyOf members stale₁) := by
  by_cases hstatement : ∃ items, lookup (cstr "Statement") members = some (.array items)
  · obtain ⟨items, hstatement⟩ := hstatement
    have hsays := hall members items rfl hparses (pathsAreStrings_of_registered hregistered) hstatement
    have hplaces : ∀ (k : Nat) pstmt₁ pstmt₂, (policyOf members stale₁).stmt[k]? = some pstmt₁ →
        (policyOf members stale₂).stmt[k]? = some pstmt₂ →
          pstmt₁.execPath = pstmt₂.execPath ∧ SameChecks pstmt₁ pstmt₂ := by
      intro k pstmt₁ pstmt₂ hpstmt₁ hpstmt₂
      rw [policyOf_getElem? hstatement] at hpstmt₁ hpstmt₂
      obtain ⟨item, hitem, rfl⟩ := Option.map_eq_some_iff.1 hpstmt₁
      rw [hitem, Option.map_some] at hpstmt₂
      cases hpstmt₂
      obtain ⟨attributes, rfl, hsaysAll⟩ := hsays item (List.mem_of_getElem? hitem)
      exact hsaysAll.itemStmt_same _ _
    have hlength : (policyOf members stale₁).stmt.length = (policyOf members stale₂).stmt.length := by
      rw [length_policyOf hstatement, length_policyOf hstatement]
    have hsame : SamePaths (policyOf members stale₁) (policyOf members stale₂) :=
      samePaths_of_places hstatement fun k _ _ h₁ h₂ => (hplaces k _ _ h₁ h₂).1
    refine ⟨hsame, ⟨hlength, hsame.sameFound, fun k _ _ h₁ h₂ => (hplaces k _ _ h₁ h₂).2⟩, ?_⟩
    intro members' items' hobject hstatement' k attributes pstmt hitem hpstmt
    cases hobject
    rw [hstatement] at hstatement'
    cases hstatement'
    obtain ⟨attributes', hattributes, hsaysAll⟩ := hsays _ (List.mem_of_getElem? hitem)
    cases hattributes
    exact hsaysAll.absentIsEmpty pstmt
  · -- no statements are made
    rw [policyOf_noArray hstatement, policyOf_noArray hstatement]
    have hsame : SamePaths ⟨versionIn members, 0, []⟩ ⟨versionIn members, 0, []⟩ := ⟨rfl, rfl⟩
    refine ⟨hsame, ⟨rfl, hsame.sameFound, ?_⟩, ?_⟩
    · intro k _ _ h₁ _
      cases h₁
    · intro members' items hobject hitems
      cases hobject
      exact absurd ⟨items, hitems⟩ hstatement

/-- A document whose statements say all has one meaning. -/
theorem meaning_of_saysAll {members : List (CString × Value)}
    (hdocument : documentOf parse f = some (.object members)) (hkeys : DistinctKeys members)
    (hall : DocumentSaysAll (.object members)) : MeaningOfDocument murmurHash3 parse f := by
  -- what is read from one memory is read from another
  have hread : ∀ stale₁ stale₂ table r₁,
      picaReadPolicy murmurHash3 parse stale₁ table f PicaPolicy.zero = .ok r₁ →
        ∃ r₂, picaReadPolicy murmurHash3 parse stale₂ table f PicaPolicy.zero = .ok r₂ ∧ r₁.1 = r₂.1 ∧
          SameMeaning r₁.2.1 r₂.2.1 ∧ LeftOutIsEmpty (.object members) r₁.2.1 := by
    intro stale₁ stale₂ table ⟨rc, ppol, table₁⟩ hread₁
    obtain ⟨rfl, hparses, rfl, htable₁⟩ := (picaReadPolicy_object_ok_iff hdocument hkeys).1 hread₁
    have hregistered := (registerPolicy_defined_iff murmurHash3 table).1 ⟨table₁, htable₁⟩
    obtain ⟨hpaths, hsame, hempty⟩ := policyOf_sameMeaning hall hparses hregistered stale₂
    rw [hpaths.2] at hregistered
    obtain ⟨table₂, htable₂⟩ := (registerPolicy_defined_iff murmurHash3 table).2 hregistered
    exact ⟨(0, policyOf members stale₂, table₂),
      (picaReadPolicy_object_ok_iff hdocument hkeys).2 ⟨rfl, hparses, rfl, htable₂⟩, rfl, hsame, hempty⟩
  intro stale₁ stale₂ table
  rcases hread₁ : picaReadPolicy murmurHash3 parse stale₁ table f PicaPolicy.zero with e₁ | r₁
  · rcases hread₂ : picaReadPolicy murmurHash3 parse stale₂ table f PicaPolicy.zero with e₂ | r₂
    · trivial
    · obtain ⟨r₁, hok, -⟩ := hread stale₂ stale₁ table r₂ hread₂
      cases hread₁.symm.trans hok
  · obtain ⟨r₂, hread₂, hcode, hsame, hempty⟩ := hread stale₁ stale₂ table r₁ hread₁
    rw [hread₂]
    refine ⟨hcode, hsame, ?_⟩
    intro document hsome
    rw [hdocument] at hsome
    cases hsome
    exact hempty

/-! ### Memory that tells what is not said -/

/-- A statement that memory may hold. -/
def heldStmt : PicaStmt := ⟨none, Effect.none, some (cstr "/bin/ed"), 0, [], 0, [], 0, []⟩

/-- From any two memories with a path in every statement the document is read to one meaning. -/
def ReadAlike (members : List (CString × Value)) : Prop :=
  ∀ stmt₁ stmt₂ : PicaStmt, stmt₁.execPath.isSome → stmt₂.execPath.isSome →
    SameMeaning (policyOf members fun _ => stmt₁) (policyOf members fun _ => stmt₂) ∧
      LeftOutIsEmpty (.object members) (policyOf members fun _ => stmt₁)

section

variable {members : List (CString × Value)} {items : List Value} {attributes : List (CString × Value)} {k : Nat}

/-- Memory with a path in every statement is read. -/
theorem picaReadPolicy_of_held (murmurHash3 : Bytes → UInt32)
    (hdocument : documentOf parse f = some (.object members)) (hkeys : DistinctKeys members)
    (hparses : DocumentParses members) (hpaths : PathsAreStrings members)
    (hstatement : lookup (cstr "Statement") members = some (.array items)) {stmt : PicaStmt}
    (hheld : stmt.execPath.isSome) :
    ∃ table', picaReadPolicy murmurHash3 parse (fun _ => stmt) HashTable.empty f PicaPolicy.zero =
      .ok (0, policyOf members fun _ => stmt, table') := by
  obtain ⟨held, hheld⟩ := Option.isSome_iff_exists.1 hheld
  have hregistered : ∀ pstmt ∈ (policyOf members fun _ => stmt).stmt, pstmt.execPath.isSome := by
    intro pstmt hmem
    obtain ⟨k', hk', rfl⟩ := List.mem_iff_getElem.1 hmem
    have hget' := policyOf_getElem? hstatement (fun _ => stmt) k'
    rw [List.getElem?_eq_getElem hk'] at hget'
    obtain ⟨item', hitem', hpstmt⟩ := Option.map_eq_some_iff.1 hget'.symm
    obtain ⟨path, hpath, -⟩ := itemStatement_execPath (versionAtStatement members) hpaths hstatement
      (List.mem_of_getElem? hitem') stmt hheld
    rw [← hpstmt, hpath]
    rfl
  obtain ⟨table', htable'⟩ := (registerPolicy_defined_iff murmurHash3 HashTable.empty).2
    (List.forall_mem_map.2 hregistered)
  exact ⟨table', (picaReadPolicy_object_ok_iff hdocument hkeys).2 ⟨rfl, hparses, rfl, htable'⟩⟩

theorem readAlike_of_meaning (hdocument : documentOf parse f = some (.object members)) (hkeys : DistinctKeys members)
    (hmeaning : MeaningOfDocument murmurHash3 parse f) (hparses : DocumentParses members)
    (hpaths : PathsAreStrings members) (hstatement : lookup (cstr "Statement") members = some (.array items)) :
    ReadAlike members := by
  intro stmt₁ stmt₂ hheld₁ hheld₂
  obtain ⟨table₁, hread₁⟩ :=
    picaReadPolicy_of_held murmurHash3 hdocument hkeys hparses hpaths hstatement hheld₁
  obtain ⟨table₂, hread₂⟩ :=
    picaReadPolicy_of_held murmurHash3 hdocument hkeys hparses hpaths hstatement hheld₂
  have hboth := hmeaning (fun _ => stmt₁) (fun _ => stmt₂) HashTable.empty
  rw [hread₁, hread₂] at hboth
  exact ⟨hboth.2.1, hboth.2.2 _ hdocument⟩

/-- The statement of an item in its place. -/
theorem policyOf_place (hstatement : lookup (cstr "Statement") members = some (.array items)) {item : Value}
    (hitem : items[k]? = some item) (stmt : PicaStmt) :
    (policyOf members fun _ => stmt).stmt[k]? = some (itemStatement (versionAtStatement members) item stmt) := by
  rw [policyOf_getElem? hstatement, hitem]
  rfl

theorem ReadAlike.sameChecks (h : ReadAlike members)
    (hstatement : lookup (cstr "Statement") members = some (.array items)) {item : Value}
    (hitem : items[k]? = some item) (stmt₁ stmt₂ : PicaStmt) (hheld₁ : stmt₁.execPath.isSome)
    (hheld₂ : stmt₂.execPath.isSome) :
    SameChecks (itemStatement (versionAtStatement members) item stmt₁)
      (itemStatement (versionAtStatement members) item stmt₂) :=
  (h stmt₁ stmt₂ hheld₁ hheld₂).1.checks k _ _ (policyOf_place hstatement hitem stmt₁)
    (policyOf_place hstatement hitem stmt₂)

theorem ReadAlike.absentIsEmpty (h : ReadAlike members)
    (hstatement : lookup (cstr "Statement") members = some (.array items))
    (hitem : items[k]? = some (.object attributes)) (stmt : PicaStmt) (hheld : stmt.execPath.isSome) :
    AbsentIsEmpty attributes (itemStatement (versionAtStatement members) (.object attributes) stmt) :=
  (h stmt heldStmt hheld rfl).2 members items rfl hstatement k attributes _ hitem
    (policyOf_place hstatement hitem stmt)

/-- A process with a path that neither a statement nor the memory has is not found. -/
theorem picaFindPolicy_fresh (hpaths : PathsAreStrings members)
    (hstatement : lookup (cstr "Statement") members = some (.array items)) {held other : CString}
    (hheld : held ∉ writtenPaths items) (hne : held ≠ other) :
    picaFindPolicy (policyOf members fun _ => { heldStmt with execPath := some other }) (processAt held) =
      .ok none := by
  rw [picaFindPolicy_eq_none_iff]
  intro k' hk'
  rw [policyOf_array hstatement] at hk'
  have hitem' : items[k']? = some items[k'] := List.getElem?_eq_getElem hk'
  obtain ⟨path, hpath, hsource⟩ := itemStatement_execPath (versionAtStatement members) hpaths hstatement
    (List.mem_of_getElem? hitem') { heldStmt with execPath := some other } rfl
  refine ⟨_, held, path, policyOf_place hstatement hitem' _, rfl, hpath, ?_⟩
  rintro rfl
  rcases hsource with hother | hmem
  · exact hne hother
  · exact hheld hmem

/-- A path that no statement says tells the memory that holds it from other memory. -/
theorem ReadAlike.writtenExecPath_isSome (h : ReadAlike members) (hpaths : PathsAreStrings members)
    (hstatement : lookup (cstr "Statement") members = some (.array items))
    (hitem : items[k]? = some (.object attributes)) : (writtenExecPath attributes).isSome := by
  rw [Option.isSome_iff_ne_none]
  intro hwritten
  obtain ⟨held, hheld⟩ := exists_fresh (writtenPaths items)
  obtain ⟨other, hother⟩ := exists_fresh (held :: writtenPaths items)
  have hne : held ≠ other := by
    rintro rfl
    exact hother List.mem_cons_self
  have hfound := (h { heldStmt with execPath := some held } { heldStmt with execPath := some other }
    rfl rfl).1.found (processAt held)
  rw [picaFindPolicy_fresh hpaths hstatement hheld hne] at hfound
  rcases hfind : picaFindPolicy (policyOf members fun _ => { heldStmt with execPath := some held })
      (processAt held) with e | found
  · rw [hfind] at hfound
    exact hfound
  · cases found with
    | some pstmt =>
      rw [hfind] at hfound
      exact hfound
    | none =>
      rw [picaFindPolicy_eq_none_iff] at hfind
      obtain ⟨hk, -⟩ := List.getElem?_eq_some_iff.1 hitem
      have hentries : k < (policyOf members fun _ => { heldStmt with execPath := some held }).entries.toNat := by
        rw [policyOf_array hstatement]
        exact hk
      obtain ⟨pstmt, path, otherPath, hpstmt, hpath, hexec, hdiffers⟩ := hfind k hentries
      rw [policyOf_place hstatement hitem] at hpstmt
      cases hpstmt
      cases hpath
      simp only [itemStatement, itemStmt, hwritten, Option.getD_none, Option.some.injEq] at hexec
      exact hdiffers hexec.symm

end

/-- The statements of a document that has one meaning say all. -/
theorem saysAll_of_meaning {members : List (CString × Value)}
    (hdocument : documentOf parse f = some (.object members)) (hkeys : DistinctKeys members)
    (hmeaning : MeaningOfDocument murmurHash3 parse f) : DocumentSaysAll (.object members) := by
  intro members' items hobject hparses hpaths hstatement item hmem
  cases hobject
  obtain ⟨k, hitem⟩ := List.mem_iff_getElem?.1 hmem
  have halike : ReadAlike members := readAlike_of_meaning hdocument hkeys hmeaning hparses hpaths hstatement
  -- what the memory holds in place of a member that is missing is told by a check
  have hchain := halike.sameChecks hstatement hitem heldStmt { heldStmt with aryCnt := 1 } rfl rfl
  cases item with
  | object attributes =>
    refine ⟨attributes, rfl, saysAll_iff.2 ⟨halike.writtenExecPath_isSome hpaths hstatement hitem, ?_, ?_, ?_, ?_⟩⟩
    · rw [Option.isSome_iff_ne_none]
      intro hwritten
      have huids := halike.sameChecks hstatement hitem heldStmt { heldStmt with uidCnt := 1, uid := [0] } rfl rfl
      refine not_sameChecks_of_uids ?_ ?_ ?_ huids
      · simp [itemStatement, itemStmt, hwritten, heldStmt]
      · simp [itemStatement, itemStmt, hwritten]
      · simp [itemStatement, itemStmt, hwritten]
    · rw [Option.isSome_iff_ne_none]
      intro hwritten
      refine not_sameChecks_of_chains ?_ ?_ ?_ hchain
      · simp [itemStatement, itemStmt, hwritten, heldStmt]
      · simp [itemStatement, itemStmt, hwritten]
      · simp [itemStatement, itemStmt, hwritten, heldStmt]
    · rw [Option.isSome_iff_ne_none]
      intro habsent
      have hcount := (halike.absentIsEmpty hstatement hitem { heldStmt with actCnt := 1 } rfl).action habsent
      simp [itemStatement, itemStmt, writtenAction, habsent] at hcount
    · rw [Option.isSome_iff_ne_none]
      intro habsent
      have heffect :=
        (halike.absentIsEmpty hstatement hitem { heldStmt with effect := Effect.allow } rfl).effect habsent
      simp [itemStatement, itemStmt, writtenEffect, habsent, Effect.allow, Effect.none] at heffect
  | _ => exact absurd hchain (not_sameChecks_of_chains rfl rfl rfl)

/-- A file has one meaning, in which what is left out is empty, where it holds no document that can be read or one
whose statements say all that is read. -/
theorem picaReadPolicy_meaning_iff
    (hjson : ∀ data members, parse data = some (.object members) → DistinctKeys members) :
    MeaningOfDocument murmurHash3 parse f ↔
      ∀ document, documentOf parse f = some document → DocumentSaysAll document := by
  cases hdocument : documentOf parse f with
  | none =>
    constructor
    · intro _ document hsome
      cases hsome
    · intro _ stale₁ stale₂ table
      rw [picaReadPolicy_unread hdocument, picaReadPolicy_unread hdocument]
      have hsame : SamePaths PicaPolicy.zero PicaPolicy.zero := ⟨rfl, rfl⟩
      refine ⟨rfl, ⟨rfl, hsame.sameFound, ?_⟩, ?_⟩
      · intro k _ _ h₁ _
        cases h₁
      · intro document hsome
        rw [hdocument] at hsome
        cases hsome
  | some document =>
    simp only [Option.some.injEq, forall_eq']
    cases document with
    | object members =>
      obtain ⟨data, hparsed⟩ := documentOf_parse hdocument
      have hkeys : DistinctKeys members := hjson data members hparsed
      exact ⟨saysAll_of_meaning hdocument hkeys, meaning_of_saysAll hdocument hkeys⟩
    | _ =>
      constructor
      · intro _ members items hobject
        cases hobject
      · intro _ stale₁ stale₂ table
        rw [picaReadPolicy_document hdocument, picaReadPolicy_document hdocument]
        trivial

/-! ### A document that says all and one that does not -/

def completeText : Bytes :=
  lit ("\x7b\"Version\": \"PICA-2026-09-15\", \"Statement\": [\x7b\"Effect\": \"Allow\", " ++
    "\"Principal\": \x7b\"Binary\": \"/bin/ed\", \"Uid\": [1000]\x7d, \"Action\": [], " ++
    "\"InvocationChain\": [\"/bin/sh\", \"/bin/ed\"]\x7d]\x7d")

def completeMembers : List (CString × Value) :=
  [(cstr "Version", .string (lit "PICA-2026-09-15")), (cstr "Statement", .array [.object [
    (cstr "Effect", .string (lit "Allow")),
    (cstr "Principal", .object [(cstr "Binary", .string (lit "/bin/ed")), (cstr "Uid", .array [.int 1000])]),
    (cstr "Action", .array []),
    (cstr "InvocationChain", .array [.string (lit "/bin/sh"), .string (lit "/bin/ed")])]])]

/-- The policy of the editor means the same whatever the memory held. -/
theorem picaReadPolicy_meaning_editor :
    MeaningOfDocument (fun _ => 0) (parseOf completeText (.object completeMembers)) (wholeFile completeText) := by
  refine (picaReadPolicy_meaning_iff (parseOf_distinctKeys ?_)).2 ?_
  · intro members hmembers
    cases hmembers
    unfold DistinctKeys
    decide
  · intro document hdocument
    rw [documentOf_parseOf] at hdocument
    cases hdocument
    intro members items hobject _ _ hstatement item hitem
    cases hobject
    cases hstatement
    obtain rfl := List.mem_singleton.1 hitem
    exact ⟨_, rfl, ⟨_, _, rfl, rfl, rfl⟩, ⟨.inl rfl, _, rfl⟩, rfl, rfl⟩

def unsaidText : Bytes :=
  lit ("\x7b\"Version\": \"PICA-2026-09-25\", \"Statement\": [\x7b\"Effect\": \"Deny\", " ++
    "\"Principal\": \x7b\"Binary\": \"/bin/ed\"\x7d, \"Action\": [], \"InvocationChain\": []\x7d]\x7d")

def unsaidAttributes : List (CString × Value) :=
  [(cstr "Effect", .string (lit "Deny")), (cstr "Principal", .object [(cstr "Binary", .string (lit "/bin/ed"))]),
    (cstr "Action", .array []), (cstr "InvocationChain", .array [])]

def unsaidMembers : List (CString × Value) :=
  [(cstr "Version", .string (lit "PICA-2026-09-25")), (cstr "Statement", .array [.object unsaidAttributes])]

theorem unsaidMembers_distinct : DistinctKeys unsaidMembers := by
  unfold DistinctKeys
  decide

theorem unsaidMembers_strict : StrictDocument (.object unsaidMembers) := by
  refine ⟨unsaidMembers, _, rfl, .inr rfl, rfl, by decide, ?_⟩
  intro item hitem
  obtain rfl := List.mem_singleton.1 hitem
  exact ⟨_, rfl, {
    effect := ⟨_, rfl, .inr rfl⟩
    resource := fun attr hattr => by cases hattr
    binary := ⟨_, _, rfl, rfl, rfl⟩
    uid := fun v hv => by cases hv
    action := ⟨_, rfl, @stringArray_strings [] (by decide)⟩
    chain := ⟨_, rfl, .inr ⟨rfl, [], rfl, by decide, fun item hitem => by cases hitem⟩⟩ }⟩

/-- A statement that says no user identifiers lists those that the memory held. -/
theorem picaReadPolicy_meaning_unsaid :
    ¬ ∃ murmurHash3,
      MeaningOfDocument murmurHash3 (parseOf unsaidText (.object unsaidMembers)) (wholeFile unsaidText) := by
  intro ⟨murmurHash3, hmeaning⟩
  have hsays : DocumentSaysAll (.object unsaidMembers) :=
    saysAll_of_meaning (documentOf_parseOf unsaidText _) unsaidMembers_distinct @hmeaning
  have hparses := ((strictDocument_iff.1 unsaidMembers_strict).2 fun _ => default).1
  have hpaths : PathsAreStrings unsaidMembers := by
    intro items hstatement attributes principal binary hitem hprincipal hbinary
    cases hstatement
    cases List.mem_singleton.1 hitem
    cases hprincipal
    cases hbinary
    rfl
  have hstatement : lookup (cstr "Statement") unsaidMembers = some (.array [.object unsaidAttributes]) := rfl
  obtain ⟨attributes, hattributes, hall⟩ := hsays unsaidMembers _ rfl hparses hpaths hstatement
    (.object unsaidAttributes) (List.mem_singleton.2 rfl)
  cases hattributes
  obtain ⟨principal, ids, hprincipal, -, huid⟩ := hall.principal
  cases hprincipal
  cases huid

end PortableTlsRa
