import PortableTlsRa.PolicyDocument
import PortableTlsRa.RegistryRuns

/-!
# The language of policies

A policy as its author means it: a list of rules, each for one program, with the users and the chains of programs that
it is for (`Rule`).  Its document (`rulesDocument`) is read to statements, and on these the client decides.  What comes
out is the meaning of the language (`rules_decide_iff`): the first rule for the program that asks decides, alone; it
lets a chain through whose users are all listed and whose programs are a beginning of its first chain, be it meant to
allow or to deny; and its other chains and its actions say nothing.
-/

namespace PortableTlsRa

open CSem Json

/-- What an author says about a program. -/
structure Rule where
  sid : CString
  allow : Bool
  binary : CString
  users : List Int32
  actions : List CString
  chains : List (List CString)
  users_lt : users.length < 2 ^ 31

/-! ### Its document -/

def stringValue (s : CString) : Value := .string s.1

def Rule.principal (r : Rule) : Value :=
  .object [(cstr "Binary", stringValue r.binary), (cstr "Uid", .array (r.users.map fun uid => .int uid.toInt))]

/-- A statement of the document. -/
def Rule.members (r : Rule) : List (CString × Value) :=
  [(cstr "Sid", stringValue r.sid),
    (cstr "Effect", stringValue (cstr (if r.allow then "Allow" else "Deny"))),
    (cstr "Resource", stringValue (cstr "enclave")),
    (cstr "Principal", r.principal),
    (cstr "Action", .array (r.actions.map stringValue)),
    (cstr "InvocationChain", .array (r.chains.map fun chain => .array (chain.map stringValue)))]

def rulesMembers (rules : List Rule) : List (CString × Value) :=
  [(cstr "Version", stringValue picaPolicyV1), (cstr "Statement", .array (rules.map fun r => .object r.members))]

/-- The document of a policy. -/
def rulesDocument (rules : List Rule) : Value := .object (rulesMembers rules)

/-! ### What is meant -/

/-- The rule is for the users of the chain, and its first chain, if it has one, begins with the programs. -/
def Rule.Permits (r : Rule) (chain : List Procinfo) : Prop :=
  (∀ p ∈ chain, toInt32 p.ruid.toNat ∈ r.users.map Int32.toInt) ∧
    ∀ first, r.chains.head? = some first → chain.map (·.path) <+: first.map some

/-- The first rule for the program that asks, which comes last, permits the chain. -/
def RulesPermit (rules : List Rule) (chain : List Procinfo) : Prop :=
  ∃ requester r, chain.getLast? = some requester ∧ rules.find? (fun r => some r.binary = requester.path) = some r ∧
    r.Permits chain

/-! ### What is read -/

/-- The statement that is made of a rule. -/
def Rule.stmt (r : Rule) : PicaStmt where
  sid := some r.sid
  effect := if r.allow then Effect.allow else Effect.deny
  execPath := some r.binary
  uidCnt := r.users.length
  uid := r.users.map Int32.toInt
  actCnt := r.actions.length
  action := r.actions.map some
  aryCnt := r.chains.length
  iarray := r.chains.map fun chain => ⟨chain.length, chain.map some⟩

/-- The policy that is made of the document. -/
def rulesPolicy (rules : List Rule) : PicaPolicy := ⟨some picaPolicyV1, rules.length, rules.map Rule.stmt⟩

variable {rules : List Rule} {r : Rule} {chain : List Procinfo}

@[simp] theorem stringCopy_stringValue (s : CString) : stringCopy (stringValue s) = some s := by
  rw [stringValue, stringCopy, untilNul_self]

theorem map_stringCopy (l : List CString) : (l.map stringValue).map stringCopy = l.map some := by
  simp [Function.comp_def]

/-- The ids are those of an `int`. -/
theorem getInt_uid (uid : Int32) : getInt (.int uid.toInt) = uid.toInt := by
  have hlow := uid.le_toInt
  have hhigh := uid.toInt_lt
  rw [getInt, saturate]
  omega

theorem uidsOf_users (r : Rule) :
    uidsOf (.array (r.users.map fun uid => .int uid.toInt)) =
      some ((r.users.length : Int), r.users.map Int32.toInt) := by
  have hcount : toInt32 r.users.length = r.users.length := toInt32_of_lt r.users_lt
  have htake : ((r.users.map fun uid => Value.int uid.toInt).take r.users.length).map getInt =
      r.users.map Int32.toInt := by
    rw [← List.map_take, List.take_length, List.map_map]
    exact List.map_congr_left fun uid _ => getInt_uid uid
  rw [uidsOf, List.length_map, hcount, Int.toNat_natCast, htake]

theorem chainsOf_chains (r : Rule) :
    chainsOf (some picaPolicyV1) (.array (r.chains.map fun chain => .array (chain.map stringValue))) =
      some ((r.chains.length : Int), r.chains.map fun chain => ⟨chain.length, chain.map some⟩) := by
  have halternative : ∀ chain : List CString,
      alternativeOf (.array (chain.map stringValue)) = ⟨chain.length, chain.map some⟩ := by
    intro chain
    rw [alternativeOf, List.length_map, map_stringCopy]
  rw [chainsOf_V1, List.length_map, List.map_map]
  simp only [Function.comp_def, halternative]

/-- Whatever the memory held, every part of the statement is written. -/
theorem itemStmt_members (r : Rule) (stmt : PicaStmt) : itemStmt r.members (some picaPolicyV1) stmt = r.stmt := by
  have hsid : writtenSid r.members = some (some r.sid) := congrArg some (stringCopy_stringValue r.sid)
  have heffect : writtenEffect r.members = some (if r.allow then Effect.allow else Effect.deny) := by
    have hlookup : writtenEffect r.members =
        some (parseEffect (stringValue (cstr (if r.allow then "Allow" else "Deny")))) := rfl
    rw [hlookup, parseEffect, stringCopy_stringValue]
    cases r.allow <;> rfl
  have hpath : writtenExecPath r.members = some (some r.binary) := congrArg some (stringCopy_stringValue r.binary)
  have huid : writtenUid r.members = some ((r.users.length : Int), r.users.map Int32.toInt) := uidsOf_users r
  have haction : writtenAction r.members = some ((r.actions.length : Int), r.actions.map some) := by
    have hlookup : writtenAction r.members = actionsOf (.array (r.actions.map stringValue)) := rfl
    rw [hlookup, actionsOf, List.length_map, map_stringCopy]
  have hchain : writtenChain r.members (some picaPolicyV1) =
      some ((r.chains.length : Int), r.chains.map fun chain => ⟨chain.length, chain.map some⟩) := chainsOf_chains r
  rw [itemStmt, hsid, heffect, hpath, huid, haction, hchain]
  rfl

theorem policyOf_rules (rules : List Rule) (stale : Nat → PicaStmt) :
    policyOf (rulesMembers rules) stale = rulesPolicy rules := by
  have hversion : versionAtStatement (rulesMembers rules) = some picaPolicyV1 := rfl
  have hstatement : lookup (cstr "Statement") (rulesMembers rules) =
      some (.array (rules.map fun r => .object r.members)) := rfl
  have hstmts : statementsOf (some picaPolicyV1) stale 0 (rules.map fun r => .object r.members) =
      rules.map Rule.stmt := by
    apply List.ext_getElem?
    intro k
    rw [statementsOf_getElem?, List.getElem?_map, List.getElem?_map]
    cases rules[k]? with
    | none => rfl
    | some r => exact congrArg some (itemStmt_members r _)
  rw [policyOf_array hstatement, hversion, hstmts, List.length_map]
  rfl

/-! ### What is decided -/

/-- The statement that is selected is that of the first rule for the program. -/
theorem selected_rules_iff {requester : Procinfo} {pstmt : PicaStmt} :
    Selected (rulesPolicy rules) requester pstmt ↔
      ∃ r, rules.find? (fun r => some r.binary = requester.path) = some r ∧ pstmt = r.stmt := by
  have hcount : (rulesPolicy rules).entries.toNat = rules.length := Int.toNat_natCast _
  constructor
  · rintro ⟨j, hj, path, hpath, hstmt, hexec, hbefore⟩
    rw [hcount] at hj
    have hget : (rules.map Rule.stmt)[j]? = some rules[j].stmt := by
      rw [List.getElem?_map, List.getElem?_eq_getElem hj]
      rfl
    cases hget.symm.trans hstmt
    refine ⟨rules[j], ?_, rfl⟩
    rw [List.find?_eq_some_iff_getElem]
    refine ⟨by rw [hpath]; exact decide_eq_true hexec, j, hj, rfl, fun k hk => ?_⟩
    obtain ⟨other, hother, otherPath, hotherPath, hne⟩ := hbefore k hk
    have hk' : k < rules.length := Nat.lt_trans hk hj
    have hgetk : (rules.map Rule.stmt)[k]? = some rules[k].stmt := by
      rw [List.getElem?_map, List.getElem?_eq_getElem hk']
      rfl
    cases hgetk.symm.trans hother
    cases hotherPath
    rw [hpath]
    simpa using hne
  · rintro ⟨r, hfind, rfl⟩
    rw [List.find?_eq_some_iff_getElem] at hfind
    obtain ⟨hr, j, hj, rfl, hbefore⟩ := hfind
    have hpath : some rules[j].binary = requester.path := of_decide_eq_true hr
    refine ⟨j, by rw [hcount]; exact hj, rules[j].binary, hpath.symm, ?_, rfl, fun k hk => ?_⟩
    · show (rules.map Rule.stmt)[j]? = some rules[j].stmt
      rw [List.getElem?_map, List.getElem?_eq_getElem hj]
      rfl
    · have hk' : k < rules.length := Nat.lt_trans hk hj
      refine ⟨rules[k].stmt, ?_, rules[k].binary, rfl, ?_⟩
      · show (rules.map Rule.stmt)[k]? = some rules[k].stmt
        rw [List.getElem?_map, List.getElem?_eq_getElem hk']
        rfl
      · have hne := hbefore k hk
        rw [← hpath] at hne
        simpa using hne

/-- The chain matches an alternative if that begins with its programs. -/
theorem chainMatches_iff_isPrefix {first : List CString} (hpaths : ∀ p ∈ chain, p.path.isSome) :
    ChainMatches chain chain.length ⟨first.length, first.map some⟩ ↔ chain.map (·.path) <+: first.map some := by
  rw [List.prefix_iff_getElem?, ChainMatches, Int.toNat_natCast]
  constructor
  · intro h i hi
    rw [List.length_map] at hi
    obtain ⟨p, path, hp, hpath, hlisted⟩ := h i hi
    rw [List.getElem?_eq_getElem hi, Option.some.injEq] at hp
    rw [List.getElem_map, hp, hpath]
    exact hlisted
  · intro h i hi
    obtain ⟨path, hpath⟩ := Option.isSome_iff_exists.1 (hpaths _ (List.getElem_mem hi))
    refine ⟨chain[i], path, List.getElem?_eq_getElem hi, hpath, ?_⟩
    have hlisted := h i (by rw [List.length_map]; exact hi)
    rw [List.getElem_map, hpath] at hlisted
    exact hlisted

theorem firstAlternative_rule_iff (hpaths : ∀ p ∈ chain, p.path.isSome) :
    FirstAlternativeMatches r.stmt chain chain.length ↔
      ∀ first, r.chains.head? = some first → chain.map (·.path) <+: first.map some := by
  have halternatives : r.stmt.iarray = r.chains.map fun chain => ⟨chain.length, chain.map some⟩ := rfl
  have hcount : r.stmt.aryCnt = r.chains.length := rfl
  rw [FirstAlternativeMatches, halternatives, hcount]
  cases r.chains with
  | nil => simp
  | cons first others =>
    have hpos : ¬ (((first :: others).length : Nat) : Int) ≤ 0 := by
      rw [List.length_cons]
      omega
    simp only [hpos, false_or, List.map_cons, List.getElem?_cons_zero, Option.some.injEq, exists_eq_left',
      List.head?_cons, forall_eq', chainMatches_iff_isPrefix hpaths]

theorem uids_rule (r : Rule) : r.stmt.uids = r.users.map Int32.toInt := by
  have hcount : r.stmt.uidCnt.toNat = (r.users.map Int32.toInt).length := by
    rw [List.length_map]
    exact Int.toNat_natCast _
  rw [PicaStmt.uids, hcount]
  exact List.take_length

theorem policyAllows_rules_iff (hpaths : ∀ p ∈ chain, p.path.isSome) :
    (∃ pstmt, PolicyAllows (rulesPolicy rules) chain pstmt) ↔ RulesPermit rules chain := by
  constructor
  · rintro ⟨pstmt, ⟨requester, hlast, hselected⟩, halternative, huids⟩
    obtain ⟨r, hfind, rfl⟩ := selected_rules_iff.1 hselected
    refine ⟨requester, r, hlast, hfind, ?_, (firstAlternative_rule_iff hpaths).1 halternative⟩
    rw [← uids_rule]
    exact uidsMatch_length_iff.1 huids
  · rintro ⟨requester, r, hlast, hfind, huids, hchains⟩
    refine ⟨r.stmt, ⟨requester, hlast, selected_rules_iff.2 ⟨r, hfind, rfl⟩⟩,
      (firstAlternative_rule_iff hpaths).2 hchains, uidsMatch_length_iff.2 ?_⟩
    rw [uids_rule]
    exact huids

/-! ### Requests -/

section

variable {PKey : Type} {sha256 : Bytes → ByteBuf 32} {env : PocEnv PKey} {ppol : PicaPolicy}

/-- The policy file is the document of the rules. -/
def SaysRules (env : PocEnv PKey) (rules : List Rule) : Prop :=
  ∃ size data, env.policyFile = .opened size data ∧ env.parse data.1 = some (rulesDocument rules)

/-- What is read of such a file is the policy of the rules. -/
theorem SaysRules.policy_eq (h : SaysRules env rules) (hread : PolicyRead env ppol) : ppol = rulesPolicy rules := by
  obtain ⟨size, data, hfile, hparse⟩ := h
  obtain ⟨size', data', document, hfile', -, hparse', hppol, -⟩ := hread
  cases hfile.symm.trans hfile'
  cases hparse.symm.trans hparse'
  have hkeys : DistinctKeys (rulesMembers rules) := by
    show [cstr "Version", cstr "Statement"].Nodup
    decide
  rw [((picaJsonParse_ok_iff hkeys).1 hppol).2, policyOf_rules]

/-- Against a configuration file with these entries a measured chain is granted exactly if its programs agree with them
and the rules permit it. -/
theorem rules_decide_iff (sha256 : Bytes → ByteBuf 32) (murmurHash3 : Bytes → UInt32) {env : PocEnv PKey}
    {ppol : PicaPolicy} {rules : List Rule} {chain entries : List Procinfo} {file : Option Bytes}
    (hrules : SaysRules env rules) (h : Measures sha256 env ppol chain) (hfile : Holds file (some ⟨entries, 0⟩)) :
    (∃ pstmt pinfo ent, pocMain sha256 murmurHash3 (env.onFile file) false = .ok (.granted pstmt pinfo ent)) ↔
      (∀ p ∈ chain, AgreesWithFirst entries p) ∧ RulesPermit rules chain := by
  have hpaths : ∀ p ∈ chain, p.path.isSome := fun p hp => (h.measured p hp).path
  rw [← policyAllows_rules_iff hpaths, ← hrules.policy_eq h.policy]
  simp only [run_request h hfile, Registry.Admits, Option.some.injEq, exists_eq_left', true_and]
  constructor
  · rintro ⟨pstmt, pinfo, ent, -, -, hagree, hallows⟩
    exact ⟨hagree, pstmt, hallows⟩
  · rintro ⟨hagree, pstmt, hallows⟩
    exact ⟨pstmt, chain, chain.length, rfl, rfl, hagree, hallows⟩

end

/-! ### A rule for the editor -/

/-- The editor, started by a shell, is meant to be denied. -/
def editorRule : Rule where
  sid := cstr "edit"
  allow := false
  binary := cstr "/bin/ed"
  users := [1000]
  actions := [cstr "open"]
  chains := [[cstr "/bin/sh", cstr "/bin/ed"]]
  users_lt := by decide

def ruleText : Bytes :=
  lit ("\x7b\"Version\": \"PICA-2026-09-25\", \"Statement\": [\x7b\"Sid\": \"edit\", \"Effect\": \"Deny\", " ++
    "\"Resource\": \"enclave\", \"Principal\": \x7b\"Binary\": \"/bin/ed\", \"Uid\": [1000]\x7d, " ++
    "\"Action\": [\"open\"], \"InvocationChain\": [[\"/bin/sh\", \"/bin/ed\"]]\x7d]\x7d")

/-- The editor asks where this is the text of the policy. -/
def editorUnderRule (text : Bytes) : PocEnv Unit :=
  { editorUse "Allow" with
    parse := fun document => if document = text then some (rulesDocument [editorRule]) else none
    policyFile := wholeFile text }

theorem editorUnderRule_rules (text : Bytes) : SaysRules (editorUnderRule text) [editorRule] := by
  have hparse : (editorUnderRule text).parse text = some (rulesDocument [editorRule]) := if_pos rfl
  exact ⟨_, _, rfl, hparse⟩

theorem editorUnderRule_measures (text : Bytes) :
    Measures Sha256.hash (editorUnderRule text) (rulesPolicy [editorRule]) editorChain := by
  refine measures_of_packs editorDaemon_packs plain_honest editorDaemon_madeBy editorChain_size_lt ?_ rfl rfl
  have hparse : (editorUnderRule text).parse text = some (rulesDocument [editorRule]) := if_pos rfl
  refine ⟨_, _, rulesDocument [editorRule], rfl, rfl, hparse, rfl, ?_⟩
  intro pstmt hpstmt
  rw [List.mem_singleton.1 hpstmt]
  rfl

/-- What decides for the editor. -/
theorem editorRule_decides :
    (∃ pstmt pinfo ent, pocMain Sha256.hash (fun _ => 0)
        ((editorUnderRule ruleText).onFile (some (confBytes (fun _ => ⟨0, 0, 0⟩) editorChain ++ []))) false =
          .ok (.granted pstmt pinfo ent)) ↔
      (∀ p ∈ editorChain, AgreesWithFirst editorChain p) ∧ RulesPermit [editorRule] editorChain :=
  rules_decide_iff Sha256.hash (fun _ => 0) (editorUnderRule_rules ruleText) (editorUnderRule_measures ruleText)
    (@Holds.file (fun _ => ⟨0, 0, 0⟩) ⟨editorChain, 0⟩ [] editorChain_fits rfl)

end PortableTlsRa
