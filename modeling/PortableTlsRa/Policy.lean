import PortableTlsRa.HashTable
import PortableTlsRa.Lib.Json
import PortableTlsRa.Platform

/-!
# Policies

`pica_read_policy` and the functions below it, from the JSON document to the statements, and `pica_find_policy`.  The
memory of the statements is not cleared when it is allocated, so that what a document does not say is what the memory
held (`stale`).  Nothing but `parse_effect` reads or writes the effect of a statement: a document with another effect
gives the same statements with another effect (`picaReadPolicy_withEffect`).
-/

namespace PortableTlsRa

open CSem Json

namespace Effect

def none : Int := 0
def allow : Int := 1
def deny : Int := 2

end Effect

structure PicaPolicy where
  version : Option CString
  entries : Int
  stmt : List PicaStmt
deriving DecidableEq

/-- `memset(&ppol, 0, sizeof(ppol))`. -/
def PicaPolicy.zero : PicaPolicy := ⟨none, 0, []⟩

/-! ### The attributes of a statement -/

def parseSid (obj : Value) : Option CString := stringCopy obj

def parseEffect (obj : Value) : Int :=
  match stringCopy obj with
  | none => Effect.none
  | some cp => if cp = cstr "Allow" then Effect.allow else if cp = cstr "Deny" then Effect.deny else Effect.none

def parseResource (obj : Value) : Option CString := stringCopy obj

def parseBinary (obj : Value) : Option CString := stringCopy obj

def parseUid (obj : Value) (stmt : PicaStmt) : PicaStmt :=
  match obj with
  | .array items =>
    let uidCnt := toInt32 items.length
    { stmt with uidCnt, uid := (items.take uidCnt.toNat).map getInt }
  | _ => stmt

def parsePrincipal (obj : Value) (stmt : PicaStmt) : PicaStmt :=
  match obj with
  | .object members =>
    let stmt := match lookup (cstr "Binary") members with
      | some attr => { stmt with execPath := parseBinary attr }
      | none => stmt
    match lookup (cstr "Uid") members with
    | some attr => parseUid attr stmt
    | none => stmt
  | _ => stmt

def parseAction (obj : Value) (stmt : PicaStmt) : Checked PicaStmt :=
  match obj with
  | .array items => do
    let actCnt ← arrayCount obj
    return { stmt with actCnt, action := items.map stringCopy }
  | _ => return stmt

/-- One alternative; a place that is no string is left a null pointer. -/
def parseAlternative (array : Value) : Checked InvArray := do
  let ichnCnt ← arrayCount array
  match array with
  | .array items => return ⟨ichnCnt, items.map stringCopy⟩
  | _ => return ⟨ichnCnt, []⟩

def parseInvchain (version : Option CString) (obj : Value) (stmt : PicaStmt) : Checked PicaStmt :=
  match obj with
  | .array items => do
    if ← strcmpEq version (some (cstr "PICA-2026-09-15")) then
      let alternative ← parseAlternative obj
      return { stmt with aryCnt := 1, iarray := [alternative] }
    else if ← strcmpEq version (some (cstr "PICA-2026-09-25")) then
      let aryCnt ← arrayCount obj
      let iarray ← items.mapM parseAlternative
      return { stmt with aryCnt, iarray }
    else return stmt
  | _ => return stmt

/-- `strcmp(cp, "enclave")` is made on what `parse_resource` gives; its result is only reported. -/
def checkResource (attr : Value) (stmt : PicaStmt) : Checked PicaStmt := do
  let _ ← strcmpEq (parseResource attr) (some (cstr "enclave"))
  return stmt

/-! ### The statements -/

/-- `if (json_object_object_get_ex(item, key, &attr))` with what is done then. -/
def onMember (members : List (CString × Value)) (key : CString) (f : Value → PicaStmt → Checked PicaStmt)
    (stmt : PicaStmt) : Checked PicaStmt :=
  match lookup key members with
  | some attr => f attr stmt
  | none => .ok stmt

/-- One turn of the loop of `json_statement`. -/
def parseStatement (version : Option CString) (item : Value) (stmt : PicaStmt) : Checked PicaStmt :=
  match item with
  | .object members => do
    let stmt ← onMember members (cstr "Sid") (fun attr stmt => .ok { stmt with sid := parseSid attr }) stmt
    let stmt ← onMember members (cstr "Effect") (fun attr stmt => .ok { stmt with effect := parseEffect attr }) stmt
    let stmt ← onMember members (cstr "Resource") checkResource stmt
    let stmt ← onMember members (cstr "Principal") (fun attr stmt => .ok (parsePrincipal attr stmt)) stmt
    let stmt ← onMember members (cstr "Action") parseAction stmt
    onMember members (cstr "InvocationChain") (parseInvchain version) stmt
  | _ => return stmt

/-- The loop of `json_statement`, from statement `i` on. -/
def parseStatements (version : Option CString) (stale : Nat → PicaStmt) (i : Nat) :
    List Value → Checked (List PicaStmt)
  | [] => .ok []
  | item :: items => do
    let stmt ← parseStatement version item (stale i)
    let others ← parseStatements version stale (i + 1) items
    return stmt :: others

def jsonStatement (stale : Nat → PicaStmt) (obj : Value) (pp : PicaPolicy) : Checked PicaPolicy :=
  match obj with
  | .array items => do
    let entries ← arrayCount obj
    let stmt ← parseStatements pp.version stale 0 items
    return { pp with entries, stmt }
  | _ => return pp

def jsonVersion (obj : Value) : Option CString := stringCopy obj

/-- One turn of the loop of `pica_json_parse`. -/
def parseMember (stale : Nat → PicaStmt) (pp : PicaPolicy) (member : CString × Value) : Checked PicaPolicy :=
  let (key, val) := member
  if key = cstr "Version" then return { pp with version := jsonVersion val }
  else if key = cstr "Statement" then jsonStatement stale val pp
  else return pp

def picaJsonParse (stale : Nat → PicaStmt) (obj : Value) (pp : PicaPolicy) : Checked PicaPolicy :=
  match obj with
  | .object members => members.foldlM (parseMember stale) pp
  | _ => .error .nullPointer

/-- Returns the code, the policy and the hash table.  `parse` is the tokener of json-c; it gives nothing for a document
that is none and for `null`. -/
def picaReadPolicy (murmurHash3 : Bytes → UInt32) (parse : Bytes → Option Value) (stale : Nat → PicaStmt)
    (table : HashTable) (f : FileRead) (ppol : PicaPolicy) : Checked (Int × PicaPolicy × HashTable) :=
  match f with
  | .absent => return (-1, ppol, table)
  | .unread _ _ => return (-1, ppol, table)
  | .opened size data =>
    if data.1.length ≠ size then return (-1, ppol, table)
    else
      match parse data.1 with
      | none => return (-1, ppol, table)
      | some jobj => do
        let ppol ← picaJsonParse stale jobj ppol
        let table ← registerAll murmurHash3 table (policyRegistrations ppol.stmt)
        return (0, ppol, table)

/-! ### Finding a statement -/

/-- One turn of the loop of `pica_find_policy`. -/
def comparePolicyPath (bin : Procinfo) (_ : Unit) (stmt : PicaStmt) : Checked (Turn Unit PicaStmt) := do
  if ← strcmpEq stmt.execPath bin.path then return .exit stmt
  return .next ()

def picaFindPolicy (ppol : PicaPolicy) (bin : Procinfo) : Checked (Option PicaStmt) := do
  match ← forEach (fun u i => readAt ppol.stmt i >>= comparePolicyPath bin u) () (List.range ppol.entries.toNat) with
  | .exit stmt => return some stmt
  | .next () => return none

/-- The statement in place `j` is the first one whose path is that of the process. -/
def SelectedAt (ppol : PicaPolicy) (bin : Procinfo) (j : Nat) (pstmt : PicaStmt) : Prop :=
  j < ppol.entries.toNat ∧ ∃ path, bin.path = some path ∧ ppol.stmt[j]? = some pstmt ∧ pstmt.execPath = some path ∧
    ∀ k < j, ∃ other, ppol.stmt[k]? = some other ∧ ∃ otherPath, other.execPath = some otherPath ∧ otherPath ≠ path

def Selected (ppol : PicaPolicy) (bin : Procinfo) (pstmt : PicaStmt) : Prop := ∃ j, SelectedAt ppol bin j pstmt

theorem comparePolicyPath_exit_iff {bin : Procinfo} {stmt pstmt : PicaStmt} :
    comparePolicyPath bin () stmt = .ok (.exit pstmt) ↔
      stmt = pstmt ∧ ∃ path, stmt.execPath = some path ∧ bin.path = some path := by
  rw [comparePolicyPath, bind_eq_ok]
  constructor
  · intro ⟨same, hcmp, hret⟩
    cases same
    · cases hret
    · cases hret
      exact ⟨rfl, strcmpEq_eq_true.1 hcmp⟩
  · intro ⟨heq, hpath⟩
    exact ⟨true, strcmpEq_eq_true.2 hpath, by rw [heq]; rfl⟩

theorem comparePolicyPath_next_iff {bin : Procinfo} {stmt : PicaStmt} {path : CString} (hbin : bin.path = some path) :
    comparePolicyPath bin () stmt = .ok (.next ()) ↔
      ∃ otherPath, stmt.execPath = some otherPath ∧ otherPath ≠ path := by
  rw [comparePolicyPath, bind_eq_ok]
  constructor
  · intro ⟨same, hcmp, hret⟩
    cases same
    · obtain ⟨s, t, hs, ht, hne⟩ := strcmpEq_eq_ok.1 hcmp
      rw [hbin] at ht
      cases ht
      exact ⟨s, hs, of_decide_eq_false hne⟩
    · cases hret
  · intro ⟨otherPath, hother, hne⟩
    exact ⟨false, strcmpEq_eq_ok.2 ⟨otherPath, path, hother, hbin, decide_eq_false hne⟩, rfl⟩

/-- `pica_find_policy` finds the first statement of the path. -/
theorem picaFindPolicy_eq_some_iff {ppol : PicaPolicy} {bin : Procinfo} {pstmt : PicaStmt} :
    picaFindPolicy ppol bin = .ok (some pstmt) ↔ Selected ppol bin pstmt := by
  have hfind : picaFindPolicy ppol bin = .ok (some pstmt) ↔
      forEach (fun u i => readAt ppol.stmt i >>= comparePolicyPath bin u) () (List.range ppol.entries.toNat) =
        .ok (.exit pstmt) := by
    rw [picaFindPolicy, bind_eq_ok]
    constructor
    · intro ⟨turn, hturn, hret⟩
      cases turn with
      | next u => cases hret
      | exit stmt =>
        cases hret
        exact hturn
    · intro hturn
      exact ⟨.exit pstmt, hturn, rfl⟩
  rw [hfind, scan_range_exit_iff]
  constructor
  · intro ⟨j, hj, hexit, hnext⟩
    obtain ⟨stmt, hstmt, hcmp⟩ := bind_eq_ok.1 hexit
    obtain ⟨heq, path, hpath, hbin⟩ := comparePolicyPath_exit_iff.1 hcmp
    subst heq
    refine ⟨j, hj, path, hbin, readAt_eq_ok.1 hstmt, hpath, ?_⟩
    intro k hk
    obtain ⟨other, hother, hcmpk⟩ := bind_eq_ok.1 (hnext k hk)
    exact ⟨other, readAt_eq_ok.1 hother, (comparePolicyPath_next_iff hbin).1 hcmpk⟩
  · intro ⟨j, hj, path, hbin, hstmt, hpath, hearlier⟩
    refine ⟨j, hj, ?_, ?_⟩
    · rw [readAt_eq_ok.2 hstmt, ok_bind]
      exact comparePolicyPath_exit_iff.2 ⟨rfl, path, hpath, hbin⟩
    · intro k hk
      obtain ⟨other, hother, hne⟩ := hearlier k hk
      rw [readAt_eq_ok.2 hother, ok_bind]
      exact (comparePolicyPath_next_iff hbin).2 hne

/-! ### A document with another effect -/

/-- What `json_statement` does after it has parsed the effect. -/
def parseAfterEffect (version : Option CString) (members : List (CString × Value)) (stmt : PicaStmt) :
    Checked PicaStmt :=
  onMember members (cstr "Resource") checkResource stmt >>= fun stmt =>
    onMember members (cstr "Principal") (fun attr stmt => .ok (parsePrincipal attr stmt)) stmt >>= fun stmt =>
      onMember members (cstr "Action") parseAction stmt >>=
        onMember members (cstr "InvocationChain") (parseInvchain version)

theorem parseStatement_object (version : Option CString) (members : List (CString × Value)) (stmt : PicaStmt) :
    parseStatement version (.object members) stmt =
      onMember members (cstr "Sid") (fun attr stmt => .ok { stmt with sid := parseSid attr }) stmt >>= fun stmt =>
        onMember members (cstr "Effect") (fun attr stmt => .ok { stmt with effect := parseEffect attr }) stmt >>=
          parseAfterEffect version members := rfl

end PortableTlsRa
