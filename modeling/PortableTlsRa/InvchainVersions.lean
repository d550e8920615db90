import PortableTlsRa.ConfFile
import PortableTlsRa.InvocationChain
import PortableTlsRa.PolicyDocument

/-!
# The two versions of an invocation chain

`parse_invchain` with its loops and its memory: the chain of the first version is parsed by one loop, the chains of
the second one by two, each with its own tests.  Both fill the array of an alternative in the same way
(`fillChain_eq`), so that the function is the one of the policies (`parseInvchain_ok_iff`) and a chain of the first
version is parsed as the one alternative of the second version (`parseInvchain_versions`).
-/

namespace PortableTlsRa

open CSem Json

namespace Invchain

/-! ### The loops -/

/-- `json_object_array_length`. -/
def arrayLength : Value → Checked Nat
  | .array items => .ok items.length
  | _ => .error .wrongType

/-- `json_object_array_get_idx`. -/
def arrayGetIdx : Value → Nat → Checked Value
  | .array items, i => .ok (items[i]?.getD .null)
  | _, _ => .error .wrongType

/-- The body of the loop over the strings of a chain; what is no string is left out with `continue`. -/
def storePath (ichain : List (Option CString)) (j : Nat) (item : Value) : Checked (List (Option CString)) :=
  match item with
  | .string _ => writeRange ichain j [stringCopy item]
  | _ => .ok ichain

/-- One turn of that loop, with the counter that is an `int`. -/
def copyPath (array : Value) (ichain : List (Option CString)) (j : Nat) :
    Checked (Turn (List (Option CString)) Empty) := do
  let item ← arrayGetIdx array j
  let ichain ← storePath ichain j item
  let _ ← addInt j 1
  return .next ichain

/-- One turn of the loop over the chains of the second version; `exit` is `return`. -/
def parseChain (obj : Value) (iarray : List InvArray) (i : Nat) : Checked (Turn (List InvArray) (List InvArray)) := do
  let array ← arrayGetIdx obj i
  let len ← arrayLength array
  let ichnCnt := toInt32 len
  let ichain ← mallocArray ichnCnt none
  let iarray ← writeRange iarray i [⟨ichnCnt, ichain⟩]
  match array with
  | .array _ =>
    match ← forEach (copyPath array) ichain (List.range len) with
    | .next ichain =>
      let iarray ← writeRange iarray i [⟨ichnCnt, ichain⟩]
      let _ ← addInt i 1
      return .next iarray
  | _ => return .exit iarray

/-- `stale` is what the allocated array of alternatives holds at first. -/
def parseInvchain (stale : Nat → InvArray) (version : Option CString) (obj : Value) (stmt : PicaStmt) :
    Checked PicaStmt :=
  match obj with
  | .array _ => do
    if ← strcmpEq version (some (cstr "PICA-2026-09-15")) then
      let len ← arrayLength obj
      let ichnCnt := toInt32 len
      let ichain ← mallocArray ichnCnt none
      match ← forEach (copyPath obj) ichain (List.range len) with
      | .next ichain => return { stmt with aryCnt := 1, iarray := [⟨ichnCnt, ichain⟩] }
    else if ← strcmpEq version (some (cstr "PICA-2026-09-25")) then
      let len ← arrayLength obj
      let aryCnt := toInt32 len
      match ← forEach (parseChain obj) ((List.range aryCnt.toNat).map stale) (List.range len) with
      | .next iarray => return { stmt with aryCnt, iarray }
      | .exit iarray => return { stmt with aryCnt, iarray }
    else return stmt
  | _ => return stmt

/-! ### The loop over the strings -/

/-- What both versions do with the array of one chain. -/
def fillChain (items : List Value) : Checked InvArray := do
  let ichain ← mallocArray (toInt32 items.length) none
  match ← forEach (copyPath (.array items)) ichain (List.range items.length) with
  | .next ichain => return ⟨toInt32 items.length, ichain⟩

theorem addInt_of_lt {i : Nat} (h : i + 1 < 2 ^ 31) : addInt i 1 = .ok (i + 1 : Int) := if_pos (by omega)

theorem addInt_of_ge {i : Nat} (h : 2 ^ 31 ≤ i + 1) : addInt i 1 = .error .signedOverflow := if_neg (by omega)

/-- A loop that counts its turns with an `int` ends only where that can count them. -/
theorem counted_lt {σ ρ : Type} {body : σ → Nat → Checked (Turn σ ρ)} {s t : σ} {n : Nat}
    (hcount : ∀ s i t, body s i = .ok (.next t) → i + 1 < 2 ^ 31)
    (h : forEach body s (List.range n) = .ok (.next t)) : n < 2 ^ 31 := by
  cases n with
  | zero => omega
  | succ n =>
    rw [List.range_succ, forEach_next_append_iff] at h
    obtain ⟨s', -, hlast⟩ := h
    obtain ⟨t', hturn, -⟩ := forEach_next_cons_iff.1 hlast
    exact hcount s' n t' hturn

theorem copyPath_counts {array : Value} {ichain ichain' : List (Option CString)} {j : Nat}
    (h : copyPath array ichain j = .ok (.next ichain')) : j + 1 < 2 ^ 31 := by
  by_contra hge
  obtain ⟨item, -, hrest⟩ := bind_eq_ok.1 h
  obtain ⟨filled, -, hrest⟩ := bind_eq_ok.1 hrest
  rw [addInt_of_ge (by omega)] at hrest
  cases hrest

/-- A turn puts a copy of a string in its place and leaves the null pointer for anything else. -/
theorem copyPath_fills {items : List Value} {pre post : List (Option CString)} {item : Value}
    (hitem : items[pre.length]? = some item) (hlt : pre.length + 1 < 2 ^ 31) :
    copyPath (.array items) (pre ++ none :: post) pre.length = .ok (.next (pre ++ stringCopy item :: post)) := by
  have hwrite := writeRange_append pre [none] [stringCopy item] post rfl
  rw [List.singleton_append, List.singleton_append] at hwrite
  have hget : arrayGetIdx (.array items) pre.length = .ok item := by
    rw [arrayGetIdx, hitem]
    rfl
  have hstore : storePath (pre ++ none :: post) pre.length item = .ok (pre ++ stringCopy item :: post) := by
    cases item with
    | string chars => exact hwrite
    | _ => rfl
  rw [copyPath, hget, ok_bind, hstore, ok_bind, addInt_of_lt hlt]
  rfl

/-- The array of a chain is filled with its strings, each in its place, unless an `int` cannot count them. -/
theorem fillChain_eq (items : List Value) (alternative : InvArray) :
    fillChain items = .ok alternative ↔ items.length < 2 ^ 31 ∧ alternative = ⟨items.length, items.map stringCopy⟩ := by
  by_cases hlt : items.length < 2 ^ 31
  · have hcells : mallocArray (toInt32 items.length) (none : Option CString) =
        .ok (List.replicate items.length none) := by
      rw [toInt32_of_lt hlt]
      exact mallocArray_of_lt none (by omega)
    have hloop : forEach (copyPath (.array items)) (List.replicate items.length none) (List.range items.length) =
        .ok (.next (items.map stringCopy)) := by
      rw [forEach_fill (f := fun item => .ok (stringCopy item)) List.length_replicate]
      · have hmap : items.mapM (fun item => (Except.ok (stringCopy item) : Checked (Option CString))) =
            .ok (items.map stringCopy) := by
          rw [mapM_eq_ok_iff, List.forall₂_map_right_iff]
          exact List.forall₂_same.2 fun _ _ => rfl
        rw [hmap]
        rfl
      · intro pre c post item hitem hc
        have hpre : pre.length < items.length := (List.getElem?_eq_some_iff.1 hitem).1
        rw [List.getElem?_replicate, if_pos hpre] at hc
        cases hc
        exact copyPath_fills hitem (by omega)
    rw [fillChain, hcells, ok_bind, hloop, ok_bind, toInt32_of_lt hlt]
    simp only [pure_eq_ok, Except.ok.injEq, hlt, true_and]
    exact eq_comm
  · constructor
    · intro h
      obtain ⟨ichain, -, hrest⟩ := bind_eq_ok.1 h
      obtain ⟨turn, hturn, -⟩ := bind_eq_ok.1 hrest
      cases turn with
      | next ichain' => exact absurd (counted_lt (fun _ _ _ => copyPath_counts) hturn) hlt
      | exit e => exact e.elim
    · intro ⟨hlt', _⟩
      exact absurd hlt' hlt

theorem fillChain_ok_iff {items : List Value} {alternative : InvArray} :
    fillChain items = .ok alternative ↔ parseAlternative (.array items) = .ok alternative := by
  rw [fillChain_eq, parseAlternative_eq_ok_iff]
  constructor
  · intro ⟨hlt, heq⟩
    exact ⟨⟨items, rfl, hlt⟩, heq⟩
  · intro ⟨⟨items', harray, hlt⟩, heq⟩
    cases harray
    exact ⟨hlt, heq⟩

/-! ### The two versions -/

theorem parseInvchain_V0 (stale : Nat → InvArray) (items : List Value) (stmt : PicaStmt) :
    parseInvchain stale (some (cstr "PICA-2026-09-15")) (.array items) stmt =
      fillChain items >>= fun alternative => .ok { stmt with aryCnt := 1, iarray := [alternative] } := by
  have hversion : strcmpEq (some (cstr "PICA-2026-09-15")) (some (cstr "PICA-2026-09-15")) = .ok true := by decide
  rw [parseInvchain, hversion, ok_bind, if_pos rfl, arrayLength, ok_bind, fillChain]
  dsimp only
  rcases mallocArray (toInt32 items.length) (none : Option CString) with e | ichain
  · rfl
  · rw [ok_bind, ok_bind]
    rcases forEach (copyPath (.array items)) ichain (List.range items.length) with e | ⟨ichain' | e⟩
    · rfl
    · rfl
    · exact e.elim

/-- The alternative of the second version that a value stands for. -/
def fillAlternative : Value → Checked InvArray
  | .array items => fillChain items
  | _ => .error .wrongType

/-- One turn of the loop over the chains puts the alternative in its place. -/
theorem parseChain_fills {chains : List Value} {pre post : List InvArray} {c : InvArray} {array : Value}
    (harray : chains[pre.length]? = some array) (hlt : pre.length + 1 < 2 ^ 31) :
    parseChain (.array chains) (pre ++ c :: post) pre.length =
      fillAlternative array >>= fun alternative => .ok (.next (pre ++ alternative :: post)) := by
  have hget : arrayGetIdx (.array chains) pre.length = .ok array := by
    rw [arrayGetIdx, harray]
    rfl
  have hwrite : ∀ old new : InvArray, writeRange (pre ++ old :: post) pre.length [new] = .ok (pre ++ new :: post) := by
    intro old new
    exact writeRange_append pre [old] [new] post rfl
  rw [parseChain, hget, ok_bind]
  cases array with
  | array items =>
    rw [arrayLength, ok_bind, fillAlternative, fillChain]
    dsimp only
    rcases mallocArray (toInt32 items.length) (none : Option CString) with e | ichain
    · rfl
    · rw [ok_bind, ok_bind, hwrite, ok_bind]
      rcases forEach (copyPath (.array items)) ichain (List.range items.length) with e | ⟨ichain' | e⟩
      · rfl
      · simp only [ok_bind, pure_eq_ok, hwrite, addInt_of_lt hlt]
      · exact e.elim
  | _ => rfl

/-- A turn counts on, and the loop is never left early: the length of what is no array cannot be asked for. -/
theorem parseChain_turn {obj : Value} {iarray : List InvArray} {i : Nat} {turn : Turn (List InvArray) (List InvArray)}
    (h : parseChain obj iarray i = .ok turn) : i + 1 < 2 ^ 31 ∧ ∃ iarray', turn = .next iarray' := by
  obtain ⟨array, -, hrest⟩ := bind_eq_ok.1 h
  obtain ⟨len, hlen, hrest⟩ := bind_eq_ok.1 hrest
  obtain ⟨ichain, -, hrest⟩ := bind_eq_ok.1 hrest
  obtain ⟨cells, -, hrest⟩ := bind_eq_ok.1 hrest
  cases array with
  | array items =>
    obtain ⟨filled, -, hrest⟩ := bind_eq_ok.1 hrest
    cases filled with
    | exit e => exact e.elim
    | next ichain' =>
      obtain ⟨cells', -, hrest⟩ := bind_eq_ok.1 hrest
      obtain ⟨next, hnext, hret⟩ := bind_eq_ok.1 hrest
      cases hret
      refine ⟨?_, _, rfl⟩
      by_contra hge
      rw [addInt_of_ge (by omega)] at hnext
      cases hnext
  | _ => cases hlen

/-- The loop over the chains gives all alternatives, unless an `int` cannot count them. -/
theorem parseChains_ok_iff (stale : Nat → InvArray) {chains : List Value}
    {turn : Turn (List InvArray) (List InvArray)} :
    forEach (parseChain (.array chains)) ((List.range (toInt32 chains.length).toNat).map stale)
        (List.range chains.length) = .ok turn ↔
      chains.length < 2 ^ 31 ∧ ∃ iarray, chains.mapM fillAlternative = .ok iarray ∧ turn = .next iarray := by
  by_cases hlt : chains.length < 2 ^ 31
  · have hloop : forEach (parseChain (.array chains)) ((List.range (toInt32 chains.length).toNat).map stale)
        (List.range chains.length) = chains.mapM fillAlternative >>= fun iarray => .ok (.next iarray) := by
      apply forEach_fill
      · rw [List.length_map, List.length_range, toInt32_of_lt hlt, Int.toNat_natCast]
      · intro pre c post array harray _
        have hpre : pre.length < chains.length := (List.getElem?_eq_some_iff.1 harray).1
        exact parseChain_fills harray (by omega)
    rw [hloop, bind_eq_ok]
    simp only [Except.ok.injEq, hlt, true_and]
    constructor
    · intro ⟨iarray, hmap, heq⟩
      exact ⟨iarray, hmap, heq.symm⟩
    · intro ⟨iarray, hmap, heq⟩
      exact ⟨iarray, hmap, heq.symm⟩
  · constructor
    · intro h
      cases turn with
      | next iarray => exact absurd (counted_lt (fun _ _ _ hturn => (parseChain_turn hturn).1) h) hlt
      | exit iarray =>
        obtain ⟨pre, i, post, t, -, -, hexit⟩ := forEach_exit_iff.1 h
        obtain ⟨-, iarray', hturn⟩ := parseChain_turn hexit
        cases hturn
    · intro ⟨hlt', _⟩
      exact absurd hlt' hlt

theorem parseInvchain_V1 (stale : Nat → InvArray) {chains : List Value} {stmt stmt' : PicaStmt} :
    parseInvchain stale (some (cstr "PICA-2026-09-25")) (.array chains) stmt = .ok stmt' ↔
      chains.length < 2 ^ 31 ∧ ∃ iarray, chains.mapM fillAlternative = .ok iarray ∧
        stmt' = { stmt with aryCnt := chains.length, iarray } := by
  have hnotV0 : strcmpEq (some (cstr "PICA-2026-09-25")) (some (cstr "PICA-2026-09-15")) = .ok false := by decide
  have hversion : strcmpEq (some (cstr "PICA-2026-09-25")) (some (cstr "PICA-2026-09-25")) = .ok true := by decide
  rw [parseInvchain, hnotV0, ok_bind, if_neg Bool.false_ne_true, hversion, ok_bind, if_pos rfl, arrayLength, ok_bind]
  dsimp only
  rw [bind_eq_ok]
  constructor
  · intro ⟨turn, hturn, hret⟩
    obtain ⟨hlt, iarray, hmap, rfl⟩ := (parseChains_ok_iff stale).1 hturn
    cases hret
    exact ⟨hlt, iarray, hmap, by rw [toInt32_of_lt hlt]⟩
  · intro ⟨hlt, iarray, hmap, heq⟩
    refine ⟨.next iarray, (parseChains_ok_iff stale).2 ⟨hlt, iarray, hmap, rfl⟩, ?_⟩
    rw [heq, toInt32_of_lt hlt]
    rfl

/-! ### The function of the policies -/

theorem fillAlternative_ok_iff {array : Value} {alternative : InvArray} :
    fillAlternative array = .ok alternative ↔ parseAlternative array = .ok alternative := by
  cases array with
  | array items => exact fillChain_ok_iff
  | _ => simp [fillAlternative, parseAlternative, arrayCount]

theorem fillAlternatives_ok_iff {chains : List Value} {iarray : List InvArray} :
    chains.mapM fillAlternative = .ok iarray ↔ chains.mapM parseAlternative = .ok iarray := by
  simp only [mapM_eq_ok_iff, fillAlternative_ok_iff]

/-- The loops parse a chain as the policies have it, whatever the allocated memory holds. -/
theorem parseInvchain_ok_iff (stale : Nat → InvArray) {version : Option CString} {obj : Value}
    {stmt stmt' : PicaStmt} :
    parseInvchain stale version obj stmt = .ok stmt' ↔ PortableTlsRa.parseInvchain version obj stmt = .ok stmt' := by
  cases obj with
  | array items =>
    cases version with
    | none => exact Iff.rfl
    | some version =>
      by_cases hV0 : version = cstr "PICA-2026-09-15"
      · subst hV0
        have hversion : strcmpEq (some (cstr "PICA-2026-09-15")) (some (cstr "PICA-2026-09-15")) = .ok true := by
          decide
        rw [parseInvchain_V0, PortableTlsRa.parseInvchain, hversion, ok_bind, if_pos rfl, bind_eq_ok, bind_eq_ok]
        simp only [fillChain_ok_iff, pure_eq_ok]
      · by_cases hV1 : version = cstr "PICA-2026-09-25"
        · subst hV1
          have hnotV0 : strcmpEq (some (cstr "PICA-2026-09-25")) (some (cstr "PICA-2026-09-15")) = .ok false := by
            decide
          have hversion : strcmpEq (some (cstr "PICA-2026-09-25")) (some (cstr "PICA-2026-09-25")) = .ok true := by
            decide
          rw [parseInvchain_V1, PortableTlsRa.parseInvchain, hnotV0, ok_bind, if_neg Bool.false_ne_true, hversion,
            ok_bind, if_pos rfl]
          simp only [bind_eq_ok, arrayCount_eq_ok_iff, fillAlternatives_ok_iff, pure_eq_ok, Except.ok.injEq]
          constructor
          · rintro ⟨hlt, iarray, hmap, heq⟩
            exact ⟨_, ⟨items, rfl, hlt, rfl⟩, iarray, hmap, heq.symm⟩
          · rintro ⟨aryCnt, ⟨items', hitems, hlt, hcnt⟩, iarray, hmap, heq⟩
            cases hitems
            exact ⟨hlt, iarray, hmap, by rw [← heq, hcnt]⟩
        · have hnotV0 : strcmpEq (some version) (some (cstr "PICA-2026-09-15")) = .ok false :=
            strcmpEq_eq_ok.2 ⟨_, _, rfl, rfl, decide_eq_false hV0⟩
          have hnotV1 : strcmpEq (some version) (some (cstr "PICA-2026-09-25")) = .ok false :=
            strcmpEq_eq_ok.2 ⟨_, _, rfl, rfl, decide_eq_false hV1⟩
          simp only [parseInvchain, PortableTlsRa.parseInvchain, hnotV0, hnotV1, ok_bind, if_neg Bool.false_ne_true]
  | _ => exact Iff.rfl

/-! ### A chain under both versions -/

/-- The list of one chain goes through the loop in one turn. -/
theorem parseInvchain_V1_singleton (stale : Nat → InvArray) (items : List Value) (stmt : PicaStmt) :
    parseInvchain stale (some (cstr "PICA-2026-09-25")) (.array [.array items]) stmt =
      fillChain items >>= fun alternative => .ok { stmt with aryCnt := 1, iarray := [alternative] } := by
  have hnotV0 : strcmpEq (some (cstr "PICA-2026-09-25")) (some (cstr "PICA-2026-09-15")) = .ok false := by decide
  have hversion : strcmpEq (some (cstr "PICA-2026-09-25")) (some (cstr "PICA-2026-09-25")) = .ok true := by decide
  have hcells : (List.range (toInt32 1).toNat).map stale = [stale 0] := rfl
  have hturn : parseChain (.array [.array items]) ([] ++ [stale 0]) ([] : List InvArray).length =
      fillAlternative (.array items) >>= fun alternative => .ok (.next ([] ++ [alternative])) :=
    parseChain_fills rfl (by decide)
  simp only [List.nil_append, List.length_nil, fillAlternative] at hturn
  rw [parseInvchain, hnotV0, ok_bind, if_neg Bool.false_ne_true, hversion, ok_bind, if_pos rfl, arrayLength, ok_bind]
  dsimp only [List.length_singleton]
  rw [hcells, List.range_one]
  cases hchain : fillChain items with
  | error e =>
    rw [hchain] at hturn
    rw [forEach_cons_of_error hturn]
    rfl
  | ok alternative =>
    rw [hchain] at hturn
    rw [forEach_cons_of_next hturn]
    rfl

/-- A chain under the first version and the list of that chain alone under the second one give the same statement, with
a null pointer in the place of every item that is no string, and both are checked alike. -/
theorem parseInvchain_versions (items : List Value) (stmt : PicaStmt) (stale stale' : Nat → InvArray) :
    parseInvchain stale (some (cstr "PICA-2026-09-15")) (.array items) stmt =
      parseInvchain stale' (some (cstr "PICA-2026-09-25")) (.array [.array items]) stmt ∧
    (items.length < 2 ^ 31 →
      parseInvchain stale (some (cstr "PICA-2026-09-15")) (.array items) stmt =
        .ok { stmt with aryCnt := 1, iarray := [⟨items.length, items.map stringCopy⟩] }) ∧
    ∀ pinfo ent,
      (parseInvchain stale (some (cstr "PICA-2026-09-15")) (.array items) stmt >>= fun pstmt =>
        picaCheckIchain pstmt pinfo ent) =
      (parseInvchain stale' (some (cstr "PICA-2026-09-25")) (.array [.array items]) stmt >>= fun pstmt =>
        picaCheckIchain pstmt pinfo ent) := by
  have hsame : parseInvchain stale (some (cstr "PICA-2026-09-15")) (.array items) stmt =
      parseInvchain stale' (some (cstr "PICA-2026-09-25")) (.array [.array items]) stmt := by
    rw [parseInvchain_V0, parseInvchain_V1_singleton]
  refine ⟨hsame, ?_, ?_⟩
  · intro hlt
    rw [parseInvchain_V0, (fillChain_eq items _).2 ⟨hlt, rfl⟩]
    rfl
  · intro pinfo ent
    rw [hsame]

end Invchain

end PortableTlsRa
