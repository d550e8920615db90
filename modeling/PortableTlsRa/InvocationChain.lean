import PortableTlsRa.ProcInfo
import Mathlib.Data.Nat.Find

/-!
# Invocation chains

`pica_check_ichain` compares the measured chain with the alternatives of a policy statement.  The code that is
returned is cleared by the first alternative that differs and never set again, so that only the first alternative
is ever accepted (`chainAccepted_cons_iff`); the alternatives are a disjunction exactly where the first one
matches or none does.  Within one alternative the loop runs over the measured chain and never asks for the length of
the alternative: a proper prefix of it is accepted, and past its end the loop reads on (`picaCheckIchain_single_iff`).
-/

namespace PortableTlsRa

open CSem

/-- One turn of the inner loop: the measured process `j` against place `j` of the alternative. -/
def compareChainPath (pinfo : List Procinfo) (chain : InvArray) (j : Nat) : Checked (Turn Unit Unit) := do
  let p ← readAt pinfo j
  let cp ← readAt chain.ichain j
  if !(← strcmpEq p.path cp) then return .exit ()
  return .next ()

/-- One turn of the outer loop: `exit` is `goto found`. -/
def compareAlternative (pinfo : List Procinfo) (ent : Int) (rc : Nat) (alternative : InvArray) :
    Checked (Turn Nat Nat) := do
  match ← forEach (fun _ j => compareChainPath pinfo alternative j) () (List.range ent.toNat) with
  | .exit () => return .next 0
  | .next () => return .exit rc

def picaCheckIchain (pstmt : PicaStmt) (pinfo : List Procinfo) (ent : Int) : Checked Nat := do
  match ← forEach (fun rc i => readAt pstmt.iarray i >>= compareAlternative pinfo ent rc) VerifyFlag.picaChain
      (List.range pstmt.aryCnt.toNat) with
  | .exit rc => return rc
  | .next rc => return rc

/-! ### What one alternative accepts -/

/-- The measured processes have the paths that the alternative lists, place by place. -/
def ChainMatches (pinfo : List Procinfo) (ent : Int) (alternative : InvArray) : Prop :=
  ∀ j < ent.toNat, ∃ p path, pinfo[j]? = some p ∧ p.path = some path ∧ alternative.ichain[j]? = some (some path)

variable {pinfo : List Procinfo} {ent : Int} {rc : Nat} {alternative : InvArray}

theorem compareChainPath_next_iff {j : Nat} :
    compareChainPath pinfo alternative j = .ok (.next ()) ↔
      ∃ p path, pinfo[j]? = some p ∧ p.path = some path ∧ alternative.ichain[j]? = some (some path) := by
  simp only [compareChainPath, bind_eq_ok, readAt_eq_ok, pure_eq_ok]
  constructor
  · intro ⟨p, hp, cp, hcp, same, hcmp, hret⟩
    cases same
    · simp at hret
    · obtain ⟨path, hpath, rfl⟩ := strcmpEq_eq_true.1 hcmp
      exact ⟨p, path, hp, hpath, hcp⟩
  · intro ⟨p, path, hp, hpath, hcp⟩
    exact ⟨p, hp, some path, hcp, true, strcmpEq_eq_true.2 ⟨path, hpath, rfl⟩, rfl⟩

theorem comparePaths_next_iff :
    forEach (fun _ j => compareChainPath pinfo alternative j) () (List.range ent.toNat) = .ok (.next ()) ↔
      ChainMatches pinfo ent alternative := by
  rw [scan_next_iff]
  simp only [compareChainPath_next_iff, List.mem_range, ChainMatches]

/-- An alternative ends the search exactly when it matches, and then the code is kept as it is. -/
theorem compareAlternative_exit_iff {rc' : Nat} :
    compareAlternative pinfo ent rc alternative = .ok (.exit rc') ↔
      ChainMatches pinfo ent alternative ∧ rc' = rc := by
  rw [← comparePaths_next_iff, compareAlternative, bind_eq_ok]
  constructor
  · intro ⟨turn, hloop, hret⟩
    cases turn with
    | next u =>
      cases hret
      exact ⟨hloop, rfl⟩
    | exit u => cases hret
  · intro h
    rcases h with ⟨hloop, rfl⟩
    exact ⟨.next (), hloop, rfl⟩

/-- An alternative that lets the search go on clears the code. -/
theorem compareAlternative_next {rc' : Nat}
    (h : compareAlternative pinfo ent rc alternative = .ok (.next rc')) : rc' = 0 := by
  obtain ⟨turn, -, hret⟩ := bind_eq_ok.1 h
  cases turn with
  | next u => cases hret
  | exit u =>
    cases hret
    rfl

/-! ### The search over the alternatives -/

/-- The statement with the given alternatives in place of its own. -/
def PicaStmt.withAlternatives (pstmt : PicaStmt) (alternatives : List InvArray) : PicaStmt :=
  { pstmt with aryCnt := alternatives.length, iarray := alternatives }

/-- The statement with these alternatives accepts the measured chain. -/
def ChainAccepted (pstmt : PicaStmt) (pinfo : List Procinfo) (ent : Int) (alternatives : List InvArray) : Prop :=
  picaCheckIchain (pstmt.withAlternatives alternatives) pinfo ent = .ok VerifyFlag.picaChain

/-- Once the code is cleared it stays cleared, whatever alternatives follow. -/
theorem compareAlternatives_of_cleared {alternatives : List InvArray} {turn : Turn Nat Nat}
    (h : forEach (compareAlternative pinfo ent) 0 alternatives = .ok turn) :
    turn = .next 0 ∨ turn = .exit 0 := by
  have stays : ∀ {l : List InvArray} {rc : Nat},
      forEach (compareAlternative pinfo ent) 0 l = .ok (.next rc) → rc = 0 := by
    intro l rc hl
    exact forEach_invariant (fun _ rc => rc = 0) rfl (fun _ _ _ _ _ hstep => compareAlternative_next hstep) hl
  cases turn with
  | next rc => exact .inl (congrArg Turn.next (stays h))
  | exit rc =>
    obtain ⟨pre, a, post, t, -, hpre, hexit⟩ := forEach_exit_iff.1 h
    obtain ⟨-, hrc⟩ := compareAlternative_exit_iff.1 hexit
    exact .inr (congrArg Turn.exit (hrc.trans (stays hpre)))

/-- The first alternative alone decides. -/
theorem chainAccepted_cons_iff {pstmt : PicaStmt} {first : InvArray} {others : List InvArray} :
    ChainAccepted pstmt pinfo ent (first :: others) ↔ ChainMatches pinfo ent first := by
  unfold ChainAccepted picaCheckIchain
  simp only [PicaStmt.withAlternatives, Int.toNat_natCast, forEach_range_readAt]
  rw [bind_eq_ok]
  constructor
  · intro ⟨turn, hloop, hret⟩
    rcases hfirst : compareAlternative pinfo ent VerifyFlag.picaChain first with e | ⟨rc | rc⟩
    · rw [forEach_cons_of_error hfirst] at hloop
      cases hloop
    · obtain rfl := compareAlternative_next hfirst
      rw [forEach_cons_of_next hfirst] at hloop
      rcases compareAlternatives_of_cleared hloop with rfl | rfl <;> cases hret
    · exact (compareAlternative_exit_iff.1 hfirst).1
  · intro hmatch
    refine ⟨.exit VerifyFlag.picaChain, ?_, rfl⟩
    exact forEach_cons_of_exit (compareAlternative_exit_iff.2 ⟨hmatch, rfl⟩)

/-! ### Alternatives as a disjunction -/

/-- The statement is accepted exactly when some alternative alone would be. -/
def AlternativesAreDisjunction (pstmt : PicaStmt) (pinfo : List Procinfo) (ent : Int)
    (alternatives : List InvArray) : Prop :=
  ChainAccepted pstmt pinfo ent alternatives ↔ ∃ c ∈ alternatives, ChainAccepted pstmt pinfo ent [c]

/-- The order of the alternatives does not matter. -/
def OrderIrrelevant (pstmt : PicaStmt) (pinfo : List Procinfo) (ent : Int) (alternatives : List InvArray) : Prop :=
  ∀ reordered : List InvArray, reordered.Perm alternatives →
    (ChainAccepted pstmt pinfo ent reordered ↔ ChainAccepted pstmt pinfo ent alternatives)

/-- Adding an alternative, at any place, keeps an accepted chain accepted. -/
def AdditionKeepsAcceptance (pstmt : PicaStmt) (pinfo : List Procinfo) (ent : Int)
    (alternatives : List InvArray) (added : InvArray) : Prop :=
  ∀ pre post, alternatives = pre ++ post → ChainAccepted pstmt pinfo ent alternatives →
    ChainAccepted pstmt pinfo ent (pre ++ added :: post)

theorem alternativesAreDisjunction_iff {pstmt : PicaStmt} {first : InvArray} {others : List InvArray} :
    AlternativesAreDisjunction pstmt pinfo ent (first :: others) ↔
      ChainMatches pinfo ent first ∨ ∀ c ∈ others, ¬ ChainMatches pinfo ent c := by
  unfold AlternativesAreDisjunction
  simp only [chainAccepted_cons_iff, List.mem_cons]
  constructor
  · intro h
    by_cases hfirst : ChainMatches pinfo ent first
    · exact .inl hfirst
    · right
      intro c hc hmatch
      exact hfirst (h.2 ⟨c, .inr hc, hmatch⟩)
  · intro h
    rcases h with hfirst | hothers
    · exact ⟨fun _ => ⟨first, .inl rfl, hfirst⟩, fun _ => hfirst⟩
    · constructor
      · intro hfirst
        exact ⟨first, .inl rfl, hfirst⟩
      · intro h
        rcases h with ⟨c, rfl | hc, hmatch⟩
        · exact hmatch
        · exact absurd hmatch (hothers c hc)

theorem orderIrrelevant_iff {pstmt : PicaStmt} {first : InvArray} {others : List InvArray} :
    OrderIrrelevant pstmt pinfo ent (first :: others) ↔
      (∀ c ∈ first :: others, ChainMatches pinfo ent c) ∨ ∀ c ∈ first :: others, ¬ ChainMatches pinfo ent c := by
  constructor
  · intro h
    -- every alternative can be moved to the front, where it decides alone
    have hsame : ∀ c ∈ first :: others, (ChainMatches pinfo ent c ↔ ChainMatches pinfo ent first) := by
      intro c hc
      have hfront := h (c :: (first :: others).erase c) (List.perm_cons_erase hc).symm
      rwa [chainAccepted_cons_iff, chainAccepted_cons_iff] at hfront
    by_cases hfirst : ChainMatches pinfo ent first
    · left
      intro c hc
      exact (hsame c hc).2 hfirst
    · right
      intro c hc hmatch
      exact hfirst ((hsame c hc).1 hmatch)
  · intro h reordered hperm
    cases reordered with
    | nil => simp at hperm
    | cons c rest =>
      have hc : c ∈ first :: others := hperm.subset (List.mem_cons_self ..)
      rw [chainAccepted_cons_iff, chainAccepted_cons_iff]
      rcases h with hall | hnone
      · exact iff_of_true (hall c hc) (hall first (List.mem_cons_self ..))
      · exact iff_of_false (hnone c hc) (hnone first (List.mem_cons_self ..))

theorem additionKeepsAcceptance_iff {pstmt : PicaStmt} {first added : InvArray} {others : List InvArray} :
    AdditionKeepsAcceptance pstmt pinfo ent (first :: others) added ↔
      (ChainMatches pinfo ent first → ChainMatches pinfo ent added) := by
  constructor
  · intro h hfirst
    have haccepted := h [] (first :: others) rfl (chainAccepted_cons_iff.2 hfirst)
    exact chainAccepted_cons_iff.1 haccepted
  · intro h pre post hsplit haccept
    rw [chainAccepted_cons_iff] at haccept
    cases pre with
    | nil => exact chainAccepted_cons_iff.2 (h haccept)
    | cons c pre =>
      obtain ⟨rfl, -⟩ := List.cons.inj hsplit
      exact chainAccepted_cons_iff.2 haccept

/-- When the alternatives of a statement are a disjunction, when their order does not matter, and when one more of
them does no harm. -/
theorem picaCheckIchain_alternatives_iff (pstmt : PicaStmt) (pinfo : List Procinfo) (ent : Int)
    (first added : InvArray) (others : List InvArray) :
    (AlternativesAreDisjunction pstmt pinfo ent (first :: others) ↔
      ChainMatches pinfo ent first ∨ ∀ c ∈ others, ¬ ChainMatches pinfo ent c) ∧
    (OrderIrrelevant pstmt pinfo ent (first :: others) ↔
      (∀ c ∈ first :: others, ChainMatches pinfo ent c) ∨ ∀ c ∈ first :: others, ¬ ChainMatches pinfo ent c) ∧
    (AdditionKeepsAcceptance pstmt pinfo ent (first :: others) added ↔
      (ChainMatches pinfo ent first → ChainMatches pinfo ent added)) :=
  ⟨alternativesAreDisjunction_iff, orderIrrelevant_iff, additionKeepsAcceptance_iff⟩

/-! ### A policy with two alternatives -/

def emacsOrSshd : PicaStmt where
  sid := some (cstr "Administration")
  effect := 1
  execPath := none
  uidCnt := 0
  uid := []
  actCnt := 0
  action := []
  aryCnt := 2
  iarray := [⟨1, [some (cstr "/usr/bin/emacs")]⟩, ⟨1, [some (cstr "/usr/sbin/sshd")]⟩]

/-- A chain that the second of two alternatives allows is refused. -/
theorem picaCheckIchain_refuses_second :
    ¬ AlternativesAreDisjunction emacsOrSshd [processAt (cstr "/usr/sbin/sshd")] 1 emacsOrSshd.iarray := by
  intro h
  have hsecond : ChainAccepted emacsOrSshd [processAt (cstr "/usr/sbin/sshd")] 1
      [⟨1, [some (cstr "/usr/sbin/sshd")]⟩] := by
    unfold ChainAccepted
    decide
  have haccepted := h.2 ⟨_, by decide, hsecond⟩
  unfold ChainAccepted at haccepted
  revert haccepted
  decide

/-! ### A single alternative -/

section

variable (pinfo : List Procinfo) (chain : List (Option CString))

/-- The measured process `j` has the path in place `j` of the chain. -/
def SamePlace (j : Nat) : Prop :=
  ∃ p path, pinfo[j]? = some p ∧ p.path = some path ∧ chain[j]? = some (some path)

/-- The loop over the measured processes comes to place `j`, where it reads the chain. -/
def ReadsPlace (j : Nat) : Prop :=
  j < pinfo.length ∧ ∀ k < j, compareChainPath pinfo ⟨chain.length, chain⟩ k = .ok (.next ())

/-- The statement with this chain alone accepts the measured processes exactly when they have the paths of the chain,
and no place past the end of the chain and no null pointer in it is read. -/
def MatchedExactly (pstmt : PicaStmt) : Prop :=
  (ChainAccepted pstmt pinfo pinfo.length [⟨chain.length, chain⟩] ↔
    pinfo.length = chain.length ∧ ∀ j < chain.length, SamePlace pinfo chain j) ∧
  ∀ j, ReadsPlace pinfo chain j → ∃ path, chain[j]? = some (some path)

/-- The chain has a path in place `j`, the first place in which the measured processes differ. -/
structure DiffersFirstAt (j : Nat) : Prop where
  lt : j < pinfo.length
  same : ∀ k < j, SamePlace pinfo chain k
  differs : ¬ SamePlace pinfo chain j
  entry : ∃ path, chain[j]? = some (some path)

end

variable {chain : List (Option CString)}

theorem readsPlace_iff {j : Nat} :
    ReadsPlace pinfo chain j ↔ j < pinfo.length ∧ ∀ k < j, SamePlace pinfo chain k := by
  simp only [ReadsPlace, compareChainPath_next_iff, SamePlace]

theorem chainAccepted_singleton_iff {pstmt : PicaStmt} :
    ChainAccepted pstmt pinfo pinfo.length [⟨chain.length, chain⟩] ↔ ∀ j < pinfo.length, SamePlace pinfo chain j := by
  rw [chainAccepted_cons_iff]
  simp only [ChainMatches, Int.toNat_natCast, SamePlace]

/-- A single chain is matched exactly unless the measured chain ends before it or goes on after it. -/
theorem picaCheckIchain_single_iff (pstmt : PicaStmt) (pinfo : List Procinfo) (chain : List (Option CString)) :
    MatchedExactly pinfo chain pstmt ↔
      (pinfo.length = chain.length ∧ ∀ j < chain.length, SamePlace pinfo chain j) ∨
        ∃ j, DiffersFirstAt pinfo chain j := by
  unfold MatchedExactly
  simp only [chainAccepted_singleton_iff, readsPlace_iff]
  constructor
  · intro ⟨haccept, hreads⟩
    by_cases hall : ∀ j < pinfo.length, SamePlace pinfo chain j
    · exact .inl (haccept.1 hall)
    · right
      -- the first place that differs is read, so that the chain has a path there
      have hexists : ∃ j, j < pinfo.length ∧ ¬ SamePlace pinfo chain j := by
        push Not at hall
        exact hall
      classical
      obtain ⟨hlt, hdiffers⟩ := Nat.find_spec hexists
      have hsame : ∀ k < Nat.find hexists, SamePlace pinfo chain k := by
        intro k hk
        have hmin := Nat.find_min hexists hk
        by_contra hk'
        exact hmin ⟨by omega, hk'⟩
      exact ⟨Nat.find hexists, hlt, hsame, hdiffers, hreads _ ⟨hlt, hsame⟩⟩
  · intro h
    rcases h with ⟨hlength, hall⟩ | ⟨j, hfirst⟩
    · refine ⟨⟨fun _ => ⟨hlength, hall⟩, fun _ => hlength ▸ hall⟩, ?_⟩
      intro j ⟨hj, _⟩
      obtain ⟨p, path, -, -, hentry⟩ := hall j (by omega)
      exact ⟨path, hentry⟩
    · obtain ⟨path, hentry⟩ := hfirst.entry
      have hjchain : j < chain.length := (List.getElem?_eq_some_iff.1 hentry).1
      refine ⟨iff_of_false (fun hall => hfirst.differs (hall j hfirst.lt))
        (fun hall => hfirst.differs (hall.2 j hjchain)), ?_⟩
      intro i ⟨_, hsame⟩
      -- the loop is left at place j
      rcases Nat.lt_trichotomy i j with hij | rfl | hji
      · obtain ⟨p, path', -, -, hentry'⟩ := hfirst.same i hij
        exact ⟨path', hentry'⟩
      · exact ⟨path, hentry⟩
      · exact absurd (hsame j hji) hfirst.differs

/-- A shell alone is accepted where the policy asks for a shell that runs an editor. -/
theorem picaCheckIchain_accepts_prefix :
    ¬ MatchedExactly [processAt (cstr "/bin/sh")] [some (cstr "/bin/sh"), some (cstr "/bin/ed")] emacsOrSshd := by
  intro h
  have haccepted : ChainAccepted emacsOrSshd [processAt (cstr "/bin/sh")] 1
      [⟨2, [some (cstr "/bin/sh"), some (cstr "/bin/ed")]⟩] := by
    unfold ChainAccepted
    decide
  have hlength := (h.1.1 haccepted).1
  revert hlength
  decide

end PortableTlsRa
