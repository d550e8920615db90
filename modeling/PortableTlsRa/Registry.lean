import PortableTlsRa.Grant
import PortableTlsRa.ConfRegistration
import PortableTlsRa.Lib.Simulation

/-!
# The registry of programs

What the configuration file is for: a list of programs that are allowed, which a registration replaces, to which an
entry can be appended, and against which a measured chain is decided.  The file is never truncated by a registration,
so that the bytes of a longer one before stay behind the new entries, and while there are such bytes nobody is allowed
(`Contents.leftover`).  The registry is allowed to decide after registrations exactly if the last one was a longest
(`leftover_eq_zero_iff`), and what is appended never changes what was decided before (`agreesWithFirst_append_iff`).
-/

namespace PortableTlsRa

open CSem

/-- The bytes of a configuration with these entries. -/
def confSize (entries : List Procinfo) : Nat :=
  20 + 88 * entries.length + 40 * (chainLibs entries).length + (chainStrings entries).length

/-- The entries of a file, and how many bytes are behind them. -/
structure Contents where
  entries : List Procinfo
  leftover : Nat

/-- There is no file, or one with these contents. -/
abbrev Registry := Option Contents

/-- What is done with the registry: a chain is registered, an entry is appended, or it is asked whether a policy allows
a chain. -/
inductive Deed where
  | register (chain : List Procinfo)
  | append (entry : Procinfo)
  | request (ppol : PicaPolicy) (chain : List Procinfo)

namespace Registry

def size : Registry → Nat
  | none => 0
  | some c => confSize c.entries + c.leftover

/-- A registration is written over the start of the file, an appended entry into a new one. -/
def after : Registry → Deed → Registry
  | r, .register chain => some ⟨chain, r.size - confSize chain⟩
  | none, .append _ => none
  | some c, .append entry => some ⟨c.entries ++ [entry], 0⟩
  | r, .request _ _ => r

end Registry

/-- What the policy asks of a chain: the statement is the one for the requester, which comes last, and allows the other
programs and the users. -/
structure PolicyAllows (ppol : PicaPolicy) (chain : List Procinfo) (pstmt : PicaStmt) : Prop where
  selected : ∃ mybinary, chain.getLast? = some mybinary ∧ Selected ppol mybinary pstmt
  alternative : FirstAlternativeMatches pstmt chain chain.length
  uids : UidsMatch pstmt chain chain.length

/-- The file is read, every program of the chain agrees with its first entry, and the policy allows the chain by this
statement. -/
def Registry.Admits (r : Registry) (ppol : PicaPolicy) (chain : List Procinfo) (pstmt : PicaStmt) : Prop :=
  ∃ c, r = some c ∧ c.leftover = 0 ∧ (∀ p ∈ chain, AgreesWithFirst c.entries p) ∧ PolicyAllows ppol chain pstmt

/-! ### Registrations -/

/-- The chains that are registered, in order. -/
def registered (deeds : List Deed) : List (List Procinfo) :=
  deeds.filterMap fun
    | .register chain => some chain
    | _ => none

/-- Nothing is appended. -/
def NoAppend (deeds : List Deed) : Prop := ∀ entry, Deed.append entry ∉ deeds

variable {r : Registry} {deeds : List Deed} {chain : List Procinfo} {c : Contents}

theorem registered_append (deeds deeds' : List Deed) :
    registered (deeds ++ deeds') = registered deeds ++ registered deeds' := List.filterMap_append

theorem NoAppend.of_append {deeds' : List Deed} (h : NoAppend (deeds ++ deeds')) : NoAppend deeds :=
  fun entry hentry => h entry (List.mem_append_left deeds' hentry)

/-- The file grows to the longest configuration that is written. -/
theorem size_le_iff (h : NoAppend deeds) (n : Nat) :
    Registry.size (deeds.foldl Registry.after r) ≤ n ↔
      r.size ≤ n ∧ ∀ chain ∈ registered deeds, confSize chain ≤ n := by
  induction deeds using List.reverseRecOn with
  | nil => simp [registered]
  | append_singleton deeds deed ih =>
    have ih := ih h.of_append
    rw [List.foldl_append, registered_append]
    cases deed with
    | register chain =>
      have hsize : Registry.size ((deeds.foldl Registry.after r).after (.register chain)) =
          confSize chain + ((deeds.foldl Registry.after r).size - confSize chain) := rfl
      have hmax : Registry.size ((deeds.foldl Registry.after r).after (.register chain)) ≤ n ↔
          (deeds.foldl Registry.after r).size ≤ n ∧ confSize chain ≤ n := by omega
      have hlast : registered [Deed.register chain] = [chain] := rfl
      rw [List.foldl_cons, List.foldl_nil, hmax, ih, hlast, List.forall_mem_append, List.forall_mem_singleton,
        and_assoc]
    | append entry => exact absurd (List.mem_append_right deeds (List.mem_singleton_self _)) (h entry)
    | request ppol chain =>
      have hnone : registered [Deed.request ppol chain] = [] := rfl
      rw [hnone, List.append_nil]
      exact ih

/-- The entries are those of the last registration. -/
theorem entries_eq_last (h : NoAppend deeds) (hlast : (registered deeds).getLast? = some chain) :
    ∃ leftover, deeds.foldl Registry.after r = some ⟨chain, leftover⟩ := by
  induction deeds using List.reverseRecOn with
  | nil => cases hlast
  | append_singleton deeds deed ih =>
    rw [registered_append] at hlast
    rw [List.foldl_append]
    cases deed with
    | register chain' =>
      have hregistered : registered [Deed.register chain'] = [chain'] := rfl
      rw [hregistered, List.getLast?_concat] at hlast
      cases hlast
      exact ⟨_, rfl⟩
    | append entry => exact absurd (List.mem_append_right deeds (List.mem_singleton_self _)) (h entry)
    | request ppol chain' =>
      have hnone : registered [Deed.request ppol chain'] = [] := rfl
      rw [hnone, List.append_nil] at hlast
      exact ih h.of_append hlast

/-- After registrations there is nothing behind the entries exactly if the last one is a longest. -/
theorem leftover_eq_zero_iff (h : NoAppend deeds) (hlast : (registered deeds).getLast? = some chain)
    (hafter : deeds.foldl Registry.after r = some c) :
    c.leftover = 0 ↔ r.size ≤ confSize chain ∧ ∀ chain' ∈ registered deeds, confSize chain' ≤ confSize chain := by
  obtain ⟨leftover, hentries⟩ := @entries_eq_last r deeds chain h hlast
  rw [← size_le_iff h, hafter]
  rw [hafter] at hentries
  cases hentries
  have hsize : Registry.size (some ⟨chain, leftover⟩) = confSize chain + leftover := rfl
  rw [hsize]
  dsimp only
  omega

/-! ### Entries that are appended -/

/-- After entries were appended there is nothing behind them, whatever there was before. -/
theorem after_appends {added : List Procinfo} (hadded : added ≠ []) :
    (added.map Deed.append).foldl Registry.after (some c) = some ⟨c.entries ++ added, 0⟩ := by
  induction added using List.reverseRecOn with
  | nil => exact absurd rfl hadded
  | append_singleton added entry ih =>
    rw [List.map_append, List.foldl_append]
    by_cases hnil : added = []
    · subst hnil
      rfl
    · rw [ih hnil, ← List.append_assoc]
      rfl

/-- A program agrees with its first entry if that was there before, or else with the first that was added. -/
theorem agreesWithFirst_append_iff {entries added : List Procinfo} {p : Procinfo} :
    AgreesWithFirst (entries ++ added) p ↔
      AgreesWithFirst entries p ∨ (∀ e ∈ entries, e.path ≠ p.path) ∧ AgreesWithFirst added p := by
  have hnone : entries.find? (fun e => e.path = p.path) = none ↔ ∀ e ∈ entries, e.path ≠ p.path := by
    simp [List.find?_eq_none]
  unfold AgreesWithFirst
  rw [← hnone]
  cases hfind : entries.find? (fun e => e.path = p.path) with
  | none => simp [List.find?_append, hfind]
  | some e => simp [List.find?_append, hfind]

end PortableTlsRa
