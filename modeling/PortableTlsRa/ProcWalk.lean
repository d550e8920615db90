import PortableTlsRa.ProcChain

/-!
# Where the walk along the ancestors ends

The only way out of the loop of `mycbor_pack_procchain` is a parent that is process 1.  A process whose parent is 0
and one that has vanished do not lead there: the status of neither process 0 nor a vanished process can be read, so
that the parent stays what it was and the walk never ends.  `packWalk_bounded_iff` says for every history of the
process table that the walk is bounded by the number of processes exactly when it can go along a living line to a
child of process 1.
-/

namespace PortableTlsRa

open CSem

/-- The process table while a walk goes on: `parent` is the parent of a process of the table, `alive i` are the
processes that there still are in turn `i`, and `measure i pid` is what is measured of a process then. -/
structure ProcHistory where
  procs : Finset Int
  parent : Int → Int
  procs_pos : ∀ pid ∈ procs, 0 < pid
  root_mem : 1 ∈ procs
  parent_root : parent 1 = 0
  parent_mem : ∀ pid ∈ procs, parent pid = 0 ∨ parent pid ∈ procs
  alive : Nat → Finset Int
  alive_zero : alive 0 = procs
  alive_succ : ∀ i, alive (i + 1) ⊆ alive i
  measure : Nat → Int → Measurement
  /-- `cred_pid` reads the parent of a process while there is one, and else writes nothing -/
  ppid_eq : ∀ i pid, (measure i pid).ppid = if pid ∈ alive i then some (parent pid) else none
  /-- `sha256_libs` counts the entries that it puts into the list, or returns -1 -/
  count_le : ∀ i pid, (measure i pid).count ≤ (measure i pid).paths.length

namespace ProcHistory

variable (h : ProcHistory)

/-- The variables `pid` and `ppid` at the start of turn `i`. -/
def walkVars (pid ppid : Int) : Nat → Int × Int
  | 0 => (pid, ppid)
  | i + 1 =>
    let (pid, ppid) := walkVars pid ppid i
    let ppid := (h.measure i pid).ppid.getD ppid
    (ppid, ppid)

/-- The loop comes to turn `i`. -/
def TurnMade (pid ppid : Int) (i : Nat) : Prop := ∀ k < i, (h.walkVars pid ppid (k + 1)).1 ≠ 1

/-- Whatever the variable for the parent holds at first, the walk ends after as many turns as there are processes at
the most, and the parent is set in every turn. -/
def WalkBounded (pid : Int) : Prop :=
  ∀ ppid, (∃ top, packWalk h.measure h.procs.card 0 pid ppid [] = some (.ok top)) ∧
    ∀ i, h.TurnMade pid ppid i → (h.measure i (h.walkVars pid ppid i).1).ppid.isSome

/-- The process and its ancestors up to a child of process 1 are there when it is their turn. -/
inductive LivingLine : Nat → Int → List Int → Prop where
  | last {i : Nat} {pid : Int} : pid ∈ h.alive i → h.parent pid = 1 → LivingLine i pid [pid]
  | parent {i : Nat} {pid : Int} {line : List Int} : pid ∈ h.alive i → h.parent pid ≠ 1 →
      LivingLine (i + 1) (h.parent pid) line → LivingLine i pid (pid :: line)

variable {h}

theorem alive_subset (i : Nat) : h.alive i ⊆ h.procs := by
  induction i with
  | zero => rw [h.alive_zero]
  | succ i ih => exact (h.alive_succ i).trans ih

theorem ppid_of_alive {i : Nat} {pid : Int} (halive : pid ∈ h.alive i) :
    (h.measure i pid).ppid = some (h.parent pid) := by
  rw [h.ppid_eq, if_pos halive]

theorem alive_of_ppid {i : Nat} {pid : Int} (hset : (h.measure i pid).ppid.isSome) : pid ∈ h.alive i := by
  rw [h.ppid_eq] at hset
  by_contra hgone
  rw [if_neg hgone] at hset
  cases hset

/-! ### The length of a living line -/

/-- The table as it would be measured if no process vanished. -/
def snapshot (h : ProcHistory) (pid : Int) : Measurement := { h.measure 0 pid with ppid := some (h.parent pid) }

/-- A living line is a chain of ancestors, so that it visits no process twice. -/
theorem LivingLine.ancestorChain {i : Nat} {pid : Int} {line : List Int} (hline : h.LivingLine i pid line) :
    AncestorChain h.snapshot pid line ∧ ∀ p ∈ line, p ∈ h.procs := by
  induction hline with
  | @last i pid halive hparent =>
    constructor
    · exact .last (by rw [snapshot, hparent])
    · intro p hp
      rw [List.mem_singleton] at hp
      exact hp ▸ alive_subset i halive
  | @parent i pid line halive hne hrest ih =>
    constructor
    · exact .parent rfl hne ih.1
    · rw [List.forall_mem_cons]
      exact ⟨alive_subset i halive, ih.2⟩

theorem LivingLine.length_le {i : Nat} {pid : Int} {line : List Int} (hline : h.LivingLine i pid line) :
    line.length ≤ h.procs.card := by
  obtain ⟨hchain, hmem⟩ := hline.ancestorChain
  rw [← List.toFinset_card_of_nodup hchain.nodup]
  apply Finset.card_le_card
  intro p hp
  exact hmem p (List.mem_toFinset.1 hp)

/-! ### One turn -/

theorem serial_defined (h : ProcHistory) (i : Nat) (pid ppid : Int) :
    ∃ serial, mycborSha256BinariesSerial (h.measure i pid) pid ppid = .ok serial := by
  simp only [mycborSha256BinariesSerial, mycborSha256Binaries]
  by_cases hneg : (h.measure i pid).count + 10 < 0
  · rw [if_pos hneg]
    exact ⟨none, rfl⟩
  · rw [if_neg hneg, libPairs, if_pos (h.count_le i pid)]
    exact ⟨_, rfl⟩

/-- A turn whose process is there goes on with its parent. -/
theorem packWalk_turn {i : Nat} {pid : Int} (halive : pid ∈ h.alive i) (fuel : Nat) (ppid : Int)
    (top : List (Option Bytes)) :
    ∃ serial, packWalk h.measure (fuel + 1) i pid ppid top =
      if h.parent pid ≠ 1 then packWalk h.measure fuel (i + 1) (h.parent pid) (h.parent pid) (serial :: top)
      else some (.ok (serial :: top)) := by
  obtain ⟨serial, hserial⟩ := serial_defined h i pid (h.parent pid)
  refine ⟨serial, ?_⟩
  simp only [packWalk, ppid_of_alive halive, Option.getD_some, hserial]

theorem walkVars_succ {pid ppid : Int} {i : Nat} (halive : (h.walkVars pid ppid i).1 ∈ h.alive i) :
    h.walkVars pid ppid (i + 1) = (h.parent (h.walkVars pid ppid i).1, h.parent (h.walkVars pid ppid i).1) := by
  simp only [walkVars, ppid_of_alive halive, Option.getD_some]

/-! ### Walks along a living line -/

theorem LivingLine.walk_ends {i : Nat} {pid : Int} {line : List Int} (hline : h.LivingLine i pid line) {fuel : Nat}
    (hfuel : line.length ≤ fuel) (ppid : Int) (top : List (Option Bytes)) :
    ∃ walked, packWalk h.measure fuel i pid ppid top = some (.ok walked) := by
  induction hline generalizing fuel ppid top with
  | @last i pid halive hparent =>
    obtain ⟨fuel, rfl⟩ := Nat.exists_eq_add_of_le' hfuel
    obtain ⟨serial, hturn⟩ := packWalk_turn halive fuel ppid top
    rw [if_neg (not_not.2 hparent)] at hturn
    exact ⟨_, hturn⟩
  | @parent i pid line halive hne hrest ih =>
    rw [List.length_cons] at hfuel
    obtain ⟨fuel, rfl⟩ := Nat.exists_eq_add_of_le' (Nat.le_trans (Nat.le_add_left 1 _) hfuel)
    obtain ⟨serial, hturn⟩ := packWalk_turn halive fuel ppid top
    rw [if_pos hne] at hturn
    rw [hturn]
    exact ih (by omega) (h.parent pid) (serial :: top)

/-- From turn `i` on the processes of the line are measured in turn, and none is after the last. -/
theorem LivingLine.turn_set {pid ppid : Int} {i : Nat} {p : Int} {line : List Int} (hline : h.LivingLine i p line)
    (hvars : (h.walkVars pid ppid i).1 = p) {j : Nat} (hij : i ≤ j) (hmade : h.TurnMade pid ppid j) :
    (h.measure j (h.walkVars pid ppid j).1).ppid.isSome := by
  induction hline with
  | @last i p halive hparent =>
    rcases Nat.eq_or_lt_of_le hij with rfl | hlt
    · rw [hvars, ppid_of_alive halive]
      rfl
    · -- the walk has ended before turn j
      have hnext := hmade i hlt
      rw [walkVars_succ (hvars ▸ halive), hvars] at hnext
      exact absurd hparent hnext
  | @parent i p line halive hne hrest ih =>
    rcases Nat.eq_or_lt_of_le hij with rfl | hlt
    · rw [hvars, ppid_of_alive halive]
      rfl
    · apply ih _ hlt
      rw [walkVars_succ (hvars ▸ halive), hvars]

/-- A walk that ends, with the parent set in every turn, has gone along a living line. -/
theorem livingLine_of_walk {pid ppid : Int}
    (hset : ∀ i, h.TurnMade pid ppid i → (h.measure i (h.walkVars pid ppid i).1).ppid.isSome) {fuel i : Nat}
    {top walked : List (Option Bytes)} (hmade : h.TurnMade pid ppid i)
    (hwalk : packWalk h.measure fuel i (h.walkVars pid ppid i).1 (h.walkVars pid ppid i).2 top = some (.ok walked)) :
    ∃ line, h.LivingLine i (h.walkVars pid ppid i).1 line := by
  induction fuel generalizing i top with
  | zero => cases hwalk
  | succ fuel ih =>
    have halive := alive_of_ppid (hset i hmade)
    by_cases hparent : h.parent (h.walkVars pid ppid i).1 = 1
    · exact ⟨_, .last halive hparent⟩
    · have hvars := walkVars_succ halive
      obtain ⟨serial, hturn⟩ := packWalk_turn halive fuel (h.walkVars pid ppid i).2 top
      rw [if_pos hparent] at hturn
      have hmade' : h.TurnMade pid ppid (i + 1) := by
        intro k hk
        rcases Nat.lt_succ_iff_lt_or_eq.1 hk with hlt | rfl
        · exact hmade k hlt
        · rw [hvars]
          exact hparent
      have hwalk' : packWalk h.measure fuel (i + 1) (h.walkVars pid ppid (i + 1)).1
          (h.walkVars pid ppid (i + 1)).2 (serial :: top) = some (.ok walked) := by
        rw [hvars, ← hturn]
        exact hwalk
      obtain ⟨line, hline⟩ := ih hmade' hwalk'
      rw [hvars] at hline
      exact ⟨_, .parent halive hparent hline⟩

end ProcHistory

/-- The walk is bounded by the number of processes exactly when it can go along a living line. -/
theorem packWalk_bounded_iff (h : ProcHistory) (pid : Int) :
    h.WalkBounded pid ↔ ∃ line, h.LivingLine 0 pid line := by
  constructor
  · intro hbounded
    obtain ⟨⟨walked, hwalk⟩, hset⟩ := hbounded 0
    have hstart : h.TurnMade pid 0 0 := by
      intro k hk
      omega
    exact ProcHistory.livingLine_of_walk hset hstart hwalk
  · intro ⟨line, hline⟩ ppid
    constructor
    · exact hline.walk_ends hline.length_le ppid []
    · intro i hmade
      exact hline.turn_set rfl (Nat.zero_le i) hmade

/-! ### A request by process 1 -/

/-- Process 1 alone. -/
def rootAlone : ProcHistory where
  procs := {1}
  parent _ := 0
  procs_pos := by decide
  root_mem := by decide
  parent_root := rfl
  parent_mem _ _ := .inl rfl
  alive _ := {1}
  alive_zero := rfl
  alive_succ _ := subset_rfl
  measure _ pid := {
    digest := ByteBuf.zero 32
    cmdpath := cstr "/sbin/init"
    ppid := if pid ∈ ({1} : Finset Int) then some 0 else none
    ruid := 0
    rgid := 0
    euid := 0
    egid := 0
    suid := 0
    sgid := 0
    count := 0
    paths := [] }
  ppid_eq _ _ := rfl
  count_le _ _ := Int.le_refl 0

/-- The walk from process 1 does not stop after one turn. -/
theorem packWalk_root_unbounded : ¬ rootAlone.WalkBounded 1 := by
  intro hbounded
  obtain ⟨⟨walked, hwalk⟩, -⟩ := hbounded 0
  obtain ⟨serial, hturn⟩ := ProcHistory.packWalk_turn (h := rootAlone) (Finset.mem_singleton_self 1) 0 0 []
  have hcard : rootAlone.procs.card = 1 := rfl
  rw [hcard, hturn, if_pos (show rootAlone.parent 1 ≠ 1 by decide)] at hwalk
  cases hwalk

end PortableTlsRa
