import Mathlib.Data.List.Nodup

/-!
# Linked lists in memory

A heap is the list of the cells that were allocated, and the address of a cell is its place in it.  The cells of a
list are linked when each one tells the address of the next (`Linked`).  A linked list visits no cell twice
(`Linked.nodup`), so that its length is bounded by the heap (`Linked.length_le`); it stays when its cells do
(`Segment.frame`), and a new cell can be put behind its last one (`Linked.concat`).
-/

namespace CSem

variable {Cell : Type}

/-- The pointers lead from `p` over the cells of the list, each at its address, to `q`. -/
def Segment (next : Cell → Option Nat) (heap : List Cell) : Option Nat → List (Nat × Cell) → Option Nat → Prop
  | p, [], q => p = q
  | p, (a, cell) :: l, q => p = some a ∧ heap[a]? = some cell ∧ Segment next heap (next cell) l q

/-- The pointers end behind the last cell of the list. -/
def Linked (next : Cell → Option Nat) (heap : List Cell) (p : Option Nat) (l : List (Nat × Cell)) : Prop :=
  Segment next heap p l none

variable {next : Cell → Option Nat} {heap heap' : List Cell} {p q : Option Nat} {l l' : List (Nat × Cell)}

theorem segment_append : Segment next heap p (l ++ l') q ↔ ∃ m, Segment next heap p l m ∧ Segment next heap m l' q := by
  induction l generalizing p with
  | nil => simp [Segment]
  | cons x l ih =>
    obtain ⟨a, cell⟩ := x
    simp only [List.cons_append, Segment, ih]
    constructor
    · rintro ⟨hp, hcell, m, hl, hl'⟩
      exact ⟨m, ⟨hp, hcell, hl⟩, hl'⟩
    · rintro ⟨m, ⟨hp, hcell, hl⟩, hl'⟩
      exact ⟨hp, hcell, m, hl, hl'⟩

theorem Segment.cell (h : Segment next heap p l q) : ∀ x ∈ l, heap[x.1]? = some x.2 := by
  induction l generalizing p with
  | nil => simp
  | cons x l ih =>
    obtain ⟨-, hcell, hrest⟩ := h
    rw [List.forall_mem_cons]
    exact ⟨hcell, ih hrest⟩

/-- A segment stays when its cells do. -/
theorem Segment.frame (h : Segment next heap p l q) (hcells : ∀ x ∈ l, heap'[x.1]? = some x.2) :
    Segment next heap' p l q := by
  induction l generalizing p with
  | nil => exact h
  | cons x l ih =>
    rw [List.forall_mem_cons] at hcells
    obtain ⟨hp, -, hrest⟩ := h
    exact ⟨hp, hcells.1, ih hrest hcells.2⟩

/-- There is one list that is linked from a pointer on. -/
theorem Linked.unique (h : Linked next heap p l) (h' : Linked next heap p l') : l = l' := by
  induction l generalizing p l' with
  | nil =>
    cases l' with
    | nil => rfl
    | cons x' l' => cases h.symm.trans h'.1
  | cons x l ih =>
    cases l' with
    | nil => cases h.1.symm.trans h'
    | cons x' l' =>
      obtain ⟨a, cell⟩ := x
      obtain ⟨a', cell'⟩ := x'
      obtain ⟨hp, hcell, hrest⟩ := h
      obtain ⟨hp', hcell', hrest'⟩ := h'
      obtain rfl : a = a' := Option.some_inj.1 (hp.symm.trans hp')
      obtain rfl : cell = cell' := Option.some_inj.1 (hcell.symm.trans hcell')
      rw [ih hrest hrest']

/-- A cell that came up again would be followed by the same list as before, which is longer. -/
theorem Linked.nodup (h : Linked next heap p l) : (l.map (·.1)).Nodup := by
  induction l generalizing p with
  | nil => exact List.nodup_nil
  | cons x l ih =>
    rw [List.map_cons, List.nodup_cons]
    refine ⟨?_, ih h.2.2⟩
    intro hagain
    obtain ⟨y, hy, haddr⟩ := List.mem_map.1 hagain
    obtain ⟨pre, post, hsplit⟩ := List.append_of_mem hy
    have hrest : Segment next heap (next x.2) (pre ++ y :: post) none := hsplit ▸ h.2.2
    obtain ⟨m, -, htail⟩ := segment_append.1 hrest
    have hm : m = p := by rw [htail.1, h.1, haddr]
    have hsame : y :: post = x :: l := Linked.unique (hm ▸ htail) h
    have hlen := congrArg List.length hsame
    rw [hsplit] at hlen
    simp only [List.length_cons, List.length_append] at hlen
    omega

theorem Linked.length_le (h : Linked next heap p l) : l.length ≤ heap.length := by
  have hinside : l.map (·.1) ⊆ List.range heap.length := by
    intro a ha
    obtain ⟨x, hx, rfl⟩ := List.mem_map.1 ha
    rw [List.mem_range]
    exact (List.getElem?_eq_some_iff.1 (h.cell x hx)).1
  have hle := h.nodup.length_le_of_subset hinside
  rwa [List.length_map, List.length_range] at hle

/-- A cell stays when another one is changed and one is allocated. -/
theorem cell_of_set {a b : Nat} {e : Cell} (h : heap[b]? = some e) (hne : b ≠ a) (cell new : Cell) :
    (heap.set a cell ++ [new])[b]? = some e := by
  have hlt := (List.getElem?_eq_some_iff.1 h).1
  rw [List.getElem?_append_left (by rwa [List.length_set]), List.getElem?_set_ne hne.symm, h]

/-- The last cell of a list is linked to a new one. -/
theorem Linked.concat {a : Nat} {last new : Cell} (h : Linked next heap p (l ++ [(a, last)])) (cell : Cell)
    (hcell : next cell = some heap.length) (hnew : next new = none) :
    Linked next (heap.set a cell ++ [new]) p (l ++ [(a, cell), (heap.length, new)]) := by
  have hnodup := h.nodup
  obtain ⟨m, hl, hm, hlast, -⟩ := segment_append.1 h
  have hlt := (List.getElem?_eq_some_iff.1 hlast).1
  refine segment_append.2 ⟨m, ?_, hm, ?_, hcell, ?_, hnew⟩
  · refine Segment.frame hl fun x hx => ?_
    have hne : x.1 ≠ a := by
      rw [List.map_append, List.nodup_append] at hnodup
      exact hnodup.2.2 x.1 (List.mem_map_of_mem hx) a (by simp)
    exact cell_of_set (hl.cell x hx) hne cell new
  · rw [List.getElem?_append_left (by rwa [List.length_set]), List.getElem?_set_self hlt]
  · rw [List.getElem?_append_right (Nat.le_of_eq List.length_set), List.length_set, Nat.sub_self]
    rfl

end CSem
