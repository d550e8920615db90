import Mathlib.Algebra.Order.Ring.Int
import Mathlib.Data.List.Forall2
import Mathlib.Data.List.Induction
import Mathlib.Data.List.Infix

/-!
# Checked execution of C code

A C function is a function into `Checked`: it returns a value or it reaches one of the faults below, where the C
standard no longer says what happens.  A `for` loop whose body may leave the loop (`return`, `goto`, `break`) is
`forEach`: the body says for every element whether to go on, with which state, or to leave, with which result.
`Ensures` is total correctness: no fault is reached, and the result is right.
The rules at the end are what the proofs about loops use: how a loop splits (`forEach_append_of_next`), what an early
exit is (`forEach_exit_iff`), the invariant rule (`forEach_invariant`), and the loop without state (`scan_next_iff`).
`foldlM_simulates` and `foldlM_exists_iff` are the rules for a run of calls.
-/

namespace CSem

/-- Where the behaviour of a C program is undefined. -/
inductive Fault where
  /-- a null pointer is read or written through -/
  | nullPointer
  /-- an object is read or written past its last cell -/
  | outOfBounds
  /-- the result of an operation on `int` values is none -/
  | signedOverflow
  /-- a function that is defined on values of one type is called on a value of another -/
  | wrongType
  /-- an object that is freed already is freed again -/
  | freedTwice
deriving DecidableEq

abbrev Checked (α : Type) := Except Fault α

instance decidableEqExcept {ε α : Type} [DecidableEq ε] [DecidableEq α] : DecidableEq (Except ε α)
  | .ok a, .ok b => decidable_of_iff (a = b) (by simp)
  | .error e, .error f => decidable_of_iff (e = f) (by simp)
  | .ok _, .error _ => .isFalse (by simp)
  | .error _, .ok _ => .isFalse (by simp)

theorem bind_eq_ok {α β : Type} {x : Checked α} {f : α → Checked β} {b : β} :
    (x >>= f) = .ok b ↔ ∃ a, x = .ok a ∧ f a = .ok b := by
  cases x <;> simp [bind, Except.bind]

theorem bind_eq_error {α β : Type} {x : Checked α} {f : α → Checked β} {e : Fault} :
    (x >>= f) = .error e ↔ x = .error e ∨ ∃ a, x = .ok a ∧ f a = .error e := by
  cases x <;> simp [bind, Except.bind]

@[simp] theorem ok_bind {α β : Type} (a : α) (f : α → Checked β) :
    ((Except.ok a : Checked α) >>= f) = f a := rfl

@[simp] theorem error_bind {α β : Type} (e : Fault) (f : α → Checked β) :
    ((Except.error e : Checked α) >>= f) = .error e := rfl

@[simp] theorem pure_eq_ok {α : Type} (a : α) : (pure a : Checked α) = .ok a := rfl

/-! ### Total correctness -/

section

variable {α : Type} {x : Checked α} {P : α → Prop} {a : α}

end

/-! ### Calls that are tested -/

section

variable {α : Type} {succeeds : Bool} {x : Checked α} {a : α}

/-- A function that is left where a call fails, and goes on to the same result where it does not. -/
theorem unless_eq_ok (h : succeeds = true → x = .ok a) : (if !succeeds then pure a else x) = .ok a := by
  cases succeeds with
  | false => rfl
  | true => exact h rfl

/-- Something is returned only if the call has succeeded. -/
theorem unless_none_eq_some_iff {x : Checked (Option α)} :
    (if !succeeds then pure none else x) = .ok (some a) ↔ succeeds = true ∧ x = .ok (some a) := by
  cases succeeds <;> simp

end

/-- Both computations reach a fault, or their results are related. -/
def SameOutcome {α : Type} (rel : α → α → Prop) : Checked α → Checked α → Prop
  | .ok a, .ok b => rel a b
  | .error _, .error _ => True
  | _, _ => False

theorem sameOutcome_eq_iff {α : Type} {x y : Checked α} :
    SameOutcome Eq x y ↔ ∀ a, x = .ok a ↔ y = .ok a := by
  cases x with
  | error e =>
    cases y with
    | error e' => simp [SameOutcome]
    | ok b => simp [SameOutcome]
  | ok a =>
    cases y with
    | error e' => simp [SameOutcome]
    | ok b =>
      simp only [SameOutcome, Except.ok.injEq]
      constructor
      · rintro rfl c
        rfl
      · intro h
        exact ((h a).1 rfl).symm

/-! ### Memory reads -/

/-- `cells[i]`. -/
def readAt {α : Type} (cells : List α) (i : Nat) : Checked α :=
  match cells[i]? with
  | some a => .ok a
  | none => .error .outOfBounds

/-- `*p`. -/
def deref {α : Type} : Option α → Checked α
  | some a => .ok a
  | none => .error .nullPointer

theorem readAt_eq_ok {α : Type} {cells : List α} {i : Nat} {a : α} :
    readAt cells i = .ok a ↔ cells[i]? = some a := by
  unfold readAt
  split <;> simp_all

@[simp] theorem deref_eq_ok {α : Type} {p : Option α} {a : α} : deref p = .ok a ↔ p = some a := by
  cases p <;> simp [deref]

/-! ### Programs that may not end -/

/-- A run with a bound on its turns; it is `none` when the bound was too small. -/
abbrev Running (α : Type) := ExceptT Fault Option α

/-- A call that returns or reaches a fault. -/
def checked {α : Type} (x : Checked α) : Running α := some x

@[simp] theorem checked_ok_bind {α β : Type} (a : α) (f : α → Running β) : (checked (.ok a) >>= f) = f a := rfl

theorem checked_bind {α β : Type} (x : Checked α) (f : α → Checked β) :
    checked (x >>= f) = (checked x >>= fun a => checked (f a)) := by
  cases x <;> rfl

theorem running_ok_bind {α β : Type} {x : Running α} {a : α} (h : x = some (.ok a)) (f : α → Running β) :
    (x >>= f) = f a := by
  rw [h]
  rfl

theorem running_bind_eq_ok {α β : Type} {x : Running α} {f : α → Running β} {b : β} :
    (x >>= f) = some (.ok b) ↔ ∃ a, x = some (.ok a) ∧ f a = some (.ok b) := by
  rcases x with _ | (e | a)
  · exact iff_of_false nofun fun ⟨_, h, _⟩ => nomatch h
  · exact iff_of_false nofun fun ⟨_, h, _⟩ => nomatch h
  · constructor
    · intro h
      exact ⟨a, rfl, h⟩
    · rintro ⟨a', ha, h⟩
      cases ha
      exact h

section

variable {α : Type} {run run' : Nat → Running α} {P : α → Prop} {a : α} {k : Nat}

/-- With turns enough the program returns, with a result of which the property holds. -/
def EndsIn (run : Nat → Running α) (P : α → Prop) : Prop :=
  ∃ bound, ∀ fuel ≥ bound, ∃ a, run fuel = some (.ok a) ∧ P a

theorem endsIn_of_returns (h : ∀ fuel ≥ k, run fuel = some (.ok a)) : EndsIn run P ↔ P a := by
  constructor
  · rintro ⟨bound, hends⟩
    obtain ⟨a', ha', hP⟩ := hends (max bound k) (Nat.le_max_left bound k)
    rw [h _ (Nat.le_max_right bound k)] at ha'
    cases ha'
    exact hP
  · intro hP
    exact ⟨k, fun fuel hfuel => ⟨a, h fuel hfuel, hP⟩⟩

theorem not_endsIn (h : ∀ fuel, run fuel = none) : ¬ EndsIn run P := by
  rintro ⟨bound, hends⟩
  obtain ⟨a, ha, -⟩ := hends bound (Nat.le_refl bound)
  rw [h bound] at ha
  cases ha

theorem not_endsIn_of_error {f : Fault} (h : ∀ fuel ≥ k, run fuel = some (.error f)) : ¬ EndsIn run P := by
  rintro ⟨bound, hends⟩
  obtain ⟨a, ha, -⟩ := hends (max bound k) (Nat.le_max_left bound k)
  rw [h _ (Nat.le_max_right bound k)] at ha
  cases ha

theorem endsIn_congr (h : ∀ fuel ≥ k, run fuel = run' fuel) : EndsIn run P ↔ EndsIn run' P := by
  constructor
  · rintro ⟨bound, hends⟩
    refine ⟨max bound k, fun fuel hfuel => ?_⟩
    rw [← h fuel (Nat.le_trans (Nat.le_max_right bound k) hfuel)]
    exact hends fuel (Nat.le_trans (Nat.le_max_left bound k) hfuel)
  · rintro ⟨bound, hends⟩
    refine ⟨max bound k, fun fuel hfuel => ?_⟩
    rw [h fuel (Nat.le_trans (Nat.le_max_right bound k) hfuel)]
    exact hends fuel (Nat.le_trans (Nat.le_max_left bound k) hfuel)

end

/-! ### Loops -/

/-- How one turn of a loop ends: the loop goes on with a new state, or it is left with a result. -/
inductive Turn (σ ρ : Type) where
  | next (state : σ)
  | exit (result : ρ)
deriving DecidableEq

variable {α σ ρ : Type}

/-- Run `body` on the elements of the list, in order, until it leaves the loop. -/
def forEach (body : σ → α → Checked (Turn σ ρ)) : σ → List α → Checked (Turn σ ρ)
  | s, [] => .ok (.next s)
  | s, a :: l =>
    match body s a with
    | .ok (.next s') => forEach body s' l
    | .ok (.exit r) => .ok (.exit r)
    | .error e => .error e

variable {body : σ → α → Checked (Turn σ ρ)}

@[simp] theorem forEach_nil {s : σ} : forEach body s [] = .ok (.next s) := rfl

theorem forEach_cons_of_next {s s' : σ} {a : α} {l : List α} (h : body s a = .ok (.next s')) :
    forEach body s (a :: l) = forEach body s' l := by
  simp [forEach, h]

theorem forEach_cons_of_exit {s : σ} {a : α} {l : List α} {r : ρ} (h : body s a = .ok (.exit r)) :
    forEach body s (a :: l) = .ok (.exit r) := by
  simp [forEach, h]

theorem forEach_cons_of_error {s : σ} {a : α} {l : List α} {e : Fault} (h : body s a = .error e) :
    forEach body s (a :: l) = .error e := by
  simp [forEach, h]

theorem forEach_cons_of_leaving {s : σ} {a : α} {l : List α} {x : Checked ρ}
    (h : body s a = x >>= fun r => .ok (.exit r)) : forEach body s (a :: l) = x >>= fun r => .ok (.exit r) := by
  cases x with
  | error e => exact forEach_cons_of_error h
  | ok r => exact forEach_cons_of_exit h

theorem forEach_append_of_next {s t : σ} {l₁ l₂ : List α} (h : forEach body s l₁ = .ok (.next t)) :
    forEach body s (l₁ ++ l₂) = forEach body t l₂ := by
  induction l₁ generalizing s with
  | nil => simp_all
  | cons a l₁ ih =>
    rcases hb : body s a with e | ⟨s' | r⟩
    · simp [forEach_cons_of_error hb] at h
    · rw [forEach_cons_of_next hb] at h
      rw [List.cons_append, forEach_cons_of_next hb, ih h]
    · simp [forEach_cons_of_exit hb] at h

theorem forEach_next_cons_iff {s t : σ} {a : α} {l : List α} :
    forEach body s (a :: l) = .ok (.next t) ↔
      ∃ s', body s a = .ok (.next s') ∧ forEach body s' l = .ok (.next t) := by
  rcases hb : body s a with e | ⟨s' | r⟩ <;> simp [forEach, hb]

theorem forEach_pair {s s' t : σ} {a b : α} (ha : body s a = .ok (.next s')) (hb : body s' b = .ok (.next t)) :
    forEach body s [a, b] = .ok (.next t) := by
  rw [forEach_cons_of_next ha, forEach_cons_of_next hb, forEach_nil]

theorem forEach_next_append_iff {s t : σ} {l₁ l₂ : List α} :
    forEach body s (l₁ ++ l₂) = .ok (.next t) ↔
      ∃ s', forEach body s l₁ = .ok (.next s') ∧ forEach body s' l₂ = .ok (.next t) := by
  induction l₁ generalizing s with
  | nil => simp
  | cons a l₁ ih =>
    simp only [List.cons_append, forEach_next_cons_iff, ih]
    constructor
    · intro ⟨s₁, h₁, s₂, h₂, h₃⟩
      exact ⟨s₂, ⟨s₁, h₁, h₂⟩, h₃⟩
    · intro ⟨s₂, ⟨s₁, h₁, h₂⟩, h₃⟩
      exact ⟨s₁, h₁, s₂, h₂, h₃⟩

/-- A loop is left early at the first element whose turn leaves it. -/
theorem forEach_exit_iff {s : σ} {l : List α} {r : ρ} :
    forEach body s l = .ok (.exit r) ↔
      ∃ pre a post t, l = pre ++ a :: post ∧ forEach body s pre = .ok (.next t) ∧ body t a = .ok (.exit r) := by
  constructor
  · intro h
    induction l generalizing s with
    | nil => simp at h
    | cons a l ih =>
      rcases hb : body s a with e | ⟨s' | r'⟩
      · simp [forEach_cons_of_error hb] at h
      · rw [forEach_cons_of_next hb] at h
        obtain ⟨pre, b, post, t, rfl, hpre, hexit⟩ := ih h
        exact ⟨a :: pre, b, post, t, rfl, by rw [forEach_cons_of_next hb, hpre], hexit⟩
      · rw [forEach_cons_of_exit hb] at h
        cases h
        exact ⟨[], a, l, s, rfl, rfl, hb⟩
  · intro h
    rcases h with ⟨pre, a, post, t, rfl, hpre, hexit⟩
    rw [forEach_append_of_next hpre, forEach_cons_of_exit hexit]

/-- A loop reaches a fault in the first turn that reaches it. -/
theorem forEach_error_iff {s : σ} {l : List α} {e : Fault} :
    forEach body s l = .error e ↔
      ∃ pre a post t, l = pre ++ a :: post ∧ forEach body s pre = .ok (.next t) ∧ body t a = .error e := by
  constructor
  · intro h
    induction l generalizing s with
    | nil => cases h
    | cons a l ih =>
      rcases hb : body s a with e' | ⟨s' | r⟩
      · rw [forEach_cons_of_error hb] at h
        cases h
        exact ⟨[], a, l, s, rfl, rfl, hb⟩
      · rw [forEach_cons_of_next hb] at h
        obtain ⟨pre, b, post, t, rfl, hpre, herror⟩ := ih h
        exact ⟨a :: pre, b, post, t, rfl, by rw [forEach_cons_of_next hb, hpre], herror⟩
      · rw [forEach_cons_of_exit hb] at h
        cases h
  · intro ⟨pre, a, post, t, hl, hpre, herror⟩
    rw [hl, forEach_append_of_next hpre, forEach_cons_of_error herror]

theorem forEach_error {s : σ} {l : List α} {e : Fault} (h : forEach body s l = .error e) :
    ∃ a ∈ l, ∃ t, body t a = .error e := by
  obtain ⟨pre, a, post, t, rfl, -, herror⟩ := forEach_error_iff.1 h
  exact ⟨a, List.mem_append_cons_self, t, herror⟩

/-- The invariant rule: what holds before the loop and is kept by every turn that goes on holds after it. -/
theorem forEach_invariant (I : List α → σ → Prop) {s t : σ} {l : List α} (init : I [] s)
    (step : ∀ pre a t t', I pre t → body t a = .ok (.next t') → I (pre ++ [a]) t')
    (h : forEach body s l = .ok (.next t)) : I l t := by
  induction l using List.reverseRecOn generalizing t with
  | nil =>
    cases h
    exact init
  | append_singleton pre a ih =>
    obtain ⟨s', hpre, hlast⟩ := forEach_next_append_iff.1 h
    obtain ⟨t', hstep, hnil⟩ := forEach_next_cons_iff.1 hlast
    obtain rfl : t' = t := by simpa using hnil
    exact step pre a s' t' (ih hpre) hstep

/-- A property of the state that no turn establishes held at the start if it holds at the end. -/
theorem forEach_back {P : σ → Prop} (back : ∀ s a s', body s a = .ok (.next s') → P s' → P s) {s t : σ} {l : List α}
    (h : forEach body s l = .ok (.next t)) (hend : P t) : P s := by
  induction l generalizing s with
  | nil =>
    cases h
    exact hend
  | cons a l ih =>
    obtain ⟨s', hturn, hrest⟩ := forEach_next_cons_iff.1 h
    exact back s a s' hturn (ih hrest)

/-- Another loop makes the same turns where these start from good states and do not lead too far, which would show at
the end. -/
theorem forEach_next_transfer {τ : Type} {other : σ → α → Checked (Turn σ τ)} {Good Near : σ → Prop}
    (back : ∀ s a s', body s a = .ok (.next s') → Near s' → Near s)
    (step : ∀ s a s', Good s → body s a = .ok (.next s') → Near s' → other s a = .ok (.next s') ∧ Good s')
    {s t : σ} {l : List α} (hgood : Good s) (h : forEach body s l = .ok (.next t)) (hnear : Near t) :
    forEach other s l = .ok (.next t) ∧ Good t := by
  induction l generalizing s with
  | nil =>
    cases h
    exact ⟨rfl, hgood⟩
  | cons a l ih =>
    obtain ⟨s', hturn, hrest⟩ := forEach_next_cons_iff.1 h
    obtain ⟨hother, hgood'⟩ := step s a s' hgood hturn (forEach_back back hrest hnear)
    obtain ⟨hrun, hgoodEnd⟩ := ih hgood' hrest
    exact ⟨forEach_next_cons_iff.2 ⟨s', hother, hrun⟩, hgoodEnd⟩

theorem forEach_of_steady {s : σ} {l : List α} (h : ∀ a ∈ l, body s a = .ok (.next s)) :
    forEach body s l = .ok (.next s) := by
  induction l with
  | nil => rfl
  | cons a l ih =>
    rw [List.forall_mem_cons] at h
    rw [forEach_cons_of_next h.1, ih h.2]

/-- When it depends on the element alone whether a turn goes on, the loop runs to its end exactly when all elements
let it. -/
theorem forEach_next_exists_iff {P : α → Prop} (turn : ∀ s a, (∃ t, body s a = .ok (.next t)) ↔ P a) {s : σ}
    {l : List α} : (∃ t, forEach body s l = .ok (.next t)) ↔ ∀ a ∈ l, P a := by
  induction l generalizing s with
  | nil => simp
  | cons a l ih =>
    rw [List.forall_mem_cons, ← turn s a]
    constructor
    · intro ⟨t, h⟩
      obtain ⟨s', hturn, hrest⟩ := forEach_next_cons_iff.1 h
      exact ⟨⟨s', hturn⟩, ih.1 ⟨t, hrest⟩⟩
    · intro ⟨⟨s', hturn⟩, hrest⟩
      obtain ⟨t, ht⟩ := ih.2 hrest
      exact ⟨t, forEach_next_cons_iff.2 ⟨s', hturn, ht⟩⟩

/-- When the states matter to no more than the states that follow, two runs end in the same way. -/
theorem forEach_parallel (turn : ∀ s s' a,
      (∃ t t', body s a = .ok (.next t) ∧ body s' a = .ok (.next t')) ∨ body s a = body s' a) {s s' : σ} {l : List α} :
    (∃ t t', forEach body s l = .ok (.next t) ∧ forEach body s' l = .ok (.next t')) ∨
      forEach body s l = forEach body s' l := by
  induction l generalizing s s' with
  | nil => exact .inl ⟨s, s', rfl, rfl⟩
  | cons a l ih =>
    rcases turn s s' a with ⟨t, t', h, h'⟩ | heq
    · rw [forEach_cons_of_next h, forEach_cons_of_next h']
      exact ih
    · rcases hb : body s a with e | ⟨t | r⟩
      · rw [forEach_cons_of_error hb, forEach_cons_of_error (heq ▸ hb)]
        exact .inr rfl
      · rw [forEach_cons_of_next hb, forEach_cons_of_next (heq ▸ hb)]
        exact .inr rfl
      · rw [forEach_cons_of_exit hb, forEach_cons_of_exit (heq ▸ hb)]
        exact .inr rfl

/-- What the last of the elements that give a value gives. -/
def lastOf {β : Type} (f : α → Option β) (l : List α) : Option β := (l.filterMap f).getLast?

theorem lastOf_concat {β : Type} (f : α → Option β) (l : List α) (a : α) :
    lastOf f (l ++ [a]) = (f a).or (lastOf f l) := by
  unfold lastOf
  rw [List.filterMap_append, List.getLast?_append]
  cases h : f a <;> simp [h]

/-- A variable that a turn either writes, with a value that depends on the element alone, or keeps. -/
theorem forEach_lastOf {β : Type} (view : σ → β) (f : α → Option β) {s t : σ} {l : List α}
    (turn : ∀ s a t, body s a = .ok (.next t) → view t = (f a).getD (view s))
    (h : forEach body s l = .ok (.next t)) : view t = (lastOf f l).getD (view s) := by
  refine forEach_invariant (fun pre t => view t = (lastOf f pre).getD (view s)) rfl ?_ h
  intro pre a t t' hpre hturn
  rw [turn t a t' hturn, hpre, lastOf_concat]
  cases f a <;> rfl

/-- A loop whose every turn writes such a variable, or keeps it, runs to its end. -/
theorem forEach_assign {β : Type} {body : Option β → α → Checked (Turn (Option β) ρ)} {f : α → Option β} {l : List α}
    (turn : ∀ s, ∀ a ∈ l, body s a = .ok (.next ((f a).or s))) (s : Option β) :
    forEach body s l = .ok (.next ((lastOf f l).or s)) := by
  induction l using List.reverseRecOn with
  | nil => rfl
  | append_singleton l a ih =>
    have hfront := ih fun s b hb => turn s b (List.mem_append_left _ hb)
    have hlast := turn ((lastOf f l).or s) a (List.mem_append_right _ List.mem_cons_self)
    rw [forEach_append_of_next hfront, forEach_cons_of_next hlast, forEach_nil, lastOf_concat, Option.or_assoc]

/-- A loop without state runs to its end exactly when every element lets it go on. -/
theorem scan_next_iff {body : Unit → α → Checked (Turn Unit ρ)} {l : List α} :
    forEach body () l = .ok (.next ()) ↔ ∀ a ∈ l, body () a = .ok (.next ()) := by
  induction l with
  | nil => simp
  | cons a l ih =>
    rw [forEach_next_cons_iff, List.forall_mem_cons, ← ih]
    constructor
    · intro h
      rcases h with ⟨⟨⟩, ha, hl⟩
      exact ⟨ha, hl⟩
    · intro ⟨ha, hl⟩
      exact ⟨(), ha, hl⟩

/-- Where a counted loop is left, all earlier turns went on. -/
theorem scan_range_exit_iff {body : Unit → Nat → Checked (Turn Unit ρ)} {n : Nat} {r : ρ} :
    forEach body () (List.range n) = .ok (.exit r) ↔
      ∃ j < n, body () j = .ok (.exit r) ∧ ∀ k < j, body () k = .ok (.next ()) := by
  rw [forEach_exit_iff]
  constructor
  · intro h
    rcases h with ⟨pre, j, post, ⟨⟩, hsplit, hpre, hexit⟩
    have hlen := congrArg List.length hsplit
    simp only [List.length_range, List.length_append, List.length_cons] at hlen
    have hj : (List.range n)[pre.length]? = some j := by rw [hsplit]; simp
    rw [List.getElem?_range (by omega)] at hj
    cases hj
    have htake : pre = List.range pre.length := by
      have h := congrArg (List.take pre.length) hsplit
      rw [List.take_range, List.take_left, Nat.min_eq_left (by omega)] at h
      exact h.symm
    refine ⟨pre.length, by omega, hexit, ?_⟩
    intro k hk
    rw [htake] at hpre
    exact scan_next_iff.1 hpre k (List.mem_range.2 hk)
  · intro ⟨j, hj, hexit, hnext⟩
    obtain ⟨d, rfl⟩ := Nat.exists_eq_add_of_lt hj
    refine ⟨List.range j, j, List.range' (j + 1) d, (), ?_, ?_, hexit⟩
    · have happend := List.range'_append_1 (s := 0) (m := j) (n := d + 1)
      rw [List.range'_succ, Nat.zero_add] at happend
      rw [List.range_eq_range', List.range_eq_range', happend, Nat.add_assoc]
    · exact scan_next_iff.2 fun k hk => hnext k (List.mem_range.1 hk)

theorem forEach_map {β : Type} {f : β → α} {s : σ} {l : List β} :
    forEach body s (l.map f) = forEach (fun s b => body s (f b)) s l := by
  induction l generalizing s with
  | nil => rfl
  | cons b l ih => simp only [List.map_cons, forEach, ih]

/-- A loop over the indices of an array that reads its cells in turn is the loop over the cells. -/
theorem forEach_range_readAt {cells : List α} {s : σ} :
    forEach (fun s i => readAt cells i >>= body s) s (List.range cells.length) = forEach body s cells := by
  induction cells generalizing s with
  | nil => rfl
  | cons a cells ih =>
    rw [List.length_cons, List.range_succ_eq_map]
    have hread : ∀ i, readAt (a :: cells) (i + 1) = readAt cells i := fun i => rfl
    simp only [forEach, forEach_map, Nat.succ_eq_add_one, hread, ih]
    rfl

/-! ### Maps and folds -/

/-- A list is mapped by calls that all return, each to the element in its place. -/
theorem mapM_eq_ok_iff {β : Type} {f : α → Checked β} {l : List α} {r : List β} :
    l.mapM f = .ok r ↔ List.Forall₂ (fun a b => f a = .ok b) l r := by
  induction l generalizing r with
  | nil =>
    rw [List.mapM_nil, List.forall₂_nil_left_iff, pure_eq_ok, Except.ok.injEq]
    exact eq_comm
  | cons a l ih =>
    rw [List.mapM_cons, List.forall₂_cons_left_iff, bind_eq_ok]
    simp only [bind_eq_ok, pure_eq_ok, Except.ok.injEq, ih]
    constructor
    · intro ⟨b, hb, r', hr', heq⟩
      exact ⟨b, r', hb, hr', heq.symm⟩
    · intro ⟨b, r', hb, hr', heq⟩
      exact ⟨b, hb, r', hr', heq.symm⟩

/-- Where a test is defined on every element, a list is filtered by it. -/
theorem filterM_eq_ok {test : α → Checked Bool} {p : α → Bool} {l : List α} (h : ∀ a ∈ l, test a = .ok (p a)) :
    l.filterM test = .ok (l.filter p) := by
  have haux : ∀ acc, l.filterAuxM test acc = .ok ((l.filter p).reverse ++ acc) := by
    induction l with
    | nil => exact fun _ => rfl
    | cons a l ih =>
      intro acc
      rw [List.forall_mem_cons] at h
      rw [List.filterAuxM, h.1, ok_bind, ih h.2]
      cases hp : p a with
      | false => simp [hp]
      | true => simp [hp]
  rw [List.filterM, haux, ok_bind, List.append_nil, List.reverse_reverse, pure_eq_ok]

/-- A loop over the indices of an array that fills the cell at each index from the element there. -/
theorem forEach_fill {β : Type} {f : α → Checked β} {body : List β → Nat → Checked (Turn (List β) ρ)} {l : List α}
    {cells : List β} (hlen : cells.length = l.length)
    (step : ∀ pre c post a, l[pre.length]? = some a → cells[pre.length]? = some c →
      body (pre ++ c :: post) pre.length = f a >>= fun b => .ok (.next (pre ++ b :: post))) :
    forEach body cells (List.range l.length) = l.mapM f >>= fun r => .ok (.next r) := by
  have hfill : ∀ (rest : List α) (done : List α) (pre post : List β), l = done ++ rest → pre.length = done.length →
      post.length = rest.length → (∀ i, post[i]? = cells[pre.length + i]?) →
      forEach body (pre ++ post) (List.range' pre.length rest.length) =
        rest.mapM f >>= fun r => .ok (.next (pre ++ r)) := by
    intro rest
    induction rest with
    | nil =>
      intro done pre post _ _ hpost _
      rw [List.eq_nil_of_length_eq_zero hpost]
      rfl
    | cons a rest ih =>
      intro done pre post hl hpre hpost hcells
      obtain ⟨c, post, rfl⟩ := List.exists_cons_of_length_eq_add_one hpost
      have ha : l[pre.length]? = some a := by
        rw [hl, hpre, List.getElem?_append_right (Nat.le_refl _), Nat.sub_self]
        rfl
      have hturn := step pre c post a ha (hcells 0).symm
      rw [List.length_cons, List.range'_succ, List.mapM_cons]
      cases hb : f a with
      | error e =>
        rw [hb] at hturn
        exact forEach_cons_of_error hturn
      | ok b =>
        rw [hb] at hturn
        have hrest := ih (done ++ [a]) (pre ++ [b]) post (by rw [hl]; simp) (by simp [hpre])
          (by simpa using hpost) ?_
        · rw [List.length_append, List.length_singleton, List.append_assoc, List.singleton_append] at hrest
          rw [forEach_cons_of_next hturn, hrest, ok_bind]
          cases rest.mapM f with
          | error e => rfl
          | ok r => exact congrArg (fun l => Except.ok (Turn.next l)) (List.append_assoc pre [b] r)
        · intro i
          rw [List.length_append, List.length_singleton, Nat.add_assoc, Nat.add_comm 1, ← hcells (i + 1)]
          rfl
  have h := hfill l [] [] cells rfl rfl hlen (fun i => by rw [List.length_nil, Nat.zero_add])
  rw [List.length_nil, ← List.range_eq_range'] at h
  exact h

variable {τ : Type} {f : σ → α → Checked σ}

/-- The simulation rule for a fold: what every step keeps in step with an abstract step is so after the run. -/
theorem foldlM_simulates {g : τ → α → τ} (R : σ → τ → Prop)
    (step : ∀ s t a s', R s t → f s a = .ok s' → R s' (g t a)) {s s' : σ} {t : τ} {l : List α} (init : R s t)
    (h : l.foldlM f s = .ok s') : R s' (l.foldl g t) := by
  induction l generalizing s t with
  | nil =>
    cases h
    exact init
  | cons a l ih =>
    obtain ⟨mid, hmid, hrest⟩ := bind_eq_ok.1 h
    exact ih (step s t a mid init hmid) hrest

/-- When it depends on the element alone whether a step is defined, the run is exactly when all its steps are. -/
theorem foldlM_exists_iff {P : α → Prop} (step : ∀ s a, (∃ s', f s a = .ok s') ↔ P a) {s : σ} {l : List α} :
    (∃ s', l.foldlM f s = .ok s') ↔ ∀ a ∈ l, P a := by
  induction l generalizing s with
  | nil => exact iff_of_true ⟨s, rfl⟩ (by simp)
  | cons a l ih =>
    rw [List.forall_mem_cons, ← step s a]
    constructor
    · intro ⟨s', h⟩
      obtain ⟨mid, hmid, hrest⟩ := bind_eq_ok.1 h
      exact ⟨⟨mid, hmid⟩, ih.1 ⟨s', hrest⟩⟩
    · intro ⟨⟨mid, hmid⟩, hrest⟩
      have hdefined : ∃ s', l.foldlM f mid = .ok s' := ih.2 hrest
      obtain ⟨s', hs'⟩ := hdefined
      exact ⟨s', bind_eq_ok.2 ⟨mid, hmid, hs'⟩⟩

end CSem
