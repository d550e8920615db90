import PortableTlsRa.Lib.Checked

/-!
# Transfers in parts

A loop that moves `size` bytes with calls that each move a part of them, and that adds the results up in a `size_t`:
an error, -1, is added like any other count.  `move` says for one result what the call did, or that the loop is left
with -1.  A loop that goes on after some results is in a state from which the others are taken
(`transferLoop_going`); an error that it meets is never reported at that step (`not_reported`), so that a loop which
transfers everything it reports is truthful exactly when it meets none (`truthful_iff`).  Where every call moves a
number of bytes that its result gives, as far as there is room, the first error is met exactly when the bytes moved
before it are too few (`MovesBy.truthful_iff`).
-/

namespace CSem

variable {α β : Type}

/-- The loop with `totsz` bytes moved so far; `none` is the result -1.  Returns the code, what was moved and the results
that are left, or waits for more of them. -/
def transferLoop (size : Nat) (move : Nat → β → α → Checked (Option (Nat × β))) :
    Nat → β → List (Option α) → Running (Int × β × List (Option α))
  | _, _, [] => none
  | totsz, moved, none :: results =>
    let totsz := (totsz + (2 ^ 64 - 1)) % 2 ^ 64
    if totsz < size then transferLoop size move totsz moved results else return (0, moved, results)
  | totsz, moved, some r :: results => do
    match ← checked (move totsz moved r) with
    | none => return (-1, moved, results)
    | some (sz, moved) =>
      let totsz := totsz + sz
      if totsz < size then transferLoop size move totsz moved results else return (0, moved, results)

variable {size totsz : Nat} {move : Nat → β → α → Checked (Option (Nat × β))} {moved moved' : β}
  {results front back rest : List (Option α)} {rc : Int}

/-- The results that are left are some of those behind the first. -/
theorem transferLoop_rest (h : transferLoop size move totsz moved results = some (.ok (rc, moved', rest))) :
    rest.length < results.length := by
  induction results generalizing totsz moved with
  | nil => cases h
  | cons r results ih =>
    rw [List.length_cons]
    cases r with
    | none =>
      rw [transferLoop] at h
      split_ifs at h with hmore
      · exact Nat.lt_succ_of_lt (ih h)
      · cases h
        exact Nat.lt_succ_self _
    | some r =>
      rw [transferLoop, running_bind_eq_ok] at h
      obtain ⟨step, -, hstep⟩ := h
      cases step with
      | none =>
        cases hstep
        exact Nat.lt_succ_self _
      | some step =>
        dsimp only at hstep
        split_ifs at hstep with hmore
        · exact Nat.lt_succ_of_lt (ih hstep)
        · cases hstep
          exact Nat.lt_succ_self _

/-- A loop that has ended does not look at further results. -/
theorem transferLoop_append (h : transferLoop size move totsz moved front = some (.ok (rc, moved', rest)))
    (back : List (Option α)) :
    transferLoop size move totsz moved (front ++ back) = some (.ok (rc, moved', rest ++ back)) := by
  induction front generalizing totsz moved with
  | nil => cases h
  | cons r front ih =>
    cases r with
    | none =>
      rw [transferLoop] at h
      rw [List.cons_append, transferLoop]
      split_ifs at h with hmore
      · rw [if_pos hmore]
        exact ih h
      · cases h
        rw [if_neg hmore]
        rfl
    | some r =>
      rw [transferLoop, running_bind_eq_ok] at h
      obtain ⟨step, hmove, hstep⟩ := h
      rw [List.cons_append, transferLoop, running_ok_bind hmove]
      cases step with
      | none =>
        cases hstep
        rfl
      | some step =>
        dsimp only at hstep ⊢
        split_ifs at hstep with hmore
        · rw [if_pos hmore]
          exact ih hstep
        · cases hstep
          rw [if_neg hmore]
          rfl

/-- A loop that has not ended goes on from some state. -/
theorem transferLoop_going (h : transferLoop size move totsz moved front = none) :
    ∃ totsz' moved', ∀ back, transferLoop size move totsz moved (front ++ back) =
      transferLoop size move totsz' moved' back := by
  induction front generalizing totsz moved with
  | nil => exact ⟨totsz, moved, fun _ => rfl⟩
  | cons r front ih =>
    cases r with
    | none =>
      rw [transferLoop] at h
      split_ifs at h with hmore
      · obtain ⟨totsz', moved', hgoing⟩ := ih h
        refine ⟨totsz', moved', fun back => ?_⟩
        rw [List.cons_append, transferLoop, if_pos hmore, hgoing]
      · cases h
    | some r =>
      rw [transferLoop] at h
      cases hmove : move totsz moved r with
      | error f =>
        rw [hmove] at h
        cases h
      | ok step =>
        rw [hmove, checked_ok_bind] at h
        cases step with
        | none => cases h
        | some step =>
          dsimp only at h
          split_ifs at h with hmore
          · obtain ⟨totsz', moved', hgoing⟩ := ih h
            refine ⟨totsz', moved', fun back => ?_⟩
            rw [List.cons_append, transferLoop, hmove, checked_ok_bind]
            dsimp only
            rw [if_pos hmore, hgoing]
          · cases h

/-- Where no call leaves its buffer, the loop waits for more or ends with one of two codes. -/
theorem transferLoop_ends (hmove : ∀ totsz ≤ size, ∀ moved r, ∃ step, move totsz moved r = .ok step)
    (htotsz : totsz ≤ size) (h : transferLoop size move totsz moved results ≠ none) :
    ∃ rc moved' rest, transferLoop size move totsz moved results = some (.ok (rc, moved', rest)) ∧
      (rc = 0 ∨ rc = -1) := by
  induction results generalizing totsz moved with
  | nil => exact absurd rfl h
  | cons r results ih =>
    cases r with
    | none =>
      rw [transferLoop] at h ⊢
      by_cases hmore : (totsz + (2 ^ 64 - 1)) % 2 ^ 64 < size
      · rw [if_pos hmore] at h ⊢
        exact ih (Nat.le_of_lt hmore) h
      · rw [if_neg hmore]
        exact ⟨0, moved, results, rfl, .inl rfl⟩
    | some r =>
      obtain ⟨step, hstep⟩ := hmove totsz htotsz moved r
      rw [transferLoop, hstep, checked_ok_bind] at h ⊢
      cases step with
      | none => exact ⟨-1, moved, results, rfl, .inr rfl⟩
      | some step =>
        dsimp only at h ⊢
        by_cases hmore : totsz + step.1 < size
        · rw [if_pos hmore] at h ⊢
          exact ih (Nat.le_of_lt hmore) h
        · rw [if_neg hmore]
          exact ⟨0, step.2, results, rfl, .inl rfl⟩

/-- The loop goes on after the results, of which none is an error, and the next one is an error. -/
def ErrorMet (size : Nat) (move : Nat → β → α → Checked (Option (Nat × β))) (moved : β) (results : List (Option α)) :
    Prop :=
  ∃ front back, results = front ++ none :: back ∧ none ∉ front ∧ transferLoop size move 0 moved front = none

/-- What a caller relies on: no fault is reached, the code 0 is returned when everything was moved, and an error ends
the loop with a negative code. -/
structure Truthful (run : List (Option α) → Running (Int × β × List (Option α)))
    (complete : List (Option α) → β → Prop) (results : List (Option α)) : Prop where
  inside : ∀ f, run results ≠ some (.error f)
  complete : ∀ moved' rest, run results = some (.ok (0, moved', rest)) →
    ∃ front, results = front ++ rest ∧ complete front moved'
  failing : ∀ front back, results = front ++ none :: back → run front = none →
    ∃ rc moved', rc < 0 ∧ run results = some (.ok (rc, moved', back))

/-- An error does not end the loop with a negative code. -/
theorem not_reported (back : List (Option α)) :
    ¬ ∃ rc moved', rc < 0 ∧ transferLoop size move totsz moved (none :: back) = some (.ok (rc, moved', back)) := by
  rintro ⟨rc, moved', hrc, h⟩
  rw [transferLoop] at h
  split_ifs at h with hmore
  · exact absurd (transferLoop_rest h) (Nat.lt_irrefl _)
  · cases h
    exact absurd hrc (by decide)

variable {complete : List (Option α) → β → Prop}

theorem Truthful.not_errorMet (h : Truthful (transferLoop size move 0 moved) complete results) :
    ¬ ErrorMet size move moved results := by
  rintro ⟨front, back, rfl, -, hfront⟩
  obtain ⟨rc, moved', hrc, hrun⟩ := h.failing front back rfl hfront
  obtain ⟨totsz', state, hgoing⟩ := transferLoop_going hfront
  rw [hgoing] at hrun
  exact not_reported back ⟨rc, moved', hrc, hrun⟩

/-- Where the loop is right about results without an error, it is truthful exactly when it meets none. -/
theorem truthful_iff
    (hplain : ∀ results, none ∉ results → (∀ f, transferLoop size move 0 moved results ≠ some (.error f)) ∧
      ∀ moved' rest, transferLoop size move 0 moved results = some (.ok (0, moved', rest)) →
        ∃ front, results = front ++ rest ∧ complete front moved') :
    Truthful (transferLoop size move 0 moved) complete results ↔ ¬ ErrorMet size move moved results := by
  constructor
  · exact Truthful.not_errorMet
  intro hmet
  by_cases hmem : none ∈ results
  · -- the loop has ended before the first error
    obtain ⟨first, others, rfl, hfirst⟩ := List.eq_append_cons_of_mem hmem
    obtain ⟨hinside, hcomplete⟩ := hplain first hfirst
    rcases hrun : transferLoop size move 0 moved first with _ | (f | ⟨rc, moved', rest⟩)
    · exact absurd ⟨first, others, rfl, hfirst, hrun⟩ hmet
    · exact absurd hrun (hinside f)
    have hall := transferLoop_append hrun (none :: others)
    refine ⟨fun f hf => ?_, fun moved'' rest' h => ?_, fun front back hsplit hfront => ?_⟩
    · rw [hall] at hf
      cases hf
    · rw [hall] at h
      cases h
      obtain ⟨front, hsplit, hdone⟩ := hcomplete _ rest hrun
      exact ⟨front, by rw [hsplit, List.append_assoc], hdone⟩
    · rcases List.append_eq_append_iff.1 hsplit with ⟨between, hlonger, -⟩ | ⟨between, hshorter, hrest⟩
      · rw [hlonger, transferLoop_append hrun] at hfront
        cases hfront
      · cases between with
        | nil =>
          rw [List.append_nil] at hshorter
          rw [hshorter, hfront] at hrun
          cases hrun
        | cons r between =>
          obtain ⟨rfl, -⟩ := List.cons.inj hrest
          exact absurd (by rw [hshorter]; simp) hfirst
  · obtain ⟨hinside, hcomplete⟩ := hplain results hmem
    refine ⟨hinside, hcomplete, ?_⟩
    rintro front back rfl -
    exact absurd (by simp) hmem

/-! ### Calls that move what their result gives -/

/-- Every call moves `count` bytes, or as many as are missing; `stops totsz sz` says that one which moves `sz` bytes
after `totsz` makes the loop return -1.  `I` is what holds of the state when some results have been taken. -/
structure MovesBy (size : Nat) (move : Nat → β → α → Checked (Option (Nat × β))) (count : α → Nat)
    (stops : Nat → Nat → Prop) (I : List α → β → Prop) : Prop where
  leave : ∀ taken moved r, I taken moved → (taken.map count).sum ≤ size →
    stops (taken.map count).sum (min (count r) (size - (taken.map count).sum)) →
    move (taken.map count).sum moved r = .ok none
  next : ∀ taken moved r, I taken moved → (taken.map count).sum ≤ size →
    ¬ stops (taken.map count).sum (min (count r) (size - (taken.map count).sum)) →
    ∃ moved', move (taken.map count).sum moved r =
      .ok (some (min (count r) (size - (taken.map count).sum), moved')) ∧ I (taken ++ [r]) moved'
  idle : stops 0 0

variable {count : α → Nat} {stops : Nat → Nat → Prop} {I : List α → β → Prop} {taken : List α} {r : α}

/-- With the results that were taken these neither move all bytes nor end the loop. -/
def Insufficient (size : Nat) (count : α → Nat) (stops : Nat → Nat → Prop) (taken front : List α) : Prop :=
  ((taken ++ front).map count).sum < size ∧
    ∀ pre r post, front = pre ++ r :: post → ¬ stops ((taken ++ pre).map count).sum (count r)

theorem total_concat (count : α → Nat) (taken : List α) (r : α) :
    ((taken ++ [r]).map count).sum = (taken.map count).sum + count r := by
  rw [List.map_append, List.sum_append, List.map_singleton, List.sum_singleton]

theorem insufficient_cons {front : List α} : Insufficient size count stops taken (r :: front) ↔
    ¬ stops (taken.map count).sum (count r) ∧ Insufficient size count stops (taken ++ [r]) front := by
  have happend : ∀ l, taken ++ r :: l = taken ++ [r] ++ l := fun l => (List.append_assoc taken [r] l).symm
  constructor
  · rintro ⟨hless, hgoing⟩
    refine ⟨?_, by rwa [← happend], fun pre r' post hfront => ?_⟩
    · have hfirst := hgoing [] r front rfl
      rwa [List.append_nil] at hfirst
    · rw [← happend]
      exact hgoing (r :: pre) r' post (by rw [hfront, List.cons_append])
  · rintro ⟨hfirst, hless, hgoing⟩
    refine ⟨by rwa [happend], fun pre r' post hfront => ?_⟩
    cases pre with
    | nil =>
      obtain ⟨rfl, -⟩ := List.cons.inj hfront
      rwa [List.append_nil]
    | cons first pre =>
      obtain ⟨rfl, hrest⟩ := List.cons.inj hfront
      rw [happend]
      exact hgoing pre r' post hrest

/-- How a loop goes without an error: it waits for more, it is left by a result that stops it, or all is moved. -/
theorem MovesBy.run (h : MovesBy size move count stops I) (hI : I taken moved)
    (htaken : (taken.map count).sum < size) (front : List α) :
    (Insufficient size count stops taken front ∧
        transferLoop size move (taken.map count).sum moved (front.map some) = none) ∨
      ¬ Insufficient size count stops taken front ∧
        ((∃ moved' rest, transferLoop size move (taken.map count).sum moved (front.map some) =
            some (.ok (-1, moved', rest))) ∨
          ∃ pre post moved', front = pre ++ post ∧ size ≤ ((taken ++ pre).map count).sum ∧ I (taken ++ pre) moved' ∧
            transferLoop size move (taken.map count).sum moved (front.map some) =
              some (.ok (0, moved', post.map some))) := by
  induction front generalizing taken moved with
  | nil =>
    left
    refine ⟨⟨by rwa [List.append_nil], fun pre r post hnil => ?_⟩, rfl⟩
    exact absurd hnil (by simp)
  | cons r front ih =>
    have hturn : transferLoop size move (taken.map count).sum moved ((r :: front).map some) =
        (checked (move (taken.map count).sum moved r) >>= fun step =>
          match step with
          | none => return (-1, moved, front.map some)
          | some (sz, moved) =>
            let totsz := (taken.map count).sum + sz
            if totsz < size then transferLoop size move totsz moved (front.map some)
            else return (0, moved, front.map some)) := rfl
    rw [hturn]
    by_cases hstops : stops (taken.map count).sum (min (count r) (size - (taken.map count).sum))
    · right
      refine ⟨fun hinsufficient => ?_, .inl ⟨moved, front.map some, ?_⟩⟩
      · obtain ⟨hgoing, hless, -⟩ := insufficient_cons.1 hinsufficient
        rw [List.map_append, List.sum_append, total_concat] at hless
        rw [Nat.min_eq_left (by omega)] at hstops
        exact hgoing hstops
      · rw [h.leave taken moved r hI (Nat.le_of_lt htaken) hstops]
        rfl
    · obtain ⟨moved', hmove, hI'⟩ := h.next taken moved r hI (Nat.le_of_lt htaken) hstops
      rw [hmove, checked_ok_bind]
      dsimp only
      by_cases hmore : (taken.map count).sum + count r < size
      · have hmin : min (count r) (size - (taken.map count).sum) = count r := Nat.min_eq_left (by omega)
        rw [hmin] at hstops ⊢
        have htaken' : ((taken ++ [r]).map count).sum < size := by rwa [total_concat]
        rw [if_pos hmore, insufficient_cons, ← total_concat]
        rcases ih hI' htaken' with ⟨hinsufficient, hrun⟩ | ⟨hinsufficient, hrun | ⟨pre, post, moved'', hfront, hpre⟩⟩
        · exact .inl ⟨⟨hstops, hinsufficient⟩, hrun⟩
        · exact .inr ⟨fun hall => hinsufficient hall.2, .inl hrun⟩
        · rw [List.append_assoc] at hpre
          exact .inr ⟨fun hall => hinsufficient hall.2, .inr ⟨r :: pre, post, moved'', by rw [hfront]; rfl, hpre⟩⟩
      · right
        rw [if_neg (by omega)]
        refine ⟨fun hinsufficient => ?_, .inr ⟨[r], front, moved', rfl, ?_, hI', rfl⟩⟩
        · obtain ⟨-, hless, -⟩ := insufficient_cons.1 hinsufficient
          rw [List.map_append, List.sum_append, total_concat] at hless
          omega
        · rw [total_concat]
          omega

/-- What has been moved when the loop ends with 0. -/
def MovedAll (size : Nat) (count : α → Nat) (I : List α → β → Prop) (front : List (Option α)) (moved : β) : Prop :=
  ∃ taken, front = taken.map some ∧ size ≤ (taken.map count).sum ∧ I taken moved

/-- A loop that has nothing to move is left by the first result that is no error. -/
theorem MovesBy.empty (h : MovesBy 0 move count stops I) (hI : I [] moved) (r : α) (results : List (Option α)) :
    transferLoop 0 move 0 moved (some r :: results) = some (.ok (-1, moved, results)) := by
  have hstops : stops 0 (min (count r) (0 - 0)) := by
    rw [Nat.sub_self, Nat.min_zero]
    exact h.idle
  have hleave : move 0 moved r = .ok none := h.leave [] moved r hI (Nat.le_refl 0) hstops
  rw [transferLoop, hleave]
  rfl

theorem MovesBy.none_iff (h : MovesBy size move count stops I) (hI : I [] moved) {front : List α} :
    transferLoop size move 0 moved (front.map some) = none ↔ front = [] ∨ Insufficient size count stops [] front := by
  cases front with
  | nil => exact iff_of_true rfl (.inl rfl)
  | cons r front =>
    rw [or_iff_right (List.cons_ne_nil r front)]
    rcases Nat.eq_zero_or_pos size with rfl | hsize
    · refine iff_of_false ?_ fun hinsufficient => Nat.not_lt_zero _ hinsufficient.1
      rw [List.map_cons, h.empty hI]
      nofun
    · rcases h.run hI hsize (r :: front) with ⟨hinsufficient, hrun⟩ | ⟨hinsufficient, hrun⟩
      · exact iff_of_true hrun hinsufficient
      · refine iff_of_false (fun hnone => ?_) hinsufficient
        rcases hrun with ⟨moved', rest, hrun⟩ | ⟨pre, post, moved', -, -, -, hrun⟩
        · cases hnone.symm.trans hrun
        · cases hnone.symm.trans hrun

theorem exists_eq_map_some (h : none ∉ results) : ∃ front : List α, results = front.map some := by
  induction results with
  | nil => exact ⟨[], rfl⟩
  | cons r results ih =>
    rw [List.mem_cons, not_or] at h
    obtain ⟨front, rfl⟩ := ih h.2
    obtain ⟨a, rfl⟩ := Option.ne_none_iff_exists'.1 (Ne.symm h.1)
    exact ⟨a :: front, rfl⟩

/-- Without an error the loop is right. -/
theorem MovesBy.plain (h : MovesBy size move count stops I) (hI : I [] moved) (hresults : none ∉ results) :
    (∀ f, transferLoop size move 0 moved results ≠ some (.error f)) ∧
      ∀ moved' rest, transferLoop size move 0 moved results = some (.ok (0, moved', rest)) →
        ∃ front, results = front ++ rest ∧ MovedAll size count I front moved' := by
  obtain ⟨results, rfl⟩ := exists_eq_map_some hresults
  rcases Nat.eq_zero_or_pos size with rfl | hsize
  · cases results with
    | nil => exact ⟨nofun, nofun⟩
    | cons r results =>
      rw [List.map_cons, h.empty hI]
      exact ⟨nofun, nofun⟩
  · rcases h.run hI hsize results with
      ⟨-, hrun⟩ | ⟨-, ⟨moved', rest, hrun⟩ | ⟨pre, post, moved', rfl, hall, hpre, hrun⟩⟩
    · rw [List.map_nil, List.sum_nil] at hrun
      rw [hrun]
      exact ⟨nofun, nofun⟩
    · rw [List.map_nil, List.sum_nil] at hrun
      rw [hrun]
      exact ⟨nofun, nofun⟩
    · rw [List.map_nil, List.sum_nil] at hrun
      rw [hrun]
      refine ⟨nofun, ?_⟩
      intro moved'' rest hreturn
      cases hreturn
      exact ⟨pre.map some, List.map_append, pre, rfl, hall, hpre⟩

/-- A loop of such calls is truthful exactly when it meets no error before it has moved all bytes or is left. -/
theorem MovesBy.truthful_iff (h : MovesBy size move count stops I) (hI : I [] moved) :
    Truthful (transferLoop size move 0 moved) (MovedAll size count I) results ↔
      ¬ ∃ (front : List α) (back : List (Option α)), results = front.map some ++ none :: back ∧
        (front = [] ∨ Insufficient size count stops [] front) := by
  rw [CSem.truthful_iff fun results => h.plain hI, not_iff_not]
  constructor
  · rintro ⟨front, back, rfl, hfront, hrun⟩
    obtain ⟨front, rfl⟩ := exists_eq_map_some hfront
    exact ⟨front, back, rfl, (h.none_iff hI).1 hrun⟩
  · rintro ⟨front, back, rfl, hfront⟩
    exact ⟨front.map some, back, rfl, by simp, (h.none_iff hI).2 hfront⟩

end CSem
