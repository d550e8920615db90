import PortableTlsRa.Lib.Checked

/-!
# Programs that are used again and again

A program that is called many times, each time on the state that the last call has left (`runAll`), and a machine that
says what the calls come to.  The calls perform operations of the machine, each in the state that the machine is in by
then (`Along`).  If every call simulates its operation then so does every run of calls (`Simulates.run`).
-/

namespace CSem

variable {σ ι ο α κ β : Type}

/-- The calls one after the other. -/
def runAll (step : σ → ι → Checked (ο × σ)) : σ → List ι → Checked (List ο × σ)
  | s, [] => .ok ([], s)
  | s, i :: is => do
    let (o, s) ← step s i
    let (os, s) ← runAll step s is
    return (o :: os, s)

/-- The relation holds at every operation, in the state that the machine is in by then. -/
inductive Along (after : α → κ → α) (P : α → κ → β → Prop) : α → List κ → List β → Prop
  | nil {a : α} : Along after P a [] []
  | cons {a : α} {k : κ} {b : β} {ks : List κ} {bs : List β} : P a k b → Along after P (after a k) ks bs →
      Along after P a (k :: ks) (b :: bs)

variable {after : α → κ → α} {P : α → κ → β → Prop} {a : α} {k : κ} {ks : List κ}

/-- What holds along a run holds at its last operation. -/
theorem Along.exists_last {bs : List β} (h : Along after P a (ks ++ [k]) bs) :
    ∃ bs' b, bs = bs' ++ [b] ∧ P (ks.foldl after a) k b := by
  induction ks generalizing a bs with
  | nil =>
    cases h with
    | cons hb hrest =>
      cases hrest
      exact ⟨[], _, rfl, hb⟩
  | cons k' ks ih =>
    cases h with
    | @cons _ _ b' _ bs _ hrest =>
      obtain ⟨bs', b, rfl, hb⟩ := ih hrest
      exact ⟨b' :: bs', b, rfl, hb⟩

/-- Every call performs its operation, shows what it should, and keeps the states related. -/
structure Simulates (step : σ → ι → Checked (ο × σ)) (after : α → κ → α) (performs : α → κ → ι → Prop)
    (shows : α → κ → ο → Prop) (related : σ → α → Prop) : Prop where
  step : ∀ {s a i k}, related s a → performs a k i →
    ∃ o s', step s i = .ok (o, s') ∧ shows a k o ∧ related s' (after a k)

theorem Simulates.run {step : σ → ι → Checked (ο × σ)} {performs : α → κ → ι → Prop} {shows : α → κ → ο → Prop}
    {related : σ → α → Prop} (simulates : Simulates step after performs shows related) {s : σ} {is : List ι}
    (hs : related s a) (h : Along after performs a ks is) :
    ∃ os s', runAll step s is = .ok (os, s') ∧ Along after shows a ks os ∧ related s' (ks.foldl after a) := by
  induction h generalizing s with
  | nil => exact ⟨[], s, rfl, .nil, hs⟩
  | cons hperforms _ ih =>
    obtain ⟨o, s₁, hstep, hshows, hs₁⟩ := simulates.step hs hperforms
    obtain ⟨os, s', hrun, hall, hs'⟩ := ih hs₁
    refine ⟨o :: os, s', ?_, .cons hshows hall, hs'⟩
    rw [runAll, hstep, ok_bind]
    dsimp only
    rw [hrun]
    rfl

end CSem
