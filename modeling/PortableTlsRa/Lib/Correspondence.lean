import Mathlib.Data.List.Induction

/-!
# Histories and correspondences

A system of any number of parties as the set of its histories: an event is appended where the events before allow it,
and nothing is said about whose turn it is (`Run`).  What a protocol is for is then a correspondence: every event of
one kind in a history comes after a related event of another kind.  That one event comes before another is
`[e, f] <+ events`.  What the guard of an event asks for was there before (`Run.exists_pre`), and an event that uses a
key comes after the event that has opened the key, if a key is opened only while nothing has used it
(`Run.sublist_of_fresh`).
-/

namespace Protocol

open scoped List

universe u v

variable {ε : Type u} {κ : Type v} {allowed : List ε → ε → Prop} {events pre post : List ε} {e f : ε}

/-- The histories in which every event is allowed by the events before it. -/
inductive Run (allowed : List ε → ε → Prop) : List ε → Prop
  | nil : Run allowed []
  | step {events : List ε} {e : ε} : Run allowed events → allowed events e → Run allowed (events ++ [e])

theorem Run.last (h : Run allowed (pre ++ [e])) : Run allowed pre ∧ allowed pre e := by
  generalize hevents : pre ++ [e] = events at h
  cases h with
  | nil => simp at hevents
  | step hrun hallowed =>
    obtain ⟨rfl, he⟩ := List.append_inj' hevents rfl
    obtain rfl : e = _ := by simpa using he
    exact ⟨hrun, hallowed⟩

/-- What has happened up to any moment is a history. -/
theorem Run.of_append (h : Run allowed (pre ++ post)) : Run allowed pre := by
  induction post using List.reverseRecOn with
  | nil => simpa using h
  | append_singleton post e ih =>
    rw [← List.append_assoc] at h
    exact ih h.last.1

/-- Every event was allowed when it happened. -/
theorem Run.allowed_at (h : Run allowed (pre ++ e :: post)) : Run allowed pre ∧ allowed pre e := by
  rw [List.append_cons] at h
  exact h.of_append.last

/-- An event is allowed by what has happened before it. -/
theorem Run.exists_pre (h : Run allowed events) (he : e ∈ events) :
    ∃ pre post, events = pre ++ e :: post ∧ Run allowed pre ∧ allowed pre e := by
  obtain ⟨pre, post, rfl⟩ := List.append_of_mem he
  exact ⟨pre, post, rfl, h.allowed_at⟩

/-- An event comes before another one if it is among the events before it. -/
theorem pair_sublist_iff : [e, f] <+ events ↔ ∃ pre post, events = pre ++ f :: post ∧ e ∈ pre := by
  constructor
  · intro h
    obtain ⟨front, back, rfl, he, hf⟩ := List.cons_sublist_iff.1 h
    obtain ⟨mid, post, rfl⟩ := List.append_of_mem (List.singleton_sublist.1 hf)
    exact ⟨front ++ mid, post, (List.append_assoc front mid _).symm, List.mem_append_left mid he⟩
  · rintro ⟨pre, post, rfl, he⟩
    exact (List.singleton_sublist.2 he).append ((List.nil_sublist post).cons_cons f)

/-- What stands before an event stands before it in every longer history. -/
theorem sublist_append_cons {order : List ε} (h : order <+ pre) : order ++ [f] <+ pre ++ f :: post :=
  h.append ((List.nil_sublist post).cons_cons f)

/-- A key is opened only by an event before which no event has used it. -/
def Fresh (allowed : List ε → ε → Prop) (opens uses : ε → κ → Prop) : Prop :=
  ∀ pre e k, allowed pre e → opens e k → ∀ f ∈ pre, ¬ uses f k

/-- An event that uses a key comes after the event that opens it. -/
theorem Run.sublist_of_fresh {opens uses : ε → κ → Prop} (fresh : Fresh allowed opens uses) (h : Run allowed events)
    {k : κ} (he : e ∈ events) (hf : f ∈ events) (hne : e ≠ f) (hopens : opens e k) (huses : uses f k) :
    [e, f] <+ events := by
  obtain ⟨pre, post, rfl⟩ := List.append_of_mem he
  have hpre : f ∉ pre := fun hmem => fresh pre e k h.allowed_at.2 hopens f hmem huses
  have hpost : f ∈ post := by
    simp only [List.mem_append, List.mem_cons] at hf
    rcases hf with hf | rfl | hf
    · exact absurd hf hpre
    · exact absurd rfl hne
    · exact hf
  exact ((List.singleton_sublist.2 hpost).cons_cons e).trans (List.sublist_append_right pre _)

/-- A key is opened by one event at most. -/
theorem Run.opens_unique {opens uses : ε → κ → Prop} (fresh : Fresh allowed opens uses) (h : Run allowed events)
    (huses : ∀ e k, opens e k → uses e k) {k : κ} (he : e ∈ events) (hf : f ∈ events) (hopens : opens e k)
    (hopens' : opens f k) : e = f := by
  by_contra hne
  have hsublist := h.sublist_of_fresh fresh he hf hne hopens (huses f k hopens')
  obtain ⟨pre, post, rfl, hmem⟩ := pair_sublist_iff.1 hsublist
  exact fresh pre f k h.allowed_at.2 hopens' e hmem (huses e k hopens)

end Protocol
