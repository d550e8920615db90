import Mathlib.Data.Set.Function
import Mathlib.Logic.Function.Basic

/-!
# Messages bound to a nonce by a hash

`bound H join m n` is the hash of the digest of `m` joined with the nonce `n`.  No hash is injective, so the
statements below ask for a hash without collisions on a given set of messages: the hashed messages of the two
computations that are compared (`boundMessages`).
-/

namespace HashBinding

universe u v w

variable {M : Type u} {D : Type v} {N : Type w} (H : M → D) (join : D → N → M)

/-- `H (H m ‖ n)`. -/
def bound (m : M) (n : N) : D := H (join (H m) n)

/-- The messages that are hashed on the way to `bound H join m n`. -/
def boundMessages (m : M) (n : N) : Set M := {m, join (H m) n}

variable {H join}

/-- Without collisions a bound digest determines both the message and the nonce. -/
theorem bound_injective (hjoin : Function.Injective2 join) {m m' : M} {n n' : N}
    (free : Set.InjOn H (boundMessages H join m n ∪ boundMessages H join m' n'))
    (h : bound H join m n = bound H join m' n') : m = m' ∧ n = n' := by
  have hm : m ∈ boundMessages H join m n ∪ boundMessages H join m' n' := by simp [boundMessages]
  have hm' : m' ∈ boundMessages H join m n ∪ boundMessages H join m' n' := by simp [boundMessages]
  have houter : join (H m) n = join (H m') n' := free (by simp [boundMessages]) (by simp [boundMessages]) h
  obtain ⟨hinner, hn⟩ := hjoin houter
  exact ⟨free hm hm' hinner, hn⟩

end HashBinding
