import PortableTlsRa.Lib.Bytes

/-!
# Stream sockets

The receiving end of a stream socket is the list of what arrives there: bytes that one call can take together, or the
error of a call.  After the last arrival the peer has closed the connection.  `Carries` says that the arrivals are a
way to split a byte string; every call then takes a non-empty part of it off the front (`Carries.recv`).
-/

namespace CSem

inductive Arrival where
  | bytes (chunk : Bytes)
  | failed
deriving DecidableEq

/-- `recv(sock, buf, room, 0)`: the bytes that are put at `buf`, or `none` for -1, and what arrives after the call. -/
def recv (room : Nat) : List Arrival → Option Bytes × List Arrival
  | [] => (some [], [])
  | .failed :: arrivals => (none, arrivals)
  | .bytes chunk :: arrivals =>
    if chunk.length ≤ room then (some chunk, arrivals)
    else (some (chunk.take room), .bytes (chunk.drop room) :: arrivals)

/-- The arrivals are the bytes, split into non-empty parts, and the end of the stream. -/
inductive Carries : List Arrival → Bytes → Prop where
  | eof : Carries [] []
  | chunk {chunk : Bytes} {arrivals : List Arrival} {b : Bytes} : chunk ≠ [] → Carries arrivals b →
      Carries (.bytes chunk :: arrivals) (chunk ++ b)

variable {arrivals : List Arrival} {b : Bytes} {room : Nat}

theorem Carries.single {chunk : Bytes} (h : chunk ≠ []) : Carries [.bytes chunk] chunk := by
  have hcarries : Carries [.bytes chunk] (chunk ++ []) := .chunk h .eof
  rwa [List.append_nil] at hcarries

/-- The arrivals determine the bytes. -/
theorem Carries.unique {b' : Bytes} (h : Carries arrivals b) (h' : Carries arrivals b') : b = b' := by
  induction h generalizing b' with
  | eof =>
    cases h'
    rfl
  | chunk _ _ ih =>
    cases h' with
    | chunk _ hrest => rw [ih hrest]

theorem Carries.recv (h : Carries arrivals b) (hb : b ≠ []) (hroom : 0 < room) :
    ∃ data rest arrivals', data ≠ [] ∧ data.length ≤ room ∧ b = data ++ rest ∧
      CSem.recv room arrivals = (some data, arrivals') ∧ Carries arrivals' rest := by
  cases h with
  | eof => exact absurd rfl hb
  | @chunk chunk arrivals b hchunk harrivals =>
    by_cases hle : chunk.length ≤ room
    · exact ⟨chunk, b, arrivals, hchunk, hle, rfl, by rw [CSem.recv, if_pos hle], harrivals⟩
    · have htake : chunk.take room ≠ [] := by
        rw [Ne, List.take_eq_nil_iff]
        rintro (rfl | rfl)
        · omega
        · exact hchunk rfl
      have hdrop : chunk.drop room ≠ [] := by
        rw [Ne, List.drop_eq_nil_iff]
        exact hle
      refine ⟨chunk.take room, chunk.drop room ++ b, .bytes (chunk.drop room) :: arrivals, htake, ?_, ?_, ?_, ?_⟩
      · exact List.length_take_le room chunk
      · rw [← List.append_assoc, List.take_append_drop]
      · rw [CSem.recv, if_neg hle]
      · exact .chunk hdrop harrivals

/-- At the end of the stream every call receives nothing. -/
theorem Carries.recv_nil (h : Carries arrivals []) : CSem.recv room arrivals = (some [], arrivals) := by
  generalize hb : ([] : Bytes) = b at h
  cases h with
  | eof => rfl
  | chunk hchunk _ => exact absurd (List.append_eq_nil_iff.1 hb.symm).1 hchunk

/-- No call receives more than it asks for. -/
theorem recv_length_le {data : Bytes} {arrivals' : List Arrival}
    (h : CSem.recv room arrivals = (some data, arrivals')) :
    data.length ≤ room := by
  cases arrivals with
  | nil =>
    cases h
    exact Nat.zero_le room
  | cons arrival arrivals =>
    cases arrival with
    | failed => cases h
    | bytes chunk =>
      rw [CSem.recv] at h
      split_ifs at h with hle
      · cases h
        exact hle
      · cases h
        exact List.length_take_le room chunk

/-- What is received is the front of what is asked for. -/
theorem received_front {front rest data others : Bytes} (hsplit : front ++ rest = data ++ others)
    (hle : data.length ≤ front.length) : ∃ front', front = data ++ front' ∧ others = front' ++ rest := by
  rcases List.append_eq_append_iff.1 hsplit with ⟨between, hdata, hrest⟩ | ⟨front', hfront, hothers⟩
  · have hnil : between = [] := by
      apply List.eq_nil_of_length_eq_zero
      rw [hdata, List.length_append] at hle
      omega
    subst hnil
    rw [List.append_nil] at hdata
    exact ⟨[], by rw [hdata, List.append_nil], hrest.symm⟩
  · exact ⟨front', hfront, hothers⟩

end CSem
