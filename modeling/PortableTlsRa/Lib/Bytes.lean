import PortableTlsRa.Lib.Checked
import Mathlib.Data.List.TakeWhile

/-!
# Bytes, buffers and strings

Byte strings with a length, buffers of a fixed size, and the calls of `string.h` on them.  A `ByteBuf n` carries
the proof of its size and a `CString` the proof that it has no NUL byte, so that a comparison of two strings is a
comparison of lists.  `strncmpEq` is the test `!strncmp("literal", cp, clen)` on the `clen` bytes at `cp`: it
accepts every prefix of the literal (`strncmpEq_iff`), the empty one included.
-/

namespace CSem

abbrev Bytes := List UInt8

/-- A byte buffer of `n` cells. -/
abbrev ByteBuf (n : Nat) := { cells : Bytes // cells.length = n }

/-- `memset(buf, 0, n)`. -/
def ByteBuf.zero (n : Nat) : ByteBuf n := ⟨List.replicate n 0, List.length_replicate⟩

instance (n : Nat) : Inhabited (ByteBuf n) := ⟨ByteBuf.zero n⟩

/-- The bytes of a literal. -/
def lit (s : String) : Bytes := s.toList.map fun c => UInt8.ofNat c.toNat

/-- A string without its terminating NUL byte. -/
abbrev CString := { chars : Bytes // (0 : UInt8) ∉ chars }

/-- `!strcmp(a, b)`. -/
def strcmpEq (a b : Option CString) : Checked Bool := do
  let s ← deref a
  let t ← deref b
  return decide (s = t)

theorem strcmpEq_eq_ok {a b : Option CString} {r : Bool} :
    strcmpEq a b = .ok r ↔ ∃ s t, a = some s ∧ b = some t ∧ decide (s = t) = r := by
  cases a <;> cases b <;> simp [strcmpEq, deref]

theorem strcmpEq_eq_true {a b : Option CString} : strcmpEq a b = .ok true ↔ ∃ s, a = some s ∧ b = some s := by
  simp [strcmpEq_eq_ok]

/-- The bytes before the first NUL byte. -/
def untilNul (b : Bytes) : CString :=
  ⟨b.takeWhile (· ≠ 0), fun hmem => by simpa using List.mem_takeWhile_imp hmem⟩

/-- A literal as a string. -/
def cstr (s : String) : CString := untilNul (lit s)

theorem untilNul_append (s : CString) (post : Bytes) : untilNul (s.1 ++ 0 :: post) = s := by
  obtain ⟨chars, hchars⟩ := s
  apply Subtype.ext
  show (chars ++ 0 :: post).takeWhile (· ≠ 0) = chars
  induction chars with
  | nil => rfl
  | cons c chars ih =>
    rw [List.mem_cons, not_or] at hchars
    rw [List.cons_append, List.takeWhile_cons_of_pos (by simpa using Ne.symm hchars.1), ih hchars.2]

theorem untilNul_self (s : CString) : untilNul s.1 = s := by
  apply Subtype.ext
  apply List.takeWhile_eq_self_iff.2
  intro c hc
  have hne : c ≠ 0 := by
    intro hzero
    exact s.2 (hzero ▸ hc)
  simpa using hne

/-- `!strncmp(literal, cp, clen)`, for the `clen` bytes at `cp`. -/
def strncmpEq : Bytes → Bytes → Bool
  | _, [] => true
  | [], b :: _ => b == 0
  | a :: literal, b :: s => a == b && strncmpEq literal s

theorem strncmpEq_iff {literal s : Bytes} :
    strncmpEq literal s = true ↔ s <+: literal ∨ literal ++ [0] <+: s := by
  induction literal generalizing s with
  | nil =>
    cases s with
    | nil => simp [strncmpEq]
    | cons b s =>
      simp only [strncmpEq, beq_iff_eq, List.nil_append, List.prefix_nil, reduceCtorEq, false_or,
        List.cons_prefix_cons, List.nil_prefix, and_true]
      exact eq_comm
  | cons a literal ih =>
    cases s with
    | nil => simp [strncmpEq]
    | cons b s =>
      simp only [strncmpEq, Bool.and_eq_true, beq_iff_eq, ih, List.cons_append, List.cons_prefix_cons]
      constructor
      · intro h
        rcases h with ⟨rfl, h | h⟩
        · exact .inl ⟨rfl, h⟩
        · exact .inr ⟨rfl, h⟩
      · intro h
        rcases h with ⟨rfl, h⟩ | ⟨rfl, h⟩
        · exact ⟨rfl, .inl h⟩
        · exact ⟨rfl, .inr h⟩

@[simp] theorem strncmpEq_self (literal : Bytes) : strncmpEq literal literal = true :=
  strncmpEq_iff.2 (.inl List.prefix_rfl)

/-! ### Memory -/

/-- `!memcmp(a, b, n)`. -/
def memcmpEq (a b : Bytes) (n : Nat) : Checked Bool :=
  if n ≤ a.length ∧ n ≤ b.length then .ok (a.take n == b.take n) else .error .outOfBounds

theorem memcmpEq_eq_true {a b : Bytes} {n : Nat} :
    memcmpEq a b n = .ok true ↔ n ≤ a.length ∧ n ≤ b.length ∧ a.take n = b.take n := by
  unfold memcmpEq
  split
  · rename_i h
    simp [h]
  · rename_i h
    simp only [reduceCtorEq, false_iff]
    exact fun h' => h ⟨h'.1, h'.2.1⟩

/-- `memcpy(dst, src, size)`, for the `size` bytes at `src`. -/
def memcpy {n : Nat} (dst : ByteBuf n) (src : Bytes) : Checked (ByteBuf n) :=
  if h : src.length ≤ n then
    .ok ⟨src ++ dst.1.drop src.length, by simp [dst.2]; omega⟩
  else .error .outOfBounds

theorem memcpy_of_length {n : Nat} {dst : ByteBuf n} {src : Bytes} (h : src.length = n) :
    memcpy dst src = .ok ⟨src, h⟩ := by
  subst h
  have hdrop : dst.1.drop src.length = [] := List.drop_eq_nil_of_le (Nat.le_of_eq dst.2)
  simp [memcpy, hdrop]

theorem memcpy_of_le {n : Nat} (dst : ByteBuf n) {src : Bytes} (h : src.length ≤ n) :
    ∃ out, memcpy dst src = .ok out ∧ out.1.take src.length = src :=
  ⟨⟨src ++ dst.1.drop src.length, by simp [dst.2]; omega⟩, by simp [memcpy, h], by simp⟩

theorem memcpy_eq_ok {n : Nat} {dst out : ByteBuf n} {src : Bytes} (h : memcpy dst src = .ok out) :
    out.1 = src ++ dst.1.drop src.length := by
  unfold memcpy at h
  split at h
  · cases h
    rfl
  · cases h

/-- The `n` bytes at offset `off`. -/
def readRange (b : Bytes) (off n : Nat) : Checked Bytes :=
  if off + n ≤ b.length then .ok ((b.drop off).take n) else .error .outOfBounds

theorem readRange_append (pre mid post : Bytes) : readRange (pre ++ mid ++ post) pre.length mid.length = .ok mid := by
  have hle : pre.length + mid.length ≤ (pre ++ mid ++ post).length := by
    simp only [List.length_append]
    omega
  rw [readRange, if_pos hle, List.append_assoc, List.drop_left, List.take_left]

theorem readRange_append_left {b x : Bytes} {off n : Nat} (h : readRange b off n = .ok x) (post : Bytes) :
    readRange (b ++ post) off n = .ok x := by
  unfold readRange at h ⊢
  split_ifs at h with hle
  rw [if_pos (by rw [List.length_append]; omega), List.drop_append_of_le_length (by omega),
    List.take_append_of_le_length (by rw [List.length_drop]; omega), h]

/-! ### Machine integers -/

/-- A little-endian number. -/
def ofLittleEndian : Bytes → Nat
  | [] => 0
  | b :: r => b.toNat + 256 * ofLittleEndian r

/-- The value an `int` has after a `size_t` or an unsigned 32-bit value is assigned to it. -/
def toInt32 (n : Nat) : Int := (BitVec.ofNat 32 n).toInt

theorem toInt32_of_lt {n : Nat} (h : n < 2 ^ 31) : toInt32 n = n := by
  have hmod : n % 2 ^ 32 = n := Nat.mod_eq_of_lt (by omega)
  rw [toInt32, BitVec.toInt_eq_toNat_of_lt (by rw [BitVec.toNat_ofNat, hmod]; omega), BitVec.toNat_ofNat, hmod]

theorem toInt32_of_ge {n : Nat} (h : 2 ^ 31 ≤ n) (hn : n < 2 ^ 32) : toInt32 n = n - 2 ^ 32 := by
  have hmod : n % 2 ^ 32 = n := Nat.mod_eq_of_lt hn
  have hge : ¬ 2 * (BitVec.ofNat 32 n).toNat < 2 ^ 32 := by
    rw [BitVec.toNat_ofNat, hmod]
    omega
  rw [toInt32, BitVec.toInt_eq_toNat_cond, if_neg hge, BitVec.toNat_ofNat, hmod]
  rfl

end CSem
