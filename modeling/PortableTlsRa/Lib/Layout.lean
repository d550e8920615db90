import PortableTlsRa.Lib.Bytes
import Mathlib.Logic.Equiv.Defs

/-!
# Records, tables and strings in a buffer

A `Layout` lays the values of a type out in a fixed number of bytes, one for one; layouts are built from those of the
fields with `Layout.prod` and `Layout.map`.  A table is an array of records: `readTable` reads back what
`encodeTable` wrote (`readTable_append`), and every stretch of a buffer of the right length is a table
(`exists_table`).  A string area holds strings that end at a NUL byte (`stringAt_eq_ok_iff`).
-/

namespace CSem

/-! ### Little-endian numbers -/

/-- The last `k` bytes of a number, least significant first. -/
def toLittleEndian : Nat → Nat → Bytes
  | 0, _ => []
  | k + 1, n => UInt8.ofNat (n % 256) :: toLittleEndian k (n / 256)

theorem toLittleEndian_length (k n : Nat) : (toLittleEndian k n).length = k := by
  induction k generalizing n with
  | zero => rfl
  | succ k ih => simp [toLittleEndian, ih]

theorem ofLittleEndian_toLittleEndian {k n : Nat} (h : n < 256 ^ k) : ofLittleEndian (toLittleEndian k n) = n := by
  induction k generalizing n with
  | zero =>
    obtain rfl : n = 0 := by simpa using h
    rfl
  | succ k ih =>
    have hdiv : n / 256 < 256 ^ k := Nat.div_lt_of_lt_mul (by rwa [Nat.pow_succ, Nat.mul_comm] at h)
    have hbyte : (UInt8.ofNat (n % 256)).toNat = n % 256 := by
      rw [UInt8.toNat_ofNat']
      omega
    rw [toLittleEndian, ofLittleEndian, ih hdiv, hbyte]
    omega

theorem ofLittleEndian_lt (b : Bytes) : ofLittleEndian b < 256 ^ b.length := by
  induction b with
  | nil => simp [ofLittleEndian]
  | cons x b ih =>
    have hx : x.toNat < 256 := x.toNat_lt
    rw [ofLittleEndian, List.length_cons, Nat.pow_succ]
    omega

theorem toLittleEndian_ofLittleEndian (b : Bytes) : toLittleEndian b.length (ofLittleEndian b) = b := by
  induction b with
  | nil => rfl
  | cons x b ih =>
    have hx : x.toNat < 256 := x.toNat_lt
    have hmod : (x.toNat + 256 * ofLittleEndian b) % 256 = x.toNat := by omega
    have hdiv : (x.toNat + 256 * ofLittleEndian b) / 256 = ofLittleEndian b := by omega
    rw [List.length_cons, ofLittleEndian, toLittleEndian, hmod, hdiv, ih, UInt8.ofNat_toNat]

/-! ### Layouts -/

/-- The values of a type and the byte strings of one length, one for one. -/
structure Layout (α : Type) where
  size : Nat
  encode : α → Bytes
  decode : Bytes → α
  encode_length : ∀ a, (encode a).length = size
  decode_encode : ∀ a, decode (encode a) = a
  encode_decode : ∀ b, b.length = size → encode (decode b) = b

namespace Layout

variable {α β : Type}

def uint16 : Layout UInt16 where
  size := 2
  encode n := toLittleEndian 2 n.toNat
  decode b := UInt16.ofNat (ofLittleEndian b)
  encode_length n := toLittleEndian_length 2 n.toNat
  decode_encode n := by
    rw [ofLittleEndian_toLittleEndian (n.toNat_lt), UInt16.ofNat_toNat]
  encode_decode b h := by
    have hlt : ofLittleEndian b < 2 ^ 16 := by
      have hpow : (2 : Nat) ^ 16 = 256 ^ 2 := by decide
      rw [hpow, ← h]
      exact ofLittleEndian_lt b
    rw [UInt16.toNat_ofNat', Nat.mod_eq_of_lt hlt, ← h, toLittleEndian_ofLittleEndian]

def uint32 : Layout UInt32 where
  size := 4
  encode n := toLittleEndian 4 n.toNat
  decode b := UInt32.ofNat (ofLittleEndian b)
  encode_length n := toLittleEndian_length 4 n.toNat
  decode_encode n := by
    rw [ofLittleEndian_toLittleEndian (n.toNat_lt), UInt32.ofNat_toNat]
  encode_decode b h := by
    have hlt : ofLittleEndian b < 2 ^ 32 := by
      have hpow : (2 : Nat) ^ 32 = 256 ^ 4 := by decide
      rw [hpow, ← h]
      exact ofLittleEndian_lt b
    rw [UInt32.toNat_ofNat', Nat.mod_eq_of_lt hlt, ← h, toLittleEndian_ofLittleEndian]

def uint64 : Layout UInt64 where
  size := 8
  encode n := toLittleEndian 8 n.toNat
  decode b := UInt64.ofNat (ofLittleEndian b)
  encode_length n := toLittleEndian_length 8 n.toNat
  decode_encode n := by
    rw [ofLittleEndian_toLittleEndian (n.toNat_lt), UInt64.ofNat_toNat]
  encode_decode b h := by
    have hlt : ofLittleEndian b < 2 ^ 64 := by
      have hpow : (2 : Nat) ^ 64 = 256 ^ 8 := by decide
      rw [hpow, ← h]
      exact ofLittleEndian_lt b
    rw [UInt64.toNat_ofNat', Nat.mod_eq_of_lt hlt, ← h, toLittleEndian_ofLittleEndian]

/-- An array of `n` bytes. -/
def bytes (n : Nat) : Layout (ByteBuf n) where
  size := n
  encode := Subtype.val
  decode b := if h : b.length = n then ⟨b, h⟩ else ByteBuf.zero n
  encode_length := Subtype.property
  decode_encode a := dif_pos a.2
  encode_decode _ h := congrArg Subtype.val (dif_pos h)

/-- Two records, one after the other. -/
def prod (L : Layout α) (M : Layout β) : Layout (α × β) where
  size := L.size + M.size
  encode p := L.encode p.1 ++ M.encode p.2
  decode b := (L.decode (b.take L.size), M.decode (b.drop L.size))
  encode_length p := by rw [List.length_append, L.encode_length, M.encode_length]
  decode_encode p := by
    rw [List.take_left' (L.encode_length _), List.drop_left' (L.encode_length _), L.decode_encode, M.decode_encode]
  encode_decode b h := by
    have htake : (b.take L.size).length = L.size := by
      rw [List.length_take]
      omega
    have hdrop : (b.drop L.size).length = M.size := by
      rw [List.length_drop]
      omega
    rw [L.encode_decode _ htake, M.encode_decode _ hdrop, List.take_append_drop]

/-- The layout of a type whose values are those of another type. -/
def map (L : Layout α) (e : β ≃ α) : Layout β where
  size := L.size
  encode b := L.encode (e b)
  decode b := e.symm (L.decode b)
  encode_length _ := L.encode_length _
  decode_encode b := by rw [L.decode_encode, e.symm_apply_apply]
  encode_decode b h := by rw [e.apply_symm_apply, L.encode_decode b h]

def int32 : Layout Int32 :=
  uint32.map ⟨Int32.toUInt32, UInt32.toInt32, Int32.toInt32_toUInt32, UInt32.toUInt32_toInt32⟩

end Layout

/-! ### Tables -/

section Tables

variable {α : Type} (L : Layout α)

/-- The record at offset `off`. -/
def readCell (b : Bytes) (off : Nat) : Checked α := do
  let cell ← readRange b off L.size
  return L.decode cell

/-- `n` records in a row, from offset `off` on. -/
def readTable (b : Bytes) : Nat → Nat → Checked (List α)
  | _, 0 => .ok []
  | off, n + 1 => do
    let a ← readCell L b off
    let l ← readTable b (off + L.size) n
    return a :: l

def encodeTable (l : List α) : Bytes := l.flatMap L.encode

@[simp] theorem encodeTable_nil : encodeTable L [] = [] := rfl

@[simp] theorem encodeTable_cons (a : α) (l : List α) : encodeTable L (a :: l) = L.encode a ++ encodeTable L l := rfl

theorem encodeTable_length (l : List α) : (encodeTable L l).length = L.size * l.length := by
  induction l with
  | nil => rfl
  | cons a l ih =>
    rw [encodeTable_cons, List.length_append, ih, L.encode_length, List.length_cons, Nat.mul_succ]
    omega

theorem readCell_append (pre : Bytes) (a : α) (post : Bytes) :
    readCell L (pre ++ L.encode a ++ post) pre.length = .ok a := by
  have hrange := readRange_append pre (L.encode a) post
  rw [L.encode_length] at hrange
  rw [readCell, hrange, ok_bind, L.decode_encode]
  rfl

/-- A table is read back as it was written. -/
theorem readTable_append (pre : Bytes) (l : List α) (post : Bytes) :
    readTable L (pre ++ encodeTable L l ++ post) pre.length l.length = .ok l := by
  induction l generalizing pre with
  | nil => rfl
  | cons a l ih =>
    have hcell := readCell_append L pre a (encodeTable L l ++ post)
    have hrest := ih (pre ++ L.encode a)
    rw [List.length_append, L.encode_length] at hrest
    simp only [encodeTable_cons, List.append_assoc] at hcell hrest ⊢
    rw [List.length_cons, readTable, hcell, ok_bind, hrest]
    rfl

/-- Bytes of the right number are a table. -/
theorem exists_encodeTable (n : Nat) {b : Bytes} (h : b.length = L.size * n) :
    ∃ l : List α, l.length = n ∧ b = encodeTable L l := by
  induction n generalizing b with
  | zero =>
    have hnil : b = [] := List.eq_nil_of_length_eq_zero (by simpa using h)
    exact ⟨[], rfl, hnil⟩
  | succ n ih =>
    rw [Nat.mul_succ] at h
    have htake : (b.take L.size).length = L.size := by
      rw [List.length_take]
      omega
    have hdrop : (b.drop L.size).length = L.size * n := by
      rw [List.length_drop]
      omega
    obtain ⟨l, hl, hb⟩ := ih hdrop
    refine ⟨L.decode (b.take L.size) :: l, by rw [List.length_cons, hl], ?_⟩
    rw [encodeTable_cons, L.encode_decode _ htake, ← hb, List.take_append_drop]

/-- Every stretch of a buffer of the right length is a table. -/
theorem exists_table {b : Bytes} {off n : Nat} (h : off + L.size * n ≤ b.length) :
    ∃ pre l post, b = pre ++ encodeTable L l ++ post ∧ pre.length = off ∧ l.length = n := by
  have hlen : ((b.drop off).take (L.size * n)).length = L.size * n := by
    rw [List.length_take, List.length_drop]
    omega
  obtain ⟨l, hl, hb⟩ := exists_encodeTable L n hlen
  refine ⟨b.take off, l, (b.drop off).drop (L.size * n), ?_, ?_, hl⟩
  · rw [← hb, List.append_assoc, List.take_append_drop, List.take_append_drop]
  · rw [List.length_take]
    omega

theorem readTable_length {b : Bytes} {off n : Nat} {l : List α} (h : readTable L b off n = .ok l) : l.length = n := by
  induction n generalizing off l with
  | zero =>
    cases h
    rfl
  | succ n ih =>
    obtain ⟨a, -, hrest⟩ := bind_eq_ok.1 h
    obtain ⟨l', hl', hret⟩ := bind_eq_ok.1 hrest
    cases hret
    rw [List.length_cons, ih hl']

/-- A table that is read stands in the buffer. -/
theorem readTable_eq_ok {b : Bytes} {off n : Nat} {l : List α} (h : off + L.size * n ≤ b.length)
    (hread : readTable L b off n = .ok l) : ∃ pre post, b = pre ++ encodeTable L l ++ post ∧ pre.length = off := by
  obtain ⟨pre, l', post, hb, hpre, hl'⟩ := exists_table L h
  have happend := readTable_append L pre l' post
  rw [← hb, hpre, hl', hread, Except.ok.injEq] at happend
  subst happend
  exact ⟨pre, post, hb, hpre⟩

theorem readCell_eq_ok {b : Bytes} {off : Nat} {a : α} (hread : readCell L b off = .ok a) :
    ∃ pre post, b = pre ++ L.encode a ++ post ∧ pre.length = off := by
  obtain ⟨cell, hcell, hret⟩ := bind_eq_ok.1 hread
  have hbound : off + L.size * 1 ≤ b.length := by
    unfold readRange at hcell
    split at hcell
    · omega
    · cases hcell
  have htable : readTable L b off 1 = .ok [a] := by
    rw [readTable, hread]
    rfl
  obtain ⟨pre, post, hb, hpre⟩ := readTable_eq_ok L hbound htable
  rw [encodeTable_cons, encodeTable_nil, List.append_nil] at hb
  exact ⟨pre, post, hb, hpre⟩

end Tables

/-! ### Strings -/

/-- The string at a position of a string area. -/
def stringAt (area : Bytes) (pos : Nat) : Checked CString :=
  if 0 ∈ area.drop pos then .ok (untilNul (area.drop pos)) else .error .outOfBounds

/-- The string stands at the position, with a NUL byte behind it. -/
def StringStored (area : Bytes) (pos : Nat) (s : CString) : Prop :=
  ∃ pre post, area = pre ++ (s.1 ++ 0 :: post) ∧ pre.length = pos

theorem stringAt_eq_ok_iff {area : Bytes} {pos : Nat} {s : CString} :
    stringAt area pos = .ok s ↔ StringStored area pos s := by
  unfold stringAt
  constructor
  · intro h
    split at h
    · rename_i hmem
      obtain ⟨chars, post, hsplit, hchars⟩ := List.eq_append_cons_of_mem hmem
      have hstring := untilNul_append ⟨chars, hchars⟩ post
      have hpos : pos ≤ area.length := by
        by_contra hgt
        rw [List.drop_eq_nil_of_le (by omega)] at hmem
        cases hmem
      rw [hsplit, hstring] at h
      cases h
      refine ⟨area.take pos, post, ?_, ?_⟩
      · rw [← hsplit, List.take_append_drop]
      · rw [List.length_take]
        omega
    · cases h
  · intro h
    rcases h with ⟨pre, post, rfl, rfl⟩
    rw [List.drop_left, if_pos (by simp), untilNul_append]

/-! ### Writes -/

/-- Write the cells of `src` from `off` on. -/
def writeRange {α : Type} (cells : List α) (off : Nat) (src : List α) : Checked (List α) :=
  if off + src.length ≤ cells.length then .ok (cells.take off ++ src ++ cells.drop (off + src.length))
  else .error .outOfBounds

/-- A write is within the cells and keeps their number. -/
theorem writeRange_length {α : Type} {cells out src : List α} {off : Nat} (h : writeRange cells off src = .ok out) :
    off + src.length ≤ cells.length ∧ out.length = cells.length := by
  unfold writeRange at h
  split_ifs at h with hle
  cases h
  refine ⟨hle, ?_⟩
  simp only [List.length_append, List.length_take, List.length_drop]
  omega

theorem writeRange_append {α : Type} (pre old src post : List α) (h : src.length = old.length) :
    writeRange (pre ++ (old ++ post)) pre.length src = .ok (pre ++ (src ++ post)) := by
  have hle : pre.length + src.length ≤ (pre ++ (old ++ post)).length := by
    simp only [List.length_append]
    omega
  rw [writeRange, if_pos hle, List.take_left, h, ← List.drop_drop, List.drop_left, List.drop_left,
    List.append_assoc]

/-- A write does not reach what lies behind the cells. -/
theorem writeRange_append_right {α : Type} {cells out src : List α} {off : Nat} (h : writeRange cells off src = .ok out)
    (post : List α) : writeRange (cells ++ post) off src = .ok (out ++ post) := by
  unfold writeRange at h ⊢
  split_ifs at h with hle
  cases h
  rw [if_pos (by rw [List.length_append]; omega), List.take_append_of_le_length (by omega),
    List.drop_append_of_le_length hle, List.append_assoc _ _ post]

/-- A write at the border between what is filled and what is still clear. -/
theorem writeRange_replicate {α : Type} (filled src : List α) (z : α) (k : Nat) :
    writeRange (filled ++ List.replicate (src.length + k) z) filled.length src =
      .ok (filled ++ src ++ List.replicate k z) := by
  have hwrite := writeRange_append filled (List.replicate src.length z) src (List.replicate k z)
    List.length_replicate.symm
  rwa [List.replicate_append_replicate, ← List.append_assoc] at hwrite

end CSem
