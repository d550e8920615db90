import PortableTlsRa.Lib.Bytes

/-!
# Base64 and the textual form of keys

The base64 encoding of a byte string, and what it means that a text is the PEM form of one: a BEGIN line, the encoding
cut into lines in any way, and an END line.
-/

namespace Base64

open CSem

/-- The character of a digit below 64. -/
def digit (n : Nat) : UInt8 :=
  if n < 26 then UInt8.ofNat (n + 65)
  else if n < 52 then UInt8.ofNat (n + 71)
  else if n < 62 then UInt8.ofNat (n - 4)
  else if n = 62 then 43
  else 47

/-- The padding character. -/
def pad : UInt8 := 61

def encode : Bytes → Bytes
  | [] => []
  | [a] => [digit (a.toNat / 4), digit (a.toNat % 4 * 16), pad, pad]
  | [a, b] => [digit (a.toNat / 4), digit (a.toNat % 4 * 16 + b.toNat / 16), digit (b.toNat % 16 * 4), pad]
  | a :: b :: c :: rest =>
    digit (a.toNat / 4) :: digit (a.toNat % 4 * 16 + b.toNat / 16) :: digit (b.toNat % 16 * 4 + c.toNat / 64) ::
      digit (c.toNat % 64) :: encode rest

theorem encode_eq_nil_iff {data : Bytes} : encode data = [] ↔ data = [] := by
  induction data using encode.induct <;> simp [encode]

theorem length_encode (data : Bytes) : (encode data).length = 4 * ((data.length + 2) / 3) := by
  induction data using encode.induct with
  | case1 => rfl
  | case2 a => simp [encode]
  | case3 a b => simp [encode]
  | case4 a b c rest ih =>
    simp only [encode, List.length_cons, ih]
    omega

/-- Line feed and carriage return. -/
def isEol (c : UInt8) : Bool := c == 10 || c == 13

theorem isEol_digit {n : Nat} (h : n < 64) : isEol (digit n) = false := by
  revert n
  decide

theorem isEol_of_mem_encode {data : Bytes} {c : UInt8} (h : c ∈ encode data) : isEol c = false := by
  have hpad : isEol pad = false := rfl
  induction data using encode.induct with
  | case1 => simp [encode] at h
  | case2 a =>
    have ha := a.toNat_lt
    simp only [encode, List.mem_cons, List.not_mem_nil, or_false] at h
    rcases h with rfl | rfl | rfl | rfl
    · exact isEol_digit (by omega)
    · exact isEol_digit (by omega)
    · exact hpad
    · exact hpad
  | case3 a b =>
    have ha := a.toNat_lt
    have hb := b.toNat_lt
    simp only [encode, List.mem_cons, List.not_mem_nil, or_false] at h
    rcases h with rfl | rfl | rfl | rfl
    · exact isEol_digit (by omega)
    · exact isEol_digit (by omega)
    · exact isEol_digit (by omega)
    · exact hpad
  | case4 a b c' rest ih =>
    have ha := a.toNat_lt
    have hb := b.toNat_lt
    have hc := c'.toNat_lt
    simp only [encode, List.mem_cons] at h
    rcases h with rfl | rfl | rfl | rfl | h
    · exact isEol_digit (by omega)
    · exact isEol_digit (by omega)
    · exact isEol_digit (by omega)
    · exact isEol_digit (by omega)
    · exact ih h

/-! ### PEM texts -/

/-- `-----BEGIN label-----` -/
def beginLine (label : Bytes) : Bytes := lit "-----BEGIN " ++ label ++ lit "-----"

/-- `-----END label-----` -/
def endLine (label : Bytes) : Bytes := lit "-----END " ++ label ++ lit "-----"

/-- The lines between the two boundaries, each with its line feed. -/
def body (lines : List Bytes) : Bytes := (lines.map (· ++ [10])).flatten

def pem (label : Bytes) (lines : List Bytes) : Bytes :=
  beginLine label ++ [10] ++ body lines ++ endLine label ++ [10]

theorem length_body (lines : List Bytes) : (body lines).length = lines.flatten.length + lines.length := by
  induction lines with
  | nil => rfl
  | cons line lines ih =>
    unfold body at ih ⊢
    simp only [List.map_cons, List.flatten_cons, List.length_append, List.length_cons, List.length_nil, ih]
    omega

/-- Without its line feeds the body is the lines joined. -/
theorem filter_body {lines : List Bytes} (h : ∀ c ∈ lines.flatten, isEol c = false) :
    (body lines).filter (fun c => !isEol c) = lines.flatten := by
  induction lines with
  | nil => rfl
  | cons line lines ih =>
    have hfeed : isEol 10 = true := rfl
    have hline : line.filter (fun c => !isEol c) = line :=
      List.filter_eq_self.2 fun c hc => by simp [h c (by simp [hc])]
    have hrest := ih fun c hc => h c (by rw [List.flatten_cons]; exact List.mem_append_right _ hc)
    unfold body at hrest ⊢
    rw [List.map_cons, List.flatten_cons, List.filter_append, List.filter_append, hline, hrest]
    simp [hfeed]

/-- A body that is not empty ends with a line feed. -/
theorem body_ends {lines : List Bytes} (h : lines ≠ []) : ∃ pre, body lines = pre ++ [10] := by
  obtain ⟨init, last, rfl⟩ := List.eq_nil_or_concat lines |>.resolve_left h
  exact ⟨body init ++ last, by simp [body]⟩

/-- Lines of the width, the last one with what is left. -/
def cutLines (width : Nat) (text : Bytes) : List Bytes :=
  if text = [] then []
  else if width = 0 then [text]
  else text.take width :: cutLines width (text.drop width)
termination_by text.length
decreasing_by
  have hpos := List.length_pos_of_ne_nil ‹_›
  rw [List.length_drop]
  omega

theorem flatten_cutLines (width : Nat) (text : Bytes) : (cutLines width text).flatten = text := by
  induction text using cutLines.induct width with
  | case1 => simp [cutLines]
  | case2 text hne hzero => simp [cutLines, hne, hzero]
  | case3 text hne hzero ih =>
    rw [cutLines, if_neg hne, if_neg hzero, List.flatten_cons, ih]
    exact List.take_append_drop width text

theorem length_cutLines_le (width : Nat) (text : Bytes) : (cutLines width text).length ≤ text.length := by
  induction text using cutLines.induct width with
  | case1 => simp [cutLines]
  | case2 text hne hzero =>
    rw [cutLines, if_neg hne, if_pos hzero]
    exact List.length_pos_of_ne_nil hne
  | case3 text hne hzero ih =>
    have hpos := List.length_pos_of_ne_nil hne
    rw [List.length_drop] at ih
    rw [cutLines, if_neg hne, if_neg hzero, List.length_cons]
    omega

/-- The standard form of a text: the encoding in lines of 64 characters. -/
def standardPem (label data : Bytes) : Bytes := pem label (cutLines 64 (encode data))

end Base64
