import PortableTlsRa.Freshness

/-!
# The text of `/proc/<pid>/maps`

How `sha256_libs` takes the mapped libraries from the text of a maps file: `fgets` cuts the text into strings of at
most 4095 bytes, `sscanf` reads the fields before the name, and the name is trimmed and looked at.  The text of a list
of mappings is cut line by line (`fgetsLines_text`), and the line of a library is read as its mapping when it fits into
the buffer and the name has no white space at its ends (`mem_readLine_of_fits`).
-/

namespace PortableTlsRa.Libmeasurement

open CSem

/-! ### Reading lines -/

/-- What the calls of `fgets(line, size, fp)` give until there is nothing left; `got` are the bytes of the line so far,
and `room` more fit into the buffer. -/
def fgetsFrom (size : Nat) : Nat → Bytes → Bytes → List Bytes
  | _, got, [] => if got = [] then [] else [got]
  | room, got, c :: text =>
    if c = 0x0a ∨ room ≤ 1 then (got ++ [c]) :: fgetsFrom size (size - 1) [] text
    else fgetsFrom size (room - 1) (got ++ [c]) text

def fgetsLines (size : Nat) (text : Bytes) : List Bytes := fgetsFrom size (size - 1) [] text

/-- `LINE_SIZE`. -/
def lineSize : Nat := 4096

/-! ### `sscanf` -/

/-- The value of a digit. -/
def digitValue (base : Nat) (c : UInt8) : Option Nat :=
  if 0x30 ≤ c ∧ c ≤ 0x39 then some (c.toNat - 0x30)
  else if 0x61 ≤ c ∧ c ≤ 0x66 ∧ base = 16 then some (c.toNat - 0x61 + 10)
  else if 0x41 ≤ c ∧ c ≤ 0x46 ∧ base = 16 then some (c.toNat - 0x41 + 10)
  else none

def isDigit (base : Nat) (c : UInt8) : Bool := (digitValue base c).isSome

/-- The number that digits write down. -/
def number (base : Nat) (s : Bytes) : Nat := s.foldl (fun n c => base * n + (digitValue base c).getD 0) 0

/-- The sign of a number and what follows it. -/
def scanSign : Bytes → Bool × Bytes
  | [] => (false, [])
  | c :: s => if c = 0x2d then (true, s) else if c = 0x2b then (false, s) else (false, c :: s)

/-- What follows the `0x` of a number, if that is there. -/
def skipBase (base : Nat) : Bytes → Bytes
  | c :: x :: s => if base = 16 ∧ c = 0x30 ∧ (x = 0x78 ∨ x = 0x58) then s else c :: x :: s
  | s => s

/-- `%lx` and `%lu`: the value and what follows the digits. -/
def scanUnsigned (base : Nat) (s : Bytes) : Option (Nat × Bytes) :=
  let (negative, s) := scanSign (s.dropWhile isspace)
  let s := skipBase base s
  let digits := s.takeWhile (isDigit base)
  if digits = [] then none
  else
    let n := number base digits
    let value := if 2 ^ 64 ≤ n then 2 ^ 64 - 1 else if negative then (2 ^ 64 - n) % 2 ^ 64 else n
    some (value, s.dropWhile (isDigit base))

/-- `%<width>s`: what follows the bytes that are taken. -/
def scanWord (width : Nat) (s : Bytes) : Option Bytes :=
  let s := s.dropWhile isspace
  let word := (s.takeWhile fun c => !isspace c).take width
  if word = [] then none else some (s.drop word.length)

/-- A byte of the format that stands for itself. -/
def scanByte (c : UInt8) : Bytes → Option Bytes
  | [] => none
  | c' :: s => if c' = c then some s else none

/-- `sscanf(line, "%lx-%lx %7s %lx %31s %lu %n", ...)`: the two addresses and `line + pos`, if six fields are read. -/
def scanLine (line : Bytes) : Option (Nat × Nat × Bytes) := do
  let (start, s) ← scanUnsigned 16 line
  let s ← scanByte 0x2d s
  let (stop, s) ← scanUnsigned 16 s
  let s ← scanWord 7 s
  let (_, s) ← scanUnsigned 16 s
  let s ← scanWord 31 s
  let (_, s) ← scanUnsigned 10 s
  return (start, stop, s.dropWhile isspace)

/-- `/proc/<pid>/map_files/<start>-<end>`. -/
def mapFilePath (pid : Int) (start stop : Nat) : CString :=
  untilNul (lit "/proc/" ++ decimal pid ++ lit "/map_files/" ++ digits 16 start ++ lit "-" ++ digits 16 stop)

/-- The name of the library of a line and the path to the file that is mapped, unless the line is skipped. -/
def readLine (pid : Int) (line : Bytes) : Option (CString × CString) := do
  let (start, stop, s) ← scanLine (untilNul line).1
  guard (s ≠ [])
  let path := trim (untilNul s)
  guard (¬ (path.1 = [] ∨ path.1.head? = some 0x5b))
  let pathbuf := mapFilePath pid start stop
  guard (isSharedLibrary path)
  return (path, pathbuf)

/-! ### The text that the kernel writes -/

/-- A mapping as it is shown, with the blanks before the name; the name has no newline, since it is written `\012`. -/
structure MapsLine where
  start : UInt64
  stop : UInt64
  readable : Bool
  writable : Bool
  executable : Bool
  shared : Bool
  offset : UInt64
  major : UInt32
  minor : UInt32
  inode : UInt64
  pad : Nat
  name : CString
  no_newline : (0x0a : UInt8) ∉ name.1

/-- The digits of a number, at least `width` of them. -/
def padded (base width n : Nat) : Bytes :=
  let s := digits base n
  List.replicate (width - s.length) 0x30 ++ s

def MapsLine.perms (m : MapsLine) : Bytes :=
  [if m.readable then 0x72 else 0x2d, if m.writable then 0x77 else 0x2d, if m.executable then 0x78 else 0x2d,
    if m.shared then 0x73 else 0x70]

/-- `<major>:<minor>`. -/
def MapsLine.dev (m : MapsLine) : Bytes := padded 16 2 m.major.toNat ++ 0x3a :: padded 16 2 m.minor.toNat

/-- What is shown of a mapping. -/
def MapsLine.shown (m : MapsLine) : Bytes :=
  padded 16 8 m.start.toNat ++ 0x2d :: (padded 16 8 m.stop.toNat ++ 0x20 :: (m.perms ++ 0x20 ::
    (padded 16 8 m.offset.toNat ++ 0x20 :: (m.dev ++ 0x20 :: (padded 10 1 m.inode.toNat ++ 0x20 ::
      (List.replicate m.pad 0x20 ++ m.name.1))))))

def MapsLine.line (m : MapsLine) : Bytes := m.shown ++ [0x0a]

/-- The content of `/proc/<pid>/maps`. -/
def mapsText (maps : List MapsLine) : Bytes := maps.flatMap MapsLine.line

/-- A library is mapped: the name is that of a file, not one in brackets, and has `.so` in it. -/
def MapsLine.IsLibrary (m : MapsLine) : Prop := m.name.1.head? ≠ some 0x5b ∧ isSharedLibrary m.name = true

instance (m : MapsLine) : Decidable m.IsLibrary := inferInstanceAs (Decidable (_ ∧ _))

/-! ### Lines of a text -/

variable {size room : Nat} {got text l : Bytes}

/-- After a newline the cutting starts anew. -/
theorem fgetsFrom_append (h : l.getLast? = some 0x0a) (rest : Bytes) :
    fgetsFrom size room got (l ++ rest) = fgetsFrom size room got l ++ fgetsLines size rest := by
  induction l generalizing room got with
  | nil => cases h
  | cons c l ih =>
    rw [List.cons_append, fgetsFrom, fgetsFrom]
    cases l with
    | nil =>
      rw [List.getLast?_singleton, Option.some_inj] at h
      rw [if_pos (.inl h), if_pos (.inl h)]
      rfl
    | cons d l =>
      rw [List.getLast?_cons_cons] at h
      split_ifs with hcut
      · rw [ih h, List.cons_append]
      · exact ih h

/-- A line that fits is not cut. -/
theorem fgetsFrom_of_fits (hnew : 0x0a ∉ l) (hroom : l.length < room) :
    fgetsFrom size room got (l ++ [0x0a]) = [got ++ l ++ [0x0a]] := by
  induction l generalizing room got with
  | nil =>
    rw [List.nil_append, fgetsFrom, if_pos (.inl rfl), List.append_nil]
    rfl
  | cons c l ih =>
    rw [List.mem_cons, not_or] at hnew
    rw [List.length_cons] at hroom
    have hcut : ¬ (c = 0x0a ∨ room ≤ 1) := by
      rintro (hc | hsmall)
      · exact hnew.1 hc.symm
      · omega
    rw [List.cons_append, fgetsFrom, if_neg hcut, ih hnew.2 (by omega)]
    simp

theorem line_getLast? (m : MapsLine) : m.line.getLast? = some 0x0a := by
  rw [MapsLine.line, List.getLast?_concat]

/-- The text is cut line by line. -/
theorem fgetsLines_text (maps : List MapsLine) :
    fgetsLines size (mapsText maps) = maps.flatMap fun m => fgetsLines size m.line := by
  induction maps with
  | nil => rfl
  | cons m maps ih =>
    rw [mapsText, List.flatMap_cons, List.flatMap_cons, fgetsLines, fgetsFrom_append (line_getLast? m)]
    exact congrArg (fgetsLines size m.line ++ ·) ih

/-! ### Numbers -/

variable {base n : Nat} {c : UInt8} {s rest : Bytes}

theorem digitValue_digitChar (hbase : base = 10 ∨ base = 16) {d : Nat} (hd : d < base) :
    digitValue base (UInt8.ofNat d.digitChar.toNat) = some d := by
  rcases hbase with rfl | rfl
  · have hall : ∀ d : Fin 10, digitValue 10 (UInt8.ofNat (d : Nat).digitChar.toNat) = some d.1 := by decide
    exact hall ⟨d, hd⟩
  · have hall : ∀ d : Fin 16, digitValue 16 (UInt8.ofNat (d : Nat).digitChar.toNat) = some d.1 := by decide
    exact hall ⟨d, hd⟩

theorem number_append_singleton (s : Bytes) (c : UInt8) :
    number base (s ++ [c]) = base * number base s + (digitValue base c).getD 0 := by
  simp [number, List.foldl_append]

theorem digits_eq (hbase : base = 10 ∨ base = 16) (n : Nat) :
    digits base n =
      (if n < base then [] else digits base (n / base)) ++ [UInt8.ofNat (n % base).digitChar.toNat] := by
  have hone : 1 < base := by omega
  rw [digits, Nat.toDigits_eq_if hone]
  split_ifs with hlt
  · rw [Nat.mod_eq_of_lt hlt]
    rfl
  · rw [List.map_append]
    rfl

theorem digits_ne_nil : digits base n ≠ [] := by
  simp [digits]

theorem isDigit_of_mem_digits (hbase : base = 10 ∨ base = 16) (h : c ∈ digits base n) : isDigit base c = true := by
  induction n using Nat.strong_induction_on with
  | _ n ih =>
    rw [digits_eq hbase] at h
    rcases List.mem_append.1 h with h | h
    · split_ifs at h with hlt
      · cases h
      · exact ih (n / base) (Nat.div_lt_self (by omega) (by omega)) h
    · rw [List.mem_singleton.1 h, isDigit, digitValue_digitChar hbase (Nat.mod_lt _ (by omega))]
      rfl

/-- A number is read back from its digits. -/
theorem number_digits (hbase : base = 10 ∨ base = 16) (n : Nat) : number base (digits base n) = n := by
  induction n using Nat.strong_induction_on with
  | _ n ih =>
    rw [digits_eq hbase, number_append_singleton, digitValue_digitChar hbase (Nat.mod_lt _ (by omega)),
      Option.getD_some]
    split_ifs with hlt
    · simp [number, Nat.mod_eq_of_lt hlt]
    · rw [ih (n / base) (Nat.div_lt_self (by omega) (by omega)), Nat.div_add_mod]

/-- Zeros before the digits do not matter. -/
theorem number_padded (hbase : base = 10 ∨ base = 16) (width n : Nat) : number base (padded base width n) = n := by
  have hzero : (digitValue base 0x30).getD 0 = 0 := by
    rcases hbase with rfl | rfl <;> rfl
  have hzeros : ∀ k, number base (List.replicate k 0x30) = 0 := by
    intro k
    induction k with
    | zero => rfl
    | succ k ih => rw [List.replicate_succ', number_append_singleton, ih, hzero, Nat.mul_zero]
  have hsplit : ∀ k s, number base (List.replicate k 0x30 ++ s) = number base s := by
    intro k s
    have hfold : number base (List.replicate k 0x30 ++ s) =
        s.foldl (fun n c => base * n + (digitValue base c).getD 0) (number base (List.replicate k 0x30)) :=
      List.foldl_append
    rw [hfold, hzeros]
    rfl
  rw [padded, hsplit, number_digits hbase]

theorem isDigit_of_mem_padded (hbase : base = 10 ∨ base = 16) {width : Nat} (h : c ∈ padded base width n) :
    isDigit base c = true := by
  rcases List.mem_append.1 h with h | h
  · rw [List.eq_of_mem_replicate h]
    rcases hbase with rfl | rfl <;> rfl
  · exact isDigit_of_mem_digits hbase h

theorem padded_ne_nil {width : Nat} : padded base width n ≠ [] := by
  simp [padded, digits_ne_nil]

theorem isDigit_range (h : isDigit base c = true) :
    0x30 ≤ c ∧ c ≤ 0x39 ∨ 0x61 ≤ c ∧ c ≤ 0x66 ∨ 0x41 ≤ c ∧ c ≤ 0x46 := by
  rw [isDigit, digitValue] at h
  split_ifs at h with hdec hlower hupper
  · exact .inl hdec
  · exact .inr (.inl ⟨hlower.1, hlower.2.1⟩)
  · exact .inr (.inr ⟨hupper.1, hupper.2.1⟩)
  · cases h

/-- What a digit is not. -/
theorem isDigit_ne (h : isDigit base c = true) :
    isspace c = false ∧ c ≠ 0x2d ∧ c ≠ 0x2b ∧ c ≠ 0x78 ∧ c ≠ 0x58 ∧ c ≠ 0x0a ∧ c ≠ 0x2f := by
  have hrange := isDigit_range h
  simp only [UInt8.le_iff_toNat_le] at hrange
  simp only [isspace, UInt8.le_iff_toNat_le, ← UInt8.toNat_inj, ne_eq, Bool.or_eq_false_iff, Bool.and_eq_false_iff,
    decide_eq_false_iff_not]
  simp only [UInt8.reduceToNat] at hrange ⊢
  omega

/-- A run of bytes ends where the next one is of another kind. -/
theorem span_append {p : UInt8 → Bool} (hs : ∀ c ∈ s, p c = true) (hrest : ∀ c ∈ rest.head?, p c = false) :
    (s ++ rest).takeWhile p = s ∧ (s ++ rest).dropWhile p = rest := by
  have hend : rest.takeWhile p = [] ∧ rest.dropWhile p = rest := by
    cases rest with
    | nil => exact ⟨rfl, rfl⟩
    | cons c rest =>
      have hc : ¬ p c = true := by rw [hrest c rfl]; exact Bool.false_ne_true
      exact ⟨List.takeWhile_cons_of_neg hc, List.dropWhile_cons_of_neg hc⟩
  rw [List.takeWhile_append_of_pos hs, List.dropWhile_append_of_pos hs, hend.1, hend.2, List.append_nil]
  exact ⟨rfl, rfl⟩

/-- A number is scanned from its digits, when what follows is neither a digit nor an `x`. -/
theorem scanUnsigned_append (hs : s ≠ []) (hdigits : ∀ c ∈ s, isDigit base c = true) (hn : number base s < 2 ^ 64)
    (hrest : ∀ c ∈ rest.head?, isDigit base c = false ∧ c ≠ 0x78 ∧ c ≠ 0x58) :
    scanUnsigned base (s ++ rest) = some (number base s, rest) := by
  obtain ⟨htake, hdrop⟩ := span_append hdigits fun c hc => (hrest c hc).1
  obtain ⟨d, s, rfl⟩ := List.exists_cons_of_ne_nil hs
  obtain ⟨hspace, hminus, hplus, -⟩ := isDigit_ne (hdigits d List.mem_cons_self)
  have hblank : (d :: s ++ rest).dropWhile isspace = d :: s ++ rest := by
    rw [List.cons_append, List.dropWhile_cons_of_neg (by rw [hspace]; exact Bool.false_ne_true)]
  have hsign : scanSign (d :: s ++ rest) = (false, d :: s ++ rest) := by
    rw [List.cons_append, scanSign, if_neg hminus, if_neg hplus]
  have hbase : skipBase base (d :: s ++ rest) = d :: s ++ rest := by
    rw [List.cons_append]
    cases hnext : s ++ rest with
    | nil => rfl
    | cons x t =>
      have hx : ¬ (base = 16 ∧ d = 0x30 ∧ (x = 0x78 ∨ x = 0x58)) := by
        rintro ⟨-, -, hx⟩
        cases s with
        | nil =>
          rw [List.nil_append] at hnext
          have hother := hrest x (by rw [hnext]; rfl)
          exact hx.elim hother.2.1 hother.2.2
        | cons c s =>
          obtain ⟨rfl, -⟩ := List.cons.inj hnext
          have hother := isDigit_ne (hdigits c (by simp))
          exact hx.elim hother.2.2.2.1 hother.2.2.2.2.1
      rw [skipBase, if_neg hx]
  simp only [scanUnsigned, hblank, hsign, hbase, htake, hdrop, if_neg hs, if_neg (Nat.not_le.2 hn)]
  rfl

/-- A number that was written with zeros before it is scanned. -/
theorem scanUnsigned_padded (hbase : base = 10 ∨ base = 16) (width : Nat) (hn : n < 2 ^ 64)
    (hrest : ∀ c ∈ rest.head?, isDigit base c = false ∧ c ≠ 0x78 ∧ c ≠ 0x58) :
    scanUnsigned base (padded base width n ++ rest) = some (n, rest) := by
  have hnumber := number_padded hbase width n
  rw [scanUnsigned_append padded_ne_nil (fun c hc => isDigit_of_mem_padded hbase hc) (by rwa [hnumber]) hrest, hnumber]

theorem scanUnsigned_blank (s : Bytes) : scanUnsigned base (0x20 :: s) = scanUnsigned base s := rfl

/-- A word is scanned that is no longer than the width. -/
theorem scanWord_append {width : Nat} (hs : s ≠ []) (hword : ∀ c ∈ s, isspace c = false) (hwidth : s.length ≤ width)
    (hrest : ∀ c ∈ rest.head?, isspace c = true) : scanWord width (0x20 :: (s ++ rest)) = some rest := by
  have hblank : (0x20 :: (s ++ rest)).dropWhile isspace = s ++ rest := by
    obtain ⟨d, s, rfl⟩ := List.exists_cons_of_ne_nil hs
    have hd : ¬ isspace d = true := by rw [hword d List.mem_cons_self]; exact Bool.false_ne_true
    rw [List.dropWhile_cons_of_pos rfl, List.cons_append, List.dropWhile_cons_of_neg hd]
  have htake : (s ++ rest).takeWhile (fun c => !isspace c) = s :=
    (span_append (fun c hc => by simp [hword c hc]) fun c hc => by simp [hrest c hc]).1
  simp only [scanWord, hblank, htake, List.take_of_length_le hwidth, if_neg hs, List.drop_left]

/-! ### Lines of mappings -/

theorem mem_perms {m : MapsLine} {c : UInt8} (h : c ∈ m.perms) :
    c = 0x72 ∨ c = 0x77 ∨ c = 0x78 ∨ c = 0x73 ∨ c = 0x70 ∨ c = 0x2d := by
  simp only [MapsLine.perms, List.mem_cons, List.not_mem_nil, or_false] at h
  rcases h with rfl | rfl | rfl | rfl <;> split <;> simp

theorem perms_word (m : MapsLine) : m.perms ≠ [] ∧ (∀ c ∈ m.perms, isspace c = false) ∧ m.perms.length ≤ 7 := by
  refine ⟨List.cons_ne_nil _ _, ?_, Nat.le_of_ble_eq_true rfl⟩
  intro c hc
  rcases mem_perms hc with rfl | rfl | rfl | rfl | rfl | rfl <;> rfl

/-- A number of 32 bits has at most eight hexadecimal digits. -/
theorem padded_length_le (x : UInt32) : (padded 16 2 x.toNat).length ≤ 8 := by
  have hdigits : (digits 16 x.toNat).length ≤ 8 := by
    rw [digits, List.length_map, Nat.length_toDigits_le_iff (by decide) (by decide)]
    exact x.toNat_lt
  rw [padded, List.length_append, List.length_replicate]
  omega

theorem dev_word (m : MapsLine) : m.dev ≠ [] ∧ (∀ c ∈ m.dev, isspace c = false) ∧ m.dev.length ≤ 31 := by
  have hmajor := padded_length_le m.major
  have hminor := padded_length_le m.minor
  refine ⟨by simp [MapsLine.dev], ?_, ?_⟩
  · intro c hc
    rw [MapsLine.dev, List.mem_append, List.mem_cons] at hc
    rcases hc with hc | rfl | hc
    · exact (isDigit_ne (isDigit_of_mem_padded (.inr rfl) hc)).1
    · rfl
    · exact (isDigit_ne (isDigit_of_mem_padded (.inr rfl) hc)).1
  · rw [MapsLine.dev, List.length_append, List.length_cons]
    omega

/-- The fields of a line are read. -/
theorem scanLine_line (m : MapsLine) :
    scanLine m.line =
      some (m.start.toNat, m.stop.toNat, (List.replicate m.pad 0x20 ++ m.name.1 ++ [0x0a]).dropWhile isspace) := by
  have hline : m.line = padded 16 8 m.start.toNat ++ 0x2d :: (padded 16 8 m.stop.toNat ++ 0x20 :: (m.perms ++ 0x20 ::
      (padded 16 8 m.offset.toNat ++ 0x20 :: (m.dev ++ 0x20 :: (padded 10 1 m.inode.toNat ++ 0x20 ::
        (List.replicate m.pad 0x20 ++ m.name.1 ++ [0x0a])))))) := by
    simp [MapsLine.line, MapsLine.shown]
  have hblank : ∀ t : Bytes, ∀ c ∈ (0x20 :: t).head?, isDigit 16 c = false ∧ c ≠ 0x78 ∧ c ≠ 0x58 := by
    rintro t c ⟨⟩
    decide
  have hblank₁₀ : ∀ t : Bytes, ∀ c ∈ (0x20 :: t).head?, isDigit 10 c = false ∧ c ≠ 0x78 ∧ c ≠ 0x58 := by
    rintro t c ⟨⟩
    decide
  have hdash : ∀ t : Bytes, ∀ c ∈ (0x2d :: t).head?, isDigit 16 c = false ∧ c ≠ 0x78 ∧ c ≠ 0x58 := by
    rintro t c ⟨⟩
    decide
  have hspace : ∀ t : Bytes, ∀ c ∈ (0x20 :: t).head?, isspace c = true := by
    rintro t c ⟨⟩
    rfl
  obtain ⟨hperms, hpermsWord, hpermsLen⟩ := perms_word m
  obtain ⟨hdev, hdevWord, hdevLen⟩ := dev_word m
  rw [hline, scanLine, scanUnsigned_padded (.inr rfl) 8 m.start.toNat_lt (hdash _)]
  simp only [Option.bind_eq_bind, Option.bind_some, scanByte, if_true]
  rw [scanUnsigned_padded (.inr rfl) 8 m.stop.toNat_lt (hblank _), Option.bind_some,
    scanWord_append hperms hpermsWord hpermsLen (hspace _), Option.bind_some, scanUnsigned_blank,
    scanUnsigned_padded (.inr rfl) 8 m.offset.toNat_lt (hblank _), Option.bind_some,
    scanWord_append hdev hdevWord hdevLen (hspace _), Option.bind_some, scanUnsigned_blank,
    scanUnsigned_padded (.inl rfl) 1 m.inode.toNat_lt (hblank₁₀ _), Option.bind_some]
  rfl

/-- The name neither begins nor ends in white space. -/
def MapsLine.Trimmed (m : MapsLine) : Prop :=
  (∀ c ∈ m.name.1.head?, isspace c = false) ∧ ∀ c ∈ m.name.1.getLast?, isspace c = false

instance (m : MapsLine) : Decidable m.Trimmed := inferInstanceAs (Decidable (_ ∧ _))

/-- The line is shorter than the buffer. -/
def MapsLine.Fits (m : MapsLine) : Prop := m.line.length < lineSize ∧ m.Trimmed

instance (m : MapsLine) : Decidable m.Fits := inferInstanceAs (Decidable (_ ∧ _))

theorem zero_not_mem_line (m : MapsLine) : (0 : UInt8) ∉ m.line := by
  have hdigit : ∀ {base width n : Nat}, base = 10 ∨ base = 16 → (0 : UInt8) ∉ padded base width n := by
    intro base width n hbase h
    have hrange := isDigit_range (isDigit_of_mem_padded hbase h)
    revert hrange
    decide
  have hperms : (0 : UInt8) ∉ m.perms := fun h => absurd (mem_perms h) (by decide)
  simp [MapsLine.line, MapsLine.shown, MapsLine.dev, hdigit, hperms, m.name.2]

theorem name_cons {m : MapsLine} (hlib : m.IsLibrary) : ∃ c t, m.name.1 = c :: t := by
  cases hname : m.name.1 with
  | nil =>
    have hso := hlib.2
    rw [isSharedLibrary, hname] at hso
    exact absurd hso (by decide)
  | cons c t => exact ⟨c, t, rfl⟩

/-- Blanks before a name, or none, are skipped. -/
theorem dropWhile_name {m : MapsLine} (hlib : m.IsLibrary) (htrim : m.Trimmed) (pad : Nat) :
    (List.replicate pad 0x20 ++ (m.name.1 ++ [0x0a])).dropWhile isspace = m.name.1 ++ [0x0a] := by
  refine (span_append (fun c hc => by rw [List.eq_of_mem_replicate hc]; rfl) fun c hc => ?_).2
  obtain ⟨c', t, hname⟩ := name_cons hlib
  rw [hname] at hc
  refine htrim.1 c ?_
  rw [hname]
  exact hc

/-- A name with a newline behind it is trimmed to the name. -/
theorem trim_name {m : MapsLine} (hlib : m.IsLibrary) (htrim : m.Trimmed) {s : CString}
    (hs : s.1 = m.name.1 ++ [0x0a]) : trim s = m.name := by
  have hfront : s.1.dropWhile isspace = m.name.1 ++ [0x0a] := hs ▸ dropWhile_name hlib htrim 0
  have hback : (m.name.1 ++ [0x0a]).rdropWhile isspace = m.name.1 := by
    rw [List.rdropWhile_concat_pos _ _ _ rfl, List.rdropWhile_eq_self_iff]
    intro hne
    rw [htrim.2 _ (List.getLast?_eq_some_getLast hne)]
    exact Bool.false_ne_true
  rw [trim, hfront, hback, untilNul_self]

/-- A line is read as its library. -/
theorem readLine_line {m : MapsLine} (pid : Int) (hlib : m.IsLibrary) (htrim : m.Trimmed) :
    readLine pid m.line = some (m.name, mapFilePath pid m.start.toNat m.stop.toNat) := by
  have hline : (untilNul m.line).1 = m.line := congrArg Subtype.val (untilNul_self ⟨m.line, zero_not_mem_line m⟩)
  have hzero : (0 : UInt8) ∉ m.name.1 ++ [0x0a] := by
    simp [m.name.2]
  have hs : (untilNul (m.name.1 ++ [0x0a])).1 = m.name.1 ++ [0x0a] :=
    congrArg Subtype.val (untilNul_self ⟨_, hzero⟩)
  have hpath := trim_name hlib htrim hs
  have hplain : ¬ (m.name.1 = [] ∨ m.name.1.head? = some 0x5b) := by
    rintro (hnil | hbracket)
    · obtain ⟨c, t, hname⟩ := name_cons hlib
      rw [hname] at hnil
      cases hnil
    · exact hlib.1 hbracket
  rw [readLine, hline, scanLine_line, List.append_assoc, dropWhile_name hlib htrim]
  simp only [Option.bind_eq_bind, Option.bind_some, hpath, hlib.2, guard, if_pos hplain]
  simp

theorem newline_not_mem_shown (m : MapsLine) : (0x0a : UInt8) ∉ m.shown := by
  have hdigit : ∀ {base width n : Nat}, base = 10 ∨ base = 16 → (0x0a : UInt8) ∉ padded base width n := by
    intro base width n hbase h
    exact (isDigit_ne (isDigit_of_mem_padded hbase h)).2.2.2.2.2.1 rfl
  have hperms : (0x0a : UInt8) ∉ m.perms := fun h => absurd (mem_perms h) (by decide)
  simp [MapsLine.shown, MapsLine.dev, hdigit, hperms, m.no_newline]

/-- A line that fits is not cut. -/
theorem fgetsLines_line {m : MapsLine} (hfits : m.Fits) : fgetsLines lineSize m.line = [m.line] := by
  have hroom : m.shown.length < lineSize - 1 := by
    have hlen := hfits.1
    rw [MapsLine.line, List.length_append, List.length_singleton] at hlen
    omega
  exact fgetsFrom_of_fits (newline_not_mem_shown m) hroom

/-- Where the line of a library fits, it is among the lines that are read. -/
theorem mem_readLine_of_fits {maps : List MapsLine} {m : MapsLine} (pid : Int) (hm : m ∈ maps) (hlib : m.IsLibrary)
    (hfits : m.Fits) :
    (m.name, mapFilePath pid m.start.toNat m.stop.toNat) ∈
      (fgetsLines lineSize (mapsText maps)).filterMap (readLine pid) := by
  rw [List.mem_filterMap]
  refine ⟨m.line, ?_, readLine_line pid hlib hfits.2⟩
  rw [fgetsLines_text, List.mem_flatMap]
  exact ⟨m, hm, by rw [fgetsLines_line hfits]; exact List.mem_cons_self⟩

end PortableTlsRa.Libmeasurement
