import PortableTlsRa.Lib.Base64

/-!
# From PEM to DER

`PEM2DER`, which the enclave uses on the public key of a certificate: `PEM_strip` cuts the first and the last line off
and `raw_base64_decode` decodes what is left into a buffer of `PUB_KEY_MAX_SIZE` bytes.  On the PEM form of a key that
is not empty and fits the buffer it gives the key (`pem2Der_pem_iff`).
-/

namespace PortableTlsRa

open CSem Base64

def pubKeyMaxSize : Nat := 626

/-! ### raw_base64_decode -/

/-- The value of a character; -3 for NUL, -2 for the padding character and -1 for any other. -/
def b64revtb : List Int := [
  -3, -1, -1, -1, -1, -1, -1, -1, -1, -1, -1, -1, -1, -1, -1, -1, -- 0-15
  -1, -1, -1, -1, -1, -1, -1, -1, -1, -1, -1, -1, -1, -1, -1, -1, -- 16-31
  -1, -1, -1, -1, -1, -1, -1, -1, -1, -1, -1, 62, -1, -1, -1, 63, -- 32-47
  52, 53, 54, 55, 56, 57, 58, 59, 60, 61, -1, -1, -1, -2, -1, -1, -- 48-63
  -1, 0, 1, 2, 3, 4, 5, 6, 7, 8, 9, 10, 11, 12, 13, 14, -- 64-79
  15, 16, 17, 18, 19, 20, 21, 22, 23, 24, 25, -1, -1, -1, -1, -1, -- 80-95
  -1, 26, 27, 28, 29, 30, 31, 32, 33, 34, 35, 36, 37, 38, 39, 40, -- 96-111
  41, 42, 43, 44, 45, 46, 47, 48, 49, 50, 51, -1, -1, -1, -1, -1] -- 112-127
  ++ List.replicate 128 (-1) -- 128-255

/-- `buf`, `result`, and what was written through `out`. -/
structure B64State where
  buf0 : UInt8
  buf1 : UInt8
  buf2 : UInt8
  result : Nat
  out : Bytes
deriving DecidableEq

/-- Write the first `n` bytes of `buf` through `out`, which has `cap` cells. -/
def B64State.put (st : B64State) (cap n : Nat) : Checked B64State :=
  let out := st.out ++ [st.buf0, st.buf1, st.buf2].take n
  if out.length ≤ cap then .ok { st with out := out } else .error .outOfBounds

/-- The default branch, for the digit `x` at position `pos`. -/
def B64State.digit (st : B64State) (cap pos x : Nat) : Checked B64State :=
  match pos % 4 with
  | 0 => .ok { st with buf0 := UInt8.ofNat (x <<< 2) }
  | 1 => .ok { st with buf0 := st.buf0 ||| UInt8.ofNat (x >>> 4), buf1 := UInt8.ofNat (x <<< 4) }
  | 2 => .ok { st with buf1 := st.buf1 ||| UInt8.ofNat (x >>> 2), buf2 := UInt8.ofNat (x <<< 6) }
  | _ => { st with buf2 := st.buf2 ||| UInt8.ofNat x, result := st.result + 3 }.put cap 3

/-- Returns what `*err` is set to and the state at the end. -/
def rawBase64Decode (strict : Bool) (cap : Nat) : Bytes → Nat → B64State → Checked (Int × B64State)
  | [], _, _ => .error .outOfBounds
  | c :: p, pos, st =>
    let x := b64revtb.getD c.toNat (-1)
    if x = -3 then .ok (if pos % 4 ≠ 0 then 1 else 0, st)
    else if x = -2 then
      if pos % 4 < 2 then .ok (1, st)
      else if pos % 4 = 2 then
        match p with
        | [] => .error .outOfBounds
        | c' :: _ =>
          if c' ≠ pad then .ok (1, st)
          else do
            let st ← { st with buf2 := 0, result := st.result + 1 }.put cap 1
            return (0, st)
      else do
        let st ← { st with result := st.result + 2 }.put cap 2
        return (0, st)
    else if x = -1 then
      if strict then .ok (2, st) else rawBase64Decode strict cap p (pos + 1) st
    else do
      let st ← st.digit cap pos x.toNat
      rawBase64Decode strict cap p (pos + 1) st

variable {cap pos : Nat} {st : B64State} {strict : Bool}

theorem b64revtb_digit {n : Nat} (h : n < 64) : b64revtb.getD (digit n).toNat (-1) = n := by
  revert n
  decide

theorem rawBase64Decode_digit {n : Nat} (h : n < 64) {p : Bytes} :
    rawBase64Decode strict cap (digit n :: p) pos st =
      (st.digit cap pos n >>= rawBase64Decode strict cap p (pos + 1)) := by
  have hx := b64revtb_digit h
  have h₁ : (n : Int) ≠ -3 := by omega
  have h₂ : (n : Int) ≠ -2 := by omega
  have h₃ : (n : Int) ≠ -1 := by omega
  simp only [rawBase64Decode, hx, h₁, h₂, h₃, if_false, Int.toNat_natCast]

theorem b64revtb_nul : b64revtb.getD (0 : UInt8).toNat (-1) = -3 := by decide

theorem b64revtb_pad : b64revtb.getD pad.toNat (-1) = -2 := by decide

theorem rawBase64Decode_nul {p : Bytes} (hpos : pos % 4 = 0) :
    rawBase64Decode strict cap (0 :: p) pos st = .ok (0, st) := by
  simp only [rawBase64Decode, b64revtb_nul, if_true, hpos, ne_eq, not_true_eq_false, if_false]

theorem rawBase64Decode_pad_pad {p : Bytes} (hpos : pos % 4 = 2) :
    rawBase64Decode strict cap (pad :: pad :: p) pos st =
      ({ st with buf2 := 0, result := st.result + 1 }.put cap 1 >>= fun st => .ok (0, st)) := by
  have hne : (-2 : Int) ≠ -3 := by omega
  simp only [rawBase64Decode, b64revtb_pad, hne, if_false, if_true, hpos, Nat.lt_irrefl, ne_eq, not_true_eq_false,
    pure_eq_ok]

theorem rawBase64Decode_pad {p : Bytes} (hpos : pos % 4 = 3) :
    rawBase64Decode strict cap (pad :: p) pos st =
      ({ st with result := st.result + 2 }.put cap 2 >>= fun st => .ok (0, st)) := by
  have hne : (-2 : Int) ≠ -3 := by omega
  have hlt : ¬ 3 < 2 := by omega
  have hne' : ¬ 3 = 2 := by omega
  simp only [rawBase64Decode, b64revtb_pad, hne, if_false, if_true, hpos, hlt, hne', pure_eq_ok]

/-- The high bits of a byte from one digit and the low bits from the next. -/
theorem byte_of_parts {t : UInt8} {k x y : Nat} (hk : k ≤ 8) (hx : x * 2 ^ k % 256 = t.toNat / 2 ^ k * 2 ^ k)
    (hy : y = t.toNat % 2 ^ k) : UInt8.ofNat (x <<< k) ||| UInt8.ofNat y = t := by
  have ht := t.toNat_lt
  have hpow : 2 ^ k ≤ 2 ^ 8 := Nat.pow_le_pow_right (by omega) hk
  have hmod : t.toNat % 2 ^ k < 2 ^ k := Nat.mod_lt _ (Nat.two_pow_pos k)
  have hsmall : t.toNat % 2 ^ k % 2 ^ 8 = t.toNat % 2 ^ k := Nat.mod_eq_of_lt (by omega)
  apply UInt8.toNat_inj.1
  rw [UInt8.toNat_or, UInt8.toNat_ofNat', UInt8.toNat_ofNat', Nat.shiftLeft_eq, hy, hsmall, hx, Nat.mul_comm,
    ← Nat.two_pow_add_eq_or_of_lt hmod]
  exact Nat.div_add_mod t.toNat (2 ^ k)

theorem put_of_le {n : Nat} (hn : n ≤ 3) (h : st.out.length + n ≤ cap) :
    st.put cap n = .ok { st with out := st.out ++ [st.buf0, st.buf1, st.buf2].take n } := by
  have hlen : (st.out ++ [st.buf0, st.buf1, st.buf2].take n).length ≤ cap := by simp; omega
  rw [B64State.put, if_pos hlen]

theorem put_of_lt {n : Nat} (hn : n ≤ 3) (h : cap < st.out.length + n) : st.put cap n = .error .outOfBounds := by
  have hlen : ¬ (st.out ++ [st.buf0, st.buf1, st.buf2].take n).length ≤ cap := by simp; omega
  rw [B64State.put, if_neg hlen]

variable {a b c : UInt8}

/-- Two digits at the start of a group set the first byte. -/
theorem rawBase64Decode_two {n : Nat} {p : Bytes} (hpos : pos % 4 = 0) (hn : n < 16) :
    rawBase64Decode strict cap (digit (a.toNat / 4) :: digit (a.toNat % 4 * 16 + n) :: p) pos st =
      rawBase64Decode strict cap p (pos + 2)
        { st with buf0 := a, buf1 := UInt8.ofNat ((a.toNat % 4 * 16 + n) <<< 4) } := by
  have ha := a.toNat_lt
  have hpos₁ : (pos + 1) % 4 = 1 := by omega
  have hshift : (a.toNat % 4 * 16 + n) >>> 4 = a.toNat % 4 := by
    rw [Nat.shiftRight_eq_div_pow]
    omega
  have hbyte : UInt8.ofNat ((a.toNat / 4) <<< 2) ||| UInt8.ofNat ((a.toNat % 4 * 16 + n) >>> 4) = a :=
    byte_of_parts (by omega) (by omega) hshift
  rw [rawBase64Decode_digit (by omega), B64State.digit, hpos]
  simp only [ok_bind]
  rw [rawBase64Decode_digit (by omega), B64State.digit, hpos₁]
  simp only [ok_bind, hbyte]

/-- The third digit of a group sets the second byte. -/
theorem rawBase64Decode_third {m n : Nat} {p : Bytes} (hpos : pos % 4 = 2) (hn : n < 4)
    (hbuf : st.buf1 = UInt8.ofNat ((m * 16 + b.toNat / 16) <<< 4)) :
    rawBase64Decode strict cap (digit (b.toNat % 16 * 4 + n) :: p) pos st =
      rawBase64Decode strict cap p (pos + 1)
        { st with buf1 := b, buf2 := UInt8.ofNat ((b.toNat % 16 * 4 + n) <<< 6) } := by
  have hb := b.toNat_lt
  have hshift : (b.toNat % 16 * 4 + n) >>> 2 = b.toNat % 16 := by
    rw [Nat.shiftRight_eq_div_pow]
    omega
  have hbyte : st.buf1 ||| UInt8.ofNat ((b.toNat % 16 * 4 + n) >>> 2) = b := by
    rw [hbuf]
    exact byte_of_parts (by omega) (by omega) hshift
  rw [rawBase64Decode_digit (by omega), B64State.digit, hpos]
  simp only [ok_bind, hbyte]

/-- A group of four digits writes three bytes. -/
theorem rawBase64Decode_group {p : Bytes} (hpos : pos % 4 = 0) :
    rawBase64Decode strict cap (digit (a.toNat / 4) :: digit (a.toNat % 4 * 16 + b.toNat / 16) ::
        digit (b.toNat % 16 * 4 + c.toNat / 64) :: digit (c.toNat % 64) :: p) pos st =
      (B64State.put ⟨a, b, c, st.result + 3, st.out⟩ cap 3 >>= rawBase64Decode strict cap p (pos + 4)) := by
  have hb := b.toNat_lt
  have hc := c.toNat_lt
  have hbyte : UInt8.ofNat ((b.toNat % 16 * 4 + c.toNat / 64) <<< 6) ||| UInt8.ofNat (c.toNat % 64) = c :=
    byte_of_parts (by omega) (by omega) rfl
  have hpos₃ : (pos + 2 + 1) % 4 = 3 := by omega
  rw [rawBase64Decode_two hpos (by omega), rawBase64Decode_third (by omega) (by omega) rfl,
    rawBase64Decode_digit (by omega), B64State.digit, hpos₃]
  simp only [hbyte]

/-- Two digits and two padding characters write one byte. -/
theorem rawBase64Decode_one {p : Bytes} (hpos : pos % 4 = 0) :
    rawBase64Decode strict cap (digit (a.toNat / 4) :: digit (a.toNat % 4 * 16) :: pad :: pad :: p) pos st =
      (B64State.put ⟨a, UInt8.ofNat ((a.toNat % 4 * 16) <<< 4), 0, st.result + 1, st.out⟩ cap 1 >>=
        fun st => .ok (0, st)) := by
  have hzero : a.toNat % 4 * 16 = a.toNat % 4 * 16 + 0 := rfl
  rw [hzero, rawBase64Decode_two hpos (by omega), rawBase64Decode_pad_pad (by omega)]

/-- Three digits and one padding character write two bytes. -/
theorem rawBase64Decode_pair {p : Bytes} (hpos : pos % 4 = 0) :
    rawBase64Decode strict cap (digit (a.toNat / 4) :: digit (a.toNat % 4 * 16 + b.toNat / 16) ::
        digit (b.toNat % 16 * 4) :: pad :: p) pos st =
      (B64State.put ⟨a, b, UInt8.ofNat ((b.toNat % 16 * 4) <<< 6), st.result + 2, st.out⟩ cap 2 >>=
        fun st => .ok (0, st)) := by
  have hb := b.toNat_lt
  have hzero : b.toNat % 16 * 4 = b.toNat % 16 * 4 + 0 := rfl
  rw [hzero, rawBase64Decode_two hpos (by omega), rawBase64Decode_third (by omega) (by omega) rfl,
    rawBase64Decode_pad (by omega)]

/-- An encoding that is followed by NUL is decoded if the bytes fit. -/
theorem rawBase64Decode_encode {data tail : Bytes} (hpos : pos % 4 = 0) (h : st.out.length + data.length ≤ cap) :
    ∃ st', rawBase64Decode strict cap (encode data ++ 0 :: tail) pos st = .ok (0, st') ∧
      st'.out = st.out ++ data ∧ st'.result = st.result + data.length := by
  induction data using encode.induct generalizing pos st with
  | case1 => exact ⟨st, rawBase64Decode_nul hpos, by simp, rfl⟩
  | case2 a =>
    rw [List.length_singleton] at h
    refine ⟨⟨a, UInt8.ofNat ((a.toNat % 4 * 16) <<< 4), 0, st.result + 1, st.out ++ [a]⟩, ?_, rfl, rfl⟩
    simp only [encode, List.cons_append, List.nil_append]
    rw [rawBase64Decode_one hpos, put_of_le (by omega) (by simpa using h)]
    rfl
  | case3 a b =>
    rw [List.length_cons, List.length_singleton] at h
    refine ⟨⟨a, b, UInt8.ofNat ((b.toNat % 16 * 4) <<< 6), st.result + 2, st.out ++ [a, b]⟩, ?_, rfl, rfl⟩
    simp only [encode, List.cons_append, List.nil_append]
    rw [rawBase64Decode_pair hpos, put_of_le (by omega) (by simpa using h)]
    rfl
  | case4 a b c rest ih =>
    rw [List.length_cons, List.length_cons, List.length_cons] at h
    have hfit : (B64State.mk a b c (st.result + 3) (st.out ++ [a, b, c])).out.length + rest.length ≤ cap := by
      simp
      omega
    have hnext : (pos + 4) % 4 = 0 := by omega
    obtain ⟨st', hrest, hout, hresult⟩ := ih hnext hfit
    refine ⟨st', ?_, by simp [hout], by simp [hresult]; omega⟩
    simp only [encode, List.cons_append]
    rw [rawBase64Decode_group hpos, put_of_le (by omega) (by simp; omega)]
    exact hrest

/-- Otherwise the buffer is written past its end. -/
theorem rawBase64Decode_encode_overflow {data tail : Bytes} (hpos : pos % 4 = 0) (hout : st.out.length ≤ cap)
    (h : cap < st.out.length + data.length) :
    rawBase64Decode strict cap (encode data ++ 0 :: tail) pos st = .error .outOfBounds := by
  induction data using encode.induct generalizing pos st with
  | case1 =>
    rw [List.length_nil] at h
    omega
  | case2 a =>
    rw [List.length_singleton] at h
    simp only [encode, List.cons_append, List.nil_append]
    rw [rawBase64Decode_one hpos, put_of_lt (by omega) (by simpa using h)]
    rfl
  | case3 a b =>
    rw [List.length_cons, List.length_singleton] at h
    simp only [encode, List.cons_append, List.nil_append]
    rw [rawBase64Decode_pair hpos, put_of_lt (by omega) (by simpa using h)]
    rfl
  | case4 a b c rest ih =>
    rw [List.length_cons, List.length_cons, List.length_cons] at h
    simp only [encode, List.cons_append]
    rw [rawBase64Decode_group hpos]
    by_cases hfit : st.out.length + 3 ≤ cap
    · rw [put_of_le (by omega) (by simpa using hfit)]
      exact ih (by omega) (by simp; omega) (by simp; omega)
    · rw [put_of_lt (by omega) (by simpa using hfit)]
      rfl

/-! ### PEM_strip -/

/-- The last index below `n` with the property, searched for from the end. -/
def scanBack (p : Nat → Bool) : Nat → Option Nat
  | 0 => none
  | n + 1 => if p n then some n else scanBack p n

/-- What is written to `stripped_pem`: the characters after the first line and before the last line break that is
not one of the last four characters, without line breaks. -/
def pemStrip (pem : Bytes) : Bytes :=
  let pem := pem.take (toInt32 pem.length).toNat
  let realBegin := pem.findIdx isEol + 1
  match scanBack (fun i => (pem[i]?).any isEol) (pem.length - 4) with
  | none => []
  | some realEnd => ((pem.take realEnd).drop realBegin).filter fun c => !isEol c

/-- Returns the code and the first `*der_len` bytes of the buffer. -/
def pem2Der (mallocPem : Bool) (pem : Bytes) : Checked (Int × Bytes) := do
  if pem = [] then return (1, [])
  if !mallocPem then return (1, [])
  let stripped := pemStrip pem
  if stripped = [] then return (-1, [])
  -- the copy is as long as the text and filled with NUL
  let copy := stripped ++ List.replicate (pem.length - stripped.length) 0
  let (rc, st) ← rawBase64Decode false pubKeyMaxSize copy 0 ⟨0, 0, 0, 0, []⟩
  let der := st.out ++ List.replicate (pubKeyMaxSize - st.out.length) 0
  return (rc, if rc = 0 then der.take st.result else [])

theorem scanBack_eq_some {p : Nat → Bool} {n i : Nat} (hi : i < n) (hp : p i = true)
    (hnone : ∀ j, i < j → j < n → p j = false) : scanBack p n = some i := by
  induction n with
  | zero => omega
  | succ n ih =>
    unfold scanBack
    by_cases hlast : i = n
    · subst hlast
      rw [if_pos hp]
    · have hn : p n = false := hnone n (by omega) (by omega)
      rw [hn, if_neg (by decide)]
      exact ih (by omega) fun j hij hjn => hnone j hij (by omega)

def publicKeyLabel : Bytes := lit "PUBLIC KEY"

theorem isEol_beginLine : ∀ c ∈ beginLine publicKeyLabel, isEol c = false := by
  have hnone : (beginLine publicKeyLabel).any isEol = false := rfl
  simpa using hnone

theorem isEol_endLine : ∀ c ∈ endLine publicKeyLabel, isEol c = false := by
  have hnone : (endLine publicKeyLabel).any isEol = false := rfl
  simpa using hnone

theorem length_endLine : (endLine publicKeyLabel).length = 24 := by decide

theorem findIdx_isEol {line rest : Bytes} (h : ∀ c ∈ line, isEol c = false) :
    (line ++ 10 :: rest).findIdx isEol = line.length := by
  have hline : line.findIdx isEol = line.length :=
    List.findIdx_eq_length.2 fun c hc => by simp [h c hc]
  have hfeed : isEol 10 = true := rfl
  rw [List.findIdx_append, hline, if_neg (Nat.lt_irrefl _), List.findIdx_cons, hfeed, cond_true, Nat.zero_add]

/-- The search from the end stops at the line break before the END line. -/
theorem scanBack_endLine {pre : Bytes} :
    scanBack (fun i => ((pre ++ 10 :: (endLine publicKeyLabel ++ [10]))[i]?).any isEol)
      ((pre ++ 10 :: (endLine publicKeyLabel ++ [10])).length - 4) = some pre.length := by
  have hend := length_endLine
  apply scanBack_eq_some
  · simp only [List.length_append, List.length_cons, List.length_nil, hend]
    omega
  · rw [List.getElem?_append_right (Nat.le_refl _), Nat.sub_self]
    rfl
  · intro j hij hjn
    simp only [List.length_append, List.length_cons, List.length_nil, hend] at hjn
    obtain ⟨k, rfl⟩ := Nat.exists_eq_add_of_lt hij
    have hk : k < (endLine publicKeyLabel).length := by omega
    have hsub : pre.length + k + 1 - pre.length = k + 1 := by omega
    rw [List.getElem?_append_right (by omega), hsub, List.getElem?_cons_succ, List.getElem?_append_left hk,
      List.getElem?_eq_getElem hk]
    exact isEol_endLine _ (List.getElem_mem hk)

/-- A public key in PEM form, cut into lines in any way, whose size is an `int`. -/
structure PemKey where
  der : Bytes
  lines : List Bytes
  lines_eq : lines.flatten = encode der
  size_lt : (pem publicKeyLabel lines).length < 2 ^ 31

def PemKey.text (key : PemKey) : Bytes := pem publicKeyLabel key.lines

theorem PemKey.text_ne_nil (key : PemKey) : key.text ≠ [] := by simp [PemKey.text, pem]

/-- What is left of the text is the encoding. -/
theorem pemStrip_text (key : PemKey) : pemStrip key.text = encode key.der := by
  have hsize : toInt32 key.text.length = key.text.length := toInt32_of_lt key.size_lt
  have htext : ∃ pre, key.text = pre ++ 10 :: (endLine publicKeyLabel ++ [10]) ∧
      pre ++ [10] = beginLine publicKeyLabel ++ 10 :: body key.lines := by
    by_cases hlines : key.lines = []
    · exact ⟨beginLine publicKeyLabel, by simp [PemKey.text, pem, hlines, body], by simp [hlines, body]⟩
    · obtain ⟨pre, hpre⟩ := body_ends hlines
      exact ⟨beginLine publicKeyLabel ++ 10 :: pre, by simp [PemKey.text, pem, hpre], by simp [hpre]⟩
  obtain ⟨pre, htext, hpre⟩ := htext
  have hbegin : key.text.findIdx isEol = (beginLine publicKeyLabel).length := by
    have hsplit : key.text =
        beginLine publicKeyLabel ++ 10 :: (body key.lines ++ (endLine publicKeyLabel ++ [10])) := by
      simp [PemKey.text, pem]
    rw [hsplit, findIdx_isEol isEol_beginLine]
  have hfilter : (pre.drop ((beginLine publicKeyLabel).length + 1)).filter (fun c => !isEol c) = encode key.der := by
    have hbody : (pre ++ [10]).drop ((beginLine publicKeyLabel).length + 1) = body key.lines := by
      have hlen : (beginLine publicKeyLabel ++ [10]).length = (beginLine publicKeyLabel).length + 1 := by simp
      have hjoin : beginLine publicKeyLabel ++ 10 :: body key.lines =
          beginLine publicKeyLabel ++ [10] ++ body key.lines := by simp
      rw [hpre, hjoin]
      exact List.drop_left' hlen
    have hfeed : ∀ m, (([10] : Bytes).drop m).filter (fun c => !isEol c) = [] := by
      intro m
      cases m with
      | zero => rfl
      | succ m => simp
    have hlines : (body key.lines).filter (fun c => !isEol c) = encode key.der := by
      rw [← key.lines_eq]
      apply filter_body
      intro c hc
      rw [key.lines_eq] at hc
      exact isEol_of_mem_encode hc
    rw [← hlines, ← hbody, List.drop_append, List.filter_append, hfeed, List.append_nil]
  unfold pemStrip
  rw [hsize, Int.toNat_natCast, List.take_length]
  simp only [hbegin]
  rw [htext, scanBack_endLine]
  simp only [List.take_left, hfilter]

/-- `PEM2DER` on the PEM form of a key: an empty key is refused, and one that does not fit overruns the buffer. -/
theorem pem2Der_pem (mallocPem : Bool) (key : PemKey) :
    pem2Der mallocPem key.text =
      if mallocPem = false then .ok (1, [])
      else if key.der = [] then .ok (-1, [])
      else if key.der.length ≤ pubKeyMaxSize then .ok (0, key.der)
      else .error .outOfBounds := by
  unfold pem2Der
  rw [if_neg key.text_ne_nil, pemStrip_text]
  cases mallocPem with
  | false => rfl
  | true =>
    by_cases hempty : key.der = []
    · simp [hempty, encode]
    · have hencode : encode key.der ≠ [] := fun h => hempty (encode_eq_nil_iff.1 h)
      have hzeros : ∃ m, key.text.length - (encode key.der).length = m + 1 := by
        have hbody := length_body key.lines
        have htext : key.text.length = (beginLine publicKeyLabel).length + (body key.lines).length + 26 := by
          rw [PemKey.text, pem]
          simp only [List.length_append, List.length_cons, List.length_nil, length_endLine]
          omega
        rw [key.lines_eq] at hbody
        exact ⟨key.text.length - (encode key.der).length - 1, by omega⟩
      obtain ⟨m, hm⟩ := hzeros
      simp only [hm, List.replicate_succ, hencode, hempty, Bool.not_true, Bool.false_eq_true, Bool.true_eq_false,
        if_false]
      by_cases hfit : key.der.length ≤ pubKeyMaxSize
      · have hdecoded : ∃ st', rawBase64Decode false pubKeyMaxSize (encode key.der ++ 0 :: List.replicate m 0) 0
            ⟨0, 0, 0, 0, []⟩ = .ok (0, st') ∧ st'.out = [] ++ key.der ∧ st'.result = 0 + key.der.length :=
          rawBase64Decode_encode rfl (by simpa using hfit)
        obtain ⟨st', hdecode, hout, hresult⟩ := hdecoded
        rw [List.nil_append] at hout
        rw [Nat.zero_add] at hresult
        rw [hdecode, if_pos hfit]
        simp [hout, hresult]
      · rw [rawBase64Decode_encode_overflow rfl (by simp) (by simpa using hfit), if_neg hfit]
        rfl

variable {mallocPem : Bool} {key : PemKey} {out : Bytes}

/-- On the PEM form of a key the code is 0 exactly when the key is not empty and fits the buffer, and then the buffer
holds the key. -/
theorem pem2Der_pem_iff :
    pem2Der mallocPem key.text = .ok (0, out) ↔
      mallocPem = true ∧ key.der ≠ [] ∧ key.der.length ≤ pubKeyMaxSize ∧ out = key.der := by
  rw [pem2Der_pem]
  cases mallocPem with
  | false => simp
  | true =>
    by_cases hempty : key.der = []
    · simp [hempty]
    · by_cases hfit : key.der.length ≤ pubKeyMaxSize
      · simp [hempty, hfit, eq_comm]
      · simp [hempty, hfit]

/-- The buffer is overrun exactly by a key that does not fit it. -/
theorem pem2Der_overflow_iff :
    pem2Der mallocPem key.text = .error .outOfBounds ↔ mallocPem = true ∧ pubKeyMaxSize < key.der.length := by
  rw [pem2Der_pem]
  cases mallocPem with
  | false => simp
  | true =>
    by_cases hempty : key.der = []
    · simp [hempty]
    · by_cases hfit : key.der.length ≤ pubKeyMaxSize
      · simp [hempty, hfit]
      · simp [hempty, hfit, Nat.lt_of_not_le hfit]

end PortableTlsRa
