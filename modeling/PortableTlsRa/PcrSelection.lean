import PortableTlsRa.TpmQuote
import PortableTlsRa.PicaCommon
import PortableTlsRa.Lib.Bitmap

/-!
# The registers of a selection

`pcr_select` sets the bits of a list of registers, `show_tpm2quote_info` prints the registers whose bits are set, and
`comp_pcr_selection`, which `libquote.c` has as `libpica_common.c` has it, compares the bytes.  For registers below 24
all three are about the set of the members of the list (`pcrSelectFrom_encodes`).
-/

namespace PortableTlsRa.Libquote

open CSem Bitmap

/-! ### The code -/

/-- One turn of the loop of `pcr_select`. -/
def selectRegister (sel : ByteBuf 4) (pcr : UInt8) : Checked (ByteBuf 4) := do
  let byte ← readAt sel.1 (pcr.toNat / 8)
  return ⟨sel.1.set (pcr.toNat / 8) (byte ||| 1 <<< (pcr % 8)), by rw [List.length_set, sel.2]⟩

/-- What `pcr_select` sets, with the bits of the one bank. -/
def oneBank (alg : Int) (sel : ByteBuf 4) : TpmlPcrSelection where
  count := 1
  pcrSelections := ⟨⟨UInt16.ofInt alg, 3, sel⟩ :: List.replicate 15 ⟨0, 0, ByteBuf.zero 4⟩, rfl⟩

/-- `pcr_select` on the registers as the array of the caller has them. -/
def pcrSelectFrom (alg : Int) (pcrs : Bytes) : Checked TpmlPcrSelection := do
  let sel ← pcrs.foldlM selectRegister (ByteBuf.zero 4)
  return oneBank alg sel

/-- A bank as it is printed. -/
structure ShownBank where
  hash : UInt16
  sizeofSelect : UInt8
  pcrs : List Nat
deriving DecidableEq

/-- `sel->pcrSelect[pcr / 8] & (1 << (pcr % 8))` -/
def isSelected (sel : TpmsPcrSelection) (pcr : Nat) : Checked Bool := do
  let byte ← readAt sel.pcrSelect.1 (pcr / 8)
  return decide (byte.toNat &&& 1 <<< (pcr % 8) ≠ 0)

def showBank (sel : TpmsPcrSelection) : Checked ShownBank := do
  let pcrs ← (List.range (sel.sizeofSelect.toNat * 8)).filterM (isSelected sel)
  return ⟨sel.hash, sel.sizeofSelect, pcrs⟩

/-- The count, the banks and the digest that are printed. -/
def showTpm2quoteInfo (qinfo : TpmsQuoteInfo) : Checked (UInt32 × List ShownBank × Bytes) := do
  let banks ← (List.range qinfo.pcrSelect.count.toNat).mapM fun i => do
    let sel ← readAt qinfo.pcrSelect.pcrSelections.1 i
    showBank sel
  return (qinfo.pcrSelect.count, banks, qinfo.pcrDigest)

/-! ### The bits that are set -/

variable {alg : Int} {pcrs : Bytes} {sel sel' : ByteBuf 4}

/-- A turn inserts the register, if the array has its byte. -/
theorem selectRegister_eq_ok_iff {pcr : UInt8} :
    selectRegister sel pcr = .ok sel' ↔ pcr.toNat < 32 ∧ sel'.1 = setBit sel.1 pcr.toNat := by
  have hshift : UInt8.ofNat (pcr.toNat % 8) = pcr % 8 := by
    rw [← UInt8.toNat_inj, UInt8.toNat_mod, UInt8.toNat_ofNat']
    have hlt := pcr.toNat_lt
    exact Nat.mod_eq_of_lt (by omega)
  have hlen := sel.2
  unfold selectRegister setBit
  rw [hshift, bind_eq_ok]
  have hmodify {byte : UInt8} (hget : sel.1[pcr.toNat / 8]? = some byte) :
      sel.1.modify (pcr.toNat / 8) (· ||| 1 <<< (pcr % 8)) =
        sel.1.set (pcr.toNat / 8) (byte ||| 1 <<< (pcr % 8)) := by
    obtain ⟨hlt, rfl⟩ := List.getElem?_eq_some_iff.1 hget
    rw [List.modify_eq_set, List.getElem?_eq_getElem hlt, Option.getD_some]
  constructor
  · intro ⟨byte, hbyte, hsel⟩
    have hget := readAt_eq_ok.1 hbyte
    obtain ⟨hlt, -⟩ := List.getElem?_eq_some_iff.1 hget
    cases hsel
    exact ⟨by omega, (hmodify hget).symm⟩
  · intro ⟨hpcr, hsel⟩
    have hlt : pcr.toNat / 8 < sel.1.length := by omega
    have hget : sel.1[pcr.toNat / 8]? = some sel.1[pcr.toNat / 8] := List.getElem?_eq_getElem hlt
    refine ⟨_, readAt_eq_ok.2 hget, ?_⟩
    rw [pure_eq_ok, Except.ok.injEq, Subtype.ext_iff, hsel, hmodify hget]

/-- The bits are set one after the other, unless a register is outside of the array. -/
theorem pcrSelectFrom_eq_ok_iff {out : TpmlPcrSelection} :
    pcrSelectFrom alg pcrs = .ok out ↔ (∀ pcr ∈ pcrs, pcr.toNat < 32) ∧
      ∃ sel : ByteBuf 4, sel.1 = (pcrs.map UInt8.toNat).foldl setBit (List.replicate 4 0) ∧ out = oneBank alg sel := by
  have hdefined : (∃ sel, pcrs.foldlM selectRegister (ByteBuf.zero 4) = .ok sel) ↔ ∀ pcr ∈ pcrs, pcr.toNat < 32 := by
    apply foldlM_exists_iff
    intro sel pcr
    constructor
    · intro ⟨sel', hsel'⟩
      exact (selectRegister_eq_ok_iff.1 hsel').1
    · intro hlt
      exact ⟨⟨setBit sel.1 pcr.toNat, by rw [length_setBit, sel.2]⟩, selectRegister_eq_ok_iff.2 ⟨hlt, rfl⟩⟩
  have hbits {sel : ByteBuf 4} (h : pcrs.foldlM selectRegister (ByteBuf.zero 4) = .ok sel) :
      sel.1 = (pcrs.map UInt8.toNat).foldl setBit (List.replicate 4 0) := by
    rw [List.foldl_map]
    refine foldlM_simulates (fun sel map => sel.1 = map) ?_ rfl h
    rintro sel _ pcr sel' rfl hsel'
    exact (selectRegister_eq_ok_iff.1 hsel').2
  unfold pcrSelectFrom
  rw [bind_eq_ok]
  constructor
  · intro ⟨sel, hsel, hout⟩
    exact ⟨hdefined.1 ⟨sel, hsel⟩, sel, hbits hsel, (Except.ok.inj hout).symm⟩
  · rintro ⟨hlt, sel, hsel, rfl⟩
    obtain ⟨sel', hsel'⟩ := hdefined.2 hlt
    refine ⟨sel', hsel', ?_⟩
    rw [pure_eq_ok, Subtype.ext ((hbits hsel').trans hsel.symm)]

/-- On registers that are within the array this is what a quote is made over. -/
theorem pcrSelectFrom_eq_pcrSelect (alg : Int) (pcrs : List (Fin 32)) :
    pcrSelectFrom alg (pcrs.map fun pcr => UInt8.ofNat pcr.1) = .ok (pcrSelect (UInt16.ofInt alg) pcrs) := by
  have htoNat (pcr : Fin 32) : (UInt8.ofNat pcr.1).toNat = pcr.1 := by
    rw [UInt8.toNat_ofNat']
    exact Nat.mod_eq_of_lt (by omega)
  have hbits : ∀ sel : ByteBuf 4, (pcrs.foldl selectPcr sel).1 = (pcrs.map Fin.val).foldl setBit sel.1 := by
    induction pcrs with
    | nil => exact fun _ => rfl
    | cons pcr pcrs ih => exact fun sel => ih (selectPcr sel pcr)
  apply pcrSelectFrom_eq_ok_iff.2
  constructor
  · intro r hr
    obtain ⟨pcr, -, rfl⟩ := List.mem_map.1 hr
    rw [htoNat]
    exact pcr.2
  · refine ⟨pcrs.foldl selectPcr (ByteBuf.zero 4), ?_, rfl⟩
    rw [hbits, List.map_map]
    congr 1
    exact List.map_congr_left fun pcr _ => (htoNat pcr).symm

/-- The bits of a selection that is made are those of the members of the list. -/
theorem pcrSelectFrom_bits {out : TpmlPcrSelection} (h : pcrSelectFrom alg pcrs = .ok out) :
    ∃ sel : ByteBuf 4, out = oneBank alg sel ∧ ∀ j, has sel.1 j = decide (j ∈ pcrs.map UInt8.toNat) := by
  obtain ⟨hlt, sel, hsel, rfl⟩ := pcrSelectFrom_eq_ok_iff.1 h
  have hinside : ∀ i ∈ pcrs.map UInt8.toNat, i < 8 * (List.replicate 4 (0 : UInt8)).length := by
    intro i hi
    obtain ⟨pcr, hpcr, rfl⟩ := List.mem_map.1 hi
    rw [List.length_replicate]
    exact hlt pcr hpcr
  refine ⟨sel, rfl, ?_⟩
  intro j
  rw [hsel, has_foldl_setBit hinside, has_replicate_zero, Bool.or_false]

/-- It is made where all registers are within the array. -/
theorem exists_pcrSelectFrom (hlt : ∀ pcr ∈ pcrs, pcr.toNat < 32) : ∃ out, pcrSelectFrom alg pcrs = .ok out := by
  have hlength : ((pcrs.map UInt8.toNat).foldl setBit (List.replicate 4 0)).length = 4 := by
    rw [length_foldl_setBit, List.length_replicate]
  exact ⟨_, pcrSelectFrom_eq_ok_iff.2 ⟨hlt, ⟨_, hlength⟩, rfl, rfl⟩⟩

/-! ### What is printed and what is compared -/

/-- Of a bank that does not claim more bytes than there are, the members are printed. -/
theorem showBank_eq {sel : TpmsPcrSelection} (h : sel.sizeofSelect.toNat ≤ 4) :
    showBank sel = .ok ⟨sel.hash, sel.sizeofSelect,
      (List.range (sel.sizeofSelect.toNat * 8)).filter (has sel.pcrSelect.1)⟩ := by
  have hselected : ∀ pcr ∈ List.range (sel.sizeofSelect.toNat * 8),
      isSelected sel pcr = .ok (has sel.pcrSelect.1 pcr) := by
    intro pcr hpcr
    have hrange := List.mem_range.1 hpcr
    have hlen := sel.pcrSelect.2
    have hlt : pcr / 8 < sel.pcrSelect.1.length := by omega
    have hread : readAt sel.pcrSelect.1 (pcr / 8) = .ok (sel.pcrSelect.1.getD (pcr / 8) 0) := by
      rw [readAt_eq_ok, List.getD_eq_getElem?_getD, List.getElem?_eq_getElem hlt, Option.getD_some]
    rw [isSelected, hread, ok_bind, pure_eq_ok, Except.ok.injEq, Bool.eq_iff_iff, decide_eq_true_iff,
      and_shiftLeft_ne_zero_iff]
    rfl
  rw [showBank, filterM_eq_ok hselected]
  rfl

theorem showTpm2quoteInfo_oneBank (alg : Int) (sel : ByteBuf 4) (digest : Bytes) :
    showTpm2quoteInfo ⟨oneBank alg sel, digest⟩ =
      .ok (1, [⟨UInt16.ofInt alg, 3, (List.range 24).filter (has sel.1)⟩], digest) := by
  have hsize : (3 : UInt8).toNat ≤ 4 := by decide
  have hbank : showBank ⟨UInt16.ofInt alg, 3, sel⟩ =
      .ok ⟨UInt16.ofInt alg, 3, (List.range 24).filter (has sel.1)⟩ := showBank_eq hsize
  have hbanks : [0].mapM (fun i => readAt (oneBank alg sel).pcrSelections.1 i >>= showBank) =
      .ok [⟨UInt16.ofInt alg, 3, (List.range 24).filter (has sel.1)⟩] :=
    mapM_eq_ok_iff.2 (.cons hbank .nil)
  unfold showTpm2quoteInfo
  exact bind_eq_ok.2 ⟨_, hbanks, rfl⟩

/-- The 24 bits of one bank are compared, under one algorithm. -/
theorem compPcrSelection_oneBank_iff :
    compPcrSelection (oneBank alg sel) (oneBank alg sel') = .ok 0 ↔ ∀ i < 24, has sel.1 i = has sel'.1 i := by
  have htake : sel.1.take 3 = sel'.1.take 3 ↔ ∀ i < 8 * 3, has sel.1 i = has sel'.1 i :=
    take_eq_take_iff (by rw [sel.2]; decide) (by rw [sel'.2]; decide)
  rw [compPcrSelection_eq_zero_iff, ← htake]
  constructor
  · intro hsame
    obtain ⟨sa, sb, hsa, hsb, hbank⟩ := hsame.banks 0 Nat.one_pos
    cases hsa
    cases hsb
    exact hbank.pcrSelect_eq
  · intro heq
    refine ⟨rfl, ?_⟩
    intro i hi
    obtain rfl : i = 0 := Nat.lt_one_iff.1 hi
    have hsize : (3 : UInt8).toNat ≤ 4 := by decide
    exact ⟨_, _, rfl, rfl, rfl, rfl, hsize, heq⟩

/-! ### The set of a list -/

/-- The members of a list of registers below 24, each once and in order. -/
def registersOf (pcrs : Bytes) : List Nat := (List.range 24).filter fun pcr => decide (pcr ∈ pcrs.map UInt8.toNat)

theorem mem_map_toNat {pcr : UInt8} : pcr.toNat ∈ pcrs.map UInt8.toNat ↔ pcr ∈ pcrs := by
  simp [UInt8.toNat_inj]

theorem mem_registersOf (h : ∀ pcr ∈ pcrs, pcr.toNat < 24) {pcr : Nat} :
    pcr ∈ registersOf pcrs ↔ ∃ r ∈ pcrs, r.toNat = pcr := by
  rw [registersOf, List.mem_filter, List.mem_range, decide_eq_true_eq, List.mem_map]
  constructor
  · intro ⟨_, hmem⟩
    exact hmem
  · rintro ⟨r, hr, rfl⟩
    exact ⟨h r hr, r, hr, rfl⟩

/-- The selection of registers below 24 is made, exactly the members of the list are printed of it, and it is accepted
against that of another list, under the same algorithm, if and only if the two have the same members. -/
theorem pcrSelectFrom_encodes (alg : Int) (pcrs : Bytes) (h : ∀ pcr ∈ pcrs, pcr.toNat < 24) :
    ∃ out, pcrSelectFrom alg pcrs = .ok out ∧
      (∀ digest, showTpm2quoteInfo ⟨out, digest⟩ = .ok (1, [⟨UInt16.ofInt alg, 3, registersOf pcrs⟩], digest)) ∧
      (∀ pcr, pcr ∈ registersOf pcrs ↔ ∃ r ∈ pcrs, r.toNat = pcr) ∧
      ∀ pcrs' out', (∀ pcr ∈ pcrs', pcr.toNat < 24) → pcrSelectFrom alg pcrs' = .ok out' →
        (compPcrSelection out out' = .ok 0 ↔ ∀ pcr, pcr ∈ pcrs ↔ pcr ∈ pcrs') := by
  have hlt : ∀ pcr ∈ pcrs, pcr.toNat < 32 := fun pcr hpcr => Nat.lt_trans (h pcr hpcr) (by decide)
  have hmade : ∃ out, pcrSelectFrom alg pcrs = .ok out := exists_pcrSelectFrom hlt
  obtain ⟨out, hout⟩ := hmade
  obtain ⟨sel, rfl, hsel⟩ := pcrSelectFrom_bits hout
  refine ⟨_, hout, ?_, ?_, ?_⟩
  · intro digest
    have hregisters : (List.range 24).filter (has sel.1) = registersOf pcrs := List.filter_congr fun pcr _ => hsel pcr
    rw [showTpm2quoteInfo_oneBank, hregisters]
  · exact fun pcr => mem_registersOf h
  · intro pcrs' out' h' hout'
    obtain ⟨sel', rfl, hsel'⟩ := pcrSelectFrom_bits hout'
    rw [compPcrSelection_oneBank_iff]
    constructor
    · intro hsame pcr
      by_cases hpcr : pcr.toNat < 24
      · have hbit := hsame pcr.toNat hpcr
        rwa [hsel, hsel', decide_eq_decide, mem_map_toNat, mem_map_toNat] at hbit
      · exact iff_of_false (fun hmem => hpcr (h pcr hmem)) (fun hmem => hpcr (h' pcr hmem))
    · intro hsame i _
      rw [hsel, hsel', decide_eq_decide, List.mem_map, List.mem_map]
      simp only [hsame]

/-- Another order and a repetition make no difference. -/
theorem pcrSelectFrom_sha256 :
    ∃ out, pcrSelectFrom 0x000B [10, 0, 10] = .ok out ∧
      (∀ digest, showTpm2quoteInfo ⟨out, digest⟩ = .ok (1, [⟨0x000B, 3, [0, 10]⟩], digest)) ∧
      ∃ out', pcrSelectFrom 0x000B [0, 10] = .ok out' ∧ compPcrSelection out out' = .ok 0 := by
  obtain ⟨out, hout, hshown, -, hcomp⟩ := pcrSelectFrom_encodes 0x000B [10, 0, 10] (by simp)
  obtain ⟨out', hout', -⟩ := pcrSelectFrom_encodes 0x000B [0, 10] (by simp)
  refine ⟨out, hout, hshown, out', hout', (hcomp [0, 10] out' (by simp) hout').2 ?_⟩
  intro pcr
  simp only [List.mem_cons, List.not_mem_nil, or_false]
  constructor
  · rintro (rfl | rfl | rfl)
    · exact .inr rfl
    · exact .inl rfl
    · exact .inr rfl
  · rintro (rfl | rfl)
    · exact .inr (.inl rfl)
    · exact .inl rfl

end PortableTlsRa.Libquote
