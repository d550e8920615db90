import PortableTlsRa.ConfRegistration

/-!
# Reading a sealed configuration

`file_seal_read_close` of the TEE build and the `pica_read_config` that calls it.  The function has two outputs, the
size that it returns and the buffer, and five exits, not all of which set both; `pica_read_config` hands both to
`build_conf` without a look at them.  A read that fails changes nothing exactly when it fails at the file size
(`readConfig_failureChangesNothing_iff`); where all calls succeed, the entries are those of the unsealed bytes
(`Tee.picaReadConfig_of_unsealed`).
-/

namespace PortableTlsRa

open CSem

namespace Tee

/-- What a pointer variable holds: nothing that was written to it, NULL, or the address of something. -/
inductive Pointer (α : Type) where
  | unset
  | null
  | to (a : α)
deriving DecidableEq

/-- What `sgx_unseal_data` gives: an error and what it leaves in the length, or the plaintext. -/
inductive Unsealing where
  | failed (decSz : Nat)
  | unsealed (data : Bytes)
deriving DecidableEq

/-- How the calls end that a read of the configuration makes.  `fileSize` is none when the file cannot be opened;
`read` is the size that is returned and what the buffer holds then. -/
structure SealCalls where
  fileSize : Option Nat
  mallocEnc : Nat → Bool
  read : Nat → Nat × Bytes
  sgxGetEncryptTxtLen : Bytes → Nat
  mallocDec : Nat → Bool
  sgxUnsealData : Bytes → Unsealing

variable (calls : SealCalls)

/-- Returns what `*o_buf` is set to, and the size. -/
def fileSealReadClose (encSz : Nat) : Pointer Bytes × Nat :=
  if !calls.mallocEnc encSz then (.unset, 0)
  else
    let (rsz, encp) := calls.read encSz
    if rsz ≠ encSz then (.null, 0)
    else
      let decSz := calls.sgxGetEncryptTxtLen encp
      if !calls.mallocDec decSz then (.null, 0)
      else
        match calls.sgxUnsealData encp with
        | .failed decSz => (.unset, decSz)
        | .unsealed data => (.to data, data.length)

/-- The buffer and the size that `pica_read_config` calls `build_conf` with, if it comes to the call. -/
def buildConfCall : Option (Pointer Bytes × Nat) := calls.fileSize.map (fileSealReadClose calls)

/-- The bytes that are read through a pointer; `wild` is what reading through one that is not set gives. -/
def Pointer.read (wild : Checked Bytes) : Pointer Bytes → Checked Bytes
  | .unset => wild
  | .null => .error .nullPointer
  | .to data => .ok data

/-- Returns the number of entries, what `*procinfo` is set to, and the hash table. -/
def picaReadConfig (murmurHash3 : Bytes → UInt32) (wild : Checked Bytes) (table : HashTable) :
    Checked (Int × Pointer (List Procinfo) × HashTable) := do
  match buildConfCall calls with
  | none => return (0, .null, table)
  | some (buffer, decSz) =>
    let buf ← buffer.read wild
    match ← buildConf buf decSz with
    | (entries, none) => return (entries, .unset, table)
    | (entries, some conf) =>
      let procinfo ← conf.entries
      let table ← registerAll murmurHash3 table (confRegistrations procinfo)
      return (entries, .to procinfo, table)

/-! ### What a read should do -/

/-- All calls succeed: the file is read whole and unsealed. -/
def Unsealed (data : Bytes) : Prop :=
  ∃ encSz encp, calls.fileSize = some encSz ∧ calls.mallocEnc encSz = true ∧ calls.read encSz = (encSz, encp) ∧
    calls.mallocDec (calls.sgxGetEncryptTxtLen encp) = true ∧ calls.sgxUnsealData encp = .unsealed data

/-- A read that does not come to the plaintext returns 0, a null pointer and the table as it was; and `build_conf` is
called with a buffer that holds the plaintext and with its length, or not at all. -/
structure FailureChangesNothing : Prop where
  unchanged : (¬ ∃ data, Unsealed calls data) → ∀ murmurHash3 wild table,
    picaReadConfig calls murmurHash3 wild table = .ok (0, .null, table)
  called : ∀ buffer decSz, buildConfCall calls = some (buffer, decSz) →
    ∃ data, Unsealed calls data ∧ buffer = .to data ∧ decSz = data.length

/-! ### The exits -/

variable {calls} {encSz : Nat}

/-- The five exits: what fails, and what the outputs are then. -/
inductive Exit (calls : SealCalls) (encSz : Nat) : Pointer Bytes × Nat → Prop where
  | noBuffer : calls.mallocEnc encSz = false → Exit calls encSz (.unset, 0)
  | shortRead : calls.mallocEnc encSz = true → (calls.read encSz).1 ≠ encSz → Exit calls encSz (.null, 0)
  | noPlaintext : calls.mallocEnc encSz = true → (calls.read encSz).1 = encSz →
      calls.mallocDec (calls.sgxGetEncryptTxtLen (calls.read encSz).2) = false → Exit calls encSz (.null, 0)
  | refused {decSz : Nat} : calls.mallocEnc encSz = true → (calls.read encSz).1 = encSz →
      calls.mallocDec (calls.sgxGetEncryptTxtLen (calls.read encSz).2) = true →
      calls.sgxUnsealData (calls.read encSz).2 = .failed decSz → Exit calls encSz (.unset, decSz)
  | unsealed {data : Bytes} : calls.mallocEnc encSz = true → (calls.read encSz).1 = encSz →
      calls.mallocDec (calls.sgxGetEncryptTxtLen (calls.read encSz).2) = true →
      calls.sgxUnsealData (calls.read encSz).2 = .unsealed data → Exit calls encSz (.to data, data.length)

theorem fileSealReadClose_exit (calls : SealCalls) (encSz : Nat) :
    Exit calls encSz (fileSealReadClose calls encSz) := by
  unfold fileSealReadClose
  by_cases hmalloc : calls.mallocEnc encSz = true
  · rw [hmalloc, if_neg (by decide)]
    dsimp only
    by_cases hread : (calls.read encSz).1 = encSz
    · rw [if_neg (not_not.2 hread)]
      by_cases hplain : calls.mallocDec (calls.sgxGetEncryptTxtLen (calls.read encSz).2) = true
      · rw [hplain, if_neg (by decide)]
        cases hseal : calls.sgxUnsealData (calls.read encSz).2 with
        | failed decSz => exact .refused hmalloc hread hplain hseal
        | unsealed data => exact .unsealed hmalloc hread hplain hseal
      · rw [Bool.eq_false_iff.2 hplain, if_pos (by decide)]
        exact .noPlaintext hmalloc hread (Bool.eq_false_iff.2 hplain)
    · rw [if_pos hread]
      exact .shortRead hmalloc hread
  · rw [Bool.eq_false_iff.2 hmalloc, if_pos (by decide)]
    exact .noBuffer (Bool.eq_false_iff.2 hmalloc)

/-- Both outputs are those of the plaintext where all calls succeed. -/
theorem Unsealed.call {data : Bytes} (h : Unsealed calls data) :
    buildConfCall calls = some (.to data, data.length) := by
  obtain ⟨encSz, encp, hsize, hmalloc, hread, hplain, hseal⟩ := h
  simp [buildConfCall, hsize, fileSealReadClose, hmalloc, hread, hplain, hseal]

/-- A failure after the file was opened leads to a decoding through a pointer that is NULL or not set. -/
theorem call_of_failed (hsize : calls.fileSize = some encSz) (hfailed : ¬ ∃ data, Unsealed calls data) :
    buildConfCall calls = some (.null, 0) ∨ ∃ decSz, buildConfCall calls = some (.unset, decSz) := by
  have hcall : buildConfCall calls = some (fileSealReadClose calls encSz) := by
    rw [buildConfCall, hsize]
    rfl
  have hexit := fileSealReadClose_exit calls encSz
  rw [hcall]
  generalize fileSealReadClose calls encSz = out at hexit
  cases hexit with
  | noBuffer _ => exact .inr ⟨_, rfl⟩
  | shortRead _ _ => exact .inl rfl
  | noPlaintext _ _ _ => exact .inl rfl
  | refused _ _ _ _ => exact .inr ⟨_, rfl⟩
  | unsealed hmalloc hread hplain hseal =>
    exact absurd ⟨_, encSz, _, hsize, hmalloc, Prod.ext hread rfl, hplain, hseal⟩ hfailed

/-- Where all calls succeed, the read is that of a file with the unsealed bytes; `*procinfo` is not written where
`build_conf` leaves it. -/
theorem picaReadConfig_of_unsealed {data : Bytes} (h : Unsealed calls data) (murmurHash3 : Bytes → UInt32)
    (heap : Nat → UInt8) (wild : Checked Bytes) (table : HashTable) :
    PortableTlsRa.picaReadConfig murmurHash3 heap table (wholeFile data) =
      picaReadConfig calls murmurHash3 wild table >>= fun (entries, procinfo, table) =>
        .ok (entries, match procinfo with | .to pinfo => some pinfo | _ => none, table) := by
  rw [PortableTlsRa.picaReadConfig, fileSealReadClose_wholeFile, picaReadConfig, h.call]
  simp only [Pointer.read, ok_bind]
  cases hbuild : buildConf data data.length with
  | error e => rfl
  | ok out =>
    obtain ⟨entries, conf⟩ := out
    cases conf with
    | none => rfl
    | some conf =>
      simp only [ok_bind]
      cases conf.entries with
      | error e => rfl
      | ok procinfo =>
        simp only [ok_bind]
        cases registerAll murmurHash3 table (confRegistrations procinfo) <;> rfl

/-- A failure changes nothing exactly where the file is not opened, or nothing fails. -/
theorem readConfig_failureChangesNothing_iff (calls : SealCalls) :
    FailureChangesNothing calls ↔ calls.fileSize = none ∨ ∃ data, Unsealed calls data := by
  constructor
  · intro h
    cases hsize : calls.fileSize with
    | none => exact .inl rfl
    | some encSz =>
      refine .inr ?_
      by_contra hfailed
      rcases call_of_failed hsize hfailed with hnull | ⟨decSz, hunset⟩
      · obtain ⟨data, -, hbuffer, -⟩ := h.called _ _ hnull
        cases hbuffer
      · obtain ⟨data, -, hbuffer, -⟩ := h.called _ _ hunset
        cases hbuffer
  · intro h
    rcases h with hsize | ⟨data, hdata⟩
    · have hcall : buildConfCall calls = none := by
        rw [buildConfCall, hsize]
        rfl
      constructor
      · intro _ murmurHash3 wild table
        rw [picaReadConfig, hcall]
        rfl
      · intro buffer decSz hsome
        rw [hcall] at hsome
        cases hsome
    · constructor
      · intro hnot
        exact absurd ⟨data, hdata⟩ hnot
      · intro buffer decSz hsome
        rw [hdata.call] at hsome
        cases hsome
        exact ⟨data, hdata, rfl, rfl⟩

/-- A sealed file with a header of 560 bytes and a text of 40, which is read whole and which `sgx_unseal_data`
refuses. -/
def tamperedFile : SealCalls where
  fileSize := some 600
  mallocEnc := fun _ => true
  read := fun _ => (600, List.replicate 600 0)
  sgxGetEncryptTxtLen := fun _ => 40
  mallocDec := fun _ => true
  sgxUnsealData := fun _ => .failed 40

/-- The buffer that is decoded was never set. -/
theorem tamperedFile_decoded : ¬ FailureChangesNothing tamperedFile := by
  intro h
  obtain ⟨data, -, hbuffer, -⟩ := h.called .unset 40 rfl
  cases hbuffer

end Tee

end PortableTlsRa
