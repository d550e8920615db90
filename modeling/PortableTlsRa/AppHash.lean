import PortableTlsRa.PicaCommon

/-!
# Checking the application hash

`check_apphash` recomputes the extended hash of the process chain and the nonce and compares it with the extra data
of the quote and with the application hash of the evidence.  The code of the recomputation is returned when the
comparison fails, so that a mismatch is reported as success whenever the recomputation was one
(`checkApphash_eq_zero_iff`).
-/

namespace PortableTlsRa

open CSem HashBinding

variable (sha256 : Bytes → ByteBuf 32)

/-- `picahash` is what the array of that name holds at first. -/
def checkApphash (c : DigestCalls) (picabody : Bytes) (nonce apphash : ByteBuf 32) (udata : Tpm2bData)
    (picahash : ByteBuf 32) : Int :=
  let hash := sha256 picabody
  let (rc, picahash) := hashExtendSha256 sha256 c hash nonce picahash
  if rc < 0 then rc
  else if picahash = udata.digest ∧ apphash = picahash then 0
  else rc

/-- `HASH(HASH(picabody) || nonce)`. -/
def extendedHash (picabody : Bytes) (nonce : ByteBuf 32) : ByteBuf 32 := bound sha256 join32 picabody nonce

/-! ### The code of the recomputation -/

/-- A call of the extended hash ends with a positive code other than success, or the digest has another size. -/
def DigestCalls.FailsPositive (c : DigestCalls) : Prop :=
  c.ctxNew = true ∧ (1 < c.init ∨ c.init = 1 ∧ (1 < c.update₁ ∨
    c.update₁ = 1 ∧ c.update₂ ≠ 0 ∧ (1 < c.final ∨ c.final = 1 ∧ c.len ≠ 32)))

/-- What `picahash` holds after such a call. -/
def DigestCalls.leftover (c : DigestCalls) (picahash : ByteBuf 32) : ByteBuf 32 :=
  if c.init = 1 ∧ c.update₁ = 1 then c.left else picahash

variable {sha256} {c : DigestCalls} {oldHash digest newHash : ByteBuf 32}

theorem hashExtendSha256_rc_pos_iff :
    0 < (hashExtendSha256 sha256 c oldHash digest newHash).1 ↔ c.FailsPositive := by
  unfold hashExtendSha256 DigestCalls.FailsPositive
  split_ifs <;> simp_all <;> omega

theorem hashExtendSha256_of_failsPositive (h : c.FailsPositive) :
    (hashExtendSha256 sha256 c oldHash digest newHash).2 = c.leftover newHash := by
  unfold DigestCalls.FailsPositive at h
  unfold hashExtendSha256 DigestCalls.leftover
  split_ifs <;> simp_all

variable {picabody : Bytes} {nonce apphash picahash : ByteBuf 32} {udata : Tpm2bData}

/-- The comparison matters only after a call that failed with a positive code. -/
theorem checkApphash_eq_zero_iff :
    checkApphash sha256 c picabody nonce apphash udata picahash = 0 ↔
      c.FailsWithZero ∨ c.RunsThrough ∨
        c.FailsPositive ∧ c.leftover picahash = udata.digest ∧ apphash = c.leftover picahash := by
  have hzero : (hashExtendSha256 sha256 c (sha256 picabody) nonce picahash).1 = 0 ↔
      c.FailsWithZero ∨ c.RunsThrough := hashExtendSha256_rc_eq_zero_iff
  have hpos : 0 < (hashExtendSha256 sha256 c (sha256 picabody) nonce picahash).1 ↔ c.FailsPositive :=
    hashExtendSha256_rc_pos_iff
  unfold checkApphash
  rcases hext : hashExtendSha256 sha256 c (sha256 picabody) nonce picahash with ⟨rc, out⟩
  rw [hext] at hzero hpos
  simp only [hext] at hzero hpos ⊢
  rw [← or_assoc, ← hzero]
  rcases lt_trichotomy rc 0 with hneg | rfl | hrc
  · have hnot : ¬ c.FailsPositive := fun h => absurd (hpos.2 h) (by omega)
    rw [if_pos hneg]
    simp [hnot]
  · simp
  · have hout : out = c.leftover picahash := by
      have hleft : (hashExtendSha256 sha256 c (sha256 picabody) nonce picahash).2 = c.leftover picahash :=
        hashExtendSha256_of_failsPositive (hpos.1 hrc)
      rwa [hext] at hleft
    have hne : rc ≠ 0 := by omega
    rw [if_neg (by omega), hout]
    simp only [hpos.1 hrc, hne, true_and, false_or]
    split_ifs with hcmp
    · exact iff_of_true rfl hcmp
    · exact iff_of_false hne hcmp

end PortableTlsRa
