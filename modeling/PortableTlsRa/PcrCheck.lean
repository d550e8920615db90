import PortableTlsRa.PicaCommon

/-!
# Checking PCR registers

`check_tpm2pcrs` compares the quote of the attester with the registered one.  It compares which registers the two
quotes select (`checkTpm2pcrs_eq_zero_iff`) and never the digest of their values, so that it attests the values
exactly where the selections already differ or the digests happen to agree.
-/

namespace PortableTlsRa

open CSem

def checkTpm2pcrs (tpmAtst regAtst : TpmsAttest) : Checked Int :=
  compPcrSelection regAtst.quote.pcrSelect tpmAtst.quote.pcrSelect

/-- The check is made and its result is not negative. -/
def PcrsAccepted (tpmAtst regAtst : TpmsAttest) : Prop :=
  ∃ rc, checkTpm2pcrs tpmAtst regAtst = .ok rc ∧ 0 ≤ rc

/-- The two quotes are about the same registers of the same banks. -/
def SamePcrSelection (tpmAtst regAtst : TpmsAttest) : Prop :=
  regAtst.quote.pcrSelect.Same tpmAtst.quote.pcrSelect

theorem checkTpm2pcrs_eq_zero_iff {tpmAtst regAtst : TpmsAttest} :
    checkTpm2pcrs tpmAtst regAtst = .ok 0 ↔ SamePcrSelection tpmAtst regAtst :=
  compPcrSelection_eq_zero_iff

/-- A quote is accepted exactly when it selects the registered registers. -/
theorem pcrsAccepted_iff {tpmAtst regAtst : TpmsAttest} :
    PcrsAccepted tpmAtst regAtst ↔ SamePcrSelection tpmAtst regAtst := by
  rw [← checkTpm2pcrs_eq_zero_iff]
  constructor
  · intro ⟨rc, hrc, hnonneg⟩
    rcases compPcrSelection_cases hrc with rfl | rfl
    · exact hrc
    · omega
  · intro h
    exact ⟨0, h, le_refl 0⟩

/-- The quotes agree on the registers and on the digest of their values. -/
structure PcrsAgree (tpmAtst regAtst : TpmsAttest) : Prop where
  selection : SamePcrSelection tpmAtst regAtst
  pcrDigest : tpmAtst.quote.pcrDigest = regAtst.quote.pcrDigest

/-- An accepted quote agrees with the registered one, values included. -/
def PcrValuesAttested (tpmAtst regAtst : TpmsAttest) : Prop :=
  PcrsAccepted tpmAtst regAtst → PcrsAgree tpmAtst regAtst

/-- Two platforms that are accepted against one registered quote have the same values in the registers. -/
def PlatformsSeparated (tpmAtst₁ tpmAtst₂ regAtst : TpmsAttest) : Prop :=
  PcrsAccepted tpmAtst₁ regAtst → PcrsAccepted tpmAtst₂ regAtst →
    tpmAtst₁.quote.pcrDigest = tpmAtst₂.quote.pcrDigest

/-- Values are attested only where the selection alone already decides. -/
theorem checkTpm2pcrs_attests_values_iff (tpmAtst₁ tpmAtst₂ regAtst : TpmsAttest) :
    (PcrValuesAttested tpmAtst₁ regAtst ↔
      (SamePcrSelection tpmAtst₁ regAtst → tpmAtst₁.quote.pcrDigest = regAtst.quote.pcrDigest)) ∧
    (PlatformsSeparated tpmAtst₁ tpmAtst₂ regAtst ↔
      (SamePcrSelection tpmAtst₁ regAtst → SamePcrSelection tpmAtst₂ regAtst →
        tpmAtst₁.quote.pcrDigest = tpmAtst₂.quote.pcrDigest)) := by
  constructor
  · unfold PcrValuesAttested
    rw [pcrsAccepted_iff]
    constructor
    · intro h hsel
      exact (h hsel).pcrDigest
    · intro h hsel
      exact ⟨hsel, h hsel⟩
  · unfold PlatformsSeparated
    rw [pcrsAccepted_iff, pcrsAccepted_iff]

/-- A quote over the SHA-256 bank of PCR 10, with the given digest of its value. -/
def quoteOfPcr10 (pcrDigest : Bytes) : TpmsAttest where
  type := tpm2StAttestQuote
  extraData := ⟨32, ByteBuf.zero 66⟩
  quote :=
    { pcrSelect :=
        { count := 1
          pcrSelections := ⟨List.replicate 16 ⟨Tpm2Alg.sha256, 3, ⟨[0, 4, 0, 0], rfl⟩⟩, List.length_replicate⟩ }
      pcrDigest := pcrDigest }

/-- A registered platform, one whose register holds another value, and the check that accepts it. -/
theorem checkTpm2pcrs_accepts_other_values :
    ¬ PcrValuesAttested (quoteOfPcr10 (List.replicate 32 1)) (quoteOfPcr10 (List.replicate 32 0)) := by
  intro h
  have haccepted : PcrsAccepted (quoteOfPcr10 (List.replicate 32 1)) (quoteOfPcr10 (List.replicate 32 0)) :=
    ⟨0, by decide, le_refl 0⟩
  exact absurd (h haccepted).pcrDigest (by decide)

end PortableTlsRa
