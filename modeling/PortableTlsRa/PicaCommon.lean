import PortableTlsRa.Lib.HashBinding
import PortableTlsRa.Platform

/-!
# The functions shared by PICA and the TPM2 host code

`hash_extend_sha256` and `comp_pcr_selection`.  The first reuses its return code for what OpenSSL returns, so it
returns 0 both when the digest is written and when an OpenSSL call fails with 0 (`hashExtendSha256_rc_eq_zero_iff`).
The second returns 0 exactly when the banks in use are the same (`compPcrSelection_eq_zero_iff`).
-/

namespace PortableTlsRa

open CSem

/-! ### The extended hash -/

/-- A digest or a nonce joined with a second one, as one message. -/
def join32 (d n : ByteBuf 32) : Bytes := d.1 ++ n.1

theorem join32_injective : Function.Injective2 join32 := by
  intro d d' n n' h
  obtain ⟨hd, hn⟩ := List.append_inj h (by rw [d.2, d'.2])
  exact ⟨Subtype.ext hd, Subtype.ext hn⟩

/-- Returns the code and what `new_hash` holds then. -/
def hashExtendSha256 (sha256 : Bytes → ByteBuf 32) (c : DigestCalls) (oldHash digest newHash : ByteBuf 32) :
    Int × ByteBuf 32 :=
  if !c.ctxNew then (-1, newHash)
  else if c.init ≠ 1 then (c.init, newHash)
  else if c.update₁ ≠ 1 then (c.update₁, newHash)
  -- tested as a pointer: any value but 0 goes on
  else if c.update₂ = 0 then (c.update₂, newHash)
  else if c.final ≠ 1 then (c.final, c.left)
  else if c.len = 32 then (0, if c.update₂ = 1 then sha256 (join32 oldHash digest) else c.left)
  else (1, c.left)

/-- An OpenSSL call of the extended hash fails and returns 0. -/
def DigestCalls.FailsWithZero (c : DigestCalls) : Prop :=
  c.ctxNew = true ∧ (c.init = 0 ∨ c.init = 1 ∧ (c.update₁ = 0 ∨ c.update₁ = 1 ∧ (c.update₂ = 0 ∨ c.final = 0)))

/-- Every call is made and the digest has 32 bytes. -/
def DigestCalls.RunsThrough (c : DigestCalls) : Prop :=
  c.ctxNew = true ∧ c.init = 1 ∧ c.update₁ = 1 ∧ c.update₂ ≠ 0 ∧ c.final = 1 ∧ c.len = 32

theorem DigestCalls.Succeed.runsThrough {c : DigestCalls} (h : c.Succeed) : c.RunsThrough := by
  obtain ⟨hctx, hinit, hup₁, hup₂, hfinal, hlen⟩ := h
  exact ⟨hctx, hinit, hup₁, by omega, hfinal, hlen⟩

variable {sha256 : Bytes → ByteBuf 32} {c : DigestCalls} {oldHash digest newHash : ByteBuf 32}

/-- The code 0 stands for a computed digest and for a failed call alike. -/
theorem hashExtendSha256_rc_eq_zero_iff :
    (hashExtendSha256 sha256 c oldHash digest newHash).1 = 0 ↔ c.FailsWithZero ∨ c.RunsThrough := by
  unfold hashExtendSha256 DigestCalls.FailsWithZero DigestCalls.RunsThrough
  split_ifs <;> simp_all

theorem hashExtendSha256_of_succeed (h : c.Succeed) :
    hashExtendSha256 sha256 c oldHash digest newHash = (0, sha256 (join32 oldHash digest)) := by
  obtain ⟨hctx, hinit, hup₁, hup₂, hfinal, hlen⟩ := h
  simp [hashExtendSha256, hctx, hinit, hup₁, hup₂, hfinal, hlen]

/-! ### PCR selections -/

/-- One turn of the loop of `comp_pcr_selection`, on bank `i`. -/
def compPcrBank (a b : TpmlPcrSelection) (i : Nat) : Checked (Turn Unit Int) := do
  let sa ← readAt a.pcrSelections.1 i
  let sb ← readAt b.pcrSelections.1 i
  if sa.hash ≠ sb.hash then return .exit (-1)
  if sa.sizeofSelect ≠ sb.sizeofSelect then return .exit (-1)
  let same ← memcmpEq sa.pcrSelect.1 sb.pcrSelect.1 sa.sizeofSelect.toNat
  if !same then return .exit (-1)
  return .next ()

def compPcrSelection (a b : TpmlPcrSelection) : Checked Int := do
  if a.count ≠ b.count then return -1
  match ← forEach (fun _ i => compPcrBank a b i) () (List.range a.count.toNat) with
  | .exit rc => return rc
  | .next () => return 0

/-- The banks in use at the same place select the same registers of the same bank. -/
structure TpmsPcrSelection.Same (sa sb : TpmsPcrSelection) : Prop where
  hash_eq : sa.hash = sb.hash
  sizeofSelect_eq : sa.sizeofSelect = sb.sizeofSelect
  sizeofSelect_le : sa.sizeofSelect.toNat ≤ 4
  pcrSelect_eq : sa.pcrSelect.1.take sa.sizeofSelect.toNat = sb.pcrSelect.1.take sa.sizeofSelect.toNat

/-- The two lists have the same banks in use, all within the arrays. -/
structure TpmlPcrSelection.Same (a b : TpmlPcrSelection) : Prop where
  count_eq : a.count = b.count
  banks : ∀ i < a.count.toNat,
    ∃ sa sb, a.pcrSelections.1[i]? = some sa ∧ b.pcrSelections.1[i]? = some sb ∧ sa.Same sb

theorem compPcrBank_next_iff {a b : TpmlPcrSelection} {i : Nat} :
    compPcrBank a b i = .ok (.next ()) ↔
      ∃ sa sb, a.pcrSelections.1[i]? = some sa ∧ b.pcrSelections.1[i]? = some sb ∧ sa.Same sb := by
  simp only [compPcrBank, bind_eq_ok, readAt_eq_ok, pure_eq_ok]
  constructor
  · intro ⟨sa, ha, sb, hb, h⟩
    refine ⟨sa, sb, ha, hb, ?_⟩
    split_ifs at h with hhash hsize
    · cases h
    · cases h
    · obtain ⟨same, hcmp, hret⟩ := bind_eq_ok.1 h
      cases same
      · simp at hret
      · obtain ⟨hle, -, htake⟩ := memcmpEq_eq_true.1 hcmp
        rw [sa.pcrSelect.2] at hle
        exact ⟨not_not.1 hhash, not_not.1 hsize, hle, htake⟩
  · intro ⟨sa, sb, ha, hb, hsame⟩
    refine ⟨sa, ha, sb, hb, ?_⟩
    have hlea : sa.sizeofSelect.toNat ≤ sa.pcrSelect.1.length := by
      rw [sa.pcrSelect.2]
      exact hsame.sizeofSelect_le
    have hleb : sa.sizeofSelect.toNat ≤ sb.pcrSelect.1.length := by
      rw [sb.pcrSelect.2]
      exact hsame.sizeofSelect_le
    have hcmp : memcmpEq sa.pcrSelect.1 sb.pcrSelect.1 sa.sizeofSelect.toNat = .ok true :=
      memcmpEq_eq_true.2 ⟨hlea, hleb, hsame.pcrSelect_eq⟩
    rw [if_neg (not_not.2 hsame.hash_eq), if_neg (not_not.2 hsame.sizeofSelect_eq), hcmp]
    rfl

/-- A turn that leaves the loop leaves it with -1. -/
theorem compPcrBank_exit {a b : TpmlPcrSelection} {i : Nat} {rc : Int}
    (h : compPcrBank a b i = .ok (.exit rc)) : rc = -1 := by
  simp only [compPcrBank, bind_eq_ok, pure_eq_ok] at h
  obtain ⟨sa, -, sb, -, h⟩ := h
  split_ifs at h
  · simp_all
  · simp_all
  · obtain ⟨same, -, hret⟩ := bind_eq_ok.1 h
    cases same <;> simp_all

theorem compPcrSelection_cases {a b : TpmlPcrSelection} {rc : Int} (h : compPcrSelection a b = .ok rc) :
    rc = 0 ∨ rc = -1 := by
  unfold compPcrSelection at h
  split_ifs at h
  · cases h
    exact .inr rfl
  · obtain ⟨turn, hloop, hret⟩ := bind_eq_ok.1 h
    cases turn with
    | next u =>
      cases hret
      exact .inl rfl
    | exit rc' =>
      obtain ⟨pre, i, post, t, -, -, hexit⟩ := forEach_exit_iff.1 hloop
      cases hret
      exact .inr (compPcrBank_exit hexit)

/-- `comp_pcr_selection` accepts exactly the selections with the same banks in use. -/
theorem compPcrSelection_eq_zero_iff {a b : TpmlPcrSelection} : compPcrSelection a b = .ok 0 ↔ a.Same b := by
  unfold compPcrSelection
  by_cases hcount : a.count = b.count
  · rw [if_neg (not_not.2 hcount), bind_eq_ok]
    constructor
    · intro ⟨turn, hloop, hret⟩
      cases turn with
      | next u =>
        refine ⟨hcount, ?_⟩
        intro i hi
        exact compPcrBank_next_iff.1 (scan_next_iff.1 hloop i (List.mem_range.2 hi))
      | exit rc =>
        obtain ⟨pre, i, post, t, -, -, hexit⟩ := forEach_exit_iff.1 hloop
        obtain rfl := compPcrBank_exit hexit
        cases hret
    · intro hsame
      refine ⟨.next (), scan_next_iff.2 ?_, rfl⟩
      intro i hi
      exact compPcrBank_next_iff.2 (hsame.banks i (List.mem_range.1 hi))
  · rw [if_pos hcount]
    constructor
    · intro h
      cases h
    · intro hsame
      exact absurd hsame.count_eq hcount

end PortableTlsRa
