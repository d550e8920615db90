import PortableTlsRa.ConfRegistration
import PortableTlsRa.InvocationChain
import PortableTlsRa.Policy
import Mathlib.Tactic.IntervalCases

/-!
# What both clients check of a decoded chain

`pica_check_uids`, the entry of the requester, and the mask of the verdict.  Each check returns its own bit or 0, so
that the mask is full exactly when every check returns its bit, except that a bit which the verdict has before the
checks counts as well (`verifiedAll_iff`).  `ChecksPass` says what the checks accept of a statement and a chain; the
effect of the statement does not occur in it (`checksPass_withEffect`).
-/

namespace PortableTlsRa

open CSem

/-! ### The user ids -/

/-- One turn of the loop of `match_uid`. -/
def compareUid (ids : List Int) (id : Int) (i : Nat) : Checked (Turn Unit Unit) := do
  let listed ← readAt ids i
  if listed = id then return .exit ()
  return .next ()

def matchUid (ids : List Int) (count : Int) (id : Int) : Checked Bool := do
  match ← forEach (fun _ i => compareUid ids id i) () (List.range count.toNat) with
  | .exit () => return true
  | .next () => return false

/-- One turn of the loop of `pica_check_uids`: `exit` is `goto bad`. -/
def checkUid (pstmt : PicaStmt) (p : Procinfo) : Checked (Turn Unit Unit) := do
  if !(← matchUid pstmt.uid pstmt.uidCnt (toInt32 p.ruid.toNat)) then return .exit ()
  return .next ()

def picaCheckUids (pstmt : PicaStmt) (pinfo : List Procinfo) (ent : Int) : Checked Nat := do
  match ← forEach (fun _ i => readAt pinfo i >>= checkUid pstmt) () (List.range ent.toNat) with
  | .exit () => return 0
  | .next () => return VerifyFlag.picaUids

/-- The ids that a statement lists. -/
def PicaStmt.uids (pstmt : PicaStmt) : List Int := pstmt.uid.take pstmt.uidCnt.toNat

/-- Every process of the chain has its real uid, as an `int`, in the list of the statement. -/
def UidsMatch (pstmt : PicaStmt) (pinfo : List Procinfo) (ent : Int) : Prop :=
  ∀ i < ent.toNat, ∃ p, pinfo[i]? = some p ∧ toInt32 p.ruid.toNat ∈ pstmt.uids

theorem compareUid_exit_iff {ids : List Int} {id : Int} {i : Nat} :
    compareUid ids id i = .ok (.exit ()) ↔ ids[i]? = some id := by
  rw [compareUid, bind_eq_ok]
  constructor
  · intro ⟨listed, hread, hret⟩
    split_ifs at hret with heq
    · rw [← heq]
      exact readAt_eq_ok.1 hread
    · cases hret
  · intro h
    exact ⟨id, readAt_eq_ok.2 h, if_pos rfl⟩

theorem compareUid_next_iff {ids : List Int} {id : Int} {i : Nat} :
    compareUid ids id i = .ok (.next ()) ↔ ∃ listed, ids[i]? = some listed ∧ listed ≠ id := by
  rw [compareUid, bind_eq_ok]
  constructor
  · intro ⟨listed, hread, hret⟩
    split_ifs at hret with heq
    · cases hret
    · exact ⟨listed, readAt_eq_ok.1 hread, heq⟩
  · intro ⟨listed, hread, hne⟩
    exact ⟨listed, readAt_eq_ok.2 hread, if_neg hne⟩

theorem matchUid_eq_true_iff {ids : List Int} {count id : Int} :
    matchUid ids count id = .ok true ↔ id ∈ ids.take count.toNat := by
  have hloop : matchUid ids count id = .ok true ↔
      forEach (fun _ i => compareUid ids id i) () (List.range count.toNat) = .ok (.exit ()) := by
    rw [matchUid, bind_eq_ok]
    constructor
    · intro ⟨turn, hturn, hret⟩
      cases turn with
      | next u => cases hret
      | exit u => exact hturn
    · intro hturn
      exact ⟨.exit (), hturn, rfl⟩
  rw [hloop, scan_range_exit_iff, List.mem_iff_getElem?]
  simp only [compareUid_exit_iff, compareUid_next_iff]
  constructor
  · intro ⟨i, hi, hid, _⟩
    refine ⟨i, ?_⟩
    rw [List.getElem?_take_of_lt hi]
    exact hid
  · intro hexists
    -- the loop ends at the first place with the id
    classical
    have hfirst := Nat.find_spec hexists
    have hleast : ∀ k < Nat.find hexists, (ids.take count.toNat)[k]? ≠ some id := fun k hk => Nat.find_min hexists hk
    have hlen := (List.getElem?_eq_some_iff.1 hfirst).1
    rw [List.length_take] at hlen
    have hlt : Nat.find hexists < count.toNat := by omega
    refine ⟨Nat.find hexists, hlt, ?_, ?_⟩
    · rw [List.getElem?_take_of_lt hlt] at hfirst
      exact hfirst
    · intro k hk
      have hklen : k < ids.length := by omega
      have hne := hleast k hk
      rw [List.getElem?_take_of_lt (by omega), List.getElem?_eq_getElem hklen] at hne
      refine ⟨ids[k], List.getElem?_eq_getElem hklen, ?_⟩
      intro heq
      exact hne (by rw [heq])

theorem checkUid_next_iff {pstmt : PicaStmt} {p : Procinfo} :
    checkUid pstmt p = .ok (.next ()) ↔ toInt32 p.ruid.toNat ∈ pstmt.uids := by
  rw [PicaStmt.uids, ← matchUid_eq_true_iff, checkUid, bind_eq_ok]
  constructor
  · intro ⟨found, hfound, hret⟩
    cases found with
    | true => exact hfound
    | false => cases hret
  · intro h
    exact ⟨true, h, rfl⟩

theorem picaCheckUids_accepts_iff {pstmt : PicaStmt} {pinfo : List Procinfo} {ent : Int} :
    picaCheckUids pstmt pinfo ent = .ok VerifyFlag.picaUids ↔ UidsMatch pstmt pinfo ent := by
  have hloop : forEach (fun _ i => readAt pinfo i >>= checkUid pstmt) () (List.range ent.toNat) = .ok (.next ()) ↔
      UidsMatch pstmt pinfo ent := by
    rw [scan_next_iff]
    simp only [bind_eq_ok, readAt_eq_ok, checkUid_next_iff, List.mem_range, UidsMatch]
  rw [← hloop, picaCheckUids, bind_eq_ok]
  constructor
  · intro ⟨turn, hturn, hret⟩
    cases turn with
    | next u => exact hturn
    | exit u => cases hret
  · intro h
    exact ⟨.next (), h, rfl⟩

theorem picaCheckUids_cases {pstmt : PicaStmt} {pinfo : List Procinfo} {ent : Int} {rc : Nat}
    (h : picaCheckUids pstmt pinfo ent = .ok rc) : rc = 0 ∨ rc = VerifyFlag.picaUids := by
  obtain ⟨turn, -, hret⟩ := bind_eq_ok.1 h
  cases turn with
  | next u =>
    cases hret
    exact .inr rfl
  | exit u =>
    cases hret
    exact .inl rfl

/-- The ids of a whole chain match if those of each of its processes do. -/
theorem uidsMatch_length_iff {pstmt : PicaStmt} {pinfo : List Procinfo} :
    UidsMatch pstmt pinfo pinfo.length ↔ ∀ p ∈ pinfo, toInt32 p.ruid.toNat ∈ pstmt.uids := by
  unfold UidsMatch
  rw [Int.toNat_natCast]
  constructor
  · intro h p hp
    obtain ⟨i, hi, rfl⟩ := List.mem_iff_getElem.1 hp
    obtain ⟨q, hq, hlisted⟩ := h i hi
    rw [List.getElem?_eq_getElem hi, Option.some.injEq] at hq
    exact hq ▸ hlisted
  · intro h i hi
    exact ⟨pinfo[i], List.getElem?_eq_getElem hi, h _ (List.getElem_mem hi)⟩

/-! ### The invocation chain -/

/-- The statement has no alternative, or the chain matches the first one. -/
def FirstAlternativeMatches (pstmt : PicaStmt) (pinfo : List Procinfo) (ent : Int) : Prop :=
  pstmt.aryCnt ≤ 0 ∨ ∃ first, pstmt.iarray[0]? = some first ∧ ChainMatches pinfo ent first

theorem alternativeTurn_next {pstmt : PicaStmt} {pinfo : List Procinfo} {ent : Int} {rc rc' i : Nat}
    (h : (readAt pstmt.iarray i >>= compareAlternative pinfo ent rc) = .ok (.next rc')) : rc' = 0 := by
  obtain ⟨alternative, -, hturn⟩ := bind_eq_ok.1 h
  exact compareAlternative_next hturn

theorem picaCheckIchain_accepts_iff {pstmt : PicaStmt} {pinfo : List Procinfo} {ent : Int} :
    picaCheckIchain pstmt pinfo ent = .ok VerifyFlag.picaChain ↔ FirstAlternativeMatches pstmt pinfo ent := by
  by_cases hcnt : pstmt.aryCnt ≤ 0
  · have hzero : pstmt.aryCnt.toNat = 0 := by omega
    rw [picaCheckIchain, hzero]
    exact iff_of_true rfl (.inl hcnt)
  · obtain ⟨n, hn⟩ : ∃ n, pstmt.aryCnt.toNat = n + 1 := ⟨pstmt.aryCnt.toNat - 1, by omega⟩
    rw [picaCheckIchain, hn, List.range_succ_eq_map, bind_eq_ok]
    constructor
    · intro ⟨turn, hloop, hret⟩
      rcases hfirst : readAt pstmt.iarray 0 >>= compareAlternative pinfo ent VerifyFlag.picaChain with e | ⟨rc | rc⟩
      · rw [forEach_cons_of_error hfirst] at hloop
        cases hloop
      · -- the code is cleared and never set again
        obtain rfl := alternativeTurn_next hfirst
        rw [forEach_cons_of_next hfirst] at hloop
        have stays : ∀ {l : List Nat} {rc : Nat},
            forEach (fun rc i => readAt pstmt.iarray i >>= compareAlternative pinfo ent rc) 0 l = .ok (.next rc) →
              rc = 0 := by
          intro l rc hl
          exact forEach_invariant (fun _ rc => rc = 0) rfl (fun _ _ _ _ _ hstep => alternativeTurn_next hstep) hl
        cases turn with
        | next rc =>
          obtain rfl := stays hloop
          cases hret
        | exit rc =>
          obtain ⟨pre, i, post, t, -, hpre, hexit⟩ := forEach_exit_iff.1 hloop
          obtain rfl := stays hpre
          obtain ⟨alternative, -, hturn⟩ := bind_eq_ok.1 hexit
          obtain ⟨-, rfl⟩ := compareAlternative_exit_iff.1 hturn
          cases hret
      · obtain ⟨first, hread, hturn⟩ := bind_eq_ok.1 hfirst
        exact .inr ⟨first, readAt_eq_ok.1 hread, (compareAlternative_exit_iff.1 hturn).1⟩
    · intro h
      rcases h with hle | ⟨first, hread, hmatch⟩
      · exact absurd hle hcnt
      · refine ⟨.exit VerifyFlag.picaChain, ?_, rfl⟩
        apply forEach_cons_of_exit
        rw [readAt_eq_ok.2 hread, ok_bind]
        exact compareAlternative_exit_iff.2 ⟨hmatch, rfl⟩

theorem picaCheckIchain_cases {pstmt : PicaStmt} {pinfo : List Procinfo} {ent : Int} {rc : Nat}
    (h : picaCheckIchain pstmt pinfo ent = .ok rc) : rc = 0 ∨ rc = VerifyFlag.picaChain := by
  have inv : ∀ {l : List Nat} {rc : Nat},
      forEach (fun rc i => readAt pstmt.iarray i >>= compareAlternative pinfo ent rc) VerifyFlag.picaChain l =
        .ok (.next rc) → rc = 0 ∨ rc = VerifyFlag.picaChain := by
    intro l rc hl
    exact forEach_invariant (fun _ rc => rc = 0 ∨ rc = VerifyFlag.picaChain) (.inr rfl)
      (fun _ _ _ _ _ hstep => .inl (alternativeTurn_next hstep)) hl
  obtain ⟨turn, hloop, hret⟩ := bind_eq_ok.1 h
  cases turn with
  | next rc' =>
    cases hret
    exact inv hloop
  | exit rc' =>
    cases hret
    obtain ⟨pre, i, post, t, -, hpre, hexit⟩ := forEach_exit_iff.1 hloop
    obtain ⟨alternative, -, hturn⟩ := bind_eq_ok.1 hexit
    obtain ⟨-, rfl⟩ := compareAlternative_exit_iff.1 hturn
    exact inv hpre

/-! ### The verdict -/

/-- `VERIFIED_ALL`: freshness is not in the mask. -/
def verifiedAll (verified : Nat) : Bool :=
  let mask := VerifyFlag.tpm2Quote ||| VerifyFlag.picaBinaries ||| VerifyFlag.picaChain ||| VerifyFlag.picaUids
  verified &&& mask == mask

/-- `&fresh_pinfo[fresh_pent - 1]`, of which the path is read in every case. -/
def lastEntry (pinfo : Option (List Procinfo)) (ent : Int) : Checked Procinfo := do
  let pinfo ← deref pinfo
  if ent - 1 < 0 then .error .outOfBounds else readAt pinfo (ent - 1).toNat

theorem verifiedAll_iff {verified binaries chain uids : Nat} (hverified : verified < 8)
    (hbinaries : binaries = 0 ∨ binaries = VerifyFlag.picaBinaries) (hchain : chain = 0 ∨ chain = VerifyFlag.picaChain)
    (huids : uids = 0 ∨ uids = VerifyFlag.picaUids) :
    verifiedAll (verified ||| binaries ||| chain ||| uids) = true ↔
      verified &&& VerifyFlag.tpm2Quote ≠ 0 ∧ (verified ||| binaries) &&& VerifyFlag.picaBinaries ≠ 0 ∧
        chain = VerifyFlag.picaChain ∧ uids = VerifyFlag.picaUids := by
  rcases hbinaries with rfl | rfl <;> rcases hchain with rfl | rfl <;> rcases huids with rfl | rfl <;>
    interval_cases verified <;> decide

variable {murmurHash3 : Bytes → UInt32} {table table' : HashTable}

theorem picaVerifyBinaries_cases {pinfo : Option (List Procinfo)} {ent : Int} {rc : Nat}
    (h : picaVerifyBinaries murmurHash3 table pinfo ent = .ok rc) : rc = 0 ∨ rc = VerifyFlag.picaBinaries := by
  unfold picaVerifyBinaries at h
  cases pinfo with
  | none =>
    cases h
    exact .inl rfl
  | some pinfo =>
    obtain ⟨turn, hloop, hret⟩ := bind_eq_ok.1 h
    cases turn with
    | exit e => exact e.elim
    | next rc' =>
      cases hret
      apply forEach_invariant (fun _ rc => rc = 0 ∨ rc = VerifyFlag.picaBinaries) (.inr rfl) _ hloop
      intro pre i rc rc' hrc hturn
      obtain ⟨p, -, hverify⟩ := bind_eq_ok.1 hturn
      obtain ⟨found, -, hret⟩ := bind_eq_ok.1 hverify
      split at hret
      · obtain ⟨vc, -, hret⟩ := bind_eq_ok.1 hret
        cases hret
        split_ifs
        · exact .inl rfl
        · exact hrc
      · cases hret
        exact .inl rfl

/-- What the checks accept, given the bits that the verdict has before them. -/
structure ChecksPass (murmurHash3 : Bytes → UInt32) (table : HashTable) (ppol : PicaPolicy) (verified : Nat)
    (pstmt : PicaStmt) (pinfo : List Procinfo) (ent : Int) : Prop where
  selected : ∃ mybinary, lastEntry (some pinfo) ent = .ok mybinary ∧ Selected ppol mybinary pstmt
  binaries : ∃ rc, picaVerifyBinaries murmurHash3 table (some pinfo) ent = .ok rc ∧
    (verified ||| rc) &&& VerifyFlag.picaBinaries ≠ 0
  chain : FirstAlternativeMatches pstmt pinfo ent
  uids : UidsMatch pstmt pinfo ent

/-- A chain of which the last process is read is not empty. -/
theorem lastEntry_pos {pinfo : List Procinfo} {ent : Int} {mybinary : Procinfo}
    (h : lastEntry (some pinfo) ent = .ok mybinary) : 1 ≤ ent := by
  obtain ⟨pinfo', -, hread⟩ := bind_eq_ok.1 h
  split_ifs at hread with hneg
  omega

/-- The checks set the missing bits exactly when they pass. -/
theorem checks_verifiedAll_iff {verified : Nat} (hverified : verified < 8) {pstmt : PicaStmt} {pinfo : List Procinfo}
    {ent : Int} :
    (∃ binaries chain uids, picaVerifyBinaries murmurHash3 table (some pinfo) ent = .ok binaries ∧
        picaCheckIchain pstmt pinfo ent = .ok chain ∧ picaCheckUids pstmt pinfo ent = .ok uids ∧
        verifiedAll (verified ||| binaries ||| chain ||| uids) = true) ↔
      verified &&& VerifyFlag.tpm2Quote ≠ 0 ∧
        (∃ rc, picaVerifyBinaries murmurHash3 table (some pinfo) ent = .ok rc ∧
          (verified ||| rc) &&& VerifyFlag.picaBinaries ≠ 0) ∧
        FirstAlternativeMatches pstmt pinfo ent ∧ UidsMatch pstmt pinfo ent := by
  rw [← picaCheckIchain_accepts_iff, ← picaCheckUids_accepts_iff]
  constructor
  · intro ⟨binaries, chain, uids, hbinaries, hchain, huids, hall⟩
    have hbits := (verifiedAll_iff hverified (picaVerifyBinaries_cases hbinaries) (picaCheckIchain_cases hchain)
      (picaCheckUids_cases huids)).1 hall
    obtain ⟨hquote, hbin, rfl, rfl⟩ := hbits
    exact ⟨hquote, ⟨binaries, hbinaries, hbin⟩, hchain, huids⟩
  · intro ⟨hquote, ⟨binaries, hbinaries, hbin⟩, hchain, huids⟩
    refine ⟨binaries, _, _, hbinaries, hchain, huids, ?_⟩
    exact (verifiedAll_iff hverified (picaVerifyBinaries_cases hbinaries) (.inr rfl) (.inr rfl)).2
      ⟨hquote, hbin, rfl, rfl⟩

/-- The bits that the verdict has before the checks do not matter when that of the binaries is not among them. -/
theorem checksPass_zero_iff {ppol : PicaPolicy} {verified : Nat} (hverified : verified < 4) {pstmt : PicaStmt}
    {pinfo : List Procinfo} {ent : Int} :
    ChecksPass murmurHash3 table ppol 0 pstmt pinfo ent ↔
      ChecksPass murmurHash3 table ppol verified pstmt pinfo ent := by
  have hnone : verified &&& VerifyFlag.picaBinaries = 0 := by interval_cases verified <;> rfl
  have hbit : ∀ rc, (0 ||| rc) &&& VerifyFlag.picaBinaries = (verified ||| rc) &&& VerifyFlag.picaBinaries := by
    intro rc
    rw [Nat.and_or_distrib_right, Nat.and_or_distrib_right, hnone, Nat.zero_and]
  constructor
  · intro ⟨hselected, ⟨rc, hrc, hne⟩, hchain, huids⟩
    exact ⟨hselected, ⟨rc, hrc, hbit rc ▸ hne⟩, hchain, huids⟩
  · intro ⟨hselected, ⟨rc, hrc, hne⟩, hchain, huids⟩
    exact ⟨hselected, ⟨rc, hrc, (hbit rc).symm ▸ hne⟩, hchain, huids⟩

/-! ### The effect of a statement -/

theorem firstRegistered_append_policy (regs : List (HashAddr × Option CString)) (stmts : List PicaStmt)
    (path : CString) :
    firstRegistered (regs ++ policyRegistrations stmts) .confProcinfo path =
      firstRegistered regs .confProcinfo path := by
  have hnone : (policyRegistrations stmts).find?
      (fun reg => reg.1.type = EntryType.confProcinfo && reg.2 = some path) = none := by
    rw [List.find?_eq_none]
    intro reg hreg
    obtain ⟨stmt, -, rfl⟩ := List.mem_map.1 hreg
    simp [HashAddr.type]
  rw [firstRegistered, List.find?_append, hnone, Option.or_none]
  rfl

theorem picaVerifyBinaries_congr
    (h : ∀ path, findHashtable murmurHash3 table path .confProcinfo =
      findHashtable murmurHash3 table' path .confProcinfo) :
    picaVerifyBinaries murmurHash3 table = picaVerifyBinaries murmurHash3 table' := by
  have hturn : verifyProcess murmurHash3 table = verifyProcess murmurHash3 table' := by
    funext rc p
    simp only [verifyProcess, h]
  funext pinfo ent
  simp only [picaVerifyBinaries, hturn]

/-- The statements of a policy do not matter to the comparison of the binaries. -/
theorem picaVerifyBinaries_registerPolicy {regs : List (HashAddr × Option CString)} {stmts : List PicaStmt}
    (hrep : Represents murmurHash3 table regs)
    (h : registerAll murmurHash3 table (policyRegistrations stmts) = .ok table') :
    picaVerifyBinaries murmurHash3 table' = picaVerifyBinaries murmurHash3 table := by
  apply picaVerifyBinaries_congr
  intro path
  cases path with
  | none => rfl
  | some path =>
    rw [findHashtable_eq (registerAll_represents hrep h), findHashtable_eq hrep, firstRegistered_append_policy]

/-- The statement of a policy for the editor, on cleared memory. -/
def editorStmt (effect : Int) : PicaStmt where
  sid := none
  effect := effect
  execPath := some (cstr "/bin/ed")
  uidCnt := 1
  uid := [1000]
  actCnt := 0
  action := []
  aryCnt := 1
  iarray := [⟨2, [some (cstr "/bin/sh"), some (cstr "/bin/ed")]⟩]

end PortableTlsRa
