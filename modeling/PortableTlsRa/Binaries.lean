import PortableTlsRa.HashTable

/-!
# Verifying binaries

`pica_verify_digest` compares a measured process with the registered one, `pica_verify_binaries` does so for every
process of a measured chain.  The search for a measured library among the registered ones ends in the same place
whether the library is found with an equal digest or not found at all, so that a library no registration names is
accepted; the check is sound exactly where an accepted chain has no such library (`picaVerifyBinaries_sound_iff`).
-/

namespace PortableTlsRa

open CSem

/-- One turn of the inner loop: `exit true` is `goto match`, `exit false` is `goto bad`. -/
def compareLibrary (freshDig : Fdigest) (regLibs : List Fdigest) (j : Nat) : Checked (Turn Unit Bool) := do
  let regDig ← readAt regLibs j
  if ← strcmpEq freshDig.path regDig.path then
    return .exit (decide (freshDig.digest = regDig.digest))
  return .next ()

/-- One turn of the outer loop; the inner loop falls through to `match` when it ends. -/
def verifyLibrary (regLibs : List Fdigest) (cnt : Nat) (freshDig : Fdigest) : Checked (Turn Unit Unit) := do
  match ← forEach (fun _ j => compareLibrary freshDig regLibs j) () (List.range cnt) with
  | .exit false => return .exit ()
  | .exit true => return .next ()
  | .next () => return .next ()

def picaVerifyDigest (regpinfo freshpinfo : Procinfo) : Checked Int := do
  if regpinfo.count ≠ freshpinfo.count then return -1
  if regpinfo.digest ≠ freshpinfo.digest then return -1
  let cnt := freshpinfo.count.toNat
  match ← forEach (fun _ i => readAt freshpinfo.libs i >>= verifyLibrary regpinfo.libs cnt) () (List.range cnt) with
  | .exit () => return -1
  | .next () => return 0

variable (murmurHash3 : Bytes → UInt32)

/-- One turn of the loop over the measured chain. -/
def verifyProcess (table : HashTable) (rc : Nat) (p : Procinfo) : Checked (Turn Nat Empty) := do
  match ← findHashtable murmurHash3 table p.path .confProcinfo with
  | some (.procinfo cnfpinfo) =>
    let vc ← picaVerifyDigest cnfpinfo p
    return .next (if vc < 0 then 0 else rc)
  -- not found; an entry of this type is never a policy statement
  | _ => return .next 0

def picaVerifyBinaries (table : HashTable) (pinfo : Option (List Procinfo)) (ent : Int) : Checked Nat := do
  match pinfo with
  | none => return 0
  | some pinfo =>
    match ← forEach (fun rc i => readAt pinfo i >>= verifyProcess murmurHash3 table rc) VerifyFlag.picaBinaries
        (List.range ent.toNat) with
    | .next rc => return rc

/-! ### What the search for a library accepts -/

/-- The registered library in place `j` has another name. -/
def OtherName (regLibs : List Fdigest) (freshDig : Fdigest) (j : Nat) : Prop :=
  ∃ regDig s t, regLibs[j]? = some regDig ∧ freshDig.path = some s ∧ regDig.path = some t ∧ s ≠ t

/-- The registered library in place `j` has the same name and the same digest. -/
def SameLibrary (regLibs : List Fdigest) (freshDig : Fdigest) (j : Nat) : Prop :=
  ∃ regDig s, regLibs[j]? = some regDig ∧ freshDig.path = some s ∧ regDig.path = some s ∧
    freshDig.digest = regDig.digest

/-- No registered library has the name. -/
def LibraryUnnamed (regLibs : List Fdigest) (cnt : Nat) (freshDig : Fdigest) : Prop :=
  ∀ j < cnt, OtherName regLibs freshDig j

/-- The first registered library of the name has the same digest. -/
def FirstNamedSame (regLibs : List Fdigest) (cnt : Nat) (freshDig : Fdigest) : Prop :=
  ∃ j < cnt, SameLibrary regLibs freshDig j ∧ ∀ k < j, OtherName regLibs freshDig k

variable {regLibs : List Fdigest} {freshDig : Fdigest} {cnt j : Nat}

theorem compareLibrary_next_iff :
    compareLibrary freshDig regLibs j = .ok (.next ()) ↔ OtherName regLibs freshDig j := by
  simp only [compareLibrary, bind_eq_ok, readAt_eq_ok, strcmpEq_eq_ok, pure_eq_ok]
  constructor
  · intro h
    rcases h with ⟨regDig, hreg, same, ⟨s, t, hs, ht, rfl⟩, hret⟩
    refine ⟨regDig, s, t, hreg, hs, ht, ?_⟩
    intro hdigest
    rw [decide_eq_true hdigest] at hret
    cases hret
  · intro ⟨regDig, s, t, hreg, hs, ht, hne⟩
    exact ⟨regDig, hreg, false, ⟨s, t, hs, ht, decide_eq_false hne⟩, rfl⟩

theorem compareLibrary_exit_true_iff :
    compareLibrary freshDig regLibs j = .ok (.exit true) ↔ SameLibrary regLibs freshDig j := by
  simp only [compareLibrary, bind_eq_ok, readAt_eq_ok, strcmpEq_eq_ok, pure_eq_ok]
  constructor
  · intro h
    rcases h with ⟨regDig, hreg, same, ⟨s, t, hs, ht, rfl⟩, hret⟩
    by_cases hst : s = t
    · subst hst
      exact ⟨regDig, s, hreg, hs, ht, by simpa using hret⟩
    · simp [hst] at hret
  · intro ⟨regDig, s, hreg, hs, ht, hdigest⟩
    exact ⟨regDig, hreg, true, ⟨s, s, hs, ht, decide_eq_true rfl⟩, by simp [hdigest]⟩

/-- The outer loop goes on when the library is found with its digest, and when it is not found. -/
theorem verifyLibrary_next_iff :
    verifyLibrary regLibs cnt freshDig = .ok (.next ()) ↔
      FirstNamedSame regLibs cnt freshDig ∨ LibraryUnnamed regLibs cnt freshDig := by
  have hloop : forEach (fun _ j => compareLibrary freshDig regLibs j) () (List.range cnt) = .ok (.next ()) ↔
      LibraryUnnamed regLibs cnt freshDig := by
    rw [scan_next_iff]
    simp only [compareLibrary_next_iff, List.mem_range, LibraryUnnamed]
  rw [verifyLibrary, bind_eq_ok, ← hloop]
  constructor
  · intro ⟨turn, hturn, hret⟩
    cases turn with
    | next u => exact .inr hturn
    | exit found =>
      cases found
      · cases hret
      · obtain ⟨j, hj, hexit, hnext⟩ := scan_range_exit_iff.1 hturn
        refine .inl ⟨j, hj, compareLibrary_exit_true_iff.1 hexit, ?_⟩
        intro k hk
        exact compareLibrary_next_iff.1 (hnext k hk)
  · intro h
    rcases h with ⟨j, hj, hsame, hother⟩ | hunnamed
    · have hfound := compareLibrary_exit_true_iff.2 hsame
      have hearlier : ∀ k < j, compareLibrary freshDig regLibs k = .ok (.next ()) := by
        intro k hk
        exact compareLibrary_next_iff.2 (hother k hk)
      exact ⟨.exit true, scan_range_exit_iff.2 ⟨j, hj, hfound, hearlier⟩, rfl⟩
    · exact ⟨.next (), hunnamed, rfl⟩

/-! ### What an accepted process is -/

/-- The measured process passes the comparison with the registered one. -/
structure DigestPasses (regpinfo freshpinfo : Procinfo) : Prop where
  count_eq : regpinfo.count = freshpinfo.count
  digest_eq : regpinfo.digest = freshpinfo.digest
  libs : ∀ i < freshpinfo.count.toNat, ∃ lib, freshpinfo.libs[i]? = some lib ∧
    (FirstNamedSame regpinfo.libs freshpinfo.count.toNat lib ∨
      LibraryUnnamed regpinfo.libs freshpinfo.count.toNat lib)

theorem picaVerifyDigest_nonneg_iff {regpinfo freshpinfo : Procinfo} :
    (∃ vc, picaVerifyDigest regpinfo freshpinfo = .ok vc ∧ ¬ vc < 0) ↔ DigestPasses regpinfo freshpinfo := by
  have hloop : forEach (fun _ i => readAt freshpinfo.libs i >>= verifyLibrary regpinfo.libs freshpinfo.count.toNat) ()
      (List.range freshpinfo.count.toNat) = .ok (.next ()) ↔
      ∀ i < freshpinfo.count.toNat, ∃ lib, freshpinfo.libs[i]? = some lib ∧
        (FirstNamedSame regpinfo.libs freshpinfo.count.toNat lib ∨
          LibraryUnnamed regpinfo.libs freshpinfo.count.toNat lib) := by
    rw [scan_next_iff]
    simp only [bind_eq_ok, readAt_eq_ok, verifyLibrary_next_iff, List.mem_range]
  unfold picaVerifyDigest
  constructor
  · intro ⟨vc, hvc, hnonneg⟩
    split_ifs at hvc with hcount hdigest
    · cases hvc
      omega
    · cases hvc
      omega
    · obtain ⟨turn, hturn, hret⟩ := bind_eq_ok.1 hvc
      cases turn with
      | next u => exact ⟨not_not.1 hcount, not_not.1 hdigest, hloop.1 hturn⟩
      | exit u =>
        cases hret
        omega
  · intro h
    refine ⟨0, ?_, by omega⟩
    rw [if_neg (not_not.2 h.count_eq), if_neg (not_not.2 h.digest_eq)]
    exact bind_eq_ok.2 ⟨.next (), hloop.2 h.libs, rfl⟩

/-- The measured process passes the comparison with the entry that is registered for its path. -/
def ProcessPasses (setups : List Setup) (p : Procinfo) : Prop :=
  ∃ path r, p.path = some path ∧ registeredProcinfo setups path = some r ∧ DigestPasses r p

variable {murmurHash3} {table : HashTable} {setups : List Setup}

theorem verifyProcess_of_procinfo {rc : Nat} {p r : Procinfo} {path : CString}
    (hrep : Represents murmurHash3 table (registrations setups)) (hp : p.path = some path)
    (hr : registeredProcinfo setups path = some r) :
    verifyProcess murmurHash3 table rc p =
      picaVerifyDigest r p >>= fun vc => .ok (.next (if vc < 0 then 0 else rc)) := by
  unfold registeredProcinfo at hr
  split at hr
  · rename_i q hfirst
    cases hr
    rw [verifyProcess, hp, findHashtable_eq hrep, hfirst]
    rfl
  · cases hr

/-- A turn keeps the code of a process that passes and clears it for every other process. -/
theorem verifyProcess_cases {rc rc' : Nat} {p : Procinfo}
    (hrep : Represents murmurHash3 table (registrations setups))
    (h : verifyProcess murmurHash3 table rc p = .ok (.next rc')) :
    ProcessPasses setups p ∧ rc' = rc ∨ rc' = 0 := by
  cases hp : p.path with
  | none => simp [verifyProcess, findHashtable, hp, deref] at h
  | some path =>
    cases hr : registeredProcinfo setups path with
    | some r =>
      rw [verifyProcess_of_procinfo hrep hp hr] at h
      obtain ⟨vc, hvc, hret⟩ := bind_eq_ok.1 h
      by_cases hneg : vc < 0
      · rw [if_pos hneg] at hret
        cases hret
        exact .inr rfl
      · rw [if_neg hneg] at hret
        cases hret
        exact .inl ⟨⟨path, r, hp, hr, picaVerifyDigest_nonneg_iff.1 ⟨vc, hvc, hneg⟩⟩, rfl⟩
    | none =>
      rw [verifyProcess, hp, findHashtable_eq hrep] at h
      rcases hfirst : firstRegistered (registrations setups) .confProcinfo path with _ | r | s
      · rw [hfirst] at h
        cases h
        exact .inr rfl
      · simp [registeredProcinfo, hfirst] at hr
      · rw [hfirst] at h
        cases h
        exact .inr rfl

theorem verifyProcess_of_passes {rc : Nat} {p : Procinfo}
    (hrep : Represents murmurHash3 table (registrations setups)) (h : ProcessPasses setups p) :
    verifyProcess murmurHash3 table rc p = .ok (.next rc) := by
  obtain ⟨path, r, hp, hr, hpass⟩ := h
  obtain ⟨vc, hvc, hnonneg⟩ := picaVerifyDigest_nonneg_iff.2 hpass
  rw [verifyProcess_of_procinfo hrep hp hr, hvc, ok_bind, if_neg hnonneg]

/-- Every process of the measured chain passes. -/
def ChainPasses (setups : List Setup) (pinfo : List Procinfo) (ent : Int) : Prop :=
  ∀ i < ent.toNat, ∃ p, pinfo[i]? = some p ∧ ProcessPasses setups p

theorem picaVerifyBinaries_accepts_iff {pinfo : List Procinfo} {ent : Int}
    (hrep : Represents murmurHash3 table (registrations setups)) :
    picaVerifyBinaries murmurHash3 table (some pinfo) ent = .ok VerifyFlag.picaBinaries ↔
      ChainPasses setups pinfo ent := by
  unfold picaVerifyBinaries
  simp only
  rw [bind_eq_ok]
  constructor
  · intro ⟨turn, hloop, hret⟩
    cases turn with
    | exit e => exact e.elim
    | next rc =>
      obtain rfl : rc = VerifyFlag.picaBinaries := by simpa using hret
      -- the code is cleared for good by the first process that does not pass
      have hinv := forEach_invariant
        (fun pre rc => rc = 0 ∨ ∀ i ∈ pre, ∃ p, pinfo[i]? = some p ∧ ProcessPasses setups p)
        (.inr (by simp)) ?_ hloop
      · rcases hinv with h0 | hall
        · cases h0
        · exact fun i hi => hall i (List.mem_range.2 hi)
      · intro pre i rc rc' hI hturn
        obtain ⟨p, hp, hverify⟩ := bind_eq_ok.1 hturn
        rcases verifyProcess_cases hrep hverify with ⟨hpass, rfl⟩ | rfl
        · rcases hI with rfl | hall
          · exact .inl rfl
          · right
            intro k hk
            rcases List.mem_append.1 hk with hk | hk
            · exact hall k hk
            · rw [List.mem_singleton.1 hk]
              exact ⟨p, readAt_eq_ok.1 hp, hpass⟩
        · exact .inl rfl
  · intro hall
    have hsteady : ∀ i ∈ List.range ent.toNat,
        (readAt pinfo i >>= verifyProcess murmurHash3 table VerifyFlag.picaBinaries) =
          .ok (.next VerifyFlag.picaBinaries) := by
      intro i hi
      obtain ⟨p, hp, hpass⟩ := hall i (List.mem_range.1 hi)
      rw [readAt_eq_ok.2 hp, ok_bind]
      exact verifyProcess_of_passes hrep hpass
    exact ⟨.next VerifyFlag.picaBinaries, forEach_of_steady hsteady, rfl⟩

/-! ### Soundness -/

/-- The library occurs among the registered ones, with the same path and the same digest. -/
def LibraryRegistered (regLibs : List Fdigest) (cnt : Nat) (freshDig : Fdigest) : Prop :=
  ∃ j < cnt, SameLibrary regLibs freshDig j

/-- The process and all its libraries are registered with the digests measured. -/
def ProcessRegistered (setups : List Setup) (p : Procinfo) : Prop :=
  ∃ path r, p.path = some path ∧ registeredProcinfo setups path = some r ∧ r.path = some path ∧
    r.digest = p.digest ∧
    ∀ i < p.count.toNat, ∃ lib, p.libs[i]? = some lib ∧ LibraryRegistered r.libs r.count.toNat lib

/-- Whenever the measured chain is accepted, its processes and their libraries are registered. -/
def BinariesSound (murmurHash3 : Bytes → UInt32) (setups : List Setup) (pinfo : List Procinfo) (ent : Int) : Prop :=
  ∀ table, runSetup murmurHash3 setups = .ok table →
    picaVerifyBinaries murmurHash3 table (some pinfo) ent = .ok VerifyFlag.picaBinaries →
    ∀ i < ent.toNat, ∃ p, pinfo[i]? = some p ∧ ProcessRegistered setups p

/-- A measured process has a library whose name its registered entry does not list. -/
def UnnamedLibrary (setups : List Setup) (p : Procinfo) : Prop :=
  ∃ path r lib, p.path = some path ∧ registeredProcinfo setups path = some r ∧
    ∃ i < p.count.toNat, p.libs[i]? = some lib ∧ LibraryUnnamed r.libs r.count.toNat lib

theorem LibraryUnnamed.not_registered (h : LibraryUnnamed regLibs cnt freshDig) :
    ¬ LibraryRegistered regLibs cnt freshDig := by
  intro hregistered
  obtain ⟨j, hj, regDig, s, hreg, hs, ht, -⟩ := hregistered
  obtain ⟨regDig', s', t', hreg', hs', ht', hne⟩ := h j hj
  rw [hreg] at hreg'
  cases hreg'
  rw [hs] at hs'
  cases hs'
  rw [ht] at ht'
  cases ht'
  exact hne rfl

theorem FirstNamedSame.registered (h : FirstNamedSame regLibs cnt freshDig) :
    LibraryRegistered regLibs cnt freshDig := by
  obtain ⟨j, hj, hsame, -⟩ := h
  exact ⟨j, hj, hsame⟩

/-- A process that passes is registered as measured unless one of its libraries is not named. -/
theorem ProcessPasses.registered_iff {p : Procinfo} (h : ProcessPasses setups p) :
    ProcessRegistered setups p ↔ ¬ UnnamedLibrary setups p := by
  obtain ⟨path, r, hp, hr, hpass⟩ := h
  constructor
  · intro ⟨path', r', hp', hr', _, _, hlibs⟩ ⟨path'', r'', lib, hp'', hr'', i, hi, hlib, hunnamed⟩
    rw [hp''] at hp'
    cases hp'
    rw [hr''] at hr'
    cases hr'
    obtain ⟨lib', hlib', hregistered⟩ := hlibs i hi
    rw [hlib] at hlib'
    cases hlib'
    exact hunnamed.not_registered hregistered
  · intro hnone
    refine ⟨path, r, hp, hr, registeredProcinfo_path hr, hpass.digest_eq, ?_⟩
    intro i hi
    obtain ⟨lib, hlib, hlibrary⟩ := hpass.libs i hi
    rcases hlibrary with hfound | hunnamed
    · rw [hpass.count_eq]
      exact ⟨lib, hlib, hfound.registered⟩
    · rw [← hpass.count_eq] at hunnamed
      exact absurd ⟨path, r, lib, hp, hr, i, hi, hlib, hunnamed⟩ hnone

/-- Accepted chains are registered as measured exactly when no process of a chain that passes has a library its
entry does not name. -/
theorem picaVerifyBinaries_sound_iff (murmurHash3 : Bytes → UInt32) (setups : List Setup) (pinfo : List Procinfo)
    (ent : Int) :
    BinariesSound murmurHash3 setups pinfo ent ↔
      (HavePaths setups → ChainPasses setups pinfo ent →
        ∀ i < ent.toNat, ∀ p, pinfo[i]? = some p → ¬ UnnamedLibrary setups p) := by
  rw [← runSetup_defined_iff murmurHash3]
  constructor
  · intro hsound ⟨table, htable⟩ hpass i hi p hp
    have haccepted := (picaVerifyBinaries_accepts_iff (runSetup_represents htable)).2 hpass
    obtain ⟨q, hq, hregistered⟩ := hsound table htable haccepted i hi
    obtain ⟨q', hq', hqpass⟩ := hpass i hi
    rw [hp] at hq hq'
    cases hq
    cases hq'
    exact hqpass.registered_iff.1 hregistered
  · intro h table htable haccepted i hi
    have hpass := (picaVerifyBinaries_accepts_iff (runSetup_represents htable)).1 haccepted
    obtain ⟨p, hp, hppass⟩ := hpass i hi
    exact ⟨p, hp, hppass.registered_iff.2 (h ⟨table, htable⟩ hpass i hi p hp)⟩

def processWithLibrary (library : CString) : Procinfo :=
  { processAt (cstr "/usr/bin/bash") with count := 1, libs := [⟨some library, ByteBuf.zero 32⟩] }

def registeredBash : List Setup := [.readConfig [processWithLibrary (cstr "/usr/lib/libc.so.6")]]

/-- The process with another library in place of the registered one passes: no place of the registration names
that library. -/
theorem injected_passes : ProcessPasses registeredBash (processWithLibrary (cstr "/tmp/inject.so")) := by
  refine ⟨cstr "/usr/bin/bash", processWithLibrary (cstr "/usr/lib/libc.so.6"), rfl, by decide, rfl, rfl, ?_⟩
  intro i hi
  obtain rfl : i = 0 := Nat.lt_one_iff.1 hi
  refine ⟨_, rfl, .inr ?_⟩
  intro j hj
  obtain rfl : j = 0 := Nat.lt_one_iff.1 hj
  exact ⟨_, _, _, rfl, rfl, rfl, by decide⟩

theorem injected_unnamed : UnnamedLibrary registeredBash (processWithLibrary (cstr "/tmp/inject.so")) := by
  refine ⟨cstr "/usr/bin/bash", processWithLibrary (cstr "/usr/lib/libc.so.6"), ⟨some (cstr "/tmp/inject.so"), _⟩,
    rfl, by decide, 0, by decide, rfl, ?_⟩
  intro j hj
  obtain rfl : j = 0 := Nat.lt_one_iff.1 hj
  exact ⟨_, _, _, rfl, rfl, rfl, by decide⟩

/-- Whatever the hash function: a measured chain with a library that is not registered is accepted. -/
theorem picaVerifyBinaries_accepts_unregistered :
    ¬ ∃ murmurHash3, BinariesSound murmurHash3 registeredBash [processWithLibrary (cstr "/tmp/inject.so")] 1 := by
  intro ⟨murmurHash3, hsound⟩
  have hpaths : HavePaths registeredBash := by
    simp [HavePaths, registeredBash, setupRegistrations, confRegistrations, processWithLibrary, processAt]
  obtain ⟨table, htable⟩ := (runSetup_defined_iff murmurHash3).2 hpaths
  have hchain : ChainPasses registeredBash [processWithLibrary (cstr "/tmp/inject.so")] 1 := by
    intro i hi
    obtain rfl : i = 0 := Nat.lt_one_iff.1 hi
    exact ⟨_, rfl, injected_passes⟩
  have haccepted := (picaVerifyBinaries_accepts_iff (runSetup_represents htable)).2 hchain
  obtain ⟨p, hp, hregistered⟩ := hsound table htable haccepted 0 (by decide)
  cases hp
  exact injected_passes.registered_iff.1 hregistered injected_unnamed

end PortableTlsRa
