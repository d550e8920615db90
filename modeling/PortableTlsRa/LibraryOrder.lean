import PortableTlsRa.Binaries
import Mathlib.Data.List.Nodup

/-!
# The order of the libraries

A process has its libraries in another order in every run, so that `pica_verify_digest` looks every measured library
up among the registered ones.  Where no path stands twice in either list, the result is -1 exactly when a measured
library differs from the registered one of its name (`picaVerifyDigest_result`), and that has nothing to do with the
order (`picaVerifyDigest_order`).
-/

namespace PortableTlsRa

open CSem

/-- The entry with other libraries. -/
def Procinfo.withLibs (p : Procinfo) (libs : List Fdigest) : Procinfo := { p with libs := libs }

/-- The libraries are as many as the count says, and no path stands twice. -/
structure Procinfo.LibrariesDistinct (p : Procinfo) : Prop where
  count : p.count.toNat = p.libs.length
  distinct : (p.libs.map (·.path)).Nodup

/-- Every library has a path. -/
def Procinfo.LibrariesNamed (p : Procinfo) : Prop := ∀ lib ∈ p.libs, lib.path.isSome

/-- A measured library has another digest than a registered one of its name. -/
def LibraryDiffers (regLibs freshLibs : List Fdigest) : Prop :=
  ∃ freshDig ∈ freshLibs, ∃ regDig ∈ regLibs, ∃ path, freshDig.path = some path ∧ regDig.path = some path ∧
    freshDig.digest ≠ regDig.digest

/-- What `pica_verify_digest` refuses. -/
def DigestRefused (reg fresh : Procinfo) : Prop :=
  reg.count ≠ fresh.count ∨ reg.digest ≠ fresh.digest ∨ LibraryDiffers reg.libs fresh.libs

variable {regLibs freshLibs : List Fdigest} {freshDig : Fdigest} {reg fresh : Procinfo}

theorem LibraryDiffers.perm {regLibs' freshLibs' : List Fdigest} (hreg : regLibs.Perm regLibs')
    (hfresh : freshLibs.Perm freshLibs') : LibraryDiffers regLibs' freshLibs' ↔ LibraryDiffers regLibs freshLibs := by
  simp only [LibraryDiffers, hreg.mem_iff, hfresh.mem_iff]

theorem Procinfo.LibrariesDistinct.perm (h : reg.LibrariesDistinct) (hperm : reg.libs.Perm regLibs) :
    (reg.withLibs regLibs).LibrariesDistinct where
  count := h.count.trans hperm.length_eq
  distinct := (hperm.map (·.path)).nodup_iff.1 h.distinct

theorem Procinfo.LibrariesNamed.perm (h : reg.LibrariesNamed) (hperm : reg.libs.Perm regLibs) :
    (reg.withLibs regLibs).LibrariesNamed := by
  intro lib hlib
  exact h lib (hperm.mem_iff.2 hlib)

/-! ### One measured library -/

theorem compareLibrary_exit_false {j : Nat} (h : compareLibrary freshDig regLibs j = .ok (.exit false)) :
    ∃ regDig ∈ regLibs, ∃ path, freshDig.path = some path ∧ regDig.path = some path ∧
      freshDig.digest ≠ regDig.digest := by
  simp only [compareLibrary, bind_eq_ok, readAt_eq_ok, strcmpEq_eq_ok, pure_eq_ok] at h
  obtain ⟨regDig, hreg, same, ⟨s, t, hs, ht, hsame⟩, hret⟩ := h
  by_cases hst : s = t
  · subst hst
    rw [decide_eq_true rfl] at hsame
    subst hsame
    have hne : freshDig.digest ≠ regDig.digest := by simpa using hret
    exact ⟨regDig, List.mem_of_getElem? hreg, s, hs, ht, hne⟩
  · rw [decide_eq_false hst] at hsame
    subst hsame
    cases hret

/-- The search among all registered libraries is left with `goto bad` at one of the name with another digest. -/
theorem verifyLibrary_exit {cnt : Nat} (h : verifyLibrary regLibs cnt freshDig = .ok (.exit ())) :
    ∃ regDig ∈ regLibs, ∃ path, freshDig.path = some path ∧ regDig.path = some path ∧
      freshDig.digest ≠ regDig.digest := by
  obtain ⟨turn, hturn, hret⟩ := bind_eq_ok.1 h
  cases turn with
  | next u => cases hret
  | exit found =>
    cases found with
    | true => cases hret
    | false =>
      obtain ⟨j, -, hexit, -⟩ := scan_range_exit_iff.1 hturn
      exact compareLibrary_exit_false hexit

/-- Among distinct paths the search goes on only where the library does not differ. -/
theorem verifyLibrary_next (hdistinct : (regLibs.map (·.path)).Nodup)
    (h : verifyLibrary regLibs regLibs.length freshDig = .ok (.next ())) {regDig : Fdigest} {path : CString}
    (hmem : regDig ∈ regLibs) (hfresh : freshDig.path = some path) (hreg : regDig.path = some path) :
    freshDig.digest = regDig.digest := by
  rcases verifyLibrary_next_iff.1 h with ⟨j, -, ⟨found, s, hfound, hs, ht, hdigest⟩, -⟩ | hunnamed
  · have hpath : found.path = regDig.path := by
      rw [hfresh] at hs
      cases hs
      rw [ht, hreg]
    have hsame : found = regDig :=
      List.inj_on_of_nodup_map hdistinct (List.mem_of_getElem? hfound) hmem hpath
    rw [hdigest, hsame]
  · obtain ⟨j, hj⟩ := List.getElem?_of_mem hmem
    have hlt : j < regLibs.length := (List.getElem?_eq_some_iff.1 hj).1
    obtain ⟨other, s, t, hother, hs, ht, hne⟩ := hunnamed j hlt
    rw [hj] at hother
    cases hother
    rw [hfresh] at hs
    rw [hreg] at ht
    cases hs
    cases ht
    exact absurd rfl hne

/-- The search reaches no fault where all libraries have a path. -/
theorem verifyLibrary_defined (hnamed : ∀ lib ∈ regLibs, lib.path.isSome) (hfresh : freshDig.path.isSome) :
    ∃ turn, verifyLibrary regLibs regLibs.length freshDig = .ok turn := by
  obtain ⟨s, hs⟩ := Option.isSome_iff_exists.1 hfresh
  unfold verifyLibrary
  rcases hloop : forEach (fun _ j => compareLibrary freshDig regLibs j) () (List.range regLibs.length) with
    e | ⟨u | found⟩
  · obtain ⟨j, hj, u, herror⟩ := forEach_error hloop
    have hlt : j < regLibs.length := List.mem_range.1 hj
    obtain ⟨t, ht⟩ := Option.isSome_iff_exists.1 (hnamed _ (List.getElem_mem hlt))
    have hread : readAt regLibs j = .ok regLibs[j] := readAt_eq_ok.2 (List.getElem?_eq_getElem hlt)
    rw [compareLibrary, hread, ok_bind, hs, ht] at herror
    by_cases hst : s = t <;> simp [strcmpEq, deref, hst] at herror
  · exact ⟨_, rfl⟩
  · cases found <;> exact ⟨_, rfl⟩

/-! ### All measured libraries -/

/-- The loop over the measured libraries, where the counts are those of the lists. -/
theorem picaVerifyDigest_eq (hreg : reg.LibrariesDistinct) (hfresh : fresh.LibrariesDistinct)
    (hcount : reg.count = fresh.count) (hdigest : reg.digest = fresh.digest) :
    picaVerifyDigest reg fresh =
      (forEach (fun _ => verifyLibrary reg.libs reg.libs.length) () fresh.libs >>= fun turn =>
        match turn with
        | .exit () => .ok (-1)
        | .next () => .ok 0) := by
  have hlen : fresh.count.toNat = reg.libs.length := by rw [← hcount, hreg.count]
  have hloop : forEach (fun _ i => readAt fresh.libs i >>= verifyLibrary reg.libs reg.libs.length) ()
      (List.range fresh.libs.length) = forEach (fun _ => verifyLibrary reg.libs reg.libs.length) () fresh.libs :=
    forEach_range_readAt
  rw [← hfresh.count, hlen] at hloop
  rw [picaVerifyDigest, if_neg (not_not.2 hcount), if_neg (not_not.2 hdigest), hlen]
  dsimp only
  rw [hloop]
  rfl

/-- A result is -1 exactly when the count, the digest or a library of the name differs, and 0 otherwise. -/
theorem picaVerifyDigest_result (hreg : reg.LibrariesDistinct) (hfresh : fresh.LibrariesDistinct) {vc : Int}
    (h : picaVerifyDigest reg fresh = .ok vc) :
    DigestRefused reg fresh ∧ vc = -1 ∨ ¬ DigestRefused reg fresh ∧ vc = 0 := by
  by_cases hcount : reg.count = fresh.count
  · by_cases hdigest : reg.digest = fresh.digest
    · rw [picaVerifyDigest_eq hreg hfresh hcount hdigest] at h
      obtain ⟨turn, hturn, hret⟩ := bind_eq_ok.1 h
      cases turn with
      | exit u =>
        cases hret
        obtain ⟨pre, lib, post, t, hlibs, -, hexit⟩ := forEach_exit_iff.1 hturn
        have hmem : lib ∈ fresh.libs := by
          rw [hlibs]
          simp
        exact .inl ⟨.inr (.inr ⟨lib, hmem, verifyLibrary_exit hexit⟩), rfl⟩
      | next u =>
        cases hret
        refine .inr ⟨?_, rfl⟩
        rintro (hne | hne | ⟨lib, hlib, regDig, hmem, path, hpath, hregPath, hne⟩)
        · exact hne hcount
        · exact hne hdigest
        · exact hne (verifyLibrary_next hreg.distinct (scan_next_iff.1 hturn lib hlib) hmem hpath hregPath)
    · rw [picaVerifyDigest, if_neg (not_not.2 hcount), if_pos hdigest] at h
      cases h
      exact .inl ⟨.inr (.inl hdigest), rfl⟩
  · rw [picaVerifyDigest, if_pos hcount] at h
    cases h
    exact .inl ⟨.inl hcount, rfl⟩

theorem picaVerifyDigest_defined (hreg : reg.LibrariesDistinct) (hfresh : fresh.LibrariesDistinct)
    (hregNamed : reg.LibrariesNamed) (hfreshNamed : fresh.LibrariesNamed) :
    ∃ vc, picaVerifyDigest reg fresh = .ok vc := by
  by_cases hcount : reg.count = fresh.count
  · by_cases hdigest : reg.digest = fresh.digest
    · rw [picaVerifyDigest_eq hreg hfresh hcount hdigest]
      rcases hloop : forEach (fun _ => verifyLibrary reg.libs reg.libs.length) () fresh.libs with e | ⟨u | u⟩
      · obtain ⟨lib, hlib, t, herror⟩ := forEach_error hloop
        obtain ⟨turn, hturn⟩ := verifyLibrary_defined hregNamed (hfreshNamed lib hlib)
        rw [hturn] at herror
        cases herror
      · exact ⟨0, rfl⟩
      · exact ⟨-1, rfl⟩
    · exact ⟨-1, by rw [picaVerifyDigest, if_neg (not_not.2 hcount), if_pos hdigest]; rfl⟩
  · exact ⟨-1, by rw [picaVerifyDigest, if_pos hcount]; rfl⟩

/-! ### Another order -/

/-- Whatever order the libraries of both entries are in, the result is the same one; a library without a path may
only keep `strcmp` from giving one. -/
theorem picaVerifyDigest_order (hreg : reg.LibrariesDistinct) (hfresh : fresh.LibrariesDistinct)
    (hregPerm : reg.libs.Perm regLibs) (hfreshPerm : fresh.libs.Perm freshLibs) :
    (∀ vc vc', picaVerifyDigest reg fresh = .ok vc →
      picaVerifyDigest (reg.withLibs regLibs) (fresh.withLibs freshLibs) = .ok vc' → vc = vc') ∧
    (reg.LibrariesNamed → fresh.LibrariesNamed → ∃ vc, picaVerifyDigest reg fresh = .ok vc ∧
      picaVerifyDigest (reg.withLibs regLibs) (fresh.withLibs freshLibs) = .ok vc) := by
  have hrefused : DigestRefused (reg.withLibs regLibs) (fresh.withLibs freshLibs) ↔ DigestRefused reg fresh :=
    or_congr_right (or_congr_right (LibraryDiffers.perm hregPerm hfreshPerm))
  have hsame : ∀ vc vc', picaVerifyDigest reg fresh = .ok vc →
      picaVerifyDigest (reg.withLibs regLibs) (fresh.withLibs freshLibs) = .ok vc' → vc = vc' := by
    intro vc vc' h h'
    have hresult := picaVerifyDigest_result hreg hfresh h
    have hresult' := picaVerifyDigest_result (hreg.perm hregPerm) (hfresh.perm hfreshPerm) h'
    rw [hrefused] at hresult'
    rcases hresult with ⟨hyes, rfl⟩ | ⟨hno, rfl⟩
    · rcases hresult' with ⟨-, rfl⟩ | ⟨hno, -⟩
      · rfl
      · exact absurd hyes hno
    · rcases hresult' with ⟨hyes, -⟩ | ⟨-, rfl⟩
      · exact absurd hyes hno
      · rfl
  refine ⟨hsame, ?_⟩
  intro hregNamed hfreshNamed
  obtain ⟨vc, hvc⟩ := picaVerifyDigest_defined hreg hfresh hregNamed hfreshNamed
  obtain ⟨vc', hvc'⟩ := picaVerifyDigest_defined (hreg.perm hregPerm) (hfresh.perm hfreshPerm)
    (hregNamed.perm hregPerm) (hfreshNamed.perm hfreshPerm)
  rw [← hsame vc vc' hvc hvc'] at hvc'
  exact ⟨vc, hvc, hvc'⟩

/-- The editor with its two libraries. -/
def editorLibraries : Procinfo :=
  { processAt (cstr "/bin/ed") with
    count := 2
    libs := [⟨some (cstr "/lib/libc.so"), ByteBuf.zero 32⟩, ⟨some (cstr "/lib/libm.so"), ByteBuf.zero 32⟩] }

theorem picaVerifyDigest_order_editor :
    picaVerifyDigest (editorLibraries.withLibs editorLibraries.libs.reverse) editorLibraries = .ok 0 := by
  have hdistinct : editorLibraries.LibrariesDistinct := ⟨rfl, by decide⟩
  obtain ⟨hsame, hdefined⟩ := picaVerifyDigest_order hdistinct hdistinct (List.reverse_perm _).symm (List.Perm.refl _)
  have hnamed : editorLibraries.LibrariesNamed := by
    unfold Procinfo.LibrariesNamed
    decide
  obtain ⟨vc, hvc, hvc'⟩ := hdefined hnamed hnamed
  have hzero : picaVerifyDigest editorLibraries editorLibraries = .ok 0 := by decide
  rw [hzero] at hvc
  cases hvc
  exact hvc'

end PortableTlsRa
