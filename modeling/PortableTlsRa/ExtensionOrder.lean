import PortableTlsRa.CertAdmission
import Mathlib.Data.List.Nodup

/-!
# The order of the extensions

`X509_get_ext_by_OBJ` returns 0 for the first extension, which `verify_contents` takes for one that is not there.
`verifyContents_order_iff` says when two orders of the extensions have one verdict, and when tagged evidence is what
the certificate is judged by.
-/

namespace PortableTlsRa

open CSem

/-! ### What the order should not change -/

/-- `rc & (VERIFIED_QUOTE|VERIFIED_EVIDENCE)` -/
def verdictBits (rc : Int) : BitVec 32 :=
  BitVec.ofInt 32 rc &&& BitVec.ofNat 32 (VerifiedFlag.quote ||| VerifiedFlag.evidence)

def contentsVerdict (env : CertEnv) (cert : PeerCert) (nonce : ByteBuf 32) : Checked (BitVec 32) := do
  let result ← verifyContents env cert nonce
  return verdictBits result.1

def PeerCert.reorder (cert : PeerCert) (extensions : List (Oid × Bytes)) : PeerCert := ⟨cert.pubkey, extensions⟩

/-- Where the table is searched and the identifier is made, tagged evidence is what is verified. -/
def JudgedByEvidence (env : CertEnv) (cert : PeerCert) (nonce : ByteBuf 32) : Prop :=
  ∀ pubkey oct, TableSearched env.calls cert pubkey → env.calls.txt2obj tcgDiceTaggedOid = true →
    (tcgDiceTaggedOid, oct) ∈ cert.extensions →
    verifyContents env cert nonce = verifySgxEvidence env.verifyEnv oct pubkey nonce env.stack >>= fun verdict =>
      .ok ((verdict : Int), some ⟨oct, pubkey, nonce, verdict⟩)

/-- The two orders have one verdict, and in both it is that on tagged evidence if there is any. -/
structure OrderImmaterial (env : CertEnv) (cert : PeerCert) (extensions : List (Oid × Bytes)) (nonce : ByteBuf 32) :
    Prop where
  same : contentsVerdict env cert nonce = contentsVerdict env (cert.reorder extensions) nonce
  judged : JudgedByEvidence env cert nonce
  judged_reordered : JudgedByEvidence env (cert.reorder extensions) nonce

/-- The first extension has the identifier. -/
def StandsFirst (extensions : List (Oid × Bytes)) (oid : Oid) : Prop := extensions.head?.map Prod.fst = some oid

instance (extensions : List (Oid × Bytes)) (oid : Oid) : Decidable (StandsFirst extensions oid) :=
  inferInstanceAs (Decidable (_ = _))

/-- Tagged evidence stands first in neither order.  Without it the old extension stands first in both or in none, or
the number of bytes of the key has the bits of its verdict. -/
structure NoneOverlooked (calls : ContentsCalls) (cert : PeerCert) (extensions : List (Oid × Bytes))
    (pubkey : Bytes) : Prop where
  evidence : calls.txt2obj tcgDiceTaggedOid = true →
    ¬ StandsFirst cert.extensions tcgDiceTaggedOid ∧ ¬ StandsFirst extensions tcgDiceTaggedOid
  quote : (calls.txt2obj tcgDiceTaggedOid = true → ∀ oct, (tcgDiceTaggedOid, oct) ∉ cert.extensions) →
    calls.txt2obj x509OidForQuote = true →
    (StandsFirst cert.extensions x509OidForQuote ↔ StandsFirst extensions x509OidForQuote) ∨
      verdictBits (bioRead pubkey) = verdictBits VerifiedFlag.quote

/-! ### The search where identifiers are distinct -/

variable {env : CertEnv} {cert : PeerCert} {extensions : List (Oid × Bytes)} {pubkey : Bytes} {nonce : ByteBuf 32}
  {calls : ContentsCalls} {oid : Oid} {oct : Bytes}

theorem StandsFirst.exists_mem (h : StandsFirst extensions oid) : ∃ oct, (oid, oct) ∈ extensions := by
  cases extensions with
  | nil => cases h
  | cons ext exts =>
    obtain ⟨oid', oct⟩ := ext
    cases h
    exact ⟨oct, List.mem_cons_self⟩

/-- Where no identifier occurs twice, an extension is found if it is there and not the first. -/
theorem extensionFound_iff_mem (hnodup : (cert.extensions.map Prod.fst).Nodup) :
    ExtensionFound calls cert oid oct ↔
      calls.txt2obj oid = true ∧ (oid, oct) ∈ cert.extensions ∧ ¬ StandsFirst cert.extensions oid := by
  constructor
  · intro h
    have hmem := h.mem
    obtain ⟨htxt, loc, hpos, -, hbefore⟩ := h
    refine ⟨htxt, hmem, ?_⟩
    intro hfirst
    obtain ⟨ext, hext, rfl⟩ := Option.map_eq_some_iff.1 hfirst
    rw [List.head?_eq_getElem?] at hext
    exact hbefore 0 hpos ext hext rfl
  · intro ⟨htxt, hmem, hfirst⟩
    obtain ⟨loc, hlt, hget⟩ := List.mem_iff_getElem.1 hmem
    have hoid : cert.extensions[loc].1 = oid := by rw [hget]
    refine ⟨htxt, loc, ?_, by rw [List.getElem?_eq_getElem hlt, hget], ?_⟩
    · by_contra hzero
      obtain rfl : loc = 0 := by omega
      apply hfirst
      rw [StandsFirst, List.head?_eq_getElem?, List.getElem?_eq_getElem hlt, Option.map_some, hoid]
    · intro j hj ext hext hsame
      obtain ⟨hjlt, rfl⟩ := List.getElem?_eq_some_iff.1 hext
      have hjoids : j < (cert.extensions.map Prod.fst).length := by rwa [List.length_map]
      have hoids : loc < (cert.extensions.map Prod.fst).length := by rwa [List.length_map]
      have hinj : (cert.extensions.map Prod.fst)[j] = (cert.extensions.map Prod.fst)[loc] ↔ j = loc :=
        hnodup.getElem_inj_iff
      rw [List.getElem_map, List.getElem_map, hsame, hoid, eq_self_iff_true, true_iff] at hinj
      omega

theorem not_found_of_first (hnodup : (cert.extensions.map Prod.fst).Nodup) (h : StandsFirst cert.extensions oid) :
    ∀ oct, ¬ ExtensionFound calls cert oid oct := by
  intro oct hfound
  exact ((extensionFound_iff_mem hnodup).1 hfound).2.2 h

/-! ### The verdict -/

theorem TableSearched.reorder (h : TableSearched calls cert pubkey) :
    TableSearched calls (cert.reorder extensions) pubkey := ⟨h.pubkey, h.bioNew, h.pemWrite, h.mallocPub⟩

theorem TableSearched.of_reorder (h : TableSearched calls (cert.reorder extensions) pubkey) :
    TableSearched calls cert pubkey := ⟨h.pubkey, h.bioNew, h.pemWrite, h.mallocPub⟩

/-- Before the table is searched the extensions are not looked at. -/
theorem verifyContents_reorder_of_not_searched (h : ∀ pubkey, ¬ TableSearched env.calls cert pubkey) :
    verifyContents env (cert.reorder extensions) nonce = verifyContents env cert nonce := by
  unfold verifyContents PeerCert.reorder
  cases hpubkey : cert.pubkey with
  | none => rfl
  | some pubkey =>
    by_cases hbio : env.calls.bioNew = true
    · by_cases hwrite : env.calls.pemWrite = 1
      · by_cases hmalloc : env.calls.mallocPub = true
        · exact absurd ⟨hpubkey, hbio, hwrite, hmalloc⟩ (h pubkey)
        · simp [hbio, hwrite, hmalloc]
      · simp [hbio, hwrite]
    · simp [hbio]

/-- Without tagged evidence that is found the evidence verifier is not called. -/
theorem verifyContents_of_not_evidence (h : TableSearched env.calls cert pubkey)
    (hnot : ∀ oct, ¬ ExtensionFound env.calls cert tcgDiceTaggedOid oct) :
    ∃ rc, verifyContents env cert nonce = .ok (rc, none) := by
  by_cases hquote : ∃ oct, ExtensionFound env.calls cert x509OidForQuote oct
  · obtain ⟨oct, hquote⟩ := hquote
    exact ⟨_, verifyContents_of_quote h hnot hquote⟩
  · exact ⟨_, verifyContents_of_neither h hnot (not_exists.1 hquote)⟩

/-- A certificate is judged by its tagged evidence exactly where that does not stand first. -/
theorem judgedByEvidence_iff (hnodup : (cert.extensions.map Prod.fst).Nodup) :
    JudgedByEvidence env cert nonce ↔ ∀ pubkey, TableSearched env.calls cert pubkey →
      env.calls.txt2obj tcgDiceTaggedOid = true → ¬ StandsFirst cert.extensions tcgDiceTaggedOid := by
  constructor
  · intro hjudged pubkey hsearched htxt hfirst
    obtain ⟨oct, hmem⟩ := hfirst.exists_mem
    obtain ⟨rc, hcontents⟩ : ∃ rc, verifyContents env cert nonce = .ok (rc, none) :=
      verifyContents_of_not_evidence hsearched (not_found_of_first hnodup hfirst)
    have hresult := hjudged pubkey oct hsearched htxt hmem
    rw [hcontents] at hresult
    obtain ⟨verdict, -, hret⟩ := bind_eq_ok.1 hresult.symm
    cases hret
  · intro hnotFirst pubkey oct hsearched htxt hmem
    exact verifyContents_of_evidence hsearched
      ((extensionFound_iff_mem hnodup).2 ⟨htxt, hmem, hnotFirst pubkey hsearched htxt⟩)

theorem contentsVerdict_of_neither (h : TableSearched env.calls cert pubkey)
    (hnot : ∀ oct, ¬ ExtensionFound env.calls cert tcgDiceTaggedOid oct)
    (hnot' : ∀ oct, ¬ ExtensionFound env.calls cert x509OidForQuote oct) :
    contentsVerdict env cert nonce = .ok (verdictBits (bioRead pubkey)) := by
  rw [contentsVerdict, verifyContents_of_neither h hnot hnot']
  rfl

/-- Without tagged evidence the old extension decides, unless it stands first. -/
theorem contentsVerdict_of_old (h : TableSearched env.calls cert pubkey)
    (hnodup : (cert.extensions.map Prod.fst).Nodup)
    (hnot : ∀ oct, ¬ ExtensionFound env.calls cert tcgDiceTaggedOid oct)
    (htxt : env.calls.txt2obj x509OidForQuote = true) (hmem : (x509OidForQuote, oct) ∈ cert.extensions) :
    contentsVerdict env cert nonce =
      .ok (verdictBits (if StandsFirst cert.extensions x509OidForQuote then bioRead pubkey
        else VerifiedFlag.quote)) := by
  by_cases hfirst : StandsFirst cert.extensions x509OidForQuote
  · rw [if_pos hfirst, contentsVerdict_of_neither h hnot (not_found_of_first hnodup hfirst)]
  · have hfound : ExtensionFound env.calls cert x509OidForQuote oct :=
      (extensionFound_iff_mem hnodup).2 ⟨htxt, hmem, hfirst⟩
    rw [if_neg hfirst, contentsVerdict, verifyContents_of_quote h hnot hfound]
    rfl

/-- Without tagged evidence the verdict is the same exactly where the old extension stands first in both orders or in
none, or the number of bytes of the key has the bits of `VERIFIED_QUOTE`. -/
theorem contentsVerdict_reorder_iff (hperm : extensions.Perm cert.extensions)
    (hnodup : (cert.extensions.map Prod.fst).Nodup) (h : TableSearched env.calls cert pubkey)
    (habsent : env.calls.txt2obj tcgDiceTaggedOid = true → ∀ oct, (tcgDiceTaggedOid, oct) ∉ cert.extensions) :
    contentsVerdict env cert nonce = contentsVerdict env (cert.reorder extensions) nonce ↔
      (env.calls.txt2obj x509OidForQuote = true →
        (StandsFirst cert.extensions x509OidForQuote ↔ StandsFirst extensions x509OidForQuote) ∨
          verdictBits (bioRead pubkey) = verdictBits VerifiedFlag.quote) := by
  have h' : TableSearched env.calls (cert.reorder extensions) pubkey := h.reorder
  have hnodup' : ((cert.reorder extensions).extensions.map Prod.fst).Nodup := (hperm.map Prod.fst).nodup_iff.2 hnodup
  have hnot : ∀ oct, ¬ ExtensionFound env.calls cert tcgDiceTaggedOid oct := by
    intro oct hfound
    exact habsent hfound.1 oct hfound.mem
  have hnot' : ∀ oct, ¬ ExtensionFound env.calls (cert.reorder extensions) tcgDiceTaggedOid oct := by
    intro oct hfound
    exact habsent hfound.1 oct (hperm.mem_iff.1 hfound.mem)
  by_cases hquote : env.calls.txt2obj x509OidForQuote = true ∧ ∃ oct, (x509OidForQuote, oct) ∈ cert.extensions
  · obtain ⟨htxt, oct, hmem⟩ := hquote
    have hverdict' : contentsVerdict env (cert.reorder extensions) nonce =
        .ok (verdictBits (if StandsFirst extensions x509OidForQuote then bioRead pubkey else VerifiedFlag.quote)) :=
      contentsVerdict_of_old h' hnodup' hnot' htxt (hperm.mem_iff.2 hmem)
    rw [contentsVerdict_of_old h hnodup hnot htxt hmem, hverdict', Except.ok.injEq]
    -- where it stands first in one order only it is overlooked there and found in the other
    by_cases hfirst : StandsFirst cert.extensions x509OidForQuote
    · by_cases hfirst' : StandsFirst extensions x509OidForQuote
      · simp [hfirst, hfirst']
      · simp [hfirst, hfirst', htxt]
    · by_cases hfirst' : StandsFirst extensions x509OidForQuote
      · simp [hfirst, hfirst', htxt, eq_comm]
      · simp [hfirst, hfirst']
  · have hfirst : env.calls.txt2obj x509OidForQuote = true → ¬ StandsFirst cert.extensions x509OidForQuote := by
      intro htxt hfirst
      exact hquote ⟨htxt, hfirst.exists_mem⟩
    have hfirst' : env.calls.txt2obj x509OidForQuote = true → ¬ StandsFirst extensions x509OidForQuote := by
      intro htxt hfirst'
      obtain ⟨oct, hmem⟩ := hfirst'.exists_mem
      exact hquote ⟨htxt, oct, hperm.mem_iff.1 hmem⟩
    have hequal : contentsVerdict env cert nonce = contentsVerdict env (cert.reorder extensions) nonce := by
      rw [contentsVerdict_of_neither h hnot, contentsVerdict_of_neither h' hnot']
      · intro oct hfound
        exact hquote ⟨hfound.1, oct, hperm.mem_iff.1 hfound.mem⟩
      · intro oct hfound
        exact hquote ⟨hfound.1, oct, hfound.mem⟩
    exact ⟨fun _ htxt => .inl (iff_of_false (hfirst htxt) (hfirst' htxt)), fun _ => hequal⟩

/-- The verdict is the same in both orders, and on tagged evidence where there is any, exactly where none is
overlooked. -/
theorem verifyContents_order_iff (env : CertEnv) (cert : PeerCert) (extensions : List (Oid × Bytes))
    (nonce : ByteBuf 32) (hperm : extensions.Perm cert.extensions) (hnodup : (cert.extensions.map Prod.fst).Nodup) :
    OrderImmaterial env cert extensions nonce ↔
      ∀ pubkey, TableSearched env.calls cert pubkey → NoneOverlooked env.calls cert extensions pubkey := by
  have hnodup' : ((cert.reorder extensions).extensions.map Prod.fst).Nodup := (hperm.map Prod.fst).nodup_iff.2 hnodup
  constructor
  · intro horder pubkey hsearched
    constructor
    · intro htxt
      exact ⟨(judgedByEvidence_iff hnodup).1 horder.judged pubkey hsearched htxt,
        (judgedByEvidence_iff hnodup').1 horder.judged_reordered pubkey hsearched.reorder htxt⟩
    · intro habsent
      exact (contentsVerdict_reorder_iff hperm hnodup hsearched habsent).1 horder.same
  · intro hcond
    have hjudged : JudgedByEvidence env cert nonce :=
      (judgedByEvidence_iff hnodup).2 fun pubkey hsearched htxt => ((hcond pubkey hsearched).evidence htxt).1
    have hjudged' : JudgedByEvidence env (cert.reorder extensions) nonce :=
      (judgedByEvidence_iff hnodup').2 fun pubkey hsearched htxt =>
        ((hcond pubkey hsearched.of_reorder).evidence htxt).2
    refine ⟨?_, hjudged, hjudged'⟩
    by_cases hsearched : ∃ pubkey, TableSearched env.calls cert pubkey
    · obtain ⟨pubkey, hsearched⟩ := hsearched
      by_cases hevidence : env.calls.txt2obj tcgDiceTaggedOid = true ∧
          ∃ oct, (tcgDiceTaggedOid, oct) ∈ cert.extensions
      · obtain ⟨htxt, oct, hmem⟩ := hevidence
        rw [contentsVerdict, contentsVerdict, hjudged pubkey oct hsearched htxt hmem,
          hjudged' pubkey oct hsearched.reorder htxt (hperm.mem_iff.2 hmem)]
      · have habsent : env.calls.txt2obj tcgDiceTaggedOid = true →
            ∀ oct, (tcgDiceTaggedOid, oct) ∉ cert.extensions := by
          intro htxt oct hmem
          exact hevidence ⟨htxt, oct, hmem⟩
        exact (contentsVerdict_reorder_iff hperm hnodup hsearched habsent).2
          ((hcond pubkey hsearched).quote habsent)
    · rw [contentsVerdict, contentsVerdict, verifyContents_reorder_of_not_searched (not_exists.1 hsearched)]

/-! ### Evidence that stands first -/

/-- A server on which all calls of `verify_contents` succeed. -/
def searchingServer : CertEnv := { refusingServer with x509VerifyCert := 1 }

def subjectKeyIdentifier : Oid × Bytes := ([2, 5, 29, 14], [4, 0])

/-- Behind a key identifier the two extensions may stand in either order. -/
theorem searchingServer_order_immaterial :
    OrderImmaterial searchingServer
      ⟨some shortKey.text, [subjectKeyIdentifier, (tcgDiceTaggedOid, []), (x509OidForQuote, [])]⟩
      [subjectKeyIdentifier, (x509OidForQuote, []), (tcgDiceTaggedOid, [])] (ByteBuf.zero 32) := by
  apply (verifyContents_order_iff _ _ _ _ ((List.Perm.swap _ _ []).cons _) (by decide)).2
  intro pubkey _
  refine ⟨fun _ => ⟨by decide, by decide⟩, ?_⟩
  intro habsent
  exact absurd (List.mem_cons_of_mem _ List.mem_cons_self) (habsent rfl [])

/-- Evidence that would be refused is overlooked when it stands first, and the old extension behind it is accepted. -/
theorem searchingServer_order_decides :
    let extensions : List (Oid × Bytes) := [(x509OidForQuote, []), (tcgDiceTaggedOid, [])]
    let cert : PeerCert := ⟨some shortKey.text, [(tcgDiceTaggedOid, []), (x509OidForQuote, [])]⟩
    extensions.Perm cert.extensions ∧ (cert.extensions.map Prod.fst).Nodup ∧
      ¬ OrderImmaterial searchingServer cert extensions (ByteBuf.zero 32) := by
  refine ⟨List.Perm.swap _ _ [], by decide, ?_⟩
  intro horder
  have hquote : contentsVerdict searchingServer
      ⟨some shortKey.text, [(tcgDiceTaggedOid, []), (x509OidForQuote, [])]⟩ (ByteBuf.zero 32) = .ok 1 := rfl
  have hevidence : contentsVerdict searchingServer
      ⟨some shortKey.text, [(x509OidForQuote, []), (tcgDiceTaggedOid, [])]⟩ (ByteBuf.zero 32) = .ok 0 := rfl
  have hsame := horder.same
  rw [hquote] at hsame
  exact absurd (hsame.trans hevidence) (by decide)

end PortableTlsRa
