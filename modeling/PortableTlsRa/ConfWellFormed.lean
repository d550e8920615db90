import PortableTlsRa.ConfFile

/-!
# What the configuration decoder accepts

`build_conf` compares the sum of the section sizes with the size of the buffer, modulo 2^64, and nothing else: it reads
the header of a buffer that has none, does not look at the magic, and turns every position into a pointer.  It decides
as it should exactly where the sizes do not sum up, or the file is well formed and has entries
(`buildConf_acceptsWellFormed_iff`).  A well-formed file is a configuration (`WellFormedConf.configuration`).
-/

namespace PortableTlsRa

open CSem

/-! ### Well-formed files -/

/-- The positions of the sections: every path ends inside the string area, and the libraries of every entry lie
inside the table of library digests. -/
structure Conf.InBounds (c : Conf) : Prop where
  paths : ∀ r ∈ c.procinfo, ∃ path, StringStored c.strings r.spos.toNat path
  libPaths : ∀ fd ∈ c.fdigest, ∃ path, StringStored c.strings fd.spos.toNat path
  counts : ∀ r ∈ c.procinfo, 0 ≤ r.count.toInt
  libs : ∀ r ∈ c.procinfo, 0 < r.count.toInt → r.fpos.toNat + r.count.toInt.toNat ≤ c.fdigest.length

/-- The bytes are a header with the magic and the true sizes of three sections whose positions are in bounds. -/
def WellFormedConf (buf : Bytes) : Prop :=
  ∃ (head : Confhead) (c : Conf), buf = Confhead.layout.encode head ++ encodeTable ConfProcinfo.layout c.procinfo ++
      encodeTable ConfFdigest.layout c.fdigest ++ c.strings ∧
    head.magic = procconfMagic ∧ head.procCnt.toInt = c.procinfo.length ∧ head.fdigCnt.toInt = c.fdigest.length ∧
    head.strSize.toInt = c.strings.length ∧ c.InBounds

/-- The decoder stays inside the buffer, gives a number of entries for well-formed files only, and 0 without a pointer
for all others. -/
structure AcceptsWellFormed (buf : Bytes) : Prop where
  inside : ∃ n pinfo, buildConf buf buf.length = .ok (n, pinfo)
  accepted : ∀ n pinfo, buildConf buf buf.length = .ok (n, pinfo) → 0 < n → WellFormedConf buf
  refused : ∀ n pinfo, buildConf buf buf.length = .ok (n, pinfo) → ¬ 0 < n → n = 0 ∧ pinfo = none

/-- The section sizes that the header gives do not sum up to the size of the buffer. -/
def SizesDiffer (buf : Bytes) (head : Confhead) : Prop :=
  (buf.length : Int) ≠ (20 + 88 * head.procCnt.toInt + 40 * head.fdigCnt.toInt + head.strSize.toInt) % 2 ^ 64

/-! ### A well-formed file is a configuration -/

theorem Conf.InBounds.library {c : Conf} (h : c.InBounds) {i : Nat} (hi : i < c.fdigest.length) :
    ∃ lib, c.LibraryStored i lib := by
  obtain ⟨path, hpath⟩ := h.libPaths _ (List.getElem_mem hi)
  exact ⟨_, _, path, List.getElem?_eq_getElem hi, hpath, rfl⟩

theorem Conf.InBounds.libraries {c : Conf} (h : c.InBounds) {i n : Nat} (hn : i + n ≤ c.fdigest.length) :
    ∃ libs : List Fdigest, libs.length = n ∧ c.LibrariesStored i libs := by
  induction n generalizing i with
  | zero => exact ⟨[], rfl, trivial⟩
  | succ n ih =>
    obtain ⟨lib, hlib⟩ := h.library (i := i) (by omega)
    obtain ⟨libs, hlen, hlibs⟩ := ih (i := i + 1) (by omega)
    exact ⟨lib :: libs, by rw [List.length_cons, hlen], hlib, hlibs⟩

theorem Conf.InBounds.holds {c : Conf} (h : c.InBounds) {r : ConfProcinfo} (hr : r ∈ c.procinfo) :
    ∃ p, c.Holds r p := by
  obtain ⟨path, hpath⟩ := h.paths r hr
  have hcount := h.counts r hr
  by_cases hpos : 0 < r.count.toInt
  · obtain ⟨libs, hlen, hlibs⟩ := h.libraries (h.libs r hr hpos)
    exact ⟨_, path, libs, hpath, hlibs, by omega, rfl⟩
  · exact ⟨_, path, [], hpath, trivial, by simp; omega, rfl⟩

/-- What is accepted as it should be can be followed: the file is a configuration of some processes. -/
theorem WellFormedConf.configuration {buf : Bytes} (h : WellFormedConf buf) : ∃ pinfo, ConfigurationOf buf pinfo := by
  obtain ⟨head, c, hbuf, -, hproc, hfdig, hstr, hbounds⟩ := h
  have hrecords : ∀ records : List ConfProcinfo, (∀ r ∈ records, r ∈ c.procinfo) →
      ∃ pinfo, List.Forall₂ c.Holds records pinfo := by
    intro records
    induction records with
    | nil => exact fun _ => ⟨[], .nil⟩
    | cons r records ih =>
      intro hmem
      obtain ⟨p, hp⟩ := hbounds.holds (hmem r List.mem_cons_self)
      obtain ⟨pinfo, hpinfo⟩ := ih fun r' hr' => hmem r' (List.mem_cons_of_mem r hr')
      exact ⟨p :: pinfo, .cons hp hpinfo⟩
  obtain ⟨pinfo, hpinfo⟩ := hrecords c.procinfo fun _ hr => hr
  exact ⟨pinfo, head, c, hbuf, hproc, hfdig, hstr, hpinfo⟩

/-! ### Which buffers are decided as they should be -/

theorem buildConf_of_sizesDiffer {buf : Bytes} {head : Confhead} (hhead : readCell Confhead.layout buf 0 = .ok head)
    (hsizes : SizesDiffer buf head) : buildConf buf buf.length = .ok (0, none) := by
  rw [buildConf, hhead, ok_bind]
  exact if_pos hsizes

theorem sizesDiffer_of_none {buf : Bytes} {head : Confhead} {n : Int}
    (hhead : readCell Confhead.layout buf 0 = .ok head) (hbuild : buildConf buf buf.length = .ok (n, none)) :
    SizesDiffer buf head := by
  intro hsizes
  rw [buildConf, hhead, ok_bind] at hbuild
  dsimp only at hbuild
  rw [if_neg (not_not.2 hsizes)] at hbuild
  obtain ⟨procinfo, -, hrest⟩ := bind_eq_ok.1 hbuild
  obtain ⟨fdigest, -, hret⟩ := bind_eq_ok.1 hrest
  cases hret

/-- The decoder decides as it should exactly where there is a header whose sizes do not sum up, or a well-formed file
with entries. -/
theorem buildConf_acceptsWellFormed_iff (buf : Bytes) :
    AcceptsWellFormed buf ↔
      ∃ head, readCell Confhead.layout buf 0 = .ok head ∧
        (SizesDiffer buf head ∨ 0 < head.procCnt.toInt ∧ WellFormedConf buf) := by
  constructor
  · intro h
    obtain ⟨n, pinfo, hbuild⟩ := h.inside
    obtain ⟨head, hhead, -⟩ := bind_eq_ok.1 hbuild
    refine ⟨head, hhead, ?_⟩
    cases pinfo with
    | none =>
      exact .inl (sizesDiffer_of_none hhead hbuild)
    | some c =>
      obtain ⟨head', hhead', hn, -⟩ := buildConf_eq_some hbuild
      rw [hhead] at hhead'
      cases hhead'
      by_cases hpos : 0 < n
      · exact .inr ⟨hn ▸ hpos, h.accepted _ _ hbuild hpos⟩
      · cases (h.refused _ _ hbuild hpos).2
  · intro ⟨head, hhead, h⟩
    rcases h with hsizes | ⟨hpos, hwell⟩
    · have hbuild := buildConf_of_sizesDiffer hhead hsizes
      refine ⟨⟨_, _, hbuild⟩, ?_, ?_⟩
      · intro n pinfo hrun hn
        rw [hbuild] at hrun
        cases hrun
        exact absurd hn (by decide)
      · intro n pinfo hrun hn
        rw [hbuild] at hrun
        cases hrun
        exact ⟨rfl, rfl⟩
    · have hfile := hwell
      obtain ⟨head', c, hbuf, -, hproc, hfdig, hstr, -⟩ := hfile
      have hbuild := buildConf_sections hbuf hproc hfdig hstr
      rw [List.append_assoc, List.append_assoc] at hbuf
      rw [readCell_head hbuf] at hhead
      cases hhead
      refine ⟨⟨_, _, hbuild⟩, fun _ _ _ _ => hwell, ?_⟩
      intro n pinfo hrun hn
      rw [hbuild] at hrun
      cases hrun
      exact absurd hpos hn

/-! ### A file of another kind -/

/-- The record of a process without libraries whose path is the empty string at the start of the area. -/
def emptyRecord : ConfProcinfo := ⟨1, 0, 0, 0, 0, 0, 0, 0, 0, ByteBuf.zero 32, 0, 0, 0⟩

/-- The sections of a file with that record. -/
def emptyRecordConf : Conf := ⟨[emptyRecord], [], [0]⟩

/-- The file, but with eight zero bytes in the place of the magic. -/
def foreignFile : Bytes :=
  Confhead.layout.encode ⟨ByteBuf.zero 8, 1, 0, 1⟩ ++ encodeTable ConfProcinfo.layout emptyRecordConf.procinfo ++
    encodeTable ConfFdigest.layout emptyRecordConf.fdigest ++ emptyRecordConf.strings

/-- It is accepted. -/
theorem foreignFile_accepted : ¬ AcceptsWellFormed foreignFile := by
  intro h
  have hbuild : buildConf foreignFile foreignFile.length = .ok (1, some emptyRecordConf) :=
    buildConf_sections rfl (by decide) (by decide) (by decide)
  obtain ⟨head, c, hfile, hmagic, -⟩ := h.accepted _ _ hbuild (by decide)
  rw [List.append_assoc, List.append_assoc] at hfile
  have hhead := readCell_head hfile
  have hforeign : readCell Confhead.layout foreignFile 0 = .ok ⟨ByteBuf.zero 8, 1, 0, 1⟩ := by
    unfold foreignFile
    rw [List.append_assoc, List.append_assoc]
    exact readCell_head rfl
  rw [hforeign] at hhead
  cases hhead
  exact absurd hmagic (by decide)

end PortableTlsRa
