import PortableTlsRa.CacheRuns
import PortableTlsRa.MapsText
import PortableTlsRa.Lib.Sha256

/-!
# The list of measured libraries

`sha256_libs` goes over the lines of `/proc/<pid>/maps` and puts a library into the list when its name is new and it
could be measured; a line whose file cannot be measured is skipped (`continue`).  The list never has a name twice and
is as long as the code says (`sha256LibsFrom_listed`), but it has every mapped library with its own digest exactly when
each one is read under its name, could be measured, and has the digest of the file that was measured first under the
name (`sha256Libs_complete_iff`).
-/

namespace PortableTlsRa.Libmeasurement

open CSem

/-- What one call of `sha256_libs` meets: whether the maps can be opened, what there is to read for the files under
`map_files` that can be measured, and for which lines `add_path` gets its memory. -/
structure LibsCalls where
  maps : Bool
  files : CString → Option Bytes
  entry : Nat → Bool

/-- `struct path_entry`, first element first. -/
abbrev PathList := List (CString × ByteBuf 32)

/-- Returns the new head of the list, unless the code is -1. -/
def addPath (memory : Bool) (head : PathList) (path : CString) (digest : ByteBuf 32) : Option PathList :=
  if memory then some ((path, digest) :: head) else none

section

variable (sha256 : Bytes → ByteBuf 32) (murmurHash3 : Bytes → UInt32) (pid : Int) (calls : LibsCalls)

/-- The loop of `sha256_libs`, from line `i` on. -/
def sha256LibsFrom : Nat → List Bytes → Nat → PathList → FpHtable → Checked (Option (Nat × PathList) × FpHtable)
  | _, [], count, head, table => .ok (some (count, head), table)
  | i, line :: lines, count, head, table =>
    match readLine pid line with
    | none => sha256LibsFrom (i + 1) lines count head table
    | some (path, pathbuf) =>
      if pathExists head path then sha256LibsFrom (i + 1) lines count head table
      else do
        let (digest, table) ← sha256File sha256 murmurHash3 table path pathbuf (calls.files pathbuf)
        match digest with
        | none => sha256LibsFrom (i + 1) lines count head table
        | some digest =>
          match addPath (calls.entry i) head path digest with
          | none => return (none, table)
          | some head => sha256LibsFrom (i + 1) lines (count + 1) head table

/-- Returns the number of libraries and their list, unless the code is -1. -/
def sha256LibsText (text : Bytes) (table : FpHtable) : Checked (Option (Nat × PathList) × FpHtable) :=
  if calls.maps then sha256LibsFrom sha256 murmurHash3 pid calls 0 (fgetsLines lineSize text) 0 [] table
  else .ok (none, table)

end

variable {sha256 : Bytes → ByteBuf 32} {murmurHash3 : Bytes → UInt32} {pid : Int} {calls : LibsCalls} {i count n : Nat}
  {head libs : PathList} {table table' : FpHtable} {earlier : List (CString × Option Bytes)}
  {seen : List (CString × CString)} {path pathbuf name : CString}

/-! ### What the loop keeps -/

/-- What is read for the names of the lines, in order. -/
def readsOf (calls : LibsCalls) (seen : List (CString × CString)) : List (CString × Option Bytes) :=
  seen.map fun l => (l.1, calls.files l.2)

/-- What holds when the lines `seen` have been gone through, after other calls that read `earlier`. -/
structure Listed (sha256 : Bytes → ByteBuf 32) (murmurHash3 : Bytes → UInt32) (calls : LibsCalls)
    (earlier : List (CString × Option Bytes)) (seen : List (CString × CString)) (count : Nat) (head : PathList)
    (table : FpHtable) : Prop where
  represents : Represents sha256 murmurHash3 table
  length : head.length = count
  nodup : (head.map (·.1)).Nodup
  firstRead : ∀ name, table.firstRead name = (earlier ++ readsOf calls seen).lookup name
  kept : ∀ pa ∈ head, KeptFor sha256 table pa.1 pa.2
  named : ∀ pa ∈ head, ∃ l ∈ seen, l.1 = pa.1
  complete : ∀ l ∈ seen, ∀ read, table.firstRead l.1 = some (some read) → l.1 ∈ head.map (·.1)

theorem lookup_concat (reads : List (CString × Option Bytes)) (read : CString × Option Bytes) (name : CString) :
    (reads ++ [read]).lookup name = (reads.lookup name).or (if name = read.1 then some read.2 else none) := by
  rw [List.lookup_append]
  by_cases hname : name = read.1
  · subst hname
    rw [if_pos rfl, List.lookup_cons_self]
  · have hne : (name == read.1) = false := beq_eq_false_iff_ne.2 hname
    rw [if_neg hname, List.lookup_cons, hne]
    rfl

theorem readsOf_concat (calls : LibsCalls) (seen : List (CString × CString)) (l : CString × CString) :
    readsOf calls (seen ++ [l]) = readsOf calls seen ++ [(l.1, calls.files l.2)] := by
  simp [readsOf]

theorem pathExists_iff : pathExists head path = true ↔ path ∈ head.map (·.1) := by
  simp [pathExists]

/-- What is read for a line does not matter when its name has been read before. -/
theorem Listed.firstRead_known (h : Listed sha256 murmurHash3 calls earlier seen count head table)
    (hknown : (table.firstRead path).isSome) (name : CString) :
    table.firstRead name = (earlier ++ readsOf calls (seen ++ [(path, pathbuf)])).lookup name := by
  rw [readsOf_concat, ← List.append_assoc, lookup_concat, ← h.firstRead name]
  by_cases hname : name = path
  · rw [hname, Option.or_of_isSome hknown]
  · rw [if_neg hname, Option.or_none]

/-- A line whose name is in the list is skipped. -/
theorem Listed.skip (h : Listed sha256 murmurHash3 calls earlier seen count head table)
    (hexists : path ∈ head.map (·.1)) :
    Listed sha256 murmurHash3 calls earlier (seen ++ [(path, pathbuf)]) count head table := by
  obtain ⟨pa, hpa, rfl⟩ := List.mem_map.1 hexists
  obtain ⟨read, hread, -⟩ := h.kept pa hpa
  refine ⟨h.represents, h.length, h.nodup, h.firstRead_known (by rw [hread]; rfl), h.kept, ?_, ?_⟩
  · intro pa' hpa'
    obtain ⟨l, hl, hname⟩ := h.named pa' hpa'
    exact ⟨l, List.mem_append_left _ hl, hname⟩
  · intro l hl read' hread'
    rcases List.mem_append.1 hl with hl | hl
    · exact h.complete l hl read' hread'
    · rw [List.mem_singleton.1 hl]
      exact hexists

theorem firstRead_concat (hreads : table'.reads = table.reads ++ [(path, calls.files pathbuf)]) (name : CString) :
    table'.firstRead name = (table.firstRead name).or (if name = path then some (calls.files pathbuf) else none) := by
  rw [FpHtable.firstRead, hreads, lookup_concat]
  rfl

/-- What is read for a new name is read first. -/
theorem Listed.firstRead_new (h : Listed sha256 murmurHash3 calls earlier seen count head table)
    (hreads : table'.reads = table.reads ++ [(path, calls.files pathbuf)]) (name : CString) :
    table'.firstRead name = (earlier ++ readsOf calls (seen ++ [(path, pathbuf)])).lookup name := by
  rw [readsOf_concat, ← List.append_assoc, lookup_concat, ← h.firstRead name, firstRead_concat hreads]

theorem Listed.kept_new (h : Listed sha256 murmurHash3 calls earlier seen count head table)
    (hrep : Represents sha256 murmurHash3 table')
    (hreads : table'.reads = table.reads ++ [(path, calls.files pathbuf)]) :
    ∀ pa ∈ head, KeptFor sha256 table' pa.1 pa.2 :=
  fun pa hpa => (h.kept pa hpa).of_grown ⟨hrep, _, hreads⟩

theorem Listed.named_concat (h : Listed sha256 murmurHash3 calls earlier seen count head table)
    {l : CString × CString} :
    ∀ pa ∈ head, ∃ l' ∈ seen ++ [l], l'.1 = pa.1 := by
  intro pa hpa
  obtain ⟨l', hl', hname⟩ := h.named pa hpa
  exact ⟨l', List.mem_append_left _ hl', hname⟩

/-- A line whose file could not be measured is passed over, with an entry in the cache. -/
theorem Listed.failed (h : Listed sha256 murmurHash3 calls earlier seen count head table)
    (hturn : sha256File sha256 murmurHash3 table path pathbuf (calls.files pathbuf) = .ok (none, table')) :
    Listed sha256 murmurHash3 calls earlier (seen ++ [(path, pathbuf)]) count head table' := by
  obtain ⟨hrep, ⟨read, -, hdigest, -⟩ | ⟨hnew, hdigest, hreads⟩⟩ := sha256File_turn h.represents hturn
  · cases hdigest
  have hfile : calls.files pathbuf = none := Option.map_eq_none_iff.1 hdigest.symm
  refine ⟨hrep, h.length, h.nodup, h.firstRead_new hreads, h.kept_new hrep hreads, h.named_concat, ?_⟩
  intro l hl read hread
  rw [firstRead_concat hreads, hfile] at hread
  by_cases hname : l.1 = path
  · rw [hname, hnew, if_pos rfl] at hread
    cases hread
  · rw [if_neg hname, Option.or_none] at hread
    rcases List.mem_append.1 hl with hl | hl
    · exact h.complete l hl read hread
    · exact absurd (congrArg Prod.fst (List.mem_singleton.1 hl)) hname

/-- A line whose file was measured, now or before, is put into the list. -/
theorem Listed.measured {digest : ByteBuf 32} (h : Listed sha256 murmurHash3 calls earlier seen count head table)
    (hnew : ¬ path ∈ head.map (·.1))
    (hturn : sha256File sha256 murmurHash3 table path pathbuf (calls.files pathbuf) = .ok (some digest, table')) :
    Listed sha256 murmurHash3 calls earlier (seen ++ [(path, pathbuf)]) (count + 1) ((path, digest) :: head)
      table' := by
  obtain ⟨hgrown, hkept⟩ := sha256File_represents h.represents hturn
  have hnamed : ∀ pa ∈ (path, digest) :: head, ∃ l ∈ seen ++ [(path, pathbuf)], l.1 = pa.1 := by
    rw [List.forall_mem_cons]
    exact ⟨⟨(path, pathbuf), by simp, rfl⟩, h.named_concat⟩
  have hkept' : ∀ pa ∈ (path, digest) :: head, KeptFor sha256 table' pa.1 pa.2 := by
    rw [List.forall_mem_cons]
    exact ⟨hkept digest rfl, fun pa hpa => (h.kept pa hpa).of_grown hgrown⟩
  have hlisted : ∀ l ∈ seen ++ [(path, pathbuf)], l.1 = path ∨ l ∈ seen := by
    intro l hl
    rcases List.mem_append.1 hl with hl | hl
    · exact .inr hl
    · exact .inl (congrArg Prod.fst (List.mem_singleton.1 hl))
  refine ⟨hgrown.represents, congrArg (· + 1) h.length, List.nodup_cons.2 ⟨hnew, h.nodup⟩, ?_, hkept', hnamed, ?_⟩
  · obtain ⟨-, ⟨read, hread, -, rfl⟩ | ⟨-, -, hreads⟩⟩ := sha256File_turn h.represents hturn
    · exact h.firstRead_known (by rw [hread]; rfl)
    · exact h.firstRead_new hreads
  · intro l hl read hread
    rw [List.map_cons, List.mem_cons]
    rcases hlisted l hl with hname | hl
    · exact .inl hname
    · by_cases hname : l.1 = path
      · exact .inl hname
      · right
        refine h.complete l hl read ?_
        obtain ⟨-, ⟨read, -, -, rfl⟩ | ⟨-, -, hreads⟩⟩ := sha256File_turn h.represents hturn
        · exact hread
        · rwa [firstRead_concat hreads, if_neg hname, Option.or_none] at hread

/-- The loop keeps the list: it has no name twice, as many entries as were counted, and every name that was read whole
when it was read first. -/
theorem sha256LibsFrom_listed {lines : List Bytes}
    (hlisted : Listed sha256 murmurHash3 calls earlier seen count head table)
    (h : sha256LibsFrom sha256 murmurHash3 pid calls i lines count head table = .ok (some (n, libs), table')) :
    Listed sha256 murmurHash3 calls earlier (seen ++ lines.filterMap (readLine pid)) n libs table' := by
  induction lines generalizing i count head table seen with
  | nil =>
    cases h
    rwa [List.filterMap_nil, List.append_nil]
  | cons line lines ih =>
    rw [sha256LibsFrom] at h
    cases hline : readLine pid line with
    | none =>
      rw [hline] at h
      rw [List.filterMap_cons_none hline]
      exact ih hlisted h
    | some l =>
      obtain ⟨path, pathbuf⟩ := l
      rw [hline] at h
      dsimp only at h
      rw [List.filterMap_cons_some hline, ← List.singleton_append, ← List.append_assoc]
      by_cases hexists : pathExists head path = true
      · rw [if_pos hexists] at h
        exact ih (hlisted.skip (pathExists_iff.1 hexists)) h
      · rw [if_neg hexists, bind_eq_ok] at h
        obtain ⟨⟨digest, table₁⟩, hturn, hrest⟩ := h
        dsimp only at hrest
        cases digest with
        | none => exact ih (hlisted.failed hturn) hrest
        | some digest =>
          have hnew : ¬ path ∈ head.map (·.1) := fun hmem => hexists (pathExists_iff.2 hmem)
          dsimp only [addPath] at hrest
          split_ifs at hrest with hentry
          · exact ih (hlisted.measured hnew hturn) hrest
          · cases hrest

/-! ### Complete lists -/

/-- The libraries that the lines of the maps are read as. -/
def readLibraries (pid : Int) (maps : List MapsLine) : List (CString × CString) :=
  (fgetsLines lineSize (mapsText maps)).filterMap (readLine pid)

/-- What there is to read for a mapped file. -/
def LibsCalls.mapped (calls : LibsCalls) (pid : Int) (m : MapsLine) : Option Bytes :=
  calls.files (mapFilePath pid m.start.toNat m.stop.toNat)

/-- The list is what it is meant to be: as many entries as are returned, no name twice, and for every library that is
mapped its name with the digest of its content, which was made of a file that was read. -/
def Complete (sha256 : Bytes → ByteBuf 32) (calls : LibsCalls) (pid : Int) (maps : List MapsLine) (n : Nat)
    (libs : PathList) (table : FpHtable) : Prop :=
  libs.length = n ∧ (libs.map (·.1)).Nodup ∧ ∀ m ∈ maps, m.IsLibrary →
    ∃ content, calls.mapped pid m = some content ∧ (m.name, sha256 content) ∈ libs ∧
      ∃ read, table.firstRead m.name = some (some read)

/-- What is read for a name first, by the earlier calls or for the lines of the maps. -/
def readFirst (earlier : List InMemory.Call) (calls : LibsCalls) (pid : Int) (maps : List MapsLine) (name : CString) :
    Option (Option Bytes) :=
  ((earlier.map fun c => (c.libpath, c.file.measure)) ++ readsOf calls (readLibraries pid maps)).lookup name

/-- The condition on the maps and the files: every library is read from some line under its name, it can be measured,
and so could be what was measured first under the name, which has the same digest. -/
def LibrariesMeasured (sha256 : Bytes → ByteBuf 32) (earlier : List InMemory.Call) (calls : LibsCalls) (pid : Int)
    (maps : List MapsLine) : Prop :=
  ∀ m ∈ maps, m.IsLibrary → (∃ l ∈ readLibraries pid maps, l.1 = m.name) ∧
    ∃ content read, calls.mapped pid m = some content ∧ readFirst earlier calls pid maps m.name = some (some read) ∧
      sha256 read = sha256 content

theorem listed_start {earlier : List InMemory.Call} {digests : List (Option (ByteBuf 32))}
    (hearlier : InMemory.runTable sha256 murmurHash3 .empty earlier = .ok (digests, table)) :
    Listed sha256 murmurHash3 calls (earlier.map fun c => (c.libpath, c.file.measure)) [] 0 [] table := by
  obtain ⟨hrep, hreads⟩ := InMemory.runTable_reads represents_empty hearlier
  refine ⟨hrep, rfl, List.nodup_nil, fun name => ?_, ?_, ?_, ?_⟩
  · rw [hreads]
    exact congrArg (List.lookup name) (List.append_nil _).symm
  · exact fun _ hpa => absurd hpa List.not_mem_nil
  · exact fun _ hpa => absurd hpa List.not_mem_nil
  · exact fun _ hl => absurd hl List.not_mem_nil

/-- When a number of libraries is returned, after any earlier calls, the list is complete exactly when the libraries are
read and measured. -/
theorem sha256Libs_complete_iff (sha256 : Bytes → ByteBuf 32) (murmurHash3 : Bytes → UInt32)
    (earlier : List InMemory.Call) (calls : LibsCalls) (pid : Int) (maps : List MapsLine)
    {digests : List (Option (ByteBuf 32))} {n : Nat} {libs : PathList} {table table' : FpHtable}
    (hearlier : InMemory.runTable sha256 murmurHash3 .empty earlier = .ok (digests, table))
    (hrun : sha256LibsText sha256 murmurHash3 pid calls (mapsText maps) table = .ok (some (n, libs), table')) :
    Complete sha256 calls pid maps n libs table' ↔ LibrariesMeasured sha256 earlier calls pid maps := by
  rw [sha256LibsText] at hrun
  split_ifs at hrun with hmaps
  · have hlisted := sha256LibsFrom_listed (listed_start hearlier) hrun
    rw [List.nil_append] at hlisted
    constructor
    · rintro ⟨-, -, hall⟩ m hm hlib
      obtain ⟨content, hcontent, hmem, read, hread⟩ := hall m hm hlib
      obtain ⟨l, hl, hname⟩ := hlisted.named _ hmem
      refine ⟨⟨l, hl, hname⟩, content, read, hcontent, ?_, ?_⟩
      · rw [← hread, hlisted.firstRead]
        rfl
      · obtain ⟨read', hread', hdigest⟩ := hlisted.kept _ hmem
        rw [hread] at hread'
        cases hread'
        exact hdigest.symm
    · intro hall
      refine ⟨hlisted.length, hlisted.nodup, fun m hm hlib => ?_⟩
      obtain ⟨⟨l, hl, hname⟩, content, read, hcontent, hfirst, hsame⟩ := hall m hm hlib
      have hread : table'.firstRead m.name = some (some read) := by
        rw [← hfirst, hlisted.firstRead]
        rfl
      have hin := hlisted.complete l hl read (by rw [hname]; exact hread)
      obtain ⟨pa, hpa, hpaName⟩ := List.mem_map.1 hin
      obtain ⟨read', hread', hdigest⟩ := hlisted.kept pa hpa
      rw [hpaName, hname, hread] at hread'
      cases hread'
      have hentry : pa = (m.name, sha256 content) := by
        rw [← hsame]
        exact Prod.ext (hpaName.trans hname) hdigest
      exact ⟨content, hcontent, hentry ▸ hpa, read, hread⟩
  · cases hrun

/-- Where the lines fit, every library is read under its name. -/
theorem exists_readLibraries {maps : List MapsLine} {m : MapsLine} (pid : Int) (hm : m ∈ maps) (hlib : m.IsLibrary)
    (hfits : m.Fits) : ∃ l ∈ readLibraries pid maps, l.1 = m.name :=
  ⟨_, mem_readLine_of_fits pid hm hlib hfits, rfl⟩

/-- A turn of the loop at a library with a new name that cannot be measured. -/
theorem sha256LibsFrom_failed {m : MapsLine} {lines : List Bytes} (hlib : m.IsLibrary) (htrim : m.Trimmed)
    (hnew : ¬ pathExists head m.name = true)
    (hmeasure : sha256File sha256 murmurHash3 table m.name (mapFilePath pid m.start.toNat m.stop.toNat)
      (calls.mapped pid m) = .ok (none, table')) :
    sha256LibsFrom sha256 murmurHash3 pid calls i (m.line :: lines) count head table =
      sha256LibsFrom sha256 murmurHash3 pid calls (i + 1) lines count head table' := by
  rw [LibsCalls.mapped] at hmeasure
  rw [sha256LibsFrom, readLine_line pid hlib htrim]
  dsimp only
  rw [if_neg hnew, hmeasure, ok_bind]

/-- A turn of the loop at a library whose name is in the list. -/
theorem sha256LibsFrom_skipped {m : MapsLine} {lines : List Bytes} (hlib : m.IsLibrary) (htrim : m.Trimmed)
    (hexists : pathExists head m.name = true) :
    sha256LibsFrom sha256 murmurHash3 pid calls i (m.line :: lines) count head table =
      sha256LibsFrom sha256 murmurHash3 pid calls (i + 1) lines count head table := by
  rw [sha256LibsFrom, readLine_line pid hlib htrim]
  dsimp only
  rw [if_pos hexists]

/-- A turn of the loop at a library with a new name that is measured, or was before. -/
theorem sha256LibsFrom_measured {m : MapsLine} {lines : List Bytes} (hlib : m.IsLibrary) (htrim : m.Trimmed)
    (hnew : ¬ pathExists head m.name = true) {digest : ByteBuf 32}
    (hmeasure : sha256File sha256 murmurHash3 table m.name (mapFilePath pid m.start.toNat m.stop.toNat)
      (calls.mapped pid m) = .ok (some digest, table')) (hentry : calls.entry i = true) :
    sha256LibsFrom sha256 murmurHash3 pid calls i (m.line :: lines) count head table =
      sha256LibsFrom sha256 murmurHash3 pid calls (i + 1) lines (count + 1) ((m.name, digest) :: head) table' := by
  rw [LibsCalls.mapped] at hmeasure
  rw [sha256LibsFrom, readLine_line pid hlib htrim]
  dsimp only
  rw [if_neg hnew, hmeasure, ok_bind]
  dsimp only [addPath]
  rw [if_pos hentry]

/-- The two segments of a mapped library. -/
def libcText : MapsLine :=
  ⟨0x7f10a2000000, 0x7f10a2021000, true, false, true, false, 0x1000, 0xfd, 0, 131, 4, cstr "/lib/libc.so.6", by decide⟩

def libcData : MapsLine :=
  ⟨0x7f10a2021000, 0x7f10a2022000, true, true, false, false, 0x22000, 0xfd, 0, 131, 4, cstr "/lib/libc.so.6", by decide⟩

theorem libc_fits : libcText.IsLibrary ∧ libcText.Fits ∧ libcData.IsLibrary ∧ libcData.Fits := by decide +kernel

theorem libc_lines : fgetsLines lineSize (mapsText [libcText, libcData]) = [libcText.line, libcData.line] := by
  rw [fgetsLines_text, List.flatMap_cons, List.flatMap_singleton, fgetsLines_line libc_fits.2.1,
    fgetsLines_line libc_fits.2.2.2]
  rfl

/-- The first segment cannot be opened, the second can be measured. -/
def firstGone : LibsCalls :=
  ⟨true, fun path => if path = mapFilePath 7 0x7f10a2021000 0x7f10a2022000 then some [0x7f, 0x45] else none,
    fun _ => true⟩

/-- The table after the first segment. -/
def afterFirst : FpHtable :=
  ⟨Function.update (fun _ => []) (myhash (fun _ => 0) libcText.name)
      [⟨keyBuffer libcText.name (mapFilePath 7 0x7f10a2000000 0x7f10a2021000), ByteBuf.zero 32⟩],
    [(libcText.name, none)]⟩

theorem firstGone_first :
    sha256File Sha256.hash (fun _ => 0) .empty libcText.name (mapFilePath 7 0x7f10a2000000 0x7f10a2021000)
      (firstGone.mapped 7 libcText) = .ok (none, afterFirst) := by
  have hgone : firstGone.mapped 7 libcText = none := by decide +kernel
  rw [hgone]
  rfl

theorem firstGone_second (file : Option Bytes) :
    sha256File Sha256.hash (fun _ => 0) afterFirst libcData.name (mapFilePath 7 0x7f10a2021000 0x7f10a2022000) file =
      .ok (some (ByteBuf.zero 32), afterFirst) := by
  have hfind : findHashentry (afterFirst.buckets (myhash (fun _ => 0) libcData.name)) libcData.name =
      .ok (some ⟨keyBuffer libcText.name (mapFilePath 7 0x7f10a2000000 0x7f10a2021000), ByteBuf.zero 32⟩) := by
    decide +kernel
  rw [sha256File, hfind]
  rfl

theorem sha256_segment_ne_zero : Sha256.hash [0x7f, 0x45] ≠ ByteBuf.zero 32 := by
  decide +kernel

/-- The measurement that failed is taken for one that succeeded: the library is listed with zeros, although the second
segment can be measured. -/
theorem sha256Libs_firstGone_not_complete :
    ∃ table', sha256LibsText Sha256.hash (fun _ => 0) 7 firstGone (mapsText [libcText, libcData]) .empty =
        .ok (some (1, [(cstr "/lib/libc.so.6", ByteBuf.zero 32)]), table') ∧
      libcData.IsLibrary ∧ firstGone.mapped 7 libcData = some [0x7f, 0x45] ∧
      ¬ Complete Sha256.hash firstGone 7 [libcText, libcData] 1 [(cstr "/lib/libc.so.6", ByteBuf.zero 32)] table' := by
  obtain ⟨hlib, hfits, hlib', hfits'⟩ := libc_fits
  have hnew : ¬ pathExists [] libcText.name = true := Bool.false_ne_true
  have hmaps : firstGone.maps = true := rfl
  have hread : firstGone.mapped 7 libcData = some [0x7f, 0x45] := by decide +kernel
  refine ⟨afterFirst, ?_, hlib', hread, ?_⟩
  · rw [sha256LibsText, if_pos hmaps, libc_lines, sha256LibsFrom_failed hlib hfits.2 hnew firstGone_first,
      sha256LibsFrom_measured hlib' hfits'.2 hnew (firstGone_second _) rfl]
    rfl
  · rintro ⟨-, -, hall⟩
    obtain ⟨content, hcontent, hmem, -⟩ := hall libcData (List.mem_cons_of_mem _ List.mem_cons_self) hlib'
    rw [hread] at hcontent
    cases hcontent
    exact sha256_segment_ne_zero (congrArg Prod.snd (List.mem_singleton.1 hmem))

/-- Both segments can be measured. -/
def allPresent : LibsCalls := ⟨true, fun _ => some [0x7f, 0x45], fun _ => true⟩

theorem allPresent_measured : LibrariesMeasured Sha256.hash [] allPresent 7 [libcText, libcData] := by
  obtain ⟨hlib, hfits, hlib', hfits'⟩ := libc_fits
  have hlibs : readLibraries 7 [libcText, libcData] =
      [(libcText.name, mapFilePath 7 libcText.start.toNat libcText.stop.toNat),
        (libcData.name, mapFilePath 7 libcData.start.toNat libcData.stop.toNat)] := by
    rw [readLibraries, libc_lines, List.filterMap_cons_some (readLine_line 7 hlib hfits.2),
      List.filterMap_cons_some (readLine_line 7 hlib' hfits'.2), List.filterMap_nil]
  have hfirst : readFirst [] allPresent 7 [libcText, libcData] libcText.name = some (some [0x7f, 0x45]) := by
    rw [readFirst, hlibs]
    exact List.lookup_cons_self
  intro m hm _
  rw [List.mem_pair] at hm
  rcases hm with rfl | rfl
  · exact ⟨exists_readLibraries 7 List.mem_cons_self hlib hfits, _, _, rfl, hfirst, rfl⟩
  · exact ⟨exists_readLibraries 7 (List.mem_cons_of_mem _ List.mem_cons_self) hlib' hfits', _, _, rfl, hfirst, rfl⟩

/-- The library is listed once, with its digest. -/
theorem sha256Libs_complete_allPresent : ∃ table',
    Complete Sha256.hash allPresent 7 [libcText, libcData] 1 [(libcText.name, Sha256.hash [0x7f, 0x45])] table' := by
  obtain ⟨hlib, hfits, hlib', hfits'⟩ := libc_fits
  have hnew : ¬ pathExists [] libcText.name = true := Bool.false_ne_true
  have hlisted : pathExists [(libcText.name, Sha256.hash [0x7f, 0x45])] libcData.name = true :=
    pathExists_iff.2 List.mem_cons_self
  have hmaps : allPresent.maps = true := rfl
  have hmeasure : ∃ table', sha256File Sha256.hash (fun _ => 0) .empty libcText.name
      (mapFilePath 7 libcText.start.toNat libcText.stop.toNat) (allPresent.mapped 7 libcText) =
        .ok (some (Sha256.hash [0x7f, 0x45]), table') := ⟨_, rfl⟩
  obtain ⟨table', hmeasure⟩ := hmeasure
  have hrun : sha256LibsText Sha256.hash (fun _ => 0) 7 allPresent (mapsText [libcText, libcData]) .empty =
      .ok (some (1, [(libcText.name, Sha256.hash [0x7f, 0x45])]), table') := by
    rw [sha256LibsText, if_pos hmaps, libc_lines, sha256LibsFrom_measured hlib hfits.2 hnew hmeasure rfl,
      sha256LibsFrom_skipped hlib' hfits'.2 hlisted]
    rfl
  have hcomplete := sha256Libs_complete_iff Sha256.hash (fun _ => 0) [] allPresent 7 [libcText, libcData] rfl hrun
  exact ⟨table', hcomplete.2 allPresent_measured⟩

end PortableTlsRa.Libmeasurement
