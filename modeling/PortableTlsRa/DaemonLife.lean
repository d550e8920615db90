import PortableTlsRa.Freshness
import PortableTlsRa.LibraryOrder
import PortableTlsRa.RegistryRuns
import Mathlib.Data.List.Find
import Mathlib.Logic.Relation

/-!
# What one daemon measures, and what is granted for it

A chain is registered after one request to the daemon and asked for after another, with forks, executions and new files
in between.  What is measured is compared with what is registered, and the daemon reads a file for a key once in its
life.  So what is compared is what was read first for the keys (`agreesWithFirst_served_iff`): after a restart that is
what was there then, and within one life the libraries can differ in their number alone.
-/

namespace PortableTlsRa

open CSem Cbor Libmeasurement

/-! ### The measuring part of a request -/

/-- The name of the executable of a process, as the kernel shows it. -/
def World.exeLabel (w : World) (pid : Int) : Option CString := (w.process pid).map fun p => w.label p.exeName p.exe

/-- The calls on the process succeed; only the file of a line of the maps may be unreadable. -/
structure Libmeasurement.MeasureCalls.Succeed (calls : MeasureCalls) (pid : Int) : Prop where
  exe : calls.exe pid
  readlink : calls.readlink pid
  maps : calls.maps pid
  entry : ∀ i, calls.entry pid i

section

variable (sha256 : Bytes → ByteBuf 32) (murmurHash3 : Bytes → UInt32) (w : World) (calls : MeasureCalls)
  (vars : Int → Measurement)

/-- The variables of `mycbor_sha256_binaries` after its measuring calls.  `vars` has the user and group ids of the
processes, and what the other variables hold where nothing is written to them. -/
def measureProcess (pid : Int) (table : FpHtable) : Checked (Measurement × FpHtable) := do
  let (exe, table) ← sha256Pid sha256 murmurHash3 w calls pid true table
  let (libs, table) ← sha256Libs sha256 murmurHash3 w calls pid table
  return ({ vars pid with
      digest := (exe.map (·.1)).getD (vars pid).digest
      cmdpath := (exe.bind (·.2)).getD (vars pid).cmdpath
      ppid := (w.process pid).map (·.ppid)
      count := (libs.map fun l => (l.length : Int)).getD (-1)
      paths := libs.getD (vars pid).paths }, table)

/-- The processes of a chain are measured one after the other. -/
def measureProcesses : List Int → FpHtable → Checked (List Measurement × FpHtable)
  | [], table => .ok ([], table)
  | pid :: pids, table => do
    let (m, table) ← measureProcess sha256 murmurHash3 w calls vars pid table
    let (ms, table) ← measureProcesses pids table
    return (m :: ms, table)

end

variable {sha256 : Bytes → ByteBuf 32} {murmurHash3 : Bytes → UInt32} {w : World} {calls : MeasureCalls}
  {vars : Int → Measurement} {table table' : FpHtable} {pid : Int} {pids : List Int}

/-- What is measured of a process is what is reported of it. -/
theorem measureBinaries_of_measureProcess {m : Measurement}
    (h : measureProcess sha256 murmurHash3 w calls vars pid table = .ok (m, table')) :
    ∃ reports, measureBinaries sha256 murmurHash3 w calls pid table = .ok (reports, table') := by
  obtain ⟨⟨exe, table₁⟩, hexe, hrest⟩ := bind_eq_ok.1 h
  obtain ⟨⟨libs, table₂⟩, hlibs, hret⟩ := bind_eq_ok.1 hrest
  cases hret
  exact ⟨_, bind_eq_ok.2 ⟨_, hexe, bind_eq_ok.2 ⟨_, hlibs, rfl⟩⟩⟩

theorem measureChain_of_measureProcesses {ms : List Measurement}
    (h : measureProcesses sha256 murmurHash3 w calls vars pids table = .ok (ms, table')) :
    ∃ reports, measureChain sha256 murmurHash3 w calls pids table = .ok (reports, table') := by
  induction pids generalizing table ms with
  | nil =>
    cases h
    exact ⟨[], rfl⟩
  | cons pid pids ih =>
    obtain ⟨⟨m, table₁⟩, hm, hrest⟩ := bind_eq_ok.1 h
    obtain ⟨⟨others, table₂⟩, hothers, hret⟩ := bind_eq_ok.1 hrest
    cases hret
    obtain ⟨first, hfirst⟩ := measureBinaries_of_measureProcess hm
    obtain ⟨reports, hreports⟩ := ih hothers
    exact ⟨_, bind_eq_ok.2 ⟨_, hfirst, bind_eq_ok.2 ⟨_, hreports, rfl⟩⟩⟩

/-! ### What is measured is kept -/

/-- The digest of what was read for a key first. -/
def Libmeasurement.FpHtable.firstDigest (sha256 : Bytes → ByteBuf 32) (table : FpHtable) (key : CString) :
    Option (ByteBuf 32) :=
  (table.firstRead key).map (storedDigest sha256)

theorem keptFor_iff {key : CString} {digest : ByteBuf 32} :
    KeptFor sha256 table key digest ↔ table.firstDigest sha256 key = some digest := by
  simp only [KeptFor, FpHtable.firstDigest, Option.map_eq_some_iff, eq_comm]

/-- What is measured of a living process: the name is the one that the kernel shows, no library is listed twice, and the
digests are kept for their keys. -/
structure Measurement.Kept (sha256 : Bytes → ByteBuf 32) (table : FpHtable) (w : World) (pid : Int)
    (m : Measurement) : Prop where
  ppid : (w.process pid).map (·.ppid) = m.ppid
  cmdpath : w.exeLabel pid = some m.cmdpath
  digest : KeptFor sha256 table (exePath pid) m.digest
  libs : ∀ pa ∈ m.paths, KeptFor sha256 table pa.1 pa.2
  distinct : (m.paths.map (·.1)).Nodup

theorem Measurement.Kept.of_grown {m : Measurement} (h : m.Kept sha256 table w pid)
    (hgrown : Grown sha256 murmurHash3 table table') : m.Kept sha256 table' w pid where
  ppid := h.ppid
  cmdpath := h.cmdpath
  digest := h.digest.of_grown hgrown
  libs := fun pa hpa => (h.libs pa hpa).of_grown hgrown
  distinct := h.distinct

/-- A readable executable is measured, now or from the table, and its link is read. -/
theorem sha256Pid_measures {p : Process} {measured : Option (ByteBuf 32 × Option CString)}
    (hprocess : w.process pid = some p) (hexe : calls.exe pid) (hlink : calls.readlink pid)
    (h : sha256Pid sha256 murmurHash3 w calls pid true table = .ok (measured, table')) :
    ∃ digest, measured = some (digest, some (w.label p.exeName p.exe)) := by
  obtain ⟨⟨digest, table₁⟩, hfile, hret⟩ := bind_eq_ok.1 h
  have hdigest : ∃ d, digest = some d := by
    obtain ⟨found, -, hfound⟩ := bind_eq_ok.1 hfile
    cases found with
    | some fp =>
      cases hfound
      exact ⟨_, rfl⟩
    | none =>
      cases hfound
      rw [if_pos hexe, hprocess]
      exact ⟨_, rfl⟩
  obtain ⟨d, rfl⟩ := hdigest
  cases hret
  refine ⟨d, ?_⟩
  rw [hlink, hprocess]
  rfl

/-- A line leaves the list as it is or puts a new library in front of it, unless there is no memory for the entry. -/
theorem sha256LibsLines_turn {i : Nat} {m : Mapping} {maps : List Mapping} {head : List (CString × ByteBuf 32)}
    {libs : Option (List (CString × ByteBuf 32))}
    (h : sha256LibsLines sha256 murmurHash3 w calls pid i (m :: maps) head table = .ok (libs, table')) :
    (∃ head' table₁, (head' = head ∨ ∃ pa, head' = pa :: head ∧ pa.1 ∉ head.map (·.1)) ∧
        sha256LibsLines sha256 murmurHash3 w calls pid (i + 1) maps head' table₁ = .ok (libs, table')) ∨
      ¬ calls.entry pid i ∧ libs = none := by
  rw [sha256LibsLines] at h
  dsimp only at h
  by_cases hname : (trim (w.label m.name m.inode)).1 = [] ∨ (trim (w.label m.name m.inode)).1.head? = some 0x5b
  · rw [if_pos hname] at h
    exact .inl ⟨head, table, .inl rfl, h⟩
  rw [if_neg hname] at h
  by_cases hshared : (!isSharedLibrary (trim (w.label m.name m.inode))) = true
  · rw [if_pos hshared] at h
    exact .inl ⟨head, table, .inl rfl, h⟩
  rw [if_neg hshared] at h
  by_cases hexists : pathExists head (trim (w.label m.name m.inode)) = true
  · rw [if_pos hexists] at h
    exact .inl ⟨head, table, .inl rfl, h⟩
  rw [if_neg hexists] at h
  obtain ⟨⟨digest, table₁⟩, -, hrest⟩ := bind_eq_ok.1 h
  cases digest with
  | none => exact .inl ⟨head, table₁, .inl rfl, hrest⟩
  | some d =>
    dsimp only at hrest
    by_cases hentry : calls.entry pid i
    · rw [if_pos hentry] at hrest
      refine .inl ⟨_, table₁, .inr ⟨(trim (w.label m.name m.inode), d), rfl, ?_⟩, hrest⟩
      intro hmem
      obtain ⟨pa, hpa, hpath⟩ := List.mem_map.1 hmem
      exact hexists (List.any_eq_true.2 ⟨pa, hpa, decide_eq_true hpath⟩)
    · rw [if_neg hentry] at hrest
      cases hrest
      exact .inr ⟨hentry, rfl⟩

/-- No library is listed twice, and where there is memory for every entry the list is returned. -/
theorem sha256LibsLines_lists {i : Nat} {maps : List Mapping} {head : List (CString × ByteBuf 32)}
    {libs : Option (List (CString × ByteBuf 32))} (hentry : ∀ i, calls.entry pid i) (hhead : (head.map (·.1)).Nodup)
    (h : sha256LibsLines sha256 murmurHash3 w calls pid i maps head table = .ok (libs, table')) :
    ∃ l, libs = some l ∧ (l.map (·.1)).Nodup := by
  induction maps generalizing i head table with
  | nil =>
    cases h
    exact ⟨head, rfl, hhead⟩
  | cons m maps ih =>
    rcases sha256LibsLines_turn h with ⟨head', table₁, rfl | ⟨pa, rfl, hpa⟩, hrest⟩ | ⟨hfails, -⟩
    · exact ih hhead hrest
    · refine ih ?_ hrest
      rw [List.map_cons, List.nodup_cons]
      exact ⟨hpa, hhead⟩
    · exact absurd (hentry i) hfails

theorem measureProcess_kept {m : Measurement} (hrep : Libmeasurement.Represents sha256 murmurHash3 table)
    (hcalls : calls.Succeed pid) (hppid : m.ppid.isSome)
    (h : measureProcess sha256 murmurHash3 w calls vars pid table = .ok (m, table')) :
    Grown sha256 murmurHash3 table table' ∧ m.Kept sha256 table' w pid := by
  obtain ⟨⟨exe, table₁⟩, hpid, hrest⟩ := bind_eq_ok.1 h
  obtain ⟨⟨libs, table₂⟩, hlibs, hret⟩ := bind_eq_ok.1 hrest
  cases hret
  obtain ⟨p, hp⟩ := Option.isSome_iff_exists.1 (Option.isSome_map.symm.trans hppid)
  obtain ⟨hgrown, hkept⟩ := sha256Pid_kept hrep hpid
  obtain ⟨hgrown', hkept'⟩ := sha256Libs_kept hgrown.represents hlibs
  obtain ⟨digest, rfl⟩ := sha256Pid_measures hp hcalls.exe hcalls.readlink hpid
  have hlist : ∃ l, libs = some l ∧ (l.map (·.1)).Nodup := by
    rw [sha256Libs, hp] at hlibs
    dsimp only at hlibs
    rw [if_pos hcalls.maps] at hlibs
    have hnil : (([] : List (CString × ByteBuf 32)).map (·.1)).Nodup := List.nodup_nil
    exact sha256LibsLines_lists hcalls.entry hnil hlibs
  obtain ⟨l, rfl, hnodup⟩ := hlist
  refine ⟨hgrown.trans hgrown', rfl, ?_, (hkept digest rfl).of_grown hgrown', hkept', hnodup⟩
  rw [World.exeLabel, hp]
  rfl

theorem measureProcesses_kept {ms : List Measurement} (hrep : Libmeasurement.Represents sha256 murmurHash3 table)
    (hcalls : ∀ p ∈ pids, calls.Succeed p) (hppid : ∀ m ∈ ms, m.ppid.isSome)
    (h : measureProcesses sha256 murmurHash3 w calls vars pids table = .ok (ms, table')) :
    Grown sha256 murmurHash3 table table' ∧ List.Forall₂ (fun p m => m.Kept sha256 table' w p) pids ms := by
  induction pids generalizing table ms with
  | nil =>
    cases h
    exact ⟨.refl hrep, .nil⟩
  | cons pid pids ih =>
    obtain ⟨⟨m, table₁⟩, hm, hrest⟩ := bind_eq_ok.1 h
    obtain ⟨⟨others, table₂⟩, hothers, hret⟩ := bind_eq_ok.1 hrest
    cases hret
    obtain ⟨hcallsHead, hcallsTail⟩ := List.forall_mem_cons.1 hcalls
    obtain ⟨hhead, htail⟩ := List.forall_mem_cons.1 hppid
    obtain ⟨hgrown, hkept⟩ := measureProcess_kept hrep hcallsHead hhead hm
    obtain ⟨hgrown', hkept'⟩ := ih hgrown.represents hcallsTail htail hothers
    exact ⟨hgrown.trans hgrown', .cons (hkept.of_grown hgrown') hkept'⟩

/-! ### Requests that are served -/

/-- The daemon gets from the one state to the other, whatever it reports on the way. -/
def Reaches (sha256 : Bytes → ByteBuf 32) (murmurHash3 : Bytes → UInt32) : System → System → Prop :=
  Relation.ReflTransGen fun s s' => ∃ reports, SystemStep sha256 murmurHash3 s reports s'

/-- A request that is served: the processes and files at the time, the processes of the chain, what is measured of them,
and the table of the daemon after that. -/
structure Served where
  world : World
  pids : List Int
  measured : Int → Measurement
  table : FpHtable

/-- The chain as it is decoded. -/
def Served.chain (r : Served) : List Procinfo := r.pids.reverse.map fun p => (r.measured p).procinfo p

/-- The daemon serves this request for a process: it walks over the chain and measures every process of it. -/
structure Serves (sha256 : Bytes → ByteBuf 32) (murmurHash3 : Bytes → UInt32) (s : System) (pid : Int) (r : Served)
    (s' : System) : Prop where
  con : ∃ con ppid, s.con = some con ∧ con.pid = pid ∧ Walk s.world pid ppid r.pids
  world : s.world = r.world
  measures : ∃ calls vars, (∀ p ∈ r.pids, calls.Succeed p) ∧
    measureProcesses sha256 murmurHash3 s.world calls vars r.pids s.table = .ok (r.pids.map r.measured, r.table)
  measurable : ∀ p ∈ r.pids, (r.measured p).Measurable p
  state : s' = { s with table := r.table }

/-- The program in the request is the one that was registered: the first registered process of the name has as many
libraries, the executables that were read first for the two numbers have the same digest, and so have the files that
were read first for a library of both. -/
def Served.SameProgram (sha256 : Bytes → ByteBuf 32) (reg fresh : Served) (q : Int) : Prop :=
  ∃ p, (reg.pids.reverse.find? fun p => reg.world.exeLabel p = fresh.world.exeLabel q) = some p ∧
    (reg.measured p).paths.length = (fresh.measured q).paths.length ∧
    reg.table.firstDigest sha256 (exePath p) = fresh.table.firstDigest sha256 (exePath q) ∧
    ∀ path ∈ (reg.measured p).paths.map (·.1), path ∈ (fresh.measured q).paths.map (·.1) →
      reg.table.firstDigest sha256 path = fresh.table.firstDigest sha256 path

variable {s s' : System} {r reg fresh : Served}

theorem systemStep_grown {reports : List Report} (hrep : Libmeasurement.Represents sha256 murmurHash3 s.table)
    (h : SystemStep sha256 murmurHash3 s reports s') : Grown sha256 murmurHash3 s.table s'.table := by
  cases h with
  | between => exact .refl hrep
  | accept hpid => exact (sha256Pid_kept hrep hpid).1
  | attest => exact .refl hrep
  | pica _ _ hchain => exact (measureChain_kept hrep hchain).1

theorem Reaches.grown (hrep : Libmeasurement.Represents sha256 murmurHash3 s.table)
    (h : Reaches sha256 murmurHash3 s s') : Grown sha256 murmurHash3 s.table s'.table := by
  induction h with
  | refl => exact .refl hrep
  | tail _ hstep ih =>
    obtain ⟨reports, hstep⟩ := hstep
    exact ih.trans (systemStep_grown ih.represents hstep)

/-- A request that is served is a step of the daemon. -/
theorem Serves.reaches (h : Serves sha256 murmurHash3 s pid r s') : Reaches sha256 murmurHash3 s s' := by
  obtain ⟨con, ppid, hcon, rfl, hwalk⟩ := h.con
  obtain ⟨calls, vars, -, hmeasures⟩ := h.measures
  obtain ⟨reports, hreports⟩ := measureChain_of_measureProcesses hmeasures
  rw [h.state]
  exact .single ⟨reports, .pica hcon hwalk hreports⟩

theorem Serves.kept (hrep : Libmeasurement.Represents sha256 murmurHash3 s.table)
    (h : Serves sha256 murmurHash3 s pid r s') : ∀ p ∈ r.pids, (r.measured p).Kept sha256 r.table r.world p := by
  obtain ⟨calls, vars, hcalls, hmeasures⟩ := h.measures
  have hppid : ∀ m ∈ r.pids.map r.measured, m.ppid.isSome := by
    intro m hm
    obtain ⟨p, hp, rfl⟩ := List.mem_map.1 hm
    obtain ⟨ppid, hppid, -⟩ := (h.measurable p hp).ppid
    rw [hppid]
    rfl
  have hkept := (measureProcesses_kept hrep hcalls hppid hmeasures).2
  rw [List.forall₂_map_right_iff, List.forall₂_same, h.world] at hkept
  exact hkept

theorem Walk.ancestorChain {ppid : Int} {m : Int → Measurement} (h : Walk w pid ppid pids)
    (hppid : ∀ p ∈ pids, (w.process p).map (·.ppid) = (m p).ppid ∧ (m p).ppid.isSome) : AncestorChain m pid pids := by
  induction h with
  | @last pid ppid hlast =>
    obtain ⟨heq, hsome⟩ := hppid pid (List.mem_singleton.2 rfl)
    obtain ⟨n, hn⟩ := Option.isSome_iff_exists.1 hsome
    rw [heq, hn] at hlast
    refine .last ?_
    rw [hn, ← hlast]
    rfl
  | @next pid ppid parent pids hparent hne hwalk ih =>
    obtain ⟨⟨heq, hsome⟩, htail⟩ := List.forall_mem_cons.1 hppid
    obtain ⟨n, hn⟩ := Option.isSome_iff_exists.1 hsome
    rw [heq, hn] at hparent
    refine .parent ?_ hne (ih htail)
    rw [hn, ← hparent]
    rfl

theorem Serves.ancestorChain (hrep : Libmeasurement.Represents sha256 murmurHash3 s.table)
    (h : Serves sha256 murmurHash3 s pid r s') : AncestorChain r.measured pid r.pids := by
  obtain ⟨con, ppid, -, -, hwalk⟩ := h.con
  rw [h.world] at hwalk
  refine hwalk.ancestorChain fun p hp => ⟨(h.kept hrep p hp).ppid, ?_⟩
  obtain ⟨ppid, hppid, -⟩ := (h.measurable p hp).ppid
  rw [hppid]
  rfl

/-! ### What is compared -/

/-- Where no library is listed twice a comparison passes exactly if it is not refused. -/
theorem digestPasses_iff {reg fresh : Procinfo} (hreg : reg.LibrariesDistinct) (hfresh : fresh.LibrariesDistinct)
    (hregNamed : reg.LibrariesNamed) (hfreshNamed : fresh.LibrariesNamed) :
    DigestPasses reg fresh ↔ ¬ DigestRefused reg fresh := by
  rw [← picaVerifyDigest_nonneg_iff]
  obtain ⟨vc, hvc⟩ := picaVerifyDigest_defined hreg hfresh hregNamed hfreshNamed
  rcases picaVerifyDigest_result hreg hfresh hvc with ⟨hrefused, rfl⟩ | ⟨hpasses, rfl⟩
  · refine iff_of_false ?_ (not_not.2 hrefused)
    rintro ⟨vc', hvc', hnonneg⟩
    rw [hvc] at hvc'
    cases hvc'
    exact hnonneg (by decide)
  · exact iff_of_true ⟨0, hvc, by decide⟩ hpasses

theorem Measurement.Kept.libraries {m : Measurement} (h : m.Kept sha256 table w pid) :
    (m.procinfo pid).LibrariesDistinct ∧ (m.procinfo pid).LibrariesNamed := by
  refine ⟨⟨?_, ?_⟩, ?_⟩
  · rw [Measurement.procinfo, List.length_map]
    exact Int.toNat_natCast _
  · have hpaths : (m.procinfo pid).libs.map (·.path) = (m.paths.map (·.1)).map some := by
      rw [Measurement.procinfo, List.map_map, List.map_map]
      rfl
    rw [hpaths]
    exact h.distinct.map (Option.some_injective _)
  · intro lib hlib
    obtain ⟨pa, -, rfl⟩ := List.mem_map.1 hlib
    rfl

section

variable {table₁ table₂ : FpHtable} {w₁ w₂ : World} {p q : Int} {m₁ m₂ : Measurement}

/-- A library that both have differs where the files that were read for its name first do. -/
theorem libraryDiffers_iff (h₁ : m₁.Kept sha256 table₁ w₁ p) (h₂ : m₂.Kept sha256 table₂ w₂ q) :
    LibraryDiffers (m₁.procinfo p).libs (m₂.procinfo q).libs ↔
      ∃ path ∈ m₁.paths.map (·.1), path ∈ m₂.paths.map (·.1) ∧
        table₁.firstDigest sha256 path ≠ table₂.firstDigest sha256 path := by
  constructor
  · rintro ⟨freshDig, hfresh, regDig, hreg, path, hfreshPath, hregPath, hne⟩
    obtain ⟨pa₁, hpa₁, rfl⟩ := List.mem_map.1 hreg
    obtain ⟨pa₂, hpa₂, rfl⟩ := List.mem_map.1 hfresh
    cases hregPath
    have hpath : pa₂.1 = pa₁.1 := Option.some.inj hfreshPath
    refine ⟨pa₁.1, List.mem_map_of_mem hpa₁, hpath ▸ List.mem_map_of_mem hpa₂, ?_⟩
    rw [keptFor_iff.1 (h₁.libs pa₁ hpa₁), ← hpath, keptFor_iff.1 (h₂.libs pa₂ hpa₂)]
    intro heq
    exact hne (Option.some.inj heq).symm
  · rintro ⟨path, hpath₁, hpath₂, hne⟩
    obtain ⟨pa₁, hpa₁, rfl⟩ := List.mem_map.1 hpath₁
    obtain ⟨pa₂, hpa₂, hpath⟩ := List.mem_map.1 hpath₂
    refine ⟨_, List.mem_map_of_mem hpa₂, _, List.mem_map_of_mem hpa₁, pa₁.1, congrArg some hpath, rfl, ?_⟩
    intro heq
    apply hne
    rw [keptFor_iff.1 (h₁.libs pa₁ hpa₁), ← hpath, keptFor_iff.1 (h₂.libs pa₂ hpa₂)]
    exact congrArg some heq.symm

/-- Two measured processes are compared by the digests that are kept for their keys. -/
theorem digestPasses_kept_iff (h₁ : m₁.Kept sha256 table₁ w₁ p) (h₂ : m₂.Kept sha256 table₂ w₂ q) :
    DigestPasses (m₁.procinfo p) (m₂.procinfo q) ↔
      m₁.paths.length = m₂.paths.length ∧
        table₁.firstDigest sha256 (exePath p) = table₂.firstDigest sha256 (exePath q) ∧
        ∀ path ∈ m₁.paths.map (·.1), path ∈ m₂.paths.map (·.1) →
          table₁.firstDigest sha256 path = table₂.firstDigest sha256 path := by
  have hcount : (m₁.procinfo p).count = (m₂.procinfo q).count ↔ m₁.paths.length = m₂.paths.length := Int.ofNat_inj
  have hdigest : (m₁.procinfo p).digest = (m₂.procinfo q).digest ↔
      table₁.firstDigest sha256 (exePath p) = table₂.firstDigest sha256 (exePath q) := by
    rw [keptFor_iff.1 h₁.digest, keptFor_iff.1 h₂.digest, Option.some_inj]
    rfl
  rw [digestPasses_iff h₁.libraries.1 h₂.libraries.1 h₁.libraries.2 h₂.libraries.2]
  simp only [DigestRefused, ne_eq, not_or, not_not, hcount, hdigest, libraryDiffers_iff h₁ h₂, not_exists, not_and]

end

/-- A measured process agrees with a registered chain as far as what was read first for the keys is the same. -/
theorem agreesWithFirst_served_iff {q : Int}
    (hreg : ∀ p ∈ reg.pids, (reg.measured p).Kept sha256 reg.table reg.world p)
    (hfresh : (fresh.measured q).Kept sha256 fresh.table fresh.world q) :
    AgreesWithFirst reg.chain ((fresh.measured q).procinfo q) ↔ reg.SameProgram sha256 fresh q := by
  have hfind : reg.chain.find? (·.path = ((fresh.measured q).procinfo q).path) =
      (reg.pids.reverse.find? fun p => reg.world.exeLabel p = fresh.world.exeLabel q).map
        fun p => (reg.measured p).procinfo p := by
    rw [Served.chain, List.find?_map]
    refine congrArg _ (List.find?_congr fun p hp => ?_)
    rw [(hreg p (List.mem_reverse.1 hp)).cmdpath, hfresh.cmdpath]
    rfl
  rw [AgreesWithFirst, hfind, Served.SameProgram]
  constructor
  · rintro ⟨r, hr, hpasses⟩
    obtain ⟨p, hp, rfl⟩ := Option.map_eq_some_iff.1 hr
    have hmem : p ∈ reg.pids := List.mem_reverse.1 (List.mem_of_find?_eq_some hp)
    exact ⟨p, hp, (digestPasses_kept_iff (hreg p hmem) hfresh).1 hpasses⟩
  · rintro ⟨p, hp, hsame⟩
    have hmem : p ∈ reg.pids := List.mem_reverse.1 (List.mem_of_find?_eq_some hp)
    exact ⟨_, congrArg _ hp, (digestPasses_kept_iff (hreg p hmem) hfresh).2 hsame⟩

theorem chain_agrees_iff (hreg : ∀ p ∈ reg.pids, (reg.measured p).Kept sha256 reg.table reg.world p)
    (hfresh : ∀ q ∈ fresh.pids, (fresh.measured q).Kept sha256 fresh.table fresh.world q) :
    (∀ p ∈ fresh.chain, AgreesWithFirst reg.chain p) ↔ ∀ q ∈ fresh.pids, reg.SameProgram sha256 fresh q := by
  rw [Served.chain, List.forall_mem_map]
  simp only [List.mem_reverse]
  exact forall₂_congr fun q hq => agreesWithFirst_served_iff hreg (hfresh q hq)

/-- A bound for what is packed of a process. -/
theorem serialOf_length_le {m : Int → Measurement} {p : Int} (h : (m p).Measurable p) :
    (serialOf m p).length ≤ 9 + 8300 * (10 + (m p).paths.length) := by
  have hfit : ∀ pair ∈ basePairs (m p) p ((m p).ppid.getD 0) ++ (m p).paths.map fun pa => mapBstring pa.1.1 pa.2,
      (encodePair pair).length ≤ 8300 := by
    intro pair hpair
    rcases List.mem_append.1 hpair with hbase | hlib
    · exact (basePairs_fit p _ h.cmdpath pair hbase).2
    · obtain ⟨pa, hpa, rfl⟩ := List.mem_map.1 hlib
      exact (mapBstring_fits (h.paths pa hpa)).2
  have hpairs := encodePairs_length_le hfit
  have hlength : (basePairs (m p) p ((m p).ppid.getD 0) ++ (m p).paths.map fun pa => mapBstring pa.1.1 pa.2).length =
      10 + (m p).paths.length := by
    rw [List.length_append, List.length_map]
    rfl
  have hhead := putHead_length_le 5 (widthOf (10 + (m p).paths.length)) (10 + (m p).paths.length)
  rw [serialOf, processMap, encode, List.length_append, hlength]
  rw [hlength] at hpairs
  omega

/-! ### An editor whose library is replaced -/

section

variable (sha256 : Bytes → ByteBuf 32) (libc : Bytes)

/-- An editor, process 20, that a shell, process 10, has started; `libc` is what is in its library. -/
def lifeWorld : World where
  content := fun inode => if inode = 1 then lit "ed" else if inode = 2 then lit "sh"
    else if inode = 3 then libc else []
  dir := fun name => if name = cstr "/bin/ed" then some 1 else if name = cstr "/bin/sh" then some 2
    else if name = cstr "/lib/libc.so" then some 3 else none
  process := fun pid => if pid = 20 then some ⟨10, 1, cstr "/bin/ed", [⟨4096, 8192, cstr "/lib/libc.so", 3⟩]⟩
    else if pid = 10 then some ⟨1, 2, cstr "/bin/sh", []⟩ else none

/-- What is measured of the two. -/
def lifeMeasured (pid : Int) : Measurement :=
  if pid = 20 then
    { measured (cstr "/bin/ed") 10 [(cstr "/lib/libc.so", sha256 libc)] with digest := sha256 (lit "ed") }
  else { measured (cstr "/bin/sh") 1 [] with digest := sha256 (lit "sh") }

/-- The table when the editor has connected. -/
def lifeStart : FpHtable where
  buckets := Function.update (fun _ => []) (Libmeasurement.myhash (fun _ => 0) (exePath 20))
    [⟨keyBuffer (exePath 20) (exePath 20), sha256 (lit "ed")⟩]
  reads := [(exePath 20, some (lit "ed"))]

def lifeMeasure (table : FpHtable) : Checked (List Measurement × FpHtable) :=
  measureProcesses sha256 (fun _ => 0) (lifeWorld libc) allMeasured (lifeMeasured sha256 libc) [20, 10] table

/-- The table when the chain has been measured. -/
def lifeTable : FpHtable :=
  match lifeMeasure sha256 libc (lifeStart sha256) with
  | .ok (_, table) => table
  | .error _ => FpHtable.empty

/-- One library is measured. -/
theorem lifeWorld_libs (table : FpHtable) :
    sha256Libs sha256 (fun _ => 0) (lifeWorld libc) allMeasured 20 table =
      sha256File sha256 (fun _ => 0) table (cstr "/lib/libc.so") (cstr "/proc/20/map_files/1000-2000") (some libc) >>=
        fun (digest, table) => .ok (some (digest.toList.map fun digest => (cstr "/lib/libc.so", digest)), table) := by
  have hpath : trim ((lifeWorld libc).label (cstr "/lib/libc.so") 3) = cstr "/lib/libc.so" := rfl
  have hfile : mapFile 20 ⟨4096, 8192, cstr "/lib/libc.so", 3⟩ = cstr "/proc/20/map_files/1000-2000" := rfl
  have hlines : sha256Libs sha256 (fun _ => 0) (lifeWorld libc) allMeasured 20 table =
      sha256LibsLines sha256 (fun _ => 0) (lifeWorld libc) allMeasured 20 0 [⟨4096, 8192, cstr "/lib/libc.so", 3⟩] []
        table := rfl
  rw [hlines, sha256LibsLines]
  simp only [hpath, hfile]
  refine bind_congr fun x => ?_
  obtain ⟨_ | d, table⟩ := x <;> rfl

theorem lifeMeasure_start :
    lifeMeasure sha256 libc (lifeStart sha256) =
      .ok ([20, 10].map (lifeMeasured sha256 libc), lifeTable sha256 libc) := by
  rw [lifeTable, lifeMeasure, measureProcesses, measureProcess]
  simp only [lifeWorld_libs]
  rfl

/-- Nothing is read again. -/
theorem lifeMeasure_again (libc' : Bytes) :
    lifeMeasure sha256 libc' (lifeTable sha256 libc) =
      .ok ([20, 10].map (lifeMeasured sha256 libc), lifeTable sha256 libc) := by
  rw [lifeTable, lifeMeasure, lifeMeasure, measureProcesses, measureProcess, measureProcesses, measureProcess]
  simp only [lifeWorld_libs]
  rfl

theorem lifeMeasured_measurable : ∀ p ∈ [(20 : Int), 10], (lifeMeasured sha256 libc p).Measurable p := by
  have hcount : ∀ n ∈ [(1 : Int), 0], n + 10 < 2 ^ 31 := by decide
  have hpath : ∀ path ∈ [cstr "/bin/ed", cstr "/bin/sh", cstr "/lib/libc.so"], path.1.length ≤ 4096 := by decide
  simp only [List.forall_mem_cons, List.not_mem_nil, false_implies, implies_true, and_true] at hcount hpath
  intro p hp
  rcases List.mem_pair.1 hp with rfl | rfl
  · refine ⟨by decide, ⟨10, rfl, by decide⟩, rfl, hcount.1, hpath.1, ?_⟩
    intro pa hpa
    rw [List.mem_singleton.1 hpa]
    exact hpath.2.2
  · exact ⟨by decide, ⟨1, rfl, by decide⟩, rfl, hcount.2, hpath.2.1, fun pa hpa => by cases hpa⟩

theorem lifeChain_size_lt : (encode (packedChain (lifeMeasured sha256 libc) [20, 10])).length < 2 ^ 64 := by
  have hmeasurable := lifeMeasured_measurable sha256 libc
  have heditor := serialOf_length_le (hmeasurable 20 (by decide))
  have hshell := serialOf_length_le (hmeasurable 10 (by decide))
  have hpaths : (lifeMeasured sha256 libc 20).paths.length = 1 ∧ (lifeMeasured sha256 libc 10).paths.length = 0 :=
    ⟨rfl, rfl⟩
  have heditorString := (encode_string_length_le (serialOf (lifeMeasured sha256 libc) 20)).1
  have hshellString := (encode_string_length_le (serialOf (lifeMeasured sha256 libc) 10)).1
  have hhead := putHead_length_le 4 (widthOf 2) 2
  have hencode : encode (packedChain (lifeMeasured sha256 libc) [20, 10]) =
      putHead 4 (widthOf 2) 2 ++ (encode (.bytes (serialOf (lifeMeasured sha256 libc) 10)) ++
        (encode (.bytes (serialOf (lifeMeasured sha256 libc) 20)) ++ [])) := rfl
  rw [hencode, List.length_append, List.length_append, List.length_append, List.length_nil]
  omega

theorem lifeMeasured_chain : AncestorChain (lifeMeasured sha256 libc) 20 [20, 10] :=
  .parent rfl (by decide) (.last rfl)

end

/-! ### Registered and asked for -/

section

variable {PKey : Type} {env : PocEnv PKey} {ppol : PicaPolicy}

/-- The run gets the reply of an honest daemon with a TPM that it recognises: what `mycbor_pack_procchain` makes of the
request that was served. -/
structure Answered (sha256 : Bytes → ByteBuf 32) (env : PocEnv PKey) (ppol : PicaPolicy) (pid : Int) (r : Served) :
    Prop where
  policy : PolicyRead env ppol
  reply : ∃ renv daemon key regAtst nonce fuel ppid pica, RsaAttester daemon env.client key regAtst ∧
    MadeBy renv daemon ∧ r.pids.length ≤ fuel ∧
    mycborPackProcchain (fun _ => r.measured) fuel pid ppid = some (.ok pica) ∧ renv.procchain = some pica ∧
    pica.length < 2 ^ 64 ∧ env.random = some nonce ∧ env.reply = some (honestPayload sha256 daemon nonce pica)

theorem Answered.measures (h : Answered sha256 env ppol pid r)
    (hrep : Libmeasurement.Represents sha256 murmurHash3 s.table) (hserves : Serves sha256 murmurHash3 s pid r s') :
    Measures sha256 env ppol r.chain := by
  obtain ⟨renv, daemon, key, regAtst, nonce, fuel, ppid, pica, honest, hmade, hfuel, hpacked, hprocchain, hpica,
    hrandom, hreply⟩ := h.reply
  have hpacks : Packs renv r.measured pid r.pids pica :=
    ⟨hserves.ancestorChain hrep, hserves.measurable, ⟨fuel, ppid, hfuel, hpacked⟩, hprocchain⟩
  exact measures_of_packs hpacks honest hmade hpica h.policy hrandom hreply

/-- The run registers the chain, over the whole of the file. -/
structure Registers (sha256 : Bytes → ByteBuf 32) (env : PocEnv PKey) (ppol : PicaPolicy) (pid : Int) (r : Served)
    (file : Option Bytes) : Prop where
  answered : Answered sha256 env ppol pid r
  fits : Fits r.chain
  writes : ∃ n, env.regCalls = .writes n ∧ confSize r.chain ≤ n
  file : ∃ registry, Holds file registry ∧ registry.size ≤ confSize r.chain

/-- After the registration a chain is granted exactly if its programs are those that were registered and the policy
allows it. -/
theorem Registers.then_request {s₁ s₁' s₂ s₂' : System} {pid₁ pid₂ : Int} {env₁ env₂ : PocEnv PKey}
    {ppol₁ ppol₂ : PicaPolicy} {file : Option Bytes} (h : Registers sha256 env₁ ppol₁ pid₁ reg file)
    (hrep₁ : Libmeasurement.Represents sha256 murmurHash3 s₁.table)
    (hserves₁ : Serves sha256 murmurHash3 s₁ pid₁ reg s₁')
    (hrep₂ : Libmeasurement.Represents sha256 murmurHash3 s₂.table)
    (hserves₂ : Serves sha256 murmurHash3 s₂ pid₂ fresh s₂') (hanswered₂ : Answered sha256 env₂ ppol₂ pid₂ fresh) :
    ∃ results outcome file', runAll (Use.run sha256 murmurHash3) file [.register env₁, .request env₂] =
        .ok (results ++ [.requested outcome], file') ∧
      GrantedBy outcome fresh.chain fun pstmt =>
        (∀ q ∈ fresh.pids, reg.SameProgram sha256 fresh q) ∧ PolicyAllows ppol₂ fresh.chain pstmt := by
  obtain ⟨n, hcalls, hwritten⟩ := h.writes
  obtain ⟨registry, hfile, hsize⟩ := h.file
  have huses : Along Registry.after (Performs sha256) registry ([.register reg.chain] ++ [.request ppol₂ fresh.chain])
      [.register env₁, .request env₂] :=
    .cons (.register (h.answered.measures hrep₁ hserves₁) h.fits hcalls hwritten)
      (.cons (.request (hanswered₂.measures hrep₂ hserves₂)) .nil)
  obtain ⟨results, outcome, file', hrun, hgranted⟩ := uses_request hfile huses
  refine ⟨results, outcome, file', hrun, fun pstmt pinfo ent => ?_⟩
  have hafter : [Deed.register reg.chain].foldl Registry.after registry = some ⟨reg.chain, 0⟩ := by
    rw [List.foldl_cons, List.foldl_nil, Registry.after, Nat.sub_eq_zero_of_le hsize]
  rw [hgranted pstmt pinfo ent, hafter, ← chain_agrees_iff (hserves₁.kept hrep₁) (hserves₂.kept hrep₂)]
  simp only [Registry.Admits, Option.some.injEq, exists_eq_left', true_and]

/-! ### The editor before and after -/

/-- The daemon when the editor has connected. -/
def lifeSystem (libc : Bytes) : System :=
  ⟨lifeWorld libc, lifeStart Sha256.hash, some ⟨20, some (Sha256.hash (lit "ed"))⟩⟩

theorem lifeSystem_reached (libc : Bytes) :
    Reaches Sha256.hash (fun _ => 0) ⟨lifeWorld libc, FpHtable.empty, none⟩ (lifeSystem libc) :=
  .single ⟨[], @SystemStep.accept Sha256.hash (fun _ => 0) ⟨lifeWorld libc, FpHtable.empty, none⟩ 20 allMeasured
    (some (Sha256.hash (lit "ed"), none)) (lifeStart Sha256.hash) rfl⟩

/-- The chain of the editor, as it is measured with one library, in a world with another. -/
def lifeServed (libc libc' : Bytes) : Served :=
  ⟨lifeWorld libc', [20, 10], lifeMeasured Sha256.hash libc, lifeTable Sha256.hash libc⟩

theorem lifeServed_serves {libc libc' : Bytes} {table : FpHtable} {con : Option Connection}
    (hcon : con = some ⟨20, some (Sha256.hash (lit "ed"))⟩)
    (hmeasure : lifeMeasure Sha256.hash libc' table =
      .ok ([20, 10].map (lifeMeasured Sha256.hash libc), lifeTable Sha256.hash libc)) :
    Serves Sha256.hash (fun _ => 0) ⟨lifeWorld libc', table, con⟩ 20 (lifeServed libc libc')
      ⟨lifeWorld libc', lifeTable Sha256.hash libc, con⟩ where
  con := ⟨_, 0, hcon, rfl, @Walk.next (lifeWorld libc') 20 0 10 [10] rfl (by decide) (.last rfl)⟩
  world := rfl
  measures := ⟨allMeasured, lifeMeasured Sha256.hash libc', fun _ _ => ⟨rfl, rfl, rfl, fun _ => rfl⟩, hmeasure⟩
  measurable := lifeMeasured_measurable Sha256.hash libc
  state := rfl

/-- A run of the editor that gets the reply with this chain. -/
def lifeRun (pica : Bytes) : PocEnv Unit :=
  editorRun plainClient "Allow" (honestPayload Sha256.hash plainDaemon (ByteBuf.zero 32) pica)

theorem lifeRun_answered {fuel : Nat} {ppid : Int} {pica : Bytes} (hfuel : r.pids.length ≤ fuel)
    (hpacked : mycborPackProcchain (fun _ => r.measured) fuel pid ppid = some (.ok pica))
    (hpica : pica.length < 2 ^ 64) :
    Answered Sha256.hash (lifeRun pica) (editorPolicy "Allow") pid r where
  policy := editorRun_policyRead plainClient "Allow" _
  reply := ⟨{ Tpmdaemon.workingDaemon with procchain := some pica }, plainDaemon, (), quoteOfPcr10 [], ByteBuf.zero 32,
    fuel, ppid, pica, plain_honest, ⟨editorDaemon_madeBy.quote, rfl⟩, hfuel, hpacked, rfl, hpica, rfl, rfl⟩

/-- A run of the editor that gets what was measured with this library. -/
def lifeUse (libc : Bytes) : PocEnv Unit := lifeRun (encode (packedChain (lifeMeasured Sha256.hash libc) [20, 10]))

theorem lifeUse_answered (libc libc' : Bytes) :
    Answered Sha256.hash (lifeUse libc) (editorPolicy "Allow") 20 (lifeServed libc libc') :=
  lifeRun_answered (Nat.le_refl 2) (mycborPackProcchain_chain (lifeMeasured_chain Sha256.hash libc)
    (lifeMeasured_measurable Sha256.hash libc) (Nat.le_refl 2) 0) (lifeChain_size_lt Sha256.hash libc)

theorem lifeUse_registers :
    Registers Sha256.hash (lifeUse (lit "libc")) (editorPolicy "Allow") 20 (lifeServed (lit "libc") (lit "libc"))
      none where
  answered := lifeUse_answered _ _
  fits := by
    refine ⟨?_, by decide, by decide, by decide⟩
    intro p hp
    obtain ⟨pid, hpid, rfl⟩ := List.mem_map.1 hp
    exact (lifeMeasured_measurable Sha256.hash (lit "libc") pid (List.mem_reverse.1 hpid)).measured
  writes := ⟨4096, rfl, by decide⟩
  file := ⟨none, .absent, Nat.zero_le _⟩

/-- A chain is measured for its registration in one life of the daemon and for a request in another.  It is granted
exactly if the policy allows it and every program of it has a registered one of its name with as many libraries, for
which the files that were read first in the one life have the digests of those that were read first in the other. -/
theorem request_after_restart_iff (sha256 : Bytes → ByteBuf 32) (murmurHash3 : Bytes → UInt32) (w₁ w₂ : World)
    {s₁ s₁' s₂ s₂' : System} {pid₁ pid₂ : Int} {reg fresh : Served} {env₁ env₂ : PocEnv PKey}
    {ppol₁ ppol₂ : PicaPolicy} {file : Option Bytes}
    (hlife₁ : Reaches sha256 murmurHash3 ⟨w₁, FpHtable.empty, none⟩ s₁)
    (hserves₁ : Serves sha256 murmurHash3 s₁ pid₁ reg s₁') (hregisters : Registers sha256 env₁ ppol₁ pid₁ reg file)
    (hlife₂ : Reaches sha256 murmurHash3 ⟨w₂, FpHtable.empty, none⟩ s₂)
    (hserves₂ : Serves sha256 murmurHash3 s₂ pid₂ fresh s₂') (hanswered₂ : Answered sha256 env₂ ppol₂ pid₂ fresh) :
    ∃ results outcome file', runAll (Use.run sha256 murmurHash3) file [.register env₁, .request env₂] =
        .ok (results ++ [.requested outcome], file') ∧
      GrantedBy outcome fresh.chain fun pstmt =>
        (∀ q ∈ fresh.pids, reg.SameProgram sha256 fresh q) ∧ PolicyAllows ppol₂ fresh.chain pstmt :=
  hregisters.then_request (hlife₁.grown Libmeasurement.represents_empty).represents hserves₁
    (hlife₂.grown Libmeasurement.represents_empty).represents hserves₂ hanswered₂

/-- The daemon is started again after the library of the editor was replaced. -/
theorem request_after_restart_editor :
    ∃ results outcome file', runAll (Use.run Sha256.hash fun _ => 0) none
        [.register (lifeUse (lit "libc")), .request (lifeUse (lit "evil"))] =
          .ok (results ++ [.requested outcome], file') ∧
      GrantedBy outcome (lifeServed (lit "evil") (lit "evil")).chain fun pstmt =>
        (∀ q ∈ [(20 : Int), 10], (lifeServed (lit "libc") (lit "libc")).SameProgram Sha256.hash
            (lifeServed (lit "evil") (lit "evil")) q) ∧
          PolicyAllows (editorPolicy "Allow") (lifeServed (lit "evil") (lit "evil")).chain pstmt :=
  request_after_restart_iff Sha256.hash (fun _ => 0) _ _ (lifeSystem_reached (lit "libc"))
    (lifeServed_serves rfl (lifeMeasure_start _ _)) lifeUse_registers (lifeSystem_reached (lit "evil"))
    (lifeServed_serves rfl (lifeMeasure_start _ _)) (lifeUse_answered _ _)

/-- Within one life of the daemon the registered process of the name needs to have as many libraries, and an executable
that was read first for its number with the digest of the one that was read first for the number of the other. -/
def Served.SameExecutable (sha256 : Bytes → ByteBuf 32) (reg fresh : Served) (q : Int) : Prop :=
  ∃ p, (reg.pids.reverse.find? fun p => reg.world.exeLabel p = fresh.world.exeLabel q) = some p ∧
    (reg.measured p).paths.length = (fresh.measured q).paths.length ∧
    fresh.table.firstDigest sha256 (exePath p) = fresh.table.firstDigest sha256 (exePath q)

/-- What the registration has read is not read again. -/
theorem sameProgram_grown_iff {q : Int} (hreg : ∀ p ∈ reg.pids, (reg.measured p).Kept sha256 reg.table reg.world p)
    (hgrown : Grown sha256 murmurHash3 reg.table fresh.table) :
    reg.SameProgram sha256 fresh q ↔ reg.SameExecutable sha256 fresh q := by
  have hsame : ∀ {key digest}, KeptFor sha256 reg.table key digest →
      fresh.table.firstDigest sha256 key = reg.table.firstDigest sha256 key := by
    intro key digest hkept
    rw [keptFor_iff.1 hkept, keptFor_iff.1 (hkept.of_grown hgrown)]
  constructor
  · rintro ⟨p, hp, hcount, hdigest, -⟩
    have hmem : p ∈ reg.pids := List.mem_reverse.1 (List.mem_of_find?_eq_some hp)
    exact ⟨p, hp, hcount, (hsame (hreg p hmem).digest).trans hdigest⟩
  · rintro ⟨p, hp, hcount, hdigest⟩
    have hmem : p ∈ reg.pids := List.mem_reverse.1 (List.mem_of_find?_eq_some hp)
    refine ⟨p, hp, hcount, (hsame (hreg p hmem).digest).symm.trans hdigest, ?_⟩
    intro path hpath _
    obtain ⟨pa, hpa, rfl⟩ := List.mem_map.1 hpath
    exact (hsame ((hreg p hmem).libs pa hpa)).symm

/-- Both requests are served in one life of the daemon, with anything in between.  The chain is granted exactly if the
policy allows it and every program of it has a registered one of its name with as many libraries, and the same digest
of what was read first for the number of the process.  Which libraries they are and what is in them does not matter, nor
what a process executes whose number was measured before. -/
theorem request_in_one_life_iff (sha256 : Bytes → ByteBuf 32) (murmurHash3 : Bytes → UInt32) (w : World)
    {s₁ s₁' s₂ s₂' : System} {pid₁ pid₂ : Int} {reg fresh : Served} {env₁ env₂ : PocEnv PKey}
    {ppol₁ ppol₂ : PicaPolicy} {file : Option Bytes}
    (hlife : Reaches sha256 murmurHash3 ⟨w, FpHtable.empty, none⟩ s₁)
    (hserves₁ : Serves sha256 murmurHash3 s₁ pid₁ reg s₁') (hregisters : Registers sha256 env₁ ppol₁ pid₁ reg file)
    (hlater : Reaches sha256 murmurHash3 s₁' s₂)
    (hserves₂ : Serves sha256 murmurHash3 s₂ pid₂ fresh s₂') (hanswered₂ : Answered sha256 env₂ ppol₂ pid₂ fresh) :
    ∃ results outcome file', runAll (Use.run sha256 murmurHash3) file [.register env₁, .request env₂] =
        .ok (results ++ [.requested outcome], file') ∧
      GrantedBy outcome fresh.chain fun pstmt =>
        (∀ q ∈ fresh.pids, reg.SameExecutable sha256 fresh q) ∧ PolicyAllows ppol₂ fresh.chain pstmt := by
  have hrep₁ := (hlife.grown Libmeasurement.represents_empty).represents
  have hgrown₁ : Grown sha256 murmurHash3 s₁.table reg.table := by
    have hgrown := hserves₁.reaches.grown hrep₁
    rw [hserves₁.state] at hgrown
    exact hgrown
  have hgrown : Grown sha256 murmurHash3 reg.table fresh.table := by
    have hlater' : Reaches sha256 murmurHash3 s₁' s₂' := hlater.trans hserves₂.reaches
    rw [hserves₁.state, hserves₂.state] at hlater'
    exact hlater'.grown hgrown₁.represents
  have hrep₂ : Libmeasurement.Represents sha256 murmurHash3 s₂.table := by
    rw [hserves₁.state] at hlater
    exact (hlater.grown hgrown₁.represents).represents
  obtain ⟨results, outcome, file', hrun, hgranted⟩ :=
    hregisters.then_request hrep₁ hserves₁ hrep₂ hserves₂ hanswered₂
  refine ⟨results, outcome, file', hrun, fun pstmt pinfo ent => ?_⟩
  have hsame : (∀ q ∈ fresh.pids, reg.SameProgram sha256 fresh q) ↔
      ∀ q ∈ fresh.pids, reg.SameExecutable sha256 fresh q :=
    forall₂_congr fun _ _ => sameProgram_grown_iff (hserves₁.kept hrep₁) hgrown
  rw [hgranted pstmt pinfo ent, hsame]

theorem lifeWorld_replaced (libc libc' : Bytes) : (lifeWorld libc).setContent 3 libc' = lifeWorld libc' := by
  have hcontent : Function.update (lifeWorld libc).content 3 libc' = (lifeWorld libc').content := by
    funext inode
    by_cases h : inode = 3
    · subst h
      rw [Function.update_self]
      rfl
    · rw [Function.update_of_ne h]
      simp only [lifeWorld, if_neg h]
  rw [World.setContent, hcontent]
  rfl

theorem lifeSystem_replaced : Reaches Sha256.hash (fun _ => 0)
    ⟨lifeWorld (lit "libc"), lifeTable Sha256.hash (lit "libc"), some ⟨20, some (Sha256.hash (lit "ed"))⟩⟩
    ⟨lifeWorld (lit "evil"), lifeTable Sha256.hash (lit "libc"), some ⟨20, some (Sha256.hash (lit "ed"))⟩⟩ := by
  refine .single ⟨[], ?_⟩
  rw [← lifeWorld_replaced (lit "libc") (lit "evil")]
  refine .between (.write ?_)
  intro pid p hp
  simp only [lifeWorld] at hp
  split_ifs at hp
  · cases hp
    decide
  · cases hp
    decide

/-- The library of the editor is replaced while the daemon goes on. -/
theorem request_in_one_life_editor :
    ∃ results outcome file', runAll (Use.run Sha256.hash fun _ => 0) none
        [.register (lifeUse (lit "libc")), .request (lifeUse (lit "libc"))] =
          .ok (results ++ [.requested outcome], file') ∧
      GrantedBy outcome (lifeServed (lit "libc") (lit "evil")).chain fun pstmt =>
        (∀ q ∈ [(20 : Int), 10], (lifeServed (lit "libc") (lit "libc")).SameExecutable Sha256.hash
            (lifeServed (lit "libc") (lit "evil")) q) ∧
          PolicyAllows (editorPolicy "Allow") (lifeServed (lit "libc") (lit "evil")).chain pstmt :=
  request_in_one_life_iff Sha256.hash (fun _ => 0) _ (lifeSystem_reached (lit "libc"))
    (lifeServed_serves rfl (lifeMeasure_start _ _)) lifeUse_registers lifeSystem_replaced
    (lifeServed_serves rfl (lifeMeasure_again _ _ _)) (lifeUse_answered _ _)

end

end PortableTlsRa
