import PortableTlsRa.DigestCache
import PortableTlsRa.Lib.Sha256
import Mathlib.Data.List.DropRight

/-!
# Which content a reported digest is of

The daemon measures the executable of a process under the key `/proc/<pid>/exe` and its libraries under their names,
while processes fork, execute and exit, files are replaced and numbers of processes are used again (`WorldStep`).  In
every run a digest is that of the content which the process has mapped at the time exactly when the content that was
read first for the key has that digest too (`run_fresh_iff`): the cache is never asked whether a key still means the
same file.
-/

namespace PortableTlsRa

open CSem

/-! ### Processes and files -/

/-- A line of `/proc/<pid>/maps`; the name is empty or in brackets where no file is mapped. -/
structure Mapping where
  start : Nat
  stop : Nat
  name : CString
  inode : Nat

structure Process where
  ppid : Int
  exe : Nat
  exeName : CString
  maps : List Mapping

/-- The content of the inodes, the names that lead to them, and the processes. -/
structure World where
  content : Nat → Bytes
  dir : CString → Option Nat
  process : Int → Option Process

def Mapping.Anonymous (m : Mapping) : Prop := m.name.1 = [] ∨ m.name.1.head? = some 0x5b

namespace World

def setProcess (w : World) (pid : Int) (p : Process) : World :=
  { w with process := Function.update w.process pid (some p) }

/-- The process is gone, and process 1 is the parent of its children. -/
def removeProcess (w : World) (pid : Int) : World :=
  { w with process := fun other =>
      if other = pid then none else (w.process other).map fun p => if p.ppid = pid then { p with ppid := 1 } else p }

def setContent (w : World) (inode : Nat) (content : Bytes) : World :=
  { w with content := Function.update w.content inode content }

def link (w : World) (path : CString) (inode : Nat) : World :=
  { w with dir := Function.update w.dir path (some inode) }

def InUse (w : World) (inode : Nat) : Prop :=
  (∃ name, w.dir name = some inode) ∨
    ∃ pid p, w.process pid = some p ∧ (p.exe = inode ∨ ∃ m ∈ p.maps, m.inode = inode)

end World

/-- What happens between the requests.  A file that is executed cannot be written, and one that is replaced stays what
it was for the processes that have mapped it. -/
inductive WorldStep : World → World → Prop where
  | fork {w : World} {parent child : Int} {p : Process} : w.process parent = some p → w.process child = none →
      WorldStep w (w.setProcess child { p with ppid := parent })
  | exec {w : World} {pid : Int} {p : Process} {path : CString} {inode : Nat} {maps : List Mapping} :
      w.process pid = some p → w.dir path = some inode →
      (∀ m ∈ maps, m.Anonymous ∨ w.dir m.name = some m.inode) →
      WorldStep w (w.setProcess pid { p with exe := inode, exeName := path, maps := maps })
  | exit {w : World} {pid : Int} : WorldStep w (w.removeProcess pid)
  | mmap {w : World} {pid : Int} {p : Process} {m : Mapping} {before after : List Mapping} :
      w.process pid = some p → p.maps = before ++ after → w.dir m.name = some m.inode →
      WorldStep w (w.setProcess pid { p with maps := before ++ m :: after })
  | replace {w : World} {path : CString} {inode : Nat} {content : Bytes} : ¬ w.InUse inode →
      WorldStep w ((w.setContent inode content).link path inode)
  | write {w : World} {inode : Nat} {content : Bytes} : (∀ pid p, w.process pid = some p → p.exe ≠ inode) →
      WorldStep w (w.setContent inode content)

/-- The name of a file as the kernel shows it. -/
def World.label (w : World) (name : CString) (inode : Nat) : CString :=
  if w.dir name = some inode then name else untilNul (name.1 ++ lit " (deleted)")

namespace Libmeasurement

/-! ### Measuring a process -/

def isspace (c : UInt8) : Bool := c = 0x20 || (0x09 ≤ c && c ≤ 0x0d)

def trim (s : CString) : CString := untilNul ((s.1.dropWhile isspace).rdropWhile isspace)

/-- `strstr(path, ".so") != NULL`. -/
def isSharedLibrary (path : CString) : Bool := lit ".so" <:+: path.1

def pathExists (head : List (CString × ByteBuf 32)) (path : CString) : Bool := head.any fun p => p.1 = path

/-- The digits of a number. -/
def digits (base n : Nat) : Bytes := (Nat.toDigits base n).map fun c => UInt8.ofNat c.toNat

def decimal (n : Int) : Bytes := if n < 0 then 0x2d :: digits 10 n.natAbs else digits 10 n.natAbs

/-- `/proc/<pid>/exe`. -/
def exePath (pid : Int) : CString := untilNul (lit "/proc/" ++ decimal pid ++ lit "/exe")

/-- `/proc/<pid>/map_files/<start>-<end>`. -/
def mapFile (pid : Int) (m : Mapping) : CString :=
  untilNul (lit "/proc/" ++ decimal pid ++ lit "/map_files/" ++ digits 16 m.start ++ lit "-" ++ digits 16 m.stop)

/-- Which calls of one request succeed: reading and hashing the executable of a process, reading its link, opening its
maps, and reading and hashing the file of a line and allocating the entry for it. -/
structure MeasureCalls where
  exe : Int → Bool
  readlink : Int → Bool
  maps : Int → Bool
  line : Int → Nat → Bool
  entry : Int → Nat → Bool

variable (sha256 : Bytes → ByteBuf 32) (murmurHash3 : Bytes → UInt32) (w : World) (calls : MeasureCalls)

/-- Returns the digest and the path that is written to `cmdpath`, if the code is 0. -/
def sha256Pid (pid : Int) (cmdpath : Bool) (table : FpHtable) :
    Checked (Option (ByteBuf 32 × Option CString) × FpHtable) := do
  let path := exePath pid
  let file := if calls.exe pid then (w.process pid).map fun p => w.content p.exe else none
  let (digest, table) ← sha256File sha256 murmurHash3 table path path file
  let link := if cmdpath && calls.readlink pid then (w.process pid).map fun p => w.label p.exeName p.exe else none
  return (digest.map fun digest => (digest, link), table)

/-- The loop of `sha256_libs`, from line `i` on. -/
def sha256LibsLines (pid : Int) : Nat → List Mapping → List (CString × ByteBuf 32) → FpHtable →
    Checked (Option (List (CString × ByteBuf 32)) × FpHtable)
  | _, [], head, table => .ok (some head, table)
  | i, m :: maps, head, table => do
    let path := trim (w.label m.name m.inode)
    if path.1 = [] ∨ path.1.head? = some 0x5b then sha256LibsLines pid (i + 1) maps head table
    else if !isSharedLibrary path then sha256LibsLines pid (i + 1) maps head table
    else if pathExists head path then sha256LibsLines pid (i + 1) maps head table
    else
      let file := if calls.line pid i then some (w.content m.inode) else none
      match ← sha256File sha256 murmurHash3 table path (mapFile pid m) file with
      | (none, table) => sha256LibsLines pid (i + 1) maps head table
      | (some digest, table) =>
        if calls.entry pid i then sha256LibsLines pid (i + 1) maps ((path, digest) :: head) table
        else return (none, table)

/-- Returns the list of the libraries, unless the code is -1. -/
def sha256Libs (pid : Int) (table : FpHtable) : Checked (Option (List (CString × ByteBuf 32)) × FpHtable) :=
  match w.process pid with
  | some p => if calls.maps pid then sha256LibsLines sha256 murmurHash3 w calls pid 0 p.maps [] table
    else .ok (none, table)
  | none => .ok (none, table)

end Libmeasurement

open Libmeasurement

/-! ### The requests -/

inductive Measured where
  | executable
  | library (path : CString)

/-- A digest in an answer. -/
structure Report where
  pid : Int
  what : Measured
  digest : ByteBuf 32

/-- The key that the digest is kept under. -/
def Report.key (r : Report) : CString :=
  match r.what with
  | .executable => exePath r.pid
  | .library path => path

section

variable (sha256 : Bytes → ByteBuf 32) (murmurHash3 : Bytes → UInt32) (w : World) (calls : MeasureCalls)

/-- The measuring calls of `mycbor_sha256_binaries`. -/
def measureBinaries (pid : Int) (table : FpHtable) : Checked (List Report × FpHtable) := do
  let (exe, table) ← sha256Pid sha256 murmurHash3 w calls pid true table
  let (libs, table) ← sha256Libs sha256 murmurHash3 w calls pid table
  return ((exe.map fun digest => ⟨pid, .executable, digest.1⟩).toList ++
    (libs.getD []).map fun pa => ⟨pid, .library pa.1, pa.2⟩, table)

/-- The processes of a chain are measured one after the other. -/
def measureChain : List Int → FpHtable → Checked (List Report × FpHtable)
  | [], table => .ok ([], table)
  | pid :: pids, table => do
    let (reports, table) ← measureBinaries sha256 murmurHash3 w calls pid table
    let (others, table) ← measureChain pids table
    return (reports ++ others, table)

end

/-- The processes that the walk of `mycbor_pack_procchain` comes to, where it ends; `ppid` is what the variable of that
name holds. -/
inductive Walk (w : World) : Int → Int → List Int → Prop where
  | last {pid ppid : Int} : ((w.process pid).map (·.ppid)).getD ppid = 1 → Walk w pid ppid [pid]
  | next {pid ppid parent : Int} {pids : List Int} : ((w.process pid).map (·.ppid)).getD ppid = parent →
      parent ≠ 1 → Walk w parent parent pids → Walk w pid ppid (pid :: pids)

/-- The connection that the daemon serves, with what `sha256_pid` has given when it was accepted. -/
structure Connection where
  pid : Int
  apphash : Option (ByteBuf 32)

structure System where
  world : World
  table : FpHtable
  con : Option Connection

/-- A turn of the daemon, with the digests that it reports, or what happens between two turns. -/
inductive SystemStep (sha256 : Bytes → ByteBuf 32) (murmurHash3 : Bytes → UInt32) :
    System → List Report → System → Prop where
  | between {s : System} {w : World} : WorldStep s.world w →
      SystemStep sha256 murmurHash3 s [] { s with world := w }
  | accept {s : System} {pid : Int} {calls : MeasureCalls} {measured : Option (ByteBuf 32 × Option CString)}
      {table : FpHtable} : sha256Pid sha256 murmurHash3 s.world calls pid false s.table = .ok (measured, table) →
      SystemStep sha256 murmurHash3 s [] { s with table := table, con := some ⟨pid, measured.map (·.1)⟩ }
  | attest {s : System} {pid : Int} {digest : ByteBuf 32} : s.con = some ⟨pid, some digest⟩ →
      SystemStep sha256 murmurHash3 s [⟨pid, .executable, digest⟩] s
  | pica {s : System} {con : Connection} {ppid : Int} {pids : List Int} {calls : MeasureCalls}
      {reports : List Report} {table : FpHtable} : s.con = some con → Walk s.world con.pid ppid pids →
      measureChain sha256 murmurHash3 s.world calls pids s.table = .ok (reports, table) →
      SystemStep sha256 murmurHash3 s reports { s with table := table }

/-- A step of a run: what was mapped, what was reported, and what had been read by then. -/
structure Turned where
  world : World
  reports : List Report
  table : FpHtable

/-- A run of the daemon from its start. -/
inductive Run (sha256 : Bytes → ByteBuf 32) (murmurHash3 : Bytes → UInt32) : List Turned → System → Prop where
  | start (w : World) : Run sha256 murmurHash3 [] ⟨w, FpHtable.empty, none⟩
  | step {turns : List Turned} {s s' : System} {reports : List Report} : Run sha256 murmurHash3 turns s →
      SystemStep sha256 murmurHash3 s reports s' →
      Run sha256 murmurHash3 (turns ++ [⟨s.world, reports, s'.table⟩]) s'

/-- The process has the content mapped that the report is about. -/
def World.Maps (w : World) (r : Report) (content : Bytes) : Prop :=
  ∃ p, w.process r.pid = some p ∧
    match r.what with
    | .executable => content = w.content p.exe
    | .library path => ∃ m ∈ p.maps, trim (w.label m.name m.inode) = path ∧ content = w.content m.inode

/-- The digest is that of content which the process has mapped. -/
def Report.Fresh (sha256 : Bytes → ByteBuf 32) (w : World) (r : Report) : Prop :=
  ∃ content, w.Maps r content ∧ r.digest = sha256 content

/-- What was read for the key first, in this request or before, has the digest of content which the process has mapped;
where nothing could be read, the digest of that content is the one of the cleared entry. -/
def Report.ReadAsMapped (sha256 : Bytes → ByteBuf 32) (w : World) (table : FpHtable) (r : Report) : Prop :=
  ∃ content, w.Maps r content ∧ ∃ read, table.firstRead r.key = some read ∧ storedDigest sha256 read = sha256 content

/-! ### Every report is kept for its key -/

variable {sha256 : Bytes → ByteBuf 32} {murmurHash3 : Bytes → UInt32}

theorem sha256Pid_kept {w : World} {calls : MeasureCalls} {pid : Int} {cmdpath : Bool} {table table' : FpHtable}
    {measured : Option (ByteBuf 32 × Option CString)} (hrep : Represents sha256 murmurHash3 table)
    (h : sha256Pid sha256 murmurHash3 w calls pid cmdpath table = .ok (measured, table')) :
    Grown sha256 murmurHash3 table table' ∧
      ∀ d, measured.map (·.1) = some d → KeptFor sha256 table' (exePath pid) d := by
  obtain ⟨⟨digest, table₁⟩, hfile, hret⟩ := bind_eq_ok.1 h
  cases hret
  obtain ⟨hgrown, hkept⟩ := sha256File_represents hrep hfile
  refine ⟨hgrown, ?_⟩
  intro d hd
  apply hkept
  rw [← hd]
  cases digest <;> rfl

theorem sha256LibsLines_kept {w : World} {calls : MeasureCalls} {pid : Int} {i : Nat} {maps : List Mapping}
    {head : List (CString × ByteBuf 32)} {table table' : FpHtable} {libs : Option (List (CString × ByteBuf 32))}
    (hrep : Represents sha256 murmurHash3 table) (hhead : ∀ pa ∈ head, KeptFor sha256 table pa.1 pa.2)
    (h : sha256LibsLines sha256 murmurHash3 w calls pid i maps head table = .ok (libs, table')) :
    Grown sha256 murmurHash3 table table' ∧ ∀ pa ∈ libs.getD [], KeptFor sha256 table' pa.1 pa.2 := by
  induction maps generalizing i head table with
  | nil =>
    cases h
    exact ⟨.refl hrep, hhead⟩
  | cons m maps ih =>
    simp only [sha256LibsLines] at h
    by_cases hname : (trim (w.label m.name m.inode)).1 = [] ∨ (trim (w.label m.name m.inode)).1.head? = some 0x5b
    · rw [if_pos hname] at h
      exact ih hrep hhead h
    rw [if_neg hname] at h
    by_cases hshared : (!isSharedLibrary (trim (w.label m.name m.inode))) = true
    · rw [if_pos hshared] at h
      exact ih hrep hhead h
    rw [if_neg hshared] at h
    by_cases hexists : pathExists head (trim (w.label m.name m.inode)) = true
    · rw [if_pos hexists] at h
      exact ih hrep hhead h
    · rw [if_neg hexists] at h
      obtain ⟨⟨digest, table₁⟩, hfile, hrest⟩ := bind_eq_ok.1 h
      obtain ⟨hgrown, hkept⟩ := sha256File_represents hrep hfile
      have hhead₁ : ∀ pa ∈ head, KeptFor sha256 table₁ pa.1 pa.2 := fun pa hpa => (hhead pa hpa).of_grown hgrown
      cases digest with
      | none =>
        obtain ⟨hgrown', hlibs⟩ := ih hgrown.represents hhead₁ hrest
        exact ⟨hgrown.trans hgrown', hlibs⟩
      | some d =>
        dsimp only at hrest
        by_cases hentry : calls.entry pid i
        · rw [if_pos hentry] at hrest
          have hpush : ∀ pa ∈ (trim (w.label m.name m.inode), d) :: head, KeptFor sha256 table₁ pa.1 pa.2 := by
            rw [List.forall_mem_cons]
            exact ⟨hkept d rfl, hhead₁⟩
          obtain ⟨hgrown', hlibs⟩ := ih hgrown.represents hpush hrest
          exact ⟨hgrown.trans hgrown', hlibs⟩
        · rw [if_neg hentry] at hrest
          cases hrest
          exact ⟨hgrown, fun pa hpa => by cases hpa⟩

theorem sha256Libs_kept {w : World} {calls : MeasureCalls} {pid : Int} {table table' : FpHtable}
    {libs : Option (List (CString × ByteBuf 32))} (hrep : Represents sha256 murmurHash3 table)
    (h : sha256Libs sha256 murmurHash3 w calls pid table = .ok (libs, table')) :
    Grown sha256 murmurHash3 table table' ∧ ∀ pa ∈ libs.getD [], KeptFor sha256 table' pa.1 pa.2 := by
  have hnone : libs = none → table' = table →
      Grown sha256 murmurHash3 table table' ∧ ∀ pa ∈ libs.getD [], KeptFor sha256 table' pa.1 pa.2 := by
    rintro rfl rfl
    exact ⟨.refl hrep, fun pa hpa => by cases hpa⟩
  unfold sha256Libs at h
  cases hprocess : w.process pid with
  | none =>
    rw [hprocess] at h
    cases h
    exact hnone rfl rfl
  | some p =>
    rw [hprocess] at h
    dsimp only at h
    by_cases hmaps : calls.maps pid
    · rw [if_pos hmaps] at h
      exact sha256LibsLines_kept hrep (fun pa hpa => by cases hpa) h
    · rw [if_neg hmaps] at h
      cases h
      exact hnone rfl rfl

theorem measureBinaries_kept {w : World} {calls : MeasureCalls} {pid : Int} {table table' : FpHtable}
    {reports : List Report} (hrep : Represents sha256 murmurHash3 table)
    (h : measureBinaries sha256 murmurHash3 w calls pid table = .ok (reports, table')) :
    Grown sha256 murmurHash3 table table' ∧ ∀ r ∈ reports, KeptFor sha256 table' r.key r.digest := by
  obtain ⟨⟨exe, table₁⟩, hexe, hrest⟩ := bind_eq_ok.1 h
  obtain ⟨⟨libs, table₂⟩, hlibs, hret⟩ := bind_eq_ok.1 hrest
  cases hret
  obtain ⟨hgrown, hkept⟩ := sha256Pid_kept hrep hexe
  obtain ⟨hgrown', hkept'⟩ := sha256Libs_kept hgrown.represents hlibs
  refine ⟨hgrown.trans hgrown', ?_⟩
  intro r hr
  rcases List.mem_append.1 hr with hr | hr
  · obtain ⟨digest, hdigest, rfl⟩ := Option.map_eq_some_iff.1 (Option.mem_toList.1 hr)
    exact (hkept digest.1 (by rw [hdigest]; rfl)).of_grown hgrown'
  · obtain ⟨pa, hpa, rfl⟩ := List.mem_map.1 hr
    exact hkept' pa hpa

theorem measureChain_kept {w : World} {calls : MeasureCalls} {pids : List Int} {table table' : FpHtable}
    {reports : List Report} (hrep : Represents sha256 murmurHash3 table)
    (h : measureChain sha256 murmurHash3 w calls pids table = .ok (reports, table')) :
    Grown sha256 murmurHash3 table table' ∧ ∀ r ∈ reports, KeptFor sha256 table' r.key r.digest := by
  induction pids generalizing table reports with
  | nil =>
    cases h
    exact ⟨.refl hrep, fun r hr => by cases hr⟩
  | cons pid pids ih =>
    rw [measureChain] at h
    obtain ⟨⟨first, table₁⟩, hfirst, hrest⟩ := bind_eq_ok.1 h
    obtain ⟨⟨others, table₂⟩, hothers, hret⟩ := bind_eq_ok.1 hrest
    cases hret
    obtain ⟨hgrown, hkept⟩ := measureBinaries_kept hrep hfirst
    obtain ⟨hgrown', hkept'⟩ := ih hgrown.represents hothers
    refine ⟨hgrown.trans hgrown', ?_⟩
    intro r hr
    rcases List.mem_append.1 hr with hr | hr
    · exact (hkept r hr).of_grown hgrown'
    · exact hkept' r hr

/-- What holds of the daemon between two turns: the table represents the reads, and the hash of the application is kept
for the process of the connection. -/
structure System.Invariant (sha256 : Bytes → ByteBuf 32) (murmurHash3 : Bytes → UInt32) (s : System) : Prop where
  represents : Represents sha256 murmurHash3 s.table
  con : ∀ pid digest, s.con = some ⟨pid, some digest⟩ → KeptFor sha256 s.table (exePath pid) digest

/-- One step keeps the invariant and reports what is kept. -/
theorem systemStep_kept {s s' : System} {reports : List Report} (hs : s.Invariant sha256 murmurHash3)
    (h : SystemStep sha256 murmurHash3 s reports s') :
    s'.Invariant sha256 murmurHash3 ∧ ∀ r ∈ reports, KeptFor sha256 s'.table r.key r.digest := by
  obtain ⟨hrep, hcon⟩ := hs
  cases h with
  | between => exact ⟨⟨hrep, hcon⟩, fun r hr => by cases hr⟩
  | accept hpid =>
    obtain ⟨hgrown, hkept⟩ := sha256Pid_kept hrep hpid
    refine ⟨⟨hgrown.represents, ?_⟩, fun r hr => by cases hr⟩
    intro pid digest heq
    obtain ⟨rfl, hdigest⟩ := Connection.mk.inj (Option.some.inj heq)
    exact hkept digest hdigest
  | attest heq =>
    refine ⟨⟨hrep, hcon⟩, ?_⟩
    intro r hr
    rw [List.mem_singleton.1 hr]
    exact hcon _ _ heq
  | pica hsome hwalk hchain =>
    obtain ⟨hgrown, hkept⟩ := measureChain_kept hrep hchain
    exact ⟨⟨hgrown.represents, fun pid digest heq => (hcon pid digest heq).of_grown hgrown⟩, hkept⟩

/-- In a run every report is kept for its key. -/
theorem run_kept {turns : List Turned} {s : System} (h : Run sha256 murmurHash3 turns s) :
    s.Invariant sha256 murmurHash3 ∧ ∀ t ∈ turns, ∀ r ∈ t.reports, KeptFor sha256 t.table r.key r.digest := by
  induction h with
  | start w => exact ⟨⟨represents_empty, fun pid digest heq => by cases heq⟩, fun t ht => by cases ht⟩
  | step _ hstep ih =>
    obtain ⟨hs, hturns⟩ := ih
    obtain ⟨hs', hkept⟩ := systemStep_kept hs hstep
    refine ⟨hs', ?_⟩
    intro t ht
    rcases List.mem_append.1 ht with ht | ht
    · exact hturns t ht
    · rw [List.mem_singleton.1 ht]
      exact hkept

/-! ### Which reports are fresh -/

theorem Report.fresh_iff {w : World} {table : FpHtable} {r : Report} (hkept : KeptFor sha256 table r.key r.digest) :
    r.Fresh sha256 w ↔ r.ReadAsMapped sha256 w table := by
  obtain ⟨read, hread, hdigest⟩ := hkept
  constructor
  · intro ⟨content, hmaps, hfresh⟩
    exact ⟨content, hmaps, read, hread, hdigest.symm.trans hfresh⟩
  · intro ⟨content, hmaps, read', hread', hsame⟩
    rw [hread] at hread'
    cases hread'
    exact ⟨content, hmaps, hdigest.trans hsame⟩

/-- The digests that a run reports are those of content that the processes have mapped at the time, exactly where what
was read first for their keys has the digest of such content. -/
theorem run_fresh_iff {turns : List Turned} {s : System} (h : Run sha256 murmurHash3 turns s) :
    (∀ t ∈ turns, ∀ r ∈ t.reports, r.Fresh sha256 t.world) ↔
      ∀ t ∈ turns, ∀ r ∈ t.reports, r.ReadAsMapped sha256 t.world t.table := by
  obtain ⟨-, hkept⟩ := run_kept h
  constructor
  · intro hfresh t ht r hr
    exact (Report.fresh_iff (hkept t ht r hr)).1 (hfresh t ht r hr)
  · intro hread t ht r hr
    exact (Report.fresh_iff (hkept t ht r hr)).2 (hread t ht r hr)

/-- Every digest that is reported in any run is that of content which the process has mapped at the time. -/
def EveryReportFresh (sha256 : Bytes → ByteBuf 32) (murmurHash3 : Bytes → UInt32) : Prop :=
  ∀ turns s, Run sha256 murmurHash3 turns s → ∀ t ∈ turns, ∀ r ∈ t.reports, r.Fresh sha256 t.world

/-! ### A process that executes another file -/

def editorProcess : Process := ⟨1, 1, cstr "/bin/ed", []⟩

def editorWorld : World where
  content := fun inode => if inode = 1 then lit "ed" else lit "sh"
  dir := fun name => if name = cstr "/bin/ed" then some 1 else if name = cstr "/bin/sh" then some 2 else none
  process := fun pid => if pid = 20 then some editorProcess else none

def allMeasured : MeasureCalls := ⟨fun _ => true, fun _ => true, fun _ => true, fun _ _ => true, fun _ _ => true⟩

/-- The table after the editor has been measured. -/
def measuredEditor (sha256 : Bytes → ByteBuf 32) (murmurHash3 : Bytes → UInt32) : FpHtable :=
  ⟨Function.update (fun _ => []) (myhash murmurHash3 (exePath 20))
    [⟨keyBuffer (exePath 20) (exePath 20), sha256 (lit "ed")⟩], [(exePath 20, some (lit "ed"))]⟩

theorem editor_measured (sha256 : Bytes → ByteBuf 32) (murmurHash3 : Bytes → UInt32) :
    sha256Pid sha256 murmurHash3 editorWorld allMeasured 20 false FpHtable.empty =
      .ok (some (sha256 (lit "ed"), none), measuredEditor sha256 murmurHash3) := rfl

/-- The daemon while it serves the editor. -/
def editorSystem (sha256 : Bytes → ByteBuf 32) (murmurHash3 : Bytes → UInt32) : System :=
  ⟨editorWorld, measuredEditor sha256 murmurHash3, some ⟨20, some (sha256 (lit "ed"))⟩⟩

theorem editor_run (sha256 : Bytes → ByteBuf 32) (murmurHash3 : Bytes → UInt32) :
    Run sha256 murmurHash3 [⟨editorWorld, [], measuredEditor sha256 murmurHash3⟩] (editorSystem sha256 murmurHash3) :=
  .step (.start editorWorld) (.accept (editor_measured sha256 murmurHash3))

/-- The digest of the editor is reported while it runs. -/
theorem run_fresh_editor :
    (Report.mk 20 .executable (Sha256.hash (lit "ed"))).Fresh Sha256.hash editorWorld := by
  have hrun := Run.step (editor_run Sha256.hash fun _ => 0) (.attest rfl)
  refine (run_fresh_iff hrun).2 ?_ _ (List.mem_append_right _ (List.mem_singleton.2 rfl)) _ (List.mem_singleton.2 rfl)
  intro t ht r hr
  rcases List.mem_append.1 ht with ht | ht
  · rw [List.mem_singleton.1 ht] at hr
    cases hr
  · rw [List.mem_singleton.1 ht] at hr ⊢
    rw [List.mem_singleton.1 hr]
    exact ⟨lit "ed", ⟨editorProcess, rfl, rfl⟩, some (lit "ed"), rfl, rfl⟩

/-- The process executes the shell. -/
def shellWorld : World := editorWorld.setProcess 20 ⟨1, 2, cstr "/bin/sh", []⟩

/-- The process is measured as the editor although it executes the shell. -/
theorem run_reports_stale : ¬ ∃ murmurHash3, EveryReportFresh Sha256.hash murmurHash3 := by
  intro ⟨murmurHash3, hfresh⟩
  have hexec : WorldStep editorWorld shellWorld := by
    have hprocess : editorWorld.process 20 = some editorProcess := rfl
    have hdir : editorWorld.dir (cstr "/bin/sh") = some 2 := rfl
    have hmaps : ∀ m ∈ ([] : List Mapping), m.Anonymous ∨ editorWorld.dir m.name = some m.inode := by simp
    exact .exec hprocess hdir hmaps
  have hfind : findHashentry ((measuredEditor Sha256.hash murmurHash3).buckets (myhash murmurHash3 (exePath 20)))
      (exePath 20) = .ok (some ⟨keyBuffer (exePath 20) (exePath 20), Sha256.hash (lit "ed")⟩) := by
    unfold measuredEditor
    dsimp only
    rw [Function.update_self]
    rfl
  have hmeasured : sha256Pid Sha256.hash murmurHash3 shellWorld allMeasured 20 false
      (measuredEditor Sha256.hash murmurHash3) =
        .ok (some (Sha256.hash (lit "ed"), none), measuredEditor Sha256.hash murmurHash3) := by
    simp only [sha256Pid, sha256File, hfind, ok_bind]
    rfl
  have hrun := Run.step (Run.step (Run.step (editor_run Sha256.hash murmurHash3) (.between hexec))
    (.accept hmeasured)) (.attest rfl)
  obtain ⟨content, ⟨p, hp, hcontent⟩, hdigest⟩ :=
    hfresh _ _ hrun _ (List.mem_append_right _ (List.mem_singleton.2 rfl)) _ (List.mem_singleton.2 rfl)
  cases hp
  rw [show content = lit "sh" from hcontent] at hdigest
  have hne : Sha256.hash (lit "ed") ≠ Sha256.hash (lit "sh") := by decide +kernel
  exact hne hdigest

end PortableTlsRa
