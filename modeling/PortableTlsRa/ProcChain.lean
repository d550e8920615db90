import Mathlib.Data.Int.Interval
import PortableTlsRa.PinfoExtract

/-!
# Packing the process chain

`mycbor_pack_procchain` of the daemon walks from the requester to its ancestors until the parent is process 1, and
packs the measurements with the requester last.  `picaExtractPinfo_packProcchain` is the round trip with the decoder
of the client: it yields the measured processes in that order.
-/

namespace PortableTlsRa

open CSem Cbor

/-- What the measuring calls leave in the variables of `mycbor_sha256_binaries`, whatever they return.  `ppid` is
`none` when the parent is not written. -/
structure Measurement where
  digest : ByteBuf 32
  cmdpath : CString
  ppid : Option Int
  ruid : UInt32
  rgid : UInt32
  euid : UInt32
  egid : UInt32
  suid : UInt32
  sgid : UInt32
  count : Int
  paths : List (CString × ByteBuf 32)
deriving DecidableEq

/-- A signed number as a `uint64_t`. -/
def toUint64 (n : Int) : Nat := (n % 2 ^ 64).toNat

def mapUint64 (key : String) (val : Nat) : Item × Item := (.text (lit key), .uint .w64 val)

def mapString (key : String) (val : CString) : Item × Item := (.text (lit key), .text val.1)

def mapBstring (key : Bytes) (val : ByteBuf 32) : Item × Item := (.text key, .bytes val.1)

/-- The first ten entries of a map. -/
def basePairs (m : Measurement) (pid ppid : Int) : List (Item × Item) :=
  [mapUint64 "pid" (toUint64 pid), mapUint64 "ppid" (toUint64 ppid), mapUint64 "ruid" m.ruid.toNat,
    mapUint64 "rgid" m.rgid.toNat, mapUint64 "euid" m.euid.toNat, mapUint64 "egid" m.egid.toNat,
    mapUint64 "suid" m.suid.toNat, mapUint64 "sgid" m.sgid.toNat, mapString "path" m.cmdpath,
    mapBstring (lit "sha256") m.digest]

/-- The walk along the list of libraries. -/
def libPairs (m : Measurement) : Checked (List (Item × Item)) :=
  if m.count ≤ m.paths.length then
    .ok ((m.paths.take m.count.toNat).map fun pa => mapBstring pa.1.1 pa.2)
  else .error .nullPointer

/-- A definite map takes no more pairs than it is made for; one for a negative number is not made. -/
def mycborSha256Binaries (m : Measurement) (pid ppid : Int) : Checked (Option Item) := do
  if m.count + 10 < 0 then return none
  let libs ← libPairs m
  return some (.map true ((basePairs m pid ppid ++ libs).take (m.count + 10).toNat))

def mycborSha256BinariesSerial (m : Measurement) (pid ppid : Int) : Checked (Option Bytes) := do
  let map ← mycborSha256Binaries m pid ppid
  return map.map encode

/-- The loop of `mycbor_pack_procchain`, which pushes to the list `top`.  `table i pid` is what is measured of `pid` in
turn `i`; `fuel` bounds the number of turns. -/
def packWalk (table : Nat → Int → Measurement) : Nat → Nat → Int → Int → List (Option Bytes) →
    Option (Checked (List (Option Bytes)))
  | 0, _, _, _, _ => none
  | fuel + 1, i, pid, ppid, top =>
    let m := table i pid
    -- a parent that is not written is the one of the turn before
    let ppid := m.ppid.getD ppid
    match mycborSha256BinariesSerial m pid ppid with
    | .error e => some (.error e)
    | .ok serial =>
      if ppid ≠ 1 then packWalk table fuel (i + 1) ppid ppid (serial :: top)
      else some (.ok (serial :: top))

/-- `ppid` is what the variable holds at first. -/
def mycborPackProcchain (table : Nat → Int → Measurement) (fuel : Nat) (pid ppid : Int) : Option (Checked Bytes) :=
  (packWalk table fuel 0 pid ppid []).map fun walk => do
    let top ← walk
    let serials ← top.mapM deref
    return encode (.array true (serials.map .bytes))

/-! ### Chains of ancestors -/

/-- The processes from `pid` to the one whose parent is process 1. -/
inductive AncestorChain (table : Int → Measurement) : Int → List Int → Prop where
  | last {pid : Int} : (table pid).ppid = some 1 → AncestorChain table pid [pid]
  | parent {pid ppid : Int} {chain : List Int} : (table pid).ppid = some ppid → ppid ≠ 1 →
      AncestorChain table ppid chain → AncestorChain table pid (pid :: chain)

/-- A living process that is measured: its number is positive, every library that is counted is in the list, and the
paths have come from the buffers of the measuring functions. -/
structure Measurement.Measurable (m : Measurement) (pid : Int) : Prop where
  pid : 0 < pid ∧ pid < 2 ^ 31
  ppid : ∃ ppid, m.ppid = some ppid ∧ -2 ^ 31 ≤ ppid ∧ ppid < 2 ^ 31
  count : m.count = m.paths.length
  count_lt : m.count + 10 < 2 ^ 31
  cmdpath : m.cmdpath.1.length ≤ 4096
  paths : ∀ pa ∈ m.paths, pa.1.1.length ≤ 4096

/-- The process as it was measured. -/
def Measurement.procinfo (m : Measurement) (pid : Int) : Procinfo where
  pid := pid
  ppid := m.ppid.getD 0
  ruid := m.ruid
  rgid := m.rgid
  euid := m.euid
  egid := m.egid
  suid := m.suid
  sgid := m.sgid
  path := some m.cmdpath
  digest := m.digest
  count := m.paths.length
  libs := m.paths.map fun pa => ⟨some pa.1, pa.2⟩

variable {table : Int → Measurement} {pid : Int} {chain : List Int}

theorem AncestorChain.unique {chain' : List Int} (h : AncestorChain table pid chain)
    (h' : AncestorChain table pid chain') : chain = chain' := by
  induction h generalizing chain' with
  | last htop =>
    cases h' with
    | last => rfl
    | parent hppid hne =>
      rw [htop, Option.some.injEq] at hppid
      exact absurd hppid.symm hne
  | parent hppid hne _ ih =>
    cases h' with
    | last htop =>
      rw [htop, Option.some.injEq] at hppid
      exact absurd hppid.symm hne
    | parent hppid' _ hrest =>
      rw [hppid, Option.some.injEq] at hppid'
      subst hppid'
      rw [ih hrest]

/-- Each process of the chain has its own chain, which is not longer. -/
theorem AncestorChain.of_mem {p : Int} (h : AncestorChain table pid chain) (hp : p ∈ chain) :
    ∃ chain', AncestorChain table p chain' ∧ chain'.length ≤ chain.length := by
  induction h with
  | last htop =>
    rw [List.mem_singleton] at hp
    subst hp
    exact ⟨_, .last htop, Nat.le_refl _⟩
  | parent hppid hne hrest ih =>
    rcases List.mem_cons.1 hp with rfl | hp
    · exact ⟨_, .parent hppid hne hrest, Nat.le_refl _⟩
    · obtain ⟨chain', hchain', hle⟩ := ih hp
      refine ⟨chain', hchain', ?_⟩
      rw [List.length_cons]
      omega

/-- No process is its own ancestor, or the chain would not end. -/
theorem AncestorChain.nodup (h : AncestorChain table pid chain) : chain.Nodup := by
  induction h with
  | last => exact List.nodup_singleton _
  | parent hppid hne hrest ih =>
    rw [List.nodup_cons]
    refine ⟨?_, ih⟩
    intro hmem
    obtain ⟨chain', hchain', hle⟩ := hrest.of_mem hmem
    have hsame := hchain'.unique (.parent hppid hne hrest)
    rw [hsame, List.length_cons] at hle
    omega

/-- There are no more processes than positive numbers of the type `pid_t`. -/
theorem AncestorChain.length_lt (h : AncestorChain table pid chain) (hpids : ∀ p ∈ chain, 0 < p ∧ p < 2 ^ 31) :
    chain.length < 2 ^ 31 := by
  have hsub : chain.toFinset ⊆ Finset.Ioo 0 (2 ^ 31) := by
    intro p hp
    rw [Finset.mem_Ioo]
    exact hpids p (List.mem_toFinset.1 hp)
  have hcard := Finset.card_le_card hsub
  rw [List.toFinset_card_of_nodup h.nodup, Int.card_Ioo] at hcard
  omega

/-! ### The serialisation of one process -/

variable {m : Measurement} {ppid : Int}

/-- The map of a measured process. -/
def processMap (m : Measurement) (pid ppid : Int) : Item :=
  .map true (basePairs m pid ppid ++ m.paths.map fun pa => mapBstring pa.1.1 pa.2)

theorem mycborSha256BinariesSerial_of_count (pid ppid : Int) (hcount : m.count = m.paths.length) :
    mycborSha256BinariesSerial m pid ppid = .ok (some (encode (processMap m pid ppid))) := by
  have hlibs : libPairs m = .ok (m.paths.map fun pa => mapBstring pa.1.1 pa.2) := by
    rw [libPairs, if_pos (by omega), hcount, Int.toNat_natCast, List.take_length]
  have hsize : (m.count + 10).toNat =
      (basePairs m pid ppid ++ m.paths.map fun pa => mapBstring pa.1.1 pa.2).length := by
    rw [List.length_append, List.length_map]
    simp only [basePairs, List.length_cons, List.length_nil]
    omega
  simp only [mycborSha256BinariesSerial, mycborSha256Binaries]
  rw [if_neg (by omega), hlibs]
  simp only [ok_bind, hsize, List.take_length]
  rfl

theorem toUint64_lt (n : Int) : toUint64 n < 2 ^ 64 := by
  unfold toUint64
  omega

/-- A pair of the map: it can be serialised, in a bounded number of bytes. -/
def PairFits (pair : Item × Item) : Prop := SerializablePair pair ∧ (encodePair pair).length ≤ 8300

theorem mapUint64_fits {key : String} {val : Nat} (hkey : (lit key).length ≤ 4096) (hval : val < 2 ^ 64) :
    PairFits (mapUint64 key val) := by
  have hkeyLen := (encode_string_length_le (lit key)).2
  have hvalLen := putHead_length_le 0 .w64 val
  constructor
  · exact ⟨Nat.lt_of_le_of_lt hkey (by omega), hval⟩
  · rw [mapUint64, encodePair, List.length_append, encode.eq_def (.uint .w64 val)]
    dsimp only
    omega

theorem mapString_fits {key : String} {val : CString} (hkey : (lit key).length ≤ 4096) (hval : val.1.length ≤ 4096) :
    PairFits (mapString key val) := by
  have hkeyLen := (encode_string_length_le (lit key)).2
  have hvalLen := (encode_string_length_le val.1).2
  constructor
  · exact ⟨Nat.lt_of_le_of_lt hkey (by omega), Nat.lt_of_le_of_lt hval (by omega)⟩
  · rw [mapString, encodePair, List.length_append]
    omega

theorem mapBstring_fits {key : Bytes} {val : ByteBuf 32} (hkey : key.length ≤ 4096) :
    PairFits (mapBstring key val) := by
  have hkeyLen := (encode_string_length_le key).2
  have hvalLen := (encode_string_length_le val.1).1
  rw [val.2] at hvalLen
  constructor
  · refine ⟨Nat.lt_of_le_of_lt hkey (by omega), ?_⟩
    rw [Serializable, val.2]
    omega
  · rw [mapBstring, encodePair, List.length_append]
    omega

theorem basePairs_fit (pid ppid : Int) (hpath : m.cmdpath.1.length ≤ 4096) :
    ∀ pair ∈ basePairs m pid ppid, PairFits pair := by
  have hid : ∀ id : UInt32, id.toNat < 2 ^ 64 := by
    intro id
    have hlt := id.toNat_lt
    omega
  simp only [basePairs, List.forall_mem_cons, List.not_mem_nil, false_implies, implies_true, and_true]
  exact ⟨mapUint64_fits (by decide) (toUint64_lt pid), mapUint64_fits (by decide) (toUint64_lt ppid),
    mapUint64_fits (by decide) (hid m.ruid), mapUint64_fits (by decide) (hid m.rgid),
    mapUint64_fits (by decide) (hid m.euid), mapUint64_fits (by decide) (hid m.egid),
    mapUint64_fits (by decide) (hid m.suid), mapUint64_fits (by decide) (hid m.sgid),
    mapString_fits (by decide) hpath, mapBstring_fits (by decide)⟩

/-- The map of a measured process can be serialised, and so can its serialisation. -/
theorem processMap_serializable (hm : m.Measurable pid) (ppid : Int) :
    Serializable (processMap m pid ppid) ∧ (encode (processMap m pid ppid)).length < 2 ^ 64 := by
  have hfit : ∀ pair ∈ basePairs m pid ppid ++ m.paths.map fun pa => mapBstring pa.1.1 pa.2, PairFits pair := by
    intro pair hpair
    rcases List.mem_append.1 hpair with hbase | hlib
    · exact basePairs_fit pid ppid hm.cmdpath pair hbase
    · obtain ⟨pa, hpa, rfl⟩ := List.mem_map.1 hlib
      exact mapBstring_fits (hm.paths pa hpa)
  have hlen : (basePairs m pid ppid ++ m.paths.map fun pa => mapBstring pa.1.1 pa.2).length < 2 ^ 31 := by
    have hcount := hm.count
    have hcountLt := hm.count_lt
    rw [List.length_append, List.length_map]
    simp only [basePairs, List.length_cons, List.length_nil]
    omega
  have hpairs := encodePairs_length_le fun pair hpair => (hfit pair hpair).2
  have hhead := putHead_length_le 5
    (widthOf (basePairs m pid ppid ++ m.paths.map fun pa => mapBstring pa.1.1 pa.2).length)
    (basePairs m pid ppid ++ m.paths.map fun pa => mapBstring pa.1.1 pa.2).length
  constructor
  · exact ⟨rfl, Nat.lt_trans hlen (by omega), serializablePairs_iff.2 fun pair hpair => (hfit pair hpair).1⟩
  · rw [processMap, encode, List.length_append]
    omega

/-! ### Decoding one process -/

theorem toInt32_toUint64 {n : Int} (h : -2 ^ 31 ≤ n ∧ n < 2 ^ 31) : toInt32 (toUint64 n) = n := by
  rw [toInt32, toUint64, BitVec.toInt_eq_toNat_bmod, BitVec.toNat_ofNat, Int.bmod_def]
  split_ifs <;> omega

theorem extractLibs_map (uninit : Nat → ByteBuf 32) (j : Nat) (paths : List (CString × ByteBuf 32)) :
    extractLibs uninit j (paths.map fun pa => mapBstring pa.1.1 pa.2) = paths.map fun pa => ⟨some pa.1, pa.2⟩ := by
  induction paths generalizing j with
  | nil => rfl
  | cons pa paths ih =>
    simp only [List.map_cons, mapBstring, extractLibs] at ih ⊢
    rw [ih]
    simp [mycborGetString, Item.isString, Item.stringBytes, untilNul_self, mycborCopyBstring, pa.2.2]

/-- The map of a measured process is decoded to that process. -/
theorem extractProcess_processMap (hm : m.Measurable pid) (hppid : m.ppid = some ppid) (uninit : Nat → ByteBuf 32) :
    extractProcess uninit (basePairs m pid ppid ++ m.paths.map fun pa => mapBstring pa.1.1 pa.2) =
      .ok (m.procinfo pid) := by
  obtain ⟨ppid', hppid', hrange⟩ := hm.ppid
  obtain rfl : ppid' = ppid := by
    rw [hppid, Option.some.injEq] at hppid'
    exact hppid'.symm
  have hlibs := extractLibs_map uninit 0 m.paths
  have hpid : toInt32 (toUint64 pid) = pid := toInt32_toUint64 ⟨by have := hm.pid; omega, hm.pid.2⟩
  have hcount : toInt32 (m.paths.map fun pa => (⟨some pa.1, pa.2⟩ : Fdigest)).length = m.paths.length := by
    have hm₁ := hm.count
    have hm₂ := hm.count_lt
    rw [List.length_map]
    exact toInt32_of_lt (by omega)
  simp only [extractProcess, basePairs, List.cons_append, List.nil_append, readAt, List.getElem?_cons_zero,
    List.getElem?_cons_succ, ok_bind, List.drop_succ_cons, List.drop_zero, hlibs, hcount]
  simp [mapUint64, mapString, mapBstring, mycborGetInt, hpid, toInt32_toUint64 hrange, Measurement.procinfo, hppid,
    mycborGetString, Item.isString, Item.stringBytes, untilNul_self, mycborCopyBstring, m.digest.2]

/-! ### The round trip -/

/-- The serialised measurement of a process of the chain. -/
def serialOf (table : Int → Measurement) (p : Int) : Bytes :=
  encode (processMap (table p) p ((table p).ppid.getD 0))

/-- The walk pushes the serialised measurements, the requester first. -/
theorem packWalk_chain (h : AncestorChain table pid chain) (hmeas : ∀ p ∈ chain, (table p).Measurable p)
    {fuel : Nat} (hfuel : chain.length ≤ fuel) (i : Nat) (ppid : Int) (top : List (Option Bytes)) :
    packWalk (fun _ => table) fuel i pid ppid top =
      some (.ok ((chain.map fun p => some (serialOf table p)).reverse ++ top)) := by
  induction h generalizing fuel i ppid top with
  | @last pid htop =>
    obtain ⟨fuel, rfl⟩ := Nat.exists_eq_add_of_le' hfuel
    have hserial := mycborSha256BinariesSerial_of_count pid 1 (hmeas pid (by simp)).count
    simp only [List.length_singleton, packWalk, htop, Option.getD_some, hserial, ne_eq, not_true_eq_false, if_false]
    simp [serialOf, htop]
  | @parent pid ppid' chain hppid hne hrest ih =>
    rw [List.length_cons] at hfuel
    obtain ⟨fuel, rfl⟩ := Nat.exists_eq_add_of_le' (Nat.le_trans (Nat.le_add_left 1 _) hfuel)
    rw [List.forall_mem_cons] at hmeas
    have hserial := mycborSha256BinariesSerial_of_count pid ppid' hmeas.1.count
    have hnext := @ih hmeas.2 fuel (by omega) (i + 1) ppid'
      (some (encode (processMap (table pid) pid ppid')) :: top)
    simp only [packWalk, hppid, Option.getD_some, hserial, ne_eq, hne, not_false_eq_true, if_true, hnext]
    simp [serialOf, hppid]

theorem extractProcesses_serials {cbor : Libcbor} (untypedMap : Item → Checked (List (Item × Item)))
    (uninit : Nat → Nat → ByteBuf 32) (hload : ∀ item, Serializable item → cbor.load (encode item) = some item)
    {pids : List Int} (hmeas : ∀ p ∈ pids, (table p).Measurable p) (i : Nat) :
    extractProcesses cbor untypedMap uninit i (pids.map fun p => .bytes (serialOf table p)) =
      .ok (pids.map fun p => (table p).procinfo p) := by
  induction pids generalizing i with
  | nil => rfl
  | cons p pids ih =>
    rw [List.forall_mem_cons] at hmeas
    obtain ⟨ppid, hppid, -⟩ := hmeas.1.ppid
    have hserializable := (processMap_serializable hmeas.1 ppid).1
    have hpairs : processPairs cbor untypedMap (.bytes (serialOf table p)) =
        .ok (basePairs (table p) p ppid ++ (table p).paths.map fun pa => mapBstring pa.1.1 pa.2) := by
      rw [processPairs, unpackSercbor, serialOf, hppid, Option.getD_some, hload _ hserializable]
      rfl
    have hprocess := extractProcess_processMap hmeas.1 hppid (uninit i)
    rw [List.map_cons, List.map_cons, extractProcesses, hpairs, ok_bind, hprocess, ok_bind, ih hmeas.2]
    rfl

/-- The packed chain: an array of the serialised measurements, the requester last. -/
def packedChain (table : Int → Measurement) (chain : List Int) : Item :=
  .array true (chain.reverse.map fun p => .bytes (serialOf table p))

theorem mycborPackProcchain_chain (hchain : AncestorChain table pid chain)
    (hmeas : ∀ p ∈ chain, (table p).Measurable p) {fuel : Nat} (hfuel : chain.length ≤ fuel) (ppid : Int) :
    mycborPackProcchain (fun _ => table) fuel pid ppid = some (.ok (encode (packedChain table chain))) := by
  have hserials : ((chain.map fun p => some (serialOf table p)).reverse ++ []).mapM deref =
      .ok (chain.reverse.map (serialOf table)) := by
    rw [mapM_eq_ok_iff, List.append_nil, ← List.map_reverse, List.forall₂_map_left_iff, List.forall₂_map_right_iff,
      List.forall₂_same]
    intro p _
    exact deref_eq_ok.2 rfl
  rw [mycborPackProcchain, packWalk_chain hchain hmeas hfuel, Option.map_some, ok_bind, hserials, ok_bind,
    List.map_map]
  rfl

theorem packedChain_serializable (hchain : AncestorChain table pid chain)
    (hmeas : ∀ p ∈ chain, (table p).Measurable p) : Serializable (packedChain table chain) := by
  have hlen := hchain.length_lt fun p hp => (hmeas p hp).pid
  refine ⟨rfl, ?_, serializableItems_iff.2 ?_⟩
  · rw [List.length_map, List.length_reverse]
    omega
  · intro item hitem
    obtain ⟨p, hp, rfl⟩ := List.mem_map.1 hitem
    rw [List.mem_reverse] at hp
    exact (processMap_serializable (hmeas p hp) _).2

/-- The client decodes the packed chain. -/
theorem picaExtractPinfo_packedChain {cbor : Libcbor} (untypedMap : Item → Checked (List (Item × Item)))
    (uninit : Nat → Nat → ByteBuf 32) (hload : ∀ item, Serializable item → cbor.load (encode item) = some item)
    (hchain : AncestorChain table pid chain) (hmeas : ∀ p ∈ chain, (table p).Measurable p) :
    picaExtractPinfo cbor untypedMap uninit (encode (packedChain table chain)) =
      .ok (chain.length, some (chain.reverse.map fun p => (table p).procinfo p)) := by
  have hmeas' : ∀ p ∈ chain.reverse, (table p).Measurable p := by
    intro p hp
    exact hmeas p (List.mem_reverse.1 hp)
  have hitems := extractProcesses_serials untypedMap uninit hload hmeas' 0
  have hlen : toInt32 (chain.reverse.map fun p => Item.bytes (serialOf table p)).length = chain.length := by
    rw [List.length_map, List.length_reverse]
    exact toInt32_of_lt (hchain.length_lt fun p hp => (hmeas p hp).pid)
  have hne : (chain.length : Int) ≠ 0 := by
    cases hchain <;> simp only [List.length_cons] <;> omega
  simp only [picaExtractPinfo, hload _ (packedChain_serializable hchain hmeas)]
  simp only [packedChain, hitems, ok_bind, hlen, if_neg hne]
  rfl

/-- The client decodes what the daemon packs to the measured processes, the requester last. -/
theorem picaExtractPinfo_packProcchain (cbor : Libcbor) (untypedMap : Item → Checked (List (Item × Item)))
    (uninit : Nat → Nat → ByteBuf 32) (hload : ∀ item, Serializable item → cbor.load (encode item) = some item)
    (table : Int → Measurement) (pid : Int) (chain : List Int) (hchain : AncestorChain table pid chain)
    (hmeas : ∀ p ∈ chain, (table p).Measurable p) (fuel : Nat) (hfuel : chain.length ≤ fuel) (ppid : Int) :
    ∃ picabody pinfo, mycborPackProcchain (fun _ => table) fuel pid ppid = some (.ok picabody) ∧
      picaExtractPinfo cbor untypedMap uninit picabody = .ok (chain.length, some pinfo) ∧
      pinfo = (chain.reverse.map fun p => (table p).procinfo p) ∧
      pinfo.getLast? = some ((table pid).procinfo pid) := by
  have hpack := mycborPackProcchain_chain hchain hmeas hfuel ppid
  have hextract := picaExtractPinfo_packedChain untypedMap uninit hload hchain hmeas
  refine ⟨_, _, hpack, hextract, rfl, ?_⟩
  cases hchain <;> simp

/-! ### A login shell -/

def measured (cmdpath : CString) (ppid : Int) (paths : List (CString × ByteBuf 32)) : Measurement where
  digest := ByteBuf.zero 32
  cmdpath := cmdpath
  ppid := some ppid
  ruid := 1000
  rgid := 1000
  euid := 1000
  egid := 1000
  suid := 1000
  sgid := 1000
  count := paths.length
  paths := paths

/-- An editor, process 20, that a shell, process 10, has started. -/
def editorTable (pid : Int) : Measurement :=
  if pid = 20 then measured (cstr "/bin/ed") 10 [(cstr "/lib/libc.so", ByteBuf.zero 32)]
  else measured (cstr "/bin/sh") 1 []

theorem editorTable_measurable : ∀ p ∈ [(20 : Int), 10], (editorTable p).Measurable p := by
  intro p hp
  rcases List.mem_pair.1 hp with rfl | rfl
  · exact ⟨by decide, ⟨10, rfl, by decide⟩, rfl, by decide, by decide, by decide⟩
  · exact ⟨by decide, ⟨1, rfl, by decide⟩, rfl, by decide, by decide, by decide⟩

theorem editorTable_chain : AncestorChain editorTable 20 [20, 10] := .parent rfl (by decide) (.last rfl)

/-- The client sees the shell first and the editor last. -/
theorem picaExtractPinfo_editor :
    ∃ picabody pinfo, mycborPackProcchain (fun _ => editorTable) 2 20 0 = some (.ok picabody) ∧
      picaExtractPinfo ⟨Cbor.load, fun _ => .error .nullPointer⟩ (fun _ => .error .nullPointer)
        (fun _ _ => ByteBuf.zero 32) picabody = .ok (2, some pinfo) ∧
      pinfo = ([(10 : Int), 20].map fun p => (editorTable p).procinfo p) ∧
      pinfo.getLast? = some ((editorTable 20).procinfo 20) :=
  picaExtractPinfo_packProcchain ⟨Cbor.load, fun _ => .error .nullPointer⟩ (fun _ => .error .nullPointer)
    (fun _ _ => ByteBuf.zero 32) load_encode_eq editorTable 20 [20, 10] editorTable_chain editorTable_measurable 2
    (by decide) 0

end PortableTlsRa
