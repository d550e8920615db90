import PortableTlsRa.PocClient

/-!
# Malformed process chains

What `pica_extract_pinfo` and its callers make of the bytes of a process chain, whatever they are.  A chain is in order
if it is an array with elements, each the serialisation of a map that has a text and a digest in the places of path and
digest and nothing but libraries after them.  These are the only chains that fail cleanly or are extracted from what
they hold (`failsCleanly_iff`): of every other one an element faults, or an entry keeps a null path or a digest that
was never written, or the -1 of the extraction is taken for a number of entries by both of its callers.
-/

namespace PortableTlsRa

open CSem Cbor

/-! ### What an entry should hold -/

/-- The paths of the entry are set, and its digests are byte strings in their places in the map. -/
structure EntryFrom (pairs : List (Item × Item)) (p : Procinfo) : Prop where
  path : p.path ≠ none
  digest : ∃ key, pairs[9]? = some (key, .bytes p.digest.1)
  libs : ∀ j lib, p.libs[j]? = some lib → lib.path ≠ none ∧ ∃ key, pairs[10 + j]? = some (key, .bytes lib.digest.1)

/-- The elements of the chain are maps, and the entries hold what is in them. -/
def ExtractedFrom (cbor : Libcbor) (picabody : Bytes) (processes : List Procinfo) : Prop :=
  ∃ definite items, cbor.load picabody = some (.array definite items) ∧
    List.Forall₂ (fun item p => ∃ definite pairs, unpackSercbor cbor item = some (.map definite pairs) ∧
      EntryFrom pairs p) items processes

/-- The extraction gives -1 and a null pointer or as many entries as it says, and its callers stop at -1: the one
without touching the file, the other before it takes the last entry. -/
structure FailsCleanly (cbor : Libcbor) (picabody : Bytes) : Prop where
  extraction : ∀ untypedMap uninit, ∃ n pinfo, picaExtractPinfo cbor untypedMap uninit picabody = .ok (n, pinfo) ∧
    (n = -1 ∧ pinfo = none ∨
      ∃ processes : List Procinfo, pinfo = some processes ∧ 1 ≤ n ∧ n = processes.length ∧
        ExtractedFrom cbor picabody processes)
  registration : ∀ untypedMap uninit pinfo, picaExtractPinfo cbor untypedMap uninit picabody = .ok (-1, pinfo) →
    ∀ calls stale file, picaRegConfig cbor untypedMap uninit calls stale file picabody = .ok (.returned (-1) file)
  main : ∀ (PKey : Type) (env : PocEnv PKey), env.client.cbor = cbor →
    ∀ pinfo, env.extractPinfo picabody = .ok (-1, pinfo) →
      ∀ murmurHash3 s verified, ∃ outcome, pocDecide murmurHash3 env s verified (some picabody) = .ok outcome

/-! ### When a chain is in order -/

def IsDigest (value : Item) : Prop := ∃ data, value = .bytes data ∧ data.length = 32

/-- The map has a text in the place of the path, a digest in its place, and only libraries after them. -/
structure MapInOrder (pairs : List (Item × Item)) : Prop where
  path : ∃ path, pairs[8]? = some path ∧ path.2.isString
  digest : ∃ sha256, pairs[9]? = some sha256 ∧ IsDigest sha256.2
  libs : ∀ pair ∈ pairs.drop 10, pair.1.isString ∧ IsDigest pair.2

/-- The chain is an array with elements, as many as an `int` counts, all of them maps in order. -/
def ChainInOrder (cbor : Libcbor) (picabody : Bytes) : Prop :=
  ∃ definite items, cbor.load picabody = some (.array definite items) ∧ items ≠ [] ∧ items.length < 2 ^ 31 ∧
    ∀ item ∈ items, ∃ definite pairs, unpackSercbor cbor item = some (.map definite pairs) ∧ MapInOrder pairs

/-! ### One entry -/

theorem mycborGetString_ne_none {val : Item} : mycborGetString val ≠ none ↔ val.isString := by
  unfold mycborGetString
  split_ifs with h <;> simp [h]

/-- Where the value is no digest it cannot be one that was copied. -/
theorem mycborCopyBstring_copied {out : ByteBuf 32} {val : Item} :
    val = .bytes (mycborCopyBstring out val).1 ↔ IsDigest val := by
  constructor
  · intro h
    exact ⟨_, h, (mycborCopyBstring out val).2⟩
  · intro ⟨data, hval, hlen⟩
    rw [hval, mycborCopyBstring, dif_pos hlen]

theorem extractLibs_getElem? (uninit : Nat → ByteBuf 32) (j i : Nat) (pairs : List (Item × Item)) :
    (extractLibs uninit j pairs)[i]? = pairs[i]?.map fun pair =>
      ⟨mycborGetString pair.1, mycborCopyBstring (uninit (j + i)) pair.2⟩ := by
  induction pairs generalizing j i with
  | nil => rfl
  | cons pair pairs ih =>
    obtain ⟨key, value⟩ := pair
    cases i with
    | zero => rfl
    | succ i =>
      rw [extractLibs, List.getElem?_cons_succ, List.getElem?_cons_succ, ih]
      simp only [Nat.add_assoc, Nat.add_comm 1 i]

/-- What is extracted from a map, by place. -/
theorem extractProcess_spec {uninit : Nat → ByteBuf 32} {pairs : List (Item × Item)} {p : Procinfo}
    (h : extractProcess uninit pairs = .ok p) :
    ∃ path sha256, pairs[8]? = some path ∧ pairs[9]? = some sha256 ∧ p.path = mycborGetString path.2 ∧
      p.digest = mycborCopyBstring (ByteBuf.zero 32) sha256.2 ∧ p.libs = extractLibs uninit 0 (pairs.drop 10) := by
  unfold extractProcess at h
  simp only [bind_eq_ok, readAt_eq_ok] at h
  obtain ⟨_, -, _, -, _, -, _, -, _, -, _, -, _, -, _, -, path, hpath, sha256, hsha256, hret⟩ := h
  cases hret
  exact ⟨path, sha256, hpath, hsha256, rfl, rfl, rfl⟩

theorem extractProcess_of_length (uninit : Nat → ByteBuf 32) {pairs : List (Item × Item)} (h : 10 ≤ pairs.length) :
    ∃ p, extractProcess uninit pairs = .ok p := by
  have hread : ∀ i, i < 10 → ∃ pair, readAt pairs i = .ok pair := by
    intro i hi
    exact ⟨pairs[i], readAt_eq_ok.2 (List.getElem?_eq_getElem (by omega))⟩
  obtain ⟨pid, hpid⟩ := hread 0 (by omega)
  obtain ⟨ppid, hppid⟩ := hread 1 (by omega)
  obtain ⟨ruid, hruid⟩ := hread 2 (by omega)
  obtain ⟨rgid, hrgid⟩ := hread 3 (by omega)
  obtain ⟨euid, heuid⟩ := hread 4 (by omega)
  obtain ⟨egid, hegid⟩ := hread 5 (by omega)
  obtain ⟨suid, hsuid⟩ := hread 6 (by omega)
  obtain ⟨sgid, hsgid⟩ := hread 7 (by omega)
  obtain ⟨path, hpath⟩ := hread 8 (by omega)
  obtain ⟨sha256, hsha256⟩ := hread 9 (by omega)
  unfold extractProcess
  simp only [hpid, hppid, hruid, hrgid, heuid, hegid, hsuid, hsgid, hpath, hsha256, ok_bind]
  exact ⟨_, rfl⟩

/-- An entry holds what is in its map exactly if the map is in order. -/
theorem entryFrom_iff {uninit : Nat → ByteBuf 32} {pairs : List (Item × Item)} {p : Procinfo}
    (h : extractProcess uninit pairs = .ok p) : EntryFrom pairs p ↔ MapInOrder pairs := by
  obtain ⟨path, sha256, hpath, hsha256, hppath, hpdigest, hplibs⟩ := extractProcess_spec h
  have hlib : ∀ j, p.libs[j]? = pairs[10 + j]?.map fun pair =>
      ⟨mycborGetString pair.1, mycborCopyBstring (uninit j) pair.2⟩ := by
    intro j
    rw [hplibs, extractLibs_getElem?, List.getElem?_drop, Nat.zero_add]
  constructor
  · intro hfrom
    constructor
    · exact ⟨path, hpath, mycborGetString_ne_none.1 (hppath ▸ hfrom.path)⟩
    · obtain ⟨key, hdigest⟩ := hfrom.digest
      exact ⟨_, hdigest, p.digest.1, rfl, p.digest.2⟩
    · intro pair hpair
      obtain ⟨j, hj⟩ := List.mem_iff_getElem?.1 hpair
      rw [List.getElem?_drop] at hj
      obtain ⟨hname, key, hdigest⟩ := hfrom.libs j _ (by rw [hlib, hj]; rfl)
      have hvalue := congrArg Prod.snd (Option.some_inj.1 (hj.symm.trans hdigest))
      exact ⟨mycborGetString_ne_none.1 hname, mycborCopyBstring_copied.1 hvalue⟩
  · intro horder
    constructor
    · obtain ⟨path', hpath', hstring⟩ := horder.path
      rw [hpath] at hpath'
      cases hpath'
      exact hppath ▸ mycborGetString_ne_none.2 hstring
    · obtain ⟨sha256', hsha256', hisDigest⟩ := horder.digest
      rw [hsha256] at hsha256'
      cases hsha256'
      rw [hsha256, hpdigest, ← mycborCopyBstring_copied.2 hisDigest]
      exact ⟨_, rfl⟩
    · intro j lib hget
      rw [hlib, Option.map_eq_some_iff] at hget
      obtain ⟨pair, hpair, rfl⟩ := hget
      have hmem : pair ∈ pairs.drop 10 := by
        apply List.mem_iff_getElem?.2 ⟨j, _⟩
        rw [List.getElem?_drop, hpair]
      obtain ⟨hstring, hisDigest⟩ := horder.libs pair hmem
      refine ⟨mycborGetString_ne_none.2 hstring, pair.1, ?_⟩
      rw [hpair, ← mycborCopyBstring_copied.2 hisDigest]

/-! ### All entries -/

variable {cbor : Libcbor} {untypedMap : Item → Checked (List (Item × Item))} {uninit : Nat → Nat → ByteBuf 32}

/-- The entries are those of the elements, in order. -/
theorem extractProcesses_forall₂ {i : Nat} {items : List Item} {pinfo : List Procinfo}
    (h : extractProcesses cbor untypedMap uninit i items = .ok pinfo) :
    List.Forall₂ (fun item p => ∃ k pairs, processPairs cbor untypedMap item = .ok pairs ∧
      extractProcess (uninit k) pairs = .ok p) items pinfo := by
  induction items generalizing i pinfo with
  | nil =>
    cases h
    exact .nil
  | cons item items ih =>
    obtain ⟨pairs, hpairs, hrest⟩ := bind_eq_ok.1 h
    obtain ⟨p, hp, hrest⟩ := bind_eq_ok.1 hrest
    obtain ⟨others, hothers, hret⟩ := bind_eq_ok.1 hrest
    cases hret
    exact .cons ⟨i, pairs, hpairs, hp⟩ (ih hothers)

theorem extractProcesses_defined {i : Nat} {items : List Item}
    (h : ∀ item ∈ items, ∃ pairs, processPairs cbor untypedMap item = .ok pairs ∧ 10 ≤ pairs.length) :
    ∃ pinfo, extractProcesses cbor untypedMap uninit i items = .ok pinfo := by
  induction items generalizing i with
  | nil => exact ⟨[], rfl⟩
  | cons item items ih =>
    rw [List.forall_mem_cons] at h
    obtain ⟨pairs, hpairs, hlen⟩ := h.1
    obtain ⟨p, hp⟩ := extractProcess_of_length (uninit i) hlen
    obtain ⟨pinfo, hpinfo⟩ := ih (i := i + 1) h.2
    exact ⟨p :: pinfo, by simp [extractProcesses, hpairs, hp, hpinfo]⟩

theorem processPairs_of_map {item : Item} {definite : Bool} {pairs : List (Item × Item)}
    (h : unpackSercbor cbor item = some (.map definite pairs)) : processPairs cbor untypedMap item = .ok pairs := by
  rw [processPairs, h]
  rfl

theorem length_lt_of_toInt32 {n : Nat} (h : toInt32 n = n) : n < 2 ^ 31 := by
  have hlt := (BitVec.ofNat 32 n).toInt_lt
  rw [toInt32] at h
  omega

/-- What is extracted from a chain that is read is what the chain holds only if it is in order. -/
theorem chainInOrder_of_extracted {picabody : Bytes} {processes : List Procinfo}
    (hextract : picaExtractPinfo cbor untypedMap uninit picabody = .ok ((processes.length : Int), some processes))
    (hfrom : ExtractedFrom cbor picabody processes) : ChainInOrder cbor picabody := by
  obtain ⟨definite, items, hload, hfrom⟩ := hfrom
  have hlen := hfrom.length_eq
  simp only [picaExtractPinfo, hload] at hextract
  obtain ⟨processes', hprocesses, hret⟩ := bind_eq_ok.1 hextract
  by_cases hzero : toInt32 items.length = 0
  · rw [if_pos hzero] at hret
    cases hret
  rw [if_neg hzero, pure_eq_ok, Except.ok.injEq, Prod.mk.injEq, Option.some_inj] at hret
  obtain ⟨hn, rfl⟩ := hret
  refine ⟨definite, items, hload, ?_, length_lt_of_toInt32 (by rw [hn, hlen]), ?_⟩
  · rintro rfl
    exact hzero rfl
  · intro item hitem
    obtain ⟨j, hj, rfl⟩ := List.getElem_of_mem hitem
    have hjp : j < processes'.length := by omega
    obtain ⟨_, pairs, hmap, hentry⟩ := (List.forall₂_iff_get.1 hfrom).2 j hj hjp
    obtain ⟨k, pairs', hpairs', hp⟩ := (List.forall₂_iff_get.1 (extractProcesses_forall₂ hprocesses)).2 j hj hjp
    have hpairs : processPairs cbor untypedMap (items.get ⟨j, hj⟩) = .ok pairs := processPairs_of_map hmap
    rw [hpairs] at hpairs'
    cases hpairs'
    exact ⟨_, pairs, hmap, (entryFrom_iff hp).1 hentry⟩

/-- A chain in order is extracted, whatever the accessors of maps give on other items. -/
theorem ChainInOrder.extracted {picabody : Bytes} (h : ChainInOrder cbor picabody)
    (untypedMap : Item → Checked (List (Item × Item))) (uninit : Nat → Nat → ByteBuf 32) :
    ∃ processes : List Procinfo,
      picaExtractPinfo cbor untypedMap uninit picabody = .ok ((processes.length : Int), some processes) ∧
        processes ≠ [] ∧ ExtractedFrom cbor picabody processes := by
  obtain ⟨definite, items, hload, hne, hlt, hitems⟩ := h
  have hdefined : ∀ item ∈ items, ∃ pairs, processPairs cbor untypedMap item = .ok pairs ∧ 10 ≤ pairs.length := by
    intro item hitem
    obtain ⟨_, pairs, hmap, horder⟩ := hitems item hitem
    obtain ⟨sha256, hsha256, -⟩ := horder.digest
    obtain ⟨hlen, -⟩ := List.getElem?_eq_some_iff.1 hsha256
    exact ⟨pairs, processPairs_of_map hmap, hlen⟩
  obtain ⟨processes, hprocesses⟩ : ∃ processes, extractProcesses cbor untypedMap uninit 0 items = .ok processes :=
    extractProcesses_defined hdefined
  have hlen := extractProcesses_length hprocesses
  have hpos := List.length_pos_of_ne_nil hne
  have hentries : toInt32 items.length = processes.length := by rw [toInt32_of_lt hlt, hlen]
  refine ⟨processes, ?_, ?_, definite, items, hload, ?_⟩
  · simp only [picaExtractPinfo, hload, hprocesses, ok_bind, hentries]
    rw [if_neg (by omega)]
    rfl
  · exact List.ne_nil_of_length_pos (by omega)
  · have hboth := List.forall₂_and_left items processes |>.2 ⟨hitems, extractProcesses_forall₂ hprocesses⟩
    apply hboth.imp
    rintro item p ⟨⟨_, pairs, hmap, horder⟩, k, pairs', hpairs', hp⟩
    rw [processPairs_of_map hmap] at hpairs'
    cases hpairs'
    exact ⟨_, pairs, hmap, (entryFrom_iff hp).2 horder⟩

theorem ChainInOrder.not_failed {picabody : Bytes} (h : ChainInOrder cbor picabody)
    (untypedMap : Item → Checked (List (Item × Item))) (uninit : Nat → Nat → ByteBuf 32)
    (pinfo : Option (List Procinfo)) : picaExtractPinfo cbor untypedMap uninit picabody ≠ .ok (-1, pinfo) := by
  intro hfailed
  obtain ⟨processes, hprocesses, -⟩ := h.extracted untypedMap uninit
  rw [hprocesses] at hfailed
  have hentries := congrArg Prod.fst (Except.ok.inj hfailed)
  simp only at hentries
  omega

/-! ### After -1 -/

/-- A registration opens the file after -1: where that fails, the program is aborted. -/
theorem picaRegConfig_of_failed {picabody : Bytes} {pinfo : Option (List Procinfo)} (stale : Nat → Stale)
    (file : Option Bytes) (h : picaExtractPinfo cbor untypedMap uninit picabody = .ok (-1, pinfo)) :
    picaRegConfig cbor untypedMap uninit .openFails stale file picabody = .ok .aborted := by
  rw [picaRegConfig, h]
  rfl

/-! ### Every chain -/

/-- A chain fails cleanly or is extracted from what it holds exactly if it is in order, and then it is extracted. -/
theorem failsCleanly_iff (cbor : Libcbor) (picabody : Bytes) :
    FailsCleanly cbor picabody ↔ ChainInOrder cbor picabody := by
  constructor
  · intro h
    obtain ⟨n, pinfo, hextract, hcases⟩ := h.extraction (fun _ => .error .wrongType) fun _ _ => ByteBuf.zero 32
    rcases hcases with ⟨rfl, -⟩ | ⟨processes, rfl, -, rfl, hfrom⟩
    · have hstops := h.registration _ _ _ hextract .openFails (fun _ => ⟨0, 0, 0⟩) none
      rw [picaRegConfig_of_failed _ _ hextract] at hstops
      cases hstops
    · exact chainInOrder_of_extracted hextract hfrom
  · intro horder
    constructor
    · intro untypedMap uninit
      obtain ⟨processes, hprocesses, hsome, hfrom⟩ := horder.extracted untypedMap uninit
      have hpos := List.length_pos_of_ne_nil hsome
      exact ⟨_, _, hprocesses, .inr ⟨processes, rfl, by omega, rfl, hfrom⟩⟩
    · intro untypedMap uninit pinfo hfailed
      exact absurd hfailed (horder.not_failed untypedMap uninit pinfo)
    · intro PKey env hcbor pinfo hfailed
      rw [PocEnv.extractPinfo, hcbor] at hfailed
      exact absurd hfailed (horder.not_failed _ _ pinfo)

/-- An array with the number 0 as its one element. -/
def numberChain : Bytes := encode (.array true [.uint .w8 0])

/-- The map of the element is a null pointer, which is read. -/
theorem numberChain_faults : ¬ FailsCleanly ⟨Cbor.load, fun _ => .error .nullPointer⟩ numberChain := by
  intro h
  obtain ⟨n, pinfo, hextract, -⟩ := h.extraction (fun _ => .error .wrongType) fun _ _ => ByteBuf.zero 32
  have hfault : picaExtractPinfo ⟨Cbor.load, fun _ => .error .nullPointer⟩ (fun _ => .error .wrongType)
      (fun _ _ => ByteBuf.zero 32) numberChain = .error .nullPointer := by
    decide
  rw [hfault] at hextract
  cases hextract

end PortableTlsRa
