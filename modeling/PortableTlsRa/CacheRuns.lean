import PortableTlsRa.CacheMemory

/-!
# Runs of the digest cache

What sequences of calls of `sha256_file` report.  A run that does not fault ends every call as the entries say that the
earlier calls made (`runCalls_represents`).  The cache is a map where the first call for a library counts exactly when
every first call gets its entry and the two paths that it is given have the same length (`runCalls_isMap_iff`).  A
digest that is reported was computed from a file that was read whole exactly when every first call that is followed by
another one succeeds (`runCalls_truthful_iff`).  The table whose buckets are lists reports the same digests
(`runCalls_agrees`).
-/

namespace PortableTlsRa.Libmeasurement.InMemory

open CSem

variable {sha256 : Bytes → ByteBuf 32} {hash : CString → FpIndex} {mem mem' : Memory} {m : Made} {made : List Made}
  {call : Call} {calls pre front back : List Call} {outcomes : List Outcome} {fuel : Nat} {path : CString}

/-! ### First calls -/

/-- No earlier call is for the key. -/
def Call.First (pre : List Call) (call : Call) : Prop := ∀ c ∈ pre, c.libpath ≠ call.libpath

theorem first_iff_find? : call.First pre ↔ pre.find? (·.libpath = call.libpath) = none := by
  rw [List.find?_eq_none]
  simp [Call.First]

theorem first_iff : call.First pre ↔ ¬ (makeAll sha256 pre).any (·.libpath = call.libpath) = true := by
  rw [any_makeAll, Call.First]
  simp

/-- The first call for a key is where it says. -/
theorem find?_first (hfirst : call.First pre) :
    (pre ++ call :: back).find? (·.libpath = call.libpath) = some call := by
  rw [List.find?_append, first_iff_find?.1 hfirst, Option.none_or, List.find?_cons_of_pos (by simp)]

/-- Whenever there are calls for a key, one is the first. -/
theorem exists_first (h : calls.find? (·.libpath = path) = some call) :
    call.libpath = path ∧ ∃ pre back, calls = pre ++ call :: back ∧ call.First pre := by
  obtain ⟨hpath, pre, back, hsplit, hbefore⟩ := List.find?_eq_some_iff_append.1 h
  have hpath : call.libpath = path := of_decide_eq_true hpath
  refine ⟨hpath, pre, back, hsplit, fun c hc hc' => ?_⟩
  have hne := hbefore c hc
  rw [hc', hpath] at hne
  simp at hne

/-! ### Runs that do not fault -/

theorem runCalls_cons_eq_ok :
    runCalls hash sha256 fuel mem (call :: calls) = some (.ok (outcomes, mem')) ↔
      ∃ outcome mem₁ rest, sha256File hash sha256 fuel mem call = some (.ok (outcome, mem₁)) ∧
        runCalls hash sha256 fuel mem₁ calls = some (.ok (rest, mem')) ∧ outcomes = outcome :: rest := by
  rw [runCalls, running_bind_eq_ok]
  constructor
  · intro ⟨⟨outcome, mem₁⟩, hcall, hrest⟩
    obtain ⟨⟨rest, mem₂⟩, hcalls, heq⟩ := running_bind_eq_ok.1 hrest
    cases heq
    exact ⟨outcome, mem₁, rest, hcall, hcalls, rfl⟩
  · rintro ⟨outcome, mem₁, rest, hcall, hcalls, rfl⟩
    exact ⟨(outcome, mem₁), hcall, running_bind_eq_ok.2 ⟨(rest, mem'), hcalls, rfl⟩⟩

/-- After a run that does not fault the memory represents what the calls made, and each call ended as the entries say
that were there before it; those that made an entry got one. -/
theorem runCalls_represents (hrep : Represents hash mem (makeAll sha256 pre))
    (hfuel : mem.heap.length + calls.length ≤ fuel)
    (hrun : runCalls hash sha256 fuel mem calls = some (.ok (outcomes, mem'))) :
    Represents hash mem' (makeAll sha256 (pre ++ calls)) ∧ mem'.heap.length ≤ mem.heap.length + calls.length ∧
      ∀ front call back, calls = front ++ call :: back →
        outcomes[front.length]? = some (answer sha256 (makeAll sha256 (pre ++ front)) call) ∧
        (call.First (pre ++ front) → call.GetsEntry hash (makeAll sha256 (pre ++ front))) := by
  induction calls generalizing mem pre outcomes with
  | nil =>
    cases hrun
    rw [List.append_nil]
    refine ⟨hrep, Nat.le_refl _, fun front call back hsplit => ?_⟩
    cases front <;> cases hsplit
  | cons call calls ih =>
    rw [List.length_cons] at hfuel
    have hroom : mem.heap.length < fuel := by omega
    obtain ⟨outcome, mem₁, rest, hcall, hcalls, rfl⟩ := runCalls_cons_eq_ok.1 hrun
    rcases sha256File_cases hrep hroom call with ⟨f, hfault, -⟩ | ⟨mem₁', hstep, hrep₁, hlen, -, hgets⟩
    · rw [hfault] at hcall
      cases hcall
    · obtain ⟨rfl, rfl⟩ : answer sha256 (makeAll sha256 pre) call = outcome ∧ mem₁' = mem₁ := by
        rw [hstep] at hcall
        cases hcall
        exact ⟨rfl, rfl⟩
      rw [← makeAll_concat] at hrep₁
      obtain ⟨hrep', hlen', hends⟩ := ih hrep₁ (by omega) hcalls
      rw [List.append_assoc] at hrep'
      rw [List.length_cons]
      refine ⟨hrep', by omega, fun front call' back hsplit => ?_⟩
      cases front with
      | nil =>
        cases hsplit
        rw [List.append_nil]
        refine ⟨rfl, fun hfirst => ?_⟩
        rcases hgets with hknown | hgets
        · exact absurd hknown (first_iff.1 hfirst)
        · exact hgets
      | cons c front =>
        cases hsplit
        have hend := hends front call' back rfl
        rw [List.append_assoc, List.singleton_append] at hend
        exact hend

/-- Where the first calls get their entries and store their keys whole, no call faults. -/
theorem runCalls_defined (hrep : Represents hash mem (makeAll sha256 pre))
    (hfuel : mem.heap.length + calls.length ≤ fuel) (hpre : ∀ m ∈ makeAll sha256 pre, m.Complete)
    (hcalls : ∀ front call back, calls = front ++ call :: back → call.First (pre ++ front) →
      call.GetsEntry hash (makeAll sha256 (pre ++ front)) ∧ (call.made sha256).Complete) :
    ∃ outcomes mem', runCalls hash sha256 fuel mem calls = some (.ok (outcomes, mem')) := by
  induction calls generalizing mem pre with
  | nil => exact ⟨[], mem, rfl⟩
  | cons call calls ih =>
    rw [List.length_cons] at hfuel
    have hroom : mem.heap.length < fuel := by omega
    have hfirst := hcalls [] call calls rfl
    rw [List.append_nil] at hfirst
    rcases sha256File_cases hrep hroom call with ⟨f, -, hwhy⟩ | ⟨mem₁, hstep, hrep₁, hlen, -⟩
    · exfalso
      rcases hwhy with ⟨f, hsearch⟩ | ⟨hnew, hgets⟩
      · obtain ⟨m, hm, hincomplete⟩ := search_eq_error hsearch
        exact hincomplete (hpre m (List.mem_of_mem_filter hm))
      · exact hgets (hfirst (first_iff.2 hnew)).1
    · rw [← makeAll_concat] at hrep₁
      have hpre₁ : ∀ m ∈ makeAll sha256 (pre ++ [call]), m.Complete := by
        intro m hm
        rw [makeAll_concat, make] at hm
        split_ifs at hm with hknown
        · exact hpre m hm
        · rcases List.mem_append.1 hm with hm | hm
          · exact hpre m hm
          · rw [List.mem_singleton.1 hm]
            exact (hfirst (first_iff.2 hknown)).2
      have hroom₁ : mem₁.heap.length + calls.length ≤ fuel := by omega
      obtain ⟨outcomes, mem', hrest⟩ := ih hrep₁ hroom₁ hpre₁ fun front c back hsplit => by
        have hc := hcalls (call :: front) c back (by rw [hsplit]; rfl)
        rw [List.append_assoc, List.singleton_append]
        exact hc
      exact ⟨_, mem', runCalls_cons_eq_ok.2 ⟨_, mem₁, outcomes, hstep, hrest, rfl⟩⟩

/-! ### A map where the first call counts -/

/-- The entry at `fp` has the key. -/
def Memory.Stores (mem : Memory) (fp : FpHentryPtr) (key : Bytes) : Prop :=
  ∃ e, mem.read fp = .ok e ∧ e.path = some key

/-- The digest of the file that the first call for the key of a call measures. -/
def firstDigest (sha256 : Bytes → ByteBuf 32) (calls : List Call) (call : Call) : Option (ByteBuf 32) :=
  (calls.find? (·.libpath = call.libpath)).bind fun first => first.file.measure.map sha256

/-- The calls use the cache as a map: none faults, each reports the digest of the file that the first call for its key
measures, every stored key is a whole key of a call, and each key has an entry that no other one shares. -/
def IsMap (hash : CString → FpIndex) (sha256 : Bytes → ByteBuf 32) (fuel : Nat) (calls : List Call) : Prop :=
  ∃ outcomes mem, runCalls hash sha256 fuel .zeroed calls = some (.ok (outcomes, mem)) ∧
    (∀ pre call post, calls = pre ++ call :: post →
      ∃ digest, firstDigest sha256 calls call = some digest ∧
        outcomes[pre.length]?.map (·.digest?) = some (some digest)) ∧
    (∀ fp key, mem.Stores fp key → ∃ call ∈ calls, key = call.libpath.1 ++ [0]) ∧
    ∃ entryOf : CString → FpHentryPtr,
      (∀ call ∈ calls, mem.Stores (entryOf call.libpath) (call.libpath.1 ++ [0]) ∧
        findHashentry hash fuel mem call.libpath true = some (.ok (entryOf call.libpath, mem))) ∧
      ∀ call ∈ calls, ∀ call' ∈ calls, entryOf call.libpath = entryOf call'.libpath → call.libpath = call'.libpath

/-- What a call needs that makes an entry for its key: blocks for the entry and the key, and a `path` that is as long
as the key, which is the length that is copied. -/
structure Call.FitsKey (hash : CString → FpIndex) (pre : List Call) (call : Call) : Prop where
  entryBlock : (∃ c ∈ pre, hash c.libpath = hash call.libpath) → call.entryBlock = true
  keyBlock : call.keyBlock = true
  length : call.len = call.libpath.1.length + 1

theorem hash_makeAll {h : FpIndex} :
    (∃ m ∈ makeAll sha256 pre, hash m.libpath = h) ↔ ∃ c ∈ pre, hash c.libpath = h := by
  constructor
  · rintro ⟨m, hm, hhash⟩
    obtain ⟨c, hc, rfl⟩ := mem_makeAll hm
    exact ⟨c, hc, hhash⟩
  · rintro ⟨c, hc, hhash⟩
    have hknown : (makeAll sha256 pre).any (·.libpath = c.libpath) = true := any_makeAll.2 ⟨c, hc, rfl⟩
    obtain ⟨m, hm, hpath⟩ := List.any_eq_true.1 hknown
    have hpath : m.libpath = c.libpath := of_decide_eq_true hpath
    exact ⟨m, hm, hpath ▸ hhash⟩

/-- The block of a key is a whole key only if it is that one. -/
theorem complete_of_block {s : CString} (h : m.block = s.1 ++ [0]) : m.Complete := by
  obtain ⟨behind, n, hblock⟩ := m.block_eq
  have hlong : m.libpath.1.length < n := by
    by_contra hshort
    rw [List.take_append_of_le_length (Nat.le_of_not_lt hshort)] at hblock
    have hzero : (0 : UInt8) ∈ m.libpath.1.take n := by
      rw [← hblock, h]
      simp
    exact m.libpath.2 (List.mem_of_mem_take hzero)
  obtain ⟨k, rfl⟩ := Nat.exists_eq_add_of_lt hlong
  rw [List.take_append, List.take_of_length_le (by omega)] at hblock
  have hrest : m.libpath.1.length + k + 1 - m.libpath.1.length = k + 1 := by omega
  rw [hrest, List.take_succ_cons, h] at hblock
  have hsame := congrArg untilNul hblock
  rw [untilNul_append, untilNul_append] at hsame
  rw [Made.Complete, h, hsame]

/-- A call that gets an entry stores its key whole exactly when it copies as many bytes as the key has. -/
theorem complete_made_iff (hlen : call.len ≤ call.object.length) :
    (call.made sha256).Complete ↔ call.len = call.libpath.1.length + 1 := by
  constructor
  · intro hcomplete
    have hlength := congrArg List.length hcomplete
    simp only [Call.made, List.length_take, Nat.min_eq_left hlen, List.length_append, List.length_singleton] at hlength
    exact hlength
  · intro hlength
    have hone : call.libpath.1.length + 1 - call.libpath.1.length = 1 := by omega
    have htake : call.object.take call.len = call.libpath.1 ++ [0] := by
      rw [Call.object, hlength, List.take_append, List.take_of_length_le (Nat.le_succ _), hone]
      rfl
    exact htake

theorem getsEntry_of_fitsKey (h : call.FitsKey hash pre) :
    call.GetsEntry hash (makeAll sha256 pre) ∧ (call.made sha256).Complete := by
  have hle : call.len ≤ call.object.length := by
    rw [h.length, Call.object, List.length_append, List.length_cons]
    omega
  refine ⟨⟨fun hused => h.entryBlock (hash_makeAll.1 hused), h.keyBlock, hle⟩, (complete_made_iff hle).2 h.length⟩

theorem answer_of_first (hfirst : call.First pre) :
    answer sha256 (makeAll sha256 pre) call =
      match call.file.measure with
      | none => .failed
      | some content => .measured (sha256 content) := by
  rw [answer, find?_makeAll, first_iff_find?.1 hfirst]
  rfl

theorem answer_of_known {first : Call} (h : pre.find? (·.libpath = call.libpath) = some first) :
    answer sha256 (makeAll sha256 pre) call = .cached (storedDigest sha256 first.file.measure) := by
  rw [answer, find?_makeAll, h]
  rfl

/-- A call reports the digest of the file that the first call measures. -/
theorem answer_digest (hfiles : ∀ c ∈ pre ++ call :: back, c.file.measure.isSome) :
    ∃ digest, firstDigest sha256 (pre ++ call :: back) call = some digest ∧
      (answer sha256 (makeAll sha256 pre) call).digest? = some digest := by
  cases hfind : pre.find? (·.libpath = call.libpath) with
  | none =>
    have hfirst : call.First pre := first_iff_find?.2 hfind
    obtain ⟨content, hcontent⟩ := Option.isSome_iff_exists.1 (hfiles call (by simp))
    refine ⟨sha256 content, ?_, ?_⟩
    · rw [firstDigest, find?_first hfirst, Option.bind_some, hcontent]
      rfl
    · rw [answer_of_first hfirst, hcontent]
      rfl
  | some first =>
    have hmem : first ∈ pre := List.mem_of_find?_eq_some hfind
    obtain ⟨content, hcontent⟩ := Option.isSome_iff_exists.1 (hfiles first (List.mem_append_left _ hmem))
    refine ⟨sha256 content, ?_, ?_⟩
    · rw [firstDigest, List.find?_append, hfind, Option.some_or, Option.bind_some, hcontent]
      rfl
    · rw [answer_of_known hfind, hcontent]
      rfl

/-- Every entry that was made is stored. -/
theorem stores_of_made (hrep : Represents hash mem made) (hm : m ∈ made) : ∃ fp, mem.Stores fp m.block := by
  obtain ⟨⟨bucketOf, hbuckets⟩, -⟩ := hrep
  have hholds := hbuckets (hash m.libpath)
  have hmem : m ∈ made.filter fun m' => hash m'.libpath = hash m.libpath := List.mem_filter.2 ⟨hm, by simp⟩
  rcases hms : made.filter (fun m' => hash m'.libpath = hash m.libpath) with _ | ⟨m₀, ms⟩
  · rw [hms] at hmem
    cases hmem
  · rw [hms] at hholds hmem
    obtain ⟨hhead, l, hl, hdata, -⟩ := hholds
    rcases List.mem_cons.1 hmem with rfl | hmem
    · exact ⟨.bucket (hash m.libpath), _, rfl, congrArg Prod.fst hhead⟩
    · have hstored : m.data ∈ l.map (·.2.data) := hdata ▸ List.mem_map_of_mem hmem
      obtain ⟨x, hx, hsame⟩ := List.mem_map.1 hstored
      exact ⟨.allocated x.1, x.2, readAt_eq_ok.2 (hl.cell x hx), congrArg Prod.fst hsame⟩

/-- Nothing is stored but the entries that were made. -/
theorem made_of_stores (hrep : Represents hash mem made) {fp : FpHentryPtr} {key : Bytes} (h : mem.Stores fp key) :
    ∃ m ∈ made, key = m.block := by
  obtain ⟨e, hread, hpath⟩ := h
  cases fp with
  | allocated i =>
    obtain ⟨m, hm, hblock⟩ := hrep.cells e (List.mem_of_getElem? (readAt_eq_ok.1 hread))
    exact ⟨m, hm, Option.some_inj.1 (hpath.symm.trans hblock)⟩
  | bucket h =>
    obtain ⟨⟨bucketOf, hbuckets⟩, -⟩ := hrep
    have hholds := hbuckets h
    cases hread
    rcases hms : made.filter (fun m => hash m.libpath = h) with _ | ⟨m, ms⟩
    · rw [hms] at hholds
      have hzero : mem.filepathHtable h = .zero := hholds
      rw [hzero] at hpath
      cases hpath
    · rw [hms] at hholds
      refine ⟨m, List.mem_of_mem_filter (hms ▸ List.mem_cons_self : m ∈ made.filter _), ?_⟩
      have hblock : (mem.filepathHtable h).path = some m.block := congrArg Prod.fst hholds.1
      exact Option.some_inj.1 (hpath.symm.trans hblock)

/-- The search for a key that has an entry ends at it, where all keys are whole. -/
theorem findHashentry_known (hrep : Represents hash mem made) (hfuel : mem.heap.length < fuel)
    (hcomplete : ∀ m ∈ made, m.Complete) (hknown : made.any (·.libpath = path) = true) :
    ∃ fp, findHashentry hash fuel mem path true = some (.ok (fp, mem)) ∧ mem.Stores fp (path.1 ++ [0]) := by
  obtain ⟨⟨bucketOf, hbuckets⟩, -⟩ := hrep
  have hholds := hbuckets (hash path)
  have hfind : (made.filter fun m => hash m.libpath = hash path).find? (·.libpath = path) ≠ none := by
    rw [find?_bucket]
    intro hnone
    obtain ⟨m, hm, hkey⟩ := List.any_eq_true.1 hknown
    exact List.find?_eq_none.1 hnone m hm hkey
  rcases hms : made.filter (fun m => hash m.libpath = hash path) with _ | ⟨m, ms⟩
  · rw [hms] at hfind
    exact absurd rfl hfind
  · rw [hms] at hholds hfind
    obtain ⟨hhead, l, hl, hdata, -⟩ := hholds
    have hinside : ∀ m' ∈ m :: ms, m'.Complete := fun m' hm' => hcomplete m' (List.mem_of_mem_filter (hms ▸ hm'))
    rcases findHashentry_cases true hhead hl hdata (Nat.lt_of_le_of_lt hl.length_le hfuel) with
      ⟨f, hsearch, -⟩ | ⟨m', fp, hsearch, ⟨e, hread, hdata'⟩, hrun⟩ | ⟨hsearch, -⟩
    · obtain ⟨m', hm', hincomplete⟩ := search_eq_error hsearch
      exact absurd (hinside m' hm') hincomplete
    · have hm' := (search_eq_ok hsearch).symm
      have hkey := List.find?_some hm'
      have hpath : m'.libpath = path := of_decide_eq_true hkey
      refine ⟨fp, hrun, e, hread, ?_⟩
      have hblock : e.path = some m'.block := congrArg Prod.fst hdata'
      rw [hblock, ← hpath, hinside m' (List.mem_of_find?_eq_some hm')]
    · exact absurd (search_eq_ok hsearch).symm hfind

/-- The condition on a sequence of calls: those that are first for their keys fit them. -/
def FirstCallsFit (hash : CString → FpIndex) (calls : List Call) : Prop :=
  ∀ pre call back, calls = pre ++ call :: back → call.First pre → call.FitsKey hash pre

theorem complete_of_firstCallsFit (hfits : FirstCallsFit hash calls) : ∀ m ∈ makeAll sha256 calls, m.Complete := by
  induction calls using List.reverseRecOn with
  | nil => exact fun _ hm => absurd hm List.not_mem_nil
  | append_singleton calls call ih =>
    have hearlier : FirstCallsFit hash calls := by
      intro pre c back hsplit
      exact hfits pre c (back ++ [call]) (by rw [hsplit, List.append_assoc, List.cons_append])
    intro m hm
    rw [makeAll_concat, make] at hm
    split_ifs at hm with hknown
    · exact ih hearlier m hm
    · rcases List.mem_append.1 hm with hm | hm
      · exact ih hearlier m hm
      · rw [List.mem_singleton.1 hm]
        have hfirst : call.First calls := first_iff.2 hknown
        have hfit : call.GetsEntry hash (makeAll sha256 calls) ∧ (call.made sha256).Complete :=
          getsEntry_of_fitsKey (hfits calls call [] rfl hfirst)
        exact hfit.2

/-- From the zeroed memory on. -/
theorem runCalls_zeroed (hfuel : calls.length < fuel)
    (hrun : runCalls hash sha256 fuel .zeroed calls = some (.ok (outcomes, mem))) :
    Represents hash mem (makeAll sha256 calls) ∧ mem.heap.length < fuel ∧
      ∀ front call back, calls = front ++ call :: back →
        outcomes[front.length]? = some (answer sha256 (makeAll sha256 front) call) ∧
        (call.First front → call.GetsEntry hash (makeAll sha256 front)) := by
  have hstart : (Memory.zeroed : Memory).heap.length = 0 := rfl
  have hrep : Represents hash .zeroed (makeAll sha256 []) := represents_zeroed hash
  obtain ⟨hrep', hlen, hends⟩ := runCalls_represents hrep (by omega) hrun
  rw [List.nil_append] at hrep'
  exact ⟨hrep', by omega, hends⟩

theorem isMap_of_firstCallsFit (hfiles : ∀ call ∈ calls, call.file.measure.isSome) (hfuel : calls.length < fuel)
    (hfits : FirstCallsFit hash calls) : IsMap hash sha256 fuel calls := by
  have hstart : (Memory.zeroed : Memory).heap.length = 0 := rfl
  have hroom : Memory.zeroed.heap.length + calls.length ≤ fuel := by omega
  have hrep₀ : Represents hash .zeroed (makeAll sha256 []) := represents_zeroed hash
  obtain ⟨outcomes, mem, hrun⟩ := runCalls_defined hrep₀ hroom (fun _ hm => absurd hm List.not_mem_nil)
    fun front call back hsplit hfirst => by
      rw [List.nil_append] at hfirst ⊢
      exact getsEntry_of_fitsKey (hfits front call back hsplit hfirst)
  obtain ⟨hrep, hlen, hends⟩ := runCalls_zeroed hfuel hrun
  have hcomplete : ∀ m ∈ makeAll sha256 calls, m.Complete := complete_of_firstCallsFit hfits
  refine ⟨outcomes, mem, hrun, ?_, ?_, ?_⟩
  · rintro pre call back rfl
    obtain ⟨digest, hdigest, hanswer⟩ := answer_digest hfiles
    refine ⟨digest, hdigest, ?_⟩
    rw [(hends pre call back rfl).1, Option.map_some, hanswer]
  · intro fp key hstores
    obtain ⟨m, hm, rfl⟩ := made_of_stores hrep hstores
    obtain ⟨call, hcall, rfl⟩ := mem_makeAll hm
    exact ⟨call, hcall, hcomplete _ hm⟩
  · have hentries : ∀ path : CString, ∃ fp, (makeAll sha256 calls).any (·.libpath = path) = true →
        findHashentry hash fuel mem path true = some (.ok (fp, mem)) ∧ mem.Stores fp (path.1 ++ [0]) := by
      intro path
      by_cases hknown : (makeAll sha256 calls).any (·.libpath = path) = true
      · obtain ⟨fp, hfp⟩ := findHashentry_known hrep hlen hcomplete hknown
        exact ⟨fp, fun _ => hfp⟩
      · exact ⟨.allocated 0, fun hknown' => absurd hknown' hknown⟩
    choose entryOf hentryOf using hentries
    have hcalled : ∀ call ∈ calls, findHashentry hash fuel mem call.libpath true =
        some (.ok (entryOf call.libpath, mem)) ∧ mem.Stores (entryOf call.libpath) (call.libpath.1 ++ [0]) :=
      fun call hcall => hentryOf call.libpath (any_makeAll.2 ⟨call, hcall, rfl⟩)
    refine ⟨entryOf, fun call hcall => (hcalled call hcall).symm, fun call hcall call' hcall' hsame => ?_⟩
    obtain ⟨e, hread, hpath⟩ := (hcalled call hcall).2
    obtain ⟨e', hread', hpath'⟩ := (hcalled call' hcall').2
    rw [hsame, hread'] at hread
    cases hread
    have hkeys := congrArg untilNul (Option.some_inj.1 (hpath.symm.trans hpath'))
    rwa [untilNul_append, untilNul_append] at hkeys

theorem firstCallsFit_of_isMap (hfuel : calls.length < fuel) (hmap : IsMap hash sha256 fuel calls) :
    FirstCallsFit hash calls := by
  obtain ⟨outcomes, mem, hrun, -, hkeys, -⟩ := hmap
  obtain ⟨hrep, -, hends⟩ := runCalls_zeroed hfuel hrun
  rintro pre call back rfl hfirst
  have hgets := (hends pre call back rfl).2 hfirst
  -- the entry of the first call is stored, so that its key is whole
  have hmade : call.made sha256 ∈ makeAll sha256 (pre ++ call :: back) := by
    have hfind : (makeAll sha256 (pre ++ call :: back)).find? (·.libpath = call.libpath) =
        some (call.made sha256) := by
      rw [find?_makeAll, find?_first hfirst]
      rfl
    exact List.mem_of_find?_eq_some hfind
  obtain ⟨fp, hstores⟩ := stores_of_made hrep hmade
  obtain ⟨c, -, hblock⟩ := hkeys fp _ hstores
  exact ⟨fun hused => hgets.entryBlock (hash_makeAll.2 hused), hgets.keyBlock,
    (complete_made_iff hgets.object).1 (complete_of_block hblock)⟩

/-- Where all files can be read, the cache is a map for a sequence of calls exactly when those that are first for their
keys fit them. -/
theorem runCalls_isMap_iff (hash : CString → FpIndex) (sha256 : Bytes → ByteBuf 32) (calls : List Call)
    (hfiles : ∀ call ∈ calls, call.file.measure.isSome) :
    ∃ bound, ∀ fuel ≥ bound, (IsMap hash sha256 fuel calls ↔ FirstCallsFit hash calls) := by
  refine ⟨calls.length + 1, fun fuel hfuel => ?_⟩
  constructor
  · exact firstCallsFit_of_isMap hfuel
  · exact isMap_of_firstCallsFit hfiles hfuel

/-- All keys have one hash. -/
def oneBucket : CString → FpIndex := fun _ => ⟨0, by decide⟩

/-- Every step succeeds, on a file of two bytes. -/
def readable : FileCalls := ⟨true, some 2, true, some [0x7f, 0x45], true, true, true, true⟩

/-- A library whose path is longer than the name of its mapping, twice. -/
def longKey : List Call :=
  List.replicate 2 ⟨cstr "/usr/lib/x86_64/libcrypto.so.3", [], cstr "/proc/7/map_files/1000-2000", true, true, readable⟩

/-- The key is stored without its end, and the second call reads past it. -/
theorem runCalls_longKey_not_isMap : (∀ call ∈ longKey, call.file.measure.isSome) ∧
    ¬ ∃ bound, ∀ fuel ≥ bound, IsMap oneBucket (fun _ => ByteBuf.zero 32) fuel longKey := by
  refine ⟨by decide, ?_⟩
  rintro ⟨bound, hmap⟩
  obtain ⟨outcomes, mem, hrun, -⟩ := hmap bound (Nat.le_refl bound)
  have hfault : runCalls oneBucket (fun _ => ByteBuf.zero 32) bound .zeroed longKey = some (.error .outOfBounds) := rfl
  rw [hfault] at hrun
  cases hrun

/-- A library whose path is as long as the name of its mapping. -/
def equalLengths : List Call :=
  [⟨cstr "/lib/ld-linux-x86-64.so.2", [], cstr "/proc/7/map_files/100-200", true, true, readable⟩]

theorem runCalls_isMap_equalLengths : ∃ bound, ∀ fuel ≥ bound,
    (IsMap oneBucket (fun _ => ByteBuf.zero 32) fuel equalLengths ↔ FirstCallsFit oneBucket equalLengths) :=
  runCalls_isMap_iff oneBucket (fun _ => ByteBuf.zero 32) equalLengths (by decide)

/-! ### Failed measurements -/

/-- What is reported was computed: a call that returns 0 reports the SHA-256 digest of what it or an earlier call for
the same key read and hashed; and the call for a key that follows a failed one is not answered from the cache. -/
structure Truthful (sha256 : Bytes → ByteBuf 32) (calls : List Call) (outcomes : List Outcome) : Prop where
  computed : ∀ front call back digest, calls = front ++ call :: back →
    outcomes[front.length]?.bind (·.digest?) = some digest →
    ∃ pre earlier post content, front ++ [call] = pre ++ earlier :: post ∧ earlier.libpath = call.libpath ∧
      earlier.file.measure = some content ∧ outcomes[pre.length]? = some (.measured digest) ∧ digest = sha256 content
  again : ∀ pre failed mid call back, calls = pre ++ failed :: (mid ++ call :: back) → failed.libpath = call.libpath →
    (∀ c ∈ mid, c.libpath ≠ call.libpath) → outcomes[pre.length]? = some .failed →
    ∀ digest, outcomes[(pre ++ failed :: mid).length]? ≠ some (.cached digest)

/-- The condition on a sequence of calls: the first call for a key succeeds if there is another one for it. -/
def FirstCallsSucceed (calls : List Call) : Prop :=
  ∀ pre first mid call back, calls = pre ++ first :: (mid ++ call :: back) → first.First pre →
    first.libpath = call.libpath → first.file.measure.isSome

/-- A call that is not answered from the cache is the first for its key. -/
theorem first_of_not_cached (h : ∀ digest, answer sha256 (makeAll sha256 pre) call ≠ .cached digest) :
    call.First pre := by
  cases hfind : pre.find? (·.libpath = call.libpath) with
  | some first => exact absurd (answer_of_known hfind) (h _)
  | none => exact first_iff_find?.2 hfind

/-- Only a first call measures a file. -/
theorem measured_inv {digest : ByteBuf 32} (h : answer sha256 (makeAll sha256 pre) call = .measured digest) :
    call.First pre ∧ call.file.measure.map sha256 = some digest := by
  have hfirst : call.First pre := first_of_not_cached (by rw [h]; exact nofun)
  rw [answer_of_first hfirst] at h
  cases hmeasure : call.file.measure with
  | none =>
    rw [hmeasure] at h
    cases h
  | some content =>
    rw [hmeasure] at h
    cases h
    exact ⟨hfirst, rfl⟩

/-- Only a first call fails. -/
theorem failed_inv (h : answer sha256 (makeAll sha256 pre) call = .failed) :
    call.First pre ∧ call.file.measure = none := by
  have hfirst : call.First pre := first_of_not_cached (by rw [h]; exact nofun)
  rw [answer_of_first hfirst] at h
  cases hmeasure : call.file.measure with
  | none => exact ⟨hfirst, rfl⟩
  | some content =>
    rw [hmeasure] at h
    cases h

/-- How the calls of a run ended, as far as the entries tell. -/
def EndsAs (sha256 : Bytes → ByteBuf 32) (calls : List Call) (outcomes : List Outcome) : Prop :=
  ∀ front call back, calls = front ++ call :: back →
    outcomes[front.length]? = some (answer sha256 (makeAll sha256 front) call)

theorem truthful_of_firstCallsSucceed (hends : EndsAs sha256 calls outcomes) (hsucceed : FirstCallsSucceed calls) :
    Truthful sha256 calls outcomes := by
  constructor
  · intro front call back digest hsplit hdigest
    rw [hends front call back hsplit, Option.bind_some] at hdigest
    cases hfind : front.find? (·.libpath = call.libpath) with
    | none =>
      have hfirst : call.First front := first_iff_find?.2 hfind
      rw [answer_of_first hfirst] at hdigest
      cases hmeasure : call.file.measure with
      | none =>
        rw [hmeasure] at hdigest
        cases hdigest
      | some content =>
        rw [hmeasure] at hdigest
        cases hdigest
        refine ⟨front, call, [], content, rfl, rfl, hmeasure, ?_, rfl⟩
        rw [hends front call back hsplit, answer_of_first hfirst, hmeasure]
    | some first =>
      obtain ⟨hpath, pre, post, rfl, hfirst⟩ := exists_first hfind
      rw [List.append_assoc, List.cons_append] at hsplit
      have hsome := hsucceed pre first post call back hsplit hfirst hpath
      obtain ⟨content, hcontent⟩ := Option.isSome_iff_exists.1 hsome
      rw [answer_of_known hfind, hcontent] at hdigest
      cases hdigest
      refine ⟨pre, first, post ++ [call], content, ?_, hpath, hcontent, ?_, rfl⟩
      · rw [List.append_assoc, List.cons_append]
      · rw [hends pre first _ hsplit, answer_of_first hfirst, hcontent]
        rfl
  · intro pre failed mid call back hsplit hpath _ hfailed
    rw [hends pre failed _ hsplit, Option.some_inj] at hfailed
    obtain ⟨hfirst, hmeasure⟩ := failed_inv hfailed
    have hsome := hsucceed pre failed mid call back hsplit hfirst hpath
    rw [hmeasure] at hsome
    cases hsome

theorem firstCallsSucceed_of_truthful (hends : EndsAs sha256 calls outcomes)
    (htruthful : Truthful sha256 calls outcomes) : FirstCallsSucceed calls := by
  intro pre first mid call back hsplit hfirst hpath
  by_contra hfails
  have hnone : first.file.measure = none := Option.not_isSome_iff_eq_none.1 hfails
  have hsplit' : calls = (pre ++ first :: mid) ++ call :: back := by
    rw [hsplit, List.append_assoc, List.cons_append]
  -- the later call is answered with the zeros of the entry
  have hknown : (pre ++ first :: mid).find? (·.libpath = call.libpath) = some first := hpath ▸ find?_first hfirst
  have hcached := hends _ call back hsplit'
  rw [answer_of_known hknown] at hcached
  have hdigest : outcomes[(pre ++ first :: mid).length]?.bind (·.digest?) =
      some (storedDigest sha256 first.file.measure) := by
    rw [hcached]
    rfl
  obtain ⟨pre', earlier, post', content, hplace, hpath', hcontent, hmeasured, -⟩ :=
    htruthful.computed _ call back _ hsplit' hdigest
  -- the call that measured is the first one for the key
  have hsplit'' : calls = pre' ++ earlier :: (post' ++ back) := by
    rw [← List.cons_append, ← List.append_assoc, ← hplace, hsplit']
    simp
  rw [hends pre' earlier _ hsplit'', Option.some_inj] at hmeasured
  have hearlier : (pre' ++ earlier :: (post' ++ back)).find? (·.libpath = earlier.libpath) = some earlier :=
    find?_first (measured_inv hmeasured).1
  have hsame : calls.find? (·.libpath = call.libpath) = some first := by
    rw [hsplit', List.find?_append, hknown, Option.some_or]
  rw [hpath', ← hsplit'', hsame] at hearlier
  cases hearlier
  rw [hnone] at hcontent
  cases hcontent

/-- Where the calls return, what they report was computed exactly when the first calls succeed that are followed by
another one for their keys. -/
theorem runCalls_truthful_iff (hash : CString → FpIndex) (sha256 : Bytes → ByteBuf 32) (calls : List Call) :
    ∃ bound, ∀ fuel ≥ bound, ∀ outcomes mem,
      runCalls hash sha256 fuel .zeroed calls = some (.ok (outcomes, mem)) →
        (Truthful sha256 calls outcomes ↔ FirstCallsSucceed calls) := by
  refine ⟨calls.length + 1, fun fuel hfuel outcomes mem hrun => ?_⟩
  have hends : EndsAs sha256 calls outcomes :=
    fun front call back hsplit => ((runCalls_zeroed hfuel hrun).2.2 front call back hsplit).1
  constructor
  · exact firstCallsSucceed_of_truthful hends
  · exact truthful_of_firstCallsSucceed hends

/-- The file is gone when it is opened. -/
def unreadable : FileCalls := ⟨false, none, false, none, false, false, false, false⟩

/-- A library that cannot be opened first, and then can. -/
def failedThenReadable : List Call :=
  [⟨cstr "/lib/ld-linux-x86-64.so.2", [], cstr "/proc/7/map_files/100-200", true, true, unreadable⟩,
    ⟨cstr "/lib/ld-linux-x86-64.so.2", [], cstr "/proc/8/map_files/100-200", true, true, readable⟩]

/-- The second call reports zeros that nothing was computed from. -/
theorem runCalls_failedThenReadable_not_truthful :
    ∃ outcomes mem, (∀ fuel, runCalls oneBucket (fun _ => ⟨List.replicate 32 1, rfl⟩) fuel .zeroed failedThenReadable =
        some (.ok (outcomes, mem))) ∧
      ¬ Truthful (fun _ => ⟨List.replicate 32 1, rfl⟩) failedThenReadable outcomes := by
  refine ⟨[.failed, .cached (ByteBuf.zero 32)], _, fun _ => rfl, fun htruthful => ?_⟩
  exact htruthful.again [] _ [] _ [] rfl rfl (fun _ hc => absurd hc List.not_mem_nil) rfl (ByteBuf.zero 32) rfl

theorem runCalls_truthful_failedThenReadable :
    ∃ bound, ∀ fuel ≥ bound, ∀ outcomes mem,
      runCalls oneBucket (fun _ => ⟨List.replicate 32 1, rfl⟩) fuel .zeroed failedThenReadable =
          some (.ok (outcomes, mem)) →
        (Truthful (fun _ => ⟨List.replicate 32 1, rfl⟩) failedThenReadable outcomes ↔
          FirstCallsSucceed failedThenReadable) :=
  runCalls_truthful_iff oneBucket (fun _ => ⟨List.replicate 32 1, rfl⟩) failedThenReadable

/-! ### The table of lists -/

/-- The calls on the table whose buckets are lists. -/
def runTable (sha256 : Bytes → ByteBuf 32) (murmurHash3 : Bytes → UInt32) :
    FpHtable → List Call → Checked (List (Option (ByteBuf 32)) × FpHtable)
  | table, [] => return ([], table)
  | table, call :: calls => do
    let (digest, table) ←
      Libmeasurement.sha256File sha256 murmurHash3 table call.libpath call.path call.file.measure
    let (digests, table) ← runTable sha256 murmurHash3 table calls
    return (digest :: digests, table)

/-- The two entries have the same digest and as much of the same key. -/
def SameEntry (m : Made) (fp : Libmeasurement.FpHentry) : Prop :=
  fp.digest = m.digest ∧
    ∃ behind n, m.block = (m.libpath.1 ++ 0 :: behind).take n ∧ fp.path = (m.libpath.1 ++ [0]).take n

/-- The buckets of the table hold the entries that were made. -/
def Agrees (murmurHash3 : Bytes → UInt32) (made : List Made) (table : FpHtable) : Prop :=
  ∀ h, List.Forall₂ SameEntry (made.filter fun m => myhash murmurHash3 m.libpath = h) (table.buckets h)

variable {murmurHash3 : Bytes → UInt32} {table : FpHtable} {ms : List Made}

/-- The comparisons in a bucket of the table are those with the blocks in memory. -/
theorem findHashentry_agrees {entries : List Libmeasurement.FpHentry} {found : Option Made}
    (hentries : List.Forall₂ SameEntry ms entries) (h : search ms path = .ok found) :
    ∃ fp, Libmeasurement.findHashentry entries path = .ok fp ∧ fp.map (·.digest) = found.map (·.digest) := by
  induction hentries with
  | nil =>
    cases h
    exact ⟨none, rfl, rfl⟩
  | @cons m fp ms entries hsame _ ih =>
    obtain ⟨hdigest, behind, n, hblock, hpath⟩ := hsame
    have hcmp : strcmpBuffer fp.path path.1 = strcmpBuffer m.block path.1 := by
      rw [hblock, hpath]
      exact strcmpBuffer_behind.symm
    rw [search_cons, bind_eq_ok] at h
    obtain ⟨same, hsame, hrest⟩ := h
    rw [Libmeasurement.findHashentry, hcmp, hsame, ok_bind]
    cases same with
    | true =>
      cases hrest
      exact ⟨some fp, rfl, congrArg some hdigest⟩
    | false => exact ih hrest

theorem len_of_lt (h : call.path.1.length + 1 < 2 ^ 31) : call.len = call.path.1.length + 1 := by
  rw [Call.len, toInt32_of_lt h, BitVec.ofInt_natCast, BitVec.toNat_ofNat, Nat.mod_eq_of_lt (by omega)]

/-- A call on the table reports the digest that the call in memory does. -/
theorem sha256File_agrees (hagrees : Agrees murmurHash3 made table) (hpath : call.path.1.length + 1 < 2 ^ 31)
    {found : Option Made}
    (hsearch : search (bucketFor (myhash murmurHash3) made call.libpath) call.libpath = .ok found) :
    ∃ table', Libmeasurement.sha256File sha256 murmurHash3 table call.libpath call.path call.file.measure =
        .ok ((answer sha256 made call).digest?, table') ∧ Agrees murmurHash3 (make sha256 made call) table' := by
  obtain ⟨fp, hfind, hdigest⟩ := findHashentry_agrees (hagrees (myhash murmurHash3 call.libpath)) hsearch
  have hfound := search_eq_ok hsearch
  rw [bucketFor, find?_bucket] at hfound
  rw [Libmeasurement.sha256File, hfind, ok_bind]
  cases found with
  | some m =>
    obtain ⟨fp, rfl, hsame⟩ := Option.map_eq_some_iff.1 hdigest
    have hknown : made.any (·.libpath = call.libpath) = true := by
      have hkey := List.find?_some hfound.symm
      exact List.any_eq_true.2 ⟨m, List.mem_of_find?_eq_some hfound.symm, hkey⟩
    rw [make_of_any hknown, answer, ← hfound]
    have hsame : fp.digest = m.digest := hsame
    refine ⟨table, ?_, hagrees⟩
    dsimp only
    rw [hsame]
    rfl
  | none =>
    obtain rfl : fp = none := Option.map_eq_none_iff.1 hdigest
    have hnew : ¬ made.any (·.libpath = call.libpath) = true := by
      intro hknown
      obtain ⟨m, hm, hkey⟩ := List.any_eq_true.1 hknown
      exact List.find?_eq_none.1 hfound.symm m hm hkey
    have hreport : call.file.measure.map sha256 = (answer sha256 made call).digest? := by
      rw [answer, ← hfound]
      cases call.file.measure <;> rfl
    rw [make_of_new hnew, ← hreport]
    refine ⟨_, rfl, fun h => ?_⟩
    dsimp only
    by_cases hh : myhash murmurHash3 call.libpath = h
    · subst hh
      rw [bucket_concat_self, Function.update_self]
      refine List.rel_append (hagrees _) (.cons ⟨rfl, call.behind, call.len, rfl, ?_⟩ .nil)
      rw [len_of_lt hpath]
      rfl
    · rw [bucket_concat_other hh, Function.update_of_ne (Ne.symm hh)]
      exact hagrees h

/-- What the calls leave in the table: for every key what was read by the first call for it. -/
theorem runTable_reads {table' : FpHtable} {digests : List (Option (ByteBuf 32))}
    (hrep : Libmeasurement.Represents sha256 murmurHash3 table)
    (h : runTable sha256 murmurHash3 table calls = .ok (digests, table')) :
    Libmeasurement.Represents sha256 murmurHash3 table' ∧ ∀ name,
      table'.firstRead name =
        (table.firstRead name).or ((calls.map fun c => (c.libpath, c.file.measure)).lookup name) := by
  induction calls generalizing table digests with
  | nil =>
    cases h
    exact ⟨hrep, fun name => (Option.or_none).symm⟩
  | cons call calls ih =>
    rw [runTable, bind_eq_ok] at h
    obtain ⟨⟨digest, table₁⟩, hturn, hrest⟩ := h
    obtain ⟨⟨digests', table₂⟩, hcalls, heq⟩ := bind_eq_ok.1 hrest
    cases heq
    obtain ⟨hrep₁, hreads₁⟩ := sha256File_turn hrep hturn
    obtain ⟨hrep', hreads⟩ := ih hrep₁ hcalls
    refine ⟨hrep', fun name => ?_⟩
    rw [hreads, List.map_cons, List.lookup_cons]
    rcases hreads₁ with ⟨read, hread, -, rfl⟩ | ⟨hnew, -, hadd⟩
    · -- the key was known, so that this call reads nothing
      by_cases hname : name = call.libpath
      · rw [hname, hread, Option.some_or, Option.some_or]
      · rw [beq_eq_false_iff_ne.2 hname]
    · rw [FpHtable.firstRead] at hnew
      rw [FpHtable.firstRead, hadd, List.lookup_append, Option.or_assoc, FpHtable.firstRead]
      congr 1
      rw [List.lookup_cons]
      cases name == call.libpath <;> rfl

theorem runTable_agrees (hrep : Represents (myhash murmurHash3) mem made)
    (hfuel : mem.heap.length + calls.length ≤ fuel) (hagrees : Agrees murmurHash3 made table)
    (hpaths : ∀ call ∈ calls, call.path.1.length + 1 < 2 ^ 31)
    (hrun : runCalls (myhash murmurHash3) sha256 fuel mem calls = some (.ok (outcomes, mem'))) :
    ∃ table', runTable sha256 murmurHash3 table calls = .ok (outcomes.map (·.digest?), table') := by
  induction calls generalizing mem made table outcomes with
  | nil =>
    cases hrun
    exact ⟨table, rfl⟩
  | cons call calls ih =>
    rw [List.length_cons] at hfuel
    rw [List.forall_mem_cons] at hpaths
    have hroom : mem.heap.length < fuel := by omega
    obtain ⟨outcome, mem₁, rest, hcall, hcalls, rfl⟩ := runCalls_cons_eq_ok.1 hrun
    rcases sha256File_cases hrep hroom call with ⟨f, hfault, -⟩ | ⟨mem₁', hstep, hrep₁, hlen, ⟨found, hsearch⟩, -⟩
    · rw [hfault] at hcall
      cases hcall
    · rw [hstep] at hcall
      cases hcall
      obtain ⟨table₁, hturn, hagrees₁⟩ := sha256File_agrees hagrees hpaths.1 hsearch
      obtain ⟨table', hrest⟩ := ih hrep₁ (by omega) hagrees₁ hpaths.2 hcalls
      refine ⟨table', ?_⟩
      rw [runTable, hturn, ok_bind]
      dsimp only
      rw [hrest]
      rfl

/-- A run in memory and one on the table report the same digests. -/
theorem runCalls_agrees (murmurHash3 : Bytes → UInt32) (sha256 : Bytes → ByteBuf 32) (calls : List Call)
    (hpaths : ∀ call ∈ calls, call.path.1.length + 1 < 2 ^ 31) :
    ∃ bound, ∀ fuel ≥ bound, ∀ outcomes mem,
      runCalls (myhash murmurHash3) sha256 fuel .zeroed calls = some (.ok (outcomes, mem)) →
        ∃ table, runTable sha256 murmurHash3 .empty calls = .ok (outcomes.map (·.digest?), table) := by
  refine ⟨calls.length + 1, fun fuel hfuel outcomes mem hrun => ?_⟩
  have hstart : (Memory.zeroed : Memory).heap.length = 0 := rfl
  exact runTable_agrees (represents_zeroed _) (by omega) (fun _ => .nil) hpaths hrun

end PortableTlsRa.Libmeasurement.InMemory
