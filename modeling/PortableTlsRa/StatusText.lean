import PortableTlsRa.Grant
import PortableTlsRa.MapsText
import PortableTlsRa.MeasureExchange

/-!
# The text of `/proc/<pid>/status`

How `cred_pid` takes the parent and the user and group ids of a process from the text of its status file: it looks at
the lines that begin with one of three keys, and stops after the third.  From the text that the kernel writes it takes
what the kernel says, whatever the other fields hold and whatever follows (`credPid_text`); so a process cannot pass for
another by its name.  What the daemon measures with it arrives at the client (`statusUids_checked_iff`).
-/

namespace PortableTlsRa.Libprocchain

open CSem Libmeasurement

/-! ### Reading the text -/

/-- What `cred_pid` sets. -/
structure Cred where
  ppid : Int32
  ruid : UInt32
  rgid : UInt32
  euid : UInt32
  egid : UInt32
  suid : UInt32
  sgid : UInt32
deriving DecidableEq

/-- `%d`: the number as a `long`, and what follows the digits. -/
def scanLong (s : Bytes) : Option (Int × Bytes) :=
  let (negative, s) := scanSign (s.dropWhile isspace)
  let digits := s.takeWhile (isDigit 10)
  if digits = [] then none
  else
    let n := number 10 digits
    let value : Int := if negative then max (-n) (-2 ^ 63) else min n (2 ^ 63 - 1)
    some (value, s.dropWhile (isDigit 10))

/-- `sscanf(line, "%d %d %d", ...) == 3`, with the values as they are stored. -/
def scanIds (s : Bytes) : Option (UInt32 × UInt32 × UInt32) := do
  let (a, s) ← scanLong s
  let (b, s) ← scanLong s
  let (c, _) ← scanLong s
  return (UInt32.ofInt a, UInt32.ofInt b, UInt32.ofInt c)

/-- One line; none when it has none of the keys. -/
def credLine (cred : Cred) (line : Bytes) : Option Cred :=
  let s := (untilNul line).1
  if lit "PPid:" <+: s then
    some { cred with ppid := ((scanLong (s.drop 5)).map fun v => Int32.ofInt v.1).getD (-1) }
  else if lit "Uid:" <+: s then
    let (ruid, euid, suid) := (scanIds (s.drop 4)).getD (-1, -1, -1)
    some { cred with ruid := ruid, euid := euid, suid := suid }
  else if lit "Gid:" <+: s then
    let (rgid, egid, sgid) := (scanIds (s.drop 4)).getD (-1, -1, -1)
    some { cred with rgid := rgid, egid := egid, sgid := sgid }
  else none

/-- The loop, after `pass` lines with a key. -/
def credLines : Nat → Cred → List Bytes → Cred
  | _, cred, [] => cred
  | pass, cred, line :: lines =>
    if pass < 3 then
      match credLine cred line with
      | some cred => credLines (pass + 1) cred lines
      | none => credLines pass cred lines
    else cred

/-- What is set for the text of the status file; nothing is when it cannot be opened. -/
def credPid (status : Option Bytes) : Option Cred :=
  status.map fun text => credLines 0 ⟨-1, -1, -1, -1, -1, -1, -1⟩ (fgetsLines lineSize text)

/-! ### The text that the kernel writes -/

/-- A line with another key, which has no colon; newlines in what is shown are written `\n`. -/
structure OtherField where
  key : Bytes
  value : Bytes
  no_colon : (0x3a : UInt8) ∉ key
  no_newline : (0x0a : UInt8) ∉ key ++ value
  other : key ≠ lit "PPid" ∧ key ≠ lit "Uid" ∧ key ≠ lit "Gid"
  short : key.length + value.length + 2 < lineSize

/-- The line without its newline. -/
def OtherField.shown (f : OtherField) : Bytes := f.key ++ 0x3a :: f.value

/-- The ids of a process: the real one, the effective, the saved and the one for the file system. -/
structure Ids where
  real : UInt32
  effective : UInt32
  saved : UInt32
  fs : UInt32

def Ids.shown (ids : Ids) : Bytes :=
  0x09 :: digits 10 ids.real.toNat ++ 0x09 :: (digits 10 ids.effective.toNat ++ 0x09 ::
    (digits 10 ids.saved.toNat ++ 0x09 :: digits 10 ids.fs.toNat))

/-- The status of a process.  `rest` are the lines behind the group ids, among them the list of the groups, which may be
longer than the buffer for a line. -/
structure Status where
  first : List OtherField
  ppid : Nat
  ppid_lt : ppid < 2 ^ 31
  between : List OtherField
  uid : Ids
  gid : Ids
  rest : Bytes

/-- The lines up to the group ids, without their newlines. -/
def Status.shown (s : Status) : List Bytes :=
  s.first.map OtherField.shown ++ (lit "PPid:" ++ 0x09 :: digits 10 s.ppid) ::
    (s.between.map OtherField.shown ++ [lit "Uid:" ++ s.uid.shown, lit "Gid:" ++ s.gid.shown])

/-- The content of `/proc/<pid>/status`. -/
def Status.text (s : Status) : Bytes := (s.shown.flatMap fun l => l ++ [0x0a]) ++ s.rest

/-- What the kernel says. -/
def Status.cred (s : Status) : Cred where
  ppid := Int32.ofNat s.ppid
  ruid := s.uid.real
  rgid := s.gid.real
  euid := s.uid.effective
  egid := s.gid.effective
  suid := s.uid.saved
  sgid := s.gid.saved

/-! ### Lines -/

variable {cred : Cred} {l rest : Bytes} {lines : List Bytes}

theorem untilNul_isPrefix (b : Bytes) : (untilNul b).1 <+: b := List.takeWhile_prefix _

theorem untilNul_eq (h : (0 : UInt8) ∉ l) : (untilNul l).1 = l := congrArg Subtype.val (untilNul_self ⟨l, h⟩)

/-- A key ends at the first colon. -/
theorem key_eq {k key value t : Bytes} (hk : (0x3a : UInt8) ∉ k) (hkey : (0x3a : UInt8) ∉ key)
    (h : k ++ 0x3a :: t = key ++ 0x3a :: value) : k = key := by
  have hspan : ∀ {l t : Bytes}, (0x3a : UInt8) ∉ l →
      (l ++ 0x3a :: t).takeWhile (fun c => decide (c ≠ 0x3a)) = l := by
    intro l t hl
    refine (span_append (fun c hc => ?_) (fun c hc => ?_)).1
    · rw [decide_eq_true_eq]
      rintro rfl
      exact hl hc
    · cases hc
      rfl
  rw [← @hspan k t hk, h, hspan hkey]

/-- A line with another key is not looked at. -/
theorem credLine_other (cred : Cred) (f : OtherField) : credLine cred (f.shown ++ [0x0a]) = none := by
  have hnot : ∀ k : Bytes, (0x3a : UInt8) ∉ k → f.key ≠ k →
      ¬ k ++ [0x3a] <+: (untilNul (f.shown ++ [0x0a])).1 := by
    intro k hk hne hpre
    obtain ⟨t, ht⟩ := hpre.trans (untilNul_isPrefix _)
    rw [OtherField.shown, List.append_assoc, List.append_assoc, List.singleton_append, List.cons_append] at ht
    exact hne (key_eq hk f.no_colon ht).symm
  obtain ⟨hppid, huid, hgid⟩ := f.other
  have hppid' := hnot (lit "PPid") (by decide) hppid
  have huid' := hnot (lit "Uid") (by decide) huid
  have hgid' := hnot (lit "Gid") (by decide) hgid
  rw [credLine]
  dsimp only
  exact (if_neg hppid').trans ((if_neg huid').trans (if_neg hgid'))

theorem credLines_others (pass : Nat) (cred : Cred) (fields : List OtherField) (hpass : pass < 3) :
    credLines pass cred (fields.map (fun f => f.shown ++ [0x0a]) ++ lines) = credLines pass cred lines := by
  induction fields with
  | nil => rfl
  | cons f fields ih =>
    rw [List.map_cons, List.cons_append, credLines, if_pos hpass, credLine_other]
    exact ih

theorem credLines_key {pass : Nat} {cred' : Cred} (hpass : pass < 3) (hline : credLine cred l = some cred') :
    credLines pass cred (l :: lines) = credLines (pass + 1) cred' lines := by
  rw [credLines, if_pos hpass, hline]

/-- Lines that fit are read one after the other. -/
theorem fgetsLines_shown (shown : List Bytes) (h : ∀ l ∈ shown, (0x0a : UInt8) ∉ l ∧ l.length + 1 < lineSize)
    (rest : Bytes) :
    fgetsLines lineSize ((shown.flatMap fun l => l ++ [0x0a]) ++ rest) =
      shown.map (fun l => l ++ [0x0a]) ++ fgetsLines lineSize rest := by
  induction shown with
  | nil => rfl
  | cons l shown ih =>
    obtain ⟨⟨hnew, hlength⟩, hshown⟩ := List.forall_mem_cons.1 h
    have hline : fgetsFrom lineSize (lineSize - 1) [] (l ++ [0x0a]) = [l ++ [0x0a]] :=
      fgetsFrom_of_fits hnew (by omega)
    have hlast : (l ++ [0x0a]).getLast? = some 0x0a := List.getLast?_concat
    rw [List.flatMap_cons, List.append_assoc, fgetsLines, fgetsFrom_append hlast, hline, ih hshown]
    rfl

/-! ### Numbers -/

/-- A number is scanned behind a tab, where no digit follows. -/
theorem scanLong_digits {n : Nat} (hn : n < 2 ^ 32) (hrest : ∀ c ∈ rest.head?, isDigit 10 c = false) :
    scanLong (0x09 :: (digits 10 n ++ rest)) = some ((n : Int), rest) := by
  have hdigits : ∀ c ∈ digits 10 n, isDigit 10 c = true := fun c => isDigit_of_mem_digits (.inl rfl)
  obtain ⟨htake, hdrop⟩ := span_append hdigits hrest
  obtain ⟨d, t, hcons⟩ := List.exists_cons_of_ne_nil (@digits_ne_nil 10 n)
  obtain ⟨hspace, hminus, hplus, -⟩ := isDigit_ne (hdigits d (by rw [hcons]; exact List.mem_cons_self))
  have hblank : (0x09 :: (digits 10 n ++ rest)).dropWhile isspace = digits 10 n ++ rest := by
    rw [List.dropWhile_cons_of_pos rfl, hcons, List.cons_append,
      List.dropWhile_cons_of_neg (by rw [hspace]; exact Bool.false_ne_true)]
  have hsign : scanSign (digits 10 n ++ rest) = (false, digits 10 n ++ rest) := by
    rw [hcons, List.cons_append, scanSign, if_neg hminus, if_neg hplus]
  have hvalue : min (n : Int) (2 ^ 63 - 1) = n := by omega
  rw [scanLong, hblank, hsign]
  dsimp only
  rw [htake, hdrop, if_neg digits_ne_nil, number_digits (.inl rfl), if_neg Bool.false_ne_true, hvalue]

theorem ofInt_toNat (x : UInt32) : UInt32.ofInt (x.toNat : Int) = x := by
  apply UInt32.toNat_inj.1
  have hlt := x.toNat_lt
  rw [UInt32.ofInt]
  simp
  omega

theorem scanIds_shown (ids : Ids) : scanIds (ids.shown ++ [0x0a]) = some (ids.real, ids.effective, ids.saved) := by
  have htab : ∀ (s : Bytes), ∀ c ∈ (0x09 :: s).head?, isDigit 10 c = false := by
    intro s c hc
    cases hc
    rfl
  have hreal := scanLong_digits ids.real.toNat_lt (htab (digits 10 ids.effective.toNat ++ 0x09 ::
    (digits 10 ids.saved.toNat ++ 0x09 :: (digits 10 ids.fs.toNat ++ [0x0a]))))
  have heffective := scanLong_digits ids.effective.toNat_lt (htab (digits 10 ids.saved.toNat ++ 0x09 ::
    (digits 10 ids.fs.toNat ++ [0x0a])))
  have hsaved := scanLong_digits ids.saved.toNat_lt (htab (digits 10 ids.fs.toNat ++ [0x0a]))
  have hshown : ids.shown ++ [0x0a] = 0x09 :: (digits 10 ids.real.toNat ++ 0x09 :: (digits 10 ids.effective.toNat ++
      0x09 :: (digits 10 ids.saved.toNat ++ 0x09 :: (digits 10 ids.fs.toNat ++ [0x0a])))) := by
    simp only [Ids.shown, List.cons_append, List.append_assoc]
  rw [hshown, scanIds, hreal]
  simp only [Option.bind_eq_bind, Option.bind_some, heffective, hsaved, ofInt_toNat]
  rfl

/-! ### The status of a process -/

theorem digits_plain (n : Nat) : (0x0a : UInt8) ∉ digits 10 n ∧ (0 : UInt8) ∉ digits 10 n := by
  constructor
  · intro h
    exact (isDigit_ne (isDigit_of_mem_digits (.inl rfl) h)).2.2.2.2.2.1 rfl
  · intro h
    have hdigit := isDigit_of_mem_digits (.inl rfl) h
    exact absurd hdigit (by decide)

theorem digits_length_le {n : Nat} (hn : n < 2 ^ 32) : (digits 10 n).length ≤ 10 := by
  rw [digits, List.length_map, Nat.length_toDigits_le_iff (by decide) (by decide)]
  omega

theorem shown_plain (ids : Ids) :
    (0x0a : UInt8) ∉ ids.shown ∧ (0 : UInt8) ∉ ids.shown ∧ ids.shown.length ≤ 44 := by
  have hreal := digits_length_le ids.real.toNat_lt
  have heffective := digits_length_le ids.effective.toNat_lt
  have hsaved := digits_length_le ids.saved.toNat_lt
  have hfs := digits_length_le ids.fs.toNat_lt
  refine ⟨?_, ?_, ?_⟩
  · simp [Ids.shown, digits_plain]
  · simp [Ids.shown, digits_plain]
  · simp only [Ids.shown, List.cons_append, List.length_cons, List.length_append]
    omega

/-- The lines up to the group ids fit into the buffer. -/
theorem shown_fits (s : Status) : ∀ l ∈ s.shown, (0x0a : UInt8) ∉ l ∧ l.length + 1 < lineSize := by
  have hother : ∀ f : OtherField, (0x0a : UInt8) ∉ f.shown ∧ f.shown.length + 1 < lineSize := by
    intro f
    have hnew := f.no_newline
    have hshort := f.short
    rw [List.mem_append, not_or] at hnew
    refine ⟨?_, ?_⟩
    · rw [OtherField.shown, List.mem_append, List.mem_cons, not_or, not_or]
      exact ⟨hnew.1, by decide, hnew.2⟩
    · rw [OtherField.shown, List.length_append, List.length_cons]
      omega
  have hids : ∀ (k : Bytes) (ids : Ids), (0x0a : UInt8) ∉ k → k.length ≤ 5 →
      (0x0a : UInt8) ∉ k ++ ids.shown ∧ (k ++ ids.shown).length + 1 < lineSize := by
    intro k ids hk hlength
    obtain ⟨hnew, -, hshown⟩ := shown_plain ids
    refine ⟨?_, ?_⟩
    · rw [List.mem_append, not_or]
      exact ⟨hk, hnew⟩
    · rw [List.length_append, lineSize]
      omega
  intro l hl
  rw [Status.shown, List.mem_append, List.mem_cons, List.mem_append, List.mem_pair] at hl
  rcases hl with hl | rfl | hl | rfl | rfl
  · obtain ⟨f, -, rfl⟩ := List.mem_map.1 hl
    exact hother f
  · have hlength := digits_length_le (Nat.lt_trans s.ppid_lt (by decide))
    refine ⟨?_, ?_⟩
    · rw [List.mem_append, List.mem_cons, not_or, not_or]
      exact ⟨by decide, by decide, (digits_plain s.ppid).1⟩
    · have hkey : (lit "PPid:").length = 5 := rfl
      rw [List.length_append, List.length_cons, hkey, lineSize]
      omega
  · obtain ⟨f, -, rfl⟩ := List.mem_map.1 hl
    exact hother f
  · exact hids (lit "Uid:") s.uid (by decide) (by decide)
  · exact hids (lit "Gid:") s.gid (by decide) (by decide)

theorem credLine_ppid (cred : Cred) {n : Nat} (hn : n < 2 ^ 31) :
    credLine cred ((lit "PPid:" ++ 0x09 :: digits 10 n) ++ [0x0a]) = some { cred with ppid := Int32.ofNat n } := by
  have hplain : (0 : UInt8) ∉ (lit "PPid:" ++ 0x09 :: digits 10 n) ++ [0x0a] := by
    simp [digits_plain, lit]
  have hscan := @scanLong_digits [0x0a] n (Nat.lt_trans hn (by decide)) (fun c hc => by cases hc; rfl)
  have hdrop : ((lit "PPid:" ++ 0x09 :: digits 10 n) ++ [0x0a]).drop 5 = 0x09 :: (digits 10 n ++ [0x0a]) := rfl
  rw [credLine, untilNul_eq hplain]
  dsimp only
  rw [if_pos, hdrop, hscan]
  · rfl
  · rw [List.append_assoc]
    exact List.prefix_append _ _

theorem credLine_uid (cred : Cred) (ids : Ids) :
    credLine cred ((lit "Uid:" ++ ids.shown) ++ [0x0a]) =
      some { cred with ruid := ids.real, euid := ids.effective, suid := ids.saved } := by
  have hplain : (0 : UInt8) ∉ (lit "Uid:" ++ ids.shown) ++ [0x0a] := by
    simp [(shown_plain ids).2.1, lit]
  have hdrop : ((lit "Uid:" ++ ids.shown) ++ [0x0a]).drop 4 = ids.shown ++ [0x0a] := rfl
  rw [credLine, untilNul_eq hplain]
  dsimp only
  rw [if_neg, if_pos, hdrop, scanIds_shown]
  · rfl
  · rw [List.append_assoc]
    exact List.prefix_append _ _
  · rintro ⟨t, ht⟩
    cases ht

theorem credLine_gid (cred : Cred) (ids : Ids) :
    credLine cred ((lit "Gid:" ++ ids.shown) ++ [0x0a]) =
      some { cred with rgid := ids.real, egid := ids.effective, sgid := ids.saved } := by
  have hplain : (0 : UInt8) ∉ (lit "Gid:" ++ ids.shown) ++ [0x0a] := by
    simp [(shown_plain ids).2.1, lit]
  have hdrop : ((lit "Gid:" ++ ids.shown) ++ [0x0a]).drop 4 = ids.shown ++ [0x0a] := rfl
  rw [credLine, untilNul_eq hplain]
  dsimp only
  rw [if_neg, if_neg, if_pos, hdrop, scanIds_shown]
  · rfl
  · rw [List.append_assoc]
    exact List.prefix_append _ _
  · rintro ⟨t, ht⟩
    cases ht
  · rintro ⟨t, ht⟩
    cases ht

/-- From the text of the kernel `cred_pid` takes what the kernel says. -/
theorem credPid_text (s : Status) : credPid (some s.text) = some s.cred := by
  have hlines : fgetsLines lineSize s.text = s.first.map (fun f => f.shown ++ [0x0a]) ++
      ((lit "PPid:" ++ 0x09 :: digits 10 s.ppid) ++ [0x0a]) :: (s.between.map (fun f => f.shown ++ [0x0a]) ++
        ((lit "Uid:" ++ s.uid.shown) ++ [0x0a]) :: ((lit "Gid:" ++ s.gid.shown) ++ [0x0a]) ::
          fgetsLines lineSize s.rest) := by
    rw [Status.text, fgetsLines_shown _ (shown_fits s)]
    simp [Status.shown, Function.comp_def]
  rw [credPid, Option.map_some, hlines, credLines_others _ _ _ (by decide),
    credLines_key (by decide) (credLine_ppid _ s.ppid_lt), credLines_others _ _ _ (by decide),
    credLines_key (by decide) (credLine_uid _ s.uid), credLines_key (by decide) (credLine_gid _ s.gid)]
  cases fgetsLines lineSize s.rest <;> rfl

end PortableTlsRa.Libprocchain

namespace PortableTlsRa

open CSem Cbor Tpmdaemon Libmeasurement Libprocchain

/-! ### From the kernel to the client -/

/-- The variables of `mycbor_sha256_binaries` after `cred_pid`. -/
def Measurement.withCred (m : Measurement) : Option Cred → Measurement
  | none => { m with ppid := none }
  | some cred => { m with
      ppid := some cred.ppid.toInt
      ruid := cred.ruid
      rgid := cred.rgid
      euid := cred.euid
      egid := cred.egid
      suid := cred.suid
      sgid := cred.sgid }

/-- What is measured when the status files hold these texts; `others` is what the other calls leave. -/
def statusTable (status : Int → Status) (others : Int → Measurement) (pid : Int) : Measurement :=
  (others pid).withCred (credPid (some (status pid).text))

/-- The processes from `pid` to the one whose parent is process 1, as the kernel says. -/
inductive ParentLine (status : Int → Status) : Int → List Int → Prop where
  | last {pid : Int} : (status pid).ppid = 1 → ParentLine status pid [pid]
  | parent {pid : Int} {line : List Int} : (status pid).ppid ≠ 1 →
      ParentLine status ((status pid).ppid : Int) line → ParentLine status pid (pid :: line)

section

variable {status : Int → Status} {others : Int → Measurement} {pid : Int} {line : List Int}

theorem statusTable_eq (status : Int → Status) (others : Int → Measurement) (pid : Int) :
    statusTable status others pid = { others pid with
      ppid := some ((status pid).ppid : Int)
      ruid := (status pid).uid.real
      rgid := (status pid).gid.real
      euid := (status pid).uid.effective
      egid := (status pid).gid.effective
      suid := (status pid).uid.saved
      sgid := (status pid).gid.saved } := by
  have hppid : (Int32.ofNat (status pid).ppid).toInt = (status pid).ppid :=
    Int32.toInt_ofNat_of_lt (status pid).ppid_lt
  rw [statusTable, credPid_text, Measurement.withCred, ← hppid]
  rfl

/-- The walk goes where the kernel says. -/
theorem ParentLine.ancestorChain (h : ParentLine status pid line) :
    AncestorChain (statusTable status others) pid line := by
  induction h with
  | @last pid hlast =>
    refine .last ?_
    rw [statusTable_eq, hlast]
    rfl
  | @parent pid line hppid _ ih =>
    refine .parent ?_ ?_ ih
    · rw [statusTable_eq]
    · omega

/-- A chain of processes is packed, measured, accepted and decoded with the numbers that the kernel shows, and its user
ids pass exactly if the real one of every process is listed. -/
theorem statusUids_checked_iff {PKey : Type} (sha256 : Bytes → ByteBuf 32) (env : RequestEnv) (daemon : DaemonEnv)
    (client : ClientEnv PKey) (key : PKey) (regAtst : TpmsAttest)
    (untypedMap : Item → Checked (List (Item × Item))) (uninit : Nat → Nat → ByteBuf 32) (nonce : ByteBuf 32)
    (status : Int → Status) (others : Int → Measurement) (pid ppid : Int) (line : List Int) (fuel : Nat)
    (pstmt : PicaStmt) (honest : RsaAttester daemon client key regAtst) (hmade : MadeBy env daemon)
    (hline : ParentLine status pid line) (hmeasurable : ∀ p ∈ line, (statusTable status others p).Measurable p)
    (hfuel : line.length ≤ fuel) (hpica : (encode (packedChain (statusTable status others) line)).length < 2 ^ 64)
    (hprocchain : env.procchain = some (encode (packedChain (statusTable status others) line))) :
    mycborPackProcchain (fun _ => statusTable status others) fuel pid ppid =
        some (.ok (encode (packedChain (statusTable status others) line))) ∧
      picaVerifyTpm2all sha256 client
          (honestPayload sha256 daemon nonce (encode (packedChain (statusTable status others) line))) nonce =
        .ok (VerifyFlag.tpm2Fresh ||| VerifyFlag.tpm2Quote,
          some (encode (packedChain (statusTable status others) line))) ∧
      ∃ pinfo, picaExtractPinfo client.cbor untypedMap uninit (encode (packedChain (statusTable status others) line)) =
          .ok (line.length, some pinfo) ∧
        pinfo.map (fun p => (p.pid, p.ppid, p.ruid, p.euid, p.suid)) = line.reverse.map (fun p =>
          (p, ((status p).ppid : Int), (status p).uid.real, (status p).uid.effective, (status p).uid.saved)) ∧
        (picaCheckUids pstmt pinfo line.length = .ok VerifyFlag.picaUids ↔
          ∀ p ∈ line, toInt32 (status p).uid.real.toNat ∈ pstmt.uids) := by
  have hpacked := mycborPackProcchain_chain hline.ancestorChain hmeasurable hfuel ppid
  have hpacks : Packs env (statusTable status others) pid line _ :=
    ⟨hline.ancestorChain, hmeasurable, ⟨fuel, ppid, hfuel, hpacked⟩, hprocchain⟩
  obtain ⟨hverify, hextract⟩ := hpacks.accepted honest hmade hpica sha256 nonce untypedMap uninit
  refine ⟨hpacked, hverify, _, hextract, ?_, ?_⟩
  · rw [List.map_map]
    refine List.map_congr_left fun p _ => ?_
    rw [Function.comp_apply, statusTable_eq]
    rfl
  · have hlength : line.length = (line.reverse.map fun p => (statusTable status others p).procinfo p).length := by
      rw [List.length_map, List.length_reverse]
    rw [picaCheckUids_accepts_iff, hlength, uidsMatch_length_iff]
    simp only [List.forall_mem_map, List.mem_reverse, statusTable_eq]
    rfl

end

/-! ### The editor and its shell -/

def plainIds : Ids := ⟨1000, 1000, 1000, 1000⟩

/-- The editor has given itself a name that looks like a parent and an id. -/
def editorStatus (pid : Int) : Status where
  first := [⟨lit "Name", lit "\tUid: 0", by decide, by decide, by decide, by decide⟩]
  ppid := if pid = 20 then 10 else 1
  ppid_lt := by split <;> decide
  between := [⟨lit "TracerPid", lit "\t0", by decide, by decide, by decide, by decide⟩]
  uid := plainIds
  gid := plainIds
  rest := lit "FDSize:\t64\nGroups:\t4 24\n"

theorem statusTable_editor : statusTable editorStatus editorTable = editorTable := by
  funext pid
  rw [statusTable_eq, editorTable, editorStatus]
  split <;> rfl

theorem editorStatus_line : ParentLine editorStatus 20 [20, 10] := .parent (by decide) (.last rfl)

/-- What the two are packed to. -/
def editorPica : Bytes := encode (packedChain (statusTable editorStatus editorTable) [20, 10])

/-- The ids of the editor and of the shell are listed. -/
theorem editorUids_checked :
    mycborPackProcchain (fun _ => statusTable editorStatus editorTable) 2 20 0 = some (.ok editorPica) ∧
      picaVerifyTpm2all Sha256.hash plainClient
          (honestPayload Sha256.hash plainDaemon (ByteBuf.zero 32) editorPica) (ByteBuf.zero 32) =
        .ok (VerifyFlag.tpm2Fresh ||| VerifyFlag.tpm2Quote, some editorPica) ∧
      ∃ pinfo, picaExtractPinfo plainClient.cbor (fun _ => .error .nullPointer) (fun _ _ => ByteBuf.zero 32)
          editorPica = .ok (2, some pinfo) ∧
        pinfo.map (fun p => (p.pid, p.ppid, p.ruid, p.euid, p.suid)) = [(10 : Int), 20].map (fun p =>
          (p, ((editorStatus p).ppid : Int), (editorStatus p).uid.real, (editorStatus p).uid.effective,
            (editorStatus p).uid.saved)) ∧
        (picaCheckUids (editorStmt 0) pinfo 2 = .ok VerifyFlag.picaUids ↔
          ∀ p ∈ [(20 : Int), 10], toInt32 (editorStatus p).uid.real.toNat ∈ (editorStmt 0).uids) :=
  statusUids_checked_iff Sha256.hash editorDaemon plainDaemon plainClient () (quoteOfPcr10 [])
    (fun _ => .error .nullPointer) (fun _ _ => ByteBuf.zero 32) (ByteBuf.zero 32) editorStatus editorTable 20 0
    [20, 10] 2 (editorStmt 0) plain_honest editorDaemon_madeBy editorStatus_line
    (by rw [statusTable_editor]; exact editorTable_measurable) (Nat.le_refl 2)
    (by rw [statusTable_editor]; exact editorChain_size_lt) (by rw [statusTable_editor]; rfl)

end PortableTlsRa
