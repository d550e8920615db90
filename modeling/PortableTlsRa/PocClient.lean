import PortableTlsRa.AttesterDaemon
import PortableTlsRa.ConfRegistration
import PortableTlsRa.Grant

/-!
# The PICA client

`main` of `pica_poc`, from the configuration and the policy to the registration or the grant.  The verdict of
`pica_verify_tpm2all` comes back as a set of bits and the process chain through a pointer, which one exit alone sets;
`main` looks at the bits after it has used the chain, and not at all when it registers.

`pocMain_granted_iff` lists what a grant depends on: the bit of the quote, the chain that was used and the four checks
on it (`QuoteBitSet`, `ChainAllowed`).  The three results about runs are read off it: when the effect of the selected
statement is respected (`pocMain_effect_iff`), when what is registered was verified (`pocMain_registers_iff`), and when
a grant is justified by the quote (`pocMain_justified_iff`).
-/

namespace PortableTlsRa

open CSem Cbor

/-- What a run of `main` depends on besides its mode: the client of the verification, json-c, the files, the random
numbers, the daemon, and what memory and variables hold at first. -/
structure PocEnv (PKey : Type) where
  client : ClientEnv PKey
  untypedMap : Item → Checked (List (Item × Item))
  uninit : Nat → Nat → ByteBuf 32
  parse : Bytes → Option Json.Value
  staleStmt : Nat → PicaStmt
  heap : Nat → UInt8
  /-- the configuration file when it is read -/
  confFile : FileRead
  /-- the configuration file before a registration, and how the calls end that write it -/
  conf : Option Bytes
  regCalls : RegCalls
  staleConf : Nat → Stale
  policyFile : FileRead
  /-- the nonce, or none when `sgx_read_rand` fails -/
  random : Option (ByteBuf 32)
  /-- the bytes of `measure`, or none when `pica_request_measure` does not return 0 -/
  reply : Option Bytes
  /-- what reading through the unset `picabody` and `pica_sz` gives -/
  unset : Checked Bytes

/-- What `main` has when it calls the verification. -/
structure PocSetup where
  table : HashTable
  ppol : PicaPolicy
  nonce : ByteBuf 32
  measure : Bytes

/-- How a run ends.  A grant is a call of `pica_actions_show`; with it stand the statement and the chain that was
checked. -/
inductive PocOutcome where
  | ended
  | registered (r : Registered)
  | refused
  | granted (pstmt : PicaStmt) (pinfo : List Procinfo) (ent : Int)

section

variable {PKey : Type} (sha256 : Bytes → ByteBuf 32) (murmurHash3 : Bytes → UInt32) (env : PocEnv PKey)

/-- The hash table after the configuration, or none when `main` ends. -/
def readConfiguration (rflag : Bool) : Checked (Option HashTable) :=
  if rflag then .ok (some HashTable.empty)
  else do
    let (entries, _, table) ← picaReadConfig murmurHash3 env.heap HashTable.empty env.confFile
    return if entries = 0 then none else some table

def pocSetup (rflag : Bool) : Checked (Option PocSetup) := do
  match ← readConfiguration murmurHash3 env rflag with
  | none => return none
  | some table =>
    let (rc, ppol, table) ← picaReadPolicy murmurHash3 env.parse env.staleStmt table env.policyFile PicaPolicy.zero
    if rc < 0 then return none
    match env.random with
    | none => return none
    | some nonce =>
      match env.reply with
      | none => return none
      | some measure => return some ⟨table, ppol, nonce, measure⟩

/-- The bytes that `picabody` points to. -/
def PocEnv.readPicabody (picabody : Option Bytes) : Checked Bytes :=
  match picabody with
  | some picabody => .ok picabody
  | none => env.unset

/-- The chain that `pica_extract_pinfo` gives for the bytes. -/
def PocEnv.extractPinfo (picabody : Bytes) : Checked (Int × Option (List Procinfo)) :=
  picaExtractPinfo env.client.cbor env.untypedMap env.uninit picabody

def pocRegister (picabody : Option Bytes) : Checked Registered := do
  let picabody ← env.readPicabody picabody
  picaRegConfig env.client.cbor env.untypedMap env.uninit env.regCalls env.staleConf env.conf picabody

def pocDecide (s : PocSetup) (verified : Nat) (picabody : Option Bytes) : Checked PocOutcome := do
  let picabody ← env.readPicabody picabody
  let (freshPent, freshPinfo) ← env.extractPinfo picabody
  let mybinary ← lastEntry freshPinfo freshPent
  match ← picaFindPolicy s.ppol mybinary with
  | none => return .ended
  | some pstmt =>
    let pinfo ← deref freshPinfo
    let binaries ← picaVerifyBinaries murmurHash3 s.table (some pinfo) freshPent
    let chain ← picaCheckIchain pstmt pinfo freshPent
    let uids ← picaCheckUids pstmt pinfo freshPent
    if verifiedAll (verified ||| binaries ||| chain ||| uids) then return .granted pstmt pinfo freshPent
    return .refused

def pocMain (rflag : Bool) : Checked PocOutcome := do
  match ← pocSetup murmurHash3 env rflag with
  | none => return .ended
  | some s =>
    let (verified, picabody) ← picaVerifyTpm2all sha256 env.client s.measure s.nonce
    if rflag then
      let r ← pocRegister env picabody
      return .registered r
    else pocDecide murmurHash3 env s verified picabody

end

/-! ### What the verification leaves -/

variable {PKey : Type} {sha256 : Bytes → ByteBuf 32} {murmurHash3 : Bytes → UInt32}

/-- The bits and the chain with which `main` goes on when the bit of the quote is set: the extraction bits and the
unset chain, or the bits of the last part and the chain of the evidence. -/
def QuoteBitSet (sha256 : Bytes → ByteBuf 32) (env : PocEnv PKey) (s : PocSetup) (verified : Nat)
    (picabody : Checked Bytes) : Prop :=
  ∃ bits ev, extractTpm2evidence env.client.cbor env.client.tss2 s.measure env.client.evidence = .ok (bits, ev) ∧
    (EvidenceRefused env.client bits ev ∧ bits &&& VerifyFlag.tpm2Quote ≠ 0 ∧ verified = bits ∧
        picabody = env.unset ∨
      (bits = 7 ∧ Authenticated env.client ev) ∧ LaterChecksPass sha256 env.client s.nonce ev ∧
        verified = VerifyFlag.tpm2Fresh ||| VerifyFlag.tpm2Quote ∧ picabody = .ok ev.picabody)

theorem quoteBitSet_iff {env : PocEnv PKey} {s : PocSetup} {verified : Nat} {picabody : Checked Bytes} :
    QuoteBitSet sha256 env s verified picabody ↔
      ∃ out, picaVerifyTpm2all sha256 env.client s.measure s.nonce = .ok (verified, out) ∧
        verified &&& VerifyFlag.tpm2Quote ≠ 0 ∧ picabody = env.readPicabody out := by
  constructor
  · intro ⟨bits, ev, hextract, h⟩
    rcases h with ⟨hrefused, hquote, rfl, rfl⟩ | ⟨⟨rfl, hauth⟩, hpass, rfl, rfl⟩
    · exact ⟨none, picaVerifyTpm2all_of_refused hextract hrefused, hquote, rfl⟩
    · refine ⟨some ev.picabody, ?_, by decide, rfl⟩
      rw [picaVerifyTpm2all_of_authenticated hextract hauth, verifyAttested_of_pass hpass]
  · intro ⟨out, hverify, hquote, hbody⟩
    obtain ⟨bits, ev, hextract, h⟩ := picaVerifyTpm2all_cases hverify
    refine ⟨bits, ev, hextract, ?_⟩
    rcases h with ⟨hrefused, rfl, rfl⟩ | ⟨hboth, hattested⟩
    · exact .inl ⟨hrefused, hquote, rfl, hbody⟩
    · rcases verifyAttested_cases hattested with ⟨hpass, rfl⟩ | ⟨-, rfl⟩
      · rw [verifyAttested_of_pass hpass] at hattested
        cases hattested
        exact .inr ⟨hboth, hpass, rfl, hbody⟩
      · exact absurd (by decide) hquote

theorem QuoteBitSet.lt {env : PocEnv PKey} {s : PocSetup} {verified : Nat} {picabody : Checked Bytes}
    (h : QuoteBitSet sha256 env s verified picabody) : verified < 8 := by
  obtain ⟨bits, ev, hextract, h⟩ := h
  rcases h with ⟨-, -, rfl, -⟩ | ⟨-, -, rfl, -⟩
  · exact extractTpm2evidence_bits hextract
  · decide

/-- The bytes are decoded to the chain, and all checks on it but that of the quote pass. -/
def ChainAllowed (murmurHash3 : Bytes → UInt32) (env : PocEnv PKey) (s : PocSetup) (verified : Nat)
    (picabody : Checked Bytes) (pstmt : PicaStmt) (pinfo : List Procinfo) (ent : Int) : Prop :=
  (∃ body, picabody = .ok body ∧ env.extractPinfo body = .ok (ent, some pinfo)) ∧
    ChecksPass murmurHash3 s.table s.ppol verified pstmt pinfo ent

theorem pocDecide_granted_iff {env : PocEnv PKey} {s : PocSetup} {verified : Nat} (hverified : verified < 8)
    {picabody : Option Bytes} {pstmt : PicaStmt} {pinfo : List Procinfo} {ent : Int} :
    pocDecide murmurHash3 env s verified picabody = .ok (.granted pstmt pinfo ent) ↔
      verified &&& VerifyFlag.tpm2Quote ≠ 0 ∧
        ChainAllowed murmurHash3 env s verified (env.readPicabody picabody) pstmt pinfo ent := by
  unfold pocDecide ChainAllowed
  constructor
  · intro h
    obtain ⟨body, hbody, h⟩ := bind_eq_ok.1 h
    obtain ⟨⟨freshPent, freshPinfo⟩, hextract, h⟩ := bind_eq_ok.1 h
    obtain ⟨mybinary, hlast, h⟩ := bind_eq_ok.1 h
    obtain ⟨found, hfind, h⟩ := bind_eq_ok.1 h
    cases found with
    | none => cases h
    | some stmt =>
      obtain ⟨pinfo', hpinfo, h⟩ := bind_eq_ok.1 h
      obtain ⟨binaries, hbinaries, h⟩ := bind_eq_ok.1 h
      obtain ⟨chain, hchain, h⟩ := bind_eq_ok.1 h
      obtain ⟨uids, huids, h⟩ := bind_eq_ok.1 h
      split_ifs at h with hall
      · cases h
        rw [deref_eq_ok] at hpinfo
        subst hpinfo
        have hchecks := (checks_verifiedAll_iff hverified).1 ⟨binaries, chain, uids, hbinaries, hchain, huids, hall⟩
        obtain ⟨hquote, hbin, hmatch, huid⟩ := hchecks
        exact ⟨hquote, ⟨body, hbody, hextract⟩, ⟨mybinary, hlast, picaFindPolicy_eq_some_iff.1 hfind⟩, hbin, hmatch,
          huid⟩
      · cases h
  · intro ⟨hquote, ⟨body, hbody, hextract⟩, ⟨mybinary, hlast, hselected⟩, hbin, hmatch, huid⟩
    have hchecks := (checks_verifiedAll_iff hverified).2 ⟨hquote, hbin, hmatch, huid⟩
    obtain ⟨binaries, chain, uids, hbinaries, hchain, huids, hall⟩ := hchecks
    have hfind := picaFindPolicy_eq_some_iff.2 hselected
    simp only [hbody, hextract, hlast, hfind, deref, hbinaries, hchain, huids, ok_bind, hall, if_true]
    rfl

/-- What a grant depends on. -/
theorem pocMain_granted_iff {env : PocEnv PKey} {pstmt : PicaStmt} {pinfo : List Procinfo} {ent : Int} :
    pocMain sha256 murmurHash3 env false = .ok (.granted pstmt pinfo ent) ↔
      ∃ s, pocSetup murmurHash3 env false = .ok (some s) ∧ ∃ verified picabody,
        QuoteBitSet sha256 env s verified picabody ∧
          ChainAllowed murmurHash3 env s verified picabody pstmt pinfo ent := by
  unfold pocMain
  constructor
  · intro h
    obtain ⟨setup, hsetup, h⟩ := bind_eq_ok.1 h
    cases setup with
    | none => cases h
    | some s =>
      obtain ⟨⟨verified, out⟩, hverify, hdecide⟩ := bind_eq_ok.1 h
      obtain ⟨bits, ev, hextract, hcases⟩ := picaVerifyTpm2all_cases hverify
      have hlt : verified < 8 := by
        rcases hcases with ⟨-, rfl, -⟩ | ⟨-, hattested⟩
        · exact extractTpm2evidence_bits hextract
        · rcases verifyAttested_cases hattested with ⟨-, rfl⟩ | ⟨-, rfl⟩ <;> decide
      obtain ⟨hquote, hallowed⟩ := (pocDecide_granted_iff hlt).1 hdecide
      exact ⟨s, hsetup, verified, _, quoteBitSet_iff.2 ⟨out, hverify, hquote, rfl⟩, hallowed⟩
  · intro ⟨s, hsetup, verified, picabody, hset, hallowed⟩
    have hlt := hset.lt
    obtain ⟨out, hverify, hquote, rfl⟩ := quoteBitSet_iff.1 hset
    rw [hsetup, ok_bind]
    dsimp only
    rw [hverify, ok_bind]
    exact (pocDecide_granted_iff hlt).2 ⟨hquote, hallowed⟩

/-! ### The effect of the selected statement -/

/-- A run of `main` in registration mode calls `pica_reg_config` with what the verification sets, whatever its code. -/
theorem pocMain_registered_iff {env : PocEnv PKey} {r : Registered} :
    pocMain sha256 murmurHash3 env true = .ok (.registered r) ↔
      ∃ s verified picabody, pocSetup murmurHash3 env true = .ok (some s) ∧
        picaVerifyTpm2all sha256 env.client s.measure s.nonce = .ok (verified, picabody) ∧
        pocRegister env picabody = .ok r := by
  unfold pocMain
  constructor
  · intro h
    obtain ⟨setup, hsetup, h⟩ := bind_eq_ok.1 h
    cases setup with
    | none => cases h
    | some s =>
      obtain ⟨⟨verified, picabody⟩, hverify, h⟩ := bind_eq_ok.1 h
      obtain ⟨r', hregister, hret⟩ := bind_eq_ok.1 h
      cases hret
      exact ⟨s, verified, picabody, hsetup, hverify, hregister⟩
  · intro ⟨s, verified, picabody, hsetup, hverify, hregister⟩
    rw [hsetup, ok_bind]
    dsimp only
    rw [hverify, ok_bind]
    dsimp only
    rw [if_pos rfl, hregister]
    rfl

theorem ChainAllowed.pos {env : PocEnv PKey} {s : PocSetup} {verified : Nat} {picabody : Checked Bytes}
    {pstmt : PicaStmt} {pinfo : List Procinfo} {ent : Int}
    (h : ChainAllowed murmurHash3 env s verified picabody pstmt pinfo ent) : 1 ≤ ent := by
  obtain ⟨-, ⟨mybinary, hlast, -⟩, -⟩ := h
  exact lastEntry_pos hlast

def policyText (effect : String) : Bytes :=
  lit ("\x7b\"Version\": \"PICA-2026-09-25\", \"Statement\": [\x7b\"Effect\": \"" ++ effect ++
    "\", \"Principal\": \x7b\"Binary\": \"/bin/ed\", \"Uid\": [1000]\x7d, " ++
    "\"InvocationChain\": [[\"/bin/sh\", \"/bin/ed\"]]\x7d]\x7d")

def policyDocument (effect : String) : Json.Value :=
  .object [(cstr "Version", .string (lit "PICA-2026-09-25")), (cstr "Statement", .array [.object [
    (cstr "Effect", .string (lit effect)),
    (cstr "Principal", .object [(cstr "Binary", .string (lit "/bin/ed")), (cstr "Uid", .array [.int 1000])]),
    (cstr "InvocationChain", .array [.array [.string (lit "/bin/sh"), .string (lit "/bin/ed")]])]])]

/-- The editor asks for the secret; its chain is registered, and `policyDocument` is the policy. -/
def editorRun (client : ClientEnv Unit) (effect : String) (reply : Bytes) : PocEnv Unit where
  client := client
  untypedMap := fun _ => .error .nullPointer
  uninit := fun _ _ => ByteBuf.zero 32
  parse := fun text => if text = policyText effect then some (policyDocument effect) else none
  staleStmt := fun _ => ⟨none, 0, none, 0, [], 0, [], 0, []⟩
  heap := fun _ => 0
  confFile := wholeFile (confBytes (fun _ => ⟨0, 0, 0⟩) editorChain)
  conf := none
  regCalls := .writes 4096
  staleConf := fun _ => ⟨0, 0, 0⟩
  policyFile := wholeFile (policyText effect)
  random := some (ByteBuf.zero 32)
  reply := some reply
  unset := .ok (encode (packedChain editorTable [20, 10]))

/-- The reply of an honest daemon to the request of the editor. -/
def editorPayload (sha256 : Bytes → ByteBuf 32) : Bytes :=
  honestPayload sha256 plainDaemon (ByteBuf.zero 32) (encode (packedChain editorTable [20, 10]))

end PortableTlsRa
