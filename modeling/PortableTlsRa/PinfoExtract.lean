import PortableTlsRa.Lib.Layout
import PortableTlsRa.PicaEvidence
import PortableTlsRa.ProcInfo

/-!
# Extracting the process chain

`pica_extract_pinfo` decodes the process chain of the evidence: an array of byte strings, each the serialisation of a
map for one process.  The first ten entries of a map are taken by their place, the others are the libraries.  What
the array elements are is not checked; an element that is none of these is read as if it were (`processPairs`).
-/

namespace PortableTlsRa

open CSem Cbor

/-- A value that is no integer gives -1, as an unsigned number. -/
def mycborGetInt : Item → Nat
  | .uint _ value => value
  | _ => 2 ^ 64 - 1

/-- The copy ends at the first NUL byte of the string. -/
def mycborGetString (val : Item) : Option CString :=
  if val.isString then some (untilNul val.stringBytes) else none

/-- `out` is kept when the value is no byte string of 32 bytes. -/
def mycborCopyBstring (out : ByteBuf 32) : Item → ByteBuf 32
  | .bytes data => if h : data.length = 32 then ⟨data, h⟩ else out
  | _ => out

/-- `untypedMap` is what `cbor_map_handle` and `cbor_map_size` give on an item that is no map. -/
def processPairs (cbor : Libcbor) (untypedMap : Item → Checked (List (Item × Item))) (item : Item) :
    Checked (List (Item × Item)) := do
  match ← deref (unpackSercbor cbor item) with
  | .map _ pairs => return pairs
  | cmap => untypedMap cmap

/-- The libraries of a process; `uninit` is what the allocated array holds at first. -/
def extractLibs (uninit : Nat → ByteBuf 32) (j : Nat) : List (Item × Item) → List Fdigest
  | [] => []
  | (key, value) :: pairs =>
    ⟨mycborGetString key, mycborCopyBstring (uninit j) value⟩ :: extractLibs uninit (j + 1) pairs

/-- One turn of the loop of `extract_procinfo`. -/
def extractProcess (uninit : Nat → ByteBuf 32) (pairs : List (Item × Item)) : Checked Procinfo := do
  let pid ← readAt pairs 0
  let ppid ← readAt pairs 1
  let ruid ← readAt pairs 2
  let rgid ← readAt pairs 3
  let euid ← readAt pairs 4
  let egid ← readAt pairs 5
  let suid ← readAt pairs 6
  let sgid ← readAt pairs 7
  let path ← readAt pairs 8
  let sha256 ← readAt pairs 9
  let libs := extractLibs uninit 0 (pairs.drop 10)
  return {
    pid := toInt32 (mycborGetInt pid.2)
    ppid := toInt32 (mycborGetInt ppid.2)
    ruid := UInt32.ofNat (mycborGetInt ruid.2)
    rgid := UInt32.ofNat (mycborGetInt rgid.2)
    euid := UInt32.ofNat (mycborGetInt euid.2)
    egid := UInt32.ofNat (mycborGetInt egid.2)
    suid := UInt32.ofNat (mycborGetInt suid.2)
    sgid := UInt32.ofNat (mycborGetInt sgid.2)
    path := mycborGetString path.2
    digest := mycborCopyBstring (ByteBuf.zero 32) sha256.2
    count := toInt32 libs.length
    libs }

section

variable (cbor : Libcbor) (untypedMap : Item → Checked (List (Item × Item))) (uninit : Nat → Nat → ByteBuf 32)

/-- The loop of `extract_procinfo`, from element `i` on. -/
def extractProcesses (i : Nat) : List Item → Checked (List Procinfo)
  | [] => .ok []
  | item :: items => do
    let pairs ← processPairs cbor untypedMap item
    let p ← extractProcess (uninit i) pairs
    let pinfo ← extractProcesses (i + 1) items
    return p :: pinfo

/-- Returns the number of entries and what `*o_pinfo` points to. -/
def picaExtractPinfo (picabody : Bytes) : Checked (Int × Option (List Procinfo)) := do
  match cbor.load picabody with
  | some (.array _ items) =>
    let pinfo ← extractProcesses cbor untypedMap uninit 0 items
    let entries := toInt32 items.length
    if entries = 0 then return (-1, none)
    return (entries, some pinfo)
  | _ => return (-1, none)

end

/-! ### What is extracted -/

variable {cbor : Libcbor} {untypedMap : Item → Checked (List (Item × Item))} {uninit : Nat → Nat → ByteBuf 32}

theorem extractProcesses_length {i : Nat} {items : List Item} {pinfo : List Procinfo}
    (h : extractProcesses cbor untypedMap uninit i items = .ok pinfo) : pinfo.length = items.length := by
  induction items generalizing i pinfo with
  | nil =>
    cases h
    rfl
  | cons item items ih =>
    obtain ⟨pairs, -, hrest⟩ := bind_eq_ok.1 h
    obtain ⟨p, -, hrest⟩ := bind_eq_ok.1 hrest
    obtain ⟨others, hothers, hret⟩ := bind_eq_ok.1 hrest
    cases hret
    rw [List.length_cons, List.length_cons, ih hothers]

/-- The decoding either fails or gives the processes of all elements, of which there is one at least. -/
theorem picaExtractPinfo_cases {picabody : Bytes} {entries : Int} {pinfo : Option (List Procinfo)}
    (h : picaExtractPinfo cbor untypedMap uninit picabody = .ok (entries, pinfo)) :
    entries = -1 ∧ pinfo = none ∨
      ∃ processes, pinfo = some processes ∧ processes ≠ [] ∧ entries = toInt32 processes.length := by
  unfold picaExtractPinfo at h
  split at h
  · rename_i items _
    obtain ⟨processes, hprocesses, hret⟩ := bind_eq_ok.1 h
    have hlen := extractProcesses_length hprocesses
    dsimp only at hret
    split_ifs at hret with hzero
    · cases hret
      exact .inl ⟨rfl, rfl⟩
    · cases hret
      refine .inr ⟨processes, rfl, ?_, by rw [hlen]⟩
      intro hnil
      rw [hnil] at hlen
      rw [← hlen] at hzero
      exact hzero rfl
  · cases h
    exact .inl ⟨rfl, rfl⟩

end PortableTlsRa
