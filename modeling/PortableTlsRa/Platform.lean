import PortableTlsRa.Lib.Cbor

/-!
# What the verifiers are given by OpenSSL, TSS2 and the file system

The data types of the TPM software stack that the repository reads, as far as it reads them, and the outcomes of
the calls it makes to code outside the repository.  An outcome is data: `DigestCalls` and `VerifyCalls` list what
every call of one function returns, `FileRead` what opening and reading one file gives.  Nothing is assumed of an
outcome here.
-/

namespace PortableTlsRa

open CSem

/-! ### TSS2 types -/

structure TpmsPcrSelection where
  hash : UInt16
  sizeofSelect : UInt8
  pcrSelect : ByteBuf 4
deriving DecidableEq

/-- `pcrSelections` has the 16 cells of the C type, of which `count` are in use. -/
structure TpmlPcrSelection where
  count : UInt32
  pcrSelections : { banks : List TpmsPcrSelection // banks.length = 16 }
deriving DecidableEq

structure TpmsQuoteInfo where
  pcrSelect : TpmlPcrSelection
  pcrDigest : Bytes
deriving DecidableEq

structure Tpm2bData where
  size : UInt16
  buffer : ByteBuf 66
deriving DecidableEq

/-- The bytes of the buffer that are compared with a digest. -/
def Tpm2bData.digest (d : Tpm2bData) : ByteBuf 32 := ⟨d.buffer.1.take 32, by rw [List.length_take, d.buffer.2]; rfl⟩

/-- The fields of an attestation that are read.  `quote` is the member of the union `attested` that the code reads,
whatever the type says. -/
structure TpmsAttest where
  type : UInt16
  extraData : Tpm2bData
  quote : TpmsQuoteInfo
deriving DecidableEq

def tpm2StAttestQuote : UInt16 := 0x8018

structure TpmsSignatureRsa where
  hash : UInt16
  sig : Bytes
deriving DecidableEq, Inhabited

structure TpmsSignatureEcdsa where
  hash : UInt16
  signatureR : Bytes
  signatureS : Bytes
deriving DecidableEq, Inhabited

/-- The member of the union `signature` that is read depends on `sigAlg`. -/
structure TpmtSignature where
  sigAlg : UInt16
  rsassa : TpmsSignatureRsa
  rsapss : TpmsSignatureRsa
  ecdsa : TpmsSignatureEcdsa
deriving DecidableEq, Inhabited

namespace Tpm2Alg

def rsassa : UInt16 := 0x0014
def rsapss : UInt16 := 0x0016
def ecdsa : UInt16 := 0x0018
def sha1 : UInt16 := 0x0004
def sha256 : UInt16 := 0x000b
def sha384 : UInt16 := 0x000c
def sha512 : UInt16 := 0x000d

end Tpm2Alg

/-- The unmarshalling functions of TSS2: from the marshalled bytes and the old contents of the target to the
`TSS2_RC` and the new contents, which a failing call may have written in part. -/
structure Tss2 where
  unmarshalAttest : Bytes → TpmsAttest → UInt32 × TpmsAttest
  unmarshalSignature : Bytes → TpmtSignature → UInt32 × TpmtSignature

/-! ### libcbor -/

/-- `load` decodes the first item of a byte string.  `untyped` is what the accessors of byte strings give on an item
that is none. -/
structure Libcbor where
  load : Bytes → Option Cbor.Item
  untyped : Cbor.Item → Checked Bytes

/-- The bytes that `cbor_bytestring_handle` and `cbor_bytestring_length` describe.  A byte string of indefinite
length has length 0. -/
def Libcbor.bytestring (cbor : Libcbor) : Cbor.Item → Checked Bytes
  | .bytes data => .ok data
  | .bytesIndefinite => .ok []
  | item => cbor.untyped item

/-! ### OpenSSL outcomes -/

/-- What the calls of one `hash_extend_sha256` return.  `left` is what `new_hash` holds when the calls do not
produce the digest. -/
structure DigestCalls where
  ctxNew : Bool
  init : Int
  update₁ : Int
  update₂ : Int
  final : Int
  len : Nat
  left : ByteBuf 32
deriving DecidableEq

/-- Every call did what it is called for. -/
def DigestCalls.Succeed (c : DigestCalls) : Prop :=
  c.ctxNew = true ∧ c.init = 1 ∧ c.update₁ = 1 ∧ c.update₂ = 1 ∧ c.final = 1 ∧ c.len = 32

instance (c : DigestCalls) : Decidable c.Succeed := by
  unfold DigestCalls.Succeed
  infer_instance

/-- What the calls of one signature verification return; the first six belong to `tpm_ecdsa_to_der`. -/
structure VerifyCalls where
  binR : Bool
  binS : Bool
  sigNew : Bool
  set0 : Int
  derLen : Int
  derLenWritten : Int
  ctxNew : Bool
  init : Int
  setPadding : Int
  setMgf1 : Int
  update : Int
  final : Int
deriving DecidableEq, Inhabited

/-- What opening a file, asking for its size and reading it gives.  When `read` fails the buffer keeps the bytes
it held. -/
inductive FileRead where
  | absent
  | opened (size : Nat) (data : { d : Bytes // d.length ≤ size })
  | unread (size : Nat) (stale : Bytes)
deriving DecidableEq

/-- A file that is read whole. -/
def wholeFile (file : Bytes) : FileRead := .opened file.length ⟨file, Nat.le_refl _⟩

/-- `file_read_file`: what the buffer is then taken to hold, unless the length that is returned is 0. -/
def fileReadFile (bufsz : Nat) : FileRead → Option Bytes
  | .absent => none
  | .opened size data => if size > bufsz ∨ data.1 = [] then none else some data.1
  -- the length is that of a failed read, (size_t)-1
  | .unread size stale => if size > bufsz then none else some stale

/-- `read_pubkey`: the code and the key.  The test for a file that is not PEM is made on the wrong pointer and never
fails. -/
def readPubkey {PKey : Type} (pemKey : Bytes → Option PKey) (f : FileRead) : Int × Option PKey :=
  match fileReadFile (32 * 1024) f with
  | none => (-1, none)
  | some pem => (0, pemKey pem)

/-- `read_tpm2attest`: the code and the attestation, over what it held before. -/
def readTpm2attest (tss2 : Tss2) (f : FileRead) (regAtst : TpmsAttest) : Int × TpmsAttest :=
  match f with
  | .absent => (-1, regAtst)
  | .unread _ _ => (-1, regAtst)
  | .opened size data =>
    if size = 0 then (-1, regAtst)
    else if data.1.length ≠ size then (-1, regAtst)
    else
      let (trc, regAtst) := tss2.unmarshalAttest data.1 regAtst
      if trc ≠ 0 then (toInt32 trc.toNat, regAtst)
      -- a data type that is no quote leaves the code of the call that succeeded
      else if regAtst.type ≠ tpm2StAttestQuote then (toInt32 trc.toNat, regAtst)
      else (0, regAtst)

end PortableTlsRa
