import PortableTlsRa.Lib.Bytes

/-!
# Measured processes and policies

The data of the PICA client: a measured or registered process, the statements of a policy, and the bits of the
verdict that the client collects.
-/

namespace PortableTlsRa

open CSem

/-- A shared library and its digest. -/
structure Fdigest where
  path : Option CString
  digest : ByteBuf 32
deriving DecidableEq

structure Procinfo where
  pid : Int
  ppid : Int
  ruid : UInt32
  rgid : UInt32
  euid : UInt32
  egid : UInt32
  suid : UInt32
  sgid : UInt32
  path : Option CString
  digest : ByteBuf 32
  count : Int
  libs : List Fdigest
deriving DecidableEq

/-- A process without libraries at the given path. -/
def processAt (path : CString) : Procinfo where
  pid := 1
  ppid := 0
  ruid := 0
  rgid := 0
  euid := 0
  egid := 0
  suid := 0
  sgid := 0
  path := some path
  digest := ByteBuf.zero 32
  count := 0
  libs := []

/-- One alternative of an invocation chain. -/
structure InvArray where
  ichnCnt : Int
  ichain : List (Option CString)
deriving DecidableEq

structure PicaStmt where
  sid : Option CString
  effect : Int
  execPath : Option CString
  uidCnt : Int
  uid : List Int
  actCnt : Int
  action : List (Option CString)
  aryCnt : Int
  iarray : List InvArray
deriving DecidableEq

/-! ### The bits of the verdict -/

namespace VerifyFlag

def tpm2Quote : Nat := 0x01
def tpm2Fresh : Nat := 0x02
def picaBinaries : Nat := 0x04
def picaChain : Nat := 0x08
def picaUids : Nat := 0x10

end VerifyFlag

end PortableTlsRa
