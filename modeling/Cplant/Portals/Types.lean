import Mathlib.Tactic.Ring
import Cplant.Foundations.FreeList
import Cplant.Foundations.LinkedCells

/-!
# The Portals 3.0 library objects

Data types of `p30/types.h`, `p30/lib-types.h` and `lib-p30.h`. An `int` of the
source is an `Int32` and wraps; match bits are 64 bits wide and event sequence
numbers 32 bits, both unsigned. User addresses and keys are integers. The `long`
statistics are unbounded.
-/
namespace Cplant.Portals
open Function

abbrev PtlId := Int32
abbrev PtlSize := Int32
abbrev PtlHandle := Int32
abbrev PtlPtIndex := Int32
abbrev PtlMatchBits := UInt64
abbrev PtlSeq := UInt32

def maxMes : ℕ := 4096
def maxMds : ℕ := 4096
def maxMsgs : ℕ := 1024
def maxEqs : ℕ := 4096

def ptlIdAny : PtlId := -1
def ptlEqNone : PtlHandle := -1
def ptlMdThreshInf : Int32 := -1

def ptlOk : Int32 := 0
def ptlNospace : Int32 := 2
def ptlInuse : Int32 := 3
def ptlValFailed : Int32 := 4
def ptlInvMd : Int32 := 12
def ptlInvMe : Int32 := 13
def ptlInvProc : Int32 := 16
def ptlInvPtindex : Int32 := 18
def ptlInvEq : Int32 := 23
def ptlEqDropped : Int32 := 24
def ptlEqEmpty : Int32 := 25
def ptlNoupdate : Int32 := 26
def ptlFail : Int32 := 27

def ptlMdOpPut : UInt32 := 0o1
def ptlMdOpGet : UInt32 := 0o2
def ptlMdManageRemote : UInt32 := 0o4
def ptlMdTruncate : UInt32 := 0o10
def ptlMdAckDisable : UInt32 := 0o20

def hasOption (options flag : UInt32) : Bool := options &&& flag != 0

inductive PtlAddrKind
  | nid
  | gid
  | both
deriving DecidableEq, Repr

structure PtlProcessId where
  addrKind : PtlAddrKind
  nid : PtlId
  pid : PtlId
  gid : PtlId
  rid : PtlId
deriving DecidableEq, Repr

inductive PtlUnlink
  | retain
  | unlink
deriving DecidableEq, Repr

inductive PtlInsPos
  | before
  | after
deriving DecidableEq, Repr

structure PtlMd where
  start : ℤ
  length : PtlSize
  threshold : Int32
  maxOffset : Int32
  options : UInt32
  userPtr : ℤ
  eventq : PtlHandle
deriving DecidableEq, Repr

inductive PtlEventKind
  | get
  | put
  | reply
  | ack
  | sent
deriving DecidableEq, Repr

structure PtlEvent where
  type : PtlEventKind
  sequence : PtlSeq
  initiator : PtlProcessId
  portal : PtlPtIndex
  matchBits : PtlMatchBits
  rlength : PtlSize
  mlength : PtlSize
  offset : PtlSize
  md : PtlMd
  hdrData : UInt64
deriving DecidableEq, Repr

/-- The source addresses of a header; `addr_kind` is never set there. -/
structure PtlSrc where
  nid : PtlId
  pid : PtlId
  gid : PtlId
  rid : PtlId
deriving DecidableEq, Repr

inductive PtlMsgBody
  | ack (dstMd : PtlHandle) (mlength : PtlSize) (matchBits : PtlMatchBits)
  | put (ptlIndex : PtlPtIndex) (ackMd : PtlHandle) (matchBits : PtlMatchBits)
      (length offset : PtlSize) (hdrData : UInt64)
  | get (ptlIndex : PtlPtIndex) (matchBits : PtlMatchBits)
      (length srcOffset returnOffset : PtlSize) (returnMd : PtlHandle)
  | reply (dstMd : PtlHandle) (dstOffset length : PtlSize)
  | barrier (sequence : Int32)
  | corrupted (type : Int32)
deriving DecidableEq, Repr

structure PtlHdr where
  nid : Int32
  pid : Int32
  src : PtlSrc
  msg : PtlMsgBody
deriving DecidableEq, Repr

structure LibCounters where
  recvCount : ℤ
  recvLength : ℤ
  sendCount : ℤ
  sendLength : ℤ
  dropCount : ℤ
  dropLength : ℤ
  msgsAlloc : ℤ
  msgsMax : ℤ
deriving DecidableEq, Repr

structure LibMsg where
  md : Option ℕ
  gid : PtlId
  rid : PtlId
  nid : PtlId
  pid : PtlId
  ev : PtlEvent
  returnMd : PtlHandle

structure LibEq where
  sequence : PtlSeq
  size : PtlSize
  base : ℤ
  pending : Int32

structure LibMe where
  matchId : PtlProcessId
  matchBits : PtlMatchBits
  ignoreBits : PtlMatchBits
  unlink : PtlUnlink

structure LibMd where
  me : Option ℕ
  start : ℤ
  offset : Int32
  length : PtlSize
  threshold : Int32
  maxOffset : Int32
  pending : Int32
  unlink : PtlUnlink
  options : UInt32
  userPtr : ℤ
  eq : Option ℕ
  doUnlink : Bool
  addrkey : ℤ

structure LibNi where
  up : Bool
  nid : PtlId
  pid : PtlId
  rid : PtlId
  gid : PtlId
  numNodes : Int32
  tblSize : PtlPtIndex
  eqPool : FreeList
  mePool : FreeList
  mdPool : FreeList
  msgPool : FreeList
  meLinks : Links PtlPtIndex
  mdLinks : Links ℕ
  eq : ℕ → LibEq
  me : ℕ → LibMe
  md : ℕ → LibMd
  msg : ℕ → LibMsg
  counters : LibCounters

namespace LibNi

def setMd (ni : LibNi) (i : ℕ) (md : LibMd) : LibNi := { ni with md := update ni.md i md }
def setEq (ni : LibNi) (i : ℕ) (eq : LibEq) : LibNi := { ni with eq := update ni.eq i eq }
def setMsg (ni : LibNi) (i : ℕ) (msg : LibMsg) : LibNi :=
  { ni with msg := update ni.msg i msg }

end LibNi

inductive NalCall
  | recv (msg : Option ℕ) (addr : Option ℤ) (mlen rlen : PtlSize)
  | send (msg : Option ℕ) (hdr : PtlHdr) (nid pid gid rid : PtlId) (addr : Option ℤ)
      (len : PtlSize)
  | write (base : ℤ) (slot : UInt32) (ev : PtlEvent)
  | validate (base : ℤ) (len : PtlSize)
  | invalidate (base : ℤ) (len : PtlSize) (addrkey : ℤ)
  | invalidateEvents (base : ℤ) (count : PtlSize)
deriving DecidableEq, Repr

structure NalReply where
  send : Int32
  write : Int32
  validate : Int32
  addrkey : ℤ
  gidrid2nidpid : Option (PtlId × PtlId)
  nidpid2gidrid : Option (PtlId × PtlId)

structure Outcome where
  rc : Int32
  ni : LibNi
  calls : List NalCall
  handleOut : Option PtlHandle := none
  mdOut : Option PtlMd := none

end Cplant.Portals
