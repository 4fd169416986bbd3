import Cplant.Foundations.FirstMatch
import Cplant.Portals.Types

/-!
# The RTS/CTS layer

Data types of `RTSCTS_protocol.h`, `RTSCTS_pkthdr.h` and `queue.h`, and the queue
routines of `queue.c`, in the configuration with `DO_TIMEOUT_PROTOCOL`,
`EXTENDED_P3_RTSCTS`, `NEW_P3_RESEND` and `P3_PING`.
-/
namespace Cplant.Rtscts
open Cplant.Portals (PtlHdr)

def bootMsgNum : ℕ := 0
def illMsgNum : ℕ := 1
def maxNodes : ℤ := 2048
def testRouteId : ℤ := 54321
def maxRcvPktEntries : ℤ := 2048
def otherNodes : ℤ := 512
def maxDataPkts : ℤ := 16
def hz : ℕ := 1024
def pktTimeout : ℕ := 5 * hz / 4
def p3MsgRetries : ℤ := 4
def gchTimeout : ℕ := 2 * 60 * hz
def msgIDShift : ℕ := 21

def myrpktMtu : ℕ := 8160
def sizeofPkthdr : ℕ := 56
def sizeofPtlHdr : ℕ := 64

def dataRoom : ℕ := myrpktMtu - sizeofPkthdr
def rtsRoom : ℕ := myrpktMtu - (sizeofPkthdr + sizeofPtlHdr)

def seqMark : ℕ := 0x7fffffff

def wrap (n : ℕ) : ℕ := n % 2 ^ 32
def wrapSub (m n : ℕ) : ℕ := (((m : ℤ) - n) % 2 ^ 32).toNat
def wrapInt (n : ℤ) : ℤ := (n + 2 ^ 31) % 2 ^ 32 - 2 ^ 31

theorem wrap_of_lt {n : ℕ} (h : n < 2 ^ 32) : wrap n = n := Nat.mod_eq_of_lt h

theorem wrapSub_of_le {m n : ℕ} (h : n ≤ m) (hm : m < 2 ^ 32) : wrapSub m n = m - n := by
  unfold wrapSub
  omega

inductive PktType
  | cts
  | data
  | stopData
  | lastData
  | msgend
  | msgdrop
  | p3Rts
  | p3LastRts
  | gch
  | p3PingReq
  | p3PingAck
  | p3Null
  | p3Sync
deriving DecidableEq, Repr

inductive EntryEvent
  | create
  | sentLastData
  | sentStopData
  | sentData
  | sentCts
  | rcvdCts
  | rcvdData
  | rcvdStopData
  | rcvdLastData
  | sentP3Rts
  | sentP3LastRts
  | rcvdP3Rts
  | rcvdP3LastRts
  | sentP3PingReq
  | sentP3PingAck
  | sentP3Null
  | sentMsgdrop
  | sentMsgend
  | invalid
deriving DecidableEq, Repr

/-- A packet: the header fields that are read again, the Portals header of the P3
types, and the payload. `info2` is stored unsigned and always read as an `int`. -/
structure Packet where
  type : PktType
  srcNid : ℤ
  msgID : ℕ
  seq : ℕ
  info : ℕ
  info2 : ℤ
  msgNum : ℕ
  phdr : Option PtlHdr
  body : List UInt8
deriving DecidableEq, Repr

/-- A queue entry. `rtsSent` is a history variable: the payload of every `P3_RTS`
packet that went out for the message. -/
structure Qentry where
  msgID : ℕ
  msgNum : ℕ
  phdr : PtlHdr
  buf : ℤ
  len : ℕ
  datasent : ℕ
  seq : ℕ
  srcNid : ℤ
  dstNid : ℤ
  event : EntryEvent
  idle : ℕ
  nal : Option ℕ
  cookie : Option ℕ
  task : Option ℕ
  grantedPkts : ℤ
  libFinalizeCalled : Bool
  retries : ℤ
  p3msgRetries : ℤ
  rtsSent : List ℕ

inductive LibCall
  | parse (msgID msgNum : ℕ) (hdr : PtlHdr)
  | finalize (nal cookie : Option ℕ)
deriving DecidableEq, Repr

/-- The state of a node. `mem` is user memory by task, `out` what was handed to the
MCP, by destination, and `calls` the history of calls into the Portals library. -/
structure Node where
  myPnid : ℤ
  msgID : ℕ
  sndPending : List Qentry
  sending : List Qentry
  receiving : List Qentry
  lastMsgNum : ℤ → ℕ
  sendMsgNum : ℤ → ℕ
  firstAck : ℤ → Bool
  outstandingPkts : ℤ
  protoErr9 : ℕ
  pingDone : Bool
  pingNid : ℤ
  mem : Option ℕ → ℤ → UInt8
  out : List (ℤ × Packet)
  calls : List LibCall

structure RecvArgs where
  data : ℤ
  mlen : ℕ
  cookie : Option ℕ

structure ParseReply where
  rc : ℤ
  recv : Option RecvArgs

/-- What the surroundings answer during a step: the clock, whether the MCP is loaded, the NAL and
task of a process, success of page allocations, transmissions, user copies and `kmalloc`, the
Portals library, and an uninitialised task pointer. -/
structure Env where
  jiffies : ℕ
  mcp : Bool
  getCb : ℤ → ℤ → Option (ℕ × ℕ)
  page : ℕ → Bool
  xmit : ℕ → Bool
  copy : ℕ → Bool
  alloc : Bool
  parse : PtlHdr → ParseReply
  stray : Option ℕ

def findQueue (q : List Qentry) (msgID : ℕ) : Option Qentry := q.find? fun e => e.msgID == msgID

def dequeue (q : List Qentry) (msgID : ℕ) : List Qentry := q.eraseP fun e => e.msgID == msgID

def updateEntry (q : List Qentry) (msgID : ℕ) (f : Qentry → Qentry) : List Qentry :=
  updateFirst (fun e => e.msgID == msgID) f q

variable {q : List Qentry} {msgID : ℕ} {e : Qentry} {f : Qentry → Qentry}

theorem findQueue_msgID (h : findQueue q msgID = some e) : e.msgID = msgID := by
  simpa using List.find?_some h

theorem findQueue_mem (h : findQueue q msgID = some e) : e ∈ q :=
  List.mem_of_find?_eq_some h

theorem mem_of_mem_dequeue (h : e ∈ dequeue q msgID) : e ∈ q :=
  List.mem_of_mem_eraseP h

theorem mem_updateEntry (h : e ∈ updateEntry q msgID f) :
    e ∈ q ∨ ∃ e0, findQueue q msgID = some e0 ∧ e = f e0 :=
  mem_updateFirst h

theorem findQueue_updateEntry (h : findQueue q msgID = some e)
    (hf : (f e).msgID = msgID) : findQueue (updateEntry q msgID f) msgID = some (f e) :=
  find?_updateFirst h (beq_iff_eq.mpr hf)

namespace Node

def freeEntry (n : Node) (e : Qentry) : Node :=
  { n with outstandingPkts := n.outstandingPkts - e.grantedPkts }

def finalize (n : Node) (nal cookie : Option ℕ) : Node :=
  { n with calls := n.calls ++ [.finalize nal cookie] }

def readUser (n : Node) (task : Option ℕ) (addr : ℤ) (len : ℕ) : List UInt8 :=
  (List.range len).map fun i => n.mem task (addr + i)

def writeUser (n : Node) (task : Option ℕ) (addr : ℤ) (bytes : List UInt8) : Node :=
  { n with
    mem := Function.update n.mem task fun a =>
      if addr ≤ a then (bytes[(a - addr).toNat]?).getD (n.mem task a) else n.mem task a }

end Node
end Cplant.Rtscts
