import Mathlib.Tactic.Ring
import Cplant.Foundations.Runs

/-!
The MCP of a LANai 7: the receive and the send state machine that `pkt_state_machine` runs
in turn, and what runs beside them: the network, the DMA engines and the host's
`Pkt_rcvLANai_start`. A state of a machine is cut into blocks at the places where it looks at
or changes memory it shares with the others. Counters, alarms, warnings and recorded events
are left out: nothing the machines decide here depends on them, except that the wait for a
late host ends by an alarm.
-/
namespace Cplant.Mcp
open Function

def dblBufSize : ℕ := 8192
def pageSize : ℕ := 8192
def myrpktMtu : ℕ := pageSize - 32
def maxRcvPktEntries : ℕ := 2048
def maxSndPktEntries : ℕ := 2048
def myriPortalPacketType : ℕ := 0x0800
def goodPkt : ℕ := 1
def longPkt : ℕ := 2
def badCrcPkt : ℕ := 3
def truncPkt : ℕ := 4
def rcvStartTh : ℤ := dblBufSize
def rcvContTh : ℤ := dblBufSize
def rcvStopTh : ℤ := dblBufSize

inductive Assertion
  | a13 | a14 | a16 | a17 | a48 | a49 | a91
  deriving DecidableEq, Repr

inductive Buf
  | a | b
  deriving DecidableEq, Repr

def Buf.addr : Buf → ℕ
  | .a => 0
  | .b => dblBufSize

def Buf.swap : Buf → Buf
  | .a => .b
  | .b => .a

def align64 (x : ℤ) : ℤ := (x + 7) / 8 * 8

inductive RcvState
  | r0 | r0Ready | r0Fits | r0Wait | r0Saved | r0Addr | r1 | r2 | r3 | r4 | r5
  deriving DecidableEq, Repr

inductive SndState
  | s0 | s1 | s2
  deriving DecidableEq, Repr

inductive Turn
  | rcv | snd
  deriving DecidableEq, Repr

structure RcvPkt where
  physAddr : ℕ
  len : ℕ
  deriving DecidableEq, Repr

structure SndPkt where
  physAddr : ℕ
  len : ℕ
  dest : ℤ
  deriving DecidableEq, Repr

/-- The receive side of the network interface: the part of a packet that is on the wire, and the
packets that have come in. -/
structure Net where
  mem : ℕ → UInt8
  rmp : ℕ
  rml : ℕ
  recvInt : Bool
  buffInt : Bool
  wire : List UInt8
  arrived : List (List UInt8)

structure Transfer where
  buf : ℕ
  len : ℕ
  dest : ℕ
  deriving DecidableEq, Repr

inductive HostState
  | waiting | working | posting
  deriving DecidableEq, Repr

structure Host where
  pageList : ℕ → ℕ
  lastPkt : ℕ
  state : HostState
  mem : ℕ → UInt8

structure Push where
  physAddr : ℕ
  dest : ℕ
  len : ℤ
  deriving DecidableEq, Repr

/-- Everything the receive machine works with. `postedLen` is the length the host last wrote
into a slot, `pushed` the last push for it. -/
structure Rx where
  state : RcvState
  curBuf : Buf
  oldBuf : Buf
  pktData : ℕ
  curLen : ℤ
  curHstAddr : ℕ
  threshold : ℤ
  oldRmp : ℕ
  lastRcvPkt : ℕ
  expectedLen : ℤ
  list : ℕ → RcvPkt
  net : Net
  l2e : Option Transfer
  host : Host
  postedLen : ℕ → ℕ
  pushed : ℕ → Option Push

structure Tx where
  state : SndState
  curBuf : Buf
  curLen : ℕ
  curDest : ℤ
  lastSndPkt : ℕ
  pktOnLanai : Bool
  list : ℕ → SndPkt
  sendRdy : Bool
  sendInt : Bool
  e2l : Bool

structure Sys where
  turn : Turn
  pciAvailable : Bool
  rx : Rx
  tx : Tx

def Sys.grabPciBus (s : Sys) : Except Assertion Sys :=
  if s.pciAvailable then .ok { s with pciAvailable := false } else .error .a48

def Sys.freePciBus (s : Sys) : Except Assertion Sys :=
  if s.pciAvailable then .error .a49 else .ok { s with pciAvailable := true }

def halfword (mem : ℕ → UInt8) (addr : ℕ) : ℕ := (mem addr).toNat * 256 + (mem (addr + 1)).toNat

namespace Rx

def slot (x : Rx) : RcvPkt := x.list x.lastRcvPkt

def setSlot (x : Rx) (e : RcvPkt) : Rx :=
  { x with list := update x.list x.lastRcvPkt e }

/-- Writing `RMP` and `RML` takes back `RECV_INT_BIT` and `BUFF_INT_BIT`. After a complete
packet the next one is on the wire, after an overrun still the rest of the same one. -/
def postBuf (x : Rx) (buf : Buf) : Rx :=
  { x with
    net := { x.net with
      rmp := buf.addr
      rml := buf.addr + dblBufSize - 4
      recvInt := false
      buffInt := false
      wire := if x.net.recvInt then [] else x.net.wire } }

def l2eDmaStart (x : Rx) (buf : ℕ) (len : ℤ) (dest : ℕ) : Except Assertion Rx :=
  let x' := { x with
    pushed := update x.pushed x.lastRcvPkt (some ⟨x.slot.physAddr, dest, len⟩) }
  if len = 0 then .ok x'
  else if len < 0 then .error .a13
  else if buf % 4 ≠ 0 then .error .a14
  else if dest % 4 ≠ 0 then .error .a16
  else .ok { x' with l2e := some ⟨buf, len.toNat, dest⟩ }

/-- A block of the machine: what it leaves, and whether it falls through to the next block
(it is still the turn of the receive machine) or breaks. -/
def r0 (x : Rx) : Rx × Turn :=
  if x.net.rmp ≠ x.curBuf.addr then
    let x' := { x with curHstAddr := x.slot.physAddr }
    if halfword x.net.mem x.curBuf.addr = myriPortalPacketType then
      if x.slot.physAddr / 16 ≠ 0 then
        let len := halfword x.net.mem (x.curBuf.addr + 2)
        ({ x' with state := .r0Ready, curLen := len, expectedLen := align64 (len + 8) }, .rcv)
      else
        ({ x' with state := .r0Wait }, .rcv)
    else
      ({ x' with state := .r5 }, .snd)
  else
    (x, .snd)

def r0Ready (x : Rx) : Rx × Turn :=
  if (x.slot.len : ℤ) < x.curLen then
    ({ x with state := .r5 }, .snd)
  else
    ({ x with state := .r0Fits, pktData := x.curBuf.addr + 8, threshold := rcvStartTh }, .rcv)

def r0Fits (x : Rx) : Rx × Turn :=
  ({ x.setSlot { x.slot with len := (x.curLen % 2 ^ 32).toNat } with state := .r1 }, .rcv)

def r0Wait (x : Rx) : Rx × Turn :=
  if x.slot.physAddr % 16 ≠ 0 then
    ({ x with state := .r5 }, .snd)
  else
    -- `cur_len`, `expected_len` and `threshold` stay those of an earlier packet
    ({ x with state := .r0Saved, pktData := x.curBuf.addr + 8 }, .rcv)

def r0Saved (x : Rx) : Rx × Turn :=
  ({ x.setSlot { x.slot with len := (x.curLen % 2 ^ 32).toNat } with state := .r0Addr }, .rcv)

def r0Addr (x : Rx) : Rx × Turn :=
  ({ x with state := .r1, curHstAddr := x.slot.physAddr }, .snd)

def availLen (x : Rx) : ℤ := ((x.net.rmp : ℤ) - x.pktData - 4) / 8 * 8

def r2 (x : Rx) : Except Assertion Rx :=
  if x.threshold < x.availLen ∧ x.l2e = none ∧ rcvStopTh < x.curLen - x.availLen then
    (x.l2eDmaStart x.pktData x.availLen x.curHstAddr).map fun x' =>
      { x' with
        pktData := x.pktData + x.availLen.toNat
        curHstAddr := x.curHstAddr + x.availLen.toNat
        curLen := x.curLen - x.availLen
        threshold := rcvContTh }
  else if x.net.recvInt || x.net.buffInt then
    -- after an overrun the machine leaves for R5 with the bus
    let x' := if x.net.buffInt then { x with state := .r5, expectedLen := -1 }
      else { x with state := .r3 }
    .ok { x'.postBuf x.curBuf.swap with
      oldBuf := x.curBuf, curBuf := x.curBuf.swap, oldRmp := x.net.rmp }
  else
    .ok x

def r3 (x : Rx) : Except Assertion Rx :=
  if x.l2e = none then
    (x.l2eDmaStart x.pktData x.curLen x.curHstAddr).map fun x' => { x' with state := .r4 }
  else
    .ok x

def crc (x : Rx) : ℕ :=
  halfword x.net.mem (x.oldRmp - 4) * 65536 + halfword x.net.mem (x.oldRmp - 2)

def marker (x : Rx) : ℕ :=
  let len : ℤ := (x.oldRmp : ℤ) - x.oldBuf.addr - 8
  if x.expectedLen < len then longPkt
  else if len < x.expectedLen then truncPkt
  else if x.crc ≠ 0 then badCrcPkt
  else goodPkt

def r4Done (x : Rx) : Rx :=
  { x.setSlot { x.slot with physAddr := x.marker } with
    state := .r0
    lastRcvPkt := (x.lastRcvPkt + 1) % maxRcvPktEntries }

def r5 (x : Rx) : Rx :=
  if x.net.recvInt || x.net.buffInt then
    { x.postBuf x.curBuf with state := if x.net.buffInt then .r5 else .r0 }
  else
    x

end Rx
namespace Sys

def rcvNext (s : Sys) (next : Rx × Turn) : Sys := { s with rx := next.1, turn := next.2 }

def rcvStatem (s : Sys) : Except Assertion Sys :=
  match s.rx.state with
  | .r0 => .ok (s.rcvNext s.rx.r0)
  | .r0Ready => .ok (s.rcvNext s.rx.r0Ready)
  | .r0Fits => .ok (s.rcvNext s.rx.r0Fits)
  | .r0Wait => .ok (s.rcvNext s.rx.r0Wait)
  | .r0Saved => .ok (s.rcvNext s.rx.r0Saved)
  | .r0Addr => .ok (s.rcvNext s.rx.r0Addr)
  | .r1 =>
    if s.pciAvailable then
      s.grabPciBus.map fun s' => s'.rcvNext ({ s.rx with state := .r2 }, .rcv)
    else
      .ok (s.rcvNext (s.rx, .snd))
  | .r2 => s.rx.r2.map fun x => s.rcvNext (x, .snd)
  | .r3 => s.rx.r3.map fun x => s.rcvNext (x, .snd)
  | .r4 =>
    if s.rx.l2e = none then
      s.freePciBus.map fun s' => s'.rcvNext (s.rx.r4Done, .snd)
    else
      .ok (s.rcvNext (s.rx, .snd))
  | .r5 => .ok (s.rcvNext (s.rx.r5, .snd))

def pktOnLanai (s : Sys) : Except Assertion Sys :=
  s.freePciBus.map fun s' => { s' with tx := { s.tx with pktOnLanai := true }, turn := .rcv }

def s0 (s : Sys) : Except Assertion Sys :=
  let e := s.tx.list s.tx.lastSndPkt
  if s.pciAvailable ∧ e.physAddr ≠ 0 then
    if e.physAddr % 4 ≠ 0 then .error .a91
    else if e.len = 0 ∨ 2 ^ 31 ≤ e.len then .error .a17
    else s.grabPciBus.map fun s' =>
      { s' with tx := { s.tx with
          state := .s1
          curBuf := s.tx.curBuf.swap
          curLen := e.len
          curDest := e.dest
          pktOnLanai := false
          e2l := true } }
  else
    .ok { s with turn := .rcv }

def s1 (s : Sys) : Except Assertion Sys :=
  if s.tx.sendRdy then .ok { s with tx := { s.tx with state := .s2 } }
  else if !s.tx.e2l && !s.tx.pktOnLanai then s.pktOnLanai
  else .ok { s with turn := .rcv }

def s2 (s : Sys) : Except Assertion Sys :=
  if (s.tx.pktOnLanai || !s.tx.e2l) && s.tx.sendInt then
    let sent := { s with
      turn := .rcv
      tx := { s.tx with
        state := .s0
        list := update s.tx.list s.tx.lastSndPkt
          { s.tx.list s.tx.lastSndPkt with physAddr := 0 }
        lastSndPkt := (s.tx.lastSndPkt + 1) % maxSndPktEntries } }
    if s.tx.pktOnLanai then .ok sent else sent.freePciBus
  else if !s.tx.e2l && !s.tx.pktOnLanai then s.pktOnLanai
  else .ok { s with turn := .rcv }

def sndStatem (s : Sys) : Except Assertion Sys :=
  match s.tx.state with
  | .s0 => s.s0
  | .s1 => s.s1
  | .s2 => s.s2

def pktStateMachine (s : Sys) : Except Assertion Sys :=
  match s.turn with
  | .rcv => s.rcvStatem
  | .snd => s.sndStatem

end Sys

inductive Event
  | words (n : ℕ) (byte : ℕ → UInt8) (tail : Bool)
  | overrun
  | l2eDone
  | e2lDone
  | sendRdy (bit : Bool)
  | sendInt (bit : Bool)
  | send (i : ℕ) (e : SndPkt)
  | take
  | use (i : ℕ) (v : UInt8)
  | post
  | postLen

namespace Rx

def words (x : Rx) (n : ℕ) (byte : ℕ → UInt8) (tail : Bool) : Rx :=
  let wire := x.net.wire ++ (List.range (8 * n)).map byte
  { x with net := { x.net with
    mem := fun a =>
      if x.net.rmp ≤ a ∧ a < x.net.rmp + 8 * n then byte (a - x.net.rmp) else x.net.mem a
    rmp := x.net.rmp + 8 * n
    recvInt := tail
    wire := wire
    arrived := if tail then x.net.arrived ++ [wire] else x.net.arrived } }

def overrun (x : Rx) : Rx := { x with net := { x.net with buffInt := true } }

def finish (x : Rx) (t : Transfer) : Rx :=
  let mem := fun a =>
    if t.dest ≤ a ∧ a < t.dest + t.len then x.net.mem (t.buf + (a - t.dest)) else x.host.mem a
  { x with l2e := none, host := { x.host with mem := mem } }

def hostPage (x : Rx) : ℕ := x.host.pageList x.host.lastPkt

def take (x : Rx) : Rx := { x with host := { x.host with state := .working } }

def use (x : Rx) (i : ℕ) (v : UInt8) : Rx :=
  { x with host := { x.host with mem := update x.host.mem (x.hostPage + i) v } }

def post (x : Rx) : Rx :=
  { x with
    list := update x.list x.host.lastPkt
      { x.list x.host.lastPkt with physAddr := x.hostPage }
    host := { x.host with state := .posting } }

def postLen (x : Rx) : Rx :=
  { x with
    list := update x.list x.host.lastPkt
      { x.list x.host.lastPkt with len := myrpktMtu }
    postedLen := update x.postedLen x.host.lastPkt myrpktMtu
    host := { x.host with
      state := .waiting
      lastPkt := (x.host.lastPkt + 1) % maxRcvPktEntries } }

def event (x : Rx) : Event → Option Rx
  | .words n byte tail =>
    if 0 < n ∧ !x.net.recvInt ∧ !x.net.buffInt ∧ x.net.rmp + 8 * n ≤ x.net.rml + 4 then
      some (x.words n byte tail)
    else none
  | .overrun => if !x.net.recvInt then some x.overrun else none
  | .l2eDone => x.l2e.map x.finish
  | .take =>
    if x.host.state = .waiting ∧ (x.list x.host.lastPkt).physAddr ∈
        [goodPkt, longPkt, badCrcPkt, truncPkt] then some x.take
    else none
  | .use i v => if x.host.state = .working ∧ i < pageSize then some (x.use i v) else none
  | .post => if x.host.state = .working then some x.post else none
  | .postLen => if x.host.state = .posting then some x.postLen else none
  | _ => some x

end Rx

def Tx.event (t : Tx) : Event → Tx
  | .e2lDone => { t with e2l := false }
  | .sendRdy bit => { t with sendRdy := bit }
  | .sendInt bit => { t with sendInt := bit }
  | .send i e => { t with list := update t.list i e }
  | _ => t

inductive Act
  | mcp
  | event (e : Event)

def Sys.step (s : Sys) : Act → Option Sys
  | .mcp => s.pktStateMachine.toOption
  | .event e => (s.rx.event e).map fun x => { s with rx := x, tx := s.tx.event e }

structure Pages where
  addr : ℕ → ℕ
  aligned : ∀ i, pageSize ∣ addr i
  pos : ∀ i, 0 < addr i
  inj : ∀ i j, i < maxRcvPktEntries → j < maxRcvPktEntries → addr i = addr j → i = j

def Sys.init (pages : Pages) (lanai hostMem : ℕ → UInt8) : Sys where
  turn := .rcv
  pciAvailable := true
  rx :=
    { state := .r0
      curBuf := .a
      oldBuf := .b
      pktData := 0
      curLen := 0
      curHstAddr := 0
      threshold := 0
      oldRmp := 0
      lastRcvPkt := 0
      expectedLen := 0
      list := fun i => ⟨pages.addr i, 2 ^ 32 - 1⟩
      net := ⟨lanai, Buf.a.addr, Buf.a.addr + dblBufSize - 4, false, false, [], []⟩
      l2e := none
      host := ⟨pages.addr, 0, .waiting, hostMem⟩
      postedLen := fun _ => 2 ^ 32 - 1
      pushed := fun _ => none }
  tx :=
    { state := .s0
      curBuf := .a
      curLen := 0
      curDest := 0
      lastSndPkt := 0
      pktOnLanai := false
      list := fun _ => ⟨0, 0, -1⟩
      sendRdy := true
      sendInt := true
      e2l := false }

end Cplant.Mcp
