import Cplant.Rtscts.Send

/-!
Receiving: `RTSCTS_recv.c`, and `handleP3` and `p3_recvBody` of `RTSCTS_p3.c`. Where
the source dereferences a null pointer there is no next state.
-/
namespace Cplant.Rtscts
open Cplant.Portals (PtlHdr)

def grant (outstanding : ℤ) : ℤ :=
  let numPkts := maxRcvPktEntries - otherNodes - outstanding
  if maxDataPkts < numPkts then maxDataPkts else if numPkts < 1 then 1 else numPkts

/-- The sequence check of `handleDATA`: whether the packet is looked at any further,
and the entry after the check. -/
def checkSeq (e : Qentry) (pkt : Packet) : Bool × Qentry :=
  if (pkt.seq < e.seq ∨ e.retries < pkt.info2) ∧ pkt.seq = 1 then
    -- the sender restarts the message
    (true, { e with seq := 1, datasent := 0, retries := pkt.info2, grantedPkts := 0 })
  else if pkt.seq < e.seq then (false, { e with seq := seqMark })
  else if e.seq < pkt.seq ∨ e.retries < pkt.info2 then (false, { e with seq := seqMark })
  else if pkt.type = .stopData ∨ pkt.type = .lastData then (true, { e with grantedPkts := 0 })
  else (true, e)

def dataLen (e : Qentry) (pkt : Packet) : ℕ := min pkt.body.length (wrapSub e.len e.datasent)

def copies (e : Qentry) (pkt : Packet) : Prop := 0 < dataLen e pkt ∧ e.libFinalizeCalled = false

instance (e : Qentry) (pkt : Packet) : Decidable (copies e pkt) :=
  inferInstanceAs (Decidable (_ ∧ _))

def rcvdEvent : PktType → EntryEvent
  | .data => .rcvdData
  | .stopData => .rcvdStopData
  | _ => .rcvdLastData

def takeData (env : Env) (e : Qentry) (pkt : Packet) : Qentry :=
  { e with
    datasent := wrap (e.datasent + dataLen e pkt)
    seq := wrap (e.seq + 1)
    event := rcvdEvent pkt.type
    idle := env.jiffies }

namespace Node

def setReceiving (n : Node) (e : Qentry) : Node :=
  { n with receiving := updateEntry n.receiving e.msgID fun _ => e }

def msgEnd (n : Node) (e : Qentry) : Node :=
  let n := n.sendProtoMSG .msgend e.msgID e.srcNid 0 0
  let n := if e.libFinalizeCalled then n else n.finalize e.nal e.cookie
  n.setReceiving { e with event := .sentMsgend, libFinalizeCalled := true }

def protoError (n : Node) (e : Qentry) : Node :=
  let n := { n with protoErr9 := n.protoErr9 + 1 }
  let n := n.sendProtoMSG .msgdrop e.msgID e.srcNid 1 0
  n.setReceiving { e with event := .sentMsgend }

def sendCTS (n : Node) (msgID : ℕ) (dst : ℤ) (len : ℕ) : Node × ℤ :=
  let numPkts := grant n.outstandingPkts
  let n := n.sendProtoMSG .cts msgID dst len numPkts
  ({ n with outstandingPkts := n.outstandingPkts + numPkts }, numPkts)

def grantMore (n : Node) (e : Qentry) : Node × Qentry :=
  let (n, numPkts) := n.sendCTS e.msgID e.srcNid e.len
  (n, { e with event := .sentCts, grantedPkts := numPkts })

def finishData (n : Node) (env : Env) (e : Qentry) (pkt : Packet) : Node :=
  let e := takeData env e pkt
  let (n, e) := if pkt.type = .stopData then n.grantMore e else (n, e)
  if e.len ≤ e.datasent ∨ pkt.type = .lastData then
    if pkt.type = .lastData then n.msgEnd e else n.protoError e
  else n.setReceiving e

def handleDATA (n : Node) (env : Env) (pkt : Packet) : Node :=
  match findQueue n.receiving pkt.msgID with
  | none => n
  | some e₀ =>
    let (accepted, e) := checkSeq e₀ pkt
    let n := { n with outstandingPkts := n.outstandingPkts - (e₀.grantedPkts - e.grantedPkts) }
    if !accepted then n.setReceiving e
    else if copies e pkt then
      if env.copy 0 then
        let n := n.writeUser e.task (e.buf + e.datasent) (pkt.body.take (dataLen e pkt))
        n.finishData env e pkt
      -- the process is killed, the entry stays
      else n.setReceiving e
    else n.finishData env e pkt

def dequeueSend (n : Node) (msgID : ℕ) : Option (Qentry × Node) :=
  match findQueue n.sndPending msgID with
  | some e => some (e, { n with sndPending := dequeue n.sndPending msgID })
  | none =>
    (findQueue n.sending msgID).map fun e => (e, { n with sending := dequeue n.sending msgID })

theorem dequeueSend_cases {n n' : Node} {msgID : ℕ} {e : Qentry}
    (h : n.dequeueSend msgID = some (e, n')) : findQueue n.sndPending msgID = some e ∧
        n' = { n with sndPending := dequeue n.sndPending msgID } ∨
      findQueue n.sndPending msgID = none ∧ findQueue n.sending msgID = some e ∧
        n' = { n with sending := dequeue n.sending msgID } := by
  unfold dequeueSend at h
  cases hp : findQueue n.sndPending msgID with
  | some e1 =>
    obtain ⟨rfl, rfl⟩ : e1 = e ∧ _ = n' := by simpa [hp] using h
    exact .inl ⟨rfl, rfl⟩
  | none =>
    obtain ⟨e1, hs, rfl, rfl⟩ : ∃ e1, findQueue n.sending msgID = some e1 ∧ e1 = e ∧ _ = n' := by
      simpa [hp] using h
    exact .inr ⟨rfl, hs, rfl⟩

def finalizeSend (n : Node) (e : Qentry) : Node :=
  if e.nal.isSome && !e.libFinalizeCalled then n.finalize e.nal e.cookie else n

def handleMSGEND (n : Node) (msgID : ℕ) : Node :=
  match n.dequeueSend msgID with
  | none => n
  | some (e, n) =>
    ((n.finalizeSend e).sendProtoMSG .gch e.msgID e.dstNid 0x0011 0x2233).freeEntry e

def handleMSGDROP (n : Node) (msgID : ℕ) (info2 : ℤ) : Node :=
  match n.dequeueSend msgID with
  | none => n
  | some (e, n) =>
    let n := n.finalizeSend e
    let n := if info2 ≠ 0xd5d5 then n.sendProtoMSG .gch e.msgID e.dstNid 0x0011 0x2233 else n
    n.freeEntry e

theorem handleMSGEND_eq (n : Node) (msgID : ℕ) : n.handleMSGEND msgID = n.handleMSGDROP msgID 0 :=
  rfl

def handleCTS (n : Node) (env : Env) (msgID msglen : ℕ) (numPkts : ℤ) : Node :=
  match n.dequeueSend msgID with
  | none => n
  | some (e, n) =>
    let e := { e with len := min e.len msglen, event := .rcvdCts, idle := env.jiffies }
    match n.sendDATA env e numPkts with
    | (some e', n) => { n with sending := n.sending ++ [e'] }
    | (none, n) => n

def handleGCH (n : Node) (msgID : ℕ) : Node :=
  match findQueue n.receiving msgID with
  | none => n
  | some e => { n with receiving := dequeue n.receiving msgID }.freeEntry e

end Node

def recvEntry (env : Env) (pkt : Packet) (hdr : PtlHdr) (nal task : ℕ) (args : RecvArgs)
    (event : EntryEvent) (numPkts : ℤ) : Qentry :=
  { msgID := pkt.msgID, msgNum := pkt.msgNum, phdr := hdr, buf := args.data, len := wrap args.mlen
    datasent := min args.mlen pkt.body.length, seq := 1, srcNid := hdr.src.nid.toInt, dstNid := 0
    event, idle := env.jiffies, nal := some nal, cookie := args.cookie, task := some task
    grantedPkts := numPkts, libFinalizeCalled := false, retries := 0, p3msgRetries := 0
    rtsSent := [] }

def moreToCome (pkt : Packet) (args : RecvArgs) : Prop :=
  pkt.body.length < args.mlen ∧ pkt.type ≠ .p3LastRts

instance (pkt : Packet) (args : RecvArgs) : Decidable (moreToCome pkt args) :=
  inferInstanceAs (Decidable (_ ∧ _))

def firstEvent (env : Env) (bytes : List UInt8) : EntryEvent :=
  if bytes = [] ∨ env.copy 0 then .sentCts else .sentMsgdrop

namespace Node

def copyFirst (n : Node) (env : Env) (task : ℕ) (data : ℤ) (bytes : List UInt8) : Node :=
  if bytes ≠ [] ∧ env.copy 0 = true then n.writeUser (some task) data bytes else n

def enqueueReceiving (n : Node) (env : Env) (e : Qentry) : Node :=
  if env.alloc then { n with receiving := n.receiving ++ [e] } else n

def recvBody (n : Node) (env : Env) (pkt : Packet) (hdr : PtlHdr) (nal task : ℕ)
    (args : RecvArgs) : Node :=
  if pkt.type ≠ .p3Rts ∧ pkt.type ≠ .p3LastRts then n
  else
    let bytes := pkt.body.take args.mlen
    let src := hdr.src.nid.toInt
    if moreToCome pkt args then
      let (n, numPkts) := n.sendCTS pkt.msgID src args.mlen
      let n := n.copyFirst env task args.data bytes
      n.enqueueReceiving env (recvEntry env pkt hdr nal task args (firstEvent env bytes) numPkts)
    else
      let n := n.copyFirst env task args.data bytes
      let n := n.sendProtoMSG .msgend pkt.msgID src 0xc333 0xd333
      let n := n.finalize (some nal) args.cookie
      n.enqueueReceiving env (recvEntry env pkt hdr nal task args .sentMsgend 0)

def handleDuplicate (n : Node) (e : Qentry) : Node :=
  match e.event with
  | .sentMsgdrop => n.sendProtoMSG .msgdrop e.msgID e.srcNid 0 0xbbb2
  | .sentMsgend => n.sendProtoMSG .msgend e.msgID e.srcNid 0xccc2 0xddd2
  | .sentCts =>
    let n := n.sendProtoMSG .cts e.msgID e.srcNid e.len 1
    { n with outstandingPkts := n.outstandingPkts + 1 - e.grantedPkts }.setReceiving
      { e with grantedPkts := 1 }
  | _ => n

def acceptNum (last msgNum : ℕ) : Option ℕ :=
  if msgNum = bootMsgNum then some illMsgNum
  else if last = bootMsgNum then some msgNum
  else if msgNum = incMsgNum last then some msgNum
  else none

def setLastMsgNum (n : Node) (src : ℤ) (num : ℕ) : Node :=
  { n with lastMsgNum := Function.update n.lastMsgNum src num }

def cbRecv (n : Node) (env : Env) (pkt : Packet) (hdr : PtlHdr) (nal task : ℕ) :
    Option RecvArgs → Node
  | none => n
  | some args => n.recvBody env pkt hdr nal task args

def parseP3 (n : Node) (env : Env) (pkt : Packet) (hdr : PtlHdr) (nal task : ℕ)
    (origMsgNum : ℕ) : Node :=
  let reply := env.parse hdr
  let n : Node := { n with calls := n.calls ++ [.parse pkt.msgID pkt.msgNum hdr] }
  let n := n.cbRecv env pkt hdr nal task reply.recv
  if reply.rc = 1 then n.setLastMsgNum hdr.src.nid.toInt origMsgNum else n

def deliverP3 (n : Node) (env : Env) (pkt : Packet) (hdr : PtlHdr) (origMsgNum : ℕ) : Node :=
  match env.getCb hdr.nid.toInt hdr.pid.toInt with
  | none => n.sendProtoMSG .msgdrop pkt.msgID hdr.src.nid.toInt 0 0xc3c3
  | some (nal, task) => n.parseP3 env pkt hdr nal task origMsgNum

/-- The answer to a ping: the request, whose message ID came back as source process, is
freed without a check that it was found. -/
def pingAck (n : Node) (msgID : ℕ) (src : ℤ) (request : ℕ) : Option Node :=
  (findQueue n.sndPending request).map fun e =>
    ({ n with pingDone := true, sndPending := dequeue n.sndPending request }.freeEntry
      e).sendProtoMSG .msgend msgID src 0xc555 0xd555

def acceptP3 (n : Node) (env : Env) (pkt : Packet) (hdr : PtlHdr) (origMsgNum : ℕ) :
    Option Node :=
  let src := hdr.src.nid.toInt
  match pkt.type with
  | .p3PingReq => some (p3SendPingAck n env hdr src pkt.msgID)
  | .p3PingAck =>
    if src = n.pingNid then n.pingAck pkt.msgID src hdr.src.pid.toUInt32.toNat
    else some (n.deliverP3 env pkt hdr origMsgNum)
  | .p3Null => some (n.sendProtoMSG .msgdrop pkt.msgID src 0 0xd5d5)
  | _ => some (n.deliverP3 env pkt hdr origMsgNum)

def handleP3 (n : Node) (env : Env) (pkt : Packet) (hdr : PtlHdr) : Option Node :=
  match findQueue n.receiving pkt.msgID with
  | some e => some (n.handleDuplicate e)
  | none =>
    let src := hdr.src.nid.toInt
    let orig := n.lastMsgNum src
    match acceptNum orig pkt.msgNum with
    | none => some n
    | some num => (n.setLastMsgNum src num).acceptP3 env pkt hdr orig

def handleP3SYNC (n : Node) (pkt : Packet) : Node :=
  if n.lastMsgNum pkt.srcNid = bootMsgNum ∨ pkt.msgNum = bootMsgNum then n
  else n.setLastMsgNum pkt.srcNid (wrapSub pkt.msgNum 1)

def heardFrom (n : Node) (src : ℤ) : Node :=
  { n with firstAck := Function.update n.firstAck src true }

def rtsctsRecv (n : Node) (env : Env) (pkt : Packet) : Option Node :=
  match pkt.type with
  | .cts => some ((n.heardFrom pkt.srcNid).handleCTS env pkt.msgID pkt.info pkt.info2)
  | .data | .stopData | .lastData => some ((n.heardFrom pkt.srcNid).handleDATA env pkt)
  | .msgend => some ((n.heardFrom pkt.srcNid).handleMSGEND pkt.msgID)
  | .msgdrop => some ((n.heardFrom pkt.srcNid).handleMSGDROP pkt.msgID pkt.info2)
  | .p3PingReq | .p3PingAck => pkt.phdr.bind ((n.heardFrom pkt.srcNid).handleP3 env pkt)
  | .p3Rts | .p3LastRts | .p3Null => pkt.phdr.bind (n.handleP3 env pkt)
  | .p3Sync => some (n.handleP3SYNC pkt)
  | .gch => some (n.handleGCH pkt.msgID)

end Node
end Cplant.Rtscts
