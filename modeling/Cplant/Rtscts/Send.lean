import Cplant.Rtscts.Types

/-!
Sending: `RTSCTS_send.c`, and `p3_send`, `handleP3resend` and `handleP3sync` of
`RTSCTS_p3.c`. A protocol packet that finds no page or no room in the MCP is lost
like one the network drops, so `sendProtoMSG` always hands it out.
-/
namespace Cplant.Rtscts
open Function Bool List Option Prod
open Cplant.Portals (PtlHdr)

def incMsgNum (num : ℕ) : ℕ :=
  let num := wrap (num + 1)
  let num := if num = bootMsgNum ∨ num = illMsgNum then wrap (num + 1) else num
  if num = bootMsgNum ∨ num = illMsgNum then wrap (num + 1) else num

/-- The next message ID, where 0 means that none was handed out yet: the node in the
high bits and a counter of `msgIDShift` bits. -/
def nextMsgID (myPnid : ℤ) (msgID : ℕ) : ℕ :=
  if msgID = 0 then wrap ((myPnid + 1).toNat * 2 ^ msgIDShift)
  else msgID - msgID % 2 ^ msgIDShift + (msgID + 1) % 2 ^ msgIDShift

namespace Node

def emit (n : Node) (dst : ℤ) (pkt : Packet) : Node := { n with out := n.out ++ [(dst, pkt)] }

def sendProtoMSG (n : Node) (type : PktType) (msgID : ℕ) (dst : ℤ) (info : ℕ) (info2 : ℤ) :
    Node :=
  n.emit dst
    { type, srcNid := n.myPnid, msgID, seq := 0, info, info2, msgNum := illMsgNum, phdr := none
      body := [] }

end Node

def dataType (payload remain more : ℕ) : PktType × EntryEvent :=
  if payload = remain then (.lastData, .sentLastData)
  else if more = 0 then (.stopData, .sentStopData)
  else (.data, .sentData)

def dataPkt (n : Node) (e : Qentry) (type : PktType) (payload numPkts : ℕ) : Packet :=
  { type, srcNid := n.myPnid, msgID := e.msgID, seq := wrap (e.seq + 1), info := numPkts
    info2 := e.retries, msgNum := e.msgNum, phdr := none
    body := n.readUser e.task (e.buf + e.datasent) payload }

def sendLoop (n : Node) (env : Env) (numPkts : ℕ) :
    ℕ → ℕ → Qentry → Option Qentry × List Packet
  | 0, _, e => (some e, [])
  | more + 1, i, e =>
    let remain := wrapSub e.len e.datasent
    let payload := min dataRoom remain
    let (type, event) := dataType payload remain more
    if !env.page i then (some { e with event := .sentStopData }, [])
    else if !env.copy i then (none, [])
    else
      let pkt := dataPkt n e type payload numPkts
      let e := { e with seq := wrap (e.seq + 1) }
      if !env.xmit i then (some { e with event := .sentStopData }, [])
      else
        let e := { e with datasent := wrap (e.datasent + payload), event }
        if payload = remain then (some e, [pkt])
        else
          let (e, pkts) := sendLoop n env numPkts more (i + 1) e
          (e, pkt :: pkts)

def Node.sendDATA (n : Node) (env : Env) (e : Qentry) (numPkts : ℤ) : Option Qentry × Node :=
  let (e', pkts) := sendLoop n env numPkts.toNat numPkts.toNat 0 { e with idle := env.jiffies }
  let n := { n with out := n.out ++ pkts.map fun pkt => (e.dstNid, pkt) }
  (e', if e'.isSome then n else n.freeEntry e)

inductive SendOpt
  | noop
  | sendP3PingReq
  | sendP3PingAck
  | sendP3Null
  | sendP3Sync
deriving DecidableEq, Repr

def p3Ok : ℤ := 0
def p3DestNotAcked : ℤ := -1
def p3McpshmemError : ℤ := -2
def p3NalError : ℤ := -4
def p3FailedBufMemcpy : ℤ := -5
def p3EnqueueFailed : ℤ := -8
def p3InvalidDest : ℤ := -9

def p3Plan (opt : SendOpt) (len : ℕ) : PktType × EntryEvent × ℕ :=
  let payload := min rtsRoom len
  match opt with
  | .sendP3Null => (.p3Null, .sentP3Null, 0)
  | .sendP3Sync => (.p3Sync, .invalid, 0)
  | .sendP3PingReq => (.p3PingReq, .sentP3PingReq, payload)
  | .sendP3PingAck => (.p3PingAck, .sentP3PingAck, payload)
  | .noop =>
    if payload = len then (.p3LastRts, .sentP3LastRts, payload) else (.p3Rts, .sentP3Rts, payload)

def p3Pkt (n : Node) (type : PktType) (msgID msgNum : ℕ) (hdr : PtlHdr) (body : List UInt8) :
    Packet :=
  { type, srcNid := n.myPnid, msgID, seq := 0, info := 0x01234567, info2 := 0x98765432 - 2 ^ 32
    msgNum, phdr := some hdr, body }

def invalidDest (dst : ℤ) : Prop := maxNodes < dst ∧ dst ≠ testRouteId

instance (dst : ℤ) : Decidable (invalidDest dst) := inferInstanceAs (Decidable (_ ∧ _))

def cbMatches (env : Env) (opt : SendOpt) (hdr : PtlHdr) (nal : Option ℕ) : Bool :=
  opt != .noop || (env.getCb hdr.src.nid.toInt hdr.src.pid.toInt).map fst == nal

def sendTask (env : Env) (queued : Bool) (opt : SendOpt) (hdr : PtlHdr) : Option ℕ :=
  if !queued ∧ opt = .noop then
    match env.getCb hdr.src.nid.toInt hdr.src.pid.toInt with
    | some (_, task) => some task
    | none => env.stray
  else env.stray

def p3Payload (env : Env) (queued : Bool) (room : ℕ) : ℕ :=
  if queued || env.page 0 then room else 0

structure P3Msg where
  nal : Option ℕ
  buf : ℤ
  len : ℕ
  dst : ℤ
  hdr : PtlHdr
  cookie : Option ℕ

def Qentry.msg (e : Qentry) : P3Msg := ⟨e.nal, e.buf, e.len, e.dstNid, e.phdr, e.cookie⟩

def rtsPayload (sent : Bool) (type : PktType) (payload : ℕ) : List ℕ :=
  if sent ∧ type = .p3Rts then [payload] else []

/-- `queue_only`: a message with number `msgNum` has to wait for an answer to the first. -/
def queueOnly (n : Node) (dst : ℤ) (msgNum : ℕ) : Bool :=
  msgNum != bootMsgNum && !n.firstAck dst

def sendEntry (env : Env) (m : P3Msg) (msgID msgNum payload : ℕ) (event : EntryEvent)
    (task : Option ℕ) (rtsSent : List ℕ) : Qentry :=
  { msgID, msgNum, phdr := m.hdr, buf := m.buf, len := wrap m.len, datasent := payload
    seq := 0, srcNid := 0, dstNid := m.dst, event, idle := env.jiffies, nal := m.nal
    cookie := m.cookie, task, grantedPkts := 0, libFinalizeCalled := false, retries := 0
    p3msgRetries := 0, rtsSent }

def Node.takeID (n : Node) (dst : ℤ) : Node :=
  { n with
    msgID := nextMsgID n.myPnid n.msgID
    firstAck :=
      if n.sendMsgNum dst = bootMsgNum then update n.firstAck dst false else n.firstAck }

/-- `p3_send` with message ID 0: a new message. Its number is committed only when the
entry is queued. A message that finds no page is queued all the same. -/
def p3SendNew (n : Node) (env : Env) (m : P3Msg) (opt : SendOpt) : ℤ × Node :=
  if invalidDest m.dst then (p3InvalidDest, n.finalize m.nal m.cookie)
  else
    let msgID := nextMsgID n.myPnid n.msgID
    let msgNum := n.sendMsgNum m.dst
    let queued := queueOnly n m.dst msgNum
    let n := n.takeID m.dst
    let (type, event, room) := p3Plan opt m.len
    let payload := p3Payload env queued room
    let task := sendTask env queued opt m.hdr
    let sent := !queued && env.page 0 && env.xmit 0
    if !env.mcp then (p3McpshmemError, n.finalize m.nal m.cookie)
    else if !queued && !cbMatches env opt m.hdr m.nal then
      (p3NalError, n.finalize m.nal m.cookie)
    else if !queued && 0 < payload && !env.copy 0 then (p3FailedBufMemcpy, n)
    else if !env.alloc then (p3EnqueueFailed, n.finalize m.nal m.cookie)
    else
      let e := sendEntry env m msgID msgNum payload event task (rtsPayload sent type payload)
      let n := { n with
        sendMsgNum := update n.sendMsgNum m.dst (incMsgNum msgNum)
        sndPending := n.sndPending ++ [e] }
      if sent then
        (p3Ok, n.emit m.dst (p3Pkt n type msgID msgNum m.hdr (n.readUser task m.buf payload)))
      else (p3Ok, n)

def p3SendAgain (n : Node) (env : Env) (m : P3Msg) (msgID msgNum : ℕ) (opt : SendOpt) :
    ℤ × Node :=
  if invalidDest m.dst then (p3InvalidDest, n.finalize m.nal m.cookie)
  else if queueOnly n m.dst msgNum then (p3DestNotAcked, n)
  else if !env.mcp then (p3McpshmemError, n)
  else
    let (type, _, room) := p3Plan opt m.len
    let payload := p3Payload env false room
    let task := sendTask env false opt m.hdr
    let sent := env.page 0 && env.xmit 0
    if !cbMatches env opt m.hdr m.nal then (p3NalError, n)
    else if 0 < payload && !env.copy 0 then (p3FailedBufMemcpy, n)
    else
      let n := { n with
        sndPending := updateEntry n.sndPending msgID fun e =>
          { e with task, rtsSent := e.rtsSent ++ rtsPayload sent type payload } }
      if sent then
        (p3Ok, n.emit m.dst (p3Pkt n type msgID msgNum m.hdr (n.readUser task m.buf payload)))
      else (p3Ok, n)

def p3Send (n : Node) (env : Env) (m : P3Msg) (msgID msgNum : ℕ) (opt : SendOpt) : ℤ × Node :=
  if msgID = 0 then p3SendNew n env m opt else p3SendAgain n env m msgID msgNum opt

def p3Retry (n : Node) (env : Env) (msgID msgNum : ℕ) (opt : Qentry → SendOpt) : Node :=
  match findQueue n.sndPending msgID with
  | none => n
  | some e =>
    let n := { n with
      sndPending := updateEntry n.sndPending msgID fun e =>
        { e with p3msgRetries := wrapInt (e.p3msgRetries + 1) } }
    let (rc, n) := p3Send n env e.msg msgID msgNum (opt e)
    if rc = p3NalError ∨ rc = p3FailedBufMemcpy ∨ rc = p3InvalidDest then
      { n with sndPending := dequeue n.sndPending msgID }.freeEntry e
    else
      { n with
        sndPending := updateEntry n.sndPending msgID fun e => { e with idle := env.jiffies } }

def handleP3resend (n : Node) (env : Env) (msgID msgNum : ℕ) : Node :=
  p3Retry n env msgID msgNum fun e => if e.event = .sentP3Null then .sendP3Null else .noop

def handleP3sync (n : Node) (env : Env) (msgID msgNum : ℕ) : Node :=
  p3Retry n env msgID msgNum fun _ => .sendP3Sync

def restart (e : Qentry) : Qentry :=
  { e with datasent := 0, seq := 0, retries := wrapInt (e.retries + 1) }

def handleDataResend (n : Node) (env : Env) (msgID : ℕ) : Node :=
  match findQueue n.sending msgID with
  | none => n
  | some e =>
    match n.sendDATA env (restart e) 1 with
    | (some e', n) => { n with sending := updateEntry n.sending msgID fun _ => e' }
    | (none, n) => { n with sending := dequeue n.sending msgID }

/-- `p3_send_ping_ack`: the answer carries the ID of the request as source process. The
rest of its header is whatever is on the stack. -/
def p3SendPingAck (n : Node) (env : Env) (stack : PtlHdr) (nid : ℤ) (msgID : ℕ) : Node :=
  let src := { stack.src with nid := Int32.ofInt n.myPnid, pid := Int32.ofNat msgID }
  (p3SendNew n env ⟨none, 0, 0, nid, { stack with src }, none⟩ .sendP3PingAck).2

section Outcomes
variable {n n' : Node} {env : Env} {e e' : Qentry} {m : P3Msg} {opt : SendOpt} {numPkts : ℤ}

theorem sendLoop_frame {numPkts more i : ℕ} (h : (sendLoop n env numPkts more i e).1 = some e') :
    ∃ datasent seq event, e' = { e with datasent, seq, event } := by
  induction more generalizing i e with
  | zero =>
    obtain rfl : e = e' := by simpa [sendLoop] using h
    exact ⟨e.datasent, e.seq, e.event, rfl⟩
  | succ more ih =>
    simp only [sendLoop] at h
    split_ifs at h
    · exact ⟨_, _, _, (some.inj h).symm⟩
    · exact ⟨_, _, _, (some.inj h).symm⟩
    · exact ⟨_, _, _, (some.inj h).symm⟩
    · obtain ⟨d, s, ev, rfl⟩ := ih h
      exact ⟨d, s, ev, rfl⟩

theorem dataType_cases (payload remain more : ℕ) :
    (dataType payload remain more).1 = .data ∨ (dataType payload remain more).1 = .stopData ∨
      (dataType payload remain more).1 = .lastData := by
  unfold dataType
  split_ifs <;> simp

theorem mem_sendLoop {numPkts more i : ℕ} {pkt : Packet}
    (h : pkt ∈ (sendLoop n env numPkts more i e).2) :
    ∃ e' type payload, pkt = dataPkt n e' type payload numPkts ∧
      (type = .data ∨ type = .stopData ∨ type = .lastData) := by
  induction more generalizing i e with
  | zero => cases h
  | succ more ih =>
    simp only [sendLoop] at h
    split_ifs at h
    · cases h
    · cases h
    · cases h
    · exact ⟨e, _, _, mem_singleton.mp h, dataType_cases _ _ _⟩
    · rcases mem_cons.mp h with h | h
      · exact ⟨e, _, _, h, dataType_cases _ _ _⟩
      · exact ih h

def sentData (n : Node) (env : Env) (e : Qentry) (numPkts : ℤ) : List (ℤ × Packet) :=
  (sendLoop n env numPkts.toNat numPkts.toNat 0 { e with idle := env.jiffies }).2.map fun pkt =>
    (e.dstNid, pkt)

theorem sendDATA_some (h : n.sendDATA env e numPkts = (some e', n')) :
    (∃ datasent seq event, e' = { e with idle := env.jiffies, datasent, seq, event }) ∧
      n' = { n with out := n.out ++ sentData n env e numPkts } := by
  simp only [Node.sendDATA, mk.injEq] at h
  obtain ⟨h1, h2⟩ := h
  refine ⟨sendLoop_frame h1, ?_⟩
  rw [← h2, h1]
  rfl

theorem sendDATA_none (h : n.sendDATA env e numPkts = (none, n')) : n' = { n with
      out := n.out ++ sentData n env e numPkts
      outstandingPkts := n.outstandingPkts - e.grantedPkts } := by
  simp only [Node.sendDATA, mk.injEq] at h
  obtain ⟨h1, h2⟩ := h
  rw [← h2, h1]
  rfl

inductive SendsNew (n : Node) (env : Env) (m : P3Msg) (opt : SendOpt) : Node → Prop
  | invalidDest : SendsNew n env m opt (n.finalize m.nal m.cookie)
  | failed : SendsNew n env m opt (n.takeID m.dst)
  | refused : SendsNew n env m opt ((n.takeID m.dst).finalize m.nal m.cookie)
  | queued (q sent : Bool) (payload : ℕ) (task : Option ℕ) (pkts : List (ℤ × Packet))
      (hq : q = queueOnly n m.dst (n.sendMsgNum m.dst))
      (hpayload : payload = p3Payload env q (p3Plan opt m.len).2.2)
      (hsent : sent = (!q && env.page 0 && env.xmit 0))
      (htask : task = sendTask env q opt m.hdr)
      (hpkts : pkts = if sent then
        [(m.dst, p3Pkt n (p3Plan opt m.len).1 (nextMsgID n.myPnid n.msgID) (n.sendMsgNum m.dst)
          m.hdr (n.readUser task m.buf payload))] else []) :
      SendsNew n env m opt { n.takeID m.dst with
        sendMsgNum := update n.sendMsgNum m.dst (incMsgNum (n.sendMsgNum m.dst))
        sndPending := n.sndPending ++ [sendEntry env m (nextMsgID n.myPnid n.msgID)
          (n.sendMsgNum m.dst) payload (p3Plan opt m.len).2.1 task
          (rtsPayload sent (p3Plan opt m.len).1 payload)]
        out := n.out ++ pkts }

theorem p3SendNew_cases : SendsNew n env m opt (p3SendNew n env m opt).2 := by
  unfold p3SendNew
  dsimp only
  split_ifs with hdst hmcp hcb hcopy halloc hsent
  · exact .invalidDest
  · exact .refused
  · exact .refused
  · exact .failed
  · exact .refused
  · rw [hsent]
    exact .queued _ true _ _ _ rfl rfl hsent.symm rfl rfl
  · have hsent := eq_false_iff.mpr hsent
    rw [hsent]
    have h : SendsNew n env m opt _ := .queued _ false _ _ [] rfl rfl hsent.symm rfl rfl
    rw [append_nil] at h
    exact h

inductive SendsAgain (n : Node) (env : Env) (m : P3Msg) (msgID msgNum : ℕ) (opt : SendOpt) :
    Node → Prop
  | invalidDest : SendsAgain n env m msgID msgNum opt (n.finalize m.nal m.cookie)
  | failed : SendsAgain n env m msgID msgNum opt n
  | done (sent : Bool) (payload : ℕ) (task : Option ℕ) (pkts : List (ℤ × Packet))
      (hq : queueOnly n m.dst msgNum = false)
      (hpayload : payload = p3Payload env false (p3Plan opt m.len).2.2)
      (hsent : sent = (env.page 0 && env.xmit 0))
      (htask : task = sendTask env false opt m.hdr)
      (hpkts : pkts = if sent then
        [(m.dst, p3Pkt n (p3Plan opt m.len).1 msgID msgNum m.hdr
          (n.readUser task m.buf payload))] else []) :
      SendsAgain n env m msgID msgNum opt { n with
        sndPending := updateEntry n.sndPending msgID fun e =>
          { e with task, rtsSent := e.rtsSent ++ rtsPayload sent (p3Plan opt m.len).1 payload }
        out := n.out ++ pkts }

theorem p3SendAgain_cases {msgID msgNum : ℕ} :
    SendsAgain n env m msgID msgNum opt (p3SendAgain n env m msgID msgNum opt).2 := by
  unfold p3SendAgain
  dsimp only
  split_ifs with hdst hq hmcp hcb hcopy hsent
  · exact .invalidDest
  · exact .failed
  · exact .failed
  · exact .failed
  · exact .failed
  · rw [hsent]
    exact .done true _ _ _ (eq_false_iff.mpr hq) rfl hsent.symm rfl rfl
  · have hsent := eq_false_iff.mpr hsent
    rw [hsent]
    have h : SendsAgain n env m msgID msgNum opt _ :=
      .done false _ _ [] (eq_false_iff.mpr hq) rfl hsent.symm rfl rfl
    rw [append_nil] at h
    exact h

end Outcomes
end Cplant.Rtscts
