import Cplant.Portals.Match
import Cplant.Portals.Api

/-!
# Data movement

The parsers of incoming headers, `do_PtlPut`, `do_PtlGet` and `lib_finalize`.
-/
namespace Cplant.Portals
open Function

def recordEvent (ni : LibNi) (msg md : ℕ) (fill : LibMsg → LibMsg) : LibNi :=
  match (ni.md md).eq with
  | none => ni
  | some e =>
    let filled := fill (ni.msg msg)
    { ni with
      eq := update ni.eq e { ni.eq e with pending := (ni.eq e).pending + 1 }
      msg := update ni.msg msg
        { filled with ev := { filled.ev with md := libMdDeconstruct (ni.md md) } } }

def heldMd (md : LibMd) (checkOffset : Bool) : LibMd :=
  let threshold := md.threshold - (if md.threshold = ptlMdThreshInf then 0 else 1)
  let exhausted := threshold == 0 ||
    (checkOffset && !managedRemote md && decide (md.maxOffset < md.offset))
  { md with
    threshold := threshold
    doUnlink := if md.unlink = .unlink ∧ exhausted then true else md.doUnlink
    pending := md.pending + 1 }

def holdMd (ni : LibNi) (msg md : ℕ) (checkOffset : Bool) : LibNi :=
  { ni with
    md := update ni.md md (heldMd (ni.md md) checkOffset)
    msg := update ni.msg msg { ni.msg msg with md := some md } }

def initiatorOf (src : PtlSrc) : PtlProcessId :=
  { addrKind := .both, nid := src.nid, pid := src.pid, gid := src.gid, rid := src.rid }

def LibNi.src (ni : LibNi) : PtlSrc := { nid := ni.nid, pid := ni.pid, gid := ni.gid, rid := ni.rid }

def LibNi.countDrop (ni : LibNi) (length : PtlSize) : LibNi :=
  { ni with counters := { ni.counters with
      dropCount := ni.counters.dropCount + 1
      dropLength := ni.counters.dropLength + length.toInt } }

def LibNi.countRecv (ni : LibNi) (length : PtlSize) : LibNi :=
  { ni with counters := { ni.counters with
      recvCount := ni.counters.recvCount + 1
      recvLength := ni.counters.recvLength + length.toInt } }

def LibNi.countSend (ni : LibNi) (length : PtlSize) : LibNi :=
  { ni with counters := { ni.counters with
      sendCount := ni.counters.sendCount + 1
      sendLength := ni.counters.sendLength + length.toInt } }

def wantAck (ni : LibNi) (msg md : ℕ) (src : PtlSrc) (ackMd : PtlHandle)
    (matchBits : PtlMatchBits) : LibNi :=
  if 0 ≤ ackMd ∧ hasOption (ni.md md).options ptlMdAckDisable = false then
    ni.setMsg msg { ni.msg msg with
      nid := src.nid
      pid := src.pid
      gid := src.gid
      rid := src.rid
      returnMd := ackMd
      ev := { (ni.msg msg).ev with matchBits } }
  else ni

def parsePut (ni : LibNi) (hdr : PtlHdr) (ptlIndex : PtlPtIndex) (ackMd : PtlHandle)
    (matchBits : PtlMatchBits) (rlength roffset : PtlSize) (hdrData : UInt64) :
    Option Outcome := do
  match ← libFindMd ni ⟨hdr.src, ptlIndex, .put, rlength, roffset, matchBits⟩ with
  | none =>
    return { rc := -1, ni := ni.countDrop rlength, calls := [.recv none none 0 rlength] }
  | some (⟨md, length, offset⟩, ni) =>
    match libMsgAlloc ni with
    | none => return { rc := 1, ni, calls := [] }
    | some (msg, ni) =>
      let ni := wantAck ni msg md hdr.src ackMd matchBits
      let ni := recordEvent ni msg md fun m => { m with ev := { m.ev with
        type := .put, initiator := initiatorOf hdr.src, portal := ptlIndex, matchBits
        rlength, mlength := length, offset, hdrData } }
      let ni := ni.countRecv length
      let ni := holdMd ni msg md true
      return {
        rc := 0, ni
        calls := [.recv (some msg) (some ((ni.md md).start + offset.toInt)) length rlength] }

def parseGet (ni : LibNi) (hdr : PtlHdr) (ptlIndex : PtlPtIndex) (matchBits : PtlMatchBits)
    (rlength srcOffset returnOffset : PtlSize) (returnMd : PtlHandle) (r : NalReply) :
    Option Outcome := do
  let recv := NalCall.recv none none 0 0
  match ← libFindMd ni ⟨hdr.src, ptlIndex, .get, rlength, srcOffset, matchBits⟩ with
  | none => return { rc := -1, ni := ni.countDrop rlength, calls := [recv] }
  | some (⟨md, length, offset⟩, ni) =>
    match libMsgAlloc ni with
    | none => return { rc := 1, ni, calls := [recv] }
    | some (msg, ni) =>
      let ni := recordEvent ni msg md fun m => { m with
        returnMd := -1
        ev := { m.ev with
          type := .get, initiator := initiatorOf hdr.src, portal := ptlIndex, matchBits
          rlength, mlength := length, offset, hdrData := 0 } }
      let ni := ni.countSend length
      let ni := holdMd ni msg md true
      let out : PtlHdr :=
        { nid := hdr.src.nid, pid := hdr.src.pid, src := ni.src
          msg := .reply returnMd returnOffset length }
      return {
        rc := r.send, ni
        calls := [recv, .send (some msg) out hdr.src.nid hdr.src.pid hdr.src.gid hdr.src.rid
          (some ((ni.md md).start + offset.toInt)) length] }

def replyOffset (md : LibMd) (dstOffset : PtlSize) : PtlSize :=
  if managedRemote md then dstOffset else md.offset

def replyLength (md : LibMd) (rlength offset : PtlSize) : PtlSize :=
  if rlength < md.length - offset then rlength else md.length - offset

def parseReply (ni : LibNi) (hdr : PtlHdr) (dstMd : PtlHandle) (dstOffset rlength : PtlSize) :
    Option Outcome := do
  let fail : Outcome :=
    { rc := -1, ni := ni.countDrop rlength, calls := [.recv none none 0 rlength] }
  let md := handleIndex dstMd
  let ok ← validObj ni.mdPool maxMds md
  if !ok then return fail
  if (ni.md md).threshold = 0 then return fail
  let offset := replyOffset (ni.md md) dstOffset
  if (ni.md md).length < rlength + offset ∧
      hasOption (ni.md md).options ptlMdTruncate = false then return fail
  let length := replyLength (ni.md md) rlength offset
  match libMsgAlloc ni with
  | none => return { rc := 1, ni, calls := [] }
  | some (msg, ni) =>
    let ni := recordEvent ni msg md fun m => { m with
      returnMd := -1
      ev := { m.ev with
        type := .reply, initiator := initiatorOf hdr.src, rlength, mlength := length, offset } }
    let ni := ni.countRecv length
    let ni := holdMd ni msg md false
    return {
      rc := 0, ni
      calls := [.recv (some msg) (some ((ni.md md).start + offset.toInt)) length rlength] }

def parseAck (ni : LibNi) (hdr : PtlHdr) (dstMd : PtlHandle) (mlength : PtlSize)
    (matchBits : PtlMatchBits) : Option Outcome := do
  let fail : Outcome := { rc := -1, ni, calls := [.recv none none 0 0] }
  let md := handleIndex dstMd
  let ok ← validObj ni.mdPool maxMds md
  if !ok then return fail
  if (ni.md md).threshold = 0 then return fail
  match libMsgAlloc ni with
  | none => return { rc := 1, ni, calls := [] }
  | some (msg, ni) =>
    let ni := recordEvent ni msg md fun m => { m with
      returnMd := -1
      ev := { m.ev with type := .ack, initiator := initiatorOf hdr.src, mlength, matchBits } }
    let ni := holdMd ni msg md false
    let ni := { ni with counters := { ni.counters with recvCount := ni.counters.recvCount + 1 } }
    return { rc := 0, ni, calls := [.recv (some msg) none 0 0] }

def libParse (ni : LibNi) (hdr : PtlHdr) (r : NalReply) : Option Outcome :=
  match hdr.msg with
  | .ack dstMd mlength matchBits => parseAck ni hdr dstMd mlength matchBits
  | .put ptlIndex ackMd matchBits length offset hdrData =>
    parsePut ni hdr ptlIndex ackMd matchBits length offset hdrData
  | .get ptlIndex matchBits length srcOffset returnOffset returnMd =>
    parseGet ni hdr ptlIndex matchBits length srcOffset returnOffset returnMd r
  | .reply dstMd dstOffset length => parseReply ni hdr dstMd dstOffset length
  | .barrier _ | .corrupted _ => some { rc := -1, ni, calls := [.recv none none 0 0] }

def libTransId (ni : LibNi) (id : PtlProcessId) (r : NalReply) : Option PtlProcessId :=
  match id.addrKind with
  | .both => some id
  | .gid =>
    if id.gid = ni.gid ∧ id.rid = ni.rid then some (initiatorOf ni.src)
    else r.gidrid2nidpid.map fun (nid, pid) =>
      { addrKind := .both, nid, pid, gid := id.gid, rid := id.rid }
  | .nid =>
    if id.nid = ni.nid ∧ id.pid = ni.pid then some (initiatorOf ni.src)
    else r.nidpid2gidrid.map fun (gid, rid) =>
      { addrKind := .both, nid := id.nid, pid := id.pid, gid, rid }

structure MoveArgs where
  mdIn : PtlHandle
  targetIn : PtlProcessId
  portalIn : PtlPtIndex
  matchBitsIn : PtlMatchBits
  offsetIn : PtlSize

def sentEvent (ni : LibNi) (args : MoveArgs) (length : PtlSize) (hdrData : UInt64)
    (m : LibMsg) : LibMsg :=
  { m with
    returnMd := -1
    ev := { m.ev with
      type := .sent, initiator := initiatorOf ni.src, portal := args.portalIn
      matchBits := args.matchBitsIn, rlength := length, mlength := length
      offset := args.offsetIn, hdrData } }

def doPtlPut (ni : LibNi) (args : MoveArgs) (ackReq : Bool) (hdrData : UInt64) (r : NalReply) :
    Option Outcome := do
  let md := handleIndex args.mdIn
  let ok ← validObj ni.mdPool maxMds md
  if !ok || (ni.md md).threshold == 0 then return reject ni ptlInvMd []
  match libTransId ni args.targetIn r with
  | none => return reject ni ptlInvProc []
  | some id =>
    let length := (ni.md md).length
    let ni := ni.countSend length
    match libMsgAlloc ni with
    | none => return reject ni ptlFail []
    | some (msg, ni) =>
      let ni := recordEvent ni msg md (sentEvent ni args length hdrData)
      let ni := holdMd ni msg md false
      let ackMd := if ackReq then Int32.ofNat md else -1
      let hdr : PtlHdr :=
        { nid := id.nid, pid := id.pid, src := ni.src
          msg := .put args.portalIn ackMd args.matchBitsIn length args.offsetIn hdrData }
      return {
        rc := r.send, ni
        calls := [.send (some msg) hdr id.nid id.pid id.gid id.rid (some (ni.md md).start)
          length] }

def doPtlGet (ni : LibNi) (args : MoveArgs) (r : NalReply) : Option Outcome := do
  let md := handleIndex args.mdIn
  let ok ← validObj ni.mdPool maxMds md
  if !ok || (ni.md md).threshold == 0 then return reject ni ptlInvMd []
  match libTransId ni args.targetIn r with
  | none => return reject ni ptlInvProc []
  | some id =>
    let length := (ni.md md).length
    let hdr : PtlHdr :=
      { nid := id.nid, pid := id.pid, src := ni.src
        msg := .get args.portalIn args.matchBitsIn length args.offsetIn (ni.md md).offset
          (Int32.ofNat md) }
    let ni := { ni with counters := { ni.counters with sendCount := ni.counters.sendCount + 1 } }
    match libMsgAlloc ni with
    | none => return reject ni ptlFail []
    | some (msg, ni) =>
      let ni := recordEvent ni msg md (sentEvent ni args length 0)
      let ni := holdMd ni msg md false
      return {
        rc := r.send, ni
        calls := [.send (some msg) hdr id.nid id.pid id.gid id.rid none 0] }

def stampEvent (ni : LibNi) (msg e : ℕ) : LibNi :=
  { ni with
    eq := update ni.eq e { ni.eq e with sequence := (ni.eq e).sequence + 1 }
    msg := update ni.msg msg
      { ni.msg msg with ev := { (ni.msg msg).ev with sequence := (ni.eq e).sequence } } }

def eqDone (ni : LibNi) (e : ℕ) : LibNi :=
  let pending := (ni.eq e).pending - 1
  ni.setEq e { ni.eq e with pending := if pending < 0 then 0 else pending }

/-- Post the event of a message: `false` when the write to the user failed. A queue
of size zero makes the source divide by zero. -/
def postEvent (ni : LibNi) (msg e : ℕ) (r : NalReply) : Option (Bool × LibNi × NalCall) :=
  if (ni.eq e).size = 0 then none
  else
    let stamped := stampEvent ni msg e
    let ev := (stamped.msg msg).ev
    let call := NalCall.write (ni.eq e).base (ev.sequence % (ni.eq e).size.toUInt32) ev
    if r.write ≠ 0 then some (false, stamped, call)
    else some (true, eqDone stamped e, call)

def ackOf (ni : LibNi) (msg : LibMsg) : List NalCall :=
  if 0 ≤ msg.returnMd then
    [.send none
      { nid := msg.nid, pid := msg.pid, src := ni.src
        msg := .ack msg.returnMd msg.ev.mlength msg.ev.matchBits }
      msg.nid msg.pid msg.gid msg.rid none 0]
  else []

def releaseMd (ni : LibNi) (d : ℕ) : Option (LibNi × List NalCall) :=
  let ni := ni.setMd d { ni.md d with pending := (ni.md d).pending - 1 }
  if (ni.md d).pending = 0 ∧ (ni.md d).doUnlink then
    let call := libMdUnlinkCall (ni.md d)
    let me := (ni.md d).me
    let ni := libMdUnlink ni d
    match me with
    | none => some (ni, [call])
    | some m =>
      if ni.mdLinks.head m = none ∧ (ni.me m).unlink = .unlink then
        (libMeUnlink ni m).map fun (ni, calls) => (ni, call :: calls)
      else some (ni, [call])
  else some (ni, [])

def finishMsg (ni : LibNi) (i d : ℕ) (r : NalReply) (calls : List NalCall) : Option Outcome := do
  let acks := ackOf ni (ni.msg i)
  let (ni, unlinks) ← releaseMd ni d
  return {
    rc := if acks.isEmpty then 0 else r.send
    ni := libMsgFree ni i
    calls := calls ++ acks ++ unlinks }

def libFinalize (ni : LibNi) (msg : Option ℕ) (r : NalReply) : Option Outcome :=
  if !ni.up then some { rc := -1, ni, calls := [] }
  else
    match msg with
    | none => some { rc := 0, ni, calls := [] }
    | some i => do
      let d ← (ni.msg i).md
      match (ni.md d).eq with
      | none => finishMsg ni i d r []
      | some e =>
        let (written, ni, call) ← postEvent ni i e r
        if !written then return { rc := -1, ni, calls := [call] }
        finishMsg ni i d r [call]

end Cplant.Portals
