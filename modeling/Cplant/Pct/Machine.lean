import Cplant.Bebopd.Allocation
import Cplant.Foundations.Runs

/-!
# The PCT

A PCT manages one compute node. Its main loop looks in turn at the clock, at messages from
`yod`, at a nice kill that has run out, at the application host and at requests of `bebopd`.
The build has `STRIPDOWN` set.
-/
namespace Cplant.Pct
open Bebopd

def unused : ℤ := -1

def pendingStateTimeOut : ℤ := 30

structure Proc where
  jobId : ℤ
  started : Bool
  gotReady : Bool
  sentToMain : Bool
  childDone : Bool
  sentKill2 : Bool
  niceKill1 : ℤ
  niceKill2 : ℤ
  btSize : ℤ
  userExec : Bool
  deriving DecidableEq, Repr

def Proc.free : Proc where
  jobId := unused
  started := false
  gotReady := false
  sentToMain := false
  childDone := false
  sentKill2 := false
  niceKill1 := 0
  niceKill2 := 0
  btSize := 0
  userExec := false

inductive Loc
  | top | yod | kill | app | bebopd
  deriving DecidableEq, Repr

/-- `out` are the updates sent in the current section, `allocations` the jobs for which an
allocation request was ever granted. -/
structure Main where
  loc : Loc
  state : PctId
  sentKill2 : Bool
  clock : ℤ
  proc : Proc
  initJob : ℤ
  initSession : ℤ
  euid : ℤ
  loading : Bool
  todo : Bool
  healthCheck : Bool
  niceKillSeconds : ℤ
  out : List PctId
  allocations : List ℤ

/-- The ids that `bebopd` gives to jobs. They go up to one behind `LASTJOBID`, and begin at 1
in a `bebopd` that is restarted without a file. -/
structure JobId where
  val : ℤ
  pos : 1 ≤ val
  le_last : val ≤ 10001

structure PutResult where
  pull : Bool
  fanout : Bool
  bcast : Bool
  stow : Bool

structure InitLoad where
  job : ℤ
  session : ℤ
  nprocs : ℤ
  nid : ℤ
  pid : ℤ
  ptl : ℤ
  hasExec : Bool
  euid : ℤ
  pull : Bool
  allocate : Bool
  group : Bool
  vote : Bool
  okSent : Bool

inductive PutKind
  | args | env | groups | strace | exec | execPath | portalIds
  deriving DecidableEq, Repr

inductive YodMsg
  | initLoad (m : InitLoad)
  | put (kind : PutKind) (job : ℤ) (r : PutResult)
  | goMain (job : ℤ) (fanout : Bool)
  | getBt (job : ℤ) (reply : Bool)
  | sigUsr (job : ℤ)
  | abortLoad (job : ℤ)
  | abortReset (job : ℤ)
  | yodlessCompletion (job : ℤ) (fanout vote : Bool)
  | other

structure AppChange where
  childNack : Bool
  childDone : Bool
  started : Bool
  gotPortalId : Bool
  gotReady : Bool
  sentToMain : Bool
  sentKill : Bool
  sentKill2 : Bool
  btSize : ℤ
  sendOk : Bool
  idOk : Bool
  barrierOk : Bool
  readyOk : Bool

inductive AppReply
  | quiet
  | failed
  | fatal
  | change (c : AppChange)

structure PingReq where
  jobID : ℤ
  sessionID : ℤ
  euid : ℤ

inductive Request
  | gotcha
  | status
  | allocate (job : JobId) (session : ℤ)
  | die (q : PingReq)
  | reset (q : PingReq)
  | interrupt (q : PingReq)
  | niceKill (q : PingReq)
  | reserve (q : PingReq) (uid : Int32)
  | unreserve (q : PingReq)

/-- What the PCT reads while it works on a request: the health of the node, and the clock twice. -/
structure Readings where
  healthy : Bool
  tPending : ℤ
  tNow : ℤ

inductive Input
  | top (t : ℤ)
  | yod (m : Option YodMsg)
  | kill (t : ℤ)
  | app (r : AppReply)
  | bebopd (q : Option Request) (r : Readings)

namespace Main

def newSection (p : Main) : Main := { p with out := [] }

def clearJobState (p : Main) : Main :=
  { p with state := { p.state with jobId := -1, sessionId := -1 }, sentKill2 := false }

def updateStatus (p : Main) (s : Int16) : Main :=
  let p' := if s = statusFree ∨ s = statusAllocated then p.clearJobState else p
  { p' with state := { p'.state with status := s } }

def sendToBebopd (p : Main) : Main := { p with out := p.out ++ [p.state] }

def stopPendingFor (p : Main) : Main :=
  { p with state := { p.state with pendingJid := -1, pendingSid := -1 }, clock := 0 }

def startPendingFor (p : Main) (job session t : ℤ) : Main :=
  { p with
    state := { p.state with pendingJid := Int16.ofInt job, pendingSid := Int16.ofInt session }
    clock := t }

def pctPending (p : Main) (t : ℤ) : Main × Bool :=
  let p' :=
    if p.state.pendingJid ≠ -1 then
      if p.clock ≠ 0 then
        if t - p.clock > pendingStateTimeOut then p.stopPendingFor else p
      else { p with clock := t }
    else p
  (p', p'.state.pendingJid ≠ -1)

def recoverProcListEntry (p : Main) : Main :=
  if p.proc.jobId = unused then p
  else { p.updateStatus statusFree with sentKill2 := false, proc := .free }

def resetPct2 (p : Main) : Main := { p.recoverProcListEntry with loading := false, todo := true }

def resetPct (p : Main) : Main := (p.resetPct2.updateStatus statusFree).sendToBebopd

def resetUnless (ok : Bool) (p : Main) : Main := if ok then p else p.resetPct

def top (p : Main) (t : ℤ) : Main :=
  if p.clock ≠ 0 ∧ t - p.clock > pendingStateTimeOut then
    let p' := p.stopPendingFor
    { p' with state := { p'.state with status := statusFree } }.sendToBebopd
  else p

def InitLoad.sane (m : InitLoad) : Bool :=
  0 < m.nprocs && m.nprocs ≤ maxNodes && 0 ≤ m.nid && m.nid ≤ maxNodes && 0 < m.pid &&
    m.ptl ≤ srvrMaxPortal

def initNewJob (p : Main) (m : InitLoad) : Option Main :=
  if InitLoad.sane m && p.proc.jobId = unused then
    let p' := p.updateStatus statusBusy
    some { p' with proc := { p'.proc with jobId := m.job } }
  else none

def pullLoadData (p : Main) (m : InitLoad) : Option Main :=
  let p₁ := p.resetUnless m.pull
  if !m.allocate then some p₁.resetPct
  else
    let p₂ := { p₁ with
      proc := { p₁.proc with userExec := m.hasExec }
      state := { p₁.state with
        jobId := Int16.ofInt p₁.proc.jobId, sessionId := Int32.ofInt m.session }
      euid := m.euid }
    if !m.group || !m.vote then some p₂.resetPct
    else if !m.okSent then none
    else some { p₂ with loading := true }

def initLoad (p : Main) (m : InitLoad) : Option Main :=
  if m.job ≠ p.state.pendingJid.toInt ∨ p.state.status ≠ statusAllocated then some p
  else
    let p₁ := { p.stopPendingFor with initJob := m.job, initSession := m.session }
    match p₁.initNewJob m with
    | none => some p₁.resetPct
    | some p₂ => p₂.pullLoadData m

def putData (p : Main) (r : PutResult) : Main :=
  ((p.resetUnless r.pull).resetUnless r.fanout).resetUnless r.bcast

def startExec (p : Main) (r : PutResult) : Main :=
  let p' := p.putData r
  if !p'.loading then p' else if !r.stow then p'.resetPct else { p' with todo := true }

def put (p : Main) (r : PutResult) : PutKind → Main
  | .args | .env | .groups | .strace => p.putData r
  | .exec => if p.proc.userExec then p.startExec r else p
  | .execPath => if p.proc.userExec then p else p.startExec r
  | .portalIds => { p.putData r with todo := true }

def goMain (p : Main) (fanout : Bool) : Main :=
  if !fanout || !p.proc.gotReady then p.resetPct else { p with todo := true }

def getBt (p : Main) (reply : Bool) : Main :=
  let p' := (p.updateStatus statusFree).sendToBebopd
  (if 0 < p'.proc.btSize then p'.resetUnless reply else p').resetPct2

def forJob (p : Main) (job : ℤ) (p' : Main) : Option Main :=
  some (if p.proc.jobId = job then p' else p)

def processYodMessage (p : Main) : YodMsg → Option Main
  | .initLoad m => p.initLoad m
  | .put kind job r => p.forJob job (p.put r kind)
  | .goMain job fanout => p.forJob job (p.goMain fanout)
  | .getBt job reply => p.forJob job (p.getBt reply)
  | .sigUsr job | .abortLoad job => p.forJob job { p with todo := true }
  | .abortReset job => p.forJob job p.resetPct
  | .yodlessCompletion job fanout vote =>
    p.forJob job (if fanout && vote then p.resetPct else p)
  | .other => some p

def niceKillTimeout (p : Main) (t : ℤ) : Bool :=
  p.proc.niceKill2 ≠ 0 && p.proc.niceKill2 < t && !p.proc.sentKill2

def kill (p : Main) (t : ℤ) : Main :=
  if p.state.status = statusBusy ∧ p.niceKillTimeout t then p.resetPct else p

def childDone (p : Main) (c : AppChange) : Main :=
  let p₁ := if c.btSize ≠ 0 then { p with proc := { p.proc with btSize := c.btSize } } else p
  if !c.sendOk then p₁.resetPct
  else
    let p₂ := p₁.resetUnless (c.btSize ≠ 0)
    if p₂.sentKill2 then p₂.resetPct else p₂

def childStarts (p : Main) (c : AppChange) : Main :=
  let p₁ := if c.started then { p with sentKill2 := false } else p
  let p₂ := if c.gotPortalId then p₁.resetUnless c.idOk else p₁
  let p₃ := if c.gotReady then (p₂.resetUnless c.barrierOk).resetUnless c.readyOk else p₂
  if c.sentToMain || c.sentKill || c.sentKill2 then { p₃ with loading := false } else p₃

def noteEvents (p : Main) (c : AppChange) : Main :=
  { p with
    sentKill2 := p.sentKill2 || c.sentKill2
    proc := { p.proc with
      started := p.proc.started || c.started
      gotReady := p.proc.gotReady || c.gotReady
      sentToMain := p.proc.sentToMain || c.sentToMain
      childDone := p.proc.childDone || c.childDone
      sentKill2 := p.proc.sentKill2 || c.sentKill2 } }

def processAppStateChange (p : Main) (c : AppChange) : Main :=
  if p.proc.jobId = unused then p
  else if c.childNack then (p.noteEvents c).resetUnless c.sendOk
  else if c.childDone then (p.noteEvents c).childDone c
  else (p.noteEvents c).childStarts c

def app (p : Main) (r : AppReply) : Option Main :=
  if p.state.status = statusBusy ∨ p.todo then
    let p' := { p with todo := false }
    match r with
    | .quiet => some p'
    | .failed => some { p'.resetPct with loading := false }
    | .fatal => none
    | .change c => some (p'.processAppStateChange c)
  else some p

def runningJob (p : Main) : Bool :=
  p.state.status = statusBusy && p.proc.jobId ≠ unused && p.proc.started && !p.proc.childDone

def concerns (p : Main) (q : PingReq) : Bool :=
  (q.jobID = -1 || (p.state.status = statusBusy && p.initJob = q.jobID)) &&
  (q.sessionID = -1 || (p.state.status = statusBusy && p.initSession = q.sessionID)) &&
  (q.euid = -1 || (p.state.status = statusBusy && p.euid = q.euid))

def checkHealth (p : Main) (r : Readings) : Main :=
  if p.healthCheck ∧ p.state.status ≠ statusBusy then
    let (p', pending) := p.pctPending r.tPending
    if pending then p'
    else if !r.healthy then p'.updateStatus statusTrouble
    else if p'.state.status = statusTrouble then p'.updateStatus statusFree
    else p'
  else p

def allocate (p : Main) (job session t : ℤ) : Main :=
  if p.state.status ≠ statusFree then p.sendToBebopd
  else
    let p' := (p.startPendingFor job session t).sendToBebopd
    { p' with
      state := { p'.state with status := statusAllocated }
      allocations := p'.allocations ++ [job] }

def processBebopdRequests (p : Main) (r : Readings) : Request → Option Main
  | .gotcha => some p
  | .status => some (p.checkHealth r).sendToBebopd
  | .allocate job session => some ((p.checkHealth r).allocate job.val session r.tNow)
  | .die q => if p.concerns q then none else some p
  | .reset q => some (if p.concerns q then p.resetPct else p)
  | .interrupt q => some (if p.runningJob && p.concerns q then { p with todo := true } else p)
  | .niceKill q =>
    some (if p.state.status = statusBusy ∧ p.concerns q ∧ p.proc.niceKill1 = 0 then
      { p with
        todo := p.todo || p.runningJob
        proc := { p.proc with niceKill1 := r.tNow, niceKill2 := r.tNow + p.niceKillSeconds } }
    else p)
  | .reserve q uid =>
    some (if p.concerns q ∧ (p.state.reserved = -1 ∨ p.state.reserved = uid) then
      { p with state := { p.state with reserved := uid } }
    else p)
  | .unreserve q =>
    some (if p.concerns q then { p with state := { p.state with reserved := -1 } } else p)

def step (p : Main) : Input → Option Main
  | .top t => if p.loc = .top then some { p.top t with loc := .yod } else none
  | .yod m =>
    if p.loc = .yod then
      ((m.map p.processYodMessage).getD (some p)).map ({ · with loc := .kill })
    else none
  | .kill t => if p.loc = .kill then some { p.kill t with loc := .app } else none
  | .app r => if p.loc = .app then (p.app r).map ({ · with loc := .bebopd }) else none
  | .bebopd q r =>
    if p.loc = .bebopd then
      ((q.map (p.processBebopdRequests r)).getD (some p)).map ({ · with loc := .top })
    else none

def init (nodeType : NodeType) (healthCheck : Bool) (niceKillSeconds : ℤ) : Main where
  loc := .top
  state := ⟨statusFree, -1, -1, -1, nodeType, -1, -1⟩
  sentKill2 := false
  clock := 0
  proc := .free
  initJob := 0
  initSession := 0
  euid := 0
  loading := false
  todo := false
  healthCheck := healthCheck
  niceKillSeconds := niceKillSeconds
  out := []
  allocations := []

end Main
end Cplant.Pct
