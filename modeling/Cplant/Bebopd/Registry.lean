import Mathlib.Data.Int.Interval
import Mathlib.Data.Int.Range

/-!
# The node registry of bebopd

`bebopd` keeps one entry for each compute node. `larray` holds what the PCT of the node
reported last, `Registered`, `interactive_list` and `scheduled_list` say which nodes can be
allocated and in which partition, and `activeNodes` is the number of scheduled nodes that the
PBS server is told. The build has `STRIPDOWN`, `REMAP` and `RELIABLE` set.
-/
namespace Cplant.Bebopd
open Function Int

def maxNodes : ℤ := 2048

def inval : ℤ := -1

def statusNoStatus : Int16 := 0
def statusFree : Int16 := 1
def statusAllocated : Int16 := 2
def statusBusy : Int16 := 3
def statusDown : Int16 := 4
def statusUnreported : Int16 := 5
def statusTrouble : Int16 := 6

def statusTalking (s : Int16) : Bool :=
  s ≠ statusNoStatus && s ≠ statusDown && s ≠ statusUnreported

inductive NodeType
  | unsetNode
  | iactiveNode
  | pbsNode
deriving DecidableEq, Repr

structure PctId where
  status : Int16
  pendingJid : Int16
  pendingSid : Int16
  reserved : Int32
  nodeType : NodeType
  jobId : Int16
  sessionId : Int32
deriving DecidableEq, Repr

structure Registry where
  larray : ℤ → PctId
  registered : ℤ → Bool
  interactiveList : ℤ → Bool
  scheduledList : ℤ → Bool
  activeNodes : ℤ
  minPct : ℤ
  maxPct : ℤ
  intMIN : ℤ
  intMAX : ℤ
  pbsMIN : ℤ
  pbsMAX : ℤ
  pbsSupport : Bool
  remap : Bool
  carray : ℤ → ℤ
  marray : ℤ → ℤ

def IsNode (n : ℤ) : Prop := 0 ≤ n ∧ n < maxNodes

instance (n : ℤ) : Decidable (IsNode n) := inferInstanceAs (Decidable (_ ∧ _))

def clearPctId (rec : PctId) : PctId where
  status := 0
  pendingJid := -1
  pendingSid := -1
  reserved := -1
  nodeType := rec.nodeType
  jobId := -1
  sessionId := -1

inductive UpdateType
  | pctUpdateMsg
  | pctInitialMsg
  | other
deriving DecidableEq, Repr

structure PctMsg where
  nid : ℤ
  pid : ℤ
  msgtype : UpdateType
  data : PctId

def ppidPct : ℤ := 2

/-- What a ping with `PCT_GONE_UPDATE` says: a range, or with `nid1 = -1` the size of a list
that the sender then sends. -/
structure Ping where
  nid1 : ℤ
  nid2 : ℤ
  nodeList : Option (ℕ → ℤ)

inductive Query
  | all
  | range (nid1 nid2 : ℤ)
  | nodes (nids : List ℤ)

namespace Registry
variable (r : Registry)

def setStatus (n : ℤ) (s : Int16) : Registry :=
  { r with larray := update r.larray n { r.larray n with status := s } }

def unregister (n : ℤ) : Registry :=
  if r.interactiveList n then
    { r with
      registered := update r.registered n false
      interactiveList := update r.interactiveList n false }
  else
    { r with
      registered := update r.registered n false
      scheduledList := update r.scheduledList n false
      activeNodes := r.activeNodes - 1 }

def register (n : ℤ) : Registry :=
  let pos := if r.remap then r.marray n else n
  if (r.larray n).nodeType = .iactiveNode then
    { r with
      registered := update r.registered n true
      interactiveList := update r.interactiveList n true
      intMAX := if r.intMAX < pos then pos else r.intMAX
      intMIN := if (r.remap = true → pos ≠ -1) ∧ pos < r.intMIN then pos else r.intMIN }
  else
    { r with
      registered := update r.registered n true
      scheduledList := update r.scheduledList n true
      activeNodes := r.activeNodes + 1
      pbsMAX := if r.pbsMAX < pos then pos else r.pbsMAX
      pbsMIN := if pos < r.pbsMIN then pos else r.pbsMIN }

/-- What `update_pct_pid_array` does with the data of node `n`. The type of the node is known
to `bebopd` only and is kept. -/
def takeUpdate (n : ℤ) (data : PctId) : Registry :=
  let data' := { data with nodeType := (r.larray n).nodeType }
  let r' := { r with larray := update r.larray n data' }
  if r.registered n = false then r'.register n
  else if data.status = statusDown then r'.unregister n
  else r'

def widenPcts (n : ℤ) : Registry :=
  { r with
    minPct := if n < r.minPct then n else r.minPct
    maxPct := if r.maxPct < n then n else r.maxPct }

/-- One turn of the loop of `update_pct_pid_array`. `rc` is what the send of `PCT_GOTCHA`
returns. -/
def updatePctPidArray (msg : PctMsg) (rc : ℤ) : Registry :=
  if msg.nid ≥ maxNodes ∨ msg.nid < 0 ∨ msg.pid ≠ ppidPct ∨ msg.msgtype = .other then r
  else if msg.msgtype = .pctInitialMsg ∧ rc ≠ 1 then r
  else (r.takeUpdate msg.nid msg.data).widenPcts msg.nid

def pctGone (n : ℤ) : Registry :=
  if (r.larray n).status = statusNoStatus then r
  else
    let rec' := { clearPctId (r.larray n) with status := statusDown }
    { r with larray := update r.larray n rec' }.unregister n

def pingNodes (p : Ping) : List ℤ :=
  if r.maxPct < r.minPct then []
  else if p.nid1 = -1 then
    if p.nid2 ≤ 0 ∨ p.nid2 > maxNodes then []
    else match p.nodeList with
      | none => []
      | some list =>
        ((List.range p.nid2.toNat).map list).filter fun n => r.minPct ≤ n ∧ n ≤ r.maxPct
  else if p.nid1 < 0 ∨ p.nid2 ≥ maxNodes ∨ p.nid2 < p.nid1 then []
  else range (max p.nid1 r.minPct) (min p.nid2 r.maxPct + 1)

def pctGoneUpdate (p : Ping) : Registry := (r.pingNodes p).foldl pctGone r

def queryNodes : Query → List ℤ
  | .all => range r.minPct (r.maxPct + 1)
  | .range a b => range (max (min a b) r.minPct) (min (max a b) r.maxPct + 1)
  | .nodes nids => nids.filter fun n => r.minPct ≤ n ∧ n ≤ r.maxPct

def isTarget (scan : Bool) (n : ℤ) : Bool :=
  if scan then (r.larray n).status ≠ statusNoStatus else statusTalking (r.larray n).status

def solicitTargets (scan : Bool) (r : Registry) : List ℤ → Registry × List ℤ
  | [] => (r, [])
  | n :: rest =>
    if r.isTarget scan n then
      let next := solicitTargets scan (r.setStatus n statusUnreported) rest
      (next.1, n :: next.2)
    else solicitTargets scan r rest

def sendFailed (n : ℤ) : Registry := (r.setStatus n statusDown).unregister n

def failedNodes (q : Query) (scan : Bool) (waitFor : ℕ → Bool) : List ℤ :=
  let targets := (solicitTargets scan r (r.queryNodes q)).2
  (targets.zipIdx.filter fun t => !waitFor t.2).map Prod.fst

/-- `solicit_pct_updates` up to the wait for the updates, which come as messages of their
own. -/
def solicitPctUpdates (q : Query) (scan : Bool) (waitFor : ℕ → Bool) : Registry :=
  if r.maxPct < r.minPct then r
  else
    (r.failedNodes q scan waitFor).foldl sendFailed
      (solicitTargets scan r (r.queryNodes q)).1

def computeActiveNodes : Registry :=
  { r with
    activeNodes := ((range r.pbsMIN (r.pbsMAX + 1)).countP fun i =>
      let n := if r.remap then r.carray i else i
      let s := (r.larray n).status
      (s = statusFree || s = statusAllocated || s = statusBusy) &&
        (r.larray n).nodeType ≠ .iactiveNode : ℕ) }

def newInteractiveList (list : List ℤ) : Registry :=
  { r with
    intMIN := maxNodes
    intMAX := -1
    pbsMIN := maxNodes
    pbsMAX := -1
    activeNodes := 0
    registered := fun n => if IsNode n then false else r.registered n
    scheduledList := fun n => if IsNode n then false else r.scheduledList n
    interactiveList := fun n => if IsNode n then false else r.interactiveList n
    larray := fun n =>
      if IsNode n then
        { r.larray n with
          nodeType := if r.pbsSupport = false ∨ n ∈ list then .iactiveNode else .unsetNode }
      else r.larray n }

end Registry
end Cplant.Bebopd
