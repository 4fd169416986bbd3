import Cplant.Bebopd.SmartAlloc
import Cplant.Foundations.Blocks

/-!
# Node allocation

`find_free_nodes` collects the nodes for a request of `yod`. A compound request is a list of
requests. They are served in the order of `listElt`, the most specific ones first, and the
nodes of each go to the place that it has in the original order, `fromRank`. The interactive
and the scheduled partition have the same code for different lists.
-/
namespace Cplant.Bebopd
open List

inductive BebopdErr
  | ok
  | freeNodes
  | sessionLimit
  | invalid
  | noPbsSupport
  | insuffIntNodes
  | internal
deriving DecidableEq, Repr

inductive NodeSpec
  | any
  | range (fromNode toNode : ℤ)
  | list (listsize : ℤ)
  | compound (numRequests : ℤ)
  | unknown (specType : ℤ)
deriving DecidableEq, Repr

structure YodRequest where
  nnodes : ℤ
  sessionId : ℤ
  nnodesLimit : ℤ
  myptl : ℤ
  euid : UInt32
  spec : NodeSpec
deriving DecidableEq, Repr

def srvrMaxPortal : ℤ := 4095

def checkYodRequest (req : YodRequest) : Bool :=
  (match req.spec with
    | .any => true
    | .range a b => 0 ≤ a && a ≤ maxNodes && 0 ≤ b && b ≤ maxNodes
    | .list listsize => 0 < listsize && listsize ≤ maxNodes
    | .compound numRequests => 2 ≤ numRequests
    | .unknown _ => false) &&
  0 < req.nnodes && req.nnodes ≤ maxNodes && req.myptl ≤ srvrMaxPortal

/-- What `yod` sends when `bebopd` asks it for the parts of a compound request and for the node
lists, if it sends it. -/
structure Yod where
  sendsCompound : Bool
  compoundReq : ℕ → YodRequest
  sendsList : ℕ → Bool
  nidList : ℕ → ℕ → ℤ

inductive Partition
  | interactive
  | scheduled
deriving DecidableEq, Repr

namespace Registry
variable (r : Registry) (p : Partition)

def onList (n : ℤ) : Bool :=
  match p with
  | .interactive => r.interactiveList n
  | .scheduled => r.scheduledList n

def firstIndex : ℤ := match p with | .interactive => r.intMIN | .scheduled => r.pbsMIN

def lastIndex : ℤ := match p with | .interactive => r.intMAX | .scheduled => r.pbsMAX

def slots : List ℤ :=
  (Int.range (r.firstIndex p) (r.lastIndex p + 1)).map fun i =>
    if r.remap then r.carray i else i

def isFree (n : ℤ) : Bool := (r.larray n).status = statusFree

def eligible (n : ℤ) : Bool := r.onList p n && r.isFree n

def reservedOk (euid : UInt32) (n : ℤ) : Bool :=
  (r.larray n).reserved = -1 || (r.larray n).reserved.toUInt32 = euid

def freeList (euid : UInt32) : List ℤ :=
  (r.slots p).filter fun n =>
    (!r.remap || n ≠ -1) && r.eligible p n && r.reservedOk euid n

def inPcts (n : ℤ) : Bool := r.minPct ≤ n && n ≤ r.maxPct

def rangeNodes (node1 node2 : ℤ) : List ℤ :=
  if node1 < node2 then Int.range (max node1 r.minPct) (min node2 r.maxPct + 1)
  else (Int.range (max node2 r.minPct) (min node1 r.maxPct + 1)).reverse

def acquire (euid : UInt32) (req : YodRequest) (nids : List ℤ) : List ℤ :=
  match req.spec with
  | .any =>
    let pos := fun n => if r.remap then r.marray n else n
    (smartAlloc pos (r.freeList p euid) req.nnodes.toNat).getD []
  | .list _ => (nids.filter fun n => r.inPcts n && r.eligible p n).take req.nnodes.toNat
  | .range a b => ((r.rangeNodes a b).filter (r.eligible p)).take req.nnodes.toNat
  | .compound _ | .unknown _ => []

end Registry

structure Parts where
  nreq : ℕ
  req : ℕ → YodRequest
  nids : ℕ → List ℤ

namespace Parts
variable (parts : Parts)

def fromRank (i : ℕ) : ℤ := (∑ j ∈ Finset.range i, (parts.req j).nnodes).bmod (2 ^ 32)

end Parts

inductive Specificity
  | wantsAllOfList
  | wantsPartOfList
  | wantsAny
deriving DecidableEq, Repr

/-- `request_specificity`. For a compound request the variable that it returns is not set. -/
def requestSpecificity (req : YodRequest) : Option Specificity :=
  match req.spec with
  | .any => some .wantsAny
  | .range a b =>
    let listsize := if b > a then b - a + 1 else a - b + 1
    some (if req.nnodes = listsize then .wantsAllOfList else .wantsPartOfList)
  | .list listsize =>
    some (if req.nnodes = listsize then .wantsAllOfList else .wantsPartOfList)
  | .compound _ | .unknown _ => none

def listElt (parts : Parts) : List ℕ :=
  [Specificity.wantsAllOfList, .wantsPartOfList, .wantsAny].flatMap fun s =>
    (range parts.nreq).filter fun i => requestSpecificity (parts.req i) = some s

abbrev Writes := List (ℤ × ℤ)

/-- `make_pct_list_iactive` and `make_pct_list_pbs`, from the turn at which `accum` nodes are
allocated and the parts in the list are not served. -/
def makePctList (r : Registry) (p : Partition) (euid : UInt32) (parts : Parts) (rnodes : ℤ)
    (accum : ℤ) : List ℕ → BebopdErr × Writes
  | [] => (if accum ≠ rnodes then .freeNodes else .ok, [])
  | elt :: rest =>
    let req := parts.req elt
    if accum + req.nnodes > rnodes then
      (if accum ≠ rnodes then .freeNodes else .invalid, [])
    else
      let got := r.acquire p euid req (parts.nids elt)
      let ws := copyTo (parts.fromRank elt) got
      if got.length < req.nnodes then (.freeNodes, ws)
      else
        let next := makePctList r p euid parts rnodes (accum + got.length) rest
        (next.1, ws ++ next.2)

def makePctListIactive (r : Registry) := makePctList r .interactive

def makePctListPbs (r : Registry) := makePctList r .scheduled

def iactiveFree (r : Registry) : ℕ := (r.slots .interactive).countP (r.eligible .interactive)

def allocateNodes (r : Registry) (euid : UInt32) (parts : Parts) (rnodes : ℤ)
    (order : List ℕ) : BebopdErr × Writes :=
  if rnodes > iactiveFree r then (.insuffIntNodes, [])
  else makePctListIactive r euid parts rnodes 0 order

def pbsJobNodes (r : Registry) (sessionID : ℤ) : ℕ :=
  (r.slots .scheduled).countP fun n => r.onList .scheduled n &&
    ((r.larray n).sessionId.toInt = sessionID || (r.larray n).pendingSid.toInt = sessionID)

def pbsFree (r : Registry) : ℕ := (r.slots .scheduled).countP (r.eligible .scheduled)

def allocateNodesForPbs (r : Registry) (euid : UInt32) (sessionID sessionLimit : ℤ)
    (parts : Parts) (rnodes : ℤ) (order : List ℕ) : BebopdErr × Writes :=
  if pbsJobNodes r sessionID + rnodes > sessionLimit then (.sessionLimit, [])
  else if rnodes > pbsFree r then (.freeNodes, [])
  else makePctListPbs r euid parts rnodes 0 order

def partsOf (req : YodRequest) (yod : Yod) : Parts :=
  let part := match req.spec with | .compound _ => yod.compoundReq | _ => fun _ => req
  { nreq := match req.spec with | .compound numRequests => numRequests.toNat | _ => 1
    req := part
    nids := fun i => match (part i).spec with
      | .list listsize => (range listsize.toNat).map (yod.nidList i)
      | _ => [] }

def isCompound (req : YodRequest) : Bool := match req.spec with | .compound _ => true | _ => false

def partitionOf (req : YodRequest) : Partition :=
  if req.sessionId = inval then .interactive else .scheduled

def listsArrive (parts : Parts) (yod : Yod) : Bool :=
  (range parts.nreq).all fun i => match (parts.req i).spec with
    | .list _ => yod.sendsList i
    | _ => true

/-- `find_free_nodes`: what it returns and what it writes to `pct_info` after setting it to 0.
It is undefined for a compound request in a compound request, whose specificity is not set. -/
def findFreeNodes (r : Registry) (req : YodRequest) (yod : Yod) : Option (BebopdErr × Writes) :=
  let parts := partsOf req yod
  let all := range parts.nreq
  if req.sessionId ≠ inval ∧ r.pbsSupport = false then some (.noPbsSupport, [])
  else if isCompound req ∧ yod.sendsCompound = false then some (.internal, [])
  else if isCompound req ∧ (all.any fun i => !checkYodRequest (parts.req i)) then
    some (.invalid, [])
  else if isCompound req ∧ (all.any fun i => isCompound (parts.req i)) then none
  else if !listsArrive parts yod then some (.internal, [])
  else
    let order := if isCompound req then listElt parts else [0]
    match partitionOf req with
    | .interactive => some (allocateNodes r req.euid parts req.nnodes order)
    | .scheduled => some (allocateNodesForPbs r req.euid req.sessionId req.nnodesLimit parts
        req.nnodes order)

def pctList (req : YodRequest) (ws : Writes) : List ℤ :=
  (range req.nnodes.toNat).map fun k : ℕ => written (fun _ => 0) ws k

end Cplant.Bebopd
