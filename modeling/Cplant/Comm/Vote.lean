import Cplant.Comm.BarrierRounds
import Cplant.Comm.Gather

/-!
# Votes of a server group

`dsrvr_vote` gathers the values of the participants at the first of them and broadcasts the
ballot back over the fan-in tree. Each of the two operations attaches a descriptor for what it
receives, if it receives anything, performs a barrier, waits for its senders and then sends.
-/
namespace Cplant.Comm
open Function List

inductive Op
  | gather
  | bcast
deriving DecidableEq, Repr

def Op.code : Op → UInt64
  | gather => 1
  | bcast => 2

def Op.mbits (op : Op) (type : Int32) : UInt64 := op.code <<< 32 ||| type.toInt64.toUInt64

structure VoteMsg where
  op : Op
  offset : ℕ
  data : List Int32
deriving DecidableEq, Repr

structure Md where
  source : Option Peer
  threshold : ℕ
  length : ℕ
deriving DecidableEq, Repr

inductive VotePhase
  | idle
  | barrier (op : Op)
  | await (op : Op) (awaited : List Peer)
  | send (op : Op) (todo : List Peer)
  | done
deriving DecidableEq, Repr

structure Voter where
  phase : VotePhase
  myelt : ℕ
  ballot : ℕ → Int32
  md : Op → Option Md
  eventq : Op → List Peer

namespace View
variable (v : View) (list : Option (List ℤ)) (myelt : ℕ)

def inPeers : Op → List Peer
  | .gather => (gatherPlan (v.listLen list) myelt).recvs.map fun x => v.nidpid list x.1
  | .bcast => (v.calcFanIn list myelt).2.toList

def outPeers : Op → List Peer
  | .gather => (gatherPlan (v.listLen list) myelt).send.toList.map fun x => v.nidpid list x.1
  | .bcast => (v.calcFanIn list myelt).1.reverse

def outBlock : Op → Block
  | .gather => ((gatherPlan (v.listLen list) myelt).send.map Prod.snd).getD ⟨0, 0⟩
  | .bcast => ⟨0, v.listLen list⟩

def setupMd (op : Op) : Md where
  source := match op with
    | .gather => none
    | .bcast => (v.calcFanIn list myelt).2
  threshold := (v.inPeers list myelt op).length
  length := v.listLen list

end View

def Op.place : Op → VoteMsg → ℕ
  | .gather, msg => msg.offset
  | .bcast, _ => 0

def Md.accepts (md : Md) (type : Int32) (op : Op) (src : Peer) (msg : VoteMsg) : Bool :=
  (md.source = none || md.source = some src) && op.mbits type = msg.op.mbits type &&
    md.threshold ≠ 0 && op.place msg + msg.data.length ≤ md.length

namespace Voter
variable (x : Voter)

def takes (type : Int32) (op : Op) (src : Peer) (msg : VoteMsg) : Bool :=
  (x.md op).any fun md => md.accepts type op src msg

def write (ballot : ℕ → Int32) (offset : ℕ) (data : List Int32) : ℕ → Int32 := fun i =>
  if offset ≤ i ∧ i < offset + data.length then data.getD (i - offset) 0 else ballot i

def deposit (op : Op) (src : Peer) (msg : VoteMsg) : Voter :=
  { x with
    ballot := write x.ballot (op.place msg) msg.data
    md := update x.md op
      ((x.md op).map fun md => { md with threshold := md.threshold - 1 })
    eventq := update x.eventq op (x.eventq op ++ [src]) }

def arrive (type : Int32) (src : Peer) (msg : VoteMsg) : Voter :=
  if x.takes type .bcast src msg then x.deposit .bcast src msg
  else if x.takes type .gather src msg then x.deposit .gather src msg
  else x

def setup (v : View) (list : Option (List ℤ)) (op : Op) : Voter :=
  { x with
    phase := .barrier op
    md := if v.inPeers list x.myelt op = [] then x.md
      else update x.md op (some (v.setupMd list x.myelt op)) }

def get : Option Voter :=
  match x.phase with
  | .await op (a :: awaited) =>
    match x.eventq op with
    | q :: rest => some
      { x with
        eventq := update x.eventq op rest
        phase := .await op (if q ∈ a :: awaited then (a :: awaited).erase q else a :: awaited) }
    | [] => none
  | _ => none

def outMsg (v : View) (list : Option (List ℤ)) (op : Op) : VoteMsg where
  op := op
  offset := (v.outBlock list x.myelt op).offset
  data := (range (v.outBlock list x.myelt op).len).map fun i =>
    x.ballot ((v.outBlock list x.myelt op).offset + i)

end Voter

structure Election extends Group where
  list : Option (List ℤ)
  isList : toGroup.IsList list
  votes : ℕ → Int32
  type : Int32

def Move.isCall : Move → Bool
  | .call _ => true
  | _ => false

structure Poll where
  bars : Servers Op
  voter : Peer → Voter
  wire : Peer → Peer → List VoteMsg

inductive VoteMove
  | start (p : Peer)
  | barrier (m : Move)
  | pass (p : Peer)
  | get (p : Peer)
  | go (p : Peer)
  | put (p : Peer)
  | next (p : Peer)
  | deliver (p q : Peer)
deriving DecidableEq, Repr

namespace Election
variable (E : Election)

theorem sameOrder (r q : ℕ) : SameOrder (fun _ : Op => takesPart E.list r && takesPart E.list q)
      (if takesPart E.list r then [Op.gather, Op.bcast] else [])
      (if takesPart E.list q then [Op.gather, Op.bcast] else []) := by
  by_cases hr : takesPart E.list r
  · by_cases hq : takesPart E.list q
    · rw [if_pos hr, if_pos hq]
      exact .inl prefix_rfl
    · rw [if_neg hq]
      exact .inr nil_prefix
  · rw [if_neg hr]
    exact .inl nil_prefix

def program : Program Op where
  toGroup := E.toGroup
  list := fun _ => E.list
  isList := fun _ => E.isList
  barriers := fun r => if takesPart E.list r then [.gather, .bcast] else []
  sameOrder := fun r _ q _ => E.sameOrder r q

def participants : ℕ := (E.view 0).listLen E.list

def voteOf (i : ℕ) : Int32 :=
  match E.list with
  | some l => E.votes (l.getD i 0).toNat
  | none => E.votes i

end Election
namespace Poll
variable (s : Poll)

def init (ballot : Peer → ℕ → Int32) : Poll where
  bars := Servers.init
  voter := fun p => ⟨.idle, 0, ballot p, fun _ => none, fun _ => []⟩
  wire := fun _ _ => []

def setVoter (p : Peer) (x : Voter) : Poll := { s with voter := update s.voter p x }

def setWire (p q : Peer) (l : List VoteMsg) : Poll :=
  { s with wire := fun a b => if a = p ∧ b = q then l else s.wire a b }

def enter (E : Election) (p : Peer) (x : Voter) : Option Poll :=
  (s.bars.call E.program.calls p).map fun bars => { s.setVoter p x with bars }

def start (E : Election) (p : Peer) : Option Poll :=
  match (s.voter p).phase, E.rank? p with
  | .idle, some r =>
    match (E.view r).getMyRelativeRank E.list with
    | .elt myelt =>
      if E.members = 1 ∨ E.list.map length = some 1 then
        some (s.setVoter p { s.voter p with
          phase := .done
          myelt
          ballot := update (s.voter p).ballot 0 (E.votes r) })
      else
        let x := { s.voter p with
          myelt
          ballot := update (s.voter p).ballot myelt (E.votes r) }
        s.enter E p (x.setup (E.view r) E.list .gather)
    | _ => none
  | _, _ => none

def pass (E : Election) (p : Peer) : Option Poll :=
  let x := s.voter p
  match x.phase with
  | .barrier op =>
    if op ∈ (s.bars.server p).past then
      some (s.setVoter p
        { x with phase := .await op ((E.program.calls.view p).inPeers E.list x.myelt op) })
    else none
  | _ => none

def go (E : Election) (p : Peer) : Option Poll :=
  let x := s.voter p
  match x.phase with
  | .await op [] =>
    some (s.setVoter p
      { x with phase := .send op ((E.program.calls.view p).outPeers E.list x.myelt op) })
  | _ => none

def put (E : Election) (p : Peer) : Option Poll :=
  let x := s.voter p
  match x.phase with
  | .send op (q :: todo) =>
    let msg := x.outMsg (E.program.calls.view p) E.list op
    some ((s.setVoter p { x with phase := .send op todo }).setWire p q (s.wire p q ++ [msg]))
  | _ => none

def next (E : Election) (p : Peer) : Option Poll :=
  let x := s.voter p
  match x.phase with
  | .send .gather [] => s.enter E p (x.setup (E.program.calls.view p) E.list .bcast)
  | .send .bcast [] => some (s.setVoter p { x with phase := .done })
  | _ => none

def deliver (E : Election) (p q : Peer) : Option Poll :=
  match s.wire p q with
  | msg :: rest =>
    some ((s.setWire p q rest).setVoter q ((s.voter q).arrive E.type p msg))
  | [] => none

def step (E : Election) (s : Poll) : VoteMove → Option Poll
  | .start p => s.start E p
  | .barrier m =>
    if m.isCall then none else (s.bars.step E.program.calls m).map fun bars => { s with bars }
  | .pass p => s.pass E p
  | .get p => (s.voter p).get.map (s.setVoter p)
  | .go p => s.go E p
  | .put p => s.put E p
  | .next p => s.next E p
  | .deliver p q => s.deliver E p q

end Poll
end Cplant.Comm
