import Cplant.Collectives.Tree

/-!
`PtlNIBarrier`: a reduction to rank 0 followed by a broadcast from it, over the
calls of the fan-in and the fan-out.
-/
namespace Cplant.Collectives
open Function
open Portals (PtlEventKind)

inductive Op
  | reduce
  | bcast
deriving DecidableEq, Repr

structure Packet where
  op : Op
  kind : PtlEventKind
  src : ℕ
  dst : ℕ
deriving DecidableEq, Repr

/-- Where a process is in `PtlNIBarrier`, with the calls still to make. In `acking` the put of the
fan-in is out. -/
inductive Phase
  | outside
  | reduce (turns : List Turn)
  | acking (partner : ℕ) (turns : List Turn)
  | bcast (turns : List Turn)
deriving DecidableEq, Repr

/-- `done` is the number of the last call of `PtlNIBarrier` that returned `PTL_OK`. A call that
has `failed` has returned an error from `phase`. -/
structure Proc where
  calls : ℕ
  done : ℕ
  phase : Phase
  failed : Bool
  events : Op → List PtlEventKind

def Proc.eqGet (p : Proc) (op : Op) (wanted : PtlEventKind) (next : Phase) : Option Proc :=
  match p.events op with
  | [] => none
  | ev :: rest => some
    { p with
      events := update p.events op rest
      phase := if ev = wanted then next else p.phase }

/-- One event for the loop the process is in: `recv` of the reduction, the wait in its `send`,
or `recv` of the broadcast. None of them looks at the initiator. -/
def Proc.poll (p : Proc) : Option Proc :=
  match p.phase with
  | .reduce (.asRoot _ :: turns) => p.eqGet .reduce .put (.reduce turns)
  | .acking _ turns => p.eqGet .reduce .ack (.reduce turns)
  | .bcast (.asChild _ :: turns) => p.eqGet .bcast .put (.bcast turns)
  | _ => none

def ptlPut (op : Op) (src dst : ℕ) : List Packet :=
  [⟨op, .put, src, dst⟩, ⟨op, .sent, src, src⟩]

inductive Move
  /-- The process calls `PtlNIBarrier`. -/
  | call
  | poll
  /-- The first put of the fan-in's `send`, or the put of the fan-out's. -/
  | put
  | retry
  /-- The fan-in or the fan-out returns `PTL_OK`. -/
  | proceed
  | fail
deriving DecidableEq, Repr

def Proc.move (n r : ℕ) (p : Proc) : Move → Option (Proc × List Packet)
  | .call =>
    if p.phase = .outside ∨ p.failed = true then
      some ({ p with
        calls := p.calls + 1, phase := .reduce (faninCalls 0 n r), failed := false }, [])
    else none
  | .poll => p.poll.map fun p' => (p', [])
  | .put =>
    match p.phase with
    | .reduce (.asChild q :: turns) => some ({ p with phase := .acking q turns }, ptlPut .reduce r q)
    | .bcast (.asRoot c :: turns) => some ({ p with phase := .bcast turns }, ptlPut .bcast r c)
    | _ => none
  | .retry =>
    match p.phase with
    | .acking q _ => some (p, ptlPut .reduce r q)
    | _ => none
  | .proceed =>
    match p.phase with
    | .reduce [] => some ({ p with phase := .bcast (fanoutCalls 0 n r) }, [])
    | .bcast [] => some ({ p with phase := .outside, done := p.calls }, [])
    | _ => none
  | .fail =>
    match p.phase with
    | .outside | .bcast [] => none
    | _ => some ({ p with failed := true }, [])

/-- `heard` counts the puts of the reduction that have arrived, by the rank they came from. No
step of a process reads it. -/
structure Group where
  proc : ℕ → Proc
  flight : List Packet
  heard : ℕ → ℕ

inductive Act
  | proc (r : ℕ) (move : Move)
  | deliver (packet : Packet)
  | lose (packet : Packet)
  | overwrite (r : ℕ) (op : Op) (i : ℕ)
deriving DecidableEq, Repr

namespace Group

def init : Group where
  proc _ := ⟨0, 0, .outside, false, fun _ => []⟩
  flight := []
  heard _ := 0

def setEvents (g : Group) (r : ℕ) (op : Op) (events : List PtlEventKind) : ℕ → Proc :=
  update g.proc r
    { g.proc r with events := update (g.proc r).events op events }

/-- A packet leaves its event at `dst`. A put of the reduction was sent with `PTL_ACK_REQ`, one
of the broadcast with `PTL_NOACK_REQ`. -/
def deliver (g : Group) (k : Packet) : Group :=
  let proc := g.setEvents k.dst k.op ((g.proc k.dst).events k.op ++ [k.kind])
  if k.op = .reduce ∧ k.kind = .put then
    { proc
      flight := g.flight.erase k ++ [⟨.reduce, .ack, k.dst, k.src⟩]
      heard := update g.heard k.src (g.heard k.src + 1) }
  else
    { g with proc, flight := g.flight.erase k }

/-- A process that has failed takes no step before it calls `PtlNIBarrier` again. -/
def step (n : ℕ) (g : Group) : Act → Option Group
  | .proc r move =>
    if r < n ∧ ((g.proc r).failed = true → move = .call) then
      ((g.proc r).move n r move).map fun (p, sent) =>
        { g with proc := update g.proc r p, flight := g.flight ++ sent }
    else none
  | .deliver k => if k ∈ g.flight then some (g.deliver k) else none
  | .lose k => if k ∈ g.flight then some { g with flight := g.flight.erase k } else none
  | .overwrite r op i =>
    some { g with proc := g.setEvents r op (((g.proc r).events op).eraseIdx i) }

def putsOut (g : Group) (r : ℕ) : ℕ :=
  g.flight.countP fun k => k.op = .reduce ∧ k.kind = .put ∧ k.src = r

/-- The put of a rank is sent again only if fewer of its puts are under way or have arrived than it
has made calls, and a rank whose `PtlNIBarrier` has failed does not call it again. -/
def Careful (g : Group) : Act → Prop
  | .proc r .retry => g.heard r + g.putsOut r < (g.proc r).calls
  | .proc r .call => (g.proc r).failed = false
  | _ => True

instance (g : Group) (a : Act) : Decidable (g.Careful a) := by
  unfold Careful
  split <;> infer_instance

def play (n : ℕ) (g : Group) (acts : List Act) : Option Group :=
  acts.foldlM (step n) g

inductive Reached (n : ℕ) : Group → Prop
  | init : Reached n init
  | step {g g' : Group} {a : Act} (h : Reached n g) (hc : g.Careful a) (hs : g.step n a = some g') :
      Reached n g'

end Group

def lateAck : List Act :=
  [.proc 0 .call, .proc 1 .call, .proc 1 .put, .proc 1 .retry,
    .deliver ⟨.reduce, .put, 1, 0⟩, .deliver ⟨.reduce, .put, 1, 0⟩,
    .proc 0 .poll, .proc 0 .poll, .proc 0 .proceed,
    .proc 0 .put, .proc 0 .put, .proc 0 .proceed]

theorem barrier_overtaken : ∃ g, Group.init.play 3 lateAck = some g ∧
    (g.proc 0).done = 1 ∧ (g.proc 2).calls = 0 := by
  have hrun : (Group.init.play 3 lateAck).any
      (fun g => (g.proc 0).done = 1 ∧ (g.proc 2).calls = 0) = true := by decide +kernel
  obtain ⟨g, hg, hdone⟩ := (Option.any_eq_true _ _).mp hrun
  exact ⟨g, hg, of_decide_eq_true hdone⟩

/-- The second call of rank 0, after a time-out in the first, is answered by the put of rank 1's
first call. -/
example : (Group.init.play 2
    [.proc 0 .call, .proc 0 .fail, .proc 0 .call, .proc 1 .call, .proc 1 .put,
      .deliver ⟨.reduce, .put, 1, 0⟩, .proc 0 .poll, .proc 0 .proceed, .proc 0 .put,
      .proc 0 .proceed]).any
    (fun g => (g.proc 0).done = 2 ∧ (g.proc 1).calls = 1) = true := by decide +kernel

end Cplant.Collectives
