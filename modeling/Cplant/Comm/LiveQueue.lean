import Cplant.Foundations.Runs

/-!
# The queues of the collective operations

A memory descriptor copies the queue handle of `mddef` when it is attached. `setup_gather` and
`setup_bcast` attach theirs for each operation, but the one for barriers is attached by
`server_coll_init` only, while `reset_eq` puts a new queue into `mddef` after every time-out.
-/
namespace Cplant.Comm
open Function (update)

inductive OpType
  | barrier | gather | bcast
  deriving DecidableEq

/-- How `await_senders` ends. After a time-out `PtlEQAlloc` may have no queue to give. -/
inductive Await
  | done
  | failed
  | timedOut (newq : Option ℕ)

inductive Setup
  | unlinkFailed
  | attachFailed
  | attached

/-- Of `opTypes`: `mddef.eventq` and the queue that the attached descriptor posts to. `watched`
says that each queue that was polled so far was that one. -/
structure Coll where
  eventq : OpType → ℕ
  posts : OpType → Option ℕ
  watched : Bool

structure BarrierRun where
  fanIn : Option Await
  sent : Bool
  fanOut : Option Await
  released : Bool

inductive CollCall
  | barrier (b : BarrierRun)
  | gather (s : Option Setup) (b : BarrierRun) (r : Await)
  | bcast (s : Option Setup) (b : BarrierRun) (r : Await)

namespace Coll
variable {c c' : Coll} {t : OpType} {b : BarrierRun}

def serverCollInit (eventq : OpType → ℕ) : Coll where
  eventq := eventq
  posts t := if t = .barrier then some (eventq t) else none
  watched := true

def resetEq (c : Coll) (t : OpType) (newq : Option ℕ) : Coll :=
  { c with eventq := update c.eventq t (newq.getD (c.eventq t)) }

def awaitSenders (c : Coll) (t : OpType) (r : Await) : Coll × Bool :=
  let c' := { c with watched := c.watched && c.posts t == some (c.eventq t) }
  match r with
  | .done => (c', true)
  | .failed => (c', false)
  | .timedOut newq => (c'.resetEq t newq, false)

def setup (c : Coll) (t : OpType) : Setup → Coll × Bool
  | .unlinkFailed => (c, false)
  | .attachFailed => ({ c with posts := update c.posts t none }, false)
  | .attached => ({ c with posts := update c.posts t (some (c.eventq t)) }, true)

def dsrvrBarrier (c : Coll) (b : BarrierRun) : Coll × Bool :=
  let await (c : Coll) (r : Option Await) := (r.map (c.awaitSenders .barrier)).getD (c, true)
  let c₁ := await c b.fanIn
  if !(c₁.2 && b.sent) then (c₁.1, false)
  else
    let c₂ := await c₁.1 b.fanOut
    (c₂.1, c₂.2 && b.released)

/-- `dsrvr_gather` and `dsrvr_bcast`. Where nothing is to be received there is only the
barrier. -/
def receive (t : OpType) (c : Coll) (s : Option Setup) (b : BarrierRun) (r : Await) : Coll :=
  match s with
  | none => (c.dsrvrBarrier b).1
  | some s =>
    let c₁ := c.setup t s
    if !c₁.2 then c₁.1
    else
      let c₂ := c₁.1.dsrvrBarrier b
      if !c₂.2 then c₂.1 else (c₂.1.awaitSenders t r).1

def dsrvrGather : Coll → Option Setup → BarrierRun → Await → Coll := receive .gather

def dsrvrBcast : Coll → Option Setup → BarrierRun → Await → Coll := receive .bcast

def step (c : Coll) : CollCall → Option Coll
  | .barrier b => some (c.dsrvrBarrier b).1
  | .gather s b r => some (c.dsrvrGather s b r)
  | .bcast s b r => some (c.dsrvrBcast s b r)

def KeepsQueue (b : BarrierRun) : Prop :=
  ∀ q, b.fanIn ≠ some (.timedOut (some q)) ∧ b.fanOut ≠ some (.timedOut (some q))

def Keeps (_ : Coll) : CollCall → Prop
  | .barrier b | .gather _ b _ | .bcast _ b _ => KeepsQueue b

structure Live (c : Coll) : Prop where
  watched : c.watched = true
  barrier : c.posts .barrier = some (c.eventq .barrier)

theorem Live.await (h : c.Live) {r : Option Await} (hr : ∀ q, r ≠ some (.timedOut (some q))) :
    ((r.map (c.awaitSenders .barrier)).getD (c, true)).1 = c := by
  have hsame : (c.watched && c.posts .barrier == some (c.eventq .barrier)) = c.watched := by
    rw [h.barrier, beq_self_eq_true, Bool.and_true]
  match r with
  | none => rfl
  | some .done | some .failed | some (.timedOut none) => simp [awaitSenders, resetEq, hsame]
  | some (.timedOut (some q)) => exact absurd rfl (hr q)

theorem Live.dsrvrBarrier (h : c.Live) (hb : KeepsQueue b) : (c.dsrvrBarrier b).1 = c := by
  unfold Coll.dsrvrBarrier
  dsimp only
  rw [h.await fun q => (hb q).1, h.await fun q => (hb q).2]
  split_ifs <;> rfl

theorem Live.receive (h : c.Live) (ht : t ≠ .barrier) (hb : KeepsQueue b) (s : Option Setup)
    (r : Await) : (receive t c s b r).Live := by
  match s with
  | none =>
    rw [Coll.receive, h.dsrvrBarrier hb]
    exact h
  | some .unlinkFailed => exact h
  | some .attachFailed => exact ⟨h.watched, by simpa [Coll.receive, setup, ht.symm] using h.barrier⟩
  | some .attached =>
    -- the barrier keeps what was attached, so the queue that is polled is the attached one
    have hset : Live { c with posts := update c.posts t (some (c.eventq t)) } :=
      ⟨h.watched, by simpa [ht.symm] using h.barrier⟩
    simp only [Coll.receive, setup, hset.dsrvrBarrier hb, Bool.not_true, Bool.false_eq_true,
      if_false]
    split_ifs
    · exact hset
    · cases r <;> exact ⟨by simp [awaitSenders, resetEq, h.watched],
        by simpa [awaitSenders, resetEq, ht.symm] using h.barrier⟩

theorem Live.step {i : CollCall} (h : c.Live) (hok : c.Keeps i) (hs : c.step i = some c') :
    c'.Live := by
  cases i with
  | barrier b =>
    cases hs
    exact (h.dsrvrBarrier hok).symm ▸ h
  | gather s b r => exact Option.some.inj hs ▸ h.receive (t := .gather) nofun hok s r
  | bcast s b r => exact Option.some.inj hs ▸ h.receive (t := .bcast) nofun hok s r

/-- In every run in which no wait of a barrier gets a new queue, `await_senders` only ever polls
the queue that the descriptor posts to. -/
theorem receivers_watch (eventq : OpType → ℕ)
    (h : Reaches step Keeps (serverCollInit eventq) c) : c.watched = true :=
  (h.invariant (P := Live) ⟨rfl, rfl⟩ Live.step).watched

theorem receivers_watch_gathers : ∃ c, Reaches step Keeps (serverCollInit fun _ => 1) c ∧
    c.eventq .gather = 9 ∧ c.watched = true := by
  have hb : KeepsQueue ⟨none, true, none, true⟩ := fun q => ⟨nofun, nofun⟩
  have hrun : Reaches step Keeps (serverCollInit fun _ => 1) _ :=
    (Reaches.init.step (.gather (some .attached) _ (.timedOut (some 9))) hb rfl).step
      (.gather (some .attached) _ .done) hb rfl
  exact ⟨_, hrun, rfl, receivers_watch _ hrun⟩

theorem barrier_watches_no_queue : ∃ c,
    Reaches step (fun _ _ => True) (serverCollInit fun _ => 1) c ∧
      c.eventq .barrier = 9 ∧ c.posts .barrier = some 1 ∧ c.watched = false :=
  ⟨_, (Reaches.init.step (.barrier ⟨some (.timedOut (some 9)), true, none, true⟩) trivial rfl).step
    (.barrier ⟨some .done, true, none, true⟩) trivial rfl, rfl, rfl, rfl⟩

end Coll
end Cplant.Comm
