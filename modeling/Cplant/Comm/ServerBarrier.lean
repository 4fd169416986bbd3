import Cplant.Comm.Members
import Cplant.Foundations.Runs

/-!
# The barrier of the server library

`dsrvr_barrier` hears from its sources, reports to its target, hears from the target and
releases its sources. A barrier message is empty: all that `await_senders` sees of it is the
sender in the event of the barrier queue. An event from another sender than the awaited ones is
saved with `addEventList`, and the next wait looks at the saved events first.
-/
namespace Cplant.Comm
open Option
open List

structure Saved where
  list : List Peer
  size : ℕ
deriving DecidableEq, Repr

namespace Saved

def addEvent (s : Saved) (q : Peer) : Saved :=
  let list := if s.size = 0 then [] else s.list
  if list = [] then ⟨[q], s.size + 1⟩ else ⟨list ++ [q], s.size⟩

def searchEvent (s : Saved) (q : Peer) : Option Saved :=
  if s.size = 0 then none
  else if q ∈ s.list.take s.size then some ⟨s.list.erase q, s.size - 1⟩
  else none

def searchAll : List Peer → Saved → List Peer × Saved
  | [], s => ([], s)
  | q :: senders, s =>
    match s.searchEvent q with
    | some s' => if s'.size = 0 then (senders, s') else searchAll senders s'
    | none =>
      let rest := searchAll senders s
      (q :: rest.1, rest.2)

def awaitSenders (s : Saved) (senders : List Peer) : List Peer × Saved :=
  if s.size = 0 then (senders, s) else searchAll senders s

end Saved

inductive Stage
  | fanIn
  | fanOut
deriving DecidableEq, Repr

inductive BarrierPhase
  | outside
  | await (stage : Stage) (awaited : List Peer)
  | release (todo : List Peer)
deriving DecidableEq, Repr

/-- The barrier of one process: the partners of the call it is in, the senders in the events
of the queue, and the saved events. -/
structure Barrier where
  phase : BarrierPhase
  inPeers : List Peer
  outPeer : Option Peer
  eventq : List Peer
  saved : Saved
deriving DecidableEq, Repr

inductive Prologue
  | ok
  | error
  | partners (inPeers : List Peer) (outPeer : Option Peer)
deriving DecidableEq, Repr

def View.prologue (v : View) (list : Option (List ℤ)) : Prologue :=
  if v.members = 1 ∨ list.map List.length = some 1 then .ok
  else
    match v.getMyRelativeRank list with
    | .elt myelt =>
      let found := v.calcFanIn list myelt
      .partners found.1 found.2
    | .absent => .ok
    | .einval => .error

namespace Barrier
variable (b : Barrier)

def init : Barrier := ⟨.outside, [], none, [], ⟨[], 0⟩⟩

def enter (inPeers : List Peer) (outPeer : Option Peer) : Barrier :=
  let found := b.saved.awaitSenders inPeers
  { b with phase := .await .fanIn found.1, inPeers, outPeer, saved := found.2 }

def get : Option Barrier :=
  match b.eventq, b.phase with
  | q :: rest, .await stage (a :: awaited) =>
    if q ∈ a :: awaited then
      some { b with eventq := rest, phase := .await stage ((a :: awaited).erase q) }
    else
      some { b with eventq := rest, saved := b.saved.addEvent q }
  | _, _ => none

def go : Option (Barrier × Option Peer) :=
  match b.phase with
  | .await .fanIn [] =>
    let found := b.saved.awaitSenders b.outPeer.toList
    some ({ b with phase := .await .fanOut found.1, saved := found.2 }, b.outPeer)
  | .await .fanOut [] => some ({ b with phase := .release b.inPeers.reverse }, none)
  | .release (q :: todo) => some ({ b with phase := .release todo }, some q)
  | _ => none

end Barrier

structure Server (ι : Type*) where
  barrier : Barrier
  past : List ι
  cur : Option ι

/-- `wire p q` is the number of barrier messages on their way from `p` to `q`. -/
structure Servers (ι : Type*) where
  server : Peer → Server ι
  wire : Peer → Peer → ℕ

structure Calls (ι : Type*) where
  view : Peer → View
  list : Peer → ι → Option (List ℤ)
  prog : Peer → List ι

inductive Move
  | call (p : Peer)
  | get (p : Peer)
  | go (p : Peer)
  | leave (p : Peer)
  | deliver (p q : Peer)
  | overrun (p : Peer) (k : ℕ)
deriving DecidableEq, Repr

def eqsize : ℕ := 33

namespace Servers
variable {ι : Type*} (s : Servers ι)

def init : Servers ι := ⟨fun _ => ⟨Barrier.init, [], none⟩, fun _ _ => 0⟩

def set (p : Peer) (x : Server ι) : Servers ι :=
  { s with server := Function.update s.server p x }

def setBarrier (p : Peer) (b : Barrier) : Servers ι := s.set p { s.server p with barrier := b }

def setWire (p q : Peer) (k : ℕ) : Servers ι :=
  { s with wire := fun a b => if a = p ∧ b = q then k else s.wire a b }

def send (p : Peer) : Option Peer → Servers ι
  | none => s
  | some q => s.setWire p q (s.wire p q + 1)

def call (c : Calls ι) (p : Peer) : Option (Servers ι) :=
  let x := s.server p
  match x.cur, (c.prog p)[x.past.length]? with
  | none, some i =>
    match (c.view p).prologue (c.list p i) with
    | .ok => some (s.set p { x with past := x.past ++ [i] })
    | .error => none
    | .partners inPeers outPeer =>
      some (s.set p { x with cur := some i, barrier := x.barrier.enter inPeers outPeer })
  | _, _ => none

def leave (p : Peer) : Option (Servers ι) :=
  let x := s.server p
  match x.cur, x.barrier.phase with
  | some i, .release [] =>
    some (s.set p
      { barrier := { x.barrier with phase := .outside }, past := x.past ++ [i], cur := none })
  | _, _ => none

def deliver (p q : Peer) : Option (Servers ι) :=
  if s.wire p q = 0 then none
  else
    let b := (s.server q).barrier
    some ((s.setWire p q (s.wire p q - 1)).setBarrier q { b with eventq := b.eventq ++ [p] })

def overrun (p : Peer) (k : ℕ) : Option (Servers ι) :=
  let b := (s.server p).barrier
  if eqsize < b.eventq.length then some (s.setBarrier p { b with eventq := b.eventq.eraseIdx k })
  else none

def step (c : Calls ι) (s : Servers ι) : Move → Option (Servers ι)
  | .call p => s.call c p
  | .get p => (s.server p).barrier.get.map (s.setBarrier p)
  | .go p => (s.server p).barrier.go.map fun r => (s.setBarrier p r.1).send p r.2
  | .leave p => s.leave p
  | .deliver p q => s.deliver p q
  | .overrun p k => s.overrun p k

end Servers

section Counts
variable {α : Type*} [DecidableEq α]

theorem count_cons_add (a : α) (l : List α) (r : α) :
    (a :: l).count r = l.count r + [a].count r := by
  rw [count_cons, count_singleton]

theorem count_erase_add {l : List α} {a : α} (h : a ∈ l) (r : α) :
    (l.erase a).count r + [a].count r = l.count r := by
  rw [(perm_cons_erase h).count_eq, count_cons_add a (l.erase a)]

end Counts
namespace Saved
variable {s s' : Saved} {q r : Peer}

theorem count_searchEvent (h : s.searchEvent q = some s') :
    s'.list.count r + [q].count r = s.list.count r := by
  unfold searchEvent at h
  split_ifs at h with hsize hmem
  cases h
  exact count_erase_add (mem_of_mem_take hmem) r

theorem count_addEvent_le : (s.addEvent q).list.count r ≤ s.list.count r + [q].count r := by
  unfold addEvent
  by_cases hsize : s.size = 0
  · simp [hsize]
  · simp only [if_neg hsize]
    split_ifs with hnil
    · simp
    · rw [count_append]

theorem count_searchAll (senders : List Peer) (s : Saved) (r : Peer) :
    (searchAll senders s).1.count r ≤ senders.count r ∧
      senders.count r + (searchAll senders s).2.list.count r =
        (searchAll senders s).1.count r + s.list.count r := by
  induction senders generalizing s with
  | nil => simp [searchAll]
  | cons q senders ih =>
    rw [count_cons_add, searchAll]
    split
    next s' hs =>
      have hcount := count_searchEvent (r := r) hs
      split_ifs
      · simp only
        omega
      · have := ih s'
        omega
    · have := ih s
      simp only [count_cons_add q (searchAll senders s).1]
      omega

theorem count_awaitSenders (s : Saved) (senders : List Peer) (r : Peer) :
    (s.awaitSenders senders).1.count r ≤ senders.count r ∧
      senders.count r + (s.awaitSenders senders).2.list.count r =
        (s.awaitSenders senders).1.count r + s.list.count r := by
  unfold awaitSenders
  split_ifs
  · exact ⟨le_refl _, rfl⟩
  · exact count_searchAll senders s r

end Saved
namespace Barrier
variable {b b' : Barrier}

def senders (b : Barrier) : Stage → List Peer
  | .fanIn => b.inPeers
  | .fanOut => b.outPeer.toList

def heard (b : Barrier) (q : Peer) : ℕ :=
  match b.phase with
  | .outside => 0
  | .await .fanIn awaited => b.inPeers.count q - awaited.count q
  | .await .fanOut awaited => b.inPeers.count q + (b.outPeer.toList.count q - awaited.count q)
  | .release _ => b.inPeers.count q + b.outPeer.toList.count q

def told (b : Barrier) (q : Peer) : ℕ :=
  match b.phase with
  | .outside => 0
  | .await .fanIn _ => 0
  | .await .fanOut _ => b.outPeer.toList.count q
  | .release todo => b.outPeer.toList.count q + (b.inPeers.count q - todo.count q)

def held (b : Barrier) (q : Peer) : ℕ := b.eventq.count q + b.saved.list.count q

def Fits (b : Barrier) : Prop :=
  match b.phase with
  | .outside => True
  | .await stage awaited => ∀ q, awaited.count q ≤ (b.senders stage).count q
  | .release todo => ∀ q, todo.count q ≤ b.inPeers.count q

structure Moves (b b' : Barrier) (dst : Option Peer) : Prop where
  fits : b'.Fits
  inPeers : b'.inPeers = b.inPeers
  outPeer : b'.outPeer = b.outPeer
  inside : b.phase ≠ .outside ∧ b'.phase ≠ .outside
  takes : ∀ q, b'.heard q + b'.held q ≤ b.heard q + b.held q
  tells : ∀ q, b'.told q = b.told q + dst.toList.count q

theorem enter_fits (b : Barrier) (inPeers : List Peer) (outPeer : Option Peer) :
    (b.enter inPeers outPeer).Fits :=
  fun q => (b.saved.count_awaitSenders inPeers q).1

theorem enter_takes (b : Barrier) (inPeers : List Peer) (outPeer : Option Peer) (q : Peer) :
    (b.enter inPeers outPeer).heard q + (b.enter inPeers outPeer).held q = b.held q := by
  have := b.saved.count_awaitSenders inPeers q
  simp only [enter, heard, held]
  omega

theorem get_moves (hb : b.Fits) (h : b.get = some b') : b.Moves b' none := by
  unfold get at h
  split at h
  next q rest stage a awaited hq hph =>
    simp only [Fits, hph] at hb
    split_ifs at h with hmem <;> cases h
    · have hcount := count_erase_add hmem
      refine ⟨fun r => ?_, rfl, rfl, ⟨by simp [hph], by simp⟩, fun r => ?_, fun r => ?_⟩
      · have := hcount r
        have := hb r
        cases stage <;> simp only [senders] at this ⊢ <;> omega
      · have := hcount r
        cases stage <;>
          simp only [heard, held, hph, hq, count_cons_add q rest] at this ⊢ <;> omega
      · cases stage <;> simp [told, hph]
    · refine ⟨?_, rfl, rfl, ⟨by simp [hph], by simp [hph]⟩, fun r => ?_, fun r => ?_⟩
      · simp only [Fits, hph]
        cases stage <;> exact hb
      · have := Saved.count_addEvent_le (s := b.saved) (q := q) (r := r)
        simp only [heard, held, hph, hq, count_cons_add q rest]
        omega
      · simp [told, hph, count_nil]
  · cases h

theorem go_moves {dst : Option Peer} (hb : b.Fits) (h : b.go = some (b', dst)) :
    b.Moves b' dst := by
  unfold go at h
  split at h
  next hph =>
    cases h
    have hcount := b.saved.count_awaitSenders b.outPeer.toList
    refine ⟨fun r => (hcount r).1, rfl, rfl, ⟨by simp [hph], by simp⟩, fun r => ?_, fun r => ?_⟩
    · have := hcount r
      simp only [heard, held, hph, count_nil]
      omega
    · simp [told, hph]
  next hph =>
    cases h
    refine ⟨fun r => ?_, rfl, rfl, ⟨by simp [hph], by simp⟩, fun r => ?_, fun r => ?_⟩
    · exact (count_reverse ..).le
    · simp only [heard, held, hph, count_nil]
      omega
    · simp [told, hph]
  next q todo hph =>
    cases h
    simp only [Fits, hph] at hb
    refine ⟨fun r => ?_, rfl, rfl, ⟨by simp [hph], by simp⟩, fun r => ?_, fun r => ?_⟩
    · have := hb r
      rw [count_cons_add] at this
      exact Nat.le_of_add_right_le this
    · simp only [heard, held, hph]
      omega
    · have := hb r
      rw [count_cons_add] at this
      simp only [told, hph, count_cons_add q todo, toList_some]
      omega
  · cases h

end Barrier
end Cplant.Comm
