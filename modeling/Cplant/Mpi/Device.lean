import Cplant.Foundations.Runs
import Cplant.Mpi.Bits

/-!
# Receives of the MPI device

Every message to a process is a put to one portal. Its match list has the posted receives in
the order of the calls, an entry that matches nothing, one with the buffers for unexpected short
messages, one for unexpected long messages and one that catches the rest.
-/
namespace Cplant.Mpi

/-- The settings of a job. `MPID_P30_init` raises `unex_max` to its default. -/
structure Config where
  unexMax : ℕ
  shortSize : ℕ
  default_le : 1024 ≤ unexMax

inductive Protocol
  | short
  | sshort
  | long
deriving DecidableEq, Repr

def Config.protocol (cfg : Config) (len : ℕ) (sync : Bool) : Protocol :=
  if len < cfg.shortSize then if sync then .sshort else .short else .long

variable {σ : Type*}

structure Message (σ : Type*) where
  sender : σ
  num : ℕ
  protocol : Protocol
  contextId : Int32
  srcLrank : Int32
  tag : Int32
  len : ℕ
deriving DecidableEq, Repr

def Message.matchBits (m : Message σ) : UInt64 :=
  match m.protocol with
  | .short | .sshort => p30SetShortSendBits m.contextId m.srcLrank m.tag
  | .long => p30SetLongSendBits m.contextId m.srcLrank m.tag

structure Recv where
  num : ℕ
  contextId : Int32
  srcLrank : Int32
  tag : Int32
  len : ℕ
deriving DecidableEq, Repr

def Recv.criteria (r : Recv) : Criteria := p30SetRecvBits r.contextId r.srcLrank r.tag

def Recv.admits (r : Recv) (m : Message σ) : Bool := r.criteria.admits m.matchBits

structure MatchMd where
  length : ℕ
  threshold : Option ℕ
  opPut : Bool
  truncate : Bool
deriving DecidableEq, Repr

def MatchMd.accepts (md : MatchMd) (len : ℕ) : Bool :=
  md.threshold ≠ some 0 && md.opPut && (len ≤ md.length || md.truncate)

inductive Entry
  | posted (r : Recv)
  | noMatch
  | shortUnex
  | longUnex
  | error
deriving DecidableEq, Repr

structure MatchEntry where
  entry : Entry
  criteria : Criteria
  mds : List MatchMd
deriving DecidableEq, Repr

def MatchEntry.accepts (e : MatchEntry) (m : Message σ) : Bool :=
  e.criteria.admits m.matchBits && e.mds.any fun md => md.accepts m.len

structure Posted where
  recv : Recv
  active : Bool
deriving DecidableEq, Repr

def Posted.entry (p : Posted) : MatchEntry where
  entry := .posted p.recv
  criteria := p.recv.criteria
  mds := [⟨p.recv.len, some (if p.active then 1 else 0), true, true⟩]

def noMatchEntry : MatchEntry := ⟨.noMatch, ⟨0xffffffffffffffff, 0⟩, []⟩

def shortUnexEntry (cfg : Config) (free : ℕ) : MatchEntry where
  entry := .shortUnex
  criteria := p30SetShortUnexBits
  mds := List.replicate free ⟨cfg.shortSize, some 1, true, false⟩ ++ [⟨0, some 0, false, false⟩]

def longUnexEntry : MatchEntry := ⟨.longUnex, p30SetLongUnexBits, [⟨0, none, true, true⟩]⟩

def errorEntry : MatchEntry := ⟨.error, ⟨0, 0xffffffffffffffff⟩, [⟨0, none, true, true⟩]⟩

inductive Phase
  | idle
  | search (r : Recv)
  | poll (r : Recv)
  | post (r : Recv)
  | wait (r : Recv)
  | aborted
deriving DecidableEq, Repr

/-- A process and the messages to it. `sent`, `taken` and `lost` are for the statements only. -/
structure Process (σ : Type*) where
  coming : σ → List (Message σ)
  posted : List Posted
  shortMds : ℕ
  pending : List (Message σ)
  unexEq : List (Message σ)
  errorEq : Bool
  unexList : List (Message σ)
  unexListFree : ℕ
  phase : Phase
  calls : ℕ
  sent : List (Message σ)
  taken : List (Recv × Message σ)
  lost : List (Message σ)

def Process.init (cfg : Config) : Process σ where
  coming _ := []
  posted := []
  shortMds := cfg.unexMax
  pending := []
  unexEq := []
  errorEq := false
  unexList := []
  unexListFree := cfg.unexMax * 2
  phase := .idle
  calls := 0
  sent := []
  taken := []
  lost := []

inductive EqGet (σ : Type*)
  | dropped
  | empty
  | ok (m : Message σ) (rest : List (Message σ))

inductive Move (σ : Type*)
  | send (p : σ) (contextId srcLrank tag : Int32) (len : ℕ) (sync : Bool)
  | put (p : σ)
  | event (i : ℕ)
  | recv (contextId srcLrank tag : Int32) (len : ℕ)
  | go (malloc : Bool)
  | probe (contextId srcLrank tag : Int32) (malloc : Bool)
  | checkForDrop
deriving DecidableEq, Repr

namespace Process
variable (cfg : Config) (s : Process σ)

def matchList : List MatchEntry :=
  s.posted.map Posted.entry ++
    [noMatchEntry, shortUnexEntry cfg s.shortMds, longUnexEntry, errorEntry]

def findEntry (m : Message σ) : Option Entry :=
  ((s.matchList cfg).find? fun e => e.accepts m).map MatchEntry.entry

def deliver (m : Message σ) : Process σ :=
  match s.findEntry cfg m with
  | some (.posted r) =>
    { s with
      posted := s.posted.filter fun p => p.recv ≠ r
      taken := s.taken ++ [(r, m)] }
  | some .shortUnex => { s with shortMds := s.shortMds - 1, pending := s.pending ++ [m] }
  | some .longUnex => { s with pending := s.pending ++ [m] }
  | some .error => { s with errorEq := true, lost := s.lost ++ [m] }
  | some .noMatch | none => { s with lost := s.lost ++ [m] }

def eqGet : EqGet σ :=
  match s.unexEq with
  | [] => .empty
  | m :: rest => if s.unexEq.length > cfg.unexMax * 2 then .dropped else .ok m rest

def getUnex (malloc : Bool) (m : Message σ) : Option (Process σ) :=
  if s.unexListFree = 0 ∧ malloc = false then none
  else some { s with unexList := s.unexList ++ [m], unexListFree := s.unexListFree - 1 }

def processUnex (r : Recv) (m : Message σ) : Process σ :=
  { s with
    phase := .idle
    taken := s.taken ++ [(r, m)]
    shortMds := if p30IsShort m.matchBits then s.shortMds + 1 else s.shortMds }

def checkForDrop : Process σ := if s.errorEq then { s with phase := .aborted } else s

def search (r : Recv) : Process σ :=
  match s.unexList.find? r.admits with
  | some m =>
    { s with
      unexList := s.unexList.eraseP r.admits
      unexListFree := s.unexListFree + 1 }.processUnex r m
  | none => { s with phase := .poll r }

/-- A turn of the loop over the event queue. Without an event the receive is added to the match
list, if there is an event queue for it. -/
def poll (malloc : Bool) (r : Recv) : Process σ :=
  match s.eqGet cfg with
  | .dropped => { s with phase := .aborted }
  | .ok m rest =>
    let s := { s with unexEq := rest }
    if r.admits m then s.processUnex r m
    else match s.getUnex malloc m with
      | some s => s
      | none => { s with phase := .idle, lost := s.lost ++ [m] }
  | .empty =>
    if malloc then { s with phase := .post r, posted := s.posted ++ [⟨r, false⟩] }
    else { s with phase := .idle }

def post (r : Recv) : Process σ :=
  if s.unexEq = [] ∧ s.pending = [] then
    { s with
      phase := .idle
      posted := s.posted.map fun p => if p.recv = r then { p with active := true } else p }
  else { s with phase := .wait r }

def wait (malloc : Bool) (r : Recv) : Option (Process σ) :=
  match s.eqGet cfg with
  | .empty => none
  | .dropped => some { s with phase := .aborted }
  | .ok m rest =>
    let s := { s with unexEq := rest }
    if r.admits m then
      some ({ s with posted := s.posted.filter fun p => p.recv ≠ r }.processUnex r m)
    else match s.getUnex malloc m with
      | some s => some { s with phase := .post r }
      | none => some { s with phase := .idle, lost := s.lost ++ [m] }

def go (malloc : Bool) : Option (Process σ) :=
  match s.phase with
  | .search r => some (s.search r)
  | .poll r => some (s.poll cfg malloc r)
  | .post r => some (s.post r)
  | .wait r => s.wait cfg malloc r
  | .idle | .aborted => none

def probe (malloc : Bool) (k : Criteria) : Process σ :=
  if s.unexList.any fun m => k.admits m.matchBits then s
  else match s.eqGet cfg with
    | .dropped => { s with phase := .aborted }
    | .empty => s
    | .ok m rest =>
      let s := { s with unexEq := rest }
      match s.getUnex malloc m with
      | some s => s
      | none => { s with lost := s.lost ++ [m] }

def postEvent [DecidableEq σ] (i : ℕ) : Option (Process σ) :=
  match s.pending[i]? with
  | some m =>
    if (s.pending.take i).any fun x => x.sender = m.sender then none
    else some { s with pending := s.pending.eraseIdx i, unexEq := s.unexEq ++ [m] }
  | none => none

end Process

def Process.step [DecidableEq σ] (cfg : Config) (s : Process σ) : Move σ → Option (Process σ)
  | .send p contextId srcLrank tag len sync =>
    let m := ⟨p, s.sent.length, cfg.protocol len sync, contextId, srcLrank, tag, len⟩
    some { s with sent := s.sent ++ [m], coming := Function.update s.coming p (s.coming p ++ [m]) }
  | .put p =>
    match s.coming p with
    | m :: rest => some ({ s with coming := Function.update s.coming p rest }.deliver cfg m)
    | [] => none
  | .event i => s.postEvent i
  | .recv contextId srcLrank tag len =>
    if s.phase = .idle then
      some { s with
        phase := .search ⟨s.calls, contextId, srcLrank, tag, len⟩
        calls := s.calls + 1 }.checkForDrop
    else none
  | .go malloc => s.go cfg malloc
  | .probe contextId srcLrank tag malloc =>
    if s.phase = .idle then
      some (s.probe cfg malloc (p30SetRecvBits contextId srcLrank tag))
    else none
  | .checkForDrop => if s.phase = .idle then some s.checkForDrop else none

end Cplant.Mpi
