import Cplant.Rtscts.Frames

/-!
# Two nodes

Node A sends messages to node B. The channel in either direction may lose packets but
keeps their order.
-/
namespace Cplant.Rtscts
open Option

def Node.packetsTo (n : Node) (peer : ℤ) : List Packet :=
  (n.out.filter fun p => p.1 == peer).map (·.2)

/-- `issued` is a history variable: the message IDs and numbers that A committed to. -/
structure System where
  a : Node
  b : Node
  ab : List Packet
  ba : List Packet
  issued : List (ℕ × ℕ)

def parsed (calls : List LibCall) : List (ℕ × ℕ) :=
  calls.filterMap fun
    | .parse msgID msgNum _ => some (msgID, msgNum)
    | .finalize .. => none

namespace System

def afterA (s : System) (a : Node) : System :=
  { s with
    a := { a with out := [] }
    ab := s.ab ++ a.packetsTo s.b.myPnid
    issued := s.issued ++
      (a.sndPending.drop s.a.sndPending.length).map fun e => (e.msgID, e.msgNum) }

def afterB (s : System) (b : Node) : System :=
  { s with b := { b with out := [] }, ba := s.ba ++ b.packetsTo s.a.myPnid }

def recvA (s : System) (env : Env) : Option System :=
  match s.ba with
  | [] => none
  | pkt :: ba => (s.a.rtsctsRecv env pkt).map { s with ba }.afterA

def recvB (s : System) (env : Env) : Option System :=
  match s.ab with
  | [] => none
  | pkt :: ab => (s.b.rtsctsRecv env pkt).map { s with ab }.afterB

end System

inductive Event
  | atA (env : Env) (input : Input)
  | atB (env : Env) (input : Input)
  | toA (env : Env)
  | toB (env : Env)
  | dropAB (i : ℕ)
  | dropBA (i : ℕ)

variable {P : System → Prop} {check : System → Event → Bool} {evs : List Event} {s : System}

namespace System

def step (s : System) : Event → Option System
  | .atA env input => (Rtscts.step s.a env input).map s.afterA
  | .atB env input => (Rtscts.step s.b env input).map s.afterB
  | .toA env => s.recvA env
  | .toB env => s.recvB env
  | .dropAB i => some { s with ab := s.ab.eraseIdx i }
  | .dropBA i => some { s with ba := s.ba.eraseIdx i }

variable {s' s₀ : System} {env : Env} {ok : System → Event → Prop}

theorem recvA_some (h : s.recvA env = some s') : ∃ pkt ba n,
    s.ba = pkt :: ba ∧ s.a.rtsctsRecv env pkt = some n ∧ { s with ba }.afterA n = s' := by
  unfold recvA at h
  split at h
  · cases h
  next pkt ba hba => exact ⟨pkt, ba, (map_eq_some_iff.mp h).imp fun _ hn => ⟨hba, hn⟩⟩

theorem recvB_some (h : s.recvB env = some s') : ∃ pkt ab n,
    s.ab = pkt :: ab ∧ s.b.rtsctsRecv env pkt = some n ∧ { s with ab }.afterB n = s' := by
  unfold recvB at h
  split at h
  · cases h
  next pkt ab hab => exact ⟨pkt, ab, (map_eq_some_iff.mp h).imp fun _ hn => ⟨hab, hn⟩⟩

inductive Run (ok : System → Event → Prop) (s₀ : System) : System → Prop
  | init : Run ok s₀ s₀
  | step {s s' : System} (ev : Event) : Run ok s₀ s → ok s ev → s.step ev = some s' → Run ok s₀ s'

theorem Run.induction (h : Run ok s₀ s) (init : P s₀)
    (step : ∀ {s s' ev}, P s → ok s ev → s.step ev = some s' → P s') : P s := by
  induction h with
  | init => exact init
  | step _ _ hok hs ih => exact step ih hok hs

def exec (check : System → Event → Bool) : List Event → System → Option System
  | [], s => some s
  | ev :: evs, s => if check s ev then (s.step ev).bind (exec check evs) else none

theorem Run.exec (h : Run ok s₀ s) (hok : ∀ ev ∈ evs, ∀ s, check s ev = true → ok s ev)
    (hs : exec check evs s = some s') : Run ok s₀ s' := by
  induction evs generalizing s with
  | nil => exact some.inj hs ▸ h
  | cons ev evs ih =>
    simp only [System.exec] at hs
    split_ifs at hs with hcheck
    obtain ⟨s1, hs1, hs⟩ := bind_eq_some_iff.mp hs
    refine ih (.step ev h (hok ev List.mem_cons_self s hcheck) hs1) (fun ev hev => ?_) hs
    exact hok ev (List.mem_cons_of_mem _ hev)

section
variable [DecidablePred P] (hok : ∀ ev ∈ evs, ∀ s, check s ev = true → ok s ev)
  (h : (exec check evs s₀).any (fun s => decide (P s)) = true)
include hok h

theorem exists_run : ∃ s, Run ok s₀ s ∧ P s := by
  cases he : exec check evs s₀ with
  | none => simp [he] at h
  | some s => exact ⟨s, Run.exec .init hok he, of_decide_eq_true (by simpa [he] using h)⟩

theorem exists_run_imp {Q : System → Prop} (hQ : ∀ s, Run ok s₀ s → P s → Q s) :
    ∃ s, Run ok s₀ s ∧ Q s :=
  (exists_run hok h).imp fun s hs => ⟨hs.1, hQ s hs.1 hs.2⟩

end

def init (a b : ℤ) (memA memB : Option ℕ → ℤ → UInt8) : System :=
  ⟨initProtocol a memA, initProtocol b memB, [], [], []⟩

end System

theorem packetsTo_eq {n : Node} {peer : ℤ} {pkts : List Packet}
    (h : n.out = pkts.map fun pkt => (peer, pkt)) : n.packetsTo peer = pkts := by
  simp [Node.packetsTo, h, List.filter_map, Function.comp_def]

def emptyMsg : P3Msg := ⟨some 0, 0, 0, 1, hdrFrom 0, none⟩

end Cplant.Rtscts
