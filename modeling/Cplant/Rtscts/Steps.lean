import Cplant.Rtscts.Recv

/-!
# Runs of one node

The timer routines of `RTSCTS_protocol.c`, the clean-up of `queue.c`, and `step`:
one incoming packet, one call of `p3_send`, or one piece of timer work.
-/
namespace Cplant.Rtscts
open List
open Cplant.Portals (PtlHdr)

def idleFor (env : Env) (e : Qentry) (idle : ℕ) : Prop := idle < env.jiffies - e.idle

instance (env : Env) (e : Qentry) (idle : ℕ) : Decidable (idleFor env e idle) :=
  inferInstanceAs (Decidable (_ < _))

def noMsgNum : ℕ := 2 ^ 32 - 1

def olderOf (old : Option Qentry) (e : Qentry) : Option Qentry :=
  let oldMsgNum := old.elim noMsgNum (·.msgNum)
  if e.msgNum < oldMsgNum then
    if oldMsgNum = noMsgNum ∨ oldMsgNum - e.msgNum < 50000 then some e else old
  else if oldMsgNum ≠ noMsgNum ∧ 50000 < e.msgNum - oldMsgNum then some e
  else old

def oldest (q : List Qentry) (dest : ℤ) : Option Qentry :=
  (q.filter fun e => e.dstNid == dest).foldl olderOf none

def findOldestMsgNum (q : List Qentry) (env : Env) (dest : ℤ) (idle : ℕ) : Option Qentry :=
  (oldest q dest).filter fun e => idleFor env e idle

theorem olderOf_eq (old : Option Qentry) (e : Qentry) :
    olderOf old e = some e ∨ olderOf old e = old := by
  unfold olderOf
  dsimp only
  split_ifs <;> simp

variable {e : Qentry} {l q : List Qentry} {dest : ℤ}

theorem foldl_olderOf_mem {old : Option Qentry}
    (h : l.foldl olderOf old = some e) : e ∈ l ∨ old = some e := by
  induction l generalizing old with
  | nil => exact .inr h
  | cons a l ih =>
    rcases ih h with h | h
    · exact .inl (mem_cons_of_mem a h)
    · rcases olderOf_eq old a with ha | ha <;> rw [ha] at h
      · exact .inl (mem_cons.mpr (.inl (Option.some.inj h).symm))
      · exact .inr h

theorem findOldestMsgNum_mem {env : Env} {idle : ℕ}
    (h : findOldestMsgNum q env dest idle = some e) : e ∈ q ∧ e.dstNid = dest := by
  rcases foldl_olderOf_mem (Option.filter_eq_some_iff.mp h).1 with he | he
  · simpa using he
  · cases he

theorem foldl_olderOf_of_window
    (h : ∀ e' ∈ l, e.msgNum ≤ e'.msgNum ∧ e'.msgNum ≤ e.msgNum + 50000) :
    l.foldl olderOf (some e) = some e := by
  induction l with
  | nil => rfl
  | cons e' l ih =>
    obtain ⟨hle, hwin⟩ := h e' mem_cons_self
    have hnear : ¬ 50000 < e'.msgNum - e.msgNum := by omega
    have hstep : olderOf (some e) e' = some e := by simp [olderOf, hle.not_gt, hnear]
    rw [foldl_cons, hstep]
    exact ih fun e1 he1 => h e1 (mem_cons_of_mem e' he1)

theorem oldest_of_window (he : e.msgNum < noMsgNum) (hdst : ∀ e' ∈ e :: q, e'.dstNid = dest)
    (h : ∀ e' ∈ q, e.msgNum ≤ e'.msgNum ∧ e'.msgNum ≤ e.msgNum + 50000) :
    oldest (e :: q) dest = some e := by
  have hall : (e :: q).filter (fun e => e.dstNid == dest) = e :: q :=
    filter_eq_self.mpr fun e' he' => beq_iff_eq.mpr (hdst e' he')
  have hfirst : olderOf none e = some e := by simp [olderOf, he]
  rw [oldest, hall, foldl_cons, hfirst]
  exact foldl_olderOf_of_window h

def EntryEvent.firstPacket : EntryEvent → Bool
  | .sentP3Rts | .sentP3LastRts | .sentP3PingReq | .sentP3PingAck | .sentP3Null => true
  | _ => false

def EntryEvent.dataPacket : EntryEvent → Bool
  | .rcvdCts | .sentData | .sentStopData | .sentLastData => true
  | _ => false

namespace Node

/-- The body of the loop over all destinations in `timeout_send_queues`. Any event but
the five of a first packet is only counted. -/
def timeoutPending (n : Node) (env : Env) (dest : ℤ) : Node :=
  match findOldestMsgNum n.sndPending env dest pktTimeout with
  | none => n
  | some e =>
    if !e.event.firstPacket then n
    -- the receiver may have lost track of the message numbers
    else if e.p3msgRetries ≠ 0 ∧ e.p3msgRetries.tmod p3MsgRetries = 0 then
      handleP3sync n env e.msgID e.msgNum
    else handleP3resend n env e.msgID e.msgNum

def timeoutSending (n : Node) (env : Env) (pos : ℕ) : Node :=
  match n.sending[pos]? with
  | none => n
  | some e =>
    if idleFor env e pktTimeout ∧ e.event.dataPacket then handleDataResend n env e.msgID else n

def cleanReceiving (n : Node) (env : Env) (pos : ℕ) : Node :=
  match n.receiving[pos]? with
  | none => n
  | some e =>
    if idleFor env e gchTimeout ∧ (e.event = .sentMsgend ∨ e.event = .sentMsgdrop) then
      n.handleGCH e.msgID
    else n

def nullEntry (task : Option ℕ) (e : Qentry) : Qentry :=
  if e.task = task ∧ (e.event = .sentP3Rts ∨ e.event = .sentP3LastRts ∨
      e.event = .sentP3PingReq ∨ e.event = .sentP3PingAck) then
    { e with event := .sentP3Null, nal := none, task := none }
  else e

/-- `clean_queue` for the two other queues: what is left, and what was granted to the
entries that go. -/
def cleanQueue (q : List Qentry) (task : Option ℕ) : List Qentry × ℤ :=
  (q.filter fun e => e.task != task, ((q.filter fun e => e.task == task).map (·.grantedPkts)).sum)

def p3Exit (n : Node) (task : Option ℕ) : Node :=
  let (sending, freed₁) := cleanQueue n.sending task
  let (receiving, freed₂) := cleanQueue n.receiving task
  { n with
    sndPending := n.sndPending.map (nullEntry task)
    sending, receiving
    outstandingPkts := n.outstandingPkts - freed₁ - freed₂ }

theorem timeoutPending_cases (n : Node) (env : Env) (dest : ℤ) : n.timeoutPending env dest = n ∨
      ∃ e, findOldestMsgNum n.sndPending env dest pktTimeout = some e ∧
        (n.timeoutPending env dest = handleP3sync n env e.msgID e.msgNum ∨
          n.timeoutPending env dest = handleP3resend n env e.msgID e.msgNum) := by
  unfold timeoutPending
  cases findOldestMsgNum n.sndPending env dest pktTimeout with
  | none => exact .inl rfl
  | some e =>
    dsimp only
    split_ifs
    · exact .inl rfl
    · exact .inr ⟨e, rfl, .inl rfl⟩
    · exact .inr ⟨e, rfl, .inr rfl⟩

theorem timeoutSending_cases (n : Node) (env : Env) (pos : ℕ) : n.timeoutSending env pos = n ∨
      ∃ e ∈ n.sending, n.timeoutSending env pos = handleDataResend n env e.msgID := by
  unfold timeoutSending
  cases hpos : n.sending[pos]? with
  | none => exact .inl rfl
  | some e =>
    dsimp only
    split_ifs
    · exact .inr ⟨e, mem_of_getElem? hpos, rfl⟩
    · exact .inl rfl

end Node

def p3SendPing (n : Node) (env : Env) (stack : PtlHdr) (nid : ℤ) : Node :=
  let hdr := { stack with src := { stack.src with nid := Int32.ofInt n.myPnid } }
  (p3SendNew { n with pingDone := false, pingNid := nid } env ⟨none, 0, 0, nid, hdr, none⟩
    .sendP3PingReq).2

/-- What can happen to a node. The timer routines go over all destinations and all
positions of a queue; each of these is an input of its own. -/
inductive Input
  | recv (pkt : Packet)
  | send (m : P3Msg)
  | ping (stack : PtlHdr) (nid : ℤ)
  | timeoutPending (dest : ℤ)
  | timeoutSending (pos : ℕ)
  | cleanReceiving (pos : ℕ)
  | exit (task : Option ℕ)

def step (n : Node) (env : Env) : Input → Option Node
  | .recv pkt => n.rtsctsRecv env pkt
  | .send m => some (p3SendNew n env m .noop).2
  | .ping stack nid => some (p3SendPing n env stack nid)
  | .timeoutPending dest => some (n.timeoutPending env dest)
  | .timeoutSending pos => some (n.timeoutSending env pos)
  | .cleanReceiving pos => some (n.cleanReceiving env pos)
  | .exit task => some (n.p3Exit task)

inductive Run (ok : Node → Env → Input → Prop) (n₀ : Node) : Node → Prop
  | init : Run ok n₀ n₀
  | step {n n' : Node} (env : Env) (input : Input) : Run ok n₀ n → ok n env input →
      step n env input = some n' → Run ok n₀ n'

theorem Run.induction {ok : Node → Env → Input → Prop} {n0 n : Node} {P : Node → Prop}
    (h : Run ok n0 n) (init : P n0)
    (step : ∀ {n n' env input}, P n → ok n env input → Rtscts.step n env input = some n' → P n') :
    P n := by
  induction h with
  | init => exact init
  | step _ _ _ hok hs ih => exact step ih hok hs

structure Node.Idle (n : Node) : Prop where
  sndPending : n.sndPending = []
  sending : n.sending = []
  receiving : n.receiving = []
  outstandingPkts : n.outstandingPkts = 0

def initProtocol (myPnid : ℤ) (mem : Option ℕ → ℤ → UInt8) : Node where
  myPnid := myPnid
  msgID := 0
  sndPending := []
  sending := []
  receiving := []
  lastMsgNum := fun _ => bootMsgNum
  sendMsgNum := fun _ => bootMsgNum
  firstAck := fun _ => false
  outstandingPkts := 0
  protoErr9 := 0
  pingDone := true
  pingNid := 0
  mem := mem
  out := []
  calls := []

theorem initProtocol_idle (myPnid : ℤ) (mem : Option ℕ → ℤ → UInt8) :
    (initProtocol myPnid mem).Idle :=
  ⟨rfl, rfl, rfl, rfl⟩

def goodEnv (jiffies : ℕ) (recv : Option RecvArgs) : Env where
  jiffies := jiffies
  mcp := true
  getCb := fun _ _ => some (0, 0)
  page := fun _ => true
  xmit := fun _ => true
  copy := fun _ => true
  alloc := true
  parse := fun _ => ⟨0, recv⟩
  stray := none

def hdrFrom (nid : Int32) : PtlHdr := ⟨0, 0, ⟨nid, 0, 0, 0⟩, .put 0 (-1) 0 0 0 0⟩

end Cplant.Rtscts
