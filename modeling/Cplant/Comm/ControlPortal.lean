import Cplant.Foundations.Runs
import Cplant.Portals.Move

/-!
# Control portals

A control portal of the server library has two buffers of `maxMsgs` messages, each with a
memory descriptor that is unlinked when it is used up, and a sentinel behind them. The library
moves what it finds in the buffers to a linked list, from which the caller takes messages by
sender and type. When the first buffer is used up it is cleared and put behind the second.
-/
namespace Cplant.Comm
open Portals Function Int32

inductive Flag
  | noMsg | unprocessed | processed | unread | read
  deriving DecidableEq, Repr

structure Msg where
  srcNid : ℤ
  srcPid : ℤ
  msgType : ℤ
  retPtl : ℤ
  reqLen : ℤ
  mbits : UInt64
  userData : List UInt8
  deriving DecidableEq, Repr

def msgSize : ℕ := 160

structure Slot where
  flag : Flag
  msg : Msg
  num : ℕ
  deriving DecidableEq, Repr

def Slot.zero : Slot := ⟨.noMsg, ⟨0, 0, 0, 0, 0, 0, List.replicate 128 0⟩, 0⟩

structure Node where
  addr : ℤ
  flag : Flag
  msg : Msg
  num : ℕ
  deriving DecidableEq, Repr

def Node.isUnread (n : Node) : Bool := n.flag = .unread

def Node.markRead (addr : ℤ) (n : Node) : Node :=
  if n.addr = addr then { n with flag := .read } else n

inductive Buf
  | one | two
  deriving DecidableEq, Repr

structure InBuf where
  buf : Buf
  nextread : ℤ

structure Filter where
  nid : ℤ
  pid : ℤ
  type : ℤ
  deriving DecidableEq, Repr

def Filter.any : Filter := ⟨-1, 0, -1⟩

def Filter.accepts (f : Filter) (m : Msg) : Bool :=
  (f.nid = -1 || f.nid = m.srcNid) && (f.pid = 0 || f.pid = m.srcPid) &&
    (f.type = -1 || f.type = m.msgType)

structure Handle where
  filter : Filter
  msg : Option ℤ

def Handle.wants (h : Handle) : Filter := if h.msg = none then h.filter else .any

inductive Result
  | error
  | none
  | found (n : Node)

/-- A call that has returned: `read` are the messages that were returned before it, `started`
and `ended` count the messages that had arrived. -/
structure Call where
  filter : Filter
  read : List ℕ
  started : ℕ
  ended : ℕ
  result : Result

/-- Where `srvr_get_next_control_msg` is. `count` are the turns of `processBuffer`. -/
inductive Phase
  | idle
  | scan1 (handle : Option Handle) (started count : ℕ)
  | scan2 (handle : Option Handle) (started : ℕ) (eventCount : ℤ) (count : ℕ)
  | flip (handle : Option Handle) (started : ℕ) (eventCount eventCount2 : ℤ)
  | finish (handle : Option Handle) (started : ℕ) (rc : ℤ)

/-- `mds` are the descriptors before the sentinel, `list` the nodes from `firstMsg` to
`lastMsg`. The last four fields are the history. -/
structure CtlPtl where
  maxMsgs : ℕ
  live : Bool
  mem : Buf → ℕ → Slot
  buf1 : InBuf
  buf2 : InBuf
  mds : List (Buf × LibMd)
  list : List Node
  firstUnread : Option ℤ
  phase : Phase
  arrivals : List Msg
  returned : List ℕ
  freed : List ℕ
  calls : List Call

def bufMddef (maxMsgs : ℕ) : PtlMd where
  start := 0
  length := ofNat (msgSize * maxMsgs)
  threshold := ofNat maxMsgs
  maxOffset := ofNat (msgSize * maxMsgs)
  options := ptlMdOpPut
  userPtr := 0
  eventq := ptlEqNone

def bufMd (maxMsgs : ℕ) : LibMd := newMd (bufMddef maxMsgs) none 0

def ctlPut : MdRequest := ⟨⟨0, 0, 0, 0⟩, 0, .put, ofNat msgSize, 0, 0⟩

/-- A put that finds the descriptor and is finished before anything else happens: the offset
where it goes and what becomes of the descriptor. -/
def depositMd (md : LibMd) : Option (PtlSize × Option LibMd) :=
  if !hasOption md.options ctlPut.op.flag || md.threshold = 0 then none
  else (tryMd md 0 ctlPut).map fun found =>
    let held := heldMd { md with offset := md.offset + found.length } true
    (found.offset, if held.doUnlink then none else some { held with pending := held.pending - 1 })

namespace CtlPtl

def arrive (s : CtlPtl) (m : Msg) : CtlPtl :=
  let s' := { s with arrivals := s.arrivals ++ [m] }
  match s.mds with
  | [] => s'
  | (b, md) :: rest =>
    match depositMd md with
    | none => s'
    | some (offset, md') =>
      let i := (offset.toInt / msgSize).toNat
      { s' with
        mem := update s.mem b
          (update (s.mem b) i ⟨.unprocessed, m, s.arrivals.length⟩)
        mds := (md'.map fun md' => (b, md')).toList ++ rest }

def recvCtlMsg (s : CtlPtl) (slot : Slot) : Option ℤ → CtlPtl
  | none => s
  | some addr =>
    { s with
      list := s.list ++ [⟨addr, .unread, slot.msg, slot.num⟩]
      firstUnread := if s.list = [] ∨ s.firstUnread = none then some addr else s.firstUnread }

def processSlot (s : CtlPtl) (b : Buf) (i : ℕ) (addr : Option ℤ) : CtlPtl :=
  let slot := s.mem b i
  { s.recvCtlMsg slot addr with
    mem := update s.mem b
      (update (s.mem b) i { slot with flag := .processed }) }

/-- One turn of `processBuffer` at slot `first + count`, in a buffer with `nmsgs` slots left:
it goes on, or ends with what `processBuffer` returns. -/
def processTurn (s : CtlPtl) (b : Buf) (first : ℤ) (nmsgs : ℤ) (count : ℕ)
    (addr : Option ℤ) : CtlPtl ⊕ ℤ :=
  if (count : ℤ) < nmsgs then
    let i := (first + count).toNat
    match (s.mem b i).flag with
    | .noMsg => .inr count
    | .unprocessed => .inl (s.processSlot b i addr)
    | _ => .inr (-1)
  else .inr count

def left1 (s : CtlPtl) : ℤ := s.maxMsgs - s.buf1.nextread

def endScan1 (s : CtlPtl) (handle : Option Handle) (started : ℕ) (eventCount : ℤ) : CtlPtl :=
  { s with
    buf1 := { s.buf1 with nextread := s.buf1.nextread + eventCount }
    phase := if eventCount < s.left1 then .finish handle started eventCount
      else .scan2 handle started eventCount 0 }

def endScan2 (s : CtlPtl) (handle : Option Handle) (started : ℕ) (eventCount : ℤ)
    (eventCount2 : ℤ) : CtlPtl :=
  { s with
    buf2 := { s.buf2 with nextread := eventCount2 }
    phase := .flip handle started eventCount eventCount2 }

def look (s : CtlPtl) (addr : Option ℤ) : Option CtlPtl :=
  match s.phase with
  | .scan1 handle started count =>
    match s.processTurn s.buf1.buf s.buf1.nextread s.left1 count addr with
    | .inl s' => some { s' with phase := .scan1 handle started (count + 1) }
    | .inr eventCount => some (s.endScan1 handle started eventCount)
  | .scan2 handle started eventCount count =>
    match s.processTurn s.buf2.buf 0 s.maxMsgs count addr with
    | .inl s' => some { s' with phase := .scan2 handle started eventCount (count + 1) }
    | .inr eventCount2 => some (s.endScan2 handle started eventCount eventCount2)
  | _ => none

def flipBuffers (s : CtlPtl) : CtlPtl :=
  { s with
    mem := update s.mem s.buf1.buf fun i =>
      if i < s.maxMsgs then Slot.zero else s.mem s.buf1.buf i
    mds := s.mds ++ [(s.buf1.buf, bufMd s.maxMsgs)]
    buf1 := s.buf2
    buf2 := { s.buf1 with nextread := 0 } }

def flip (s : CtlPtl) : Option CtlPtl :=
  match s.phase with
  | .flip handle started eventCount eventCount2 =>
    let s' := if eventCount2 = s.maxMsgs then s.flipBuffers.flipBuffers else s.flipBuffers
    some { s' with phase := .finish handle started (eventCount + eventCount2) }
  | _ => none

def call (s : CtlPtl) (handle : Option Handle) : Option CtlPtl :=
  match s.phase with
  | .idle =>
    if !s.live then none
    else if s.buf1.nextread < 0 ∨ s.maxMsgs ≤ s.buf1.nextread then
      some { s with phase := .finish handle s.arrivals.length (-1) }
    else some { s with phase := .scan1 handle s.arrivals.length 0 }
  | _ => none

/-- `while (list && --hopcount)`: where the loop ends and what is left of `hopcount`. -/
def walk (stop : Node → Bool) : ℤ → List Node → Option Node × ℤ
  | hopcount, [] => (none, hopcount)
  | hopcount, n :: rest =>
    if hopcount - 1 = 0 then (some n, 0)
    else if stop n then (some n, hopcount - 1)
    else walk stop (hopcount - 1) rest

def hopcount (s : CtlPtl) : ℤ := (2 * s.maxMsgs : ℤ).bmod (2 ^ 32)

def nodesFrom (s : CtlPtl) (addr : Option ℤ) : List Node :=
  s.list.dropWhile fun n => addr ≠ some n.addr

def updateFirstUnread (s : CtlPtl) : CtlPtl × Bool :=
  let next := walk Node.isUnread s.hopcount (s.nodesFrom s.firstUnread)
  if next.2 = 0 then ({ s with firstUnread := none }, false)
  else ({ s with firstUnread := next.1.map Node.addr }, true)

def take (s : CtlPtl) (n : Node) : CtlPtl × Result :=
  let s' := { s with list := s.list.map (Node.markRead n.addr), returned := s.returned ++ [n.num] }
  if s.firstUnread = some n.addr then
    let updated := s'.updateFirstUnread
    (updated.1, if updated.2 then .found n else .error)
  else (s', .found n)

/-- The search for a message, and what is left of `hopcount`. Without a filter it is the first
one that is not read. -/
def search (s : CtlPtl) (f : Filter) : Option Node × ℤ :=
  if f = .any then ((s.nodesFrom s.firstUnread).head?, 1)
  else walk (fun n => n.isUnread && f.accepts n.msg) s.hopcount (s.nodesFrom s.firstUnread)

/-- The rest of `srvr_get_next_control_msg`. With a null handle and a message to return it
reads through the null pointer. -/
def deliver (s : CtlPtl) (handle : Option Handle) (rc : ℤ) : Option (CtlPtl × Result) :=
  if rc = -1 then some ({ s with live := false }, .error)
  else if s.firstUnread = none then some (s, .none)
  else
    match handle with
    | none => none
    | some h =>
      let found := s.search h.wants
      if found.2 = 0 then some ({ s with live := false }, .error)
      else
        match found.1 with
        | none => some (s, .none)
        | some n => some (s.take n)

def wanted (handle : Option Handle) : Filter := (handle.map Handle.wants).getD .any

def finish (s : CtlPtl) : Option CtlPtl :=
  match s.phase with
  | .finish handle started rc =>
    (s.deliver handle rc).map fun res =>
      { res.1 with
        phase := .idle
        calls := s.calls ++ [⟨wanted handle, s.returned, started, s.arrivals.length, res.2⟩] }
  | _ => none

def unlink (s : CtlPtl) (n : Node) : CtlPtl :=
  let s' := if s.firstUnread = some n.addr then s.updateFirstUnread else (s, true)
  if s'.2 then
    { s'.1 with
      list := s.list.filter fun m => m.addr ≠ n.addr
      freed := s.freed ++ [n.num] }
  else { s'.1 with live := false }

def free (s : CtlPtl) (addr : Option ℤ) : Option CtlPtl :=
  match s.phase, addr with
  | .idle, none => some s
  | .idle, some p =>
    if !s.live then some s
    else
      match (walk (fun n => n.addr = p) s.hopcount s.list).1 with
      | none => some s
      | some n => if n.addr = p then some (s.unlink n) else some s
  | _, _ => none

end CtlPtl

inductive CtlAct
  | arrive (m : Msg)
  | call (handle : Option Handle)
  | look (addr : Option ℤ)
  | flip
  | finish
  | free (addr : Option ℤ)

namespace CtlPtl

def step (s : CtlPtl) : CtlAct → Option CtlPtl
  | .arrive m => some (s.arrive m)
  | .call handle => s.call handle
  | .look addr => if ∀ n ∈ s.list, addr ≠ some n.addr then s.look addr else none
  | .flip => s.flip
  | .finish => s.finish
  | .free addr => s.free addr

def make (maxMsgs : ℕ) : CtlPtl where
  maxMsgs := maxMsgs
  live := true
  mem _ _ := Slot.zero
  buf1 := ⟨.one, 0⟩
  buf2 := ⟨.two, 0⟩
  mds := [(.one, bufMd maxMsgs), (.two, bufMd maxMsgs)]
  list := []
  firstUnread := none
  phase := .idle
  arrivals := []
  returned := []
  freed := []
  calls := []

def HasSpace (s : CtlPtl) : Prop := s.arrivals.length < s.freed.length + s.maxMsgs

def Proper (s : CtlPtl) : CtlAct → Prop
  | .arrive _ => s.HasSpace
  | .look addr => addr.isSome
  | .free addr => ∀ n ∈ s.list, addr = some n.addr → n.flag = .read
  | _ => True

def Holds (s : CtlPtl) (k : ℕ) : Prop :=
  (∃ n ∈ s.list, n.num = k ∧ n.flag = .unread) ∨
    ∃ b, ∃ i < s.maxMsgs, (s.mem b i).flag = .unprocessed ∧ (s.mem b i).num = k

def handle (s : CtlPtl) : Option Handle :=
  match s.phase with
  | .idle => none
  | .scan1 h .. | .scan2 h .. | .flip h .. | .finish h .. => h

def resume (s : CtlPtl) (addr : ℤ) : Option CtlPtl :=
  match s.phase with
  | .idle => none
  | .scan1 .. | .scan2 .. => s.look (some addr)
  | .flip .. => s.flip
  | .finish .. => s.finish

def pace (s : CtlPtl) : ℕ :=
  match s.phase with
  | .idle => 0
  | .scan1 _ _ count => 2 * s.maxMsgs + 4 - count
  | .scan2 _ _ _ count => s.maxMsgs + 3 - count
  | .flip .. => 2
  | .finish .. => 1

end CtlPtl

def earliest (arrivals : List Msg) (f : Filter) (read : List ℕ) (m : ℕ) : Option ℕ :=
  (List.range m).find? fun k => k ∉ read ∧ arrivals[k]?.any f.accepts

def Call.Served (c : Call) (arrivals : List Msg) : Prop :=
  ∃ m, c.started ≤ m ∧ m ≤ c.ended ∧
    match earliest arrivals c.filter c.read m with
    | none => c.result = .none
    | some k => ∃ n, c.result = .found n ∧ n.num = k ∧ arrivals[k]? = some n.msg

end Cplant.Comm
