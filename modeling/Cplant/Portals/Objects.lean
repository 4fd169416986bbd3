import Cplant.Foundations.Machine
import Cplant.Portals.Types

/-!
Object management of the library: `lib_init`, the pool and list routines of
`md.c`, `me.c`, `eq.c` and `lib-p30.h`, and the calls of the application
interface that only touch objects.
-/
namespace Cplant.Portals
open Function Int32

def handleIndex (h : PtlHandle) : ℕ := h.toUInt32.toNat % 65536

def handleOf (new : ℕ) (current : PtlHandle) : PtlHandle :=
  ofNat new ||| (current &&& ~~~0xFFFF)

theorem handleIndex_handleOf {i : ℕ} (hi : i < 2 ^ 16) (h : PtlHandle) :
    handleIndex (handleOf i h) = i :=
  low_half h.toBitVec hi

theorem handleIndex_ofNat {i : ℕ} (hi : i < 2 ^ 16) : handleIndex (ofNat i) = i := by
  have hto : (ofNat i).toUInt32.toNat = i % 2 ^ 32 := UInt32.toNat_ofNat'
  rw [handleIndex, hto]
  omega

/-- The test `!(index < 0 || index > max || !inuse(&table[index]))` on a table of
`max` entries. -/
def validObj (pool : FreeList) (max index : ℕ) : Option Bool :=
  if max < index then some false
  else if index = max then none
  else some (decide (pool.InUse index))

def libInit (mem : LibNi) (nid pid rid gid : PtlId) (gsize : Int32) (ptlSize : PtlPtIndex) :
    LibNi :=
  { mem with
    up := true, nid, pid, rid, gid, numNodes := gsize, tblSize := ptlSize
    eqPool := FreeList.fill mem.eqPool.next maxEqs
    mePool := FreeList.fill mem.mePool.next maxMes
    mdPool := FreeList.fill mem.mdPool.next maxMds
    msgPool := FreeList.fill mem.msgPool.next maxMsgs
    meLinks := { mem.meLinks with
      head := fun i => if 0 ≤ i ∧ i < ptlSize then none else mem.meLinks.head i }
    counters := ⟨0, 0, 0, 0, 0, 0, 0, 0⟩ }

def libMsgAlloc (ni : LibNi) : Option (ℕ × LibNi) :=
  match ni.msgPool.alloc with
  | none => none
  | some (i, pool) =>
    let alloc := ni.counters.msgsAlloc + 1
    some (i, { ni with
      msgPool := pool
      msg := update ni.msg i { ni.msg i with md := none, returnMd := -1 }
      counters := { ni.counters with
        msgsAlloc := alloc
        msgsMax := if ni.counters.msgsMax < alloc then alloc else ni.counters.msgsMax } })

def libMsgFree (ni : LibNi) (i : ℕ) : LibNi :=
  { ni with
    msgPool := ni.msgPool.release i
    counters := { ni.counters with msgsAlloc := ni.counters.msgsAlloc - 1 } }

def libMdUnlink (ni : LibNi) (i : ℕ) : LibNi :=
  { ni with
    md := update ni.md i { ni.md i with me := none }
    mdLinks := ni.mdLinks.unlink i
    mdPool := ni.mdPool.release i }

def libMdUnlinkCall (md : LibMd) : NalCall := .invalidate md.start md.length md.addrkey

def libMeUnlinkMds : ℕ → LibNi → ℕ → Option (LibNi × List NalCall)
  | 0, ni, m => if ni.mdLinks.head m = none then some (ni, []) else none
  | fuel + 1, ni, m =>
    match ni.mdLinks.head m with
    | none => some (ni, [])
    | some i =>
      (libMeUnlinkMds fuel (libMdUnlink ni i) m).map fun p =>
        (p.1, libMdUnlinkCall (ni.md i) :: p.2)

def libMeUnlink (ni : LibNi) (m : ℕ) : Option (LibNi × List NalCall) := do
  let ni := { ni with meLinks := ni.meLinks.unlink m }
  let (ni, calls) ← libMeUnlinkMds maxMds ni m
  some ({ ni with mePool := ni.mePool.release m }, calls)

def libMdDeconstruct (md : LibMd) : PtlMd where
  start := md.start
  length := md.length
  threshold := md.threshold
  maxOffset := md.maxOffset
  options := md.options
  userPtr := md.userPtr
  eventq := match md.eq with
    | some e => ofNat e
    | none => ptlEqNone

inductive MdBuild
  | fail (rc : Int32) (calls : List NalCall)
  | ok (new : ℕ) (ni : LibNi) (calls : List NalCall)

def mdBuildEq (ni : LibNi) (eventq : PtlHandle) : Option (Option (Option ℕ)) :=
  if eventq = ptlEqNone then some (some none)
  else (validObj ni.eqPool maxEqs (handleIndex eventq)).map fun ok =>
    if ok then some (some (handleIndex eventq)) else none

def newMd (md : PtlMd) (eq : Option ℕ) (addrkey : ℤ) : LibMd where
  me := none
  start := md.start
  offset := 0
  length := md.length
  threshold := md.threshold
  maxOffset := md.maxOffset
  pending := 0
  unlink := .unlink
  options := md.options
  userPtr := md.userPtr
  eq := eq
  doUnlink := false
  addrkey := addrkey

def libMdBuild (ni : LibNi) (md : PtlMd) (r : NalReply) : Option MdBuild :=
  (mdBuildEq ni md.eventq).map fun eq =>
    match eq with
    | none => .fail ptlInvEq []
    | some eq =>
      if r.validate < 0 then .fail ptlValFailed [.validate md.start md.length]
      else
        match ni.mdPool.alloc with
        | none => .fail ptlNospace
            [.validate md.start md.length, .invalidate md.start md.length r.addrkey]
        | some (new, pool) =>
          .ok new
            { ni with
              mdPool := pool
              mdLinks := ni.mdLinks.clear new
              md := update ni.md new (newMd md eq r.addrkey) }
            [.validate md.start md.length]

end Cplant.Portals
