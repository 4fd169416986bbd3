import Cplant.Portals.Objects

/-!
The calls that `lib_dispatch` hands to `me.c`, `md.c` and `eq.c`. Each takes the
fields of its argument block and the answers of the callbacks; the four match
fields of a new match entry come as one record.
-/
namespace Cplant.Portals
open Function

def reject (ni : LibNi) (rc : Int32) (calls : List NalCall) : Outcome :=
  { rc, ni, calls }

def allocMe (ni : LibNi) (me : LibMe) : Option (ℕ × LibNi) :=
  ni.mePool.alloc.map fun (new, pool) =>
    (new, { ni with
      mePool := pool
      me := update ni.me new me
      meLinks := ni.meLinks.clear new
      mdLinks := ni.mdLinks.set (.head new) none })

def doPtlMEAttach (ni : LibNi) (interfaceIn : PtlHandle) (indexIn : PtlPtIndex) (me : LibMe) :
    Option Outcome :=
  if ni.tblSize < indexIn ∨ indexIn < 0 then some (reject ni ptlInvPtindex [])
  else if indexIn = ni.tblSize then none
  else if (ni.meLinks.head indexIn).isSome then some (reject ni ptlInuse [])
  else
    match allocMe ni me with
    | none => some (reject ni ptlNospace [])
    | some (new, ni) => some
        { rc := ptlOk
          ni := { ni with meLinks := ni.meLinks.attach indexIn new }
          calls := []
          handleOut := some (handleOf new interfaceIn) }

def libInsert {κ : Type*} [DecidableEq κ] (l : Links κ) (obj new : ℕ) (pos : PtlInsPos) :
    Links κ :=
  match pos with
  | .after => l.insertAfter obj new
  | .before => l.insertBefore obj new

def doPtlMEInsert (ni : LibNi) (currentIn : PtlHandle) (me : LibMe) (positionIn : PtlInsPos) :
    Option Outcome := do
  let ok ← validObj ni.mePool maxMes (handleIndex currentIn)
  if !ok then return reject ni ptlInvMe []
  match allocMe ni me with
  | none => return reject ni ptlNospace []
  | some (new, ni) =>
    return {
      rc := ptlOk
      ni := { ni with meLinks := libInsert ni.meLinks (handleIndex currentIn) new positionIn }
      calls := []
      handleOut := some (handleOf new currentIn) }

def doPtlMEUnlink (ni : LibNi) (currentIn : PtlHandle) : Option Outcome := do
  let ok ← validObj ni.mePool maxMes (handleIndex currentIn)
  if !ok then return reject ni ptlInvMe []
  let (ni, calls) ← libMeUnlink ni (handleIndex currentIn)
  return { rc := ptlOk, ni, calls }

-- the two dumps print match entries, which changes nothing
def doPtlTblDump (ni : LibNi) (indexIn : PtlPtIndex) : Option Outcome :=
  if ni.tblSize < indexIn ∨ indexIn < 0 then some (reject ni ptlInvPtindex [])
  else if indexIn = ni.tblSize then none
  else some { rc := ptlOk, ni, calls := [] }

def doPtlMEDump (ni : LibNi) (currentIn : PtlHandle) : Option Outcome := do
  let ok ← validObj ni.mePool maxMes (handleIndex currentIn)
  if !ok then return reject ni ptlInvMe []
  return { rc := ptlOk, ni, calls := [] }

def doPtlMDAttach (ni : LibNi) (currentIn : PtlHandle) (mdIn : PtlMd) (unlinkIn : PtlUnlink)
    (r : NalReply) : Option Outcome := do
  let current := handleIndex currentIn
  let ok ← validObj ni.mePool maxMes current
  if !ok then return reject ni ptlInvMe []
  if (ni.mdLinks.head current).isSome then return reject ni ptlInuse []
  match ← libMdBuild ni mdIn r with
  | .fail rc calls => return reject ni rc calls
  | .ok new ni calls =>
    return {
      rc := ptlOk
      ni := { ni with
        mdLinks := ni.mdLinks.attach current new
        md := update ni.md new { ni.md new with unlink := unlinkIn, me := some current } }
      calls
      handleOut := some (handleOf new currentIn) }

def doPtlMDInsert (ni : LibNi) (currentIn : PtlHandle) (mdIn : PtlMd) (unlinkIn : PtlUnlink)
    (positionIn : PtlInsPos) (r : NalReply) : Option Outcome := do
  let current := handleIndex currentIn
  let ok ← validObj ni.mdPool maxMds current
  if !ok then return reject ni ptlInvMd []
  match ← libMdBuild ni mdIn r with
  | .fail rc calls => return reject ni rc calls
  | .ok new ni calls =>
    return {
      rc := ptlOk
      ni := { ni with
        mdLinks := libInsert ni.mdLinks current new positionIn
        md := update ni.md new
          { ni.md new with unlink := unlinkIn, me := (ni.md current).me } }
      calls
      handleOut := some (handleOf new currentIn) }

def doPtlMDBind (ni : LibNi) (niIn : PtlHandle) (mdIn : PtlMd) (r : NalReply) :
    Option Outcome := do
  match ← libMdBuild ni mdIn r with
  | .fail rc calls => return reject ni rc calls
  | .ok new ni calls =>
    return { rc := ptlOk, ni, calls, handleOut := some (handleOf new niIn) }

def doPtlMDUnlink (ni : LibNi) (mdIn : PtlHandle) : Option Outcome := do
  let current := handleIndex mdIn
  let ok ← validObj ni.mdPool maxMds current
  if !ok then return reject ni ptlInvMd []
  return {
    rc := ptlOk
    ni := libMdUnlink ni current
    calls := [libMdUnlinkCall (ni.md current)]
    mdOut := some (libMdDeconstruct (ni.md current)) }

/-- The event queue of an updated descriptor: an unmasked handle that is out of
range or stale silently means no queue. -/
def mdUpdateEq (ni : LibNi) (eventq : PtlHandle) : Option (Option ℕ) :=
  if 0 ≤ eventq ∧ eventq ≤ 4096 then
    (validObj ni.eqPool maxEqs (handleIndex eventq)).map fun ok =>
      if ok then some (handleIndex eventq) else none
  else some none

def updatedMd (md : LibMd) (new : PtlMd) (eq : Option ℕ) (addrkey : ℤ) : LibMd :=
  { md with
    start := new.start
    length := new.length
    threshold := new.threshold
    maxOffset := new.maxOffset
    options := new.options
    userPtr := new.userPtr
    eq := eq
    addrkey := addrkey }

/-- The queue whose idleness an update waits for. Its own `inuse` is not looked
at: the source tests the descriptor a second time. -/
def mdUpdateTestq (testqIn : PtlHandle) : Option (Option (Option ℕ)) :=
  if testqIn = ptlEqNone then some (some none)
  else if maxEqs < handleIndex testqIn then some none
  else if handleIndex testqIn = maxEqs then none
  else some (some (some (handleIndex testqIn)))

def mdUpdateReady (ni : LibNi) (testq : Option ℕ) (sequenceIn : PtlSeq) : Bool :=
  match testq with
  | none => true
  | some e => (ni.eq e).pending == 0 && (ni.eq e).sequence == sequenceIn

/-- `oldIn` is the `old_inout_valid` flag and `newIn` is the new descriptor if
`new_inout_valid` is set. -/
def doPtlMDUpdate (ni : LibNi) (mdIn : PtlHandle) (oldIn : Bool) (newIn : Option PtlMd)
    (testqIn : PtlHandle) (sequenceIn : PtlSeq) (r : NalReply) : Option Outcome := do
  let current := handleIndex mdIn
  let ok ← validObj ni.mdPool maxMds current
  if !ok then return reject ni ptlInvMd []
  let md := ni.md current
  let old := if oldIn then some (libMdDeconstruct md) else none
  match newIn with
  | none => return { rc := ptlOk, ni, calls := [], mdOut := old }
  | some new =>
    match ← mdUpdateTestq testqIn with
    | none => return { rc := ptlInvEq, ni, calls := [], mdOut := old }
    | some testq =>
      if !mdUpdateReady ni testq sequenceIn then
        return { rc := ptlNoupdate, ni, calls := [], mdOut := old }
      let moved : Bool := new.start ≠ md.start ∨ md.length < new.length
      let calls := if moved then
        [.invalidate md.start md.length md.addrkey, .validate new.start new.length] else []
      if moved && r.validate < 0 then
        return { rc := ptlValFailed, ni, calls, mdOut := old }
      let eq ← mdUpdateEq ni new.eventq
      return {
        rc := ptlOk
        ni := ni.setMd current
          (updatedMd md new eq (if moved then r.addrkey else md.addrkey))
        calls
        mdOut := old }

def doPtlEQAlloc (ni : LibNi) (niIn : PtlHandle) (countIn : PtlSize) (baseIn : ℤ) : Outcome :=
  match ni.eqPool.alloc with
  | none => reject ni ptlNospace [.invalidateEvents baseIn countIn]
  | some (new, pool) =>
    { rc := ptlOk
      ni := { ni with
        eqPool := pool
        eq := update ni.eq new
          { sequence := 1, base := baseIn, size := countIn, pending := 0 } }
      calls := []
      handleOut := some (handleOf new niIn) }

def doPtlEQFree (ni : LibNi) (eventqIn : PtlHandle) : Option Outcome := do
  let current := handleIndex eventqIn
  let ok ← validObj ni.eqPool maxEqs current
  if !ok then return reject ni ptlInvEq []
  return {
    rc := ptlOk
    ni := { ni with eqPool := ni.eqPool.release current }
    calls := [.invalidateEvents (ni.eq current).base (ni.eq current).size] }

end Cplant.Portals
