import Cplant.Portals.Types

/-!
# Creating a control portal

A control portal is a match entry of the master control portal. `makeControlPortal` makes the
entry, attaches its descriptors and only then links its record into the list; to clean up it
calls `deleteControlPortal`, which looks the record up in that list.
-/
namespace Cplant.Comm
open List
open Function (update)

inductive CtlMd
  | buf1 | buf2 | sentinel
  deriving DecidableEq

structure CtlEntry where
  me : ℕ
  ptl : ℤ
  mds : List CtlMd
  deriving DecidableEq

structure CtlRecord where
  addr : ℕ
  me : Option ℕ
  ptl : ℤ

/-- The match list of the master portal, the list at `srvrFirstCtlPtl`, and `ptlNums`. -/
structure Master where
  matchList : List CtlEntry
  ctlPtls : List CtlRecord
  ptlNums : ℤ → Bool

/-- What the allocations and the Portals calls of a creation give. New memory is not in use. -/
structure Grants (s : Master) where
  record : Option { a : ℕ // ∀ c ∈ s.ctlPtls, c.addr ≠ a }
  buffers : Bool
  me : Option ℕ
  sentinel : Bool
  buf1 : Bool
  buf2 : Bool

namespace Master
variable {s : Master}

def srvrMaxctlptl : ℤ := Portals.maxMes - 1

def deleteControlPortal (s : Master) (cp : CtlRecord) : Master :=
  if (s.ctlPtls.take (Portals.maxMes + 1)).any (·.addr = cp.addr) then
    { matchList := s.matchList.filter (some ·.me ≠ cp.me)
      ctlPtls := s.ctlPtls.eraseP (·.addr = cp.addr)
      ptlNums := if 0 ≤ cp.ptl ∧ cp.ptl ≤ srvrMaxctlptl then update s.ptlNums cp.ptl false
        else s.ptlNums }
  else s

/-- The place of a new entry: `PtlMEInsert` puts it before that of the first record, and
`PtlMEAttach` refuses a portal that has entries. -/
def placeEntry (s : Master) : Option (CtlEntry → List CtlEntry) :=
  match s.ctlPtls with
  | cp :: _ => some fun e => s.matchList.takeWhile (some ·.me ≠ cp.me) ++
      e :: s.matchList.dropWhile (some ·.me ≠ cp.me)
  | [] => if s.matchList = [] then some fun e => [e] else none

def badArgs (s : Master) (init : Bool) (maxMsgs ptl : ℤ) : Bool :=
  !init || maxMsgs < 1 || ptl < 0 || srvrMaxctlptl < ptl || s.ptlNums ptl

def makeControlPortal (s : Master) (init : Bool) (maxMsgs ptl : ℤ) (g : Grants s) :
    Master × Bool :=
  if s.badArgs init maxMsgs ptl then (s, false)
  else match g.record with
  | none => (s, false)
  | some a =>
    let failed (s : Master) (me : Option ℕ) := (s.deleteControlPortal ⟨a, me, -1⟩, false)
    if !g.buffers then failed s none
    else match g.me, s.placeEntry with
    | some me, some place =>
      let made mds : Master := { s with matchList := place ⟨me, ptl, mds⟩ }
      if !g.sentinel then failed (made []) me
      else if !g.buf1 then failed (made [.sentinel]) me
      else if !g.buf2 then failed (made [.buf1, .sentinel]) me
      else ({ made [.buf1, .buf2, .sentinel] with
        ctlPtls := ⟨a, me, ptl⟩ :: s.ctlPtls, ptlNums := update s.ptlNums ptl true }, true)
    | _, _ => failed s none

def MakesEntry (s : Master) (init : Bool) (maxMsgs ptl : ℤ) (g : Grants s) : Prop :=
  ¬ s.badArgs init maxMsgs ptl ∧ g.record.isSome ∧ g.buffers ∧ g.me.isSome ∧ s.placeEntry.isSome

theorem deleteControlPortal_new {cp : CtlRecord} (h : ∀ c ∈ s.ctlPtls, c.addr ≠ cp.addr) :
    s.deleteControlPortal cp = s := by
  rw [deleteControlPortal, if_neg]
  simpa using fun c hc => h c (mem_of_mem_take hc)

theorem placeEntry_ne {place : CtlEntry → List CtlEntry} (h : s.placeEntry = some place)
    (e : CtlEntry) : place e ≠ s.matchList := by
  suffices hlen : (place e).length = s.matchList.length + 1 from
    fun heq => Nat.succ_ne_self _ (hlen.symm.trans (congrArg length heq))
  unfold placeEntry at h
  split at h
  · obtain rfl := Option.some.inj h
    rw [length_append, length_cons, ← Nat.add_assoc, ← length_append,
      takeWhile_append_dropWhile]
  · split_ifs at h with hnil
    obtain rfl := Option.some.inj h
    simp [hnil]

/-- A failed creation leaves everything as it was just if it fails before the match entry is
made. -/
theorem failed_creation_iff (s : Master) (init : Bool) (maxMsgs ptl : ℤ) (g : Grants s) :
    ((s.makeControlPortal init maxMsgs ptl g).2 = false →
        (s.makeControlPortal init maxMsgs ptl g).1 = s) ↔
      (s.MakesEntry init maxMsgs ptl g → g.sentinel ∧ g.buf1 ∧ g.buf2) := by
  unfold makeControlPortal MakesEntry
  cases hargs : s.badArgs init maxMsgs ptl with
  | true => simp
  | false =>
  cases hrec : g.record with
  | none => simp
  | some a =>
  have hdel : ∀ l me, deleteControlPortal { s with matchList := l } ⟨a, me, -1⟩ =
      { s with matchList := l } := fun l me => deleteControlPortal_new a.2
  cases hbuf : g.buffers with
  | false => simpa using hdel s.matchList none
  | true =>
  cases hme : g.me with
  | none => simpa using hdel s.matchList none
  | some me =>
  cases hplace : s.placeEntry with
  | none => simpa using hdel s.matchList none
  | some place =>
    have hne : ∀ e, ({ s with matchList := place e } : Master) ≠ s := fun e heq =>
      placeEntry_ne hplace e (congrArg matchList heq)
    cases hs : g.sentinel <;> cases h1 : g.buf1 <;> cases h2 : g.buf2 <;> simp [hdel, hne]

theorem failed_creation_blocks :
    ((mk [] [] fun _ => false).makeControlPortal true 1 5
        ⟨some ⟨0, nofun⟩, true, some 0, false, true, true⟩) =
      (⟨[⟨0, 5, []⟩], [], fun _ => false⟩, false) ∧
    ((mk [⟨0, 5, []⟩] [] fun _ => false).makeControlPortal true 1 6
        ⟨some ⟨0, nofun⟩, true, some 1, true, true, true⟩).2 = false ∧
    ((mk [] [] fun _ => false).makeControlPortal true 1 6
        ⟨some ⟨0, nofun⟩, true, some 1, true, true, true⟩).2 = true := by
  refine ⟨?_, ?_, ?_⟩ <;> simp [makeControlPortal, badArgs, placeEntry, deleteControlPortal,
    srvrMaxctlptl, Portals.maxMes]

end Master
end Cplant.Comm
