import Cplant.Portals.Interfaces

/-!
# Counting the events of a queue

`PtlEQCount` looks at every slot, `PtlEQGet` at one slot after the other. After an
overrun the reader jumps, and whether it then meets all the slots that were counted
depends on how far it is behind. A reader that took event number `2 ^ 32 - 1` waits for
number 0, and no stamp is smaller than that.
-/
namespace Cplant.Portals
open List Nat UInt32 Function
variable {ν : Type} [DecidableEq ν] {a a' : Api ν} {n : ν} {e k : ℕ} {count : PtlSize} {base : ℤ}
  {posted : List PtlEvent} {got : List (Int32 × PtlEvent)} {eventq : PtlHandle} {s : PtlSeq}
  {p : Process}

inductive Api.Gets (eventq : PtlHandle) : Api ν → ℕ → Prop
  | empty {a a' : Api ν} (h : a.ptlEQGet eventq = some (ptlEqEmpty, none, a')) : Gets eventq a 0
  | more {a a' : Api ν} {rc : Int32} {y : PtlEvent} {k : ℕ}
      (h : a.ptlEQGet eventq = some (rc, some y, a')) (rest : Gets eventq a' k) :
      Gets eventq a (k + 1)

theorem Api.Gets.unique (h : a.Gets eventq k) : ∀ {k'}, a.Gets eventq k' → k = k' := by
  induction h with
  | empty h =>
    intro k' h'
    cases h' with
    | empty => rfl
    | more hget => cases h.symm.trans hget
  | more h _ ih =>
    intro k' h'
    cases h' with
    | empty hget => cases h.symm.trans hget
    | more hget rest =>
      cases h.symm.trans hget
      rw [ih rest]

theorem ptlEQGet_interface (h₀ : a.interfaces 0 = some n) (he : handleIndex eventq < maxEqs)
    (hin : ((a.nal n).eq (handleIndex eventq)).inuse = true) : a.ptlEQGet eventq =
      (ptlEQGet (a.nal n) eventq).map fun r => (r.1, r.2.1, a.setNal n r.2.2) := by
  have hfind : a.find .eqGet eventq = some (.queue n (handleIndex eventq)) := by
    refine Api.queueOf_eq_queue.mpr ⟨?_, rfl, he, hin⟩
    rw [Api.nalOf_eq_some, interfaceNum_mask]
    exact ⟨by decide, h₀⟩
  rw [Api.ptlEQGet, hfind]
  cases hget : ptlEQGet (a.nal n) eventq <;> simp [hget]

section Queue
variable (h₀ : a.interfaces 0 = some n) (hcount : 0 < count) (he : handleIndex eventq < maxEqs)
  (hinv : EqInv (handleIndex eventq) count base posted got (a.nal n))
include h₀ hcount he hinv

variable (hlen : posted.length < 2 ^ 32 - 1)
include hlen

theorem EqInv.next : (lastPos got = posted.length ∧ a.Gets eventq 0) ∨ lastPos got < posted.length ∧
      ∃ rc y a', a.ptlEQGet eventq = some (rc, some y, a') ∧ a'.interfaces 0 = some n ∧
        y.sequence.toNat % count.toInt.toNat = (lastPos got + 1) % count.toInt.toNat ∧
        y.sequence.toNat ≤ posted.length ∧ posted.length < y.sequence.toNat + count.toInt.toNat ∧
        (posted.length ≤ lastPos got + count.toInt.toNat → y.sequence.toNat = lastPos got + 1) ∧
        EqInv (handleIndex eventq) count base posted (got ++ [(rc, y)]) (a'.nal n) := by
  have hget := ptlEQGet_interface h₀ he hinv.inuse
  rcases hinv.get hcount he hlen rfl with
    ⟨hlast, hempty⟩ | ⟨y, rc, p', hsome, hlt, hitem, -, hnext, hslot, hinv'⟩
  · rw [hempty] at hget
    exact .inl ⟨hlast, .empty hget⟩
  rw [hsome] at hget
  have hylen := (List.getElem?_eq_some_iff.mp hitem).1
  have hn := EqInv.size_pos hcount
  have hmod := (hinv.ring.item _ (mod_lt (lastPos got + 1) hn)
    (show _ ≠ 0 by rw [← hslot]; omega)).1
  have hover := hinv.ring.lt_stamp_add hn (r := lastPos got + 1) (by omega)
    (show _ ≤ _ by rw [← hslot]; omega)
  rw [← hslot] at hmod hover
  refine .inr ⟨by omega, rc, y, _, hget, h₀, hmod, by omega, hover,
    fun hle => hnext.mpr (by omega), ?_⟩
  simpa [Api.setNal] using hinv'

end Queue

def overrun : Api Unit :=
  let p := (twoSlots.calls (handleIndex 4095) threePuts).2
  ⟨true, fun _ => some (), 1, fun _ => p, false, 0, 0, 0, 0, 0, 0⟩

/-- As long as the numbers do not wrap, a reader that is never more than the size behind gets
no event twice, and none is reported as dropped. -/
theorem ptlEQGet_no_repeat {p p₀ q : Process} {ok : LibNi → Call → Prop}
    (hreach : Reachable ok p.ni) {interface handle : PtlHandle} {validate : Int32}
    (hcount : 0 < count)
    (halloc : ptlEQAlloc p interface count (some base) validate = some (ptlOk, some handle, p₀))
    (hown : ∀ e, e ≠ handleIndex handle → (p.ni.eq e).base ≠ base)
    (hrun : EqRun p₀ (handleIndex handle) (fun sent read => sent ≤ read + count.toInt.toNat)
      posted got q) (hlen : posted.length < 2 ^ 32 - 1) :
    (got.map Prod.snd).Nodup ∧ ∀ g ∈ got, g.1 ≠ ptlEqDropped := by
  obtain ⟨he, h₀⟩ := ptlEQAlloc_inv hreach halloc hown
  have hnum := (hrun.inv h₀ hcount he hlen).numbered
  obtain ⟨-, -, hgot⟩ := hrun.in_order h₀ hcount he hlen
  have hnodup : posted.Nodup := by
    refine nodup_iff_getElem?_ne_getElem?.mpr fun i j hij hj heq => ?_
    have hi := hnum i _ (getElem?_eq_getElem (hij.trans hj))
    have hj' := hnum j _ (heq ▸ getElem?_eq_getElem (hij.trans hj))
    omega
  constructor
  · rw [hgot, map_map]
    simpa using hnodup.sublist (take_sublist _ _)
  · intro g hg
    rw [hgot] at hg
    obtain ⟨y, -, rfl⟩ := mem_map.mp hg
    exact (by decide : ptlOk ≠ ptlEqDropped)

def oneSlot : Process :=
  ((ptlEQAlloc freshProcess 0 1 (some 1000) 0).map fun q => q.2.2).getD freshProcess

def bindMd : Call := .mdBind 0 ⟨0, 10, ptlMdThreshInf, 10, ptlMdOpPut, 0, 4095⟩

def bound : Outcome := (step oneSlot.ni okReply bindMd).get (by decide)

def loggingMd : LibMd := bound.ni.md 4095

structure Spins (s : PtlSeq) (p : Process) : Prop where
  up : p.ni.up = true
  live : p.ni.mdPool.next 4095 = .null
  head : p.ni.msgPool.head = .obj 1023
  md : p.ni.md 4095 = loggingMd
  lib : p.ni.eq 4095 = ⟨s, 1, 1000, 0⟩
  api : p.eq 4095 = ⟨true, s, 1, 1000⟩

theorem Spins.put (h : Spins s p) : ∃ o,
    step p.ni okReply (putFrom 4095) = some o ∧ posts o.calls = [] ∧ o.ni.up = true ∧
      o.ni.mdPool.next 4095 = .null ∧ o.ni.msgPool.next 1023 = .null ∧
      o.ni.md 4095 = heldMd loggingMd false ∧ o.ni.eq 4095 = ⟨s, 1, 1000, 1⟩ ∧
      (o.ni.msg 1023).md = some 4095 ∧ (o.ni.msg 1023).returnMd = -1 := by
  have hidx : handleIndex 4095 = 4095 := by decide
  have hmax : ¬ maxMds < 4095 ∧ 4095 ≠ maxMds := by decide
  have hmd : loggingMd.eq = some 4095 ∧ loggingMd.threshold ≠ 0 := by decide
  simp [step, doPtlPut, putFrom, hidx, validObj, hmax, FreeList.InUse, h.live, h.md, hmd,
    libTransId, libMsgAlloc, FreeList.alloc, h.head, LibNi.countSend, recordEvent, holdMd, h.lib,
    sentEvent, posts, h.up, NalCall.posted]

theorem Spins.finalize {ni : LibNi} (hup : ni.up = true)
    (hpool : ni.msgPool.next 1023 = .null) (hmd : ni.md 4095 = heldMd loggingMd false)
    (heq : ni.eq 4095 = ⟨s, 1, 1000, 1⟩) (hmsg : (ni.msg 1023).md = some 4095)
    (hreturn : (ni.msg 1023).returnMd = -1) : ∃ o y,
    step ni okReply (.finalize (some 1023)) = some o ∧ posts o.calls = [(1000, 0, y)] ∧
      y.sequence = s ∧ o.ni.up = true ∧ o.ni.mdPool = ni.mdPool ∧
      o.ni.msgPool.head = .obj 1023 ∧ o.ni.md 4095 = loggingMd ∧
      o.ni.eq 4095 = ⟨s + 1, 1, 1000, 0⟩ := by
  have hheld : (heldMd loggingMd false).eq = some 4095 ∧
      (heldMd loggingMd false).pending - 1 = 0 ∧ (heldMd loggingMd false).doUnlink = false := by
    decide
  simp [step, libFinalize, hup, hmsg, hmd, hheld, postEvent, heq, okReply, stampEvent, eqDone,
    finishMsg, ackOf, hreturn, releaseMd, LibNi.setEq, LibNi.setMd, libMsgFree, FreeList.release,
    hpool, posts, NalCall.posted]
  exact ⟨mod_one _, rfl⟩

def InStep (sent read : ℕ) : Prop := sent ≤ read + (1 : PtlSize).toInt.toNat

theorem ptlEQGet_oneSlot (hapi : p.eq 4095 = ⟨true, s, 1, 1000⟩)
    (hslot : ¬ (p.events 1000 0).sequence < s) :
    ptlEQGet p 4095 = some (if s ≠ (p.events 1000 0).sequence then ptlEqDropped else ptlOk,
      some (p.events 1000 0), { p with
        eq := update p.eq 4095 ⟨true, (p.events 1000 0).sequence + 1, 1, 1000⟩ }) := by
  have hidx : handleIndex 4095 = 4095 := by decide
  have hmax : ¬ maxEqs < 4095 ∧ 4095 ≠ maxEqs := by decide
  have hmod : (s % (1 : PtlSize).toUInt32).toNat = 0 := mod_one _
  simp [ptlEQGet, hidx, hmax, hapi, hmod, hslot]

theorem Spins.cycle (h : Spins s p) (hrun : EqRun oneSlot 4095 InStep posted got p)
    (hlen : posted.length = got.length) : ∃ y p', y.sequence = s ∧ p'.events 1000 0 = y ∧
      EqRun oneSlot 4095 InStep (posted ++ [y]) (got ++ [(ptlOk, y)]) p' ∧ Spins (s + 1) p' := by
  obtain ⟨o, hput, hsilent, hup, hlive, hpool, hmd, heq, hmsg, hreturn⟩ := h.put
  have hrun1 := hrun.lib (c := putFrom 4095) trivial rfl hput
    (by simp [InStep, postedTo, hsilent, hlen])
  obtain ⟨o', y, hfin, hpost, hseq, hup', hpool', hhead, hmd', heq'⟩ :=
    Spins.finalize hup hpool hmd heq hmsg hreturn
  have hrun2 := hrun1.lib (c := .finalize (some 1023)) trivial rfl hfin
    (by simp [InStep, postedTo, hsilent, hlen, hpost, Process.after, heq])
  have hy : ((p.after o).after o').events 1000 0 = y := by
    simp [Process.after, hsilent, hpost, storeEvent]
  have hget := ptlEQGet_oneSlot (p := (p.after o).after o') h.api
    (by rw [hy, hseq]; exact UInt32.lt_irrefl s)
  rw [hy, hseq, if_neg (not_not.mpr rfl)] at hget
  have hrun3 := hrun2.get hget
  rw [if_pos (by decide : handleIndex 4095 = 4095)] at hrun3
  refine ⟨y, { (p.after o).after o' with eq := update p.eq 4095 ⟨true, s + 1, 1, 1000⟩ },
    hseq, hy, ?_, hup', hpool' ▸ hlive, hhead, hmd', heq', by simp⟩
  simpa [postedTo, hsilent, hpost, Process.after, heq] using hrun3

theorem exists_spun (k : ℕ) : ∃ posted got p, EqRun oneSlot 4095 InStep posted got p ∧
    posted.length = k ∧ got.length = k ∧ Spins (ofNat (k + 1)) p := by
  induction k with
  | zero =>
    have hbind : step oneSlot.ni okReply bindMd = some bound := (Option.some_get _).symm
    have hsilent : posts bound.calls = [] := rfl
    have hstart : EqRun oneSlot 4095 InStep [] [] oneSlot := .start
    have hrun := hstart.lib (c := bindMd) trivial rfl hbind (by simp [InStep, postedTo, hsilent])
    refine ⟨_, _, _, hrun, by simp [postedTo, hsilent], rfl, ?_⟩
    exact ⟨rfl, by decide, by decide, rfl, rfl, rfl⟩
  | succ k ih =>
    obtain ⟨posted, got, p, hrun, hposted, hgot, hspins⟩ := ih
    obtain ⟨y, p', -, -, hrun', hspins'⟩ := hspins.cycle hrun (hposted.trans hgot.symm)
    refine ⟨_, _, p', hrun', by simp [hposted], by simp [hgot], ?_⟩
    rwa [← UInt32.ofNat_one, ← UInt32.ofNat_add] at hspins'

theorem ptlEQGet_no_repeat_three : ∃ posted got p, EqRun oneSlot 4095 InStep posted got p ∧
    got.length = 3 ∧ (got.map Prod.snd).Nodup ∧ ∀ g ∈ got, g.1 ≠ ptlEqDropped := by
  obtain ⟨posted, got, p, hrun, hposted, hgot, -⟩ := exists_spun 3
  have halloc : ptlEQAlloc freshProcess 0 1 (some 1000) 0 = some (ptlOk, some 4095, oneSlot) := rfl
  have hidx : handleIndex 4095 = 4095 := by decide
  refine ⟨posted, got, p, hrun, hgot, ptlEQGet_no_repeat freshNi_reachable (by decide) halloc
    (fun e _ => (by decide : (0 : ℤ) ≠ 1000)) (hidx ▸ hrun) (by rw [hposted]; decide)⟩

theorem ptlEQGet_repeats : ∃ posted got p y q, EqRun oneSlot 4095 InStep posted got p ∧
    (ptlOk, y) ∈ got ∧ ptlEQGet p 4095 = some (ptlEqDropped, some y, q) := by
  obtain ⟨posted, got, p, hrun, hposted, hgot, hspins⟩ := exists_spun (2 ^ 32 - 2)
  obtain ⟨y, p', hseq, hslot, hrun', hspins'⟩ := hspins.cycle hrun (hposted.trans hgot.symm)
  have hwrap : ofNat (2 ^ 32 - 2 + 1) + 1 = 0 := by decide
  have hget := ptlEQGet_oneSlot hspins'.api UInt32.not_lt_zero
  rw [hslot, if_pos (by rw [hseq]; decide)] at hget
  exact ⟨_, _, p', y, _, hrun', by simp, hget⟩

end Cplant.Portals
