import Cplant.Foundations.StampedLog
import Cplant.Portals.EqPending
import Cplant.Portals.EventQueue

/-!
# Conditional updates

`PtlMDUpdate` with a test queue is to take effect only if the application has seen every
event of the queue. The library decides by comparing its own next sequence number with the
one that the application brings along, and by the `pending` field of the queue.
-/
namespace Cplant.Portals
open List Option FreeList Process UInt32
open Function

def ptlMDUpdate (p : Process) (mdIn : PtlHandle) (oldInout : Bool) (newInout : Option PtlMd)
    (testqIn : PtlHandle) (validate : Int32) (r : NalReply) :
    Option (Int32 × Option PtlMd × Process) :=
  let testq := handleIndex testqIn
  if testqIn ≠ ptlEqNone ∧ maxEqs < testq then some (ptlInvEq, none, p)
  else if testqIn ≠ ptlEqNone ∧ testq = maxEqs then none
  else if testqIn ≠ ptlEqNone ∧ (p.eq testq).inuse = false then some (ptlInvEq, none, p)
  else if newInout.isSome ∧ validate ≠ 0 then some (ptlSegv, none, p)
  else
    let sequence : PtlSeq := if testqIn = ptlEqNone then -1 else (p.eq testq).sequence
    (doPtlMDUpdate p.ni mdIn oldInout newInout testqIn sequence r).map fun o =>
      (o.rc, o.mdOut, p.after o)

def Process.afterReply (p : Process) (r : NalReply) (o : Outcome) : Process :=
  if r.write = 0 then p.after o else { p with ni := o.ni }

def written (p : Process) (r : NalReply) (o : Outcome) (e : ℕ) : List PtlEvent :=
  if r.write = 0 ∧ p.ni.eqPool.InUse e then postedTo (p.ni.eq e).base o.calls else []

/-- Runs of a process whose queues are allocated in memory of their own and never freed, with the
events of each queue. -/
inductive Session (ok : LibNi → Call → Prop) :
    Process → (ℕ → List PtlEvent) → (ℕ → List PtlEvent) → Prop
  | init {p : Process} (mem : LibNi) (nid pid rid gid : PtlId) (gsize : Int32)
      (ptlSize : PtlPtIndex) (hinit : p.ni = libInit mem nid pid rid gid gsize ptlSize)
      (hunused : ∀ e, (p.eq e).inuse = false) : Session ok p (fun _ => []) (fun _ => [])
  | lib {p : Process} {posted got : ℕ → List PtlEvent} {c : Call} {r : NalReply} {o : Outcome}
      (h : Session ok p posted got) (hen : Enabled p.ni c) (hc : c.KeepsEqs) (hok : ok p.ni c)
      (hs : step p.ni r c = some o) :
      Session ok (p.afterReply r o) (fun e => posted e ++ written p r o e) got
  | alloc {p p' : Process} {posted got : ℕ → List PtlEvent} {interface : PtlHandle}
      {count : PtlSize} {base : ℤ} {validate rc : Int32} {handle : Option PtlHandle}
      (h : Session ok p posted got) (hok : ok p.ni (.eqAlloc interface count base))
      (hcount : 0 < count) (hown : ∀ e, LiveEq p.ni e → (p.ni.eq e).base ≠ base)
      (hs : ptlEQAlloc p interface count (some base) validate = some (rc, handle, p')) :
      Session ok p' posted got
  | get {p p' : Process} {posted got : ℕ → List PtlEvent} {eventq : PtlHandle} {rc : Int32}
      {ev : Option PtlEvent} (h : Session ok p posted got)
      (hs : ptlEQGet p eventq = some (rc, ev, p')) :
      Session ok p' posted
        (update got (handleIndex eventq) (got (handleIndex eventq) ++ ev.toList))

def Consumed (posted got : List PtlEvent) : Prop :=
  ∀ y ∈ posted, ∃ g ∈ got, y.sequence ≤ g.sequence

def NoWrap (ni : LibNi) : Call → Prop
  | .finalize (some i) => ∀ d e, (ni.msg i).md = some d → (ni.md d).eq = some e →
      (ni.eq e).sequence.toNat + 1 < 2 ^ 32
  | _ => True

variable {ni ni' : LibNi} {c : Call} {r : NalReply} {o : Outcome}

theorem step_cases (hup : ni.up = true) (hc : c.KeepsEqs) (hs : step ni r c = some o) :
    (NoPost ni o.ni o.calls ∧ ∀ i d e, c = .finalize (some i) → (ni.msg i).md = some d →
        (ni.md d).eq ≠ some e) ∨
      ∃ i d e, c = .finalize (some i) ∧ (ni.msg i).md = some d ∧ (ni.md d).eq = some e ∧
        (r.write = 0 ∧ (∃ ev, PostsOne ni o.ni o.calls e ev) ∨
          r.write ≠ 0 ∧ o.ni = stampEvent ni i e) := by
  by_cases hfin : ∃ msg, c = .finalize msg
  · obtain ⟨msg, rfl⟩ := hfin
    rcases libFinalize_cases hs with ⟨hno, hne⟩ | ⟨i, d, e, rfl, hmd, heq, hpost⟩
    · exact .inl ⟨hno, fun i d e hc' => hne hup i d e (Call.finalize.inj hc')⟩
    · exact .inr ⟨i, d, e, rfl, hmd, heq, hpost⟩
  · exact .inl ⟨(step_noPost hc hs).resolve_right hfin, fun i d e hc' => absurd ⟨_, hc'⟩ hfin⟩

theorem Turn.awaited_mono {e : ℕ} (ht : Turn ni c ni') (hkeep : KeepsQueueOfBusy ni ni')
    (hc : ∀ h, c ≠ .eqFree h)
    (hne : ∀ i d, c = .finalize (some i) → (ni.msg i).md = some d → (ni.md d).eq ≠ some e) :
    awaited ni e ⊆ awaited ni' e := by
  cases ht with
  | idle hmsgs | opened hcall hmsgs | stamped hcall hi hd hmsgs =>
    exact (awaited_of_same hkeep hmsgs e).ge
  | closed hcall => exact absurd hcall (hc _)
  | started hlive hnew hmsgs =>
    rw [awaited_of_started hkeep hmsgs]
    split_ifs
    · exact Finset.subset_insert _ _
    · exact subset_rfl
  | finished hcall hi hmsgs =>
    rw [awaited_of_finished hkeep hi hmsgs, if_neg (hne _ _ hcall (mem_msgsOn.mp hi).2)]

def stamp (ev : PtlEvent) : ℕ := ev.sequence.toNat

structure QueueInv (p : Process) (posted got : List PtlEvent) (e : ℕ) : Prop where
  inuse : (p.eq e).inuse = true
  base : (p.eq e).base = (p.ni.eq e).base
  size : (p.eq e).size = (p.ni.eq e).size
  size_pos : 0 < (p.ni.eq e).size
  slots : ∀ i : ℕ, i < (p.ni.eq e).size.toInt →
    stamp (p.events (p.ni.eq e).base i) = 0 ∨
      stamp (p.events (p.ni.eq e).base i) ∈ posted.map stamp
  log : StampedLog (posted.map stamp) (got.map stamp) (p.ni.eq e).sequence.toNat
    (p.eq e).sequence.toNat
  last : (awaited p.ni e).Nonempty ∨ posted = [] ∧ (p.ni.eq e).sequence = 1 ∨
    ∃ y ∈ posted, (p.ni.eq e).sequence.toNat = stamp y + 1

variable {ev : Option PtlEvent} {eventq : PtlHandle} {rc : Int32} {got : ℕ → List PtlEvent}
  {o : Outcome}

namespace QueueInv
variable {p p' : Process} {posted got : List PtlEvent} {e : ℕ}

section
variable (h : QueueInv p posted got e)
include h

theorem keep (hapi : p'.eq e = p.eq e) (hbase : (p'.ni.eq e).base = (p.ni.eq e).base)
    (hsize : (p'.ni.eq e).size = (p.ni.eq e).size)
    (hseq : (p'.ni.eq e).sequence = (p.ni.eq e).sequence)
    (hevents : p'.events (p.ni.eq e).base = p.events (p.ni.eq e).base)
    (hawait : awaited p.ni e ⊆ awaited p'.ni e) : QueueInv p' posted got e := by
  refine ⟨?_, ?_, ?_, ?_, ?_, ?_, ?_⟩
  · rw [hapi]
    exact h.inuse
  · rw [hapi, hbase]
    exact h.base
  · rw [hapi, hsize]
    exact h.size
  · rw [hsize]
    exact h.size_pos
  · rw [hsize, hbase, hevents]
    exact h.slots
  · rw [hseq, hapi]
    exact h.log
  · rw [hseq]
    exact h.last.imp_left fun hw => hw.mono hawait

theorem slot_lt (n : PtlSeq) :
    ((n % (p.ni.eq e).size.toUInt32).toNat : ℤ) < (p.ni.eq e).size.toInt := by
  have hpos := h.size_pos
  have hsize := toNat_toUInt32 (Int32.le_of_lt hpos)
  rw [Int32.lt_iff_toInt_lt] at hpos
  have hzero : (0 : Int32).toInt = 0 := rfl
  have hmod : n.toNat % (p.ni.eq e).size.toUInt32.toNat < (p.ni.eq e).size.toUInt32.toNat :=
    Nat.mod_lt _ (by omega)
  rw [UInt32.toNat_mod]
  omega

theorem post {ev : PtlEvent} (hq : PostsOne p.ni o.ni o.calls e ev)
    (hwrap : (p.ni.eq e).sequence.toNat + 1 < 2 ^ 32) :
    QueueInv (p.after o) (posted ++ [ev]) got e := by
  have hstamp : stamp ev = (p.ni.eq e).sequence.toNat := congrArg toNat hq.stamp
  have hseq : ((p.after o).ni.eq e).sequence.toNat = (p.ni.eq e).sequence.toNat + 1 := by
    have hnext := hq.sequence e
    rw [if_pos rfl] at hnext
    rw [show (p.after o).ni = o.ni from rfl, hnext, UInt32.toNat_add]
    exact Nat.mod_eq_of_lt hwrap
  have hbase : ((p.after o).ni.eq e).base = (p.ni.eq e).base := hq.base e
  have hsize : ((p.after o).ni.eq e).size = (p.ni.eq e).size := hq.size e
  refine ⟨h.inuse, h.base.trans hbase.symm, h.size.trans hsize.symm, hsize ▸ h.size_pos, ?_, ?_,
    .inr (.inr ⟨ev, by simp, by rw [hseq, hstamp]⟩)⟩
  · intro i hi
    rw [hsize] at hi
    rw [hbase]
    have hevents : (p.after o).events (p.ni.eq e).base i =
        if i = ((p.ni.eq e).sequence % (p.ni.eq e).size.toUInt32).toNat then ev
        else p.events (p.ni.eq e).base i := by
      simp [Process.after, hq.written, storeEvent, update_apply]
    rw [hevents]
    split_ifs
    · exact .inr (by simp)
    · exact (h.slots i hi).imp_right fun hm => by simpa using .inl (by simpa using hm)
  · rw [hseq, map_append]
    have hlog := h.log.post
    rw [← hstamp] at hlog ⊢
    exact hlog

theorem skip (hbase : (ni'.eq e).base = (p.ni.eq e).base)
    (hsize : (ni'.eq e).size = (p.ni.eq e).size)
    (hseq : (ni'.eq e).sequence = (p.ni.eq e).sequence + 1)
    (hwrap : (p.ni.eq e).sequence.toNat + 1 < 2 ^ 32) (hawait : (awaited ni' e).Nonempty) :
    QueueInv { p with ni := ni' } posted got e := by
  have hnext : (ni'.eq e).sequence.toNat = (p.ni.eq e).sequence.toNat + 1 := by
    rw [hseq, UInt32.toNat_add]
    exact Nat.mod_eq_of_lt hwrap
  refine ⟨h.inuse, h.base.trans hbase.symm, h.size.trans hsize.symm, ?_, ?_, ?_, .inl hawait⟩
  · exact hsize ▸ h.size_pos
  · simp only [hsize, hbase]
    exact h.slots
  · simp only [hnext]
    exact h.log.skip

theorem get (he : e < maxEqs) (hq : handleIndex eventq = e)
    (hs : ptlEQGet p eventq = some (rc, ev, p')) : QueueInv p' posted (got ++ ev.toList) e := by
  have hne : (p.eq e).size ≠ 0 := by
    rw [h.size]
    intro hz
    have hpos := h.size_pos
    rw [hz] at hpos
    cases hpos
  rw [ptlEQGet, hq] at hs
  simp only [if_neg (show ¬ maxEqs < e by omega), if_neg (show e ≠ maxEqs by omega), h.inuse,
    hne, Bool.not_true, Bool.false_eq_true, if_false] at hs
  set y := p.events (p.eq e).base ((p.eq e).sequence % (p.eq e).size.toUInt32).toNat with hy
  by_cases hempty : y.sequence < (p.eq e).sequence
  · rw [if_pos hempty] at hs
    cases hs
    simpa using h
  rw [if_neg hempty] at hs
  cases hs
  have hslot := h.slots _ (h.slot_lt (p.eq e).sequence)
  rw [← h.size, ← h.base, ← hy] at hslot
  have hle : (p.eq e).sequence.toNat ≤ stamp y := by exact Nat.le_of_not_lt hempty
  have hpos := h.log.cursor_pos
  have hmem : stamp y ∈ posted.map stamp := hslot.resolve_left (by omega)
  have hlt := (h.log.range _ hmem).2
  have hbound := (p.ni.eq e).sequence.toNat_lt
  have hcursor : (y.sequence + 1).toNat = stamp y + 1 := by
    exact Nat.mod_eq_of_lt (show stamp y + 1 < 2 ^ 32 by omega)
  refine { h with inuse := ?_, base := ?_, size := ?_, log := ?_ }
  · simp
  · simpa using h.base
  · simpa using h.size
  · simp only [update_self, hcursor, toList_some, map_append]
    exact h.log.take hmem hle

theorem ready_iff (hq : QueuesAccounted p.ni) (he : LiveEq p.ni e) :
    mdUpdateReady p.ni (some e) (p.eq e).sequence = true ↔
      Consumed posted got ∧ awaited p.ni e = ∅ := by
  have hpending : (p.ni.eq e).pending = 0 ↔ awaited p.ni e = ∅ := by
    have hp := hq.pending e he
    have hzero : (0 : Int32).toInt = 0 := rfl
    rw [← Int32.toInt_inj, hp, hzero, Int.natCast_eq_zero, Finset.card_eq_zero]
  have hconsumed : Consumed posted got ↔
      ∀ y ∈ posted.map stamp, ∃ g ∈ got.map stamp, y ≤ g := by
    simp [Consumed, stamp, le_iff_toNat_le]
  have hseq : (p.ni.eq e).sequence = (p.eq e).sequence ↔
      (p.eq e).sequence.toNat = (p.ni.eq e).sequence.toNat := by
    rw [← UInt32.toNat_inj, eq_comm]
  simp only [mdUpdateReady, Bool.and_eq_true, beq_iff_eq]
  rw [hpending, hseq, hconsumed, and_comm]
  refine and_congr_left fun hempty => h.log.drained_iff ?_
  rcases h.last with hbusy | ⟨rfl, hone⟩ | ⟨y, hy, hnext⟩
  · rw [hempty] at hbusy
    exact absurd hbusy Finset.not_nonempty_empty
  · exact .inl ⟨rfl, by rw [hone]; rfl⟩
  · exact .inr ⟨stamp y, mem_map_of_mem hy, hnext⟩

end
end QueueInv

structure SessionInv (p : Process) (posted got : ℕ → List PtlEvent) : Prop where
  queue : ∀ e, LiveEq p.ni e → QueueInv p (posted e) (got e) e
  unused : ∀ e, e < maxEqs → ¬ LiveEq p.ni e →
    (p.eq e).inuse = false ∧ posted e = [] ∧ got e = []
  own : ∀ e e', LiveEq p.ni e → LiveEq p.ni e' → (p.ni.eq e).base = (p.ni.eq e').base → e = e'

namespace SessionInv
variable {p p' : Process} {posted got : ℕ → List PtlEvent}

theorem of_lib {posted' : ℕ → List PtlEvent} (h : SessionInv p posted got) (hapi : p'.eq = p.eq)
    (hpool : p'.ni.eqPool = p.ni.eqPool) (hbase : ∀ e, (p'.ni.eq e).base = (p.ni.eq e).base)
    (hposted : ∀ e, ¬ LiveEq p.ni e → e < maxEqs → posted' e = posted e)
    (hqueue : ∀ e, LiveEq p.ni e → QueueInv p' (posted' e) (got e) e) :
    SessionInv p' posted' got := by
  have hlive : ∀ e, LiveEq p'.ni e ↔ LiveEq p.ni e := fun e => by simp only [LiveEq, hpool]
  refine ⟨fun e he => hqueue e ((hlive e).mp he), fun e hlt he => ?_, fun e e' he he' hb => ?_⟩
  · rw [hlive] at he
    rw [hapi, hposted e he hlt]
    exact h.unused e hlt he
  · rw [hlive] at he he'
    rw [hbase, hbase] at hb
    exact h.own e e' he he' hb

theorem lib (h : SessionInv p posted got)
    (hup : p.ni.up = true) (hc : c.KeepsEqs) (hwrap : NoWrap p.ni c)
    (hmsgs : ∀ i d e, c = .finalize (some i) → (p.ni.msg i).md = some d →
      (p.ni.md d).eq = some e → i ∈ awaited p.ni e ∧ LiveEq p.ni e)
    (hkeep : KeepsQueueOfBusy p.ni o.ni) (ht : Turn p.ni c o.ni) (hs : step p.ni r c = some o) :
    SessionInv (p.afterReply r o) (fun e => posted e ++ written p r o e) got := by
  have hfree : ∀ h, c ≠ .eqFree h := fun h hc' => by
    rw [hc'] at hc
    exact hc
  have hdead : ∀ e, ¬ LiveEq p.ni e → e < maxEqs → posted e ++ written p r o e = posted e := by
    intro e he hlt
    have hnot : ¬ p.ni.eqPool.InUse e := fun hu => he ⟨hlt, hu⟩
    simp [written, hnot]
  rcases step_cases hup hc hs with ⟨hno, hne⟩ | ⟨i, d, e1, rfl, hmd, heq, ⟨hw, ev, hq⟩ | ⟨hw, hni⟩⟩
  · -- nothing is posted
    have hwritten : ∀ e, written p r o e = [] := fun e => by simp [written, postedTo, hno.silent]
    have hafter : p.afterReply r o = { p with ni := o.ni } := by
      unfold afterReply
      split_ifs
      · simp [Process.after, hno.silent]
      · rfl
    rw [hafter]
    refine h.of_lib rfl hno.keeps.pool hno.keeps.base hdead fun e he => ?_
    rw [hwritten, append_nil]
    exact (h.queue e he).keep rfl (hno.keeps.base e) (hno.keeps.size e) (hno.keeps.sequence e) rfl
      (ht.awaited_mono hkeep hfree fun i d hc' hmd => hne i d e hc' hmd)
  · -- the event of message `i` goes to queue `e1`
    have hafter : p.afterReply r o = p.after o := if_pos hw
    have hlive := (hmsgs i d e1 rfl hmd heq).2
    rw [hafter]
    refine h.of_lib rfl hq.pool hq.base hdead fun e he => ?_
    have hin : written p r o e = if (p.ni.eq e1).base = (p.ni.eq e).base then [ev] else [] := by
      simp only [written, postedTo, hq.written, hw, he.2, and_self, if_true, filterMap_cons,
        filterMap_nil]
      split_ifs <;> rfl
    by_cases hee : e = e1
    · subst hee
      rw [hin, if_pos rfl]
      exact (h.queue e he).post hq (hwrap d e hmd heq)
    have hbase : (p.ni.eq e1).base ≠ (p.ni.eq e).base :=
      fun hb => hee (h.own e1 e hlive he hb).symm
    rw [hin, if_neg hbase, append_nil]
    have hseq := hq.sequence e
    rw [if_neg hee] at hseq
    refine (h.queue e he).keep rfl (hq.base e) (hq.size e) hseq ?_ ?_
    · simp [Process.after, hq.written, storeEvent, update_of_ne hbase.symm]
    · refine ht.awaited_mono hkeep hfree fun j d' hc' hmd' => ?_
      cases hc'
      rw [some.inj (hmd'.symm.trans hmd), heq]
      exact fun hsome => hee (some.inj hsome).symm
  · -- the number is used up, but the event is not there
    have hafter : p.afterReply r o = { p with ni := o.ni } := if_neg hw
    have hwritten : ∀ e, written p r o e = [] := fun e => by simp [written, hw]
    have hbase : ∀ e, (o.ni.eq e).base = (p.ni.eq e).base := fun e => by
      by_cases hee : e = e1 <;> simp [hni, stampEvent, hee]
    have hsize : ∀ e, (o.ni.eq e).size = (p.ni.eq e).size := fun e => by
      by_cases hee : e = e1 <;> simp [hni, stampEvent, hee]
    have hsame : ∀ e, awaited p.ni e ⊆ awaited o.ni e := by
      have hquiet := stampEvent_quiet p.ni i e1
      intro e
      rw [hni]
      refine (awaited_of_same (fun d _ => ?_) (msgsOn_congr hquiet.msgPool hquiet.msgMd) e).ge
      rw [hquiet.md]
    rw [hafter]
    refine h.of_lib rfl (by rw [hni]; rfl) hbase hdead fun e he => ?_
    rw [hwritten, append_nil]
    by_cases hee : e = e1
    · subst hee
      refine (h.queue e he).skip (hbase e) (hsize e) (by simp [hni, stampEvent])
        (hwrap d e hmd heq) ⟨i, hsame e (hmsgs i d e rfl hmd heq).1⟩
    · exact (h.queue e he).keep rfl (hbase e) (hsize e) (by simp [hni, stampEvent, hee]) rfl
        (hsame e)

theorem get (h : SessionInv p posted got) (hs : ptlEQGet p eventq = some (rc, ev, p')) :
    SessionInv p' posted
      (update got (handleIndex eventq) (got (handleIndex eventq) ++ ev.toList)) := by
  obtain ⟨hni, hevents, heq⟩ := ptlEQGet_frame hs
  refine ⟨fun e he => ?_, fun e hlt he => ?_, by rw [hni]; exact h.own⟩
  · rw [hni] at he
    by_cases hq : handleIndex eventq = e
    · rw [← hq, update_self, hq]
      exact (h.queue e he).get he.1 hq hs
    · rw [update_of_ne (Ne.symm hq)]
      refine (h.queue e he).keep (heq e hq) ?_ ?_ ?_ (by rw [hevents]) ?_
      all_goals rw [hni]
  · rw [hni] at he
    obtain ⟨hinuse, hp, hg⟩ := h.unused e hlt he
    by_cases hq : handleIndex eventq = e
    · -- the application knows no such queue
      have hnone : ptlEQGet p eventq = some (ptlInvEq, none, p) := by
        rw [ptlEQGet, hq]
        simp [if_neg (show e ≠ maxEqs by omega), hinuse]
      rw [hnone] at hs
      cases hs
      exact ⟨hinuse, hp, by simp [hg]⟩
    · rw [update_of_ne (Ne.symm hq), heq e hq]
      exact ⟨hinuse, hp, hg⟩

end SessionInv
namespace SessionInv
variable {p p' : Process} {posted got : ℕ → List PtlEvent}

theorem alloc {interface : PtlHandle} {count : PtlSize} {base : ℤ} {validate : Int32}
    {handle : Option PtlHandle} (h : SessionInv p posted got)
    (hpool : FreeList.Valid maxEqs p.ni.eqPool) (hcount : 0 < count)
    (hown : ∀ e, LiveEq p.ni e → (p.ni.eq e).base ≠ base)
    (hs : ptlEQAlloc p interface count (some base) validate = some (rc, handle, p')) :
    SessionInv p' posted got := by
  cases ptlEQAlloc_cases hpool hs with
  | refused _ hevents =>
    refine h.of_lib rfl rfl (fun _ => rfl) (fun _ _ _ => rfl) fun e he => ?_
    have hne : some base ≠ some (p.ni.eq e).base := fun hb => hown e he (some.inj hb).symm
    exact (h.queue e he).keep rfl rfl rfl rfl (hevents _ hne) subset_rfl
  | lost ha hin =>
    obtain ⟨hlt, hfresh, -⟩ := alloc_spec hpool ha
    have hout := (h.unused _ hlt fun he => hfresh he.2).1
    simp [hin] at hout
  | @done _ new pool events ha _ _ _ hevents hclear =>
    set p' : Process := ⟨(doPtlEQAlloc p.ni interface count base).ni, _, events⟩
    have hapi : p'.eq = update p.eq new ⟨true, 1, count, base⟩ := rfl
    have hni' : p'.ni = { p.ni with
        eqPool := pool
        eq := update p.ni.eq new
          { sequence := 1, base := base, size := count, pending := 0 } } := by
      simp [p', doPtlEQAlloc, ha]
    have hlive : ∀ e, LiveEq p'.ni e ↔ e = new ∨ LiveEq p.ni e := by
      rw [hni']
      exact alloc_live hpool ha
    obtain ⟨hlt, hfresh, -⟩ := alloc_spec hpool ha
    have hdead : ¬ LiveEq p.ni new := fun hl => hfresh hl.2
    obtain ⟨-, hp, hg⟩ := h.unused new hlt hdead
    have hbase : ∀ e, (p'.ni.eq e).base = if e = new then base else (p.ni.eq e).base := by
      intro e
      by_cases hen : e = new <;> simp [hni', hen]
    refine ⟨fun e he => ?_, fun e hlt' he => ?_, fun e e' he he' hb => ?_⟩
    · by_cases hen : e = new
      · subst hen
        rw [hp, hg]
        refine ⟨?_, ?_, ?_, ?_, ?_, ?_, .inr (.inl ⟨rfl, ?_⟩)⟩
        · simp [hapi]
        · simp [hapi, hni']
        · simp [hapi, hni']
        · simpa [hni'] using hcount
        · intro i hi
          rw [hni'] at hi ⊢
          simp only [update_self] at hi ⊢
          exact .inl (congrArg toNat (hclear i hi))
        · rw [hapi, hni']
          simp only [update_self, map_nil]
          exact StampedLog.empty
        · simp [hni']
      · have hold := ((hlive e).mp he).resolve_left hen
        refine (h.queue e hold).keep ?_ ?_ ?_ ?_ (hevents _ (hown e hold)) ?_
        · simp [hapi, hen]
        all_goals simp only [hni', update_of_ne hen]
        exact subset_rfl
    · have hnot : ¬ (e = new ∨ LiveEq p.ni e) := fun hl => he ((hlive e).mpr hl)
      obtain ⟨hne, hdead'⟩ := not_or.mp hnot
      rw [hapi, update_of_ne hne]
      exact h.unused e hlt' hdead'
    · rw [hbase, hbase] at hb
      rcases (hlive e).mp he with rfl | hl <;> rcases (hlive e').mp he' with rfl | hl'
      · rfl
      · rw [if_pos rfl] at hb
        split_ifs at hb with hee
        · exact hee.symm
        · exact absurd hb.symm (hown e' hl')
      · rw [if_pos rfl] at hb
        split_ifs at hb with hee
        · exact hee
        · exact absurd hb (hown e hl)
      · have hne : ∀ e, LiveEq p.ni e → e ≠ new := fun e hl hen => hdead (hen ▸ hl)
        rw [if_neg (hne e hl), if_neg (hne e' hl')] at hb
        exact h.own e e' hl hl' hb

end SessionInv

def Accountable (ni : LibNi) (c : Call) : Prop := SettlesQueues ni c ∧ NoWrap ni c

theorem Session.inv {p : Process} {posted : ℕ → List PtlEvent}
    (h : Session Accountable p posted got) :
    Reachable SettlesQueues p.ni ∧ SessionInv p posted got := by
  induction h with
  | @init p mem nid pid rid gid gsize ptlSize hinit hunused =>
    have hdead : ∀ e, ¬ LiveEq p.ni e := fun e he => by
      rw [hinit] at he
      exact fill_free _ _ e he.1 he.2
    refine ⟨hinit ▸ .init .., fun e he => absurd he (hdead e), fun e _ _ => ?_,
      fun e _ he => absurd he (hdead e)⟩
    exact ⟨hunused e, rfl, rfl⟩
  | @lib p posted got c r o h hen hc hok hs ih =>
    obtain ⟨hreach, hinv⟩ := ih
    have hni : (p.afterReply r o).ni = o.ni := by
      unfold afterReply
      split_ifs <;> rfl
    have hm := hreach.msgsAccounted fun _ _ hok => hok.1
    have hq := reachable_queuesAccounted hreach
    have hkeep : KeepsQueueOfBusy p.ni o.ni := fun d =>
      ((step_action hs).fate hreach.wf hen d).eq_of_busy hm hok.1.2.1
    refine ⟨hni ▸ hreach.step hen hok.1 hs, hinv.lib hreach.up hc hok.2 ?_ hkeep
      ((step_action hs).turn hreach.wf hen) hs⟩
    rintro i d e rfl hmd heq
    exact ⟨mem_awaited.mpr ⟨d, mem_msgsOn.mpr ⟨hen, hmd⟩, heq⟩,
      hq.live d (hm.live i hen d hmd) e heq⟩
  | @alloc p p' posted got interface count base validate rc handle h hok hcount hown hs ih =>
    obtain ⟨hreach, hinv⟩ := ih
    refine ⟨?_, hinv.alloc hreach.eqPool hcount hown hs⟩
    refine (ptlEQAlloc_cases hreach.eqPool hs).reachable hreach fun b hb => ?_
    exact some.inj hb ▸ hok.1
  | @get p p' posted got eventq rc ev h hs ih =>
    obtain ⟨hreach, hinv⟩ := ih
    exact ⟨(ptlEQGet_frame hs).1.symm ▸ hreach, hinv.get hs⟩

def oldMd (p : Process) (old : Bool) (d : ℕ) : Option PtlMd :=
  if old then some (libMdDeconstruct (p.ni.md d)) else none

variable {p : Process} {mdIn testqIn : PtlHandle} {old : Bool} {new : PtlMd} {r : NalReply}

theorem ptlMDUpdate_eq (hq : testqIn ≠ ptlEqNone)
    (hlt : handleIndex testqIn < maxEqs) (hinuse : (p.eq (handleIndex testqIn)).inuse = true) :
    ptlMDUpdate p mdIn old (some new) testqIn 0 r =
      (doPtlMDUpdate p.ni mdIn old (some new) testqIn (p.eq (handleIndex testqIn)).sequence r).map
        fun o => (o.rc, o.mdOut, p.after o) := by
  simp [ptlMDUpdate, hq, hlt.not_gt, hlt.ne, hinuse]

theorem mdUpdateTestq_eq (hq : testqIn ≠ ptlEqNone) (hlt : handleIndex testqIn < maxEqs) :
    mdUpdateTestq testqIn = some (some (some (handleIndex testqIn))) := by
  simp [mdUpdateTestq, hq, hlt.not_gt, hlt.ne]

section
variable (hmd : LiveMd p.ni (handleIndex mdIn)) (hq : testqIn ≠ ptlEqNone)
  (hlt : handleIndex testqIn < maxEqs) (hinuse : (p.eq (handleIndex testqIn)).inuse = true)
include hmd hq hlt hinuse

theorem ptlMDUpdate_not_ready (hready : mdUpdateReady p.ni (some (handleIndex testqIn))
      (p.eq (handleIndex testqIn)).sequence = false) :
    ptlMDUpdate p mdIn old (some new) testqIn 0 r =
      some (ptlNoupdate, oldMd p old (handleIndex mdIn), p) := by
  rw [ptlMDUpdate_eq hq hlt hinuse]
  simp [doPtlMDUpdate, validObj_of_live hmd, mdUpdateTestq_eq hq hlt, hready, Process.after, posts,
    oldMd]

theorem ptlMDUpdate_ready {eq : Option ℕ} (hready : mdUpdateReady p.ni (some (handleIndex testqIn))
      (p.eq (handleIndex testqIn)).sequence = true) (heq : mdUpdateEq p.ni new.eventq = some eq)
    (hvalid : 0 ≤ r.validate) : ∃ key, ptlMDUpdate p mdIn old (some new) testqIn 0 r =
      some (ptlOk, oldMd p old (handleIndex mdIn), { p with
        ni := p.ni.setMd (handleIndex mdIn)
          (updatedMd (p.ni.md (handleIndex mdIn)) new eq key) }) := by
  have hkept : ¬ r.validate < 0 := Int32.not_lt.mpr hvalid
  rw [ptlMDUpdate_eq hq hlt hinuse]
  by_cases hmoved : new.start ≠ (p.ni.md (handleIndex mdIn)).start ∨
      (p.ni.md (handleIndex mdIn)).length < new.length
  · refine ⟨r.addrkey, ?_⟩
    simp [doPtlMDUpdate, validObj_of_live hmd, hkept, mdUpdateTestq_eq hq hlt, hready, heq,
      Process.after, posts, oldMd, hmoved]
    rfl
  · refine ⟨(p.ni.md (handleIndex mdIn)).addrkey, ?_⟩
    simp [doPtlMDUpdate, validObj_of_live hmd, mdUpdateTestq_eq hq hlt, hready, heq, Process.after,
      posts, oldMd, hmoved]

end

theorem ptlMDUpdate_conditional {posted got : ℕ → List PtlEvent}
    (h : Session Accountable p posted got) (hmd : LiveMd p.ni (handleIndex mdIn))
    (hq : testqIn ≠ ptlEqNone) (he : LiveEq p.ni (handleIndex testqIn)) :
    (Consumed (posted (handleIndex testqIn)) (got (handleIndex testqIn)) ∧
        awaited p.ni (handleIndex testqIn) = ∅ →
      ∀ eq, mdUpdateEq p.ni new.eventq = some eq → 0 ≤ r.validate →
        ∃ key, ptlMDUpdate p mdIn old (some new) testqIn 0 r =
          some (ptlOk, oldMd p old (handleIndex mdIn), { p with
            ni := p.ni.setMd (handleIndex mdIn)
              (updatedMd (p.ni.md (handleIndex mdIn)) new eq key) })) ∧
    (¬ (Consumed (posted (handleIndex testqIn)) (got (handleIndex testqIn)) ∧
        awaited p.ni (handleIndex testqIn) = ∅) →
      ptlMDUpdate p mdIn old (some new) testqIn 0 r =
        some (ptlNoupdate, oldMd p old (handleIndex mdIn), p)) := by
  obtain ⟨hreach, hinv⟩ := h.inv
  have hqueue := hinv.queue _ he
  have hready := hqueue.ready_iff (reachable_queuesAccounted hreach) he
  constructor
  · intro hsettled eq heq hvalid
    exact ptlMDUpdate_ready hmd hq he.1 hqueue.inuse (hready.mpr hsettled) heq hvalid
  · intro hnot
    refine ptlMDUpdate_not_ready hmd hq he.1 hqueue.inuse ?_
    exact Bool.eq_false_iff.mpr fun hr => hnot (hready.mp hr)

theorem twoSlots_session (ok : LibNi → Call → Prop) (hok : ok freshNi (.eqAlloc 0 2 1000)) :
    Session ok twoSlots (fun _ => []) (fun _ => []) := by
  have hinit : Session ok freshProcess (fun _ => []) (fun _ => []) :=
    .init blankNi 1 1 0 0 1 1 rfl fun _ => rfl
  have hs : ptlEQAlloc freshProcess 0 2 (some 1000) 0 = some (ptlOk, some 4095, twoSlots) := rfl
  exact hinit.alloc hok (by decide) (fun e he => absurd he.2 (fill_free _ _ e he.1)) hs

def Process.play : Process → List Call → Option Process
  | p, [] => some p
  | p, c :: cs =>
    if Enabled p.ni c then (step p.ni okReply c).bind fun o => (p.after o).play cs else none

theorem Session.play {ok : LibNi → Call → Prop} {cs : List Call} :
    ∀ {p p' : Process} {posted : ℕ → List PtlEvent}, Session ok p posted got →
      (∀ c ∈ cs, c.KeepsEqs ∧ ∀ ni, ok ni c) → p.play cs = some p' →
      ∃ posted', Session ok p' posted' got := by
  induction cs with
  | nil =>
    intro p p' posted h _ hp
    cases hp
    exact ⟨posted, h⟩
  | cons c cs ih =>
    intro p p' posted h hcs hp
    unfold Process.play at hp
    split_ifs at hp with hen
    obtain ⟨o, hs, hp⟩ := bind_eq_some_iff.mp hp
    obtain ⟨hc, hok⟩ := hcs c (by simp)
    have hnext := h.lib hen hc (hok _) hs
    exact ih hnext (fun c' hc' => hcs c' (by simp [hc'])) hp

def loggedOnce : PtlMd := { loggedMd with threshold := 1 }

theorem ptlMDUpdate_conditional_consumed : ∃ p posted got key, Session Accountable p posted got ∧
      got 4095 ≠ [] ∧ Consumed (posted 4095) (got 4095) ∧
      ptlMDUpdate p 4095 false (some loggedOnce) 4095 0 okReply = some (ptlOk, none, { p with
        ni := p.ni.setMd 4095 (updatedMd (p.ni.md 4095) loggedOnce (some 4095) key) }) := by
  have hstart := twoSlots_session Accountable ⟨⟨trivial, trivial, fun _ h => by cases h⟩, trivial⟩
  have heval : (twoSlots.play [.mdBind 0 loggedMd, putFrom 4095]).any fun p =>
      (p.ni.msg 1023).md = some 4095 ∧ (p.ni.md 4095).eq = some 4095 ∧
      (p.ni.eq 4095).sequence = 1 ∧ Enabled p.ni (.finalize (some 1023)) ∧
      (step p.ni okReply (.finalize (some 1023))).any fun o =>
        (ptlEQGet (p.after o) 4095).any fun g => g.2.1.isSome ∧ LiveMd g.2.2.ni 4095 ∧
          g.2.2.ni.eqPool.InUse 4095 ∧ mdUpdateEq g.2.2.ni loggedOnce.eventq = some (some 4095) ∧
          (ptlMDUpdate g.2.2 4095 false (some loggedOnce) 4095 0 okReply).any fun u =>
            u.1 = ptlOk := by
    decide +kernel
  obtain ⟨p, hp, hfacts⟩ := (any_eq_true _ _).mp heval
  obtain ⟨hmsg, hmd, hseq, hen, hrest⟩ := of_decide_eq_true hfacts
  obtain ⟨o, hs, hrest⟩ := (any_eq_true _ _).mp hrest
  obtain ⟨⟨rc, ev, q⟩, hget, hfacts⟩ := (any_eq_true _ _).mp hrest
  obtain ⟨hev, hlive, he, heq, hdone⟩ := of_decide_eq_true hfacts
  obtain ⟨posted, h⟩ := hstart.play (by
    simp [putFrom, Call.KeepsEqs, Accountable, SettlesQueues, UnlinksIdle, KeepsBusyQueue,
      NoWrap]) hp
  have hwrap : NoWrap p.ni (.finalize (some 1023)) := by
    intro d e hd he
    cases hmsg.symm.trans hd
    cases hmd.symm.trans he
    rw [hseq]
    decide
  have hgot := (h.lib hen trivial ⟨⟨trivial, trivial, fun _ h => by cases h⟩, hwrap⟩ hs).get hget
  have hupdate := @ptlMDUpdate_conditional q 4095 4095 false loggedOnce okReply _ _ hgot hlive
    (by decide) ⟨by decide, he⟩
  -- an update that is made shows that the queue was settled
  have hsettled := Classical.not_not.mp (mt hupdate.2 fun hno => by
    rw [hno] at hdone
    exact (by decide : ptlNoupdate ≠ ptlOk) (of_decide_eq_true hdone))
  obtain ⟨key, hkey⟩ := hupdate.1 hsettled (some 4095) heq (by decide)
  obtain ⟨y, rfl⟩ := isSome_iff_exists.mp hev
  exact ⟨q, _, _, key, hgot, by simp [show handleIndex 4095 = 4095 by decide], hsettled.1, hkey⟩

def staleCompletion : List Call :=
  [.mdBind 0 plainMd, putFrom 4095, .mdUnlink 4095, .mdBind 0 loggedMd, putFrom 4095,
    .finalize (some 1023)]

/-- The completion of the first put is taken for that of the second: the update is made while
the latter is under way. -/
theorem ptlMDUpdate_too_early :
    ∃ p posted got p', Session (fun ni c => KeepsBusyQueue ni c ∧ ∀ h, c ≠ .eqFree h) p posted got ∧
      1022 ∈ awaited p.ni 4095 ∧
      ptlMDUpdate p 4095 false (some loggedOnce) 4095 0 okReply = some (ptlOk, none, p') ∧
      p'.ni.md 4095 ≠ p.ni.md 4095 := by
  have hstart := twoSlots_session (fun ni c => KeepsBusyQueue ni c ∧ ∀ h, c ≠ .eqFree h)
    ⟨trivial, nofun⟩
  have heval : ((twoSlots.play staleCompletion).bind fun p => ptlEQGet p 4095).any fun g =>
      g.2.2.ni.msgPool.InUse 1022 ∧ (g.2.2.ni.msg 1022).md = some 4095 ∧
      (g.2.2.ni.md 4095).eq = some 4095 ∧
      (ptlMDUpdate g.2.2 4095 false (some loggedOnce) 4095 0 okReply).any fun u =>
        u.1 = ptlOk ∧ u.2.1.isNone ∧
          (u.2.2.ni.md 4095).threshold ≠ (g.2.2.ni.md 4095).threshold := by
    decide +kernel
  obtain ⟨⟨rc, ev, q⟩, hq, hfacts⟩ := (any_eq_true _ _).mp heval
  obtain ⟨p, hp, hget⟩ := bind_eq_some_iff.mp hq
  obtain ⟨huse, hmd, heq, hupdate⟩ := of_decide_eq_true hfacts
  obtain ⟨⟨rc', old, q'⟩, hu, hfacts'⟩ := (any_eq_true _ _).mp hupdate
  obtain ⟨hrc, hold, hchanged⟩ := of_decide_eq_true hfacts'
  obtain ⟨posted, h⟩ := hstart.play
    (by simp [staleCompletion, putFrom, Call.KeepsEqs, KeepsBusyQueue]) hp
  refine ⟨q, _, _, q', h.get hget, ?_, ?_, fun hsame => hchanged (by rw [hsame])⟩
  · exact mem_awaited.mpr ⟨4095, mem_msgsOn.mpr ⟨⟨by decide, huse⟩, hmd⟩, heq⟩
  · obtain rfl : rc' = ptlOk := hrc
    obtain rfl : old = none := isNone_iff_eq_none.mp hold
    exact hu

end Cplant.Portals
