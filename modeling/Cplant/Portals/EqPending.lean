import Cplant.Portals.Accounting
import Cplant.Portals.Posts

/-!
# Event queues and the operations that will post to them

The `pending` field of an event queue goes up when an operation starts and down when it
completes, each time through the descriptor. The two meet as long as a descriptor with
operations under way keeps its queue.
-/
namespace Cplant.Portals
open Finset LibNi Function
open Option

def awaited (ni : LibNi) (e : ℕ) : Finset ℕ :=
  (Finset.range maxMsgs).filter fun i =>
    ni.msgPool.InUse i ∧ ((ni.msg i).md.bind fun d => (ni.md d).eq) = some e

theorem mem_awaited {ni : LibNi} {e i : ℕ} :
    i ∈ awaited ni e ↔ ∃ d, i ∈ msgsOn ni d ∧ (ni.md d).eq = some e := by
  simp only [awaited, mem_filter, mem_range, bind_eq_some_iff, mem_msgsOn,
    LiveMsg]
  constructor
  · rintro ⟨hlt, huse, d, hmd, heq⟩
    exact ⟨d, ⟨⟨hlt, huse⟩, hmd⟩, heq⟩
  · rintro ⟨d, ⟨⟨hlt, huse⟩, hmd⟩, heq⟩
    exact ⟨hlt, huse, d, hmd, heq⟩

theorem card_awaited_le (ni : LibNi) (e : ℕ) : (awaited ni e).card ≤ maxMsgs :=
  (card_filter_le _ _).trans (card_range maxMsgs).le

inductive Turn (ni : LibNi) (c : Call) (ni' : LibNi) : Prop
  | idle (hmsgs : ∀ d, msgsOn ni' d = msgsOn ni d) (hpool : ni'.eqPool = ni.eqPool)
      (heq : ni'.eq = ni.eq)
  | opened {h : PtlHandle} {count : PtlSize} {base : ℤ} {new : ℕ} (hc : c = .eqAlloc h count base)
      (hmsgs : ∀ d, msgsOn ni' d = msgsOn ni d)
      (halloc : ni.eqPool.alloc = some (new, ni'.eqPool))
      (heq : ni'.eq = update ni.eq new
        { sequence := 1, base := base, size := count, pending := 0 })
  | closed {h : PtlHandle} (hc : c = .eqFree h)
  | started {i d : ℕ} (hlive : LiveMd ni d) (hnew : ∀ d', i ∉ msgsOn ni d')
      (hmsgs : ∀ d', msgsOn ni' d' = if d' = d then insert i (msgsOn ni d') else msgsOn ni d')
      (hpool : ni'.eqPool = ni.eqPool) (heq : ni'.eq = ni.expecting d)
  | stamped {i d e : ℕ} (hc : c = .finalize (some i)) (hi : i ∈ msgsOn ni d)
      (hd : (ni.md d).eq = some e) (hmsgs : ∀ d', msgsOn ni' d' = msgsOn ni d')
      (hpool : ni'.eqPool = ni.eqPool) (heq : ni'.eq = (stampEvent ni i e).eq)
  | finished {i d : ℕ} (hc : c = .finalize (some i)) (hi : i ∈ msgsOn ni d)
      (hmsgs : ∀ d', msgsOn ni' d' =
        if d' = d then (msgsOn ni d').erase i else msgsOn ni d')
      (hpool : ni'.eqPool = ni.eqPool) (heq : ni'.eq = (ni.posted i d).eq)

variable {ni ni' : LibNi} {c : Call} {d e i : ℕ} {eventq : PtlHandle}

theorem posted_eqPool (ni : LibNi) (i d : ℕ) : (ni.posted i d).eqPool = ni.eqPool := by
  unfold posted
  split <;> rfl

theorem msgsOn_setMd (ni : LibNi) (d : ℕ) (md : LibMd) (d' : ℕ) :
    msgsOn (ni.setMd d md) d' = msgsOn ni d' := rfl

theorem charge_expecting (ni : LibNi) (found : MdFound) (d : ℕ) :
    (ni.charge found).expecting d = ni.expecting d := by
  have hd : ((ni.charge found).md d).eq = (ni.md d).eq := by
    by_cases h : d = found.md <;> simp [charge, setMd, h]
  simp only [expecting, hd]
  rfl

theorem Turn.of_build {mid : LibNi} {md : PtlMd} {r : NalReply} {new : ℕ} {calls : List NalCall}
    (hb : libMdBuild ni md r = some (.ok new mid calls)) {mdLinks : Links ℕ} {f : ℕ → LibMd} :
    Turn ni c { mid with mdLinks, md := f } := by
  have hs := libMdBuild_spec hb
  obtain ⟨-, hpool, heq⟩ := libMdBuild_frame hb
  exact .idle (msgsOn_congr hs.msgPool fun i => by rw [hs.msg]) hpool heq

theorem Action.turn (hw : Wf ni) (hen : Enabled ni c) (ha : Action ni c ni') : Turn ni c ni' := by
  cases ha with
  | rejected counters => exact .idle (fun _ => rfl) rfl rfl
  | eqAlloc halloc => exact .opened rfl (fun _ => rfl) halloc rfl
  | eqFree hlive => exact .closed rfl
  | meAttach hk hempty halloc | meInsert hlive halloc =>
    obtain ⟨p, -, hmid⟩ := map_eq_some_iff.mp halloc
    cases hmid
    exact .idle (fun _ => rfl) rfl rfl
  | meUnlink hlive hun =>
    obtain ⟨-, -, heqs, heq, hpool, hmsg, -⟩ := libMeUnlink_rest hun
    exact .idle (msgsOn_congr hpool fun i => by rw [hmsg]) heqs heq
  | mdAttach hlive hempty hbuild => exact .of_build hbuild
  | mdInsert hlive hbuild => exact .of_build hbuild
  | mdBind hbuild => exact .of_build hbuild
  | mdUnlink hlive | mdUpdate hlive | granted hreq hfound hfull =>
    exact .idle (fun _ => rfl) rfl rfl
  | @grantedHeld hdr req found i _ hreq hfound hstart hreturn =>
    have hcharge : Wf (ni.charge found) := hw.of_setMd rfl
    refine .started (hw.found_live hfound) (fun d => (hstart.msgsOn hcharge d).1)
      (fun d => (hstart.msgsOn hcharge d).2) hstart.eqPool ?_
    rw [hstart.eq, charge_expecting]
  | @held _ d i _ hown hlive hactive hstart hreturn =>
    exact .started hlive (fun d => (hstart.msgsOn hw d).1) (fun d => (hstart.msgsOn hw d).2)
      hstart.eqPool hstart.eq
  | @notWritten i d e hmd heq =>
    have hquiet := stampEvent_quiet ni i e
    exact .stamped rfl (mem_msgsOn.mpr ⟨hen, hmd⟩) heq
      (msgsOn_congr hquiet.msgPool hquiet.msgMd) rfl rfl
  | @finalize i d ni2 calls hmd hr =>
    have hquiet := posted_quiet ni i d
    obtain ⟨-, -, heqs, heq, hpool, hmsg, -⟩ := releaseMd_rest hr
    refine .finished rfl (mem_msgsOn.mpr ⟨hen, hmd⟩) ?_ (heqs.trans (posted_eqPool ni i d)) heq
    exact msgsOn_libMsgFree hw hen hmd (hpool.trans hquiet.msgPool)
      fun j => by rw [hmsg, hquiet.msgMd]

def KeepsBusyQueue (ni : LibNi) : Call → Prop
  | .mdUpdate mdIn _ (some new) _ _ => (ni.md (handleIndex mdIn)).pending ≠ 0 →
      mdUpdateEq ni new.eventq = some (ni.md (handleIndex mdIn)).eq
  | _ => True

theorem Fate.eq_of_busy (h : MsgsAccounted ni) (hok : KeepsBusyQueue ni c) (hf : Fate ni c ni' d)
    (hbusy : (msgsOn ni' d).Nonempty) : (ni'.md d).eq = (ni.md d).eq := by
  cases hf with
  | kept hlive hmsgs hmd => rw [hmd]
  | born key u me hdead hlive hmsgs =>
    rw [hmsgs, h.msgsOn_eq_empty_of_dead hdead] at hbusy
    exact absurd hbusy not_nonempty_empty
  | @updated _ _ _ new _ eq key hc hidx hlive hlive' hmsgs heq hmd =>
    subst hc hidx
    have hpending : (ni.md _).pending ≠ 0 := fun hidle => by
      rw [hmsgs, h.msgsOn_eq_empty hlive hidle] at hbusy
      exact not_nonempty_empty hbusy
    rw [hmd]
    exact some.inj (heq.symm.trans (hok hpending))
  | charged hc hreq hfound hidx hfull hlive hlive' hmsgs hmd =>
    rw [hmd]
    rfl
  | requested hc hreq hfound hidx hnew hlive hlive' hmsgs hmd =>
    rw [hmd]
    rfl
  | used hown hnew hlive hlive' hmsgs hactive hmd =>
    rw [hmd]
    rfl
  | completed hc hi hlive hmsgs hstay hmd =>
    rw [hmd]
    rfl
  | released hc hi hdead hmsgs hidle hmark hmd =>
    rw [hmd]
    rfl
  | unlinked hc hlive hdead hmsgs hmd => rw [hmd]

def KeepsQueueOfBusy (ni ni' : LibNi) : Prop :=
  ∀ d, (msgsOn ni' d).Nonempty → (ni'.md d).eq = (ni.md d).eq

section
variable (h : KeepsQueueOfBusy ni ni')
include h

theorem mem_awaited_of_keeps :
    i ∈ awaited ni' e ↔ ∃ d, i ∈ msgsOn ni' d ∧ (ni.md d).eq = some e := by
  rw [mem_awaited]
  refine exists_congr fun d => and_congr_right fun hi => ?_
  rw [h d ⟨i, hi⟩]

theorem awaited_of_same (hmsgs : ∀ d, msgsOn ni' d = msgsOn ni d) (e : ℕ) :
    awaited ni' e = awaited ni e := by
  ext i
  rw [mem_awaited_of_keeps h, mem_awaited]
  simp [hmsgs]

theorem awaited_of_started
    (hmsgs : ∀ d', msgsOn ni' d' = if d' = d then insert i (msgsOn ni d') else msgsOn ni d') (e : ℕ)
    : awaited ni' e = if (ni.md d).eq = some e then insert i (awaited ni e) else awaited ni e := by
  ext j
  rw [mem_awaited_of_keeps h]
  simp only [hmsgs]
  split_ifs with he
  · rw [mem_insert, mem_awaited]
    constructor
    · rintro ⟨d', hj, hd'⟩
      split_ifs at hj
      · exact (mem_insert.mp hj).imp_right fun hj => ⟨d', hj, hd'⟩
      · exact .inr ⟨d', hj, hd'⟩
    · rintro (rfl | ⟨d', hj, hd'⟩)
      · exact ⟨d, by simp, he⟩
      · refine ⟨d', ?_, hd'⟩
        split_ifs
        · exact mem_insert_of_mem hj
        · exact hj
  · rw [mem_awaited]
    refine exists_congr fun d' => and_congr_left fun hd' => ?_
    have hne : d' ≠ d := fun hdd => he (hdd ▸ hd')
    rw [if_neg hne]

theorem awaited_of_finished (hi : i ∈ msgsOn ni d)
    (hmsgs : ∀ d', msgsOn ni' d' = if d' = d then (msgsOn ni d').erase i else msgsOn ni d') (e : ℕ)
    : awaited ni' e = if (ni.md d).eq = some e then (awaited ni e).erase i else awaited ni e := by
  have hmsgs' : ∀ d' j, j ∈ msgsOn ni' d' ↔ j ∈ msgsOn ni d' ∧ j ≠ i := by
    intro d' j
    rw [hmsgs]
    split_ifs with hd
    · rw [mem_erase, and_comm]
    · refine ⟨fun hj => ⟨hj, ?_⟩, fun hj => hj.1⟩
      rintro rfl
      exact hd (some.inj ((mem_msgsOn.mp hj).2.symm.trans (mem_msgsOn.mp hi).2))
  have hmem : ∀ j, j ∈ awaited ni' e ↔ j ∈ awaited ni e ∧ j ≠ i := by
    intro j
    rw [mem_awaited_of_keeps h, mem_awaited]
    simp only [hmsgs']
    exact ⟨fun ⟨d', hj, hd'⟩ => ⟨⟨d', hj.1, hd'⟩, hj.2⟩,
      fun ⟨⟨d', hj, hd'⟩, hne⟩ => ⟨d', ⟨hj, hne⟩, hd'⟩⟩
  ext j
  rw [hmem]
  split_ifs with he
  · rw [mem_erase, and_comm]
  · refine ⟨fun hj => hj.1, fun hj => ⟨hj, ?_⟩⟩
    rintro rfl
    obtain ⟨d', hj, hd'⟩ := mem_awaited.mp hj
    have hdd : d' = d := some.inj ((mem_msgsOn.mp hj).2.symm.trans (mem_msgsOn.mp hi).2)
    exact he (hdd ▸ hd')

end

theorem expecting_pending (ni : LibNi) (d e : ℕ) : (ni.expecting d e).pending =
      if (ni.md d).eq = some e then (ni.eq e).pending + 1 else (ni.eq e).pending := by
  cases h : (ni.md d).eq with
  | none => simp [expecting, h]
  | some e' =>
    by_cases he : e = e'
    · simp [expecting, h, he]
    · simp [expecting, h, he, Ne.symm he]

theorem stampEvent_pending (ni : LibNi) (i e' e : ℕ) :
    ((stampEvent ni i e').eq e).pending = (ni.eq e).pending := by
  by_cases he : e = e' <;> simp [stampEvent, he]

theorem posted_pending (ni : LibNi) (i d e : ℕ) : ((ni.posted i d).eq e).pending =
      if (ni.md d).eq = some e then (if (ni.eq e).pending - 1 < 0 then 0 else (ni.eq e).pending - 1)
      else (ni.eq e).pending := by
  cases h : (ni.md d).eq with
  | none => simp [posted, h]
  | some e' =>
    by_cases he : e = e'
    · simp [posted, h, he, eqDone, setEq, stampEvent_pending]
    · simp [posted, h, he, Ne.symm he, eqDone, setEq, stampEvent_pending]

/-- The queues that descriptors name exist, and `pending` is the number of messages
that will post to the queue. -/
structure QueuesAccounted (ni : LibNi) : Prop where
  live : ∀ d, LiveMd ni d → ∀ e, (ni.md d).eq = some e → LiveEq ni e
  pending : ∀ e, LiveEq ni e → (ni.eq e).pending.toInt = (awaited ni e).card

theorem libInit_queuesAccounted (mem : LibNi) (nid pid rid gid : PtlId) (gsize : Int32)
    (ptlSize : PtlPtIndex) : QueuesAccounted (libInit mem nid pid rid gid gsize ptlSize) where
  live := fun d hd => absurd hd.2 (FreeList.fill_free _ _ d hd.1)
  pending := fun e he => absurd he.2 (FreeList.fill_free _ _ e he.1)

theorem mdBuildEq_live (h : mdBuildEq ni eventq = some (some (some e))) : LiveEq ni e := by
  unfold mdBuildEq at h
  split_ifs at h
  · simp at h
  · obtain ⟨ok, hv, h⟩ := map_eq_some_iff.mp h
    cases ok with
    | false => simp at h
    | true =>
      obtain rfl : handleIndex eventq = e := by simpa using h
      exact validObj_spec hv rfl

theorem mdUpdateEq_live (h : mdUpdateEq ni eventq = some (some e)) : LiveEq ni e := by
  unfold mdUpdateEq at h
  split_ifs at h
  · obtain ⟨ok, hv, h⟩ := map_eq_some_iff.mp h
    cases ok with
    | false => simp at h
    | true =>
      obtain rfl : handleIndex eventq = e := by simpa using h
      exact validObj_spec hv rfl
  · simp at h

namespace QueuesAccounted
variable {e i : ℕ}

section
variable (h : QueuesAccounted ni)
include h

theorem live_of_fate (hf : Fate ni c ni' d) (hd : LiveMd ni' d)
    (he : (ni'.md d).eq = some e) : LiveEq ni e := by
  cases hf with
  | kept hlive hmsgs hmd => exact h.live d (hlive.mp hd) e (hmd ▸ he)
  | born key u me hdead hlive hmsgs heq hmd =>
    rw [hmd] at he
    cases he
    exact mdBuildEq_live heq
  | updated key hc hidx hlive hlive' hmsgs heq hmd =>
    rw [hmd] at he
    cases he
    exact mdUpdateEq_live heq
  | charged hc hreq hfound hidx hfull hlive hlive' hmsgs hmd
  | requested hc hreq hfound hidx hnew hlive hlive' hmsgs hmd
  | used hown hnew hlive hlive' hmsgs hactive hmd =>
    rw [hmd] at he
    exact h.live d hlive e he
  | completed hc hi hlive hmsgs hstay hmd =>
    rw [hmd] at he
    exact h.live d (hlive.mp hd) e he
  | released hc hi hdead => exact absurd hd hdead
  | unlinked hc hlive hdead => exact absurd hd hdead

theorem card_erase (he : LiveEq ni e) (hi : i ∈ awaited ni e) :
    ((ni.eq e).pending - 1).toInt = ((awaited ni e).erase i).card :=
  pending_erase (h.pending e he) (card_awaited_le ni e) hi

theorem not_negative (he : LiveEq ni e) (hi : i ∈ awaited ni e) : ¬ (ni.eq e).pending - 1 < 0 := by
  have hc := h.card_erase he hi
  have hzero : (0 : Int32).toInt = 0 := rfl
  rw [Int32.lt_iff_toInt_lt, hc, hzero]
  omega

theorem pending_of_turn (hm : MsgsAccounted ni) (hpool : FreeList.Valid maxEqs ni.eqPool)
    (hkeep : KeepsQueueOfBusy ni ni') (hc : ∀ h, c ≠ .eqFree h) (ht : Turn ni c ni') :
    (∀ e, LiveEq ni e → LiveEq ni' e) ∧
      ∀ e, LiveEq ni' e → (ni'.eq e).pending.toInt = (awaited ni' e).card := by
  cases ht with
  | idle hmsgs hsame heq =>
    simp only [LiveEq, hsame, heq, awaited_of_same hkeep hmsgs]
    exact ⟨fun _ he => he, h.pending⟩
  | @opened _ _ _ new hcall hmsgs halloc heq =>
    have hlive : ∀ e, LiveEq ni' e ↔ e = new ∨ LiveEq ni e := FreeList.alloc_live hpool halloc
    refine ⟨fun e he => (hlive e).mpr (.inr he), fun e he => ?_⟩
    rw [awaited_of_same hkeep hmsgs, heq]
    by_cases hnew : e = new
    · subst hnew
      have hempty : awaited ni e = ∅ := by
        refine eq_empty_of_forall_notMem fun i hi => ?_
        obtain ⟨d, hi, hd⟩ := mem_awaited.mp hi
        obtain ⟨hlive, hmd⟩ := mem_msgsOn.mp hi
        have he := h.live d (hm.live i hlive d hmd) e hd
        exact (FreeList.alloc_spec hpool halloc).2.1 he.2
      simp [hempty]
    · rw [update_of_ne hnew]
      exact h.pending e (((hlive e).mp he).resolve_left hnew)
  | closed hcall => exact absurd hcall (hc _)
  | @started i d hlive hnew hmsgs hsame heq =>
    refine ⟨fun e he => by simpa [LiveEq, hsame] using he, fun e he => ?_⟩
    rw [LiveEq, hsame] at he
    rw [heq, expecting_pending, awaited_of_started hkeep hmsgs]
    split_ifs with hd
    · refine pending_insert (h.pending e he) (card_awaited_le ni e) fun hi => ?_
      obtain ⟨d', hi, -⟩ := mem_awaited.mp hi
      exact hnew d' hi
    · exact h.pending e he
  | @stamped i d e' hcall hi hd hmsgs hsame heq =>
    refine ⟨fun e he => by simpa [LiveEq, hsame] using he, fun e he => ?_⟩
    rw [LiveEq, hsame] at he
    rw [heq, stampEvent_pending, awaited_of_same hkeep hmsgs]
    exact h.pending e he
  | @finished i d hcall hi hmsgs hsame heq =>
    refine ⟨fun e he => by simpa [LiveEq, hsame] using he, fun e he => ?_⟩
    rw [LiveEq, hsame] at he
    rw [heq, posted_pending, awaited_of_finished hkeep hi hmsgs]
    split_ifs with hd hneg
    · exact absurd hneg (h.not_negative he (mem_awaited.mpr ⟨d, hi, hd⟩))
    · exact h.card_erase he (mem_awaited.mpr ⟨d, hi, hd⟩)
    · exact h.pending e he

end
end QueuesAccounted

def SettlesQueues (ni : LibNi) (c : Call) : Prop :=
  UnlinksIdle ni c ∧ KeepsBusyQueue ni c ∧ ∀ h, c ≠ .eqFree h

theorem reachable_queuesAccounted (h : Reachable SettlesQueues ni) : QueuesAccounted ni := by
  induction h with
  | init => exact libInit_queuesAccounted ..
  | @step ni c r o h hen hok hs ih =>
    have hm := h.msgsAccounted fun _ _ hok => hok.1
    have hf := (step_action hs).fate h.wf hen
    have hkeep : KeepsQueueOfBusy ni o.ni := fun d => (hf d).eq_of_busy hm hok.2.1
    obtain ⟨hmono, hpending⟩ := ih.pending_of_turn hm h.eqPool hkeep hok.2.2
      ((step_action hs).turn h.wf hen)
    exact ⟨fun d hd e he => hmono e (ih.live_of_fate (hf d) hd he), hpending⟩

theorem eq_pending_awaited (h : Reachable SettlesQueues ni) :
    (∀ e, LiveEq ni e → (ni.eq e).pending.toInt = (awaited ni e).card ∧ 0 ≤ (ni.eq e).pending) ∧
      ∀ i d e, LiveMsg ni i → (ni.msg i).md = some d → (ni.md d).eq = some e →
        LiveEq ni e ∧ ¬ (ni.eq e).pending - 1 < 0 := by
  have hq := reachable_queuesAccounted h
  have hm := h.msgsAccounted fun _ _ hok => hok.1
  constructor
  · intro e he
    refine ⟨hq.pending e he, ?_⟩
    have hp := hq.pending e he
    have hzero : (0 : Int32).toInt = 0 := rfl
    rw [Int32.le_iff_toInt_le, hp, hzero]
    omega
  · intro i d e hi hmd hd
    have he := hq.live d (hm.live i hi d hmd) e hd
    exact ⟨he, hq.not_negative he (mem_awaited.mpr ⟨d, mem_msgsOn.mpr ⟨hi, hmd⟩, hd⟩)⟩

def loggedMd : PtlMd := ⟨0, 10, ptlMdThreshInf, 10, ptlMdOpPut, 0, 4095⟩

def loggedPut : LibNi :=
  let ni := ((step freshNi okReply (.eqAlloc 0 2 1000)).map Outcome.ni).getD freshNi
  let ni := ((step ni okReply (.mdBind 0 loggedMd)).map Outcome.ni).getD freshNi
  ((step ni okReply (putFrom 4095)).map Outcome.ni).getD freshNi

theorem loggedPut_reachable {ok : LibNi → Call → Prop}
    (h1 : ∀ ni, ok ni (.eqAlloc 0 2 1000)) (h2 : ∀ ni, ok ni (.mdBind 0 loggedMd))
    (h3 : ∀ ni, ok ni (putFrom 4095)) : Reachable ok loggedPut := by
  have hfresh : Reachable ok freshNi := .init ..
  have hqueue := hfresh.step (c := .eqAlloc 0 2 1000) (r := okReply) trivial (h1 _) rfl
  have hbind := hqueue.step (c := .mdBind 0 loggedMd) (r := okReply) trivial (h2 _) rfl
  exact hbind.step (c := putFrom 4095) (r := okReply) trivial (h3 _) rfl

theorem loggedPut_settles : Reachable SettlesQueues loggedPut :=
  loggedPut_reachable (fun _ => ⟨trivial, trivial, nofun⟩) (fun _ => ⟨trivial, trivial, nofun⟩)
    fun _ => ⟨trivial, trivial, nofun⟩

/-- In every reachable state an allocation fails just if all objects of the kind are in use. -/
theorem objects_run_out {ok : LibNi → Call → Prop} (h : Reachable ok ni) :
    (ni.mePool.alloc = none ↔ ∀ m < maxMes, LiveMe ni m) ∧
      (ni.mdPool.alloc = none ↔ ∀ d < maxMds, LiveMd ni d) ∧
      (ni.msgPool.alloc = none ↔ ∀ i < maxMsgs, LiveMsg ni i) ∧
      (ni.eqPool.alloc = none ↔ ∀ e < maxEqs, LiveEq ni e) :=
  ⟨FreeList.alloc_eq_none_iff h.wf.mePool, FreeList.alloc_eq_none_iff h.wf.mdPool,
    FreeList.alloc_eq_none_iff h.wf.msgPool, FreeList.alloc_eq_none_iff h.eqPool⟩

theorem objects_run_out_put : LiveMd loggedPut 4095 ∧ LiveMsg loggedPut 1023 ∧
    LiveEq loggedPut 4095 ∧ (loggedPut.msgPool.alloc = none ↔ ∀ i < maxMsgs, LiveMsg loggedPut i) :=
  ⟨⟨by decide, by decide⟩, ⟨by decide, by decide⟩, ⟨by decide, by decide⟩,
    (objects_run_out loggedPut_settles).2.2.1⟩

theorem loggedPut_awaited : awaited loggedPut 4095 = {1023} := by
  have hmem : 1023 ∈ awaited loggedPut 4095 :=
    mem_awaited.mpr ⟨4095, mem_msgsOn.mpr ⟨⟨by decide, by decide⟩, rfl⟩, rfl⟩
  have hcard := (reachable_queuesAccounted loggedPut_settles).pending 4095 ⟨by decide, by decide⟩
  have hone : (loggedPut.eq 4095).pending.toInt = 1 := by decide
  obtain ⟨i, hi⟩ := card_eq_one.mp (by omega : (awaited loggedPut 4095).card = 1)
  rw [hi, mem_singleton] at hmem
  rw [hi, hmem]

theorem eq_pending_awaited_put :
    (loggedPut.eq 4095).pending.toInt = (awaited loggedPut 4095).card :=
  ((eq_pending_awaited loggedPut_settles).1 4095 ⟨by decide, by decide⟩).1

def Call.KeepsObjects : Call → Prop
  | .mdUnlink .. => False
  | .meUnlink .. => False
  | .eqFree .. => False
  | _ => True

theorem eq_pending_abandoned : ∃ ni, Reachable (fun _ c => c.KeepsObjects) ni ∧ LiveEq ni 4095 ∧
      (ni.eq 4095).pending = 1 ∧ awaited ni 4095 = ∅ := by
  have hput : Reachable (fun _ c => c.KeepsObjects) loggedPut :=
    loggedPut_reachable (fun _ => trivial) (fun _ => trivial) (fun _ => trivial)
  obtain ⟨o, hs, ho⟩ : ∃ o, step loggedPut okReply
      (.mdUpdate 4095 false (some plainMd) ptlEqNone 0) = some o ∧ o.ni = loggedPut.setMd 4095
        (updatedMd (loggedPut.md 4095) plainMd none (loggedPut.md 4095).addrkey) := ⟨_, rfl, rfl⟩
  have hupdate := hput.step (c := .mdUpdate 4095 false (some plainMd) ptlEqNone 0) trivial trivial hs
  rw [ho] at hupdate
  refine ⟨_, hupdate, ⟨by decide, by decide⟩, by decide, ?_⟩
  refine eq_empty_of_forall_notMem fun i hi => ?_
  obtain ⟨d, hi, hd⟩ := mem_awaited.mp hi
  rw [msgsOn_setMd] at hi
  by_cases hne : d = 4095
  · subst hne
    cases hd
  · -- another descriptor with the same queue would have counted before
    have hold : i ∈ awaited loggedPut 4095 :=
      mem_awaited.mpr ⟨d, hi, by simpa [setMd, hne] using hd⟩
    rw [loggedPut_awaited, mem_singleton] at hold
    subst hold
    have hmd : (loggedPut.msg 1023).md = some d := (mem_msgsOn.mp hi).2
    exact hne (some.inj (hmd.symm.trans rfl))

end Cplant.Portals
