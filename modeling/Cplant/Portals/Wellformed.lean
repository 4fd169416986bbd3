import Cplant.Portals.Actions

/-!
# Well-formed interfaces

The pools, the match lists and the descriptor lists keep their shape in every run,
whatever the application unlinks and whenever messages complete. A message may
outlive its descriptor; what it then points to is a descriptor in no list.
-/
namespace Cplant.Portals
open Function Int32
open Option Links FreeList
open Links (WellLinked)

def Detached (ni : LibNi) (d : ℕ) : Prop :=
  ni.mdLinks.next d = none ∧ ni.mdLinks.prev d = none ∧ (ni.md d).me = none

structure Wf (ni : LibNi) : Prop where
  mePool : ni.mePool.Valid maxMes
  mdPool : ni.mdPool.Valid maxMds
  msgPool : ni.msgPool.Valid maxMsgs
  meLinked : ∃ own, WellLinked (fun k => 0 ≤ k ∧ k < ni.tblSize) (LiveMe ni) own ni.meLinks
  mdLinked : WellLinked (LiveMe ni) (LiveMd ni) (fun d => (ni.md d).me) ni.mdLinks
  msgMd : ∀ i, LiveMsg ni i → ∀ d, (ni.msg i).md = some d →
    d < maxMds ∧ (LiveMd ni d ∨ Detached ni d)

theorem libInit_wf (mem : LibNi) (nid pid rid gid : PtlId) (gsize : Int32)
    (ptlSize : PtlPtIndex) : Wf (libInit mem nid pid rid gid gsize ptlSize) where
  mePool := fill_valid _ _
  mdPool := fill_valid _ _
  msgPool := fill_valid _ _
  meLinked := by
    have hdead : ∀ m, ¬ LiveMe (libInit mem nid pid rid gid gsize ptlSize) m :=
      fun m hm => fill_free _ _ m hm.1 hm.2
    refine ⟨fun _ => none, ⟨fun c j hc hj => ?_, fun j _ hj => absurd hj (hdead j),
      fun j hj => absurd hj (hdead j)⟩⟩
    cases c with
    | node i => exact absurd hc (hdead i)
    | head k => simp [Links.get, libInit, show 0 ≤ k ∧ k < ptlSize from hc] at hj
  mdLinked := by
    have hme : ∀ m, ¬ LiveMe (libInit mem nid pid rid gid gsize ptlSize) m :=
      fun m hm => fill_free _ _ m hm.1 hm.2
    have hmd : ∀ d, ¬ LiveMd (libInit mem nid pid rid gid gsize ptlSize) d :=
      fun d hd => fill_free _ _ d hd.1 hd.2
    refine ⟨fun c j hc _ => ?_, fun j _ hj => absurd hj (hmd j), fun j hj => absurd hj (hmd j)⟩
    cases c with
    | node i => exact absurd hc (hmd i)
    | head k => exact absurd hc (hme k)
  msgMd := fun i hi => absurd hi.2 (fill_free _ _ i hi.1)

namespace Wf
variable {ni ni' : LibNi}

theorem congr (h : Wf ni) (htbl : ni'.tblSize = ni.tblSize)
    (hme : ni'.mePool = ni.mePool) (hmd : ni'.mdPool = ni.mdPool) (hmsg : ni'.msgPool = ni.msgPool)
    (hmel : ni'.meLinks = ni.meLinks) (hmdl : ni'.mdLinks = ni.mdLinks)
    (howner : ∀ d, (ni'.md d).me = (ni.md d).me)
    (hmsgMd : ∀ i, LiveMsg ni i → (ni'.msg i).md = (ni.msg i).md) : Wf ni' := by
  have hLme : ∀ m, LiveMe ni' m ↔ LiveMe ni m := fun m => by simp only [LiveMe, hme]
  have hLmd : ∀ d, LiveMd ni' d ↔ LiveMd ni d := fun d => by simp only [LiveMd, hmd]
  refine ⟨hme ▸ h.mePool, hmd ▸ h.mdPool, hmsg ▸ h.msgPool, ?_, ?_, ?_⟩
  · obtain ⟨own, hw⟩ := h.meLinked
    rw [hmel]
    exact ⟨own, hw.congr (fun k => by rw [htbl]) hLme (fun _ _ => rfl)⟩
  · rw [hmdl]
    exact h.mdLinked.congr hLme hLmd (fun d _ => howner d)
  · intro i hi d hd
    have hi' : LiveMsg ni i := by simpa [LiveMsg, hmsg] using hi
    obtain ⟨hlt, hlive⟩ := h.msgMd i hi' d (by rw [← hmsgMd i hi', hd])
    refine ⟨hlt, hlive.imp (hLmd d).mpr fun hdet => ?_⟩
    exact ⟨by rw [hmdl, hdet.1], by rw [hmdl, hdet.2.1], by rw [howner, hdet.2.2]⟩

theorem of_quiet (h : Wf ni) (q : Quiet ni ni') : Wf ni' :=
  h.congr q.tblSize q.mePool q.mdPool q.msgPool q.meLinks q.mdLinks (fun d => by rw [q.md])
    (fun i _ => q.msgMd i)

theorem of_setMd (h : Wf ni) {d : ℕ} {md : LibMd} (hme : md.me = (ni.md d).me) :
    Wf (ni.setMd d md) := by
  refine h.congr rfl rfl rfl rfl rfl rfl (fun j => ?_) (fun _ _ => rfl)
  by_cases hj : j = d
  · rw [hj]
    simpa [LibNi.setMd] using hme
  · simp [LibNi.setMd, hj]

end Wf

structure MsgAllocated (ni : LibNi) (i : ℕ) (ni' : LibNi) : Prop where
  tblSize : ni'.tblSize = ni.tblSize
  mePool : ni'.mePool = ni.mePool
  mdPool : ni'.mdPool = ni.mdPool
  meLinks : ni'.meLinks = ni.meLinks
  mdLinks : ni'.mdLinks = ni.mdLinks
  me : ni'.me = ni.me
  md : ni'.md = ni.md
  alloc : ni.msgPool.alloc = some (i, ni'.msgPool)
  fresh : (ni'.msg i).md = none
  msgMd : ∀ j, j ≠ i → (ni'.msg j).md = (ni.msg j).md

variable {ni ni' mid : LibNi} {d new m i : ℕ} {calls : List NalCall} {md : PtlMd} {me : LibMe}

theorem libMsgAlloc_spec (ha : libMsgAlloc ni = some (i, ni')) : MsgAllocated ni i ni' := by
  unfold libMsgAlloc at ha
  split at ha
  · cases ha
  next j pool hp =>
    cases ha
    refine ⟨rfl, rfl, rfl, rfl, rfl, rfl, rfl, hp, by simp, fun j hj => ?_⟩
    simp [hj]

namespace Wf
variable {ni : LibNi}

theorem starts {checkOffset : Bool} (h : Wf ni) (hd : LiveMd ni d)
    (hs : Starts ni i d checkOffset ni') : Wf ni' := by
  have hpool := (alloc_spec h.msgPool hs.alloc).2.2.1
  have hlive : ∀ j, LiveMsg ni' j ↔ j = i ∨ LiveMsg ni j :=
    alloc_live h.msgPool hs.alloc
  have hme : ∀ j, (ni'.md j).me = (ni.md j).me := by
    intro j
    by_cases hj : j = d
    · simp [hs.md, hj, heldMd]
    · simp [hs.md, hj]
  have hmid : Wf { ni' with msgPool := ni.msgPool, msg := ni.msg } :=
    h.congr hs.tblSize hs.mePool hs.mdPool rfl hs.meLinks hs.mdLinks hme (fun _ _ => rfl)
  refine ⟨hmid.mePool, hmid.mdPool, hpool, hmid.meLinked, hmid.mdLinked, fun j hj e he => ?_⟩
  by_cases hji : j = i
  · rw [hji, hs.msgMd] at he
    cases he
    exact ⟨hd.1, .inl (by simpa [LiveMd, hs.mdPool] using hd)⟩
  · exact hmid.msgMd j (((hlive j).mp hj).resolve_left hji) e (hs.msg j hji ▸ he)

theorem libMsgFree (h : Wf ni) (hi : LiveMsg ni i) :
    Wf (libMsgFree ni i) ∧ ∀ j, LiveMsg (libMsgFree ni i) j ↔ LiveMsg ni j ∧ j ≠ i := by
  have hpool := (release_spec h.msgPool hi.1 hi.2).1
  have hlive : ∀ j, LiveMsg (Portals.libMsgFree ni i) j ↔ LiveMsg ni j ∧ j ≠ i :=
    release_live h.msgPool hi.1 hi.2
  refine ⟨⟨h.mePool, h.mdPool, hpool, h.meLinked, h.mdLinked, fun j hj => ?_⟩, hlive⟩
  exact h.msgMd j ((hlive j).mp hj).1

theorem libMdUnlink (h : Wf ni) (hd : LiveMd ni d) :
    Wf (libMdUnlink ni d) ∧ ∀ j, LiveMd (libMdUnlink ni d) j ↔ LiveMd ni j ∧ j ≠ d := by
  have hpool := (release_spec h.mdPool hd.1 hd.2).1
  have hlive : ∀ j, LiveMd (Portals.libMdUnlink ni d) j ↔ LiveMd ni j ∧ j ≠ d :=
    release_live h.mdPool hd.1 hd.2
  have hself := (h.mdLinked.rooted d hd).not_self
  refine ⟨⟨h.mePool, hpool, h.msgPool, h.meLinked, ?_, fun i hi e he => ?_⟩, hlive⟩
  · refine (h.mdLinked.unlink hd).congr (fun _ => Iff.rfl) hlive fun j hj => ?_
    simp [Portals.libMdUnlink, hj.2]
  obtain ⟨hlt, hor⟩ := h.msgMd i hi e he
  refine ⟨hlt, ?_⟩
  by_cases hed : e = d
  · subst hed
    refine .inr ⟨?_, ?_, by simp [Portals.libMdUnlink]⟩
    · simp [Portals.libMdUnlink, next_eq_get, get_unlink]
    · simp [Portals.libMdUnlink, prev_unlink hself]
  · by_cases hle : LiveMd ni e
    · exact .inl ((hlive e).mpr ⟨hle, hed⟩)
    have hdet := hor.resolve_left hle
    -- a descriptor in no list is not touched
    have hp : ni.mdLinks.prev d ≠ some (.node e) := fun hp => hle (h.mdLinked.bwd d _ hd hp).1
    have hn : ni.mdLinks.next d ≠ some e := fun hn =>
      hle (h.mdLinked.fwd (.node d) e hd hn).1
    refine .inr ⟨?_, ?_, ?_⟩
    · simpa [Portals.libMdUnlink, next_eq_get, get_unlink, hed, hp] using hdet.1
    · simpa [Portals.libMdUnlink, prev_unlink hself, hed, hn] using hdet.2.1
    · simpa [Portals.libMdUnlink, hed] using hdet.2.2

end Wf

theorem libMdUnlink_of_detached (hlt : d < maxMds) (hd : ¬ LiveMd ni d) (hdet : Detached ni d) :
    (libMdUnlink ni d).mdPool = ni.mdPool ∧ (libMdUnlink ni d).mdLinks = ni.mdLinks := by
  have hfree : ni.mdPool.next d ≠ .null := fun hu => hd ⟨hlt, hu⟩
  have hunlink : ni.mdLinks.unlink d = ni.mdLinks.clear d := by
    simp [Links.unlink, hdet.1, hdet.2.1, Links.setThrough, Links.setPrevOf]
  have hself : ni.mdLinks.clear d = ni.mdLinks := by
    have hnext : update ni.mdLinks.next d none = ni.mdLinks.next := by rw [← hdet.1, update_eq_self]
    have hprev : update ni.mdLinks.prev d none = ni.mdLinks.prev := by
      rw [← hdet.2.1, update_eq_self]
    simp [Links.clear, Links.setPrev, Links.set, hnext, hprev]
  exact ⟨if_neg hfree, hunlink.trans hself⟩

theorem Wf.libMdUnlink_detached (h : Wf ni) (hlt : d < maxMds) (hd : ¬ LiveMd ni d)
    (hdet : Detached ni d) : Wf (Portals.libMdUnlink ni d) := by
  obtain ⟨hpool, hlinks⟩ := libMdUnlink_of_detached hlt hd hdet
  refine h.congr rfl rfl hpool rfl rfl hlinks (fun j => ?_) (fun _ _ => rfl)
  by_cases hj : j = d
  · simp [Portals.libMdUnlink, hj, hdet.2.2]
  · simp [Portals.libMdUnlink, hj]

structure MdBuilt (ni : LibNi) (md : PtlMd) (new : ℕ) (mid : LibNi) : Prop where
  tblSize : mid.tblSize = ni.tblSize
  mePool : mid.mePool = ni.mePool
  msgPool : mid.msgPool = ni.msgPool
  meLinks : mid.meLinks = ni.meLinks
  me : mid.me = ni.me
  msg : mid.msg = ni.msg
  alloc : ni.mdPool.alloc = some (new, mid.mdPool)
  mdLinks : mid.mdLinks = ni.mdLinks.clear new
  built : ∃ eq key, mid.md new = newMd md eq key
  md : ∀ d, d ≠ new → mid.md d = ni.md d

theorem libMdBuild_ok {r : NalReply} (hb : libMdBuild ni md r = some (.ok new mid calls)) :
    ∃ eq pool, mdBuildEq ni md.eventq = some (some eq) ∧ ni.mdPool.alloc = some (new, pool) ∧
      mid = { ni with
        mdPool := pool
        mdLinks := ni.mdLinks.clear new
        md := update ni.md new (newMd md eq r.addrkey) } := by
  obtain ⟨_ | eq, heq, hb⟩ := map_eq_some_iff.mp hb
  · cases hb
  simp only at hb
  split_ifs at hb
  split at hb
  · cases hb
  next n pool hp =>
    cases hb
    exact ⟨eq, pool, heq, hp, rfl⟩

theorem libMdBuild_spec {r : NalReply}
    (hb : libMdBuild ni md r = some (.ok new mid calls)) : MdBuilt ni md new mid := by
  obtain ⟨eq, pool, -, hp, rfl⟩ := libMdBuild_ok hb
  refine ⟨rfl, rfl, rfl, rfl, rfl, rfl, hp, rfl, ⟨eq, r.addrkey, by simp⟩, fun d hd => ?_⟩
  simp [hd]

theorem MdBuilt.fresh (hb : MdBuilt ni md new mid) (h : Wf ni) : ¬ LiveMd ni new :=
  fun hm => (alloc_spec h.mdPool hb.alloc).2.1 hm.2

theorem allocMe_meLinks (ha : allocMe ni me = some (new, mid)) :
    mid.meLinks = ni.meLinks.clear new := by
  obtain ⟨⟨i, pool⟩, hp, hmid⟩ := map_eq_some_iff.mp ha
  cases hmid
  rfl

theorem libMeUnlinkMds_induct (P : LibNi → Prop)
    (hstep : ∀ ni i, P ni → ni.mdLinks.head m = some i → P (libMdUnlink ni i)) :
    ∀ {fuel : ℕ} {ni ni' : LibNi} {calls : List NalCall}, P ni →
      libMeUnlinkMds fuel ni m = some (ni', calls) → P ni' ∧ ni'.mdLinks.head m = none := by
  intro fuel
  induction fuel with
  | zero =>
    intro ni ni' calls hP h
    simp only [libMeUnlinkMds, ite_none_right_eq_some] at h
    obtain ⟨hhead, h⟩ := h
    cases h
    exact ⟨hP, hhead⟩
  | succ fuel ih =>
    intro ni ni' calls hP h
    unfold libMeUnlinkMds at h
    split at h
    next hhead =>
      cases h
      exact ⟨hP, hhead⟩
    next i hhead =>
      obtain ⟨⟨ni1, calls1⟩, h1, h⟩ := map_eq_some_iff.mp h
      cases h
      exact ih (hstep ni i hP hhead) h1

theorem libMeUnlinkMds_meLinks (l : Links PtlPtIndex) :
    ∀ (fuel : ℕ) (ni : LibNi), libMeUnlinkMds fuel { ni with meLinks := l } m =
      (libMeUnlinkMds fuel ni m).map fun p => ({ p.1 with meLinks := l }, p.2) := by
  intro fuel
  induction fuel with
  | zero =>
    intro ni
    by_cases hh : ni.mdLinks.head m = none <;> simp [libMeUnlinkMds, hh]
  | succ fuel ih =>
    intro ni
    cases hh : ni.mdLinks.head m with
    | none => simp [libMeUnlinkMds, hh]
    | some i =>
      have hi := ih (libMdUnlink ni i)
      simp only [libMeUnlinkMds, hh]
      rw [show libMdUnlink { ni with meLinks := l } i = { libMdUnlink ni i with meLinks := l } from rfl,
        hi, map_map, map_map]
      rfl

theorem libMeUnlink_spec (h : libMeUnlink ni m = some (ni', calls)) :
    ∃ mid, libMeUnlinkMds maxMds ni m = some (mid, calls) ∧
      ni' = { mid with meLinks := ni.meLinks.unlink m, mePool := mid.mePool.release m } := by
  obtain ⟨⟨ni1, calls1⟩, h1, h⟩ := bind_eq_some_iff.mp h
  rw [libMeUnlinkMds_meLinks] at h1
  obtain ⟨⟨mid, calls2⟩, hmid, hp⟩ := map_eq_some_iff.mp h1
  cases hp
  cases h
  exact ⟨mid, hmid, rfl⟩

namespace Wf
variable {ni : LibNi}

theorem libMeUnlink (h : Wf ni) (hm : LiveMe ni m)
    (hun : libMeUnlink ni m = some (ni', calls)) : Wf ni' := by
  obtain ⟨mid, hloop, rfl⟩ := libMeUnlink_spec hun
  obtain ⟨⟨hw, htbl, hpool, hlinks⟩, hempty⟩ := libMeUnlinkMds_induct
    (fun n => Wf n ∧ n.tblSize = ni.tblSize ∧ n.mePool = ni.mePool ∧ n.meLinks = ni.meLinks)
    (fun n i hn hi => by
      have hmn : LiveMe n m := by simpa [LiveMe, hn.2.2.1] using hm
      exact ⟨(hn.1.libMdUnlink (hn.1.mdLinked.own_of_head hmn hi).1).1, hn.2⟩)
    ⟨h, rfl, rfl, rfl⟩ hloop
  have hmid : LiveMe mid m := by simpa [LiveMe, hpool] using hm
  have hvalid := (release_spec hw.mePool hmid.1 hmid.2).1
  have hlive := release_live hw.mePool hmid.1 hmid.2
  refine ⟨hvalid, hw.mdPool, hw.msgPool, ?_, ?_, hw.msgMd⟩
  · obtain ⟨own, how⟩ := hw.meLinked
    rw [hlinks] at how
    exact ⟨own, (how.unlink hmid).congr (fun _ => Iff.rfl) hlive (fun _ _ => rfl)⟩
  · exact (hw.mdLinked.dropHead hempty).congr hlive (fun _ => Iff.rfl) (fun _ _ => rfl)

theorem newMe (h : Wf ni)
    (ha : allocMe ni me = some (new, mid)) (own : ℕ → Option PtlPtIndex) {l : Links PtlPtIndex}
    (hl : ¬ LiveMe ni new → WellLinked (fun k => 0 ≤ k ∧
      k < ni.tblSize) (fun j => j = new ∨ LiveMe ni j) own l) : Wf { mid with meLinks := l } := by
  obtain ⟨⟨i, pool⟩, hp, hmid⟩ := map_eq_some_iff.mp ha
  cases hmid
  obtain ⟨hlt, hfree, hpool, -⟩ := alloc_spec h.mePool hp
  have hdead : ¬ LiveMe ni new := fun hm => hfree hm.2
  have hlive := alloc_live h.mePool hp
  refine ⟨hpool, h.mdPool, h.msgPool, ⟨own, ?_⟩, ?_, fun i hi d hd => ?_⟩
  · exact (hl hdead).congr (fun _ => Iff.rfl) hlive (fun _ _ => rfl)
  · exact (h.mdLinked.addHead hdead).congr hlive (fun _ => Iff.rfl) (fun _ _ => rfl)
  · exact h.msgMd i hi d hd

theorem newMd (h : Wf ni) (hb : MdBuilt ni md new mid) {f : LibMd} {l : Links ℕ}
    (hl : WellLinked (LiveMe ni) (fun j => j = new ∨
      LiveMd ni j) (update (fun d => (ni.md d).me) new f.me) l)
    (hframe : ∀ e, ¬ LiveMd ni e → e ≠ new → l.next e = ni.mdLinks.next e ∧
      l.prev e = ni.mdLinks.prev e) : Wf { mid with mdLinks := l, md := update mid.md new f } := by
  have hpool := (alloc_spec h.mdPool hb.alloc).2.2.1
  have hlive := alloc_live h.mdPool hb.alloc
  have hLme : ∀ m, m < maxMes ∧ mid.mePool.InUse m ↔ LiveMe ni m := fun m => by
    rw [hb.mePool]
    exact Iff.rfl
  refine ⟨hb.mePool ▸ h.mePool, hpool, hb.msgPool ▸ h.msgPool, ?_, ?_, fun i hi d hd => ?_⟩
  · obtain ⟨own, hw⟩ := h.meLinked
    refine ⟨own, ?_⟩
    simp only [hb.meLinks]
    exact hw.congr (fun k => by rw [hb.tblSize]) hLme (fun _ _ => rfl)
  · refine hl.congr hLme hlive fun j _ => ?_
    by_cases hj : j = new
    · simp [hj]
    · simp [hj, hb.md j hj]
  · have hi' : LiveMsg ni i := by simpa [LiveMsg, hb.msgPool] using hi
    obtain ⟨hlt, hor⟩ := h.msgMd i hi' d (by simpa [hb.msg] using hd)
    refine ⟨hlt, ?_⟩
    by_cases hdl : d = new ∨ LiveMd ni d
    · exact .inl ((hlive d).mpr hdl)
    · obtain ⟨hne, hnl⟩ := not_or.mp hdl
      obtain ⟨hnext, hprev, hme⟩ := hor.resolve_left hnl
      obtain ⟨hfn, hfp⟩ := hframe d hnl hne
      refine .inr ⟨hfn.trans hnext, hfp.trans hprev, ?_⟩
      simpa [hne, hb.md d hne] using hme

end Wf
namespace Wf
variable {ni : LibNi}

theorem matchList (h : Wf ni) {k : PtlPtIndex} (hk : 0 ≤ k ∧ k < ni.tblSize) :
    ∃ ids, MatchList ni k ids := by
  obtain ⟨own, hw⟩ := h.meLinked
  obtain ⟨ids, hwalk, hlive, hnd⟩ := hw.exists_walk (fun _ hm => hm.1) hk
  refine ⟨ids, hwalk, hnd, fun m hm => (hlive m hm).1, fun m hm => (hlive m hm).2,
    fun m hm i hi => ?_, fun m hm m' hm' i hi hi' => ?_⟩
  · exact (h.mdLinked.own_of_head (hlive m hm) hi).1.2
  · have h1 := (h.mdLinked.own_of_head (hlive m hm) hi).2
    have h2 := (h.mdLinked.own_of_head (hlive m' hm') hi').2
    exact some.inj (h1.symm.trans h2)

section
variable {req : MdRequest} {found : MdFound} {ni' : LibNi} (h : Wf ni)
  (hf : libFindMd ni req = some (some (found, ni')))
include h hf

theorem found_spec :
    ∃ ids m, MatchList ni req.index ids ∧ m ∈ ids ∧ ni.mdLinks.head m = some found.md ∧
      Eligible (ni.me m) (ni.md found.md) req ∧
      found.offset = effectiveOffset (ni.md found.md) req ∧
      found.length = grantedLength (ni.md found.md) req found.offset ∧
      (truncates (ni.md found.md) found.offset = true ∨
        found.offset + req.rlength ≤ (ni.md found.md).length) := by
  have hrange : 0 ≤ req.index ∧ req.index < ni.tblSize := by
    unfold libFindMd at hf
    split_ifs at hf with h1 h2
    · simp at hf
    · simp only [lt_iff_toInt_lt, le_iff_toInt_le, ← toInt_inj] at *
      omega
  obtain ⟨ids, hlist⟩ := h.matchList hrange
  have hscan := (libFindMd_spec hf).2
  rw [scanMes_eq hlist.inUse hlist.walk hlist.length_le] at hscan
  obtain ⟨m, hm, hfit⟩ := List.exists_of_findSome?_eq_some hscan
  rw [codedMdFit_eq (hlist.firstInUse m hm)] at hfit
  obtain ⟨d, hd, hfit⟩ := bind_eq_some_iff.mp hfit
  simp only [ite_none_right_eq_some, Option.some.injEq] at hfit
  obtain ⟨⟨helig, hroom⟩, rfl⟩ := hfit
  exact ⟨ids, m, hlist, hm, hd, helig, rfl, rfl, hroom⟩

theorem found_live : LiveMd ni found.md := by
  obtain ⟨ids, m, hlist, hm, hd, -⟩ := h.found_spec hf
  exact (h.mdLinked.own_of_head ⟨hlist.lt m hm, hlist.inUse m hm⟩ hd).1

end
end Wf

structure SameRest (ni ni' : LibNi) : Prop where
  up : ni'.up = ni.up
  src : ni'.src = ni.src
  eqPool : ni'.eqPool = ni.eqPool
  eq : ni'.eq = ni.eq
  msgPool : ni'.msgPool = ni.msgPool
  msg : ni'.msg = ni.msg
  counters : ni'.counters = ni.counters

theorem libMeUnlink_rest (h : libMeUnlink ni m = some (ni', calls)) : SameRest ni ni' := by
  obtain ⟨mid, hloop, rfl⟩ := libMeUnlink_spec h
  obtain ⟨hmid, -⟩ := libMeUnlinkMds_induct (SameRest ni) (fun _ _ hn _ => { hn with })
    ⟨rfl, rfl, rfl, rfl, rfl, rfl, rfl⟩ hloop
  exact { hmid with }

theorem releaseMd_rest (h : releaseMd ni d = some (ni', calls)) : SameRest ni ni' := by
  cases releaseMd_spec h with
  | kept | unlinked => exact ⟨rfl, rfl, rfl, rfl, rfl, rfl, rfl⟩
  | emptied _ _ _ hun => exact { libMeUnlink_rest hun with }

namespace Wf
variable {ni : LibNi}

section
variable {d : ℕ} (h : Wf ni) (hlt : d < maxMds) (hd : LiveMd ni d ∨ Detached ni d)
include h hlt hd

theorem libMdUnlink_of_msgMd : Wf (Portals.libMdUnlink ni d) := by
  by_cases hl : LiveMd ni d
  · exact (h.libMdUnlink hl).1
  · exact h.libMdUnlink_detached hlt hl (hd.resolve_left hl)

theorem releaseMd (hr : releaseMd ni d = some (ni', calls)) : Wf ni' := by
  have hmid : Wf (ni.unhold d) := h.of_setMd rfl
  have hd' : LiveMd (ni.unhold d) d ∨ Detached (ni.unhold d) d := by
    refine hd.imp id fun hdet => ⟨hdet.1, hdet.2.1, ?_⟩
    simpa [LibNi.setMd] using hdet.2.2
  have hcases := releaseMd_spec hr
  generalize ni.unhold d = mid at hmid hd' hcases
  cases hcases with
  | kept => exact hmid
  | unlinked => exact hmid.libMdUnlink_of_msgMd hlt hd'
  | emptied _ hm _ hun =>
    -- only a descriptor that was still in a list names a match entry
    have hl : LiveMd mid d := hd'.resolve_right fun hdet => by simp [hdet.2.2] at hm
    have hlive := (hmid.mdLinked.head_of_own hl hm).1
    exact (hmid.libMdUnlink_of_msgMd hlt hd').libMeUnlink hlive hun

end

theorem of_action (h : Wf ni) {c : Call} (hen : Enabled ni c) (ha : Action ni c ni') : Wf ni' := by
  cases ha with
  | rejected counters => exact h.of_quiet (.of_counters ni counters)
  | eqAlloc | eqFree => exact h.of_quiet (.of_eq ni _ _)
  | @meAttach _ k me new mid hk hempty ha =>
    obtain ⟨own, hw⟩ := h.meLinked
    refine h.newMe ha (update own new (some k)) fun hdead => ?_
    rw [allocMe_meLinks ha]
    refine (hw.clear_dead hdead).attach hk ?_ ?_ hdead
    · simpa [Links.head_eq_get, Links.get_clear] using hempty
    · simp [Links.next_eq_get, Links.get_clear]
  | @meInsert hdl me pos new mid hlive ha =>
    obtain ⟨own, hw⟩ := h.meLinked
    refine h.newMe ha (update own new (own (handleIndex hdl))) fun hdead => ?_
    rw [allocMe_meLinks ha]
    cases pos with
    | before => exact (hw.clear_dead hdead).insertBefore hlive hdead
    | after => exact (hw.clear_dead hdead).insertAfter hlive hdead
  | meUnlink hlive hun => exact h.libMeUnlink hlive hun
  | @mdAttach hdl md u r new mid calls hlive hempty hb =>
    have hs := libMdBuild_spec hb
    have hdead := hs.fresh h
    refine h.newMd hs ?_ (fun e he hne => ?_)
    · rw [hs.mdLinks]
      refine (h.mdLinked.clear_dead hdead).attach hlive ?_ ?_ hdead
      · simpa [Links.head_eq_get, Links.get_clear] using hempty
      · simp [Links.next_eq_get, Links.get_clear]
    · rw [hs.mdLinks]
      simp [Links.next_eq_get, Links.get_attach, Links.prev_attach, Links.get_clear,
        Links.prev_clear, hne]
  | @mdInsert hdl md u pos r new mid calls hlive hb =>
    have hs := libMdBuild_spec hb
    have hdead := hs.fresh h
    have hw := h.mdLinked.clear_dead hdead
    have hme : mid.md (handleIndex hdl) = ni.md (handleIndex hdl) :=
      hs.md _ fun heq => hdead (heq ▸ hlive)
    have hframe : ∀ e, e ≠ new → (ni.mdLinks.clear new).next e = ni.mdLinks.next e ∧
        (ni.mdLinks.clear new).prev e = ni.mdLinks.prev e := by
      intro e hne
      simp [Links.next_eq_get, Links.get_clear, Links.prev_clear, hne]
    refine h.newMd hs ?_ (fun e he hne => ?_)
    · rw [hs.mdLinks, hme]
      cases pos with
      | before => exact hw.insertBefore hlive hdead
      | after => exact hw.insertAfter hlive hdead
    · rw [hs.mdLinks, ← (hframe e hne).1, ← (hframe e hne).2]
      cases pos with
      | before => exact hw.insertBefore_dead hlive hdead he hne
      | after => exact hw.insertAfter_dead hlive hdead he hne
  | @mdBind _ md r new _ calls hb =>
    have hs := libMdBuild_spec hb
    obtain ⟨eq, key, hnew⟩ := hs.built
    have hw : Wf { ni' with
        mdLinks := ni'.mdLinks, md := update ni'.md new (ni'.md new) } := by
      refine h.newMd hs ?_ (fun e he hne => ?_)
      · rw [hs.mdLinks, hnew]
        exact h.mdLinked.clear (hs.fresh h)
      · rw [hs.mdLinks]
        simp [Links.next_eq_get, Links.get_clear, Links.prev_clear, hne]
    simpa using hw
  | mdUnlink hlive => exact (h.libMdUnlink hlive).1
  | mdUpdate hlive => exact h.of_setMd rfl
  | granted hreq hf => exact h.of_setMd rfl
  | @grantedHeld hdr req found i _ hreq hf hs =>
    have hc : Wf (ni.charge found) := h.of_setMd rfl
    exact hc.starts (h.found_live hf) hs
  | held hown hlive hactive hs => exact h.starts hlive hs
  | notWritten => exact h.of_quiet (stampEvent_quiet ni _ _)
  | @finalize i d ni2 calls hmd hr =>
    have q := posted_quiet ni i d
    have hq : Wf (ni.posted i d) := h.of_quiet q
    have hi : LiveMsg (ni.posted i d) i := by
      have hi : LiveMsg ni i := hen
      simpa [LiveMsg, q.msgPool] using hi
    obtain ⟨hlt, hd⟩ := hq.msgMd i hi d (q.msgMd i ▸ hmd)
    have hi2 : LiveMsg ni2 i := by simpa [LiveMsg, (releaseMd_rest hr).msgPool] using hi
    exact ((hq.releaseMd hlt hd hr).libMsgFree hi2).1

end Wf

theorem Reachable.wf {ok : LibNi → Call → Prop} (h : Reachable ok ni) : Wf ni := by
  induction h with
  | init => exact libInit_wf ..
  | step _ hen _ hs ih => exact ih.of_action hen (step_action hs)

end Cplant.Portals
