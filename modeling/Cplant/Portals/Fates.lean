import Mathlib.Data.Finset.Card
import Cplant.Portals.Wellformed

/-!
# One descriptor at a time

Most of what is true of a descriptor follows from what single calls do to its slot in the
table and to the messages on it. `Fate` is the list of these changes, and `Action.fate`
says that there are no others.
-/
namespace Cplant.Portals
open FreeList LibNi Finset Option
open Function

def msgsOn (ni : LibNi) (d : ℕ) : Finset ℕ :=
  (range maxMsgs).filter fun i => ni.msgPool.InUse i ∧ (ni.msg i).md = some d

theorem mem_msgsOn {ni : LibNi} {d i : ℕ} :
    i ∈ msgsOn ni d ↔ LiveMsg ni i ∧ (ni.msg i).md = some d := by
  simp [msgsOn, LiveMsg, and_assoc]

def chargedMd (md : LibMd) (length : PtlSize) : LibMd := { md with offset := md.offset + length }

def doneMd (md : LibMd) : LibMd := { md with pending := md.pending - 1 }

def Call.Unlinks (ni : LibNi) (d : ℕ) : Call → Prop
  | .mdUnlink mdIn => handleIndex mdIn = d
  | .meUnlink currentIn => (ni.md d).me = some (handleIndex currentIn)
  | _ => False

inductive Fate (ni : LibNi) (c : Call) (ni' : LibNi) (d : ℕ) : Prop
  | kept (hlive : LiveMd ni' d ↔ LiveMd ni d) (hmsgs : msgsOn ni' d = msgsOn ni d)
      (hmd : ni'.md d = ni.md d)
  | born {md : PtlMd} {eq : Option ℕ} (key : ℤ) (u : PtlUnlink) (me : Option ℕ)
      (hdead : ¬ LiveMd ni d) (hlive : LiveMd ni' d) (hmsgs : msgsOn ni' d = msgsOn ni d)
      (heq : mdBuildEq ni md.eventq = some (some eq))
      (hmd : ni'.md d = { newMd md eq key with unlink := u, me })
  | updated {h testqIn : PtlHandle} {old : Bool} {new : PtlMd} {seq : PtlSeq} {eq : Option ℕ}
      (key : ℤ) (hc : c = .mdUpdate h old (some new) testqIn seq) (hd : handleIndex h = d)
      (hlive : LiveMd ni d) (hlive' : LiveMd ni' d) (hmsgs : msgsOn ni' d = msgsOn ni d)
      (heq : mdUpdateEq ni new.eventq = some eq)
      (hmd : ni'.md d = updatedMd (ni.md d) new eq key)
  | charged {hdr : PtlHdr} {req : MdRequest} {found : MdFound} (hc : c = .parse hdr)
      (hreq : hdr.request = some req)
      (hfound : libFindMd ni req = some (some (found, ni.charge found))) (hd : found.md = d)
      (hfull : ni.msgPool.alloc = none) (hlive : LiveMd ni d) (hlive' : LiveMd ni' d)
      (hmsgs : msgsOn ni' d = msgsOn ni d) (hmd : ni'.md d = chargedMd (ni.md d) found.length)
  | requested {hdr : PtlHdr} {req : MdRequest} {found : MdFound} {i : ℕ} (hc : c = .parse hdr)
      (hreq : hdr.request = some req)
      (hfound : libFindMd ni req = some (some (found, ni.charge found))) (hd : found.md = d)
      (hnew : i ∉ msgsOn ni d) (hlive : LiveMd ni d) (hlive' : LiveMd ni' d)
      (hmsgs : msgsOn ni' d = insert i (msgsOn ni d))
      (hmd : ni'.md d = heldMd (chargedMd (ni.md d) found.length) true)
  | used {i : ℕ} (hown : c.ownMd = some d) (hnew : i ∉ msgsOn ni d) (hlive : LiveMd ni d)
      (hlive' : LiveMd ni' d) (hmsgs : msgsOn ni' d = insert i (msgsOn ni d))
      (hactive : (ni.md d).threshold ≠ 0) (hmd : ni'.md d = heldMd (ni.md d) false)
  | completed {i : ℕ} (hc : c = .finalize (some i)) (hi : i ∈ msgsOn ni d)
      (hlive : LiveMd ni' d ↔ LiveMd ni d) (hmsgs : msgsOn ni' d = (msgsOn ni d).erase i)
      (hstay : ¬ ((ni.md d).pending - 1 = 0 ∧ (ni.md d).doUnlink = true))
      (hmd : ni'.md d = doneMd (ni.md d))
  | released {i : ℕ} (hc : c = .finalize (some i)) (hi : i ∈ msgsOn ni d)
      (hdead : ¬ LiveMd ni' d) (hmsgs : msgsOn ni' d = (msgsOn ni d).erase i)
      (hidle : (ni.md d).pending - 1 = 0) (hmark : (ni.md d).doUnlink = true)
      (hmd : ni'.md d = { doneMd (ni.md d) with me := none })
  | unlinked (hc : c.Unlinks ni d) (hlive : LiveMd ni d) (hdead : ¬ LiveMd ni' d)
      (hmsgs : msgsOn ni' d = msgsOn ni d) (hmd : ni'.md d = { ni.md d with me := none })

variable {ni ni' : LibNi} {c : Call} {md : PtlMd} {r : NalReply} {new d m i : ℕ}
  {calls : List NalCall} {checkOffset : Bool}

theorem msgsOn_congr (hpool : ni'.msgPool = ni.msgPool)
    (hmsg : ∀ i, (ni'.msg i).md = (ni.msg i).md) (d : ℕ) : msgsOn ni' d = msgsOn ni d := by
  simp [msgsOn, hpool, hmsg]

theorem libMdBuild_eq (hb : libMdBuild ni md r = some (.ok new ni' calls)) :
    ∃ eq, mdBuildEq ni md.eventq = some (some eq) ∧ ni'.md new = newMd md eq r.addrkey := by
  obtain ⟨eq, pool, heq, -, rfl⟩ := libMdBuild_ok hb
  exact ⟨eq, heq, by simp⟩

theorem libMdBuild_frame (hb : libMdBuild ni md r = some (.ok new ni' calls)) :
    (ni'.up = ni.up ∧ ni'.src = ni.src) ∧ ni'.eqPool = ni.eqPool ∧ ni'.eq = ni.eq := by
  obtain ⟨eq, pool, -, -, rfl⟩ := libMdBuild_ok hb
  exact ⟨⟨rfl, rfl⟩, rfl, rfl⟩

theorem Fate.of_build {mid : LibNi} {u : PtlUnlink} {me : Option ℕ} {l : Links ℕ} (hw : Wf ni)
    (hb : libMdBuild ni md r = some (.ok new mid calls)) (d : ℕ) : Fate ni c { mid with
      mdLinks := l, md := update mid.md new { mid.md new with unlink := u, me } } d := by
  have hs := libMdBuild_spec hb
  have hlive := alloc_live hw.mdPool hs.alloc
  have hmsgs : ∀ d, msgsOn mid d = msgsOn ni d :=
    msgsOn_congr hs.msgPool (fun i => by rw [hs.msg])
  by_cases hd : d = new
  · subst hd
    obtain ⟨eq, heq, hnew⟩ := libMdBuild_eq hb
    refine .born r.addrkey u me (hs.fresh hw) ((hlive d).mpr (.inl rfl)) (hmsgs d) heq ?_
    simp [hnew]
  · refine .kept ((hlive d).trans (or_iff_right hd)) (hmsgs d) ?_
    simp [hd, hs.md d hd]

theorem Fate.of_libMdUnlink (hw : Wf ni) (hd : LiveMd ni d) (hc : c.Unlinks ni d) (d' : ℕ) :
    Fate ni c (libMdUnlink ni d) d' := by
  have hlive := (hw.libMdUnlink hd).2
  by_cases hd' : d' = d
  · subst hd'
    refine .unlinked hc hd (fun h => ((hlive d').mp h).2 rfl) rfl ?_
    simp [libMdUnlink]
  · refine .kept ((hlive d').trans (and_iff_left hd')) rfl ?_
    simp [libMdUnlink, hd']

theorem Fate.finalize_of_dead (hf : Fate ni c ni' d) (hlive : LiveMd ni d) (hdead : ¬ LiveMd ni' d)
    (hc : ¬ c.Unlinks ni d) :
    ∃ i, c = .finalize (some i) ∧ i ∈ msgsOn ni d ∧ (ni.md d).pending - 1 = 0 ∧
      (ni.md d).doUnlink = true := by
  cases hf with
  | kept hiff => exact absurd (hiff.mpr hlive) hdead
  | born key u me hnot => exact absurd hlive hnot
  | updated key hc hidx hl hlive' | charged hc hreq hfound hidx hfull hl hlive'
  | requested hc hreq hfound hidx hnew hl hlive' | used hown hnew hl hlive' =>
    exact absurd hlive' hdead
  | completed hc hi hiff => exact absurd (hiff.mpr hlive) hdead
  | @released i hc hi hnot hmsgs hidle hmark => exact ⟨i, hc, hi, hidle, hmark⟩
  | unlinked hun => exact absurd hun hc

def Leaves (ni : LibNi) (m : ℕ) (n : LibNi) : Prop :=
  ∀ d, (LiveMd n d ↔ LiveMd ni d) ∧ n.md d = ni.md d ∨
    LiveMd ni d ∧ ¬ LiveMd n d ∧ (ni.md d).me = some m ∧ n.md d = { ni.md d with me := none }

theorem Leaves.libMdUnlink {n : LibNi} (h : Leaves ni m n) (hw : Wf n) (hi : LiveMd n i)
    (hown : (n.md i).me = some m) : Leaves ni m (libMdUnlink n i) := by
  have hlive := (hw.libMdUnlink hi).2
  intro d
  by_cases hd : d = i
  · subst hd
    rcases h d with ⟨hiff, hmd⟩ | ⟨-, hdead, -⟩
    · refine .inr ⟨hiff.mp hi, fun hl => ((hlive d).mp hl).2 rfl, hmd ▸ hown, ?_⟩
      simp [Portals.libMdUnlink, hmd]
    · exact absurd hi hdead
  · have hmd : (Portals.libMdUnlink n i).md d = n.md d := by simp [Portals.libMdUnlink, hd]
    rw [hlive d, and_iff_left hd, hmd]
    exact h d

theorem libMeUnlink_leaves (hw : Wf ni) (hm : LiveMe ni m)
    (hun : libMeUnlink ni m = some (ni', calls)) : Leaves ni m ni' := by
  obtain ⟨mid, hloop, rfl⟩ := libMeUnlink_spec hun
  have hstart : Wf ni ∧ LiveMe ni m ∧ Leaves ni m ni := ⟨hw, hm, fun _ => .inl ⟨Iff.rfl, rfl⟩⟩
  refine (libMeUnlinkMds_induct (fun n => Wf n ∧ LiveMe n m ∧ Leaves ni m n) ?_ hstart hloop).1.2.2
  rintro n i ⟨hwn, hmn, hleaves⟩ hhead
  obtain ⟨hi, hown⟩ := hwn.mdLinked.own_of_head hmn hhead
  exact ⟨(hwn.libMdUnlink hi).1, hmn, hleaves.libMdUnlink hwn hi hown⟩

theorem Starts.live {d' : ℕ} (h : Starts ni i d checkOffset ni') :
    LiveMd ni' d' ↔ LiveMd ni d' := by
  simp [LiveMd, h.mdPool]

theorem Starts.msgsOn (hw : Wf ni) (h : Starts ni i d checkOffset ni') (d' : ℕ) : i ∉ msgsOn ni d' ∧
      Portals.msgsOn ni' d' = if d' = d then insert i (msgsOn ni d') else msgsOn ni d' := by
  have hfresh : ¬ LiveMsg ni i := fun hi => (alloc_spec hw.msgPool h.alloc).2.1 hi.2
  have hlive : ∀ j, LiveMsg ni' j ↔ j = i ∨ LiveMsg ni j := alloc_live hw.msgPool h.alloc
  refine ⟨fun hi => hfresh (mem_msgsOn.mp hi).1, ext fun j => ?_⟩
  rw [mem_msgsOn, hlive]
  by_cases hj : j = i
  · subst hj
    by_cases hd : d' = d
    · simp [h.msgMd, hd]
    · simp [mem_msgsOn, h.msgMd, hfresh, hd, Ne.symm hd]
  · split_ifs with hd <;> simp [mem_msgsOn, h.msg j hj, hj]

theorem releaseMd_cases (hw : Wf ni) (hlt : d < maxMds) (hr : releaseMd ni d = some (ni', calls)) :
    (¬ ((ni.md d).pending - 1 = 0 ∧ (ni.md d).doUnlink = true) ∧
        ni' = ni.setMd d (doneMd (ni.md d))) ∨
      ((ni.md d).pending - 1 = 0 ∧ (ni.md d).doUnlink = true ∧
        (∀ d', LiveMd ni' d' ↔ LiveMd ni d' ∧ d' ≠ d) ∧
        ni'.md = update ni.md d { doneMd (ni.md d) with me := none }) := by
  have hlive : ∀ d', d' < maxMds ∧ (ni.mdPool.release d).InUse d' ↔ LiveMd ni d' ∧ d' ≠ d := by
    intro d'
    by_cases hd : ni.mdPool.InUse d
    · exact release_live hw.mdPool hlt hd d'
    · have hsame : ni.mdPool.release d = ni.mdPool := if_neg hd
      rw [hsame]
      exact ⟨fun h => ⟨h, fun heq => hd (heq ▸ h.2)⟩, fun h => h.1⟩
  have hmd : (libMdUnlink (ni.setMd d (doneMd (ni.md d))) d).md =
      update ni.md d { doneMd (ni.md d) with me := none } := by
    simp [libMdUnlink, setMd]
  cases releaseMd_spec hr with
  | kept h => exact .inl ⟨by simpa [setMd] using h, rfl⟩
  | unlinked h =>
    simp only [setMd, update_self] at h
    exact .inr ⟨h.1, h.2, hlive, hmd⟩
  | emptied h _ hlast hun =>
    simp only [setMd, update_self] at h
    obtain ⟨mid, hloop, rfl⟩ := libMeUnlink_spec hun
    simp only [maxMds, libMeUnlinkMds, hlast.1, some.injEq, Prod.mk.injEq] at hloop
    obtain ⟨rfl, -⟩ := hloop
    exact .inr ⟨h.1, h.2, hlive, hmd⟩

theorem msgsOn_libMsgFree (hw : Wf ni) (hi : LiveMsg ni i) (hmd : (ni.msg i).md = some d)
    (hpool : ni'.msgPool = ni.msgPool) (hmsg : ∀ j, (ni'.msg j).md = (ni.msg j).md) (d' : ℕ) :
    msgsOn (libMsgFree ni' i) d' = if d' = d then (msgsOn ni d').erase i else msgsOn ni d' := by
  have hlive : ∀ j, LiveMsg (libMsgFree ni' i) j ↔ LiveMsg ni j ∧ j ≠ i := fun j => by
    simpa [LiveMsg, libMsgFree, hpool] using release_live hw.msgPool hi.1 hi.2 j
  refine ext fun j => ?_
  rw [mem_msgsOn, hlive, show (libMsgFree ni' i).msg j = ni'.msg j from rfl, hmsg]
  by_cases hj : j = i
  · subst hj
    by_cases hd : d' = d
    · simp [hd]
    · simp [mem_msgsOn, hmd, hd, Ne.symm hd]
  · split_ifs with hd <;> simp [mem_msgsOn, hj]

theorem Action.fate (hw : Wf ni) (hen : Enabled ni c) (ha : Action ni c ni') (d : ℕ) :
    Fate ni c ni' d := by
  cases ha with
  | rejected counters | eqAlloc halloc | eqFree hlive => exact .kept Iff.rfl rfl rfl
  | meAttach hk hempty halloc | meInsert hlive halloc =>
    obtain ⟨p, -, hmid⟩ := map_eq_some_iff.mp halloc
    cases hmid
    exact .kept Iff.rfl rfl rfl
  | meUnlink hlive hun =>
    obtain ⟨-, -, -, -, hpool, hmsg, -⟩ := libMeUnlink_rest hun
    have hmsgs := msgsOn_congr hpool (fun i => by rw [hmsg]) d
    rcases libMeUnlink_leaves hw hlive hun d with ⟨hiff, hmd⟩ | ⟨hd, hdead, hown, hmd⟩
    · exact .kept hiff hmsgs hmd
    · exact .unlinked hown hd hdead hmsgs hmd
  | mdAttach hlive hempty hbuild | mdInsert hlive hbuild => exact .of_build hw hbuild d
  | @mdBind niIn md r new _ calls hbuild =>
    have h : Fate ni (.mdBind niIn md) { ni' with
        mdLinks := ni'.mdLinks
        md := update ni'.md new (ni'.md new) } d := .of_build hw hbuild d
    rwa [update_eq_self] at h
  | @mdUnlink mdIn hlive =>
    have hc : Call.Unlinks ni (handleIndex mdIn) (.mdUnlink mdIn) := rfl
    exact .of_libMdUnlink hw hlive hc d
  | @mdUpdate h _ _ _ _ _ eq key hlive htestq hready heq =>
    by_cases hd : d = handleIndex h
    · subst hd
      exact .updated key rfl rfl hlive hlive rfl heq (by simp [setMd])
    · exact .kept Iff.rfl rfl (by simp [setMd, hd])
  | @granted hdr req found hreq hfound hfull =>
    by_cases hd : d = found.md
    · subst hd
      have hlive := hw.found_live hfound
      exact .charged rfl hreq hfound rfl hfull hlive hlive rfl
        (by simp [charge, setMd, chargedMd])
    · exact .kept Iff.rfl rfl (by simp [charge, setMd, hd])
  | @grantedHeld hdr req found i _ hreq hfound hstart hreturn =>
    have hlive : LiveMd ni' d ↔ LiveMd ni d := hstart.live
    have hcharge : Wf (ni.charge found) := hw.of_setMd rfl
    obtain ⟨hnew, hmsgs⟩ := hstart.msgsOn hcharge d
    by_cases hd : d = found.md
    · subst hd
      rw [if_pos rfl] at hmsgs
      have hfl := hw.found_live hfound
      refine .requested rfl hreq hfound rfl hnew hfl (hlive.mpr hfl) hmsgs ?_
      simp [hstart.md, charge, setMd, chargedMd]
    · rw [if_neg hd] at hmsgs
      refine .kept hlive hmsgs ?_
      simp [hstart.md, charge, setMd, hd]
  | @held _ d1 i _ hown hlive hactive hstart hreturn =>
    obtain ⟨hnew, hmsgs⟩ := hstart.msgsOn hw d
    by_cases hd : d = d1
    · subst hd
      rw [if_pos rfl] at hmsgs
      refine .used hown hnew hlive (hstart.live.mpr hlive) hmsgs hactive ?_
      simp [hstart.md]
    · rw [if_neg hd] at hmsgs
      refine .kept hstart.live hmsgs ?_
      simp [hstart.md, hd]
  | @notWritten i d1 e hmd heq =>
    have hquiet := stampEvent_quiet ni i e
    exact .kept Iff.rfl (msgsOn_congr hquiet.msgPool hquiet.msgMd d) rfl
  | @finalize i d1 ni2 calls hmd hr =>
    have hposted := posted_quiet ni i d1
    have hlive : ∀ d, LiveMd (ni.posted i d1) d ↔ LiveMd ni d := fun d => by
      simp [LiveMd, hposted.mdPool]
    have hlt : d1 < maxMds := (hw.msgMd i hen d1 hmd).1
    obtain ⟨-, -, -, -, hpool, hmsg, -⟩ := releaseMd_rest hr
    have hmsgs := msgsOn_libMsgFree hw hen hmd (hpool.trans hposted.msgPool)
      (fun j => by rw [hmsg, hposted.msgMd]) d
    have hcases := releaseMd_cases (hw.of_quiet hposted) hlt hr
    rw [hposted.md] at hcases
    by_cases hd : d = d1
    · subst hd
      rw [if_pos rfl] at hmsgs
      have hi : i ∈ msgsOn ni d := mem_msgsOn.mpr ⟨hen, hmd⟩
      rcases hcases with ⟨hstay, rfl⟩ | ⟨hidle, hmark, hiff, hmd'⟩
      · refine .completed rfl hi (hlive d) hmsgs hstay ?_
        simp [libMsgFree, setMd]
      · refine .released rfl hi (fun h => ((hiff d).mp h).2 rfl) hmsgs hidle hmark ?_
        simp [libMsgFree, hmd']
    · rw [if_neg hd] at hmsgs
      rcases hcases with ⟨hstay, rfl⟩ | ⟨hidle, hmark, hiff, hmd'⟩
      · refine .kept (hlive d) hmsgs ?_
        simp [libMsgFree, setMd, hposted.md, hd]
      · refine .kept ((hiff d).trans ((and_iff_left hd).trans (hlive d))) hmsgs ?_
        simp [libMsgFree, hmd', hd]

theorem posted_host (ni : LibNi) (i d : ℕ) :
    (ni.posted i d).up = ni.up ∧ (ni.posted i d).src = ni.src := by
  unfold posted
  split <;> exact ⟨rfl, rfl⟩

theorem Action.host (h : Action ni c ni') : ni'.up = ni.up ∧ ni'.src = ni.src := by
  cases h with
  | meAttach hk hempty halloc | meInsert hlive halloc =>
    obtain ⟨p, -, hmid⟩ := map_eq_some_iff.mp halloc
    cases hmid
    exact ⟨rfl, rfl⟩
  | meUnlink hlive hun => exact ⟨(libMeUnlink_rest hun).up, (libMeUnlink_rest hun).src⟩
  | mdAttach hlive hempty hbuild | mdInsert hlive hbuild | mdBind hbuild =>
    exact (libMdBuild_frame hbuild).1
  | grantedHeld hreq hfound hstart | held hown hlive hactive hstart => exact ⟨hstart.up, hstart.src⟩
  | @finalize i d _ _ hmd hrelease =>
    obtain ⟨hup, hsrc, -⟩ := releaseMd_rest hrelease
    obtain ⟨hup', hsrc'⟩ := posted_host ni i d
    exact ⟨hup.trans hup', hsrc.trans hsrc'⟩
  | _ => exact ⟨rfl, rfl⟩

theorem Reachable.up {ok : LibNi → Call → Prop} (h : Reachable ok ni) : ni.up = true := by
  induction h with
  | init => rfl
  | step h hen hok hs ih => exact (step_action hs).host.1.trans ih

end Cplant.Portals
