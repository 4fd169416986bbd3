import Cplant.Foundations.LinkedLists
import Cplant.Portals.Accounting

/-!
# Match lists and descriptor lists

The links of an interface, read as lists: a match list for every portal index, a
descriptor list for every match entry, and the chains of descriptors bound to none.
In every run each object is in one place, and each call changes the lists as its
name says; the lists it does not name stay as they are.
-/
namespace Cplant.Portals
open Links FreeList LibNi Function List
open Links (WellLinked Agree)

structure Lists where
  mes : Shelf PtlPtIndex
  mds : Shelf ℕ

def LibNi.lists (ni : LibNi) : Lists where
  mes := Links.shelf (fun k => 0 ≤ k ∧ k < ni.tblSize) (LiveMe ni) ni.meLinks
  mds := Links.shelf (LiveMe ni) (LiveMd ni) ni.mdLinks

/-- Each of `n` objects is on the free list or on just one of the lists `S`, and there once. -/
structure Filed {κ : Type*} (n : ℕ) (pool : FreeList) (S : Shelf κ) : Prop where
  free : ∃ free, FreeList.Threads pool.next pool.head free ∧ free.Nodup ∧
    ∀ i, i ∈ free ↔ i < n ∧ ∀ o ids, S o ids → i ∉ ids
  lt : ∀ {o ids i}, S o ids → i ∈ ids → i < n
  nodup : ∀ {o ids}, S o ids → ids.Nodup
  unique : ∀ {o o' ids ids' i}, S o ids → S o' ids' → i ∈ ids → i ∈ ids' → o = o' ∧ ids = ids'

theorem WellLinked.filed {κ : Type*} {n : ℕ} {pool : FreeList} {H : κ → Prop} {L : ℕ → Prop}
    {own : ℕ → Option κ} {l : Links κ} (w : WellLinked H L own l) (hpool : pool.Valid n)
    (hL : ∀ i, L i ↔ i < n ∧ pool.InUse i) : Filed n pool (shelf H L l) where
  free := by
    obtain ⟨free, hthreads, hnd, hmem⟩ := hpool
    refine ⟨free, hthreads, hnd, fun i => (hmem i).trans (and_congr_right fun hi => ?_)⟩
    constructor
    · intro hfree o ids hs hin
      exact hfree ((hL i).mp (w.shelf_live hs i hin)).2
    · intro hno huse
      obtain ⟨ids, hs, hin⟩ := w.exists_list (fun j hj => ((hL j).mp hj).1) ((hL i).mpr ⟨hi, huse⟩)
      exact hno _ ids hs hin
  lt hs hi := ((hL _).mp (w.shelf_live hs _ hi)).1
  nodup hs := w.shelf_nodup hs
  unique hs hs' hi hi' := w.shelf_unique hs hs' hi hi'

def Shelf.insert {κ : Type*} (S : Shelf κ) (pos : PtlInsPos) (obj new : ℕ) : Shelf κ :=
  match pos with
  | .after => S.insertAfter obj new
  | .before => S.insertBefore obj new

def Call.Relists : Call → Prop
  | .meAttach .. | .meInsert .. | .meUnlink .. => True
  | .mdAttach .. | .mdInsert .. | .mdBind .. | .mdUnlink .. => True
  | _ => False

inductive Relisted (ni : LibNi) : Call → Int32 → Lists → Prop
  | same {c : Call} {rc : Int32} (hfail : c.Relists → rc ≠ ptlOk) : Relisted ni c rc ni.lists
  | meAttach {h : PtlHandle} {k : PtlPtIndex} {me : LibMe} {new : ℕ}
      (hempty : ni.lists.mes (some k) []) (hlt : new < maxMes) (hnew : ¬ LiveMe ni new) :
      Relisted ni (.meAttach h k me) ptlOk ⟨ni.lists.mes.put k new, ni.lists.mds.grow new⟩
  | meInsert {h : PtlHandle} {me : LibMe} {pos : PtlInsPos} {new : ℕ}
      (hlive : LiveMe ni (handleIndex h)) (hlt : new < maxMes) (hnew : ¬ LiveMe ni new) :
      Relisted ni (.meInsert h me pos) ptlOk
        ⟨Shelf.insert ni.lists.mes pos (handleIndex h) new, ni.lists.mds.grow new⟩
  | meUnlink {h : PtlHandle} (hlive : LiveMe ni (handleIndex h)) :
      Relisted ni (.meUnlink h) ptlOk
        ⟨ni.lists.mes.remove (handleIndex h), ni.lists.mds.drop (handleIndex h)⟩
  | mdAttach {h : PtlHandle} {md : PtlMd} {u : PtlUnlink} {new : ℕ}
      (hempty : ni.lists.mds (some (handleIndex h)) []) (hlt : new < maxMds)
      (hnew : ¬ LiveMd ni new) :
      Relisted ni (.mdAttach h md u) ptlOk
        ⟨ni.lists.mes, ni.lists.mds.put (handleIndex h) new⟩
  | mdInsert {h : PtlHandle} {md : PtlMd} {u : PtlUnlink} {pos : PtlInsPos} {new : ℕ}
      (hlive : LiveMd ni (handleIndex h)) (hlt : new < maxMds) (hnew : ¬ LiveMd ni new) :
      Relisted ni (.mdInsert h md u pos) ptlOk
        ⟨ni.lists.mes, Shelf.insert ni.lists.mds pos (handleIndex h) new⟩
  | mdBind {h : PtlHandle} {md : PtlMd} {new : ℕ} (hlt : new < maxMds) (hnew : ¬ LiveMd ni new) :
      Relisted ni (.mdBind h md) ptlOk ⟨ni.lists.mes, ni.lists.mds.add new⟩
  | mdUnlink {h : PtlHandle} (hlive : LiveMd ni (handleIndex h)) :
      Relisted ni (.mdUnlink h) ptlOk ⟨ni.lists.mes, ni.lists.mds.remove (handleIndex h)⟩
  | mdDone {i d : ℕ} {rc : Int32} (hmd : (ni.msg i).md = some d) (hlive : LiveMd ni d) :
      Relisted ni (.finalize (some i)) rc ⟨ni.lists.mes, ni.lists.mds.remove d⟩
  | meDone {i d m : ℕ} {rc : Int32} (hmd : (ni.msg i).md = some d)
      (hlast : ni.lists.mds (some m) [d]) :
      Relisted ni (.finalize (some i)) rc ⟨ni.lists.mes.remove m, ni.lists.mds.drop m⟩

variable {new d m : ℕ} {o : Outcome} {pos : PtlInsPos} {u : PtlUnlink} {ni ni' mid : LibNi}
  {me : LibMe} {md : PtlMd} {calls : List NalCall} {hdl : PtlHandle} {r : NalReply} {c : Call}

theorem lists_congr (htbl : ni'.tblSize = ni.tblSize) (hme : ni'.mePool = ni.mePool)
    (hmd : ni'.mdPool = ni.mdPool) (hmel : ni'.meLinks = ni.meLinks)
    (hmdl : ni'.mdLinks = ni.mdLinks) : ni'.lists = ni.lists := by
  have hLme : LiveMe ni' = LiveMe ni := by
    funext m
    simp [LiveMe, hme]
  have hLmd : LiveMd ni' = LiveMd ni := by
    funext d
    simp [LiveMd, hmd]
  simp [lists, htbl, hmel, hmdl, hLme, hLmd]

theorem Quiet.lists (q : Quiet ni ni') : ni'.lists = ni.lists :=
  lists_congr q.tblSize q.mePool q.mdPool q.meLinks q.mdLinks

section
variable (h : Wf ni)
include h

namespace Wf

theorem newMe_lists (ha : allocMe ni me = some (new, mid)) (l : Links PtlPtIndex) :
    new < maxMes ∧ ¬ LiveMe ni new ∧ { mid with meLinks := l }.lists =
      ⟨shelf (fun k => 0 ≤ k ∧ k < ni.tblSize) (fun j => j = new ∨ LiveMe ni j) l,
        ni.lists.mds.grow new⟩ := by
  obtain ⟨⟨i, pool⟩, hp, hmid⟩ := Option.map_eq_some_iff.mp ha
  cases hmid
  obtain ⟨hlt, hfree, -⟩ := alloc_spec h.mePool hp
  have hdead : ¬ LiveMe ni new := fun hm => hfree hm.2
  have hlive : (fun m => m < maxMes ∧ pool.InUse m) = fun j => j = new ∨ LiveMe ni j :=
    funext fun j => propext (alloc_live h.mePool hp j)
  refine ⟨hlt, hdead, ?_⟩
  have hgrow := h.mdLinked.shelf_addHead (fun _ hd => hd.1) hdead
  simp only [lists, Lists.mk.injEq]
  refine ⟨congrArg (fun L => shelf _ L l) hlive, ?_⟩
  exact (congrArg (fun H => shelf H (LiveMd ni) _) hlive).trans hgrow

theorem newMd_lists (hb : MdBuilt ni md new mid) (l : Links ℕ) (f : ℕ → LibMd) :
    new < maxMds ∧ { mid with mdLinks := l, md := f }.lists =
      ⟨ni.lists.mes, shelf (LiveMe ni) (fun j => j = new ∨ LiveMd ni j) l⟩ := by
  have hlive : (fun d => d < maxMds ∧ mid.mdPool.InUse d) = fun j => j = new ∨ LiveMd ni j :=
    funext fun j => propext (alloc_live h.mdPool hb.alloc j)
  have hLme : (fun m => m < maxMes ∧ mid.mePool.InUse m) = LiveMe ni := by
    funext m
    rw [hb.mePool]
    rfl
  refine ⟨(alloc_spec h.mdPool hb.alloc).1, ?_⟩
  simp only [lists, Lists.mk.injEq, hb.tblSize, hb.meLinks]
  refine ⟨congrArg (fun L => shelf _ L ni.meLinks) hLme, ?_⟩
  calc shelf (fun m => m < maxMes ∧ mid.mePool.InUse m)
        (fun d => d < maxMds ∧ mid.mdPool.InUse d) l
      = shelf (LiveMe ni) (fun d => d < maxMds ∧ mid.mdPool.InUse d) l := by rw [hLme]
    _ = shelf (LiveMe ni) (fun j => j = new ∨ LiveMd ni j) l := by rw [hlive]

theorem libMdUnlink_lists (hd : LiveMd ni d) :
    (Portals.libMdUnlink ni d).lists = ⟨ni.lists.mes, ni.lists.mds.remove d⟩ := by
  have hlive : LiveMd (Portals.libMdUnlink ni d) = fun j => LiveMd ni j ∧ j ≠ d :=
    funext fun j => propext ((h.libMdUnlink hd).2 j)
  have hremove := h.mdLinked.shelf_unlink (fun _ hj => hj.1) hd
  simp only [lists, Lists.mk.injEq]
  exact ⟨rfl, (congrArg (fun L => shelf _ L _) hlive).trans hremove⟩

theorem remove_elsewhere {o o' : Option ℕ} {ids : List ℕ} (hs : ni.lists.mds o ids)
    (hd : d ∈ ids) (ho : o' ≠ o) : ni.lists.mds.remove d o' = ni.lists.mds o' :=
  Shelf.remove_of_not_mem (fun hnone => hnone ▸ not_shelf_none_nil (H := LiveMe ni))
    fun _ hs' hd' => ho (h.mdLinked.shelf_unique hs' hs hd' hd).1

theorem libMeUnlinkMds_lists {fuel : ℕ} (hm : LiveMe ni m)
    (hloop : libMeUnlinkMds fuel ni m = some (mid, calls)) :
    Wf mid ∧ mid.tblSize = ni.tblSize ∧ mid.mePool = ni.mePool ∧ mid.mdLinks.head m = none ∧
      ∀ o, o ≠ some m → mid.lists.mds o = ni.lists.mds o := by
  obtain ⟨⟨hw, htbl, hpool, hmds⟩, hempty⟩ := libMeUnlinkMds_induct
    (fun n => Wf n ∧ n.tblSize = ni.tblSize ∧ n.mePool = ni.mePool ∧
      ∀ o, o ≠ some m → n.lists.mds o = ni.lists.mds o)
    (fun n i hn hi => by
      obtain ⟨hw, htbl, hpool, hmds⟩ := hn
      have hmn : LiveMe n m := by simpa [LiveMe, hpool] using hm
      obtain ⟨hlive, hown⟩ := hw.mdLinked.own_of_head hmn hi
      obtain ⟨ids, hs, hin⟩ := hw.mdLinked.exists_list (fun _ hj => hj.1) hlive
      have hs : n.lists.mds (some m) ids := hown ▸ hs
      refine ⟨(hw.libMdUnlink hlive).1, htbl, hpool, fun o ho => ?_⟩
      rw [hw.libMdUnlink_lists hlive]
      exact (hw.remove_elsewhere hs hin ho).trans (hmds o ho))
    ⟨h, rfl, rfl, fun _ _ => rfl⟩ hloop
  exact ⟨hw, htbl, hpool, hempty, hmds⟩

theorem libMeUnlink_lists (hm : LiveMe ni m) (hun : Portals.libMeUnlink ni m = some (ni', calls))
    : ni'.lists = ⟨ni.lists.mes.remove m, ni.lists.mds.drop m⟩ := by
  obtain ⟨mid, hloop, rfl⟩ := libMeUnlink_spec hun
  obtain ⟨hw, htbl, hpool, hempty, hmds⟩ := h.libMeUnlinkMds_lists hm hloop
  obtain ⟨own, how⟩ := h.meLinked
  have hremove := how.shelf_unlink (fun _ hj => hj.1) hm
  have hdrop := hw.mdLinked.shelf_dropHead (fun _ hj => hj.1) hempty
  have hlive : (fun j => j < maxMes ∧ (mid.mePool.release m).InUse j) =
      fun j => LiveMe ni j ∧ j ≠ m := by
    rw [hpool]
    exact funext fun j => propext (release_live h.mePool hm.1 hm.2 j)
  have hLme : LiveMe mid = LiveMe ni := by
    funext j
    simp [LiveMe, hpool]
  rw [hLme] at hdrop
  simp only [lists, Lists.mk.injEq, htbl]
  refine ⟨(congrArg (fun L => shelf _ L _) hlive).trans hremove, ?_⟩
  refine (congrArg (fun H => shelf H (LiveMd mid) _) hlive).trans (hdrop.trans ?_)
  refine Shelf.drop_congr fun o ho => ?_
  have hother := hmds o ho
  simp only [lists, hLme] at hother
  exact hother

theorem meAttach_relisted {k : PtlPtIndex} (hs : doPtlMEAttach ni hdl k me = some o) :
    Relisted ni (.meAttach hdl k me) o.rc o.ni.lists := by
  obtain ⟨-, ⟨hrc, hni⟩ | ⟨hrc, new, mid, hk, hempty, ha, hni⟩⟩ := doPtlMEAttach_cases hs
  · exact hni ▸ .same fun _ => hrc
  obtain ⟨hlt, hdead, hlists⟩ := h.newMe_lists ha (mid.meLinks.attach k new)
  obtain ⟨own, hw⟩ := h.meLinked
  have hput := (hw.clear_dead hdead).shelf_attach (fun _ hj => hj.1) hk
    (by simpa [head_eq_get, get_clear] using hempty)
    (by simp [next_eq_get, get_clear]) hdead
  rw [hw.shelf_clear_dead (fun _ hj => hj.1) hdead] at hput
  rw [hrc, hni, hlists, allocMe_meLinks ha, hput]
  exact .meAttach ⟨hk, hempty⟩ hlt hdead

theorem meInsert_relisted (hs : doPtlMEInsert ni hdl me pos = some o) :
    Relisted ni (.meInsert hdl me pos) o.rc o.ni.lists := by
  obtain ⟨-, ⟨hrc, hni⟩ | ⟨hrc, new, mid, hlive, ha, hni⟩⟩ := doPtlMEInsert_cases hs
  · exact hni ▸ .same fun _ => hrc
  obtain ⟨hlt, hdead, hlists⟩ :=
    h.newMe_lists ha (libInsert mid.meLinks (handleIndex hdl) new pos)
  obtain ⟨own, hw⟩ := h.meLinked
  have hinsert : shelf (fun k => 0 ≤ k ∧ k < ni.tblSize) (fun j => j = new ∨ LiveMe ni j)
      (libInsert (ni.meLinks.clear new) (handleIndex hdl) new pos) =
        Shelf.insert ni.lists.mes pos (handleIndex hdl) new := by
    have hcut := hw.shelf_clear_dead (fun _ hj => hj.1) hdead
    cases pos with
    | before =>
      exact ((hw.clear_dead hdead).shelf_insertBefore (fun _ hj => hj.1) hlive hdead).trans
        (by rw [hcut]; rfl)
    | after =>
      exact ((hw.clear_dead hdead).shelf_insertAfter (fun _ hj => hj.1) hlive hdead).trans
        (by rw [hcut]; rfl)
  rw [hrc, hni, hlists, allocMe_meLinks ha, hinsert]
  exact .meInsert hlive hlt hdead

theorem mdAttach_relisted (hs : doPtlMDAttach ni hdl md u r = some o) :
    Relisted ni (.mdAttach hdl md u) o.rc o.ni.lists := by
  obtain ⟨hrc, hni, -⟩ | ⟨hrc, new, mid, hlive, hempty, hb, hni⟩ := doPtlMDAttach_cases hs
  · exact hni ▸ .same fun _ => hrc
  have hbuilt := libMdBuild_spec hb
  have hdead := hbuilt.fresh h
  have hput := (h.mdLinked.clear_dead hdead).shelf_attach (fun _ hj => hj.1) hlive
    (by simpa [head_eq_get, get_clear] using hempty)
    (by simp [next_eq_get, get_clear]) hdead
  rw [h.mdLinked.shelf_clear_dead (fun _ hj => hj.1) hdead] at hput
  obtain ⟨hlt, hlists⟩ := h.newMd_lists hbuilt (mid.mdLinks.attach (handleIndex hdl) new)
    (update mid.md new { mid.md new with unlink := u, me := some (handleIndex hdl) })
  rw [hrc, hni, hlists, hbuilt.mdLinks, hput]
  exact .mdAttach ⟨hlive, hempty⟩ hlt hdead

theorem mdInsert_relisted (hs : doPtlMDInsert ni hdl md u pos r = some o) :
    Relisted ni (.mdInsert hdl md u pos) o.rc o.ni.lists := by
  obtain ⟨hrc, hni, -⟩ | ⟨hrc, new, mid, hlive, hb, hni⟩ := doPtlMDInsert_cases hs
  · exact hni ▸ .same fun _ => hrc
  have hbuilt := libMdBuild_spec hb
  have hdead := hbuilt.fresh h
  have hinsert : shelf (LiveMe ni) (fun j => j = new ∨ LiveMd ni j)
      (libInsert (ni.mdLinks.clear new) (handleIndex hdl) new pos) =
        Shelf.insert ni.lists.mds pos (handleIndex hdl) new := by
    have hcut := h.mdLinked.shelf_clear_dead (fun _ hj => hj.1) hdead
    cases pos with
    | before =>
      exact ((h.mdLinked.clear_dead hdead).shelf_insertBefore (fun _ hj => hj.1) hlive
        hdead).trans (by rw [hcut]; rfl)
    | after =>
      exact ((h.mdLinked.clear_dead hdead).shelf_insertAfter (fun _ hj => hj.1) hlive
        hdead).trans (by rw [hcut]; rfl)
  obtain ⟨hlt, hlists⟩ := h.newMd_lists hbuilt (libInsert mid.mdLinks (handleIndex hdl) new pos)
    (update mid.md new
      { mid.md new with unlink := u, me := (mid.md (handleIndex hdl)).me })
  rw [hrc, hni, hlists, hbuilt.mdLinks, hinsert]
  exact .mdInsert hlive hlt hdead

theorem mdBind_relisted (hs : doPtlMDBind ni hdl md r = some o) :
    Relisted ni (.mdBind hdl md) o.rc o.ni.lists := by
  obtain ⟨hrc, hni, -⟩ | ⟨hrc, new, hb⟩ := doPtlMDBind_cases hs
  · exact hni ▸ .same fun _ => hrc
  · have hbuilt := libMdBuild_spec hb
    have hdead := hbuilt.fresh h
    obtain ⟨hlt, hlists⟩ := h.newMd_lists hbuilt o.ni.mdLinks o.ni.md
    have hadd := h.mdLinked.shelf_clear (fun _ hj => hj.1) hdead
    rw [hrc, hlists, hbuilt.mdLinks, hadd]
    exact .mdBind hlt hdead

theorem last_of_remove (hd : LiveMd ni d) (hm : (ni.md d).me = some m)
    (hempty : ni.lists.mds.remove d (some m) []) : ni.lists.mds (some m) [d] := by
  obtain ⟨ids, hs, hin⟩ := h.mdLinked.exists_list (fun _ hj => hj.1) hd
  rw [hm] at hs
  obtain ⟨-, old, hold, hfilter⟩ := hempty
  obtain rfl : old = ids := Links.Walk.unique hold.2 hs.2
  have hall : ∀ i ∈ old, i = d := by
    intro i hi
    by_contra hne
    have hmem : i ∈ old.filter fun i => i ≠ d := mem_filter.mpr ⟨hi, by simpa using hne⟩
    rw [← hfilter] at hmem
    cases hmem
  have hrep := eq_replicate_of_mem hall
  have hle : old.length ≤ 1 := nodup_replicate.mp (hrep ▸ h.mdLinked.shelf_nodup hs)
  have hpos := length_pos_of_mem hin
  rw [show old.length = 1 by omega] at hrep
  rwa [hrep] at hold

theorem releaseMd_lists (hlt : d < maxMds) (hd : LiveMd ni d ∨ Detached ni d)
    (hr : Portals.releaseMd ni d = some (ni', calls)) :
    ni'.lists = ni.lists ∨ LiveMd ni d ∧ ni'.lists = ⟨ni.lists.mes, ni.lists.mds.remove d⟩ ∨
      ∃ m, ni.lists.mds (some m) [d] ∧ ni'.lists = ⟨ni.lists.mes.remove m, ni.lists.mds.drop m⟩ := by
  set mid := ni.unhold d with hmid
  have hw : Wf mid := h.of_setMd rfl
  have hd' : LiveMd mid d ∨ Detached mid d := by
    refine hd.imp id fun hdet => ⟨hdet.1, hdet.2.1, ?_⟩
    simpa [hmid, setMd] using hdet.2.2
  have hsame : mid.lists = ni.lists := lists_congr rfl rfl rfl rfl rfl
  have hback : LiveMd mid d → LiveMd ni d := id
  rw [← hsame]
  have hcases := releaseMd_spec hr
  rw [← hmid] at hcases
  clear_value mid
  by_cases hl : LiveMd mid d
  · have hremove := hw.libMdUnlink_lists hl
    cases hcases with
    | kept => exact .inl rfl
    | unlinked => exact .inr (.inl ⟨hback hl, hremove⟩)
    | @emptied _ m _ _ hm hempty hun =>
      have hlive : LiveMe mid m := (hw.mdLinked.head_of_own hl hm).1
      have hnil : (Portals.libMdUnlink mid d).lists.mds (some m) [] := ⟨hlive, hempty.1⟩
      rw [hremove] at hnil
      have hlast := hw.last_of_remove hl hm hnil
      refine .inr (.inr ⟨m, hlast, ?_⟩)
      rw [(hw.libMdUnlink hl).1.libMeUnlink_lists hlive hun, hremove]
      simp only [Lists.mk.injEq, true_and]
      exact Shelf.drop_congr fun o ho => hw.remove_elsewhere hlast (by simp) ho
  · have hdet := hd'.resolve_left hl
    obtain ⟨hpool, hlinks⟩ := libMdUnlink_of_detached hlt hl hdet
    cases hcases with
    | kept => exact .inl rfl
    | unlinked => exact .inl (lists_congr rfl rfl hpool rfl hlinks)
    | emptied _ hm => simp [hdet.2.2] at hm

theorem finalize_relisted {msg : Option ℕ} (hen : Enabled ni (.finalize msg))
    (hs : libFinalize ni msg r = some o) : Relisted ni (.finalize msg) o.rc o.ni.lists := by
  have hact := (libFinalize_acts hs).action
  generalize o.ni = ni' at hact
  cases hact with
  | rejected counters => exact .same (fun hc => hc.elim)
  | held hown => cases hown
  | @notWritten i d e hmd heq =>
    exact .same (fun hc => hc.elim)
  | @finalize i d ni' calls hmd hrelease =>
    have hposted := posted_quiet ni i d
    have hw := h.of_quiet hposted
    obtain ⟨hlt, hd⟩ := h.msgMd i hen d hmd
    have hd' : LiveMd (ni.posted i d) d ∨ Detached (ni.posted i d) d := by
      simpa [LiveMd, Detached, hposted.mdPool, hposted.mdLinks, hposted.md] using hd
    have hfree : (Portals.libMsgFree ni' i).lists = ni'.lists := lists_congr rfl rfl rfl rfl rfl
    have hlists := hw.releaseMd_lists hlt hd' hrelease
    rw [hposted.lists] at hlists
    rw [hfree]
    obtain hlists | ⟨hl, hlists⟩ | ⟨m, hlast, hlists⟩ := hlists
    · rw [hlists]
      exact .same (fun hc => hc.elim)
    · rw [hlists]
      exact .mdDone hmd (by simpa [LiveMd, hposted.mdPool] using hl)
    · rw [hlists]
      exact .meDone hmd hlast

end Wf
end

theorem Action.lists (ha : Action ni c ni') (hc : ¬ c.Relists)
    (hfin : ∀ i, c ≠ .finalize (some i)) : ni'.lists = ni.lists := by
  have hstarts : ∀ {n n' : LibNi} {i d : ℕ} {b : Bool}, Starts n i d b n' → n'.lists = n.lists :=
    fun hs => lists_congr hs.tblSize hs.mePool hs.mdPool hs.meLinks hs.mdLinks
  cases ha with
  | rejected => rfl
  | eqAlloc => rfl
  | eqFree => rfl
  | mdUpdate => rfl
  | granted => rfl
  | grantedHeld hreq hfound hstart => exact (hstarts hstart).trans rfl
  | held hown hlive hactive hstart => exact hstarts hstart
  | notWritten | finalize => exact absurd rfl (hfin _)
  | meAttach => exact absurd trivial hc
  | meInsert => exact absurd trivial hc
  | meUnlink => exact absurd trivial hc
  | mdAttach => exact absurd trivial hc
  | mdInsert => exact absurd trivial hc
  | mdBind => exact absurd trivial hc
  | mdUnlink => exact absurd trivial hc

theorem step_relisted (h : Wf ni) (hen : Enabled ni c) (hs : step ni r c = some o) :
    Relisted ni c o.rc o.ni.lists := by
  have hother : ¬ c.Relists → (∀ i, c ≠ .finalize (some i)) → Relisted ni c o.rc o.ni.lists :=
    fun hc hfin => (step_action hs).lists hc hfin ▸ .same fun hc' => absurd hc' hc
  cases c with
  | meAttach => exact h.meAttach_relisted hs
  | meInsert => exact h.meInsert_relisted hs
  | meUnlink hdl =>
    obtain ⟨hrc, hni, -⟩ | ⟨hrc, hlive, hun⟩ := doPtlMEUnlink_cases hs
    · exact hni ▸ .same fun _ => hrc
    · rw [hrc, h.libMeUnlink_lists hlive hun]
      exact .meUnlink hlive
  | mdAttach => exact h.mdAttach_relisted hs
  | mdInsert => exact h.mdInsert_relisted hs
  | mdBind => exact h.mdBind_relisted hs
  | mdUnlink hdl =>
    obtain ⟨hrc, hni, -⟩ | ⟨hrc, hlive, hni, -⟩ := doPtlMDUnlink_cases hs
    · exact hni ▸ .same fun _ => hrc
    · rw [hrc, hni, h.libMdUnlink_lists hlive]
      exact .mdUnlink hlive
  | finalize => exact h.finalize_relisted hen hs
  | _ => exact hother (fun hc => hc) (by simp)

theorem Relisted.no_loose_me {rc : Int32} {S : Lists} (hr : Relisted ni c rc S)
    (h : ∀ ids, ¬ ni.lists.mes none ids) : ∀ ids, ¬ S.mes none ids := by
  intro ids hs
  cases hr with
  | meAttach =>
    obtain ⟨ho, -⟩ | ⟨-, hs⟩ := hs
    · cases ho
    · exact h _ hs
  | @meInsert _ _ pos =>
    cases pos with
    | before | after => exact h _ hs.choose_spec.1
  | meUnlink | meDone => exact h _ hs.2.choose_spec.1
  | same => exact h _ hs
  | mdAttach => exact h _ hs
  | mdInsert => exact h _ hs
  | mdBind => exact h _ hs
  | mdUnlink => exact h _ hs
  | mdDone => exact h _ hs

theorem Reachable.no_loose_me {ok : LibNi → Call → Prop} (h : Reachable ok ni) :
    ∀ ids, ¬ ni.lists.mes none ids := by
  induction h with
  | init mem =>
    rintro ids ⟨i, rest, -, hi, -⟩
    exact fill_free mem.mePool.next maxMes i hi.1 hi.2
  | step hreach hen hok hs ih => exact (step_relisted hreach.wf hen hs).no_loose_me ih

theorem reachable_lists {ok : LibNi → Call → Prop} {ni : LibNi} (h : Reachable ok ni) :
    Filed maxMes ni.mePool ni.lists.mes ∧ (∀ ids, ¬ ni.lists.mes none ids) ∧
      Filed maxMds ni.mdPool ni.lists.mds ∧
      Agree ni.lists.mes ni.meLinks ∧ Agree ni.lists.mds ni.mdLinks ∧
      ∀ c r o, Enabled ni c → step ni r c = some o → Relisted ni c o.rc o.ni.lists := by
  have hw := h.wf
  obtain ⟨own, hme⟩ := hw.meLinked
  exact ⟨WellLinked.filed hme hw.mePool fun _ => Iff.rfl, h.no_loose_me,
    WellLinked.filed hw.mdLinked hw.mdPool fun _ => Iff.rfl, hme.agree, hw.mdLinked.agree,
    fun _ _ _ => step_relisted hw⟩

theorem reachable_lists_attached : ∃ ni, Reachable (fun _ _ => True) ni ∧
      ni.meLinks.head 0 = some 4095 ∧ ni.mdLinks.head 4095 = some 4095 ∧
      ∀ c r o, Enabled ni c → step ni r c = some o → Relisted ni c o.rc o.ni.lists := by
  have h1 := freshNi_reachable.calls (.meAttach 0 0 ⟨anySource, 7, 0, .retain⟩) trivial rfl
  have h2 := h1.calls (.mdAttach 4095 plainMd .retain) trivial rfl
  exact ⟨_, h2, rfl, rfl, (reachable_lists h2).2.2.2.2.2⟩

theorem bound_md_prev :
    ∃ ni, Reachable (fun _ _ => True) ni ∧ LiveMd ni 4095 ∧ ni.mdLinks.prev 4095 = none := by
  have h1 := freshNi_reachable.calls (.mdBind 0 plainMd) trivial rfl
  exact ⟨_, h1, ⟨by decide, rfl⟩, rfl⟩

end Cplant.Portals
