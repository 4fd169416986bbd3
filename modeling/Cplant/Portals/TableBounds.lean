import Cplant.Portals.EqPending

/-!
# Accesses to the tables of an interface

The library reaches an element of `tbl`, `me`, `md` or `eq` in two ways: through an index that
comes with a call or a header, after a range test, and through a reference that is stored in an
element or in a free list. The range tests compare with `>`, so the index behind the last
element passes them.
-/
namespace Cplant.Portals
open Option Finset

inductive Access
  | tbl (k : PtlPtIndex)
  | me (m : ℕ)
  | md (d : ℕ)
  | eq (e : ℕ)
deriving DecidableEq, Repr

namespace Access

def Inside (ni : LibNi) : Access → Prop
  | .tbl k => 0 ≤ k ∧ k < ni.tblSize
  | .me m => m < maxMes
  | .md d => d < maxMds
  | .eq e => e < maxEqs

def Behind (ni : LibNi) : Access → Prop
  | .tbl k => k = ni.tblSize
  | .me m => m = maxMes
  | .md d => d = maxMds
  | .eq e => e = maxEqs

instance (ni : LibNi) : (x : Access) → Decidable (x.Inside ni)
  | .tbl k => inferInstanceAs (Decidable (0 ≤ k ∧ k < ni.tblSize))
  | .me m => inferInstanceAs (Decidable (m < maxMes))
  | .md d => inferInstanceAs (Decidable (d < maxMds))
  | .eq e => inferInstanceAs (Decidable (e < maxEqs))

end Access

def passed (x : ℕ → Access) (max index : ℕ) : List Access :=
  if max < index then [] else [x index]

def passedPortal (ni : LibNi) (index : PtlPtIndex) : List Access :=
  if index < 0 ∨ ni.tblSize < index then [] else [.tbl index]

def passedMe (h : PtlHandle) : List Access := passed .me maxMes (handleIndex h)
def passedMd (h : PtlHandle) : List Access := passed .md maxMds (handleIndex h)

def passedEq (h : PtlHandle) : List Access :=
  if h = ptlEqNone then [] else passed .eq maxEqs (handleIndex h)

def passedNewEq (h : PtlHandle) : List Access :=
  if 0 ≤ h ∧ h ≤ 4096 then [.eq (handleIndex h)] else []

def passedUpdate (ni : LibNi) (r : NalReply) (md : LibMd) (new : PtlMd) (testqIn : PtlHandle)
    (sequenceIn : PtlSeq) : List Access :=
  passedEq testqIn ++
    match mdUpdateTestq testqIn with
    | some (some testq) =>
      let moved : Bool := new.start ≠ md.start ∨ md.length < new.length
      if mdUpdateReady ni testq sequenceIn && !(moved && r.validate < 0) then
        passedNewEq new.eventq
      else []
    | _ => []

def Call.passed (ni : LibNi) (r : NalReply) : Call → List Access
  | .meAttach _ indexIn _ => passedPortal ni indexIn
  | .meInsert currentIn _ _ => passedMe currentIn
  | .meUnlink currentIn => passedMe currentIn
  | .tblDump indexIn => passedPortal ni indexIn
  | .meDump currentIn => passedMe currentIn
  | .mdAttach currentIn mdIn _ =>
    passedMe currentIn ++
      if handleIndex currentIn < maxMes ∧ ni.mePool.InUse (handleIndex currentIn) ∧
          ni.mdLinks.head (handleIndex currentIn) = none then passedEq mdIn.eventq else []
  | .mdInsert currentIn mdIn _ _ =>
    passedMd currentIn ++
      if LiveMd ni (handleIndex currentIn) then passedEq mdIn.eventq else []
  | .mdBind _ mdIn => passedEq mdIn.eventq
  | .mdUnlink mdIn => passedMd mdIn
  | .mdUpdate mdIn _ newIn testqIn sequenceIn =>
    passedMd mdIn ++
      match newIn with
      | none => []
      | some new =>
        if LiveMd ni (handleIndex mdIn) then
          passedUpdate ni r (ni.md (handleIndex mdIn)) new testqIn sequenceIn
        else []
  | .eqAlloc .. => []
  | .eqFree eventqIn => Portals.passed .eq maxEqs (handleIndex eventqIn)
  | .put args _ _ => passedMd args.mdIn
  | .get args => passedMd args.mdIn
  | .parse hdr =>
    match hdr.msg with
    | .ack dstMd _ _ => passedMd dstMd
    | .put ptlIndex .. => passedPortal ni ptlIndex
    | .get ptlIndex .. => passedPortal ni ptlIndex
    | .reply dstMd _ _ => passedMd dstMd
    | _ => []
  | .finalize _ => []

/-- The references that the library follows: list heads and links of elements in use, the
queue of a descriptor, the descriptor of an outstanding message, and the free lists. -/
inductive Stored (ni : LibNi) : Access → Prop
  | portal {k : PtlPtIndex} {m : ℕ} (hk : 0 ≤ k ∧ k < ni.tblSize)
      (h : ni.meLinks.head k = some m) : Stored ni (.me m)
  | meNext {m m' : ℕ} (hm : LiveMe ni m) (h : ni.meLinks.next m = some m') : Stored ni (.me m')
  | mePrev {m m' : ℕ} (hm : LiveMe ni m) (h : ni.meLinks.prev m = some (.node m')) :
      Stored ni (.me m')
  | mePortal {m : ℕ} {k : PtlPtIndex} (hm : LiveMe ni m)
      (h : ni.meLinks.prev m = some (.head k)) : Stored ni (.tbl k)
  | meMd {m d : ℕ} (hm : LiveMe ni m) (h : ni.mdLinks.head m = some d) : Stored ni (.md d)
  | mdNext {d d' : ℕ} (hd : LiveMd ni d) (h : ni.mdLinks.next d = some d') : Stored ni (.md d')
  | mdPrev {d d' : ℕ} (hd : LiveMd ni d) (h : ni.mdLinks.prev d = some (.node d')) :
      Stored ni (.md d')
  | mdHead {d m : ℕ} (hd : LiveMd ni d) (h : ni.mdLinks.prev d = some (.head m)) :
      Stored ni (.me m)
  | mdMe {d m : ℕ} (hd : LiveMd ni d) (h : (ni.md d).me = some m) : Stored ni (.me m)
  | mdEq {d e : ℕ} (hd : LiveMd ni d) (h : (ni.md d).eq = some e) : Stored ni (.eq e)
  | msgMd {i d : ℕ} (hi : LiveMsg ni i) (h : (ni.msg i).md = some d) : Stored ni (.md d)
  | msgEq {i d e : ℕ} (hi : LiveMsg ni i) (h : (ni.msg i).md = some d)
      (he : (ni.md d).eq = some e) : Stored ni (.eq e)
  | freeMe {m : ℕ} {pool : FreeList} (h : ni.mePool.alloc = some (m, pool)) : Stored ni (.me m)
  | freeMd {d : ℕ} {pool : FreeList} (h : ni.mdPool.alloc = some (d, pool)) : Stored ni (.md d)
  | freeEq {e : ℕ} {pool : FreeList} (h : ni.eqPool.alloc = some (e, pool)) : Stored ni (.eq e)

def Call.Accesses (ni : LibNi) (r : NalReply) (c : Call) (x : Access) : Prop :=
  x ∈ c.passed ni r ∨ Stored ni x

variable {d m max i : ℕ} {f : Bool → Option Outcome} {l' l : List Access} {x : Access}
  {ni ni' : LibNi} {c : Call} {r : NalReply} {h : PtlHandle} {pool : FreeList}

def QueuesInside (ni : LibNi) : Prop :=
  ∀ d, LiveMd ni d ∨ (msgsOn ni d).Nonempty → ∀ e, (ni.md d).eq = some e → e < maxEqs

theorem libInit_queuesInside (mem : LibNi) (nid pid rid gid : PtlId) (gsize : Int32)
    (ptlSize : PtlPtIndex) : QueuesInside (libInit mem nid pid rid gid gsize ptlSize) := by
  intro d hd
  rcases hd with hd | ⟨i, hi⟩
  · exact absurd hd.2 (FreeList.fill_free _ _ d hd.1)
  · have hlive := (mem_msgsOn.mp hi).1
    exact absurd hlive.2 (FreeList.fill_free _ _ i hlive.1)

theorem QueuesInside.of_fate (h : QueuesInside ni) (hf : Fate ni c ni' d)
    (hd : LiveMd ni' d ∨ (msgsOn ni' d).Nonempty) {e : ℕ} (he : (ni'.md d).eq = some e) :
    e < maxEqs := by
  cases hf with
  | kept hlive hmsgs hmd => exact h d (by rwa [← hlive, ← hmsgs]) e (hmd ▸ he)
  | born key u me hdead hlive hmsgs heq hmd =>
    rw [hmd] at he
    cases he
    exact (mdBuildEq_live heq).1
  | updated key hc hidx hlive hlive' hmsgs heq hmd =>
    rw [hmd] at he
    cases he
    exact (mdUpdateEq_live heq).1
  | charged hc hreq hfound hidx hfull hlive hlive' hmsgs hmd
  | requested hc hreq hfound hidx hnew hlive hlive' hmsgs hmd
  | used hown hnew hlive hlive' hmsgs hactive hmd =>
    exact h d (.inl hlive) e (by rw [← he, hmd]; rfl)
  | completed hc hi hlive hmsgs hstay hmd | released hc hi hdead hmsgs hidle hmark hmd =>
    exact h d (.inr ⟨_, hi⟩) e (by rw [← he, hmd]; rfl)
  | unlinked hc hlive hdead hmsgs hmd => exact h d (.inl hlive) e (by rw [← he, hmd])

theorem Reachable.queuesInside {ok : LibNi → Call → Prop} (h : Reachable ok ni) :
    QueuesInside ni := by
  induction h with
  | init => exact libInit_queuesInside _ _ _ _ _ _ _
  | step h hen _ hs ih =>
    intro d hd e he
    exact ih.of_fate ((step_acts hs).action.fate h.wf hen d) hd he

theorem Stored.inside (hw : Wf ni) (hq : QueuesInside ni) (hp : FreeList.Valid maxEqs ni.eqPool)
    (hx : Stored ni x) : x.Inside ni := by
  obtain ⟨own, hme⟩ := hw.meLinked
  cases hx with
  | portal hk h => exact (hme.fwd (.head _) _ hk h).1.1
  | meNext hm h => exact (hme.fwd (.node _) _ hm h).1.1
  | mePrev hm h => exact (hme.bwd _ _ hm h).1.1
  | mePortal hm h => exact (hme.bwd _ _ hm h).1
  | meMd hm h => exact (hw.mdLinked.fwd (.head _) _ hm h).1.1
  | mdNext hd h => exact (hw.mdLinked.fwd (.node _) _ hd h).1.1
  | mdPrev hd h | mdHead hd h => exact (hw.mdLinked.bwd _ _ hd h).1.1
  | mdMe hd h => exact (hw.mdLinked.head_of_own hd h).1.1
  | mdEq hd h => exact hq _ (.inl hd) _ h
  | msgMd hi h => exact (hw.msgMd _ hi _ h).1
  | msgEq hi h he => exact hq _ (.inr ⟨_, mem_msgsOn.mpr ⟨hi, h⟩⟩) _ he
  | freeMe h => exact (FreeList.alloc_spec hw.mePool h).1
  | freeMd h => exact (FreeList.alloc_spec hw.mdPool h).1
  | freeEq h => exact (FreeList.alloc_spec hp h).1

theorem Access.Inside.not_behind (h : x.Inside ni) : ¬ x.Behind ni := by
  cases x with
  | tbl k =>
    rintro rfl
    exact Int32.lt_irrefl h.2
  | me m | md m | eq m => exact ne_of_lt h

def NearBy (ni : LibNi) (l : List Access) : Prop := ∀ x ∈ l, x.Inside ni ∨ x.Behind ni

theorem NearBy.nil : NearBy ni [] := by simp [NearBy]

theorem NearBy.append (h : NearBy ni l) (h' : NearBy ni l') : NearBy ni (l ++ l') := by
  intro x hx
  rcases List.mem_append.mp hx with hx | hx
  · exact h x hx
  · exact h' x hx

theorem NearBy.ite {p : Prop} [Decidable p] (h : NearBy ni l) :
    NearBy ni (if p then l else []) := by
  split
  · exact h
  · exact .nil

theorem nearBy_portal (k : PtlPtIndex) : NearBy ni (passedPortal ni k) := by
  intro x hx
  unfold passedPortal at hx
  split_ifs at hx with h
  · cases hx
  · rw [not_or, Int32.not_lt, Int32.not_lt] at h
    obtain rfl := List.mem_singleton.mp hx
    rcases Int32.lt_or_eq_of_le h.2 with hlt | heq
    · exact .inl ⟨h.1, hlt⟩
    · exact .inr heq

theorem nearBy_passed (x : ℕ → Access) (max : ℕ) (hin : ∀ i, i < max → (x i).Inside ni)
    (hend : (x max).Behind ni) (i : ℕ) : NearBy ni (passed x max i) := by
  intro y hy
  unfold passed at hy
  split_ifs at hy with hlt
  · cases hy
  · obtain rfl := List.mem_singleton.mp hy
    rcases Nat.lt_or_eq_of_le (Nat.le_of_not_lt hlt) with hi | rfl
    · exact .inl (hin i hi)
    · exact .inr hend

theorem nearBy_me (h : PtlHandle) : NearBy ni (passedMe h) :=
  nearBy_passed .me maxMes (fun _ hi => hi) rfl _

theorem nearBy_md (h : PtlHandle) : NearBy ni (passedMd h) :=
  nearBy_passed .md maxMds (fun _ hi => hi) rfl _

theorem nearBy_eq (h : PtlHandle) : NearBy ni (passedEq h) := by
  unfold passedEq
  split
  · exact .nil
  · exact nearBy_passed .eq maxEqs (fun _ hi => hi) rfl _

theorem handleIndex_of_nonneg (h0 : 0 ≤ h) (hmax : h ≤ 4096) :
    handleIndex h = h.toInt.toNat ∧ h.toInt ≤ 4096 := by
  have hle : h.toInt ≤ 4096 := by simpa [Int32.le_iff_toInt_le] using hmax
  refine ⟨?_, hle⟩
  rw [handleIndex, toNat_toUInt32 h0]
  omega

theorem nearBy_newEq (h : PtlHandle) : NearBy ni (passedNewEq h) := by
  intro x hx
  unfold passedNewEq at hx
  split_ifs at hx with hrange
  · obtain rfl := List.mem_singleton.mp hx
    obtain ⟨hidx, hle⟩ := handleIndex_of_nonneg hrange.1 hrange.2
    exact Nat.lt_or_eq_of_le (by rw [hidx]; unfold maxEqs; omega)
  · cases hx

theorem nearBy_update (md : LibMd) (new : PtlMd) (testqIn : PtlHandle) (seq : PtlSeq) :
    NearBy ni (passedUpdate ni r md new testqIn seq) := by
  refine (nearBy_eq testqIn).append ?_
  split
  · exact (nearBy_newEq new.eventq).ite
  · exact .nil

theorem Call.passed_nearBy (c : Call) : NearBy ni (c.passed ni r) := by
  cases c with
  | meAttach _ k _ | tblDump k => exact nearBy_portal k
  | meInsert h _ _ | meUnlink h | meDump h => exact nearBy_me h
  | mdAttach h md _ => exact (nearBy_me h).append (nearBy_eq md.eventq).ite
  | mdInsert h md _ _ => exact (nearBy_md h).append (nearBy_eq md.eventq).ite
  | mdBind _ md => exact nearBy_eq md.eventq
  | mdUnlink h => exact nearBy_md h
  | mdUpdate h _ new testqIn seq =>
    refine (nearBy_md h).append ?_
    cases new with
    | none => exact .nil
    | some new => exact (nearBy_update _ new testqIn seq).ite
  | eqAlloc => exact .nil
  | eqFree h => exact nearBy_passed .eq maxEqs (fun _ hi => hi) rfl _
  | put args _ _ | get args => exact nearBy_md args.mdIn
  | parse hdr =>
    simp only [Call.passed]
    split
    · exact nearBy_md _
    · exact nearBy_portal _
    · exact nearBy_portal _
    · exact nearBy_md _
    · exact .nil
  | finalize => exact .nil

theorem validObj_eq_none : validObj pool max i = none ↔ i = max := by
  unfold validObj
  split_ifs with h1 h2
  · simp
    omega
  · simp [h2]
  · simp [h2]

theorem behind_passed {x : ℕ → Access} (hend : ∀ j, (x j).Behind ni ↔ j = max) :
    (∃ y ∈ passed x max i, y.Behind ni) ↔ i = max := by
  unfold passed
  split_ifs with h
  · simp
    omega
  · simp [hend]

theorem behind_me : (∃ y ∈ passedMe h, y.Behind ni) ↔ handleIndex h = maxMes :=
  behind_passed fun _ => Iff.rfl

theorem behind_md : (∃ y ∈ passedMd h, y.Behind ni) ↔ handleIndex h = maxMds :=
  behind_passed fun _ => Iff.rfl

theorem behind_portal {k : PtlPtIndex} :
    (∃ y ∈ passedPortal ni k, y.Behind ni) ↔ 0 ≤ k ∧ k = ni.tblSize := by
  unfold passedPortal
  split_ifs with h
  · simp only [List.not_mem_nil, false_and, exists_false, false_iff]
    rintro ⟨h0, rfl⟩
    rcases h with h | h
    · exact Int32.not_lt.mpr h0 h
    · exact Int32.lt_irrefl h
  · rw [not_or, Int32.not_lt] at h
    simp [Access.Behind, h.1]

theorem mdBuildEq_eq_none : mdBuildEq ni h = none ↔ ∃ y ∈ passedEq h, y.Behind ni := by
  unfold mdBuildEq passedEq
  split_ifs with hnone
  · simp
  · rw [map_eq_none_iff, validObj_eq_none]
    exact (behind_passed fun _ => Iff.rfl).symm

theorem libMdBuild_eq_none {md : PtlMd} :
    libMdBuild ni md r = none ↔ ∃ y ∈ passedEq md.eventq, y.Behind ni := by
  rw [libMdBuild, map_eq_none_iff, mdBuildEq_eq_none]

theorem mdUpdateEq_eq_none : mdUpdateEq ni h = none ↔ ∃ y ∈ passedNewEq h, y.Behind ni := by
  unfold mdUpdateEq passedNewEq
  split_ifs with hrange
  · rw [map_eq_none_iff, validObj_eq_none]
    simp [Access.Behind]
  · simp

theorem mdUpdateTestq_eq_none : mdUpdateTestq h = none ↔ ∃ y ∈ passedEq h, y.Behind ni := by
  unfold mdUpdateTestq passedEq
  split_ifs with h1 h2 h3
  · simp
  · simp [passed, h2]
  · simp [passed, h3, Access.Behind]
  · simp [passed, h2, h3, Access.Behind]

def liveMds (ni : LibNi) : Finset ℕ := (Finset.range maxMds).filter (LiveMd ni)

theorem mem_liveMds : d ∈ liveMds ni ↔ LiveMd ni d := by
  rw [liveMds, mem_filter, mem_range]
  exact and_iff_right_of_imp And.left

theorem libMeUnlinkMds_isSome :
    ∀ {fuel : ℕ} {ni : LibNi}, Wf ni → LiveMe ni m → (liveMds ni).card ≤ fuel →
      (libMeUnlinkMds fuel ni m).isSome := by
  intro fuel
  induction fuel with
  | zero =>
    intro ni hw hm hcard
    cases hh : ni.mdLinks.head m with
    | none => simp [libMeUnlinkMds, hh]
    | some i =>
      have hi : LiveMd ni i := (hw.mdLinked.own_of_head hm hh).1
      have hpos := card_pos.mpr ⟨i, mem_liveMds.mpr hi⟩
      omega
  | succ fuel ih =>
    intro ni hw hm hcard
    cases hh : ni.mdLinks.head m with
    | none => simp [libMeUnlinkMds, hh]
    | some i =>
      have hi : LiveMd ni i := (hw.mdLinked.own_of_head hm hh).1
      obtain ⟨hw', hlive⟩ := hw.libMdUnlink hi
      have hset : liveMds (libMdUnlink ni i) = (liveMds ni).erase i := by
        ext d
        rw [mem_erase, mem_liveMds, mem_liveMds, hlive d, and_comm]
      have hcard' : (liveMds (libMdUnlink ni i)).card ≤ fuel := by
        rw [hset, card_erase_of_mem (mem_liveMds.mpr hi)]
        omega
      simpa [libMeUnlinkMds, hh] using ih hw' hm hcard'

theorem libMeUnlink_isSome (hw : Wf ni) (hm : LiveMe ni m) : (libMeUnlink ni m).isSome := by
  have hcard : (liveMds ni).card ≤ maxMds := by
    simpa [liveMds] using card_filter_le (range maxMds) (LiveMd ni)
  obtain ⟨⟨mid, calls⟩, hloop⟩ :=
    isSome_iff_exists.mp (libMeUnlinkMds_isSome hw hm hcard)
  have hshift := libMeUnlinkMds_meLinks (m := m) (ni.meLinks.unlink m) maxMds ni
  rw [hloop] at hshift
  simp [libMeUnlink, hshift]

theorem bind_validObj (hreject : (f false).isSome) :
    (validObj pool max i).bind f = none ↔ i = max ∨ (i < max ∧ pool.InUse i) ∧ f true = none := by
  cases hv : validObj pool max i with
  | none => simp [validObj_eq_none.mp hv]
  | some ok =>
    have hne : i ≠ max := fun h => by simp [validObj_eq_none.mpr h] at hv
    obtain ⟨o, ho⟩ := isSome_iff_exists.mp hreject
    cases ok with
    | false =>
      have hfree : ¬ (i < max ∧ pool.InUse i) := by
        unfold validObj at hv
        split_ifs at hv with hgt
        · omega
        · simpa [hne] using fun _ => hv
      simp [hne, hfree, ho]
    | true =>
      have hin := validObj_spec hv rfl
      simp [hne, hin]

theorem bind_validObj_eq_none (hreject : (f false).isSome)
    (haccept : i < max → pool.InUse i → (f true).isSome) :
    (validObj pool max i).bind f = none ↔ i = max := by
  rw [bind_validObj hreject]
  refine or_iff_left fun ⟨⟨hlt, hin⟩, hnone⟩ => ?_
  simpa [hnone] using haccept hlt hin

theorem bind_eq_none_iff {α β : Type} {x : Option α} {f : α → Option β}
    (h : ∀ a, (f a).isSome) : x.bind f = none ↔ x = none := by
  cases x with
  | none => simp
  | some a =>
    obtain ⟨b, hb⟩ := isSome_iff_exists.mp (h a)
    simp [hb]

theorem ite_portal_eq_none {α : Type} {size k : PtlPtIndex} {a : α} {x : Option α}
    (hx : x.isSome) : (if size < k ∨ k < 0 then some a else if k = size then none else x) = none ↔
      0 ≤ k ∧ k = size := by
  split_ifs with h1 h2
  · simp only [false_iff]
    rintro ⟨h0, rfl⟩
    exact h1.elim Int32.lt_irrefl (Int32.not_lt.mpr h0)
  · rw [not_or, Int32.not_lt, Int32.not_lt] at h1
    simp only [true_iff]
    exact ⟨h1.2, h2⟩
  · simp [h2, isSome_iff_ne_none.mp hx]

theorem libFindMd_eq_none {req : MdRequest} :
    libFindMd ni req = none ↔ 0 ≤ req.index ∧ req.index = ni.tblSize := by
  rw [libFindMd, if_congr or_comm rfl rfl]
  exact ite_portal_eq_none rfl

theorem libParse_eq_none {hdr : PtlHdr} :
    libParse ni hdr r = none ↔ ∃ y ∈ (Call.parse hdr).passed ni r, y.Behind ni := by
  unfold libParse
  cases hm : hdr.msg with
  | ack dstMd mlength bits =>
    simp only [Call.passed, hm, behind_md]
    refine bind_validObj_eq_none rfl fun _ _ => ?_
    simp only [Bool.not_true, Bool.false_eq_true, if_false]
    split_ifs
    · rfl
    · split <;> rfl
  | reply dstMd dstOffset length =>
    simp only [Call.passed, hm, behind_md]
    refine bind_validObj_eq_none rfl fun _ _ => ?_
    simp only [Bool.not_true, Bool.false_eq_true, if_false]
    split_ifs
    · rfl
    · rfl
    · split <;> rfl
  | put k ackMd bits length offset data | get k bits length srcOffset returnOffset returnMd =>
    simp only [Call.passed, hm, behind_portal]
    refine Iff.trans (bind_eq_none_iff fun found => ?_) libFindMd_eq_none
    split
    · rfl
    · split <;> rfl
  | barrier | corrupted => simp [Call.passed, hm]

theorem exists_mem_append :
    (∃ y ∈ l ++ l', y.Behind ni) ↔ (∃ y ∈ l, y.Behind ni) ∨ ∃ y ∈ l', y.Behind ni := by
  simp [or_and_right, exists_or]

theorem doPtlMDUpdate_eq_none {testqIn : PtlHandle} {old : Bool} {new : Option PtlMd}
    {seq : PtlSeq} : doPtlMDUpdate ni h old new testqIn seq r = none ↔
      ∃ y ∈ (Call.mdUpdate h old new testqIn seq).passed ni r, y.Behind ni := by
  simp only [Call.passed, exists_mem_append, behind_md]
  refine (bind_validObj rfl).trans (or_congr_right ?_)
  cases new with
  | none => simp
  | some new =>
    dsimp only
    by_cases hlive : LiveMd ni (handleIndex h)
    · rw [if_pos hlive]
      refine (and_iff_right hlive).trans ?_
      simp only [passedUpdate, exists_mem_append, ← mdUpdateTestq_eq_none, Bool.not_true,
        Bool.false_eq_true, if_false]
      generalize hmoved : (decide (new.start ≠ (ni.md (handleIndex h)).start ∨
        (ni.md (handleIndex h)).length < new.length) && decide (r.validate < 0)) = failed
      cases htest : mdUpdateTestq testqIn with
      | none => simp
      | some found =>
        cases found with
        | none => simp
        | some testq =>
          cases hready : mdUpdateReady ni testq seq with
          | false => simp [hready]
          | true =>
            cases failed with
            | true => simp [hready]
            | false =>
              simp only [hready, bind_eq_bind, bind_some, Bool.not_true,
                Bool.not_false, Bool.and_self, Bool.false_eq_true, if_false, if_true, reduceCtorEq,
                false_or]
              exact Iff.trans (bind_eq_none_iff fun _ => rfl) mdUpdateEq_eq_none
    · rw [if_neg hlive]
      exact iff_of_false (fun h => hlive h.1) (by simp)

/-- For every call but the completion of a message, which tests nothing, the model is
undefined exactly if the call accesses an element behind its table. -/
theorem step_eq_none (hw : Wf ni) (hc : ∀ m, c ≠ .finalize m) :
    step ni r c = none ↔ ∃ y ∈ c.passed ni r, y.Behind ni := by
  cases c with
  | meAttach h k me =>
    simp only [step, Call.passed, behind_portal]
    refine ite_portal_eq_none ?_
    split
    · rfl
    · split <;> rfl
  | meInsert h me pos =>
    simp only [step, Call.passed, behind_me]
    refine bind_validObj_eq_none rfl fun _ _ => ?_
    simp only [Bool.not_true, Bool.false_eq_true, if_false]
    split <;> rfl
  | meUnlink h =>
    simp only [step, Call.passed, behind_me]
    refine bind_validObj_eq_none rfl fun hlt hin => ?_
    obtain ⟨o, ho⟩ := isSome_iff_exists.mp (libMeUnlink_isSome hw ⟨hlt, hin⟩)
    simp [ho]
  | tblDump k =>
    simp only [step, Call.passed, behind_portal]
    exact ite_portal_eq_none rfl
  | meDump h =>
    simp only [step, Call.passed, behind_me]
    exact bind_validObj_eq_none rfl fun _ _ => rfl
  | mdAttach h md u =>
    simp only [step, Call.passed, exists_mem_append, behind_me]
    refine (bind_validObj rfl).trans (or_congr_right ?_)
    by_cases hfree : handleIndex h < maxMes ∧ ni.mePool.InUse (handleIndex h) ∧
        ni.mdLinks.head (handleIndex h) = none
    · rw [if_pos hfree]
      refine (and_iff_right ⟨hfree.1, hfree.2.1⟩).trans ?_
      simp only [hfree.2.2, Bool.not_true, Bool.false_eq_true, if_false, isSome_none]
      refine Iff.trans (bind_eq_none_iff fun built => ?_) libMdBuild_eq_none
      split <;> rfl
    · rw [if_neg hfree]
      refine iff_of_false (fun hb => ?_) (by simp)
      obtain ⟨hlive, hnone⟩ := hb
      have hhead : (ni.mdLinks.head (handleIndex h)).isSome := by
        rw [isSome_iff_ne_none]
        exact fun hh => hfree ⟨hlive.1, hlive.2, hh⟩
      simp [hhead] at hnone
  | mdInsert h md u pos =>
    simp only [step, Call.passed, exists_mem_append, behind_md]
    refine (bind_validObj rfl).trans (or_congr_right ?_)
    by_cases hlive : LiveMd ni (handleIndex h)
    · rw [if_pos hlive]
      refine (and_iff_right hlive).trans ?_
      refine Iff.trans (bind_eq_none_iff fun built => ?_) libMdBuild_eq_none
      split <;> rfl
    · rw [if_neg hlive]
      exact iff_of_false (fun h => hlive h.1) (by simp)
  | mdBind h md =>
    refine Iff.trans (bind_eq_none_iff fun built => ?_) libMdBuild_eq_none
    split <;> rfl
  | mdUnlink h =>
    simp only [step, Call.passed, behind_md]
    exact bind_validObj_eq_none rfl fun _ _ => rfl
  | mdUpdate h old new testqIn seq => exact doPtlMDUpdate_eq_none
  | eqAlloc => simp [step, Call.passed]
  | eqFree h =>
    simp only [step, Call.passed]
    rw [behind_passed fun _ => Iff.rfl]
    exact bind_validObj_eq_none rfl fun _ _ => rfl
  | put args ack data =>
    simp only [step, Call.passed, behind_md]
    refine bind_validObj_eq_none rfl fun _ _ => ?_
    split
    · rfl
    · split
      · rfl
      · dsimp only
        generalize libMsgAlloc (ni.countSend (ni.md (handleIndex args.mdIn)).length) = found
        rcases found with _ | ⟨msg, mid⟩ <;> rfl
  | get args =>
    simp only [step, Call.passed, behind_md]
    refine bind_validObj_eq_none rfl fun _ _ => ?_
    split
    · rfl
    · split
      · rfl
      · dsimp only
        split <;> rfl
  | parse hdr => exact libParse_eq_none
  | finalize m => exact absurd rfl (hc m)

/-- In every reachable state a call gets only at elements of the tables just if no index that it
brings along is the size of its table; otherwise it has no meaning. -/
theorem table_accesses_inside {ok : LibNi → Call → Prop} (h : Reachable ok ni) (r : NalReply)
    (c : Call) : ((∀ x, c.Accesses ni r x → x.Inside ni) ↔ ∀ x ∈ c.passed ni r, ¬ x.Behind ni) ∧
      ((∀ m, c ≠ .finalize m) → (step ni r c = none ↔ ∃ x ∈ c.passed ni r, x.Behind ni)) := by
  refine ⟨⟨fun hin x hx => (hin x (.inl hx)).not_behind, fun hend x hx => ?_⟩, step_eq_none h.wf⟩
  rcases hx with hx | hx
  · exact (c.passed_nearBy x hx).resolve_right (hend x hx)
  · exact hx.inside h.wf h.queuesInside h.eqPool

theorem table_accesses_inside_put : LiveMsg loggedPut 1023 ∧
    (loggedPut.md 4095).eq = some 4095 ∧
    ∀ x, (putFrom 4095).Accesses loggedPut okReply x → x.Inside loggedPut := by
  refine ⟨⟨by decide, by decide⟩, by decide,
    (table_accesses_inside loggedPut_settles okReply (putFrom 4095)).1.mpr fun x hx => ?_⟩
  have hpassed : (putFrom 4095).passed loggedPut okReply = [.md 4095] := by decide
  rw [hpassed] at hx
  obtain rfl := List.mem_singleton.mp hx
  exact fun hend : (4095 : ℕ) = maxMds => absurd hend (by decide)

def putBehind : PtlHdr := ⟨1, 1, ⟨2, 2, 0, 0⟩, .put 1 (-1) 0 0 0 0⟩

def replyBehind : PtlHdr := ⟨1, 1, ⟨2, 2, 0, 0⟩, .reply 4096 0 0⟩

theorem table_accesses_outside : Reachable (fun _ _ => True) freshNi ∧
    (Call.parse putBehind).Accesses freshNi okReply (.tbl 1) ∧ ¬ (Access.tbl 1).Inside freshNi ∧
    (Call.parse replyBehind).Accesses freshNi okReply (.md 4096) ∧
      ¬ (Access.md 4096).Inside freshNi := by
  refine ⟨.init .., .inl ?_, ?_, .inl ?_, ?_⟩ <;> decide +kernel

end Cplant.Portals
