import Cplant.Portals.Bounds

/-!
# The retry contract of `lib_parse`

The RTS/CTS layer takes a return value of 1 to mean that the header was not
processed and will come again. The four parsers allocate their message object at
different places, so the contract depends on the kind of header.
-/
namespace Cplant.Portals
open NalCall Option Function

def NalCall.isRecv : NalCall → Bool
  | .recv .. => true
  | _ => false

def RetryContract (ni : LibNi) (o : Outcome) : Prop :=
  if o.rc = 1 then o.calls.countP NalCall.isRecv = 0 ∧ o.ni = ni
  else o.calls.countP NalCall.isRecv = 1

def MsgAvailable (ni : LibNi) : Prop := ni.msgPool.alloc ≠ none

def NoMd (ni : LibNi) (req : MdRequest) : Prop := libFindMd ni req = some none

def GrantsNothing (ni : LibNi) (req : MdRequest) : Prop :=
  ∃ found ni', libFindMd ni req = some (some (found, ni')) ∧ found.length = 0

def RetrySafe (ni : LibNi) (hdr : PtlHdr) (r : NalReply) : Prop :=
  match hdr.msg with
  | .put ptlIndex _ matchBits length offset _ =>
    let req : MdRequest := ⟨hdr.src, ptlIndex, .put, length, offset, matchBits⟩
    MsgAvailable ni ∨ NoMd ni req ∨ GrantsNothing ni req
  | .get ptlIndex matchBits length srcOffset _ _ =>
    let req : MdRequest := ⟨hdr.src, ptlIndex, .get, length, srcOffset, matchBits⟩
    NoMd ni req ∨ (MsgAvailable ni ∧ r.send ≠ 1)
  | _ => True

theorem msgAvailable_iff (ni : LibNi) : MsgAvailable ni ↔ libMsgAlloc ni ≠ none := by
  unfold MsgAvailable libMsgAlloc
  cases ni.msgPool.alloc <;> simp

theorem charge_eq_iff (ni : LibNi) (found : MdFound) : ni.charge found = ni ↔ found.length = 0 := by
  constructor
  · intro h
    have hoff := congrArg (fun n : LibNi => (n.md found.md).offset) h
    simp only [LibNi.charge, LibNi.setMd, update_self] at hoff
    have := congrArg Int32.toBitVec hoff
    simpa [← Int32.toBitVec_inj] using this
  · intro h
    simp [LibNi.charge, LibNi.setMd, h]

variable {ni : LibNi} {hdr : PtlHdr} {bits : PtlMatchBits} {rlength : PtlSize} {o : Outcome}
  {k : PtlPtIndex} {r : NalReply} {dst : PtlHandle}

theorem found_iff {req : MdRequest} {found : MdFound}
    (hf : libFindMd ni req = some (some (found, ni.charge found))) : ¬ NoMd ni req ∧
      (GrantsNothing ni req ↔ found.length = 0) ∧
      (MsgAvailable ni ↔ libMsgAlloc (ni.charge found) ≠ none) :=
  ⟨by simp [NoMd, hf], by simp [GrantsNothing, hf], msgAvailable_iff (ni.charge found)⟩

theorem parsePut_retry {ackMd : PtlHandle} {roffset : PtlSize} {data : UInt64}
    (hs : parsePut ni hdr k ackMd bits rlength roffset data = some o) :
    RetryContract ni o ↔ MsgAvailable ni ∨ NoMd ni ⟨hdr.src, k, .put, rlength, roffset, bits⟩ ∨
      GrantsNothing ni ⟨hdr.src, k, .put, rlength, roffset, bits⟩ := by
  rcases libFindMd_cases hs with ⟨hf, hs⟩ | ⟨found, hf, hs⟩
  · cases hs
    simp [RetryContract, isRecv, NoMd, hf]
  obtain ⟨hsome, hzero, havail⟩ := found_iff hf
  rcases libMsgAlloc_cases hs with ⟨ha, hs⟩ | ⟨i, mid, ha, hs⟩
  · cases hs
    simp [RetryContract, charge_eq_iff, hsome, hzero, havail, ha]
  · cases hs
    simp [RetryContract, isRecv, havail, ha]

theorem parseGet_retry {srcOffset returnOffset : PtlSize} {returnMd : PtlHandle}
    (hs : parseGet ni hdr k bits rlength srcOffset returnOffset returnMd r = some o) :
    RetryContract ni o ↔ NoMd ni ⟨hdr.src, k, .get, rlength, srcOffset, bits⟩ ∨
      (MsgAvailable ni ∧ r.send ≠ 1) := by
  rcases libFindMd_cases hs with ⟨hf, hs⟩ | ⟨found, hf, hs⟩
  · cases hs
    simp [RetryContract, isRecv, NoMd, hf]
  obtain ⟨hsome, -, havail⟩ := found_iff hf
  rcases libMsgAlloc_cases hs with ⟨ha, hs⟩ | ⟨i, mid, ha, hs⟩
  · cases hs
    simp [RetryContract, isRecv, hsome, havail, ha]
  · cases hs
    by_cases hsend : r.send = 1 <;>
      simp [RetryContract, isRecv, List.countP_cons, hsome, havail, ha, hsend]

theorem answer_retry (offset : PtlSize) (bits : PtlMatchBits)
    (hs : parseAck ni hdr dst rlength bits = some o ∨
      parseReply ni hdr dst offset rlength = some o) : RetryContract ni o := by
  rcases hs with hs | hs
  all_goals
    obtain ⟨ok, hok, hs⟩ := bind_eq_some_iff.mp hs
    dsimp only at hs
    repeat' split at hs
    all_goals
      cases hs
      simp [RetryContract, isRecv]

/-- A call of `lib_parse` keeps the contract exactly on the safe headers. -/
theorem libParse_retry_iff (ni : LibNi) (hdr : PtlHdr) (r : NalReply) (o : Outcome)
    (hs : libParse ni hdr r = some o) : RetryContract ni o ↔ RetrySafe ni hdr r := by
  unfold libParse at hs
  unfold RetrySafe
  split at hs
  next hm => simpa [hm] using answer_retry 0 _ (.inl hs)
  next hm => simpa [hm] using parsePut_retry hs
  next hm => simpa [hm] using parseGet_retry hs
  next hm => simpa [hm] using answer_retry _ 0 (.inr hs)
  all_goals
    next hm =>
      cases hs
      simp [RetryContract, isRecv, hm]

structure SameSearch (ni ni' : LibNi) : Prop where
  tblSize : ni'.tblSize = ni.tblSize
  me : ni'.me = ni.me
  mePool : ni'.mePool = ni.mePool
  meLinks : ni'.meLinks = ni.meLinks
  mdPool : ni'.mdPool = ni.mdPool
  mdLinks : ni'.mdLinks = ni.mdLinks
  md : ∀ d, ∃ p, ni'.md d = { ni.md d with pending := p }

namespace SameSearch

theorem refl (ni : LibNi) : SameSearch ni ni :=
  ⟨rfl, rfl, rfl, rfl, rfl, rfl, fun d => ⟨(ni.md d).pending, rfl⟩⟩

theorem trans {ni1 ni2 ni3 : LibNi} (h : SameSearch ni1 ni2) (h' : SameSearch ni2 ni3) :
    SameSearch ni1 ni3 := by
  refine ⟨h'.tblSize.trans h.tblSize, h'.me.trans h.me, h'.mePool.trans h.mePool,
    h'.meLinks.trans h.meLinks, h'.mdPool.trans h.mdPool, h'.mdLinks.trans h.mdLinks, fun d => ?_⟩
  obtain ⟨p, hp⟩ := h.md d
  obtain ⟨q, hq⟩ := h'.md d
  exact ⟨q, by rw [hq, hp]⟩

variable {ni ni' : LibNi}

section
variable (h : SameSearch ni ni') (req : MdRequest)
include h req

theorem scanMds : ∀ fuel o, scanMds ni' req fuel o = scanMds ni req fuel o := by
  intro fuel
  induction fuel with
  | zero => intro o; cases o <;> rfl
  | succ fuel ih =>
    intro o
    cases o with
    | none => rfl
    | some i =>
      obtain ⟨p, hp⟩ := h.md i
      simp only [Portals.scanMds, hp, h.mdPool, h.mdLinks, ih]
      rfl

theorem scanMes : ∀ fuel o, scanMes ni' req fuel o = scanMes ni req fuel o := by
  intro fuel
  induction fuel with
  | zero => intro o; cases o <;> rfl
  | succ fuel ih =>
    intro o
    cases o with
    | none => rfl
    | some m => simp [Portals.scanMes, h.me, h.mePool, h.meLinks, h.mdLinks, h.scanMds, ih]

theorem libFindMd : (libFindMd ni' req).map (Option.map Prod.fst) =
      (libFindMd ni req).map (Option.map Prod.fst) := by
  unfold Portals.libFindMd
  rw [h.tblSize, h.meLinks, h.scanMes]
  split_ifs
  · rfl
  · rfl
  · simp [comp_def]

end
end SameSearch

theorem doPtlPut_sameSearch {args : MoveArgs} {ackReq : Bool} {hdrData : UInt64} {i : ℕ}
    {pool : FreeList} (hvalid : validObj ni.mdPool maxMds (handleIndex args.mdIn) = some true)
    (hinf : (ni.md (handleIndex args.mdIn)).threshold = ptlMdThreshInf)
    (heq : (ni.md (handleIndex args.mdIn)).eq = none) (hboth : args.targetIn.addrKind = .both)
    (ha : ni.msgPool.alloc = some (i, pool)) :
    ∃ o, doPtlPut ni args ackReq hdrData r = some o ∧ SameSearch ni o.ni ∧ o.ni.msgPool = pool := by
  set d := handleIndex args.mdIn with hd
  set ni1 := ni.countSend (ni.md d).length with hni1
  obtain ⟨ni2, hm⟩ : ∃ ni2, libMsgAlloc ni1 = some (i, ni2) := by
    have ha1 : ni1.msgPool.alloc = some (i, pool) := ha
    simp [libMsgAlloc, ha1]
  have hs := libMsgAlloc_spec hm
  have hmd : ni2.md = ni.md := hs.md
  have hheld : heldMd (ni.md d) false = { ni.md d with pending := (ni.md d).pending + 1 } := by
    have hne : (ptlMdThreshInf == 0) = false := by decide
    simp [heldMd, hinf, hne]
  have htr : libTransId ni args.targetIn r = some args.targetIn := by simp [libTransId, hboth]
  have hrec : ∀ fill, recordEvent ni2 i d fill = ni2 := by simp [recordEvent, hmd, heq]
  refine ⟨_, by simp [doPtlPut, ← hd, hvalid, hinf, htr, ← hni1, hm, hrec]; rfl, ?_, ?_⟩
  · refine ⟨hs.tblSize, hs.me, hs.mePool, hs.meLinks, hs.mdPool, hs.mdLinks, fun e => ?_⟩
    by_cases he : e = d
    · exact ⟨(ni.md d).pending + 1, by simp [holdMd, hmd, hheld, he]⟩
    · exact ⟨(ni.md e).pending, by simp [holdMd, hmd, he]⟩
  · have hpool : (i, ni2.msgPool) = (i, pool) := some.inj (hs.alloc.symm.trans ha)
    exact congrArg Prod.snd hpool

def localPtlMd : PtlMd := ⟨0, 10, ptlMdThreshInf, 10, ptlMdOpPut, 0, ptlEqNone⟩

def openNi : LibNi :=
  let ni := ((step freshNi okReply attachMe).map Outcome.ni).getD freshNi
  ((step ni okReply (.mdAttach 4095 localPtlMd .retain)).map Outcome.ni).getD freshNi

theorem openNi_reachable : Reachable (fun _ _ => True) openNi := by
  have h1 := freshNi_reachable.calls attachMe trivial rfl
  have h2 := h1.calls (.mdAttach 4095 localPtlMd .retain) trivial rfl
  exact h2

theorem exhaust_msgs {P : LibNi → Prop} {base : LibNi}
    (hput : ∀ ni o, P ni → step ni okReply (putFrom 4095) = some o → P o.ni)
    (hvalid : validObj base.mdPool maxMds 4095 = some true)
    (hinf : (base.md 4095).threshold = ptlMdThreshInf) (heq : (base.md 4095).eq = none)
    {l : List ℕ} : ∀ {ni : LibNi}, P ni → SameSearch base ni → l.Nodup →
      FreeList.Threads ni.msgPool.next ni.msgPool.head l →
      ∃ ni', P ni' ∧ SameSearch base ni' ∧ ¬ MsgAvailable ni' := by
  induction l with
  | nil =>
    intro ni hP hs _ hl
    exact ⟨ni, hP, hs, by simp [MsgAvailable, FreeList.alloc_threads_nil hl]⟩
  | cons i l ih =>
    intro ni hP hs hnd hl
    obtain ⟨pool, ha, hpool⟩ := FreeList.alloc_threads_cons hnd hl
    obtain ⟨p, hp⟩ := hs.md 4095
    obtain ⟨o, ho, hs', rfl⟩ : ∃ o, step ni okReply (putFrom 4095) = some o ∧
        SameSearch ni o.ni ∧ o.ni.msgPool = pool := by
      refine doPtlPut_sameSearch (hs.mdPool.symm ▸ hvalid) ?_ ?_ rfl ha
      · exact (congrArg LibMd.threshold hp).trans hinf
      · exact (congrArg LibMd.eq hp).trans heq
    exact ih (hput ni o hP ho) (hs.trans hs') (List.nodup_cons.mp hnd).2 hpool

theorem put_exhausted {base : LibNi} {found : MdFound} (hs : SameSearch base ni)
    (hfull : ¬ MsgAvailable ni) (hfind : (libFindMd base ⟨⟨2, 2, 0, 1⟩, 0, .put, 1, 0, 7⟩).map
      (Option.map Prod.fst) = some (some found)) :
    libFindMd ni ⟨⟨2, 2, 0, 1⟩, 0, .put, 1, 0, 7⟩ = some (some (found, ni.charge found)) ∧
      libParse ni (putHdr 1 0) okReply = some ⟨1, ni.charge found, [], none, none⟩ := by
  obtain ⟨ni', hf⟩ : ∃ ni', libFindMd ni ⟨⟨2, 2, 0, 1⟩, 0, .put, 1, 0, 7⟩ =
      some (some (found, ni')) := by
    simpa using (hs.libFindMd _).trans hfind
  obtain ⟨rfl, -⟩ := libFindMd_spec hf
  have hnone : libMsgAlloc (ni.charge found) = none := by
    by_contra h
    exact hfull ((msgAvailable_iff (ni.charge found)).mpr h)
  exact ⟨hf, by simp [libParse, putHdr, parsePut, hf, hnone]⟩

theorem libParse_retry_iff_put :
    ∃ o, libParse openNi (putHdr 1 0) okReply = some o ∧ RetryContract openNi o :=
  ⟨_, rfl, (libParse_retry_iff openNi (putHdr 1 0) okReply _ rfl).mpr
    (.inl (by unfold MsgAvailable; decide))⟩

theorem libParse_put_exhausted :
    ∃ ni hdr r o, Reachable (fun _ _ => True) ni ∧ libParse ni hdr r = some o ∧
      o.rc = 1 ∧ ¬ RetryContract ni o := by
  obtain ⟨l, hl, hnd, -⟩ := openNi_reachable.wf.msgPool
  obtain ⟨ni, hr, hs, hmsg⟩ := exhaust_msgs (P := Reachable fun _ _ => True)
    (fun ni o h ho => h.step (c := putFrom 4095) trivial trivial ho) (by decide) (by decide) (by
      rfl)
    openNi_reachable (.refl _) hnd hl
  obtain ⟨hf, hparse⟩ := put_exhausted hs hmsg (show _ = some (some ⟨4095, 1, 0⟩) by rfl)
  refine ⟨ni, _, _, _, hr, hparse, rfl, fun hc => ?_⟩
  rcases (parsePut_retry hparse).mp hc with h | h | ⟨found, ni'', h, hzero⟩
  · exact hmsg h
  · cases hf.symm.trans h
  · cases hf.symm.trans h
    cases hzero

end Cplant.Portals
