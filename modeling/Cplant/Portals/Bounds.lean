import Cplant.Portals.Accounting

/-!
# Remote access stays inside the descriptor

Lengths and offsets come from the network as signed integers and the room test
adds them without looking for overflow. The theorem is about runs whose put and
get requests are in range for every descriptor they could reach; the local offset
then never becomes negative, also across updates of the descriptor.
-/
namespace Cplant.Portals
open LibNi NalCall Int32 List Option
open Function (update)

/-- A request whose length is not negative, whose offset is not negative where the
descriptor takes it from the request, and whose sums do not overflow. -/
structure InRange (md : LibMd) (req : MdRequest) : Prop where
  length : 0 ≤ req.rlength.toInt
  remote : managedRemote md = true →
    0 ≤ req.roffset.toInt ∧ md.offset.toInt + req.rlength.toInt < 2 ^ 31
  sum : truncates md (effectiveOffset md req) = false →
    (effectiveOffset md req).toInt + req.rlength.toInt < 2 ^ 31

def RequestInRange (ni : LibNi) (req : MdRequest) : Prop :=
  ∀ ids, MatchList ni req.index ids → ∀ m ∈ ids, ∀ d, ni.mdLinks.head m = some d →
    Eligible (ni.me m) (ni.md d) req → InRange (ni.md d) req

def RequestsInRange (ni : LibNi) : Call → Prop
  | .parse hdr => ∀ req, hdr.request = some req → RequestInRange ni req
  | _ => True

def NonnegOffsets (ni : LibNi) : Prop := ∀ d, LiveMd ni d → 0 ≤ (ni.md d).offset.toInt

structure Inside (md : LibMd) (found : MdFound) : Prop where
  offset : 0 ≤ found.offset.toInt
  length : 0 ≤ found.length.toInt
  sum : found.offset.toInt + found.length.toInt ≤ md.length.toInt

variable {md : LibMd} {calls : List NalCall} {i : ℕ} {mid ni : LibNi} {bits : PtlMatchBits}
  {k : PtlPtIndex} {r : NalReply} {req : MdRequest} {hdr : PtlHdr} {o : Outcome}

theorem grantedLength_spec {offset : PtlSize} (h0 : 0 ≤ offset.toInt) (hr : 0 ≤ req.rlength.toInt)
    (hsum : truncates md offset = false → offset.toInt + req.rlength.toInt < 2 ^ 31)
    (hroom : truncates md offset = true ∨ offset + req.rlength ≤ md.length) :
    0 ≤ (grantedLength md req offset).toInt ∧
      (grantedLength md req offset).toInt ≤ req.rlength.toInt ∧
      offset.toInt + (grantedLength md req offset).toInt ≤ md.length.toInt := by
  have hlen := toInt_range md.length
  unfold grantedLength
  by_cases ht : truncates md offset = true
  · have hle : offset.toInt ≤ md.length.toInt := by
      simp only [truncates, Bool.and_eq_true, decide_eq_true_eq] at ht
      exact le_iff_toInt_le.mp ht.2
    have hsub : (md.length - offset).toInt = md.length.toInt - offset.toInt :=
      toInt_sub_of_range (by omega) (by omega)
    rw [if_pos ht]
    by_cases hlt : md.length - offset < req.rlength
    · rw [if_pos hlt]
      rw [lt_iff_toInt_lt] at hlt
      omega
    · rw [if_neg hlt]
      rw [lt_iff_toInt_lt] at hlt
      omega
  · have hadd : (offset + req.rlength).toInt = offset.toInt + req.rlength.toInt :=
      toInt_add_of_range (by omega) (hsum (by simpa using ht))
    have hle := le_iff_toInt_le.mp (hroom.resolve_left ht)
    rw [if_neg ht]
    omega

variable {ni ni' : LibNi} {req : MdRequest} {found : MdFound} {d : ℕ}

theorem found_inside (hw : Wf ni) (hoff : NonnegOffsets ni) (hreq : RequestInRange ni req)
    (hf : libFindMd ni req = some (some (found, ni'))) : Inside (ni.md found.md) found ∧
      0 ≤ (ni.md found.md).offset.toInt + found.length.toInt ∧
      (ni.md found.md).offset.toInt + found.length.toInt < 2 ^ 31 := by
  have hlive := hw.found_live hf
  obtain ⟨ids, m, hlist, hm, hd, helig, hoffset, hlength, hroom⟩ := hw.found_spec hf
  have hin := hreq ids hlist m hm found.md hd helig
  have hmd := hoff found.md hlive
  have h0 : 0 ≤ found.offset.toInt := by
    rw [hoffset, effectiveOffset]
    split_ifs with hr
    · exact (hin.remote hr).1
    · exact hmd
  obtain ⟨hl, hle, hsum⟩ := grantedLength_spec h0 hin.length
    (fun ht => hoffset ▸ hin.sum (hoffset ▸ ht)) hroom
  rw [← hlength] at hl hle hsum
  refine ⟨⟨h0, hl, hsum⟩, by omega, ?_⟩
  by_cases hr : managedRemote (ni.md found.md) = true
  · have := (hin.remote hr).2
    omega
  · have hlocal : found.offset = (ni.md found.md).offset := by simp [hoffset, effectiveOffset, hr]
    have hmax := toInt_range (ni.md found.md).length
    rw [hlocal] at hsum
    omega

section
variable (h : NonnegOffsets ni)
include h

theorem NonnegOffsets.of_sub (hlive : ∀ d, LiveMd ni' d → LiveMd ni d)
    (hoff : ∀ d, (ni'.md d).offset = (ni.md d).offset) : NonnegOffsets ni' := by
  intro d hd
  rw [hoff]
  exact h d (hlive d hd)

theorem NonnegOffsets.of_quiet (q : Quiet ni ni') : NonnegOffsets ni' :=
  h.of_sub (fun d hd => by simpa [LiveMd, q.mdPool] using hd) (fun d => by rw [q.md])

theorem NonnegOffsets.libMdUnlink (d : ℕ) : NonnegOffsets (libMdUnlink ni d) := by
  refine h.of_sub (fun j hj => ⟨hj.1, FreeList.inUse_of_release hj.2⟩) fun j => ?_
  by_cases hj : j = d <;> simp [Portals.libMdUnlink, hj]

theorem NonnegOffsets.libMeUnlink {m : ℕ}
    (hun : libMeUnlink ni m = some (ni', calls)) : NonnegOffsets ni' := by
  obtain ⟨mid, hloop, rfl⟩ := libMeUnlink_spec hun
  exact (libMeUnlinkMds_induct NonnegOffsets (fun _ i hn _ => hn.libMdUnlink i) h hloop).1

end
section
variable (h : NonnegOffsets ni)
include h

namespace NonnegOffsets

theorem of_setMd (hoff : md.offset = (ni.md d).offset) : NonnegOffsets (ni.setMd d md) := by
  refine h.of_sub (fun _ hj => hj) fun j => ?_
  by_cases hj : j = d
  · simpa [setMd, hj] using hoff
  · simp [setMd, hj]

theorem releaseMd (hr : releaseMd ni d = some (ni', calls)) : NonnegOffsets ni' := by
  have hmid : NonnegOffsets (ni.unhold d) := h.of_setMd rfl
  cases releaseMd_spec hr with
  | kept => exact hmid
  | unlinked => exact hmid.libMdUnlink d
  | emptied _ _ _ hun => exact (hmid.libMdUnlink d).libMeUnlink hun

theorem newMd (hw : Wf ni) {md : PtlMd} {new : ℕ}
    (hb : MdBuilt ni md new mid) {f : LibMd} (hf : f.offset = (mid.md new).offset) (l : Links ℕ) :
    NonnegOffsets { mid with mdLinks := l, md := update mid.md new f } := by
  have hlive := FreeList.alloc_live hw.mdPool hb.alloc
  intro d hd
  by_cases hdn : d = new
  · obtain ⟨eq, key, hnew⟩ := hb.built
    subst hdn
    simp [hf, hnew, Portals.newMd]
  · have := h d (((hlive d).mp hd).resolve_left hdn)
    simpa [hdn, hb.md d hdn] using this

theorem charge (hw : Wf ni) (hreq : RequestInRange ni req)
    (hf : libFindMd ni req = some (some (found, ni'))) : NonnegOffsets (ni.charge found) := by
  obtain ⟨-, hlo, hhi⟩ := found_inside hw h hreq hf
  intro d hd
  by_cases hdf : d = found.md
  · subst hdf
    simp only [LibNi.charge, LibNi.setMd, Function.update_self]
    rwa [toInt_add_of_range (by omega) hhi]
  · simpa [LibNi.charge, LibNi.setMd, hdf] using h d hd

theorem starts {checkOffset : Bool} (hs : Starts ni i d checkOffset ni') : NonnegOffsets ni' := by
  refine h.of_sub (fun j hj => by simpa [LiveMd, hs.mdPool] using hj) fun j => ?_
  by_cases hj : j = d
  · simp [hs.md, heldMd, hj]
  · simp [hs.md, hj]

theorem of_action (hw : Wf ni) {c : Call} (hok : RequestsInRange ni c)
    (ha : Action ni c ni') : NonnegOffsets ni' := by
  cases ha with
  | rejected counters => exact h.of_quiet (.of_counters ni counters)
  | eqAlloc | eqFree => exact h.of_quiet (.of_eq ni _ _)
  | meAttach hk hempty ha | meInsert hlive ha =>
    obtain ⟨⟨j, pool⟩, -, hmid⟩ := map_eq_some_iff.mp ha
    cases hmid
    exact h
  | meUnlink hlive hun => exact h.libMeUnlink hun
  | mdAttach hlive hempty hb | mdInsert hlive hb => exact h.newMd hw (libMdBuild_spec hb) (by rfl) _
  | @mdBind _ md r new _ calls hb =>
    have hnew := h.newMd hw (libMdBuild_spec hb) (f := ni'.md new) rfl ni'.mdLinks
    simpa using hnew
  | mdUnlink hlive => exact h.libMdUnlink _
  | mdUpdate hlive => exact h.of_setMd rfl
  | granted hreq hf => exact h.charge hw (hok _ hreq) hf
  | grantedHeld hreq hf hs => exact (h.charge hw (hok _ hreq) hf).starts hs
  | held hown hlive hactive hs => exact h.starts hs
  | notWritten => exact h.of_quiet (stampEvent_quiet ni _ _)
  | finalize hmd hr =>
    exact ((h.of_quiet (posted_quiet ni _ _)).releaseMd hr).of_sub (fun _ hd => hd) (fun _ => rfl)

end NonnegOffsets
end

theorem reachable_nonnegOffsets (h : Reachable RequestsInRange ni) : NonnegOffsets ni := by
  induction h with
  | init => exact fun d hd => absurd hd.2 (FreeList.fill_free _ _ d hd.1)
  | step h hen hok hs ih => exact ih.of_action h.wf hok (step_action hs)

def NalCall.dataRange : NalCall → Option (ℤ × PtlSize)
  | .recv _ (some addr) mlen _ => some (addr, mlen)
  | .send _ _ _ _ _ _ (some addr) len => some (addr, len)
  | _ => none

def TouchesFound (ni : LibNi) (req : MdRequest) (call : NalCall) : Prop :=
  ∀ addr len, call.dataRange = some (addr, len) → ∃ found ni',
    libFindMd ni req = some (some (found, ni')) ∧
      addr = (ni.md found.md).start + found.offset.toInt ∧ len = found.length

theorem holdMd_start
    (ha : libMsgAlloc (ni.charge found) = some (i, mid)) {n : LibNi} (q : Quiet mid n)
    (checkOffset : Bool) : ((holdMd n i found.md checkOffset).md d).start = (ni.md d).start := by
  have hmd : n.md = (ni.charge found).md := q.md.trans (libMsgAlloc_spec ha).md
  by_cases hd : d = found.md
  · simp [holdMd, heldMd, hd, hmd, charge, setMd]
  · simp [holdMd, hd, hmd, charge, setMd]

theorem parsePut_touches {ackMd : PtlHandle} {rlength roffset : PtlSize} {data : UInt64}
    (hs : parsePut ni hdr k ackMd bits rlength roffset data = some o) :
    ∀ call ∈ o.calls, TouchesFound ni ⟨hdr.src, k, .put, rlength, roffset, bits⟩ call := by
  rcases libFindMd_cases hs with ⟨hf, hs⟩ | ⟨found, hf, hs⟩
  · cases hs
    simp [TouchesFound, dataRange]
  rcases libMsgAlloc_cases hs with ⟨ha, hs⟩ | ⟨msg, mid, ha, hs⟩
  · cases hs
    simp
  · cases hs
    intro call hcall addr len hr
    obtain rfl := mem_singleton.mp hcall
    simp only [dataRange, some.injEq, Prod.mk.injEq] at hr
    refine ⟨found, _, hf, ?_, hr.2.symm⟩
    rw [← hr.1, holdMd_start ha]
    refine (Quiet.of_wantAck mid msg found.md hdr.src ackMd bits).trans ?_
    refine .trans (.of_recordEvent _ _ _ _ ?_) (.of_counters _ _)
    exact fun _ => rfl

theorem parseGet_touches {rlength srcOffset returnOffset : PtlSize} {returnMd : PtlHandle}
    (hs : parseGet ni hdr k bits rlength srcOffset returnOffset returnMd r = some o) :
    ∀ call ∈ o.calls, TouchesFound ni ⟨hdr.src, k, .get, rlength, srcOffset, bits⟩ call := by
  rcases libFindMd_cases hs with ⟨hf, hs⟩ | ⟨found, hf, hs⟩
  · cases hs
    simp [TouchesFound, dataRange]
  rcases libMsgAlloc_cases hs with ⟨ha, hs⟩ | ⟨msg, mid, ha, hs⟩
  · cases hs
    simp [TouchesFound, dataRange]
  · cases hs
    intro call hcall addr len hr
    rcases mem_cons.mp hcall with rfl | hcall
    · cases hr
    obtain rfl := mem_singleton.mp hcall
    simp only [dataRange, some.injEq, Prod.mk.injEq] at hr
    refine ⟨found, _, hf, ?_, hr.2.symm⟩
    rw [← hr.1, holdMd_start ha]
    refine .trans (.of_recordEvent mid _ _ _ ?_) (.of_counters _ _)
    exact fun _ => rfl

theorem libParse_touches (hreq : hdr.request = some req)
    (hs : libParse ni hdr r = some o) : ∀ call ∈ o.calls, TouchesFound ni req call := by
  unfold PtlHdr.request at hreq
  unfold libParse at hs
  split at hreq
  next hm =>
    cases hreq
    simp only [hm] at hs
    exact parsePut_touches hs
  next hm =>
    cases hreq
    simp only [hm] at hs
    exact parseGet_touches hs
  next => cases hreq

/-- In a run whose requests are in range, a put or get that finds a descriptor gets a
range inside it, and so is the memory handed to the NAL. -/
theorem remote_access_inside {ni : LibNi} (h : Reachable RequestsInRange ni) {hdr : PtlHdr}
    {req : MdRequest} (hreq : hdr.request = some req) (hrange : RequestInRange ni req) :
    (∀ found ni', libFindMd ni req = some (some (found, ni')) → Inside (ni.md found.md) found) ∧
    ∀ r o, libParse ni hdr r = some o → ∀ call ∈ o.calls, ∀ addr len,
      call.dataRange = some (addr, len) → ∃ d, LiveMd ni d ∧ (ni.md d).start ≤ addr ∧
        addr + len.toInt ≤ (ni.md d).start + (ni.md d).length.toInt := by
  have hoff := reachable_nonnegOffsets h
  refine ⟨fun found ni' hf => (found_inside h.wf hoff hrange hf).1, ?_⟩
  intro r o hs call hcall addr len hr
  obtain ⟨found, ni', hf, rfl, rfl⟩ := libParse_touches hreq hs call hcall addr len hr
  obtain ⟨h0, hlen, hsum⟩ := (found_inside h.wf hoff hrange hf).1
  exact ⟨found.md, h.wf.found_live hf, by omega, by omega⟩

def attachMe : Call := .meAttach 0 0 ⟨anySource, 7, 0, .retain⟩

def remotePtlMd : PtlMd :=
  ⟨0, 10, ptlMdThreshInf, 10, ptlMdOpPut ||| ptlMdManageRemote, 0, ptlEqNone⟩

def putHdr (length offset : PtlSize) : PtlHdr :=
  ⟨1, 1, ⟨2, 2, 0, 1⟩, .put 0 (-1) 7 length offset 0⟩

theorem remote_access_inside_put : ∃ ni, Reachable RequestsInRange ni ∧
    ∀ found ni', libFindMd ni ⟨⟨2, 2, 0, 1⟩, 0, .put, 4, 6, 7⟩ = some (some (found, ni')) →
      Inside (ni.md found.md) found := by
  have h0 : Reachable RequestsInRange freshNi := .init ..
  have h1 := h0.step (c := attachMe) (r := okReply) trivial trivial rfl
  have h2 := h1.step (c := .mdAttach 4095 remotePtlMd .retain) (r := okReply) trivial trivial rfl
  have hreq : (putHdr 4 6).request = some ⟨⟨2, 2, 0, 1⟩, 0, .put, 4, 6, 7⟩ := rfl
  refine ⟨_, h2, (remote_access_inside h2 hreq ?_).1⟩
  intro ids _ m _ d hd _
  have hd' : update (update (fun _ : ℕ => none) 4095 none) 4095 (some 4095) m = some d := hd
  obtain rfl : d = 4095 := by by_cases hm : m = 4095 <;> simp_all
  exact ⟨by decide, fun _ => by decide, fun _ => by decide⟩

theorem remote_access_outside : ∃ ni, Reachable (fun _ _ => True) ni ∧
    ∃ found ni', libFindMd ni ⟨⟨2, 2, 0, 1⟩, 0, .put, 3, -5, 7⟩ = some (some (found, ni')) ∧
      found.offset.toInt < 0 ∧ 0 ≤ (ni.md found.md).length := by
  have h1 := freshNi_reachable.calls attachMe trivial rfl
  have h2 := h1.calls (.mdAttach 4095 remotePtlMd .retain) trivial rfl
  exact ⟨_, h2, ⟨4095, 3, -5⟩, _, rfl, by decide, by decide⟩

end Cplant.Portals
