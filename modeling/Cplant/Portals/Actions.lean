import Cplant.Portals.Steps

/-!
# What a call does, in full

`Action` is the list of everything that a call can do to an interface, with the event
queues and the messages. It follows the branches of the source, so every call is looked
at once, and all invariants are derived from it.
-/
namespace Cplant.Portals
open List Option LibNi LibMsg Function Int32

def LiveEq (ni : LibNi) (e : ℕ) : Prop := e < maxEqs ∧ ni.eqPool.InUse e

def LibNi.expecting (ni : LibNi) (d : ℕ) : ℕ → LibEq :=
  match (ni.md d).eq with
  | none => ni.eq
  | some e => update ni.eq e { ni.eq e with pending := (ni.eq e).pending + 1 }

structure Starts (ni : LibNi) (i d : ℕ) (checkOffset : Bool) (ni' : LibNi) : Prop where
  up : ni'.up = ni.up
  src : ni'.src = ni.src
  tblSize : ni'.tblSize = ni.tblSize
  eqPool : ni'.eqPool = ni.eqPool
  mePool : ni'.mePool = ni.mePool
  mdPool : ni'.mdPool = ni.mdPool
  meLinks : ni'.meLinks = ni.meLinks
  mdLinks : ni'.mdLinks = ni.mdLinks
  me : ni'.me = ni.me
  md : ni'.md = update ni.md d (heldMd (ni.md d) checkOffset)
  eq : ni'.eq = ni.expecting d
  alloc : ni.msgPool.alloc = some (i, ni'.msgPool)
  msgMd : (ni'.msg i).md = some d
  msg : ∀ j, j ≠ i → ni'.msg j = ni.msg j

def LibNi.posted (ni : LibNi) (i d : ℕ) : LibNi :=
  match (ni.md d).eq with
  | none => ni
  | some e => eqDone (stampEvent ni i e) e

def Call.ownMd : Call → Option ℕ
  | .put args _ _ => some (handleIndex args.mdIn)
  | .get args => some (handleIndex args.mdIn)
  | .parse hdr =>
    match hdr.msg with
    | .ack dstMd _ _ => some (handleIndex dstMd)
    | .reply dstMd _ _ => some (handleIndex dstMd)
    | _ => none
  | _ => none

def LibMsg.ackTo (m : LibMsg) : PtlHandle × PtlId × PtlId := (m.returnMd, m.nid, m.pid)

def LibMsg.Owes (m : LibMsg) (a : PtlHandle × PtlId × PtlId) : Prop :=
  m.returnMd = -1 ∨ 0 ≤ m.returnMd ∧ m.ackTo = a

variable {m : LibMsg} {fill : LibMsg → LibMsg} {args : MoveArgs} {data : UInt64}
  {ni ni' mid : LibNi} {i d : ℕ} {checkOffset : Bool}

theorem LibMsg.Owes.of_eq {m' : LibMsg} {a : PtlHandle × PtlId × PtlId} (h : m.Owes a)
    (heq : m'.ackTo = m.ackTo) : m'.Owes a := by
  have hr : m'.returnMd = m.returnMd := congrArg Prod.fst heq
  rwa [Owes, hr, heq]

def PtlHdr.ackMd (hdr : PtlHdr) : PtlHandle :=
  match hdr.msg with
  | .put _ ackMd _ _ _ _ => ackMd
  | _ => -1

inductive Action (ni : LibNi) : Call → LibNi → Prop
  | rejected {c : Call} (counters : LibCounters) : Action ni c { ni with counters }
  | eqAlloc {h : PtlHandle} {count : PtlSize} {base : ℤ} {new : ℕ} {pool : FreeList}
      (halloc : ni.eqPool.alloc = some (new, pool)) :
      Action ni (.eqAlloc h count base) { ni with
        eqPool := pool
        eq := update ni.eq new
          { sequence := 1, base := base, size := count, pending := 0 } }
  | eqFree {h : PtlHandle} (hlive : LiveEq ni (handleIndex h)) :
      Action ni (.eqFree h) { ni with eqPool := ni.eqPool.release (handleIndex h) }
  | meAttach {h : PtlHandle} {k : PtlPtIndex} {me : LibMe} {new : ℕ} {mid : LibNi}
      (hk : 0 ≤ k ∧ k < ni.tblSize) (hempty : ni.meLinks.head k = none)
      (halloc : allocMe ni me = some (new, mid)) :
      Action ni (.meAttach h k me) { mid with meLinks := mid.meLinks.attach k new }
  | meInsert {h : PtlHandle} {me : LibMe} {pos : PtlInsPos} {new : ℕ} {mid : LibNi}
      (hlive : LiveMe ni (handleIndex h)) (halloc : allocMe ni me = some (new, mid)) :
      Action ni (.meInsert h me pos)
        { mid with meLinks := libInsert mid.meLinks (handleIndex h) new pos }
  | meUnlink {h : PtlHandle} {ni' : LibNi} {calls : List NalCall}
      (hlive : LiveMe ni (handleIndex h))
      (hun : libMeUnlink ni (handleIndex h) = some (ni', calls)) : Action ni (.meUnlink h) ni'
  | mdAttach {h : PtlHandle} {md : PtlMd} {u : PtlUnlink} {r : NalReply} {new : ℕ} {mid : LibNi}
      {calls : List NalCall} (hlive : LiveMe ni (handleIndex h))
      (hempty : ni.mdLinks.head (handleIndex h) = none)
      (hbuild : libMdBuild ni md r = some (.ok new mid calls)) :
      Action ni (.mdAttach h md u) { mid with
        mdLinks := mid.mdLinks.attach (handleIndex h) new
        md := update mid.md new
          { mid.md new with unlink := u, me := some (handleIndex h) } }
  | mdInsert {h : PtlHandle} {md : PtlMd} {u : PtlUnlink} {pos : PtlInsPos} {r : NalReply}
      {new : ℕ} {mid : LibNi} {calls : List NalCall} (hlive : LiveMd ni (handleIndex h))
      (hbuild : libMdBuild ni md r = some (.ok new mid calls)) :
      Action ni (.mdInsert h md u pos) { mid with
        mdLinks := libInsert mid.mdLinks (handleIndex h) new pos
        md := update mid.md new
          { mid.md new with unlink := u, me := (mid.md (handleIndex h)).me } }
  | mdBind {h : PtlHandle} {md : PtlMd} {r : NalReply} {new : ℕ} {mid : LibNi}
      {calls : List NalCall} (hbuild : libMdBuild ni md r = some (.ok new mid calls)) :
      Action ni (.mdBind h md) mid
  | mdUnlink {h : PtlHandle} (hlive : LiveMd ni (handleIndex h)) :
      Action ni (.mdUnlink h) (libMdUnlink ni (handleIndex h))
  | mdUpdate {h testqIn : PtlHandle} {old : Bool} {new : PtlMd} {seq : PtlSeq} {testq eq : Option ℕ}
      {key : ℤ} (hlive : LiveMd ni (handleIndex h))
      (htestq : mdUpdateTestq testqIn = some (some testq))
      (hready : mdUpdateReady ni testq seq = true)
      (heq : mdUpdateEq ni new.eventq = some eq) :
      Action ni (.mdUpdate h old (some new) testqIn seq)
        (ni.setMd (handleIndex h) (updatedMd (ni.md (handleIndex h)) new eq key))
  | granted {hdr : PtlHdr} {req : MdRequest} {found : MdFound} (hreq : hdr.request = some req)
      (hfound : libFindMd ni req = some (some (found, ni.charge found)))
      (hfull : ni.msgPool.alloc = none) : Action ni (.parse hdr) (ni.charge found)
  | grantedHeld {hdr : PtlHdr} {req : MdRequest} {found : MdFound} {i : ℕ} {ni' : LibNi}
      (hreq : hdr.request = some req)
      (hfound : libFindMd ni req = some (some (found, ni.charge found)))
      (hstart : Starts (ni.charge found) i found.md true ni')
      (hreturn : (ni'.msg i).Owes (hdr.ackMd, hdr.src.nid, hdr.src.pid)) :
      Action ni (.parse hdr) ni'
  | held {c : Call} {d i : ℕ} {ni' : LibNi} (hown : c.ownMd = some d) (hlive : LiveMd ni d)
      (hactive : (ni.md d).threshold ≠ 0) (hstart : Starts ni i d false ni')
      (hreturn : (ni'.msg i).returnMd = -1) : Action ni c ni'
  | notWritten {i d e : ℕ} (hmd : (ni.msg i).md = some d) (heq : (ni.md d).eq = some e) :
      Action ni (.finalize (some i)) (stampEvent ni i e)
  | finalize {i d : ℕ} {ni' : LibNi} {calls : List NalCall} (hmd : (ni.msg i).md = some d)
      (hrelease : releaseMd (ni.posted i d) d = some (ni', calls)) :
      Action ni (.finalize (some i)) (libMsgFree ni' i)

def NalCall.Plain : NalCall → Prop
  | .write .. | .send .. => False
  | _ => True

inductive Emits (ni : LibNi) : Call → NalCall → Prop
  | plain {c : Call} {k : NalCall} (h : k.Plain) : Emits ni c k
  | put {args : MoveArgs} {ack : Bool} {data : UInt64} {i : ℕ} {nid pid gid rid : PtlId}
      {length : PtlSize} {addr : Option ℤ} {src : PtlSrc} (hsrc : src = ni.src)
      (hlive : LiveMd ni (handleIndex args.mdIn)) :
      Emits ni (.put args ack data) (.send (some i)
        ⟨nid, pid, src, .put args.portalIn
          (if ack then ofNat (handleIndex args.mdIn) else -1) args.matchBitsIn length
          args.offsetIn data⟩ nid pid gid rid addr length)
  | get {args : MoveArgs} {i : ℕ} {nid pid gid rid : PtlId} {length offset : PtlSize}
      (hlive : LiveMd ni (handleIndex args.mdIn)) :
      Emits ni (.get args) (.send (some i)
        ⟨nid, pid, ni.src, .get args.portalIn args.matchBitsIn length args.offsetIn offset
          (ofNat (handleIndex args.mdIn))⟩ nid pid gid rid none 0)
  | reply {hdr : PtlHdr} {k : PtlPtIndex} {bits : PtlMatchBits}
      {length srcOffset returnOffset mlength : PtlSize} {returnMd : PtlHandle} {i : ℕ}
      {addr : Option ℤ} {src : PtlSrc}
      (hmsg : hdr.msg = .get k bits length srcOffset returnOffset returnMd) :
      Emits ni (.parse hdr) (.send (some i)
        ⟨hdr.src.nid, hdr.src.pid, src, .reply returnMd returnOffset mlength⟩
        hdr.src.nid hdr.src.pid hdr.src.gid hdr.src.rid addr mlength)
  | write {i : ℕ} {base : ℤ} {slot : UInt32} {ev : PtlEvent} :
      Emits ni (.finalize (some i)) (.write base slot ev)
  | ack {i : ℕ} {mlength : PtlSize} {bits : PtlMatchBits} {gid rid : PtlId} {src : PtlSrc}
      (howed : 0 ≤ (ni.msg i).returnMd) :
      Emits ni (.finalize (some i)) (.send none
        ⟨(ni.msg i).nid, (ni.msg i).pid, src, .ack (ni.msg i).returnMd mlength bits⟩
        (ni.msg i).nid (ni.msg i).pid gid rid none 0)

structure Acts (ni : LibNi) (c : Call) (o : Outcome) : Prop where
  action : Action ni c o.ni
  emits : ∀ k ∈ o.calls, Emits ni c k

structure Prepared (mid : LibNi) (i d : ℕ) (ni : LibNi) : Prop where
  same : ∃ eq msg counters, ni = { mid with eq, msg, counters }
  eq : ni.eq = mid.expecting d
  msg : ∀ j, j ≠ i → ni.msg j = mid.msg j

namespace Prepared
variable {mid ni ni' : LibNi} {i d : ℕ}

theorem recordEvent (mid : LibNi) (i d : ℕ) (fill : LibMsg → LibMsg) :
    Prepared mid i d (recordEvent mid i d fill) := by
  unfold Portals.recordEvent
  cases heq : (mid.md d).eq with
  | none => exact ⟨⟨_, _, _, rfl⟩, by simp [expecting, heq], fun _ _ => rfl⟩
  | some e =>
    refine ⟨⟨_, _, _, rfl⟩, by simp [expecting, heq], fun j hj => ?_⟩
    simp [hj]

theorem counters (h : Prepared mid i d ni) (counters : LibCounters) :
    Prepared mid i d { ni with counters } := by
  obtain ⟨⟨eq, msg, c, rfl⟩, heq, hmsg⟩ := h
  exact ⟨⟨_, _, _, rfl⟩, heq, hmsg⟩

theorem setMsg (h : Prepared (mid.setMsg i m) i d ni) : Prepared mid i d ni := by
  obtain ⟨⟨eq, msg, c, rfl⟩, heq, hmsg⟩ := h
  refine ⟨⟨_, _, _, rfl⟩, heq, fun j hj => ?_⟩
  rw [hmsg j hj]
  simp [setMsg, hj]

theorem wantAck {src : PtlSrc} {ackMd : PtlHandle} {bits : PtlMatchBits}
    (h : Prepared (wantAck mid i d src ackMd bits) i d ni) : Prepared mid i d ni := by
  unfold Portals.wantAck at h
  split_ifs at h
  · exact h.setMsg
  · exact h

theorem starts (h : Prepared mid i d ni) (ha : libMsgAlloc ni' = some (i, mid)) :
    Starts ni' i d checkOffset (holdMd ni i d checkOffset) := by
  obtain ⟨⟨eq, msg, c, rfl⟩, heq, hmsg⟩ := h
  unfold libMsgAlloc at ha
  split at ha
  · cases ha
  next hp =>
    cases ha
    refine ⟨rfl, rfl, rfl, rfl, rfl, rfl, rfl, rfl, rfl, rfl, heq, hp, by simp [holdMd],
      fun j hj => ?_⟩
    have hj' := hmsg j hj
    simp only [ne_eq, hj, not_false_eq_true, update_of_ne] at hj'
    simp [holdMd, hj, hj']

end Prepared

theorem Starts.counters {counters : LibCounters} (h : Starts ni i d checkOffset ni') :
    Starts ni i d checkOffset { ni' with counters } :=
  { h with }

theorem Starts.of_counters {counters : LibCounters}
    (h : Starts { ni with counters } i d checkOffset ni') : Starts ni i d checkOffset ni' :=
  { h with }

theorem libMsgAlloc_returnMd (ha : libMsgAlloc ni = some (i, mid)) : (mid.msg i).returnMd = -1 := by
  unfold libMsgAlloc at ha
  split at ha
  · cases ha
  · cases ha
    simp

theorem holdMd_ackTo (ni : LibNi) (i d : ℕ) (checkOffset : Bool) :
    ((holdMd ni i d checkOffset).msg i).ackTo = (ni.msg i).ackTo := by
  simp [holdMd, ackTo]

theorem recordEvent_ackTo (hfill : ∀ m, (fill m).ackTo = m.ackTo) :
    ((recordEvent ni i d fill).msg i).ackTo = (ni.msg i).ackTo := by
  unfold recordEvent
  split
  · rfl
  · simpa [ackTo] using hfill (ni.msg i)

theorem libMsgAlloc_src (ha : libMsgAlloc ni = some (i, mid)) : mid.src = ni.src := by
  unfold libMsgAlloc at ha
  split at ha
  · cases ha
  · cases ha
    rfl

theorem recordEvent_src (ni : LibNi) (i d : ℕ) (fill : LibMsg → LibMsg) :
    (recordEvent ni i d fill).src = ni.src := by
  unfold recordEvent
  split <;> rfl

theorem holdMd_returnMd (checkOffset : Bool) (ha : libMsgAlloc ni = some (i, mid))
    (hmsg : ni'.msg = (recordEvent mid i d fill).msg) (hfill : ∀ m, (fill m).returnMd = -1) :
    ((holdMd ni' i d checkOffset).msg i).returnMd = -1 := by
  have hi := libMsgAlloc_returnMd ha
  unfold recordEvent at hmsg
  split at hmsg <;> simp [holdMd, hmsg, hi, hfill]

theorem wantAck_owes (d : ℕ) (src : PtlSrc) (ackMd : PtlHandle) (bits : PtlMatchBits)
    (hi : (ni.msg i).returnMd = -1) :
    ((wantAck ni i d src ackMd bits).msg i).Owes (ackMd, src.nid, src.pid) := by
  unfold wantAck
  split_ifs with h
  · exact .inr (by simpa [setMsg, ackTo] using h.1)
  · exact .inl hi

variable {ni : LibNi} {r : NalReply} {o : Outcome} {c : Call} {md : PtlMd} {calls : List NalCall}
  {h dst : PtlHandle} {k : PtlPtIndex} {me : LibMe} {pos : PtlInsPos} {u : PtlUnlink} {hdr : PtlHdr}
  {bits : PtlMatchBits} {rlength : PtlSize} {i : ℕ}

theorem Action.same : Action ni c ni := .rejected ni.counters

theorem Acts.of_plain (ha : Action ni c o.ni) (h : ∀ k ∈ o.calls, k.Plain) : Acts ni c o :=
  ⟨ha, fun k hk => .plain (h k hk)⟩

theorem Acts.of_silent (ha : Action ni c o.ni) (h : o.calls = []) : Acts ni c o :=
  .of_plain ha (by simp [h])

theorem libMdBuild_plain {b : MdBuild} (hb : libMdBuild ni md r = some b) :
    match b with
    | .fail _ calls => ∀ k ∈ calls, k.Plain
    | .ok _ _ calls => ∀ k ∈ calls, k.Plain := by
  obtain ⟨eq, -, hb⟩ := map_eq_some_iff.mp hb
  cases eq with
  | none =>
    cases hb
    simp
  | some eq =>
    simp only at hb
    split_ifs at hb
    · cases hb
      simp [NalCall.Plain]
    · split at hb
      · cases hb
        simp [NalCall.Plain]
      · cases hb
        simp [NalCall.Plain]

theorem libMeUnlinkMds_plain {m : ℕ} : ∀ {fuel : ℕ} {ni ni' : LibNi} {calls : List NalCall},
    libMeUnlinkMds fuel ni m = some (ni', calls) → ∀ k ∈ calls, k.Plain := by
  intro fuel
  induction fuel with
  | zero =>
    intro ni ni' calls h
    simp only [libMeUnlinkMds, ite_none_right_eq_some] at h
    cases h.2
    simp
  | succ fuel ih =>
    intro ni ni' calls h
    unfold libMeUnlinkMds at h
    split at h
    · cases h
      simp
    · obtain ⟨⟨ni1, calls1⟩, h1, h⟩ := map_eq_some_iff.mp h
      cases h
      exact forall_mem_cons.mpr ⟨trivial, ih h1⟩

theorem libMeUnlink_plain {m : ℕ} (h : libMeUnlink ni m = some (ni', calls)) :
    ∀ k ∈ calls, k.Plain := by
  obtain ⟨⟨ni1, calls1⟩, h1, h⟩ := bind_eq_some_iff.mp h
  cases h
  exact libMeUnlinkMds_plain h1

inductive Releases (ni : LibNi) (d : ℕ) : LibNi → List NalCall → Prop
  | kept (h : ¬ ((ni.md d).pending = 0 ∧ (ni.md d).doUnlink = true)) : Releases ni d ni []
  | unlinked (h : (ni.md d).pending = 0 ∧ (ni.md d).doUnlink = true)
      (hlast : ∀ m, (ni.md d).me = some m → ¬ ((libMdUnlink ni d).mdLinks.head m = none ∧
        (ni.me m).unlink = .unlink)) :
      Releases ni d (libMdUnlink ni d) [libMdUnlinkCall (ni.md d)]
  | emptied {ni' : LibNi} {m : ℕ} {calls : List NalCall}
      (h : (ni.md d).pending = 0 ∧ (ni.md d).doUnlink = true) (hm : (ni.md d).me = some m)
      (hlast : (libMdUnlink ni d).mdLinks.head m = none ∧ (ni.me m).unlink = .unlink)
      (hun : libMeUnlink (libMdUnlink ni d) m = some (ni', calls)) :
      Releases ni d ni' (libMdUnlinkCall (ni.md d) :: calls)

abbrev LibNi.unhold (ni : LibNi) (d : ℕ) : LibNi :=
  ni.setMd d { ni.md d with pending := (ni.md d).pending - 1 }

theorem releaseMd_spec (h : releaseMd ni d = some (ni', calls)) :
    Releases (ni.unhold d) d ni' calls := by
  unfold releaseMd at h
  simp only at h
  split at h
  next hdone =>
    split at h
    next hm =>
      cases h
      exact .unlinked hdone (by simp [hm])
    next m hm =>
      split at h
      next hlast =>
        obtain ⟨⟨ni1, calls1⟩, hun, h⟩ := map_eq_some_iff.mp h
        cases h
        exact .emptied hdone hm hlast hun
      next hlast =>
        cases h
        exact .unlinked hdone fun m' hm' => some.inj (hm.symm.trans hm') ▸ hlast
  next hdone =>
    cases h
    exact .kept hdone

theorem releaseMd_plain (h : releaseMd ni d = some (ni', calls)) : ∀ k ∈ calls, k.Plain := by
  cases releaseMd_spec h with
  | kept => simp
  | unlinked => simp [libMdUnlinkCall, NalCall.Plain]
  | emptied _ _ _ hun => exact forall_mem_cons.mpr ⟨trivial, libMeUnlink_plain hun⟩

theorem doPtlMEAttach_cases (hs : doPtlMEAttach ni h k me = some o) :
    o.calls = [] ∧ (o.rc ≠ ptlOk ∧ o.ni = ni ∨ o.rc = ptlOk ∧ ∃ new mid, (0 ≤ k ∧ k < ni.tblSize) ∧
      ni.meLinks.head k = none ∧ allocMe ni me = some (new, mid) ∧
      o.ni = { mid with meLinks := mid.meLinks.attach k new }) := by
  unfold doPtlMEAttach at hs
  split_ifs at hs with hrange hend hempty
  · cases hs
    exact ⟨rfl, .inl ⟨show ptlInvPtindex ≠ ptlOk by decide, rfl⟩⟩
  · cases hs
    exact ⟨rfl, .inl ⟨show ptlInuse ≠ ptlOk by decide, rfl⟩⟩
  cases ha : allocMe ni me with
  | none =>
    simp only [ha, some.injEq] at hs
    cases hs
    exact ⟨rfl, .inl ⟨show ptlNospace ≠ ptlOk by decide, rfl⟩⟩
  | some p =>
    simp only [ha, some.injEq] at hs
    cases hs
    have hk : 0 ≤ k ∧ k < ni.tblSize := by
      simp only [lt_iff_toInt_lt, le_iff_toInt_le, ← toInt_inj] at *
      omega
    exact ⟨rfl, .inr ⟨rfl, p.1, p.2, hk, by simpa using hempty, rfl, rfl⟩⟩

theorem doPtlMEAttach_acts (hs : doPtlMEAttach ni h k me = some o) :
    Acts ni (.meAttach h k me) o := by
  obtain ⟨hcalls, ⟨-, hni⟩ | ⟨-, new, mid, hk, hempty, ha, hni⟩⟩ := doPtlMEAttach_cases hs
  · exact .of_silent (hni ▸ .same) hcalls
  · exact .of_silent (hni ▸ .meAttach hk hempty ha) hcalls

theorem doPtlMEInsert_cases (hs : doPtlMEInsert ni h me pos = some o) :
    o.calls = [] ∧ (o.rc ≠ ptlOk ∧ o.ni = ni ∨ o.rc = ptlOk ∧ ∃ new mid, LiveMe ni (handleIndex h) ∧
      allocMe ni me = some (new, mid) ∧
      o.ni = { mid with meLinks := libInsert mid.meLinks (handleIndex h) new pos }) := by
  rcases validObj_cases hs with rfl | ⟨hlive, hs⟩
  · exact ⟨rfl, .inl ⟨show ptlInvMe ≠ ptlOk by decide, rfl⟩⟩
  cases ha : allocMe ni me with
  | none =>
    simp only [ha] at hs
    cases hs
    exact ⟨rfl, .inl ⟨show ptlNospace ≠ ptlOk by decide, rfl⟩⟩
  | some p =>
    simp only [ha] at hs
    cases hs
    exact ⟨rfl, .inr ⟨rfl, p.1, p.2, hlive, rfl, rfl⟩⟩

theorem doPtlMEInsert_acts (hs : doPtlMEInsert ni h me pos = some o) :
    Acts ni (.meInsert h me pos) o := by
  obtain ⟨hcalls, ⟨-, hni⟩ | ⟨-, new, mid, hlive, ha, hni⟩⟩ := doPtlMEInsert_cases hs
  · exact .of_silent (hni ▸ .same) hcalls
  · exact .of_silent (hni ▸ .meInsert hlive ha) hcalls

theorem doPtlMEUnlink_cases (hs : doPtlMEUnlink ni h = some o) :
    o.rc ≠ ptlOk ∧ o.ni = ni ∧ o.calls = [] ∨ o.rc = ptlOk ∧ LiveMe ni (handleIndex h) ∧
      libMeUnlink ni (handleIndex h) = some (o.ni, o.calls) := by
  rcases validObj_cases hs with rfl | ⟨hlive, hs⟩
  · exact .inl ⟨show ptlInvMe ≠ ptlOk by decide, rfl, rfl⟩
  · obtain ⟨p, hp, hs⟩ := bind_eq_some_iff.mp hs
    cases hs
    exact .inr ⟨rfl, hlive, hp⟩

theorem doPtlMEUnlink_acts (hs : doPtlMEUnlink ni h = some o) : Acts ni (.meUnlink h) o := by
  obtain ⟨-, hni, hcalls⟩ | ⟨-, hlive, hun⟩ := doPtlMEUnlink_cases hs
  · exact .of_silent (hni ▸ .same) hcalls
  · exact .of_plain (.meUnlink hlive hun) (libMeUnlink_plain hun)

theorem libMdBuild_fail {rc : Int32} (hb : libMdBuild ni md r = some (.fail rc calls)) :
    rc ≠ ptlOk := by
  obtain ⟨eq, -, hb⟩ := map_eq_some_iff.mp hb
  cases eq with
  | none =>
    cases hb
    decide
  | some eq =>
    simp only at hb
    split_ifs at hb
    · cases hb
      decide
    · split at hb
      · cases hb
        decide
      · cases hb

theorem doPtlMDAttach_cases (hs : doPtlMDAttach ni h md u r = some o) :
    o.rc ≠ ptlOk ∧ o.ni = ni ∧ (o.calls = [] ∨ ∃ rc, libMdBuild ni md r = some (.fail rc o.calls)) ∨
      o.rc = ptlOk ∧ ∃ new mid, LiveMe ni (handleIndex h) ∧
      ni.mdLinks.head (handleIndex h) = none ∧ libMdBuild ni md r = some (.ok new mid o.calls) ∧
      o.ni = { mid with
        mdLinks := mid.mdLinks.attach (handleIndex h) new
        md := update mid.md new
          { mid.md new with unlink := u, me := some (handleIndex h) } } := by
  rcases validObj_cases hs with rfl | ⟨hlive, hs⟩
  · exact .inl ⟨show ptlInvMe ≠ ptlOk by decide, rfl, .inl rfl⟩
  split at hs
  · cases hs
    exact .inl ⟨show ptlInuse ≠ ptlOk by decide, rfl, .inl rfl⟩
  next hempty =>
  obtain ⟨b, hb, hs⟩ := bind_eq_some_iff.mp hs
  cases b with
  | fail rc calls =>
    cases hs
    exact .inl ⟨libMdBuild_fail hb, rfl, .inr ⟨rc, hb⟩⟩
  | ok new mid calls =>
    cases hs
    exact .inr ⟨rfl, new, mid, hlive, by simpa using hempty, hb, rfl⟩

theorem doPtlMDAttach_acts (hs : doPtlMDAttach ni h md u r = some o) :
    Acts ni (.mdAttach h md u) o := by
  obtain ⟨-, hni, hcalls | ⟨rc, hb⟩⟩ | ⟨-, new, mid, hlive, hempty, hb, hni⟩ :=
    doPtlMDAttach_cases hs
  · exact .of_silent (hni ▸ .same) hcalls
  · exact .of_plain (hni ▸ .same) (libMdBuild_plain hb)
  · exact .of_plain (hni ▸ .mdAttach hlive hempty hb) (libMdBuild_plain hb)

theorem doPtlMDInsert_cases (hs : doPtlMDInsert ni h md u pos r = some o) :
    o.rc ≠ ptlOk ∧ o.ni = ni ∧ (o.calls = [] ∨ ∃ rc, libMdBuild ni md r = some (.fail rc o.calls)) ∨
      o.rc = ptlOk ∧ ∃ new mid, LiveMd ni (handleIndex h) ∧
      libMdBuild ni md r = some (.ok new mid o.calls) ∧ o.ni = { mid with
        mdLinks := libInsert mid.mdLinks (handleIndex h) new pos
        md := update mid.md new
          { mid.md new with unlink := u, me := (mid.md (handleIndex h)).me } } := by
  rcases validObj_cases hs with rfl | ⟨hlive, hs⟩
  · exact .inl ⟨show ptlInvMd ≠ ptlOk by decide, rfl, .inl rfl⟩
  obtain ⟨b, hb, hs⟩ := bind_eq_some_iff.mp hs
  cases b with
  | fail rc calls =>
    cases hs
    exact .inl ⟨libMdBuild_fail hb, rfl, .inr ⟨rc, hb⟩⟩
  | ok new mid calls =>
    cases hs
    exact .inr ⟨rfl, new, mid, hlive, hb, rfl⟩

theorem doPtlMDInsert_acts (hs : doPtlMDInsert ni h md u pos r = some o) :
    Acts ni (.mdInsert h md u pos) o := by
  obtain ⟨-, hni, hcalls | ⟨rc, hb⟩⟩ | ⟨-, new, mid, hlive, hb, hni⟩ := doPtlMDInsert_cases hs
  · exact .of_silent (hni ▸ .same) hcalls
  · exact .of_plain (hni ▸ .same) (libMdBuild_plain hb)
  · exact .of_plain (hni ▸ .mdInsert hlive hb) (libMdBuild_plain hb)

theorem doPtlMDBind_cases (hs : doPtlMDBind ni h md r = some o) :
    o.rc ≠ ptlOk ∧ o.ni = ni ∧ (∃ rc, libMdBuild ni md r = some (.fail rc o.calls)) ∨
      o.rc = ptlOk ∧ ∃ new, libMdBuild ni md r = some (.ok new o.ni o.calls) := by
  obtain ⟨b, hb, hs⟩ := bind_eq_some_iff.mp hs
  cases b with
  | fail rc calls =>
    cases hs
    exact .inl ⟨libMdBuild_fail hb, rfl, rc, hb⟩
  | ok new mid calls =>
    cases hs
    exact .inr ⟨rfl, new, hb⟩

theorem doPtlMDBind_acts (hs : doPtlMDBind ni h md r = some o) : Acts ni (.mdBind h md) o := by
  obtain ⟨-, hni, rc, hb⟩ | ⟨-, new, hb⟩ := doPtlMDBind_cases hs
  · exact .of_plain (hni ▸ .same) (libMdBuild_plain hb)
  · exact .of_plain (.mdBind hb) (libMdBuild_plain hb)

theorem doPtlMDUnlink_cases (hs : doPtlMDUnlink ni h = some o) :
    o.rc ≠ ptlOk ∧ o.ni = ni ∧ o.calls = [] ∨ o.rc = ptlOk ∧ LiveMd ni (handleIndex h) ∧
      o.ni = libMdUnlink ni (handleIndex h) ∧
      o.calls = [libMdUnlinkCall (ni.md (handleIndex h))] := by
  rcases validObj_cases hs with rfl | ⟨hlive, hs⟩
  · exact .inl ⟨show ptlInvMd ≠ ptlOk by decide, rfl, rfl⟩
  · cases hs
    exact .inr ⟨rfl, hlive, rfl, rfl⟩

theorem doPtlMDUnlink_acts (hs : doPtlMDUnlink ni h = some o) : Acts ni (.mdUnlink h) o := by
  obtain ⟨-, hni, hcalls⟩ | ⟨-, hlive, hni, hcalls⟩ := doPtlMDUnlink_cases hs
  · exact .of_silent (hni ▸ .same) hcalls
  · exact .of_plain (hni ▸ .mdUnlink hlive) (by simp [hcalls, libMdUnlinkCall, NalCall.Plain])

theorem doPtlMDUpdate_acts {testq : PtlHandle} {old : Bool} {new : Option PtlMd} {seq : PtlSeq}
    (hs : doPtlMDUpdate ni h old new testq seq r = some o) :
    Acts ni (.mdUpdate h old new testq seq) o := by
  rcases validObj_cases hs with rfl | ⟨hlive, hs⟩
  · exact .of_silent .same rfl
  cases new with
  | none =>
    cases hs
    exact .of_silent .same rfl
  | some new =>
    obtain ⟨tq, htq, hs⟩ := bind_eq_some_iff.mp hs
    cases tq with
    | none =>
      cases hs
      exact .of_silent .same rfl
    | some tq =>
      simp only at hs
      split at hs
      · cases hs
        exact .of_silent .same rfl
      next hready =>
      split at hs
      · cases hs
        refine .of_plain .same ?_
        split <;> simp [NalCall.Plain]
      · obtain ⟨eq, heq, hs⟩ := bind_eq_some_iff.mp hs
        cases hs
        refine .of_plain (.mdUpdate hlive htq (by simpa using hready) heq) ?_
        split <;> simp [NalCall.Plain]

theorem doPtlEQAlloc_acts (ni : LibNi) (h : PtlHandle) (count : PtlSize) (base : ℤ) :
    Acts ni (.eqAlloc h count base) (doPtlEQAlloc ni h count base) := by
  unfold doPtlEQAlloc
  split
  · exact .of_plain .same (by simp [reject, NalCall.Plain])
  next ha => exact .of_silent (.eqAlloc ha) rfl

theorem doPtlEQFree_acts (hs : doPtlEQFree ni h = some o) : Acts ni (.eqFree h) o := by
  rcases validObj_cases hs with rfl | ⟨hlive, hs⟩
  · exact .of_silent .same rfl
  · cases hs
    exact .of_plain (.eqFree hlive) (by simp [NalCall.Plain])

theorem libMsgAlloc_none {found : MdFound} (h : libMsgAlloc (ni.charge found) = none) :
    ni.msgPool.alloc = none := by
  unfold libMsgAlloc at h
  split at h
  next hfull => exact hfull
  · cases h

theorem parsePut_acts {ackMd : PtlHandle} {roffset : PtlSize} (hack : hdr.ackMd = ackMd)
    (hreq : hdr.request = some ⟨hdr.src, k, .put, rlength, roffset, bits⟩)
    (hs : parsePut ni hdr k ackMd bits rlength roffset data = some o) : Acts ni (.parse hdr) o := by
  rcases libFindMd_cases hs with ⟨hf, hs⟩ | ⟨found, hf, hs⟩
  · cases hs
    exact .of_plain (.rejected _) (by simp [NalCall.Plain])
  rcases libMsgAlloc_cases hs with ⟨ha, hs⟩ | ⟨i, mid, ha, hs⟩
  · cases hs
    exact .of_silent (.granted hreq hf (libMsgAlloc_none ha)) rfl
  · cases hs
    refine .of_plain (.grantedHeld hreq hf (Prepared.starts ?_ ha) ?_) (by simp [NalCall.Plain])
    · exact ((Prepared.recordEvent _ _ _ _).counters _).wantAck
    · rw [hack]
      have howes := wantAck_owes found.md hdr.src ackMd bits (libMsgAlloc_returnMd ha)
      exact howes.of_eq ((holdMd_ackTo _ _ _ _).trans (recordEvent_ackTo fun _ => rfl))

theorem parseGet_acts {srcOffset returnOffset : PtlSize} {returnMd : PtlHandle}
    (hmsg : hdr.msg = .get k bits rlength srcOffset returnOffset returnMd)
    (hs : parseGet ni hdr k bits rlength srcOffset returnOffset returnMd r = some o) :
    Acts ni (.parse hdr) o := by
  have hreq : hdr.request = some ⟨hdr.src, k, .get, rlength, srcOffset, bits⟩ := by
    simp [PtlHdr.request, hmsg]
  rcases libFindMd_cases hs with ⟨hf, hs⟩ | ⟨found, hf, hs⟩
  · cases hs
    exact .of_plain (.rejected _) (by simp [NalCall.Plain])
  rcases libMsgAlloc_cases hs with ⟨ha, hs⟩ | ⟨i, mid, ha, hs⟩
  · cases hs
    exact .of_plain (.granted hreq hf (libMsgAlloc_none ha)) (by simp [NalCall.Plain])
  · cases hs
    refine ⟨.grantedHeld hreq hf (Prepared.starts ?_ ha) (.inl ?_), ?_⟩
    · exact (Prepared.recordEvent _ _ _ _).counters _
    · exact holdMd_returnMd _ ha rfl fun _ => rfl
    · exact forall_mem_cons.mpr ⟨.plain trivial, forall_mem_singleton.mpr (.reply hmsg)⟩

def TakesAnswer (ni : LibNi) (dst : PtlHandle) (o : Outcome) : Prop :=
  (∀ k ∈ o.calls, k.Plain) ∧
    (o.rc ≠ 0 ∧ (∃ counters, o.ni = { ni with counters }) ∨
      o.rc = 0 ∧ LiveMd ni (handleIndex dst) ∧ (ni.md (handleIndex dst)).threshold ≠ 0 ∧
        ∃ i, Starts ni i (handleIndex dst) false o.ni ∧ (o.ni.msg i).returnMd = -1)

theorem TakesAnswer.refused {counters : LibCounters} {rlen : PtlSize} : TakesAnswer ni dst
      { rc := -1, ni := { ni with counters }, calls := [.recv none none 0 rlen] } :=
  ⟨by simp [NalCall.Plain], .inl ⟨show (-1 : Int32) ≠ 0 by decide, _, rfl⟩⟩

theorem parseReply_cases {offset : PtlSize} (hs : parseReply ni hdr dst offset rlength = some o) :
    TakesAnswer ni dst o := by
  rcases validObj_cases hs with rfl | ⟨hlive, hs⟩
  · exact .refused
  split at hs
  · cases hs
    exact .refused
  next hactive =>
  simp only at hs
  split at hs
  · cases hs
    exact .refused
  rcases libMsgAlloc_cases hs with ⟨ha, hs⟩ | ⟨i, mid, ha, hs⟩
  · cases hs
    exact ⟨by simp, .inl ⟨show (1 : Int32) ≠ 0 by decide, _, rfl⟩⟩
  · cases hs
    refine ⟨by simp [NalCall.Plain], .inr ⟨rfl, hlive, hactive, i, Prepared.starts ?_ ha, ?_⟩⟩
    · exact (Prepared.recordEvent _ _ _ _).counters _
    · exact holdMd_returnMd _ ha rfl fun _ => rfl

theorem parseAck_cases {mlength : PtlSize} (hs : parseAck ni hdr dst mlength bits = some o) :
    TakesAnswer ni dst o := by
  rcases validObj_cases hs with rfl | ⟨hlive, hs⟩
  · exact .refused
  split at hs
  · cases hs
    exact .refused
  next hactive =>
  rcases libMsgAlloc_cases hs with ⟨ha, hs⟩ | ⟨i, mid, ha, hs⟩
  · cases hs
    exact ⟨by simp, .inl ⟨show (1 : Int32) ≠ 0 by decide, _, rfl⟩⟩
  · cases hs
    refine ⟨by simp [NalCall.Plain], .inr ⟨rfl, hlive, hactive, i,
      ((Prepared.recordEvent _ _ _ _).starts ha).counters, ?_⟩⟩
    exact holdMd_returnMd false ha rfl fun _ => rfl

theorem TakesAnswer.acts (h : TakesAnswer ni dst o)
    (hown : Call.ownMd (.parse hdr) = some (handleIndex dst)) : Acts ni (.parse hdr) o := by
  obtain ⟨hplain, ⟨-, counters, hni⟩ | ⟨-, hlive, hactive, i, hstart, hreturn⟩⟩ := h
  · exact .of_plain (hni ▸ .rejected counters) hplain
  · exact .of_plain (.held hown hlive hactive hstart hreturn) hplain

theorem libParse_acts (hs : libParse ni hdr r = some o) : Acts ni (.parse hdr) o := by
  unfold libParse at hs
  split at hs
  next hm => exact (parseAck_cases hs).acts (by simp [Call.ownMd, hm])
  next hm => exact parsePut_acts (by simp [PtlHdr.ackMd, hm]) (by simp [PtlHdr.request, hm]) hs
  next hm => exact parseGet_acts hm hs
  next hm => exact (parseReply_cases hs).acts (by simp [Call.ownMd, hm])
  all_goals
    cases hs
    exact .of_plain .same (by simp [NalCall.Plain])

theorem activeMd_cases {e e' : Int32} {id : Option PtlProcessId}
    {k : PtlProcessId → Option Outcome} (hs : ((validObj ni.mdPool maxMds d).bind fun ok =>
      if !ok || (ni.md d).threshold == 0 then some (reject ni e []) else
        match id with | none => some (reject ni e' []) | some id => k id) = some o) :
    o.ni = ni ∧ o.calls = [] ∨ LiveMd ni d ∧ (ni.md d).threshold ≠ 0 ∧ ∃ id, k id = some o := by
  obtain ⟨ok, hok, hs⟩ := bind_eq_some_iff.mp hs
  split at hs
  · exact some.inj hs ▸ .inl ⟨rfl, rfl⟩
  next hok' =>
  obtain ⟨rfl, hactive⟩ : ok = true ∧ (ni.md d).threshold ≠ 0 := by simpa using hok'
  split at hs
  · exact some.inj hs ▸ .inl ⟨rfl, rfl⟩
  · exact .inr ⟨validObj_spec hok rfl, hactive, _, hs⟩

theorem doPtlPut_acts {ack : Bool}
    (hs : doPtlPut ni args ack data r = some o) : Acts ni (.put args ack data) o := by
  rcases activeMd_cases hs with ⟨hni, hcalls⟩ | ⟨hlive, hactive, id, hs⟩
  · exact .of_silent (hni ▸ .same) hcalls
  rcases libMsgAlloc_cases hs with ⟨ha, hs⟩ | ⟨i, mid, ha, hs⟩
  · cases hs
    exact .of_silent (.rejected _) rfl
  · cases hs
    refine ⟨.held rfl hlive hactive ((Prepared.recordEvent _ _ _ _).starts ha).of_counters ?_, ?_⟩
    · exact holdMd_returnMd _ ha rfl fun _ => rfl
    · have hsrc := (recordEvent_src mid i (handleIndex args.mdIn)
        (sentEvent mid args (ni.md (handleIndex args.mdIn)).length data)).trans
          (libMsgAlloc_src ha)
      exact forall_mem_singleton.mpr (.put hsrc hlive)

theorem doPtlGet_acts (hs : doPtlGet ni args r = some o) : Acts ni (.get args) o := by
  rcases activeMd_cases hs with ⟨hni, hcalls⟩ | ⟨hlive, hactive, id, hs⟩
  · exact .of_silent (hni ▸ .same) hcalls
  rcases libMsgAlloc_cases hs with ⟨ha, hs⟩ | ⟨i, mid, ha, hs⟩
  · cases hs
    exact .of_silent (.rejected _) rfl
  · cases hs
    refine ⟨.held rfl hlive hactive ((Prepared.recordEvent _ _ _ _).starts ha).of_counters ?_, ?_⟩
    · exact holdMd_returnMd _ ha rfl fun _ => rfl
    · exact forall_mem_singleton.mpr (.get hlive)

def LibMsg.unstamped (m : LibMsg) : LibMsg := { m with ev := { m.ev with sequence := 0 } }

theorem stampEvent_unstamped (ni : LibNi) (i e j : ℕ) :
    ((stampEvent ni i e).msg j).unstamped = (ni.msg j).unstamped := by
  by_cases hj : j = i
  · simp [stampEvent, unstamped, hj]
  · simp [stampEvent, hj]

theorem posted_unstamped (ni : LibNi) (i d j : ℕ) :
    ((ni.posted i d).msg j).unstamped = (ni.msg j).unstamped := by
  unfold posted
  split
  · rfl
  · exact stampEvent_unstamped ni i _ j

theorem ackOf_emits {n : LibNi} (hm : m.ackTo = (ni.msg i).ackTo) :
    ∀ k ∈ ackOf n m, Emits ni (.finalize (some i)) k := by
  simp only [ackTo, Prod.mk.injEq] at hm
  unfold ackOf
  split_ifs with howed
  · rw [hm.1, hm.2.1, hm.2.2]
    exact forall_mem_singleton.mpr (.ack (hm.1 ▸ howed))
  · simp

theorem finishMsg_acts (hmd : (ni.msg i).md = some d)
    (hcalls : ∀ k ∈ calls, Emits ni (.finalize (some i)) k)
    (hs : finishMsg (ni.posted i d) i d r calls = some o) : Acts ni (.finalize (some i)) o := by
  obtain ⟨p, hp, hs⟩ := bind_eq_some_iff.mp hs
  cases hs
  refine ⟨.finalize hmd hp, fun k hk => ?_⟩
  rcases mem_append.mp hk with hk | hk
  · rcases mem_append.mp hk with hk | hk
    · exact hcalls k hk
    · have hto := congrArg ackTo (posted_unstamped ni i d i)
      exact ackOf_emits hto k hk
  · exact .plain (releaseMd_plain hp k hk)

theorem libFinalize_ends (hs : libFinalize ni (some i) r = some o) :
    (ni.up = false ∧ o.ni = ni ∧ o.calls = []) ∨ ni.up = true ∧ ∃ d, (ni.msg i).md = some d ∧
      ((∃ e, (ni.md d).eq = some e ∧ r.write ≠ 0 ∧ o.ni = stampEvent ni i e ∧
          ∃ base slot ev, o.calls = [.write base slot ev]) ∨
        (∀ e, (ni.md d).eq = some e → r.write = 0 ∧ (ni.eq e).size ≠ 0) ∧
          ∃ calls, (∀ k ∈ calls, ∃ base slot ev, k = .write base slot ev) ∧
            finishMsg (ni.posted i d) i d r calls = some o) := by
  unfold libFinalize at hs
  split at hs
  next hdown =>
    cases hs
    exact .inl ⟨by simpa using hdown, rfl, rfl⟩
  next hup =>
    obtain ⟨d, hd, hs⟩ := bind_eq_some_iff.mp hs
    refine .inr ⟨by simpa using hup, d, hd, ?_⟩
    cases he : (ni.md d).eq with
    | none =>
      simp only [he] at hs
      have hposted : ni.posted i d = ni := by simp [posted, he]
      exact .inr ⟨(nofun), [], by simp, hposted.symm ▸ hs⟩
    | some e =>
      simp only [he] at hs
      obtain ⟨⟨written, mid, call⟩, hp, hs⟩ := bind_eq_some_iff.mp hs
      unfold postEvent at hp
      split_ifs at hp with hsize hwrite
      · cases hp
        cases hs
        exact .inl ⟨e, rfl, hwrite, rfl, _, _, _, rfl⟩
      · cases hp
        have hposted : ni.posted i d = eqDone (stampEvent ni i e) e := by simp [posted, he]
        refine .inr ⟨?_, _, forall_mem_singleton.mpr ⟨_, _, _, rfl⟩, hposted.symm ▸ hs⟩
        rintro _ ⟨⟩
        exact ⟨by simpa using hwrite, hsize⟩

theorem libFinalize_acts {msg : Option ℕ} (hs : libFinalize ni msg r = some o) :
    Acts ni (.finalize msg) o := by
  cases msg with
  | none =>
    unfold libFinalize at hs
    split at hs
    · cases hs
      exact .of_silent .same rfl
    · cases hs
      exact .of_silent .same rfl
  | some i =>
    rcases libFinalize_ends hs with ⟨-, hni, hcalls⟩ | ⟨-, d, hd, hcase⟩
    · exact .of_silent (hni ▸ .same) hcalls
    · rcases hcase with ⟨e, he, -, hni, base, slot, ev, hcalls⟩ | ⟨-, calls, hcalls, hs⟩
      · refine ⟨hni ▸ .notWritten hd he, ?_⟩
        rw [hcalls]
        exact forall_mem_singleton.mpr .write
      · refine finishMsg_acts hd (fun k hk => ?_) hs
        obtain ⟨base, slot, ev, rfl⟩ := hcalls k hk
        exact .write

theorem step_acts (hs : step ni r c = some o) : Acts ni c o := by
  cases c with
  | meAttach => exact doPtlMEAttach_acts hs
  | meInsert => exact doPtlMEInsert_acts hs
  | meUnlink => exact doPtlMEUnlink_acts hs
  | tblDump k =>
    simp only [step, doPtlTblDump] at hs
    split_ifs at hs <;> cases hs <;> exact .of_silent .same rfl
  | meDump =>
    rcases validObj_cases hs with rfl | ⟨-, hs⟩
    · exact .of_silent .same rfl
    · cases hs
      exact .of_silent .same rfl
  | mdAttach => exact doPtlMDAttach_acts hs
  | mdInsert => exact doPtlMDInsert_acts hs
  | mdBind => exact doPtlMDBind_acts hs
  | mdUnlink => exact doPtlMDUnlink_acts hs
  | mdUpdate => exact doPtlMDUpdate_acts hs
  | eqAlloc h count base =>
    cases hs
    exact doPtlEQAlloc_acts ni h count base
  | eqFree => exact doPtlEQFree_acts hs
  | put => exact doPtlPut_acts hs
  | get => exact doPtlGet_acts hs
  | parse => exact libParse_acts hs
  | finalize => exact libFinalize_acts hs

theorem step_action (hs : step ni r c = some o) : Action ni c o.ni :=
  (step_acts hs).action

theorem stampEvent_quiet (ni : LibNi) (i e : ℕ) : Quiet ni (stampEvent ni i e) :=
  ⟨rfl, rfl, rfl, rfl, rfl, rfl, rfl, rfl, Quiet.update_msgMd rfl⟩

theorem posted_quiet (ni : LibNi) (i d : ℕ) : Quiet ni (ni.posted i d) := by
  unfold posted
  split
  · exact .refl ni
  · exact (stampEvent_quiet ni i _).trans (.of_eq _ _ _)

end Cplant.Portals
