import Cplant.Portals.Move

/-!
# Runs of one interface

`step` is one library call: a dispatched API call, an incoming header handed to
`lib_parse`, or the completion of a message. `Effect` lists what a call can do to
the objects; every invariant is proved against that list.
-/
namespace Cplant.Portals
open Function Option

inductive Call
  | meAttach (interfaceIn : PtlHandle) (indexIn : PtlPtIndex) (me : LibMe)
  | meInsert (currentIn : PtlHandle) (me : LibMe) (positionIn : PtlInsPos)
  | meUnlink (currentIn : PtlHandle)
  | tblDump (indexIn : PtlPtIndex)
  | meDump (currentIn : PtlHandle)
  | mdAttach (currentIn : PtlHandle) (mdIn : PtlMd) (unlinkIn : PtlUnlink)
  | mdInsert (currentIn : PtlHandle) (mdIn : PtlMd) (unlinkIn : PtlUnlink)
      (positionIn : PtlInsPos)
  | mdBind (niIn : PtlHandle) (mdIn : PtlMd)
  | mdUnlink (mdIn : PtlHandle)
  | mdUpdate (mdIn : PtlHandle) (oldIn : Bool) (newIn : Option PtlMd) (testqIn : PtlHandle)
      (sequenceIn : PtlSeq)
  | eqAlloc (niIn : PtlHandle) (countIn : PtlSize) (baseIn : ℤ)
  | eqFree (eventqIn : PtlHandle)
  | put (args : MoveArgs) (ackReq : Bool) (hdrData : UInt64)
  | get (args : MoveArgs)
  | parse (hdr : PtlHdr)
  | finalize (msg : Option ℕ)

def step (ni : LibNi) (r : NalReply) : Call → Option Outcome
  | .meAttach interfaceIn indexIn me => doPtlMEAttach ni interfaceIn indexIn me
  | .meInsert currentIn me positionIn => doPtlMEInsert ni currentIn me positionIn
  | .meUnlink currentIn => doPtlMEUnlink ni currentIn
  | .tblDump indexIn => doPtlTblDump ni indexIn
  | .meDump currentIn => doPtlMEDump ni currentIn
  | .mdAttach currentIn mdIn unlinkIn => doPtlMDAttach ni currentIn mdIn unlinkIn r
  | .mdInsert currentIn mdIn unlinkIn positionIn =>
    doPtlMDInsert ni currentIn mdIn unlinkIn positionIn r
  | .mdBind niIn mdIn => doPtlMDBind ni niIn mdIn r
  | .mdUnlink mdIn => doPtlMDUnlink ni mdIn
  | .mdUpdate mdIn oldIn newIn testqIn sequenceIn =>
    doPtlMDUpdate ni mdIn oldIn newIn testqIn sequenceIn r
  | .eqAlloc niIn countIn baseIn => some (doPtlEQAlloc ni niIn countIn baseIn)
  | .eqFree eventqIn => doPtlEQFree ni eventqIn
  | .put args ackReq hdrData => doPtlPut ni args ackReq hdrData r
  | .get args => doPtlGet ni args r
  | .parse hdr => libParse ni hdr r
  | .finalize msg => libFinalize ni msg r

def Enabled (ni : LibNi) : Call → Prop
  | .finalize (some i) => i < maxMsgs ∧ ni.msgPool.InUse i
  | _ => True

instance (ni : LibNi) (c : Call) : Decidable (Enabled ni c) := by
  unfold Enabled
  split
  · exact inferInstanceAs (Decidable (_ ∧ _))
  · exact .isTrue trivial

/-- States reached from `lib_init`, over any initial memory, by calls that satisfy `ok`. -/
inductive Reachable (ok : LibNi → Call → Prop) : LibNi → Prop
  | init (mem : LibNi) (nid pid rid gid : PtlId) (gsize : Int32) (ptlSize : PtlPtIndex) :
      Reachable ok (libInit mem nid pid rid gid gsize ptlSize)
  | step {ni : LibNi} {c : Call} {r : NalReply} {o : Outcome} (h : Reachable ok ni)
      (henabled : Enabled ni c) (hok : ok ni c) (hstep : step ni r c = some o) :
      Reachable ok o.ni

variable {ni : LibNi} {i max : ℕ} {pool : FreeList} {o : Outcome} {req : MdRequest}

theorem Reachable.mono {ok ok' : LibNi → Call → Prop} (himp : ∀ ni c, ok ni c → ok' ni c)
    (h : Reachable ok ni) : Reachable ok' ni := by
  induction h with
  | init => exact .init ..
  | step h hen hok hs ih => exact ih.step hen (himp _ _ hok) hs

def blankNi : LibNi where
  up := false
  nid := 0
  pid := 0
  rid := 0
  gid := 0
  numNodes := 0
  tblSize := 0
  eqPool := ⟨fun _ => .null, .null⟩
  mePool := ⟨fun _ => .null, .null⟩
  mdPool := ⟨fun _ => .null, .null⟩
  msgPool := ⟨fun _ => .null, .null⟩
  meLinks := ⟨fun _ => none, fun _ => none, fun _ => none⟩
  mdLinks := ⟨fun _ => none, fun _ => none, fun _ => none⟩
  eq := fun _ => ⟨0, 0, 0, 0⟩
  me := fun _ => ⟨⟨.both, 0, 0, 0, 0⟩, 0, 0, .retain⟩
  md := fun _ => newMd ⟨0, 0, 0, 0, 0, 0, 0⟩ none 0
  msg := fun _ => ⟨none, 0, 0, 0, 0, ⟨.put, 0, ⟨.both, 0, 0, 0, 0⟩, 0, 0, 0, 0, 0,
    ⟨0, 0, 0, 0, 0, 0, 0⟩, 0⟩, 0⟩
  counters := ⟨0, 0, 0, 0, 0, 0, 0, 0⟩

def freshNi : LibNi := libInit blankNi 1 1 0 0 1 1

def okReply : NalReply := ⟨0, 0, 0, 0, none, none⟩

theorem freshNi_reachable : Reachable (fun _ _ => True) freshNi := .init ..

theorem Reachable.calls (h : Reachable (fun _ _ => True) ni) (c : Call) (hen : Enabled ni c)
    (hs : Portals.step ni okReply c = some o) : Reachable (fun _ _ => True) o.ni :=
  h.step hen trivial hs

def LiveMe (ni : LibNi) (m : ℕ) : Prop := m < maxMes ∧ ni.mePool.InUse m
def LiveMd (ni : LibNi) (d : ℕ) : Prop := d < maxMds ∧ ni.mdPool.InUse d
def LiveMsg (ni : LibNi) (i : ℕ) : Prop := i < maxMsgs ∧ ni.msgPool.InUse i

instance (ni : LibNi) (i : ℕ) : Decidable (LiveMsg ni i) := inferInstanceAs (Decidable (_ ∧ _))
instance (ni : LibNi) (d : ℕ) : Decidable (LiveMd ni d) := inferInstanceAs (Decidable (_ ∧ _))

structure Quiet (ni ni' : LibNi) : Prop where
  tblSize : ni'.tblSize = ni.tblSize
  mePool : ni'.mePool = ni.mePool
  mdPool : ni'.mdPool = ni.mdPool
  msgPool : ni'.msgPool = ni.msgPool
  meLinks : ni'.meLinks = ni.meLinks
  mdLinks : ni'.mdLinks = ni.mdLinks
  me : ni'.me = ni.me
  md : ni'.md = ni.md
  msgMd : ∀ i, (ni'.msg i).md = (ni.msg i).md

namespace Quiet

theorem refl (ni : LibNi) : Quiet ni ni := ⟨rfl, rfl, rfl, rfl, rfl, rfl, rfl, rfl, fun _ => rfl⟩

theorem trans {a b c : LibNi} (h : Quiet a b) (h' : Quiet b c) : Quiet a c where
  tblSize := h'.tblSize.trans h.tblSize
  mePool := h'.mePool.trans h.mePool
  mdPool := h'.mdPool.trans h.mdPool
  msgPool := h'.msgPool.trans h.msgPool
  meLinks := h'.meLinks.trans h.meLinks
  mdLinks := h'.mdLinks.trans h.mdLinks
  me := h'.me.trans h.me
  md := h'.md.trans h.md
  msgMd := fun i => (h'.msgMd i).trans (h.msgMd i)

theorem of_counters (ni : LibNi) (c : LibCounters) : Quiet ni { ni with counters := c } :=
  ⟨rfl, rfl, rfl, rfl, rfl, rfl, rfl, rfl, fun _ => rfl⟩

theorem of_eq (ni : LibNi) (pool : FreeList) (eq : ℕ → LibEq) :
    Quiet ni { ni with eqPool := pool, eq := eq } :=
  ⟨rfl, rfl, rfl, rfl, rfl, rfl, rfl, rfl, fun _ => rfl⟩

theorem update_msgMd {msg : ℕ → LibMsg} {m : LibMsg} (h : m.md = (msg i).md) (j : ℕ) :
    (update msg i m j).md = (msg j).md := by
  by_cases hj : j = i
  · rw [hj, update_self, h]
  · rw [update_of_ne hj]

theorem of_setMsg (ni : LibNi) (i : ℕ) (m : LibMsg) (h : m.md = (ni.msg i).md) :
    Quiet ni (ni.setMsg i m) :=
  ⟨rfl, rfl, rfl, rfl, rfl, rfl, rfl, rfl, update_msgMd h⟩

theorem of_recordEvent (ni : LibNi) (msg md : ℕ) (fill : LibMsg → LibMsg)
    (h : ∀ m, (fill m).md = m.md) : Quiet ni (recordEvent ni msg md fill) := by
  unfold recordEvent
  split
  · exact refl ni
  · exact ⟨rfl, rfl, rfl, rfl, rfl, rfl, rfl, rfl, update_msgMd (h _)⟩

theorem of_wantAck (ni : LibNi) (msg md : ℕ) (src : PtlSrc) (ackMd : PtlHandle)
    (bits : PtlMatchBits) : Quiet ni (wantAck ni msg md src ackMd bits) := by
  unfold wantAck
  split
  · exact of_setMsg ni msg _ rfl
  · exact refl ni

end Quiet

def PtlHdr.request (hdr : PtlHdr) : Option MdRequest :=
  match hdr.msg with
  | .put ptlIndex _ matchBits length offset _ =>
    some ⟨hdr.src, ptlIndex, .put, length, offset, matchBits⟩
  | .get ptlIndex matchBits length srcOffset _ _ =>
    some ⟨hdr.src, ptlIndex, .get, length, srcOffset, matchBits⟩
  | _ => none

theorem validObj_spec {ok : Bool} (h : validObj pool max i = some ok)
    (hok : (!ok) = false) : i < max ∧ pool.InUse i := by
  unfold validObj at h
  split_ifs at h with h1 h2
  · simp_all
  · obtain rfl : decide (pool.InUse i) = ok := by simpa using h
    exact ⟨by omega, by simpa using hok⟩

theorem validObj_of_live (hi : i < max ∧ pool.InUse i) :
    validObj pool max i = some true := by
  rw [validObj, if_neg (by omega), if_neg (by omega), decide_eq_true hi.2]

theorem validObj_cases {fail : Outcome} {k : Option Outcome}
    (hs : ((validObj pool max i).bind fun ok => if !ok then some fail else k) = some o) :
    o = fail ∨ (i < max ∧ pool.InUse i) ∧ k = some o := by
  obtain ⟨ok, hok, hs⟩ := bind_eq_some_iff.mp hs
  split at hs
  · exact .inl (some.inj hs).symm
  next hok' => exact .inr ⟨validObj_spec hok (by simpa using hok'), hs⟩

theorem libFindMd_spec {ni' : LibNi} {found : MdFound}
    (h : libFindMd ni req = some (some (found, ni'))) :
    ni' = ni.charge found ∧ scanMes ni req maxMes (ni.meLinks.head req.index) = some found := by
  unfold libFindMd at h
  split_ifs at h
  · simp at h
  · simp only [some.injEq, map_eq_some_iff, Prod.mk.injEq] at h
    obtain ⟨f, hf, rfl, rfl⟩ := h
    exact ⟨rfl, hf⟩

theorem libFindMd_cases
    {f : Option (MdFound × LibNi) → Option Outcome} (hs : (libFindMd ni req).bind f = some o) :
    libFindMd ni req = some none ∧ f none = some o ∨
      ∃ found, libFindMd ni req = some (some (found, ni.charge found)) ∧
        f (some (found, ni.charge found)) = some o := by
  obtain ⟨_ | ⟨found, ni1⟩, hf, hs⟩ := bind_eq_some_iff.mp hs
  · exact .inl ⟨hf, hs⟩
  · obtain ⟨rfl, -⟩ := libFindMd_spec hf
    exact .inr ⟨found, hf, hs⟩

theorem libMsgAlloc_cases {fail : Option Outcome} {k : ℕ → LibNi → Option Outcome}
    (hs : (match libMsgAlloc ni with | none => fail | some (i, mid) => k i mid) = some o) :
    libMsgAlloc ni = none ∧ fail = some o ∨
      ∃ i mid, libMsgAlloc ni = some (i, mid) ∧ k i mid = some o := by
  split at hs
  next ha => exact .inl ⟨ha, hs⟩
  next i mid ha => exact .inr ⟨i, mid, ha, hs⟩

end Cplant.Portals
