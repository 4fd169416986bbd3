import Cplant.Portals.Answers

/-!
# Deposits of replies, and the lengths that acknowledgements carry

`parse_reply` computes the range of a deposit on its own. `parse_put` writes the granted length into
the message only along with an event, and `lib_finalize` reads it for every acknowledgement.
-/
namespace Cplant.Portals
open List Option LibNi Int32
variable {ni ni' : LibNi} {hdr : PtlHdr} {o o' : Outcome} {i d : ℕ} {addr : Option ℤ}

theorem replyLength_inside_iff (md : LibMd) (d : ℕ) (rlength offset : PtlSize) :
    Inside md ⟨d, replyLength md rlength offset, offset⟩ ∧
        (replyLength md rlength offset).toInt ≤ rlength.toInt ↔
      (0 ≤ offset.toInt ∧ offset.toInt ≤ md.length.toInt) ∧ 0 ≤ rlength.toInt := by
  have hlen := toInt_range md.length
  constructor
  · rintro ⟨⟨h0, hlength, hsum⟩, hle⟩
    exact ⟨⟨h0, by simp only at hlength hsum; omega⟩, by simp only at hlength; omega⟩
  rintro ⟨⟨h0, hle⟩, hr⟩
  have hsub : (md.length - offset).toInt = md.length.toInt - offset.toInt :=
    toInt_sub_of_range (by omega) (by omega)
  have hmin : (replyLength md rlength offset).toInt =
      min rlength.toInt (md.length.toInt - offset.toInt) := by
    unfold replyLength
    split_ifs with hlt
    · rw [lt_iff_toInt_lt] at hlt
      omega
    · rw [lt_iff_toInt_lt] at hlt
      omega
  exact ⟨⟨h0, by simp only [hmin]; omega, by simp only [hmin]; omega⟩, by omega⟩

theorem parseReply_calls {dstMd : PtlHandle} {dstOffset rlength : PtlSize}
    (hs : parseReply ni hdr dstMd dstOffset rlength = some o) (hrc : o.rc = 0) :
    ∃ i, o.calls = [.recv (some i) (some ((o.ni.md (handleIndex dstMd)).start +
        (replyOffset (ni.md (handleIndex dstMd)) dstOffset).toInt))
      (replyLength (ni.md (handleIndex dstMd)) rlength
        (replyOffset (ni.md (handleIndex dstMd)) dstOffset)) rlength] := by
  have hdrop : (-1 : Int32) ≠ 0 := by decide
  have hfull : (1 : Int32) ≠ 0 := by decide
  obtain ⟨ok, -, hs⟩ := bind_eq_some_iff.mp hs
  split at hs
  · cases hs
    exact absurd hrc hdrop
  split at hs
  · cases hs
    exact absurd hrc hdrop
  simp only at hs
  split at hs
  · cases hs
    exact absurd hrc hdrop
  rcases libMsgAlloc_cases hs with ⟨ha, hs⟩ | ⟨i, mid, ha, hs⟩
  · cases hs
    exact absurd hrc hfull
  · cases hs
    exact ⟨_, rfl⟩

/-- An accepted reply is deposited inside the descriptor just if its offset and length are in
range: neither is looked at for its sign. -/
theorem reply_deposit_inside_iff {dstMd : PtlHandle} {dstOffset rlength : PtlSize} {md : LibMd}
    (hmd : ni.md (handleIndex dstMd) = md)
    (hs : parseReply ni hdr dstMd dstOffset rlength = some o) (hrc : o.rc = 0) :
    (∃ i offset length, o.calls =
        [.recv (some i) (some (md.start + Int32.toInt offset)) length rlength] ∧
      Inside md ⟨handleIndex dstMd, length, offset⟩ ∧ length.toInt ≤ rlength.toInt) ↔
    (0 ≤ (replyOffset md dstOffset).toInt ∧
      (replyOffset md dstOffset).toInt ≤ md.length.toInt) ∧ 0 ≤ rlength.toInt := by
  obtain ⟨-, ⟨hne, -⟩ | ⟨-, -, -, j, hstart, -⟩⟩ := parseReply_cases hs
  · exact absurd hrc hne
  obtain ⟨i, hcalls⟩ := parseReply_calls hs hrc
  have hsame : (o.ni.md (handleIndex dstMd)).start = md.start := by simp [hstart.md, heldMd, hmd]
  rw [hmd, hsame] at hcalls
  rw [← replyLength_inside_iff md (handleIndex dstMd)]
  constructor
  · rintro ⟨i', offset, length, hcalls', hinside⟩
    rw [hcalls] at hcalls'
    simp only [cons.injEq, NalCall.recv.injEq, some.injEq, and_true] at hcalls'
    obtain ⟨-, hoffset, rfl⟩ := hcalls'
    obtain rfl := toInt_inj.mp (Int.add_left_cancel hoffset)
    exact hinside
  · exact fun hinside => ⟨i, _, _, hcalls, hinside⟩

def replyHdr (offset length : PtlSize) : PtlHdr :=
  ⟨1, 1, ⟨2, 2, 0, 1⟩, .reply 4095 offset length⟩

def remoteNi : LibNi := ((step freshNi okReply (.mdBind 0 remotePtlMd)).map Outcome.ni).getD freshNi

theorem reply_deposit_inside_four : ∃ i offset length,
    ((parseReply remoteNi (replyHdr 4 3) 4095 4 3).map Outcome.calls) =
      some [.recv (some i) (some (0 + Int32.toInt offset)) length 3] ∧
    Inside (remoteNi.md 4095) ⟨4095, length, offset⟩ ∧ length.toInt ≤ 3 := by
  have hs : parseReply remoteNi (replyHdr 4 3) 4095 4 3 = some _ := rfl
  have hrange : (0 ≤ (4 : Int32).toInt ∧ (4 : Int32).toInt ≤ (10 : Int32).toInt) ∧
      0 ≤ (3 : Int32).toInt := by decide
  obtain ⟨i, offset, length, hcalls, hinside⟩ := (reply_deposit_inside_iff rfl hs rfl).mpr hrange
  exact ⟨i, offset, length, congrArg some hcalls, hinside⟩

theorem reply_deposit_before : ∃ ni o i, Reachable (fun _ _ => True) ni ∧
    libParse ni (replyHdr (-5) 3) okReply = some o ∧ o.rc = 0 ∧
    o.calls = [.recv (some i) (some ((ni.md 4095).start - 5)) 3 3] := by
  have h1 := freshNi_reachable.calls (.mdBind 0 remotePtlMd) trivial rfl
  exact ⟨_, _, _, h1, rfl, rfl, rfl⟩

inductive Keeps (i : ℕ) (ni : LibNi) : LibNi → Prop
  | refl : Keeps i ni ni
  | step {mid : LibNi} {c : Call} {r : NalReply} {o : Outcome} (h : Keeps i ni mid)
      (henabled : Enabled mid c) (hstep : step mid r c = some o) (hlive : LiveMsg o.ni i) :
      Keeps i ni o.ni

theorem Keeps.unstamped {ok : LibNi → Call → Prop} (hok : ∀ ni c, ok ni c)
    (hreach : Reachable ok ni) (hlive : LiveMsg ni i) (h : Keeps i ni ni') :
    Reachable ok ni' ∧ LiveMsg ni' i ∧ (ni'.msg i).unstamped = (ni.msg i).unstamped := by
  induction h with
  | refl => exact ⟨hreach, hlive, rfl⟩
  | step h hen hs hlive' ih =>
    obtain ⟨hreach', hmid, hsame⟩ := ih
    refine ⟨hreach'.step hen (hok _ _) hs, hlive', ?_⟩
    obtain ⟨-, hkept⟩ | ⟨hdead, -⟩ := (step_action hs).msgs hreach'.wf hen hlive'
    · exact hkept.trans hsame
    · exact absurd hmid hdead

theorem libMsgAlloc_keeps (ha : libMsgAlloc ni = some (i, ni')) :
    ni'.md = ni.md ∧ (ni'.msg i).ev = (ni.msg i).ev := by
  unfold libMsgAlloc at ha
  split at ha
  · cases ha
  · cases ha
    exact ⟨rfl, by simp⟩

theorem parsePut_msg {k : PtlPtIndex} {ackMd : PtlHandle} {bits : PtlMatchBits}
    {rlength roffset len rlen : PtlSize} {data : UInt64} (hw : Wf ni)
    (hs : parsePut ni hdr k ackMd bits rlength roffset data = some o)
    (hrecv : .recv (some i) addr len rlen ∈ o.calls) (hack : 0 ≤ ackMd)
    (hd : (o.ni.msg i).md = some d) (hopt : hasOption (ni.md d).options ptlMdAckDisable = false) :
    LiveMsg o.ni i ∧ (o.ni.msg i).returnMd = ackMd ∧ (o.ni.msg i).ev.matchBits = bits ∧
      (o.ni.msg i).ev.mlength = if (ni.md d).eq = none then (ni.msg i).ev.mlength else len := by
  rcases libFindMd_cases hs with ⟨hf, hs⟩ | ⟨found, hf, hs⟩
  · cases hs
    simp at hrecv
  rcases libMsgAlloc_cases hs with ⟨ha, hs⟩ | ⟨j, mid, ha, hs⟩
  · cases hs
    simp at hrecv
  · cases hs
    simp only [mem_singleton, NalCall.recv.injEq, some.injEq] at hrecv
    obtain ⟨rfl, -, rfl, -⟩ := hrecv
    obtain rfl : found.md = d := by simpa [holdMd] using hd
    have hmid := libMsgAlloc_keeps ha
    have hcharge : (mid.md found.md).eq = (ni.md found.md).eq ∧
        (mid.md found.md).options = (ni.md found.md).options := by
      simp [hmid.1, charge, setMd]
    refine ⟨?_, ?_⟩
    · have hlive : ∀ {n : LibNi}, Prepared mid i found.md n →
          LiveMsg (holdMd n i found.md true) i := fun hn =>
        have hstart : Starts _ i _ true _ := hn.starts ha
        (FreeList.alloc_live hw.msgPool hstart.alloc i).mpr (.inl rfl)
      exact hlive ((Prepared.recordEvent _ _ _ _).counters _).wantAck
    rw [← hcharge.2] at hopt
    simp only [wantAck, hack, hopt, and_self, if_true]
    cases heq : (mid.md found.md).eq with
    | none => simp [recordEvent, holdMd, countRecv, setMsg, heq, ← hcharge.1, hmid.2,
        charge, setMd]
    | some e => simp [recordEvent, holdMd, countRecv, setMsg, heq, ← hcharge.1]

theorem libFinalize_ack {r : NalReply} {ack : PtlHdr} {nid pid gid rid : PtlId}
    {len : PtlSize} (hs : libFinalize ni (some i) r = some o)
    (hsend : .send none ack nid pid gid rid addr len ∈ o.calls) :
    ack.msg = .ack (ni.msg i).returnMd (ni.msg i).ev.mlength (ni.msg i).ev.matchBits := by
  rcases libFinalize_ends hs with ⟨-, -, hcalls⟩ | ⟨-, d, -, hcase⟩
  · simp [hcalls] at hsend
  rcases hcase with ⟨e, -, -, -, base, slot, ev, hcalls⟩ | ⟨-, calls, hcalls, hs⟩
  · simp [hcalls] at hsend
  obtain ⟨p, hp, hs⟩ := bind_eq_some_iff.mp hs
  cases hs
  simp only [append_assoc, mem_append] at hsend
  rcases hsend with hsend | hsend | hsend
  · obtain ⟨_, _, _, hk⟩ := hcalls _ hsend
    cases hk
  · have hsame : ((ni.posted i d).msg i).unstamped = (ni.msg i).unstamped :=
      posted_unstamped ni i d i
    unfold ackOf at hsend
    split_ifs at hsend
    · simp only [mem_singleton, NalCall.send.injEq, true_and] at hsend
      rw [hsend.1]
      simp only [LibMsg.unstamped, LibMsg.mk.injEq, PtlEvent.mk.injEq] at hsame
      simp [hsame]
    · simp at hsend
  · exact absurd (releaseMd_plain hp _ hsend) id

/-- The acknowledgement of a put carries the granted length just if the descriptor had an event
queue, or an earlier use left that length in the message. -/
theorem ack_carries_grant_iff {k : PtlPtIndex} {ackMd : PtlHandle} {bits : PtlMatchBits}
    {rlength roffset len rlen len' : PtlSize} {data : UInt64} {addr addr' : Option ℤ}
    {r r' : NalReply} {ack : PtlHdr} {nid pid gid rid : PtlId}
    (hreach : Reachable (fun _ _ => True) ni)
    (hmsg : hdr.msg = .put k ackMd bits rlength roffset data) (hack : 0 ≤ ackMd)
    (hput : step ni r (.parse hdr) = some o) (hrecv : .recv (some i) addr len rlen ∈ o.calls)
    (hd : (o.ni.msg i).md = some d) (hopt : hasOption (ni.md d).options ptlMdAckDisable = false)
    (hrun : Keeps i o.ni ni') (hfin : step ni' r' (.finalize (some i)) = some o')
    (hsend : .send none ack nid pid gid rid addr' len' ∈ o'.calls) :
    ack.msg = .ack ackMd len bits ↔ (ni.md d).eq ≠ none ∨ (ni.msg i).ev.mlength = len := by
  have hs : parsePut ni hdr k ackMd bits rlength roffset data = some o := by
    simpa [step, libParse, hmsg] using hput
  obtain ⟨hlive, hreturn, hbits, hlen⟩ := parsePut_msg hreach.wf hs hrecv hack hd hopt
  have hafter := hreach.step (c := .parse hdr) trivial trivial hput
  obtain ⟨-, -, hsame⟩ := hrun.unstamped (fun _ _ => trivial) hafter hlive
  simp only [LibMsg.unstamped, LibMsg.mk.injEq, PtlEvent.mk.injEq] at hsame
  rw [libFinalize_ack hfin hsend]
  simp only [hsame, hreturn, hbits, hlen]
  by_cases heq : (ni.md d).eq = none <;> simp [heq]

def ackPut : PtlHdr := ⟨1, 1, ⟨2, 2, 0, 1⟩, .put 0 7 7 3 0 0⟩

def LibNi.after (ni : LibNi) (c : Call) : LibNi := ((step ni okReply c).map Outcome.ni).getD ni

theorem LibNi.after_reachable {c : Call} (h : Reachable (fun _ _ => True) ni) (hen : Enabled ni c) :
    Reachable (fun _ _ => True) (ni.after c) := by
  unfold after
  cases hs : step ni okReply c with
  | none => exact h
  | some o => exact h.step hen trivial hs

def attachedNi (eventq : PtlHandle) : LibNi :=
  ((freshNi.after (.eqAlloc 0 2 1000)).after attachMe).after
    (.mdAttach 4095 { remotePtlMd with eventq } .retain)

theorem attachedNi_reachable (eventq : PtlHandle) :
    Reachable (fun _ _ => True) (attachedNi eventq) := by
  have h1 := after_reachable (c := .eqAlloc 0 2 1000) freshNi_reachable trivial
  exact after_reachable (after_reachable (c := attachMe) h1 trivial) trivial

theorem ack_carries_grant_queue : ∃ o o' ack, Reachable (fun _ _ => True) (attachedNi 4095) ∧
    step (attachedNi 4095) okReply (.parse ackPut) = some o ∧
    step o.ni okReply (.finalize (some 1023)) = some o' ∧
    .send none ack 2 2 0 1 none 0 ∈ o'.calls ∧ ack.msg = .ack 7 3 7 := by
  obtain ⟨o, hput⟩ := isSome_iff_exists.mp (show (step (attachedNi 4095) okReply
    (.parse ackPut)).isSome by decide)
  have hcalls : (step (attachedNi 4095) okReply (.parse ackPut)).map (fun o =>
      (o.calls, (o.ni.msg 1023).md)) = some ([.recv (some 1023) (some 0) 3 3], some 4095) := by
    decide
  have hends : ((step (attachedNi 4095) okReply (.parse ackPut)).bind fun o =>
      (step o.ni okReply (.finalize (some 1023))).map (·.calls.tail)) =
        some [.send none ⟨2, 2, freshNi.src, .ack 7 3 7⟩ 2 2 0 1 none 0] := by
    decide
  simp only [hput, map_some, some.injEq, Prod.mk.injEq] at hcalls
  simp only [hput, bind_some, map_eq_some_iff] at hends
  obtain ⟨o', hfin, htail⟩ := hends
  have hsend : NalCall.send none ⟨2, 2, freshNi.src, .ack 7 3 7⟩ 2 2 0 1 none 0 ∈ o'.calls :=
    mem_of_mem_tail (by simp [htail])
  refine ⟨o, o', _, attachedNi_reachable 4095, hput, hfin, hsend, ?_⟩
  exact (ack_carries_grant_iff (d := 4095) (attachedNi_reachable 4095) rfl (by decide) hput
    (by rw [hcalls.1]; exact .head _) hcalls.2 (by decide) .refl hfin hsend).mpr (.inl (by decide))

theorem ack_without_queue : Reachable (fun _ _ => True) (attachedNi ptlEqNone) ∧
    ((step (attachedNi ptlEqNone) okReply (.parse ackPut)).bind fun o =>
      (step o.ni okReply (.finalize (some 1023))).map fun o' => (o.rc, o.calls, o'.calls)) =
    some (0, [.recv (some 1023) (some 0) 3 3],
      [.send none ⟨2, 2, freshNi.src, .ack 7 0 7⟩ 2 2 0 1 none 0]) :=
  ⟨attachedNi_reachable ptlEqNone, by decide⟩

end Cplant.Portals
