import Cplant.Rtscts.Network

/-!
# First contact

`p3_send` holds back every message but the first one to a node until `first_ack` is set
for that node. The flag is set by answers, but also by data packets and pings, which tell
nothing about what the other node accepted.
-/
namespace Cplant.Rtscts
open List Option Function Node Rtscts.System Int32
open Cplant.Portals (PtlHdr)

def PktType.answers : PktType → Bool
  | .cts | .msgend | .msgdrop | .p3PingAck => true
  | _ => false

def PktType.unrelated : PktType → Bool
  | .data | .stopData | .lastData | .p3PingReq => true
  | _ => false

namespace Node

def Opened (n : Node) (p : ℤ) : Prop := n.firstAck p = true ∧ n.sendMsgNum p ≠ bootMsgNum

def Accepted (n : Node) (p : ℤ) : Prop := n.lastMsgNum p ≠ bootMsgNum

end Node

def ValidNum (num : ℕ) : Prop := num < 2 ^ 32 ∧ num ≠ illMsgNum

structure Contact (n : Node) : Prop where
  pnid : (ofInt n.myPnid).toInt = n.myPnid
  sendMsgNum : ∀ p, ValidNum (n.sendMsgNum p)
  pending : ∀ e ∈ n.sndPending, ValidNum e.msgNum ∧ n.sendMsgNum e.dstNid ≠ bootMsgNum ∧
    e.phdr.src.nid.toInt = n.myPnid
  receiving : ∀ e ∈ n.receiving, n.Accepted e.srcNid

structure Proper (n : Node) (p : ℤ) (pkt : Packet) : Prop where
  srcNid : pkt.srcNid = n.myPnid
  header : ∀ hdr, pkt.phdr = some hdr → hdr.src.nid.toInt = n.myPnid ∧
    (pkt.msgNum ≠ bootMsgNum → n.Opened p)
  sync : pkt.type = .p3Sync → ValidNum pkt.msgNum
  answer : pkt.type.answers = true → n.Accepted p

def SameMsgs (q q' : List Qentry) : Prop := ∀ e ∈ q', ∃ e0 ∈ q, e.msgNum = e0.msgNum ∧
  e.dstNid = e0.dstNid ∧ e.phdr = e0.phdr

theorem SameMsgs.of_subset {q q' : List Qentry} (h : q' ⊆ q) : SameMsgs q q' :=
  fun e he => ⟨e, h he, rfl, rfl, rfl⟩

/-- A step of a node that heard from the nodes in `heard` and took a message from those
in `took`. -/
structure Acts (heard took : ℤ → Prop) (n n' : Node) : Prop where
  contact : Contact n'
  myPnid : n'.myPnid = n.myPnid
  opened : ∀ {p}, n.Opened p → n'.Opened p
  opens : ∀ {p}, n'.Opened p → n.Opened p ∨ heard p
  accepted : ∀ {p}, n.Accepted p → n'.Accepted p
  accepts : ∀ {p}, n'.Accepted p → n.Accepted p ∨ took p
  sent : ∃ pkts, n'.out = n.out ++ pkts ∧ ∀ q ∈ pkts, Proper n' q.1 q.2

variable {bytes : List UInt8} {data numPkts a : ℤ} {mem : Option ℕ → ℤ → UInt8} {nal pos task : ℕ}
  {pkts : List (ℤ × Packet)} {ev : Event} {s s' : System} {x y : Node} {xy : List Packet}
  {pkt : Packet} {heard : ℤ → Prop}

variable {heard took : ℤ → Prop} {n n' n'' : Node} {env : Env} {e : Qentry} {pkt : Packet}
  {hdr : PtlHdr} {m : P3Msg} {opt : SendOpt} {msgID info len msgNum num : ℕ} {p info2 dst src : ℤ}
  {q : List Qentry} {type : PktType}

theorem Proper.mono (h : Proper n p pkt) (ha : Acts heard took n n') : Proper n' p pkt where
  srcNid := h.srcNid.trans ha.myPnid.symm
  header hdr hhdr :=
    ⟨(h.header hdr hhdr).1.trans ha.myPnid.symm, fun hne => ha.opened ((h.header hdr hhdr).2 hne)⟩
  sync := h.sync
  answer hty := ha.accepted (h.answer hty)

namespace Acts

theorem refl (h : Contact n) : Acts heard took n n where
  contact := h
  myPnid := rfl
  opened h := h
  opens := .inl
  accepted h := h
  accepts := .inl
  sent := ⟨[], by simp⟩

theorem trans (h : Acts heard took n n') (h' : Acts heard took n' n'') : Acts heard took n n'' where
  contact := h'.contact
  myPnid := h'.myPnid.trans h.myPnid
  opened hp := h'.opened (h.opened hp)
  opens hp := (h'.opens hp).elim h.opens .inr
  accepted hp := h'.accepted (h.accepted hp)
  accepts hp := (h'.accepts hp).elim h.accepts .inr
  sent := by
    obtain ⟨pkts, hout, hpkts⟩ := h.sent
    obtain ⟨pkts', hout', hpkts'⟩ := h'.sent
    refine ⟨pkts ++ pkts', by rw [hout', hout, append_assoc], ?_⟩
    rw [forall_mem_append]
    exact ⟨fun q hq => (hpkts q hq).mono h', hpkts'⟩

theorem andThen (h : Acts heard took n n') (h' : Contact n' → Acts heard took n' n'') :
    Acts heard took n n'' :=
  h.trans (h' h.contact)

section Frame
variable (hc : Contact n) (hpnid : n'.myPnid = n.myPnid) (hack : n'.firstAck = n.firstAck)
  (hsend : n'.sendMsgNum = n.sendMsgNum) (hlast : n'.lastMsgNum = n.lastMsgNum)
  (hpending : SameMsgs n.sndPending n'.sndPending)
  (hreceiving : ∀ e ∈ n'.receiving, n.Accepted e.srcNid)
include hc hpnid hack hsend hlast hpending hreceiving

theorem of_frame (hout : n'.out = n.out ++ pkts)
    (hpkts : ∀ q ∈ pkts, Proper n q.1 q.2) : Acts heard took n n' := by
  have hopened : ∀ {p}, n'.Opened p ↔ n.Opened p := by simp [Node.Opened, hack, hsend]
  have haccepted : ∀ {p}, n'.Accepted p ↔ n.Accepted p := by simp [Node.Accepted, hlast]
  refine ⟨⟨by rw [hpnid]; exact hc.pnid, by rw [hsend]; exact hc.sendMsgNum, fun e he => ?_,
    fun e he => haccepted.mpr (hreceiving e he)⟩, hpnid, hopened.mpr, fun h => .inl (hopened.mp h),
    haccepted.mpr, fun h => .inl (haccepted.mp h), pkts, hout, fun q hq => ?_⟩
  · obtain ⟨e0, he0, hnum, hdst, hhdr⟩ := hpending e he
    rw [hnum, hdst, hhdr, hsend, hpnid]
    exact hc.pending e0 he0
  · have hq := hpkts q hq
    exact ⟨hq.srcNid.trans hpnid.symm, fun hdr hh => ⟨(hq.header hdr hh).1.trans hpnid.symm,
      fun hne => hopened.mpr ((hq.header hdr hh).2 hne)⟩, hq.sync,
      fun hty => haccepted.mpr (hq.answer hty)⟩

theorem of_silent (hout : n'.out = n.out) : Acts heard took n n' :=
  of_frame hc hpnid hack hsend hlast hpending hreceiving (hout.trans (append_nil _).symm) (by simp)

end Frame
end Acts

theorem proper_protoMSG (hsync : type ≠ .p3Sync) (hans : type.answers = true → n.Accepted p) :
    Proper n p ⟨type, n.myPnid, msgID, 0, info, info2, illMsgNum, none, []⟩ :=
  ⟨rfl, nofun, fun h => absurd h hsync, hans⟩

theorem sendProtoMSG_acts (hc : Contact n) (hsync : type ≠ .p3Sync)
    (hans : type.answers = true → n.Accepted p) :
    Acts heard took n (n.sendProtoMSG type msgID p info info2) := by
  refine .of_frame hc rfl rfl rfl rfl (.of_subset (Subset.refl _)) hc.receiving rfl ?_
  rw [forall_mem_singleton]
  exact proper_protoMSG hsync hans

theorem takeID_opened : (n.takeID dst).Opened p ↔ n.Opened p := by
  unfold takeID Node.Opened
  by_cases hboot : n.sendMsgNum dst = bootMsgNum
  · rcases eq_or_ne p dst with rfl | hp
    · simp [hboot]
    · simp [hboot, hp]
  · simp [hboot]

theorem incMsgNum_ne_bootMsgNum (num : ℕ) : incMsgNum num ≠ bootMsgNum := by
  unfold incMsgNum wrap bootMsgNum illMsgNum
  dsimp only
  split_ifs <;> omega

theorem incMsgNum_valid (num : ℕ) : ValidNum (incMsgNum num) := by
  unfold ValidNum incMsgNum wrap bootMsgNum illMsgNum
  dsimp only
  split_ifs <;> omega

theorem takeID_acts (hc : Contact n) : Acts heard took n (n.takeID dst) where
  contact := ⟨hc.pnid, hc.sendMsgNum, hc.pending, hc.receiving⟩
  myPnid := rfl
  opened := takeID_opened.mpr
  opens h := .inl (takeID_opened.mp h)
  accepted h := h
  accepts := .inl
  sent := ⟨[], by simp [takeID]⟩

theorem aside_acts {sending : List Qentry} {outstandingPkts : ℤ} {protoErr9 : ℕ}
    {calls : List LibCall} {pingDone : Bool} {pingNid : ℤ} (hc : Contact n) : Acts heard took n
      { n with sending, outstandingPkts, protoErr9, mem, calls, pingDone, pingNid } :=
  .of_silent hc rfl rfl rfl rfl (.of_subset (Subset.refl _)) hc.receiving rfl

theorem finalize_acts {nal cookie : Option ℕ} (hc : Contact n) :
    Acts heard took n (n.finalize nal cookie) :=
  aside_acts hc

theorem p3Plan_answers (h : (p3Plan opt len).1.answers = true) : opt = .sendP3PingAck := by
  cases opt with
  | sendP3PingAck => rfl
  | noop =>
    simp only [p3Plan] at h
    split_ifs at h <;> cases h
  | _ => cases h

theorem proper_p3Pkt {body : List UInt8} (hhdr : hdr.src.nid.toInt = n.myPnid)
    (hvalid : ValidNum msgNum) (hopen : msgNum ≠ bootMsgNum → n.Opened p)
    (hack : opt = .sendP3PingAck → n.Accepted p) :
    Proper n p (p3Pkt n (p3Plan opt len).1 msgID msgNum hdr body) where
  srcNid := rfl
  header hdr' h := by
    cases h
    exact ⟨hhdr, hopen⟩
  sync _ := hvalid
  answer h := hack (p3Plan_answers h)

theorem commit_acts (hc : Contact n) (hdst : e.dstNid = dst)
    (hnum : e.msgNum = n.sendMsgNum dst) (hhdr : e.phdr.src.nid.toInt = n.myPnid)
    (hpkts : ∀ q ∈ pkts, Proper (n.takeID dst) q.1 q.2) :
    Acts heard took (n.takeID dst) { n.takeID dst with
      sendMsgNum := update n.sendMsgNum dst (incMsgNum (n.sendMsgNum dst))
      sndPending := n.sndPending ++ [e]
      out := n.out ++ pkts } := by
  have hopened : ∀ {p}, (n.takeID dst).Opened p ↔ Node.Opened { n.takeID dst with
      sendMsgNum := update n.sendMsgNum dst (incMsgNum (n.sendMsgNum dst))
      sndPending := n.sndPending ++ [e]
      out := n.out ++ pkts } p := by
    intro p
    rcases eq_or_ne p dst with rfl | hp
    · by_cases hboot : n.sendMsgNum p = bootMsgNum <;>
        simp [Node.Opened, takeID, hboot, incMsgNum_ne_bootMsgNum]
    · simp [Node.Opened, takeID, hp]
  refine ⟨⟨hc.pnid, fun p => ?_, ?_, hc.receiving⟩, rfl, hopened.mp, fun h => .inl (hopened.mpr h),
    id, .inl, pkts, rfl, fun q hq => ?_⟩
  · dsimp only
    rcases eq_or_ne p dst with rfl | hp
    · rw [update_self]
      exact incMsgNum_valid _
    · rw [update_of_ne hp]
      exact hc.sendMsgNum p
  · have hne : ∀ d, n.sendMsgNum d ≠ bootMsgNum ∨ d = dst →
        update n.sendMsgNum dst (incMsgNum (n.sendMsgNum dst)) d ≠ bootMsgNum := by
      intro d hd
      rcases eq_or_ne d dst with rfl | hdne
      · rw [update_self]
        exact incMsgNum_ne_bootMsgNum _
      · rw [update_of_ne hdne]
        exact hd.resolve_right hdne
    rw [forall_mem_append, forall_mem_singleton]
    refine ⟨fun e0 he0 => ?_, hnum ▸ hc.sendMsgNum dst, hne _ (.inr hdst), hhdr⟩
    obtain ⟨hvalid, hboot, hsrc⟩ := hc.pending e0 he0
    exact ⟨hvalid, hne _ (.inl hboot), hsrc⟩
  · have hq := hpkts q hq
    exact ⟨hq.srcNid, fun hdr hh => ⟨(hq.header hdr hh).1,
      fun hb => hopened.mp ((hq.header hdr hh).2 hb)⟩, hq.sync, hq.answer⟩

theorem sendsNew_acts (hc : Contact n) (hhdr : m.hdr.src.nid.toInt = n.myPnid)
    (hack : opt = .sendP3PingAck → n.Accepted m.dst) (h : SendsNew n env m opt n') :
    Acts heard took n n' := by
  cases h with
  | invalidDest => exact finalize_acts hc
  | failed => exact takeID_acts hc
  | refused => exact (takeID_acts hc).andThen finalize_acts
  | queued q sent payload task pkts hq hpayload hsent htask hpkts =>
    refine (takeID_acts hc).trans (commit_acts hc rfl rfl hhdr ?_)
    cases sent with
    | false => simp [hpkts]
    | true =>
      obtain ⟨⟨hq', -⟩, -⟩ : ((!q) = true ∧ _) ∧ _ := by simpa using hsent.symm
      rw [hpkts, if_pos rfl, forall_mem_singleton]
      refine proper_p3Pkt (n := n.takeID m.dst) hhdr (hc.sendMsgNum m.dst) (fun hboot => ?_) hack
      have hfirst : n.firstAck m.dst = true := by simpa [queueOnly, hboot, hq] using hq'
      exact takeID_opened.mpr ⟨hfirst, hboot⟩

theorem updateEntry_keys {f : Qentry → Qentry}
    (hf : ∀ e, (f e).msgNum = e.msgNum ∧ (f e).dstNid = e.dstNid ∧ (f e).phdr = e.phdr) :
    SameMsgs q (updateEntry q msgID f) := by
  intro e he
  rcases mem_updateEntry he with he | ⟨e0, he0, rfl⟩
  · exact ⟨e, he, rfl, rfl, rfl⟩
  · exact ⟨e0, findQueue_mem he0, hf e0⟩

theorem setPending_acts (hc : Contact n) (hq : SameMsgs n.sndPending q) :
    Acts heard took n { n with sndPending := q } :=
  .of_silent hc rfl rfl rfl rfl hq hc.receiving rfl

theorem sendsAgain_acts (hc : Contact n) (hhdr : m.hdr.src.nid.toInt = n.myPnid)
    (hvalid : ValidNum msgNum) (hdst : n.sendMsgNum m.dst ≠ bootMsgNum)
    (hopt : opt ≠ .sendP3PingAck) (h : SendsAgain n env m msgID msgNum opt n') :
    Acts heard took n n' := by
  cases h with
  | invalidDest => exact finalize_acts hc
  | failed => exact .refl hc
  | done sent payload task pkts hq hpayload hsent htask hpkts =>
    refine .of_frame hc rfl rfl rfl rfl (updateEntry_keys fun e => ⟨rfl, rfl, rfl⟩)
      hc.receiving rfl ?_
    cases sent with
    | false => simp [hpkts]
    | true =>
      rw [hpkts, if_pos rfl, forall_mem_singleton]
      refine proper_p3Pkt hhdr hvalid (fun hboot => ⟨?_, hdst⟩) fun h => absurd h hopt
      simpa [queueOnly, hboot] using hq

theorem freeEntry_acts (hc : Contact n) : Acts heard took n (n.freeEntry e) :=
  aside_acts hc

theorem dequeue_keys : SameMsgs q (dequeue q msgID) :=
  .of_subset fun _ => mem_of_mem_dequeue

theorem p3Send_acts (env : Env) (msgID : ℕ) (hc : Contact n) (hhdr : m.hdr.src.nid.toInt = n.myPnid)
    (hvalid : ValidNum msgNum) (hdst : n.sendMsgNum m.dst ≠ bootMsgNum)
    (hopt : opt ≠ .sendP3PingAck) : Acts heard took n (p3Send n env m msgID msgNum opt).2 := by
  unfold p3Send
  split_ifs
  · exact sendsNew_acts hc hhdr (fun h => absurd h hopt) p3SendNew_cases
  · exact sendsAgain_acts hc hhdr hvalid hdst hopt p3SendAgain_cases

theorem p3Retry_acts {opt : Qentry → SendOpt} (hc : Contact n) (hvalid : ValidNum msgNum)
    (hopt : ∀ e, opt e ≠ .sendP3PingAck) : Acts heard took n (p3Retry n env msgID msgNum opt) := by
  unfold p3Retry
  cases he : findQueue n.sndPending msgID with
  | none => exact .refl hc
  | some e =>
    obtain ⟨-, hboot, hhdr⟩ := hc.pending e (findQueue_mem he)
    have hcount : Acts heard took n { n with
        sndPending := updateEntry n.sndPending msgID fun e =>
          { e with p3msgRetries := wrapInt (e.p3msgRetries + 1) } } :=
      setPending_acts hc (updateEntry_keys fun e => ⟨rfl, rfl, rfl⟩)
    have hsend := hcount.andThen fun hc =>
      p3Send_acts (m := e.msg) env msgID hc hhdr hvalid hboot (hopt e)
    dsimp only
    split_ifs
    · refine (hsend.andThen fun hc => setPending_acts hc dequeue_keys).andThen freeEntry_acts
    · exact hsend.andThen fun hc => setPending_acts hc (updateEntry_keys fun e => ⟨rfl, rfl, rfl⟩)

theorem timeoutPending_acts {dest : ℤ} (hc : Contact n) :
    Acts heard took n (n.timeoutPending env dest) := by
  rcases n.timeoutPending_cases env dest with heq | ⟨e, he, heq | heq⟩ <;> rw [heq]
  · exact .refl hc
  · exact p3Retry_acts hc (hc.pending e (findOldestMsgNum_mem he).1).1 fun _ => nofun
  · refine p3Retry_acts hc (hc.pending e (findOldestMsgNum_mem he).1).1 fun e1 => ?_
    split_ifs <;> exact nofun

theorem proceeds_acts (hc : Contact n) (h : Node.Proceeds n n') : Acts heard took n n' := by
  obtain ⟨pkts, hout, hpkts⟩ := h.out
  refine .of_frame hc h.myPnid h.firstAck h.sendMsgNum h.lastMsgNum
    (.of_subset h.sndPending.subset) (h.receiving ▸ hc.receiving) hout fun q hq => ?_
  obtain ⟨hsrc, hhdr, htype⟩ := hpkts q hq
  have hans : q.2.type.answers = false ∧ q.2.type ≠ .p3Sync := by
    rcases htype with h | h | h | h <;> rw [h] <;> decide
  exact ⟨hsrc, by simp [hhdr], fun h => absurd h hans.2, by simp [hans.1]⟩

theorem attends_acts (hc : Contact n) (hp : n.Accepted p) (h : Attends p n n') :
    Acts heard took n n' := by
  obtain ⟨pkts, hout, hpkts⟩ := h.out
  refine .of_frame hc h.sender.myPnid h.sender.firstAck h.sender.sendMsgNum h.lastMsgNum ?_
    (fun e he => ?_) hout fun q hq => ?_
  · rw [h.sender.sndPending]
    exact .of_subset (Subset.refl _)
  · rcases h.receiving e he with he | he
    · exact hc.receiving e he
    · exact he ▸ hp
  · obtain ⟨type, msgID, info, info2, hsync, rfl⟩ := hpkts q hq
    exact proper_protoMSG hsync fun _ => hp

theorem handleDATA_acts (hc : Contact n) : Acts heard took n (n.handleDATA env pkt) := by
  rcases handleDATA_attends with heq | ⟨e, he, h⟩
  · rw [heq]
    exact .refl hc
  · exact attends_acts hc (hc.receiving e he) h

theorem handleGCH_acts (hc : Contact n) : Acts heard took n (n.handleGCH msgID) := by
  unfold handleGCH
  cases findQueue n.receiving msgID with
  | none => exact .refl hc
  | some e =>
    have h : Acts heard took n { n with receiving := dequeue n.receiving msgID } :=
      .of_silent hc rfl rfl rfl rfl (.of_subset (Subset.refl _))
        (fun e he => hc.receiving e (mem_of_mem_dequeue he)) rfl
    exact h.andThen freeEntry_acts

theorem setLastMsgNum_acts (hc : Contact n) (hnum : num ≠ bootMsgNum)
    (htook : n.Accepted src ∨ took src) : Acts heard took n (n.setLastMsgNum src num) := by
  have haccepted : ∀ {p}, n.Accepted p → (n.setLastMsgNum src num).Accepted p := by
    intro p hp
    rcases eq_or_ne p src with rfl | hne
    · simpa [Node.Accepted, setLastMsgNum] using hnum
    · simpa [Node.Accepted, setLastMsgNum, hne] using hp
  refine ⟨{ hc with receiving := fun e he => haccepted (hc.receiving e he) }, rfl, id, .inl,
    haccepted, fun {p} hp => ?_, [], by simp [setLastMsgNum]⟩
  rcases eq_or_ne p src with rfl | hne
  · exact htook
  · exact .inl (by simpa [Node.Accepted, setLastMsgNum, hne] using hp)

theorem handleP3SYNC_acts (hc : Contact n) (hvalid : ValidNum pkt.msgNum) :
    Acts heard took n (n.handleP3SYNC pkt) := by
  unfold handleP3SYNC
  split_ifs with h
  · exact .refl hc
  · obtain ⟨hlast, hboot⟩ := not_or.mp h
    refine setLastMsgNum_acts hc ?_ (.inl hlast)
    obtain ⟨hlt, hill⟩ := hvalid
    unfold bootMsgNum at hboot ⊢
    unfold illMsgNum at hill
    unfold wrapSub
    omega

theorem acceptNum_ne_bootMsgNum {last : ℕ} (h : acceptNum last msgNum = some num) :
    num ≠ bootMsgNum := by
  unfold acceptNum at h
  split_ifs at h with hboot
  all_goals cases h
  · decide
  · exact hboot
  · exact hboot

def Env.RetryOnly (env : Env) : Prop := ∀ hdr, (env.parse hdr).rc = 1 → (env.parse hdr).recv = none

section
variable (hc : Contact n) (henv : env.RetryOnly) (hnum : num ≠ bootMsgNum)
  (htook : took hdr.src.nid.toInt)
include hc henv hnum htook

omit henv in
theorem took_acts : Acts heard took n (n.setLastMsgNum hdr.src.nid.toInt num) ∧
    (n.setLastMsgNum hdr.src.nid.toInt num).Accepted hdr.src.nid.toInt :=
  ⟨setLastMsgNum_acts hc hnum (.inr htook), by simpa [Node.Accepted, setLastMsgNum] using hnum⟩

theorem parseP3_acts :
    Acts heard took n ((n.setLastMsgNum hdr.src.nid.toInt num).parseP3 env pkt hdr nal task
      (n.lastMsgNum hdr.src.nid.toInt)) := by
  unfold parseP3
  dsimp only
  split_ifs with hrc
  · rw [henv hdr hrc]
    have hback : update (update n.lastMsgNum hdr.src.nid.toInt num)
        hdr.src.nid.toInt (n.lastMsgNum hdr.src.nid.toInt) = n.lastMsgNum := by
      rw [update_idem, update_eq_self]
    simp only [cbRecv, setLastMsgNum, hback]
    exact aside_acts hc
  · obtain ⟨hset, hsrc⟩ := took_acts hc hnum htook
    have hcall : Acts heard took n { n.setLastMsgNum hdr.src.nid.toInt num with
        calls := n.calls ++ [.parse pkt.msgID pkt.msgNum hdr] } := hset.andThen aside_acts
    cases (env.parse hdr).recv with
    | none => exact hcall
    | some args => exact hcall.andThen fun hc => attends_acts hc hsrc recvBody_attends

theorem acceptP3_acts
    (h : (n.setLastMsgNum hdr.src.nid.toInt num).acceptP3 env pkt hdr (n.lastMsgNum
      hdr.src.nid.toInt) = some n') : Acts heard took n n' := by
  obtain ⟨hset, hsrc⟩ := took_acts hc hnum htook
  have hdeliver : Acts heard took n ((n.setLastMsgNum hdr.src.nid.toInt num).deliverP3 env pkt hdr
      (n.lastMsgNum hdr.src.nid.toInt)) := by
    unfold deliverP3
    cases env.getCb hdr.nid.toInt hdr.pid.toInt with
    | none => exact hset.andThen fun hc => sendProtoMSG_acts hc nofun fun _ => hsrc
    | some cb => exact parseP3_acts hc henv hnum htook
  unfold acceptP3 at h
  dsimp only at h
  split at h
  · cases h
    exact hset.andThen fun hc => sendsNew_acts hc hc.pnid (fun _ => hsrc) p3SendNew_cases
  · split_ifs at h
    · obtain ⟨e, he, rfl⟩ := map_eq_some_iff.mp h
      have hping : Acts heard took n { n.setLastMsgNum hdr.src.nid.toInt num with
          pingDone := true } := hset.andThen aside_acts
      have hfound : Acts heard took n { n.setLastMsgNum hdr.src.nid.toInt num with
          pingDone := true
          sndPending := dequeue n.sndPending hdr.src.pid.toUInt32.toNat } :=
        hping.andThen fun hc => setPending_acts hc dequeue_keys
      exact (hfound.andThen freeEntry_acts).andThen fun hc =>
        sendProtoMSG_acts hc nofun fun _ => hsrc
    · cases h
      exact hdeliver
  · cases h
    exact hset.andThen fun hc => sendProtoMSG_acts hc nofun fun _ => hsrc
  · cases h
    exact hdeliver

end

theorem handleP3_acts (hc : Contact n) (henv : env.RetryOnly) (htook : took hdr.src.nid.toInt)
    (h : n.handleP3 env pkt hdr = some n') : Acts heard took n n' := by
  unfold handleP3 at h
  cases hf : findQueue n.receiving pkt.msgID with
  | some e =>
    simp only [hf, some.injEq] at h
    obtain rfl := h
    exact attends_acts hc (hc.receiving e (findQueue_mem hf)) (handleDuplicate_attends rfl)
  | none =>
    simp only [hf] at h
    cases hnum : acceptNum (n.lastMsgNum hdr.src.nid.toInt) pkt.msgNum with
    | none =>
      simp only [hnum, some.injEq] at h
      exact h ▸ .refl hc
    | some num =>
      simp only [hnum] at h
      exact acceptP3_acts hc henv (acceptNum_ne_bootMsgNum hnum) htook h

theorem heardFrom_opened (h : (n.heardFrom src).Opened p) :
    n.Opened p ∨ p = src ∧ n.sendMsgNum p ≠ bootMsgNum := by
  rcases eq_or_ne p src with rfl | hne
  · exact .inr ⟨rfl, h.2⟩
  · refine .inl ⟨?_, h.2⟩
    simpa [heardFrom, hne] using h.1

theorem heardFrom_acts (hc : Contact n) (hheard : n.sendMsgNum src ≠ bootMsgNum → heard src) :
    Acts heard took n (n.heardFrom src) where
  contact := { hc with }
  myPnid := rfl
  opened {p} h := by
    refine ⟨?_, h.2⟩
    rcases eq_or_ne p src with rfl | hne
    · simp [heardFrom]
    · simpa [heardFrom, hne] using h.1
  opens h := (heardFrom_opened h).imp_right fun ⟨hp, hnum⟩ => hp ▸ hheard (hp ▸ hnum)
  accepted h := h
  accepts := .inl
  sent := ⟨[], by simp [heardFrom]⟩

def Hears (n : Node) (pkt : Packet) (p : ℤ) : Prop :=
  p = pkt.srcNid ∧ n.sendMsgNum p ≠ bootMsgNum ∧
    (pkt.type.answers = true ∨ pkt.type.unrelated = true)

def Brings (pkt : Packet) (p : ℤ) : Prop := ∃ hdr, pkt.phdr = some hdr ∧ hdr.src.nid.toInt = p

theorem rtsctsRecv_acts (hc : Contact n) (henv : env.RetryOnly)
    (hsync : pkt.type = .p3Sync → ValidNum pkt.msgNum) (h : n.rtsctsRecv env pkt = some n') :
    Acts (Hears n pkt) (Brings pkt) n n' := by
  have hheard : pkt.type.answers = true ∨ pkt.type.unrelated = true →
      Acts (Hears n pkt) (Brings pkt) n (n.heardFrom pkt.srcNid) :=
    fun hty => heardFrom_acts hc fun hnum => ⟨rfl, hnum, hty⟩
  have hp3 : ∀ {n1}, Acts (Hears n pkt) (Brings pkt) n n1 →
      pkt.phdr.bind (n1.handleP3 env pkt) = some n' → Acts (Hears n pkt) (Brings pkt) n n' := by
    intro n1 h1 h
    obtain ⟨hdr, hhdr, h⟩ := bind_eq_some_iff.mp h
    exact h1.andThen fun hc => handleP3_acts hc henv ⟨hdr, hhdr, rfl⟩ h
  unfold rtsctsRecv at h
  cases hty : pkt.type <;> simp only [hty, some.injEq] at h <;>
    simp only [hty, PktType.answers, PktType.unrelated, true_or, or_true, forall_true_left] at hheard
  case cts => exact h ▸ hheard.andThen fun hc => proceeds_acts hc handleCTS_proceeds
  case data => exact h ▸ hheard.andThen handleDATA_acts
  case stopData => exact h ▸ hheard.andThen handleDATA_acts
  case lastData => exact h ▸ hheard.andThen handleDATA_acts
  case msgend =>
    rw [handleMSGEND_eq] at h
    exact h ▸ hheard.andThen fun hc => proceeds_acts hc handleMSGDROP_proceeds
  case msgdrop => exact h ▸ hheard.andThen fun hc => proceeds_acts hc handleMSGDROP_proceeds
  case p3PingReq => exact hp3 hheard h
  case p3PingAck => exact hp3 hheard h
  case p3Rts => exact hp3 (.refl hc) h
  case p3LastRts => exact hp3 (.refl hc) h
  case p3Null => exact hp3 (.refl hc) h
  case p3Sync => exact h ▸ handleP3SYNC_acts hc (hsync hty)
  case gch => exact h ▸ handleGCH_acts hc

theorem cleanReceiving_acts (hc : Contact n) : Acts heard took n (n.cleanReceiving env pos) := by
  unfold cleanReceiving
  split
  · exact .refl hc
  · split_ifs
    · exact handleGCH_acts hc
    · exact .refl hc

theorem nullEntry_keys (task : Option ℕ) (e : Qentry) :
    (nullEntry task e).msgNum = e.msgNum ∧ (nullEntry task e).dstNid = e.dstNid ∧
      (nullEntry task e).phdr = e.phdr := by
  unfold nullEntry
  split_ifs <;> exact ⟨rfl, rfl, rfl⟩

theorem p3Exit_acts {task : Option ℕ} (hc : Contact n) : Acts heard took n (n.p3Exit task) := by
  refine .of_silent hc rfl rfl rfl rfl (fun e he => ?_) (fun e he => ?_) rfl
  · obtain ⟨e0, he0, rfl⟩ := mem_map.mp he
    exact ⟨e0, he0, nullEntry_keys task e0⟩
  · exact hc.receiving e (mem_of_mem_filter he)

def Input.Local (n : Node) : Input → Prop
  | .recv _ => False
  | .send m => m.hdr.src.nid.toInt = n.myPnid
  | _ => True

theorem step_acts {input : Input} (hc : Contact n) (hi : input.Local n)
    (h : step n env input = some n') : Acts heard took n n' := by
  cases input with
  | recv pkt => exact hi.elim
  | send m =>
    cases h
    refine sendsNew_acts hc hi ?_ p3SendNew_cases
    exact nofun
  | ping stack nid =>
    cases h
    have haside : Acts heard took n { n with pingDone := false, pingNid := nid } := aside_acts hc
    refine haside.andThen fun hc => sendsNew_acts hc hc.pnid ?_ p3SendNew_cases
    exact nofun
  | timeoutPending dest => exact some.inj h ▸ timeoutPending_acts hc
  | timeoutSending pos => exact some.inj h ▸ proceeds_acts hc timeoutSending_proceeds
  | cleanReceiving pos => exact some.inj h ▸ cleanReceiving_acts hc
  | exit task => exact some.inj h ▸ p3Exit_acts hc

structure Gated (x y : Node) (xy : List Packet) : Prop where
  opened : x.Opened y.myPnid → y.Accepted x.myPnid
  srcNid : ∀ pkt ∈ xy, pkt.srcNid = x.myPnid
  header : ∀ pkt ∈ xy, ∀ hdr, pkt.phdr = some hdr → hdr.src.nid.toInt = x.myPnid ∧
    (pkt.msgNum ≠ bootMsgNum → y.Accepted x.myPnid)
  sync : ∀ pkt ∈ xy, pkt.type = .p3Sync → ValidNum pkt.msgNum
  answer : ∀ pkt ∈ xy, pkt.type.answers = true → x.Accepted y.myPnid

variable {heard took : ℤ → Prop} {x x' y : Node} {xy yx : List Packet}

theorem Gated.sublist (h : Gated x y xy) {xy' : List Packet} (hs : xy'.Sublist xy) :
    Gated x y xy' where
  opened := h.opened
  srcNid pkt hpkt := h.srcNid pkt (hs.subset hpkt)
  header pkt hpkt := h.header pkt (hs.subset hpkt)
  sync pkt hpkt := h.sync pkt (hs.subset hpkt)
  answer pkt hpkt := h.answer pkt (hs.subset hpkt)

theorem Gated.sends (h : Gated x y xy) (ha : Acts heard took x x') (hout : x.out = [])
    (hheard : heard y.myPnid → y.Accepted x.myPnid) :
    Gated { x' with out := [] } y (xy ++ x'.packetsTo y.myPnid) := by
  have hopened : x'.Opened y.myPnid → y.Accepted x.myPnid := fun hp =>
    (ha.opens hp).elim h.opened hheard
  obtain ⟨pkts, hsent, hproper⟩ := ha.sent
  rw [hout, nil_append] at hsent
  have hnew : ∀ pkt ∈ x'.packetsTo y.myPnid, Proper x' y.myPnid pkt := by
    intro pkt hpkt
    obtain ⟨q, hq, rfl⟩ := mem_map.mp hpkt
    obtain ⟨hq, hdst⟩ := mem_filter.mp hq
    exact beq_iff_eq.mp hdst ▸ hproper q (hsent ▸ hq)
  have hpnid := ha.myPnid
  refine ⟨fun hp => hpnid.symm ▸ hopened hp, ?_, ?_, ?_, ?_⟩ <;> rw [forall_mem_append]
  · exact ⟨fun pkt hpkt => (h.srcNid pkt hpkt).trans hpnid.symm,
      fun pkt hpkt => (hnew pkt hpkt).srcNid⟩
  · dsimp only
    rw [hpnid]
    refine ⟨h.header, fun pkt hpkt hdr hhdr => ?_⟩
    obtain ⟨hsrc, hopen⟩ := (hnew pkt hpkt).header hdr hhdr
    exact ⟨hsrc.trans hpnid, fun hne => hopened (hopen hne)⟩
  · exact ⟨h.sync, fun pkt hpkt => (hnew pkt hpkt).sync⟩
  · exact ⟨fun pkt hpkt hty => ha.accepted (h.answer pkt hpkt hty),
      fun pkt hpkt => (hnew pkt hpkt).answer⟩

theorem Gated.receives (h : Gated y x yx) (ha : Acts heard took x x') :
    Gated y { x' with out := [] } yx where
  opened hp := ha.accepted (h.opened (ha.myPnid ▸ hp))
  srcNid := h.srcNid
  header pkt hpkt hdr hhdr :=
    (h.header pkt hpkt hdr hhdr).imp_right fun hacc hne => ha.accepted (hacc hne)
  sync := h.sync
  answer pkt hpkt hty := by
    have hacc := h.answer pkt hpkt hty
    rw [← ha.myPnid] at hacc
    exact hacc

/-- Both nodes send, ping, time out and lose processes as they like. The packets that they
receive come from each other, and a `lib_parse` that returns 1 has not called `cb_recv`, which
`parse_get` does not keep to. -/
def TwoWay (s : System) : Event → Prop
  | .atA _ input => input.Local s.a
  | .atB _ input => input.Local s.b
  | .toA env | .toB env => env.RetryOnly
  | _ => True

/-- Data or a ping from node `y` reaches node `x` only when the first message of `x`, if
there is one, was accepted. -/
def InTurn (x y : Node) (yx : List Packet) : Prop :=
  ∀ pkt ∈ yx.head?, pkt.type.unrelated = true → x.sendMsgNum y.myPnid ≠ bootMsgNum →
    y.Accepted x.myPnid

def NotEarly (s : System) : Event → Prop
  | .toA _ => InTurn s.a s.b s.ba
  | .toB _ => InTurn s.b s.a s.ab
  | _ => True

structure InTouch (s : System) : Prop where
  a : Contact s.a
  b : Contact s.b
  outA : s.a.out = []
  outB : s.b.out = []
  ab : Gated s.a s.b s.ab
  ba : Gated s.b s.a s.ba

theorem Gated.hears (h : Gated y x (pkt :: yx))
    (hturn : InTurn x y (pkt :: yx)) (hh : Hears x pkt y.myPnid) : y.Accepted x.myPnid := by
  obtain ⟨-, hnum, hty⟩ := hh
  rcases hty with hty | hty
  · exact h.answer pkt mem_cons_self hty
  · exact hturn pkt rfl hty hnum

theorem Acts.contact_out (h : Acts heard took n n') : Contact { n' with out := [] } :=
  { h.contact with }

theorem InTouch.step (h : InTouch s) (hw : TwoWay s ev)
    (hturn : NotEarly s ev) (hs : s.step ev = some s') : InTouch s' := by
  cases ev with
  | atA env input =>
    obtain ⟨n, hn, rfl⟩ := map_eq_some_iff.mp hs
    have ha : Acts (fun _ => False) (fun _ => False) s.a n := step_acts h.a hw hn
    exact ⟨ha.contact_out, h.b, rfl, h.outB, h.ab.sends ha h.outA False.elim, h.ba.receives ha⟩
  | atB env input =>
    obtain ⟨n, hn, rfl⟩ := map_eq_some_iff.mp hs
    have hb : Acts (fun _ => False) (fun _ => False) s.b n := step_acts h.b hw hn
    exact ⟨h.a, hb.contact_out, h.outA, rfl, h.ab.receives hb, h.ba.sends hb h.outB False.elim⟩
  | toA env =>
    obtain ⟨pkt, ba, n, hba, hn, rfl⟩ := recvA_some hs
    have hgate := hba ▸ h.ba
    have ha := rtsctsRecv_acts h.a hw (hgate.sync pkt mem_cons_self) hn
    have htail := hgate.sublist (sublist_cons_self pkt ba)
    exact ⟨ha.contact_out, h.b, rfl, h.outB, h.ab.sends ha h.outA (hgate.hears (hba ▸ hturn)),
      htail.receives ha⟩
  | toB env =>
    obtain ⟨pkt, ab, n, hab, hn, rfl⟩ := recvB_some hs
    have hgate := hab ▸ h.ab
    have hb := rtsctsRecv_acts h.b hw (hgate.sync pkt mem_cons_self) hn
    have htail := hgate.sublist (sublist_cons_self pkt ab)
    exact ⟨h.a, hb.contact_out, h.outA, rfl, htail.receives hb,
      h.ba.sends hb h.outB (hgate.hears (hab ▸ hturn))⟩
  | dropAB i =>
    cases hs
    exact { h with ab := h.ab.sublist (eraseIdx_sublist s.ab i) }
  | dropBA i =>
    cases hs
    exact { h with ba := h.ba.sublist (eraseIdx_sublist s.ba i) }

theorem initProtocol_contact (ha : (ofInt a).toInt = a) : Contact (initProtocol a mem) where
  pnid := ha
  sendMsgNum _ := by simp [initProtocol, ValidNum, bootMsgNum, illMsgNum]
  pending := by simp [initProtocol]
  receiving := by simp [initProtocol]

theorem Gated.start (hx : x.sendMsgNum y.myPnid = bootMsgNum) : Gated x y [] where
  opened h := absurd hx h.2
  srcNid := by simp
  header := by simp
  sync := by simp
  answer := by simp

theorem InTouch.init {b : ℤ} {memA memB : Option ℕ → ℤ → UInt8}
    (ha : (ofInt a).toInt = a) (hb : (ofInt b).toInt = b) :
    InTouch (init a b memA memB) where
  a := initProtocol_contact ha
  b := initProtocol_contact hb
  outA := rfl
  outB := rfl
  ab := .start rfl
  ba := .start rfl

def AfterFirst (n : Node) (pkts : List Packet) : Prop :=
  ∀ pkt ∈ pkts, ∀ hdr, pkt.phdr = some hdr → pkt.msgNum ≠ bootMsgNum →
    n.lastMsgNum hdr.src.nid.toInt ≠ bootMsgNum

theorem Gated.afterFirst (h : Gated x y xy) : AfterFirst y xy := by
  intro pkt hpkt hdr hhdr hne
  obtain ⟨hsrc, hacc⟩ := h.header pkt hpkt hdr hhdr
  rw [hsrc]
  exact hacc hne

theorem Gated.first {y' : Node}
    (h : Gated x y (pkt :: xy)) (ha : Acts heard (Brings pkt) y y') (hy : ¬ y.Accepted x.myPnid)
    (hy' : y'.Accepted x.myPnid) : pkt.msgNum = bootMsgNum := by
  obtain ⟨hdr, hhdr, -⟩ := (ha.accepts hy').resolve_left hy
  by_contra hne
  exact hy ((h.header pkt mem_cons_self hdr hhdr).2 hne)

def StartsWithFirst (x y y' : Node) (xy : List Packet) : Prop :=
  y.lastMsgNum x.myPnid = bootMsgNum → y'.lastMsgNum x.myPnid ≠ bootMsgNum →
    ∃ pkt ∈ xy.head?, pkt.msgNum = bootMsgNum

theorem InTouch.startsWithFirst (h : InTouch s) (hw : TwoWay s ev) (hs : s.step ev = some s') :
    StartsWithFirst s.a s.b s'.b s.ab ∧ StartsWithFirst s.b s.a s'.a s.ba := by
  have hsame : ∀ x y, ∀ xy, StartsWithFirst x y y xy := fun x y xy h h' => absurd h h'
  have hown : ∀ {x y y' : Node} {xy : List Packet}, Acts (fun _ => False) (fun _ => False) y y' →
      StartsWithFirst x y { y' with out := [] } xy :=
    fun ha h h' => ((ha.accepts h').elim (absurd h) id).elim
  cases ev with
  | atA env input =>
    obtain ⟨n, hn, rfl⟩ := map_eq_some_iff.mp hs
    exact ⟨hsame _ _ _, hown (step_acts h.a hw hn)⟩
  | atB env input =>
    obtain ⟨n, hn, rfl⟩ := map_eq_some_iff.mp hs
    exact ⟨hown (step_acts h.b hw hn), hsame _ _ _⟩
  | toA env =>
    obtain ⟨pkt, ba, n, hba, hn, rfl⟩ := recvA_some hs
    have hgate := hba ▸ h.ba
    have ha := rtsctsRecv_acts h.a hw (hgate.sync pkt mem_cons_self) hn
    exact ⟨hsame _ _ _, fun hx hx' => ⟨pkt, by rw [hba]; rfl, hgate.first ha (fun h => h hx) hx'⟩⟩
  | toB env =>
    obtain ⟨pkt, ab, n, hab, hn, rfl⟩ := recvB_some hs
    have hgate := hab ▸ h.ab
    have hb := rtsctsRecv_acts h.b hw (hgate.sync pkt mem_cons_self) hn
    exact ⟨fun hy hy' => ⟨pkt, by rw [hab]; rfl, hgate.first hb (fun h => h hy) hy'⟩, hsame _ _ _⟩
  | dropAB i | dropBA i =>
    cases hs
    exact ⟨hsame _ _ _, hsame _ _ _⟩

def FirstContact (s : System) : Prop :=
  (AfterFirst s.b s.ab ∧ AfterFirst s.a s.ba) ∧
    ∀ ev s', TwoWay s ev → s.step ev = some s' →
      StartsWithFirst s.a s.b s'.b s.ab ∧ StartsWithFirst s.b s.a s'.a s.ba

theorem first_contact {a b : ℤ} {memA memB : Option ℕ → ℤ → UInt8} {s : System}
    (ha : (Int32.ofInt a).toInt = a) (hb : (Int32.ofInt b).toInt = b)
    (hrun : System.Run (fun s ev => TwoWay s ev ∧ NotEarly s ev) (System.init a b memA memB) s) :
    FirstContact s := by
  have h : InTouch s := hrun.induction (InTouch.init ha hb) fun h hok hs => h.step hok.1 hok.2 hs
  exact ⟨⟨h.ab.afterFirst, h.ba.afterFirst⟩, fun ev s' hw hs => h.startsWithFirst hw hs⟩

theorem goodEnv_retryOnly (jiffies : ℕ) (recv : Option RecvArgs) :
    (goodEnv jiffies recv).RetryOnly :=
  fun _ h => absurd h (by decide : (0 : ℤ) ≠ 1)

def pinged : List Event :=
  [.atA (goodEnv 0 none) (.send emptyMsg), .dropAB 0, .atB (goodEnv 0 none) (.ping (hdrFrom 0) 0),
    .toA (goodEnv 0 none)]

theorem pinged_twoWay : ∀ ev ∈ pinged, ∀ s, decide (s.a.myPnid = 0) = true → TwoWay s ev := by
  simp [pinged, TwoWay, Input.Local, goodEnv_retryOnly, emptyMsg, hdrFrom, eq_comm]

theorem first_contact_too_early :
    ∃ s, System.Run TwoWay (System.init 0 1 (fun _ _ => 0) fun _ _ => 0) s ∧ ¬ FirstContact s := by
  refine exists_run_imp (P := fun s => ∃ pkt ∈ s.ab, ∃ hdr ∈ pkt.phdr,
    pkt.msgNum ≠ bootMsgNum ∧ s.b.lastMsgNum hdr.src.nid.toInt = bootMsgNum)
    pinged_twoWay (by decide +kernel) fun s _ hearly h => ?_
  obtain ⟨pkt, hpkt, hdr, hhdr, hnum, hlast⟩ := hearly
  exact h.1.1 pkt hpkt hdr hhdr hnum hlast

def greeted : List Event :=
  [.atA (goodEnv 0 none) (.send emptyMsg), .toB (goodEnv 0 (some ⟨0, 0, none⟩)),
    .atB (goodEnv 0 none) (.ping (hdrFrom 0) 0), .toA (goodEnv 0 none), .toA (goodEnv 0 none)]

theorem greeted_twoWay : ∀ ev ∈ greeted, ∀ s, decide (s.a.myPnid = 0) = true → TwoWay s ev := by
  simp [greeted, TwoWay, Input.Local, goodEnv_retryOnly, emptyMsg, hdrFrom, eq_comm]

instance (x y : Node) (yx : List Packet) : Decidable (InTurn x y yx) :=
  inferInstanceAs (Decidable (∀ pkt ∈ yx.head?, _ → x.sendMsgNum y.myPnid ≠ bootMsgNum →
    y.lastMsgNum x.myPnid ≠ bootMsgNum))

instance (s : System) : (ev : Event) → Decidable (NotEarly s ev)
  | .toA _ => inferInstanceAs (Decidable (InTurn s.a s.b s.ba))
  | .toB _ => inferInstanceAs (Decidable (InTurn s.b s.a s.ab))
  | .atA _ _ | .atB _ _ | .dropAB _ | .dropBA _ => .isTrue trivial

theorem first_contact_greeted : ∃ s, System.Run (fun s ev => TwoWay s ev ∧ NotEarly s ev)
        (System.init 0 1 (fun _ _ => 0) fun _ _ => 0) s ∧
      (∃ pkt ∈ s.ab, pkt.type = .p3PingAck ∧ pkt.msgNum = 2) ∧ FirstContact s := by
  have hok : ∀ ev ∈ greeted, ∀ s, (decide (s.a.myPnid = 0) && decide (NotEarly s ev)) = true →
      TwoWay s ev ∧ NotEarly s ev := by
    intro ev hev s h
    obtain ⟨hpnid, hearly⟩ := Bool.and_eq_true_iff.mp h
    exact ⟨greeted_twoWay ev hev s hpnid, of_decide_eq_true hearly⟩
  exact exists_run_imp (P := fun s => ∃ pkt ∈ s.ab, pkt.type = .p3PingAck ∧ pkt.msgNum = 2)
    hok (by decide +kernel) fun s hrun hack => ⟨hack, first_contact (by decide) (by decide) hrun⟩

end Cplant.Rtscts
