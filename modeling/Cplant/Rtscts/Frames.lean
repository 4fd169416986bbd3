import Cplant.Rtscts.Turns

/-!
Handling a packet of somebody else's message leaves alone what the node knows about its
own messages.
-/
namespace Cplant.Rtscts
open List
open Cplant.Portals (PtlHdr)

structure SameSender (n n' : Node) : Prop where
  myPnid : n'.myPnid = n.myPnid
  msgID : n'.msgID = n.msgID
  sndPending : n'.sndPending = n.sndPending
  sending : n'.sending = n.sending
  sendMsgNum : n'.sendMsgNum = n.sendMsgNum
  firstAck : n'.firstAck = n.firstAck

variable {n n' n'' : Node} {env : Env} {e e' : Qentry} {pkt : Packet} {hdr : PtlHdr} {msgID : ℕ}
  {p outstandingPkts : ℤ} {calls : List LibCall}

theorem SameSender.refl (n : Node) : SameSender n n := ⟨rfl, rfl, rfl, rfl, rfl, rfl⟩

theorem SameSender.trans (h : SameSender n n') (h' : SameSender n' n'') : SameSender n n'' where
  myPnid := h'.myPnid.trans h.myPnid
  msgID := h'.msgID.trans h.msgID
  sndPending := h'.sndPending.trans h.sndPending
  sending := h'.sending.trans h.sending
  sendMsgNum := h'.sendMsgNum.trans h.sendMsgNum
  firstAck := h'.firstAck.trans h.firstAck

theorem checkSeq_frame (e : Qentry) (pkt : Packet) : ∃ seq datasent retries grantedPkts,
      (checkSeq e pkt).2 = { e with seq, datasent, retries, grantedPkts } ∧
        (grantedPkts = e.grantedPkts ∨ grantedPkts = 0) := by
  unfold checkSeq
  split_ifs
  · exact ⟨_, _, _, _, rfl, .inr rfl⟩
  · exact ⟨_, _, _, _, rfl, .inl rfl⟩
  · exact ⟨_, _, _, _, rfl, .inl rfl⟩
  · exact ⟨_, _, _, _, rfl, .inr rfl⟩
  · exact ⟨_, _, _, _, rfl, .inl rfl⟩

/-- What a node does for a message of `p`: it leaves its own messages alone and sends protocol
messages to `p`. -/
structure Attends (p : ℤ) (n n' : Node) : Prop where
  sender : SameSender n n'
  lastMsgNum : n'.lastMsgNum = n.lastMsgNum
  receiving : ∀ e ∈ n'.receiving, e ∈ n.receiving ∨ e.srcNid = p
  out : ∃ pkts, n'.out = n.out ++ pkts ∧ ∀ q ∈ pkts, ∃ type msgID info info2,
    type ≠ .p3Sync ∧ q = (p, ⟨type, n.myPnid, msgID, 0, info, info2, illMsgNum, none, []⟩)

theorem aside_attends {protoErr9 : ℕ} {mem : Option ℕ → ℤ → UInt8}
    : Attends p n { n with outstandingPkts, protoErr9, mem, calls } :=
  ⟨⟨rfl, rfl, rfl, rfl, rfl, rfl⟩, rfl, fun _ => .inl, [], by simp⟩

theorem Attends.refl (n : Node) : Attends p n n := aside_attends

theorem out_trans {P : ℤ × Packet → Prop} (h : ∃ pkts, n'.out = n.out ++ pkts ∧ ∀ q ∈ pkts, P q)
    (h' : ∃ pkts, n''.out = n'.out ++ pkts ∧ ∀ q ∈ pkts, P q) :
    ∃ pkts, n''.out = n.out ++ pkts ∧ ∀ q ∈ pkts, P q := by
  obtain ⟨pkts, hout, hpkts⟩ := h
  obtain ⟨pkts', hout', hpkts'⟩ := h'
  exact ⟨pkts ++ pkts', by rw [hout', hout, append_assoc],
    forall_mem_append.mpr ⟨hpkts, hpkts'⟩⟩

theorem Attends.trans (h : Attends p n n') (h' : Attends p n' n'') : Attends p n n'' where
  sender := h.sender.trans h'.sender
  lastMsgNum := h'.lastMsgNum.trans h.lastMsgNum
  receiving e he := (h'.receiving e he).elim (h.receiving e) .inr
  out := out_trans h.out (h.sender.myPnid ▸ h'.out)

namespace Node

variable {info2 : ℤ} {task nal : ℕ}

theorem sendProtoMSG_attends {type : PktType} {dst : ℤ} {info : ℕ} (hdst : dst = p)
    (h : type ≠ .p3Sync) : Attends p n (n.sendProtoMSG type msgID dst info info2) :=
  ⟨⟨rfl, rfl, rfl, rfl, rfl, rfl⟩, rfl, fun _ => .inl, _, rfl,
    forall_mem_singleton.mpr ⟨type, msgID, info, info2, h, hdst ▸ rfl⟩⟩

theorem setReceiving_attends (he : e.srcNid = p) : Attends p n (n.setReceiving e) := by
  refine ⟨⟨rfl, rfl, rfl, rfl, rfl, rfl⟩, rfl, fun e' he' => ?_, [], by simp [setReceiving]⟩
  rcases mem_updateEntry he' with he' | ⟨-, -, rfl⟩
  · exact .inl he'
  · exact .inr he

theorem msgEnd_attends (he : e.srcNid = p) : Attends p n (n.msgEnd e) := by
  have hsend : Attends p n (n.sendProtoMSG .msgend e.msgID e.srcNid 0 0) :=
    sendProtoMSG_attends he nofun
  unfold msgEnd
  split_ifs
  · exact hsend.trans (setReceiving_attends he)
  · exact (hsend.trans aside_attends).trans (setReceiving_attends he)

theorem sendCTS_attends {len : ℕ} : Attends p n (n.sendCTS msgID p len).1 := by
  have hsend : Attends p n (n.sendProtoMSG .cts msgID p len (grant n.outstandingPkts)) :=
    sendProtoMSG_attends rfl nofun
  exact hsend.trans aside_attends

theorem protoError_attends (he : e.srcNid = p) : Attends p n (n.protoError e) := by
  have herr : Attends p n { n with protoErr9 := n.protoErr9 + 1 } := aside_attends
  have hdrop : Attends p n
      ({ n with protoErr9 := n.protoErr9 + 1 }.sendProtoMSG .msgdrop e.msgID e.srcNid 1 0) :=
    herr.trans (sendProtoMSG_attends he nofun)
  exact hdrop.trans (setReceiving_attends he)

theorem finishData_attends (he : e.srcNid = p) : Attends p n (n.finishData env e pkt) := by
  have he' : (takeData env e pkt).srcNid = p := he
  have hmore : Attends p n (n.grantMore (takeData env e pkt)).1 := he ▸ sendCTS_attends
  unfold finishData
  dsimp only
  split_ifs
  · exact hmore.trans (msgEnd_attends he')
  · exact hmore.trans (protoError_attends he')
  · exact hmore.trans (setReceiving_attends he')
  · exact msgEnd_attends he'
  · exact protoError_attends he'
  · exact setReceiving_attends he'

theorem handleDATA_attends : n.handleDATA env pkt = n ∨
    ∃ e ∈ n.receiving, Attends e.srcNid n (n.handleDATA env pkt) := by
  unfold handleDATA
  cases hf : findQueue n.receiving pkt.msgID with
  | none => exact .inl rfl
  | some e0 =>
    have he : (checkSeq e0 pkt).2.srcNid = e0.srcNid := by
      obtain ⟨seq, datasent, retries, grantedPkts, heq, -⟩ := checkSeq_frame e0 pkt
      rw [heq]
    refine .inr ⟨e0, findQueue_mem hf, ?_⟩
    have hout : Attends e0.srcNid n { n with
        outstandingPkts := n.outstandingPkts - (e0.grantedPkts - (checkSeq e0 pkt).2.grantedPkts) } :=
      aside_attends
    dsimp only
    split_ifs
    · exact hout.trans (setReceiving_attends he)
    · exact (hout.trans aside_attends).trans (finishData_attends he)
    · exact hout.trans (setReceiving_attends he)
    · exact hout.trans (finishData_attends he)

theorem handleDuplicate_attends (he : e.srcNid = p) : Attends p n (n.handleDuplicate e) := by
  unfold handleDuplicate
  split
  · exact sendProtoMSG_attends he nofun
  · exact sendProtoMSG_attends he nofun
  · have hsend : Attends p n (n.sendProtoMSG .cts e.msgID e.srcNid e.len 1) :=
      sendProtoMSG_attends he nofun
    exact (hsend.trans aside_attends).trans (setReceiving_attends he)
  · exact .refl n

theorem copyFirst_frame (n : Node) (env : Env) (task : ℕ) (data : ℤ) (bytes : List UInt8) :
    ∃ mem, n.copyFirst env task data bytes = { n with mem } := by
  unfold copyFirst
  split_ifs
  · exact ⟨_, rfl⟩
  · exact ⟨n.mem, rfl⟩

theorem copyFirst_attends {data : ℤ} {bytes : List UInt8} :
    Attends p n (n.copyFirst env task data bytes) := by
  obtain ⟨mem, h⟩ := copyFirst_frame n env task data bytes
  rw [h]
  exact aside_attends

theorem enqueueReceiving_attends (he : e.srcNid = p) : Attends p n (n.enqueueReceiving env e) := by
  unfold enqueueReceiving
  split_ifs
  · refine ⟨⟨rfl, rfl, rfl, rfl, rfl, rfl⟩, rfl, fun e' he' => ?_, [], by simp⟩
    rcases mem_append.mp he' with he' | he'
    · exact .inl he'
    · exact .inr (mem_singleton.mp he' ▸ he)
  · exact .refl n

theorem recvBody_attends {args : RecvArgs} :
    Attends hdr.src.nid.toInt n (n.recvBody env pkt hdr nal task args) := by
  unfold recvBody
  split_ifs
  · exact .refl n
  · exact (sendCTS_attends.trans copyFirst_attends).trans (enqueueReceiving_attends rfl)
  · refine .trans (.trans ?_ aside_attends) (enqueueReceiving_attends rfl)
    exact copyFirst_attends.trans (sendProtoMSG_attends rfl nofun)

theorem cbRecv_sameSender {args : Option RecvArgs} :
    SameSender n (n.cbRecv env pkt hdr nal task args) := by
  cases args with
  | none => exact .refl n
  | some args => exact recvBody_attends.sender

theorem setLastMsgNum_sameSender {src : ℤ} {num : ℕ} : SameSender n (n.setLastMsgNum src num) :=
  ⟨rfl, rfl, rfl, rfl, rfl, rfl⟩

theorem deliverP3_sameSender {orig : ℕ} : SameSender n (n.deliverP3 env pkt hdr orig) := by
  unfold deliverP3
  cases env.getCb hdr.nid.toInt hdr.pid.toInt with
  | none => exact ⟨rfl, rfl, rfl, rfl, rfl, rfl⟩
  | some cb =>
    unfold parseP3
    dsimp only
    split_ifs
    · refine .trans (.trans ?_ cbRecv_sameSender) setLastMsgNum_sameSender
      exact ⟨rfl, rfl, rfl, rfl, rfl, rfl⟩
    · refine .trans ?_ cbRecv_sameSender
      exact ⟨rfl, rfl, rfl, rfl, rfl, rfl⟩

theorem handleGCH_sameSender : SameSender n (n.handleGCH msgID) := by
  unfold handleGCH
  cases findQueue n.receiving msgID <;> exact ⟨rfl, rfl, rfl, rfl, rfl, rfl⟩

theorem receives_sameSender (h : Receives n env n') : SameSender n n' := by
  cases h with
  | nothing => exact .refl n
  | data => exact handleDATA_attends.elim (fun h => h ▸ .refl n) fun ⟨_, _, h⟩ => h.sender
  | duplicate => exact (handleDuplicate_attends rfl).sender
  | delivered => exact deliverP3_sameSender
  | dropped => exact ⟨rfl, rfl, rfl, rfl, rfl, rfl⟩
  | collected => exact handleGCH_sameSender

theorem ids_updateEntry {q : List Qentry} {f : Qentry → Qentry} (hf : ∀ e, (f e).msgID = e.msgID) :
    (updateEntry q msgID f).map Qentry.msgID = q.map Qentry.msgID :=
  map_updateFirst _ hf

theorem p3Retry_frame {msgNum : ℕ} {opt : Qentry → SendOpt} (hid : msgID ≠ 0)
    (h : p3Retry n env msgID msgNum opt = n') : n'.myPnid = n.myPnid ∧ n'.msgID = n.msgID ∧
      n'.sending = n.sending ∧
      (n'.sndPending.map Qentry.msgID).Sublist (n.sndPending.map Qentry.msgID) := by
  subst h
  unfold p3Retry
  cases findQueue n.sndPending msgID with
  | none => exact ⟨rfl, rfl, rfl, .refl _⟩
  | some e =>
    dsimp only
    rw [p3Send, if_neg hid]
    generalize hs : p3SendAgain _ env e.msg msgID msgNum (opt e) = r
    have hr : r.2.myPnid = n.myPnid ∧ r.2.msgID = n.msgID ∧ r.2.sending = n.sending ∧
        r.2.sndPending.map Qentry.msgID = n.sndPending.map Qentry.msgID := by
      have hcases : SendsAgain _ env e.msg msgID msgNum (opt e) r.2 := hs ▸ p3SendAgain_cases
      generalize r.2 = n1 at hcases
      cases hcases <;> simp [Node.finalize, ids_updateEntry]
    obtain ⟨hpnid, hmsg, hsending, hpending⟩ := hr
    rw [← hpending]
    split_ifs
    · exact ⟨hpnid, hmsg, hsending, eraseP_sublist.map _⟩
    · refine ⟨hpnid, hmsg, hsending, ?_⟩
      rw [ids_updateEntry]
      exact fun _ => rfl

theorem timeoutPending_length_le {dest : ℤ} (hid : ∀ e ∈ n.sndPending, e.msgID ≠ 0) :
    (n.timeoutPending env dest).sndPending.length ≤ n.sndPending.length := by
  rcases n.timeoutPending_cases env dest with heq | ⟨e, he, heq | heq⟩
  · rw [heq]
  all_goals simpa using (p3Retry_frame (hid e (findOldestMsgNum_mem he).1) heq.symm).2.2.2.length_le

/-- What a node does for its own messages where it adds none: it sends data packets, and tells
the receiver that it is done. -/
structure Proceeds (n n' : Node) : Prop where
  myPnid : n'.myPnid = n.myPnid
  firstAck : n'.firstAck = n.firstAck
  sendMsgNum : n'.sendMsgNum = n.sendMsgNum
  lastMsgNum : n'.lastMsgNum = n.lastMsgNum
  receiving : n'.receiving = n.receiving
  sndPending : n'.sndPending.Sublist n.sndPending
  out : ∃ pkts, n'.out = n.out ++ pkts ∧ ∀ q ∈ pkts, q.2.srcNid = n.myPnid ∧ q.2.phdr = none ∧
    (q.2.type = .gch ∨ q.2.type = .data ∨ q.2.type = .stopData ∨ q.2.type = .lastData)

theorem aside_proceeds {sending : List Qentry} :
    Proceeds n { n with sending, outstandingPkts, calls } :=
  ⟨rfl, rfl, rfl, rfl, rfl, .refl _, [], by simp⟩

theorem Proceeds.trans (h : Proceeds n n') (h' : Proceeds n' n'') : Proceeds n n'' where
  myPnid := h'.myPnid.trans h.myPnid
  firstAck := h'.firstAck.trans h.firstAck
  sendMsgNum := h'.sendMsgNum.trans h.sendMsgNum
  lastMsgNum := h'.lastMsgNum.trans h.lastMsgNum
  receiving := h'.receiving.trans h.receiving
  sndPending := h'.sndPending.trans h.sndPending
  out := out_trans h.out (h.myPnid ▸ h'.out)

theorem sendDATA_proceeds (n : Node) (env : Env) (e : Qentry) (numPkts : ℤ) :
    Proceeds n (n.sendDATA env e numPkts).2 := by
  have hpkts : ∀ q ∈ sentData n env e numPkts, q.2.srcNid = n.myPnid ∧ q.2.phdr = none ∧
      (q.2.type = .gch ∨ q.2.type = .data ∨ q.2.type = .stopData ∨ q.2.type = .lastData) := by
    intro q hq
    obtain ⟨pkt, hpkt, rfl⟩ := mem_map.mp hq
    obtain ⟨e', type, payload, rfl, htype⟩ := mem_sendLoop hpkt
    exact ⟨rfl, rfl, .inr htype⟩
  generalize hs : n.sendDATA env e numPkts = r
  obtain ⟨_ | e', n'⟩ := r
  · rw [sendDATA_none hs]
    exact ⟨rfl, rfl, rfl, rfl, rfl, .refl _, _, rfl, hpkts⟩
  · rw [(sendDATA_some hs).2]
    exact ⟨rfl, rfl, rfl, rfl, rfl, .refl _, _, rfl, hpkts⟩

theorem handleDataResend_proceeds : Proceeds n (handleDataResend n env msgID) := by
  unfold handleDataResend
  cases findQueue n.sending msgID with
  | none => exact aside_proceeds
  | some e1 =>
    have h := sendDATA_proceeds n env (restart e1) 1
    dsimp only
    generalize n.sendDATA env (restart e1) 1 = r at h
    obtain ⟨_ | e', n'⟩ := r <;> exact h.trans aside_proceeds

theorem timeoutSending_proceeds {pos : ℕ} : Proceeds n (n.timeoutSending env pos) := by
  rcases n.timeoutSending_cases env pos with heq | ⟨e, -, heq⟩ <;> rw [heq]
  · exact aside_proceeds
  · exact handleDataResend_proceeds

theorem dequeueSend_proceeds (h : n.dequeueSend msgID = some (e, n')) : Proceeds n n' := by
  rcases dequeueSend_cases h with ⟨-, rfl⟩ | ⟨-, -, rfl⟩
  · exact ⟨rfl, rfl, rfl, rfl, rfl, eraseP_sublist, [], by simp⟩
  · exact aside_proceeds

theorem finalizeSend_frame (n : Node) (e : Qentry) :
    ∃ calls, n.finalizeSend e = { n with calls } := by
  unfold finalizeSend
  split_ifs
  · exact ⟨_, rfl⟩
  · exact ⟨n.calls, rfl⟩

theorem handleCTS_proceeds {msglen : ℕ} {numPkts : ℤ} :
    Proceeds n (n.handleCTS env msgID msglen numPkts) := by
  unfold handleCTS
  cases hd : n.dequeueSend msgID with
  | none => exact aside_proceeds
  | some d =>
    have h := (dequeueSend_proceeds hd).trans (sendDATA_proceeds d.2 env
      { d.1 with len := min d.1.len msglen, event := .rcvdCts, idle := env.jiffies } numPkts)
    dsimp only
    generalize d.2.sendDATA env _ numPkts = r at h
    obtain ⟨_ | e', n'⟩ := r
    · exact h
    · exact h.trans aside_proceeds

theorem handleMSGDROP_proceeds : Proceeds n (n.handleMSGDROP msgID info2) := by
  unfold handleMSGDROP
  cases hd : n.dequeueSend msgID with
  | none => exact aside_proceeds
  | some d =>
    have h := dequeueSend_proceeds hd
    obtain ⟨calls, hc⟩ := finalizeSend_frame d.2 d.1
    simp only [hc]
    split_ifs
    · refine h.trans ⟨rfl, rfl, rfl, rfl, rfl, .refl _, _, rfl, ?_⟩
      exact forall_mem_singleton.mpr ⟨rfl, rfl, .inl rfl⟩
    · exact h.trans aside_proceeds

end Node
end Cplant.Rtscts
