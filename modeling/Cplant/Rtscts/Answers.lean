import Cplant.Rtscts.Network

/-!
What a receiver does with a packet of a message it has accepted: it changes the entry of
the message, and all it sends are answers about the message to the node it came from.
-/
namespace Cplant.Rtscts
open Cplant.Portals (PtlHdr)

def Packet.isAnswer (pkt : Packet) : Prop :=
  pkt.type = .cts ∨ pkt.type = .msgend ∨ pkt.type = .msgdrop

/-- `n'` is `n` with answers about message `msgID` sent to `dst`; user memory and the
counters may differ. -/
structure Answering (msgID : ℕ) (dst : ℤ) (n n' : Node) : Prop where
  myPnid : n'.myPnid = n.myPnid
  receiving : n'.receiving = n.receiving
  lastMsgNum : n'.lastMsgNum = n.lastMsgNum
  parsed : parsed n'.calls = parsed n.calls
  out : ∃ answers : List Packet, n'.out = n.out ++ answers.map (fun pkt => (dst, pkt)) ∧
    ∀ pkt ∈ answers, pkt.isAnswer ∧ pkt.msgID = msgID ∧ pkt.srcNid = n.myPnid

def AnsweringFor (e : Qentry) (n n' : Node) : Prop :=
  ∃ e' : Qentry, e'.msgID = e.msgID ∧ e'.srcNid = e.srcNid ∧
    Answering e.msgID e.srcNid
      { n with receiving := updateEntry n.receiving e.msgID fun _ => e' } n'

variable {n n' n'' : Node} {env : Env} {e e0 e' : Qentry} {pkt : Packet} {msgID task : ℕ} {dst : ℤ}

theorem parsed_finalize {calls : List LibCall} {nal cookie : Option ℕ} :
    parsed (calls ++ [.finalize nal cookie]) = parsed calls := by
  simp [parsed]

namespace Answering

theorem trans (h : Answering msgID dst n n') (h' : Answering msgID dst n' n'') :
    Answering msgID dst n n'' where
  myPnid := h'.myPnid.trans h.myPnid
  receiving := h'.receiving.trans h.receiving
  lastMsgNum := h'.lastMsgNum.trans h.lastMsgNum
  parsed := h'.parsed.trans h.parsed
  out := by
    obtain ⟨l, hl, hall⟩ := h.out
    obtain ⟨l', hl', hall'⟩ := h'.out
    refine ⟨l ++ l', by rw [hl', hl, List.map_append, List.append_assoc], fun pkt hpkt => ?_⟩
    rcases List.mem_append.mp hpkt with hpkt | hpkt
    · exact hall pkt hpkt
    · exact h.myPnid ▸ hall' pkt hpkt

theorem of_eq (h1 : n'.myPnid = n.myPnid) (h2 : n'.receiving = n.receiving)
    (h3 : n'.lastMsgNum = n.lastMsgNum) (h4 : Rtscts.parsed n'.calls = Rtscts.parsed n.calls)
    (h5 : n'.out = n.out) : Answering msgID dst n n' :=
  ⟨h1, h2, h3, h4, [], by simp [h5], by simp⟩

theorem sendProtoMSG {type : PktType} {info : ℕ} {info2 : ℤ}
    (h : type = .cts ∨ type = .msgend ∨ type = .msgdrop) :
    Answering msgID dst n (n.sendProtoMSG type msgID dst info info2) where
  myPnid := rfl
  receiving := rfl
  lastMsgNum := rfl
  parsed := rfl
  out := ⟨[_], rfl, fun pkt hpkt => by rw [List.mem_singleton.mp hpkt]; exact ⟨h, rfl, rfl⟩⟩

theorem finalize {nal cookie : Option ℕ} : Answering msgID dst n (n.finalize nal cookie) :=
  .of_eq rfl rfl rfl parsed_finalize rfl

theorem setReceiving (h : Answering e.msgID e.srcNid n n') (hid : e'.msgID = e.msgID)
    (hsrc : e'.srcNid = e.srcNid) : AnsweringFor e n (n'.setReceiving e') := by
  refine ⟨e', hid, hsrc, h.myPnid, ?_, h.lastMsgNum, h.parsed, h.out⟩
  simp [Node.setReceiving, h.receiving, hid]

end Answering

theorem AnsweringFor.after (h : AnsweringFor e n' n'') (h0 : Answering e0.msgID e0.srcNid n n')
    (hid : e.msgID = e0.msgID) (hsrc : e.srcNid = e0.srcNid) : AnsweringFor e0 n n'' := by
  obtain ⟨e', hid', hsrc', h'⟩ := h
  rw [hid, hsrc, h0.receiving] at h'
  refine ⟨e', hid'.trans hid, hsrc'.trans hsrc, .trans ?_ h'⟩
  exact ⟨h0.myPnid, rfl, h0.lastMsgNum, h0.parsed, h0.out⟩

namespace Node

theorem msgEnd_answeringFor : AnsweringFor e n (n.msgEnd e) := by
  have hsend : Answering e.msgID e.srcNid n (n.sendProtoMSG .msgend e.msgID e.srcNid 0 0) :=
    .sendProtoMSG (.inr (.inl rfl))
  unfold msgEnd
  cases e.libFinalizeCalled with
  | false => exact (hsend.trans .finalize).setReceiving rfl rfl
  | true => exact hsend.setReceiving rfl rfl

theorem protoError_answeringFor : AnsweringFor e n (n.protoError e) := by
  refine Answering.setReceiving (.trans ?_ (.sendProtoMSG (.inr (.inr rfl)))) rfl rfl
  exact .of_eq rfl rfl rfl rfl rfl

theorem sendCTS_answering {len : ℕ} : Answering msgID dst n (n.sendCTS msgID dst len).1 := by
  have h : Answering msgID dst n (n.sendProtoMSG .cts msgID dst len (grant n.outstandingPkts)) :=
    .sendProtoMSG (.inl rfl)
  exact ⟨h.myPnid, h.receiving, h.lastMsgNum, h.parsed, h.out⟩

theorem finishData_answeringFor : AnsweringFor e n (n.finishData env e pkt) := by
  have hrefl : Answering e.msgID e.srcNid n n := .of_eq rfl rfl rfl rfl rfl
  have hmore : Answering e.msgID e.srcNid n (n.grantMore (takeData env e pkt)).1 :=
    sendCTS_answering
  unfold finishData
  dsimp only
  split_ifs
  · exact msgEnd_answeringFor.after hmore rfl rfl
  · exact protoError_answeringFor.after hmore rfl rfl
  · exact hmore.setReceiving rfl rfl
  · exact msgEnd_answeringFor.after hrefl rfl rfl
  · exact protoError_answeringFor.after hrefl rfl rfl
  · exact hrefl.setReceiving rfl rfl

theorem handleDATA_answeringFor (hf : findQueue n.receiving pkt.msgID = some e) :
    AnsweringFor e n (n.handleDATA env pkt) := by
  obtain ⟨seq, datasent, retries, g, he, -⟩ := checkSeq_frame e pkt
  have hid : (checkSeq e pkt).2.msgID = e.msgID := by rw [he]
  have hsrc : (checkSeq e pkt).2.srcNid = e.srcNid := by rw [he]
  simp only [handleDATA, hf]
  split_ifs
  · refine Answering.setReceiving ?_ hid hsrc
    exact .of_eq rfl rfl rfl rfl rfl
  · refine finishData_answeringFor.after ?_ hid hsrc
    exact .of_eq rfl rfl rfl rfl rfl
  · refine Answering.setReceiving ?_ hid hsrc
    exact .of_eq rfl rfl rfl rfl rfl
  · refine finishData_answeringFor.after ?_ hid hsrc
    exact .of_eq rfl rfl rfl rfl rfl

theorem handleDATA_of_none (hf : findQueue n.receiving pkt.msgID = none) :
    n.handleDATA env pkt = n := by
  simp [handleDATA, hf]

theorem handleDuplicate_answeringFor (hf : findQueue n.receiving msgID = some e) :
    AnsweringFor e n (n.handleDuplicate e) := by
  have hself : updateEntry n.receiving e.msgID (fun _ => e) = n.receiving :=
    findQueue_msgID hf ▸ updateFirst_self hf
  have hsame : ∀ n', Answering e.msgID e.srcNid n n' → AnsweringFor e n n' := by
    intro n' h
    refine ⟨e, rfl, rfl, ?_⟩
    rw [hself]
    exact h
  unfold handleDuplicate
  split
  · exact hsame _ (.sendProtoMSG (.inr (.inr rfl)))
  · exact hsame _ (.sendProtoMSG (.inr (.inl rfl)))
  · refine Answering.setReceiving (e := e) ?_ rfl rfl
    have h : Answering e.msgID e.srcNid n (n.sendProtoMSG .cts e.msgID e.srcNid e.len 1) :=
      .sendProtoMSG (.inl rfl)
    exact ⟨h.myPnid, h.receiving, h.lastMsgNum, h.parsed, h.out⟩
  · exact hsame _ (.of_eq rfl rfl rfl rfl rfl)

theorem copyFirst_answering {data : ℤ} {bytes : List UInt8} :
    Answering msgID dst n (n.copyFirst env task data bytes) := by
  obtain ⟨mem, h⟩ := copyFirst_frame n env task data bytes
  rw [h]
  exact .of_eq rfl rfl rfl rfl rfl

theorem enqueueReceiving_answering (h : Answering msgID dst n n') (ha : env.alloc = true) :
    Answering msgID dst { n with receiving := n.receiving ++ [e] } (n'.enqueueReceiving env e) := by
  unfold enqueueReceiving
  rw [if_pos ha, h.receiving]
  exact ⟨h.myPnid, rfl, h.lastMsgNum, h.parsed, h.out⟩

theorem recvBody_answering {hdr : PtlHdr} {nal : ℕ} {args : RecvArgs}
    (hp : pkt.type = .p3Rts ∨ pkt.type = .p3LastRts) (ha : env.alloc = true) :
    ∃ e' : Qentry, e'.msgID = pkt.msgID ∧ e'.srcNid = hdr.src.nid.toInt ∧
      Answering pkt.msgID hdr.src.nid.toInt { n with receiving := n.receiving ++ [e'] }
        (n.recvBody env pkt hdr nal task args) := by
  unfold recvBody
  rw [if_neg (by rcases hp with hp | hp <;> simp [hp])]
  split_ifs
  · exact ⟨_, rfl, rfl, enqueueReceiving_answering (sendCTS_answering.trans copyFirst_answering) ha⟩
  · exact ⟨_, rfl, rfl, enqueueReceiving_answering
      (copyFirst_answering.trans (.trans (.sendProtoMSG (.inr (.inl rfl))) .finalize)) ha⟩

end Node
end Cplant.Rtscts
