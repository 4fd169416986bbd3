import Cplant.Rtscts.Frames

/-!
# Which attempt a data packet belongs to

A sender that starts over counts up `retries` and begins again with sequence number 1
at byte 0. The check in `handleDATA` turns away packets of a later attempt than the one
the entry is at, unless they start it, but not packets of an earlier attempt that
happen to have the next sequence number.
-/
namespace Cplant.Rtscts

def copied (env : Env) (e : Qentry) (pkt : Packet) : Prop :=
  (checkSeq e pkt).1 = true ∧ copies (checkSeq e pkt).2 pkt ∧ env.copy 0 = true

instance (env : Env) (e : Qentry) (pkt : Packet) : Decidable (copied env e pkt) :=
  inferInstanceAs (Decidable (_ ∧ _ ∧ _))

def inAttempt (e : Qentry) (pkt : Packet) : Prop :=
  pkt.info2 = (checkSeq e pkt).2.retries ∧ pkt.seq = (checkSeq e pkt).2.seq

instance (e : Qentry) (pkt : Packet) : Decidable (inAttempt e pkt) :=
  inferInstanceAs (Decidable (_ ∧ _))

def lateInSequence (e : Qentry) (pkt : Packet) : Prop :=
  pkt.seq = e.seq ∧ pkt.info2 < e.retries

variable {n : Node} {env : Env} {e : Qentry} {pkt : Packet}

namespace Node

theorem msgEnd_mem : (n.msgEnd e).mem = n.mem := by
  unfold msgEnd
  cases e.libFinalizeCalled <;> rfl

theorem finishData_mem : (n.finishData env e pkt).mem = n.mem := by
  unfold finishData
  dsimp only
  split_ifs
  · exact msgEnd_mem
  · rfl
  · rfl
  · exact msgEnd_mem
  · rfl
  · rfl

theorem handleDATA_mem (hf : findQueue n.receiving pkt.msgID = some e) :
    (n.handleDATA env pkt).mem = if copied env e pkt then
        (n.writeUser e.task (e.buf + (checkSeq e pkt).2.datasent)
          (pkt.body.take (dataLen (checkSeq e pkt).2 pkt))).mem else n.mem := by
  obtain ⟨seq, datasent, retries, g, he, -⟩ := checkSeq_frame e pkt
  have htask : (checkSeq e pkt).2.task = e.task := by rw [he]
  have hbuf : (checkSeq e pkt).2.buf = e.buf := by rw [he]
  simp only [handleDATA, hf, copied]
  by_cases ha : (checkSeq e pkt).1 = true
  · by_cases hc : copies (checkSeq e pkt).2 pkt
    · by_cases hcopy : env.copy 0 = true
      · simp only [ha, hc, hcopy, Bool.not_true, Bool.false_eq_true, if_true, if_false, and_self,
          finishData_mem, htask, hbuf]
        rfl
      · simp [ha, hc, hcopy, setReceiving]
    · simp [ha, hc, finishData_mem]
  · simp [ha, setReceiving]

end Node

theorem checkSeq_accepted (h : (checkSeq e pkt).1 = true) : inAttempt e pkt ∨
      pkt.seq = e.seq ∧ pkt.info2 ≤ e.retries ∧ (checkSeq e pkt).2.seq = e.seq ∧
        (checkSeq e pkt).2.retries = e.retries := by
  unfold inAttempt
  unfold checkSeq at h ⊢
  split_ifs at h ⊢ with h1 h2 h3 h4
  · exact .inl ⟨rfl, h1.2⟩
  · exact .inr ⟨by omega, by omega, rfl, rfl⟩
  · exact .inr ⟨by omega, by omega, rfl, rfl⟩

theorem checkSeq_late (h : lateInSequence e pkt) :
    (checkSeq e pkt).1 = true ∧ (checkSeq e pkt).2.retries = e.retries ∧
      (copies (checkSeq e pkt).2 pkt ↔ copies e pkt) := by
  obtain ⟨hseq, hretries⟩ := h
  unfold checkSeq
  rw [if_neg (by omega), if_neg (by omega), if_neg (by omega)]
  split_ifs <;> exact ⟨rfl, rfl, Iff.rfl⟩

/-- Bytes are copied only within the attempt that the entry is assembling and in its order, unless a
packet of an earlier attempt has the next sequence number while the message has room and is not
completed. -/
theorem handleDATA_inAttempt_iff (n : Node) (env : Env) (e : Qentry) (pkt : Packet)
    (hf : findQueue n.receiving pkt.msgID = some e) :
    ((n.handleDATA env pkt).mem =
      if copied env e pkt then
        (n.writeUser e.task (e.buf + (checkSeq e pkt).2.datasent)
          (pkt.body.take (dataLen (checkSeq e pkt).2 pkt))).mem
      else n.mem) ∧
    ((copied env e pkt → inAttempt e pkt) ↔
      ¬ (lateInSequence e pkt ∧ copies e pkt ∧ env.copy 0 = true)) := by
  refine ⟨Node.handleDATA_mem hf, ?_, ?_⟩
  · rintro h ⟨hlate, hcopies, hcopy⟩
    obtain ⟨hacc, hret, hiff⟩ := checkSeq_late hlate
    have hin := h ⟨hacc, hiff.mpr hcopies, hcopy⟩
    have hlt := hlate.2
    rw [hin.1, hret] at hlt
    exact lt_irrefl _ hlt
  · rintro h ⟨hacc, hcopies, hcopy⟩
    rcases checkSeq_accepted hacc with hin | ⟨hseq, hle, hseq', hret⟩
    · exact hin
    · refine ⟨?_, hseq.trans hseq'.symm⟩
      rw [hret]
      refine hle.antisymm (not_lt.mp fun hlt => h ⟨⟨hseq, hlt⟩, ?_, hcopy⟩)
      exact (checkSeq_late ⟨hseq, hlt⟩).2.2.mp hcopies

def fullPkt (type : PktType) (seq : ℕ) (retries : ℤ) : Packet where
  type := type
  srcNid := 0
  msgID := 2 ^ 21
  seq := seq
  info := 1
  info2 := retries
  msgNum := bootMsgNum
  phdr := none
  body := List.replicate dataRoom 0

def arrived : List Packet → Option Node
  | [] =>
    (initProtocol 1 fun _ _ => 0).rtsctsRecv (goodEnv 0 (some ⟨0, 40000, none⟩))
      (p3Pkt (initProtocol 0 fun _ _ => 0) .p3Rts (2 ^ 21) bootMsgNum (hdrFrom 0)
        (List.replicate rtsRoom 0))
  | pkt :: pkts => (arrived pkts).bind fun n => n.rtsctsRecv (goodEnv 0 none) pkt

theorem exists_arrived {pkts : List Packet} {P : Qentry → Prop} [DecidablePred P]
    (h : ((arrived pkts).bind fun n => findQueue n.receiving (2 ^ 21)).any (fun e => P e) = true) :
    ∃ n e, arrived pkts = some n ∧ findQueue n.receiving (2 ^ 21) = some e ∧ P e := by
  cases he : (arrived pkts).bind fun n => findQueue n.receiving (2 ^ 21) with
  | none =>
    rw [he] at h
    cases h
  | some e =>
    rw [he] at h
    obtain ⟨n, hn, hf⟩ := Option.bind_eq_some_iff.mp he
    exact ⟨n, e, hn, hf, of_decide_eq_true h⟩

theorem handleDATA_inAttempt_iff_second : ∃ n e, arrived [fullPkt .stopData 1 1] = some n ∧
    findQueue n.receiving (2 ^ 21) = some e ∧ inAttempt e (fullPkt .data 2 1) := by
  obtain ⟨n, e, hn, hf, hcopied, hretries⟩ : ∃ n e, arrived [fullPkt .stopData 1 1] = some n ∧
      findQueue n.receiving (2 ^ 21) = some e ∧
      copied (goodEnv 0 none) e (fullPkt .data 2 1) ∧ e.retries = 1 :=
    exists_arrived (by decide +kernel)
  refine ⟨n, e, hn, hf, ?_⟩
  refine (handleDATA_inAttempt_iff n (goodEnv 0 none) e (fullPkt .data 2 1) hf).2.mpr ?_ hcopied
  rintro ⟨⟨-, hlt⟩, -⟩
  exact absurd (hretries ▸ hlt) (lt_irrefl _)

theorem handleDATA_mixes_attempts : ∃ n e, arrived [fullPkt .stopData 1 1] = some n ∧
    findQueue n.receiving (2 ^ 21) = some e ∧
    copied (goodEnv 0 none) e (fullPkt .data 2 0) ∧ ¬ inAttempt e (fullPkt .data 2 0) :=
  exists_arrived (by decide +kernel)

end Cplant.Rtscts
