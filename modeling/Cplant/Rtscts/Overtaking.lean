import Cplant.Rtscts.Ordering

/-!
# A message that overtakes others

`find_oldest_msgNum` takes a message whose number is more than 50000 ahead for an older
one from before the numbers wrapped around. So messages that wait in `Qsnd_pending` with
numbers that far apart make node A resynchronise node B to the newest of them, and
later back to one that was overtaken.
-/
namespace Cplant.Rtscts
open List Option Rtscts.System Function

def ActsOnFirst (p : Qentry → Bool) (u : List Qentry → List Qentry) : Prop :=
  ∀ l l', u (l ++ l') = if l.any p then u l ++ l' else l ++ u l'

def SameKeys (e e' : Qentry) : Prop :=
  e'.msgID = e.msgID ∧ e'.msgNum = e.msgNum ∧ e'.dstNid = e.dstNid ∧ e'.nal = e.nal

structure Block (lo hi : ℕ) (block : List Qentry) : Prop where
  le : lo ≤ hi
  id : ∀ e ∈ block, lo < e.msgID ∧ e.msgID ≤ hi
  dstNid : ∀ e ∈ block, e.dstNid = 1

structure Apart (lo hi : ℕ) (e : Qentry) : Prop where
  id : ¬ (lo < e.msgID ∧ e.msgID ≤ hi)
  dstNid : e.dstNid = 1
  nal : e.nal = some 0
  msgNum : e.msgNum < noMsgNum
  ne_zero : e.msgID ≠ 0

/-- The queue `q'` is `q` with the entries of `block` behind the entry with ID `lo`. They
are not far ahead of those before them. -/
def Around (lo hi : ℕ) (block q q' : List Qentry) : Prop :=
  ∃ l l', q = l ++ l' ∧ q' = l ++ block ++ l' ∧ (∃ e ∈ l, e.msgID = lo) ∧
    (∀ e ∈ l, ∀ r ∈ block, e.msgNum ≤ r.msgNum ∧ r.msgNum ≤ e.msgNum + 50000) ∧
    ∀ e ∈ l ++ l', Apart lo hi e

section
variable {lo hi msgID jiffies msgNum : ℕ} {block q q' : List Qentry} {u : List Qentry → List Qentry}
  {e e' : Qentry} {n : Node} {m : P3Msg}

theorem SameKeys.apart (h : SameKeys e e') (ha : Apart lo hi e) : Apart lo hi e' := by
  obtain ⟨hid, hnum, hdst, hnal⟩ := h
  exact ⟨hid ▸ ha.id, hdst.trans ha.dstNid, hnal.trans ha.nal, hnum ▸ ha.msgNum, hid ▸ ha.ne_zero⟩

theorem Block.any_eq_false (hb : Block lo hi block) (hid : ¬ (lo < msgID ∧ msgID ≤ hi)) :
    block.any (fun e => e.msgID == msgID) = false := by
  rw [List.any_eq_false]
  intro e he heq
  exact hid (beq_iff_eq.mp heq ▸ hb.id e he)

theorem actsOnFirst_updateEntry (f : Qentry → Qentry) :
    ActsOnFirst (fun e => e.msgID == msgID) (fun q => updateEntry q msgID f) :=
  fun l l' => updateFirst_append l l'

theorem actsOnFirst_dequeue : ActsOnFirst (fun e => e.msgID == msgID) (fun q => dequeue q msgID) :=
  fun _ _ => eraseP_append

namespace Around
section
variable (h : Around lo hi block q q')
include h

theorem apart (he : e ∈ q) : Apart lo hi e := by
  obtain ⟨l, l', rfl, -, -, -, hall⟩ := h
  exact hall e he

section
variable (hb : Block lo hi block) (hid : ¬ (lo < msgID ∧ msgID ≤ hi))
include hb hid

theorem findQueue_eq : findQueue q' msgID = findQueue q msgID := by
  obtain ⟨l, l', rfl, rfl, -⟩ := h
  have hnone : block.find? (fun e => e.msgID == msgID) = none :=
    find?_eq_none.mpr (any_eq_false.mp (hb.any_eq_false hid))
  simp [findQueue, find?_append, hnone]

theorem act (hu : ActsOnFirst (fun e => e.msgID == msgID) u)
    (hkeys : ∀ l, ∀ e ∈ u l, ∃ e0 ∈ l, SameKeys e0 e)
    (hkeep : ∀ l : List Qentry, (∃ e ∈ l, e.msgID = lo) → ∃ e ∈ u l, e.msgID = lo) :
    Around lo hi block (u q) (u q') := by
  obtain ⟨l, l', rfl, rfl, hlo, hwin, hall⟩ := h
  have hblock : ∀ l', u (block ++ l') = block ++ u l' := fun l' => by
    rw [hu, hb.any_eq_false hid]
    rfl
  have happend : u (l ++ block ++ l') =
      if l.any (fun e => e.msgID == msgID) then u l ++ block ++ l' else l ++ block ++ u l' := by
    rw [append_assoc, hu, hblock]
    split_ifs <;> simp
  rw [hu l l', happend]
  split_ifs
  · refine ⟨u l, l', rfl, rfl, hkeep l hlo, fun e he r hr => ?_, fun e he => ?_⟩
    · obtain ⟨e0, he0, -, hnum, -⟩ := hkeys l e he
      exact hnum ▸ hwin e0 he0 r hr
    · rcases mem_append.mp he with he | he
      · obtain ⟨e0, he0, hsame⟩ := hkeys l e he
        exact hsame.apart (hall e0 (mem_append_left _ he0))
      · exact hall e (mem_append_right _ he)
  · refine ⟨l, u l', rfl, rfl, hlo, hwin, fun e he => ?_⟩
    rcases mem_append.mp he with he | he
    · exact hall e (mem_append_left _ he)
    · obtain ⟨e0, he0, hsame⟩ := hkeys l' e he
      exact hsame.apart (hall e0 (mem_append_right _ he0))

theorem update {f : Qentry → Qentry} (hf : ∀ e, SameKeys e (f e)) :
    Around lo hi block (updateEntry q msgID f) (updateEntry q' msgID f) := by
  refine h.act hb hid (actsOnFirst_updateEntry f) (fun l e he => ?_) fun l hlo => ?_
  · rcases mem_updateEntry he with he | ⟨e0, he0, rfl⟩
    · exact ⟨e, he, rfl, rfl, rfl, rfl⟩
    · exact ⟨e0, findQueue_mem he0, hf e0⟩
  · obtain ⟨e, he, hlo⟩ := hlo
    have hmap : (updateEntry l msgID f).map (·.msgID) = l.map (·.msgID) :=
      map_updateFirst _ fun e => (hf e).1
    obtain ⟨e', he', heq⟩ := mem_map.mp (hmap ▸ mem_map_of_mem he)
    exact ⟨e', he', heq.trans hlo⟩

theorem dequeue (hne : msgID ≠ lo) : Around lo hi block (dequeue q msgID) (dequeue q' msgID) := by
  refine h.act hb hid actsOnFirst_dequeue (fun l e he => ?_) fun l hlo => ?_
  · exact ⟨e, mem_of_mem_dequeue he, rfl, rfl, rfl, rfl⟩
  · obtain ⟨e, he, rfl⟩ := hlo
    refine ⟨e, (mem_eraseP_of_neg ?_).mpr he, rfl⟩
    simpa using hne.symm

end

theorem oldest_eq (hb : Block lo hi block) : oldest q' 1 = oldest q 1 := by
  obtain ⟨l, l', rfl, rfl, ⟨e0, he0, -⟩, hwin, hall⟩ := h
  have hl : l.filter (fun e => e.dstNid == 1) = l := filter_eq_self.mpr fun e he =>
    beq_iff_eq.mpr (hall e (mem_append_left _ he)).dstNid
  have hbl : block.filter (fun e => e.dstNid == 1) = block :=
    filter_eq_self.mpr fun e he => beq_iff_eq.mpr (hb.dstNid e he)
  simp only [oldest, filter_append, hl, hbl, foldl_append]
  congr 1
  obtain ⟨e, l, rfl⟩ := exists_cons_of_ne_nil (ne_nil_of_mem he0)
  -- there is an oldest entry before the block, and it stays that
  have hfirst : olderOf none e = some e := by simp [olderOf, (hall e (by simp)).msgNum]
  have hsome : ∀ (l : List Qentry) (e : Qentry), ∃ e', l.foldl olderOf (some e) = some e' := by
    intro l
    induction l with
    | nil => exact fun e => ⟨e, rfl⟩
    | cons a l ih =>
      intro e
      rcases olderOf_eq (some e) a with ha | ha <;> simpa [ha] using ih _
  obtain ⟨e', he'⟩ := hsome l e
  have hmem : e' ∈ e :: l := (foldl_olderOf_mem he').elim (mem_cons_of_mem e)
    fun h => some.inj h ▸ mem_cons_self
  rw [foldl_cons, hfirst, he']
  exact foldl_olderOf_of_window (hwin e' hmem)

end
end Around

theorem p3SendAgain_serving {opt : SendOpt} (hdst : m.dst = 1) (hnal : m.nal = some 0) :
    p3SendAgain n (serving jiffies) m msgID msgNum opt =
      if queueOnly n 1 msgNum then (p3DestNotAcked, n) else (p3Ok, { n with
        sndPending := updateEntry n.sndPending msgID fun e =>
          { e with
            task := sendTask (serving jiffies) false opt m.hdr
            rtsSent := e.rtsSent ++ rtsPayload true (p3Plan opt m.len).1 (p3Plan opt m.len).2.2 }
        out := n.out ++ [(1, p3Pkt n (p3Plan opt m.len).1 msgID msgNum m.hdr
          (n.readUser (sendTask (serving jiffies) false opt m.hdr) m.buf
            (p3Plan opt m.len).2.2))] }) := by
  have hvalid : ¬ invalidDest 1 := by decide
  have hcb : cbMatches (serving jiffies) opt m.hdr m.nal = true := by
    simp [cbMatches, serving, goodEnv, hnal]
  have hmcp : (serving jiffies).mcp = true := rfl
  have hpage : (serving jiffies).page 0 = true := rfl
  have hxmit : (serving jiffies).xmit 0 = true := rfl
  have hcopy : (serving jiffies).copy 0 = true := rfl
  unfold p3SendAgain
  rw [hdst, if_neg hvalid]
  by_cases hq : queueOnly n 1 msgNum = true
  · rw [if_pos hq, if_pos hq]
  · rw [if_neg hq, if_neg hq]
    simp only [hmcp, hpage, hxmit, hcopy, hcb, p3Payload, Bool.not_true, Bool.and_false,
      Bool.and_true, Bool.or_true, Bool.false_eq_true, if_false, if_true]
    rfl

section
variable (h : Around lo hi block n.sndPending q') (hb : Block lo hi block)
include h hb

theorem Around.p3Retry {opt : Qentry → SendOpt} (hid : ¬ (lo < msgID ∧ msgID ≤ hi))
    (hne : msgID ≠ 0) :
    ∃ q'', p3Retry { n with sndPending := q' } (serving jiffies) msgID msgNum opt =
        { p3Retry n (serving jiffies) msgID msgNum opt with sndPending := q'' } ∧
      Around lo hi block (p3Retry n (serving jiffies) msgID msgNum opt).sndPending q'' := by
  unfold Rtscts.p3Retry
  rw [h.findQueue_eq hb hid]
  cases hf : findQueue n.sndPending msgID with
  | none => exact ⟨q', rfl, h⟩
  | some e =>
    have ha := h.apart (findQueue_mem hf)
    have hcount := h.update (f := fun e => { e with p3msgRetries := wrapInt (e.p3msgRetries + 1) })
      hb hid fun e => ⟨rfl, rfl, rfl, rfl⟩
    have hrc : ∀ rc, rc = p3Ok ∨ rc = p3DestNotAcked →
        ¬ (rc = p3NalError ∨ rc = p3FailedBufMemcpy ∨ rc = p3InvalidDest) := by
      rintro rc (rfl | rfl) <;> decide
    have hdst : e.msg.dst = 1 := ha.dstNid
    have hnal : e.msg.nal = some 0 := ha.nal
    simp only [p3Send, if_neg hne, p3SendAgain_serving hdst hnal]
    by_cases hq : queueOnly n 1 msgNum = true
    · have hq1 : ∀ q, queueOnly { n with sndPending := q } 1 msgNum = true := fun _ => hq
      simp only [hq1, if_true, if_neg (hrc _ (.inr rfl))]
      exact ⟨_, rfl, hcount.update hb hid fun e => ⟨rfl, rfl, rfl, rfl⟩⟩
    · have hq1 : ∀ q, queueOnly { n with sndPending := q } 1 msgNum = false :=
        fun _ => Bool.eq_false_iff.mpr hq
      simp only [hq1, Bool.false_eq_true, if_false, if_neg (hrc _ (.inl rfl))]
      refine ⟨_, rfl, Around.update (Around.update hcount hb hid fun e => ?_) hb hid fun e => ?_⟩
      · exact ⟨rfl, rfl, rfl, rfl⟩
      · exact ⟨rfl, rfl, rfl, rfl⟩

theorem Around.timeoutPending :
    ∃ q'', { n with sndPending := q' }.timeoutPending (serving jiffies) 1 =
        { n.timeoutPending (serving jiffies) 1 with sndPending := q'' } ∧
      Around lo hi block (n.timeoutPending (serving jiffies) 1).sndPending q'' := by
  have hold : findOldestMsgNum q' (serving jiffies) 1 pktTimeout =
      findOldestMsgNum n.sndPending (serving jiffies) 1 pktTimeout := by
    rw [findOldestMsgNum, findOldestMsgNum, h.oldest_eq hb]
  simp only [Node.timeoutPending, hold]
  cases he : findOldestMsgNum n.sndPending (serving jiffies) 1 pktTimeout with
  | none => exact ⟨q', rfl, h⟩
  | some e =>
    obtain ⟨hmem, -⟩ := findOldestMsgNum_mem he
    have ha := h.apart hmem
    dsimp only
    split_ifs
    · exact ⟨q', rfl, h⟩
    · exact h.p3Retry hb ha.id ha.ne_zero
    · exact h.p3Retry hb ha.id ha.ne_zero

theorem Around.handleMSGEND (hid : ¬ (lo < msgID ∧ msgID ≤ hi)) (hne : msgID ≠ lo) :
    ∃ q'', { n with sndPending := q' }.handleMSGEND msgID =
        { n.handleMSGEND msgID with sndPending := q'' } ∧
      Around lo hi block (n.handleMSGEND msgID).sndPending q'' := by
  simp only [Node.handleMSGEND, Node.dequeueSend, h.findQueue_eq hb hid]
  cases findQueue n.sndPending msgID with
  | some e =>
    dsimp only
    unfold Node.finalizeSend
    split_ifs <;> exact ⟨_, rfl, h.dequeue hb hid hne⟩
  | none =>
    cases findQueue n.sending msgID with
    | none => exact ⟨q', rfl, h⟩
    | some e =>
      simp only [map_some]
      unfold Node.finalizeSend
      split_ifs <;> exact ⟨_, rfl, h⟩

end
end

def Follows (lo hi : ℕ) (block : List Qentry) (s s' : System) : Prop :=
  ∃ q' issued, s' = { s with a := { s.a with sndPending := q' }, issued } ∧
    Around lo hi block s.a.sndPending q'

inductive Cmd
  | retry
  | toB
  | toA
  | lose

def Cmd.event (jiffies : ℕ) : Cmd → Event
  | .retry => .atA (serving jiffies) (.timeoutPending 1)
  | .toB => .toB (serving jiffies)
  | .toA => .toA (serving jiffies)
  | .lose => .dropAB 0

def keeps (lo hi : ℕ) (s : System) : Event → Bool
  | .toA _ => s.ba.head?.all fun pkt =>
    pkt.type == .msgend && (decide (pkt.msgID < lo) || decide (hi < pkt.msgID))
  | _ => true

section
variable {lo hi : ℕ} {block : List Qentry} {s s1 s' s0 : System} {jiffies : ℕ}

theorem follows_afterA {n a' : Node} {q' : List Qentry} {issued : List (ℕ × ℕ)}
    (h : Around lo hi block n.sndPending q') :
    Follows lo hi block (s.afterA n) ({ s with a := a', issued }.afterA { n with sndPending := q' }) :=
  ⟨q', ({ s with a := a', issued }.afterA { n with sndPending := q' }).issued, rfl, h⟩

theorem Follows.step {c : Cmd} (h : Follows lo hi block s s') (hb : Block lo hi block)
    (hkeep : keeps lo hi s (c.event jiffies) = true) (hs : s.step (c.event jiffies) = some s1) :
    ∃ s1', s'.step (c.event jiffies) = some s1' ∧ Follows lo hi block s1 s1' := by
  obtain ⟨q', issued, rfl, ha⟩ := h
  cases c with
  | retry =>
    obtain ⟨q'', heq, ha'⟩ := ha.timeoutPending hb
    cases hs
    refine ⟨_, rfl, ?_⟩
    rw [heq]
    exact follows_afterA ha'
  | lose =>
    cases hs
    exact ⟨_, rfl, q', issued, rfl, ha⟩
  | toB =>
    simp only [Cmd.event, System.step, System.recvB] at hs ⊢
    cases hab : s.ab with
    | nil => simp [hab] at hs
    | cons pkt ab =>
      simp only [hab, map_eq_some_iff] at hs ⊢
      obtain ⟨n, hn, rfl⟩ := hs
      exact ⟨_, ⟨n, hn, rfl⟩, q', issued, rfl, ha⟩
  | toA =>
    simp only [Cmd.event, System.step, System.recvA, keeps] at hs hkeep ⊢
    cases hba : s.ba with
    | nil => simp [hba] at hs
    | cons pkt ba =>
      simp only [hba, map_eq_some_iff] at hs ⊢
      obtain ⟨n, hn, rfl⟩ := hs
      simp only [hba, head?_cons, all_some, Bool.and_eq_true, beq_iff_eq,
        Bool.or_eq_true, decide_eq_true_eq] at hkeep
      obtain ⟨hty, hid⟩ := hkeep
      have hle := hb.le
      have ha1 : Around lo hi block (s.a.heardFrom pkt.srcNid).sndPending q' := ha
      obtain ⟨q'', heq, ha'⟩ := ha1.handleMSGEND hb (by omega : ¬ (lo < pkt.msgID ∧ _)) (by omega)
      obtain rfl : (s.a.heardFrom pkt.srcNid).handleMSGEND pkt.msgID = n := by
        simpa [Node.rtsctsRecv, hty] using hn
      refine ⟨_, ⟨_, ?_, rfl⟩, follows_afterA ha'⟩
      rw [← heq]
      simp only [Node.rtsctsRecv, hty]
      rfl

theorem Follows.exec {ok : System → Event → Prop} {cmds : List (ℕ × Cmd)}
    (h : Follows lo hi block s s') (hb : Block lo hi block)
    (hok : ∀ s (p : ℕ × Cmd), ok s (p.2.event p.1)) (hrun : System.Run ok s0 s')
    (hs : System.exec (keeps lo hi) (cmds.map fun p => p.2.event p.1) s = some s1) :
    ∃ s1', System.Run ok s0 s1' ∧ Follows lo hi block s1 s1' := by
  induction cmds generalizing s s' with
  | nil =>
    cases hs
    exact ⟨s', hrun, h⟩
  | cons p cmds ih =>
    simp only [map_cons, System.exec] at hs
    split_ifs at hs with hkeep
    obtain ⟨s2, hs2, hs⟩ := bind_eq_some_iff.mp hs
    obtain ⟨s2', hs2', h2⟩ := h.step hb hkeep hs2
    exact ih h2 (.step _ hrun (hok s' p) hs2') hs

end

def waiting (msgID msgNum : ℕ) : Qentry :=
  sendEntry (serving 0) emptyMsg msgID msgNum 0 .sentP3LastRts (some 0) []

def issue (n : Node) (k : ℕ) : Node :=
  { n with
    msgID := n.msgID + k
    sendMsgNum := update n.sendMsgNum 1 (n.sendMsgNum 1 + k)
    sndPending := n.sndPending ++
      (List.range k).map fun i => waiting (n.msgID + 1 + i) (n.sendMsgNum 1 + i) }

theorem p3SendNew_serving {n : Node} (hq : queueOnly n 1 (n.sendMsgNum 1) = false) :
    (p3SendNew n (serving 0) emptyMsg .noop).2 = { n.takeID 1 with
      sendMsgNum := update n.sendMsgNum 1 (incMsgNum (n.sendMsgNum 1))
      sndPending := n.sndPending ++ [waiting (nextMsgID n.myPnid n.msgID) (n.sendMsgNum 1)]
      out := n.out ++ [(1, p3Pkt n .p3LastRts (nextMsgID n.myPnid n.msgID) (n.sendMsgNum 1)
        (hdrFrom 0) [])] } := by
  have hdst : emptyMsg.dst = 1 := rfl
  have hvalid : ¬ invalidDest 1 := by decide
  unfold p3SendNew
  simp only [hdst, if_neg hvalid, hq]
  rfl

theorem nextMsgID_succ {pnid : ℤ} {msgID : ℕ} (hne : msgID ≠ 0)
    (hleft : (msgID + 1) % 2 ^ msgIDShift ≠ 0) : nextMsgID pnid msgID = msgID + 1 := by
  unfold msgIDShift at hleft
  unfold nextMsgID msgIDShift
  rw [if_neg hne]
  omega

theorem incMsgNum_succ {num : ℕ} (hnum : num ≠ 0) (hlt : num + 1 < 2 ^ 32) :
    incMsgNum num = num + 1 := by
  have hw : wrap (num + 1) = num + 1 := wrap_of_lt hlt
  simp [incMsgNum, hw, bootMsgNum, illMsgNum, hnum]

structure Sending (s : System) : Prop where
  pnidA : s.a.myPnid = 0
  pnidB : s.b.myPnid = 1
  out : s.a.out = []
  ab : s.ab = []
  firstAck : s.a.firstAck 1 = true
  msgID : s.a.msgID ≠ 0
  msgNum : s.a.sendMsgNum 1 ≠ 0

variable {s : System}

theorem Sending.issue_one (h : Sending s) (hid : (s.a.msgID + 1) % 2 ^ msgIDShift ≠ 0)
    (hnum : s.a.sendMsgNum 1 + 1 < 2 ^ 32) :
    ∃ s1 issued, s.step (.atA (serving 0) (.send emptyMsg)) = some s1 ∧
      s1.step (.dropAB 0) = some { s with a := issue s.a 1, issued } := by
  have hq : queueOnly s.a 1 (s.a.sendMsgNum 1) = false := by simp [queueOnly, h.firstAck]
  have hboot : s.a.sendMsgNum 1 ≠ bootMsgNum := h.msgNum
  have hsend := p3SendNew_serving hq
  rw [nextMsgID_succ h.msgID hid, incMsgNum_succ h.msgNum hnum, h.out] at hsend
  generalize hn : (p3SendNew s.a (serving 0) emptyMsg .noop).2 = n at hsend
  have hto : n.packetsTo s.b.myPnid = [p3Pkt s.a .p3LastRts (s.a.msgID + 1) (s.a.sendMsgNum 1)
      (hdrFrom 0) []] := by
    rw [h.pnidB]
    exact packetsTo_eq (by rw [hsend]; rfl)
  have hnode : { n with out := [] } = issue s.a 1 := by
    rw [hsend]
    simp [Node.takeID, issue, hboot, nextMsgID_succ h.msgID hid, h.out]
  refine ⟨s.afterA n, (s.afterA n).issued, ?_, ?_⟩
  · rw [← hn]
    rfl
  · simp only [afterA, hto, hnode, h.ab]
    rfl

theorem issue_issue (n : Node) (k : ℕ) : issue (issue n k) 1 = issue n (k + 1) := by
  have hid : n.msgID + k + 1 = n.msgID + 1 + k := by omega
  simp only [issue, update_self, update_idem, range_succ, map_append,
    append_assoc, map_cons, map_nil, range_zero, nil_append,
    add_zero, hid, add_assoc, add_comm 1 k]

def Setting (s : System) (ev : Event) : Prop := (Traffic s ev ∧ Bounded s ev) ∧ Ready ev

theorem Sending.issue_many {s0 : System} (h : Sending s) (hrun : System.Run Setting s0 s) (k : ℕ)
    (hid : ∀ i < k, (s.a.msgID + i + 1) % 2 ^ msgIDShift ≠ 0) (hnum : s.a.sendMsgNum 1 + k < 2 ^ 32)
    (hlen : s.a.sndPending.length + k ≤ 50000) :
    ∃ issued, System.Run Setting s0 { s with a := issue s.a k, issued } := by
  induction k with
  | zero =>
    have hzero : issue s.a 0 = s.a := by simp [issue]
    exact ⟨s.issued, by rw [hzero]; exact hrun⟩
  | succ k ih =>
    obtain ⟨issued, hk⟩ := ih (fun i hi => hid i (by omega)) (by omega) (by omega)
    have hs : Sending { s with a := issue s.a k, issued } := by
      refine ⟨h.pnidA, h.pnidB, h.out, h.ab, h.firstAck, ?_, ?_⟩
      · have := h.msgID
        simp only [issue]
        omega
      · have := h.msgNum
        simp only [issue, update_self]
        omega
    obtain ⟨s1, issued', hsend, hdrop⟩ := hs.issue_one (hid k (by omega)) (by
      simp only [issue, update_self]
      omega)
    refine ⟨issued', ?_⟩
    rw [← issue_issue]
    have hbound : (issue s.a k).sndPending.length < 50000 := by
      simp only [issue, length_append, length_map, length_range]
      omega
    have hset : Setting { s with a := issue s.a k, issued } (.atA (serving 0) (.send emptyMsg)) :=
      ⟨⟨⟨h.pnidB.symm, h.pnidA.symm, .inr (hid k (by omega))⟩, hbound⟩, trivial⟩
    exact .step (.dropAB 0) (.step _ hk hset hsend) ⟨⟨trivial, trivial⟩, trivial⟩ hdrop

def delivered : List Event :=
  [.atA (serving 0) (.send emptyMsg), .toB (serving 0), .toA (serving 0), .toB (serving 0)]

def opening : List Event :=
  delivered ++ [.atA (serving 0) (.send emptyMsg), .toB (serving 0), .dropBA 0] ++ delivered ++
    delivered ++ [.atA (serving 0) (.send emptyMsg), .dropAB 0]

def lostAttempts : List Cmd :=
  [.retry, .lose, .retry, .lose, .retry, .lose, .retry, .lose]

def endingCmds : List Cmd :=
  lostAttempts ++ [.retry, .toB, .retry, .toB, .toA, .toB] ++ [.retry, .toB, .toA, .toB] ++
    lostAttempts ++ [.retry, .toB, .retry, .toB]

def ending : List (ℕ × Cmd) := endingCmds.zipIdx.map fun p => (2000 * (p.2 + 1), p.1)

def newest (s : System) : System :=
  { s with
    a := { s.a with
      msgID := s.a.msgID + 49998
      sendMsgNum := update s.a.sendMsgNum 1 (s.a.sendMsgNum 1 + 49998)
      sndPending := s.a.sndPending ++
        [waiting (s.a.msgID + 1 + 49997) (s.a.sendMsgNum 1 + 49997)] } }

theorem setting_of_allowed {ev : Event} (h : boundedAllowed s ev = true) (hr : Ready ev) :
    Setting s ev :=
  ⟨⟨traffic_of_boundedAllowed h hr, bounded_of_allowed h⟩, hr⟩

theorem opening_ready : ∀ ev ∈ opening, Ready ev := by
  have hserving : ∀ jiffies, Ready (.toB (serving jiffies)) :=
    fun jiffies => ⟨serving_serves jiffies, rfl⟩
  simp only [opening, delivered, forall_mem_append, forall_mem_cons, hserving]
  simp [Ready]

def Opened (s : System) : Prop :=
  (s.a.myPnid = 0 ∧ s.b.myPnid = 1 ∧ s.a.out.length = 0 ∧ s.ab = [] ∧ s.a.firstAck 1 = true) ∧
    s.a.msgID = 2 ^ 21 + 4 ∧ s.a.sendMsgNum 1 = 6 ∧
    s.a.sndPending.map (fun e => (e.msgID, e.msgNum, e.dstNid, e.nal)) =
      [(2 ^ 21 + 1, 2, 1, some 0), (2 ^ 21 + 4, 5, 1, some 0)] ∧
    (System.exec (keeps (2 ^ 21 + 4) (2 ^ 21 + 50001)) (ending.map fun p => p.2.event p.1)
      (newest s)).any (fun s => (parsed s.b.calls).map Prod.snd == [0, 2, 3, 4, 50003, 5])

instance (s : System) : Decidable (Opened s) := inferInstanceAs (Decidable ((_ ∧ _) ∧ _))

theorem exists_opened : ∃ s, System.Run Setting (init 0 1 (fun _ _ => 0) fun _ _ => 0) s ∧
    Opened s :=
  exists_run (fun ev hev _ h => setting_of_allowed h (opening_ready ev hev))
    (by decide +kernel)

theorem Opened.sending (h : Opened s) : Sending s := by
  obtain ⟨⟨ha, hb, hout, hab, hack⟩, hid, hnum, -⟩ := h
  exact ⟨ha, hb, eq_nil_of_length_eq_zero hout, hab, hack, by omega, by omega⟩

def overtaken (s : System) : List Qentry :=
  (List.range 49997).map fun i => waiting (s.a.msgID + 1 + i) (s.a.sendMsgNum 1 + i)

theorem Opened.block (h : Opened s) : Block (2 ^ 21 + 4) (2 ^ 21 + 50001) (overtaken s) := by
  obtain ⟨-, hid, -⟩ := h
  refine ⟨by omega, fun e he => ?_, fun e he => ?_⟩ <;>
    obtain ⟨i, hi, rfl⟩ := List.mem_map.mp he
  · have hlt := mem_range.mp hi
    change _ < s.a.msgID + 1 + i ∧ s.a.msgID + 1 + i ≤ _
    omega
  · rfl

theorem Opened.around (h : Opened s) :
    Around (2 ^ 21 + 4) (2 ^ 21 + 50001) (overtaken s) (newest s).a.sndPending
      (issue s.a 49998).sndPending := by
  obtain ⟨-, hid, hnum, hmap, -⟩ := h
  have hkeys : ∀ e ∈ s.a.sndPending, (e.msgID = 2 ^ 21 + 1 ∧ e.msgNum = 2 ∨
      e.msgID = 2 ^ 21 + 4 ∧ e.msgNum = 5) ∧ e.dstNid = 1 ∧ e.nal = some 0 := by
    intro e he
    have hmem := hmap ▸ mem_map_of_mem he
    simp only [mem_cons, Prod.mk.injEq, not_mem_nil, or_false] at hmem
    rcases hmem with ⟨hid, hnum, hrest⟩ | ⟨hid, hnum, hrest⟩
    · exact ⟨.inl ⟨hid, hnum⟩, hrest⟩
    · exact ⟨.inr ⟨hid, hnum⟩, hrest⟩
  refine ⟨s.a.sndPending, [waiting (s.a.msgID + 1 + 49997) (s.a.sendMsgNum 1 + 49997)], rfl, ?_,
    ?_, fun e he r hr => ?_, fun e he => ?_⟩
  · have hrange : List.range 49998 = List.range 49997 ++ [49997] := range_succ
    simp only [issue, overtaken, hrange, map_append, append_assoc]
    rfl
  · have hmem : (2 ^ 21 + 4, 5, 1, some 0) ∈
        s.a.sndPending.map fun e => (e.msgID, e.msgNum, e.dstNid, e.nal) := by
      rw [hmap]
      exact mem_cons_of_mem _ (mem_singleton_self _)
    obtain ⟨e, he, heq⟩ := mem_map.mp hmem
    exact ⟨e, he, congrArg Prod.fst heq⟩
  · obtain ⟨i, hi, rfl⟩ := List.mem_map.mp hr
    have hlt := mem_range.mp hi
    obtain ⟨hk, -⟩ := hkeys e he
    change e.msgNum ≤ s.a.sendMsgNum 1 + i ∧ s.a.sendMsgNum 1 + i ≤ _
    omega
  · rcases mem_append.mp he with he | he
    · obtain ⟨hk, hdst, hnal⟩ := hkeys e he
      refine ⟨by omega, hdst, hnal, ?_, by omega⟩
      unfold noMsgNum
      omega
    · obtain rfl := mem_singleton.mp he
      have hid' : (waiting (s.a.msgID + 1 + 49997) (s.a.sendMsgNum 1 + 49997)).msgID =
          2 ^ 21 + 50002 := by
        change s.a.msgID + 1 + 49997 = _
        omega
      have hnum' : (waiting (s.a.msgID + 1 + 49997) (s.a.sendMsgNum 1 + 49997)).msgNum = 50003 := by
        change s.a.sendMsgNum 1 + 49997 = _
        omega
      refine ⟨by omega, rfl, rfl, ?_, by omega⟩
      unfold noMsgNum
      omega

theorem setting_event (s : System) (p : ℕ × Cmd) : Setting s (p.2.event p.1) := by
  obtain ⟨jiffies, _ | _ | _ | _⟩ := p
  · exact ⟨⟨trivial, trivial⟩, trivial⟩
  · exact ⟨⟨serving_serves jiffies, trivial⟩, serving_serves jiffies, rfl⟩
  · exact ⟨⟨trivial, trivial⟩, trivial⟩
  · exact ⟨⟨trivial, trivial⟩, trivial⟩

theorem parse_out_of_order :
    ∃ s, System.Run Setting (System.init 0 1 (fun _ _ => 0) fun _ _ => 0) s ∧
      ¬ ((parsed s.b.calls).Sublist s.issued ∧
        s.issued.Pairwise fun p q => p.1 < q.1 ∧ p.2 < q.2) := by
  obtain ⟨s, hrun, ho⟩ := exists_opened
  obtain ⟨issued, hbig⟩ : ∃ issued, System.Run Setting _ { s with a := issue s.a 49998, issued } := by
    obtain ⟨-, hid, hnum, hmap, -⟩ := id ho
    have hlen : s.a.sndPending.length = 2 := by simpa using congrArg List.length hmap
    refine ho.sending.issue_many hrun 49998 (fun i hi => ?_) (by omega) (by omega)
    unfold msgIDShift
    omega
  have hf : Follows (2 ^ 21 + 4) (2 ^ 21 + 50001) (overtaken s) (newest s)
      { s with a := issue s.a 49998, issued } :=
    ⟨(issue s.a 49998).sndPending, issued, rfl, ho.around⟩
  obtain ⟨-, -, -, -, hend⟩ := id ho
  obtain ⟨s1, hs1, hparsed⟩ := (any_eq_true _ _).mp hend
  obtain ⟨s2, hrun2, q', issued2, rfl, -⟩ := hf.exec ho.block setting_event hbig hs1
  refine ⟨_, hrun2, ?_⟩
  rintro ⟨hsub, hpair⟩
  have hpar : (parsed s1.b.calls).Pairwise fun p q => p.1 < q.1 ∧ p.2 < q.2 := hpair.sublist hsub
  have hasc : ((parsed s1.b.calls).map Prod.snd).Pairwise (· < ·) :=
    pairwise_map.mpr (hpar.imp And.right)
  rw [beq_iff_eq.mp hparsed] at hasc
  exact absurd hasc (by decide)

end Cplant.Rtscts
