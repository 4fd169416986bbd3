import Cplant.Rtscts.Frames

/-!
# How much of a message its first packet carried

`entry->datasent` is set once, when a message is queued. The first packet may go out
later, on a resend, and every `P3_RTS` packet is full. So the cursor of a long message
has to stand at `rtsRoom` from the start, which it does not if the message found no
page.
-/
namespace Cplant.Rtscts
open List

structure Qentry.Agrees (e : Qentry) : Prop where
  sent : ∀ b ∈ e.rtsSent, b = e.datasent
  toSend : e.event ≠ .sentP3Null → rtsRoom < e.len → e.datasent = rtsRoom

def Node.Agrees (n : Node) : Prop := ∀ e ∈ n.sndPending, e.Agrees

/-- A new message that needs more than one packet finds a page for the first, unless it
is only queued. No message has ID 0, which `p3_send` would take for a new one. -/
def PagesFound (n : Node) (env : Env) : Input → Prop
  | .send m => rtsRoom < m.len → queueOnly n m.dst (n.sendMsgNum m.dst) ∨ env.page 0
  | .timeoutPending _ => ∀ e ∈ n.sndPending, e.msgID ≠ 0
  | _ => True

variable {n n' : Node} {env : Env} {e : Qentry} {m : P3Msg} {opt : SendOpt} {msgID msgNum len : ℕ}
  {pkt : Packet}

theorem wrap_le (k : ℕ) : wrap k ≤ k := Nat.mod_le k _

theorem mem_rtsPayload {sent : Bool} {type : PktType} {payload b : ℕ}
    (h : b ∈ rtsPayload sent type payload) : sent = true ∧ type = .p3Rts ∧ b = payload := by
  unfold rtsPayload at h
  split_ifs at h with hs
  · exact ⟨hs.1, hs.2, mem_singleton.mp h⟩
  · cases h

theorem p3Plan_rts (h : (p3Plan opt len).1 = .p3Rts) :
    opt = .noop ∧ rtsRoom < len ∧ (p3Plan opt len).2.2 = rtsRoom := by
  cases opt <;> simp only [p3Plan, reduceCtorEq] at h ⊢
  split_ifs at h ⊢ with hlen
  have hlong : rtsRoom < len := by omega
  exact ⟨trivial, hlong, min_eq_left hlong.le⟩

theorem p3Plan_noop (h : rtsRoom < len) : (p3Plan .noop len).2.2 = rtsRoom := by
  simp only [p3Plan]
  rw [if_neg (by omega)]
  exact min_eq_left h.le

namespace Node
namespace Agrees
section
variable (h : n.Agrees)
include h

theorem of_subset (hs : n'.sndPending ⊆ n.sndPending) : n'.Agrees :=
  fun e he => h e (hs he)

theorem sameSender (hs : SameSender n n') : n'.Agrees :=
  h.of_subset (hs.sndPending ▸ Subset.refl _)

theorem sendsNew (hs : SendsNew n env m opt n')
    (hopt : rtsRoom < m.len → opt = .noop ∧ (queueOnly n m.dst (n.sendMsgNum m.dst) ∨ env.page 0)) :
    n'.Agrees := by
  cases hs with
  | invalidDest => exact h
  | failed => exact h
  | refused => exact h
  | queued q sent payload task pkts hq hpayload =>
    intro e he
    rcases mem_append.mp he with he | he
    · exact h e he
    rw [mem_singleton.mp he]
    refine ⟨fun b hb => (mem_rtsPayload hb).2.2, fun _ hlen => ?_⟩
    have hlong : rtsRoom < m.len := lt_of_lt_of_le hlen (wrap_le m.len)
    obtain ⟨rfl, hpage⟩ := hopt hlong
    have : (q || env.page 0) = true := by rw [hq, Bool.or_eq_true]; exact hpage
    simp [sendEntry, hpayload, p3Payload, this, p3Plan_noop hlong]

theorem updatePending {f : Qentry → Qentry}
    (hf : ∀ e, findQueue n.sndPending msgID = some e → e.Agrees → (f e).Agrees) :
    { n with sndPending := updateEntry n.sndPending msgID f }.Agrees := by
  intro e he
  rcases mem_updateEntry he with he | ⟨e0, he0, rfl⟩
  · exact h e he
  · exact hf e0 he0 (h e0 (findQueue_mem he0))

theorem dequeuePending : { n with sndPending := dequeue n.sndPending msgID }.Agrees :=
  h.of_subset fun _ he => mem_of_mem_dequeue he

theorem sendsAgain (hf : findQueue n.sndPending msgID = some e) (hm : m.len = e.len)
    (hopt : opt = .noop → e.event ≠ .sentP3Null) (hs : SendsAgain n env m msgID msgNum opt n') :
    n'.Agrees := by
  cases hs with
  | invalidDest => exact h
  | failed => exact h
  | done sent payload task pkts hq hpayload hsent =>
    refine h.updatePending fun e1 he1 hagree => ?_
    obtain rfl : e = e1 := Option.some.inj (hf.symm.trans he1)
    refine ⟨fun b hb => ?_, hagree.toSend⟩
    rcases mem_append.mp hb with hb | hb
    · exact hagree.sent b hb
    obtain ⟨rfl, htype, rfl⟩ := mem_rtsPayload hb
    obtain ⟨rfl, hlen, hroom⟩ := p3Plan_rts htype
    have hpage : env.page 0 = true := (Bool.and_eq_true_iff.mp hsent.symm).1
    rw [hagree.toSend (hopt rfl) (hm ▸ hlen), hpayload, p3Payload, hpage]
    exact hroom

theorem p3Retry {opt : Qentry → SendOpt} (hid : msgID ≠ 0)
    (hopt : ∀ e, opt e = .noop → e.event ≠ .sentP3Null) :
    (p3Retry n env msgID msgNum opt).Agrees := by
  unfold Rtscts.p3Retry
  cases hf : findQueue n.sndPending msgID with
  | none => exact h
  | some e =>
    have hid' := findQueue_msgID hf
    dsimp only
    rw [p3Send, if_neg hid]
    generalize hs : p3SendAgain _ env e.msg msgID msgNum (opt e) = r
    have hr : r.2.Agrees := by
      rw [← hs]
      refine sendsAgain (h.updatePending ?_)
        (findQueue_updateEntry hf hid') rfl (hopt e) p3SendAgain_cases
      exact fun e _ he => ⟨he.sent, he.toSend⟩
    split_ifs
    · exact hr.dequeuePending
    · exact hr.updatePending fun e _ he => ⟨he.sent, he.toSend⟩

theorem p3Exit {task : Option ℕ} : (n.p3Exit task).Agrees := by
  intro e he
  obtain ⟨e0, he0, rfl⟩ := mem_map.mp he
  have := h e0 he0
  unfold nullEntry
  split_ifs
  · exact ⟨this.sent, fun hne => absurd rfl hne⟩
  · exact this

theorem step {input : Input} (hok : PagesFound n env input) (hs : step n env input = some n') :
    n'.Agrees := by
  cases step_turn hs with
  | aside hn hr =>
    obtain ⟨_, _, _, _, rfl⟩ := hn
    exact sameSender (by exact h) (receives_sameSender hr)
  | sent hs => exact h.sendsNew hs fun hlen => ⟨rfl, hok hlen⟩
  | pinged hn hm hs =>
    obtain ⟨_, _, _, _, rfl⟩ := hn
    exact sendsNew (by exact h) hs fun hlen => absurd (hm.1 ▸ hlen) (Nat.not_lt_zero _)
  | retried he hopt =>
    refine h.p3Retry (hok _ (findOldestMsgNum_mem he).1) fun e hnoop hnull => ?_
    rcases hopt with rfl | rfl
    · simp [hnull] at hnoop
    · cases hnoop
  | @completed _ _ n2 e _ hn _ hd =>
    obtain ⟨_, _, _, _, rfl⟩ := hn
    have h2 : n2.Agrees :=
      .of_subset (by exact h) fun _ he => (dequeueSend_proceeds hd).sndPending.subset he
    obtain ⟨calls, hc⟩ := finalizeSend_frame n2 e
    rw [hc]
    exact h2
  | granted hn =>
    obtain ⟨_, _, _, _, rfl⟩ := hn
    exact of_subset (by exact h) fun _ he => handleCTS_proceeds.sndPending.subset he
  | resumed => exact h.of_subset fun _ he => handleDataResend_proceeds.sndPending.subset he
  | ponged _ hn =>
    obtain ⟨_, _, _, _, rfl⟩ := hn
    exact dequeuePending (by exact h)
  | exited => exact h.p3Exit

end
end Agrees
end Node

theorem sendLoop_head {numPkts more i : ℕ} {pkts : List Packet}
    (h : (sendLoop n env numPkts more i e).2 = pkt :: pkts) :
    ∃ len, pkt.body = n.readUser e.task (e.buf + e.datasent) len := by
  cases more with
  | zero => cases h
  | succ more =>
    simp only [sendLoop] at h
    split_ifs at h
    · obtain ⟨rfl, -⟩ := cons.inj h
      exact ⟨_, rfl⟩
    · obtain ⟨rfl, -⟩ := cons.inj h
      exact ⟨_, rfl⟩

theorem handleCTS_head {msglen : ℕ} {numPkts : ℤ} {dst : ℤ}
    {pkts : List (ℤ × Packet)} (hf : findQueue n.sndPending msgID = some e)
    (h : (n.handleCTS env msgID msglen numPkts).out = n.out ++ (dst, pkt) :: pkts) :
    ∃ len, pkt.body = n.readUser e.task (e.buf + e.datasent) len := by
  simp only [Node.handleCTS, Node.dequeueSend, hf] at h
  generalize he1 : ({ e with
    len := min e.len msglen, event := .rcvdCts, idle := env.jiffies } : Qentry) = e1 at h
  generalize hs : Node.sendDATA _ env e1 numPkts = r at h
  have hpkts : sentData { n with sndPending := dequeue n.sndPending msgID } env e1 numPkts =
      (dst, pkt) :: pkts := by
    obtain ⟨_ | e', n'⟩ := r
    · obtain rfl := sendDATA_none hs
      exact append_cancel_left h
    · obtain ⟨-, rfl⟩ := sendDATA_some hs
      exact append_cancel_left h
  obtain ⟨pkt', rest, hloop, heq, -⟩ := map_eq_cons_iff.mp hpkts
  obtain ⟨len, hlen⟩ := sendLoop_head hloop
  subst he1
  obtain ⟨-, rfl⟩ := Prod.mk.inj heq
  exact ⟨len, hlen⟩

/-- If each new message of more than one packet finds a page for the first, the cursor of a message
in `Qsnd_pending` stands behind what its `P3_RTS` packets carried, and the data packets that answer
a `CTS` start there. -/
theorem handleCTS_continues {n₀ n : Node} {e : Qentry} (msgID : ℕ) (h₀ : n₀.Idle)
    (h : Run PagesFound n₀ n) (hf : findQueue n.sndPending msgID = some e) :
    ∀ b ∈ e.rtsSent, e.datasent = b ∧
      ∀ (env : Env) (msglen : ℕ) (numPkts dst : ℤ) (pkt : Packet) (pkts : List (ℤ × Packet)),
        (n.handleCTS env msgID msglen numPkts).out = n.out ++ (dst, pkt) :: pkts →
          ∃ len, pkt.body = n.readUser e.task (e.buf + b) len := by
  have hagree : n.Agrees := by
    refine h.induction ?_ fun ha hok hs => ha.step hok hs
    intro e he
    rw [h₀.sndPending] at he
    cases he
  intro b hb
  obtain rfl := (hagree e (findQueue_mem hf)).sent b hb
  exact ⟨rfl, fun env msglen numPkts dst pkt pkts hout => handleCTS_head hf hout⟩

def longMsg : P3Msg := ⟨some 0, 0, 20000, 1, hdrFrom 0, none⟩

theorem handleCTS_continues_longMsg : ∃ (n : Node) (e : Qentry),
    Run PagesFound (initProtocol 0 fun _ _ => 0) n ∧
      findQueue n.sndPending (2 ^ 21) = some e ∧ e.rtsSent = [rtsRoom] ∧ e.datasent = rtsRoom := by
  have h : Run PagesFound (initProtocol 0 fun _ _ => 0) _ :=
    .step (goodEnv 0 none) (.send longMsg) .init (fun _ => .inr rfl) rfl
  refine ⟨_, _, h, rfl, rfl, ?_⟩
  exact (handleCTS_continues (2 ^ 21) (initProtocol_idle 0 _) h rfl _ mem_cons_self).1

/-- Without a page for the first packet the message is queued with its cursor at 0. The
resend carries the full payload, and the data packets repeat it. -/
theorem handleCTS_repeats : ∃ (n : Node) (e : Qentry),
    Run (fun _ _ _ => True) (initProtocol 0 fun _ _ => 0) n ∧
      findQueue n.sndPending (2 ^ 21) = some e ∧ e.rtsSent = [rtsRoom] ∧ e.datasent = 0 := by
  have h1 : Run (fun _ _ _ => True) (initProtocol 0 fun _ _ => 0) _ :=
    .step { goodEnv 0 none with page := fun _ => false } (.send longMsg) .init trivial rfl
  have h2 := h1.step (goodEnv (2 * pktTimeout) none) (.timeoutPending 1) trivial rfl
  exact ⟨_, _, h2, rfl, rfl, rfl⟩

end Cplant.Rtscts
