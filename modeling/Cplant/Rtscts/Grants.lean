import Mathlib.Algebra.Order.BigOperators.Group.List
import Cplant.Rtscts.Frames

/-!
# The receiver's grants

`outstanding_pkts` is a ledger: at every moment it is the sum of what the entries of
`Qreceiving` were granted. A receiver that has nothing left to grant still grants one
packet to each message, so the total can pass `MAX_RCV_PKT_ENTRIES - OTHER_NODES`, but
only by the number of entries that hold a grant.
-/
namespace Cplant.Rtscts
open List
open Cplant.Portals (PtlHdr)

def granted (q : List Qentry) : ℤ := (q.map (·.grantedPkts)).sum

def holds (e : Qentry) : ℤ := if 0 < e.grantedPkts then 1 else 0

def holders (q : List Qentry) : ℤ := (q.map holds).sum

structure Ledger (outstanding : ℤ) (receiving pending sending : List Qentry) : Prop where
  balance : outstanding = granted receiving
  bound : outstanding ≤ maxRcvPktEntries - otherNodes + holders receiving
  nonneg : ∀ e ∈ receiving, 0 ≤ e.grantedPkts
  pending : ∀ e ∈ pending, e.grantedPkts = 0
  sending : ∀ e ∈ sending, e.grantedPkts = 0

def Node.Balanced (n : Node) : Prop :=
  Ledger n.outstandingPkts n.receiving n.sndPending n.sending

variable {n n' : Node} {env : Env} {e e' e0 : Qentry} {out : ℤ} {r p s p' s' : List Qentry}
  {msgID : ℕ}

theorem holds_nonneg (e : Qentry) : 0 ≤ holds e := by
  unfold holds
  split_ifs <;> omega

theorem holds_le_one (e : Qentry) : holds e ≤ 1 := by
  unfold holds
  split_ifs <;> omega

theorem holds_le (h : 0 ≤ e.grantedPkts) : holds e ≤ e.grantedPkts := by
  unfold holds
  split_ifs <;> omega

theorem holders_nonneg (q : List Qentry) : 0 ≤ holders q := by
  refine sum_nonneg fun x hx => ?_
  obtain ⟨e, -, rfl⟩ := mem_map.mp hx
  exact holds_nonneg e

theorem holders_le_length (q : List Qentry) : holders q ≤ q.length := by
  induction q with
  | nil => simp [holders]
  | cons e q ih =>
    have := holds_le_one e
    simp only [holders, map_cons, sum_cons, length_cons] at ih ⊢
    omega

theorem holders_le_granted {q : List Qentry} (h : ∀ e ∈ q, 0 ≤ e.grantedPkts) :
    holders q ≤ granted q :=
  sum_le_sum fun e he => holds_le (h e he)

theorem grant_pos (out : ℤ) : 0 < grant out := by
  simp only [grant, maxDataPkts]
  split_ifs <;> omega

theorem grant_fits (out : ℤ) : out + grant out ≤ maxRcvPktEntries - otherNodes ∨ grant out = 1 := by
  simp only [grant]
  split_ifs <;> omega

namespace Ledger
section
variable (h : Ledger out r p s)
include h

theorem senders (hp : ∀ e ∈ p', e.grantedPkts = 0) (hs : ∀ e ∈ s', e.grantedPkts = 0) :
    Ledger out r p' s' :=
  { h with pending := hp, sending := hs }

theorem push (h0 : 0 ≤ e.grantedPkts)
    (hb : out + e.grantedPkts ≤ maxRcvPktEntries - otherNodes + holders r + holds e) :
    Ledger (out + e.grantedPkts) (r ++ [e]) p s where
  balance := by simp [granted, h.balance]
  bound := by simpa [holders, add_assoc] using hb
  nonneg := by
    intro e' he'
    rcases mem_append.mp he' with he' | he'
    · exact h.nonneg e' he'
    · rwa [mem_singleton.mp he']
  pending := h.pending
  sending := h.sending

section
variable (hf : findQueue r msgID = some e)
include hf

theorem remove : Ledger (out - e.grantedPkts) (dequeue r msgID) p s where
  balance := by rw [h.balance, granted, granted, dequeue, sum_eraseP _ hf]
  bound := by
    have := holds_le (h.nonneg e (findQueue_mem hf))
    have := h.bound
    rw [holders, dequeue, sum_eraseP _ hf, ← holders]
    omega
  nonneg := fun e' he' => h.nonneg e' (mem_of_mem_dequeue he')
  pending := h.pending
  sending := h.sending

theorem replace (h0 : 0 ≤ e'.grantedPkts) (hb : out - e.grantedPkts + e'.grantedPkts ≤
      maxRcvPktEntries - otherNodes + (holders r - holds e + holds e')) :
    Ledger (out - e.grantedPkts + e'.grantedPkts) (updateEntry r msgID fun _ => e') p s where
  balance := by rw [h.balance, granted, granted, updateEntry, sum_updateFirst _ hf]
  bound := by rwa [holders, updateEntry, sum_updateFirst _ hf]
  nonneg := by
    intro e1 he1
    rcases mem_updateEntry he1 with he1 | ⟨-, -, rfl⟩
    · exact h.nonneg e1 he1
    · exact h0
  pending := h.pending
  sending := h.sending

theorem replace_grant (he : e.grantedPkts = 0) (he' : e'.grantedPkts = grant out) :
    Ledger (out + e'.grantedPkts) (updateEntry r msgID fun _ => e') p s := by
  have hpos : 0 < e'.grantedPkts := he' ▸ grant_pos out
  have h1 : holds e' = 1 := if_pos hpos
  have h2 : holds e = 0 := if_neg (by omega)
  have := h.bound
  have := holders_nonneg r
  have := grant_fits out
  simpa [he] using h.replace hf hpos.le (by omega)

theorem replace_one (he' : e'.grantedPkts = 1) :
    Ledger (out - e.grantedPkts + 1) (updateEntry r msgID fun _ => e') p s := by
  have h0 : 0 ≤ e'.grantedPkts := by omega
  have h1 : holds e' = 1 := if_pos (by omega)
  have := h.bound
  have := holds_le (h.nonneg e (findQueue_mem hf))
  simpa [he'] using h.replace hf h0 (by omega)

theorem replace_le (he' : e'.grantedPkts = e.grantedPkts ∨ e'.grantedPkts = 0) :
    Ledger (out - e.grantedPkts + e'.grantedPkts) (updateEntry r msgID fun _ => e') p s := by
  have h0 := h.nonneg e (findQueue_mem hf)
  have hle := holds_le h0
  have := h.bound
  rcases he' with he' | he'
  · have : holds e' = holds e := by rw [holds, holds, he']
    exact h.replace hf (by omega) (by omega)
  · have : holds e' = 0 := if_neg (by omega)
    exact h.replace hf (by omega) (by omega)

end

theorem filter (gone : Qentry → Bool) :
    Ledger (out - granted (r.filter gone)) (r.filter fun e => !gone e) p s where
  balance := by
    have := sum_filter_add_sum_filter_not (p := gone) (·.grantedPkts) r
    rw [h.balance]
    simp only [granted]
    omega
  bound := by
    have := sum_filter_add_sum_filter_not (p := gone) holds r
    have hle := holders_le_granted fun e he => h.nonneg e (mem_filter (p := gone).mp he).1
    have := h.bound
    simp only [holders] at this hle ⊢
    omega
  nonneg := fun e he => h.nonneg e (mem_filter.mp he).1
  pending := h.pending
  sending := h.sending

end
end Ledger

theorem checkSeq_stopData {pkt : Packet} (h : (checkSeq e pkt).1 = true)
    (hp : pkt.type = .stopData) : (checkSeq e pkt).2.grantedPkts = 0 := by
  unfold checkSeq at h ⊢
  split_ifs at h ⊢ with _ _ _ hd
  · rfl
  · rfl
  · exact absurd (.inl hp) hd

namespace Node

theorem findQueue_setReceiving (hf : findQueue n.receiving e.msgID = some e') :
    findQueue (n.setReceiving e).receiving e.msgID = some e :=
  findQueue_updateEntry hf rfl

theorem receiving_setReceiving (he : e'.msgID = e.msgID) :
    updateEntry (n.setReceiving e).receiving e.msgID (fun _ => e') =
      (n.setReceiving e').receiving := by
  simp only [setReceiving, updateEntry, he]
  exact updateFirst_updateFirst fun _ _ => by simp

section
variable (h : (n.setReceiving e).Balanced) (hf : findQueue n.receiving e.msgID = some e0)
include h hf

theorem Balanced.setReceiving (hid : e'.msgID = e.msgID) (hg : e'.grantedPkts = e.grantedPkts) :
    (n.setReceiving e').Balanced := by
  have := h.replace_le (findQueue_setReceiving hf) (.inl hg)
  rw [hg, sub_add_cancel, receiving_setReceiving hid] at this
  exact this

theorem Balanced.grantMore (hg : e.grantedPkts = 0) :
    ((n.grantMore e).1.setReceiving (n.grantMore e).2).Balanced := by
  have hid : (n.grantMore e).2.msgID = e.msgID := rfl
  have hg' : (n.grantMore e).2.grantedPkts = grant (n.setReceiving e).outstandingPkts := rfl
  have := h.replace_grant (findQueue_setReceiving hf) hg hg'
  rw [receiving_setReceiving hid] at this
  exact this

theorem Balanced.msgEnd : (n.msgEnd e).Balanced := by
  have hm : Node.Balanced (n.setReceiving { e with event := .sentMsgend, libFinalizeCalled := true })
    := h.setReceiving hf rfl rfl
  unfold Node.msgEnd
  cases e.libFinalizeCalled <;> exact hm

theorem Balanced.protoError : (n.protoError e).Balanced :=
  h.setReceiving hf rfl rfl

end

variable {pkt : Packet} {hdr : PtlHdr} {m : P3Msg} {msgNum : ℕ} {numPkts : ℤ}

namespace Balanced

theorem finishData (h : (n.setReceiving e).Balanced) (hf : findQueue n.receiving e.msgID = some e0)
    (hg : pkt.type = .stopData → e.grantedPkts = 0) : (n.finishData env e pkt).Balanced := by
  have ht : (n.setReceiving (takeData env e pkt)).Balanced := h.setReceiving hf rfl rfl
  unfold Node.finishData
  by_cases hp : pkt.type = .stopData
  · have hm := ht.grantMore hf (hg hp)
    simp only [hp, if_true, reduceCtorEq, or_false, if_false]
    split_ifs
    · exact hm.protoError hf
    · exact hm
  · simp only [hp, if_false]
    split_ifs
    · exact ht.msgEnd hf
    · exact ht.protoError hf
    · exact ht

theorem handleDATA (h : n.Balanced) : (n.handleDATA env pkt).Balanced := by
  unfold Node.handleDATA
  cases hf : findQueue n.receiving pkt.msgID with
  | none => exact h
  | some e0 =>
    obtain ⟨seq, datasent, retries, g, he, hg⟩ := checkSeq_frame e0 pkt
    have hstop : (checkSeq e0 pkt).1 = true → pkt.type = .stopData → _ := checkSeq_stopData
    dsimp only
    generalize checkSeq e0 pkt = c at he hstop
    obtain ⟨accepted, e⟩ := c
    dsimp only at he hstop ⊢
    have hid : e.msgID = pkt.msgID := by rw [he, ← findQueue_msgID hf]
    have hg : e.grantedPkts = e0.grantedPkts ∨ e.grantedPkts = 0 := by rw [he]; exact hg
    have hf' : findQueue n.receiving e.msgID = some e0 := by rw [hid]; exact hf
    have hb := h.replace_le hf hg
    rw [sub_add, ← hid] at hb
    cases accepted with
    | false => exact hb
    | true =>
      simp only [Bool.not_true, Bool.false_eq_true, if_false]
      split_ifs
      · exact finishData (by exact hb) hf' (hstop rfl)
      · exact hb
      · exact finishData (by exact hb) hf' (hstop rfl)

theorem handleDuplicate (h : n.Balanced) (hf : findQueue n.receiving msgID = some e) :
    (n.handleDuplicate e).Balanced := by
  unfold Node.handleDuplicate
  split
  · exact h
  · exact h
  · have he' : ({ e with grantedPkts := 1 } : Qentry).grantedPkts = 1 := rfl
    have h' := h.replace_one hf he'
    rw [← add_sub_right_comm, ← findQueue_msgID hf] at h'
    exact h'
  · exact h

theorem handleGCH (h : n.Balanced) : (n.handleGCH msgID).Balanced := by
  unfold Node.handleGCH
  cases hf : findQueue n.receiving msgID with
  | none => exact h
  | some e => exact h.remove hf

theorem push (h : n.Balanced) (he : e.grantedPkts = 0 ∨ e.grantedPkts = grant n.outstandingPkts) :
    Ledger (n.outstandingPkts + e.grantedPkts) (n.receiving ++ [e]) n.sndPending n.sending := by
  have hpos := grant_pos n.outstandingPkts
  have := grant_fits n.outstandingPkts
  have := h.bound
  have := holders_nonneg n.receiving
  have := holds_nonneg e
  refine Ledger.push h (by omega) ?_
  rcases he with he | he
  · omega
  · have : holds e = 1 := if_pos (by omega)
    omega

theorem enqueueReceiving (ha : env.alloc = true)
    (h : Ledger n.outstandingPkts (n.receiving ++ [e]) n.sndPending n.sending) :
    (n.enqueueReceiving env e).Balanced := by
  unfold Node.enqueueReceiving
  rw [if_pos ha]
  exact h

theorem recvBody {nal task : ℕ} {args : RecvArgs} (h : n.Balanced)
    (ha : env.alloc = true) : (n.recvBody env pkt hdr nal task args).Balanced := by
  unfold Node.recvBody
  dsimp only
  split_ifs
  · exact h
  · refine enqueueReceiving ha ?_
    obtain ⟨mem, hmem⟩ := copyFirst_frame (n.sendCTS pkt.msgID hdr.src.nid.toInt args.mlen).1 env
      task args.data (pkt.body.take args.mlen)
    rw [hmem]
    exact h.push (e := recvEntry env pkt hdr nal task args _ (grant n.outstandingPkts)) (.inr rfl)
  · refine enqueueReceiving ha ?_
    obtain ⟨mem, hmem⟩ := copyFirst_frame n env task args.data (pkt.body.take args.mlen)
    rw [hmem]
    have := h.push (e := recvEntry env pkt hdr nal task args .sentMsgend 0) (.inl rfl)
    rw [recvEntry, add_zero] at this
    exact this

theorem deliverP3 {orig : ℕ} (h : n.Balanced) (ha : env.alloc = true) :
    (n.deliverP3 env pkt hdr orig).Balanced := by
  unfold Node.deliverP3
  cases env.getCb hdr.nid.toInt hdr.pid.toInt with
  | none => exact h
  | some cb =>
    have hr : ∀ args, Node.Balanced (Node.cbRecv
        { n with calls := n.calls ++ [.parse pkt.msgID pkt.msgNum hdr] } env pkt hdr cb.1 cb.2
        args) := by
      intro args
      cases args with
      | none => exact h
      | some args => exact recvBody (by exact h) ha
    unfold Node.parseP3
    dsimp only
    split_ifs <;> exact hr _

end Balanced

namespace Balanced
variable {opt : SendOpt}

theorem sendsNew (h : n.Balanced) (hs : SendsNew n env m opt n') : n'.Balanced := by
  cases hs with
  | invalidDest => exact h
  | failed => exact h
  | refused => exact h
  | queued =>
    refine h.senders ?_ h.sending
    intro e he
    rcases mem_append.mp he with he | he
    · exact h.pending e he
    · rw [mem_singleton.mp he]
      rfl

theorem updatePending {f : Qentry → Qentry} (h : n.Balanced)
    (hf : ∀ e, (f e).grantedPkts = e.grantedPkts) :
    { n with sndPending := updateEntry n.sndPending msgID f }.Balanced := by
  refine h.senders ?_ h.sending
  intro e he
  rcases mem_updateEntry he with he | ⟨e0, he0, rfl⟩
  · exact h.pending e he
  · rw [hf]
    exact h.pending e0 (findQueue_mem he0)

theorem sendsAgain (h : n.Balanced)
    (hs : SendsAgain n env m msgID msgNum opt n') : n'.Balanced := by
  cases hs with
  | invalidDest => exact h
  | failed => exact h
  | done => exact h.updatePending fun _ => rfl

theorem p3Send (h : n.Balanced) : (p3Send n env m msgID msgNum opt).2.Balanced := by
  unfold Rtscts.p3Send
  split_ifs
  · exact h.sendsNew p3SendNew_cases
  · exact h.sendsAgain p3SendAgain_cases

theorem dequeuePending (h : n.Balanced) :
    { n with sndPending := dequeue n.sndPending msgID }.Balanced :=
  h.senders (fun e he => h.pending e (mem_of_mem_dequeue he)) h.sending

theorem freeEntry (h : n.Balanced) (he : e.grantedPkts = 0) : (n.freeEntry e).Balanced := by
  unfold Node.freeEntry
  rw [he, sub_zero]
  exact h

theorem p3Retry {opt : Qentry → SendOpt} (h : n.Balanced) :
    (p3Retry n env msgID msgNum opt).Balanced := by
  unfold Rtscts.p3Retry
  cases hf : findQueue n.sndPending msgID with
  | none => exact h
  | some e =>
    have he := h.pending e (findQueue_mem hf)
    dsimp only
    generalize hs : Rtscts.p3Send _ env e.msg msgID msgNum (opt e) = r
    have hr : r.2.Balanced := hs ▸ p3Send (h.updatePending fun _ => rfl)
    split_ifs
    · exact hr.dequeuePending.freeEntry he
    · exact hr.updatePending fun _ => rfl

theorem sendDATA_some (h : n.Balanced) (he : e.grantedPkts = 0)
    (hs : n.sendDATA env e numPkts = (some e', n')) : n'.Balanced ∧ e'.grantedPkts = 0 := by
  obtain ⟨⟨_, _, _, rfl⟩, rfl⟩ := Rtscts.sendDATA_some hs
  exact ⟨h, he⟩

theorem sendDATA_none (h : n.Balanced) (he : e.grantedPkts = 0)
    (hs : n.sendDATA env e numPkts = (none, n')) : n'.Balanced := by
  obtain rfl := Rtscts.sendDATA_none hs
  exact h.freeEntry he

theorem handleDataResend (h : n.Balanced) : (handleDataResend n env msgID).Balanced := by
  unfold Rtscts.handleDataResend
  cases hf : findQueue n.sending msgID with
  | none => exact h
  | some e =>
    have he : (restart e).grantedPkts = 0 := h.sending e (findQueue_mem hf)
    dsimp only
    generalize hs : n.sendDATA env (restart e) 1 = r
    obtain ⟨_ | e', n'⟩ := r
    · have h' := h.sendDATA_none he hs
      exact h'.senders h'.pending fun e he => h'.sending e (mem_of_mem_dequeue he)
    · obtain ⟨h', he'⟩ := h.sendDATA_some he hs
      refine h'.senders h'.pending ?_
      intro e1 he1
      rcases mem_updateEntry he1 with he1 | ⟨-, -, rfl⟩
      · exact h'.sending e1 he1
      · exact he'

theorem dequeueSend (h : n.Balanced) (hd : n.dequeueSend msgID = some (e, n')) :
    n'.Balanced ∧ e.grantedPkts = 0 := by
  rcases dequeueSend_cases hd with ⟨hp, rfl⟩ | ⟨-, hs, rfl⟩
  · exact ⟨h.dequeuePending, h.pending e (findQueue_mem hp)⟩
  · exact ⟨h.senders h.pending fun e he => h.sending e (mem_of_mem_dequeue he),
      h.sending e (findQueue_mem hs)⟩

theorem finalizeSend (h : n.Balanced) : (n.finalizeSend e).Balanced := by
  unfold Node.finalizeSend
  split_ifs <;> exact h

theorem handleCTS {msglen : ℕ} (h : n.Balanced) :
    (n.handleCTS env msgID msglen numPkts).Balanced := by
  unfold Node.handleCTS
  cases hd : n.dequeueSend msgID with
  | none => exact h
  | some d =>
    obtain ⟨h', he⟩ := h.dequeueSend hd
    dsimp only
    generalize hs : d.2.sendDATA env _ numPkts = r
    obtain ⟨_ | e', n'⟩ := r
    · exact h'.sendDATA_none (by exact he) hs
    · obtain ⟨h'', he'⟩ := h'.sendDATA_some (by exact he) hs
      refine h''.senders h''.pending ?_
      intro e1 he1
      rcases mem_append.mp he1 with he1 | he1
      · exact h''.sending e1 he1
      · rwa [mem_singleton.mp he1]

end Balanced

theorem Balanced.p3Exit {task : Option ℕ} (h : n.Balanced) : (n.p3Exit task).Balanced := by
  have hfreed : granted (n.sending.filter fun e => e.task == task) = 0 := by
    refine sum_eq_zero fun x hx => ?_
    obtain ⟨e, he, rfl⟩ := mem_map.mp hx
    exact h.sending e (mem_filter.mp he).1
  have hr := h.filter fun e => e.task == task
  rw [← sub_zero n.outstandingPkts, ← hfreed] at hr
  refine hr.senders ?_ fun e he => h.sending e (mem_filter.mp he).1
  intro e he
  obtain ⟨e0, he0, rfl⟩ := mem_map.mp he
  have := h.pending e0 he0
  unfold nullEntry
  split_ifs <;> exact this

theorem Balanced.step {input : Input} (h : n.Balanced) (ha : env.alloc = true)
    (hs : step n env input = some n') : n'.Balanced := by
  cases step_turn hs with
  | aside hn hr =>
    obtain ⟨_, _, _, _, rfl⟩ := hn
    cases hr with
    | nothing => exact h
    | data => exact Balanced.handleDATA (by exact h)
    | duplicate hf => exact Balanced.handleDuplicate (by exact h) hf
    | delivered => exact Balanced.deliverP3 (by exact h) ha
    | dropped => exact h
    | collected => exact Balanced.handleGCH (by exact h)
  | sent hs => exact h.sendsNew hs
  | pinged hn _ hs =>
    obtain ⟨_, _, _, _, rfl⟩ := hn
    exact Balanced.sendsNew (by exact h) hs
  | retried => exact h.p3Retry
  | completed hn _ hd =>
    obtain ⟨_, _, _, _, rfl⟩ := hn
    obtain ⟨h', he⟩ := Balanced.dequeueSend (by exact h) hd
    exact (h'.finalizeSend.freeEntry he :)
  | granted hn =>
    obtain ⟨_, _, _, _, rfl⟩ := hn
    exact Balanced.handleCTS (by exact h)
  | resumed => exact h.handleDataResend
  | ponged _ hn he =>
    obtain ⟨_, _, _, _, rfl⟩ := hn
    exact (Balanced.dequeuePending (by exact h)).freeEntry (h.pending _ (findQueue_mem he))
  | exited => exact h.p3Exit

theorem Idle.balanced (h : n.Idle) : n.Balanced where
  balance := by simp [h.outstandingPkts, h.receiving, granted]
  bound := by simp [h.outstandingPkts, h.receiving, holders, maxRcvPktEntries, otherNodes]
  nonneg := by simp [h.receiving]
  pending := by simp [h.sndPending]
  sending := by simp [h.sending]

end Node

/-- While queue entries can be allocated, the counter of outstanding packets is the sum of the
grants in `Qreceiving`, no grant is negative, and the counter stays below the limit plus one packet
for each entry. -/
theorem outstandingPkts_eq_granted {n₀ n : Node} (h₀ : n₀.Idle)
    (h : Run (fun _ env _ => env.alloc = true) n₀ n) :
    n.outstandingPkts = (n.receiving.map (·.grantedPkts)).sum ∧
      (∀ e ∈ n.receiving, 0 ≤ e.grantedPkts) ∧
      n.outstandingPkts ≤ maxRcvPktEntries - otherNodes + n.receiving.length := by
  have hb : n.Balanced := h.induction h₀.balanced fun hb ha hs => hb.step ha hs
  have hlen := holders_le_length n.receiving
  refine ⟨hb.balance, hb.nonneg, ?_⟩
  have := hb.bound
  omega

theorem outstandingPkts_eq_granted_rts :
    ∃ n : Node, n.receiving.length = 1 ∧ n.outstandingPkts = (n.receiving.map (·.grantedPkts)).sum ∧
      (∀ e ∈ n.receiving, 0 ≤ e.grantedPkts) ∧
      n.outstandingPkts ≤ maxRcvPktEntries - otherNodes + n.receiving.length := by
  have h : Run (fun _ env _ => env.alloc = true) (initProtocol 0 fun _ _ => 0) _ :=
    .step (goodEnv 0 (some ⟨0, 10, none⟩))
      (.recv (p3Pkt (initProtocol 1 fun _ _ => 0) .p3Rts 1 bootMsgNum (hdrFrom 1) [7]))
      .init rfl rfl
  exact ⟨_, rfl, outstandingPkts_eq_granted (initProtocol_idle 0 _) h⟩

end Cplant.Rtscts
