import Cplant.Rtscts.Steps

/-!
# What a step comes down to

Every step of a node does one thing to the queues, whichever packet, call or timer it
starts from. `Turn` lists these things; an invariant of the queues has one case for each.
-/
namespace Cplant.Rtscts
open Option Node List
open Cplant.Portals (PtlHdr)

def Noted (n n₁ : Node) : Prop := ∃ firstAck lastMsgNum pingDone pingNid,
  n₁ = { n with firstAck, lastMsgNum, pingDone, pingNid }

inductive Receives (n : Node) (env : Env) : Node → Prop
  | nothing : Receives n env n
  | data (pkt : Packet) : Receives n env (n.handleDATA env pkt)
  | duplicate {msgID : ℕ} {e : Qentry} (h : findQueue n.receiving msgID = some e) :
      Receives n env (n.handleDuplicate e)
  | delivered (pkt : Packet) (hdr : PtlHdr) (orig : ℕ) :
      Receives n env (n.deliverP3 env pkt hdr orig)
  | dropped (msgID : ℕ) (dst : ℤ) : Receives n env (n.sendProtoMSG .msgdrop msgID dst 0 0xd5d5)
  | collected (msgID : ℕ) : Receives n env (n.handleGCH msgID)

inductive Turn (n : Node) (env : Env) : Input → Node → Prop
  | aside {input : Input} {n₁ n' : Node} (h : Noted n n₁) (hr : Receives n₁ env n') :
      Turn n env input n'
  | sent {m : P3Msg} {n' : Node} (hs : SendsNew n env m .noop n') : Turn n env (.send m) n'
  | pinged {input : Input} {m : P3Msg} {opt : SendOpt} {n₁ n' : Node} (h : Noted n n₁)
      (hm : m.len = 0 ∧ m.nal = none ∧ opt ≠ .noop) (hs : SendsNew n₁ env m opt n') :
      Turn n env input n'
  | retried {dest : ℤ} {e : Qentry} {opt : Qentry → SendOpt}
      (he : findOldestMsgNum n.sndPending env dest pktTimeout = some e)
      (hopt : opt = (fun e => if e.event = .sentP3Null then .sendP3Null else .noop) ∨
        opt = fun _ => .sendP3Sync) :
      Turn n env (.timeoutPending dest) (p3Retry n env e.msgID e.msgNum opt)
  | completed {pkt : Packet} {n₁ n₂ : Node} {e : Qentry} {gch : List (ℤ × Packet)}
      (h : Noted n n₁) (htype : pkt.type = .msgend ∨ pkt.type = .msgdrop)
      (hd : n₁.dequeueSend pkt.msgID = some (e, n₂)) (hgch : ∀ q ∈ gch, q.2.type = .gch) :
      Turn n env (.recv pkt)
        { (n₂.finalizeSend e).freeEntry e with out := (n₂.finalizeSend e).out ++ gch }
  | granted {pkt : Packet} {n₁ : Node} (h : Noted n n₁) (htype : pkt.type = .cts) :
      Turn n env (.recv pkt) (n₁.handleCTS env pkt.msgID pkt.info pkt.info2)
  | resumed {pos msgID : ℕ} : Turn n env (.timeoutSending pos) (handleDataResend n env msgID)
  | ponged {pkt : Packet} {n₁ : Node} {request : ℕ} {e : Qentry} (dst : ℤ) (h : Noted n n₁)
      (he : findQueue n.sndPending request = some e) :
      Turn n env (.recv pkt) (({ n₁ with sndPending := dequeue n₁.sndPending request }.freeEntry
        e).sendProtoMSG .msgend pkt.msgID dst 0xc555 0xd555)
  | exited {task : Option ℕ} : Turn n env (.exit task) (n.p3Exit task)

variable {n n₁ n' : Node} {env : Env} {pkt : Packet} {hdr : PtlHdr} {input : Input}

theorem Noted.refl (n : Node) : Noted n n := ⟨_, _, _, _, rfl⟩

theorem Noted.heardFrom (n : Node) (src : ℤ) : Noted n (n.heardFrom src) := ⟨_, _, _, _, rfl⟩

theorem Turn.idle : Turn n env input n := .aside (.refl n) .nothing

theorem acceptP3_turn {orig : ℕ} (h : Noted n n₁) (hs : n₁.acceptP3 env pkt hdr orig = some n') :
    Turn n env (.recv pkt) n' := by
  unfold acceptP3 at hs
  dsimp only at hs
  split at hs
  · cases hs
    refine .pinged h ?_ p3SendNew_cases
    exact ⟨rfl, rfl, nofun⟩
  · split_ifs at hs
    · obtain ⟨ack, last, done, nid, rfl⟩ := h
      obtain ⟨e, he, rfl⟩ := map_eq_some_iff.mp hs
      exact .ponged _ ⟨ack, last, true, nid, rfl⟩ he
    · cases hs
      exact .aside h (.delivered pkt hdr orig)
  · cases hs
    exact .aside h (.dropped ..)
  · cases hs
    exact .aside h (.delivered pkt hdr orig)

theorem handleP3_turn (h : Noted n n₁) (hs : n₁.handleP3 env pkt hdr = some n') :
    Turn n env (.recv pkt) n' := by
  unfold handleP3 at hs
  split at hs
  next hf =>
    cases hs
    exact .aside h (.duplicate hf)
  dsimp only at hs
  split at hs
  · cases hs
    exact .aside h .nothing
  · obtain ⟨ack, last, done, nid, rfl⟩ := h
    exact acceptP3_turn ⟨ack, _, done, nid, rfl⟩ hs

theorem rtsctsRecv_turn (hs : n.rtsctsRecv env pkt = some n') : Turn n env (.recv pkt) n' := by
  have hheard := Noted.heardFrom n pkt.srcNid
  have hP3 : ∀ {n₁}, Noted n n₁ → pkt.phdr.bind (n₁.handleP3 env pkt) = some n' →
      Turn n env (.recv pkt) n' := by
    intro n₁ h hs
    obtain ⟨hdr, -, hs⟩ := bind_eq_some_iff.mp hs
    exact handleP3_turn h hs
  unfold rtsctsRecv at hs
  split at hs
  next hty => exact some.inj hs ▸ .granted hheard hty
  iterate 3 exact some.inj hs ▸ .aside hheard (.data pkt)
  next hty =>
    cases hs
    unfold handleMSGEND
    split
    · exact .aside hheard .nothing
    next hd => exact .completed hheard (.inl hty) hd (forall_mem_singleton.mpr rfl)
  next hty =>
    cases hs
    unfold handleMSGDROP
    split
    · exact .aside hheard .nothing
    next e n2 hd =>
      split_ifs
      · exact .completed hheard (.inr hty) hd (forall_mem_singleton.mpr rfl)
      · have hdone := @Turn.completed _ env _ _ _ _ [] hheard (.inr hty) hd (by simp)
        rw [append_nil] at hdone
        exact hdone
  iterate 2 exact hP3 hheard hs
  iterate 3 exact hP3 (.refl n) hs
  · cases hs
    unfold handleP3SYNC
    split_ifs
    · exact .idle
    · exact .aside ⟨_, _, _, _, rfl⟩ .nothing
  · exact some.inj hs ▸ .aside (.refl n) (.collected pkt.msgID)

theorem step_turn (hs : step n env input = some n') : Turn n env input n' := by
  cases input with
  | recv pkt => exact rtsctsRecv_turn hs
  | send m => exact some.inj hs ▸ .sent p3SendNew_cases
  | ping stack nid =>
    cases hs
    refine .pinged ⟨_, _, _, _, rfl⟩ ?_ p3SendNew_cases
    exact ⟨rfl, rfl, nofun⟩
  | timeoutPending dest =>
    cases hs
    rcases n.timeoutPending_cases env dest with hn | ⟨e, he, hn | hn⟩ <;> rw [hn]
    · exact .idle
    · exact .retried he (.inr rfl)
    · exact .retried he (.inl rfl)
  | timeoutSending pos =>
    cases hs
    rcases n.timeoutSending_cases env pos with hn | ⟨e, -, hn⟩ <;> rw [hn]
    · exact .idle
    · exact .resumed
  | cleanReceiving pos =>
    cases hs
    unfold cleanReceiving
    split
    · exact .idle
    · split_ifs
      · exact .aside (.refl n) (.collected _)
      · exact .idle
  | exit task => exact some.inj hs ▸ .exited

end Cplant.Rtscts
