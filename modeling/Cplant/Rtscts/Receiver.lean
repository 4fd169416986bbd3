import Cplant.Rtscts.Sender

/-!
# The receiving node

What a node that gets messages from one other node has to do with the receiver of
`Resync`: the message it expects is in `lastMsgNum`, its records are the entries of
`Qreceiving`, and what it took is what it passed to `lib_parse`.
-/
namespace Cplant.Rtscts
open Option Node Function List Nat
open List
open Relation (ReflTransGen)
open Cplant.Portals (PtlHdr)

structure Holds (a : ℤ) (issued : List (ℕ × ℕ)) (e : Qentry) (k : ℕ) : Prop where
  named : Named issued k e.msgID
  srcNid : e.srcNid = a

structure Reports (b : ℤ) (issued : List (ℕ × ℕ)) (pkt : Packet) (k : ℕ) : Prop where
  isAnswer : pkt.isAnswer
  named : Named issued k pkt.msgID
  srcNid : pkt.srcNid = b

structure Receiver (a b : ℤ) (issued : List (ℕ × ℕ)) (expect : ℕ) (held taken : List ℕ)
    (n : Node) : Prop where
  pnid : n.myPnid = b
  expects : n.lastMsgNum a = expect
  holds : Forall₂ (Holds a issued) n.receiving held
  took : Forall₂ (fun p k => issued[k]? = some p) (parsed n.calls) taken

/-- Every message has its process, and the Portals library takes it. What it takes it asks
for with one `cb_recv`. -/
def Serves (env : Env) : Prop :=
  ∀ hdr : PtlHdr, (env.getCb hdr.nid.toInt hdr.pid.toInt).isSome ∧ (env.parse hdr).rc ≠ 1 ∧
    (env.parse hdr).recv.isSome

/-- The node goes to `n'` with answers handed out, and the abstract receiver goes along
from `t`, with `forward` left in the channel. -/
def Takes (may : Resync → ℕ → Prop) (a b : ℤ) (issued : List (ℕ × ℕ)) (t : Resync)
    (forward : List Resync.Msg) (n' : Node) : Prop :=
  ∃ expect held taken replies pkts,
    ReflTransGen (Resync.Step may) t
      { t with forward, expect, held, taken, back := t.back ++ replies } ∧
    Receiver a b issued expect held taken n' ∧
    n'.out = pkts.map (fun pkt => (a, pkt)) ∧
    Forall₂ (Reports b issued) pkts replies

variable {may : Resync → ℕ → Prop} {a b d : ℤ} {issued issued' : List (ℕ × ℕ)} {t : Resync}
  {expect : ℕ} {held taken : List ℕ} {forward rest : List Resync.Msg} {n n' n1 : Node} {env : Env}
  {pkt : Packet} {e : Qentry} {k m msgID : ℕ}

theorem Holds.mono (h : Holds a issued e k) : Holds a (issued ++ issued') e k :=
  { h with named := h.named.mono }

theorem Reports.mono (h : Reports b issued pkt k) : Reports b (issued ++ issued') pkt k :=
  { h with named := h.named.mono }

theorem acceptNum_msgNumOf {last num : ℕ} (hl : last + 1 < 2 ^ 32)
    (h : acceptNum last (msgNumOf k) = some num) : num = k + 1 ∧ (k = 0 ∨ last = 0 ∨ k = last) := by
  unfold acceptNum at h
  by_cases hk : k = 0
  · rw [if_pos (msgNumOf_eq_boot.mpr hk)] at h
    exact ⟨by rw [hk, ← some.inj h]; rfl, .inl hk⟩
  rw [if_neg (mt msgNumOf_eq_boot.mp hk)] at h
  have hnum : msgNumOf k = k + 1 := if_neg hk
  rw [hnum] at h
  split_ifs at h with hboot hnext
  · exact ⟨(some.inj h).symm, .inr (.inl hboot)⟩
  · refine ⟨(some.inj h).symm, .inr (.inr ?_)⟩
    have hlast : last ≠ 0 := hboot
    have hw : wrap (last + 1) = last + 1 := wrap_of_lt hl
    simp only [incMsgNum, hw, bootMsgNum, illMsgNum, succ_ne_zero, false_or,
      add_eq_right, hlast, if_false] at hnext
    exact succ_injective hnext

namespace Receiver
section
variable (h : Receiver a b issued expect held taken n)
include h

theorem held_of_find (hn : Numbering d issued n') (hk : Named issued k msgID)
    (hf : findQueue n.receiving msgID = some e) : k ∈ held ∧ e.srcNid = a := by
  obtain ⟨j, hj, hh⟩ := forall₂_mem_left h.holds (findQueue_mem hf)
  obtain rfl := hn.unique hk (findQueue_msgID hf ▸ hh.named)
  exact ⟨hj, hh.srcNid⟩

theorem not_held (hk : Named issued k msgID) (hf : findQueue n.receiving msgID = none) :
    k ∉ held := by
  intro hmem
  obtain ⟨e, he, hh⟩ := forall₂_mem_right h.holds hmem
  exact find?_eq_none.mp hf e he (beq_iff_eq.mpr (hh.named.eq hk))

theorem answering (ha : Answering msgID a n n') : Receiver a b issued expect held taken n' where
  pnid := ha.myPnid.trans h.pnid
  expects := by rw [ha.lastMsgNum]; exact h.expects
  holds := ha.receiving ▸ h.holds
  took := ha.parsed ▸ h.took

end
section
variable (hsteps : ReflTransGen (Resync.Step may) t { t with forward, expect, held, taken })
  (h : Receiver a b issued expect held taken n)
include hsteps h

theorem replies (hk : k ∈ held) (hname : Named issued k msgID) (hout : n.out = [])
    (ha : Answering msgID a n n') : Takes may a b issued t forward n' := by
  obtain ⟨answers, hl, hall⟩ := ha.out
  refine ⟨expect, held, taken, replicate answers.length k, answers,
    hsteps.trans (Resync.replies hk _), h.answering ha, by rw [hl, hout, nil_append], ?_⟩
  clear hl
  induction answers with
  | nil => exact .nil
  | cons pkt answers ih =>
    obtain ⟨hans, hid, hsrc⟩ := hall pkt mem_cons_self
    refine .cons ⟨hans, hid ▸ hname, hsrc.trans h.pnid⟩ (ih fun p hp => ?_)
    exact hall p (mem_cons_of_mem pkt hp)

theorem quiet (hout : n.out = []) : Takes may a b issued t forward n :=
  ⟨expect, held, taken, [], [], by rwa [append_nil], h, hout, .nil⟩

end

theorem skip {x : Resync.Msg} (hf : t.forward = x :: rest) :
    ReflTransGen (Resync.Step may) t { t with forward := rest } :=
  .single (.lose (hf ▸ sublist_cons_self x rest) (.refl _))

theorem answeringFor (hsteps : ReflTransGen (Resync.Step may) t { t with forward })
    (h : Receiver a b issued t.expect t.held t.taken n) (hn : Numbering d issued n')
    (hk : Named issued k msgID) (hout : n.out = []) (hf : findQueue n.receiving msgID = some e)
    (ha : AnsweringFor e n n1) : Takes may a b issued t forward n1 := by
  obtain ⟨hmem, hsrc⟩ := h.held_of_find hn hk hf
  obtain ⟨e', hid', hsrc', ha⟩ := ha
  rw [hsrc] at ha
  refine replies hsteps ?_ hmem (findQueue_msgID hf ▸ hk) (by exact hout) ha
  refine { h with holds := forall₂_updateFirst h.holds fun e1 j he1 hh => ?_ }
  have he1 := beq_iff_eq.mp he1
  exact ⟨hid' ▸ he1 ▸ hh.named, hsrc'.trans hsrc⟩

theorem data (h : Receiver a b issued t.expect t.held t.taken n) (hn : Numbering d issued n')
    (hout : n.out = []) : Takes may a b issued t t.forward (n.handleDATA env pkt) := by
  cases hf : findQueue n.receiving pkt.msgID with
  | none =>
    rw [handleDATA_of_none hf]
    exact quiet .refl h hout
  | some e =>
    obtain ⟨k, -, hh⟩ := forall₂_mem_left h.holds (findQueue_mem hf)
    exact h.answeringFor .refl hn (findQueue_msgID hf ▸ hh.named) hout hf
      (handleDATA_answeringFor hf)

theorem handleGCH (h : Receiver a b issued expect held taken n) (hn : Numbering d issued n')
    (hk : Named issued k msgID) :
    Receiver a b issued expect (held.erase k) taken (n.handleGCH msgID) := by
  unfold Node.handleGCH
  cases hf : findQueue n.receiving msgID with
  | none =>
    rw [erase_of_not_mem (h.not_held hk hf)]
    exact h
  | some e =>
    refine { h with holds := forall₂_eraseP h.holds fun e j hh => ?_ }
    rw [beq_iff_eq]
    constructor
    · rintro rfl
      exact hn.unique hh.named hk
    · rintro rfl
      exact hh.named.eq hk

theorem handleGCH_out : (n.handleGCH msgID).out = n.out := by
  unfold Node.handleGCH
  cases findQueue n.receiving msgID <;> rfl

section
variable (h : Receiver a b issued t.expect t.held t.taken n) (hn : Numbering d issued n')
include h hn

theorem gch (hf : t.forward = .forget k :: rest) (hk : Named issued k msgID) (hout : n.out = []) :
    Takes may a b issued t rest (n.handleGCH msgID) :=
  quiet (.single (.release hf)) (h.handleGCH hn hk) (handleGCH_out.trans hout)

theorem sync (hf : t.forward = .sync m :: rest) (hc : Carries a issued pkt (.sync m))
    (hout : n.out = []) : Takes may a b issued t rest (n.handleP3SYNC pkt) := by
  obtain ⟨-, hsrc, msgID, hm⟩ := hc
  have hnum : pkt.msgNum = msgNumOf m := hn.num m _ hm
  have hlt : m < 2 ^ msgIDShift := (Named.lt ⟨_, hm⟩).trans_le hn.length_le
  unfold handleP3SYNC
  split_ifs with hign
  · exact quiet (skip hf) h hout
  · rw [hsrc, h.expects, hnum, msgNumOf_eq_boot, not_or] at hign
    refine quiet (.single (.resync hf hign.2 hign.1)) ⟨h.pnid, ?_, h.holds, h.took⟩ hout
    have hm1 : msgNumOf m = m + 1 := if_neg hign.2
    simp only [setLastMsgNum, hsrc, update_self, hnum, hm1]
    unfold msgIDShift at hlt
    rw [wrapSub_of_le (by omega) (by omega), Nat.add_sub_cancel]

end

theorem deliver {hdr : PtlHdr} (h : Receiver hdr.src.nid.toInt b issued expect held taken n)
    (hserve : Serves env) (halloc : env.alloc = true)
    (hp : pkt.type = .p3Rts ∨ pkt.type = .p3LastRts)
    (hk : issued[k]? = some (pkt.msgID, pkt.msgNum)) (orig : ℕ) :
    ∃ n1 : Node, Receiver hdr.src.nid.toInt b issued expect (held ++ [k]) (taken ++ [k]) n1 ∧
      n1.out = n.out ∧ Answering pkt.msgID hdr.src.nid.toInt n1 (n.deliverP3 env pkt hdr orig) := by
  obtain ⟨hcb, hrc, hrecv⟩ := hserve hdr
  obtain ⟨⟨nal, task⟩, hcb⟩ := isSome_iff_exists.mp hcb
  obtain ⟨args, hargs⟩ := isSome_iff_exists.mp hrecv
  simp only [deliverP3, hcb, parseP3, hargs, cbRecv, if_neg hrc]
  obtain ⟨e, hid, hsrc, ha⟩ := @Node.recvBody_answering
    { n with calls := n.calls ++ [.parse pkt.msgID pkt.msgNum hdr] } env pkt task hdr nal args hp
    halloc
  have hname : Named issued k e.msgID := hid ▸ ⟨_, hk⟩
  refine ⟨_, ?_, ?_, ha⟩
  swap
  · rfl
  refine ⟨h.pnid, h.expects, rel_append h.holds (.cons ⟨hname, hsrc⟩ .nil), ?_⟩
  have hparsed : parsed (n.calls ++ [.parse pkt.msgID pkt.msgNum hdr]) =
      parsed n.calls ++ [(pkt.msgID, pkt.msgNum)] := by simp [parsed]
  rw [hparsed]
  exact rel_append h.took (.cons hk .nil)

theorem first (h : Receiver a b issued t.expect t.held t.taken n) (hn : Numbering d issued n')
    (hi : t.Once) (ht : t.issued = issued.length) (hserve : Serves env) (halloc : env.alloc = true)
    (hf : t.forward = .first k :: rest) (hc : Carries a issued pkt (.first k)) (hout : n.out = [])
    (hs : n.rtsctsRecv env pkt = some n1) : Takes may a b issued t rest n1 := by
  obtain ⟨hty, hk, hdr, hhdr, rfl⟩ := hc
  have hname : Named issued k pkt.msgID := ⟨_, hk⟩
  have hs : n.handleP3 env pkt hdr = some n1 := by
    rcases hty with hty | hty <;> simpa [rtsctsRecv, hty, hhdr] using hs
  unfold handleP3 at hs
  cases hq : findQueue n.receiving pkt.msgID with
  | some e =>
    obtain rfl := some.inj ((by simpa [hq] using hs) : some (n.handleDuplicate e) = some n1)
    exact h.answeringFor (skip hf) hn hname hout hq (handleDuplicate_answeringFor hq)
  | none =>
    simp only [hq, h.expects] at hs
    cases hacc : acceptNum t.expect pkt.msgNum with
    | none =>
      rw [hacc] at hs
      cases hs
      exact quiet (skip hf) h hout
    | some num =>
      have hlen := hn.length_le
      have hexp := hi.expect_le
      obtain ⟨rfl, hnext⟩ := acceptNum_msgNumOf (by unfold msgIDShift at hlen; omega)
        (hn.num k _ hk ▸ hacc : acceptNum t.expect (msgNumOf k) = some num)
      have hs : (n.setLastMsgNum hdr.src.nid.toInt (k + 1)).deliverP3 env pkt hdr t.expect = n1 := by
        rw [hacc] at hs
        rcases hty with hty | hty <;> simpa [acceptP3, hty] using hs
      have hset : Receiver hdr.src.nid.toInt b issued (k + 1) t.held t.taken
          (n.setLastMsgNum hdr.src.nid.toInt (k + 1)) :=
        ⟨h.pnid, update_self .., h.holds, h.took⟩
      obtain ⟨n2, h2, hout2, ha⟩ := hset.deliver hserve halloc hty hk t.expect
      rw [hs] at ha
      refine replies (.single (.take hf (h.not_held hname hq) hnext)) h2 ?_ hname
        (hout2.trans hout) ha
      exact mem_append_right _ (mem_singleton_self k)

end Receiver
end Cplant.Rtscts
