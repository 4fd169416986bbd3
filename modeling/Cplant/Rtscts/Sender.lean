import Cplant.Foundations.Correspond
import Cplant.Foundations.Resync
import Cplant.Rtscts.Answers

/-!
# The sending node

What a node that sends all its messages to one destination has to do with the sender of
`Resync`: its messages are counted from 0 in the order in which their numbers are handed
out, the entries of `Qsnd_pending` are the messages that are still repeated, and
`first_ack` tells whether there was an answer.
-/
namespace Cplant.Rtscts
open List Node Bool Function
open Relation (ReflTransGen)

def msgNumOf (k : ℕ) : ℕ := if k = 0 then bootMsgNum else k + 1

variable {k : ℕ} {numPkts : ℤ} {x : Resync.Msg}

theorem incMsgNum_msgNumOf (h : k + 2 < 2 ^ 32) : incMsgNum (msgNumOf k) = msgNumOf (k + 1) := by
  by_cases hk : k = 0
  · subst hk
    rfl
  · have hw : wrap (k + 1 + 1) = k + 2 := wrap_of_lt h
    simp [incMsgNum, msgNumOf, hk, hw, bootMsgNum, illMsgNum]

theorem msgNumOf_eq_boot : msgNumOf k = bootMsgNum ↔ k = 0 := by
  unfold msgNumOf bootMsgNum
  split_ifs with h <;> simp [h]

theorem msgNumOf_le {j : ℕ} : msgNumOf j ≤ msgNumOf k ↔ j ≤ k := by
  unfold msgNumOf bootMsgNum
  split_ifs <;> omega

def firstID (pnid : ℤ) : ℕ := (pnid + 1).toNat * 2 ^ msgIDShift

def Node.IdsLeft (n : Node) : Prop := n.msgID = 0 ∨ (n.msgID + 1) % 2 ^ msgIDShift ≠ 0

instance (n : Node) : Decidable n.IdsLeft := inferInstanceAs (Decidable (_ ∨ _))

def fitsMsgID (pnid : ℤ) : Prop := 0 ≤ pnid ∧ pnid + 1 < 2 ^ 11

instance (pnid : ℤ) : Decidable (fitsMsgID pnid) := inferInstanceAs (Decidable (_ ∧ _))

structure Numbering (dst : ℤ) (issued : List (ℕ × ℕ)) (n : Node) : Prop where
  pnid : fitsMsgID n.myPnid
  next : n.sendMsgNum dst = msgNumOf issued.length
  num : ∀ k p, issued[k]? = some p → p.2 = msgNumOf k
  id : ∀ k p, issued[k]? = some p → firstID n.myPnid + k ≤ p.1 ∧ p.1 ≤ n.msgID
  ascending : issued.Pairwise fun p q => p.1 < q.1
  counter : n.msgID = 0 ∨
    firstID n.myPnid ≤ n.msgID ∧ n.msgID < firstID n.myPnid + 2 ^ msgIDShift

def Named (issued : List (ℕ × ℕ)) (k msgID : ℕ) : Prop := ∃ num, issued[k]? = some (msgID, num)

namespace Numbering
variable {dst : ℤ} {issued : List (ℕ × ℕ)} {n : Node} {j k msgID : ℕ}

section
variable (h : Numbering dst issued n)
include h

theorem nextMsgID_spec (hl : n.IdsLeft) :
    n.msgID < nextMsgID n.myPnid n.msgID ∧ firstID n.myPnid ≤ nextMsgID n.myPnid n.msgID ∧
      nextMsgID n.myPnid n.msgID < firstID n.myPnid + 2 ^ msgIDShift := by
  have hpnid := h.pnid
  have hcounter := h.counter
  unfold fitsMsgID at hpnid
  unfold Node.IdsLeft at hl
  unfold firstID msgIDShift at *
  unfold nextMsgID wrap msgIDShift
  split_ifs <;> omega

theorem length_le : issued.length ≤ 2 ^ msgIDShift := by
  by_contra hlt
  have hk : issued.length - 1 < issued.length :=
    Nat.sub_one_lt (Nat.ne_zero_of_lt (not_le.mp hlt))
  have hid := h.id _ _ (getElem?_eq_getElem hk)
  have hpnid := h.pnid
  have hcounter := h.counter
  unfold firstID msgIDShift at *
  omega

theorem unique (hj : Named issued j msgID) (hk : Named issued k msgID) : j = k := by
  obtain ⟨x, hj⟩ := hj
  obtain ⟨y, hk⟩ := hk
  obtain ⟨hj', hj⟩ := List.getElem?_eq_some_iff.mp hj
  obtain ⟨hk', hk⟩ := List.getElem?_eq_some_iff.mp hk
  have hasc := pairwise_iff_getElem.mp h.ascending
  rcases lt_trichotomy j k with hlt | he | hgt
  · have := hasc j k hj' hk' hlt
    simp [hj, hk] at this
  · exact he
  · have := hasc k j hk' hj' hgt
    simp [hj, hk] at this

theorem msgID_ne_zero (hk : Named issued k msgID) : msgID ≠ 0 := by
  obtain ⟨num, hk⟩ := hk
  have hid := h.id k _ hk
  have hpnid := h.pnid
  unfold fitsMsgID at hpnid
  unfold firstID msgIDShift at hid
  omega

theorem takeID (hl : n.IdsLeft) (d : ℤ) : Numbering dst issued (n.takeID d) := by
  obtain ⟨hlt, hge, hle⟩ := h.nextMsgID_spec hl
  exact {
    h with
    id := fun k p hk => ⟨(h.id k p hk).1, (h.id k p hk).2.trans hlt.le⟩
    counter := .inr ⟨hge, hle⟩ }

theorem issue (hl : n.IdsLeft) {n' : Node} (hpnid : n'.myPnid = n.myPnid)
    (hid : n'.msgID = nextMsgID n.myPnid n.msgID)
    (hnum : n'.sendMsgNum dst = incMsgNum (n.sendMsgNum dst)) :
    Numbering dst (issued ++ [(nextMsgID n.myPnid n.msgID, n.sendMsgNum dst)]) n' := by
  obtain ⟨hlt, hge, hle⟩ := h.nextMsgID_spec hl
  have hlen := h.length_le
  -- the new ID is behind all others
  have hlow : firstID n.myPnid + issued.length ≤ nextMsgID n.myPnid n.msgID := by
    by_cases hz : issued.length = 0
    · omega
    · have hk : issued.length - 1 < issued.length := by omega
      have := h.id _ _ (getElem?_eq_getElem hk)
      omega
  refine ⟨hpnid ▸ h.pnid, ?_, ?_, ?_, ?_, ?_⟩
  · rw [hnum, h.next, incMsgNum_msgNumOf (by unfold msgIDShift at hlen; omega), length_append,
      length_singleton]
  · intro k p hk
    rcases getElem?_append_singleton_cases hk with hk | ⟨rfl, rfl⟩
    · exact h.num k p hk
    · exact h.next
  · intro k p hk
    rw [hpnid, hid]
    rcases getElem?_append_singleton_cases hk with hk | ⟨rfl, rfl⟩
    · exact ⟨(h.id k p hk).1, (h.id k p hk).2.trans hlt.le⟩
    · exact ⟨hlow, le_rfl⟩
  · refine pairwise_append.mpr ⟨h.ascending, pairwise_singleton _ _, ?_⟩
    intro p hp q hq
    obtain ⟨k, hk⟩ := mem_iff_getElem?.mp hp
    rw [mem_singleton.mp hq]
    exact (h.id k p hk).2.trans_lt hlt
  · rw [hpnid, hid]
    exact .inr ⟨hge, hle⟩

end
end Numbering

def Packet.isData (pkt : Packet) : Prop :=
  pkt.type = .data ∨ pkt.type = .stopData ∨ pkt.type = .lastData

def Carries (a : ℤ) (issued : List (ℕ × ℕ)) (pkt : Packet) : Resync.Msg → Prop
  | .first k => (pkt.type = .p3Rts ∨ pkt.type = .p3LastRts) ∧
      issued[k]? = some (pkt.msgID, pkt.msgNum) ∧
      ∃ hdr, pkt.phdr = some hdr ∧ hdr.src.nid.toInt = a
  | .sync k => pkt.type = .p3Sync ∧ pkt.srcNid = a ∧
      ∃ msgID, issued[k]? = some (msgID, pkt.msgNum)
  | .forget k => pkt.type = .gch ∧ Named issued k pkt.msgID

abbrev Forward (a : ℤ) (issued : List (ℕ × ℕ)) : List Packet → List Resync.Msg → Prop :=
  Observed (Carries a issued) Packet.isData

structure Waits (a b : ℤ) (issued : List (ℕ × ℕ)) (e : Qentry) (k : ℕ) : Prop where
  named : issued[k]? = some (e.msgID, e.msgNum)
  dstNid : e.dstNid = b
  notNull : e.event ≠ .sentP3Null
  src : e.phdr.src.nid.toInt = a

structure Sender (a b : ℤ) (issued : List (ℕ × ℕ)) (pending : List ℕ) (answered : Bool)
    (n : Node) : Prop where
  pnid : n.myPnid = a
  numbering : Numbering b issued n
  waits : Forall₂ (Waits a b issued) n.sndPending pending
  sending : ∀ e ∈ n.sending, e.dstNid = b ∧ ∃ k, Named issued k e.msgID ∧ k ∉ pending
  firstAck : n.firstAck b = answered

variable {a b : ℤ} {issued issued' : List (ℕ × ℕ)} {pending : List ℕ} {answered : Bool}
  {n n' : Node} {env : Env} {e : Qentry} {k msgID : ℕ} {pkt : Packet} {may : Resync → ℕ → Prop}
  {t : Resync}

theorem Waits.isNamed (h : Waits a b issued e k) : Named issued k e.msgID := ⟨_, h.named⟩

theorem Waits.msgNum_eq {dst : ℤ} (h : Waits a b issued e k) (hn : Numbering dst issued n) :
    e.msgNum = msgNumOf k :=
  hn.num k _ h.named

theorem Named.mono (h : Named issued k msgID) : Named (issued ++ issued') k msgID :=
  h.imp fun _ hk => getElem?_append_some hk

theorem Named.lt (h : Named issued k msgID) : k < issued.length := by
  obtain ⟨num, h⟩ := h
  exact (List.getElem?_eq_some_iff.mp h).1

theorem Named.eq {id : ℕ} (h : Named issued k msgID) (h' : Named issued k id) : msgID = id := by
  obtain ⟨x, hx⟩ := h
  obtain ⟨y, hy⟩ := h'
  exact (Prod.mk.inj (Option.some.inj (hx.symm.trans hy))).1

theorem Waits.mono (h : Waits a b issued e k) : Waits a b (issued ++ issued') e k :=
  { h with named := getElem?_append_some h.named }

theorem Carries.mono (h : Carries a issued pkt x) : Carries a (issued ++ issued') pkt x := by
  cases x with
  | first k => exact ⟨h.1, getElem?_append_some h.2.1, h.2.2⟩
  | sync k => exact ⟨h.1, h.2.1, h.2.2.imp fun _ hk => getElem?_append_some hk⟩
  | forget k => exact ⟨h.1, h.2.mono⟩

namespace Sender
section
variable (h : Sender a b issued pending answered n)
include h

theorem pending_of_find (hf : findQueue n.sndPending msgID = some e) :
    ∃ k ∈ pending, Waits a b issued e k ∧ Named issued k msgID := by
  obtain ⟨k, hk, hw⟩ := forall₂_mem_left h.waits (findQueue_mem hf)
  exact ⟨k, hk, hw, findQueue_msgID hf ▸ hw.isNamed⟩

theorem dequeue (hk : Named issued k msgID) :
    Forall₂ (Waits a b issued) (dequeue n.sndPending msgID) (pending.erase k) := by
  refine forall₂_eraseP h.waits fun e j hw => ?_
  rw [beq_iff_eq]
  constructor
  · rintro rfl
    exact h.numbering.unique hw.isNamed hk
  · rintro rfl
    exact hw.isNamed.eq hk

theorem not_pending (hk : Named issued k msgID) (hf : findQueue n.sndPending msgID = none) :
    k ∉ pending := by
  intro hmem
  obtain ⟨e, he, hw⟩ := forall₂_mem_right h.waits hmem
  exact find?_eq_none.mp hf e he (beq_iff_eq.mpr (hw.isNamed.eq hk))

theorem giveUp (hk : Named issued k msgID) : Sender a b issued (pending.erase k) answered
      { n with sndPending := Rtscts.dequeue n.sndPending msgID } where
  pnid := h.pnid
  numbering := { h.numbering with }
  waits := h.dequeue hk
  sending := fun e he => by
    obtain ⟨hdst, j, hj, hmem⟩ := h.sending e he
    exact ⟨hdst, j, hj, fun hj' => hmem (mem_of_mem_erase hj')⟩
  firstAck := h.firstAck

theorem update (msgID : ℕ) {f : Qentry → Qentry}
    (hf : ∀ e k, Waits a b issued e k → Waits a b issued (f e) k) :
    Sender a b issued pending answered
      { n with sndPending := updateEntry n.sndPending msgID f } where
  pnid := h.pnid
  numbering := { h.numbering with }
  waits := forall₂_updateFirst h.waits fun e k _ => hf e k
  sending := h.sending
  firstAck := h.firstAck

end
end Sender

def HandsOut (a b : ℤ) (issued : List (ℕ × ℕ)) (n : Node) (msgs : List Resync.Msg) : Prop :=
  ∃ pkts : List Packet, n.out = pkts.map (fun pkt => (b, pkt)) ∧ Forward a issued pkts msgs

def Moves (may : Resync → ℕ → Prop) (a b : ℤ) (issued : List (ℕ × ℕ)) (t : Resync) (n' : Node) :
    Prop :=
  ∃ pending answered msgs,
    ReflTransGen (Resync.Step may) t
      { t with issued := issued.length, pending, answered, forward := t.forward ++ msgs } ∧
    Sender a b issued pending answered n' ∧ HandsOut a b issued n' msgs

theorem HandsOut.nothing (h : n.out = []) : HandsOut a b issued n [] := ⟨[], h, .nil⟩

theorem HandsOut.one (h : n.out = [(b, pkt)]) (hx : Carries a issued pkt x) :
    HandsOut a b issued n [x] :=
  ⟨[pkt], h, .single hx⟩

theorem Moves.of_steps {msgs : List Resync.Msg} (ht : t.issued = issued.length)
    (hs : ReflTransGen (Resync.Step may) t
      { t with pending, answered, forward := t.forward ++ msgs })
    (h : Sender a b issued pending answered n) (hout : HandsOut a b issued n msgs) :
    Moves may a b issued t n := by
  refine ⟨pending, answered, msgs, ?_, h, hout⟩
  rw [← ht]
  exact hs

theorem Moves.silent (ht : t.issued = issued.length) (h : Sender a b issued t.pending t.answered n)
    (hout : HandsOut a b issued n []) : Moves may a b issued t n :=
  .of_steps ht (by rw [append_nil]) h hout

theorem sendLoop_isData {numPkts more i : ℕ} (h : pkt ∈ (sendLoop n env numPkts more i e).2) :
    pkt.isData := by
  obtain ⟨e', type, payload, rfl, htype⟩ := mem_sendLoop h
  exact htype

namespace Sender

theorem answered_of_sent (h : Sender a b issued pending answered n)
    (hq : queueOnly n b (msgNumOf k) = false) : k = 0 ∨ answered = true := by
  rcases and_eq_false_iff.mp hq with hz | hack
  · exact .inl (msgNumOf_eq_boot.mp (by simpa using hz))
  · exact .inr (h.firstAck ▸ by simpa using hack)

variable {msgNum : ℕ}

section
variable (h : Sender a b issued t.pending t.answered n)
include h

theorem sendsAgain {opt : SendOpt} (hout : n.out = []) (hk : issued[k]? = some (msgID, msgNum))
    (hw : Waits a b issued e k)
    (hcarry : ∀ body, Carries a issued (p3Pkt n (p3Plan opt e.len).1 msgID msgNum e.phdr body) x)
    (hstep : (k = 0 ∨ t.answered = true) → Resync.Step may t { t with forward := t.forward ++ [x] })
    (hs : SendsAgain n env e.msg msgID msgNum opt n') :
    ∃ msgs, ReflTransGen (Resync.Step may) t { t with forward := t.forward ++ msgs } ∧
      Sender a b issued t.pending t.answered n' ∧ HandsOut a b issued n' msgs := by
  have hnone : ReflTransGen (Resync.Step may) t { t with forward := t.forward ++ [] } := by
    rw [append_nil]
  cases hs with
  | invalidDest =>
    exact ⟨[], hnone, { h with numbering := { h.numbering with } }, .nothing hout⟩
  | failed => exact ⟨[], hnone, h, .nothing hout⟩
  | done sent payload task pkts hq _ _ _ hpkts =>
    have hS := h.update msgID
      (f := fun e' => { e' with
        task, rtsSent := e'.rtsSent ++ rtsPayload sent (p3Plan opt e.msg.len).1 payload })
      fun e k hw => { hw with }
    have hS' : Sender a b issued t.pending t.answered { n with
        sndPending := updateEntry n.sndPending msgID fun e' => { e' with
          task, rtsSent := e'.rtsSent ++ rtsPayload sent (p3Plan opt e.msg.len).1 payload }
        out := n.out ++ pkts } :=
      { hS with numbering := { hS.numbering with } }
    subst hpkts
    cases sent with
    | false => exact ⟨[], hnone, hS', .nothing (by simpa using hout)⟩
    | true =>
      have hq : queueOnly n b (msgNumOf k) = false :=
        h.numbering.num k _ hk ▸ hw.dstNid ▸ hq
      refine ⟨[x], .single (hstep (h.answered_of_sent hq)), hS', ?_⟩
      refine .one ?_ (hcarry (n.readUser task e.buf payload))
      simp [hout, Qentry.msg, hw.dstNid]

section
variable (ht : t.issued = issued.length) (hout : n.out = [])
  (hk : issued[k]? = some (msgID, msgNum))
include ht hout hk

theorem retry {opt : Qentry → SendOpt} (hcarry : ∀ e body, Waits a b issued e k →
      Carries a issued (p3Pkt n (p3Plan (opt e) e.len).1 msgID msgNum e.phdr body) x)
    (hstep : k ∈ t.pending → (k = 0 ∨ t.answered = true) →
      Resync.Step may t { t with forward := t.forward ++ [x] }) :
    Moves may a b issued t (p3Retry n env msgID msgNum opt) := by
  unfold p3Retry
  cases hf : findQueue n.sndPending msgID with
  | none => exact .silent ht h (.nothing hout)
  | some e =>
    obtain ⟨j, hj, hw, hname⟩ := h.pending_of_find hf
    obtain rfl : j = k := h.numbering.unique hname ⟨_, hk⟩
    dsimp only
    rw [p3Send, if_neg (h.numbering.msgID_ne_zero hname)]
    have hcount := h.update msgID
      (f := fun e => { e with p3msgRetries := wrapInt (e.p3msgRetries + 1) })
      fun e k hw => { hw with }
    generalize hs : p3SendAgain _ env e.msg msgID msgNum (opt e) = r
    obtain ⟨msgs, hsteps, hS, hhands⟩ := hcount.sendsAgain hout hk hw (fun body => hcarry e body hw)
      (hstep hj) (hs ▸ p3SendAgain_cases)
    split_ifs
    · have hS := hS.giveUp hname
      exact .of_steps ht (hsteps.tail (.giveUp j))
        { hS with numbering := { hS.numbering with } } hhands
    · exact .of_steps ht hsteps (hS.update msgID fun e k hw => { hw with }) hhands

theorem resend : Moves may a b issued t (handleP3resend n env msgID msgNum) := by
  refine h.retry (x := .first k) ht hout hk (fun e body hw => ?_) .send
  rw [if_neg hw.notNull]
  refine ⟨?_, hk, e.phdr, rfl, hw.src⟩
  unfold p3Plan p3Pkt
  dsimp only
  split_ifs
  · exact .inr rfl
  · exact .inl rfl

theorem sync (hmay : may t k) : Moves may a b issued t (handleP3sync n env msgID msgNum) :=
  h.retry (x := .sync k) ht hout hk (fun _ _ _ => ⟨rfl, h.pnid, msgID, hk⟩)
    fun hmem _ => .sync hmem hmay

end

theorem timeoutPending {dest : ℤ} (ht : t.issued = issued.length) (hout : n.out = [])
    (hmay : ∀ e k, findOldestMsgNum n.sndPending env dest pktTimeout = some e →
      Waits a b issued e k → may t k) : Moves may a b issued t (n.timeoutPending env dest) := by
  rcases n.timeoutPending_cases env dest with heq | ⟨e, he, heq⟩
  · rw [heq]
    exact .silent ht h (.nothing hout)
  · obtain ⟨k, -, hw⟩ := forall₂_mem_left h.waits (findOldestMsgNum_mem he).1
    rcases heq with heq | heq <;> rw [heq]
    · exact h.sync ht hout hw.named (hmay e k he hw)
    · exact h.resend ht hout hw.named

end

theorem p3Plan_noop (len : ℕ) :
    ((p3Plan .noop len).1 = .p3Rts ∨ (p3Plan .noop len).1 = .p3LastRts) ∧
      (p3Plan .noop len).2.1 ≠ .sentP3Null := by
  unfold p3Plan
  dsimp only
  split_ifs <;> simp

section
variable (h : Sender a b issued t.pending t.answered n) (hi : t.Once)
  (ht : t.issued = issued.length)
include h hi ht

theorem takeID_firstAck : (n.takeID b).firstAck b = t.answered := by
  unfold takeID
  dsimp only
  split_ifs with hboot
  · have hzero : t.issued = 0 := ht.trans (msgNumOf_eq_boot.mp (h.numbering.next.symm.trans hboot))
    have hans : t.answered ≠ true := fun hans =>
      absurd (hi.taken_lt 0 (hi.answered_zero hans)) (by omega)
    rw [update_self, eq_false_iff.mpr hans]
  · exact h.firstAck

theorem send {m : P3Msg} (hout : n.out = []) (hdst : m.dst = b) (hsrc : m.hdr.src.nid.toInt = a)
    (hid : n.IdsLeft) (hs : SendsNew n env m .noop n') :
    Moves may a b (issued ++ (n'.sndPending.drop n.sndPending.length).map
      fun e => (e.msgID, e.msgNum)) t n' := by
  subst hdst
  have htake : Sender a m.dst issued t.pending t.answered (n.takeID m.dst) :=
    { h with
      numbering := h.numbering.takeID hid m.dst
      firstAck := h.takeID_firstAck hi ht }
  cases hs with
  | invalidDest =>
    simp only [finalize, drop_length, map_nil, append_nil]
    exact .silent ht { h with numbering := { h.numbering with } } (.nothing hout)
  | failed =>
    simp only [takeID, drop_length, map_nil, append_nil]
    exact .silent ht htake (.nothing hout)
  | refused =>
    simp only [finalize, takeID, drop_length, map_nil, append_nil]
    exact .silent ht { htake with numbering := { htake.numbering with } } (.nothing hout)
  | queued q sent payload task pkts hq _ hsent _ hpkts =>
    simp only [drop_left, map_cons, map_nil, sendEntry]
    have hnew : (issued ++ [(nextMsgID n.myPnid n.msgID, n.sendMsgNum m.dst)])[issued.length]? =
        some (nextMsgID n.myPnid n.msgID, n.sendMsgNum m.dst) := by simp
    have hS : Sender a m.dst (issued ++ [(nextMsgID n.myPnid n.msgID, n.sendMsgNum m.dst)])
        (t.pending ++ [t.issued]) t.answered { n.takeID m.dst with
          sendMsgNum := Function.update n.sendMsgNum m.dst (incMsgNum (n.sendMsgNum m.dst))
          sndPending := n.sndPending ++ [sendEntry env m (nextMsgID n.myPnid n.msgID)
            (n.sendMsgNum m.dst) payload (p3Plan .noop m.len).2.1 task
            (rtsPayload sent (p3Plan .noop m.len).1 payload)]
          out := n.out ++ pkts } := by
      refine ⟨h.pnid, h.numbering.issue hid rfl rfl (update_self ..), ?_, ?_, htake.firstAck⟩
      · refine rel_append (h.waits.imp fun e k hw => hw.mono) (.cons ?_ .nil)
        exact ⟨ht ▸ hnew, rfl, (p3Plan_noop m.len).2, hsrc⟩
      · intro e he
        obtain ⟨hdst, k, hk, hmem⟩ := h.sending e he
        refine ⟨hdst, k, hk.mono, fun hk' => ?_⟩
        rcases mem_append.mp hk' with hk' | hk'
        · exact hmem hk'
        · exact (ht ▸ hk.lt).ne (mem_singleton.mp hk')
    have hissue : Resync.Step may t
        { t with issued := t.issued + 1, pending := t.pending ++ [t.issued] } := .issue
    subst hpkts
    cases sent with
    | false =>
      refine ⟨_, _, [], ?_, hS, .nothing (by simpa using hout)⟩
      rw [length_append, ← ht, append_nil]
      exact .single hissue
    | true =>
      have hq : queueOnly n m.dst (msgNumOf t.issued) = false := by
        rw [ht, ← h.numbering.next, ← hq]
        simp only [true_eq, and_eq_true, not_eq_true'] at hsent
        exact hsent.1.1
      refine ⟨_, _, [.first t.issued], ?_, hS, ?_⟩
      · rw [length_append, ← ht]
        refine .tail (.single hissue) (.send ?_ (h.answered_of_sent hq))
        exact mem_append_right _ (mem_singleton_self _)
      · apply HandsOut.one
        · simp only [hout, if_true, nil_append]
          rfl
        · exact ⟨(p3Plan_noop m.len).1, ht ▸ hnew, m.hdr, rfl, hsrc⟩

end

theorem handsOut_sentData (hout : n.out = []) (he : e.dstNid = b)
    (hn : n'.out = n.out ++ sentData n env e numPkts) : HandsOut a b issued n' [] := by
  rw [hout, nil_append, sentData, he] at hn
  exact ⟨_, hn, .of_silent fun pkt hpkt => sendLoop_isData hpkt⟩

section
variable (h : Sender a b issued t.pending t.answered n) (ht : t.issued = issued.length)
  (hout : n.out = [])
include h ht hout

theorem dataResend : Moves may a b issued t (handleDataResend n env msgID) := by
  unfold handleDataResend
  cases hf : findQueue n.sending msgID with
  | none => exact .silent ht h (.nothing hout)
  | some e =>
    obtain ⟨hdst, hname⟩ := h.sending e (findQueue_mem hf)
    dsimp only
    generalize hs : n.sendDATA env (restart e) 1 = r
    obtain ⟨_ | e', n'⟩ := r
    · obtain rfl := sendDATA_none hs
      refine .silent ht ?_ (handsOut_sentData (e := restart e) hout hdst rfl)
      exact { h with
        numbering := { h.numbering with }
        sending := fun e he => h.sending e (mem_of_mem_dequeue he) }
    · obtain ⟨⟨_, _, _, rfl⟩, rfl⟩ := sendDATA_some hs
      refine .silent ht ?_ (handsOut_sentData (e := restart e) hout hdst rfl)
      refine { h with numbering := { h.numbering with }, sending := fun e1 he1 => ?_ }
      rcases mem_updateEntry he1 with he1 | ⟨-, -, rfl⟩
      · exact h.sending e1 he1
      · exact ⟨hdst, hname⟩

theorem timeoutSending {pos : ℕ} : Moves may a b issued t (n.timeoutSending env pos) := by
  rcases n.timeoutSending_cases env pos with heq | ⟨e, -, heq⟩ <;> rw [heq]
  · exact .silent ht h (.nothing hout)
  · exact h.dataResend ht hout

end

section
variable (h : Sender a b issued pending answered n)
include h

theorem dequeueSend_none (hk : Named issued k msgID) (hd : n.dequeueSend msgID = none) :
    Sender a b issued (pending.erase k) answered n := by
  unfold dequeueSend at hd
  cases hp : findQueue n.sndPending msgID with
  | some e => simp [hp] at hd
  | none =>
    rw [erase_of_not_mem (h.not_pending hk hp)]
    exact h

theorem dequeueSend_some (hk : Named issued k msgID) (hd : n.dequeueSend msgID = some (e, n')) :
    Sender a b issued (pending.erase k) answered n' ∧ e.dstNid = b ∧ e.msgID = msgID ∧
      n'.out = n.out ∧ n'.myPnid = n.myPnid := by
  rcases dequeueSend_cases hd with ⟨hf, rfl⟩ | ⟨hnone, hf, rfl⟩
  · obtain ⟨j, -, hw, -⟩ := h.pending_of_find hf
    exact ⟨h.giveUp hk, hw.dstNid, findQueue_msgID hf, rfl, rfl⟩
  · rw [erase_of_not_mem (h.not_pending hk hnone)]
    refine ⟨?_, (h.sending e (findQueue_mem hf)).1, findQueue_msgID hf, rfl, rfl⟩
    exact { h with
      numbering := { h.numbering with }
      sending := fun e he => h.sending e (mem_of_mem_dequeue he) }

theorem handleCTS {msglen : ℕ} (hd : pending.Nodup) (hout : n.out = [])
    (hk : Named issued k msgID) :
    Sender a b issued (pending.erase k) answered (n.handleCTS env msgID msglen numPkts) ∧
      HandsOut a b issued (n.handleCTS env msgID msglen numPkts) [] := by
  unfold Node.handleCTS
  cases hq : n.dequeueSend msgID with
  | none => exact ⟨h.dequeueSend_none hk hq, .nothing hout⟩
  | some d =>
    obtain ⟨e, n1⟩ := d
    obtain ⟨hS, hdst, hid, hout1, -⟩ := h.dequeueSend_some hk hq
    rw [hout] at hout1
    dsimp only
    generalize he1 : ({ e with
      len := min e.len msglen, event := .rcvdCts, idle := env.jiffies } : Qentry) = e1
    have hdst1 : e1.dstNid = b := he1 ▸ hdst
    have hname1 : Named issued k e1.msgID := he1 ▸ hid ▸ hk
    generalize hs : n1.sendDATA env e1 numPkts = r
    obtain ⟨_ | e', n'⟩ := r
    · obtain rfl := sendDATA_none hs
      exact ⟨{ hS with numbering := { hS.numbering with } }, handsOut_sentData hout1 hdst1 rfl⟩
    · obtain ⟨⟨_, _, _, rfl⟩, rfl⟩ := sendDATA_some hs
      refine ⟨{ hS with numbering := { hS.numbering with }, sending := fun e2 he2 => ?_ },
        handsOut_sentData hout1 hdst1 rfl⟩
      rcases mem_append.mp he2 with he2 | he2
      · exact hS.sending e2 he2
      · rw [mem_singleton.mp he2]
        exact ⟨hdst1, k, hname1, hd.not_mem_erase⟩

end

theorem done (hS : Sender a b issued pending answered n) (hout : n.out = []) (hdst : e.dstNid = b)
    (hid : Named issued k e.msgID) (hint : Bool) :
    let n' := (if hint then (n.finalizeSend e).sendProtoMSG .gch e.msgID e.dstNid 0x0011 0x2233
      else n.finalizeSend e).freeEntry e
    Sender a b issued pending answered n' ∧
      HandsOut a b issued n' (if hint then [.forget k] else []) := by
  obtain ⟨calls, hc⟩ := n.finalizeSend_frame e
  rw [hc]
  cases hint with
  | false => exact ⟨{ hS with numbering := { hS.numbering with } }, .nothing hout⟩
  | true =>
    refine ⟨{ hS with numbering := { hS.numbering with } }, ?_⟩
    apply HandsOut.one
    · change n.out ++ [(e.dstNid, _)] = _
      rw [hout, hdst]
      rfl
    · exact ⟨rfl, hid⟩

theorem handleMSGDROP {info2 : ℤ} (h : Sender a b issued pending answered n) (hout : n.out = [])
    (hk : Named issued k msgID) : ∃ msgs, (msgs = [] ∨ msgs = [.forget k]) ∧
      Sender a b issued (pending.erase k) answered (n.handleMSGDROP msgID info2) ∧
      HandsOut a b issued (n.handleMSGDROP msgID info2) msgs := by
  unfold Node.handleMSGDROP
  cases hq : n.dequeueSend msgID with
  | none => exact ⟨[], .inl rfl, h.dequeueSend_none hk hq, .nothing hout⟩
  | some d =>
    obtain ⟨hS, hdst, hid, hout1, -⟩ := h.dequeueSend_some hk hq
    split_ifs
    · exact ⟨_, .inr rfl, hS.done (hout1.trans hout) hdst (hid ▸ hk) true⟩
    · exact ⟨_, .inl rfl, hS.done (hout1.trans hout) hdst (hid ▸ hk) false⟩

theorem answer_length_le (hans : pkt.isAnswer)
    (hs : n.rtsctsRecv env pkt = some n') : n'.sndPending.length ≤ n.sndPending.length := by
  unfold rtsctsRecv at hs
  rcases hans with hty | hty | hty <;> rw [hty] at hs <;> cases hs
  · exact handleCTS_proceeds.sndPending.length_le
  · exact handleMSGEND_eq .. ▸ handleMSGDROP_proceeds.sndPending.length_le
  · exact handleMSGDROP_proceeds.sndPending.length_le

theorem answer {rest : List ℕ} (h : Sender a b issued t.pending t.answered n)
    (hi : t.Once) (ht : t.issued = issued.length) (hout : n.out = []) (hans : pkt.isAnswer)
    (hsrc : pkt.srcNid = b) (hk : Named issued k pkt.msgID) (hs : n.rtsctsRecv env pkt = some n') :
    Moves may a b issued { t with back := rest, pending := t.pending.erase k, answered := true } n'
    := by
  have hnodup : t.pending.Nodup := hi.pending.imp fun hlt => hlt.ne
  have hS : Sender a b issued t.pending true (n.heardFrom pkt.srcNid) :=
    { h with
      numbering := { h.numbering with }
      firstAck := by simp [heardFrom, hsrc] }
  -- with or without a hint to forget the message
  have hhint : ∀ msgs n', (msgs = [] ∨ msgs = [.forget k]) →
      Sender a b issued (t.pending.erase k) true n' → HandsOut a b issued n' msgs →
      Moves may a b issued
        { t with back := rest, pending := t.pending.erase k, answered := true } n' := by
    rintro msgs n' (rfl | rfl) hS' hhands
    · exact .silent ht hS' hhands
    · refine .of_steps ht (.single (.forget hnodup.not_mem_erase ?_)) hS' hhands
      exact ht ▸ hk.lt
  unfold rtsctsRecv at hs
  rcases hans with hty | hty | hty <;> rw [hty] at hs <;> cases hs
  · obtain ⟨hS', hhands⟩ := hS.handleCTS hnodup hout hk
    exact hhint [] _ (.inl rfl) hS' hhands
  · rw [handleMSGEND_eq]
    obtain ⟨msgs, hmsgs, hS', hhands⟩ := hS.handleMSGDROP hout hk
    exact hhint msgs _ hmsgs hS' hhands
  · obtain ⟨msgs, hmsgs, hS', hhands⟩ := hS.handleMSGDROP hout hk
    exact hhint msgs _ hmsgs hS' hhands

end Sender
end Cplant.Rtscts
