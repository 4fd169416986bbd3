import Cplant.Rtscts.Receiver

/-!
# What node B is passed from node A

Two nodes of which only A sends follow the steps of `Resync`. So B passes no message to
the Portals library twice, and if A resynchronises only to the oldest message in
`Qsnd_pending`, B passes them on in the order in which A issued their numbers.
-/
namespace Cplant.Rtscts
open List Option Rtscts.System Bool

/-- A sends to B and nobody else sends. Every message for B has its process there and is
taken by the Portals library. -/
def Traffic (s : System) : Event → Prop
  | .atA _ (.send m) =>
    m.dst = s.b.myPnid ∧ m.hdr.src.nid.toInt = s.a.myPnid ∧ s.a.IdsLeft
  | .atA _ (.timeoutPending _) => True
  | .atA _ (.timeoutSending _) => True
  | .atA _ _ => False
  | .atB _ (.cleanReceiving _) => True
  | .atB _ _ => False
  | .toB env => Serves env
  | .toA _ => True
  | .dropAB _ => True
  | .dropBA _ => True

def System.StillSent (s : System) (e : Qentry) : Prop :=
  (∃ e' ∈ s.a.sndPending, e'.msgID = e.msgID) ∨
    ∃ pkt ∈ s.ab, (pkt.type = .p3Rts ∨ pkt.type = .p3LastRts) ∧ pkt.msgID = e.msgID

/-- Node B keeps what it must: an entry can be queued, and none is collected while first
packets of the message may still come. -/
def RecordsKept (s : System) : Event → Prop
  | .toB env => env.alloc = true
  | .atB env (.cleanReceiving pos) =>
    ∀ e, s.b.receiving[pos]? = some e → idleFor env e gchTimeout → ¬ s.StillSent e
  | _ => True

structure Refines (a b : ℤ) (s : System) (t : Resync) : Prop where
  issued : t.issued = s.issued.length
  sender : Sender a b s.issued t.pending t.answered s.a
  receiver : Receiver a b s.issued t.expect t.held t.taken s.b
  forward : Forward a s.issued s.ab t.forward
  back : Forall₂ (Reports b s.issued) s.ba t.back
  outA : s.a.out = []
  outB : s.b.out = []

variable {answered : Bool} {ba : List Packet} {back pending : List ℕ} {dest : ℤ} {i pos : ℕ}
  {s : System} {ev : Event}

variable {may : Resync → ℕ → Prop} {a b : ℤ} {s s' : System} {t : Resync} {env : Env}
  {n : Node} {pkt : Packet}

section
variable (h : Refines a b s t)
include h

namespace Refines

theorem afterA (hback : Forall₂ (Reports b s.issued) ba back) (hm : Moves may a b (s.issued ++
      (n.sndPending.drop s.a.sndPending.length).map fun e => (e.msgID, e.msgNum))
      { t with pending, back, answered } n) :
    Resync.Leads may { t with pending, back, answered } (Refines a b ({ s with ba }.afterA n)) := by
  obtain ⟨pending, answered, msgs, hmoves, hS, pkts, hout, hfwd⟩ := hm
  refine ⟨_, hmoves, rfl, { hS with numbering := { hS.numbering with } }, ?_, ?_, ?_, rfl, h.outB⟩
  · exact { h.receiver with
      holds := h.receiver.holds.imp fun e k hh => hh.mono
      took := h.receiver.took.imp fun p k hp => getElem?_append_some hp }
  · simp only [System.afterA, h.receiver.pnid, packetsTo_eq hout]
    exact (h.forward.mono fun p x hx => hx.mono).append hfwd
  · exact hback.imp fun p k hp => hp.mono

theorem afterB {ab : List Packet} {forward : List Resync.Msg}
    (hforward : Forward a s.issued ab forward) (ht : Takes may a b s.issued t forward n) :
    Resync.Leads may t (Refines a b ({ s with ab }.afterB n)) := by
  obtain ⟨expect, held, taken, replies, pkts, hsteps, hR, hout, hrep⟩ := ht
  refine ⟨_, hsteps, h.issued, h.sender, { hR with }, hforward, ?_, h.outA, rfl⟩
  simp only [System.afterB, h.sender.pnid, packetsTo_eq hout]
  exact rel_append h.back hrep

theorem afterA_of_le (hback : Forall₂ (Reports b s.issued) ba back)
    (hlen : n.sndPending.length ≤ s.a.sndPending.length)
    (hm : Moves may a b s.issued { t with pending, back, answered } n) :
    Resync.Leads may { t with pending, back, answered } (Refines a b ({ s with ba }.afterA n)) := by
  refine h.afterA hback ?_
  rw [drop_eq_nil_of_le hlen, map_nil, append_nil]
  exact hm

theorem sendA {m : P3Msg} (hi : t.Once) (ht : Traffic s (.atA env (.send m))) :
    Resync.Leads may t (Refines a b (s.afterA (p3SendNew s.a env m .noop).2)) := by
  obtain ⟨hdst, hsrc, hid⟩ := ht
  exact h.afterA h.back (h.sender.send hi h.issued h.outA (hdst.trans h.receiver.pnid)
    (hsrc.trans h.sender.pnid) hid p3SendNew_cases)

theorem recvA (hi : t.Once) (hs : s.recvA env = some s') : Resync.Leads may t (Refines a b s') := by
  obtain ⟨pkt, ba, n, hba, hn, rfl⟩ := recvA_some hs
  obtain ⟨k, rest, hrep, hrest, hk⟩ := forall₂_cons_left_iff.mp (hba ▸ h.back)
  obtain ⟨t', hsteps, hr⟩ := h.afterA_of_le hrest (Sender.answer_length_le hrep.isAnswer hn)
    (h.sender.answer hi h.issued h.outA hrep.isAnswer hrep.srcNid hrep.named hn)
  exact ⟨t', .head (.answer hk) hsteps, hr⟩

theorem recvB (hi : t.Once) (hserve : Serves env) (halloc : env.alloc = true)
    (hs : s.recvB env = some s') : Resync.Leads may t (Refines a b s') := by
  have hnum := h.sender.numbering
  obtain ⟨pkt, ab, n, hab, hn, rfl⟩ := recvB_some hs
  have hforward := h.forward
  rw [hab] at hforward
  generalize hf : t.forward = forward at hforward
  cases hforward with
  | skip hdata hrest =>
    have heq : (s.b.heardFrom pkt.srcNid).handleDATA env pkt = n := by
      rcases hdata with hty | hty | hty <;> simpa [Node.rtsctsRecv, hty] using hn
    have hR : Receiver a b s.issued t.expect t.held t.taken (s.b.heardFrom pkt.srcNid) :=
      { h.receiver with }
    exact h.afterB hrest (hf ▸ heq ▸ hR.data hnum h.outB)
  | @cons _ x _ rest hc hrest =>
    refine h.afterB hrest ?_
    cases x with
    | first k => exact h.receiver.first hnum hi h.issued hserve halloc hf hc h.outB hn
    | sync m =>
      obtain rfl : s.b.handleP3SYNC pkt = n := by simpa [Node.rtsctsRecv, hc.1] using hn
      exact h.receiver.sync hnum hf hc h.outB
    | forget k =>
      obtain rfl : s.b.handleGCH pkt.msgID = n := by simpa [Node.rtsctsRecv, hc.1] using hn
      exact h.receiver.gch hnum hf hc.2 h.outB

theorem cleanB (hkept : RecordsKept s (.atB env (.cleanReceiving pos))) :
    Resync.Leads may t (Refines a b (s.afterB (s.b.cleanReceiving env pos))) := by
  refine h.afterB h.forward ?_
  unfold Node.cleanReceiving
  cases hpos : s.b.receiving[pos]? with
  | none => exact Receiver.quiet .refl h.receiver h.outB
  | some e =>
    dsimp only
    split_ifs with hidle
    · obtain ⟨k, hk, hh⟩ := forall₂_mem_left h.receiver.holds (mem_of_getElem? hpos)
      have hdead : t.Dead k := by
        constructor
        · intro hmem
          obtain ⟨e', he', hw⟩ := forall₂_mem_right h.sender.waits hmem
          exact hkept e hpos hidle.1 (.inl ⟨e', he', hw.isNamed.eq hh.named⟩)
        · intro hmem
          obtain ⟨pkt, hpkt, hty, hid, -⟩ := h.forward.mem_right hmem
          exact hkept e hpos hidle.1 (.inr ⟨pkt, hpkt, hty, Named.eq ⟨_, hid⟩ hh.named⟩)
      exact Receiver.quiet (.single (.collect hdead))
        (h.receiver.handleGCH h.sender.numbering hh.named)
        (Receiver.handleGCH_out.trans h.outB)
    · exact Receiver.quiet .refl h.receiver h.outB

theorem timeoutPendingA
    (hmay : ∀ e k, findOldestMsgNum s.a.sndPending env dest pktTimeout = some e →
      Waits a b s.issued e k → may t k) :
    Resync.Leads may t (Refines a b (s.afterA (s.a.timeoutPending env dest))) := by
  refine h.afterA_of_le h.back (Node.timeoutPending_length_le fun e he => ?_)
    (h.sender.timeoutPending h.issued h.outA hmay)
  obtain ⟨k, -, hw⟩ := forall₂_mem_left h.sender.waits he
  exact h.sender.numbering.msgID_ne_zero hw.isNamed

theorem timeoutSendingA :
    Resync.Leads may t (Refines a b (s.afterA (s.a.timeoutSending env pos))) :=
  h.afterA_of_le h.back Node.timeoutSending_proceeds.sndPending.length_le
    (h.sender.timeoutSending h.issued h.outA)

theorem dropAB : Resync.Leads may t (Refines a b { s with ab := s.ab.eraseIdx i }) := by
  obtain ⟨forward, hsub, hf⟩ := h.forward.sublist (s.ab.eraseIdx_sublist i)
  exact ⟨_, .single (.lose hsub (.refl _)), { h with forward := hf }⟩

theorem dropBA : Resync.Leads may t (Refines a b { s with ba := s.ba.eraseIdx i }) := by
  obtain ⟨back, hsub, hf⟩ := forall₂_sublist h.back (s.ba.eraseIdx_sublist i)
  exact ⟨_, .single (.lose (.refl _) hsub), { h with back := hf }⟩

theorem step (hi : t.Once) (htr : Traffic s ev) (hkept : RecordsKept s ev)
    (hmay : ∀ env dest e k, ev = .atA env (.timeoutPending dest) →
      findOldestMsgNum s.a.sndPending env dest pktTimeout = some e → Waits a b s.issued e k →
      may t k) (hs : s.step ev = some s') : Resync.Leads may t (Refines a b s') := by
  cases ev with
  | atA env input =>
    cases input with
    | send m => exact some.inj hs ▸ h.sendA hi htr
    | timeoutPending dest =>
      exact some.inj hs ▸ h.timeoutPendingA fun e k => hmay env dest e k rfl
    | timeoutSending pos => exact some.inj hs ▸ h.timeoutSendingA
    | recv pkt => exact htr.elim
    | ping stack nid => exact htr.elim
    | cleanReceiving pos => exact htr.elim
    | exit task => exact htr.elim
  | atB env input =>
    cases input with
    | cleanReceiving pos => exact some.inj hs ▸ h.cleanB hkept
    | send m => exact htr.elim
    | timeoutPending dest => exact htr.elim
    | timeoutSending pos => exact htr.elim
    | recv pkt => exact htr.elim
    | ping stack nid => exact htr.elim
    | exit task => exact htr.elim
  | toA env => exact h.recvA hi hs
  | toB env => exact h.recvB hi htr hkept hs
  | dropAB i => exact some.inj hs ▸ h.dropAB
  | dropBA i => exact some.inj hs ▸ h.dropBA

end Refines
end

theorem Refines.init {memA memB : Option ℕ → ℤ → UInt8} (ha : fitsMsgID a) :
    Refines a b (init a b memA memB) Resync.start where
  issued := rfl
  sender :=
    { pnid := rfl
      numbering := ⟨ha, rfl, fun k p hk => by simp [System.init] at hk,
        fun k p hk => by simp [System.init] at hk, .nil, .inl rfl⟩
      waits := .nil
      sending := fun e he => by cases he
      firstAck := rfl }
  receiver := ⟨rfl, rfl, .nil, .nil⟩
  forward := .nil
  back := .nil
  outA := rfl
  outB := rfl

theorem Refines.parsed_nodup (h : Refines a b s t) (hi : t.Once) :
    ((parsed s.b.calls).map Prod.snd).Nodup := by
  refine forall₂_nodup_map h.receiver.took hi.once fun p q j k hp hq heq => ?_
  have hnum := h.sender.numbering.num
  rw [hnum j p hp, hnum k q hq] at heq
  exact le_antisymm (msgNumOf_le.mp heq.le) (msgNumOf_le.mp heq.ge)

theorem exists_refines {a b : ℤ} {memA memB : Option ℕ → ℤ → UInt8} {s : System} (ha : fitsMsgID a)
    (hrun : System.Run (fun s ev => Traffic s ev ∧ RecordsKept s ev)
      (System.init a b memA memB) s) : ∃ t : Resync, t.Once ∧ Refines a b s t := by
  refine hrun.induction (P := fun s => ∃ t : Resync, t.Once ∧ Refines a b s t)
    ⟨_, Resync.start_once, .init ha⟩ ?_
  rintro s s' ev ⟨t, hi, hr⟩ ⟨htr, hkept⟩ hs
  obtain ⟨t', hsteps, hr'⟩ : Resync.Leads (fun _ _ => True) t (Refines a b s') :=
    hr.step hi htr hkept (fun _ _ _ _ _ _ _ => trivial) hs
  exact ⟨t', hi.steps hsteps, hr'⟩

theorem parse_at_most_once {a b : ℤ} {memA memB : Option ℕ → ℤ → UInt8} {s : System}
    (ha : fitsMsgID a) (hrun : System.Run (fun s ev => Traffic s ev ∧ RecordsKept s ev)
      (System.init a b memA memB) s) : ((parsed s.b.calls).map Prod.snd).Nodup := by
  obtain ⟨t, hi, hr⟩ := exists_refines ha hrun
  exact hr.parsed_nodup hi

def serving (jiffies : ℕ) : Env := goodEnv jiffies (some ⟨0, 0, none⟩)

theorem serving_serves (jiffies : ℕ) : Serves (serving jiffies) :=
  fun _ => ⟨rfl, (by decide : (0 : ℤ) ≠ 1), rfl⟩

def answerLost : List Event :=
  [.atA (serving 0) (.send emptyMsg), .toB (serving 0), .toA (serving 0), .toB (serving 0),
    .atA (serving 0) (.send emptyMsg), .toB (serving 0), .dropBA 0]

def unanswered (i : ℕ) : List Event :=
  [.atA (serving (1300 * (i + 1))) (.timeoutPending 1), .toB (serving (1300 * (i + 1))), .dropBA 0]

def collected : List Event :=
  answerLost ++ (range 95).flatMap unanswered ++
    .atB (serving 123500) (.cleanReceiving 0) :: unanswered 95

def allowed (s : System) : Event → Bool
  | .atA _ (.send m) =>
    decide (m.dst = s.b.myPnid ∧ m.hdr.src.nid.toInt = s.a.myPnid ∧ s.a.IdsLeft)
  | .atA _ (.timeoutPending _) => true
  | .atB _ (.cleanReceiving _) => true
  | .atA _ _ | .atB _ _ => false
  | _ => true

def Ready : Event → Prop
  | .toB env => Serves env ∧ env.alloc = true
  | _ => True

theorem traffic_of_allowed (h : allowed s ev = true) (hr : Ready ev) : Traffic s ev := by
  cases ev with
  | atA env input =>
    cases input with
    | send m =>
      have hsend : m.dst = s.b.myPnid ∧ m.hdr.src.nid.toInt = s.a.myPnid ∧ s.a.IdsLeft :=
        of_decide_eq_true h
      exact hsend
    | timeoutPending dest => trivial
    | _ => cases h
  | atB env input =>
    cases input with
    | cleanReceiving pos => trivial
    | _ => cases h
  | toB env => exact hr.1
  | _ => trivial

theorem collected_ready : ∀ ev ∈ collected, Ready ev := by
  have hserving : ∀ jiffies, Ready (.toB (serving jiffies)) :=
    fun jiffies => ⟨serving_serves jiffies, rfl⟩
  simp only [collected, answerLost, unanswered, forall_mem_append, forall_mem_cons,
    forall_mem_flatMap, hserving]
  simp [Ready]

theorem parse_twice_after_collection : ∃ s, System.Run (fun s ev => Traffic s ev ∧ Ready ev)
        (System.init 0 1 (fun _ _ => 0) fun _ _ => 0) s ∧
      ¬ ((parsed s.b.calls).map Prod.snd).Nodup :=
  exists_run
    (fun ev hev _ h => ⟨traffic_of_allowed h (collected_ready ev hev), collected_ready ev hev⟩)
    (by decide +kernel)

theorem answerLost_traffic (ev : Event) (hev : ev ∈ answerLost) (s : System)
    (h : allowed s ev = true) : Traffic s ev ∧ RecordsKept s ev := by
  have hkept : ∀ ev ∈ answerLost, ∀ s, RecordsKept s ev := by
    simp [answerLost, RecordsKept, serving, goodEnv]
  refine ⟨traffic_of_allowed h ?_, hkept ev hev s⟩
  exact collected_ready ev (mem_append_left _ (mem_append_left _ hev))

theorem parse_at_most_once_answerLost :
    ∃ s, System.Run (fun s ev => Traffic s ev ∧ RecordsKept s ev)
        (System.init 0 1 (fun _ _ => 0) fun _ _ => 0) s ∧
      parsed s.b.calls = [(2 ^ 21, 0), (2 ^ 21 + 1, 2)] ∧
      ((parsed s.b.calls).map Prod.snd).Nodup := by
  exact exists_run_imp (P := fun s => parsed s.b.calls = [(2 ^ 21, 0), (2 ^ 21 + 1, 2)])
    answerLost_traffic (by decide +kernel)
    fun s hrun hparsed => ⟨hparsed, parse_at_most_once (by decide) hrun⟩

/-- All messages to `Qsnd_pending` have numbers that lie within 50000 of each other
whenever the oldest one is looked for. -/
def InWindow (s : System) : Event → Prop
  | .atA _ (.timeoutPending _) =>
    ∀ e ∈ s.a.sndPending, ∀ e' ∈ s.a.sndPending, e'.msgNum ≤ e.msgNum + 50000
  | _ => True

theorem Refines.oldest {e : Qentry} {k : ℕ} (h : Refines a b s t)
    (hi : t.Once) (hwin : ∀ e ∈ s.a.sndPending, ∀ e' ∈ s.a.sndPending, e'.msgNum ≤ e.msgNum + 50000)
    (he : findOldestMsgNum s.a.sndPending env dest pktTimeout = some e)
    (hk : Waits a b s.issued e k) : t.Oldest k := by
  obtain ⟨hmem, hdest⟩ := findOldestMsgNum_mem he
  have hold : Rtscts.oldest s.a.sndPending dest = some e := (filter_eq_some_iff.mp he).1
  have hnum := h.sender.numbering
  have hwaits := h.sender.waits
  have hasc := hi.pending
  generalize s.a.sndPending = q at hwin hmem hold hwaits
  unfold Resync.Oldest
  generalize t.pending = pending at hwaits hasc
  cases hwaits with
  | nil => cases hmem
  | @cons e0 k0 q pending hw hrest =>
    obtain ⟨hlt, -⟩ := pairwise_cons.mp hasc
    have hdst : ∀ e' ∈ e0 :: q, e'.dstNid = dest := by
      intro e' he'
      obtain ⟨j, -, hj⟩ := forall₂_mem_left (.cons hw hrest) he'
      exact hj.dstNid.trans (hk.dstNid.symm.trans hdest)
    have hfirst : Rtscts.oldest (e0 :: q) dest = some e0 := by
      refine oldest_of_window ?_ hdst fun e' he' => ?_
      · have hlen := hnum.length_le
        have hk0 := hw.isNamed.lt
        rw [hw.msgNum_eq hnum]
        unfold msgNumOf noMsgNum bootMsgNum
        unfold msgIDShift at hlen
        split_ifs <;> omega
      · obtain ⟨j, hj, hwj⟩ := forall₂_mem_left hrest he'
        refine ⟨?_, hwin e0 mem_cons_self e' (mem_cons_of_mem e0 he')⟩
        rw [hw.msgNum_eq hnum, hwj.msgNum_eq hnum]
        exact msgNumOf_le.mpr (hlt j hj).le
    obtain rfl : e0 = e := some.inj (hfirst.symm.trans hold)
    obtain rfl := hnum.unique hw.isNamed hk.isNamed
    intro j hj
    rcases mem_cons.mp hj with rfl | hj
    · exact le_rfl
    · exact (hlt j hj).le

/-- At most 50000 messages wait in `Qsnd_pending`, and no record is collected. -/
def Bounded (s : System) : Event → Prop
  | .atA _ (.send _) => s.a.sndPending.length < 50000
  | .atB _ _ => False
  | _ => True

theorem parse_in_order {a b : ℤ} {memA memB : Option ℕ → ℤ → UInt8} {s : System} (ha : fitsMsgID a)
    (hrun : System.Run (fun s ev => (Traffic s ev ∧ Bounded s ev) ∧ InWindow s ev ∧
      RecordsKept s ev) (System.init a b memA memB) s) : (parsed s.b.calls).Sublist s.issued ∧
      s.issued.Pairwise fun p q => p.1 < q.1 ∧ p.2 < q.2 := by
  obtain ⟨t, hi, hr⟩ : ∃ t : Resync, t.InOrder ∧ Refines a b s t := by
    refine hrun.induction (P := fun s => ∃ t : Resync, t.InOrder ∧ Refines a b s t)
      ⟨_, Resync.start_inOrder, .init ha⟩ ?_
    rintro s s' ev ⟨t, hi, hr⟩ ⟨⟨htr, -⟩, hwin, hkept⟩ hs
    obtain ⟨t', hsteps, hr'⟩ : Resync.Leads Resync.Oldest t (Refines a b s') := by
      refine hr.step hi.once htr hkept (fun env dest e k hev he hk => ?_) hs
      subst hev
      exact hr.oldest hi.once hwin he hk
    exact ⟨t', hi.steps hsteps, hr'⟩
  refine ⟨sublist_of_ascending hr.receiver.took hi.in_order, ?_⟩
  have hnum := hr.sender.numbering
  refine pairwise_iff_getElem.mpr fun j k hj hk hjk => ?_
  refine ⟨pairwise_iff_getElem.mp hnum.ascending j k hj hk hjk, ?_⟩
  rw [hnum.num j _ (getElem?_eq_getElem hj), hnum.num k _ (getElem?_eq_getElem hk)]
  exact lt_of_not_ge fun hle => hjk.not_ge (msgNumOf_le.mp hle)

def boundedAllowed (s : System) (ev : Event) : Bool :=
  allowed s ev && match ev with
    | .atA _ (.send _) => decide (s.a.sndPending.length < 50000)
    | .atB _ _ => false
    | _ => true

theorem traffic_of_boundedAllowed (h : boundedAllowed s ev = true) (hr : Ready ev) : Traffic s ev :=
  traffic_of_allowed (and_eq_true_iff.mp h).1 hr

theorem bounded_of_allowed (h : boundedAllowed s ev = true) : Bounded s ev := by
  obtain ⟨-, h⟩ := and_eq_true_iff.mp h
  unfold Bounded
  split at h
  · exact of_decide_eq_true h
  · cases h
  · trivial

instance (s : System) (ev : Event) : Decidable (InWindow s ev) := by
  unfold InWindow
  split <;> infer_instance

theorem parse_in_order_answerLost :
    ∃ s, System.Run (fun s ev => (Traffic s ev ∧ Bounded s ev) ∧ InWindow s ev ∧ RecordsKept s ev)
        (System.init 0 1 (fun _ _ => 0) fun _ _ => 0) s ∧
      parsed s.b.calls = [(2 ^ 21, 0), (2 ^ 21 + 1, 2)] ∧ (parsed s.b.calls).Sublist s.issued ∧
      s.issued.Pairwise fun p q => p.1 < q.1 ∧ p.2 < q.2 := by
  have hserving : ∀ jiffies, Ready (.toB (serving jiffies)) :=
    fun jiffies => ⟨serving_serves jiffies, rfl⟩
  have hready : ∀ ev ∈ answerLost ++ unanswered 0, Ready ev := by
    simp only [answerLost, unanswered, forall_mem_append, forall_mem_cons, hserving]
    simp [Ready]
  have hkept : ∀ ev ∈ answerLost ++ unanswered 0, ∀ s, RecordsKept s ev := by
    simp [answerLost, unanswered, RecordsKept, serving, goodEnv]
  have hok : ∀ ev ∈ answerLost ++ unanswered 0, ∀ s,
      (boundedAllowed s ev && decide (InWindow s ev)) = true →
        (Traffic s ev ∧ Bounded s ev) ∧ InWindow s ev ∧ RecordsKept s ev := by
    intro ev hev s h
    obtain ⟨hb, hw⟩ := and_eq_true_iff.mp h
    exact ⟨⟨traffic_of_boundedAllowed hb (hready ev hev), bounded_of_allowed hb⟩,
      of_decide_eq_true hw, hkept ev hev s⟩
  exact exists_run_imp (P := fun s => parsed s.b.calls = [(2 ^ 21, 0), (2 ^ 21 + 1, 2)])
    hok (by decide +kernel) fun s hrun hparsed => ⟨hparsed, parse_in_order (by decide) hrun⟩

end Cplant.Rtscts
