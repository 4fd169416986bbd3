import Cplant.Comm.VoteMoves

/-!
# A vote that returns has the votes of all participants

The messages of the gather and of the broadcast are counted as those of the barrier are: what a
process has taken of another one, what waits at it and what is on its way is no more than what
the other one has sent, which is at most one message for each operation. The second barrier
keeps the operations apart: nobody broadcasts before all have attached their descriptors for the
broadcast, and nobody attaches it before it has taken all that is gathered at it. So every
message is written where it belongs.
-/
namespace Cplant.Comm
open List Option Election Function Poll Servers VotePhase Voter

section Servers
variable {ι : Type*} {c : Calls ι} {s s' : Servers ι} {p : Peer}

structure Server.Stays (x x' : Server ι) : Prop where
  entered : ∀ i, x'.Entered i ↔ x.Entered i
  past : ∀ i ∈ x.past, i ∈ x'.past

theorem Server.Stays.refl (x : Server ι) : Server.Stays x x := ⟨fun _ => Iff.rfl, fun _ => id⟩

theorem Servers.stays_set {x : Server ι} (h : (s.server p).Stays x) (q : Peer) :
    (s.server q).Stays ((s.set p x).server q) := by
  simp only [set, update_apply]
  split_ifs with hq
  · exact hq ▸ h
  · exact .refl _

theorem Servers.stays_setBarrier (s : Servers ι) (p : Peer) (b : Barrier) (q : Peer) :
    (s.server q).Stays ((s.setBarrier p b).server q) := by
  have h : (s.server p).Stays { s.server p with barrier := b } := ⟨fun _ => Iff.rfl, fun _ => id⟩
  exact stays_set h q

theorem Servers.step_stays {m : Move} (hm : ∀ p, m ≠ .call p) (hs : s.step c m = some s')
    (p : Peer) : (s.server p).Stays (s'.server p) := by
  cases m with
  | call q => exact absurd rfl (hm q)
  | get q =>
    obtain ⟨b, -, rfl⟩ := map_eq_some_iff.mp hs
    exact s.stays_setBarrier q b p
  | go q =>
    obtain ⟨⟨b, dst⟩, -, rfl⟩ := map_eq_some_iff.mp hs
    cases dst with
    | none | some d => exact s.stays_setBarrier q b p
  | leave q =>
    simp only [step, leave] at hs
    split at hs
    next i hcur _ =>
      cases hs
      apply stays_set _ p
      refine ⟨fun j => ?_, fun j hj => mem_append_left _ hj⟩
      simp only [Server.Entered, hcur, mem_append, mem_singleton, some_inj,
        reduceCtorEq, or_false, eq_comm]
    · cases hs
  | deliver q d =>
    simp only [step, deliver] at hs
    split_ifs at hs
    cases hs
    exact (s.setWire q d (s.wire q d - 1)).stays_setBarrier d _ p
  | overrun q k =>
    simp only [step, overrun] at hs
    split_ifs at hs
    cases hs
    exact s.stays_setBarrier q _ p

theorem Servers.call_enters (hs : s.call c p = some s') :
    (∀ q ≠ p, s'.server q = s.server q) ∧ ∃ i, (c.prog p)[(s.server p).past.length]? = some i ∧
        (∀ j, (s'.server p).Entered j ↔ (s.server p).Entered j ∨ j = i) ∧
        ∀ j ∈ (s.server p).past, j ∈ (s'.server p).past := by
  simp only [call] at hs
  split at hs
  next i hcur hi =>
    split at hs
    · cases hs
      refine ⟨fun q hq => update_of_ne hq _ _, i, hi, fun j => ?_, fun j hj => ?_⟩
      · simp [set, Server.Entered, hcur]
      · simp [set, hj]
    · cases hs
    · cases hs
      refine ⟨fun q hq => update_of_ne hq _ _, i, hi, fun j => ?_, fun j hj => ?_⟩
      · simp [set, Server.Entered, hcur, eq_comm]
      · simp [set, hj]
  · cases hs

end Servers

structure Abreast (x : Server Op) (ph : VotePhase) : Prop where
  fresh : ph = .idle → ∀ op, ¬x.Entered op
  entered : x.Entered .bcast → ph.inBcast
  passed : ∀ op, ph.passed op → op ∈ x.past

theorem Abreast.stays {x x' : Server Op} {ph : VotePhase} (h : Abreast x ph) (hx : x.Stays x') :
    Abreast x' ph where
  fresh := fun hph op => mt (hx.entered op).mp (h.fresh hph op)
  entered := fun he => h.entered ((hx.entered .bcast).mp he)
  passed := fun op hp => hx.past op (h.passed op hp)

namespace Poll
variable {E : Election} {s s' : Poll} {op : Op} {p q : Peer} {x : Voter} {r i : ℕ} {msg : VoteMsg}
  {m : VoteMove}

def flying (s : Poll) (op : Op) (p q : Peer) : ℕ := (s.wire p q).countP fun msg => msg.op = op

structure Fair (E : Election) (s : Poll) : Prop where
  bars : s.bars.Tallied E.program.calls
  abreast : ∀ p, Abreast (s.bars.server p) (s.voter p).phase
  idle : ∀ p, (s.voter p).phase = .idle →
    ∀ op, (s.voter p).md op = none ∧ (s.voter p).eventq op = []
  votes : ∀ p, (s.voter p).phase ≠ .idle → E.Votes (s.voter p) ∧ E.elt (s.voter p).myelt = p
  holds : ∀ p q, ∀ msg ∈ s.wire p q, ∃ b < E.participants, p = E.elt b ∧ E.Holds b msg
  tally : ∀ op p q, E.heard (s.voter p) op q + ((s.voter p).eventq op).count q + s.flying op q p ≤
    E.sent (s.voter q) op p

section
variable (h : s.Fair E)
include h

theorem Fair.move {out : Op → Peer → ℕ} (hm : E.Moves (s.voter p) x out) (helt : E.elt x.myelt = p)
    (hbars : s'.bars.Tallied E.program.calls)
    (habreast : ∀ a, Abreast (s'.bars.server a) (s'.voter a).phase)
    (hvoter : ∀ a, s'.voter a = if a = p then x else s.voter a)
    (hholds : ∀ a b, ∀ msg ∈ s'.wire a b, ∃ b < E.participants, a = E.elt b ∧ E.Holds b msg)
    (hflying : ∀ op a b, s'.flying op a b = s.flying op a b + if a = p then out op b else 0) :
    s'.Fair E := by
  refine ⟨hbars, habreast, fun a => ?_, fun a => ?_, hholds, fun op a b => ?_⟩
  · rw [hvoter]
    split_ifs with ha
    · exact fun hidle => absurd hidle hm.busy
    · exact h.idle a
  · rw [hvoter]
    split_ifs with ha
    · exact fun _ => ⟨hm.votes, helt.trans ha.symm⟩
    · exact h.votes a
  · have htally := h.tally op a b
    have hin : E.heard (s'.voter a) op b + ((s'.voter a).eventq op).count b ≤
        E.heard (s.voter a) op b + ((s.voter a).eventq op).count b := by
      rw [hvoter]
      split_ifs with ha
      · exact ha ▸ hm.takes op b
      · exact le_refl _
    have hout : E.sent (s'.voter b) op a + s.flying op b a =
        E.sent (s.voter b) op a + s'.flying op b a := by
      rw [hvoter, hflying]
      split_ifs with hb
      · subst hb
        rw [hm.tells op a]
        omega
      · omega
    omega

section
variable (hm : E.Moves (s.voter p) x fun _ _ => 0) (helt : E.elt x.myelt = p)
include hm helt

theorem Fair.setVoter (habreast : Abreast (s.bars.server p) x.phase) : (s.setVoter p x).Fair E := by
  have hvoter : ∀ a, (s.setVoter p x).voter a = if a = p then x else s.voter a := fun a =>
    update_apply ..
  refine h.move hm helt h.bars (fun a => ?_) hvoter h.holds fun op a b => ?_
  · rw [hvoter]
    split_ifs with ha
    · exact ha ▸ habreast
    · exact h.abreast a
  · rw [ite_self]
    rfl

theorem Fair.enter
    (habreast : ∀ y i, (E.program.calls.prog p)[(s.bars.server p).past.length]? = some i →
      (∀ op, y.Entered op ↔ (s.bars.server p).Entered op ∨ op = i) →
      (∀ op ∈ (s.bars.server p).past, op ∈ y.past) → Abreast y x.phase)
    (hs : s.enter E p x = some s') : s'.Fair E := by
  obtain ⟨bars, hcall, rfl⟩ := map_eq_some_iff.mp hs
  obtain ⟨hothers, i, hi, hentered, hpast⟩ := call_enters hcall
  have hvoter : ∀ a, (s.setVoter p x).voter a = if a = p then x else s.voter a := fun a =>
    update_apply ..
  have hbars : bars.Tallied E.program.calls := h.bars.step (m := .call p) hcall
  refine h.move hm helt hbars (fun a => ?_) hvoter h.holds fun op a b => ?_
  · show Abreast (bars.server a) ((s.setVoter p x).voter a).phase
    rw [hvoter]
    split_ifs with ha
    · subst ha
      exact habreast _ i hi hentered hpast
    · rw [hothers a ha]
      exact h.abreast a
  · rw [ite_self]
    rfl

end

theorem Fair.pass (hs : s.pass E p = some s') : s'.Fair E := by
  simp only [Poll.pass] at hs
  split at hs
  next op hph =>
    split_ifs at hs with hpast
    cases hs
    obtain ⟨hvotes, helt⟩ := h.votes p (by simp [hph])
    refine h.setVoter (hvotes.pass hph) helt ⟨nofun, fun he => ?_, fun op' hp => ?_⟩
    · have := (h.abreast p).entered he
      cases op <;> simp [inBcast, hph] at this ⊢
    · by_cases hop : op' = op
      · exact hop ▸ hpast
      · apply (h.abreast p).passed
        cases op <;> cases op' <;> simp [passed, hph] at hp hop ⊢
  · cases hs

theorem Fair.get (hs : (s.voter p).get = some x) : (s.setVoter p x).Fair E := by
  have hbusy : (s.voter p).phase ≠ .idle := by
    intro hidle
    simp [Voter.get, hidle] at hs
  obtain ⟨hvotes, helt⟩ := h.votes p hbusy
  obtain ⟨hm, hmyelt, hpassed, hin⟩ := hvotes.get hs
  refine h.setVoter hm (hmyelt ▸ helt) ⟨fun hidle => absurd hidle hm.busy, fun he => ?_, ?_⟩
  · rw [hin]
    exact (h.abreast p).entered he
  · rw [hpassed]
    exact (h.abreast p).passed

theorem Fair.go (hs : s.go E p = some s') : s'.Fair E := by
  simp only [Poll.go] at hs
  split at hs
  next op hph =>
    cases hs
    obtain ⟨hvotes, helt⟩ := h.votes p (by simp [hph])
    refine h.setVoter (hvotes.go hph) helt ⟨nofun, fun he => ?_, fun op' hp => ?_⟩
    · have := (h.abreast p).entered he
      cases op <;> simp [inBcast, hph] at this ⊢
    · apply (h.abreast p).passed
      rw [hph]
      exact hp
  · cases hs

end

theorem holds_outMsg (halone : ¬E.Alone E.list) (hx : E.Votes x) {todo : List Peer}
    (hph : x.phase = .send op todo) : E.Holds x.myelt (x.outMsg (E.view 0) E.list op) := by
  have hright := hx.right_block halone op
    (fun q hq => by rw [(heard_of_send hph q).1]; exact count_pos_iff.mpr hq)
    fun q hq => by rw [(heard_of_send hph q).2]; exact count_pos_iff.mpr hq
  refine ⟨rfl, by simp [outMsg, block], fun i hi => ?_⟩
  have hlen : i < (E.block x.myelt op).len := by simpa [outMsg, block] using hi
  have hdata : (x.outMsg (E.view 0) E.list op).data.getD i 0 =
      x.ballot ((E.block x.myelt op).offset + i) := by
    rw [getD_eq_getElem _ _ hi]
    simp [outMsg, block]
  rw [hdata]
  exact hright _ (by omega) (by omega)

theorem Fair.put (halone : ¬E.Alone E.list) (h : s.Fair E) (hs : s.put E p = some s') :
    s'.Fair E := by
  simp only [Poll.put] at hs
  split at hs
  next op q todo hph =>
    cases hs
    obtain ⟨hvotes, helt⟩ := h.votes p (by simp [hph])
    have hmsg := holds_outMsg halone hvotes hph
    generalize hout : (s.voter p).outMsg (E.view 0) E.list op = msg at hmsg
    have hop : msg.op = op := by rw [← hout]; rfl
    have hvoter : ∀ a, (s.setVoter p { s.voter p with phase := .send op todo }).voter a =
        if a = p then { s.voter p with phase := .send op todo } else s.voter a := fun a =>
      update_apply ..
    have hwire : ∀ a b, ((s.setVoter p { s.voter p with phase := .send op todo }).setWire p q
        (s.wire p q ++ [msg])).wire a b =
          if a = p ∧ b = q then s.wire p q ++ [msg] else s.wire a b := fun _ _ => rfl
    have hfair : ((s.setVoter p { s.voter p with phase := .send op todo }).setWire p q
        (s.wire p q ++ [msg])).Fair E := by
      refine h.move (hvotes.put hph) helt h.bars (fun a => ?_) hvoter ?_ fun op' a b => ?_
      · show Abreast (s.bars.server a)
          ((s.setVoter p { s.voter p with phase := .send op todo }).voter a).phase
        rw [hvoter]
        split_ifs with ha
        · subst ha
          obtain ⟨-, hentered, hpassed⟩ := h.abreast a
          rw [hph] at hentered hpassed
          have hin : (send op todo).inBcast =
              (send op (q :: todo)).inBcast := by
            cases op <;> rfl
          exact ⟨nofun, fun he => hin.trans (hentered he), hpassed⟩
        · exact h.abreast a
      · intro a b m hm
        rw [hwire] at hm
        split_ifs at hm with hab
        · rcases mem_append.mp hm with hm | hm
          · exact hab.1 ▸ h.holds p q m hm
          · obtain rfl := mem_singleton.mp hm
            exact ⟨_, hvotes.lt, hab.1.trans helt.symm, hmsg⟩
        · exact h.holds a b m hm
      · rw [flying, hwire, flying]
        by_cases ha : a = p
        · by_cases hb : b = q
          · rw [if_pos ⟨ha, hb⟩, if_pos ha, ha, hb, countP_append, countP_singleton]
            by_cases hop' : op' = op
            · simp [hop, hop']
            · simp [hop, hop', Ne.symm hop']
          · have hcount : [q].count b = 0 := count_eq_zero.mpr (by simpa using hb)
            rw [if_neg fun h => hb h.2, if_pos ha, hcount, ite_self, add_zero]
        · rw [if_neg fun h => ha h.1, if_neg ha, add_zero]
    rw [← hout] at hfair
    exact hfair
  · cases hs

theorem Fair.next (h : s.Fair E) (hs : s.next E p = some s') : s'.Fair E := by
  simp only [Poll.next] at hs
  split at hs
  next hph =>
    obtain ⟨hvotes, helt⟩ := h.votes p (by simp [hph])
    apply h.enter (hvotes.next hph) helt _ hs
    intro y i _ _ hpast
    refine ⟨nofun, fun _ => rfl, fun op hp => hpast op ((h.abreast p).passed op ?_)⟩
    cases op with
    | gather => rw [hph]; rfl
    | bcast => cases hp
  next hph =>
    cases hs
    obtain ⟨hvotes, helt⟩ := h.votes p (by simp [hph])
    refine h.setVoter (hvotes.finish hph) helt ⟨nofun, fun _ => rfl, fun op _ => ?_⟩
    apply (h.abreast p).passed
    rw [hph]
    cases op <;> rfl
  · cases hs

theorem relativeRank_elt {e : ℕ} (h : (E.view r).getMyRelativeRank E.list = .elt e) :
    takesPart E.list r ∧ e = eltOf E.list r := by
  have hlist := E.isList
  unfold View.getMyRelativeRank at h
  cases hE : E.list with
  | none =>
    rw [hE] at h
    exact ⟨rfl, (RelativeRank.elt.inj h).symm⟩
  | some l =>
    rw [hE] at h hlist
    have hvalid : ∀ k ∈ l, 0 ≤ k ∧ k < ((E.view r).members : ℤ) := hlist.2
    simp only [View.relativeRankFrom_eq hvalid, zero_add] at h
    split_ifs at h with hmem
    exact ⟨decide_eq_true hmem, (RelativeRank.elt.inj h).symm⟩

theorem voteOf_eltOf (hpart : takesPart E.list r) : E.voteOf (eltOf E.list r) = E.votes r := by
  unfold voteOf eltOf
  cases hE : E.list with
  | none => rfl
  | some l =>
    rw [hE] at hpart
    have hmem : (r : ℤ) ∈ l := of_decide_eq_true hpart
    simp only [getD_eq_getElem _ _ (idxOf_lt_length_of_mem hmem), getElem_idxOf, Int.toNat_natCast]

theorem peer_of_rank? (h : E.rank? p = some r) : r < E.members ∧ E.peer r = p :=
  ⟨mem_range.mp (mem_of_find?_eq_some h), of_decide_eq_true (find?_some h :)⟩

namespace Fair

theorem start (halone : ¬E.Alone E.list) (h : s.Fair E) (hs : s.start E p = some s') :
    s'.Fair E := by
  simp only [Poll.start] at hs
  split at hs
  next r hidle hrank =>
    split at hs
    next e he =>
      rw [if_neg (show ¬(E.members = 1 ∨ _) from halone)] at hs
      obtain ⟨hpart, rfl⟩ := relativeRank_elt he
      obtain ⟨hr, hpeer⟩ := peer_of_rank? hrank
      have hfresh := h.idle p hidle
      have helt : E.elt (eltOf E.list r) = p := (Group.nidpid_eltOf hr hpart 0).trans hpeer
      refine h.enter ?_ helt ?_ hs
      · refine ⟨⟨Group.eltOf_lt hr hpart 0, ?_, trivial, ?_, ?_, by rintro ⟨⟩⟩, by rintro ⟨⟩, ?_,
          ?_⟩
        · simp only [setup, update_self]
          exact (voteOf_eltOf hpart).symm
        · intro op b _ hpos
          simp [heard, setup, (hfresh op).2] at hpos
        · intro _
          simp only [setup]
          split_ifs <;> exact (hfresh .bcast).1
        · intro op q
          simp [heard, setup]
        · intro op q
          simp [sent, setup, hidle]
      · intro y i hi hentered hpast
        -- the first barrier of the program is that of the gather
        have hempty : (s.bars.server p).past = [] := by
          apply eq_nil_iff_forall_not_mem.mpr
          intro op hop
          exact (h.abreast p).fresh hidle op (.inl hop)
        have hgather : i = .gather := by
          have hprog : E.program.calls.prog (E.peer r) = [.gather, .bcast] :=
            (Program.prog_peer (P := E.program) hr).trans (if_pos hpart)
          rw [hempty, ← hpeer, hprog] at hi
          exact (some.inj hi).symm
        refine ⟨by rintro ⟨⟩, fun he => ?_, by rintro _ ⟨⟩⟩
        rcases (hentered .bcast).mp he with hold | hnew
        · exact absurd hold ((h.abreast p).fresh hidle .bcast)
        · rw [hgather] at hnew
          cases hnew
    · cases hs
  · cases hs

theorem barrier (h : s.Fair E) {m : Move} (hm : ∀ p, m ≠ .call p) {bars : Servers Op}
    (hs : s.bars.step E.program.calls m = some bars) : Fair E { s with bars } :=
  ⟨h.bars.step hs, fun p => (h.abreast p).stays (step_stays hm hs p), h.idle, h.votes,
    h.holds, h.tally⟩

theorem inBcast_of_sent (h : s.Fair E) (hsent : 0 < E.sent (s.voter p) .bcast q) {a : ℕ}
    (ha : a < E.participants) : (s.voter (E.elt a)).phase.inBcast := by
  have hbusy : (s.voter p).phase ≠ .idle := by
    intro hidle
    simp [sent, hidle] at hsent
  have hpassed : (s.voter p).phase.passed .bcast := by
    unfold sent at hsent
    split at hsent <;> simp_all [passed]
  have hret := (h.abreast p).passed .bcast hpassed
  obtain ⟨hvotes, helt⟩ := h.votes p hbusy
  obtain ⟨r, hr, hpart, -, hpeer⟩ := exists_peer hvotes.lt
  obtain ⟨r', hr', hpart', -, hpeer'⟩ := exists_peer ha
  rw [← helt, hpeer] at hret
  have hentered := Program.entered_of_returned h.bars hr hpart hret hr' hpart'
  rw [hpeer']
  exact (h.abreast _).entered hentered

theorem ends (halone : ¬E.Alone E.list) (h : s.Fair E) (hmsg : msg ∈ s.wire p q) :
    0 < s.flying msg.op p q ∧ 0 < E.sent (s.voter p) msg.op q ∧
      ∃ b < E.participants, E.elt b = p ∧ E.Holds b msg ∧ E.sent (s.voter p) msg.op q ≤ 1 ∧
        ∃ a < E.participants, E.elt a = q ∧ p ∈ E.ins a msg.op := by
  have hflying : 0 < s.flying msg.op p q :=
    countP_pos_iff.mpr ⟨msg, hmsg, decide_eq_true rfl⟩
  have hsent : 0 < E.sent (s.voter p) msg.op q := by
    have := h.tally msg.op q p
    omega
  have hbusy : (s.voter p).phase ≠ .idle := by
    intro hidle
    simp [sent, hidle] at hsent
  obtain ⟨hvotes, helt⟩ := h.votes p hbusy
  obtain ⟨b, hb, hpb, hholds⟩ := h.holds p q msg hmsg
  have hsame := elt_inj b hb _ hvotes.lt (hpb.symm.trans helt.symm)
  have hout := mem_outs_of_sent hsent
  obtain ⟨a, ha, haq⟩ := exists_of_mem_outs halone hvotes.lt hout
  refine ⟨hflying, hsent, b, hb, hpb.symm, hholds, sent_le hvotes.lt q, a, ha, haq, ?_⟩
  rw [hpb, mem_ins_iff halone ha hb, haq, hsame]
  exact hout

theorem arrive (halone : ¬E.Alone E.list) (h : s.Fair E) (hmsg : msg ∈ s.wire p q)
    (hbusy : (s.voter q).phase ≠ .idle) : (s.voter q).arrive E.type p msg = s.voter q ∨
      (s.voter q).takes E.type msg.op p msg ∧
        (s.voter q).arrive E.type p msg = (s.voter q).deposit msg.op p msg := by
  obtain ⟨hflying, hsent, b, hb, rfl, hholds, hone, a, ha, rfl, hin⟩ := h.ends halone hmsg
  obtain ⟨hvotes, helt⟩ := h.votes _ hbusy
  have htally := h.tally msg.op (E.elt a) (E.elt b)
  have hmyelt := elt_inj _ hvotes.lt a ha helt
  rw [arrive]
  split_ifs with hbcast hgather
  · cases hop : msg.op with
    | bcast => exact .inr ⟨hbcast, rfl⟩
    | gather =>
      -- the process has taken all that is gathered at it
      have hinBcast : (s.voter (E.elt a)).phase.inBcast := by
        by_contra hnot
        rw [takes, hvotes.noMd (Bool.eq_false_iff.mpr hnot)] at hbcast
        cases hbcast
      rw [hop] at htally hin hflying hone
      rw [heard_gather_of_inBcast hinBcast, hmyelt] at htally
      have := count_pos_iff.mpr hin
      omega
  · cases hop : msg.op with
    | gather => exact .inr ⟨hgather, rfl⟩
    | bcast =>
      -- the descriptor for the broadcast is attached and unused
      rw [hop] at htally hin hflying hone hsent
      obtain ⟨md, hmd, hsource, hlength, hpos⟩ :=
        hvotes.bcastMd (h.inBcast_of_sent hsent ha) (E.elt b) (by rw [hmyelt]; exact hin)
      have hlen : msg.data.length = E.participants := by
        rw [hholds.length, hop]
        rfl
      have haccepts : md.accepts E.type .bcast (E.elt b) msg = true := by
        simp only [Md.accepts, hsource, hop, Op.place, hlen, hlength, zero_add, le_refl,
          decide_true, Bool.and_true, Bool.or_true, Bool.true_and, decide_eq_true_eq]
        omega
      refine absurd ?_ hbcast
      rw [takes, hmd]
      exact haccepts
  · exact .inl rfl

theorem receive (h : s.Fair E) {rest : List VoteMsg} (hwire : s.wire p q = msg :: rest)
    (hphase : x.phase = (s.voter q).phase) (hmyelt : x.myelt = (s.voter q).myelt)
    (hvotes : x.phase ≠ .idle → E.Votes x)
    (hidle : x.phase = .idle → ∀ op, x.md op = none ∧ x.eventq op = [])
    (hevent : ∀ op r, (x.eventq op).count r ≤ ((s.voter q).eventq op).count r + if msg.op = op ∧
      r = p then 1 else 0) : ((s.setWire p q rest).setVoter q x).Fair E := by
  have hvoter : ∀ a, ((s.setWire p q rest).setVoter q x).voter a =
      if a = q then x else s.voter a := fun a => update_apply ..
  have hheard : ∀ op a b, E.heard (if a = q then x else s.voter a) op b =
      E.heard (s.voter a) op b := by
    intro op a b
    split_ifs with ha
    · simp only [heard, hphase, hmyelt, ha]
    · rfl
  have hsent : ∀ op a b, E.sent (if a = q then x else s.voter a) op b =
      E.sent (s.voter a) op b := by
    intro op a b
    split_ifs with ha
    · simp only [sent, hphase, hmyelt, ha]
    · rfl
  refine ⟨h.bars, fun a => ?_, fun a => ?_, fun a => ?_, fun a b m hm => ?_, fun op a b => ?_⟩
  · rw [hvoter]
    have : (if a = q then x else s.voter a).phase = (s.voter a).phase := by
      split_ifs with ha
      · rw [hphase, ha]
      · rfl
    rw [this]
    exact h.abreast a
  · rw [hvoter]
    split_ifs with ha
    · exact hidle
    · exact h.idle a
  · rw [hvoter]
    split_ifs with ha
    · intro hbusy
      refine ⟨hvotes hbusy, ?_⟩
      rw [hmyelt, ha]
      exact (h.votes q (hphase ▸ hbusy)).2
    · exact h.votes a
  · have hm : m ∈ if a = p ∧ b = q then rest else s.wire a b := hm
    apply h.holds a b
    split_ifs at hm with hab
    · rw [hab.1, hab.2, hwire]
      exact mem_cons_of_mem msg hm
    · exact hm
  · have htally := h.tally op a b
    rw [hvoter, hvoter, hheard, hsent]
    have hflying : ((s.setWire p q rest).setVoter q x).flying op b a =
        (if b = p ∧ a = q then rest else s.wire b a).countP fun msg => msg.op = op := rfl
    have hcount : ((if a = q then x else s.voter a).eventq op).count b +
        ((if b = p ∧ a = q then rest else s.wire b a).countP fun msg => msg.op = op) ≤
          ((s.voter a).eventq op).count b + s.flying op b a := by
      rw [flying]
      by_cases ha : a = q
      · subst ha
        have := hevent op b
        rw [if_pos rfl]
        by_cases hb : b = p
        · subst hb
          rw [if_pos ⟨rfl, rfl⟩, hwire, countP_cons]
          simp only [and_true, decide_eq_true_eq] at this ⊢
          omega
        · rw [if_neg fun h => hb h.1]
          rw [if_neg fun h => hb h.2] at this
          omega
      · rw [if_neg ha, if_neg fun h => ha h.2]
    omega

theorem deliver (halone : ¬E.Alone E.list) (h : s.Fair E) (hs : s.deliver E p q = some s') :
    s'.Fair E := by
  simp only [Poll.deliver] at hs
  split at hs
  next msg rest hwire =>
    cases hs
    have hmsg : msg ∈ s.wire p q := hwire ▸ mem_cons_self
    by_cases hidle : (s.voter q).phase = .idle
    · -- nothing is attached yet
      have hsame : (s.voter q).arrive E.type p msg = s.voter q := by
        simp [Voter.arrive, Voter.takes, (h.idle q hidle _).1]
      rw [hsame]
      exact h.receive hwire rfl rfl (fun hbusy => absurd hidle hbusy) (fun _ => h.idle q hidle)
        fun _ _ => Nat.le_add_right _ _
    · obtain ⟨hvotes, -⟩ := h.votes q hidle
      rcases h.arrive halone hmsg hidle with hsame | ⟨htakes, hdeposit⟩
      · rw [hsame]
        exact h.receive hwire rfl rfl (fun _ => hvotes) (fun hi => absurd hi hidle)
          fun _ _ => Nat.le_add_right _ _
      rw [hdeposit]
      obtain ⟨-, -, b, hb, rfl, hholds, -⟩ := h.ends halone hmsg
      refine h.receive hwire rfl rfl (fun _ => hvotes.deposit hb hholds htakes)
        (fun hi => absurd hi hidle) fun op r => ?_
      by_cases hop : msg.op = op
      · subst hop
        simp only [deposit, update_self, count_append, true_and]
        by_cases hr : r = E.elt b
        · rw [if_pos hr, hr, count_singleton_self]
        · have : [E.elt b].count r = 0 := count_eq_zero.mpr (by simpa using hr)
          omega
      · rw [if_neg fun h => hop h.1]
        simp only [deposit, update_of_ne (Ne.symm hop)]
        exact le_refl _
  · cases hs

theorem init (ballot : Peer → ℕ → Int32) : (init ballot).Fair E where
  bars := Servers.Tallied.init _
  abreast := by
    have hout : ∀ op, ¬(Server.mk Barrier.init [] none : Server Op).Entered op := by
      rintro op (h | h) <;> cases h
    exact fun _ => ⟨fun _ => hout, fun h => absurd h (hout .bcast), nofun⟩
  idle := fun _ _ _ => ⟨rfl, rfl⟩
  votes := fun _ h => absurd rfl h
  holds := nofun
  tally := fun _ _ _ => le_refl _

theorem step (halone : ¬E.Alone E.list) (h : s.Fair E) (hs : s.step E m = some s') : s'.Fair E := by
  cases m with
  | start p => exact h.start halone hs
  | barrier m =>
    simp only [Poll.step] at hs
    split_ifs at hs with hcall
    obtain ⟨bars, hb, rfl⟩ := map_eq_some_iff.mp hs
    exact h.barrier (by rintro p rfl; exact hcall rfl) hb
  | pass p => exact h.pass hs
  | get p =>
    obtain ⟨x, hx, rfl⟩ := map_eq_some_iff.mp hs
    exact h.get hx
  | go p => exact h.go hs
  | put p => exact h.put halone hs
  | next p => exact h.next hs
  | deliver p q => exact h.deliver halone hs

end Fair

structure Lone (E : Election) (s : Poll) : Prop where
  wire : ∀ p q, s.wire p q = []
  done : ∀ p, (s.voter p).phase ≠ .idle → (s.voter p).phase = .done ∧
    ∀ r, E.rank? p = some r → (s.voter p).ballot 0 = E.votes r

theorem Lone.step (halone : E.Alone E.list) (h : s.Lone E)
    (hs : s.step E m = some s') : s'.Lone E := by
  -- a process is idle or done
  have hphase : ∀ p, (s.voter p).phase = .idle ∨ (s.voter p).phase = .done := fun p => by
    by_cases hidle : (s.voter p).phase = .idle
    · exact .inl hidle
    · exact .inr (h.done p hidle).1
  cases m with
  | start p =>
    simp only [Poll.step, Poll.start] at hs
    split at hs
    next r _ hrank =>
      split at hs
      · rw [if_pos (show E.members = 1 ∨ _ from halone)] at hs
        cases hs
        refine ⟨h.wire, fun q => ?_⟩
        simp only [setVoter, update_apply]
        split_ifs with hq
        · subst hq
          refine fun _ => ⟨rfl, fun r' hr' => ?_⟩
          rw [hrank] at hr'
          obtain rfl := some.inj hr'
          simp only [update_self]
        · exact h.done q
      · cases hs
    · cases hs
  | barrier m =>
    simp only [Poll.step] at hs
    split_ifs at hs
    obtain ⟨bars, -, rfl⟩ := map_eq_some_iff.mp hs
    exact ⟨h.wire, h.done⟩
  | pass p => rcases hphase p with hp | hp <;> simp [Poll.step, Poll.pass, hp] at hs
  | get p => rcases hphase p with hp | hp <;> simp [Poll.step, Voter.get, hp] at hs
  | go p => rcases hphase p with hp | hp <;> simp [Poll.step, Poll.go, hp] at hs
  | put p => rcases hphase p with hp | hp <;> simp [Poll.step, Poll.put, hp] at hs
  | next p => rcases hphase p with hp | hp <;> simp [Poll.step, Poll.next, hp] at hs
  | deliver p q => simp [Poll.step, Poll.deliver, h.wire p q] at hs

theorem Lone.init (ballot : Peer → ℕ → Int32) : (init ballot).Lone E :=
  ⟨fun _ _ => rfl, fun _ h => absurd rfl h⟩

theorem participants_of_alone (halone : E.Alone E.list) (hr : r < E.members)
    (hpart : takesPart E.list r) (hi : i < E.participants) : i = 0 ∧ E.voteOf 0 = E.votes r := by
  have helt := Group.eltOf_lt hr hpart 0
  have hone : E.participants ≤ 1 := by
    by_contra hmore
    obtain ⟨a, ha, hapart, ha0, -⟩ := exists_peer (E := E) (a := 0) (by omega)
    obtain ⟨b, hb, hbpart, hb1, -⟩ := exists_peer (E := E) (a := 1) (by omega)
    rw [Group.eq_of_alone E.isList halone ha hapart hb hbpart] at hb1
    omega
  have hzero : eltOf E.list r = 0 := by
    have : eltOf E.list r < E.participants := helt
    omega
  refine ⟨by omega, ?_⟩
  rw [← hzero]
  exact voteOf_eltOf hpart

theorem ballot_of_done {ballot : Peer → ℕ → Int32}
    (h : Reaches (step E) (fun _ _ => True) (init ballot) s) (hr : r < E.members)
    (hpart : takesPart E.list r) (hdone : (s.voter (E.peer r)).phase = .done)
    (hi : i < E.participants) : (s.voter (E.peer r)).ballot i = E.voteOf i := by
  by_cases halone : E.Alone E.list
  · have hlone := h.invariant (Lone.init ballot) fun hs _ hstep => hs.step halone hstep
    obtain ⟨rfl, hvote⟩ := participants_of_alone halone hr hpart hi
    rw [hvote]
    exact (hlone.done _ (by simp [hdone])).2 r (Group.rank?_peer hr)
  · have hfair := h.invariant (Fair.init ballot) fun hs _ hstep => hs.step halone hstep
    have hvotes := (hfair.votes (E.peer r) (by simp [hdone])).1
    have hheard : ∀ op, ∀ q ∈ E.ins (s.voter (E.peer r)).myelt op,
        0 < E.heard (s.voter (E.peer r)) op q := by
      intro op q hq
      simp only [heard, hdone]
      exact count_pos_iff.mpr hq
    have hright := hvotes.right_block halone .bcast (hheard .bcast) (hheard .gather)
    apply hright i (Nat.zero_le i)
    have : (E.block (s.voter (E.peer r)).myelt .bcast).offset +
        (E.block (s.voter (E.peer r)).myelt .bcast).len = 0 + E.participants := rfl
    omega

end Poll

/-- In every run of a vote, a participant that returns `DSRVR_OK` has the ballot of all
participants, and any two of them have the same ballot. -/
theorem votes_agree (E : Election) (ballot : Peer → ℕ → Int32) {s : Poll}
    (h : Reaches (Poll.step E) (fun _ _ => True) (Poll.init ballot) s) :
    (∀ r < E.members, takesPart E.list r → (s.voter (E.peer r)).phase = .done →
      ∀ i < E.participants, (s.voter (E.peer r)).ballot i = E.voteOf i) ∧
    ∀ r < E.members, takesPart E.list r → (s.voter (E.peer r)).phase = .done →
      ∀ q < E.members, takesPart E.list q → (s.voter (E.peer q)).phase = .done →
        ∀ i < E.participants, (s.voter (E.peer r)).ballot i = (s.voter (E.peer q)).ballot i := by
  have hballot := fun r hr hpart hdone i hi =>
    ballot_of_done (E := E) (r := r) (i := i) h hr hpart hdone hi
  refine ⟨hballot, fun r hr hpart hdone q hq hqpart hqdone i hi => ?_⟩
  rw [hballot r hr hpart hdone i hi, hballot q hq hqpart hqdone i hi]

def twoVotes : Election where
  members := 3
  peer := fun r => ⟨Int32.ofNat r, 7⟩
  inj := twoBarriers.inj
  list := some [2, 0]
  isList := ⟨by decide, by decide⟩
  votes := fun r => Int32.ofNat (r + 40)
  type := -5

theorem votes_agree_two :
    ∃ s, Reaches (Poll.step twoVotes) (fun _ _ => True) (Poll.init fun _ _ => 0) s ∧
      (s.voter (twoVotes.peer 0)).phase = .done ∧ (s.voter (twoVotes.peer 0)).ballot 0 = 42 ∧
        (s.voter (twoVotes.peer 0)).ballot 1 = 40 := by
  let a : Peer := twoVotes.peer 2
  let b : Peer := twoVotes.peer 0
  let sync : List VoteMove := [.barrier (.go b), .barrier (.deliver b a), .barrier (.get a),
    .barrier (.go a), .barrier (.go a), .barrier (.go a), .barrier (.leave a),
    .barrier (.deliver a b), .barrier (.get b), .barrier (.go b), .barrier (.leave b)]
  refine exists_reaches_imp (P := fun s => (s.voter b).phase = .done)
    ([.start a, .start b] ++ sync ++
      [.pass a, .pass b, .go b, .put b, .deliver b a, .get a, .go a, .next a, .next b] ++ sync ++
      [.pass a, .pass b, .go a, .put a, .deliver a b, .next a, .get b, .go b, .next b])
    (by decide +kernel) fun s hs hdone => ?_
  have hballot := (votes_agree twoVotes _ hs).1 0 (by decide) (by decide) hdone
  refine ⟨hdone, ?_, ?_⟩
  · rw [hballot 0 (by decide)]
    decide
  · rw [hballot 1 (by decide)]
    decide

end Cplant.Comm
