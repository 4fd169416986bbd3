import Cplant.Comm.Vote

/-!
# One process in a vote

What a participant has taken from and sent to the others in the gather and in the broadcast, as
a function of its phase, and what its ballot holds then: every block that it has received, and
its own vote. The blocks that it has received in the gather make up, with its own, the block that
it sends.
-/
namespace Cplant.Comm
open List Voter VotePhase View
open Function (update_self update_of_ne update)

namespace Election
variable (E : Election)

def elt (a : ℕ) : Peer := (E.view 0).nidpid E.list a

def ins (a : ℕ) (op : Op) : List Peer := (E.view 0).inPeers E.list a op

def outs (a : ℕ) (op : Op) : List Peer := (E.view 0).outPeers E.list a op

def block (a : ℕ) (op : Op) : Block := (E.view 0).outBlock E.list a op

variable {E} {a b : ℕ} {op : Op}

theorem elt_inj : ∀ a < E.participants, ∀ b < E.participants, E.elt a = E.elt b → a = b :=
  Group.nidpid_inj E.isList 0

theorem exists_peer (ha : a < E.participants) :
    ∃ r < E.members, takesPart E.list r ∧ eltOf E.list r = a ∧ E.elt a = E.peer r := by
  obtain ⟨r, hr, hpart, rfl⟩ := Group.exists_rank E.isList ha
  exact ⟨r, hr, hpart, rfl, Group.nidpid_eltOf hr hpart 0⟩

theorem one_lt (halone : ¬E.Alone E.list) (ha : a < E.participants) : 1 < E.participants := by
  unfold participants listLen at ha ⊢
  cases hlist : E.list with
  | none =>
    rw [hlist] at ha
    have hne : E.members ≠ 1 := fun h => halone (.inl h)
    have : (E.view 0).members = E.members := rfl
    simp only at ha ⊢
    omega
  | some l =>
    rw [hlist] at ha
    have hne : l.length ≠ 1 := fun h => halone (.inr (by rw [hlist, Option.map_some, h]))
    simp only at ha ⊢
    omega

theorem mem_ins_gather (ha : a < E.participants) (halone : ¬E.Alone E.list)
    (hb : b < E.participants) :
    E.elt b ∈ E.ins a .gather ↔ ∃ B, (gatherPlan E.participants b).send = some (a, B) := by
  have hn := one_lt halone ha
  rw [ins, inPeers, mem_map]
  constructor
  · rintro ⟨⟨s, B⟩, hmem, hsb⟩
    obtain rfl := elt_inj s (recv_lt hn ha hmem).1 b hb hsb
    exact ⟨B, (recv_iff_send hn ha hb).mp hmem⟩
  · rintro ⟨B, hsend⟩
    exact ⟨(b, B), (recv_iff_send hn ha hb).mpr hsend, rfl⟩

theorem mem_outs_gather (hb : b < E.participants) (halone : ¬E.Alone E.list)
    (ha : a < E.participants) :
    E.elt a ∈ E.outs b .gather ↔ ∃ B, (gatherPlan E.participants b).send = some (a, B) := by
  have hn := one_lt halone hb
  rw [outs, outPeers, mem_map]
  constructor
  · rintro ⟨⟨d, B⟩, hmem, hda⟩
    have hsend := Option.mem_toList.mp hmem
    obtain rfl := elt_inj d (send_lt hn hb hsend) a ha hda
    exact ⟨B, hsend⟩
  · rintro ⟨B, hsend⟩
    exact ⟨(a, B), Option.mem_toList.mpr hsend, rfl⟩

theorem mem_ins_bcast (ha : a < E.participants) (hb : b < E.participants) :
    E.elt b ∈ E.ins a .bcast ↔ Hangs b a := by
  rw [ins, inPeers, Option.mem_toList]
  exact target_eq elt_inj ha hb

theorem mem_outs_bcast (hb : b < E.participants) (ha : a < E.participants) :
    E.elt a ∈ E.outs b .bcast ↔ Hangs b a := by
  rw [outs, outPeers, mem_reverse]
  exact mem_sources elt_inj hb ha

theorem mem_ins_iff (halone : ¬E.Alone E.list) (ha : a < E.participants)
    (hb : b < E.participants) : E.elt b ∈ E.ins a op ↔ E.elt a ∈ E.outs b op := by
  cases op with
  | gather => rw [mem_ins_gather ha halone hb, mem_outs_gather hb halone ha]
  | bcast => rw [mem_ins_bcast ha hb, mem_outs_bcast hb ha]

theorem count_outs_le (hb : b < E.participants) (q : Peer) : (E.outs b op).count q ≤ 1 := by
  cases op with
  | gather =>
    have hlen : (E.outs b .gather).length ≤ 1 := by
      rw [outs, outPeers, length_map]
      cases (gatherPlan ((E.view 0).listLen E.list) b).send <;> simp
    exact count_le_length.trans hlen
  | bcast =>
    have hnodup := (nodup_append.mp (fanIn_nodup elt_inj hb)).1
    rw [outs, outPeers, count_reverse]
    exact nodup_iff_count_le_one.mp hnodup q

theorem exists_of_mem_outs (halone : ¬E.Alone E.list) (hb : b < E.participants) {q : Peer}
    (h : q ∈ E.outs b op) : ∃ a < E.participants, E.elt a = q := by
  cases op with
  | gather =>
    rw [outs, outPeers, mem_map] at h
    obtain ⟨⟨d, B⟩, hmem, rfl⟩ := h
    exact ⟨d, send_lt (one_lt halone hb) hb (Option.mem_toList.mp hmem), rfl⟩
  | bcast =>
    rw [outs, outPeers, mem_reverse] at h
    obtain ⟨a, ha, hpeer, -⟩ := exists_of_mem_fanIn hb (mem_append_left _ h)
    exact ⟨a, ha, hpeer⟩

variable (E)

def heard (x : Voter) (op : Op) (q : Peer) : ℕ :=
  match x.phase, op with
  | .idle, _ => 0
  | .barrier .gather, _ => 0
  | .barrier .bcast, .gather => (E.ins x.myelt .gather).count q
  | .barrier .bcast, .bcast => 0
  | .await .gather awaited, .gather => (E.ins x.myelt .gather).count q - awaited.count q
  | .await .gather _, .bcast => 0
  | .await .bcast _, .gather => (E.ins x.myelt .gather).count q
  | .await .bcast awaited, .bcast => (E.ins x.myelt .bcast).count q - awaited.count q
  | .send .gather _, .gather => (E.ins x.myelt .gather).count q
  | .send .gather _, .bcast => 0
  | .send .bcast _, op => (E.ins x.myelt op).count q
  | .done, op => (E.ins x.myelt op).count q

def sent (x : Voter) (op : Op) (q : Peer) : ℕ :=
  match x.phase, op with
  | .idle, _ => 0
  | .barrier .gather, _ => 0
  | .barrier .bcast, .gather => (E.outs x.myelt .gather).count q
  | .barrier .bcast, .bcast => 0
  | .await .gather _, _ => 0
  | .await .bcast _, .gather => (E.outs x.myelt .gather).count q
  | .await .bcast _, .bcast => 0
  | .send .gather todo, .gather => (E.outs x.myelt .gather).count q - todo.count q
  | .send .gather _, .bcast => 0
  | .send .bcast _, .gather => (E.outs x.myelt .gather).count q
  | .send .bcast todo, .bcast => (E.outs x.myelt .bcast).count q - todo.count q
  | .done, op => (E.outs x.myelt op).count q

def Fits (x : Voter) : Prop :=
  match x.phase with
  | .await op awaited => ∀ q, awaited.count q ≤ (E.ins x.myelt op).count q
  | .send op todo => ∀ q, todo.count q ≤ (E.outs x.myelt op).count q
  | _ => True

def RightOn (ballot : ℕ → Int32) (B : Block) : Prop :=
  ∀ i, B.offset ≤ i → i < B.offset + B.len → ballot i = E.voteOf i

end Election

def VotePhase.inBcast : VotePhase → Bool
  | .barrier .bcast => true
  | .await .bcast _ => true
  | .send .bcast _ => true
  | .done => true
  | _ => false

def VotePhase.passed : VotePhase → Op → Bool
  | .await o _, op => op = o || op = .gather
  | .send o _, op => op = o || op = .gather
  | .barrier o, op => o = .bcast && op = .gather
  | .done, _ => true
  | .idle, _ => false

namespace Election

structure Votes (E : Election) (x : Voter) : Prop where
  lt : x.myelt < E.participants
  own : x.ballot x.myelt = E.voteOf x.myelt
  fits : E.Fits x
  right : ∀ op, ∀ b < E.participants,
    0 < E.heard x op (E.elt b) + (x.eventq op).count (E.elt b) → E.RightOn x.ballot (E.block b op)
  noMd : x.phase.inBcast = false → x.md .bcast = none
  bcastMd : x.phase.inBcast → ∀ q ∈ E.ins x.myelt .bcast, ∃ md, x.md .bcast = some md ∧
    md.source = some q ∧ md.length = E.participants ∧
      0 < md.threshold + E.heard x .bcast q + (x.eventq .bcast).count q

variable {E : Election} {a b : ℕ} {op : Op} {x x' : Voter} {todo : List Peer} {msg : VoteMsg}

theorem sent_le (hx : x.myelt < E.participants) (q : Peer) : E.sent x op q ≤ 1 := by
  have hle : (E.outs x.myelt op).count q ≤ 1 := count_outs_le hx q
  unfold sent
  split <;> omega

theorem mem_outs_of_sent {q : Peer} (h : 0 < E.sent x op q) : q ∈ E.outs x.myelt op := by
  apply count_pos_iff.mp
  unfold sent at h
  split at h <;> omega

theorem Votes.right_block (hx : E.Votes x) (halone : ¬E.Alone E.list) (op : Op)
    (hins : ∀ q ∈ E.ins x.myelt op, 0 < E.heard x op q)
    (hgather : ∀ q ∈ E.ins x.myelt .gather, 0 < E.heard x .gather q) :
    E.RightOn x.ballot (E.block x.myelt op) := by
  have hn := one_lt halone hx.lt
  -- a block that was received in the gather
  have hrecv : ∀ s B, (s, B) ∈ (gatherPlan E.participants x.myelt).recvs →
      E.RightOn x.ballot B := by
    intro s B hmem
    have hs := (recv_lt hn hx.lt hmem).1
    have hsend := (recv_iff_send hn hx.lt hs).mp hmem
    have hin := (mem_ins_gather hx.lt halone hs).mpr ⟨B, hsend⟩
    have hright := hx.right .gather s hs (Nat.add_pos_left (hgather _ hin) _)
    have hblock : E.block s .gather = B := by
      have : (gatherPlan ((E.view 0).listLen E.list) s).send = some (x.myelt, B) := hsend
      rw [block, outBlock, this]
      rfl
    rwa [hblock] at hright
  cases op with
  | gather =>
    intro i hlo hhi
    have hblock : E.block x.myelt .gather =
        ((gatherPlan E.participants x.myelt).send.map Prod.snd).getD ⟨0, 0⟩ := rfl
    rw [hblock] at hlo hhi
    cases hsend : (gatherPlan E.participants x.myelt).send with
    | none =>
      rw [hsend] at hhi
      exact absurd hhi (Nat.not_lt_zero i)
    | some y =>
      rw [hsend] at hlo hhi
      rcases recvs_cover_send hn hx.lt hsend hlo hhi with rfl | ⟨⟨s, B⟩, hmem, hi⟩
      · exact hx.own
      · exact hrecv s B hmem i hi.1 hi.2
  | bcast =>
    by_cases hzero : x.myelt = 0
    · intro i _ hhi
      have hi : i < E.participants := by
        have : (E.block x.myelt .bcast).offset + (E.block x.myelt .bcast).len =
            0 + E.participants := rfl
        omega
      rcases recvs_cover_root hn hi with rfl | ⟨⟨s, B⟩, hmem, hi⟩
      · rw [← hzero]
        exact hx.own
      · rw [← hzero] at hmem
        exact hrecv s B hmem i hi.1 hi.2
    · obtain ⟨b, hb⟩ := exists_hangs hzero
      have hbn := hb.lt.trans hx.lt
      have hin := (mem_ins_bcast hx.lt hbn).mpr hb
      exact hx.right .bcast b hbn (Nat.add_pos_left (hins _ hin) _)

theorem heard_gather_of_inBcast (h : x.phase.inBcast) (q : Peer) :
    E.heard x .gather q = (E.ins x.myelt .gather).count q := by
  unfold inBcast at h
  unfold heard
  split at h <;> simp_all

theorem heard_of_send (h : x.phase = .send op todo) (q : Peer) :
    E.heard x op q = (E.ins x.myelt op).count q ∧
      E.heard x .gather q = (E.ins x.myelt .gather).count q := by
  cases op <;> simp [heard, h]

structure Moves (E : Election) (x x' : Voter) (out : Op → Peer → ℕ) : Prop where
  votes : E.Votes x'
  busy : x'.phase ≠ .idle
  takes : ∀ op q, E.heard x' op q + (x'.eventq op).count q ≤ E.heard x op q + (x.eventq op).count q
  tells : ∀ op q, E.sent x' op q = E.sent x op q + out op q

section
variable (hx : E.Votes x)
include hx

theorem Votes.setPhase {ph : VotePhase} {out : Op → Peer → ℕ} (hbusy : ph ≠ .idle)
    (hin : ph.inBcast = x.phase.inBcast) (hfits : E.Fits { x with phase := ph })
    (hheard : ∀ op q, E.heard { x with phase := ph } op q = E.heard x op q)
    (hsent : ∀ op q, E.sent { x with phase := ph } op q = E.sent x op q + out op q) :
    E.Moves x { x with phase := ph } out := by
  refine ⟨⟨hx.lt, hx.own, hfits, ?_, ?_, ?_⟩, hbusy, ?_, hsent⟩
  · intro op b hb
    rw [hheard]
    exact hx.right op b hb
  · intro h
    exact hx.noMd (hin ▸ h)
  · intro h q hq
    rw [hheard]
    exact hx.bcastMd (hin ▸ h) q hq
  · intro op q
    rw [hheard]

theorem Votes.pass (hph : x.phase = .barrier op) :
    E.Moves x { x with phase := .await op (E.ins x.myelt op) } fun _ _ => 0 := by
  refine hx.setPhase nofun ?_ ?_ ?_ ?_
  · cases op <;> simp [inBcast, hph]
  · exact fun _ => le_refl _
  · intro op' q
    cases op <;> cases op' <;> simp [heard, hph]
  · intro op' q
    cases op <;> cases op' <;> simp [sent, hph]

theorem Votes.go (hph : x.phase = .await op []) :
    E.Moves x { x with phase := .send op (E.outs x.myelt op) } fun _ _ => 0 := by
  refine hx.setPhase nofun ?_ ?_ ?_ ?_
  · cases op <;> simp [inBcast, hph]
  · exact fun _ => le_refl _
  · intro op' q
    cases op <;> cases op' <;> simp [heard, hph]
  · intro op' q
    cases op <;> cases op' <;> simp [sent, hph]

theorem Votes.put {q : Peer} (hph : x.phase = .send op (q :: todo)) :
    E.Moves x { x with phase := .send op todo } fun op' r =>
      if op' = op then [q].count r else 0 := by
  have hfits := hx.fits
  simp only [Fits, hph] at hfits
  refine hx.setPhase nofun ?_ ?_ ?_ ?_
  · cases op <;> simp [inBcast, hph]
  · intro r
    exact (count_le_count_cons ..).trans (hfits r)
  · intro op' q
    cases op <;> cases op' <;> simp [heard, hph]
  · intro op' r
    have hle := hfits r
    rw [count_cons_add] at hle
    cases op <;> cases op' <;> simp only [sent, hph, count_cons_add q todo, reduceCtorEq, if_false,
      if_true] <;> omega

theorem Votes.finish (hph : x.phase = .send .bcast []) :
    E.Moves x { x with phase := .done } fun _ _ => 0 := by
  refine hx.setPhase nofun ?_ ?_ ?_ ?_
  · simp [inBcast, hph]
  · trivial
  · intro op' q
    cases op' <;> simp [heard, hph]
  · intro op' q
    cases op' <;> simp [sent, hph]

theorem Votes.next (hph : x.phase = .send .gather []) :
    E.Moves x (x.setup (E.view 0) E.list .bcast) fun _ _ => 0 := by
  have hheard : ∀ op q, E.heard (x.setup (E.view 0) E.list .bcast) op q = E.heard x op q := by
    intro op q
    cases op <;> simp [heard, hph, setup]
  refine ⟨⟨hx.lt, hx.own, trivial, ?_, nofun, ?_⟩, nofun, ?_, ?_⟩
  · intro op b hb h
    rw [hheard] at h
    exact hx.right op b hb h
  · intro _ q hq
    have hne : (E.view 0).inPeers E.list x.myelt .bcast ≠ [] := ne_nil_of_mem hq
    have htarget : ((E.view 0).calcFanIn E.list x.myelt).2 = some q := Option.mem_toList.mp hq
    refine ⟨(E.view 0).setupMd E.list x.myelt .bcast, ?_, htarget, rfl, ?_⟩
    · simp [setup, if_neg hne]
    · have : 0 < ((E.view 0).setupMd E.list x.myelt .bcast).threshold := length_pos_of_mem hq
      omega
  · intro op q
    rw [hheard]
    exact le_refl _
  · intro op q
    cases op <;> simp [sent, hph, setup]

end

theorem count_awaited {w : List Peer} {q : Peer} (r : Peer) :
    (if q ∈ w then w.erase q else w).count r ≤ w.count r ∧
      w.count r ≤ (if q ∈ w then w.erase q else w).count r + [q].count r ∧
      (r = q → (if q ∈ w then w.erase q else w).count r < w.count r ∨ w.count r = 0) := by
  split_ifs with hq
  · have hcount := count_erase_add hq r
    refine ⟨by omega, by omega, ?_⟩
    rintro rfl
    rw [count_singleton_self] at hcount
    exact .inl (by omega)
  · refine ⟨le_refl _, by omega, ?_⟩
    rintro rfl
    exact .inr (count_eq_zero.mpr hq)

theorem Votes.get (hx : E.Votes x) (h : x.get = some x') :
    E.Moves x x' (fun _ _ => 0) ∧ x'.myelt = x.myelt ∧ x'.phase.passed = x.phase.passed ∧
      x'.phase.inBcast = x.phase.inBcast := by
  unfold Voter.get at h
  split at h
  next op a awaited hph =>
    split at h
    next q rest hq =>
      cases h
      have hfits := hx.fits
      simp only [Fits, hph] at hfits
      have hcount := @count_awaited (a :: awaited) q
      generalize (if q ∈ a :: awaited then (a :: awaited).erase q else a :: awaited) = w at hcount
      have htakes : ∀ op' r, E.heard { x with
          eventq := update x.eventq op rest, phase := .await op w } op' r +
          (update x.eventq op rest op').count r ≤
            E.heard x op' r + (x.eventq op').count r := by
        intro op' r
        have hle := hcount r
        by_cases hop : op' = op
        · subst hop
          rw [update_self, hq, count_cons_add q rest]
          cases op' <;> simp only [heard, hph] <;> omega
        · rw [update_of_ne hop]
          cases op <;> cases op' <;> simp [heard, hph] at hop ⊢
      have hin : (await op w).inBcast = x.phase.inBcast := by
        cases op <;> simp [inBcast, hph]
      refine ⟨⟨⟨hx.lt, hx.own, ?_, ?_, ?_, ?_⟩, nofun, htakes, ?_⟩, rfl, ?_, hin⟩
      · intro r
        exact (hcount r).1.trans (hfits r)
      · intro op' b hb hpos
        have := htakes op' (E.elt b)
        exact hx.right op' b hb (by simp only at hpos; omega)
      · exact fun h => hx.noMd (hin ▸ h)
      · intro hin r hr
        cases op with
        | gather => simp [inBcast] at hin
        | bcast =>
          obtain ⟨md, hmd, hsource, hlength, hpos⟩ :=
            hx.bcastMd (by simp [inBcast, hph]) r hr
          refine ⟨md, hmd, hsource, hlength, ?_⟩
          have hin : 0 < (E.ins x.myelt .bcast).count r := count_pos_iff.mpr hr
          have hle := hcount r
          have := hfits r
          simp only [heard, hph, update_self, hq, count_cons_add q rest] at hpos ⊢
          by_cases hrq : r = q
          · have := hle.2.2 hrq
            omega
          · have : [q].count r = 0 := count_eq_zero.mpr (by simpa using hrq)
            omega
      · intro op' r
        cases op <;> cases op' <;> simp [sent, hph]
      · rw [hph]
        rfl
    · cases h
  · cases h

structure Holds (E : Election) (b : ℕ) (msg : VoteMsg) : Prop where
  offset : msg.offset = (E.block b msg.op).offset
  length : msg.data.length = (E.block b msg.op).len
  data : ∀ i < msg.data.length, msg.data.getD i 0 = E.voteOf (msg.offset + i)

theorem Holds.write (h : E.Holds b msg) (ballot : ℕ → Int32) (i : ℕ) :
    write ballot msg.offset msg.data i = E.voteOf i ∨
      write ballot msg.offset msg.data i = ballot i ∧ ¬((E.block b msg.op).offset ≤ i ∧
          i < (E.block b msg.op).offset + (E.block b msg.op).len) := by
  unfold Voter.write
  rw [← h.offset, ← h.length]
  split_ifs with hi
  · left
    rw [h.data (i - msg.offset) (by omega)]
    congr 1
    omega
  · exact .inr ⟨rfl, hi⟩

theorem RightOn.write (h : E.Holds b msg) {ballot : ℕ → Int32} {B : Block}
    (hB : E.RightOn ballot B) : E.RightOn (write ballot msg.offset msg.data) B := by
  intro i hlo hhi
  rcases h.write ballot i with hi | ⟨hi, -⟩
  · exact hi
  · rw [hi]
    exact hB i hlo hhi

theorem Holds.right (h : E.Holds b msg) (ballot : ℕ → Int32) :
    E.RightOn (Voter.write ballot msg.offset msg.data) (E.block b msg.op) := by
  intro i hlo hhi
  rcases h.write ballot i with hi | ⟨-, hi⟩
  · exact hi
  · exact absurd ⟨hlo, hhi⟩ hi

theorem Holds.place (h : E.Holds b msg) : msg.op.place msg = msg.offset := by
  cases hop : msg.op with
  | gather => rfl
  | bcast =>
    have hoffset := h.offset
    rw [hop] at hoffset
    exact hoffset.symm

theorem Votes.deposit (hx : E.Votes x) (hb : b < E.participants) (hmsg : E.Holds b msg)
    (htakes : x.takes E.type msg.op (E.elt b) msg) : E.Votes (x.deposit msg.op (E.elt b) msg) := by
  have hheard : ∀ op q, E.heard (x.deposit msg.op (E.elt b) msg) op q = E.heard x op q :=
    fun _ _ => rfl
  have hballot : (x.deposit msg.op (E.elt b) msg).ballot =
      write x.ballot msg.offset msg.data := by
    rw [← hmsg.place]
    rfl
  refine ⟨hx.lt, ?_, hx.fits, ?_, ?_, ?_⟩
  · rw [hballot]
    rcases hmsg.write x.ballot x.myelt with hi | ⟨hi, -⟩
    · exact hi
    · exact hi.trans hx.own
  · intro op c hc hpos
    rw [hballot]
    by_cases hop : op = msg.op
    · subst hop
      by_cases hcb : E.elt c = E.elt b
      · rw [elt_inj c hc b hb hcb]
        exact hmsg.right x.ballot
      · apply RightOn.write hmsg
        apply hx.right msg.op c hc
        have hne : [E.elt b].count (E.elt c) = 0 := count_eq_zero.mpr (by simpa using hcb)
        simp only [Voter.deposit, update_self, count_append, hne] at hpos
        exact hpos
    · apply RightOn.write hmsg
      apply hx.right op c hc
      rw [hheard] at hpos
      simpa [Voter.deposit, update_of_ne hop] using hpos
  · intro hin
    have hnone := hx.noMd hin
    have hop : Op.bcast ≠ msg.op := by
      intro h
      rw [← h, takes, hnone] at htakes
      cases htakes
    simp only [Voter.deposit, update_of_ne hop]
    exact hnone
  · intro hin q hq
    obtain ⟨md, hmd, hsource, hlength, hpos⟩ := hx.bcastMd hin q hq
    by_cases hop : Op.bcast = msg.op
    · -- the descriptor is for one sender, whose event is now in the queue
      rw [← hop] at htakes ⊢
      have hfrom : q = E.elt b := by
        simp [takes, hmd, Md.accepts, hsource] at htakes
        exact htakes.1.1.1
      refine ⟨{ md with threshold := md.threshold - 1 }, ?_, hsource, hlength, ?_⟩
      · simp [Voter.deposit, hmd]
      · simp only [Voter.deposit, update_self, count_append, hfrom,
          count_singleton_self]
        omega
    · refine ⟨md, ?_, hsource, hlength, ?_⟩
      · simpa [Voter.deposit, update_of_ne hop] using hmd
      · rw [hheard]
        simpa [Voter.deposit, update_of_ne hop] using hpos

end Election
end Cplant.Comm
