import Cplant.Comm.BarrierTally
import Cplant.Foundations.Rounds

/-!
# What a return from the server barrier says

The partners of one barrier are the neighbours in a tree. When every message that a process
takes in the barrier was sent by the partner in the same barrier, a process that returns knows
that all the others are in it: its target was released, and so on up to the root, which has
heard from all its sources, which have heard from theirs.
-/
namespace Cplant.Comm
open List Calls
variable {ι : Type*} {q : Peer}

namespace Barrier
variable {b : Barrier} {q r : Peer}

theorem told_le (b : Barrier) (q : Peer) : b.told q ≤ (b.inPeers ++ b.outPeer.toList).count q := by
  rw [told, count_append]
  split <;> omega

/-- A process reports to its target and releases its sources after it has heard from all of
its sources. -/
theorem heard_in_of_told (h : 0 < b.told q) (hr : r ∈ b.inPeers) : 0 < b.heard r := by
  have hpos := count_pos_iff.mpr hr
  unfold told at h
  unfold heard
  split at h <;> omega

theorem heard_out_of_told (h : 0 < b.told q) (hq : b.outPeer ≠ some q)
    (hr : b.outPeer = some r) : 0 < b.heard r := by
  have hpos : 0 < b.outPeer.toList.count r := by simp [hr]
  have hzero : b.outPeer.toList.count q = 0 := count_eq_zero.mpr (by simpa using hq)
  unfold told at h
  unfold heard
  split at h <;> omega

end Barrier

namespace Server
variable (x : Server ι) (i : ι)

def Entered : Prop := i ∈ x.past ∨ x.cur = some i

def Heard (q : Peer) : Prop := i ∈ x.past ∨ x.cur = some i ∧ 0 < x.barrier.heard q

def Told (q : Peer) : Prop := i ∈ x.past ∨ x.cur = some i ∧ 0 < x.barrier.told q

variable {x i}

instance [DecidableEq ι] : Decidable (x.Entered i) := inferInstanceAs (Decidable (_ ∨ _))

theorem Told.entered (h : x.Told i q) : x.Entered i := h.imp id And.left

end Server

/-- One barrier over `peer 0`, ..., `peer (n - 1)`. `agrees a` says that the process of index
`a` performs the barrier `i` over these peers. -/
structure Round (x : ℕ → Server ι) (i : ι) (peer : ℕ → Peer) (n : ℕ) (agrees : ℕ → Prop) :
    Prop where
  inj : ∀ a < n, ∀ b < n, peer a = peer b → a = b
  partners : ∀ a < n, agrees a → (x a).cur = some i →
    (x a).barrier.inPeers = (fanInLoop peer n a n 1).1 ∧
      (x a).barrier.outPeer = (fanInLoop peer n a n 1).2
  paired : ∀ a < n, ∀ b < n, Hangs a b ∨ Hangs b a → agrees a → (x a).Heard i (peer b) →
    agrees b ∧ (x b).Told i (peer a)

namespace Round
variable {x : ℕ → Server ι} {i : ι} {peer : ℕ → Peer} {n : ℕ} {agrees : ℕ → Prop}

section
variable {a c : ℕ} (h : Round x i peer n agrees) (ha : a < n) (hag : agrees a)
include h ha hag

theorem heard_sources (ht : (x a).Told i q) (hc : c < n) (hac : Hangs a c) :
    (x a).Heard i (peer c) := by
  refine ht.imp id fun ⟨hcur, htold⟩ => ⟨hcur, ?_⟩
  apply Barrier.heard_in_of_told htold
  rw [(h.partners a ha hag hcur).1]
  exact (mem_sources h.inj ha hc).mpr hac

theorem heard_target (hc : c < n) (hac : Hangs a c) (ht : (x a).Told i (peer c)) {p : ℕ}
    (hpa : Hangs p a) : (x a).Heard i (peer p) := by
  refine ht.imp id fun ⟨hcur, htold⟩ => ⟨hcur, ?_⟩
  have hout := (h.partners a ha hag hcur).2
  apply Barrier.heard_out_of_told htold
  · rw [hout]
    intro hpc
    exact lt_asymm hac.lt ((target_eq h.inj ha hc).mp hpc).lt
  · rw [hout]
    exact (target_eq h.inj ha (hpa.lt.trans ha)).mpr hpa

theorem all_entered (hret : i ∈ (x a).past) {b : ℕ} (hb : b < n) : agrees b ∧ (x b).Entered i := by
  -- the process is past its fan-in
  let reported (e : ℕ) : Prop :=
    agrees e ∧ (x e).Entered i ∧ ∀ c < n, Hangs e c → (x e).Heard i (peer c)
  let released (e : ℕ) : Prop := reported e ∧ ∀ p, Hangs p e → (x e).Heard i (peer p)
  have hdown : ∀ p c, Hangs p c → c < n → reported p → reported c := by
    intro p c hpc hc hp
    obtain ⟨hagc, htold⟩ := h.paired p (hpc.lt.trans hc) c hc (.inl hpc) hp.1 (hp.2.2 c hc hpc)
    exact ⟨hagc, htold.entered, fun d hd hcd => h.heard_sources hc hagc htold hd hcd⟩
  have hup : ∀ p c, Hangs p c → c < n → released c → released p := by
    intro p c hpc hc hr
    have hp := hpc.lt.trans hc
    obtain ⟨hagp, htold⟩ := h.paired c hc p hp (.inr hpc) hr.1.1 (hr.2 p hpc)
    exact ⟨⟨hagp, htold.entered, fun d hd hcd => h.heard_sources hp hagp htold hd hcd⟩,
      fun _ hgp => h.heard_target hp hagp hc hpc htold hgp⟩
  have hra : released a := ⟨⟨hag, .inl hret, fun _ _ _ => .inl hret⟩, fun _ _ => .inl hret⟩
  have hall : reported b := pass_around hup hdown And.left ha hb hra
  exact ⟨hall.1, hall.2.1⟩

end
end Round

structure Group where
  members : ℕ
  peer : ℕ → Peer
  inj : ∀ a < members, ∀ b < members, peer a = peer b → a = b

namespace Group
variable (g : Group)

def view (rank : ℕ) : View := ⟨g.members, g.peer, rank⟩

def rank? (p : Peer) : Option ℕ := (range g.members).find? fun r => g.peer r = p

def IsList : Option (List ℤ) → Prop
  | some l => l.Nodup ∧ ∀ r ∈ l, 0 ≤ r ∧ r < g.members
  | none => True

end Group

def takesPart (list : Option (List ℤ)) (rank : ℕ) : Bool :=
  match list with
  | some l => (rank : ℤ) ∈ l
  | none => true

/-- A group and the barriers that its members perform. `ι` names the barriers: one that is
performed again has another name. -/
structure Program (ι : Type*) extends Group where
  list : ι → Option (List ℤ)
  isList : ∀ i, toGroup.IsList (list i)
  barriers : ℕ → List ι
  sameOrder : ∀ r < members, ∀ q < members,
    SameOrder (fun i => takesPart (list i) r && takesPart (list i) q) (barriers r) (barriers q)

def Program.calls (P : Program ι) : Calls ι where
  view := fun p => P.view ((P.rank? p).getD 0)
  list := fun _ => P.list
  prog := fun p => ((P.rank? p).map P.barriers).getD []

def eltOf (list : Option (List ℤ)) (rank : ℕ) : ℕ :=
  match list with
  | some l => l.idxOf (rank : ℤ)
  | none => rank

namespace Group
variable {g : Group} {list : Option (List ℤ)} {r q : ℕ}

section
variable (hr : r < g.members)
include hr

theorem rank?_peer : g.rank? (g.peer r) = some r := by
  cases hfind : g.rank? (g.peer r) with
  | none =>
    have := find?_eq_none.mp hfind r (mem_range.mpr hr)
    simp at this
  | some q =>
    have hq := mem_range.mp (mem_of_find?_eq_some hfind)
    have hpeer : g.peer q = g.peer r := of_decide_eq_true (find?_some hfind :)
    rw [g.inj q hq r hr hpeer]

theorem eltOf_lt (hpart : takesPart list r) (k : ℕ) : eltOf list r < (g.view k).listLen list := by
  cases list with
  | none => exact hr
  | some l => exact idxOf_lt_length_of_mem (of_decide_eq_true hpart)

theorem memberByRank_eq (k : ℕ) : (g.view k).memberByRank r = g.peer r := by
  have : ¬((r : ℤ) < 0 ∨ (r : ℤ) ≥ (g.view k).members) := by
    simp only [view]
    omega
  rw [View.memberByRank, if_neg this]
  rfl

theorem nidpid_eltOf (hpart : takesPart list r) (k : ℕ) :
    (g.view k).nidpid list (eltOf list r) = g.peer r := by
  cases list with
  | none => exact memberByRank_eq hr k
  | some l =>
    have hmem : (r : ℤ) ∈ l := of_decide_eq_true hpart
    rw [View.nidpid, eltOf, getD_eq_getElem _ _ (idxOf_lt_length_of_mem hmem), getElem_idxOf]
    exact memberByRank_eq hr k

end

theorem exists_rank (hlist : g.IsList list) {k e : ℕ} (he : e < (g.view k).listLen list) :
    ∃ r < g.members, takesPart list r ∧ eltOf list r = e := by
  cases list with
  | none => exact ⟨e, he, rfl, rfl⟩
  | some l =>
    have hmem := getElem_mem (l := l) he
    obtain ⟨hnonneg, hlt⟩ := hlist.2 _ hmem
    have hcast : ((l[e].toNat : ℕ) : ℤ) = l[e] := Int.toNat_of_nonneg hnonneg
    refine ⟨l[e].toNat, by omega, ?_, ?_⟩
    · rw [takesPart, hcast]
      exact decide_eq_true hmem
    · rw [eltOf, hcast]
      exact hlist.1.idxOf_getElem e he

theorem nidpid_inj (hlist : g.IsList list) (k : ℕ) :
    ∀ a < (g.view k).listLen list, ∀ b < (g.view k).listLen list,
      (g.view k).nidpid list a = (g.view k).nidpid list b → a = b := by
  intro a ha b hb hab
  obtain ⟨r, hr, hpart, rfl⟩ := exists_rank hlist ha
  obtain ⟨q, hq, hqpart, rfl⟩ := exists_rank hlist hb
  rw [nidpid_eltOf hr hpart, nidpid_eltOf hq hqpart] at hab
  rw [g.inj r hr q hq hab]

def Alone (g : Group) (list : Option (List ℤ)) : Prop :=
  g.members = 1 ∨ list.map length = some 1

theorem prologue_eq (hlist : g.IsList list) (halone : ¬g.Alone list) (r : ℕ) :
    (g.view r).prologue list = if takesPart list r then
        let found := (g.view r).calcFanIn list (eltOf list r)
        .partners found.1 found.2
      else .ok := by
  have hskip : ¬((g.view r).members = 1 ∨ list.map length = some 1) := halone
  rw [View.prologue, if_neg hskip]
  cases list with
  | none => rfl
  | some l =>
    rw [View.getMyRelativeRank, View.relativeRankFrom_eq hlist.2]
    simp only [takesPart, decide_eq_true_eq, zero_add]
    by_cases hmem : (r : ℤ) ∈ l
    · rw [if_pos hmem, if_pos (show ((g.view r).myGroupRank : ℤ) ∈ l from hmem)]
      rfl
    · rw [if_neg hmem, if_neg (show ¬((g.view r).myGroupRank : ℤ) ∈ l from hmem)]

theorem prologue_alone (halone : g.Alone list) (r : ℕ) : (g.view r).prologue list = .ok :=
  if_pos halone

theorem eq_of_alone (hlist : g.IsList list) (halone : g.Alone list) (hr : r < g.members)
    (hpart : takesPart list r) (hq : q < g.members) (hqpart : takesPart list q) : q = r := by
  rcases halone with hone | hone
  · omega
  · cases list with
    | none => cases hone
    | some l =>
      obtain ⟨x, rfl⟩ := length_eq_one_iff.mp (Option.some.inj hone)
      have hx := mem_singleton.mp (of_decide_eq_true hpart)
      have hx' := mem_singleton.mp (of_decide_eq_true hqpart)
      omega

end Group
namespace Program
variable {P : Program ι} {s : Servers ι} {i : ι} {r q : ℕ}

section
variable (hr : r < P.members)
include hr

theorem view_peer : P.calls.view (P.peer r) = P.view r := by simp [calls, Group.rank?_peer hr]

theorem prog_peer : P.calls.prog (P.peer r) = P.barriers r := by simp [calls, Group.rank?_peer hr]

theorem prologue_peer (halone : ¬P.Alone (P.list i)) (hpart : takesPart (P.list i) r) :
    (P.calls.view (P.peer r)).prologue (P.list i) =
      .partners ((P.view r).calcFanIn (P.list i) (eltOf (P.list i) r)).1
        ((P.view r).calcFanIn (P.list i) (eltOf (P.list i) r)).2 := by
  rw [view_peer hr]
  exact (Group.prologue_eq (P.isList i) halone r).trans (if_pos hpart)

theorem links_eq_nil (h : ¬(¬P.Alone (P.list i) ∧ takesPart (P.list i) r)) :
    P.calls.links (P.peer r) i = [] := by
  have hok : (P.calls.view (P.peer r)).prologue (P.calls.list (P.peer r) i) = .ok := by
    rw [view_peer hr]
    by_cases halone : P.Alone (P.list i)
    · exact Group.prologue_alone halone r
    · exact (Group.prologue_eq (P.isList i) halone r).trans (if_neg fun hpart => h ⟨halone, hpart⟩)
  rw [links, hok]

theorem mem_links (hq : q < P.members) : P.peer q ∈ P.calls.links (P.peer r) i ↔
      (¬P.Alone (P.list i) ∧ takesPart (P.list i) r) ∧ takesPart (P.list i) q ∧
        (Hangs (eltOf (P.list i) r) (eltOf (P.list i) q) ∨
          Hangs (eltOf (P.list i) q) (eltOf (P.list i) r)) := by
  by_cases h : ¬P.Alone (P.list i) ∧ takesPart (P.list i) r
  · rw [Calls.links_eq (prologue_peer hr h.1 h.2), and_iff_right h]
    have hinj := Group.nidpid_inj (P.isList i) r
    have he := Group.eltOf_lt hr h.2 r
    by_cases hqpart : takesPart (P.list i) q
    · have hpeer := Group.nidpid_eltOf hq hqpart r
      rw [and_iff_right hqpart, ← hpeer]
      exact mem_fanIn hinj he (Group.eltOf_lt hq hqpart r)
    · -- a partner has an index, and so takes part
      refine iff_of_false ?_ fun h => hqpart h.1
      intro hmem
      obtain ⟨a, ha, hpeer, -⟩ := exists_of_mem_fanIn he hmem
      obtain ⟨k, hk, hkpart, rfl⟩ := Group.exists_rank (P.isList i) ha
      rw [Group.nidpid_eltOf hk hkpart] at hpeer
      exact hqpart (P.inj k hk q hq hpeer ▸ hkpart)
  · rw [links_eq_nil hr h]
    exact iff_of_false not_mem_nil fun h' => h h'.1

theorem mem_links_comm (hq : q < P.members) :
    P.peer q ∈ P.calls.links (P.peer r) i ↔ P.peer r ∈ P.calls.links (P.peer q) i := by
  rw [mem_links hr hq, mem_links hq hr]
  tauto

theorem links_nodup (i : ι) : (P.calls.links (P.peer r) i).Nodup := by
  by_cases h : ¬P.Alone (P.list i) ∧ takesPart (P.list i) r
  · rw [links_eq (prologue_peer hr h.1 h.2)]
    exact fanIn_nodup (Group.nidpid_inj (P.isList i) r) (Group.eltOf_lt hr h.2 r)
  · rw [links_eq_nil hr h]
    exact nodup_nil

theorem linked_sameOrder (hq : q < P.members) :
    SameOrder (fun i => P.peer q ∈ P.calls.links (P.peer r) i) (P.calls.prog (P.peer r))
      (P.calls.prog (P.peer q)) := by
  rw [prog_peer hr, prog_peer hq]
  refine (P.sameOrder r hr q hq).mono fun i hi => ?_
  obtain ⟨⟨-, hrpart⟩, hqpart, -⟩ := (mem_links hr hq).mp (of_decide_eq_true hi)
  rw [hrpart, hqpart]
  rfl

end
section
variable (h : s.Tallied P.calls)
include h

theorem exists_before (hr : r < P.members) (hi : P.peer q ∈ P.calls.links (P.peer r) i)
    (hheard : (s.server (P.peer r)).Heard i (P.peer q)) :
    ∃ a b, a ++ i :: b <+: P.calls.prog (P.peer r) ∧
      a.countP (fun i => P.peer q ∈ P.calls.links (P.peer r) i) <
        P.calls.heard (P.peer r) (s.server (P.peer r)) (P.peer q) := by
  have horder := (h.sound (P.peer r)).inOrder
  rw [heard, sum_count_eq_countP (links_nodup hr)]
  rcases hheard with hpast | ⟨hcur, hpos⟩
  · obtain ⟨a, b, hab⟩ := append_of_mem hpast
    rw [hab, append_assoc, cons_append] at horder
    refine ⟨a, _, horder, ?_⟩
    rw [hab, countP_append, countP_cons, if_pos (decide_eq_true hi)]
    omega
  · rw [hcur] at horder
    exact ⟨_, [], horder, by omega⟩

theorem exists_told (hr : r < P.members) (hq : q < P.members) :
    ∃ a, a <+: P.calls.prog (P.peer q) ∧ (∀ i ∈ a, (s.server (P.peer q)).Told i (P.peer r)) ∧
      P.calls.told (P.peer q) (s.server (P.peer q)) (P.peer r) ≤
        a.countP fun i => P.peer q ∈ P.calls.links (P.peer r) i := by
  generalize hx : s.server (P.peer q) = x
  have hsound : P.calls.Sound (P.peer q) x := hx ▸ h.sound (P.peer q)
  simp only [mem_links_comm hr hq]
  rw [told, sum_count_eq_countP (links_nodup hq)]
  by_cases hpos : 0 < x.barrier.told (P.peer r)
  · obtain ⟨i, hcur⟩ : ∃ i, x.cur = some i := by
      apply Option.ne_none_iff_exists'.mp
      intro hnone
      rw [Barrier.told, hsound.outside.mp hnone] at hpos
      cases hpos
    have hlinks := links_eq (hsound.inside i hcur)
    have hle := x.barrier.told_le (P.peer r)
    rw [← hlinks, (links_nodup hq i).count] at hle
    have hmem : P.peer r ∈ P.calls.links (P.peer q) i := by
      by_contra hnot
      rw [if_neg hnot] at hle
      omega
    rw [if_pos hmem] at hle
    have horder := hsound.inOrder
    rw [hcur] at horder
    refine ⟨x.past ++ [i], horder, ?_, ?_⟩
    · intro j hj
      rcases mem_append.mp hj with hj | hj
      · exact .inl hj
      · obtain rfl := mem_singleton.mp hj
        exact .inr ⟨hcur, hpos⟩
    · rw [countP_append, countP_singleton, if_pos (decide_eq_true hmem)]
      omega
  · refine ⟨x.past, (prefix_append _ _).trans hsound.inOrder, fun i => .inl, ?_⟩
    omega

theorem told_of_heard (hr : r < P.members) (hq : q < P.members)
    (hi : P.peer q ∈ P.calls.links (P.peer r) i) (hheard : (s.server (P.peer r)).Heard i (P.peer q))
    : (s.server (P.peer q)).Told i (P.peer r) := by
  obtain ⟨a, b, hab, hlt⟩ := exists_before h hr hi hheard
  obtain ⟨a', ha', htold, hle⟩ := exists_told h hr hq
  have htally := h.tally (P.peer r) (P.peer q)
  apply htold
  have horder := (linked_sameOrder hr hq).restrict hab ha'
  exact horder.mem_of_countP_lt (decide_eq_true hi) (by omega)

theorem round (halone : ¬P.Alone (P.list i)) :
    Round (fun a => s.server ((P.view 0).nidpid (P.list i) a)) i ((P.view 0).nidpid (P.list i))
      ((P.view 0).listLen (P.list i)) fun _ => True where
  inj := Group.nidpid_inj (P.isList i) 0
  partners := by
    intro a ha _ hcur
    obtain ⟨r, hr, hpart, rfl⟩ := Group.exists_rank (P.isList i) ha
    rw [Group.nidpid_eltOf hr hpart] at hcur ⊢
    have hinside := (h.sound (P.peer r)).inside i hcur
    have hpartners := hinside.symm.trans (prologue_peer hr halone hpart)
    exact Prologue.partners.inj hpartners
  paired := by
    intro a ha b hb hangs _ hheard
    obtain ⟨r, hr, hpart, rfl⟩ := Group.exists_rank (P.isList i) ha
    obtain ⟨q, hq, hqpart, rfl⟩ := Group.exists_rank (P.isList i) hb
    rw [Group.nidpid_eltOf hr hpart, Group.nidpid_eltOf hq hqpart] at hheard ⊢
    exact ⟨trivial, told_of_heard h hr hq ((mem_links hr hq).mpr ⟨⟨halone, hpart⟩, hqpart, hangs⟩)
      hheard⟩

theorem entered_of_returned (hr : r < P.members) (hpart : takesPart (P.list i) r)
    (hret : i ∈ (s.server (P.peer r)).past) (hq : q < P.members) (hqpart : takesPart (P.list i) q) :
    (s.server (P.peer q)).Entered i := by
  by_cases halone : P.Alone (P.list i)
  · rw [Group.eq_of_alone (P.isList i) halone hr hpart hq hqpart]
    exact .inl hret
  · have hround := round h halone
    have hall := hround.all_entered (Group.eltOf_lt hr hpart 0) trivial
      (by rwa [Group.nidpid_eltOf hr hpart]) (Group.eltOf_lt hq hqpart 0)
    have hentered := hall.2
    rwa [Group.nidpid_eltOf hq hqpart] at hentered

end
end Program

/-- In no run does a participant return from a barrier before every participant has entered
it. -/
theorem server_barrier_safe (P : Program ι) {s : Servers ι}
    (h : Reaches (Servers.step P.calls) (fun _ _ => True) Servers.init s) :
    ∀ i, ∀ r < P.members, takesPart (P.list i) r → i ∈ (s.server (P.peer r)).past →
      ∀ q < P.members, takesPart (P.list i) q → (s.server (P.peer q)).Entered i :=
  fun _ _ hr hpart hret _ hq hqpart =>
    Program.entered_of_returned (Servers.tallied h) hr hpart hret hq hqpart

def twoBarriers : Program ℕ where
  members := 3
  peer := fun r => ⟨Int32.ofNat r, 7⟩
  inj := by decide
  list := fun i => if i = 0 then none else some [2, 0]
  isList := by
    intro i
    by_cases hi : i = 0
    · rw [if_pos hi]
      trivial
    · rw [if_neg hi]
      exact ⟨by decide, by decide⟩
  barriers := fun r => if r = 1 then [0] else [0, 1]
  sameOrder := by decide

theorem server_barrier_safe_two :
    ∃ s, Reaches (Servers.step twoBarriers.calls) (fun _ _ => True) Servers.init s ∧
      1 ∈ (s.server (twoBarriers.peer 0)).past ∧ (s.server (twoBarriers.peer 2)).Entered 1 ∧
      (s.server (twoBarriers.peer 1)).Entered 0 := by
  let a : Peer := twoBarriers.peer 0
  let b : Peer := twoBarriers.peer 1
  let c : Peer := twoBarriers.peer 2
  refine exists_reaches_imp (P := fun s => 0 ∈ (s.server a).past ∧ 1 ∈ (s.server a).past)
    [.call a, .call b, .call c, .go b, .go c, .deliver c a, .deliver b a, .get a, .get a, .go a,
      .go a, .go a, .go a, .leave a, .call a, .go a, .deliver a c, .get c, .go c, .leave c,
      .deliver a c, .call c, .get c, .go c, .go c, .go c, .deliver c a, .get a, .go a, .leave a]
    (by decide +kernel) fun s hs ⟨hzero, hone⟩ => ?_
  have hsafe := server_barrier_safe twoBarriers hs
  exact ⟨hone, hsafe 1 0 (by decide) (by decide) hone 2 (by decide) (by decide),
    hsafe 0 0 (by decide) (by decide) hzero 1 (by decide) (by decide)⟩

end Cplant.Comm
