import Cplant.Comm.BarrierRounds

/-!
# Forming a server group

A process adds the members that it was told of to its `MemberList` and calls
`dsrvr_membership_commit`, which numbers them in the order of their real ranks and performs a
barrier over the group as this process sees it. A message of the barrier does not say which
group it is for, and only the partners in the fan-in tree exchange messages, so that processes
with different lists can complete the barrier.
-/
namespace Cplant.Comm
open List Option Function

inductive MemberStatus
  | unused
  | activeMember
  | inActiveMember
  | timedOutOnCollectiveOp
  | bizarreOnCollectiveOp
  | joining
  | leaving
deriving DecidableEq, Repr

structure MemberID where
  peer : Peer
  realRank : ℕ
  rank : ℕ
  status : MemberStatus
deriving DecidableEq, Repr

/-- The variables of the membership module: the array `mid` of `dsrvrMaxMembers` entries and the
array `RealRank`, of which `dsrvrMembers` entries are set. -/
structure MemberList where
  maxMembers : ℕ
  mid : ℕ → MemberID
  realRank : ℕ → ℕ
  members : ℕ
  myRealRank : ℕ

def MemberStatus.isMember (s : MemberStatus) : Bool := s = .activeMember || s = .joining

def defaultMaxMembers : ℤ := 25

namespace MemberList

def init (me : Peer) (maxm myRealRank : ℤ) : Option MemberList :=
  if maxm < 0 ∨ myRealRank < 0 ∨ myRealRank ≥ maxm then none
  else some
    { maxMembers := (if maxm ≠ 0 then maxm else defaultMaxMembers).toNat
      mid := update (fun _ => ⟨⟨0, 0⟩, 0, 0, .unused⟩) myRealRank.toNat
        ⟨me, myRealRank.toNat, 0, .joining⟩
      realRank := fun _ => 0
      members := 0
      myRealRank := myRealRank.toNat }

variable (m : MemberList)

def addMember (peer : Peer) (realRank : ℤ) : MemberList :=
  if realRank < 0 ∨ realRank ≥ m.maxMembers then m
  else { m with
    mid := update m.mid realRank.toNat ⟨peer, realRank.toNat, 0, .joining⟩ }

def enlist (i : ℕ) : MemberList :=
  if (m.mid i).status.isMember then
    { m with
      realRank := update m.realRank m.members i
      mid := update m.mid i { m.mid i with rank := m.members }
      members := m.members + 1 }
  else m

def enlistAll : MemberList := (range m.maxMembers).foldl enlist { m with members := 0 }

def view : View where
  members := m.members
  peer := fun r => (m.mid (m.realRank r)).peer
  myGroupRank := (m.mid m.myRealRank).rank

def list : List (Peer × ℕ) :=
  (range m.members).map fun r => ((m.mid (m.realRank r)).peer, (m.mid (m.realRank r)).realRank)

end MemberList

/-- What a process does before it calls `dsrvr_membership_commit`. -/
structure Joining where
  maxm : ℤ
  myRealRank : ℤ
  adds : List (Peer × ℤ)

def Joining.committed (j : Joining) (p : Peer) : Option MemberList :=
  (MemberList.init p j.maxm j.myRealRank).map fun m =>
    (j.adds.foldl (fun m a => m.addMember a.1 a.2) m).enlistAll

/-- The barriers of `dsrvr_membership_commit`. It performs none, and returns `DSRVR_OK`, if the
process is the only member. A process without a list gets a `DSRVR_ERROR`. -/
def commits (σ : Peer → Joining) : Calls Unit where
  view := fun p => (((σ p).committed p).map MemberList.view).getD ⟨0, fun _ => ⟨0, 0⟩, 0⟩
  list := fun _ _ => none
  prog := fun p => (((σ p).committed p).map fun _ => [()]).getD []

namespace MemberList
variable {m : MemberList} {i k : ℕ}

structure Enlisted (m₀ m : MemberList) (k : ℕ) : Prop where
  own : m.myRealRank = m₀.myRealRank
  peer : ∀ i, (m.mid i).peer = (m₀.mid i).peer
  status : ∀ i, (m.mid i).status = (m₀.mid i).status
  numbered : ∀ i < k, (m₀.mid i).status.isMember →
    (m.mid i).rank < m.members ∧ m.realRank (m.mid i).rank = i

theorem Enlisted.enlist {m0 : MemberList} (h : Enlisted m0 m k) :
    Enlisted m0 (m.enlist k) (k + 1) := by
  unfold MemberList.enlist
  split_ifs with hk
  · refine ⟨h.own, fun i => ?_, fun i => ?_, fun i hi hmem => ?_⟩
    · simp only [← h.peer i, update_apply]
      split_ifs with hik
      · rw [hik]
      · rfl
    · simp only [← h.status i, update_apply]
      split_ifs with hik
      · rw [hik]
      · rfl
    · by_cases hik : i = k
      · subst hik
        simp only [update_self]
        exact ⟨Nat.lt_succ_self _, trivial⟩
      · obtain ⟨hlt, hreal⟩ := h.numbered i (by omega) hmem
        simp only [update_of_ne hik, update_of_ne (ne_of_lt hlt)]
        exact ⟨Nat.lt_succ_of_lt hlt, hreal⟩
  · refine ⟨h.own, h.peer, h.status, fun i hi hmem => ?_⟩
    have hik : i ≠ k := by
      rintro rfl
      rw [h.status] at hk
      exact hk hmem
    exact h.numbered i (by omega) hmem

theorem enlistAll_enlisted (m : MemberList) : Enlisted m m.enlistAll m.maxMembers := by
  suffices h : ∀ k,
      Enlisted m ((range k).foldl MemberList.enlist { m with members := 0 }) k from
    h m.maxMembers
  intro k
  induction k with
  | zero => exact ⟨rfl, fun _ => rfl, fun _ => rfl, nofun⟩
  | succ k ih =>
    rw [range_succ, foldl_append]
    exact ih.enlist

structure OwnJoining (m : MemberList) : Prop where
  lt : m.myRealRank < m.maxMembers
  joining : (m.mid m.myRealRank).status = .joining

theorem ownJoining_init {me : Peer} {maxm myRealRank : ℤ} (h : init me maxm myRealRank = some m) :
    OwnJoining m := by
  unfold init at h
  by_cases hbad : maxm < 0 ∨ myRealRank < 0 ∨ myRealRank ≥ maxm
  · rw [if_pos hbad] at h
    cases h
  · have hmax : maxm ≠ 0 := by omega
    rw [if_neg hbad, if_pos hmax] at h
    cases h
    refine ⟨?_, ?_⟩
    · simp only
      omega
    · simp

theorem OwnJoining.addMember (h : OwnJoining m) (peer : Peer) (realRank : ℤ) :
    OwnJoining (m.addMember peer realRank) := by
  unfold MemberList.addMember
  split_ifs with hbad
  · exact h
  · refine ⟨h.lt, ?_⟩
    simp only [update_apply]
    split_ifs
    · rfl
    · exact h.joining

theorem ownJoining_adds (h : OwnJoining m) (adds : List (Peer × ℤ)) :
    OwnJoining (adds.foldl (fun m a => m.addMember a.1 a.2) m) := by
  induction adds generalizing m with
  | nil => exact h
  | cons a adds ih => exact ih (h.addMember a.1 a.2)

end MemberList

variable {m : MemberList} {p : Peer}

theorem Joining.rank_own {j : Joining} (h : j.committed p = some m) :
    m.view.myGroupRank < m.members ∧ m.realRank m.view.myGroupRank = m.myRealRank := by
  obtain ⟨m0, hinit, rfl⟩ := map_eq_some_iff.mp h
  have hown := MemberList.ownJoining_adds (MemberList.ownJoining_init hinit) j.adds
  generalize j.adds.foldl (fun m a => m.addMember a.1 a.2) m0 = m at hown ⊢
  have hall := m.enlistAll_enlisted
  have hnum := hall.numbered m.myRealRank hown.lt (by rw [hown.joining]; rfl)
  rw [MemberList.view, hall.own]
  exact hnum

/-- Any two partners in a fan-in tree have the same list, and every list names each process once
and its owner at the owner's real rank. -/
structure Agreed (σ : Peer → Joining) : Prop where
  distinct : ∀ p m, (σ p).committed p = some m → (m.list.map Prod.fst).Nodup
  own : ∀ p m, (σ p).committed p = some m → (m.mid m.myRealRank).peer = p
  partners : ∀ p m, (σ p).committed p = some m → ∀ q ∈ (commits σ).links p (),
    ∀ m', (σ q).committed q = some m' → m'.list = m.list

namespace Agreed
variable {σ : Peer → Joining} {p q : Peer} {m m' : MemberList} {s : Servers Unit}

theorem view_eq (h : (σ p).committed p = some m) : (commits σ).view p = m.view := by
  simp [commits, h]

theorem list_peer (m : MemberList) :
    m.list.map Prod.fst = (List.range m.members).map m.view.peer := by
  rw [MemberList.list, List.map_map]
  rfl

theorem peer_inj (hσ : Agreed σ) (h : (σ p).committed p = some m) :
    ∀ a < m.members, ∀ b < m.members, m.view.peer a = m.view.peer b → a = b := by
  have hnodup := hσ.distinct p m h
  rw [list_peer] at hnodup
  intro a ha b hb hab
  exact inj_on_of_nodup_map hnodup (mem_range.mpr ha) (mem_range.mpr hb) hab

theorem members_eq (h : m'.list = m.list) : m'.members = m.members := by
  have := congrArg length h
  simpa [MemberList.list] using this

theorem peer_eq (h : m'.list = m.list) {a : ℕ} (ha : a < m.members) :
    m'.view.peer a = m.view.peer a := by
  have hpeers :
      (range m.members).map m'.view.peer = (range m.members).map m.view.peer := by
    rw [← list_peer, ← h, list_peer, members_eq h]
  exact map_inj_left.mp hpeers a (mem_range.mpr ha)

theorem prologue_eq (h : (σ p).committed p = some m) (hone : m.members ≠ 1) :
    ((commits σ).view p).prologue ((commits σ).list p ()) =
      .partners (fanInLoop m.view.peer m.members m.view.myGroupRank m.members 1).1
        (fanInLoop m.view.peer m.members m.view.myGroupRank m.members 1).2 := by
  have hpeer : ∀ a < m.members, m.view.nidpid none a = m.view.peer a := by
    intro a ha
    have hrange : ¬((a : ℤ) < 0 ∨ (a : ℤ) ≥ m.view.members) := by
      simp only [MemberList.view]
      omega
    rw [View.nidpid, View.memberByRank, if_neg hrange]
    rfl
  have hskip : ¬(m.view.members = 1 ∨ (none : Option (List ℤ)).map length = some 1) := by
    simpa [MemberList.view] using hone
  rw [view_eq h]
  have hloop := fanInLoop_congr (n := m.members) (e := m.view.myGroupRank) hpeer m.members 1
  exact (if_neg hskip).trans (by rw [← hloop]; rfl)

theorem committed_of_entered (hs : s.Tallied (commits σ)) (h : (s.server p).Entered ()) :
    ∃ m, (σ p).committed p = some m := by
  apply ne_none_iff_exists'.mp
  intro hnone
  have horder := (hs.sound p).inOrder
  simp only [commits, hnone, map_none, getD_none, prefix_nil,
    append_eq_nil_iff] at horder
  rcases h with hpast | hcur
  · rw [horder.1] at hpast
    cases hpast
  · rw [hcur] at horder
    cases horder.2

theorem told_of_pos (hs : s.Tallied (commits σ))
    (h : 0 < (commits σ).told p (s.server p) q) : (s.server p).Told () q := by
  by_cases hpast : (s.server p).past = []
  · right
    rw [Calls.told, hpast, map_nil, sum_nil, zero_add] at h
    refine ⟨?_, h⟩
    cases hcur : (s.server p).cur with
    | none =>
      rw [Barrier.told, (hs.sound p).outside.mp hcur] at h
      cases h
    | some i => rfl
  · left
    obtain ⟨i, hi⟩ := exists_mem_of_ne_nil _ hpast
    exact hi

theorem heard_pos (hq : q ∈ (commits σ).links p ())
    (h : (s.server p).Heard () q) : 0 < (commits σ).heard p (s.server p) q := by
  rcases h with hpast | ⟨-, hheard⟩
  · have hmem : ((commits σ).links p ()).count q ∈
        (s.server p).past.map fun i => ((commits σ).links p i).count q :=
      mem_map.mpr ⟨(), hpast, rfl⟩
    have := le_sum_of_mem hmem
    have := count_pos_iff.mpr hq
    rw [Calls.heard]
    omega
  · rw [Calls.heard]
    omega

def SameList (σ : Peer → Joining) (m : MemberList) (q : Peer) : Prop :=
  ∃ m', (σ q).committed q = some m' ∧ m'.list = m.list

theorem round (hσ : Agreed σ) (hs : s.Tallied (commits σ)) (h : (σ p).committed p = some m)
    (hone : m.members ≠ 1) :
    Round (fun a => s.server (m.view.peer a)) () m.view.peer m.members fun a =>
      SameList σ m (m.view.peer a) := by
  -- a process with the same list has the rank at which the list has it
  have hrank : ∀ a < m.members, ∀ m', (σ (m.view.peer a)).committed (m.view.peer a) = some m' →
      m'.list = m.list → ((commits σ).view (m.view.peer a)).prologue none =
        .partners (fanInLoop m.view.peer m.members a m.members 1).1
          (fanInLoop m.view.peer m.members a m.members 1).2 := by
    intro a ha m' hm' hlist
    obtain ⟨hlt, hreal⟩ := Joining.rank_own hm'
    have hmembers := members_eq hlist
    have hown : m'.view.peer m'.view.myGroupRank = m.view.peer a := by
      rw [← hσ.own _ m' hm', ← hreal]
      rfl
    rw [hmembers] at hlt
    rw [peer_eq hlist hlt] at hown
    have ha' := peer_inj hσ h _ hlt a ha hown
    have hprologue := prologue_eq hm' (by omega)
    rw [ha', hmembers, fanInLoop_congr fun b hb => peer_eq hlist hb] at hprologue
    exact hprologue
  have hlinks : ∀ a < m.members, ∀ b < m.members, Hangs a b ∨ Hangs b a →
      SameList σ m (m.view.peer a) → m.view.peer b ∈ (commits σ).links (m.view.peer a) () := by
    rintro a ha b hb hangs ⟨m', hm', hlist⟩
    rw [Calls.links_eq (hrank a ha m' hm' hlist)]
    exact (mem_fanIn (peer_inj hσ h) ha hb).mpr hangs
  refine ⟨peer_inj hσ h, ?_, ?_⟩
  · rintro a ha ⟨m', hm', hlist⟩ hcur
    have hinside := (hs.sound (m.view.peer a)).inside () hcur
    exact Prologue.partners.inj (hinside.symm.trans (hrank a ha m' hm' hlist))
  rintro a ha b hb hangs hsame hheard
  have hmem := hlinks a ha b hb hangs hsame
  obtain ⟨m', hm', hlist⟩ := hsame
  have hpos := heard_pos hmem hheard
  have htally := hs.tally (m.view.peer a) (m.view.peer b)
  have htold := told_of_pos (p := m.view.peer b) (q := m.view.peer a) hs (by omega)
  refine ⟨?_, htold⟩
  -- the partner has called, so that it has a list
  obtain ⟨m'', hm''⟩ := committed_of_entered hs htold.entered
  have hpartner := hσ.partners _ m' hm' _ hmem m'' hm''
  exact ⟨m'', hm'', hpartner.trans hlist⟩

end Agreed

/-- If partners have the same list, a process that returns `DSRVR_OK` from `dsrvr_membership_commit`
and is not alone has a list on which every process has called with the same list. -/
theorem membership_commit_agreed {σ : Peer → Joining} (hσ : Agreed σ) {s : Servers Unit}
    (h : Reaches (Servers.step (commits σ)) (fun _ _ => True) Servers.init s) :
    ∀ p m, (σ p).committed p = some m → 1 < m.members → () ∈ (s.server p).past →
      ∀ q ∈ m.list.map Prod.fst, (s.server q).Entered () ∧
        ∃ m', (σ q).committed q = some m' ∧ m'.list = m.list := by
  intro p m hm hmembers hret q hq
  have hs := Servers.tallied h
  have hround := Agreed.round hσ hs hm (by omega)
  obtain ⟨hlt, hreal⟩ := Joining.rank_own hm
  have hown : m.view.peer m.view.myGroupRank = p := by
    rw [← hσ.own p m hm, ← hreal]
    rfl
  rw [Agreed.list_peer, List.mem_map] at hq
  obtain ⟨b, hb, rfl⟩ := hq
  have hall := hround.all_entered hlt ⟨m, by rwa [hown], rfl⟩ (by rwa [hown]) (mem_range.mp hb)
  exact ⟨hall.2, hall.1⟩

def pctOf (nid : ℕ) : Peer := ⟨Int32.ofNat nid, 2⟩

def pairJoining (p : Peer) : Joining :=
  if p = pctOf 0 then ⟨2, 0, [(pctOf 0, 0), (pctOf 1, 1)]⟩
  else if p = pctOf 1 then ⟨2, 1, [(pctOf 0, 0), (pctOf 1, 1)]⟩
  else ⟨0, 0, []⟩

theorem pairJoining_cases (h : (pairJoining p).committed p = some m) :
    (p = pctOf 0 ∨ p = pctOf 1) ∧ m.list = [(pctOf 0, 0), (pctOf 1, 1)] ∧
      (m.mid m.myRealRank).peer = p := by
  by_cases h0 : p = pctOf 0
  · subst h0
    refine ⟨.inl rfl, ?_⟩
    cases h
    decide +kernel
  by_cases h1 : p = pctOf 1
  · subst h1
    refine ⟨.inr rfl, ?_⟩
    cases h
    decide +kernel
  rw [pairJoining, if_neg h0, if_neg h1] at h
  cases h

theorem pairJoining_agreed : Agreed pairJoining where
  distinct := by
    intro p m h
    rw [(pairJoining_cases h).2.1]
    decide
  own := fun p m h => (pairJoining_cases h).2.2
  partners := by
    intro p m h q _ m' h'
    rw [(pairJoining_cases h').2.1, (pairJoining_cases h).2.1]

theorem membership_commit_agreed_pair :
    ∃ s, Reaches (Servers.step (commits pairJoining)) (fun _ _ => True) Servers.init s ∧
      () ∈ (s.server (pctOf 0)).past ∧ (s.server (pctOf 1)).Entered () ∧
        ∃ m, (pairJoining (pctOf 1)).committed (pctOf 1) = some m ∧
          m.list = [(pctOf 0, 0), (pctOf 1, 1)] := by
  refine exists_reaches_imp (P := fun s => () ∈ (s.server (pctOf 0)).past)
    [.call (pctOf 0), .call (pctOf 1), .go (pctOf 1), .deliver (pctOf 1) (pctOf 0),
      .get (pctOf 0), .go (pctOf 0), .go (pctOf 0), .go (pctOf 0), .leave (pctOf 0)]
    (by decide +kernel) fun s hs hret => ⟨hret, ?_⟩
  obtain ⟨m, hm⟩ : ∃ m, (pairJoining (pctOf 0)).committed (pctOf 0) = some m :=
    isSome_iff_exists.mp (by decide +kernel)
  have hlist := (pairJoining_cases hm).2.1
  have hmembers : m.members = 2 := by simpa [MemberList.list] using congrArg length hlist
  have hall := membership_commit_agreed pairJoining_agreed hs (pctOf 0) m hm (by omega) hret
    (pctOf 1) (by rw [hlist]; decide)
  rwa [hlist] at hall

def raggedJoining (p : Peer) : Joining :=
  if p = pctOf 0 then ⟨3, 0, [(pctOf 0, 0), (pctOf 1, 1)]⟩
  else if p = pctOf 1 then ⟨3, 1, [(pctOf 0, 0), (pctOf 1, 1), (pctOf 2, 2)]⟩
  else ⟨3, 2, []⟩

theorem commit_of_different_lists :
    ((raggedJoining (pctOf 0)).committed (pctOf 0)).map MemberList.list =
        some [(pctOf 0, 0), (pctOf 1, 1)] ∧
      ((raggedJoining (pctOf 1)).committed (pctOf 1)).map MemberList.list =
        some [(pctOf 0, 0), (pctOf 1, 1), (pctOf 2, 2)] ∧
      ∃ s, Reaches (Servers.step (commits raggedJoining)) (fun _ _ => True) Servers.init s ∧
        () ∈ (s.server (pctOf 0)).past ∧ () ∈ (s.server (pctOf 1)).past ∧
          ¬(s.server (pctOf 2)).Entered () := by
  refine ⟨by decide +kernel, by decide +kernel, ?_⟩
  exact exists_reaches
    [.call (pctOf 0), .call (pctOf 1), .go (pctOf 1), .deliver (pctOf 1) (pctOf 0),
      .get (pctOf 0), .go (pctOf 0), .go (pctOf 0), .go (pctOf 0), .leave (pctOf 0),
      .deliver (pctOf 0) (pctOf 1), .get (pctOf 1), .go (pctOf 1), .leave (pctOf 1)]
    (by decide +kernel)

end Cplant.Comm
