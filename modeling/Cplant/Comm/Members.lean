import Cplant.Foundations.BinomialTree

/-!
# The fan-in lists of a server group

The collective operations of the server library find the other members by their group rank.
The partners of a member in an operation are its neighbours in the binomial tree over the
group, or over a list of ranks. The arrays for the partners have `MAXFANIN` entries, enough for
`2 ^ 20` members.
-/
namespace Cplant.Comm
open List Option Nat

structure Peer where
  nid : Int32
  pid : Int32
deriving DecidableEq, Repr

/-- What the collective operations of a process read of its `MemberList`. -/
structure View where
  members : ℕ
  peer : ℕ → Peer
  myGroupRank : ℕ

def dsrvrError : Int32 := -11

inductive RelativeRank
  | elt (myelt : ℕ)
  | absent
  | einval
deriving DecidableEq, Repr

/-- The loop of `dsrvr_init_fanin_list` and of `dsrvr_calc_fan_in` from the bit `i` on: the
sources and the target. -/
def fanInLoop (peer : ℕ → Peer) (len myelt : ℕ) : ℕ → ℕ → List Peer × Option Peer
  | 0, _ => ([], none)
  | fuel + 1, i =>
    if i < len then
      let other := myelt ^^^ i
      if other ≥ len then
        fanInLoop peer len myelt fuel (i <<< 1)
      else if myelt > other then
        ([], some (peer other))
      else
        let rest := fanInLoop peer len myelt fuel (i <<< 1)
        (peer other :: rest.1, rest.2)
    else
      ([], none)

namespace View
variable (v : View)

def memberByRank (rank : ℤ) : Peer :=
  if rank < 0 ∨ rank ≥ v.members then ⟨dsrvrError, dsrvrError⟩ else v.peer rank.toNat

def nidpid (list : Option (List ℤ)) (elt : ℕ) : Peer :=
  match list with
  | some l => v.memberByRank (l.getD elt 0)
  | none => v.memberByRank elt

def listLen (list : Option (List ℤ)) : ℕ :=
  match list with
  | some l => l.length
  | none => v.members

def relativeRankFrom : List ℤ → ℕ → RelativeRank
  | [], _ => .absent
  | rank :: list, i =>
    if rank = v.myGroupRank then .elt i
    else if rank < 0 ∨ rank ≥ v.members then .einval
    else relativeRankFrom list (i + 1)

def getMyRelativeRank : Option (List ℤ) → RelativeRank
  | some l => v.relativeRankFrom l 0
  | none => .elt v.myGroupRank

def calcFanIn (list : Option (List ℤ)) (myelt : ℕ) : List Peer × Option Peer :=
  fanInLoop (v.nidpid list) (v.listLen list) myelt (v.listLen list) 1

variable {v}

theorem relativeRankFrom_eq {l : List ℤ} (hl : ∀ r ∈ l, 0 ≤ r ∧ r < v.members) (k : ℕ) :
    v.relativeRankFrom l k =
      if (v.myGroupRank : ℤ) ∈ l then .elt (k + l.idxOf (v.myGroupRank : ℤ)) else .absent := by
  induction l generalizing k with
  | nil => rfl
  | cons r l ih =>
    obtain ⟨hr, hl⟩ := forall_mem_cons.mp hl
    rw [relativeRankFrom]
    by_cases hrank : r = v.myGroupRank
    · subst hrank
      simp
    · rw [if_neg hrank, if_neg (by omega), ih hl, idxOf_cons_ne l hrank]
      simp only [mem_cons, Ne.symm hrank, false_or]
      rw [succ_eq_add_one, add_right_comm, add_assoc]

end View

section Tree
variable {peer : ℕ → Peer} {n e : ℕ}

theorem fanInLoop_eq {k fuel : ℕ} (hk : 2 ^ k ∣ e) (he : e < n) (hfuel : n ≤ 2 ^ (k + fuel)) :
    fanInLoop peer n e fuel (2 ^ k) =
      ((childrenFrom n e k fuel).map peer, (parentFrom e k fuel).map peer) := by
  induction fuel generalizing k with
  | zero => rfl
  | succ fuel ih =>
    have hshift : 2 ^ k <<< 1 = 2 ^ (k + 1) := by rw [shiftLeft_eq, pow_one, pow_succ]
    simp only [fanInLoop, xor_two_pow_of_dvd hk, hshift]
    by_cases hlast : n ≤ 2 ^ k
    · have hzero : e = 0 := eq_zero_of_dvd_of_lt hk (by omega)
      rw [if_neg (by omega), childrenFrom_of_le hlast, hzero, parentFrom_zero]
      rfl
    rw [if_pos (by omega)]
    by_cases hbit : 2 ^ (k + 1) ∣ e
    · rw [if_pos hbit, ih hbit (by rwa [add_right_comm]), childrenFrom_succ n e k fuel hbit,
        parentFrom_succ hbit]
      by_cases hlt : e + 2 ^ k < n
      · rw [if_neg (by omega), if_neg (by omega), if_pos hlt]
        rfl
      · rw [if_pos (by omega), if_neg hlt]
    · have hle : 2 ^ k ≤ e := by
        apply le_of_dvd _ hk
        apply pos_of_ne_zero
        rintro rfl
        exact hbit (dvd_zero _)
      rw [if_neg hbit, if_neg (by omega), if_pos (by omega), childrenFrom_of_not_dvd hbit,
        parentFrom_of_level hk hbit]
      rfl

theorem fanInLoop_congr {peer' : ℕ → Peer} (h : ∀ a < n, peer a = peer' a) (fuel i : ℕ) :
    fanInLoop peer n e fuel i = fanInLoop peer' n e fuel i := by
  induction fuel generalizing i with
  | zero => rfl
  | succ fuel ih =>
    simp only [fanInLoop, ih]
    split_ifs with hi hout hup
    · rfl
    · rw [h _ (by omega)]
    · rw [h _ (by omega)]
    · rfl

theorem fanInLoop_tree (he : e < n) :
    fanInLoop peer n e n 1 = ((childrenFrom n e 0 n).map peer, (parentFrom e 0 n).map peer) := by
  have hfuel : n ≤ 2 ^ (0 + n) := by
    rw [zero_add]
    exact Nat.lt_two_pow_self.le
  exact fanInLoop_eq (k := 0) (one_dvd _) he hfuel

variable (hinj : ∀ a < n, ∀ b < n, peer a = peer b → a = b) {c : ℕ}
include hinj

theorem mem_sources (he : e < n) (hc : c < n) :
    peer c ∈ (fanInLoop peer n e n 1).1 ↔ Hangs e c := by
  rw [fanInLoop_tree he, List.mem_map]
  constructor
  · rintro ⟨a, ha, hac⟩
    obtain ⟨hangs, han⟩ := mem_children.mp ha
    rwa [← hinj a han c hc hac]
  · intro h
    exact ⟨c, mem_children.mpr ⟨h, hc⟩, rfl⟩

theorem target_eq (he : e < n) {p : ℕ} (hp : p < n) :
    (fanInLoop peer n e n 1).2 = some (peer p) ↔ Hangs p e := by
  rw [fanInLoop_tree he, map_eq_some_iff]
  constructor
  · rintro ⟨a, ha, hap⟩
    have hangs := (parentFrom_eq_some he).mp ha
    rwa [← hinj a (hangs.lt.trans he) p hp hap]
  · intro h
    exact ⟨p, (parentFrom_eq_some he).mpr h, rfl⟩

theorem mem_fanIn (he : e < n) (hc : c < n) :
    peer c ∈ (fanInLoop peer n e n 1).1 ++ (fanInLoop peer n e n 1).2.toList ↔
      Hangs e c ∨ Hangs c e := by
  rw [mem_append, mem_sources hinj he hc, mem_toList, target_eq hinj he hc]

theorem fanIn_nodup (he : e < n) :
    ((fanInLoop peer n e n 1).1 ++ (fanInLoop peer n e n 1).2.toList).Nodup := by
  rw [fanInLoop_tree he]
  refine Nodup.append ?_ ?_ ?_
  · apply Nodup.map_on _ (childrenFrom_nodup _ _ _ _)
    intro a ha b hb hab
    exact hinj a (mem_children.mp ha).2 b (mem_children.mp hb).2 hab
  · cases (parentFrom e 0 n).map peer <;> simp
  -- a child is larger than its parent
  intro q hsource htarget
  obtain ⟨c, hc, rfl⟩ := mem_map.mp hsource
  obtain ⟨p, hp, hpc⟩ := map_eq_some_iff.mp (mem_toList.mp htarget)
  have hep := ((parentFrom_eq_some he).mp hp).lt
  obtain ⟨hec, hcn⟩ := mem_children.mp hc
  have := hinj p (hep.trans he) c hcn hpc
  have := hec.lt
  omega

omit hinj in
theorem exists_of_mem_fanIn (he : e < n) {q : Peer}
    (hq : q ∈ (fanInLoop peer n e n 1).1 ++ (fanInLoop peer n e n 1).2.toList) :
    ∃ a < n, peer a = q ∧ (Hangs e a ∨ Hangs a e) := by
  rw [fanInLoop_tree he, List.mem_append, List.mem_map, Option.mem_toList,
    map_eq_some_iff] at hq
  rcases hq with ⟨a, ha, rfl⟩ | ⟨a, ha, rfl⟩
  · obtain ⟨hangs, han⟩ := mem_children.mp ha
    exact ⟨a, han, rfl, .inl hangs⟩
  · have hangs := (parentFrom_eq_some he).mp ha
    exact ⟨a, hangs.lt.trans he, rfl, .inr hangs⟩

end Tree
end Cplant.Comm
