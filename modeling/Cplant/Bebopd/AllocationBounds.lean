import Cplant.Bebopd.Allocated

/-!
# Where `find_free_nodes` writes

The running total that the loop checks counts the parts in the order in which they are served.
The place at which it writes counts them in the order of the request. A part that is served
early and stands late is written behind the end of the list, if the parts before it ask for
more than the whole request.
-/
namespace Cplant.Bebopd
open List
variable {r : Registry} {p : Partition} {euid : UInt32} {req : YodRequest} {yod : Yod}
  {parts : Parts} {rnodes accum : ℤ}

def BlockInside (parts : Parts) (rnodes : ℤ) (i : ℕ) (got : List ℤ) : Prop :=
  got = [] ∨ 0 ≤ parts.fromRank i ∧ parts.fromRank i + got.length ≤ rnodes

theorem copyTo_inside {i : ℕ} {got : List ℤ} :
    (∀ w ∈ copyTo (parts.fromRank i) got, 0 ≤ w.1 ∧ w.1 < rnodes) ↔
      BlockInside parts rnodes i got := by
  have hwrite : ∀ k (hk : k < got.length), (parts.fromRank i + k, got[k]) ∈
      copyTo (parts.fromRank i) got :=
    fun k hk => mem_copyTo.mpr ⟨k, getElem?_eq_getElem hk, rfl⟩
  constructor
  · intro hall
    by_cases hgot : got = []
    · exact .inl hgot
    · have hlen := length_pos_of_ne_nil hgot
      have hfirst := hall _ (hwrite 0 hlen)
      have hlast := hall _ (hwrite (got.length - 1) (by omega))
      exact .inr ⟨by omega, by omega⟩
  · intro hinside w hw
    obtain ⟨k, hk, hoff⟩ := mem_copyTo.mp hw
    have hlen := (List.getElem?_eq_some_iff.mp hk).1
    rcases hinside with rfl | hinside
    · exact absurd hlen k.not_lt_zero
    · exact ⟨by omega, by omega⟩

theorem forall_split_cons {α : Type*} {a : α} {l : List α} {P : List α → α → Prop} :
    (∀ pre b post, a :: l = pre ++ b :: post → P pre b) ↔
      P [] a ∧ ∀ pre b post, l = pre ++ b :: post → P (a :: pre) b := by
  constructor
  · intro h
    exact ⟨h [] a l rfl, fun pre b post hl => h (a :: pre) b post (congrArg (a :: ·) hl)⟩
  rintro ⟨hhead, htail⟩ pre b post hsplit
  cases pre with
  | nil =>
    cases hsplit
    exact hhead
  | cons c pre =>
    obtain ⟨rfl, hl⟩ := List.cons.inj hsplit
    exact htail pre b post hl

theorem makePctList_inside {order : List ℕ} (hpos : ∀ i ∈ order, 0 < (parts.req i).nnodes) :
    let got := fun i => r.acquire p euid (parts.req i) (parts.nids i)
    (∀ w ∈ (makePctList r p euid parts rnodes accum order).2, 0 ≤ w.1 ∧ w.1 < rnodes) ↔
      ∀ pre i post, order = pre ++ i :: post →
        (∀ j ∈ pre, (parts.req j).nnodes ≤ (got j).length) →
        accum + (pre.map fun j => (parts.req j).nnodes).sum + (parts.req i).nnodes ≤ rnodes →
        BlockInside parts rnodes i (got i) := by
  intro got
  induction order generalizing accum with
  | nil => simp [makePctList]
  | cons i rest ih =>
    rw [forall_mem_cons] at hpos
    have hle := r.length_acquire_le p euid (parts.req i) (parts.nids i)
    rw [forall_split_cons]
    simp only [makePctList, map_nil, sum_nil, add_zero, map_cons, sum_cons,
      forall_mem_cons, not_mem_nil, false_implies, implies_true, true_implies]
    split
    next hover =>
      refine iff_of_true (by simp) ⟨fun hfits => absurd hfits (by omega), ?_⟩
      intro pre j post hl _ hfits
      have hsum : 0 ≤ (pre.map fun j => (parts.req j).nnodes).sum := by
        refine sum_nonneg fun x hx => ?_
        obtain ⟨k, hk, rfl⟩ := mem_map.mp hx
        exact (hpos.2 k (hl ▸ mem_append_left _ hk)).le
      have hj := hpos.2 j (hl ▸ mem_append_right pre mem_cons_self)
      omega
    next hfits =>
    split
    next hshort =>
      rw [copyTo_inside]
      refine ⟨fun hinside => ⟨fun _ => hinside, fun pre j post _ hfull => ?_⟩,
        fun hall => hall.1 (by omega)⟩
      exact absurd hfull.1 (by simp only [got]; omega)
    next hfull =>
      have hlen : ((got i).length : ℤ) = (parts.req i).nnodes := by
        simp only [got]
        omega
      simp only [forall_mem_append, copyTo_inside]
      rw [ih hpos.2]
      refine and_congr ⟨fun hinside _ => hinside, fun h => h (by omega)⟩ ?_
      simp [got, hlen, ← add_assoc]

/-- A part that the loop gets to, since those before it in the order of service are given what
they ask for and the sizes so far are no more than `nnodes`, has its block inside. -/
def Fits (r : Registry) (req : YodRequest) (yod : Yod) : Prop :=
  ∀ pre i post, serviceOrder req yod = pre ++ i :: post →
    (∀ j ∈ pre, ((partsOf req yod).req j).nnodes ≤ (chosen r req yod j).length) →
    (pre.map fun j => ((partsOf req yod).req j).nnodes).sum +
      ((partsOf req yod).req i).nnodes ≤ req.nnodes →
    BlockInside (partsOf req yod) req.nnodes i (chosen r req yod i)

theorem nnodes_pos_of_mem (hreq : checkYodRequest req = true) (hserved : Served r req yod) :
    ∀ i ∈ serviceOrder req yod, 0 < ((partsOf req yod).req i).nnodes :=
  fun _ hi => nnodes_pos hreq hserved (mem_range.mp ((serviceOrder_perm hserved).mem_iff.mp hi))

theorem fits_of_sum_le (hreq : checkYodRequest req = true) (hserved : Served r req yod)
    (hsum : ∑ j ∈ Finset.range (partsOf req yod).nreq, ((partsOf req yod).req j).nnodes ≤
      req.nnodes) : Fits r req yod := by
  intro pre i post hsplit _ _
  have hi : i < (partsOf req yod).nreq := mem_range.mp
    ((serviceOrder_perm hserved).mem_iff.mp (hsplit ▸ mem_append_right pre mem_cons_self))
  have hmax : req.nnodes ≤ maxNodes := by
    simp only [checkYodRequest, Bool.and_eq_true, decide_eq_true_eq] at hreq
    exact hreq.1.2
  have hle := r.length_acquire_le (partitionOf req) req.euid ((partsOf req yod).req i)
    ((partsOf req yod).nids i)
  have hpos := nnodes_pos hreq hserved hi
  have hnonneg : ∀ j ∈ Finset.range (partsOf req yod).nreq,
      0 ≤ ((partsOf req yod).req j).nnodes :=
    fun j hj => (nnodes_pos hreq hserved (Finset.mem_range.mp hj)).le
  -- The parts up to this one are some of all parts.
  have hupto : ∑ j ∈ Finset.range (i + 1), ((partsOf req yod).req j).nnodes ≤ req.nnodes :=
    (Finset.sum_le_sum_of_subset_of_nonneg (Finset.range_mono hi)
      fun j hj _ => hnonneg j hj).trans hsum
  rw [Finset.sum_range_succ] at hupto
  have hbefore : 0 ≤ ∑ j ∈ Finset.range i, ((partsOf req yod).req j).nnodes :=
    Finset.sum_nonneg fun j hj =>
      hnonneg j (Finset.mem_range.mpr ((Finset.mem_range.mp hj).trans hi))
  rw [maxNodes] at hmax
  have hrank : (partsOf req yod).fromRank i =
      ∑ j ∈ Finset.range i, ((partsOf req yod).req j).nnodes :=
    Int.bmod_eq_of_le (by omega) (by omega)
  right
  rw [hrank, ← acquire_eq_chosen]
  exact ⟨hbefore, by omega⟩

/-- Everything is written into the first `nnodes` elements just if the request is not served or
fits, and so if the parts ask together for no more than the request. -/
theorem writes_inside (hreq : checkYodRequest req = true) {rc : BebopdErr} {ws : Writes}
    (h : findFreeNodes r req yod = some (rc, ws)) :
    ((∀ w ∈ ws, 0 ≤ w.1 ∧ w.1 < req.nnodes) ↔ (Served r req yod → Fits r req yod)) ∧
      (∑ j ∈ Finset.range (partsOf req yod).nreq, ((partsOf req yod).req j).nnodes ≤
        req.nnodes → ∀ w ∈ ws, 0 ≤ w.1 ∧ w.1 < req.nnodes) := by
  have hiff : (∀ w ∈ ws, 0 ≤ w.1 ∧ w.1 < req.nnodes) ↔
      (Served r req yod → Fits r req yod) := by
    rcases findFreeNodes_cases h with ⟨-, rfl, hno⟩ | ⟨hserved, hmake⟩
    · exact iff_of_true (by simp) fun hserved => absurd hserved hno
    · have hloop : (∀ w ∈ (makePctList r (partitionOf req) req.euid (partsOf req yod) req.nnodes
          0 (serviceOrder req yod)).2, 0 ≤ w.1 ∧ w.1 < req.nnodes) ↔ _ :=
        makePctList_inside (nnodes_pos_of_mem hreq hserved)
      rw [hmake] at hloop
      simp only [zero_add] at hloop
      exact hloop.trans ⟨fun hfits _ => hfits, fun hfits => hfits hserved⟩
  exact ⟨hiff, fun hsum => hiff.mpr fun hserved => fits_of_sum_le hreq hserved hsum⟩

def yodCompound (size : ℤ) : Yod where
  sendsCompound := true
  compoundReq i := if i = 0 then userRequest size .any else userRequest 1 (.list 1)
  sendsList _ := true
  nidList _ _ := 2

theorem writes_inside_two : ∃ ws,
    findFreeNodes fiveNodes (userRequest 3 (.compound 2)) (yodCompound 2) = some (.ok, ws) ∧
      ∀ w ∈ ws, 0 ≤ w.1 ∧ w.1 < (userRequest 3 (.compound 2)).nnodes := by
  have hok : findFreeNodes fiveNodes (userRequest 3 (.compound 2)) (yodCompound 2) =
      some (.ok, [(2, 2), (0, 0), (1, 1)]) := by decide +kernel
  have hreq : checkYodRequest (userRequest 3 (.compound 2)) = true := by decide
  exact ⟨_, hok, (writes_inside hreq hok).2 (by decide +kernel)⟩

theorem writes_outside : ∃ rc ws, checkYodRequest (userRequest 5 (.compound 2)) = true ∧
    findFreeNodes fiveNodes (userRequest 5 (.compound 2)) (yodCompound 2048) = some (rc, ws) ∧
    (maxNodes, 2) ∈ ws :=
  ⟨.freeNodes, [(2048, 2)], by decide +kernel⟩

end Cplant.Bebopd
