import Cplant.Bebopd.Allocation
import Cplant.Bebopd.RegistryCounts
import Mathlib.Algebra.BigOperators.Ring.Finset

/-!
# What `find_free_nodes` allocates

The parts of a request choose their nodes independently of one another: nothing is marked while
the list is made. If the allocation succeeds, the list is the concatenation of the chosen nodes
in the order of the request, whatever the order in which the parts were served. So everything
that holds for the nodes of one part holds for the list, but two parts may choose the same
node, and so may one part with a list that repeats a node.
-/
namespace Cplant.Bebopd
open List Registry
variable {r : Registry} {p : Partition} {euid : UInt32} {req : YodRequest} {yod : Yod} {n : ℤ}
  {parts : Parts} {ws : Writes} {i : ℕ}

theorem mem_of_mem_smartAlloc {pos : ℤ → ℤ} {avail : List ℤ} {want : ℕ}
    (h : n ∈ (smartAlloc pos avail want).getD []) : n ∈ avail := by
  cases hgo : smartAlloc pos avail want with
  | none => simp [hgo] at h
  | some go =>
    obtain ⟨start, -, rfl⟩ := smartAlloc_eq_some hgo
    rw [hgo, Option.getD_some] at h
    exact mem_of_mem_drop (mem_of_mem_take h)

def NodeSpec.Names (nids : List ℤ) : NodeSpec → ℤ → Prop
  | .any, _ => True
  | .list _, n => n ∈ nids
  | .range a b, n => min a b ≤ n ∧ n ≤ max a b
  | .compound _, _ | .unknown _, _ => False

namespace Registry

theorem length_acquire_le (r : Registry) (p : Partition) (euid : UInt32) (req : YodRequest)
    (nids : List ℤ) : (r.acquire p euid req nids).length ≤ req.nnodes.toNat := by
  simp only [acquire]
  split
  · generalize hgo : smartAlloc _ (r.freeList p euid) req.nnodes.toNat = found
    cases found with
    | none => exact Nat.zero_le _
    | some go =>
      obtain ⟨start, -, rfl⟩ := smartAlloc_eq_some hgo
      exact length_take_le _ _
  · exact length_take_le _ _
  · exact length_take_le _ _
  · exact Nat.zero_le _
  · exact Nat.zero_le _

variable {n : ℤ} {nids : List ℤ}

theorem mem_freeList (h : n ∈ r.freeList p euid) :
    r.eligible p n = true ∧ r.reservedOk euid n = true := by
  have hcond := (mem_filter.mp h).2
  simp only [Bool.and_eq_true] at hcond
  exact ⟨hcond.1.2, hcond.2⟩

theorem mem_acquire (h : n ∈ r.acquire p euid req nids) :
    r.eligible p n = true ∧ req.spec.Names nids n := by
  rw [acquire] at h
  split at h
  next hspec => exact ⟨(mem_freeList (mem_of_mem_smartAlloc h)).1, hspec ▸ trivial⟩
  next hspec =>
    have hmem := mem_filter.mp (mem_of_mem_take h)
    exact ⟨(Bool.and_eq_true _ _ ▸ hmem.2).2, hspec ▸ hmem.1⟩
  next a b hspec =>
    have hmem := mem_filter.mp (mem_of_mem_take h)
    refine ⟨hmem.2, hspec ▸ ?_⟩
    have hrange := hmem.1
    rw [rangeNodes] at hrange
    split at hrange
    · rw [Int.mem_range_iff] at hrange
      exact ⟨by omega, by omega⟩
    · rw [mem_reverse, Int.mem_range_iff] at hrange
      exact ⟨by omega, by omega⟩
  · cases h
  · cases h

theorem reservedOk_of_mem_acquire_any (hspec : req.spec = .any)
    (h : n ∈ r.acquire p euid req nids) : r.reservedOk euid n = true := by
  rw [acquire, hspec] at h
  exact (mem_freeList (mem_of_mem_smartAlloc h)).2

end Registry

/-- The nodes that part `i` designates in the registry as it is before the call. Of a list or a
range these are the first `nnodes` that are registered in the partition and free; for a size
they are the slice that `smart_alloc` takes of the nodes that are also not reserved. -/
def chosen (r : Registry) (req : YodRequest) (yod : Yod) (i : ℕ) : List ℤ :=
  let part := (partsOf req yod).req i
  let free := r.eligible (partitionOf req)
  match part.spec with
  | .any => (smartAlloc (fun n => if r.remap then r.marray n else n)
      (r.freeList (partitionOf req) req.euid) part.nnodes.toNat).getD []
  | .list _ =>
    (((partsOf req yod).nids i).filter fun n => r.inPcts n && free n).take part.nnodes.toNat
  | .range a b => ((r.rangeNodes a b).filter free).take part.nnodes.toNat
  | .compound _ | .unknown _ => []

theorem acquire_eq_chosen : r.acquire (partitionOf req) req.euid ((partsOf req yod).req i)
    ((partsOf req yod).nids i) = chosen r req yod i :=
  rfl

theorem makePctList_ok {rnodes accum : ℤ} {order : List ℕ}
    (h : makePctList r p euid parts rnodes accum order = (.ok, ws)) :
    let got := fun i => r.acquire p euid (parts.req i) (parts.nids i)
    (∀ i ∈ order, (got i).length = (parts.req i).nnodes.toNat) ∧
      accum + ((order.map fun i => (got i).length).sum : ℕ) = rnodes ∧
      ws = order.flatMap fun i => copyTo (parts.fromRank i) (got i) := by
  intro got
  induction order generalizing accum ws with
  | nil =>
    obtain ⟨hrc, rfl⟩ := Prod.mk.inj h
    refine ⟨by simp, ?_, rfl⟩
    by_contra hne
    rw [if_pos (by simpa using hne)] at hrc
    cases hrc
  | cons i rest ih =>
    simp only [makePctList] at h
    split at h
    · have hrc := (Prod.mk.inj h).1
      split at hrc <;> cases hrc
    split at h
    · cases (Prod.mk.inj h).1
    next hsum hfull =>
    obtain ⟨hrc, rfl⟩ := Prod.mk.inj h
    obtain ⟨hlens, htotal, hws⟩ := ih (Prod.ext hrc rfl)
    have hle := r.length_acquire_le p euid (parts.req i) (parts.nids i)
    have hlen : (got i).length = (parts.req i).nnodes.toNat := by
      simp only [got]
      omega
    refine ⟨forall_mem_cons.mpr ⟨hlen, hlens⟩, ?_, ?_⟩
    · rw [map_cons, sum_cons, Nat.cast_add]
      omega
    · exact congrArg _ hws

def serviceOrder (req : YodRequest) (yod : Yod) : List ℕ :=
  if isCompound req then listElt (partsOf req yod) else [0]

theorem refused {e rc : BebopdErr} {P : Prop} (h : (e, []) = (rc, ws)) (he : e ≠ .ok)
    (hP : ¬ P) : rc ≠ .ok ∧ ws = [] ∧ ¬ P := by
  obtain ⟨rfl, rfl⟩ := Prod.mk.inj h
  exact ⟨he, rfl, hP⟩

/-- The request gets to the loop over its parts: the partition can serve it and has as many free
nodes as it wants, and `yod` sends valid simple requests and all lists. -/
structure Served (r : Registry) (req : YodRequest) (yod : Yod) : Prop where
  support : req.sessionId = inval ∨ r.pbsSupport = true
  sends : isCompound req = true → yod.sendsCompound = true
  parts : isCompound req = true → ∀ i < (partsOf req yod).nreq,
    checkYodRequest ((partsOf req yod).req i) = true ∧
      isCompound ((partsOf req yod).req i) = false
  lists : listsArrive (partsOf req yod) yod = true
  interactive : partitionOf req = .interactive → req.nnodes ≤ iactiveFree r
  scheduled : partitionOf req = .scheduled →
    pbsJobNodes r req.sessionId + req.nnodes ≤ req.nnodesLimit ∧ req.nnodes ≤ pbsFree r

theorem findFreeNodes_cases {rc : BebopdErr} (h : findFreeNodes r req yod = some (rc, ws)) :
    (rc ≠ .ok ∧ ws = [] ∧ ¬ Served r req yod) ∨
      Served r req yod ∧ makePctList r (partitionOf req) req.euid (partsOf req yod) req.nnodes 0
        (serviceOrder req yod) = (rc, ws) := by
  simp only [findFreeNodes] at h
  split at h
  next hno =>
    refine .inl (refused (Option.some.inj h) nofun fun hs => ?_)
    simpa [hno.1, hno.2] using hs.support
  next hsupport =>
  split at h
  next hno =>
    exact .inl (refused (Option.some.inj h) nofun fun hs => by simpa [hno.2] using hs.sends hno.1)
  next hsends =>
  split at h
  next hno =>
    refine .inl (refused (Option.some.inj h) nofun fun hs => ?_)
    obtain ⟨i, hi, hbad⟩ := any_eq_true.mp hno.2
    simp [(hs.parts hno.1 i (mem_range.mp hi)).1] at hbad
  next hvalid =>
  split at h
  · cases h
  next hsimple =>
  split at h
  next hno =>
    exact .inl (refused (Option.some.inj h) nofun fun hs => by simp [hs.lists] at hno)
  next hlists =>
  have hparts : isCompound req = true → ∀ i < (partsOf req yod).nreq,
      checkYodRequest ((partsOf req yod).req i) = true ∧
        isCompound ((partsOf req yod).req i) = false := by
    intro hc
    simp only [hc, true_and, any_eq_true, mem_range, not_exists, not_and,
      Bool.not_eq_true', Bool.not_eq_false, Bool.not_eq_true] at hvalid hsimple
    exact fun i hi => ⟨hvalid i hi, hsimple i hi⟩
  have hserved : (partitionOf req = .interactive → req.nnodes ≤ iactiveFree r) →
      (partitionOf req = .scheduled →
        pbsJobNodes r req.sessionId + req.nnodes ≤ req.nnodesLimit ∧ req.nnodes ≤ pbsFree r) →
      Served r req yod :=
    fun hint hsched =>
      { support := by simpa [or_iff_not_imp_left] using hsupport
        sends := fun hc => by simpa [hc] using hsends
        parts := hparts
        lists := by simpa using hlists
        interactive := hint
        scheduled := hsched }
  cases hp : partitionOf req with
  | interactive =>
    rw [hp] at h hserved
    simp only [Option.some.injEq, allocateNodes] at h
    split at h
    next hno =>
      exact .inl (refused h nofun fun hs => by have := hs.interactive hp; omega)
    next hfree => exact .inr ⟨hserved (fun _ => by omega) nofun, h⟩
  | scheduled =>
    rw [hp] at h hserved
    simp only [Option.some.injEq, allocateNodesForPbs] at h
    split at h
    next hno =>
      exact .inl (refused h nofun fun hs => by have := hs.scheduled hp; omega)
    next hlimit =>
    split at h
    next hno =>
      exact .inl (refused h nofun fun hs => by have := hs.scheduled hp; omega)
    next hfree => exact .inr ⟨hserved nofun fun _ => by omega, h⟩

theorem listElt_perm (h : ∀ i < parts.nreq, (requestSpecificity (parts.req i)).isSome) :
    (listElt parts).Perm (List.range parts.nreq) := by
  have hnodup : (listElt parts).Nodup := by
    refine nodup_flatMap.mpr ⟨fun s _ => nodup_range.filter _, ?_⟩
    have hpair : [Specificity.wantsAllOfList, .wantsPartOfList, .wantsAny].Pairwise (· ≠ ·) := by
      decide
    refine hpair.imp fun {s t} hst i hi hj => hst ?_
    have hs := of_decide_eq_true (mem_filter.mp hi).2
    have ht := of_decide_eq_true (mem_filter.mp hj).2
    exact Option.some.inj (hs.symm.trans ht)
  refine (perm_ext_iff_of_nodup hnodup nodup_range).mpr fun i => ?_
  rw [listElt, mem_flatMap]
  constructor
  · rintro ⟨s, -, hi⟩
    exact mem_of_mem_filter hi
  · intro hi
    obtain ⟨s, hs⟩ := Option.isSome_iff_exists.mp (h i (mem_range.mp hi))
    refine ⟨s, ?_, mem_filter.mpr ⟨hi, decide_eq_true hs⟩⟩
    cases s <;> decide

theorem requestSpecificity_isSome (hvalid : checkYodRequest req = true)
    (hsimple : isCompound req = false) : (requestSpecificity req).isSome = true := by
  cases hspec : req.spec <;>
    simp [requestSpecificity, checkYodRequest, isCompound, hspec] at hvalid hsimple ⊢

theorem nreq_simple (hc : isCompound req = false) : (partsOf req yod).nreq = 1 := by
  cases hspec : req.spec <;> simp [isCompound, partsOf, hspec] at hc ⊢

theorem req_simple (hc : isCompound req = false) (i : ℕ) : (partsOf req yod).req i = req := by
  cases hspec : req.spec <;> simp [isCompound, partsOf, hspec] at hc ⊢

theorem serviceOrder_perm (h : Served r req yod) :
    (serviceOrder req yod).Perm (List.range (partsOf req yod).nreq) := by
  rw [serviceOrder]
  split
  next hc =>
    refine listElt_perm fun i hi => ?_
    obtain ⟨hvalid, hsimple⟩ := h.parts hc i hi
    exact requestSpecificity_isSome hvalid hsimple
  next hc =>
    rw [nreq_simple (by simpa using hc)]
    exact .refl _

theorem nnodes_pos (hreq : checkYodRequest req = true) (h : Served r req yod)
    (hi : i < (partsOf req yod).nreq) : 0 < ((partsOf req yod).req i).nnodes := by
  have hpos : ∀ {req}, checkYodRequest req = true → 0 < req.nnodes := fun hvalid => by
    simp only [checkYodRequest, Bool.and_eq_true, decide_eq_true_eq] at hvalid
    exact hvalid.1.1.2
  cases hc : isCompound req with
  | true => exact hpos (h.parts hc i hi).1
  | false =>
    rw [req_simple hc]
    exact hpos hreq

theorem fromRank_eq {block : ℕ → List ℤ}
    (hlens : ∀ j < parts.nreq, ((block j).length : ℤ) = (parts.req j).nnodes)
    (hsize : blockOffset block parts.nreq ≤ maxNodes) (hi : i < parts.nreq) :
    parts.fromRank i = blockOffset block i := by
  have hsum : (blockOffset block i : ℤ) = ∑ j ∈ Finset.range i, (parts.req j).nnodes := by
    rw [blockOffset, Nat.cast_sum]
    exact Finset.sum_congr rfl fun j hj => hlens j ((Finset.mem_range.mp hj).trans hi)
  have hle := blockOffset_mono block hi.le
  rw [maxNodes] at hsize
  rw [Parts.fromRank, ← hsum]
  exact Int.bmod_eq_of_le (by omega) (by omega)

theorem pctList_eq (hreq : checkYodRequest req = true)
    (h : findFreeNodes r req yod = some (.ok, ws)) : (∀ i < (partsOf req yod).nreq,
        ((chosen r req yod i).length : ℤ) = ((partsOf req yod).req i).nnodes) ∧
      pctList req ws = (List.range (partsOf req yod).nreq).flatMap (chosen r req yod) ∧
      (blockOffset (chosen r req yod) (partsOf req yod).nreq : ℤ) = req.nnodes := by
  rcases findFreeNodes_cases h with hfail | ⟨hserved, hmake⟩
  · exact absurd rfl hfail.1
  have hperm := serviceOrder_perm hserved
  obtain ⟨hlens, htotal, hws⟩ := makePctList_ok hmake
  have hlens' : ∀ i < (partsOf req yod).nreq,
      ((chosen r req yod i).length : ℤ) = ((partsOf req yod).req i).nnodes := by
    intro i hi
    have hlen := hlens i (hperm.mem_iff.mpr (mem_range.mpr hi))
    have hpos := nnodes_pos hreq hserved hi
    rw [← acquire_eq_chosen, hlen]
    omega
  have hsize : (blockOffset (chosen r req yod) (partsOf req yod).nreq : ℤ) = req.nnodes := by
    rw [← htotal, zero_add, (hperm.map _).sum_eq, ← length_flatMap_range, length_flatMap]
    rfl
  have hmax : req.nnodes ≤ maxNodes := by
    simp only [checkYodRequest, Bool.and_eq_true, decide_eq_true_eq] at hreq
    exact hreq.1.2
  refine ⟨hlens', ?_, hsize⟩
  have hplaces : ws = (serviceOrder req yod).flatMap fun i =>
      copyTo (blockOffset (chosen r req yod) i) (chosen r req yod i) := by
    rw [hws]
    refine flatMap_congr fun i hi => ?_
    rw [fromRank_eq hlens' (hsize ▸ hmax) (mem_range.mp (hperm.mem_iff.mp hi))]
    rfl
  rw [pctList, ← hsize, Int.toNat_natCast, hplaces]
  exact written_blocks _ _ hperm

structure Legal (r : Registry) (req : YodRequest) (yod : Yod) (pcts : List ℤ) : Prop where
  length : (pcts.length : ℤ) = req.nnodes
  nodup : pcts.Nodup
  registered : ∀ n ∈ pcts, IsNode n ∧ r.registered n = true
  free : ∀ n ∈ pcts, (r.larray n).status = statusFree
  entitled : ∀ n ∈ pcts, r.onList (partitionOf req) n = true
  -- The nodes at the ranks of a part are such as the part asks for.
  ranks : ∀ i < (partsOf req yod).nreq, ∀ k : ℕ, k < ((partsOf req yod).req i).nnodes →
    ∃ n, pcts[(∑ j ∈ Finset.range i, ((partsOf req yod).req j).nnodes).toNat + k]? = some n ∧
      ((partsOf req yod).req i).spec.Names ((partsOf req yod).nids i) n

/-- The nodes that the parts choose are apart: no part chooses a node twice, no two parts choose
the same node, and what is chosen are indices of the arrays. -/
structure Apart (r : Registry) (req : YodRequest) (yod : Yod) : Prop where
  each : ∀ i ∈ List.range (partsOf req yod).nreq, (chosen r req yod i).Nodup
  pairs : (List.range (partsOf req yod).nreq).Pairwise fun i j =>
    (chosen r req yod i).Disjoint (chosen r req yod j)
  nodes : ∀ i ∈ List.range (partsOf req yod).nreq, ∀ n ∈ chosen r req yod i, IsNode n

theorem registered_of_onList (hr : r.Consistent) (hn : IsNode n)
    (hlist : r.onList p n = true) : r.registered n = true := by
  by_contra hreg
  obtain ⟨hint, hsched⟩ := hr.neither n hn (by simpa using hreg)
  cases p with
  | interactive => exact Bool.false_ne_true (hint.symm.trans hlist)
  | scheduled => exact Bool.false_ne_true (hsched.symm.trans hlist)

/-- If `find_free_nodes` succeeds, the list is legal exactly if the parts chose their nodes
apart. -/
theorem allocated_legal (hr : r.Consistent) (hreq : checkYodRequest req = true) {ws : Writes}
    (h : findFreeNodes r req yod = some (.ok, ws)) :
    Legal r req yod (pctList req ws) ↔ Apart r req yod := by
  obtain ⟨hlens, hlist, hsize⟩ := pctList_eq hreq h
  rw [hlist]
  have hchosen : ∀ n ∈ (List.range (partsOf req yod).nreq).flatMap (chosen r req yod),
      r.onList (partitionOf req) n = true ∧ (r.larray n).status = statusFree := by
    intro n hn
    obtain ⟨i, -, hn⟩ := mem_flatMap.mp hn
    have helig := (mem_acquire hn).1
    rw [eligible, Bool.and_eq_true] at helig
    exact ⟨helig.1, of_decide_eq_true helig.2⟩
  constructor
  · intro hlegal
    obtain ⟨heach, hpairs⟩ := nodup_flatMap.mp hlegal.nodup
    exact ⟨heach, hpairs, fun i hi n hn =>
      (hlegal.registered n (mem_flatMap.mpr ⟨i, hi, hn⟩)).1⟩
  · intro hapart
    refine
      { length := by rw [length_flatMap_range, hsize]
        nodup := nodup_flatMap.mpr ⟨hapart.each, hapart.pairs⟩
        registered := fun n hn => ?_
        free := fun n hn => (hchosen n hn).2
        entitled := fun n hn => (hchosen n hn).1
        ranks := fun i hi k hk => ?_ }
    · obtain ⟨i, hi, hmem⟩ := mem_flatMap.mp hn
      have hnode := hapart.nodes i hi n hmem
      exact ⟨hnode, registered_of_onList hr hnode (hchosen n hn).1⟩
    have hk' : k < (chosen r req yod i).length := by
      have := hlens i hi
      omega
    have hoffset : (∑ j ∈ Finset.range i, ((partsOf req yod).req j).nnodes).toNat =
        blockOffset (chosen r req yod) i := by
      rw [← Finset.sum_congr rfl fun j hj => hlens j ((Finset.mem_range.mp hj).trans hi),
        ← Nat.cast_sum, Int.toNat_natCast]
      rfl
    refine ⟨(chosen r req yod i)[k], ?_, (mem_acquire (getElem_mem hk')).2⟩
    rw [hoffset, getElem?_flatMap_range _ hi hk', getElem?_eq_getElem hk']

def fiveNodes : Registry where
  larray n := ⟨statusFree, -1, -1, if n = 3 then 7 else -1, .iactiveNode, -1, -1⟩
  registered n := 0 ≤ n ∧ n < 5
  interactiveList n := 0 ≤ n ∧ n < 5
  scheduledList _ := false
  activeNodes := 0
  minPct := 0
  maxPct := 4
  intMIN := 0
  intMAX := 4
  pbsMIN := maxNodes
  pbsMAX := -1
  pbsSupport := false
  remap := false
  carray _ := -1
  marray _ := -1

theorem fiveNodes_consistent : fiveNodes.Consistent where
  one n _ hreg := fun heq => by
    rw [show fiveNodes.interactiveList n = fiveNodes.registered n from rfl, hreg] at heq
    cases heq
  neither n _ hreg := ⟨hreg, rfl⟩

def userRequest (nnodes : ℤ) (spec : NodeSpec) : YodRequest := ⟨nnodes, inval, 0, 10, 8, spec⟩

def yodWith (nids : List ℤ) : Yod := ⟨false, fun _ => userRequest 1 .any, fun _ => true,
  fun _ k => nids.getD k 0⟩

theorem allocated_legal_any : ∃ ws,
    findFreeNodes fiveNodes (userRequest 2 .any) (yodWith []) = some (.ok, ws) ∧
      Legal fiveNodes (userRequest 2 .any) (yodWith []) (pctList (userRequest 2 .any) ws) := by
  have hok : findFreeNodes fiveNodes (userRequest 2 .any) (yodWith []) =
      some (.ok, [(0, 0), (1, 1)]) := by decide +kernel
  have hreq : checkYodRequest (userRequest 2 .any) = true := by decide
  refine ⟨_, hok, (allocated_legal fiveNodes_consistent hreq hok).mpr ⟨?_, ?_, ?_⟩⟩
  · decide +kernel
  · exact pairwise_singleton _ _
  · decide +kernel

theorem allocated_not_distinct : ∃ ws, checkYodRequest (userRequest 2 (.list 2)) = true ∧
      findFreeNodes fiveNodes (userRequest 2 (.list 2)) (yodWith [1, 1]) = some (.ok, ws) ∧
      ¬ (pctList (userRequest 2 (.list 2)) ws).Nodup :=
  ⟨[(0, 1), (1, 1)], by decide +kernel⟩

/-- The nodes that are handed out are not reserved for others, exactly if those are not that
were chosen for a list or a range. -/
theorem reservations_honoured (hreq : checkYodRequest req = true) {ws : Writes}
    (h : findFreeNodes r req yod = some (.ok, ws)) : (∀ n ∈ pctList req ws,
        (r.larray n).reserved = -1 ∨ (r.larray n).reserved.toUInt32 = req.euid) ↔
      ∀ i < (partsOf req yod).nreq, ((partsOf req yod).req i).spec ≠ .any →
        ∀ n ∈ chosen r req yod i,
          (r.larray n).reserved = -1 ∨ (r.larray n).reserved.toUInt32 = req.euid := by
  obtain ⟨-, hlist, -⟩ := pctList_eq hreq h
  rw [hlist]
  constructor
  · intro hall i hi _ n hn
    exact hall n (mem_flatMap.mpr ⟨i, mem_range.mpr hi, hn⟩)
  · intro hnamed n hn
    obtain ⟨i, hi, hn⟩ := mem_flatMap.mp hn
    by_cases hspec : ((partsOf req yod).req i).spec = .any
    · simpa [reservedOk] using reservedOk_of_mem_acquire_any hspec hn
    · exact hnamed i (mem_range.mp hi) hspec n hn

theorem reservations_honoured_any : ∃ ws,
    findFreeNodes fiveNodes (userRequest 4 .any) (yodWith []) = some (.ok, ws) ∧
      ∀ n ∈ pctList (userRequest 4 .any) ws, (fiveNodes.larray n).reserved = -1 ∨
        (fiveNodes.larray n).reserved.toUInt32 = (userRequest 4 .any).euid := by
  have hok : findFreeNodes fiveNodes (userRequest 4 .any) (yodWith []) =
      some (.ok, [(0, 0), (1, 1), (2, 2), (3, 4)]) := by decide +kernel
  have hreq : checkYodRequest (userRequest 4 .any) = true := by decide
  exact ⟨_, hok, (reservations_honoured hreq hok).mpr fun _ _ hspec => absurd rfl hspec⟩

theorem reservations_ignored : ∃ ws, checkYodRequest (userRequest 1 (.list 1)) = true ∧
      findFreeNodes fiveNodes (userRequest 1 (.list 1)) (yodWith [3]) = some (.ok, ws) ∧
      3 ∈ pctList (userRequest 1 (.list 1)) ws ∧ (fiveNodes.larray 3).reserved = 7 ∧
      (userRequest 1 (.list 1)).euid = 8 :=
  ⟨[(0, 3)], by decide +kernel⟩

end Cplant.Bebopd
