import Cplant.Foundations.BinomialTree
import Cplant.Portals.Types

/-!
The fan-in and fan-out patterns of the collective operations, `generic_fanin`
and `generic_fanout`. A rank finds its partners by flipping one bit after the
other in its rank relative to the root. The callbacks are called with the
rank's own number and a partner, and a pattern ends with the first of them that
fails. For groups of at most `2 ^ 16` ranks no `int` of the source overflows.
-/
namespace Cplant.Collectives
open List Nat
open Portals (ptlOk)
section Patterns
variable {m : Type → Type*} [Monad m]

def maskrank (myrank rootrank ngroup : ℕ) : ℕ :=
  (myrank + ngroup - rootrank) % ngroup

def faninLoop (asChild asRoot : ℕ → ℕ → m Int32) (myrank rootrank ngroup maskrank : ℕ) :
    ℕ → ℕ → m Int32
  | 0, _ => pure ptlOk
  | fuel + 1, i =>
    if i < ngroup then
      let partnerM := maskrank ^^^ i
      let partnerA := (partnerM + rootrank) % ngroup
      if partnerM > maskrank then
        if partnerM < ngroup then do
          let rc ← asRoot myrank partnerA
          if rc ≠ ptlOk then
            pure rc
          else
            faninLoop asChild asRoot myrank rootrank ngroup maskrank fuel (i <<< 1)
        else
          faninLoop asChild asRoot myrank rootrank ngroup maskrank fuel (i <<< 1)
      else
        asChild myrank partnerA
    else
      -- only the root gets here
      pure ptlOk

def genericFanin (asChild asRoot : ℕ → ℕ → m Int32) (myrank rootrank ngroup : ℕ) : m Int32 :=
  faninLoop asChild asRoot myrank rootrank ngroup (maskrank myrank rootrank ngroup) ngroup 1

def fanoutScan (root ngroup maskrank : ℕ) : ℕ → ℕ → List ℕ × Option ℕ
  | 0, _ => ([], none)
  | fuel + 1, i =>
    if i < ngroup then
      let partnerM := maskrank ^^^ i
      let partnerA := (partnerM + root) % ngroup
      if partnerM > maskrank then
        let rest := fanoutScan root ngroup maskrank fuel (i <<< 1)
        if partnerM < ngroup then (partnerA :: rest.1, rest.2) else rest
      else
        ([], some partnerA)
    else
      ([], none)

def fanoutSends (asRoot : ℕ → ℕ → m Int32) (myrank : ℕ) : List ℕ → Int32 → m Int32
  | [], rc => pure rc
  | partner :: sendto, _ => do
    let rc ← asRoot myrank partner
    if rc ≠ ptlOk then pure rc else fanoutSends asRoot myrank sendto rc

def partners (root ngroup myrank : ℕ) : List ℕ × Option ℕ :=
  fanoutScan root ngroup (maskrank myrank root ngroup) ngroup 1

def fanoutRecv (asChild : ℕ → ℕ → m Int32) (myrank : ℕ) : Option ℕ → m Int32
  | none => pure ptlOk
  | some recvfrom => asChild myrank recvfrom

def genericFanout (asChild asRoot : ℕ → ℕ → m Int32) (myrank root ngroup : ℕ) : m Int32 := do
  let found := partners root ngroup myrank
  let rc ← fanoutRecv asChild myrank found.2
  if rc ≠ ptlOk then pure rc else fanoutSends asRoot myrank found.1 rc

inductive Turn
  | asRoot (partner : ℕ)
  | asChild (partner : ℕ)
deriving DecidableEq, Repr

namespace Turn

def partner : Turn → ℕ
  | asRoot p => p
  | asChild p => p

def isChild : Turn → Bool
  | asRoot _ => false
  | asChild _ => true

end Turn

def Turn.call (asChild asRoot : ℕ → ℕ → m Int32) (myrank : ℕ) : Turn → m Int32
  | .asRoot p => asRoot myrank p
  | .asChild p => asChild myrank p

def perform (asChild asRoot : ℕ → ℕ → m Int32) (myrank : ℕ) : List Turn → m Int32
  | [] => pure ptlOk
  | t :: ts => do
    let rc ← t.call asChild asRoot myrank
    if rc ≠ ptlOk then pure rc else perform asChild asRoot myrank ts

def faninTurns (found : List ℕ × Option ℕ) : List Turn :=
  found.1.map .asRoot ++ found.2.toList.map .asChild

def fanoutTurns (found : List ℕ × Option ℕ) : List Turn :=
  found.2.toList.map .asChild ++ found.1.map .asRoot

variable [LawfulMonad m]

section
variable (asChild asRoot : ℕ → ℕ → m Int32)
include asChild asRoot

theorem perform_asChild (myrank p : ℕ) :
    perform asChild asRoot myrank [.asChild p] = asChild myrank p := by
  have hrc : ∀ rc : Int32, (if rc ≠ ptlOk then pure rc else pure ptlOk : m Int32) = pure rc := by
    intro rc
    split_ifs with h
    · rfl
    · rw [not_not.mp h]
  simp [perform, Turn.call, hrc]

theorem faninLoop_eq_perform (myrank rootrank ngroup mask fuel i : ℕ) :
    faninLoop asChild asRoot myrank rootrank ngroup mask fuel i =
      perform asChild asRoot myrank (faninTurns (fanoutScan rootrank ngroup mask fuel i)) := by
  induction fuel generalizing i with
  | zero => rfl
  | succ fuel ih =>
    simp only [faninLoop, fanoutScan, ih]
    split_ifs with hi hup hlt
    · rfl
    · rfl
    · exact (perform_asChild asChild asRoot myrank _).symm
    · rfl

theorem genericFanin_eq_perform (myrank rootrank ngroup : ℕ) :
    genericFanin asChild asRoot myrank rootrank ngroup =
      perform asChild asRoot myrank (faninTurns (partners rootrank ngroup myrank)) :=
  faninLoop_eq_perform asChild asRoot myrank rootrank ngroup _ ngroup 1

end

omit [LawfulMonad m] in
theorem fanoutSends_eq_perform (asChild asRoot : ℕ → ℕ → m Int32) (myrank : ℕ) (sendto : List ℕ) :
    fanoutSends asRoot myrank sendto ptlOk =
      perform asChild asRoot myrank (sendto.map .asRoot) := by
  induction sendto with
  | nil => rfl
  | cons p sendto ih =>
    refine bind_congr fun rc => ?_
    split_ifs with h
    · rfl
    · rw [not_not.mp h, ih]

theorem genericFanout_eq_perform (asChild asRoot : ℕ → ℕ → m Int32) (myrank root ngroup : ℕ) :
    genericFanout asChild asRoot myrank root ngroup =
      perform asChild asRoot myrank (fanoutTurns (partners root ngroup myrank)) := by
  have hsends := fanoutSends_eq_perform asChild asRoot myrank (partners root ngroup myrank).1
  rw [genericFanout, fanoutTurns]
  cases (partners root ngroup myrank).2 with
  | none =>
    rw [fanoutRecv, pure_bind, if_neg (by decide)]
    exact hsends
  | some p =>
    refine bind_congr fun rc => ?_
    split_ifs with h
    · rfl
    · rw [not_not.mp h]
      exact hsends

end Patterns

def record (turn : ℕ → Turn) (_ partner : ℕ) : StateM (List Turn) Int32 :=
  fun calls => (ptlOk, calls ++ [turn partner])

def faninCalls (rootrank ngroup myrank : ℕ) : List Turn :=
  (genericFanin (record .asChild) (record .asRoot) myrank rootrank ngroup []).2

def fanoutCalls (root ngroup myrank : ℕ) : List Turn :=
  (genericFanout (record .asChild) (record .asRoot) myrank root ngroup []).2

theorem perform_record (myrank : ℕ) (turns calls : List Turn) :
    (perform (record .asChild) (record .asRoot) myrank turns calls).2 = calls ++ turns := by
  induction turns generalizing calls with
  | nil => exact (append_nil calls).symm
  | cons t ts ih =>
    have hstep : perform (record .asChild) (record .asRoot) myrank (t :: ts) calls =
        perform (record .asChild) (record .asRoot) myrank ts (calls ++ [t]) := by
      cases t <;> rfl
    rw [hstep, ih, append_assoc, singleton_append]

theorem faninCalls_eq (root n r : ℕ) : faninCalls root n r = faninTurns (partners root n r) := by
  rw [faninCalls, genericFanin_eq_perform, perform_record, nil_append]

theorem fanoutCalls_eq (root n r : ℕ) : fanoutCalls root n r = fanoutTurns (partners root n r) := by
  rw [fanoutCalls, genericFanout_eq_perform, perform_record, nil_append]

section Ranks
variable {n root a r p c : ℕ}

theorem maskrank_lt (hroot : root < n) (r : ℕ) : maskrank r root n < n :=
  mod_lt _ (by omega)

theorem maskrank_add (hroot : root < n) (ha : a < n) : maskrank ((a + root) % n) root n = a := by
  unfold maskrank
  rcases lt_or_ge (a + root) n with h | h
  · rw [mod_eq_of_lt h, show a + root + n - root = a + n by omega, add_mod_right,
      mod_eq_of_lt ha]
  · rw [mod_eq_sub_mod h, mod_eq_of_lt (by omega : a + root - n < n),
      show a + root - n + n - root = a by omega, mod_eq_of_lt ha]

theorem add_maskrank (hroot : root < n) (hr : r < n) : (maskrank r root n + root) % n = r := by
  rw [maskrank, mod_add_mod, show r + n - root + root = r + n by omega, add_mod_right,
    mod_eq_of_lt hr]

theorem eq_rank_iff (hroot : root < n) (ha : a < n) (hr : r < n) :
    (a + root) % n = r ↔ a = maskrank r root n := by
  constructor
  · rintro rfl
    exact (maskrank_add hroot ha).symm
  · rintro rfl
    exact add_maskrank hroot hr

theorem maskrank_root (root n : ℕ) : maskrank root root n = 0 := by
  rw [maskrank, Nat.add_sub_cancel_left, Nat.mod_self]

theorem fanoutScan_eq {mask k fuel : ℕ} (hk : 2 ^ k ∣ mask) (hmask : mask < n)
    (hfuel : n ≤ 2 ^ (k + fuel)) : fanoutScan root n mask fuel (2 ^ k) =
      ((childrenFrom n mask k fuel).map fun a => (a + root) % n,
        (parentFrom mask k fuel).map fun a => (a + root) % n) := by
  induction fuel generalizing k with
  | zero => rfl
  | succ fuel ih =>
    have hshift : 2 ^ k <<< 1 = 2 ^ (k + 1) := by rw [shiftLeft_eq, pow_one, pow_succ]
    simp only [fanoutScan, xor_two_pow_of_dvd hk, hshift]
    by_cases hlast : n ≤ 2 ^ k
    · -- all bits below the group size are clear: this is the root
      have hzero : mask = 0 := eq_zero_of_dvd_of_lt hk (by omega)
      rw [if_neg (by omega), childrenFrom_of_le hlast, hzero, parentFrom_zero]
      rfl
    rw [if_pos (by omega)]
    by_cases hbit : 2 ^ (k + 1) ∣ mask
    · rw [if_pos hbit, if_pos (by omega), ih hbit (by rwa [add_right_comm]),
        childrenFrom_succ n mask k fuel hbit, parentFrom_succ hbit]
      split_ifs <;> rfl
    · rw [if_neg hbit, if_neg (by omega), childrenFrom_of_not_dvd hbit, parentFrom_of_level hk hbit]
      rfl

section
variable (hroot : root < n)
include hroot

theorem partners_eq (r : ℕ) : partners root n r =
      ((childrenFrom n (maskrank r root n) 0 n).map fun a => (a + root) % n,
        (parentFrom (maskrank r root n) 0 n).map fun a => (a + root) % n) := by
  have hfuel : n ≤ 2 ^ (0 + n) := by
    rw [zero_add]
    exact Nat.lt_two_pow_self.le
  exact fanoutScan_eq (k := 0) (one_dvd _) (maskrank_lt hroot r) hfuel

theorem mem_sendto (hc : c < n) :
    c ∈ (partners root n p).1 ↔ Hangs (maskrank p root n) (maskrank c root n) := by
  rw [partners_eq hroot, mem_map]
  constructor
  · rintro ⟨a, ha, hac⟩
    obtain ⟨hangs, han⟩ := mem_children.mp ha
    rwa [← (eq_rank_iff hroot han hc).mp hac]
  · intro h
    exact ⟨maskrank c root n, mem_children.mpr ⟨h, maskrank_lt hroot c⟩, add_maskrank hroot hc⟩

theorem recvfrom_eq (hp : p < n) :
    (partners root n c).2 = some p ↔ Hangs (maskrank p root n) (maskrank c root n) := by
  have hc := maskrank_lt hroot c
  rw [partners_eq hroot, Option.map_eq_some_iff]
  constructor
  · rintro ⟨a, ha, hap⟩
    have hangs := (parentFrom_eq_some hc).mp ha
    rwa [← (eq_rank_iff hroot (hangs.lt.trans hc) hp).mp hap]
  · intro h
    exact ⟨maskrank p root n, (parentFrom_eq_some hc).mpr h, add_maskrank hroot hp⟩

theorem sendto_nodup (r : ℕ) : (partners root n r).1.Nodup := by
  rw [partners_eq hroot]
  refine List.Nodup.map_on ?_ (childrenFrom_nodup _ _ _ _)
  intro a ha b hb hab
  rw [← maskrank_add hroot (mem_children.mp ha).2, hab, maskrank_add hroot (mem_children.mp hb).2]

theorem sendto_lt (h : c ∈ (partners root n r).1) : c < n := by
  rw [partners_eq hroot] at h
  obtain ⟨a, -, rfl⟩ := mem_map.mp h
  exact mod_lt _ (by omega)

theorem recvfrom_lt (h : (partners root n r).2 = some p) : p < n := by
  rw [partners_eq hroot] at h
  obtain ⟨a, -, rfl⟩ := Option.map_eq_some_iff.mp h
  exact mod_lt _ (by omega)

theorem length_sendto_le (hn : n ≤ 2 ^ 16) (r : ℕ) : (partners root n r).1.length ≤ 16 := by
  rw [partners_eq hroot, length_map]
  exact length_childrenFrom_le hn _ _ _

theorem recvfrom_root : (partners root n root).2 = none := by
  rw [partners_eq hroot, maskrank_root, parentFrom_zero]
  rfl

theorem exists_recvfrom (hr : r < n) (hne : r ≠ root) : ∃ p, (partners root n r).2 = some p := by
  have hmask : maskrank r root n ≠ 0 := by
    intro h
    have hback := add_maskrank hroot hr
    rw [h, zero_add, mod_eq_of_lt hroot] at hback
    exact hne hback.symm
  obtain ⟨a, ha⟩ := exists_hangs hmask
  have hlt := ha.lt.trans (maskrank_lt hroot r)
  refine ⟨(a + root) % n, (recvfrom_eq hroot (mod_lt _ (by omega))).mpr ?_⟩
  rwa [maskrank_add hroot hlt]

theorem reached_from_root (hr : r < n) :
    Relation.ReflTransGen (fun p c => c ∈ (partners root n p).1) root r := by
  suffices h : ∀ a, a < n →
      Relation.ReflTransGen (fun p c => c ∈ (partners root n p).1) root ((a + root) % n) by
    have := h _ (maskrank_lt hroot r)
    rwa [add_maskrank hroot hr] at this
  intro a
  -- along the binomial tree of the relative ranks
  induction hangs_connected a with
  | refl =>
    intro _
    rw [zero_add, mod_eq_of_lt hroot]
  | @tail b c _ hbc ih =>
    intro hc
    have hb := hbc.lt.trans hc
    refine (ih hb).tail ?_
    rw [mem_sendto hroot (mod_lt _ (by omega)), maskrank_add hroot hb, maskrank_add hroot hc]
    exact hbc

end
end Ranks

variable {found : List ℕ × Option ℕ}

theorem asRoot_mem_faninTurns {c : ℕ} : .asRoot c ∈ faninTurns found ↔ c ∈ found.1 := by
  simp [faninTurns]

theorem asChild_mem_faninTurns {p : ℕ} : .asChild p ∈ faninTurns found ↔ found.2 = some p := by
  simp [faninTurns, Option.mem_toList]

theorem faninTurns_nodup (h : found.1.Nodup) : (faninTurns found).Nodup := by
  refine List.Nodup.append (h.map fun _ _ => Turn.asRoot.inj) ?_ ?_
  · cases found.2 <;> simp
  · intro t ht ht'
    obtain ⟨c, -, rfl⟩ := mem_map.mp ht
    obtain ⟨p, -, hp⟩ := mem_map.mp ht'
    cases hp

theorem filter_isChild_faninTurns (found : List ℕ × Option ℕ) :
    (faninTurns found).filter Turn.isChild = found.2.toList.map .asChild := by
  have hroots : (found.1.map Turn.asRoot).filter Turn.isChild = [] := by
    simp [filter_eq_nil_iff, Turn.isChild]
  have hchild : (found.2.toList.map Turn.asChild).filter Turn.isChild =
      found.2.toList.map Turn.asChild :=
    filter_eq_self.mpr (by simp [Turn.isChild])
  rw [faninTurns, filter_append, hroots, hchild, nil_append]

theorem fanoutTurns_perm (found : List ℕ × Option ℕ) :
    (fanoutTurns found).Perm (faninTurns found) :=
  perm_append_comm

/-- The calls of all ranks are the edges of one tree that spans the group, each edge a call as root
at one end and as child at the other. -/
structure SpanningTree (n root : ℕ) (calls : ℕ → List Turn) : Prop where
  once : ∀ r < n, (calls r).Nodup
  paired : ∀ p < n, ∀ c < n,
    ((calls p).count (.asRoot c) = 1 ↔ (calls c).count (.asChild p) = 1)
  root_free : ∀ p, .asChild p ∉ calls root
  one_parent : ∀ r < n, r ≠ root → (calls r).countP Turn.isChild = 1
  connected : ∀ r < n, Relation.ReflTransGen (fun p c => .asRoot c ∈ calls p) root r
  valid : ∀ r < n, ∀ t ∈ calls r, t.partner < n

theorem count_eq_one_iff {l : List Turn} (h : l.Nodup) (t : Turn) : l.count t = 1 ↔ t ∈ l := by
  rw [h.count]
  split_ifs with ht
  · exact iff_of_true rfl ht
  · exact iff_of_false (by decide) ht

theorem spanningTree_of_perm {n root : ℕ} (hroot : root < n) {calls : ℕ → List Turn}
    (hcalls : ∀ r, (calls r).Perm (faninTurns (partners root n r))) :
    SpanningTree n root calls := by
  have hnodup : ∀ r, (calls r).Nodup := fun r =>
    (hcalls r).nodup_iff.mpr (faninTurns_nodup (sendto_nodup hroot r))
  have hasRoot : ∀ p c, .asRoot c ∈ calls p ↔ c ∈ (partners root n p).1 := fun p c =>
    (hcalls p).mem_iff.trans asRoot_mem_faninTurns
  have hasChild : ∀ c p, .asChild p ∈ calls c ↔ (partners root n c).2 = some p := fun c p =>
    (hcalls c).mem_iff.trans asChild_mem_faninTurns
  refine ⟨fun r _ => hnodup r, ?_, ?_, ?_, ?_, ?_⟩
  · intro p hp c hc
    rw [count_eq_one_iff (hnodup p), count_eq_one_iff (hnodup c), hasRoot, hasChild,
      mem_sendto hroot hc, recvfrom_eq hroot hp]
  · intro p
    rw [hasChild, recvfrom_root hroot]
    exact nofun
  · intro r hr hne
    obtain ⟨p, hp⟩ := exists_recvfrom hroot hr hne
    rw [(hcalls r).countP_eq, countP_eq_length_filter, filter_isChild_faninTurns, hp]
    rfl
  · intro r hr
    simp only [hasRoot]
    exact reached_from_root hroot hr
  · rintro r - (c | p) ht
    · exact sendto_lt hroot ((hasRoot r c).mp ht)
    · exact recvfrom_lt hroot ((hasChild r p).mp ht)

/-- Fan-in and fan-out make the same calls, which span the group from the root. In a fan-in
the receives of a rank come before its send. -/
theorem collective_trees_match {n root : ℕ} (hn : n ≤ 2 ^ 16) (hroot : root < n) :
    SpanningTree n root (faninCalls root n) ∧ SpanningTree n root (fanoutCalls root n) ∧
      ∀ r < n, (fanoutCalls root n r).Perm (faninCalls root n r) ∧
        (∃ received : List ℕ, faninCalls root n r =
          received.map .asRoot ++ (faninCalls root n r).filter Turn.isChild) ∧
        (partners root n r).1.length ≤ 16 := by
  have hfanin : ∀ r, (faninCalls root n r).Perm (faninTurns (partners root n r)) := fun r => by
    rw [faninCalls_eq]
  have hfanout : ∀ r, (fanoutCalls root n r).Perm (faninTurns (partners root n r)) := fun r => by
    rw [fanoutCalls_eq]
    exact fanoutTurns_perm _
  refine ⟨spanningTree_of_perm hroot hfanin, spanningTree_of_perm hroot hfanout, fun r _ => ?_⟩
  refine ⟨(hfanout r).trans (hfanin r).symm, ⟨(partners root n r).1, ?_⟩,
    length_sendto_le hroot hn r⟩
  rw [faninCalls_eq, filter_isChild_faninTurns]
  rfl

theorem collective_trees_match_six :
    SpanningTree 6 2 (faninCalls 2 6) ∧ SpanningTree 6 2 (fanoutCalls 2 6) ∧
      ∀ r < 6, (fanoutCalls 2 6 r).Perm (faninCalls 2 6 r) ∧
        (∃ received : List ℕ, faninCalls 2 6 r =
          received.map .asRoot ++ (faninCalls 2 6 r).filter Turn.isChild) ∧
        (partners 2 6 r).1.length ≤ 16 :=
  collective_trees_match (by decide) (by decide)

example : faninCalls 2 6 0 = [.asRoot 1, .asChild 2] := by decide

end Cplant.Collectives
