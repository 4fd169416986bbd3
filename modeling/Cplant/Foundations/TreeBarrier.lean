import Mathlib.Algebra.Order.BigOperators.Group.Finset
import Mathlib.Algebra.BigOperators.Ring.Finset

/-!
Counting for a barrier on a tree. In each round a node hears one report from
every child, reports to its parent, is released by its parent and releases its
children. Reports carry no name: a node only counts those it takes from its
queue. As long as no node reports more often than it enters, the counts alone
tell that every node of the tree has entered when one is released.
-/
namespace Cplant

/-- The counts of one node. What is left of the round it is in is counted down to `0`. -/
structure Station (ι : Type*) where
  calls : ℕ
  done : ℕ
  toHear : ℕ
  unsent : ℕ
  unreleased : ℕ
  untold : ι → ℕ
  upQueue : ℕ
  downQueue : ℕ

structure Tally (ι : Type*) where
  station : ι → Station ι
  upFlight : ι → ℕ
  heard : ι → ℕ
  downFlight : ι → ℕ

theorem eq_of_card_mul_le_sum {ι : Type*} {s : Finset ι} {f : ι → ℕ} {k : ℕ}
    (hle : ∀ c ∈ s, f c ≤ k) (hsum : k * s.card ≤ ∑ c ∈ s, f c) : ∀ c ∈ s, f c = k := by
  have hconst : ∑ _c ∈ s, k = k * s.card := by
    rw [Finset.sum_const, nsmul_eq_mul, Nat.cast_id, mul_comm]
  exact (Finset.sum_eq_sum_iff_of_le hle).mp
    (le_antisymm (Finset.sum_le_sum hle) (hconst.le.trans hsum))

namespace Tally
variable {ι : Type*} {kids : ι → Finset ι} {t t' : Tally ι}

structure Balanced (kids : ι → Finset ι) (t : Tally ι) : Prop where
  up : ∀ c, t.heard c + t.upFlight c + (t.station c).unsent ≤ (t.station c).calls
  gather : ∀ p, (t.station p).calls * (kids p).card + (t.station p).upQueue ≤
    (∑ c ∈ kids p, t.heard c) + (t.station p).toHear
  reported : ∀ p, ∀ c ∈ kids p, (t.station p).calls ≤ t.heard c + min 1 (t.station p).toHear
  down : ∀ p, ∀ c ∈ kids p,
    (t.station c).calls + (t.station c).downQueue + t.downFlight c + (t.station p).untold c ≤
      (t.station p).calls + (t.station c).unreleased
  done_le : ∀ r, (t.station r).done + (t.station r).unreleased ≤ (t.station r).calls

structure Phased (kids : ι → Finset ι) (root : ι) (t : Tally ι) : Prop where
  hears_first : ∀ p, ∀ c ∈ kids p, min 1 (t.station c).toHear ≤ (t.station c).unsent
  root_hears : min 1 (t.station root).toHear ≤ (t.station root).unreleased
  released_first : ∀ p, ∀ c ∈ kids p, (t.station p).unreleased ≤ (t.station p).untold c

theorem Balanced.reported_last (h : t.Balanced kids) {p : ι} (hhear : (t.station p).toHear = 1)
    (hqueue : 0 < (t.station p).upQueue) (htold : ∀ c ∈ kids p, (t.station p).untold c = 1)
    (hone : ∀ c, (t.station c).unreleased ≤ 1) : ∀ c ∈ kids p, t.heard c = (t.station p).calls := by
  apply eq_of_card_mul_le_sum
  · intro c hc
    have := h.down p c hc
    have := h.up c
    have := htold c hc
    have := hone c
    omega
  · have := h.gather p
    omega

/-- A step of the node `r`, with what it adds to the reports and releases under way. -/
structure Moves (kids : ι → Finset ι) (t t' : Tally ι) (r : ι) : Prop where
  others : ∀ s ≠ r, t'.station s = t.station s ∧ t'.upFlight s = t.upFlight s
  heard : t'.heard = t.heard
  downFlight : ∀ p ≠ r, ∀ c ∈ kids p, t'.downFlight c = t.downFlight c
  up : t.heard r + t'.upFlight r + (t'.station r).unsent ≤ (t'.station r).calls
  gather : (t'.station r).calls * (kids r).card + (t'.station r).upQueue + (t.station r).toHear ≤
    (t.station r).calls * (kids r).card + (t.station r).upQueue + (t'.station r).toHear
  reported : ∀ c ∈ kids r, (t'.station r).calls ≤ t.heard c + min 1 (t'.station r).toHear
  told : ∀ c ∈ kids r,
    t'.downFlight c + (t'.station r).untold c + (t.station r).calls ≤
      t.downFlight c + (t.station r).untold c + (t'.station r).calls
  released : ∀ p, r ∈ kids p →
    (t'.station r).calls + (t'.station r).downQueue + (t.station r).unreleased ≤
      (t.station r).calls + (t.station r).downQueue + (t'.station r).unreleased
  done_le : (t'.station r).done + (t'.station r).unreleased ≤ (t'.station r).calls

theorem Balanced.move (h : t.Balanced kids) {r : ι} (hm : Moves kids t t' r)
    (hirr : ∀ p, p ∉ kids p) : t'.Balanced kids := by
  constructor
  case up =>
    intro c
    have := h.up c
    rw [hm.heard]
    by_cases hc : c = r
    · subst hc
      exact hm.up
    · rwa [(hm.others c hc).1, (hm.others c hc).2]
  case gather =>
    intro p
    have := h.gather p
    rw [hm.heard]
    by_cases hp : p = r
    · subst hp
      have := hm.gather
      omega
    · rwa [(hm.others p hp).1]
  case reported =>
    intro p c hc
    rw [hm.heard]
    by_cases hp : p = r
    · subst hp
      exact hm.reported c hc
    · rw [(hm.others p hp).1]
      exact h.reported p c hc
  case down =>
    intro p c hc
    have := h.down p c hc
    by_cases hp : p = r
    · subst hp
      have hcp : c ≠ p := fun e => hirr p (e ▸ hc)
      have := hm.told c hc
      rw [(hm.others c hcp).1]
      omega
    · rw [(hm.others p hp).1, hm.downFlight p hp c hc]
      by_cases hcr : c = r
      · subst hcr
        have := hm.released p hc
        omega
      · rwa [(hm.others c hcr).1]
  case done_le =>
    intro s
    by_cases hs : s = r
    · subst hs
      exact hm.done_le
    · rw [(hm.others s hs).1]
      exact h.done_le s

theorem Balanced.carry (h : t.Balanced kids) {upQueue downQueue : ι → ℕ}
    (hstation : ∀ x, t'.station x =
      { t.station x with upQueue := upQueue x, downQueue := downQueue x })
    (hheard : ∀ c, t.heard c ≤ t'.heard c)
    (hup : ∀ c, t'.heard c + t'.upFlight c ≤ t.heard c + t.upFlight c)
    (hqueue : ∀ p, upQueue p + ∑ c ∈ kids p, t.heard c ≤
      (t.station p).upQueue + ∑ c ∈ kids p, t'.heard c)
    (hdown : ∀ c, downQueue c + t'.downFlight c ≤ (t.station c).downQueue + t.downFlight c) :
    t'.Balanced kids := by
  constructor
  case up =>
    intro c
    have := h.up c
    have := hup c
    simp only [hstation]
    omega
  case gather =>
    intro p
    have := h.gather p
    have := hqueue p
    simp only [hstation]
    omega
  case reported =>
    intro p c hc
    simp only [hstation]
    exact (h.reported p c hc).trans (Nat.add_le_add_right (hheard c) _)
  case down =>
    intro p c hc
    have := h.down p c hc
    have := hdown c
    simp only [hstation]
    omega
  case done_le =>
    intro r
    simp only [hstation]
    exact h.done_le r

theorem Balanced.done_le_calls (h : t.Balanced kids) {root : ι} (hph : t.Phased kids root) {r q : ι}
    (hr : Relation.ReflTransGen (fun p c => c ∈ kids p) root r)
    (hq : Relation.ReflTransGen (fun p c => c ∈ kids p) root q) :
    (t.station r).done ≤ (t.station q).calls := by
  -- releases pass down the tree, reports up
  have hreleased : (t.station r).calls + (t.station root).unreleased ≤
      (t.station root).calls + (t.station r).unreleased := by
    induction hr with
    | refl => exact le_rfl
    | @tail p c _ hc ih =>
      have := h.down p c hc
      have := hph.released_first p c hc
      omega
  have hreported : (t.station root).calls + min 1 (t.station q).toHear ≤
      (t.station q).calls + min 1 (t.station root).toHear := by
    induction hq with
    | refl => exact le_rfl
    | @tail p c _ hc ih =>
      have := h.reported p c hc
      have := h.up c
      have := hph.hears_first p c hc
      omega
  have := h.done_le r
  have := hph.root_hears
  omega

end Tally
end Cplant
