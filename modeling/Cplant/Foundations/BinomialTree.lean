import Mathlib.Data.Nat.Bitwise
import Mathlib.Data.Nat.Multiplicity

/-!
The binomial tree on the natural numbers. The parent of a number is the number
with its lowest set bit cleared, so that the children of `m` are the `m + 2 ^ k`
for the `k` below its lowest set bit, and all of them for `0`, the root. Cutting
the tree off at `n` cuts off whole subtrees, since a child is larger than its
parent.
-/
namespace Cplant
open List Nat
variable {m k p c n j : ℕ}

theorem xor_two_pow_of_dvd (h : 2 ^ k ∣ m) :
    m ^^^ 2 ^ k = if 2 ^ (k + 1) ∣ m then m + 2 ^ k else m - 2 ^ k := by
  obtain ⟨q, rfl⟩ := h
  have hxor : 2 ^ k * q ^^^ 2 ^ k = 2 ^ k * (q ^^^ 1) := by
    have hshift := shiftLeft_xor_distrib (a := q) (b := 1) (i := k)
    simp only [shiftLeft_eq, one_mul] at hshift
    rw [mul_comm (2 ^ k) q, ← hshift, mul_comm]
  have hdvd : 2 ^ (k + 1) ∣ 2 ^ k * q ↔ Even q := by
    rw [pow_succ, Nat.mul_dvd_mul_iff_left (Nat.two_pow_pos k), even_iff_two_dvd]
  rw [hxor]
  split_ifs with hq
  · rw [xor_one_of_even (hdvd.mp hq), mul_add, mul_one]
  · rw [Nat.xor_one_of_odd (Nat.not_even_iff_odd.mp (mt hdvd.mpr hq)), Nat.mul_sub, mul_one]

def Hangs (p c : ℕ) : Prop :=
  ∃ k, 2 ^ (k + 1) ∣ p ∧ c = p + 2 ^ k

theorem Hangs.lt (h : Hangs p c) : p < c := by
  obtain ⟨k, -, rfl⟩ := h
  have := Nat.two_pow_pos k
  omega

theorem dvd_add_two_pow (h : 2 ^ (k + 1) ∣ p) : 2 ^ j ∣ p + 2 ^ k ↔ j ≤ k := by
  constructor
  · intro hj
    by_contra hkj
    have hdvd : 2 ^ (k + 1) ∣ p + 2 ^ k := (pow_dvd_pow 2 (by omega)).trans hj
    have hle := Nat.le_of_dvd (Nat.two_pow_pos k) ((Nat.dvd_add_right h).mp hdvd)
    omega
  · intro hj
    have hp : 2 ^ j ∣ p := (pow_dvd_pow 2 (hj.trans (le_succ k))).trans h
    exact dvd_add hp (pow_dvd_pow 2 hj)

theorem hangs_iff : Hangs p c ↔ ∃ k, 2 ^ k ∣ c ∧ ¬2 ^ (k + 1) ∣ c ∧ p = c - 2 ^ k ∧ 2 ^ k ≤ c := by
  constructor
  · rintro ⟨k, hk, rfl⟩
    refine ⟨k, (dvd_add_two_pow hk).mpr le_rfl, ?_, by omega, by omega⟩
    rw [dvd_add_two_pow hk]
    omega
  · rintro ⟨k, ⟨q, rfl⟩, hodd, rfl, hle⟩
    rw [pow_succ, Nat.mul_dvd_mul_iff_left (Nat.two_pow_pos k)] at hodd
    refine ⟨k, ?_, by omega⟩
    obtain ⟨t, rfl⟩ : ∃ t, q = 2 * t + 1 := ⟨q / 2, by omega⟩
    exact ⟨t, by rw [pow_succ, Nat.mul_add, Nat.mul_one, Nat.add_sub_cancel, Nat.mul_assoc]⟩

theorem level_unique (hj : 2 ^ j ∣ c) (hj' : ¬2 ^ (j + 1) ∣ c) (hk : 2 ^ k ∣ c)
    (hk' : ¬2 ^ (k + 1) ∣ c) : j = k := by
  have hle : ∀ {a b : ℕ}, 2 ^ a ∣ c → ¬2 ^ (b + 1) ∣ c → a ≤ b := fun ha hb =>
    Nat.le_of_not_lt fun h => hb ((pow_dvd_pow 2 h).trans ha)
  exact le_antisymm (hle hj hk') (hle hk hj')

theorem exists_level (hc : c ≠ 0) : ∃ k, 2 ^ k ∣ c ∧ ¬2 ^ (k + 1) ∣ c ∧ 2 ^ k ≤ c := by
  obtain ⟨k, q, hq, rfl⟩ := exists_eq_pow_mul_and_not_dvd hc 2 (by decide)
  refine ⟨k, Nat.dvd_mul_right _ _, ?_, Nat.le_mul_of_pos_right _ (by omega)⟩
  rwa [pow_succ, Nat.mul_dvd_mul_iff_left (Nat.two_pow_pos k)]

theorem exists_hangs (hc : c ≠ 0) : ∃ p, Hangs p c := by
  obtain ⟨k, hk, hk', hle⟩ := exists_level hc
  exact ⟨c - 2 ^ k, hangs_iff.mpr ⟨k, hk, hk', rfl, hle⟩⟩

theorem hangs_connected (c : ℕ) : Relation.ReflTransGen Hangs 0 c := by
  induction c using Nat.strong_induction_on with
  | _ c ih =>
    rcases eq_or_ne c 0 with rfl | hc
    · exact .refl
    · obtain ⟨p, hp⟩ := exists_hangs hc
      exact (ih p hp.lt).tail hp

/-- What a node passes to its parent reaches the root, and what the root passes on reaches every
node. -/
theorem pass_around {up down : ℕ → Prop} (hup : ∀ p c, Hangs p c → c < n → up c → up p)
    (hdown : ∀ p c, Hangs p c → c < n → down p → down c) (hroot : up 0 → down 0) {a b : ℕ}
    (ha : a < n) (hb : b < n) (h : up a) : down b := by
  have htop : up 0 := by
    induction hangs_connected a with
    | refl => exact h
    | @tail p c _ hpc ih => exact ih (hpc.lt.trans ha) (hup p c hpc ha h)
  induction hangs_connected b with
  | refl => exact hroot htop
  | @tail p c _ hpc ih => exact hdown p c hpc hb (ih (hpc.lt.trans hb))

/-- The children of `m` below `n` at the levels `k`, `k + 1`, ..., `k + len - 1`. -/
def childrenFrom (n m k len : ℕ) : List ℕ :=
  ((range' k len).filter fun j => 2 ^ (j + 1) ∣ m ∧ m + 2 ^ j < n).map (m + 2 ^ ·)

/-- The parent of `m`, if the lowest set bit of `m` is among `k`, ..., `k + len - 1`. -/
def parentFrom (m k len : ℕ) : Option ℕ :=
  ((range' k len).find? fun j => 2 ^ j ∣ m ∧ ¬2 ^ (j + 1) ∣ m).map (m - 2 ^ ·)

theorem mem_childrenFrom {len : ℕ} : c ∈ childrenFrom n m k len ↔
      ∃ j, (k ≤ j ∧ j < k + len) ∧ (2 ^ (j + 1) ∣ m ∧ m + 2 ^ j < n) ∧ m + 2 ^ j = c := by
  simp [childrenFrom, mem_range'_1, and_assoc]

theorem childrenFrom_succ (n m k len : ℕ) (hk : 2 ^ (k + 1) ∣ m) : childrenFrom n m k (len + 1) =
      if m + 2 ^ k < n then (m + 2 ^ k) :: childrenFrom n m (k + 1) len
      else childrenFrom n m (k + 1) len := by
  rw [childrenFrom, range'_succ, filter_cons]
  simp only [hk, true_and, decide_eq_true_eq]
  split_ifs <;> rfl

theorem childrenFrom_of_not_dvd (hk : ¬2 ^ (k + 1) ∣ m) (n len : ℕ) :
    childrenFrom n m k len = [] := by
  refine eq_nil_iff_forall_not_mem.mpr fun c hc => ?_
  obtain ⟨j, ⟨hkj, -⟩, ⟨hdvd, -⟩, -⟩ := mem_childrenFrom.mp hc
  exact hk ((pow_dvd_pow 2 (succ_le_succ hkj)).trans hdvd)

theorem childrenFrom_of_le (hn : n ≤ 2 ^ k) (m len : ℕ) : childrenFrom n m k len = [] := by
  refine eq_nil_iff_forall_not_mem.mpr fun c hc => ?_
  obtain ⟨j, ⟨hkj, -⟩, ⟨-, hlt⟩, -⟩ := mem_childrenFrom.mp hc
  have := Nat.pow_le_pow_right (n := 2) (by decide) hkj
  omega

theorem parentFrom_succ (hk : 2 ^ (k + 1) ∣ m) (len : ℕ) :
    parentFrom m k (len + 1) = parentFrom m (k + 1) len := by
  rw [parentFrom, range'_succ, find?_cons_of_neg (by simp [hk])]
  rfl

theorem parentFrom_of_level (hk : 2 ^ k ∣ m) (hk' : ¬2 ^ (k + 1) ∣ m) (len : ℕ) :
    parentFrom m k (len + 1) = some (m - 2 ^ k) := by
  rw [parentFrom, range'_succ, find?_cons_of_pos (by simp [hk, hk'])]
  rfl

theorem parentFrom_zero (k len : ℕ) : parentFrom 0 k len = none := by simp [parentFrom]

theorem mem_children : c ∈ childrenFrom n m 0 n ↔ Hangs m c ∧ c < n := by
  rw [mem_childrenFrom]
  constructor
  · rintro ⟨j, -, ⟨hdvd, hlt⟩, rfl⟩
    exact ⟨⟨j, hdvd, rfl⟩, hlt⟩
  · rintro ⟨⟨j, hdvd, rfl⟩, hlt⟩
    have : j < 2 ^ j := Nat.lt_two_pow_self
    exact ⟨j, by omega, ⟨hdvd, hlt⟩, rfl⟩

theorem childrenFrom_nodup (n m k len : ℕ) : (childrenFrom n m k len).Nodup := by
  refine Nodup.map ?_ (Nodup.filter _ nodup_range')
  intro a b hab
  exact Nat.pow_right_injective (le_refl 2) (add_left_cancel hab)

theorem length_childrenFrom_le {d : ℕ} (hn : n ≤ 2 ^ d) (m k len : ℕ) :
    (childrenFrom n m k len).length ≤ d := by
  rw [childrenFrom, length_map]
  refine (Subperm.length_le ?_).trans_eq (length_range (n := d))
  refine Nodup.subperm (Nodup.filter _ nodup_range') ?_
  intro j hj
  have hlt := (decide_eq_true_iff.mp (mem_filter.mp hj).2).2
  exact mem_range.mpr ((Nat.pow_lt_pow_iff_right (a := 2) (by decide)).mp (by omega))

theorem parentFrom_eq_some (hmn : m < n) : parentFrom m 0 n = some p ↔ Hangs p m := by
  rw [parentFrom, Option.map_eq_some_iff, hangs_iff]
  constructor
  · rintro ⟨k, hk, rfl⟩
    have hfound := find?_some hk
    have hlevel := of_decide_eq_true hfound
    have hm : m ≠ 0 := by
      rintro rfl
      exact hlevel.2 (dvd_zero _)
    exact ⟨k, hlevel.1, hlevel.2, rfl, le_of_dvd (pos_of_ne_zero hm) hlevel.1⟩
  · rintro ⟨k, hk, hk', rfl, hle⟩
    have hlt : k < n := Nat.lt_two_pow_self.trans_le (hle.trans hmn.le)
    obtain ⟨j, hj⟩ : ∃ j, (range' 0 n).find? (fun j => 2 ^ j ∣ m ∧ ¬2 ^ (j + 1) ∣ m) = some j := by
      rw [← Option.isSome_iff_exists, find?_isSome]
      exact ⟨k, mem_range'_1.mpr ⟨zero_le _, by omega⟩, decide_eq_true ⟨hk, hk'⟩⟩
    have hfound := find?_some hj
    have hlevel := of_decide_eq_true hfound
    exact ⟨j, hj, by rw [level_unique hlevel.1 hlevel.2 hk hk']⟩

end Cplant
