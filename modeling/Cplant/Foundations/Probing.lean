import Mathlib.Data.Finset.Card
import Mathlib.Data.Nat.ModEq

/-!
# Open addressing

A table of `n` slots that is searched from a 32-bit hash value on. The hash value wraps around
before it is reduced, so not all slots need be looked at; but half of them are.
-/
namespace Cplant.Foundations
open Finset

def probe (n : ℕ) (h : UInt32) (i : ℕ) : ℕ := (h + UInt32.ofNat i).toNat % n

def seek (n : ℕ) (h : UInt32) (p : ℕ → Bool) : Option ℕ := ((List.range n).map (probe n h)).find? p

variable {n m : ℕ} {h : UInt32} {p : ℕ → Bool} {k : ℕ}

theorem of_seek (hk : seek n h p = some k) : p k = true ∧ ∃ i < n, k = probe n h i := by
  obtain ⟨i, hi, rfl⟩ := List.mem_map.mp (List.mem_of_find?_eq_some hk)
  exact ⟨List.find?_some hk, i, List.mem_range.mp hi, rfl⟩

theorem exists_seek {i : ℕ} (hi : i < n) (hp : p (probe n h i) = true) :
    ∃ k, seek n h p = some k := by
  apply Option.isSome_iff_exists.mp
  rw [seek, List.find?_isSome]
  exact ⟨_, List.mem_map_of_mem (List.mem_range.mpr hi), hp⟩

/-- The search goes over `m` different slots of `2 * m - 1`, before the hash value wraps around
or after it. -/
theorem exists_probe_inj (hm : m ≤ 2 ^ 31) (h : UInt32) : ∃ b, b + m ≤ 2 * m - 1 ∧
    ∀ i < m, ∀ j < m, probe (2 * m - 1) h (b + i) = probe (2 * m - 1) h (b + j) → i = j := by
  have hval (i : ℕ) (hi : i < 2 ^ 32) : (h + UInt32.ofNat i).toNat = (h.toNat + i) % 2 ^ 32 := by
    rw [UInt32.toNat_add, UInt32.toNat_ofNat', Nat.mod_eq_of_lt hi]
  have hh : h.toNat < 2 ^ 32 := h.toNat_lt
  by_cases hwrap : h.toNat + m ≤ 2 ^ 32
  · refine ⟨0, by omega, fun i hi j hj hij => ?_⟩
    have hprobe (i : ℕ) (hi : i < m) :
        probe (2 * m - 1) h (0 + i) = (h.toNat + i) % (2 * m - 1) := by
      have hlt : h.toNat + i < 2 ^ 32 := by omega
      rw [probe, hval _ (by omega), zero_add, Nat.mod_eq_of_lt hlt]
    rw [hprobe i hi, hprobe j hj] at hij
    exact (Nat.ModEq.add_left_cancel' h.toNat hij).eq_of_lt_of_lt (by omega) (by omega)
  · refine ⟨2 ^ 32 - h.toNat, by omega, fun i hi j hj hij => ?_⟩
    have hprobe (i : ℕ) (hi : i < m) : probe (2 * m - 1) h (2 ^ 32 - h.toNat + i) = i := by
      have hsum : h.toNat + (2 ^ 32 - h.toNat + i) = 2 ^ 32 + i := by omega
      rw [probe, hval _ (by omega), hsum, Nat.add_mod_left, Nat.mod_eq_of_lt (by omega),
        Nat.mod_eq_of_lt (by omega)]
    rwa [hprobe i hi, hprobe j hj] at hij

theorem exists_seek_free {V : Type*} [DecidableEq V] {live : Finset V} {v : V} {o : ℕ → Option V}
    (hm : m ≤ 2 ^ 31) (hlive : live.card ≤ m) (hv : v ∈ live)
    (hinj : ∀ i j w, o i = some w → o j = some w → i = j)
    (hocc : ∀ i w, o i = some w → w ∈ live.erase v) (h : UInt32) :
    ∃ i < 2 * m - 1, o (probe (2 * m - 1) h i) = none := by
  by_contra hfull
  push Not at hfull
  obtain ⟨b, hb, hb'⟩ := exists_probe_inj hm h
  have hsome : ∀ i < m, ∃ w, o (probe (2 * m - 1) h (b + i)) = some w := fun i hi =>
    Option.ne_none_iff_exists'.mp (hfull _ (by omega))
  have : Nonempty V := ⟨v⟩
  choose! w hw using hsome
  have hcard : m ≤ (live.erase v).card := by
    calc m = (range m).card := (card_range m).symm
      _ ≤ (live.erase v).card := card_le_card_of_injOn w
          (fun i hi => hocc _ _ (hw i (mem_range.mp hi))) fun i hi j hj hij => by
            rw [coe_range, Set.mem_Iio] at hi hj
            exact hb' i hi j hj (hinj _ _ _ (hw i hi) (hij ▸ hw j hj))
  rw [card_erase_of_mem hv] at hcard
  have := card_pos.mpr ⟨v, hv⟩
  omega

end Cplant.Foundations
