import Mathlib.Algebra.Order.BigOperators.Group.Finset

/-!
Blocks that are written one by one into an array, each at the offset that the blocks before it
leave. The order in which they are written does not matter: the array holds their
concatenation.
-/
namespace Cplant
open List Function
variable {α : Type*} {n : ℕ}

def blockOffset (block : ℕ → List α) (i : ℕ) : ℕ := ∑ j ∈ Finset.range i, (block j).length

def copyTo (off : ℤ) (l : List α) : List (ℤ × α) := l.zipIdx.map fun x => (off + x.2, x.1)

def written (init : ℤ → α) (ws : List (ℤ × α)) : ℤ → α :=
  ws.foldl (fun a w => update a w.1 w.2) init

theorem mem_copyTo {off : ℤ} {l : List α} {w : ℤ × α} :
    w ∈ copyTo off l ↔ ∃ k : ℕ, l[k]? = some w.2 ∧ w.1 = off + k := by
  rw [copyTo, mem_map]
  constructor
  · rintro ⟨x, hx, rfl⟩
    exact ⟨x.2, mem_zipIdx_iff_getElem?.mp hx, rfl⟩
  · rintro ⟨k, hk, hw⟩
    exact ⟨(w.2, k), mem_zipIdx_iff_getElem?.mpr hk, Prod.ext hw.symm rfl⟩

theorem written_eq {init f : ℤ → α} {ws : List (ℤ × α)} {p : ℤ} (hagree : ∀ w ∈ ws, w.2 = f w.1)
    (hp : init p = f p ∨ ∃ w ∈ ws, w.1 = p) : written init ws p = f p := by
  induction ws generalizing init with
  | nil => simpa [written] using hp
  | cons w ws ih =>
    rw [forall_mem_cons] at hagree
    refine ih hagree.2 ?_
    dsimp only
    by_cases hw : p = w.1
    · left
      rw [hw, update_self, hagree.1]
    · rw [update_of_ne hw]
      refine hp.imp_right ?_
      rintro ⟨v, hv, rfl⟩
      rcases mem_cons.mp hv with rfl | hv
      · exact absurd rfl hw
      · exact ⟨v, hv, rfl⟩

section
variable (block : ℕ → List α)
include block

theorem blockOffset_succ (i : ℕ) :
    blockOffset block (i + 1) = blockOffset block i + (block i).length :=
  Finset.sum_range_succ _ i

theorem blockOffset_mono : Monotone (blockOffset block) :=
  fun _ _ h => Finset.sum_le_sum_of_subset (Finset.range_mono h)

theorem length_flatMap_range (n : ℕ) : ((range n).flatMap block).length = blockOffset block n := by
  induction n with
  | zero => rfl
  | succ n ih =>
    rw [range_succ, flatMap_append, length_append, ih, blockOffset_succ, flatMap_singleton]

theorem getElem?_flatMap_range {i k : ℕ} (hi : i < n) (hk : k < (block i).length) :
    ((range n).flatMap block)[blockOffset block i + k]? = (block i)[k]? := by
  induction n with
  | zero => exact absurd hi i.not_lt_zero
  | succ n ih =>
    rw [range_succ, flatMap_append, flatMap_singleton]
    rcases Nat.lt_succ_iff_lt_or_eq.mp hi with hi | rfl
    · have hin := ih hi
      rw [getElem?_eq_getElem hk] at hin ⊢
      rw [List.getElem?_append_left (List.getElem?_eq_some_iff.mp hin).1, hin]
    · rw [← length_flatMap_range, getElem?_append_right (Nat.le_add_right _ _),
        Nat.add_sub_cancel_left]

theorem exists_block {p : ℕ} (hp : p < blockOffset block n) :
    ∃ i < n, ∃ k < (block i).length, p = blockOffset block i + k := by
  induction n with
  | zero => exact absurd hp p.not_lt_zero
  | succ n ih =>
    rw [blockOffset_succ] at hp
    rcases lt_or_ge p (blockOffset block n) with hlt | hge
    · obtain ⟨i, hi, h⟩ := ih hlt
      exact ⟨i, hi.trans n.lt_succ_self, h⟩
    · exact ⟨n, n.lt_succ_self, p - blockOffset block n, by omega, by omega⟩

end

theorem written_blocks (init : ℤ → α) (block : ℕ → List α) {order : List ℕ}
    (hperm : order.Perm (range n)) : (range (blockOffset block n)).map (fun p : ℕ => written init
      (order.flatMap fun i => copyTo (blockOffset block i) (block i)) p) =
        (range n).flatMap block := by
  refine ext_getElem? fun p => ?_
  rw [getElem?_map]
  rcases lt_or_ge p (blockOffset block n) with hp | hp
  · rw [getElem?_range hp, Option.map_some]
    have hin : p < ((range n).flatMap block).length := by rwa [length_flatMap_range]
    rw [getElem?_eq_getElem hin]
    refine congrArg some ?_
    let whole : ℤ → α := fun q => (((range n).flatMap block)[q.toNat]?).getD (init q)
    have hwhole : whole p = ((range n).flatMap block)[p] := by
      simp [whole, getElem?_eq_getElem hin, Option.getD_some]
    rw [← hwhole]
    refine written_eq ?_ (.inr ?_)
    · intro w hw
      obtain ⟨i, hi, hw⟩ := mem_flatMap.mp hw
      obtain ⟨k, hk, hoff⟩ := mem_copyTo.mp hw
      have hlen := (List.getElem?_eq_some_iff.mp hk).1
      have hget := getElem?_flatMap_range block (mem_range.mp (hperm.mem_iff.mp hi)) hlen
      simp only [whole]
      rw [show w.1.toNat = blockOffset block i + k by omega, hget, hk, Option.getD_some]
    · obtain ⟨i, hi, k, hk, rfl⟩ := exists_block block hp
      refine ⟨(blockOffset block i + k, (block i)[k]), ?_, by push_cast; rfl⟩
      refine mem_flatMap.mpr ⟨i, hperm.mem_iff.mpr (mem_range.mpr hi), ?_⟩
      exact mem_copyTo.mpr ⟨k, getElem?_eq_getElem hk, rfl⟩
  · rw [getElem?_eq_none (by simpa using hp), Option.map_none,
      getElem?_eq_none (by rw [length_flatMap_range]; exact hp)]

end Cplant
