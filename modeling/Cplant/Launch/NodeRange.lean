import Mathlib.Data.Int.Order.Basic
import Mathlib.Data.List.Basic

/-!
# Simple ranges of nodes

`simpleNodeRange` tells whether the nodes of a list follow one another, so that its two ends say
what is in it. `none` is a read outside of the list.
-/
namespace Cplant.Launch
variable (list : List ℤ)

def ascend (i : ℕ) (a : ℤ) : Bool :=
  if h : i < list.length - 1 then
    if list[i] ≠ a + 1 then false else ascend (i + 1) (a + 1)
  else true
termination_by list.length - i

def descend (i : ℕ) (b : ℤ) : Option Bool :=
  if 0 < i then
    if h : i < list.length then
      if list[i] ≠ b - 1 then some false else descend (i + 1) (b - 1)
    else none
  else some true
termination_by list.length - i

def simpleNodeRange : Option Bool :=
  if h : 1 < list.length then
    let a := list[0]
    let b := list[list.length - 1]
    if a < b then
      if b - a + 1 ≠ list.length then some false else some (ascend list 1 a)
    else
      if a - b + 1 ≠ list.length then some false else descend list (list.length - 2) b
  else some true

def Run (step : ℤ) : Prop := ∃ a, ∀ i (h : i < list.length), list[i] = a + step * i

variable {list} {a b : ℤ} {i : ℕ} {step : ℤ}

theorem ascend_iff : ascend list i a = true ↔
    ∀ j (h : j + 1 < list.length), i ≤ j → list[j] = a + (j + 1 - i) := by
  fun_induction ascend list i a with
  | case1 i a hi hne =>
    refine iff_of_false nofun fun hall => hne ?_
    have := hall i (by omega) (Nat.le_refl i)
    omega
  | case2 i a hi heq ih =>
    refine ih.trans (forall₂_congr fun j hj => ?_)
    grind
  | case3 i a hi => exact iff_of_true rfl fun j hj hij => by omega

theorem descend_eq (h : 2 < list.length) :
    descend list (list.length - 2) list[list.length - 1] = some false := by
  have hnext : list.length - 2 + 1 = list.length - 1 := by omega
  rw [descend, if_pos (by omega), dif_pos (by omega)]
  split_ifs with hne
  · rfl
  · simp only [hnext]
    rw [descend, if_pos (by omega), dif_pos (by omega), if_pos (by omega)]

theorem Run.last (hrun : Run list step) (h : 0 < list.length) :
    list[list.length - 1] = list[0] + step * ((list.length - 1 : ℕ) : ℤ) := by
  obtain ⟨a, ha⟩ := hrun
  simp [ha]

theorem simpleNodeRange_eq (list : List ℤ) : ∃ r, simpleNodeRange list = some r ∧
    (r = true ↔ Run list 1 ∨ Run list (-1) ∧ list.length < 3) := by
  unfold simpleNodeRange
  split_ifs with h
  · have hup := fun hrun : Run list 1 => hrun.last (by omega)
    have hdown := fun hrun : Run list (-1) => hrun.last (by omega)
    dsimp only
    split_ifs with hab hsize hsize
    · exact ⟨false, rfl, iff_of_false nofun (by grind)⟩
    · refine ⟨_, rfl, ascend_iff.trans ⟨fun hall => .inl ⟨list[0], fun i hi => ?_⟩, ?_⟩⟩
      · grind
      · rintro (⟨a, ha⟩ | hrun) j hj -
        · grind
        · grind
    · exact ⟨false, rfl, iff_of_false nofun (by grind)⟩
    · by_cases hthree : 2 < list.length
      · exact ⟨false, descend_eq hthree, iff_of_false nofun (by grind)⟩
      · have hlen : list.length = 2 := by omega
        refine ⟨true, by rw [descend, if_neg (by omega)], iff_of_true rfl
          (.inr ⟨⟨list[0], fun i hi => ?_⟩, by omega⟩)⟩
        obtain rfl | rfl : i = 0 ∨ i = 1 := by omega
        · simp
        · grind
  · refine ⟨true, rfl, iff_of_true rfl (.inl ⟨list.headD 0, fun i hi => ?_⟩)⟩
    obtain rfl : i = 0 := by omega
    simp [List.head?_eq_getElem?, hi]

/-- A list of nodes is judged right just if it does not go down over three nodes or more. -/
theorem simpleNodeRange_iff (list : List ℤ) :
    (∃ r, simpleNodeRange list = some r ∧ (r = true ↔ Run list 1 ∨ Run list (-1))) ↔
      list.length < 3 ∨ ¬ Run list (-1) := by
  obtain ⟨r, hr, hiff⟩ := simpleNodeRange_eq list
  simp only [hr, Option.some.injEq, exists_eq_left', hiff]
  by_cases hthree : list.length < 3
  · simp [hthree]
  · have hone : Run list (-1) → ¬ Run list 1 := by
      intro hdown hup
      have hlast := (hdown.last (by omega)).symm.trans (hup.last (by omega))
      omega
    tauto

theorem descending_refused : Run [3, 2, 1] (-1) ∧ simpleNodeRange [3, 2, 1] = some false :=
  ⟨⟨3, by decide⟩, descend_eq (by decide)⟩

end Cplant.Launch
