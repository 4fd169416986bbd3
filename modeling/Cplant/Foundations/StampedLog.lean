import Mathlib.Data.List.Basic

/-!
# Stamps read by a cursor

A producer numbers the items it posts, and may skip numbers; a reader takes posted items and
keeps its cursor one behind the last one taken. When no number is missing at the end, the
cursor and the producer agree exactly if nothing posted lies ahead of the reader.
-/
namespace Cplant
open List Nat

structure StampedLog (posted taken : List ℕ) (next cursor : ℕ) : Prop where
  next_pos : 1 ≤ next
  range : ∀ y ∈ posted, 1 ≤ y ∧ y < next
  posted_of_taken : ∀ g ∈ taken, g ∈ posted
  ahead : ∀ g ∈ taken, g < cursor
  last : cursor = 1 ∧ taken = [] ∨ ∃ g ∈ taken, cursor = g + 1

namespace StampedLog
variable {posted taken : List ℕ} {next cursor : ℕ}

theorem empty : StampedLog [] [] 1 1 := ⟨Nat.le_refl 1, by simp, by simp, by simp, by simp⟩

section
variable (h : StampedLog posted taken next cursor)
include h

theorem cursor_pos : 1 ≤ cursor := by
  rcases h.last with ⟨h, -⟩ | ⟨g, -, h⟩
  · exact Nat.le_of_eq h.symm
  · omega

theorem skip : StampedLog posted taken (next + 1) cursor :=
  { h with
    next_pos := le_add_left 1 next
    range := fun y hy => ⟨(h.range y hy).1, lt_succ_of_lt (h.range y hy).2⟩ }

theorem post : StampedLog (posted ++ [next]) taken (next + 1) cursor := by
  refine { h.skip with range := fun y hy => ?_, posted_of_taken := fun g hg => ?_ }
  · rcases mem_append.mp hy with hy | hy
    · exact h.skip.range y hy
    · obtain rfl := mem_singleton.mp hy
      exact ⟨h.next_pos, lt_succ_self y⟩
  · exact mem_append_left _ (h.posted_of_taken g hg)

theorem take {y : ℕ} (hy : y ∈ posted) (hle : cursor ≤ y) :
    StampedLog posted (taken ++ [y]) next (y + 1) := by
  refine ⟨h.next_pos, h.range, fun g hg => ?_, fun g hg => ?_, .inr ⟨y, by simp, rfl⟩⟩
  · rcases mem_append.mp hg with hg | hg
    · exact h.posted_of_taken g hg
    · exact mem_singleton.mp hg ▸ hy
  · rcases mem_append.mp hg with hg | hg
    · have := h.ahead g hg
      omega
    · obtain rfl := mem_singleton.mp hg
      exact lt_succ_self g

theorem drained_iff (hlast : posted = [] ∧ next = 1 ∨ ∃ y ∈ posted, next = y + 1) :
    cursor = next ↔ ∀ y ∈ posted, ∃ g ∈ taken, y ≤ g := by
  constructor
  · rintro rfl y hy
    have hy' := h.range y hy
    rcases h.last with ⟨hone, -⟩ | ⟨g, hg, hcursor⟩
    · omega
    · exact ⟨g, hg, by omega⟩
  · intro hall
    rcases hlast with ⟨hnil, hone⟩ | ⟨y, hy, hnext⟩
    · rcases h.last with ⟨hcursor, -⟩ | ⟨g, hg, -⟩
      · exact hcursor.trans hone.symm
      · have hg := h.posted_of_taken g hg
        simp [hnil] at hg
    · obtain ⟨g, hg, hle⟩ := hall y hy
      have hahead := h.ahead g hg
      rcases h.last with ⟨hcursor, hempty⟩ | ⟨g', hg', hcursor⟩
      · simp [hempty] at hg
      · have hlt := (h.range g' (h.posted_of_taken g' hg')).2
        omega

end
end StampedLog
end Cplant
