import Mathlib.Data.Nat.ModEq
import Mathlib.Order.Interval.Finset.Nat

/-!
# Rings whose slots carry the position of what they hold

A writer puts the items of a stream, numbered from 1, into `n` slots: item `s`
goes to slot `s % n`. Each item carries its number as a stamp; a slot that was
never written has stamp 0. A reader that waits for item `r` looks at one slot
only, and learns from the stamp whether the item is missing, there, or gone.
-/
namespace Cplant
open Finset List Nat Function

structure RingHolds {α : Type*} (stamp : α → ℕ) (n : ℕ) (posted : List α) (slot : ℕ → α) :
    Prop where
  le : ∀ i < n, stamp (slot i) ≤ posted.length
  item : ∀ i < n, stamp (slot i) ≠ 0 →
    stamp (slot i) % n = i ∧ posted[stamp (slot i) - 1]? = some (slot i)
  newest : ∀ s, 1 ≤ s → s ≤ posted.length → s ≤ stamp (slot (s % n))

namespace RingHolds
variable {α : Type*} {stamp : α → ℕ} {n : ℕ} {posted : List α} {slot : ℕ → α}

theorem empty (h : ∀ i < n, stamp (slot i) = 0) : RingHolds stamp n [] slot where
  le := fun i hi => (h i hi).le
  item := fun i hi hne => absurd (h i hi) hne
  newest := fun s h1 h2 => by simp at h2; omega

section
variable (h : RingHolds stamp n posted slot)
include h

theorem post {x : α} (hx : stamp x = posted.length + 1) :
    RingHolds stamp n (posted ++ [x]) (update slot ((posted.length + 1) % n) x) where
  le := by
    intro i hi
    by_cases hw : i = (posted.length + 1) % n
    · simp [hw, hx]
    · have := h.le i hi
      simp [hw]
      omega
  item := by
    intro i hi hne
    by_cases hw : i = (posted.length + 1) % n
    · simp [hw, hx]
    · rw [update_of_ne hw] at hne ⊢
      obtain ⟨hmod, hget⟩ := h.item i hi hne
      have hlt := (List.getElem?_eq_some_iff.mp hget).1
      exact ⟨hmod, by rw [getElem?_append_left hlt, hget]⟩
  newest := by
    intro s h1 h2
    have hs : s ≤ posted.length + 1 := by simpa using h2
    by_cases hw : s % n = (posted.length + 1) % n
    · rw [hw, update_self, hx]
      exact hs
    · rw [update_of_ne hw]
      refine h.newest s h1 ?_
      have hne : s ≠ posted.length + 1 := fun he => hw (by rw [he])
      omega

section
variable {r : ℕ} (hn : 0 < n) (hr : 1 ≤ r)
include hn hr

theorem stamp_lt_iff : stamp (slot (r % n)) < r ↔ posted.length < r := by
  constructor
  · intro hlt
    by_contra hle
    have := h.newest r hr (by omega)
    omega
  · intro hlt
    have := h.le (r % n) (mod_lt _ hn)
    omega

theorem getElem?_stamp (hle : r ≤ stamp (slot (r % n))) :
    posted[stamp (slot (r % n)) - 1]? = some (slot (r % n)) :=
  (h.item (r % n) (mod_lt _ hn) (by omega)).2

theorem stamp_eq_iff : stamp (slot (r % n)) = r ↔ r ≤ posted.length ∧ posted.length < r + n := by
  have hle := h.le (r % n) (mod_lt _ hn)
  constructor
  · intro heq
    refine ⟨by omega, ?_⟩
    by_contra hover
    have hnew := h.newest (r + n) (by omega) (by omega)
    rw [add_mod_right] at hnew
    omega
  · rintro ⟨hpos, hover⟩
    have hnew := h.newest r hr hpos
    have hmod := (h.item (r % n) (mod_lt _ hn) (by omega)).1
    -- two numbers with one remainder, less than `n` apart
    have hdvd : n ∣ stamp (slot (r % n)) - r := (modEq_iff_dvd' hnew).mp hmod.symm
    have := eq_zero_of_dvd_of_lt hdvd (by omega)
    omega

theorem lt_stamp_add (hle : r ≤ stamp (slot (r % n))) :
    posted.length < stamp (slot (r % n)) + n := by
  have hmod := (h.item (r % n) (mod_lt _ hn) (by omega)).1
  by_contra hover
  have hnew := h.newest (stamp (slot (r % n)) + n) (by omega) (by omega)
  rw [add_mod_right, hmod] at hnew
  omega

end
end
end RingHolds
end Cplant
