import Mathlib.Tactic.Ring

/-!
# Gathering by halves

The entries `l`, ..., `r` are gathered at `l`: each half is gathered at its first entry, and the
first entry of the right half passes the right half on to `l`.
-/
namespace Cplant

/-- In the gathering of `l`, ..., `r` the entry `s` passes `s`, ..., `s + k - 1` on to `d`. -/
inductive HalvingEdge : (l r d s k : ℕ) → Prop
  | top {l r : ℕ} (h : l < r) : HalvingEdge l r l ((l + r) / 2 + 1) (r - (l + r) / 2)
  | left {l r d s k : ℕ} (h : l < r) :
      HalvingEdge l ((l + r) / 2) d s k → HalvingEdge l r d s k
  | right {l r d s k : ℕ} (h : l < r) :
      HalvingEdge ((l + r) / 2 + 1) r d s k → HalvingEdge l r d s k

namespace HalvingEdge
variable {l r d s k k' i : ℕ}

theorem range (h : HalvingEdge l r d s k) : l ≤ d ∧ d < s ∧ s + k ≤ r + 1 := by
  induction h with
  | top h => omega
  | left h _ ih => omega
  | right h _ ih => omega

theorem pos (h : HalvingEdge l r d s k) : 0 < k := by
  induction h with
  | top h => omega
  | left _ _ ih => exact ih
  | right _ _ ih => exact ih

theorem lt (h : HalvingEdge l r d s k) : l < r := by
  cases h with
  | top h => exact h
  | left h _ => exact h
  | right h _ => exact h

theorem iff_left (h : l < r) (hd : d ≤ (l + r) / 2) : HalvingEdge l r d s k ↔
      d = l ∧ s = (l + r) / 2 + 1 ∧ k = r - (l + r) / 2 ∨ HalvingEdge l ((l + r) / 2) d s k := by
  constructor
  · intro he
    cases he with
    | top => exact .inl ⟨rfl, rfl, rfl⟩
    | left _ he => exact .inr he
    | right _ he =>
      have := he.range
      omega
  · rintro (⟨rfl, rfl, rfl⟩ | he)
    · exact .top h
    · exact .left h he

theorem iff_right (h : l < r) (hd : (l + r) / 2 < d) :
    HalvingEdge l r d s k ↔ HalvingEdge ((l + r) / 2 + 1) r d s k := by
  constructor
  · intro he
    cases he with
    | top => omega
    | left _ he =>
      have := he.range
      omega
    | right _ he => exact he
  · exact .right h

theorem src_iff_left (h : l < r) (hs : s ≤ (l + r) / 2) :
    HalvingEdge l r d s k ↔ HalvingEdge l ((l + r) / 2) d s k := by
  constructor
  · intro he
    cases he with
    | top => omega
    | left _ he => exact he
    | right _ he =>
      have := he.range
      omega
  · exact .left h

theorem src_iff_right (h : l < r) (hs : (l + r) / 2 < s) : HalvingEdge l r d s k ↔
      d = l ∧ s = (l + r) / 2 + 1 ∧ k = r - (l + r) / 2 ∨
        HalvingEdge ((l + r) / 2 + 1) r d s k := by
  constructor
  · intro he
    cases he with
    | top => exact .inl ⟨rfl, rfl, rfl⟩
    | left _ he =>
      have := he.range
      have := he.pos
      omega
    | right _ he => exact .inr he
  · rintro (⟨rfl, rfl, rfl⟩ | he)
    · exact .top h
    · exact .right h he

theorem cover_root (hl : l ≤ i) (hr : i ≤ r) :
    i = l ∨ ∃ s k, HalvingEdge l r l s k ∧ s ≤ i ∧ i < s + k := by
  induction hn : r - l using Nat.strongRecOn generalizing r with
  | _ n ih =>
    by_cases hil : i = l
    · exact .inl hil
    have hlr : l < r := by omega
    by_cases hmid : i ≤ (l + r) / 2
    · rcases ih ((l + r) / 2 - l) (by omega) hmid rfl with h | ⟨s, k, he, hi⟩
      · exact .inl h
      · exact .inr ⟨s, k, .left hlr he, hi⟩
    · exact .inr ⟨_, _, .top hlr, by omega, by omega⟩

theorem cover (h : HalvingEdge l r d s k) (hs : s ≤ i) (hi : i < s + k) :
    i = s ∨ ∃ s' k', HalvingEdge l r s s' k' ∧ s' ≤ i ∧ i < s' + k' := by
  induction h with
  | @top l r h =>
    rcases cover_root (r := r) hs (by omega) with hroot | ⟨s', k', he, hi⟩
    · exact .inl hroot
    · exact .inr ⟨s', k', .right h he, hi⟩
  | left h _ ih =>
    rcases ih hs hi with hroot | ⟨s', k', he, hi⟩
    · exact .inl hroot
    · exact .inr ⟨s', k', .left h he, hi⟩
  | right h _ ih =>
    rcases ih hs hi with hroot | ⟨s', k', he, hi⟩
    · exact .inl hroot
    · exact .inr ⟨s', k', .right h he, hi⟩

end HalvingEdge
end Cplant
