import Mathlib.Data.List.Infix
import Mathlib.Tactic.Ring

/-!
# Rounds told apart by counting

Two parties go through rounds, each in an order of its own. The rounds that they share come in
the same order. A message of a shared round carries nothing that names the round: it is known by
the number of messages before it.
-/
namespace Cplant
open List
variable {ι : Type*} {P Q : ι → Bool} {l l' a a' b : List ι} {i : ι}

/-- The rounds of `P` come in the same order in both programs, as far as both go. -/
def SameOrder (P : ι → Bool) (l l' : List ι) : Prop :=
  l.filter P <+: l'.filter P ∨ l'.filter P <+: l.filter P

instance [DecidableEq ι] (P : ι → Bool) (l l' : List ι) : Decidable (SameOrder P l l') :=
  inferInstanceAs (Decidable (_ ∨ _))

namespace SameOrder

theorem mono (h : SameOrder P l l') (hQ : ∀ i, Q i → P i) : SameOrder Q l l' := by
  have hfilter : ∀ m : List ι, m.filter Q = (m.filter P).filter Q := fun m => by
    rw [filter_filter]
    apply filter_congr
    intro i _
    cases hq : Q i with
    | false => rfl
    | true => rw [hQ i hq]; rfl
  rw [SameOrder, hfilter l, hfilter l']
  exact h.imp (fun h => h.filter Q) fun h => h.filter Q

theorem restrict (h : SameOrder P l l') (ha : a <+: l) (ha' : a' <+: l') : SameOrder P a a' := by
  have ha := ha.filter P
  have ha' := ha'.filter P
  rcases h with h | h
  · exact prefix_or_prefix_of_prefix (ha.trans h) ha'
  · exact prefix_or_prefix_of_prefix ha (ha'.trans h)

theorem mem_of_countP_lt (h : SameOrder P (a ++ i :: b) a') (hi : P i)
    (hlt : a.countP P < a'.countP P) : i ∈ a' := by
  rw [countP_eq_length_filter, countP_eq_length_filter] at hlt
  have hsplit : (a ++ i :: b).filter P = a.filter P ++ i :: b.filter P := by
    rw [filter_append, filter_cons_of_pos hi]
  have hget : (a'.filter P)[(a.filter P).length]? = some i := by
    have hthere : ((a ++ i :: b).filter P)[(a.filter P).length]? = some i := by
      rw [hsplit, getElem?_append_right (Nat.le_refl _), Nat.sub_self]
      rfl
    rcases h with ⟨t, ht⟩ | ⟨t, ht⟩
    · rw [← ht, List.getElem?_append_left (List.getElem?_eq_some_iff.mp hthere).1, hthere]
    · rw [← hthere, ← ht, getElem?_append_left hlt]
  exact mem_of_mem_filter (mem_of_getElem? hget)

end SameOrder

theorem sum_count_eq_countP {α : Type*} [DecidableEq α] {f : ι → List α} (hf : ∀ i, (f i).Nodup)
    (q : α) (l : List ι) : (l.map fun i => (f i).count q).sum = l.countP fun i => q ∈ f i := by
  induction l with
  | nil => rfl
  | cons i l ih =>
    rw [map_cons, sum_cons, ih, countP_cons, Nat.add_comm, (hf i).count]
    simp

end Cplant
