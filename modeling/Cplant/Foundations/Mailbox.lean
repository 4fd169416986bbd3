import Mathlib.Data.List.Nodup
import Mathlib.Data.List.Pairwise

/-!
Messages of several senders to one receiver. Those of one sender come in the order in which they
were sent, wait, and leave in an order that is up to the receiver.
-/
namespace Cplant
open List
open Function (update_self update_of_ne update)
variable {α ι : Type*}

structure Mailbox (α ι : Type*) where
  coming : ι → List α
  waiting : List α
  gone : List α

namespace Mailbox
section
variable (sender : α → ι) (num : α → ℕ)

def Present (b : Mailbox α ι) (x : α) : Prop :=
  x ∈ b.coming (sender x) ∨ x ∈ b.waiting ∨ x ∈ b.gone

/-- `num` numbers the messages of each sender in the order in which they were sent. -/
structure Ordered (b : Mailbox α ι) : Prop where
  own : ∀ i, ∀ x ∈ b.coming i, sender x = i
  coming : ∀ i, (b.coming i).Pairwise (num · < num ·)
  behind : ∀ x ∈ b.waiting ++ b.gone, ∀ y ∈ b.coming (sender x), num x < num y
  waiting : b.waiting.Pairwise fun x y => sender x = sender y → num x < num y
  nodup : (b.waiting ++ b.gone).Nodup

end

variable {sender : α → ι} {num : α → ℕ} {b : Mailbox α ι} {x y : α} {i : ι}
  {rest pre post gone front : List α}

namespace Ordered
section
variable (h : b.Ordered sender num)
include h

theorem arrived (hi : b.coming i = y :: rest) (hx : b.Present sender x) (hs : sender x = sender y)
    (hlt : num x < num y) : x ∈ b.waiting ∨ x ∈ b.gone := by
  have hy : sender y = i := h.own i y (hi ▸ mem_cons_self)
  rcases hx with hx | hx
  · have hsorted := h.coming i
    rw [hs, hy, hi, mem_cons] at hx
    rw [hi, pairwise_cons] at hsorted
    rcases hx with rfl | hx
    · exact absurd hlt (Nat.lt_irrefl _)
    · exact absurd hlt (Nat.lt_asymm (hsorted.1 x hx))
  · exact hx

theorem before (hw : b.waiting = pre ++ y :: post) (hx : b.Present sender x)
    (hs : sender x = sender y) (hlt : num x < num y) : x ∈ pre ∨ x ∈ b.gone := by
  have horder := h.waiting
  rw [hw, pairwise_append, pairwise_cons] at horder
  rcases hx with hx | hx | hx
  · have := h.behind y (by simp [hw]) x (hs ▸ hx)
    omega
  · rw [hw, mem_append, mem_cons] at hx
    rcases hx with hx | rfl | hx
    · exact .inl hx
    · exact absurd hlt (Nat.lt_irrefl _)
    · exact absurd hlt (Nat.lt_asymm (horder.2.1.1 x hx hs.symm))
  · exact .inr hx

theorem take (hw : b.waiting = pre ++ y :: post) (hg : gone.Perm (y :: b.gone)) :
    Ordered sender num ⟨b.coming, pre ++ post, gone⟩ where
  own := h.own
  coming := h.coming
  behind x hx := by
    apply h.behind x
    simp only [hg.mem_iff, hw, mem_append, mem_cons] at hx ⊢
    tauto
  waiting := by
    apply Pairwise.sublist _ h.waiting
    rw [hw]
    exact (sublist_cons_self y post).append_left pre
  nodup := by
    have hperm : ((pre ++ post) ++ gone).Perm (b.waiting ++ b.gone) := by
      rw [hw, append_assoc, append_assoc]
      apply Perm.append_left
      exact (Perm.append_left post hg).trans perm_middle
    exact hperm.nodup_iff.mpr h.nodup

theorem pass (hw : b.waiting = front ++ (pre ++ y :: post))
    (hpre : ∀ x ∈ pre, sender x ≠ sender y) :
    Ordered sender num ⟨b.coming, front ++ y :: (pre ++ post), b.gone⟩ where
  own := h.own
  coming := h.coming
  behind x hx := by
    apply h.behind x
    simp only [hw, mem_append, mem_cons] at hx ⊢
    tauto
  waiting := by
    have horder := h.waiting
    rw [hw, pairwise_append, pairwise_append, pairwise_cons] at horder
    obtain ⟨hf, ⟨hp, ⟨hy, hq⟩, hpy⟩, hfx⟩ := horder
    rw [pairwise_append, pairwise_cons, pairwise_append]
    refine ⟨hf, ⟨fun x hx hs => ?_, hp, hq, fun a ha c hc => hpy a ha c (by simp [hc])⟩,
      fun a ha c hc => hfx a ha c ?_⟩
    · rcases mem_append.mp hx with hx | hx
      · exact absurd hs.symm (hpre x hx)
      · exact hy x hx hs
    · simp only [mem_cons, mem_append] at hc ⊢
      tauto
  nodup := by
    have hperm : (front ++ y :: (pre ++ post)).Perm b.waiting := by
      rw [hw]
      exact Perm.append_left front perm_middle.symm
    exact (hperm.append_right b.gone).nodup_iff.mpr h.nodup

end

variable [DecidableEq ι]

theorem send (h : b.Ordered sender num) (hs : sender y = i)
    (hlt : ∀ x, b.Present sender x → num x < num y) : Ordered sender num
      ⟨update b.coming i (b.coming i ++ [y]), b.waiting, b.gone⟩ where
  own j x hx := by
    by_cases hj : j = i
    · subst hj
      simp only [update_self, mem_append, mem_singleton] at hx
      rcases hx with hx | rfl
      · exact h.own j x hx
      · exact hs
    · simp only [update_of_ne hj] at hx
      exact h.own j x hx
  coming j := by
    by_cases hj : j = i
    · subst hj
      simp only [update_self, pairwise_append]
      refine ⟨h.coming j, pairwise_singleton _ _, fun x hx z hz => ?_⟩
      rw [mem_singleton.mp hz]
      exact hlt x (.inl (h.own j x hx ▸ hx))
    · simp only [update_of_ne hj]
      exact h.coming j
  behind x hx z hz := by
    by_cases hj : sender x = i
    · simp only [hj, update_self, mem_append, mem_singleton] at hz
      rcases hz with hz | rfl
      · exact h.behind x hx z (hj ▸ hz)
      · exact hlt x (.inr (mem_append.mp hx))
    · simp only [update_of_ne hj] at hz
      exact h.behind x hx z hz
  waiting := h.waiting
  nodup := h.nodup

theorem arrive (h : b.Ordered sender num) (hi : b.coming i = y :: rest)
    (hg : gone.Perm (y :: b.gone)) :
    Ordered sender num ⟨update b.coming i rest, b.waiting, gone⟩ := by
  have hy : sender y = i := h.own i y (hi ▸ mem_cons_self)
  have hsub (j : ι) : (update b.coming i rest j).Sublist (b.coming j) := by
    by_cases hj : j = i
    · subst hj
      rw [update_self, hi]
      exact sublist_cons_self y rest
    · rw [update_of_ne hj]
  have hsorted := h.coming i
  rw [hi, pairwise_cons] at hsorted
  refine ⟨fun j x hx => h.own j x ((hsub j).subset hx),
    fun j => Pairwise.sublist (hsub j) (h.coming j), fun x hx z hz => ?_, h.waiting, ?_⟩
  · simp only [hg.mem_iff, mem_append, mem_cons] at hx
    by_cases hxy : x = y
    · subst hxy
      simp only [hy, update_self] at hz
      exact hsorted.1 z hz
    · apply h.behind x _ z ((hsub _).subset hz)
      simp only [mem_append]
      tauto
  · have hperm : (b.waiting ++ gone).Perm (y :: (b.waiting ++ b.gone)) :=
      (Perm.append_left b.waiting hg).trans perm_middle
    rw [hperm.nodup_iff, nodup_cons]
    refine ⟨fun hmem => ?_, h.nodup⟩
    exact absurd (h.behind y hmem y (by simp [hy, hi])) (Nat.lt_irrefl _)

theorem enter (h : b.Ordered sender num) (hi : b.coming i = y :: rest) :
    Ordered sender num ⟨update b.coming i rest, b.waiting ++ [y], b.gone⟩ := by
  have hy : sender y = i := h.own i y (hi ▸ mem_cons_self)
  have hgone := h.arrive hi (Perm.refl (y :: b.gone))
  refine ⟨hgone.own, hgone.coming, fun x hx => hgone.behind x ?_, ?_, ?_⟩
  · simp only [mem_append, mem_cons, not_mem_nil, or_false] at hx ⊢
    tauto
  · rw [pairwise_append]
    refine ⟨h.waiting, pairwise_singleton _ _, fun x hx z hz hs => ?_⟩
    rw [mem_singleton.mp hz] at hs ⊢
    exact h.behind x (mem_append_left _ hx) y (by simp [hs, hy, hi])
  · have hperm : (b.waiting ++ [y] ++ b.gone).Perm (b.waiting ++ (y :: b.gone)) := by
      rw [append_assoc, singleton_append]
    exact hperm.nodup_iff.mpr hgone.nodup

end Ordered

theorem present_take (hw : b.waiting = pre ++ y :: post) (hg : gone.Perm (y :: b.gone)) :
    Present sender ⟨b.coming, pre ++ post, gone⟩ x ↔ b.Present sender x := by
  simp only [Present, hw, hg.mem_iff, mem_append, mem_cons]
  tauto

theorem present_pass (hw : b.waiting = front ++ (pre ++ y :: post)) :
    Present sender ⟨b.coming, front ++ y :: (pre ++ post), b.gone⟩ x ↔ b.Present sender x := by
  simp only [Present, hw, mem_append, mem_cons]
  tauto

variable [DecidableEq ι]

theorem present_send (hs : sender y = i) :
    Present sender ⟨update b.coming i (b.coming i ++ [y]), b.waiting, b.gone⟩ x ↔
      b.Present sender x ∨ x = y := by
  by_cases hj : sender x = i
  · simp only [Present, hj, update_self, mem_append, mem_singleton]
    tauto
  · have hxy : x ≠ y := fun h => hj (h ▸ hs)
    simp [Present, update_of_ne hj, hxy]

theorem present_arrive (hi : b.coming i = y :: rest) (hs : sender y = i) {waiting : List α}
    (hmem : x ∈ waiting ∨ x ∈ gone ↔ x = y ∨ x ∈ b.waiting ∨ x ∈ b.gone) :
    Present sender ⟨update b.coming i rest, waiting, gone⟩ x ↔ b.Present sender x := by
  by_cases hj : sender x = i
  · simp only [Present, hj, update_self, hi, mem_cons]
    tauto
  · have hxy : x ≠ y := fun h => hj (h ▸ hs)
    simp only [Present, update_of_ne hj]
    tauto

end Mailbox
end Cplant
