import Mathlib.Algebra.BigOperators.Group.List.Basic
import Mathlib.Tactic.Abel

/-!
Lists in which an entry is found by a test: the first entry that passes is looked
up with `List.find?`, taken out with `List.eraseP`, or changed with `updateFirst`.
-/
namespace Cplant
open List Bool
variable {α β : Type*} {p : α → Bool} {f g : α → α} {l : List α} {a b : α}

def updateFirst (p : α → Bool) (f : α → α) : List α → List α
  | [] => []
  | a :: l => if p a then f a :: l else a :: updateFirst p f l

theorem mem_updateFirst (h : b ∈ updateFirst p f l) :
    b ∈ l ∨ ∃ a, l.find? p = some a ∧ b = f a := by
  induction l with
  | nil => exact .inl h
  | cons a l ih =>
    cases hp : p a with
    | true =>
      simp only [updateFirst, hp, if_true, mem_cons] at h
      rcases h with rfl | h
      · exact .inr ⟨a, by simp [hp], rfl⟩
      · exact .inl (mem_cons_of_mem a h)
    | false =>
      simp only [updateFirst, hp, false_eq_true, if_false, mem_cons] at h
      rcases h with rfl | h
      · exact .inl mem_cons_self
      · rcases ih h with h | ⟨c, hc, rfl⟩
        · exact .inl (mem_cons_of_mem a h)
        · exact .inr ⟨c, by simpa [hp] using hc, rfl⟩

theorem updateFirst_updateFirst (hp : ∀ a, p a → p (f a)) :
    updateFirst p g (updateFirst p f l) = updateFirst p (g ∘ f) l := by
  induction l with
  | nil => rfl
  | cons c l ih =>
    cases hc : p c with
    | true => simp [updateFirst, hc, hp c hc]
    | false => simp [updateFirst, hc, ih]

theorem updateFirst_append (l l' : List α) : updateFirst p f (l ++ l') =
      if l.any p then updateFirst p f l ++ l' else l ++ updateFirst p f l' := by
  induction l with
  | nil => simp
  | cons c l ih =>
    cases hc : p c with
    | true => simp [updateFirst, hc]
    | false =>
      simp only [cons_append, updateFirst, hc, false_eq_true, if_false, ih,
        any_cons, Bool.false_or]
      split_ifs <;> rfl

/-- The list around the first entry that passes. -/
theorem exists_first (h : l.find? p = some a) : ∃ l1 l2, l = l1 ++ a :: l2 ∧
    (∀ b ∈ l1, p b = false) ∧ l.eraseP p = l1 ++ l2 ∧ ∀ f, updateFirst p f l = l1 ++ f a :: l2 := by
  obtain ⟨ha, l1, l2, rfl, hl1⟩ := find?_eq_some_iff_append.mp h
  have hnot : ∀ b ∈ l1, p b = false := fun b hb => by simpa using hl1 b hb
  have hany : l1.any p = false := by simpa using hnot
  refine ⟨l1, l2, rfl, hnot, ?_, fun f => ?_⟩
  · simp [eraseP_append, hany, ha]
  · simp [updateFirst_append, hany, updateFirst, ha]

theorem updateFirst_self (h : l.find? p = some a) : updateFirst p (fun _ => a) l = l := by
  obtain ⟨l1, l2, hl, -, -, hupdate⟩ := exists_first h
  rw [hupdate, hl]

theorem find?_updateFirst (h : l.find? p = some a) (hp : p (f a)) :
    (updateFirst p f l).find? p = some (f a) := by
  obtain ⟨l1, l2, -, hl1, -, hupdate⟩ := exists_first h
  rw [hupdate, find?_append, find?_eq_none.mpr (by simpa using hl1)]
  simp [hp]

theorem map_updateFirst (g : α → β) (h : ∀ a, g (f a) = g a) :
    (updateFirst p f l).map g = l.map g := by
  induction l with
  | nil => rfl
  | cons c l ih => cases hc : p c <;> simp [updateFirst, hc, h, ih]

section Sum
variable {M : Type*} [AddCommGroup M] (w : α → M)

theorem sum_updateFirst (h : l.find? p = some a) :
    ((updateFirst p f l).map w).sum = (l.map w).sum - w a + w (f a) := by
  obtain ⟨l1, l2, hl, -, -, hupdate⟩ := exists_first h
  rw [hupdate, hl]
  simp only [map_append, map_cons, sum_append, sum_cons]
  abel

theorem sum_eraseP (h : l.find? p = some a) : ((l.eraseP p).map w).sum = (l.map w).sum - w a := by
  obtain ⟨l1, l2, hl, -, herase, -⟩ := exists_first h
  rw [herase, hl]
  simp only [map_append, map_cons, sum_append, sum_cons]
  abel

theorem sum_filter_add_sum_filter_not (l : List α) :
    ((l.filter p).map w).sum + ((l.filter fun a => !p a).map w).sum = (l.map w).sum := by
  induction l with
  | nil => simp
  | cons c l ih =>
    cases hc : p c <;> simp only [filter_cons, hc, Bool.not_false, Bool.not_true, if_true,
      false_eq_true, if_false, map_cons, sum_cons, ← ih] <;> abel

end Sum
end Cplant
