import Mathlib.Data.List.Nodup

/-!
Two searches that take the first success in a list. They agree exactly when the
two criteria agree on the entries the second search looks at.
-/
namespace Cplant
open List
variable {α β : Type*} {l : List α}

/-- The entries a search by `f` looks at, up to and including its first success. -/
def examined (f : α → Option β) : List α → List α
  | [] => []
  | a :: l => if (f a).isSome then [a] else a :: examined f l

theorem mem_of_mem_examined {f : α → Option β} {a : α} (h : a ∈ examined f l) : a ∈ l := by
  induction l with
  | nil => exact h
  | cons b l ih =>
    unfold examined at h
    split_ifs at h
    · exact mem_cons.mpr (.inl (mem_singleton.mp h))
    · rcases mem_cons.mp h with rfl | h
      · exact mem_cons_self
      · exact mem_cons_of_mem b (ih h)

theorem findSome?_eq_iff {f g : α → Option β} (hnd : l.Nodup)
    (hinj : ∀ a ∈ l, ∀ b ∈ l, ∀ x, f a = some x → g b = some x → a = b) :
    l.findSome? f = l.findSome? g ↔ ∀ a ∈ examined g l, f a = g a := by
  induction l with
  | nil => simp [examined]
  | cons a l ih =>
    obtain ⟨hal, hnd⟩ := nodup_cons.mp hnd
    have hinj' : ∀ b ∈ l, ∀ c ∈ l, ∀ x, f b = some x → g c = some x → b = c :=
      fun b hb c hc => hinj b (mem_cons_of_mem a hb) c (mem_cons_of_mem a hc)
    cases hg : g a with
    | some x =>
      simp only [findSome?_cons, hg, examined, Option.isSome_some, if_true,
        mem_singleton, forall_eq]
      cases hf : f a with
      | some y => rfl
      | none =>
        -- a later success of `f` cannot give the value `g` finds at `a`
        simp only [reduceCtorEq, iff_false]
        intro h
        obtain ⟨b, hb, hfb⟩ := exists_of_findSome?_eq_some h
        have := hinj b (mem_cons_of_mem a hb) a mem_cons_self x hfb hg
        exact hal (this ▸ hb)
    | none =>
      simp only [findSome?_cons, hg, examined, Option.isSome_none, Bool.false_eq_true,
        if_false, forall_mem_cons]
      cases hf : f a with
      | none => simpa using ih hnd hinj'
      | some y =>
        simp only [reduceCtorEq, false_and, iff_false]
        intro h
        obtain ⟨b, hb, hgb⟩ := exists_of_findSome?_eq_some h.symm
        have := hinj a mem_cons_self b (mem_cons_of_mem a hb) y hf hgb
        exact hal (this ▸ hb)

end Cplant
