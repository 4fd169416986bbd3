import Mathlib.Data.Option.Basic

/-!
# Programs that can fail

A program with a result in `Option` that fails (stops, panics, or has used up its fuel) as `none`.
`Runs safe p Q` says what its result is if there is one, and that there is one if `safe`: what is
known of a program that may fail, and what is known of it where it does not, in one induction.
-/
namespace Cplant.Foundations
variable {α β : Type*} {safe safe' : Prop} {p : Option α} {Q Q' : α → Prop} {R : β → Prop}

structure Runs (safe : Prop) (p : Option α) (Q : α → Prop) : Prop where
  sound : ∀ a, p = some a → Q a
  total : safe → p.isSome

namespace Runs

theorem pure {a : α} (h : Q a) : Runs safe (some a) Q where
  sound _ hb := Option.some.inj hb ▸ h
  total _ := rfl

theorem fail (h : ¬ safe) : Runs safe none Q where
  sound _ ha := by cases ha
  total hs := absurd hs h

theorem mono (h : Runs safe p Q) (hs : safe' → safe) (hQ : ∀ a, Q a → Q' a) : Runs safe' p Q' where
  sound a ha := hQ a (h.sound a ha)
  total hs' := h.total (hs hs')

theorem bind {k : α → Option β} (h : Runs safe p Q) (hk : ∀ a, Q a → Runs safe (k a) R) :
    Runs safe (p.bind k) R := by
  cases p with
  | none => exact fail (fun hs => by simpa using h.total hs)
  | some a => exact hk a (h.sound a rfl)

theorem map {f : α → β} (h : Runs safe p Q) (hf : ∀ a, Q a → R (f a)) : Runs safe (p.map f) R := by
  cases p with
  | none => exact fail (fun hs => by simpa using h.total hs)
  | some a => exact pure (hf a (h.sound a rfl))

theorem exists_of_safe (h : Runs safe p Q) (hs : safe) : ∃ a, p = some a ∧ Q a := by
  obtain ⟨a, ha⟩ := Option.isSome_iff_exists.mp (h.total hs)
  exact ⟨a, ha, h.sound a ha⟩

end Runs
end Cplant.Foundations
