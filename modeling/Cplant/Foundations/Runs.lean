import Mathlib.Tactic.Common

/-!
Runs of a machine. `step` is partial: where it has no value there is no next state. `ok`
says which steps a run may take.
-/
namespace Cplant
variable {σ ι : Type*} {step : σ → ι → Option σ} {ok : σ → ι → Prop} {s₀ s s' : σ}

inductive Reaches (step : σ → ι → Option σ) (ok : σ → ι → Prop) (s₀ : σ) : σ → Prop
  | init : Reaches step ok s₀ s₀
  | step {s s' : σ} (i : ι) : Reaches step ok s₀ s → ok s i → step s i = some s' →
      Reaches step ok s₀ s'

theorem Reaches.invariant {P : σ → Prop} (h : Reaches step ok s₀ s) (init : P s₀)
    (keep : ∀ {s s' i}, P s → ok s i → step s i = some s' → P s') : P s := by
  induction h with
  | init => exact init
  | step i _ hok hs ih => exact keep ih hok hs

def exec (step : σ → ι → Option σ) (ok : σ → ι → Prop) [∀ s i, Decidable (ok s i)] :
    List ι → σ → Option σ
  | [], s => some s
  | i :: is, s => if ok s i then (step s i).bind (exec step ok is) else none

variable [∀ s i, Decidable (ok s i)]

theorem Reaches.exec {is : List ι} (h : Reaches step ok s₀ s)
    (hs : Cplant.exec step ok is s = some s') : Reaches step ok s₀ s' := by
  induction is generalizing s with
  | nil => exact Option.some.inj hs ▸ h
  | cons i is ih =>
    simp only [Cplant.exec] at hs
    split_ifs at hs with hok
    obtain ⟨s1, hs1, hs⟩ := Option.bind_eq_some_iff.mp hs
    apply ih _ hs
    exact h.step i hok hs1

section
variable {P : σ → Prop} [DecidablePred P] (is : List ι)
  (h : (exec step ok is s₀).any (fun s => decide (P s)) = true)
include h

theorem exists_reaches : ∃ s, Reaches step ok s₀ s ∧ P s := by
  obtain ⟨s, hs, hp⟩ := (Option.any_eq_true _ _).mp h
  exact ⟨s, Reaches.init.exec hs, of_decide_eq_true hp⟩

theorem exists_reaches_imp {Q : σ → Prop} (hQ : ∀ s, Reaches step ok s₀ s → P s → Q s) :
    ∃ s, Reaches step ok s₀ s ∧ Q s :=
  (exists_reaches is h).imp fun s hs => ⟨hs.1, hQ s hs.1 hs.2⟩

end
end Cplant
