import Mathlib.Data.List.Basic

/-!
Words written one after the other, each followed by a terminator, with one more
terminator behind the last. The empty word and the end of such a text look alike, so
reading it back gives the words in front of the first empty one.
-/
namespace Cplant
open List Except
variable {α : Type*} (z : α)

def packed (ws : List (List α)) : List α := ws.flatMap (· ++ [z]) ++ [z]

variable [DecidableEq α]

def word : List α → Option (List α × List α)
  | [] => none
  | a :: text => if a = z then some ([], text) else (word text).map fun r => (a :: r.1, r.2)

inductive Shortage
  | text
  | slots
deriving DecidableEq, Repr

/-- The words of a text up to an empty one, if there are fewer than `slots`. -/
def unpack : ℕ → List α → Except Shortage (List (List α))
  | _, [] => .error .text
  | 0, _ :: _ => .error .slots
  | slots + 1, a :: text =>
    if a = z then .ok []
    else
      match word z (a :: text) with
      | none => .error .text
      | some (w, rest) => (unpack slots rest).map (w :: ·)

section
variable {z} {w rest : List α} {ws : List (List α)} {slots : ℕ}

theorem exists_of_map_eq_ok {ε β γ : Type*} {x : Except ε β} {f : β → γ} {c : γ}
    (h : x.map f = .ok c) : ∃ b, x = .ok b ∧ f b = c := by
  cases x with
  | error e => cases h
  | ok b => exact ⟨b, rfl, ok.inj h⟩

omit [DecidableEq α] in
theorem packed_cons (w : List α) (ws : List (List α)) :
    packed z (w :: ws) = w ++ z :: packed z ws := by
  simp [packed]

theorem word_append (hw : z ∉ w) (rest : List α) : word z (w ++ z :: rest) = some (w, rest) := by
  induction w with
  | nil => simp [word]
  | cons a w ih =>
    have ha : a ≠ z := fun h => hw (h ▸ mem_cons_self)
    have hrest := ih fun h => hw (mem_cons_of_mem a h)
    simp [word, ha, hrest]

theorem unpack_terminator : unpack z (slots + 1) (z :: rest) = .ok [] := by simp [unpack]

theorem unpack_word (hw : z ∉ w) (hne : w ≠ []) :
    unpack z (slots + 1) (w ++ z :: rest) = (unpack z slots rest).map (w :: ·) := by
  obtain ⟨a, w, rfl⟩ := exists_cons_of_ne_nil hne
  have ha : a ≠ z := fun h => hw (h ▸ mem_cons_self)
  have hword := word_append hw rest
  simp only [cons_append] at hword ⊢
  simp [unpack, if_neg ha, hword]

theorem unpack_packed (hws : ∀ w ∈ ws, z ∉ w) {out : List (List α)}
    (h : unpack z slots (packed z ws ++ rest) = .ok out) : out = ws.takeWhile (· ≠ []) := by
  induction ws generalizing slots out with
  | nil =>
    cases slots with
    | zero => cases h
    | succ slots => exact (ok.inj (unpack_terminator.symm.trans h)).symm
  | cons w ws ih =>
    rw [packed_cons, append_assoc, cons_append] at h
    cases slots with
    | zero => cases w <;> cases h
    | succ slots =>
      by_cases hw : w = []
      · subst hw
        exact (ok.inj (unpack_terminator.symm.trans h)).symm
      · rw [unpack_word (hws w mem_cons_self) hw] at h
        obtain ⟨ws', hws', rfl⟩ := exists_of_map_eq_ok h
        rw [ih (fun v hv => hws v (mem_cons_of_mem w hv)) hws']
        simp [hw]

end
end Cplant
