import Cplant.Foundations.FirstMatch

/-!
# Lists that correspond entry by entry

For queues, `List.Forall₂`: looking up, removing and changing the first entry that
passes a test goes along with the same on the other side. For channels, `Observed`:
some of the entries on the one side have no counterpart on the other.
-/
namespace Cplant
open List
variable {α β : Type*} {R : α → β → Prop} {p : α → Bool} {f : α → α} {l l' : List α} {m : List β}
  {a : α} {b : β} {k : ℕ}

section
variable (h : Forall₂ R l m)
include h

theorem forall₂_mem_left (ha : a ∈ l) : ∃ b ∈ m, R a b := by
  induction h with
  | nil => cases ha
  | @cons c d l m hcd _ ih =>
    rcases mem_cons.mp ha with rfl | ha
    · exact ⟨d, mem_cons_self, hcd⟩
    · obtain ⟨b, hb, hab⟩ := ih ha
      exact ⟨b, mem_cons_of_mem d hb, hab⟩

theorem forall₂_mem_right (hb : b ∈ m) : ∃ a ∈ l, R a b :=
  forall₂_mem_left (R := flip R) (.flip h) hb

theorem forall₂_updateFirst (hf : ∀ a b, p a → R a b → R (f a) b) :
    Forall₂ R (updateFirst p f l) m := by
  induction h with
  | nil => exact .nil
  | @cons c d l m hcd hlm ih =>
    cases hp : p c with
    | true => simpa [updateFirst, hp] using ⟨hf c d hp hcd, hlm⟩
    | false => simpa [updateFirst, hp] using ⟨hcd, ih⟩

theorem forall₂_eraseP [DecidableEq β] (hp : ∀ a d, R a d → (p a ↔ d = b)) :
    Forall₂ R (l.eraseP p) (m.erase b) := by
  induction h with
  | nil => exact .nil
  | @cons c d l m hcd hlm ih =>
    by_cases hdb : d = b
    · have hpc := (hp c d hcd).mpr hdb
      simpa [hpc, hdb] using hlm
    · have hpc : p c = false := Bool.eq_false_iff.mpr fun h => hdb ((hp c d hcd).mp h)
      simpa [hpc, erase_cons_tail, hdb] using ⟨hcd, ih⟩

theorem forall₂_nodup_map {γ : Type*} {g : α → γ} (hm : m.Nodup)
    (hg : ∀ a a' b b', R a b → R a' b' → g a = g a' → b = b') : (l.map g).Nodup := by
  induction h with
  | nil => exact nodup_nil
  | @cons a b l m hab hlm ih =>
    obtain ⟨hb, hm⟩ := nodup_cons.mp hm
    refine nodup_cons.mpr ⟨fun ha => ?_, ih hm⟩
    obtain ⟨a', ha', heq⟩ := mem_map.mp ha
    obtain ⟨b', hb', hab'⟩ := forall₂_mem_left hlm ha'
    exact hb (hg a a' b b' hab hab' heq.symm ▸ hb')

theorem forall₂_sublist (hs : l'.Sublist l) : ∃ m', m'.Sublist m ∧ Forall₂ R l' m' := by
  induction hs generalizing m with
  | slnil => exact ⟨[], nil_sublist m, .nil⟩
  | cons a _ ih =>
    cases h with
    | @cons _ b _ m _ h =>
      obtain ⟨m', hm, hl⟩ := ih h
      exact ⟨m', hm.cons b, hl⟩
  | cons_cons a _ ih =>
    cases h with
    | @cons _ b _ m hab h =>
      obtain ⟨m', hm, hl⟩ := ih h
      exact ⟨b :: m', hm.cons_cons b, .cons hab hl⟩

end

theorem getElem?_append_singleton_cases {c : α} (h : (l ++ [a])[k]? = some c) :
    l[k]? = some c ∨ k = l.length ∧ c = a := by
  rcases lt_trichotomy k l.length with hlt | rfl | hgt
  · exact .inl (by rwa [getElem?_append_left hlt] at h)
  · exact .inr ⟨rfl, by simpa using h.symm⟩
  · rw [getElem?_eq_none (by simpa using Nat.succ_le_of_lt hgt)] at h
    cases h

theorem getElem?_append_some (h : l[k]? = some a) : (l ++ l')[k]? = some a := by
  rwa [List.getElem?_append_left (List.getElem?_eq_some_iff.mp h).1]

theorem sublist_of_ascending {ks : List ℕ}
    (h : Forall₂ (fun a k => l[k]? = some a) l' ks) (hks : ks.Pairwise (· < ·)) :
    l'.Sublist l := by
  suffices hdrop : ∀ j, (∀ k ∈ ks, j ≤ k) → l'.Sublist (l.drop j) by
    simpa using hdrop 0 fun k _ => k.zero_le
  induction h with
  | nil => exact fun j _ => nil_sublist _
  | @cons a k l' ks ha _ ih =>
    intro j hj
    obtain ⟨hk, hks⟩ := pairwise_cons.mp hks
    obtain ⟨hlt, rfl⟩ := List.getElem?_eq_some_iff.mp ha
    have htail := (ih hks (k + 1) hk).cons_cons l[k]
    rw [← drop_eq_getElem_cons hlt] at htail
    exact htail.trans (drop_sublist_drop_left l (hj k mem_cons_self))

/-- The entries of `l` that are not silent correspond to those of `m`, in order. -/
inductive Observed (R : α → β → Prop) (silent : α → Prop) : List α → List β → Prop
  | nil : Observed R silent [] []
  | skip {a : α} {l : List α} {m : List β} : silent a → Observed R silent l m →
      Observed R silent (a :: l) m
  | cons {a : α} {b : β} {l : List α} {m : List β} : R a b → Observed R silent l m →
      Observed R silent (a :: l) (b :: m)

namespace Observed
variable {silent : α → Prop} {R' : α → β → Prop} {l' : List α} {m' : List β}

theorem append (h : Observed R silent l m) (h' : Observed R silent l' m') :
    Observed R silent (l ++ l') (m ++ m') := by
  induction h with
  | nil => exact h'
  | skip ha _ ih => exact .skip ha ih
  | cons hab _ ih => exact .cons hab ih

theorem mono (h : Observed R silent l m) (hR : ∀ a b, R a b → R' a b) : Observed R' silent l m := by
  induction h with
  | nil => exact .nil
  | skip ha _ ih => exact .skip ha ih
  | cons hab _ ih => exact .cons (hR _ _ hab) ih

theorem mem_right (h : Observed R silent l m) (hb : b ∈ m) : ∃ a ∈ l, R a b := by
  induction h with
  | nil => cases hb
  | @skip c _ _ _ _ ih =>
    obtain ⟨a, ha, hab⟩ := ih hb
    exact ⟨a, mem_cons_of_mem c ha, hab⟩
  | @cons c d _ _ hcd _ ih =>
    rcases mem_cons.mp hb with rfl | hb
    · exact ⟨c, mem_cons_self, hcd⟩
    · obtain ⟨a, ha, hab⟩ := ih hb
      exact ⟨a, mem_cons_of_mem c ha, hab⟩

theorem of_silent (h : ∀ a ∈ l, silent a) : Observed R silent l [] := by
  induction l with
  | nil => exact .nil
  | cons a l ih =>
    exact .skip (h a mem_cons_self) (ih fun b hb => h b (mem_cons_of_mem a hb))

theorem single (h : R a b) : Observed R silent [a] [b] := .cons h .nil

theorem sublist (h : Observed R silent l m) (hs : l'.Sublist l) :
    ∃ m', m'.Sublist m ∧ Observed R silent l' m' := by
  induction h generalizing l' with
  | nil =>
    obtain rfl := sublist_nil.mp hs
    exact ⟨[], .refl _, .nil⟩
  | skip ha _ ih =>
    cases hs with
    | cons _ hs => exact ih hs
    | cons_cons _ hs =>
      obtain ⟨m', hm, hl⟩ := ih hs
      exact ⟨m', hm, .skip ha hl⟩
  | @cons a b l m hab _ ih =>
    cases hs with
    | cons _ hs =>
      obtain ⟨m', hm, hl⟩ := ih hs
      exact ⟨m', hm.cons b, hl⟩
    | cons_cons _ hs =>
      obtain ⟨m', hm, hl⟩ := ih hs
      exact ⟨b :: m', hm.cons_cons b, .cons hab hl⟩

end Observed
end Cplant
