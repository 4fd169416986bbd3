import Mathlib.Data.List.Nodup
import Mathlib.Data.List.Perm.Subperm

/-!
# Chains of links

Objects are numbered, and each has a link to the next one and possibly a link back. Several lists
share the objects, each object being in exactly one of them. An object moves from one list to the
front of another, or out of the middle of a list that has links back.
-/
namespace Cplant
open List Function Option

def Chain (next : ℕ → Option ℕ) : Option ℕ → List ℕ → Prop
  | o, [] => o = none
  | o, i :: l => o = some i ∧ Chain next (next i) l

/-- The links back lead from each object of `l` to the one before, and from the first to `q`. -/
def Backed (prev : ℕ → Option ℕ) : Option ℕ → List ℕ → Prop
  | _, [] => True
  | q, i :: l => prev i = q ∧ Backed prev (some i) l

variable {next next' prev prev' : ℕ → Option ℕ} {o q : Option ℕ} {l l' l1 l2 : List ℕ} {t i : ℕ}

theorem Chain.congr (h : Chain next o l) (hn : ∀ i ∈ l, next' i = next i) : Chain next' o l := by
  induction l generalizing o with
  | nil => exact h
  | cons i l ih =>
    refine ⟨h.1, ?_⟩
    rw [hn i mem_cons_self]
    exact ih h.2 fun j hj => hn j (mem_cons_of_mem i hj)

theorem Backed.congr (h : Backed prev q l) (hp : ∀ i ∈ l, prev' i = prev i) : Backed prev' q l := by
  induction l generalizing q with
  | nil => trivial
  | cons i l ih =>
    refine ⟨(hp i mem_cons_self).trans h.1, ?_⟩
    exact ih h.2 fun j hj => hp j (mem_cons_of_mem i hj)

theorem Chain.unique (h : Chain next o l) (h' : Chain next o l') : l = l' := by
  induction l generalizing o l' with
  | nil =>
    cases l' with
    | nil => rfl
    | cons j l' => cases h.symm.trans h'.1
  | cons i l ih =>
    cases l' with
    | nil => cases h.1.symm.trans h'
    | cons j l' =>
      obtain rfl : i = j := some.inj (h.1.symm.trans h'.1)
      rw [ih h.2 h'.2]

theorem Chain.head?_eq (h : Chain next o l) : l.head? = o := by
  cases l with
  | nil => exact h.symm
  | cons i l => exact h.1.symm

theorem Chain.eq_cons (h : Chain next (some t) l) : ∃ l', l = t :: l' ∧ Chain next (next t) l' := by
  cases l with
  | nil => cases h
  | cons i l =>
    obtain ⟨hi, hl⟩ := h
    cases hi
    exact ⟨l, rfl, hl⟩

theorem Chain.after (h : Chain next o (l1 ++ t :: l2)) : Chain next (next t) l2 := by
  induction l1 generalizing o with
  | nil => exact h.2
  | cons x l1 ih => exact ih h.2

theorem Chain.next_mem (h : Chain next o l) (ht : t ∈ l) (hi : next t = some i) : i ∈ l := by
  obtain ⟨l1, l2, rfl⟩ := append_of_mem ht
  have hhead : l2.head? = some i := h.after.head?_eq.trans hi
  exact mem_append_right _ (mem_cons_of_mem t (mem_of_head? hhead))

theorem chain_range' (n k d : ℕ) (hd : k + d = n) :
    Chain (fun i => if i + 1 < n then some (i + 1) else none) (if k < n then some k else none)
      (range' k d) := by
  induction d generalizing k with
  | zero => exact if_neg (by omega)
  | succ d ih =>
    exact ⟨if_pos (by omega), ih (k + 1) (by omega)⟩

theorem Backed.reroot {q' : Option ℕ} (h : Backed prev q l) (hd : l.Nodup)
    (hhead : ∀ i, l.head? = some i → prev' i = q')
    (hp : ∀ i ∈ l, l.head? ≠ some i → prev' i = prev i) : Backed prev' q' l := by
  cases l with
  | nil => trivial
  | cons i l =>
    refine ⟨hhead i rfl, h.2.congr ?_⟩
    intro j hj
    refine hp j (mem_cons_of_mem i hj) fun hij => ?_
    obtain rfl : i = j := some.inj hij
    exact (nodup_cons.mp hd).1 hj

theorem Backed.prev_eq (h : Backed prev q (l1 ++ t :: l2)) : prev t = l1.getLast?.or q := by
  induction l1 generalizing q with
  | nil => exact h.1
  | cons i l1 ih =>
    rw [ih h.2, getLast?_cons]
    cases l1.getLast? <;> rfl

theorem Chain.bridge (h : Chain next o (l1 ++ t :: l2)) (hd : (l1 ++ t :: l2).Nodup)
    (hlast : ∀ p, l1.getLast? = some p → next' p = next t)
    (hn : ∀ i ∈ l1 ++ l2, l1.getLast? ≠ some i → next' i = next i) :
    Chain next' (if l1 = [] then next t else o) (l1 ++ l2) := by
  induction l1 generalizing o with
  | nil => exact h.2.congr fun i hi => hn i hi nofun
  | cons x l1 ih =>
    refine ⟨h.1, ?_⟩
    obtain ⟨hx, hd'⟩ := nodup_cons.mp hd
    cases l1 with
    | nil =>
      rw [hlast x rfl]
      refine h.2.2.congr fun i hi => hn i (mem_cons_of_mem x hi) fun hxi => hx ?_
      rw [show x = i from some.inj hxi]
      exact mem_cons_of_mem t hi
    | cons y l1 =>
      have hne : (x :: y :: l1).getLast? ≠ some x := by
        intro hxl
        exact hx (mem_append_left _ (mem_of_getLast? hxl))
      rw [hn x mem_cons_self hne]
      have := ih h.2 hd' (fun p hp => hlast p (by rw [getLast?_cons_cons]; exact hp))
        fun i hi hil => hn i (mem_cons_of_mem x hi) (by rw [getLast?_cons_cons]; exact hil)
      rwa [if_neg (cons_ne_nil y l1)] at this

theorem Backed.bridge (h : Backed prev q (l1 ++ t :: l2)) (hd : (l1 ++ t :: l2).Nodup)
    (hhead : ∀ i, l2.head? = some i → prev' i = prev t)
    (hp : ∀ i ∈ l1 ++ l2, l2.head? ≠ some i → prev' i = prev i) : Backed prev' q (l1 ++ l2) := by
  induction l1 generalizing q with
  | nil =>
    rw [← h.1]
    exact h.2.reroot (nodup_cons.mp hd).2 hhead hp
  | cons x l1 ih =>
    obtain ⟨hx, hd'⟩ := nodup_cons.mp hd
    have hne : l2.head? ≠ some x := by
      intro hxl
      exact hx (mem_append_right _ (mem_cons_of_mem t (mem_of_head? hxl)))
    refine ⟨(hp x mem_cons_self hne).trans h.1, ih h.2 hd' ?_⟩
    exact fun i hi hil => hp i (mem_cons_of_mem x hi) hil

variable {ι : Type*} {n : ℕ} {L : ι → List ℕ} {o o' : ι} {t : ℕ}

/-- Each object below `n` is in exactly one of the lists, and once. -/
structure Parted (n : ℕ) (L : ι → List ℕ) : Prop where
  nodup : ∀ o, (L o).Nodup
  bound : ∀ o, ∀ t ∈ L o, t < n
  one : ∀ t < n, ∃! o, t ∈ L o

theorem Parted.eq_of_mem (h : Parted n L) (ht : t ∈ L o) (ht' : t ∈ L o') : o = o' :=
  (h.one t (h.bound o t ht)).unique ht ht'

theorem Parted.length_le (h : Parted n L) (o : ι) : (L o).length ≤ n := by
  have hsub : L o ⊆ range n := fun t ht => mem_range.mpr (h.bound o t ht)
  have := (subperm_of_subset (h.nodup o) hsub).length_le
  rwa [length_range] at this

section
variable [DecidableEq ι] {q : ι}

/-- The object `t` goes from the list `o` to the front of the list `o'`. -/
def moveTo (L : ι → List ℕ) (o o' : ι) (t : ℕ) : ι → List ℕ :=
  update (update L o ((L o).erase t)) o' (t :: L o')

theorem moveTo_target : moveTo L o o' t o' = t :: L o' := update_self ..

theorem moveTo_source (ho : o ≠ o') : moveTo L o o' t o = (L o).erase t := by
  rw [moveTo, update_of_ne ho, update_self]

theorem moveTo_of_ne (hq : q ≠ o) (hq' : q ≠ o') : moveTo L o o' t q = L q := by
  rw [moveTo, update_of_ne hq', update_of_ne hq]

theorem mem_moveTo (h : Parted n L) (ht : t ∈ L o) (ho : o ≠ o') {u : ℕ} :
    u ∈ moveTo L o o' t q ↔ if u = t then q = o' else u ∈ L q := by
  by_cases hq' : q = o'
  · subst hq'
    rw [moveTo_target, mem_cons]
    split
    next hu => exact iff_of_true (.inl hu) rfl
    next hu => exact or_iff_right hu
  by_cases hq : q = o
  · subst hq
    rw [moveTo_source ho, (h.nodup q).mem_erase_iff]
    split
    next hu => exact iff_of_false (fun hne => hne.1 hu) ho
    next hu => exact and_iff_right hu
  · rw [moveTo_of_ne hq hq']
    split
    next hu =>
      subst hu
      exact iff_of_false (fun hmem => hq (h.eq_of_mem hmem ht)) hq'
    · rfl

theorem Parted.moveTo (h : Parted n L) (ht : t ∈ L o) (ho : o ≠ o') :
    Parted n (Cplant.moveTo L o o' t) where
  nodup q := by
    by_cases hq' : q = o'
    · subst hq'
      rw [moveTo_target]
      exact nodup_cons.mpr ⟨fun hmem => ho (h.eq_of_mem ht hmem), h.nodup q⟩
    by_cases hq : q = o
    · subst hq
      rw [moveTo_source ho]
      exact (h.nodup q).erase t
    · rw [moveTo_of_ne hq hq']
      exact h.nodup q
  bound q u hu := by
    rw [mem_moveTo h ht ho] at hu
    split at hu
    next hut => exact hut ▸ h.bound o t ht
    · exact h.bound q u hu
  one u hu := by
    simp only [mem_moveTo h ht ho]
    split
    · exact ⟨o', rfl, fun _ hq => hq⟩
    · exact h.one u hu

end

/-- The links hold the lists `L`, those of them for which `D` holds with links back. -/
structure Threaded (n : ℕ) (D : ι → Prop) (next prev : ℕ → Option ℕ) (head : ι → Option ℕ)
    (L : ι → List ℕ) : Prop where
  chain : ∀ o, Chain next (head o) (L o)
  back : ∀ o, D o → Backed prev none (L o)
  parted : Parted n L

section
variable {D D' : ι → Prop} {next next' prev prev' : ℕ → Option ℕ} {head head' : ι → Option ℕ}

theorem Threaded.mono (h : Threaded n D next prev head L) (hD : ∀ o, D' o → D o) :
    Threaded n D' next prev head L :=
  ⟨h.chain, fun o ho => h.back o (hD o ho), h.parted⟩

theorem Threaded.ne_of_mem (h : Threaded n D next prev head L) (hi : i ∈ L o)
    (ht : t ∈ L o') (ho : o ≠ o') : i ≠ t := by
  rintro rfl
  exact ho (h.parted.eq_of_mem hi ht)

variable [DecidableEq ι]

theorem Threaded.moveHead (h : Threaded n D next prev head L) (ho : o ≠ o')
    (hhead : head o = some t) (hD : ¬ D o)
    (hnext : ∀ i, next' i = if i = t then head o' else next i)
    (hheads : ∀ q, head' q = if q = o' then some t else if q = o then next t else head q)
    (hback : D o' → Backed prev' none (t :: L o'))
    (hprev : ∀ q, q ≠ o → q ≠ o' → ∀ i ∈ L q, prev' i = prev i) :
    t ∈ L o ∧ Threaded n D next' prev' head' (moveTo L o o' t) := by
  have hchain := h.chain o
  rw [hhead] at hchain
  obtain ⟨l, hl, htail⟩ := hchain.eq_cons
  have ht : t ∈ L o := hl ▸ mem_cons_self
  have herase : (L o).erase t = l := by rw [hl, erase_cons_head]
  have htl : t ∉ l := (nodup_cons.mp (hl ▸ h.parted.nodup o)).1
  have hsame : ∀ q, q ≠ o → ∀ i ∈ L q, next' i = next i := by
    intro q hq i hi
    rw [hnext, if_neg (h.ne_of_mem hi ht hq)]
  refine ⟨ht, ?_, ?_, h.parted.moveTo ht ho⟩
  · intro q
    by_cases hq' : q = o'
    · subst hq'
      rw [moveTo_target, hheads, if_pos rfl]
      refine ⟨rfl, ?_⟩
      rw [hnext, if_pos rfl]
      exact (h.chain q).congr (hsame q ho.symm)
    by_cases hq : q = o
    · subst hq
      rw [moveTo_source ho, herase, hheads, if_neg hq', if_pos rfl]
      refine htail.congr fun i hi => ?_
      have hit : i ≠ t := fun hit => htl (hit ▸ hi)
      rw [hnext, if_neg hit]
    · rw [moveTo_of_ne hq hq', hheads, if_neg hq', if_neg hq]
      exact (h.chain q).congr (hsame q hq)
  · intro q hDq
    by_cases hq' : q = o'
    · subst hq'
      rw [moveTo_target]
      exact hback hDq
    by_cases hq : q = o
    · exact absurd (hq ▸ hDq) hD
    · rw [moveTo_of_ne hq hq']
      exact (h.back q hDq).congr (hprev q hq hq')

theorem Threaded.moveOut (h : Threaded n D next prev head L) (ho : o ≠ o') (ht : t ∈ L o)
    (hDo : D o) (hD : ¬ D o')
    (hnext : ∀ i, next' i = if i = t then head o' else if prev t = some i then next t else next i)
    (hprev : ∀ i, i ≠ t → prev' i = if next t = some i then prev t else prev i)
    (hheads : ∀ q, head' q = if q = o' then some t
      else if q = o ∧ prev t = none then next t else head q) :
    Threaded n D next' prev' head' (moveTo L o o' t) := by
  obtain ⟨l1, l2, hl⟩ := append_of_mem ht
  have hnodup := hl ▸ h.parted.nodup o
  have hchain := hl ▸ h.chain o
  have hbacked := hl ▸ h.back o hDo
  have htprev : prev t = l1.getLast? := by rw [hbacked.prev_eq, or_none]
  have htnext : next t = l2.head? := hchain.after.head?_eq.symm
  have ht1 : t ∉ l1 := fun hmem =>
    (nodup_cons.mp (nodup_middle.mp hnodup)).1 (mem_append_left _ hmem)
  have herase : (L o).erase t = l1 ++ l2 := by rw [hl, erase_append_right _ ht1, erase_cons_head]
  have hin : ∀ i ∈ l1 ++ l2, i ∈ L o ∧ i ≠ t := by
    intro i hi
    rw [← herase, (h.parted.nodup o).mem_erase_iff] at hi
    exact ⟨hi.2, hi.1⟩
  have hlast : ∀ i, prev t = some i → i ∈ L o := by
    intro i hi
    rw [htprev] at hi
    exact (hin i (mem_append_left _ (mem_of_getLast? hi))).1
  have hfirst : ∀ i, next t = some i → i ∈ L o := by
    intro i hi
    rw [htnext] at hi
    exact (hin i (mem_append_right _ (mem_of_head? hi))).1
  have hsame : ∀ q, q ≠ o → ∀ i ∈ L q, next' i = next i ∧ prev' i = prev i := by
    intro q hq i hi
    have hit : i ≠ t := h.ne_of_mem hi ht hq
    rw [hnext, hprev i hit, if_neg hit, if_neg fun hp => h.ne_of_mem hi (hlast i hp) hq rfl,
      if_neg fun hp => h.ne_of_mem hi (hfirst i hp) hq rfl]
    exact ⟨rfl, rfl⟩
  refine ⟨?_, ?_, h.parted.moveTo ht ho⟩
  · intro q
    by_cases hq' : q = o'
    · subst hq'
      rw [moveTo_target, hheads, if_pos rfl]
      refine ⟨rfl, ?_⟩
      rw [hnext, if_pos rfl]
      exact (h.chain q).congr fun i hi => (hsame q ho.symm i hi).1
    by_cases hq : q = o
    · subst hq
      rw [moveTo_source ho, herase, hheads, if_neg hq']
      have hnone : (q = q ∧ prev t = none) = (l1 = []) := by
        rw [htprev, getLast?_eq_none_iff, eq_self, true_and]
      rw [if_congr (iff_of_eq hnone) rfl rfl]
      refine hchain.bridge hnodup ?_ ?_
      · intro p hp
        have hpt : p ≠ t := (hin p (mem_append_left _ (mem_of_getLast? hp))).2
        rw [hnext, if_neg hpt, if_pos (htprev.trans hp)]
      · intro i hi hil
        rw [hnext, if_neg (hin i hi).2, if_neg fun hp => hil (htprev.symm.trans hp)]
    · rw [moveTo_of_ne hq hq', hheads, if_neg hq', if_neg fun h => hq h.1]
      exact (h.chain q).congr fun i hi => (hsame q hq i hi).1
  · intro q hDq
    by_cases hq' : q = o'
    · exact absurd (hq' ▸ hDq) hD
    by_cases hq : q = o
    · subst hq
      rw [moveTo_source ho, herase]
      refine hbacked.bridge hnodup ?_ ?_
      · intro i hi
        have hit : i ≠ t := (hin i (mem_append_right _ (mem_of_head? hi))).2
        rw [hprev i hit, if_pos (htnext.trans hi)]
      · intro i hi hil
        rw [hprev i (hin i hi).2, if_neg fun hp => hil (htnext.symm.trans hp)]
    · rw [moveTo_of_ne hq hq']
      exact (h.back q hDq).congr fun i hi => (hsame q hq i hi).2

end
end Cplant
