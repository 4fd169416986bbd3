import Cplant.Foundations.LinkedCells

/-!
# Linked cells as a collection of lists

`Shelf` is the abstract view: some lists have a name, one list for each name, and some have
none. `Links.shelf` reads it off the links, and each operation on the links is one
operation on the lists; lists without the node concerned stay as they are.
-/
namespace Cplant
open List Option

abbrev Shelf (κ : Type*) := Option κ → List ℕ → Prop

namespace Shelf
variable {κ : Type*}

def insertAfter (S : Shelf κ) (obj new : ℕ) : Shelf κ := fun o ids =>
  ∃ old, S o old ∧ ids = old.flatMap fun i => if i = obj then [i, new] else [i]

def insertBefore (S : Shelf κ) (obj new : ℕ) : Shelf κ := fun o ids =>
  ∃ old, S o old ∧ ids = old.flatMap fun i => if i = obj then [new, i] else [i]

def remove (S : Shelf κ) (obj : ℕ) : Shelf κ := fun o ids =>
  (o = none → ids ≠ []) ∧ ∃ old, S o old ∧ ids = old.filter fun i => i ≠ obj

def put (S : Shelf κ) (k : κ) (new : ℕ) : Shelf κ := fun o ids =>
  o = some k ∧ ids = [new] ∨ o ≠ some k ∧ S o ids

def add (S : Shelf κ) (new : ℕ) : Shelf κ := fun o ids => S o ids ∨ o = none ∧ ids = [new]

def grow (S : Shelf κ) (k : κ) : Shelf κ := fun o ids => S o ids ∨ o = some k ∧ ids = []

def drop (S : Shelf κ) (k : κ) : Shelf κ := fun o ids => S o ids ∧ o ≠ some k

theorem remove_of_not_mem {S : Shelf κ} {obj : ℕ} {o : Option κ}
    (hnil : o = none → ¬ S o []) (h : ∀ ids, S o ids → obj ∉ ids) : S.remove obj o = S o := by
  have hfilter : ∀ ids, S o ids → (ids.filter fun i => i ≠ obj) = ids := by
    intro ids hs
    refine filter_eq_self.mpr fun i hi => ?_
    have hne : i ≠ obj := fun he => h ids hs (he ▸ hi)
    simpa using hne
  funext ids
  refine propext ⟨?_, fun hs =>
    ⟨fun ho hids => hnil ho (hids ▸ hs), ids, hs, (hfilter ids hs).symm⟩⟩
  rintro ⟨-, old, hs, rfl⟩
  exact (hfilter old hs).symm ▸ hs

theorem drop_congr {S S' : Shelf κ} {k : κ} (h : ∀ o, o ≠ some k → S' o = S o) :
    S'.drop k = S.drop k := by
  funext o ids
  refine propext (and_congr_left fun ho => ?_)
  rw [h o ho]

end Shelf

variable {a b ids' : List ℕ} {i : ℕ} {o : Option ℕ}

namespace Links
variable {κ : Type*} {H : κ → Prop} {L : ℕ → Prop} {own : ℕ → Option κ} {l : Links κ} {ids : List ℕ}
  {n j : ℕ}

def shelf (H : κ → Prop) (L : ℕ → Prop) (l : Links κ) : Shelf κ
  | some k, ids => H k ∧ l.Walk (l.head k) ids
  | none, ids => ∃ i rest, ids = i :: rest ∧ L i ∧ l.prev i = none ∧ l.Walk (l.next i) rest

theorem Walk.unique (h : l.Walk o ids) (h' : l.Walk o ids') : ids = ids' := by
  induction ids generalizing o ids' with
  | nil =>
    cases ids' with
    | nil => rfl
    | cons j ids' => cases h.symm.trans h'.1
  | cons i ids ih =>
    cases ids' with
    | nil => cases h'.symm.trans h.1
    | cons j ids' =>
      obtain rfl : i = j := by simpa using h.1.symm.trans h'.1
      rw [ih h.2 h'.2]

section
variable (w : WellLinked H L own l) {c : Option (Cell κ)}
include w

theorem WellLinked.walk_live {c : Cell κ} (hc : Live H L c) (h : l.Walk (l.get c) ids) :
    ∀ i ∈ ids, L i := by
  induction ids generalizing c with
  | nil => simp
  | cons j ids ih =>
    have hj := (w.fwd c j hc h.1).1
    intro i hi
    rcases mem_cons.mp hi with rfl | hi
    · exact hj
    · exact ih (c := .node j) hj h.2 i hi

theorem Rooted.exists_trail {o : Option κ} (h : Rooted l.prev c o)
    (hc : ∀ d, c = some d → Live H L d) : ∃ t, l.Trail c t ∧ ∀ i ∈ t, L i := by
  induction h with
  | null | head k => exact ⟨[], by simp [Trail], by simp⟩
  | @node i o _ ih =>
    have hi : L i := hc _ rfl
    obtain ⟨t, ht, hlive⟩ := ih (w.prev_live hi)
    refine ⟨i :: t, ⟨rfl, ht⟩, fun j hj => ?_⟩
    rcases mem_cons.mp hj with rfl | hj
    · exact hi
    · exact hlive j hj

namespace WellLinked

theorem exists_rest (hn : ∀ i, L i → i < n) (hi : L i) : ∃ rest, l.Walk (l.next i) rest := by
  have hr : Rooted l.prev (some (.node i)) (own i) := .node (w.rooted i hi)
  obtain ⟨t, ht, hlive⟩ := hr.exists_trail w fun d hd => by
    cases hd
    exact hi
  obtain ⟨ids, hwalk, -⟩ := w.exists_walk_from hn n (.node i) t hi ht
    (fun j hj => hn j (hlive j hj)) (Nat.sub_le _ _)
  exact ⟨ids, hwalk⟩

theorem exists_front {o : Option κ} (h : Rooted l.prev c o) :
    ∀ {j : ℕ} {rest : List ℕ}, L j → l.prev j = c →
      l.Walk (l.next j) rest → ∃ front, shelf H L l o (front ++ j :: rest) := by
  induction h with
  | null =>
    intro j rest hj hp hwalk
    exact ⟨[], j, rest, rfl, hj, hp, hwalk⟩
  | head k =>
    intro j rest hj hp hwalk
    obtain ⟨hk, hg⟩ := w.bwd j _ hj hp
    exact ⟨[], hk, hg, hwalk⟩
  | @node i o _ ih =>
    intro j rest hj hp hwalk
    obtain ⟨hi, hg⟩ := w.bwd j _ hj hp
    have hwalk' : l.Walk (l.next i) (j :: rest) := ⟨hg, hwalk⟩
    obtain ⟨front, hs⟩ := ih hi rfl hwalk'
    exact ⟨front ++ [i], by simpa using hs⟩

theorem exists_list (hn : ∀ i, L i → i < n) (hj : L j) :
    ∃ ids, shelf H L l (own j) ids ∧ j ∈ ids := by
  obtain ⟨rest, hwalk⟩ := w.exists_rest hn hj
  obtain ⟨front, hs⟩ := w.exists_front (w.rooted j hj) hj rfl hwalk
  exact ⟨_, hs, by simp⟩

theorem trail_of_walk {t : List ℕ} :
    ∀ {c : Cell κ}, Live H L c → l.Trail (some c) t → l.Walk (l.get c) (a ++ j :: b) →
      l.Trail (l.prev j) (a.reverse ++ t) ∧ l.Walk (l.next j) b := by
  induction a generalizing t with
  | nil =>
    intro c hc ht h
    rw [(w.fwd c j hc h.1).2]
    exact ⟨ht, h.2⟩
  | cons i a ih =>
    intro c hc ht h
    obtain ⟨hi, hp⟩ := w.fwd c i hc h.1
    have hti : l.Trail (some (.node i)) (i :: t) := ⟨rfl, hp ▸ ht⟩
    simpa using ih (c := .node i) hi hti h.2

theorem trail_of_shelf {o : Option κ} (h : shelf H L l o (a ++ j :: b)) :
    l.Trail (l.prev j) a.reverse ∧ l.Walk (l.next j) b := by
  cases o with
  | some k =>
    obtain ⟨hk, hwalk⟩ := h
    simpa using w.trail_of_walk (c := .head k) hk (by simp [Trail] : l.Trail _ []) hwalk
  | none =>
    obtain ⟨i, rest, hids, hi, hp, hwalk⟩ := h
    cases a with
    | nil =>
      obtain ⟨rfl, rfl⟩ : j = i ∧ b = rest := by simpa using hids
      exact ⟨by simp [Trail, hp], hwalk⟩
    | cons i' a =>
      obtain ⟨rfl, rfl⟩ : i' = i ∧ a ++ j :: b = rest := by simpa using hids
      have hti : l.Trail (some (.node i')) [i'] := ⟨rfl, by simp [Trail, hp]⟩
      simpa using w.trail_of_walk (c := .node i') hi hti hwalk

theorem first_of_shelf {o : Option κ} {rest : List ℕ}
    (h : shelf H L l o (i :: rest)) : l.prev i = o.map .head := by
  cases o with
  | some k => exact (w.fwd (.head k) i h.1 h.2.1).2
  | none =>
    obtain ⟨i', rest', hids, -, hp, -⟩ := h
    obtain ⟨rfl, -⟩ : i = i' ∧ rest = rest' := by simpa using hids
    exact hp

theorem shelf_unique {o o' : Option κ} (h : shelf H L l o ids)
    (h' : shelf H L l o' ids') (hj : j ∈ ids) (hj' : j ∈ ids') : o = o' ∧ ids = ids' := by
  obtain ⟨a, b, rfl⟩ := append_of_mem hj
  obtain ⟨a', b', rfl⟩ := append_of_mem hj'
  obtain ⟨hta, hwb⟩ := w.trail_of_shelf h
  obtain ⟨hta', hwb'⟩ := w.trail_of_shelf h'
  obtain rfl : a = a' := reverse_injective (hta.unique hta')
  obtain rfl : b = b' := hwb.unique hwb'
  refine ⟨?_, rfl⟩
  have hfirst : ∃ i rest, a ++ j :: b = i :: rest := by cases a <;> simp
  obtain ⟨i, rest, hids⟩ := hfirst
  rw [hids] at h h'
  have hmap : (o.map .head : Option (Cell κ)) = o'.map .head :=
    (w.first_of_shelf h).symm.trans (w.first_of_shelf h')
  exact map_injective (fun _ _ hk => Cell.head.inj hk) hmap

theorem shelf_live {o : Option κ} (h : shelf H L l o ids) : ∀ i ∈ ids, L i := by
  cases o with
  | some k => exact w.walk_live (c := .head k) h.1 h.2
  | none =>
    obtain ⟨i, rest, rfl, hi, -, hwalk⟩ := h
    intro j hj
    rcases mem_cons.mp hj with rfl | hj
    · exact hi
    · exact w.walk_live (c := .node i) hi hwalk j hj

theorem shelf_nodup {o : Option κ} (h : shelf H L l o ids) : ids.Nodup := by
  rcases eq_nil_or_concat ids with rfl | ⟨a, j, rfl⟩
  · exact nodup_nil
  · rw [concat_eq_append] at h ⊢
    have ht : l.Trail (some (.node j)) (j :: a.reverse) := ⟨rfl, (w.trail_of_shelf h).1⟩
    have hnd := nodup_reverse.mpr ht.nodup
    simpa using hnd

theorem exists_named (hn : ∀ i, L i → i < n) {k : κ} (hk : H k) :
    ∃ ids, shelf H L l (some k) ids := by
  obtain ⟨ids, hwalk, -⟩ := w.exists_walk hn hk
  exact ⟨ids, hk, hwalk⟩

theorem shelf_eq {S : Shelf κ} (hS : ∀ o ids, S o ids → shelf H L l o ids)
    (hcover : ∀ j, L j → ∃ o ids, S o ids ∧ j ∈ ids) (hnames : ∀ k, H k → ∃ ids, S (some k) ids) :
    shelf H L l = S := by
  funext o ids
  refine propext ⟨fun h => ?_, hS o ids⟩
  cases ids with
  | nil =>
    cases o with
    | none =>
      obtain ⟨i, rest, hids, -⟩ := h
      cases hids
    | some k =>
      obtain ⟨ids, hk⟩ := hnames k h.1
      rwa [h.2.unique (hS _ _ hk).2]
  | cons i rest =>
    obtain ⟨o', ids', hs, hi⟩ := hcover i (w.shelf_live h i (by simp))
    obtain ⟨rfl, rfl⟩ := w.shelf_unique h (hS _ _ hs) (by simp) hi
    exact hs

end WellLinked
end

theorem not_shelf_none_nil : ¬ shelf H L l none [] := by
  rintro ⟨i, rest, hids, -⟩
  cases hids

/-- The back pointer of a node on a list leads to the cell that points to it; only the
first node of a list without name has none. -/
structure Agree (S : Shelf κ) (l : Links κ) : Prop where
  back : ∀ {o ids i c}, S o ids → i ∈ ids → l.prev i = some c → l.get c = some i
  null : ∀ {o ids i}, S o ids → i ∈ ids → (l.prev i = none ↔ o = none ∧ ids.head? = some i)
  next : ∀ {o ids i j}, S o ids → i ∈ ids → l.next i = some j → l.prev j = some (.node i)

theorem WellLinked.agree (w : WellLinked H L own l) : Agree (shelf H L l) l where
  back hs hi hp := (w.bwd _ _ (w.shelf_live hs _ hi) hp).2
  next hs hi hn := (w.fwd (.node _) _ (w.shelf_live hs _ hi) hn).2
  null := by
    intro o ids i hs hi
    constructor
    · intro hp
      obtain ⟨a, b, rfl⟩ := append_of_mem hi
      have ht := (w.trail_of_shelf hs).1
      rw [hp] at ht
      obtain rfl : a = [] := by
        rcases eq_nil_or_concat a with rfl | ⟨a', j, rfl⟩
        · rfl
        · simp [Trail] at ht
      have ho := (w.first_of_shelf hs).symm.trans hp
      exact ⟨map_eq_none_iff.mp ho, rfl⟩
    · rintro ⟨rfl, hhead⟩
      obtain ⟨rest, rfl⟩ : ∃ rest, ids = i :: rest := head?_eq_some_iff.mp hhead
      exact w.first_of_shelf hs

section
variable {H' : κ → Prop} {L' : ℕ → Prop} {own' : ℕ → Option κ} {l' : Links κ} {n new obj : ℕ}
  {ids : List ℕ} {k : κ}

theorem walk_congr (hnext : ∀ i ∈ ids, l'.next i = l.next i) (h : l.Walk o ids) :
    l'.Walk o ids := by
  induction ids generalizing o with
  | nil => exact h
  | cons i ids ih =>
    refine ⟨h.1, ?_⟩
    rw [hnext i (by simp)]
    exact ih (fun j hj => hnext j (by simp [hj])) h.2

theorem WellLinked.shelf_keep (w : WellLinked H L own l) {o : Option κ} (h : shelf H L l o ids)
    (hhead : ∀ k, o = some k → H' k ∧ l'.head k = l.head k)
    (hnode : ∀ i, L i → L' i ∧ l'.next i = l.next i ∧ l'.prev i = l.prev i) :
    shelf H' L' l' o ids := by
  have hnext : ∀ i ∈ ids, l'.next i = l.next i := fun i hi =>
    (hnode i (w.shelf_live h i hi)).2.1
  cases o with
  | some k =>
    obtain ⟨hk, hg⟩ := hhead k rfl
    exact ⟨hk, hg ▸ walk_congr hnext h.2⟩
  | none =>
    obtain ⟨i, rest, rfl, hi, hp, hr⟩ := h
    obtain ⟨hi', hg, hp'⟩ := hnode i hi
    exact ⟨i, rest, rfl, hi', hp'.trans hp, hg ▸ walk_congr (fun j hj => hnext j (by simp [hj])) hr⟩

theorem WellLinked.shelf_congr (w : WellLinked H L own l) (w' : WellLinked H' L' own' l')
    (hn : ∀ i, L i → i < n) (hH : ∀ k, H' k ↔ H k) (hL : ∀ j, L' j ↔ L j)
    (hhead : ∀ k, H k → l'.head k = l.head k)
    (hnode : ∀ j, L j → l'.next j = l.next j ∧ l'.prev j = l.prev j) :
    shelf H' L' l' = shelf H L l := by
  refine w'.shelf_eq (fun o ids h => ?_) (fun j hj => ?_) fun k hk => ?_
  · refine w.shelf_keep h (fun k hk => ?_) fun i hi => ⟨(hL i).mpr hi, hnode i hi⟩
    subst hk
    exact ⟨(hH k).mpr h.1, hhead k h.1⟩
  · obtain ⟨ids, hs, hj⟩ := w.exists_list hn ((hL j).mp hj)
    exact ⟨_, ids, hs, hj⟩
  · exact w.exists_named hn ((hH k).mp hk)

theorem WellLinked.shelf_dropHead (w : WellLinked H L own l) (hn : ∀ i, L i → i < n)
    (hempty : l.head k = none) : shelf (fun a => H a ∧ a ≠ k) L l = (shelf H L l).drop k := by
  refine (w.dropHead hempty).shelf_eq ?_ (fun j hj => ?_) fun a ha => ?_
  · rintro o ids ⟨h, hne⟩
    refine w.shelf_keep h (fun a ha => ?_) fun i hi => ⟨hi, rfl, rfl⟩
    subst ha
    exact ⟨⟨h.1, fun he => hne (he ▸ rfl)⟩, rfl⟩
  · obtain ⟨ids, hs, hmem⟩ := w.exists_list hn hj
    refine ⟨_, ids, ⟨hs, fun hk => ?_⟩, hmem⟩
    rw [hk] at hs
    obtain rfl : ids = [] := hs.2.unique hempty
    cases hmem
  · obtain ⟨ids, hs⟩ := w.exists_named hn ha.1
    exact ⟨ids, hs, fun he => ha.2 (some.inj he)⟩

variable [DecidableEq κ]

section
variable (w : WellLinked H L own l) (hn : ∀ i, L i → i < n)
include w hn

theorem WellLinked.shelf_addHead (hk : ¬ H k) :
    shelf (fun a => a = k ∨ H a) L (l.set (.head k) none) = (shelf H L l).grow k := by
  refine (w.addHead hk).shelf_eq ?_ (fun j hj => ?_) fun a ha => ?_
  · rintro o ids (h | ⟨rfl, rfl⟩)
    · refine w.shelf_keep h (fun a ha => ?_) fun i hi => ⟨hi, ?_, ?_⟩
      · subst ha
        have hne : a ≠ k := fun he => hk (he ▸ h.1)
        exact ⟨.inr h.1, by simp [head_eq_get, hne]⟩
      · simp [next_eq_get]
      · simp
    · exact ⟨.inl rfl, by simp [head_eq_get, Walk]⟩
  · obtain ⟨ids, hs, hmem⟩ := w.exists_list hn hj
    exact ⟨_, ids, .inl hs, hmem⟩
  · rcases ha with rfl | ha
    · exact ⟨[], .inr ⟨rfl, rfl⟩⟩
    · obtain ⟨ids, hs⟩ := w.exists_named hn ha
      exact ⟨ids, .inl hs⟩

theorem WellLinked.shelf_clear_dead (hnew : ¬ L new) : shelf H L (l.clear new) = shelf H L l := by
  refine w.shelf_congr (w.clear_dead hnew) hn (fun _ => Iff.rfl) (fun _ => Iff.rfl)
    (fun k _ => by simp [head_eq_get, get_clear]) fun j hj => ?_
  have hne : j ≠ new := fun he => hnew (he ▸ hj)
  exact ⟨by simp [next_eq_get, get_clear, hne], by simp [prev_clear, hne]⟩

theorem WellLinked.shelf_clear (hnew : ¬ L new) :
    shelf H (fun j => j = new ∨ L j) (l.clear new) = (shelf H L l).add new := by
  refine (w.clear hnew).shelf_eq ?_ (fun j hj => ?_) fun k hk => ?_
  · rintro o ids (h | ⟨rfl, rfl⟩)
    · refine w.shelf_keep h (fun k hk => ?_) fun i hi => ?_
      · subst hk
        exact ⟨h.1, by simp [head_eq_get, get_clear]⟩
      · have hne : i ≠ new := fun he => hnew (he ▸ hi)
        exact ⟨.inr hi, by simp [next_eq_get, get_clear, hne], by simp [prev_clear, hne]⟩
    · exact ⟨new, [], rfl, .inl rfl, by simp [prev_clear], by simp [Walk, next_eq_get, get_clear]⟩
  · rcases hj with rfl | hj
    · exact ⟨none, [j], .inr ⟨rfl, rfl⟩, by simp⟩
    · obtain ⟨ids, hs, hmem⟩ := w.exists_list hn hj
      exact ⟨_, ids, .inl hs, hmem⟩
  · obtain ⟨ids, hs⟩ := w.exists_named hn hk
    exact ⟨ids, .inl hs⟩

theorem WellLinked.shelf_attach (hk : H k) (hempty : l.head k = none) (hclear : l.next new = none)
    (hnew : ¬ L new) :
    shelf H (fun j => j = new ∨ L j) (l.attach k new) = (shelf H L l).put k new := by
  refine (w.attach hk hempty hclear hnew).shelf_eq ?_ (fun j hj => ?_) fun a ha => ?_
  · rintro o ids (⟨rfl, rfl⟩ | ⟨hne, h⟩)
    · refine ⟨hk, by simp [head_eq_get, get_attach], ?_⟩
      rw [next_eq_get] at hclear
      simp [Walk, next_eq_get, get_attach, hclear]
    · refine w.shelf_keep h (fun a ha => ?_) fun i hi => ?_
      · subst ha
        have hak : a ≠ k := fun he => hne (he ▸ rfl)
        exact ⟨h.1, by simp [head_eq_get, get_attach, hak]⟩
      · have hin : i ≠ new := fun he => hnew (he ▸ hi)
        exact ⟨.inr hi, by simp [next_eq_get, get_attach], by simp [prev_attach, hin]⟩
  · rcases hj with rfl | hj
    · exact ⟨some k, [j], .inl ⟨rfl, rfl⟩, by simp⟩
    · obtain ⟨ids, hs, hmem⟩ := w.exists_list hn hj
      refine ⟨_, ids, .inr ⟨fun ho => ?_, hs⟩, hmem⟩
      rw [ho] at hs
      obtain rfl : ids = [] := hs.2.unique hempty
      cases hmem
  · by_cases hak : a = k
    · exact ⟨[new], .inl ⟨by rw [hak], rfl⟩⟩
    · obtain ⟨ids, hs⟩ := w.exists_named hn ha
      exact ⟨ids, .inr ⟨fun he => hak (some.inj he), hs⟩⟩

end

theorem walk_insertAfter (obj : ℕ) (hnew : ¬ L new) (hlive : ∀ i ∈ ids, L i) (h : l.Walk o ids) :
    (l.insertAfter obj new).Walk o (ids.flatMap fun i => if i = obj then [i, new] else [i]) := by
  induction ids generalizing o with
  | nil => exact h
  | cons i ids ih =>
    have hi : i ≠ new := fun he => hnew (he ▸ hlive i (by simp))
    have hrest := ih (fun j hj => hlive j (by simp [hj])) h.2
    rw [flatMap_cons]
    by_cases hobj : i = obj
    · subst hobj
      have hnext : (l.insertAfter i new).next new = l.next i := by
        simp [next_eq_get, get_insertAfter, Ne.symm hi]
      rw [if_pos rfl]
      exact ⟨h.1, by simp [next_eq_get, get_insertAfter], hnext ▸ hrest⟩
    · have hnext : (l.insertAfter obj new).next i = l.next i := by
        simp [next_eq_get, get_insertAfter, hobj, hi]
      rw [if_neg hobj]
      exact ⟨h.1, hnext ▸ hrest⟩

namespace WellLinked
variable (w : WellLinked H L own l) {c : Cell κ}
include w

omit [DecidableEq κ] in
theorem exists_flatMap (hn : ∀ i, L i → i < n) (hobj : L obj) {f : ℕ → List ℕ}
    (hf : ∀ i, i ∈ f i) (hnew : new ∈ f obj) (hj : j = new ∨ L j) :
    ∃ o ids, (∃ old, shelf H L l o old ∧ ids = old.flatMap f) ∧ j ∈ ids := by
  obtain ⟨i, hi, hji⟩ : ∃ i, L i ∧ j ∈ f i := by
    rcases hj with rfl | hj
    · exact ⟨obj, hobj, hnew⟩
    · exact ⟨j, hj, hf j⟩
  obtain ⟨ids, hs, hmem⟩ := w.exists_list hn hi
  exact ⟨_, _, ⟨ids, hs, rfl⟩, mem_flatMap.mpr ⟨i, hmem, hji⟩⟩

theorem shelf_insertAfter (hn : ∀ i, L i → i < n) (hobj : L obj) (hnew : ¬ L new) :
    shelf H (fun j => j = new ∨ L j) (l.insertAfter obj new) =
      (shelf H L l).insertAfter obj new := by
  have hne : new ≠ obj := fun h => hnew (h ▸ hobj)
  refine (w.insertAfter hobj hnew).shelf_eq ?_ (fun j hj => ?_) fun k hk => ?_
  · rintro o _ ⟨ids, h, rfl⟩
    have hlive := w.shelf_live h
    cases o with
    | some k =>
      have hhead : (l.insertAfter obj new).head k = l.head k := by
        simp [head_eq_get, get_insertAfter]
      exact ⟨h.1, hhead ▸ walk_insertAfter obj hnew hlive h.2⟩
    | none =>
      obtain ⟨i, rest, rfl, hi, hp, hr⟩ := h
      have hwalk := walk_insertAfter obj hnew hlive
        (show l.Walk (some i) (i :: rest) from ⟨rfl, hr⟩)
      have hin : i ≠ new := fun he => hnew (he ▸ hi)
      have hnot : l.next obj ≠ some i := fun h => by
        rw [(w.next_iff hobj hi).mp h] at hp
        cases hp
      have hp' : (l.insertAfter obj new).prev i = none := by
        rw [prev_insertAfter hne, if_neg hnot, if_neg hin, hp]
      rw [flatMap_cons] at hwalk ⊢
      split_ifs at hwalk ⊢ with hobj' <;> exact ⟨i, _, rfl, .inr hi, hp', hwalk.2⟩
  · exact w.exists_flatMap hn hobj (fun i => by split_ifs <;> simp) (by simp) hj
  · obtain ⟨ids, hs⟩ := w.exists_named hn hk
    exact ⟨_, ids, hs, rfl⟩

theorem walk_insertBefore (hobj : L obj) (hnew : ¬ L new) (hc : Live H L c)
    (h : l.Walk (l.get c) ids) : (l.insertBefore obj new).Walk ((l.insertBefore obj new).get c)
      (ids.flatMap fun i => if i = obj then [new, i] else [i]) := by
  have hne : new ≠ obj := fun h => hnew (h ▸ hobj)
  induction ids generalizing c with
  | nil =>
    have hcn : c ≠ .node new := fun he => hnew (by simpa [he, Live] using hc)
    have hp : l.prev obj ≠ some c := fun hp => by
      have hg := (w.bwd obj c hobj hp).2
      rw [show l.get c = none from h] at hg
      cases hg
    rw [get_insertBefore hne, if_neg hp, if_neg hcn]
    exact h
  | cons i ids ih =>
    obtain ⟨hi, hp⟩ := w.fwd c i hc h.1
    have hcn : c ≠ .node new := fun he => hnew (by simpa [he, Live] using hc)
    have hrest := ih (c := .node i) hi h.2
    rw [flatMap_cons]
    by_cases hio : i = obj
    · subst hio
      rw [if_pos rfl]
      have hpn : l.prev i ≠ some (.node new) := by
        rw [hp]
        simpa using hcn
      refine ⟨by rw [get_insertBefore hne, if_pos hp], ?_, hrest⟩
      rw [next_eq_get, get_insertBefore hne, if_neg hpn, if_pos rfl]
    · rw [if_neg hio]
      have hpc : l.prev obj ≠ some c := fun hp' =>
        hio (some.inj (h.1.symm.trans (w.bwd obj c hobj hp').2))
      refine ⟨?_, hrest⟩
      rw [get_insertBefore hne, if_neg hpc, if_neg hcn]
      exact h.1

theorem shelf_insertBefore (hn : ∀ i, L i → i < n) (hobj : L obj) (hnew : ¬ L new) :
    shelf H (fun j => j = new ∨ L j) (l.insertBefore obj new) =
      (shelf H L l).insertBefore obj new := by
  have hne : new ≠ obj := fun h => hnew (h ▸ hobj)
  refine (w.insertBefore hobj hnew).shelf_eq ?_ (fun j hj => ?_) fun k hk => ?_
  · rintro o _ ⟨ids, h, rfl⟩
    cases o with
    | some k => exact ⟨h.1, w.walk_insertBefore hobj hnew (c := .head k) h.1 h.2⟩
    | none =>
      obtain ⟨i, rest, rfl, hi, hp, hr⟩ := h
      have hrest := w.walk_insertBefore hobj hnew (c := .node i) hi hr
      rw [flatMap_cons]
      by_cases hio : i = obj
      · subst hio
        rw [if_pos rfl]
        refine ⟨new, _, rfl, .inl rfl, ?_, ?_, hrest⟩
        · rw [prev_insertBefore, if_neg hne, if_pos rfl, hp]
        · rw [next_eq_get, get_insertBefore hne, if_neg (by simp [hp]), if_pos rfl]
      · rw [if_neg hio]
        have hin : i ≠ new := fun he => hnew (he ▸ hi)
        refine ⟨i, _, rfl, .inr hi, ?_, hrest⟩
        rw [prev_insertBefore, if_neg hio, if_neg hin, hp]
  · exact w.exists_flatMap hn hobj (fun i => by split_ifs <;> simp) (by simp) hj
  · obtain ⟨ids, hs⟩ := w.exists_named hn hk
    exact ⟨_, ids, hs, rfl⟩

theorem get_unlink (hobj : L obj) (hc : Live H L c) (hne : c ≠ .node obj) :
    (l.unlink obj).get c = if l.get c = some obj then l.next obj else l.get c := by
  rw [Links.get_unlink, if_neg hne]
  have hiff : l.prev obj = some c ↔ l.get c = some obj :=
    ⟨fun hp => (w.bwd obj c hobj hp).2, fun hg => (w.fwd c obj hc hg).2⟩
  simp [hiff]

theorem walk_unlink {obj : ℕ} (hobj : L obj) :
    ∀ (ids : List ℕ) {c : Cell κ}, Live H L c → c ≠ .node obj → l.Walk (l.get c) ids →
      (l.unlink obj).Walk ((l.unlink obj).get c) (ids.filter fun i => i ≠ obj)
  | [], c, hc, hne, h => by
    have hg : l.get c = none := h
    rw [w.get_unlink hobj hc hne, hg, if_neg (by simp)]
    rfl
  | [i], c, hc, hne, h => by
    have hi : l.next i = none := h.2
    rw [w.get_unlink hobj hc hne, h.1]
    by_cases hio : i = obj
    · subst hio
      simpa [Walk] using hi
    · have hsome : some i ≠ some obj := by simpa using hio
      have hrest := walk_unlink hobj [] (c := .node i) (w.fwd c i hc h.1).1
        (by simpa using hio) hi
      rw [if_neg hsome, filter_cons_of_pos (by simpa using hio)]
      exact ⟨rfl, hrest⟩
  | i :: j :: ids, c, hc, hne, h => by
    have hi := w.fwd c i hc h.1
    have hj := w.fwd (.node i) j hi.1 h.2.1
    rw [w.get_unlink hobj hc hne, h.1]
    by_cases hio : i = obj
    · subst hio
      have hji : j ≠ i := fun he => (w.rooted i hi.1).not_self (he ▸ hj.2)
      have hrest := walk_unlink hobj ids (c := .node j) hj.1 (by simpa using hji) h.2.2
      rw [if_pos rfl, filter_cons_of_neg (by simp),
        filter_cons_of_pos (by simpa using hji)]
      exact ⟨h.2.1, hrest⟩
    · have hrest := walk_unlink hobj (j :: ids) (c := .node i) hi.1 (by simpa using hio)
        h.2
      rw [if_neg (by simpa using hio), filter_cons_of_pos (by simpa using hio)]
      exact ⟨rfl, hrest⟩

theorem shelf_unlink (hn : ∀ i, L i → i < n) (hobj : L obj) :
    shelf H (fun j => L j ∧ j ≠ obj) (l.unlink obj) = (shelf H L l).remove obj := by
  have hs := (w.rooted obj hobj).not_self
  refine (w.unlink hobj).shelf_eq ?_ (fun j hj => ?_) fun k hk => ?_
  · rintro o _ ⟨hids, ids, h, rfl⟩
    cases o with
    | some k => exact ⟨h.1, w.walk_unlink hobj _ (c := .head k) h.1 (by simp) h.2⟩
    | none =>
      obtain ⟨i, rest, rfl, hi, hp, hr⟩ := h
      by_cases hio : i = obj
      · subst hio
        cases rest with
        | nil => simp at hids
        | cons j rest =>
          have hj := w.fwd (.node i) j hi hr.1
          have hji : j ≠ i := fun he => hs (he ▸ hj.2)
          have hrest := w.walk_unlink hobj _ (c := .node j) hj.1 (by simpa using hji) hr.2
          refine ⟨j, rest.filter fun a => a ≠ i, by simp [hji], ⟨hj.1, hji⟩, ?_, hrest⟩
          rw [Links.prev_unlink hs, if_neg hji, if_pos hr.1, hp]
      · have hrest := w.walk_unlink hobj _ (c := .node i) hi (by simpa using hio) hr
        refine ⟨i, rest.filter fun a => a ≠ obj, by simp [hio], ⟨hi, hio⟩, ?_, hrest⟩
        rw [w.prev_unlink hobj hi hio, hp]
        simp [bypass]
  · obtain ⟨ids, hs, hmem⟩ := w.exists_list hn hj.1
    have hmem' : j ∈ ids.filter fun i => i ≠ obj := by simpa using ⟨hmem, hj.2⟩
    exact ⟨_, _, ⟨fun _ => ne_nil_of_mem hmem', ids, hs, rfl⟩, hmem'⟩
  · obtain ⟨ids, hs⟩ := w.exists_named hn hk
    exact ⟨_, by simp, ids, hs, rfl⟩

end WellLinked
end
end Links
end Cplant
