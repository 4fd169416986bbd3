import Mathlib.Data.List.Nodup

/-!
Lists of records that are known by a key: a record is written at its key, or removed.
-/
namespace Cplant.Keyed
open Function (comp_apply)
open List
variable {α β κ : Type*} [DecidableEq κ] {key : α → κ} {b g h : α} {l : List α} {k : κ}

def put (key : α → κ) (h : α) (l : List α) : List α := l.map fun g => if key g = key h then h else g

def remove (key : α → κ) (k : κ) (l : List α) : List α := l.filter fun g => key g ≠ k

def lookup (key : α → κ) (k : κ) (l : List α) : Option α := l.find? fun g => key g = k

theorem lookup_eq_some (hf : lookup key k l = some g) : g ∈ l ∧ key g = k :=
  ⟨mem_of_find?_eq_some hf, by simpa using find?_some hf⟩

theorem mem_put (hb : b ∈ put key h l) : b = h ∨ b ∈ l ∧ key b ≠ key h := by
  obtain ⟨g, hg, rfl⟩ := mem_map.mp hb
  split_ifs with hk
  · exact .inl rfl
  · exact .inr ⟨hg, hk⟩

theorem put_mem (hg : g ∈ l) (hk : key g = key h) : h ∈ put key h l :=
  mem_map.mpr ⟨g, hg, if_pos hk⟩

theorem mem_put_of_ne (hb : b ∈ l) (hk : key b ≠ key h) : b ∈ put key h l :=
  mem_map.mpr ⟨b, hb, if_neg hk⟩

theorem put_of_forall_ne (hl : ∀ b ∈ l, key b ≠ key h) : put key h l = l :=
  (map_congr_left fun b hb => if_neg (hl b hb)).trans (map_id' l)

theorem map_put {f : α → β} (hn : (l.map key).Nodup) (hg : g ∈ l) (hk : key g = key h)
    (hf : f h = f g) : (put key h l).map f = l.map f := by
  unfold put
  rw [map_map]
  apply map_congr_left
  intro b hb
  rw [comp_apply]
  split_ifs with hkb
  · rw [hf, inj_on_of_nodup_map hn hb hg (hkb.trans hk.symm)]
  · rfl

@[simp]
theorem map_key_put : (put key h l).map key = l.map key := by
  unfold put
  rw [map_map]
  apply map_congr_left
  intro b _
  rw [comp_apply]
  split_ifs with hkb
  · exact hkb.symm
  · rfl

theorem put_eq_self (hn : (l.map key).Nodup) (hg : g ∈ l) : put key g l = l := by
  simpa using map_put (f := id) hn hg rfl rfl

section
variable {f : α → β} {key' : β → κ} (hf : ∀ a, key' (f a) = key a)
include hf

theorem map_put_comm : (put key h l).map f = put key' (f h) (l.map f) := by
  unfold put
  rw [map_map, map_map]
  apply map_congr_left
  intro b _
  rw [comp_apply, comp_apply, hf, hf]
  split_ifs <;> rfl

theorem map_remove_comm : (remove key k l).map f = remove key' k (l.map f) := by
  unfold remove
  rw [filter_map]
  congr 1
  apply filter_congr
  intro b _
  rw [comp_apply, hf]

end

theorem mem_remove : b ∈ remove key k l ↔ b ∈ l ∧ key b ≠ k := by simp [remove]

theorem remove_sublist : (remove key k l).Sublist l := List.filter_sublist

section Count
variable {p : α → Bool}

theorem countP_put (hn : (l.map key).Nodup) (hg : g ∈ l) (hk : key g = key h) :
    (put key h l).countP p + (p g).toNat = l.countP p + (p h).toNat := by
  induction l with
  | nil => cases hg
  | cons b l ih =>
    rw [map_cons, nodup_cons] at hn
    have hput : put key h (b :: l) = (if key b = key h then h else b) :: put key h l := rfl
    rw [hput, countP_cons, countP_cons]
    rcases mem_cons.mp hg with rfl | hg
    · have hsame : put key h l = l := by
        apply put_of_forall_ne
        intro b hb hkb
        exact hn.1 (hk.trans hkb.symm ▸ mem_map_of_mem hb)
      rw [if_pos hk, hsame]
      cases p g <;> cases p h <;> simp
    · have hne : key b ≠ key h := fun hkb => hn.1 ((hkb.trans hk.symm) ▸ mem_map_of_mem hg)
      have := ih hn.2 hg
      rw [if_neg hne]
      omega

theorem countP_remove (hn : (l.map key).Nodup) (hg : g ∈ l) :
    (remove key (key g) l).countP p + (p g).toNat = l.countP p := by
  induction l with
  | nil => cases hg
  | cons b l ih =>
    rw [map_cons, nodup_cons] at hn
    unfold remove at ih ⊢
    rw [filter_cons, countP_cons]
    rcases mem_cons.mp hg with rfl | hg
    · have hsame : (l.filter fun b => key b ≠ key g) = l := by
        apply filter_eq_self.mpr
        intro b hb
        exact decide_eq_true fun hk => hn.1 (hk ▸ mem_map_of_mem hb)
      rw [if_neg (by simp), hsame]
      cases p g <;> simp
    · have hne : key b ≠ key g := fun hk => hn.1 (hk ▸ mem_map_of_mem hg)
      have := ih hn.2 hg
      rw [if_pos (by simpa using hne), countP_cons]
      omega

end Count
end Cplant.Keyed
