import Mathlib.Data.List.Nodup

/-!
# Fixed pools of objects threaded by an intrusive free list

Every object of the pool carries one link. A null link marks an object that is
handed out; all other objects form a singly linked list that starts at `head`
and stops at a distinguished end mark, never at null. Nothing here refers to
what the objects hold.
-/
namespace Cplant
open List
open Function

inductive Link
  | null
  | obj (i : ℕ)
  | endMark
deriving DecidableEq, Repr

structure FreeList where
  next : ℕ → Link
  head : Link

namespace FreeList

def InUse (f : FreeList) (i : ℕ) : Prop := f.next i = .null

instance (f : FreeList) (i : ℕ) : Decidable (f.InUse i) :=
  inferInstanceAs (Decidable (f.next i = .null))

def alloc (f : FreeList) : Option (ℕ × FreeList) :=
  match f.head with
  | .obj i => some (i, ⟨update f.next i .null, f.next i⟩)
  | _ => none

def release (f : FreeList) (i : ℕ) : FreeList :=
  if f.next i = .null then ⟨update f.next i f.head, .obj i⟩ else f

def fill (g : ℕ → Link) : ℕ → FreeList
  | 0 => ⟨g, .endMark⟩
  | n + 1 =>
    let f := fill g n
    ⟨update f.next n f.head, .obj n⟩

/-- The links starting at `k` visit exactly `l` and then reach the end mark. -/
def Threads (next : ℕ → Link) : Link → List ℕ → Prop
  | k, [] => k = .endMark
  | k, i :: l => k = .obj i ∧ Threads next (next i) l

/-- The free objects below `n` are the ones on the list, each of them once. -/
def Valid (n : ℕ) (f : FreeList) : Prop :=
  ∃ l, Threads f.next f.head l ∧ l.Nodup ∧ ∀ i, i ∈ l ↔ i < n ∧ ¬ f.InUse i

variable {i n : ℕ} {l : List ℕ} {f f' : FreeList} {next : ℕ → Link}

theorem threads_update {v : Link} (hi : i ∉ l) :
    ∀ {k : Link}, Threads next k l → Threads (update next i v) k l := by
  induction l with
  | nil => intro k h; exact h
  | cons j l ih =>
    intro k h
    obtain ⟨hij, hil⟩ : i ≠ j ∧ i ∉ l := by simpa [not_or] using hi
    refine ⟨h.1, ?_⟩
    rw [update_of_ne hij.symm]
    exact ih hil h.2

theorem threads_null : ¬ Threads next .null l := by
  cases l <;> simp [Threads]

theorem fill_head_ne_null (g : ℕ → Link) (n : ℕ) : (fill g n).head ≠ .null := by
  cases n <;> simp [fill]

theorem fill_free (g : ℕ → Link) (n i : ℕ) (hi : i < n) : ¬ (fill g n).InUse i := by
  induction n with
  | zero => omega
  | succ n ih =>
    by_cases hin : i = n
    · subst hin
      simpa [InUse, fill] using fill_head_ne_null g i
    · simpa [InUse, fill, update_of_ne hin] using ih (by omega)

theorem fill_valid (g : ℕ → Link) (n : ℕ) : Valid n (fill g n) := by
  refine ⟨(range n).reverse, ?_, by simpa using nodup_range, fun i => ?_⟩
  · induction n with
    | zero => rfl
    | succ n ih =>
      rw [range_succ, reverse_append]
      refine ⟨rfl, ?_⟩
      have h := threads_update (i := n) (v := (fill g n).head) (by simp) ih
      simpa [fill] using h
  · constructor
    · intro h
      have hi : i < n := by simpa using h
      exact ⟨hi, fill_free g n i hi⟩
    · intro h
      simpa using h.1

theorem alloc_threads_nil (h : Threads f.next f.head []) : f.alloc = none := by
  have hend : f.head = .endMark := h
  simp [alloc, hend]

theorem alloc_threads_cons (hnd : (i :: l).Nodup) (h : Threads f.next f.head (i :: l)) :
    ∃ f', f.alloc = some (i, f') ∧ Threads f'.next f'.head l := by
  obtain ⟨hhead, hl⟩ := h
  refine ⟨⟨update f.next i .null, f.next i⟩, by simp [alloc, hhead], ?_⟩
  exact threads_update (nodup_cons.mp hnd).1 hl

theorem alloc_eq_none_iff (hf : Valid n f) : f.alloc = none ↔ ∀ i < n, i < n ∧ f.InUse i := by
  obtain ⟨l, hl, hnd, hmem⟩ := hf
  cases l with
  | nil =>
    refine iff_of_true (alloc_threads_nil hl) fun i hi => ⟨hi, not_not.mp fun hu => ?_⟩
    exact not_mem_nil ((hmem i).mpr ⟨hi, hu⟩)
  | cons i l =>
    obtain ⟨f', hf', -⟩ := alloc_threads_cons hnd hl
    obtain ⟨hi, hu⟩ := (hmem i).mp mem_cons_self
    exact iff_of_false (by simp [hf']) fun hall => hu (hall i hi).2

theorem alloc_spec (hf : Valid n f) (h : f.alloc = some (i, f')) :
    i < n ∧ ¬ f.InUse i ∧ Valid n f' ∧ ∀ j, f'.InUse j ↔ j = i ∨ f.InUse j := by
  obtain ⟨l, hl, hnd, hmem⟩ := hf
  unfold alloc at h
  split at h
  case h_2 => cases h
  case h_1 k hk =>
    obtain ⟨rfl, rfl⟩ : k = i ∧ _ := by simpa using h
    rw [hk] at hl
    cases l with
    | nil => cases hl
    | cons j l =>
      obtain ⟨hj, hl⟩ := hl
      cases hj
      have hk' := (hmem k).mp (by simp)
      have hnd' := nodup_cons.mp hnd
      refine ⟨hk'.1, hk'.2, ⟨l, threads_update hnd'.1 hl, hnd'.2, fun a => ?_⟩, fun a => ?_⟩
      · by_cases ha : a = k
        · subst ha
          simpa [InUse] using hnd'.1
        · have h := hmem a
          simpa [InUse, ha] using h
      · by_cases ha : a = k <;> simp [InUse, ha]

theorem release_spec (hf : Valid n f) (hi : i < n) (hu : f.InUse i) :
    Valid n (f.release i) ∧ ∀ j, (f.release i).InUse j ↔ j ≠ i ∧ f.InUse j := by
  obtain ⟨l, hl, hnd, hmem⟩ := hf
  have hnl : i ∉ l := fun h => ((hmem i).mp h).2 hu
  have hhead : f.head ≠ .null := fun h => threads_null (h ▸ hl)
  have hrel : f.release i = ⟨update f.next i f.head, .obj i⟩ := if_pos hu
  rw [hrel]
  refine ⟨⟨i :: l, ⟨rfl, ?_⟩, nodup_cons.mpr ⟨hnl, hnd⟩, fun a => ?_⟩, fun a => ?_⟩
  · simpa using threads_update hnl hl
  · by_cases ha : a = i
    · subst ha
      simpa [InUse, hhead] using hi
    · simpa [InUse, ha] using hmem a
  · by_cases ha : a = i <;> simp [InUse, ha, hhead]

theorem inUse_of_release {j : ℕ} (h : (f.release i).InUse j) : f.InUse j := by
  unfold release at h
  split_ifs at h with hi
  · by_cases hj : j = i
    · exact hj ▸ hi
    · simpa [InUse, hj] using h
  · exact h

theorem alloc_live (hf : Valid n f) (h : f.alloc = some (i, f')) (j : ℕ) :
    j < n ∧ f'.InUse j ↔ j = i ∨ (j < n ∧ f.InUse j) := by
  obtain ⟨hlt, -, -, huse⟩ := alloc_spec hf h
  rw [huse]
  constructor
  · rintro ⟨hj, rfl | hu⟩
    · exact .inl rfl
    · exact .inr ⟨hj, hu⟩
  · rintro (rfl | ⟨hj, hu⟩)
    · exact ⟨hlt, .inl rfl⟩
    · exact ⟨hj, .inr hu⟩

theorem release_live (hf : Valid n f) (hi : i < n) (hu : f.InUse i) (j : ℕ) :
    j < n ∧ (f.release i).InUse j ↔ (j < n ∧ f.InUse j) ∧ j ≠ i := by
  obtain ⟨-, huse⟩ := release_spec hf hi hu
  rw [huse]
  tauto

end FreeList
end Cplant
