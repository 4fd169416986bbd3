import Cplant.AddrCache.Frames

/-!
# The slots of a table

A region needs one slot for each page that it touches. The size of the region selects the
subcache and with it the number of slots, but nothing limits the size for the last subcache,
and where `reg_sz` is not a multiple of the page size a region that does not start on a page
boundary touches one page too many.
-/
namespace Cplant.AddrCache
open Nat Option
variable {a : Arch} {m : Mapping a} {v nb phys fuel : ℕ}

theorem Arch.pageSize_pos (a : Arch) : 0 < a.pageSize := by cases a <;> decide

def pages (a : Arch) (vaddr nb : ℕ) : ℕ := (vaddr % a.pageSize + nb + (a.pageSize - 1)) / a.pageSize

def Mapped (m : Mapping a) (vaddr nb : ℕ) : Prop :=
  ∀ k < nb, (calcPhysAddress m (vaddr + k)).isSome = true

def Owns (a : Arch) (k : AddrKey) (i : ℕ) : Prop :=
  Caches.slotBase a k.1 + k.2 * a.tblSz k.1 ≤ i ∧
    i < Caches.slotBase a k.1 + (k.2 + 1) * a.tblSz k.1

instance (a : Arch) (k : AddrKey) (i : ℕ) : Decidable (Owns a k i) :=
  inferInstanceAs (Decidable (_ ∧ _))

def Fits (a : Arch) (vaddr : ℕ) (nbytes : ℤ) (j : CacheId) : Prop :=
  vaddr = 0 ∨ nbytes = 0 ∨ pages a vaddr (nbytes % 2 ^ 32).toNat ≤ a.tblSz j

theorem calcPhysAddress_mod (h : calcPhysAddress m v = some phys) :
    phys % a.pageSize = v % a.pageSize := by
  obtain ⟨base, hbase, rfl⟩ := map_eq_some_iff.mp h
  obtain ⟨q, rfl⟩ := m.aligned _ _ hbase
  rw [mul_add_mod, mod_mod]

theorem calcPhysAddress_isSome_congr {v' : ℕ} (h : v / a.pageSize = v' / a.pageSize) :
    (calcPhysAddress m v).isSome = (calcPhysAddress m v').isSome := by
  rw [calcPhysAddress, calcPhysAddress, isSome_map, isSome_map, h]

theorem firstChunk_eq (nb : ℕ) (h : calcPhysAddress m v = some phys) :
    firstChunk a phys nb = min nb (a.pageSize - v % a.pageSize) := by
  rw [firstChunk, calcPhysAddress_mod h]
  split
  · split <;> omega
  · split <;> omega

theorem firstChunk_cases (a : Arch) (v nb : ℕ) : min nb (a.pageSize - v % a.pageSize) = nb ∨
      min nb (a.pageSize - v % a.pageSize) < nb ∧
        a.pageSize ∣ v + min nb (a.pageSize - v % a.pageSize) := by
  rcases le_or_gt nb (a.pageSize - v % a.pageSize) with hle | hgt
  · exact .inl (min_eq_left hle)
  · have hmod := mod_lt v a.pageSize_pos
    refine .inr ⟨by omega, ?_⟩
    refine ⟨v / a.pageSize + 1, ?_⟩
    have hdiv := div_add_mod v a.pageSize
    rw [mul_add, mul_one]
    omega

theorem mapped_split {n k : ℕ} (hk : k ≤ n) :
    Mapped m v n ↔ Mapped m v k ∧ Mapped m (v + k) (n - k) := by
  constructor
  · intro h
    refine ⟨fun i hi => h i (by omega), fun i hi => ?_⟩
    rw [add_assoc]
    exact h (k + i) (by omega)
  · rintro ⟨hfirst, hrest⟩ i hi
    rcases lt_or_ge i k with hik | hik
    · exact hfirst i hik
    · have := hrest (i - k) (by omega)
      rwa [show v + k + (i - k) = v + i by omega] at this

theorem mapped_page {n : ℕ} (hpos : 0 < n) (hn : n ≤ a.pageSize - v % a.pageSize) :
    Mapped m v n ↔ (calcPhysAddress m v).isSome = true := by
  have hpage : ∀ k < n, (v + k) / a.pageSize = v / a.pageSize := by
    intro k hk
    have hdiv := div_add_mod v a.pageSize
    refine Nat.div_eq_of_lt_le ?_ ?_
    · rw [mul_comm]
      omega
    · rw [add_mul, one_mul, mul_comm]
      omega
  constructor
  · exact fun h => h 0 hpos
  · intro h k hk
    rw [calcPhysAddress_isSome_congr (hpage k hk)]
    exact h

theorem fillRest_zero (fuel v : ℕ) : fillRest m fuel v 0 = ([], true) := by
  cases fuel <;> rfl

theorem fillRest_ok (hfuel : nb ≤ fuel) (hv : a.pageSize ∣ v) :
    (fillRest m fuel v nb).2 = true ↔ Mapped m v nb := by
  induction fuel generalizing v nb with
  | zero =>
    obtain rfl : nb = 0 := by omega
    exact iff_of_true rfl fun k hk => absurd hk k.not_lt_zero
  | succ fuel ih =>
    have hps := a.pageSize_pos
    rw [fillRest]
    split
    next hnb =>
      subst hnb
      exact iff_of_true rfl fun k hk => absurd hk k.not_lt_zero
    next hnb =>
    cases hphys : calcPhysAddress m v with
    | none =>
      refine iff_of_false Bool.false_ne_true fun hmapped => ?_
      have := hmapped 0 (by omega)
      rw [add_zero, hphys] at this
      exact Bool.false_ne_true this
    | some phys =>
      dsimp only
      split
      next hlong =>
        rw [ih (by omega) ((Nat.dvd_add_right hv).mpr dvd_rfl), mapped_split hlong,
          mapped_page hps (by omega), hphys]
        simp
      next hshort =>
        rw [Nat.sub_self, fillRest_zero, mapped_page (by omega) (by omega), hphys]
        simp

theorem fillRest_length (hfuel : nb ≤ fuel) (hok : (fillRest m fuel v nb).2 = true) :
    (fillRest m fuel v nb).1.length = (nb + (a.pageSize - 1)) / a.pageSize := by
  have hps := a.pageSize_pos
  have hzero : (0 + (a.pageSize - 1)) / a.pageSize = 0 := div_eq_of_lt (by omega)
  induction fuel generalizing v nb with
  | zero =>
    obtain rfl : nb = 0 := by omega
    rw [hzero]
    rfl
  | succ fuel ih =>
    rw [fillRest] at hok ⊢
    split at hok
    next hnb =>
      subst hnb
      rw [if_pos rfl, hzero]
      rfl
    next hnb =>
    rw [if_neg hnb]
    cases hphys : calcPhysAddress m v with
    | none => simp [hphys] at hok
    | some phys =>
      simp only [hphys] at hok ⊢
      rw [List.length_cons, ih (by split <;> omega) hok]
      split
      next hlong =>
        rw [show nb + (a.pageSize - 1) = nb - a.pageSize + (a.pageSize - 1) + a.pageSize by omega,
          add_div_right _ hps]
      next hshort =>
        rw [Nat.sub_self, hzero]
        exact (Nat.div_eq_of_lt_le (by omega) (by omega)).symm

theorem pages_eq (hnb : 0 < nb) : pages a v nb =
    (nb - min nb (a.pageSize - v % a.pageSize) + (a.pageSize - 1)) / a.pageSize + 1 := by
  have hps := a.pageSize_pos
  have hmod := mod_lt v hps
  rw [pages, ← add_div_right _ hps]
  rcases le_or_gt nb (a.pageSize - v % a.pageSize) with hle | hgt
  · rw [min_eq_left hle, Nat.sub_self]
    rw [Nat.div_eq_of_lt_le (show 1 * a.pageSize ≤ _ by omega) (by omega)]
    exact (Nat.div_eq_of_lt_le (by omega) (by omega)).symm
  · rw [min_eq_right hgt.le]
    congr 1
    omega

namespace Caches
variable {c c' : Caches} {k : AddrKey} {vaddr : ℕ} {nbytes : ℤ} {P : Caches → Act a → Prop}

theorem fillTable_ok (hnb : 0 < (nbytes % 2 ^ 32).toNat) :
    (c.fillTable m k vaddr nbytes).2.1 = true ↔ Mapped m vaddr (nbytes % 2 ^ 32).toNat := by
  rw [fillTable]
  generalize (nbytes % 2 ^ 32).toNat = nb at hnb ⊢
  cases hphys : calcPhysAddress m vaddr with
  | none =>
    refine iff_of_false Bool.false_ne_true fun hmapped => ?_
    have := hmapped 0 hnb
    rw [add_zero, hphys] at this
    exact Bool.false_ne_true this
  | some phys =>
    have hmod := mod_lt vaddr a.pageSize_pos
    have hchunk := firstChunk_eq nb hphys
    have hrest : (fillRest m nb (vaddr + firstChunk a phys nb) (nb - firstChunk a phys nb)).2 =
        true ↔ Mapped m (vaddr + firstChunk a phys nb) (nb - firstChunk a phys nb) := by
      rw [hchunk]
      rcases firstChunk_cases a vaddr nb with hall | ⟨-, hdvd⟩
      · rw [hall, Nat.sub_self, fillRest_zero]
        exact iff_of_true rfl fun k hk => absurd hk k.not_lt_zero
      · exact fillRest_ok (by omega) hdvd
    have hfirst : Mapped m vaddr (firstChunk a phys nb) := by
      rw [mapped_page (by omega) (by omega), hphys]
      rfl
    rw [mapped_split (show firstChunk a phys nb ≤ nb by omega), ← hrest]
    simp only [hfirst, true_and]
    split <;> simp_all

theorem fillTable_filled (hok : (c.fillTable m k vaddr nbytes).2.1 = true) :
    let nb := (nbytes % 2 ^ 32).toNat
    let chunk := min nb (a.pageSize - vaddr % a.pageSize)
    ∃ phys, calcPhysAddress m vaddr = some phys ∧
      (fillRest m nb (vaddr + chunk) (nb - chunk)).2 = true ∧
      (c.fillTable m k vaddr nbytes).2.2 =
        phys :: (fillRest m nb (vaddr + chunk) (nb - chunk)).1 := by
  rw [fillTable] at hok ⊢
  cases hphys : calcPhysAddress m vaddr with
  | none => simp [hphys] at hok
  | some phys =>
    simp only [hphys, ← firstChunk_eq _ hphys] at hok ⊢
    split at hok
    next hrest =>
      rw [if_pos hrest]
      exact ⟨phys, rfl, hrest, rfl⟩
    · cases hok

theorem fillTable_length (hnb : 0 < (nbytes % 2 ^ 32).toNat)
    (hok : (c.fillTable m k vaddr nbytes).2.1 = true) :
    (c.fillTable m k vaddr nbytes).2.2.length = pages a vaddr (nbytes % 2 ^ 32).toNat := by
  obtain ⟨phys, -, hrest, hvals⟩ := fillTable_filled hok
  rw [hvals, List.length_cons, fillRest_length (by omega) hrest, pages_eq hnb]

def Writes (c : Caches) (k : AddrKey) (vals : List ℕ) (i : ℕ) : Prop :=
  (c.table k).slot ≤ i ∧ i < (c.table k).slot + vals.length

theorem writes_owned_iff (h : Reached P c) (vals : List ℕ) :
    (∀ i, c.Writes k vals i → Owns a k i) ↔ vals.length ≤ a.tblSz k.1 := by
  have hslot := slot_of_reached h k
  simp only [Writes, Owns, hslot, add_mul, one_mul]
  constructor
  · intro howned
    by_contra hlong
    have := howned (slotBase a k.1 + k.2 * a.tblSz k.1 + a.tblSz k.1) (by omega)
    omega
  · intro hshort i hi
    omega

theorem le_toInt32 (n : ℤ) : -2 ^ 31 ≤ toInt32 n := by
  have := Int.le_bmod (x := n) (show 0 < 2 ^ 32 by decide)
  rw [toInt32]
  omega

theorem toInt32_lt (n : ℤ) : toInt32 n < 2 ^ 31 := by
  have := Int.bmod_lt (x := n) (show 0 < 2 ^ 32 by decide)
  rw [toInt32]
  omega

theorem nb_pos (hlow : -2 ^ 31 ≤ nbytes) (hhigh : nbytes < 2 ^ 31) (hne : nbytes ≠ 0) :
    0 < (nbytes % 2 ^ 32).toNat := by
  omega

theorem fillTable_inside {j : CacheId} {t : ℕ} (h : Reached P c)
    (hnb : 0 < (nbytes % 2 ^ 32).toNat) (hmapped : Mapped m vaddr (nbytes % 2 ^ 32).toNat) :
    (∀ i, c.Writes (j, t) (c'.fillTable m (j, t) vaddr nbytes).2.2 i → Owns a (j, t) i) ↔
      pages a vaddr (nbytes % 2 ^ 32).toNat ≤ a.tblSz j := by
  rw [writes_owned_iff h, fillTable_length hnb ((fillTable_ok hnb).mpr hmapped)]

end Caches

def everyPage (a : Arch) : Mapping a where
  frame q := some ((q + 1) * a.pageSize)
  aligned := by
    rintro q _ ⟨⟩
    exact dvd_mul_left _ _
  ne_zero := by
    rintro q _ ⟨⟩
    exact mul_ne_zero q.succ_ne_zero a.pageSize_pos.ne'

theorem exists_mapped (a : Arch) : ∃ m : Mapping a, ∀ vaddr nb, Mapped m vaddr nb :=
  ⟨everyPage a, fun _ _ _ _ => rfl⟩

namespace Caches

theorem chooseTable_initModule (a : Arch) (j : CacheId) (vaddr : ℕ) (nbytes : ℤ) (ppid : TaskId) :
    ∃ s, ((initModule a).sub j).chooseTable j vaddr nbytes ppid = some (.fill 0 s) := by
  fin_cases j
  · exact ⟨_, rfl⟩
  · exact ⟨_, rfl⟩
  · exact ⟨_, rfl⟩

theorem validate_initModule {base extent : ℕ} (ppid : TaskId) (hbase : base ≠ 0)
    (hextent : toInt32 extent ≠ 0) (hmapped : Mapped m base (toInt32 extent % 2 ^ 32).toNat) :
    ∃ r s, (initModule a).validate m base extent ppid = some r ∧ r.ok = true ∧
      r.filled = some ((cacheFor a (toInt32 extent), 0),
        (((initModule a).setSub (cacheFor a (toInt32 extent)) s).fillTable m
          (cacheFor a (toInt32 extent), 0) base (toInt32 extent)).2.2) := by
  have hnb := nb_pos (le_toInt32 _) (toInt32_lt _) hextent
  obtain ⟨s, hs⟩ := chooseTable_initModule a (cacheFor a (toInt32 extent)) base
    (toInt32 extent) ppid
  rw [validate, populate, if_neg (not_or.mpr ⟨hbase, hextent⟩)]
  simp only [hs]
  exact ⟨_, s, rfl, (fillTable_ok hnb).mpr hmapped, rfl⟩

/-- `populate` and `revalidate` of a region fail or write inside the table, in all reachable states
and for all page tables, just if the table has a slot for each page. -/
theorem population_inside (a : Arch) : (∀ base extent : ℕ,
      (∀ c, Reached (fun _ (_ : Act a) => True) c → ∀ (m : Mapping a) (ppid : TaskId) r,
        c.validate m base extent ppid = some r → r.ok = true → ∀ k vals,
          r.filled = some (k, vals) → ∀ i, c.Writes k vals i → Owns a k i) ↔
      Fits a base (toInt32 extent) (cacheFor a (toInt32 extent))) ∧
    (∀ (k : AddrKey) (vaddr : ℕ) (nbytes : Int32),
      (∀ c, Reached (fun _ (_ : Act a) => True) c → ∀ m : Mapping a,
        (c.revalidate m k vaddr nbytes.toInt).2.1 = true → ∀ i,
          c.Writes k (c.revalidate m k vaddr nbytes.toInt).2.2 i → Owns a k i) ↔
      Fits a vaddr nbytes.toInt k.1) := by
  obtain ⟨m0, hm0⟩ := exists_mapped a
  have hinit : Reached (fun _ (_ : Act a) => True) (initModule a) := .init
  constructor
  · intro base extent
    constructor
    · intro h
      by_cases hbase : base = 0
      · exact .inl hbase
      by_cases hextent : toInt32 extent = 0
      · exact .inr (.inl hextent)
      have hnb := nb_pos (le_toInt32 _) (toInt32_lt _) hextent
      obtain ⟨r, s, hr, hok, hfilled⟩ := validate_initModule 0 hbase hextent (hm0 _ _)
      have hinside := h _ .init m0 0 r hr hok _ _ hfilled
      have hlong := (fillTable_inside hinit hnb (hm0 _ _)).mp hinside
      exact .inr (.inr hlong)
    · intro hfits c hc m ppid r hr hok k vals hfilled
      rcases populate_cases hr with ⟨-, hnone⟩ | ⟨hbase, hextent, t, s, -, rfl⟩
      · rw [hnone] at hfilled
        cases hfilled
      · obtain ⟨rfl, rfl⟩ := Prod.mk.inj (some.inj hfilled)
        have hnb := nb_pos (le_toInt32 _) (toInt32_lt _) hextent
        have hlong := (hfits.resolve_left hbase).resolve_left hextent
        exact (fillTable_inside hc hnb ((fillTable_ok hnb).mp hok)).mpr hlong
  · rintro ⟨j, t⟩ vaddr nbytes
    by_cases hempty : vaddr = 0 ∨ nbytes.toInt = 0
    · refine iff_of_true ?_ (hempty.elim .inl fun h => .inr (.inl h))
      intro c hc m hok i hi
      rw [revalidate, if_pos hempty] at hi
      exact absurd hi.2 (not_lt.mpr hi.1)
    · have hnb := nb_pos nbytes.le_toInt nbytes.toInt_lt fun h => hempty (.inr h)
      simp only [revalidate, if_neg hempty]
      constructor
      · intro h
        have hinside := h _ .init m0 ((fillTable_ok hnb).mpr (hm0 _ _))
        exact .inr (.inr ((fillTable_inside hinit hnb (hm0 _ _)).mp hinside))
      · intro hfits c hc m hok
        rw [fillTable_inside hc hnb ((fillTable_ok hnb).mp hok)]
        obtain ⟨hvaddr, hnbytes⟩ := not_or.mp hempty
        exact (hfits.resolve_left hvaddr).resolve_left hnbytes

theorem population_outside : ∃ (m : Mapping .alpha) (r : Populated) (vals : List ℕ),
      (initModule .alpha).validate m 8192 (513 * 8192) 0 = some r ∧ r.ok = true ∧
        r.filled = some ((2, 0), vals) ∧
        ∃ i, (initModule .alpha).Writes (2, 0) vals i ∧ ¬ Owns .alpha (2, 0) i ∧
          Owns .alpha (2, 1) i := by
  have hextent : toInt32 (513 * 8192 : ℕ) ≠ 0 := by decide
  obtain ⟨m, hm⟩ := exists_mapped .alpha
  obtain ⟨r, s, hr, hok, hfilled⟩ :=
    validate_initModule 0 (show 8192 ≠ 0 by decide) hextent (hm _ _)
  have hnb := nb_pos (le_toInt32 _) (toInt32_lt _) hextent
  have hlen := fillTable_length (c := (initModule .alpha).setSub 2 s) (k := (2, 0)) hnb
    ((fillTable_ok hnb).mpr (hm 8192 _))
  refine ⟨m, r, _, hr, hok, hfilled, slotBase .alpha 2 + 512, ⟨by decide, ?_⟩, by decide, by decide⟩
  refine lt_of_lt_of_eq ?_ (congrArg _ hlen.symm)
  decide

end Caches
end Cplant.AddrCache
