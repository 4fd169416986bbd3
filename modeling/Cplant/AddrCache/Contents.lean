import Cplant.AddrCache.Slots

/-!
# What the slots of a table say

A table translates the bytes of its region: the first slot those of the first chunk, each further
slot those of a page. Filling a table writes the translations, a copy reads them back, and since
the slots of different tables are apart, filling one table leaves what the others say.
-/
namespace Cplant.AddrCache
open List Caches Nat Function
variable {a : Arch} {m : Mapping a} {fuel chunk0 i offset v x nb slot : ℕ} {f : ℕ → ℕ}
  {vals : List ℕ}

def locate (a : Arch) (chunk0 x : ℕ) : ℕ × ℕ :=
  if chunk0 ≤ x then ((x - chunk0) / a.pageSize + 1, (x - chunk0) % a.pageSize) else (0, x)

def byteAddr (a : Arch) (c : Caches) (tbl : AddrTbl) (x : ℕ) : ℕ :=
  c.addrSlot (tbl.slot + (locate a tbl.chunk0 x).1) + (locate a tbl.chunk0 x).2

def bytesOf (blocks : List (ℕ × ℕ)) : List ℕ :=
  blocks.flatMap fun b => (List.range b.2).map (b.1 + ·)

theorem bytesOf_cons (b : ℕ × ℕ) (blocks : List (ℕ × ℕ)) :
    bytesOf (b :: blocks) = (range b.2).map (b.1 + ·) ++ bytesOf blocks :=
  flatMap_cons

theorem bytesOf_copyRest (c : Caches) {nbytes : ℕ} (index : ℕ) (hfuel : nbytes ≤ fuel) :
    bytesOf (copyRest a c fuel index nbytes) = (range nbytes).map fun i =>
        c.addrSlot (index + i / a.pageSize) + i % a.pageSize := by
  have hps := a.pageSize_pos
  induction fuel generalizing index nbytes with
  | zero =>
    obtain rfl : nbytes = 0 := by omega
    rfl
  | succ fuel ih =>
    rw [copyRest]
    split
    next hzero =>
      rw [hzero]
      rfl
    next hpos =>
    -- the block ends the copy or the page
    obtain ⟨block, hblock, hle, hpage⟩ : ∃ block,
        (if nbytes < a.pageSize then nbytes else a.pageSize) = block ∧ block ≤ nbytes ∧
          (block = nbytes ∧ block < a.pageSize ∨ block = a.pageSize) := by
      refine ⟨_, rfl, ?_, ?_⟩ <;> split <;> omega
    rw [hblock, bytesOf_cons, ih (index + 1) (by omega)]
    rw [show List.range nbytes = List.range (block + (nbytes - block)) by
      rw [Nat.add_sub_cancel' hle], range_add, map_append, map_map]
    congr 1
    · refine map_congr_left fun i hi => ?_
      have hi' : i < a.pageSize := by
        have := mem_range.mp hi
        omega
      rw [div_eq_of_lt hi', mod_eq_of_lt hi']
      rfl
    · refine map_congr_left fun i hi => ?_
      rcases hpage with ⟨hall, -⟩ | hfull
      · rw [hall, Nat.sub_self] at hi
        cases hi
      · simp only [comp_apply]
        rw [hfull, add_div_left _ hps, add_mod_left, add_comm (i / a.pageSize) 1,
          ← add_assoc]

theorem locate_of_lt (hi : i < (firstBlock a chunk0 offset).2.2) :
    locate a chunk0 (offset + i) = ((firstBlock a chunk0 offset).1,
      (firstBlock a chunk0 offset).2.1 + i) := by
  have hps := a.pageSize_pos
  rw [firstBlock] at hi ⊢
  split at hi
  next hle =>
    rw [if_pos hle, locate, if_pos (by omega)]
    have hdiv := div_add_mod (offset - chunk0) a.pageSize
    dsimp only at hi ⊢
    generalize (offset - chunk0) / a.pageSize = d at hdiv ⊢
    generalize (offset - chunk0) % a.pageSize = r at hi hdiv ⊢
    rw [show offset + i - chunk0 = r + i + a.pageSize * d by omega, add_mul_div_left _ _ hps,
      add_mul_mod_self_left, div_eq_of_lt (by omega), mod_eq_of_lt (by omega),
      zero_add]
  next hlt =>
    dsimp only at hi
    rw [if_neg hlt, locate, if_neg (by omega)]

theorem locate_of_ge (hi : (firstBlock a chunk0 offset).2.2 ≤ i) :
    locate a chunk0 (offset + i) = ((firstBlock a chunk0 offset).1 + 1 +
          (i - (firstBlock a chunk0 offset).2.2) / a.pageSize,
        (i - (firstBlock a chunk0 offset).2.2) % a.pageSize) := by
  have hps := a.pageSize_pos
  rw [firstBlock] at hi ⊢
  split at hi
  next hle =>
    rw [if_pos hle, locate, if_pos (by omega)]
    have hdiv := div_add_mod (offset - chunk0) a.pageSize
    have hmod := mod_lt (offset - chunk0) hps
    dsimp only at hi ⊢
    generalize (offset - chunk0) / a.pageSize = d at hdiv ⊢
    generalize (offset - chunk0) % a.pageSize = r at hi hdiv hmod ⊢
    have hsplit : offset + i - chunk0 = i - (a.pageSize - r) + a.pageSize * (d + 1) := by
      rw [mul_add, mul_one]
      omega
    rw [hsplit, add_mul_div_left _ _ hps, add_mul_mod_self_left]
    congr 1
    omega
  next hlt =>
    dsimp only at hi
    rw [if_neg hlt, locate, if_pos (by omega)]
    dsimp only
    rw [show offset + i - chunk0 = i - (chunk0 - offset) by omega]
    congr 1
    omega

theorem bytesOf_copyBlocks (c : Caches) (tbl : AddrTbl) (offset nbytes : ℕ) :
    bytesOf (copyBlocks a c tbl offset nbytes) =
      (range nbytes).map fun i => byteAddr a c tbl (offset + i) := by
  rw [copyBlocks]
  generalize hblock : (if nbytes < (firstBlock a tbl.chunk0 offset).2.2 then nbytes
    else (firstBlock a tbl.chunk0 offset).2.2) = block
  have hle : block ≤ nbytes := by
    rw [← hblock]
    split <;> omega
  rw [bytesOf_cons, bytesOf_copyRest c _ (by omega)]
  rw [show List.range nbytes = List.range (block + (nbytes - block)) by
    rw [Nat.add_sub_cancel' hle], range_add, map_append, map_map]
  congr 1
  · refine map_congr_left fun i hi => ?_
    have hlt : i < (firstBlock a tbl.chunk0 offset).2.2 := by
      have hib := mem_range.mp hi
      rw [← hblock] at hib
      split at hib <;> omega
    rw [byteAddr, locate_of_lt hlt, add_assoc]
  · refine map_congr_left fun i hi => ?_
    have hfull : block = (firstBlock a tbl.chunk0 offset).2.2 := by
      have hib := mem_range.mp hi
      rw [← hblock] at hib ⊢
      split at hib
      · omega
      next hlong => rw [if_neg hlong]
    simp only [comp_apply]
    rw [byteAddr, locate_of_ge (by omega), hfull, Nat.add_sub_cancel_left]
    simp [add_assoc]

theorem calcPhysAddress_add {phys : ℕ} (h : calcPhysAddress m v = some phys)
    (hx : v % a.pageSize + x < a.pageSize) : calcPhysAddress m (v + x) = some (phys + x) := by
  have hps := a.pageSize_pos
  have hdiv := div_add_mod v a.pageSize
  obtain ⟨base, hbase, rfl⟩ := Option.map_eq_some_iff.mp h
  have hsplit : v + x = v % a.pageSize + x + a.pageSize * (v / a.pageSize) := by omega
  rw [calcPhysAddress, hsplit, add_mul_div_left _ _ hps, div_eq_of_lt hx, zero_add,
    add_mul_mod_self_left, mod_eq_of_lt hx, hbase, Option.map_some, add_assoc]

theorem fillRest_translates (hfuel : nb ≤ fuel) (hv : a.pageSize ∣ v)
    (hok : (fillRest m fuel v nb).2 = true) (hx : x < nb) :
    ∃ w, (fillRest m fuel v nb).1[x / a.pageSize]? = some w ∧
      calcPhysAddress m (v + x) = some (w + x % a.pageSize) := by
  have hps := a.pageSize_pos
  induction fuel generalizing v nb x with
  | zero => omega
  | succ fuel ih =>
    rw [fillRest, if_neg (by omega)] at hok ⊢
    cases hphys : calcPhysAddress m v with
    | none => simp [hphys] at hok
    | some phys =>
      simp only [hphys] at hok ⊢
      rcases lt_or_ge x a.pageSize with hlt | hge
      · rw [div_eq_of_lt hlt, mod_eq_of_lt hlt]
        exact ⟨phys, rfl, calcPhysAddress_add hphys (by omega)⟩
      have hlong : nb ≥ a.pageSize := by omega
      rw [if_pos hlong] at hok ⊢
      obtain ⟨w, hw, hcalc⟩ := ih (x := x - a.pageSize) (by omega)
        ((Nat.dvd_add_right hv).mpr dvd_rfl) hok (by omega)
      refine ⟨w, ?_, ?_⟩
      · rw [div_eq_sub_div hps hge, getElem?_cons_succ]
        exact hw
      · rw [mod_eq_sub_mod hge, ← hcalc]
        congr 1
        omega

theorem fillRest_length_le (hfuel : nb ≤ fuel) :
    (fillRest m fuel v nb).1.length ≤ (nb + (a.pageSize - 1)) / a.pageSize := by
  have hps := a.pageSize_pos
  induction fuel generalizing v nb with
  | zero => exact zero_le _
  | succ fuel ih =>
    rw [fillRest]
    split
    · exact zero_le _
    next hnb =>
    cases calcPhysAddress m v with
    | none => exact zero_le _
    | some phys =>
      rw [length_cons]
      split
      next hlong =>
        have hrest : (fillRest m fuel (v + a.pageSize) (nb - a.pageSize)).1.length ≤ _ :=
          ih (by omega)
        rw [show nb + (a.pageSize - 1) = nb - a.pageSize + (a.pageSize - 1) + a.pageSize by omega,
          add_div_right _ hps]
        omega
      next hshort =>
        rw [Nat.sub_self, fillRest_zero]
        exact (le_div_iff_mul_le hps).mpr (by simp only [length_nil]; omega)

theorem writeSlots_eq {w : ℕ} (h : vals[i]? = some w) : writeSlots f slot vals (slot + i) = w := by
  rw [writeSlots, if_pos (Nat.le_add_right _ _), Nat.add_sub_cancel_left, h]
  rfl

theorem writeSlots_of_not
    (h : ¬ (slot ≤ i ∧ i < slot + vals.length)) : writeSlots f slot vals i = f i := by
  rw [writeSlots]
  split
  · rw [getElem?_eq_none (by omega)]
    rfl
  · rfl

namespace Caches
variable {c : Caches} {k k' : AddrKey} {vaddr : ℕ} {nbytes : ℤ}

theorem setTable_table (c : Caches) (k k' : AddrKey) (f : AddrTbl → AddrTbl) :
    (c.setTable k f).table k' = if k' = k then f (c.table k') else c.table k' := by
  obtain ⟨j, t⟩ := k
  obtain ⟨j', t'⟩ := k'
  rw [table, setTable, setSub_apply]
  by_cases hj : j' = j
  · subst hj
    rw [if_pos rfl, Subcache.setTbl_apply]
    by_cases ht : t' = t
    · rw [if_pos ht, if_pos (by rw [ht])]
      rfl
    · rw [if_neg ht, if_neg fun h => ht (Prod.mk.inj h).2]
      rfl
  · rw [if_neg hj, if_neg fun h => hj (Prod.mk.inj h).1]
    rfl

theorem fillTable_table_of_ne (h : k' ≠ k) :
    (c.fillTable m k vaddr nbytes).1.table k' = c.table k' := by
  rw [fillTable]
  split
  · exact (setTable_table _ _ _ _).trans (if_neg h)
  · dsimp only
    split <;> exact (setTable_table _ _ _ _).trans (if_neg h)

theorem fillTable_table_ok (hok : (c.fillTable m k vaddr nbytes).2.1 = true) :
    (c.fillTable m k vaddr nbytes).1.table k = { c.table k with
        start := vaddr
        length := nbytes
        chunk0 := min (nbytes % 2 ^ 32).toNat (a.pageSize - vaddr % a.pageSize)
        valid := true } := by
  rw [fillTable] at hok ⊢
  cases hphys : calcPhysAddress m vaddr with
  | none => simp [hphys] at hok
  | some phys =>
    simp only [hphys] at hok ⊢
    rw [← firstChunk_eq _ hphys]
    split at hok
    next hrest =>
      rw [if_pos hrest]
      exact (setTable_table _ _ _ _).trans (if_pos rfl)
    · cases hok

theorem fillTable_table_fail (hfail : (c.fillTable m k vaddr nbytes).2.1 = false) :
    ((c.fillTable m k vaddr nbytes).1.table k).start = vaddr ∧
      ((c.fillTable m k vaddr nbytes).1.table k).length = 0 := by
  rw [fillTable] at hfail ⊢
  cases hphys : calcPhysAddress m vaddr with
  | none =>
    rw [setTable_table, if_pos rfl]
    exact ⟨rfl, rfl⟩
  | some phys =>
    simp only [hphys] at hfail ⊢
    split at hfail
    · cases hfail
    next hrest =>
      rw [if_neg hrest, setTable_table, if_pos rfl]
      exact ⟨rfl, rfl⟩

theorem fillTable_addrSlot : (c.fillTable m k vaddr nbytes).1.addrSlot =
    writeSlots c.addrSlot (c.table k).slot (c.fillTable m k vaddr nbytes).2.2 := by
  rw [fillTable]
  split
  · funext i
    rw [writeSlots, getElem?_nil, Option.getD_none, ite_self]
    rfl
  · dsimp only
    split <;> rfl

theorem fillTable_length_le (hnb : 0 < (nbytes % 2 ^ 32).toNat) :
    (c.fillTable m k vaddr nbytes).2.2.length ≤ pages a vaddr (nbytes % 2 ^ 32).toNat := by
  rw [fillTable, pages_eq hnb]
  cases hphys : calcPhysAddress m vaddr with
  | none => exact zero_le _
  | some phys =>
    simp only [firstChunk_eq _ hphys]
    split <;> exact succ_le_succ (fillRest_length_le (by omega))

theorem fillTable_translates (hok : (c.fillTable m k vaddr nbytes).2.1 = true)
    (hx : x < (nbytes % 2 ^ 32).toNat) :
    calcPhysAddress m (vaddr + x) = some (byteAddr a (c.fillTable m k vaddr nbytes).1
      ((c.fillTable m k vaddr nbytes).1.table k) x) := by
  obtain ⟨phys, hphys, hrest, hvals⟩ := fillTable_filled hok
  rw [byteAddr, fillTable_table_ok hok, fillTable_addrSlot, hvals]
  dsimp only
  rw [locate]
  split
  next hle =>
    rcases firstChunk_cases a vaddr (nbytes % 2 ^ 32).toNat with hall | ⟨-, hdvd⟩
    · omega
    obtain ⟨w, hw, hcalc⟩ := fillRest_translates (by omega) hdvd hrest
      (show x - min (nbytes % 2 ^ 32).toNat (a.pageSize - vaddr % a.pageSize) < _ by omega)
    have hslot := (getElem?_cons_succ (a := phys)).trans hw
    rw [writeSlots_eq hslot, ← hcalc]
    congr 1
    omega
  next hlt =>
    rw [writeSlots_eq getElem?_cons_zero, calcPhysAddress_add hphys (by omega)]

theorem owns_subcache (hk : k.2 < numReg k.1) (h : Owns a k i) :
    slotBase a k.1 ≤ i ∧ i < slotBase a k.1 + numReg k.1 * a.tblSz k.1 := by
  have hle : (k.2 + 1) * a.tblSz k.1 ≤ numReg k.1 * a.tblSz k.1 := mul_le_mul_right _ hk
  obtain ⟨hlow, hhigh⟩ := h
  omega

theorem slotBase_le {j j' : CacheId} (h : j < j') :
    slotBase a j + numReg j * a.tblSz j ≤ slotBase a j' := by
  cases a <;> fin_cases j <;> fin_cases j' <;> first | decide | exact absurd h (by decide)

theorem owns_unique (hk : k.2 < numReg k.1) (hk' : k'.2 < numReg k'.1) (h : Owns a k i)
    (h' : Owns a k' i) : k = k' := by
  obtain ⟨j, t⟩ := k
  obtain ⟨j', t'⟩ := k'
  have hrange := owns_subcache hk h
  have hrange' := owns_subcache hk' h'
  obtain rfl : j = j' := by
    rcases lt_trichotomy j j' with hlt | heq | hgt
    · have := slotBase_le (a := a) hlt
      dsimp only at hrange hrange'
      omega
    · exact heq
    · have := slotBase_le (a := a) hgt
      dsimp only at hrange hrange'
      omega
  have ht : t = t' := by
    obtain ⟨hlow, hhigh⟩ := h
    obtain ⟨hlow', hhigh'⟩ := h'
    dsimp only at hlow hhigh hlow' hhigh'
    have hlt : t * a.tblSz j < (t' + 1) * a.tblSz j := by omega
    have hlt' : t' * a.tblSz j < (t + 1) * a.tblSz j := by omega
    have := Nat.lt_of_mul_lt_mul_right hlt
    have := Nat.lt_of_mul_lt_mul_right hlt'
    omega
  rw [ht]

theorem locate_lt_pages {n : ℕ} (hx : x < n) :
    (locate a (min n (a.pageSize - v % a.pageSize)) x).1 < pages a v n := by
  have hps := a.pageSize_pos
  rw [pages_eq (by omega), locate]
  split
  next hle =>
    refine succ_lt_succ ?_
    rw [← add_one_le_iff, ← add_div_right _ hps]
    exact Nat.div_le_div_right (by omega)
  · exact succ_pos _

structure Sound (a : Arch) (j : CacheId) (x : AddrTbl) : Prop where
  low : 0 ≤ x.length
  high : x.length < 2 ^ 31
  fits : Fits a x.start x.length j
  chunk0 : 0 < x.length →
    x.chunk0 = min x.length.toNat (a.pageSize - x.start % a.pageSize)

theorem toNat_emod {n : ℤ} (hpos : 0 < n) (hlt : n < 2 ^ 31) : (n % 2 ^ 32).toNat = n.toNat := by
  rw [Int.emod_eq_of_lt hpos.le (by omega)]

theorem Sound.owns (h : Sound a k.1 (c.table k)) (hstart : (c.table k).start ≠ 0)
    (hslot : (c.table k).slot = slotBase a k.1 + k.2 * a.tblSz k.1)
    (hx : (x : ℤ) < (c.table k).length) :
    Owns a k ((c.table k).slot + (locate a (c.table k).chunk0 x).1) := by
  have hpos : 0 < (c.table k).length := by omega
  have hfits := (h.fits.resolve_left hstart).resolve_left hpos.ne'
  rw [toNat_emod hpos h.high] at hfits
  have hpage := locate_lt_pages (a := a) (v := (c.table k).start)
    (show x < (c.table k).length.toNat by omega)
  rw [h.chunk0 hpos, hslot]
  refine ⟨le_add_right _ _, ?_⟩
  rw [add_mul, one_mul]
  omega

theorem byteAddr_fillTable_of_ne (hne : k' ≠ k) (hk : k.2 < numReg k.1)
    (hk' : k'.2 < numReg k'.1) (hslot : (c.table k).slot = slotBase a k.1 + k.2 * a.tblSz k.1)
    (hnb : 0 < (nbytes % 2 ^ 32).toNat)
    (hfits : pages a vaddr (nbytes % 2 ^ 32).toNat ≤ a.tblSz k.1)
    (howns : Owns a k' ((c.table k').slot + (locate a (c.table k').chunk0 x).1)) :
    byteAddr a (c.fillTable m k vaddr nbytes).1 ((c.fillTable m k vaddr nbytes).1.table k') x =
      byteAddr a c (c.table k') x := by
  rw [byteAddr, byteAddr, fillTable_table_of_ne hne, fillTable_addrSlot, writeSlots_of_not]
  rintro ⟨hlow, hhigh⟩
  have hlen : (c.fillTable m k vaddr nbytes).2.2.length ≤ a.tblSz k.1 :=
    (fillTable_length_le hnb).trans hfits
  refine hne (owns_unique hk' hk howns ⟨hslot ▸ hlow, ?_⟩)
  rw [add_mul, one_mul]
  omega

end Caches
end Cplant.AddrCache
