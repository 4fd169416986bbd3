import Cplant.AddrCache.Regions

/-!
# A live region stays translated

What the calls of a process have to respect so that all its live regions stay translated: regions
fit into their tables, and a table that is filled again serves the live regions that use it as
before.
-/
namespace Cplant.AddrCache
open List Option Caches Subcache
variable {a : Arch} {ppid : TaskId} {nbytes t vaddr : ℕ} {c : Caches} {live : List (Region a)}
  {w w' : World a}
  {n : ℤ} {k : AddrKey} {L : CacheId → Option TaskId → List ℕ} {j : CacheId}

/-- Two regions have one table only in a `TBL_LOOKUP` subcache. -/
def Exclusive (r r' : Region a) : Prop :=
  ∀ k, r.addrKey = some k → r'.addrKey = some k → strategy k.1 = .tblLookup

namespace World

/-- A region is not empty, has an `int` length and fits the table. A table that `populate` finds
under the start address has the translation of now, or is filled again as far as its live regions
reach, completely and with their pages. So is one that `memcpy3` fills again. -/
def Steady (ppid : TaskId) (w : World a) : Call a → Prop
  | .validate m base extent =>
    let j := Caches.cacheFor a extent
    base ≠ 0 ∧ 0 < extent ∧ extent < 2 ^ 31 ∧ pages a base extent ≤ a.tblSz j ∧
      ∀ t, (w.caches.sub j).lookup base (numReg j) ((w.caches.sub j).taskTbl ppid) =
          some (some t) → strategy j = .tblLookup →
        if (w.caches.table (j, t)).length ≥ extent ∧ (w.caches.table (j, t)).valid = true then
          Translates w.caches (j, t) base extent m
        else ∀ r ∈ w.live, r.addrKey = some (j, t) →
          r.nbytes ≤ extent ∧ Agree m r.mapping base r.nbytes ∧ Mapped m base extent
  | .memcpy3 m _ _ k => k.2 < numReg k.1 ∧ ((w.caches.table k).valid = false →
      ∀ r ∈ w.live, r.addrKey = some k → Agree m r.mapping r.base r.nbytes ∧
        Mapped m (w.caches.table k).start (w.caches.table k).length.toNat)
  | _ => True

structure Inv (ppid : TaskId) (w : World a) : Prop where
  kept : ∃ L, Kept ppid w.caches w.live L
  told : Told w.caches w.live
  single : w.live.Pairwise Exclusive

end World

theorem toInt32_eq (hlow : 0 ≤ n) (hhigh : n < 2 ^ 31) : toInt32 n = n := by
  rw [toInt32, Int.bmod_eq_of_le]
  · omega
  · omega

theorem Told.refresh (h : Told c live) {m : Mapping a} (hk : k.2 < numReg k.1)
    (hlive : (c.table k).valid = false → ∀ r ∈ live, r.addrKey = some k →
      Agree m r.mapping r.base r.nbytes ∧ Mapped m (c.table k).start (c.table k).length.toNat) :
    Told (c.refresh m k).1 live ∧
      ((∃ r ∈ live, r.addrKey = some k) → (c.refresh m k).2.1 = true) := by
  rw [Caches.refresh]
  split
  · exact ⟨h, fun _ => rfl⟩
  next hvalid =>
  have hlive' := hlive (Bool.eq_false_iff.mpr hvalid)
  rw [revalidate]
  split
  · refine ⟨h.congr ⟨keeps_setSub (keeps_setTbl fun _ => rfl), rfl⟩, fun _ => rfl⟩
  next hregion =>
  obtain ⟨hstart, hlength⟩ := not_or.mp hregion
  have hsound := h.sound k
  have hpos : 0 < (c.table k).length := lt_of_le_of_ne hsound.low (Ne.symm hlength)
  have hnb := toNat_emod hpos hsound.high
  have hfits := (hsound.fits.resolve_left hstart).resolve_left hlength
  rw [hnb] at hfits
  refine ⟨h.fill hk hpos hsound.high hfits ?_, ?_⟩
  · intro r hr hkey
    obtain ⟨k', hkey', -, -, -, hcovers⟩ := h.covers r hr
    obtain rfl : k = k' := some.inj (hkey.symm.trans hkey')
    obtain ⟨hagree, hmapped⟩ := hlive' r hr hkey
    exact ⟨hcovers.start.symm, hcovers.length, hcovers.start ▸ hagree, hmapped⟩
  · rintro ⟨r, hr, hkey⟩
    rw [fillTable_ok (by rw [hnb]; omega), hnb]
    exact (hlive' r hr hkey).2

namespace World
variable {m : Mapping a} {base : ℕ}

theorem Inv.memcpy3 (h : Inv ppid w) (hcall : Steady ppid w (.memcpy3 m vaddr nbytes k)) :
    Inv ppid ⟨(w.caches.memcpy3 m vaddr nbytes k).1, w.live⟩ := by
  obtain ⟨L, hL⟩ := h.kept
  refine ⟨⟨L, hL.congr sameLists_memcpy3⟩, ?_, h.single⟩
  rw [memcpy3_fst]
  split
  · exact h.told
  · exact (h.told.refresh hcall.1 hcall.2).1

theorem Inv.release (h : Inv ppid w) {i : ℕ} {r : Region a} (hr : w.live[i]? = some r) :
    Inv ppid ⟨w.caches.tblLink r.addrKey ppid, w.live.eraseIdx i⟩ := by
  obtain ⟨hi, hget⟩ := List.getElem?_eq_some_iff.mp hr
  have hsplit : w.live = w.live.take i ++ r :: w.live.drop (i + 1) := by
    rw [← hget, getElem_cons_drop, take_append_drop]
  have herase : w.live.eraseIdx i = w.live.take i ++ w.live.drop (i + 1) :=
    eraseIdx_eq_take_drop_succ ..
  have hsub : w.live.eraseIdx i ⊆ w.live := (eraseIdx_sublist ..).subset
  have hsingle := h.single
  rw [hsplit, pairwise_middle fun hx k hk hk' => hx k hk' hk, ← herase, pairwise_cons] at hsingle
  obtain ⟨L, hL⟩ := h.kept
  have hrmem : r ∈ w.live := mem_of_getElem? hr
  obtain ⟨⟨j, t⟩, hkey, -⟩ := h.told.covers r hrmem
  rw [hkey]
  cases hstrategy : strategy j with
  | tblLookup =>
    have hsame : w.caches.tblLink (some (j, t)) ppid = w.caches := by simp [tblLink, hstrategy]
    rw [hsame]
    exact ⟨⟨L, hL.subset hsub⟩, h.told.subset hsub, hsingle.2⟩
  | tblRedo =>
    have hlink : w.caches.tblLink (some (j, t)) ppid =
        w.caches.setSub j (((w.caches.sub j).takeOff ppid t).putBack t) := by
      simp [tblLink, hstrategy]
    rw [hlink]
    have hother : ∀ r' ∈ w.live.eraseIdx i, r'.addrKey ≠ some (j, t) := by
      intro r' hr' hkey'
      have := hsingle.1 r' hr' (j, t) hkey hkey'
      rw [hstrategy] at this
      cases this
    refine ⟨⟨_, (hL.subset hsub).returned hstrategy (hL.mem r hrmem j t hkey) hother
      returned_tblLink⟩, ?_, hsingle.2⟩
    refine (h.told.subset hsub).congr ⟨keeps_setSub ?_, rfl⟩
    exact (keeps_takeOff ignoresLinks_contents).trans
      (keeps_putBack ignoresLinks_contents)

theorem Inv.invalidate (h : Inv ppid w) (hc : w.caches.invalidate ppid = some c) :
    Inv ppid ⟨c, w.live⟩ := by
  obtain ⟨L, hL⟩ := h.kept
  refine ⟨⟨L, hL.congr (sameLists_invalidate hc)⟩, ?_, h.single⟩
  exact h.told.congr (sameContents_invalidate hc)

section
variable {c : Caches} {nbytes : ℤ} (hkept : Kept ppid c w.live L) (htold : Told c w.live)
  (hsingle : w.live.Pairwise Exclusive) (ht : t ∈ L j (some ppid)) (hbase : base ≠ 0)
  (hpos : 0 < nbytes)
include hkept htold hsingle ht hbase hpos

theorem Inv.cons (hcovers : Covers c (j, t) base nbytes m)
    (hnew : strategy j = .tblRedo → ∀ r ∈ w.live, r.addrKey ≠ some (j, t)) :
    Inv ppid ⟨c, ⟨base, nbytes, some (j, t), m⟩ :: w.live⟩ := by
  refine ⟨⟨L, hkept.cons ht⟩, htold.cons (hkept.lt_numReg ht) hbase hpos hcovers, ?_⟩
  refine pairwise_cons.mpr ⟨fun r hr k hkey hkey' => ?_, hsingle⟩
  obtain rfl : (j, t) = k := some.inj hkey
  cases hstrategy : strategy j with
  | tblLookup => rfl
  | tblRedo => exact absurd hkey' (hnew hstrategy r hr)

theorem Inv.filled (hlt : nbytes < 2 ^ 31) (hfits : pages a base nbytes.toNat ≤ a.tblSz j)
    (hlive : ∀ r ∈ w.live, r.addrKey = some (j, t) →
      r.base = base ∧ r.nbytes ≤ nbytes ∧ Agree m r.mapping base r.nbytes ∧
        Mapped m base nbytes.toNat)
    (hnew : strategy j = .tblRedo → ∀ r ∈ w.live, r.addrKey ≠ some (j, t)) :
    let res := c.fillTable m (j, t) base nbytes
    Inv ppid ⟨res.1, if res.2.1 then ⟨base, nbytes, if res.2.1 then some (j, t) else none, m⟩ ::
      w.live else w.live⟩ := by
  have hkept' : Kept ppid (c.fillTable m (j, t) base nbytes).1 w.live L :=
    hkept.congr sameLists_fillTable
  have htold' : Told (c.fillTable m (j, t) base nbytes).1 w.live :=
    htold.fill (hkept.lt_numReg ht) hpos hlt hfits hlive
  dsimp only
  split
  next hok =>
    exact Inv.cons hkept' htold' hsingle ht hbase hpos (covers_fillTable hpos hlt hok) hnew
  · exact ⟨⟨L, hkept'⟩, htold', hsingle⟩

end

theorem Inv.validate (h : Inv ppid w) {extent : ℕ} {r : Caches.Populated}
    (hcall : Steady ppid w (.validate m base extent))
    (hr : w.caches.validate m base extent ppid = some r) :
    Inv ppid ⟨r.caches, if r.ok then ⟨base, extent, r.addrKey, m⟩ :: w.live else w.live⟩ := by
  obtain ⟨hbase, hpos, hlt, hfits, hshared⟩ := hcall
  obtain ⟨L, hL⟩ := h.kept
  have hpos' : (0 : ℤ) < extent := by omega
  have hlt' : (extent : ℤ) < 2 ^ 31 := by omega
  rw [Caches.validate, toInt32_eq hpos'.le hlt'] at hr
  generalize hj : cacheFor a extent = j at hr hfits hshared
  have hchain := (hL.listed j).threaded.chain (some ppid)
  rcases populate_eq_some hr with ⟨hempty, -⟩ | rfl | ⟨t, hkeep, rfl⟩ |
    ⟨-, -, t, s, hfill, rfl⟩
  · exact absurd hempty (not_or.mpr ⟨hbase, hpos'.ne'⟩)
  · exact h
  · -- the table is shared as it is
    rw [hj] at hkeep ⊢
    obtain ⟨hstrategy, hlookup, hkeep⟩ := chooseTable_keep hkeep
    obtain ⟨ht, hstart⟩ := lookup_found hchain hlookup
    have htranslates := hshared t hlookup hstrategy
    rw [table, if_pos hkeep] at htranslates
    refine Inv.cons hL h.told h.single ht hbase hpos' ⟨hstart, hkeep.1, htranslates⟩ ?_
    intro hredo
    cases hredo.symm.trans hstrategy
  · rw [hj] at hfill ⊢
    have hfits' : pages a base (extent : ℤ).toNat ≤ a.tblSz j := hfits
    rcases chooseTable_fill hfill with ⟨rfl, hstrategy, hlookup, hkeep⟩ | ⟨-, htaken⟩
    · -- the table is shared and filled again
      obtain ⟨ht, hstart⟩ := lookup_found hchain hlookup
      have hlive := hshared t hlookup hstrategy
      rw [table, if_neg hkeep] at hlive
      rw [setSub_self]
      refine Inv.filled hL h.told h.single ht hbase hpos' hlt' hfits' ?_ ?_
      · intro r hr hkey
        obtain ⟨k, hkey', -, -, -, hcovers⟩ := h.told.covers r hr
        obtain rfl : (j, t) = k := some.inj (hkey.symm.trans hkey')
        obtain ⟨hle, hagree, hmapped⟩ := hlive r hr hkey
        exact ⟨hcovers.start.symm.trans hstart, hle, hagree, hmapped⟩
      · intro hredo
        cases hredo.symm.trans hstrategy
    · -- the table is a new one
      obtain ⟨ht, hkept⟩ := hL.taken htaken
      have hne : ∀ r ∈ w.live, r.addrKey ≠ some (j, t) := by
        intro r hr hkey
        exact (hL.listed j).threaded.ne_of_mem ht (hL.mem r hr j t hkey) (by simp) rfl
      have htold : Told (w.caches.setSub j s) w.live := h.told.congr
        ⟨keeps_setSub (keeps_chooseTable ignoresLinks_contents hfill), rfl⟩
      refine Inv.filled hkept htold h.single ?_ hbase hpos' hlt' hfits' ?_ fun _ => hne
      · rw [Function.update_self, moveTo_target]
        exact mem_cons_self
      · exact fun r hr hkey => absurd hkey (hne r hr)

theorem Inv.step (h : Inv ppid w) {call : Call a} (hcall : Steady ppid w call)
    (hstep : w.step ppid call = some w') : Inv ppid w' := by
  cases call with
  | validate m base extent =>
    obtain ⟨r, hr, rfl⟩ := map_eq_some_iff.mp hstep
    have hextent : toInt32 extent = extent := toInt32_eq (by omega) (by have := hcall.2.2.1; omega)
    rw [hextent]
    exact h.validate hcall hr
  | memcpy3 m vaddr nbytes k =>
    cases hstep
    exact h.memcpy3 hcall
  | release i =>
    obtain ⟨r, hr, rfl⟩ := map_eq_some_iff.mp hstep
    exact h.release hr
  | invalidate =>
    obtain ⟨c, hc, rfl⟩ := map_eq_some_iff.mp hstep
    exact h.invalidate hc

theorem inv_init (ppid : TaskId) : Inv ppid (init a) := by
  refine ⟨?_, ⟨fun _ => rfl, fun k => ?_, nofun⟩, .nil⟩
  · have hlisted : ∀ j, ∃ L, ((initModule a).sub j).Listed (Doubly j) (numReg j) L := by
      intro j
      obtain ⟨L, hL⟩ := conserved_initModule a j
      exact ⟨L, hL.threaded.mono fun _ hD => hD.1, hL.count⟩
    choose L hL using hlisted
    exact ⟨L, hL, fun _ _ _ => rfl, nofun⟩
  · exact ⟨le_rfl, show (0 : ℤ) < 2 ^ 31 by decide, .inr (.inl rfl), fun h => absurd h (lt_irrefl 0)⟩

theorem inv_of_reached (h : Reached ppid (Steady ppid) w) : Inv ppid w := by
  induction h with
  | init => exact inv_init ppid
  | step _ hcall hstep ih => exact ih.step hcall hstep

theorem memcpy3_covered {m' : Mapping a} (hlength : n ≤ (c.table k).length)
    (hok : (c.refresh m k).2.1 = true) (hcovers : Covers (c.refresh m k).1 k base n m')
    (hlt : n < 2 ^ 31) (hle : base ≤ vaddr) (hend : (vaddr : ℤ) + nbytes ≤ base + n) :
    ∃ blocks, (c.memcpy3 m vaddr nbytes k).2 = some blocks ∧ (bytesOf blocks).map some =
        (List.range nbytes).map fun i => calcPhysAddress m' (vaddr + i) := by
  have hoffset : toInt32 (vaddr - base) = ((vaddr - base : ℕ) : ℤ) := by
    rw [toInt32_eq (by omega) (by omega)]
    omega
  have hsum : toInt32 (((vaddr - base : ℕ) : ℤ) + nbytes) ≤ ((c.refresh m k).1.table k).length := by
    rw [toInt32_eq (by omega) (by omega)]
    have := hcovers.length
    omega
  rw [memcpy3, if_neg (by omega)]
  dsimp only
  rw [if_neg (by simp [hok]), hcovers.start, hoffset, if_neg (by omega), if_neg (by omega)]
  refine ⟨_, rfl, ?_⟩
  rw [bytesOf_copyBlocks, List.map_map]
  refine map_congr_left fun i hi => ?_
  have hi' := mem_range.mp hi
  have htranslates := hcovers.translates (vaddr - base + i) (by omega)
  rw [show base + (vaddr - base + i) = vaddr + i by omega] at htranslates
  exact htranslates.symm

/-- In every steady run each live region has a table that covers it, and a steady copy within it
succeeds with the pages that the process had when the region was populated. -/
theorem live_translated (h : Reached ppid (Steady ppid) w) {r : Region a} (hr : r ∈ w.live) :
    ∃ k, r.addrKey = some k ∧ (w.caches.table k).start = r.base ∧
      r.nbytes ≤ (w.caches.table k).length ∧
      ∀ (m : Mapping a) (vaddr nbytes : ℕ), Steady ppid w (.memcpy3 m vaddr nbytes k) →
        r.base ≤ vaddr → (vaddr : ℤ) + nbytes ≤ r.base + r.nbytes →
        ∃ blocks, (w.caches.memcpy3 m vaddr nbytes k).2 = some blocks ∧ (bytesOf blocks).map some =
            (List.range nbytes).map fun i => calcPhysAddress r.mapping (vaddr + i) := by
  have hinv := inv_of_reached h
  obtain ⟨k, hkey, hk, -, -, hcovers⟩ := hinv.told.covers r hr
  refine ⟨k, hkey, hcovers.start, hcovers.length, ?_⟩
  intro m vaddr nbytes hcall hle hend
  obtain ⟨htold, hok⟩ := hinv.told.refresh hcall.1 hcall.2
  obtain ⟨k', hkey', -, -, -, hcovers'⟩ := htold.covers r hr
  obtain rfl : k = k' := some.inj (hkey.symm.trans hkey')
  have hhigh := (hinv.told.sound k).high
  have hlength := hcovers.length
  exact memcpy3_covered hlength (hok ⟨r, hr, hkey⟩) hcovers' (by omega) hle hend

theorem live_translated_first :
    ∃ (w : World .alpha) (r : Region .alpha), Reached 1 (Steady 1) w ∧ r ∈ w.live ∧
      ∃ k, r.addrKey = some k ∧ (w.caches.table k).start = r.base ∧
        r.nbytes ≤ (w.caches.table k).length ∧
        ∃ blocks, (w.caches.memcpy3 (everyPage .alpha) r.base 100 k).2 = some blocks := by
  have hsteady : Steady 1 (init .alpha) (.validate (everyPage .alpha) 8192 100) := by
    refine ⟨by decide, by decide, by decide, by decide, ?_⟩
    intro t _ hstrategy
    cases hstrategy
  have hrun : ((init .alpha).step 1 (.validate (everyPage .alpha) 8192 100)).any (fun w =>
      w.live.any fun r => r.nbytes = 100 ∧ r.addrKey = some (0, 0) ∧
        (w.caches.table (0, 0)).valid = true) = true := by
    decide +kernel
  obtain ⟨w, hw, hlive⟩ := (any_eq_true _ _).mp hrun
  obtain ⟨r, hr, hregion⟩ := any_eq_true.mp hlive
  obtain ⟨hnbytes, hkey, hvalid⟩ := of_decide_eq_true hregion
  have hreached : Reached 1 (Steady 1) w := .step .init hsteady hw
  obtain ⟨k, hk, hstart, hlength, hcopy⟩ := live_translated hreached hr
  obtain rfl : k = (0, 0) := some.inj (hk.symm.trans hkey)
  obtain ⟨blocks, hblocks, -⟩ := hcopy (everyPage .alpha) r.base 100
    ⟨by decide, fun hinvalid => absurd (hvalid.symm.trans hinvalid) nofun⟩ le_rfl (by omega)
  exact ⟨w, r, hreached, hr, (0, 0), hk, hstart, hlength, blocks, hblocks⟩

def somePages : Mapping .alpha where
  frame q := if 1 ≤ q ∧ q ≤ 25 then some ((q + 1) * 8192) else none
  aligned q b hb := by
    split at hb
    · cases hb
      exact Nat.dvd_mul_left _ _
    · cases hb
  ne_zero q b hb := by
    split at hb
    · cases hb
      omega
    · cases hb

/-- A second, longer region with the same start address cannot be translated to its end. The table
that it shares with the first one is left with length 0. -/
theorem live_not_translated : ∃ (w w' : World .alpha) (r : Region .alpha),
      (init .alpha).step 1 (.validate somePages 8192 204800) = some w ∧
      w.step 1 (.validate somePages 8192 307200) = some w' ∧
      Reached 1 (fun _ _ => True) w' ∧ r ∈ w'.live ∧ r.base = 8192 ∧ r.nbytes = 204800 ∧
      r.addrKey = some (2, 0) ∧ (w'.caches.table (2, 0)).length = 0 ∧
      (w'.caches.memcpy3 somePages 8192 8 (2, 0)).2 = none := by
  have hrun : ((init .alpha).step 1 (.validate somePages 8192 204800)).any (fun w =>
      (w.step 1 (.validate somePages 8192 307200)).any fun w' => w'.live.any fun r =>
        r.base = 8192 ∧ r.nbytes = 204800 ∧ r.addrKey = some (2, 0) ∧
          (w'.caches.table (2, 0)).length = 0 ∧
          (w'.caches.memcpy3 somePages 8192 8 (2, 0)).2 = none) = true := by
    decide +kernel
  obtain ⟨w, hw, hrest⟩ := (any_eq_true _ _).mp hrun
  obtain ⟨w', hw', hlive⟩ := (any_eq_true _ _).mp hrest
  obtain ⟨r, hr, hregion⟩ := any_eq_true.mp hlive
  exact ⟨w, w', r, hw, hw', .step (.step .init trivial hw) trivial hw', hr,
    of_decide_eq_true hregion⟩

end World
end Cplant.AddrCache
