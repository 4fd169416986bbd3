import Cplant.AddrCache.Conserved
import Cplant.AddrCache.Contents

/-!
# Live regions

The regions that a process has populated and not yet released, with the page table that the process
had then. In a `TBL_LOOKUP` subcache several regions share a table, and a later `populate` may fill
it again: with a shorter length after `invalidate`, or not to the end.
-/
namespace Cplant.AddrCache
open Caches List
open Function (update_self update_of_ne update)
variable {a : Arch}

structure Region (a : Arch) where
  base : ℕ
  nbytes : ℤ
  addrKey : Option AddrKey
  mapping : Mapping a

structure World (a : Arch) where
  caches : Caches
  live : List (Region a)

/-- The calls of one process. A region is released by `invalidate` of the network layer
(`addrCache_tblLink`), once; `invalidate` here is `addrCache_invalidate`. -/
inductive Call (a : Arch)
  | validate (m : Mapping a) (base extent : ℕ)
  | memcpy3 (m : Mapping a) (vaddr nbytes : ℕ) (k : AddrKey)
  | release (i : ℕ)
  | invalidate

namespace World

def init (a : Arch) : World a := ⟨Caches.initModule a, []⟩

def step (ppid : TaskId) (w : World a) : Call a → Option (World a)
  | .validate m base extent => (w.caches.validate m base extent ppid).map fun r =>
      ⟨r.caches, if r.ok then ⟨base, toInt32 extent, r.addrKey, m⟩ :: w.live else w.live⟩
  | .memcpy3 m vaddr nbytes k => some ⟨(w.caches.memcpy3 m vaddr nbytes k).1, w.live⟩
  | .release i => w.live[i]?.map fun r => ⟨w.caches.tblLink r.addrKey ppid, w.live.eraseIdx i⟩
  | .invalidate => (w.caches.invalidate ppid).map fun c => ⟨c, w.live⟩

inductive Reached (ppid : TaskId) (P : World a → Call a → Prop) : World a → Prop
  | init : Reached ppid P (init a)
  | step {w w' : World a} {call : Call a} :
    Reached ppid P w → P w call → w.step ppid call = some w' → Reached ppid P w'

end World

def Agree (m m' : Mapping a) (base : ℕ) (nbytes : ℤ) : Prop :=
  ∀ x : ℕ, (x : ℤ) < nbytes → calcPhysAddress m (base + x) = calcPhysAddress m' (base + x)

def Translates (c : Caches) (k : AddrKey) (base : ℕ) (nbytes : ℤ) (m : Mapping a) : Prop :=
  ∀ x : ℕ, (x : ℤ) < nbytes →
    calcPhysAddress m (base + x) = some (byteAddr a c (c.table k) x)

structure Covers (c : Caches) (k : AddrKey) (base : ℕ) (nbytes : ℤ) (m : Mapping a) : Prop where
  start : (c.table k).start = base
  length : nbytes ≤ (c.table k).length
  translates : Translates c k base nbytes m

def AddrTbl.contents (x : AddrTbl) : ℕ × ℤ × ℕ × ℕ := (x.start, x.length, x.chunk0, x.slot)

namespace Caches
variable {c c' : Caches} {k k' : AddrKey} {base : ℕ} {nbytes n : ℤ} {m m' : Mapping a}

structure SameContents (c c' : Caches) : Prop where
  contents : Keeps AddrTbl.contents c c'
  addrSlot : c'.addrSlot = c.addrSlot

theorem SameContents.table (h : SameContents c c') (k : AddrKey) :
    (c'.table k).contents = (c.table k).contents := h.contents k.1 k.2

theorem contents_inj {x x' : AddrTbl} (h : x'.contents = x.contents) :
    x'.start = x.start ∧ x'.length = x.length ∧ x'.chunk0 = x.chunk0 ∧ x'.slot = x.slot := by
  simpa [AddrTbl.contents] using h

theorem ignoresLinks_contents : IgnoresLinks AddrTbl.contents := fun _ _ _ => rfl

theorem sameContents_invalidate {ppid : TaskId} (h : c.invalidate ppid = some c') :
    SameContents c c' := by
  refine ⟨fun j => Subcache.keeps_invalidateTables (fun _ => rfl) (eachSub_cases h j), ?_⟩
  rw [invalidate, eachSub] at h
  split at h
  · cases h
    rfl
  · cases h

theorem Sound.congr {j : CacheId} {x x' : AddrTbl} (h : Sound a j x)
    (hx : x'.contents = x.contents) : Sound a j x' := by
  obtain ⟨hstart, hlength, hchunk, -⟩ := contents_inj hx
  refine ⟨hlength ▸ h.low, hlength ▸ h.high, ?_, ?_⟩
  · rw [hstart, hlength]
    exact h.fits
  · rw [hstart, hlength, hchunk]
    exact h.chunk0

theorem byteAddr_congr (hc : SameContents c c') (k : AddrKey) (x : ℕ) :
    byteAddr a c' (c'.table k) x = byteAddr a c (c.table k) x := by
  obtain ⟨-, -, hchunk, hslot⟩ := contents_inj (hc.table k)
  rw [byteAddr, byteAddr, hc.addrSlot, hchunk, hslot]

theorem covers_congr (h : Covers c k base nbytes m) (hc : SameContents c c') :
    Covers c' k base nbytes m := by
  obtain ⟨hstart, hlength, -, -⟩ := contents_inj (hc.table k)
  refine ⟨hstart.trans h.start, hlength ▸ h.length, ?_⟩
  intro x hx
  rw [byteAddr_congr hc]
  exact h.translates x hx

theorem covers_of_le (h : Covers c k base nbytes m) (hn : n ≤ nbytes)
    (hagree : Agree m m' base n) : Covers c k base n m' := by
  refine ⟨h.start, hn.trans h.length, ?_⟩
  intro x hx
  rw [← hagree x hx]
  exact h.translates x (hx.trans_le hn)

section Fill
variable (hslots : ∀ k, (c.table k).slot = slotBase a k.1 + k.2 * a.tblSz k.1)
  (hsound : ∀ k, Sound a k.1 (c.table k)) (hk : k.2 < numReg k.1) (hpos : 0 < nbytes)
  (hlt : nbytes < 2 ^ 31) (hfits : pages a base nbytes.toNat ≤ a.tblSz k.1)
include hsound hpos hlt hfits in
theorem sound_fillTable (k' : AddrKey) :
    Sound a k'.1 ((c.fillTable m k base nbytes).1.table k') := by
  by_cases hne : k' = k
  · subst hne
    cases hok : (c.fillTable m k' base nbytes).2.1 with
    | true =>
      rw [fillTable_table_ok hok, toNat_emod hpos hlt]
      refine ⟨hpos.le, hlt, .inr (.inr ?_), fun _ => rfl⟩
      rw [toNat_emod hpos hlt]
      exact hfits
    | false =>
      obtain ⟨-, hlength⟩ := fillTable_table_fail hok
      refine ⟨hlength.ge, by omega, .inr (.inl hlength), fun hlong => ?_⟩
      omega
  · rw [fillTable_table_of_ne hne]
    exact hsound k'
include hpos hlt in
theorem covers_fillTable (hok : (c.fillTable m k base nbytes).2.1 = true) :
    Covers (c.fillTable m k base nbytes).1 k base nbytes m := by
  refine ⟨?_, ?_, ?_⟩
  · rw [fillTable_table_ok hok]
  · rw [fillTable_table_ok hok]
  · intro x hx
    refine fillTable_translates hok ?_
    rw [toNat_emod hpos hlt]
    omega
include hslots hsound hk hpos hlt hfits in
theorem covers_fillTable_of_ne {base' : ℕ} (hne : k' ≠ k) (hk' : k'.2 < numReg k'.1)
    (hbase : base' ≠ 0) (h : Covers c k' base' n m') :
    Covers (c.fillTable m k base nbytes).1 k' base' n m' := by
  refine ⟨?_, ?_, ?_⟩
  · rw [fillTable_table_of_ne hne]
    exact h.start
  · rw [fillTable_table_of_ne hne]
    exact h.length
  · intro x hx
    have howns := (hsound k').owns (h.start ▸ hbase) (hslots k') (hx.trans_le h.length)
    rw [byteAddr_fillTable_of_ne hne hk hk' (hslots k) (by rw [toNat_emod hpos hlt]; omega)
      (by rw [toNat_emod hpos hlt]; exact hfits) howns]
    exact h.translates x hx

end Fill
end Caches

structure Told (c : Caches) (live : List (Region a)) : Prop where
  slots : ∀ k, (c.table k).slot = Caches.slotBase a k.1 + k.2 * a.tblSz k.1
  sound : ∀ k, Caches.Sound a k.1 (c.table k)
  covers : ∀ r ∈ live, ∃ k, r.addrKey = some k ∧ k.2 < numReg k.1 ∧ r.base ≠ 0 ∧ 0 < r.nbytes ∧
    Covers c k r.base r.nbytes r.mapping

namespace Told
variable {c c' : Caches} {live : List (Region a)} {k : AddrKey} {base : ℕ} {nbytes : ℤ}
  {m : Mapping a}

theorem congr (h : Told c live) (hc : Caches.SameContents c c') : Told c' live where
  slots k := (contents_inj (hc.table k)).2.2.2.trans (h.slots k)
  sound k := (h.sound k).congr (hc.table k)
  covers r hr := by
    obtain ⟨k, hkey, hk, hbase, hpos, hcovers⟩ := h.covers r hr
    exact ⟨k, hkey, hk, hbase, hpos, covers_congr hcovers hc⟩

theorem fill (h : Told c live) (hk : k.2 < numReg k.1) (hpos : 0 < nbytes) (hlt : nbytes < 2 ^ 31)
    (hfits : pages a base nbytes.toNat ≤ a.tblSz k.1)
    (hlive : ∀ r ∈ live, r.addrKey = some k → r.base = base ∧ r.nbytes ≤ nbytes ∧
      Agree m r.mapping base r.nbytes ∧ Mapped m base nbytes.toNat) :
    Told (c.fillTable m k base nbytes).1 live where
  slots k' := (sameLists_fillTable.slots k'.1 k'.2).trans (h.slots k')
  sound := sound_fillTable h.sound hpos hlt hfits
  covers r hr := by
    obtain ⟨k', hkey, hk', hbase, hrpos, hcovers⟩ := h.covers r hr
    refine ⟨k', hkey, hk', hbase, hrpos, ?_⟩
    by_cases hne : k' = k
    · subst hne
      obtain ⟨hrbase, hle, hagree, hmapped⟩ := hlive r hr hkey
      have hok : (c.fillTable m k' base nbytes).2.1 = true := by
        rw [fillTable_ok (by rw [toNat_emod hpos hlt]; omega),
          toNat_emod hpos hlt]
        exact hmapped
      rw [hrbase]
      exact covers_of_le (covers_fillTable hpos hlt hok) hle hagree
    · exact covers_fillTable_of_ne h.slots h.sound hk hpos hlt hfits hne hk' hbase hcovers

theorem cons (h : Told c live) (hk : k.2 < numReg k.1) (hbase : base ≠ 0) (hpos : 0 < nbytes)
    (hcovers : Covers c k base nbytes m) : Told c (⟨base, nbytes, some k, m⟩ :: live) where
  slots := h.slots
  sound := h.sound
  covers r hr := by
    rcases mem_cons.mp hr with rfl | hr
    · exact ⟨k, rfl, hk, hbase, hpos, hcovers⟩
    · exact h.covers r hr

theorem subset {live' : List (Region a)} (h : Told c live) (hsub : live' ⊆ live) : Told c live' :=
  ⟨h.slots, h.sound, fun r hr => h.covers r (hsub hr)⟩

end Told

def Doubly (j : CacheId) (q : Option TaskId) : Prop := q ≠ none ∧ strategy j = .tblRedo

structure Kept (ppid : TaskId) (c : Caches) (live : List (Region a))
    (L : CacheId → Option TaskId → List ℕ) : Prop where
  listed : ∀ j, (c.sub j).Listed (Doubly j) (numReg j) (L j)
  clean : ∀ j, ∀ t ∈ L j none, (c.sub j).prev t = none
  mem : ∀ r ∈ live, ∀ j t, r.addrKey = some (j, t) → t ∈ L j (some ppid)

namespace Kept
variable {ppid : TaskId} {c c' : Caches} {live live' : List (Region a)}
  {L : CacheId → Option TaskId → List ℕ} {j : CacheId} {s : Subcache} {t : ℕ}

section
variable (h : Kept ppid c live L)
include h

theorem congr (hc : Caches.SameLists c c') : Kept ppid c' live L where
  listed j := (h.listed j).congr (hc j)
  clean j t ht := (congrArg (fun x => x.2.2) ((hc j).place t)).trans (h.clean j t ht)
  mem := h.mem

theorem subset (hsub : live' ⊆ live) : Kept ppid c live' L :=
  ⟨h.listed, h.clean, fun r hr => h.mem r (hsub hr)⟩

theorem cons {base : ℕ} {nbytes : ℤ} {m : Mapping a} (ht : t ∈ L j (some ppid)) :
    Kept ppid c (⟨base, nbytes, some (j, t), m⟩ :: live) L where
  listed := h.listed
  clean := h.clean
  mem r hr i u hkey := by
    rcases mem_cons.mp hr with rfl | hr
    · cases hkey
      exact ht
    · exact h.mem r hr i u hkey

theorem setSub {l : Option TaskId → List ℕ} (hl : s.Listed (Doubly j) (numReg j) l)
    (hclean : ∀ u ∈ l none, s.prev u = none) (hmem : ∀ r ∈ live, ∀ u, r.addrKey = some (j, u) →
      u ∈ L j (some ppid) → u ∈ l (some ppid)) :
    Kept ppid (c.setSub j s) live (update L j l) := by
  refine ⟨fun i => ?_, fun i u hu => ?_, fun r hr i u hkey => ?_⟩ <;> by_cases hi : i = j
  · subst hi
    rwa [setSub_apply, if_pos rfl, update_self]
  · rw [setSub_apply, if_neg hi, update_of_ne hi]
    exact h.listed i
  · subst hi
    rw [setSub_apply, if_pos rfl]
    exact hclean u (by rwa [update_self] at hu)
  · rw [setSub_apply, if_neg hi]
    exact h.clean i u (by rwa [update_of_ne hi] at hu)
  · subst hi
    rw [update_self]
    exact hmem r hr u hkey (h.mem r hr i u hkey)
  · rw [update_of_ne hi]
    exact h.mem r hr i u hkey

theorem taken (htaken : Subcache.Taken (c.sub j) s (strategy j = .tblRedo) ppid t) :
    t ∈ L j none ∧ Kept ppid (c.setSub j s) live
      (update L j (moveTo (L j) none (some ppid) t)) := by
  have hlisted := h.listed j
  have hne : (none : Option TaskId) ≠ some ppid := nofun
  have ht : t ∈ L j none :=
    mem_of_head? ((hlisted.threaded.chain none).head?_eq.trans htaken.first)
  refine ⟨ht, h.setSub ?_ ?_ ?_⟩
  · refine hlisted.taken (fun hD => hD.1 rfl) htaken fun hD => ⟨h.clean j t ht, .inl ?_⟩
    exact decide_eq_true hD.2
  · intro u hu
    rw [moveTo_source hne] at hu
    have hu' : u ∈ L j none := mem_of_mem_erase hu
    rw [htaken.prev, if_neg, h.clean j u hu']
    rintro ⟨-, htask⟩
    have hmem : u ∈ L j (some ppid) :=
      mem_of_head? ((hlisted.threaded.chain (some ppid)).head?_eq.trans htask)
    exact hlisted.threaded.ne_of_mem hu' hmem hne rfl
  · intro r _ u _ hu
    rw [moveTo_target]
    exact mem_cons_of_mem t hu

theorem returned (hstrategy : strategy j = .tblRedo) (ht : t ∈ L j (some ppid))
    (hlive : ∀ r ∈ live, r.addrKey ≠ some (j, t)) (hreturned : Subcache.Returned (c.sub j) s ppid t)
    : Kept ppid (c.setSub j s) live (update L j (moveTo (L j) (some ppid) none t)) := by
  have hlisted := h.listed j
  have hne : some ppid ≠ none := nofun
  refine h.setSub ?_ ?_ ?_
  · exact hlisted.returned (fun hD => hD.1 rfl) ⟨nofun, hstrategy⟩ hreturned ht
  · intro u hu
    rw [moveTo_target] at hu
    rcases mem_cons.mp hu with rfl | hu
    · exact hreturned.prev_self
    · have hut : u ≠ t := hlisted.threaded.ne_of_mem hu ht hne.symm
      rw [hreturned.prev u hut, if_neg, h.clean j u hu]
      intro hnext
      have hmem := (hlisted.threaded.chain (some ppid)).next_mem ht hnext
      exact hlisted.threaded.ne_of_mem hu hmem hne.symm rfl
  · intro r hr u hkey hu
    rw [moveTo_source hne, (hlisted.threaded.parted.nodup _).mem_erase_iff]
    refine ⟨?_, hu⟩
    rintro rfl
    exact hlive r hr hkey

theorem lt_numReg {q : Option TaskId} (ht : t ∈ L j q) : t < numReg j :=
  (h.listed j).threaded.parted.bound q t ht

end
end Kept
end Cplant.AddrCache
