import Mathlib.Tactic.FinCases
import Cplant.AddrCache.Cache

/-!
# What the operations leave alone

Some operations only move tables between lists, the others only change what the tables say about
their regions. No operation moves the slots of a table.
-/
namespace Cplant.AddrCache
open AddrTbl Subcache Function
variable {β : Type*} {p : AddrTbl → β} {a : Arch} {m : Mapping a} {j : CacheId}

def IgnoresLinks (p : AddrTbl → β) : Prop :=
  ∀ (x : AddrTbl) (n q : Option ℕ), p { x with next := n, prev := q } = p x

def AddrTbl.place (x : AddrTbl) : ℕ × Option ℕ × Option ℕ := (x.slot, x.next, x.prev)

namespace Subcache
variable {s s' s'' : Subcache} {t fuel : ℕ} {ppid : TaskId} {f : AddrTbl → AddrTbl} {o : Option ℕ}
  {nbytes : ℤ}

def Keeps (p : AddrTbl → β) (s s' : Subcache) : Prop := ∀ t, p (s'.tbl t) = p (s.tbl t)

theorem Keeps.refl (p : AddrTbl → β) (s : Subcache) : Keeps p s s := fun _ => rfl

theorem Keeps.trans (h : Keeps p s s') (h' : Keeps p s' s'') : Keeps p s s'' :=
  fun t => (h' t).trans (h t)

theorem setTbl_apply (s : Subcache) (t u : ℕ) (f : AddrTbl → AddrTbl) :
    (s.setTbl t f).tbl u = if u = t then f (s.tbl u) else s.tbl u := by
  dsimp only [setTbl]
  rw [update_apply]
  split
  next h => rw [h]
  · rfl

theorem keeps_setTbl (hf : ∀ x, p (f x) = p x) : Keeps p s (s.setTbl t f) := by
  intro u
  rw [setTbl_apply]
  split
  · exact hf _
  · rfl

structure SameLists (s s' : Subcache) : Prop where
  place : Keeps AddrTbl.place s s'
  addrTbl : s'.addrTbl = s.addrTbl
  freeTables : s'.freeTables = s.freeTables
  taskTbl : s'.taskTbl = s.taskTbl

theorem SameLists.refl (s : Subcache) : SameLists s s := ⟨.refl _ s, rfl, rfl, rfl⟩

theorem sameLists_setTbl (hf : ∀ x, (f x).place = x.place) : SameLists s (s.setTbl t f) :=
  ⟨keeps_setTbl hf, rfl, rfl, rfl⟩

theorem keeps_tblUnlink (hp : IgnoresLinks p) (h : s.tblUnlink = some (o, s')) : Keeps p s s' := by
  rw [tblUnlink] at h
  split at h
  · cases h
    exact .refl p s
  · split at h
    · cases h
    · cases h
      exact keeps_setTbl fun x => hp x none x.prev

theorem keeps_pushTask (hp : IgnoresLinks p) (redo : Bool) :
    Keeps p s (s.pushTask redo ppid t) := by
  have hnext : Keeps p s (s.setTbl t fun x => { x with next := s.taskTbl ppid }) :=
    keeps_setTbl fun x => hp x _ x.prev
  rw [pushTask]
  cases hhead : s.taskTbl ppid with
  | none =>
    rw [hhead] at hnext
    exact hnext
  | some n =>
    rw [hhead] at hnext
    dsimp only
    split
    · exact hnext.trans (keeps_setTbl fun x => hp x x.next _)
    · exact hnext

theorem keeps_newTable (hp : IgnoresLinks p) {redo : Bool}
    (h : s.newTable redo ppid = some (.fill t s')) : Keeps p s s' := by
  rw [newTable] at h
  split at h
  · cases h
  · cases h
  next hunlink =>
    cases h
    exact (keeps_tblUnlink hp hunlink).trans (keeps_pushTask hp redo)

section
variable (hp : IgnoresLinks p)
include hp

theorem keeps_chooseTable {vaddr : ℕ}
    (h : s.chooseTable j vaddr nbytes ppid = some (.fill t s')) : Keeps p s s' := by
  rw [chooseTable] at h
  split at h
  · exact keeps_newTable hp h
  · split at h
    · cases h
    · split at h
      · cases h
      · cases h
        exact .refl p s
    · exact keeps_newTable hp h

theorem keeps_bridgeBack : Keeps p s (s.bridgeBack t) := by
  rw [bridgeBack]
  split
  · exact keeps_setTbl fun x => hp x x.next _
  · exact .refl p s

theorem keeps_takeOff : Keeps p s (s.takeOff ppid t) := by
  have hback : Keeps p s (s.bridgeBack t) := keeps_bridgeBack hp
  rw [takeOff]
  split
  · exact (hback.trans (keeps_setTbl fun x => hp x _ x.prev)).trans
      (keeps_setTbl fun x => hp x x.next none)
  · exact hback

theorem keeps_putBack : Keeps p s (s.putBack t) :=
  keeps_setTbl fun x => hp x _ x.prev

theorem keeps_clearTables (hregion : ∀ x, p { x with start := 0, length := 0 } = p x)
    (h : s.clearTables fuel o = some s') : Keeps p s s' := by
  induction fuel generalizing s o with
  | zero =>
    cases o with
    | none =>
      cases h
      exact .refl p _
    | some t => cases h
  | succ fuel ih =>
    cases o with
    | none =>
      cases h
      exact .refl p _
    | some t => exact ((keeps_putBack hp).trans (keeps_setTbl hregion)).trans (ih h)

end

theorem invalidateTables_eq_some (h : s.invalidateTables fuel o = some s') :
    ∃ f, s' = { s with tbl := f } ∧ ∀ t, f t = s.tbl t ∨ f t = { s.tbl t with valid := false } := by
  induction fuel generalizing s o with
  | zero =>
    cases o with
    | none =>
      cases h
      exact ⟨_, rfl, fun _ => .inl rfl⟩
    | some t => cases h
  | succ fuel ih =>
    cases o with
    | none =>
      cases h
      exact ⟨_, rfl, fun _ => .inl rfl⟩
    | some t =>
      obtain ⟨f, rfl, hf⟩ := ih h
      refine ⟨f, rfl, fun u => ?_⟩
      have hu := hf u
      rw [setTbl_apply] at hu
      split at hu
      · exact .inr (hu.elim id id)
      · exact hu

theorem keeps_invalidateTables (hvalid : ∀ x, p { x with valid := false } = p x)
    (h : s.invalidateTables fuel o = some s') : Keeps p s s' := by
  obtain ⟨f, rfl, hf⟩ := invalidateTables_eq_some h
  intro t
  rcases hf t with ht | ht
  · exact congrArg p ht
  · exact (congrArg p ht).trans (hvalid _)

theorem sameLists_invalidateTables (h : s.invalidateTables fuel o = some s') : SameLists s s' := by
  have hplace := keeps_invalidateTables (p := place) (fun _ => rfl) h
  obtain ⟨f, rfl, -⟩ := invalidateTables_eq_some h
  exact ⟨hplace, rfl, rfl, rfl⟩

end Subcache
namespace Caches
variable {c c' : Caches} {k : AddrKey} {vaddr : ℕ} {ppid : TaskId} {r : Populated}

def Keeps (p : AddrTbl → β) (c c' : Caches) : Prop := ∀ j, (c.sub j).Keeps p (c'.sub j)

theorem Keeps.refl (p : AddrTbl → β) (c : Caches) : Keeps p c c := fun _ _ => rfl

theorem Keeps.trans {c'' : Caches} (h : Keeps p c c') (h' : Keeps p c' c'') : Keeps p c c'' :=
  fun j => (h j).trans (h' j)

theorem setSub_apply (c : Caches) (i j : CacheId) (s : Subcache) :
    (c.setSub i s).sub j = if j = i then s else c.sub j := by
  dsimp only [setSub]
  rw [update_apply]

theorem setSub_self (c : Caches) (j : CacheId) : c.setSub j (c.sub j) = c := by
  rw [setSub, update_eq_self]

theorem keeps_setSub {s : Subcache} (h : (c.sub j).Keeps p s) : Keeps p c (c.setSub j s) := by
  intro i
  rw [setSub_apply]
  split
  next hi =>
    subst hi
    exact h
  · exact .refl p _

def SameLists (c c' : Caches) : Prop := ∀ j, (c.sub j).SameLists (c'.sub j)

theorem SameLists.refl (c : Caches) : SameLists c c := fun _ => .refl _

theorem SameLists.slots (h : SameLists c c') : Keeps slot c c' :=
  fun j t => congrArg Prod.fst ((h j).place t)

theorem sameLists_setTable {f : AddrTbl → AddrTbl} (hf : ∀ x, (f x).place = x.place) :
    SameLists c (c.setTable k f) := by
  intro i
  rw [setTable, setSub_apply]
  split
  next hi =>
    subst hi
    exact sameLists_setTbl hf
  · exact .refl _

theorem sameLists_fillTable : SameLists c (c.fillTable m k vaddr nbytes).1 := by
  rw [fillTable]
  split
  · exact sameLists_setTable fun _ => rfl
  · dsimp only
    split <;> exact sameLists_setTable fun _ => rfl

theorem sameLists_revalidate : SameLists c (c.revalidate m k vaddr nbytes).1 := by
  rw [revalidate]
  split
  · exact sameLists_setTable fun _ => rfl
  · exact sameLists_fillTable

theorem memcpy3_fst {nbytes : ℕ} : (c.memcpy3 m vaddr nbytes k).1 =
    if (c.table k).length < nbytes then c else (c.refresh m k).1 := by
  rw [memcpy3]
  split
  · rfl
  · dsimp only
    split
    · rfl
    · split
      · rfl
      · split <;> rfl

theorem sameLists_refresh : SameLists c (c.refresh m k).1 := by
  rw [refresh]
  split
  · exact .refl c
  · exact sameLists_revalidate

theorem sameLists_memcpy3 {nbytes : ℕ} : SameLists c (c.memcpy3 m vaddr nbytes k).1 := by
  rw [memcpy3_fst]
  split
  · exact .refl c
  · exact sameLists_refresh

theorem eachSub_cases {f : CacheId → Subcache → Option Subcache} (h : c.eachSub f = some c')
    (j : CacheId) : f j (c.sub j) = some (c'.sub j) := by
  rw [eachSub] at h
  split at h
  next h0 h1 h2 =>
    cases h
    fin_cases j
    · exact h0
    · exact h1
    · exact h2
  · cases h

theorem sameLists_invalidate (h : c.invalidate ppid = some c') : SameLists c c' :=
  fun j => sameLists_invalidateTables (eachSub_cases h j)

def Fills (c : Caches) (m : Mapping a) (vaddr : ℕ) (nbytes : ℤ) (ppid : TaskId)
    (r : Populated) : Prop :=
  vaddr ≠ 0 ∧ nbytes ≠ 0 ∧ ∃ t s,
    (c.sub (cacheFor a nbytes)).chooseTable (cacheFor a nbytes) vaddr nbytes ppid =
      some (.fill t s) ∧
    r = (let k := (cacheFor a nbytes, t)
      let res := (c.setSub (cacheFor a nbytes) s).fillTable m k vaddr nbytes
      ⟨res.1, res.2.1, if res.2.1 then some k else none, some (k, res.2.2)⟩)

theorem populate_eq_some (h : c.populate m vaddr nbytes ppid = some r) :
    (vaddr = 0 ∨ nbytes = 0) ∧ r = ⟨c, true, none, none⟩ ∨ r = ⟨c, false, none, none⟩ ∨
      (∃ t, (c.sub (cacheFor a nbytes)).chooseTable (cacheFor a nbytes) vaddr nbytes ppid =
          some (.keep t) ∧ r = ⟨c, true, some (cacheFor a nbytes, t), none⟩) ∨
      Fills c m vaddr nbytes ppid r := by
  rw [populate] at h
  split at h
  next hempty =>
    cases h
    exact .inl ⟨hempty, rfl⟩
  next hregion =>
  dsimp only at h
  split at h
  · cases h
  · cases h
    exact .inr (.inl rfl)
  next t hchoose =>
    cases h
    exact .inr (.inr (.inl ⟨t, hchoose, rfl⟩))
  next t s hchoose =>
    cases h
    obtain ⟨hvaddr, hnbytes⟩ := not_or.mp hregion
    exact .inr (.inr (.inr ⟨hvaddr, hnbytes, t, s, hchoose, rfl⟩))

theorem populate_cases (h : c.populate m vaddr nbytes ppid = some r) :
    (r.caches = c ∧ r.filled = none) ∨ Fills c m vaddr nbytes ppid r := by
  rcases populate_eq_some h with ⟨-, rfl⟩ | rfl | ⟨t, -, rfl⟩ | hfill
  · exact .inl ⟨rfl, rfl⟩
  · exact .inl ⟨rfl, rfl⟩
  · exact .inl ⟨rfl, rfl⟩
  · exact .inr hfill

theorem ignoresLinks_slot : IgnoresLinks slot := fun _ _ _ => rfl

theorem keepsSlots_populate (h : c.populate m vaddr nbytes ppid = some r) :
    Keeps slot c r.caches := by
  rcases populate_cases h with ⟨hc, -⟩ | ⟨-, -, t, s, hchoose, rfl⟩
  · rw [hc]
    exact .refl _ c
  · exact (keeps_setSub (keeps_chooseTable ignoresLinks_slot hchoose)).trans
      sameLists_fillTable.slots

theorem keepsSlots_tblLink {key : Option AddrKey} : Keeps slot c (c.tblLink key ppid) := by
  rw [tblLink.eq_def]
  split
  · exact .refl _ c
  · split
    · exact .refl _ c
    · exact keeps_setSub ((keeps_takeOff ignoresLinks_slot).trans
        (keeps_putBack ignoresLinks_slot))

theorem keepsSlots_tblClear (h : c.tblClear ppid = some c') : Keeps slot c c' := by
  intro j t
  obtain ⟨s, hclear, hs⟩ := Option.map_eq_some_iff.mp (eachSub_cases h j)
  rw [← hs]
  exact keeps_clearTables ignoresLinks_slot (fun _ => rfl) hclear t

theorem keepsSlots_step {act : Act a} (h : c.step act = some c') : Keeps slot c c' := by
  cases act with
  | validate m base extent ppid =>
    obtain ⟨r, hr, rfl⟩ := Option.map_eq_some_iff.mp h
    exact keepsSlots_populate hr
  | memcpy3 m vaddr nbytes k =>
    cases h
    exact sameLists_memcpy3.slots
  | tblLink key ppid =>
    cases h
    exact keepsSlots_tblLink
  | invalidate ppid => exact (sameLists_invalidate h).slots
  | tblInit ppid =>
    cases h
    exact .refl _ c
  | tblClear ppid => exact keepsSlots_tblClear h

theorem slot_of_reached {P : Caches → Act a → Prop} (h : Reached P c) (k : AddrKey) :
    (c.table k).slot = slotBase a k.1 + k.2 * a.tblSz k.1 := by
  induction h with
  | init => rfl
  | step _ _ hstep ih => exact (keepsSlots_step hstep k.1 k.2).trans ih

end Caches
end Cplant.AddrCache
