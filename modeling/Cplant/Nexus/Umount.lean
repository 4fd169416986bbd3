import Cplant.Nexus.Vnode
import Mathlib.Data.List.Nodup
import Mathlib.Data.List.Perm.Basic

/-!
# Unmounting a file system

`vfs_umount` sheds the vnodes of a file system one by one and its root last.
-/
namespace Cplant.Nexus
open Option Vnodes Function List
open List
variable {V : Type*} [DecidableEq V]

structure Mount (V : Type*) where
  vn : Vnodes V
  /-- `vfs_vnodes` -/
  vnodes : List V
  nodup : vnodes.Nodup
  vcache : List V
  vfsRef : ℕ
  vfsLock : Rwlock
  mounted : Bool

namespace Mount

def vReclaim (m : Mount V) (vp : V) : Mount V :=
  { m with
    vnodes := m.vnodes.erase vp
    nodup := m.nodup.erase vp
    vcache := m.vcache.erase vp
    vn := { m.vn with
      cover := update m.vn.cover vp none
      mountpoint := update m.vn.mountpoint vp none } }

def vGone (m : Mount V) (vp : V) : Option (Mount V) :=
  if m.vn.vopLkty vp ≠ .write then none
  else match m.vn.vPut vp with
    | none => none
    | some vn => if vn.ref vp ≠ 0 then none else some ({ m with vn := vn }.vReclaim vp)

def toTail (m : Mount V) (vp : V) (rest : List V) (h : m.vnodes = vp :: rest) : Mount V :=
  { m with
    vnodes := rest ++ [vp]
    nodup := (perm_append_singleton vp rest).nodup_iff.mpr (h ▸ m.nodup) }

structure Exit (V : Type*) where
  vp : Option V
  isroot : Bool
  iscovered : Bool

def shed : ℕ → Bool → Mount V → Option (Exit V × Mount V)
  | 0, _, _ => none
  | fuel + 1, iscovered, m =>
    match h : m.vnodes with
    | [] => some (⟨none, false, iscovered⟩, m)
    | vp :: rest =>
      match m.vn.vGet vp .read true with
      | none => none
      -- the `continue` meets `while (!err)` and leaves with `vp` still set
      | some (.error .enoent, vn) => some (⟨some vp, false, iscovered⟩, { m with vn := vn })
      | some (.error _, vn) => some (⟨none, false, iscovered⟩, { m with vn := vn })
      | some (.ok (), vn) =>
        let isroot := (vn.mountpoint vp).isSome
        let iscovered := (vn.cover vp).isSome
        if iscovered ∨ isroot ∧ rest = [] then
          some (⟨some vp, isroot, iscovered⟩, { m with vn := vn })
        else if isroot then
          match vn.vPut vp with
          | none => none
          | some vn => shed fuel iscovered ({ m with vn := vn }.toTail vp rest h)
        else if 1 < vn.ref vp then some (⟨some vp, isroot, iscovered⟩, { m with vn := vn })
        else match { m with vn := vn }.vGone vp with
          | none => none
          | some m => shed fuel iscovered m

def dropRoot (m : Mount V) (vp : V) : Option (Mount V) :=
  match m.vn.vRele vp with
  | none => none
  | some vn =>
    match { m with vn := vn }.vGone vp with
    | none => none
    | some m =>
      if m.vnodes ≠ [] then none
      else match m.vfsLock.unlock with
        | none => none
        | some l =>
          if m.vfsRef = 0 then none
          else some { m with vfsLock := l, vfsRef := m.vfsRef - 1, mounted := false }

def uncover (m : Mount V) (vp : Option V) : Option (Mount V) :=
  match vp with
  | none => none
  | some vp =>
    match m.vn.mountpoint vp with
    | none => none
    | some mp =>
      match m.vn.vGet mp .write false with
      | some (.ok (), vn) =>
        match { vn with cover := update vn.cover mp none }.vPut mp with
        | none => none
        | some vn => { m with vn := vn }.dropRoot vp
      | _ => none

def vfsUmount (fuel : ℕ) (m : Mount V) : Option (Except Errno Unit × Mount V) :=
  match m.shed fuel false with
  | none => none
  | some (x, m) =>
    match x.vp with
    | none => (m.uncover none).map (fun m => (.ok (), m))
    | some vp =>
      if x.iscovered ∨ x.isroot ∧ m.vnodes.getLast? ≠ some vp then
        (m.vn.vPut vp).map (fun vn => (.error .ebusy, { m with vn := vn }))
      else (m.uncover (some vp)).map (fun m => (.ok (), m))

def Settled (m : Mount V) (res : Except Errno Unit) (m' : Mount V) : Prop :=
  match res with
  | .ok () => m'.vnodes = [] ∧ m'.vcache = [] ∧ m'.mounted = false ∧
      ∀ vp ∈ m.vnodes, ∀ mp, m.vn.mountpoint vp = some mp → m'.vn.cover mp = none
  | .error _ => m'.vn = m.vn ∧ m'.vnodes.Perm m.vnodes ∧ m'.vcache = m.vcache ∧
      m'.vfsRef = m.vfsRef ∧ m'.vfsLock = m.vfsLock ∧ m'.mounted = m.mounted

def AllOrNothing (m : Mount V) : Prop :=
  ∃ fuel res m', m.vfsUmount fuel = some (res, m') ∧ m.Settled res m'

/-- The first vnode on the list that is not a root with nothing mounted on it is mounted on, and
up to it no vnode is locked for writing. -/
def MountedOn (m : Mount V) : Prop :=
  ∃ roots vp rest, m.vnodes = roots ++ vp :: rest ∧
    (∀ r ∈ roots, m.vn.mountpoint r ≠ none ∧ m.vn.cover r = none) ∧
    (∀ v ∈ roots ++ [vp], (m.vn.lock v).writer = false) ∧ m.vn.cover vp ≠ none

variable {m m' : Mount V} {vp : V} {fuel : ℕ} {rest : List V}

theorem vGone_of_read (h : m.vn.vopLkty vp = .read) : m.vGone vp = none := by simp [vGone, h]

theorem dropRoot_of_read (h : m.vn.vopLkty vp = .read) : m.dropRoot vp = none := by
  unfold dropRoot
  cases hrele : m.vn.vRele vp with
  | none => rfl
  | some vn =>
    have hvn : vn.vopLkty vp = .read := by
      unfold vRele at hrele
      split_ifs at hrele
      rw [← some.inj hrele]
      exact h
    have hgone : ({ m with vn := vn } : Mount V).vGone vp = none := vGone_of_read hvn
    simp [hgone]

theorem uncover_of_read (h : m.vn.vopLkty vp = .read) : m.uncover (some vp) = none := by
  cases hmp : m.vn.mountpoint vp with
  | none => simp only [uncover, hmp]
  | some mp =>
    cases hget : m.vn.vGet mp .write false with
    | none => simp only [uncover, hmp, hget]
    | some r =>
      obtain ⟨res, vn⟩ := r
      cases res with
      | error e => simp only [uncover, hmp, hget]
      | ok u =>
        have hne : vp ≠ mp := by
          rintro rfl
          -- a writer would wait for the reader that this thread is
          rw [vGet_write_of_read h] at hget
          cases hget
        cases hput : { vn with cover := update vn.cover mp none }.vPut mp with
        | none => simp only [uncover, hmp, hget, hput]
        | some vn' =>
          have hlock : vn'.lock vp = m.vn.lock vp :=
            ((Vnodes.Only.vPut hput).lock vp hne).trans ((Vnodes.Only.vGet hget).lock vp hne)
          have hdrop : ({ m with vn := vn' } : Mount V).dropRoot vp = none := by
            apply dropRoot_of_read
            rw [vopLkty, hlock]
            exact h
          simp [uncover, hmp, hget, hput, hdrop]

theorem shed_cons {b : Bool} (h : m.vnodes = vp :: rest)
    (hw : (m.vn.lock vp).writer = false) : m.shed (fuel + 1) b =
      if (m.vn.cover vp).isSome ∨ (m.vn.mountpoint vp).isSome ∧ rest = [] then
        some (⟨some vp, (m.vn.mountpoint vp).isSome, (m.vn.cover vp).isSome⟩,
          { m with vn := m.vn.got vp })
      else if (m.vn.mountpoint vp).isSome then shed fuel false (m.toTail vp rest h)
      else if 0 < m.vn.ref vp then
        some (⟨some vp, false, false⟩, { m with vn := m.vn.got vp })
      else none := by
  have hgone : ({ m with vn := m.vn.got vp } : Mount V).vGone vp = none :=
    vGone_of_read (vopLkty_got hw)
  rw [shed]
  split
  next hnil =>
    rw [h] at hnil
    cases hnil
  rename_i vp' rest' hcons
  obtain ⟨rfl, rfl⟩ := cons.inj (h.symm.trans hcons)
  have href : 1 < (m.vn.got vp).ref vp ↔ 0 < m.vn.ref vp := by simp [got, setRef, setLock]
  simp only [vGet_read hw, vPut_got hw, hgone, href, got_cover,
    got_mountpoint]
  by_cases hstop : (m.vn.cover vp).isSome ∨ (m.vn.mountpoint vp).isSome ∧ rest = []
  · rw [if_pos hstop, if_pos hstop]
  · have hcover : (m.vn.cover vp).isSome = false := by
      rw [← Bool.not_eq_true]
      exact fun h => hstop (.inl h)
    rw [if_neg hstop, if_neg hstop, hcover]
    by_cases hroot : (m.vn.mountpoint vp).isSome = true
    · rw [if_pos hroot, if_pos hroot]
    · rw [if_neg hroot, if_neg hroot, (Bool.not_eq_true _).mp hroot]

omit [DecidableEq V] in
theorem mountedOn_toTail (h : m.vnodes = vp :: rest)
    (hw : (m.vn.lock vp).writer = false) (hroot : m.vn.mountpoint vp ≠ none)
    (hcover : m.vn.cover vp = none) (hm : (m.toTail vp rest h).MountedOn) : m.MountedOn := by
  obtain ⟨roots, w, rest', hsplit, hroots, hlock, hw'⟩ := hm
  rcases eq_nil_or_concat rest' with rfl | ⟨init, z, rfl⟩
  · -- the covered vnode is not the root at the end
    have hlast : vp = w := (append_inj' (show rest ++ [vp] = roots ++ [w] from hsplit) rfl).2
      |> cons.inj |>.1
    exact absurd hcover (hlast ▸ hw')
  · have hrest : rest = roots ++ w :: init := by
      have hends : rest ++ [vp] = (roots ++ w :: init) ++ [z] := by
        rw [append_assoc, cons_append]
        rw [concat_eq_append] at hsplit
        exact hsplit
      exact (append_inj' hends rfl).1
    refine ⟨vp :: roots, w, init, by rw [h, hrest]; rfl, ?_, ?_, hw'⟩
    · intro r hr
      rcases mem_cons.mp hr with rfl | hr
      · exact ⟨hroot, hcover⟩
      · exact hroots r hr
    · intro v hv
      rcases mem_cons.mp hv with rfl | hv
      · exact hw
      · exact hlock v hv

theorem shed_exit {x : Exit V} (h : m.shed fuel false = some (x, m')) :
    m.MountedOn ∨ m'.uncover x.vp = none ∧ x.iscovered = false ∧
      (∀ vp, x.vp = some vp → x.isroot = true → m'.vnodes.getLast? = some vp) := by
  induction fuel generalizing m with
  | zero => simp [shed] at h
  | succ fuel ih =>
    cases hvn : m.vnodes with
    | nil =>
      rw [shed] at h
      split at h
      · cases h
        exact .inr ⟨rfl, rfl, by simp⟩
      next hcons =>
        rw [hvn] at hcons
        cases hcons
    | cons vp rest =>
      cases hw : (m.vn.lock vp).writer with
      | true =>
        rw [shed] at h
        split at h
        next hnil =>
          rw [hvn] at hnil
          cases hnil
        next vp' rest' hcons =>
          obtain ⟨rfl, rfl⟩ := cons.inj (hvn.symm.trans hcons)
          rw [vGet_read_dontwait hw] at h
          cases h
          exact .inr ⟨rfl, rfl, by simp⟩
      | false =>
        have hread := vopLkty_got hw
        rw [shed_cons hvn hw] at h
        split_ifs at h with hstop hroot href
        · cases h
          rcases hstop with hcover | ⟨hroot, rfl⟩
          · refine .inl ⟨[], vp, rest, hvn, by simp, by simpa using hw, ?_⟩
            exact isSome_iff_ne_none.mp hcover
          · by_cases hcover : m.vn.cover vp = none
            · refine .inr ⟨uncover_of_read hread, by simp [hcover], ?_⟩
              intro w hw' _
              simp [hvn, ← some.inj hw']
            · exact .inl ⟨[], vp, [], hvn, by simp, by simpa using hw, hcover⟩
        · have hcover : m.vn.cover vp = none := by
            rw [← not_isSome_iff_eq_none]
            exact fun hc => hstop (.inl hc)
          rcases ih h with hm | hbad
          · exact .inl (mountedOn_toTail hvn hw (isSome_iff_ne_none.mp hroot) hcover hm)
          · exact .inr hbad
        · cases h
          exact .inr ⟨uncover_of_read hread, rfl, by simp⟩

theorem mountedOn_of_vfsUmount {res : Except Errno Unit}
    (h : m.vfsUmount fuel = some (res, m')) : m.MountedOn := by
  unfold vfsUmount at h
  cases hshed : m.shed fuel false with
  | none => simp [hshed] at h
  | some r =>
    obtain ⟨x, m1⟩ := r
    rcases shed_exit hshed with hm | ⟨hnone, hcov, hlast⟩
    · exact hm
    cases hvp : x.vp with
    | none => simp [hshed, hvp, uncover] at h
    | some vp =>
      rw [hvp] at hnone
      have hdecode : ¬ (x.iscovered = true ∨ x.isroot = true ∧ m1.vnodes.getLast? ≠ some vp) := by
        rw [hcov]
        rintro (h | ⟨hroot, hne⟩)
        · cases h
        · exact hne (hlast vp hvp hroot)
      simp [hshed, hvp, if_neg hdecode, hnone] at h

theorem shed_covered {roots : List V} (h : m.vnodes = roots ++ vp :: rest)
    (hroots : ∀ r ∈ roots, m.vn.mountpoint r ≠ none ∧ m.vn.cover r = none)
    (hlock : ∀ v ∈ roots ++ [vp], (m.vn.lock v).writer = false) (hcover : m.vn.cover vp ≠ none) :
    ∃ m', m.shed (roots.length + 1) false =
        some (⟨some vp, (m.vn.mountpoint vp).isSome, true⟩, { m' with vn := m.vn.got vp }) ∧
      m.Settled (.error .ebusy) m' := by
  induction roots generalizing m rest with
  | nil =>
    have hw := hlock vp (by simp)
    refine ⟨m, ?_, rfl, Perm.refl _, rfl, rfl, rfl, rfl⟩
    have hsome := isSome_iff_ne_none.mpr hcover
    rw [length_nil, shed_cons h hw, if_pos (.inl hsome), hsome]
  | cons r roots ih =>
    obtain ⟨hroot, hnone⟩ := hroots r (by simp)
    have hw := hlock r (by simp)
    have hcons : m.vnodes = r :: (roots ++ vp :: rest) := h
    have hne : ¬ ((m.vn.cover r).isSome = true ∨
        (m.vn.mountpoint r).isSome = true ∧ roots ++ vp :: rest = []) := by
      simp [hnone]
    have htail : (m.toTail r (roots ++ vp :: rest) hcons).vnodes =
        roots ++ vp :: (rest ++ [r]) := by
      simp [toTail]
    obtain ⟨m', hm', hvn, hperm, hrest⟩ := ih htail (fun a ha => hroots a (by simp [ha]))
      (fun a ha => hlock a (mem_cons_of_mem _ ha)) hcover
    refine ⟨m', ?_, hvn, ?_, hrest⟩
    · rw [length_cons, shed_cons hcons hw, if_neg hne,
        if_pos (isSome_iff_ne_none.mpr hroot)]
      exact hm'
    · rw [htail] at hperm
      rw [hcons]
      refine hperm.trans ?_
      rw [← cons_append, ← append_assoc]
      exact perm_append_singleton _ _

/-- An unmount is refused, or it stops the server: it ends with the file system unmounted or as
it was just if a vnode that is mounted on is the first it comes to, its own root left out. -/
theorem all_or_nothing_iff (m : Mount V) : m.AllOrNothing ↔ m.MountedOn := by
  constructor
  · rintro ⟨fuel, res, m', h, -⟩
    exact mountedOn_of_vfsUmount h
  · rintro ⟨roots, vp, rest, hvn, hroots, hlock, hcover⟩
    obtain ⟨m', hshed, hm'⟩ := shed_covered hvn hroots hlock hcover
    refine ⟨roots.length + 1, .error .ebusy, { m' with vn := m.vn }, ?_, rfl, hm'.2⟩
    have hput := vPut_got (hlock vp (by simp))
    simp [vfsUmount, hshed, hput]

def idle : Mount ℕ where
  vn := ⟨fun v => if v ≤ 1 then 1 else 0, fun _ => .free,
    fun v => if v = 0 then some 1 else none, fun v => if v = 1 then some 0 else none⟩
  vnodes := [1]
  nodup := nodup_singleton 1
  vcache := [1]
  vfsRef := 1
  vfsLock := ⟨0, true⟩
  mounted := true

theorem idle_umount_stops : (idle.shed 1 false).isSome = true ∧ ¬ idle.AllOrNothing := by
  refine ⟨by decide, ?_⟩
  rintro ⟨fuel, res, m', h, -⟩
  obtain ⟨roots, vp, rest, hvn, -, -, hcover⟩ := mountedOn_of_vfsUmount h
  have hmem : vp ∈ idle.vnodes := by rw [hvn]; simp
  rw [mem_singleton.mp hmem] at hcover
  exact hcover rfl

end Mount
end Cplant.Nexus
