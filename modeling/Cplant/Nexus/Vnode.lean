import Cplant.Nexus.Dtree

/-!
# Vnodes

References and locks of the vnodes of the nexus server, which runs as one thread: a thread that
waits for a lock waits for itself, and `cond_wait` then stops the server, as do `panic` and a
failed `assert`. All of these are `none` here. A vnode stands for its file: one that is not in
core has no references and no lock.
-/
namespace Cplant.Nexus
open Function Option

inductive Rwty
  | none | read | write
  deriving DecidableEq

structure Rwlock where
  readers : ℕ
  writer : Bool
  deriving DecidableEq

namespace Rwlock

def free : Rwlock := ⟨0, false⟩

def lkstat (l : Rwlock) : Rwty :=
  if l.writer then .write else if 0 < l.readers then .read else .none

def get (l : Rwlock) (lkf : Rwty) (dontwait : Bool) : Option (Except Errno Rwlock) :=
  match lkf with
  | .read =>
    if l.writer then if dontwait then some (.error .ebusy) else none
    else some (.ok { l with readers := l.readers + 1 })
  | .write =>
    if l.writer ∨ 0 < l.readers then if dontwait then some (.error .ebusy) else none
    else some (.ok { l with writer := true })
  | .none => some (.error .einval)

def unlock (l : Rwlock) : Option Rwlock :=
  if l.writer then some { l with writer := false }
  else if l.readers = 0 then none
  else some { l with readers := l.readers - 1 }

end Rwlock

structure Vnodes (V : Type*) where
  ref : V → ℕ
  lock : V → Rwlock
  /-- `v_cover`: the root of the file system that is mounted here. -/
  cover : V → Option V
  /-- `v_mountpoint`: what this root covers. -/
  mountpoint : V → Option V

namespace Vnodes
variable {V : Type*} [DecidableEq V] (s : Vnodes V) (v : V)

def setRef (n : ℕ) : Vnodes V := { s with ref := update s.ref v n }

def setLock (l : Rwlock) : Vnodes V := { s with lock := update s.lock v l }

def vopLock (lkf : Rwty) (dontwait : Bool) : Option (Except Errno Unit × Vnodes V) :=
  match (s.lock v).get lkf dontwait with
  | none => none
  | some (.error e) => some (.error e, s)
  | some (.ok l) => some (.ok (), s.setLock v l)

def vopUnlock : Option (Vnodes V) := (s.lock v).unlock.map (s.setLock v)

def vopLkty : Rwty := (s.lock v).lkstat

def vRef : Option (Vnodes V) :=
  if s.ref v = 0 then none else some (s.setRef v (s.ref v + 1))

def vRele : Option (Vnodes V) :=
  if s.ref v = 0 then none else some (s.setRef v (s.ref v - 1))

def vGet (lkty : Rwty) (dontwait : Bool) : Option (Except Errno Unit × Vnodes V) :=
  let s := s.setRef v (s.ref v + 1)
  match lkty with
  | .none => some (.ok (), s)
  | _ =>
    match s.vopLock v lkty dontwait with
    | some (.error e, s) => (s.vRele v).map (fun s => (.error e, s))
    | r => r

def vPut : Option (Vnodes V) := (s.vopUnlock v).bind (fun s => s.vRele v)

def got : Vnodes V :=
  (s.setRef v (s.ref v + 1)).setLock v { s.lock v with readers := (s.lock v).readers + 1 }

@[simp] theorem got_cover : (s.got v).cover = s.cover := rfl

@[simp] theorem got_mountpoint : (s.got v).mountpoint = s.mountpoint := rfl

variable {s v} {dontwait : Bool}

theorem vGet_read (h : (s.lock v).writer = false) :
    s.vGet v .read dontwait = some (.ok (), s.got v) := by
  simp [vGet, vopLock, Rwlock.get, setRef, got, h]

theorem vGet_read_dontwait (h : (s.lock v).writer = true) :
    s.vGet v .read true = some (.error .ebusy, s) := by
  simp [vGet, vopLock, Rwlock.get, vRele, setRef, h]

theorem vPut_got (h : (s.lock v).writer = false) : (s.got v).vPut v = some s := by
  have hlock : update s.lock v ⟨(s.lock v).readers, false⟩ = s.lock := by
    rw [← h]
    exact update_eq_self v s.lock
  simp [vPut, vopUnlock, Rwlock.unlock, vRele, got, setRef, setLock, h, hlock]

theorem vopLkty_got (h : (s.lock v).writer = false) : (s.got v).vopLkty v = .read := by
  simp [vopLkty, Rwlock.lkstat, got, setLock, h]

theorem vGet_write_of_read (h : s.vopLkty v = .read) : s.vGet v .write false = none := by
  simp only [vopLkty, Rwlock.lkstat] at h
  split_ifs at h with hw hr
  simp [vGet, vopLock, Rwlock.get, setRef, hr]

structure Only (v : V) (s s' : Vnodes V) : Prop where
  ref : ∀ w ≠ v, s'.ref w = s.ref w
  lock : ∀ w ≠ v, s'.lock w = s.lock w
  cover : s'.cover = s.cover
  mountpoint : s'.mountpoint = s.mountpoint

namespace Only
variable {s1 s2 s3 s' : Vnodes V} {res : Except Errno Unit} {lkf : Rwty}

omit [DecidableEq V] in
theorem refl : Only v s s := ⟨fun _ _ => rfl, fun _ _ => rfl, rfl, rfl⟩

omit [DecidableEq V] in
theorem trans (h : Only v s1 s2) (h' : Only v s2 s3) : Only v s1 s3 where
  ref w hw := (h'.ref w hw).trans (h.ref w hw)
  lock w hw := (h'.lock w hw).trans (h.lock w hw)
  cover := h'.cover.trans h.cover
  mountpoint := h'.mountpoint.trans h.mountpoint

theorem setRef (n : ℕ) : Only v s (s.setRef v n) where
  ref _ hw := update_of_ne hw _ _
  lock _ _ := rfl
  cover := rfl
  mountpoint := rfl

theorem setLock (l : Rwlock) : Only v s (s.setLock v l) where
  ref _ _ := rfl
  lock _ hw := update_of_ne hw _ _
  cover := rfl
  mountpoint := rfl

theorem vRele (h : s.vRele v = some s') : Only v s s' := by
  unfold Vnodes.vRele at h
  split_ifs at h
  rw [← some.inj h]
  exact setRef _

theorem vopUnlock (h : s.vopUnlock v = some s') : Only v s s' := by
  obtain ⟨l, -, rfl⟩ := map_eq_some_iff.mp h
  exact setLock _

theorem vPut (h : s.vPut v = some s') : Only v s s' := by
  obtain ⟨s1, h1, h2⟩ := bind_eq_some_iff.mp h
  exact (vopUnlock h1).trans (vRele h2)

theorem vopLock (h : s.vopLock v lkf dontwait = some (res, s')) : Only v s s' := by
  unfold Vnodes.vopLock at h
  split at h
  · cases h
  · cases h
    exact refl
  · cases h
    exact setLock _

theorem vGet (h : s.vGet v lkf dontwait = some (res, s')) : Only v s s' := by
  have hset : Only v s (s.setRef v (s.ref v + 1)) := setRef _
  simp only [Vnodes.vGet] at h
  split at h
  · cases h
    exact hset
  · split at h
    next hlock =>
      obtain ⟨s1, h1, hs⟩ := map_eq_some_iff.mp h
      cases hs
      exact (hset.trans (vopLock hlock)).trans (vRele h1)
    · exact hset.trans (vopLock h)

end Only
end Vnodes
end Cplant.Nexus
