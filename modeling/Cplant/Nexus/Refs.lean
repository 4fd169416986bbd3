import Cplant.Foundations.Faults
import Cplant.Nexus.Vnode
import Mathlib.Algebra.Order.Pi
import Mathlib.Tactic.Abel

/-!
# The balance of references and locks

What a piece of code has done to the references of the vnodes since some state, as a sum of
single references taken and given back, and the locks that it holds.
-/
namespace Cplant.Nexus
open Function Rwlock Vnodes
open Foundations (Runs)
variable {V : Type*} [DecidableEq V] {s₀ s s1 : Vnodes V} {v : V} {δ δ' : V → ℤ} {l l' : V → Rwlock}
  {lkf : Rwty} {safe : Prop}

def one (v : V) : V → ℤ := Pi.single v 1

theorem one_self (v : V) : one v v = 1 := Pi.single_eq_same v 1

theorem one_nonneg (v : V) : 0 ≤ one v := by
  intro w
  by_cases h : w = v <;> simp [one, h]

def held (l : V → Rwlock) (lkf : Rwty) (v : V) : V → Rwlock :=
  match lkf with
  | .none => l
  | .read => update l v ⟨(l v).readers + 1, (l v).writer⟩
  | .write => update l v ⟨(l v).readers, true⟩

def ready (l : V → Rwlock) (lkf : Rwty) (v : V) : Bool :=
  match lkf with
  | .none => true
  | .read => !(l v).writer
  | .write => !(l v).writer && (l v).readers == 0

namespace Vnodes

def lockWait (s : Vnodes V) (v : V) (lkf : Rwty) : Option (Vnodes V) :=
  match s.vopLock v lkf false with
  | some (.ok (), s) => some s
  | _ => none

def getWait (s : Vnodes V) (v : V) (lkf : Rwty) : Option (Vnodes V) :=
  match s.vGet v lkf false with
  | some (.ok (), s) => some s
  | _ => none

variable {s : Vnodes V} {lkf : Rwty} {v : V}

theorem lockWait_eq (h : lkf ≠ .none) : s.lockWait v lkf =
      if ready s.lock lkf v then some { s with lock := held s.lock lkf v } else none := by
  cases hw : (s.lock v).writer with
  | true => cases lkf <;> simp_all [lockWait, vopLock, Rwlock.get, ready]
  | false =>
    cases lkf with
    | none => exact absurd rfl h
    | read => simp [lockWait, vopLock, Rwlock.get, ready, hw, held, setLock]
    | write =>
      by_cases hr : (s.lock v).readers = 0
      · simp [lockWait, vopLock, Rwlock.get, ready, hw, hr, held, setLock]
      · simp [lockWait, vopLock, Rwlock.get, ready, hw, hr, Nat.pos_of_ne_zero hr]

theorem getWait_eq : s.getWait v lkf = if ready s.lock lkf v then
      some { s.setRef v (s.ref v + 1) with lock := held s.lock lkf v } else none := by
  by_cases hlkf : lkf = .none
  · simp [hlkf, getWait, vGet, ready, held, setRef]
  have hlock : s.getWait v lkf = (s.setRef v (s.ref v + 1)).lockWait v lkf := by
    rw [getWait, lockWait, vGet]
    · rcases (s.setRef v (s.ref v + 1)).vopLock v lkf false with _ | ⟨_ | _, s'⟩
      · rfl
      · dsimp only
        cases s'.vRele v <;> rfl
      · rfl
    · exact hlkf
  rw [hlock, lockWait_eq hlkf]
  rfl

end Vnodes

structure Mounts (V : Type*) where
  cover : V → Option V
  mountpoint : V → Option V

def Vnodes.mounts (s : Vnodes V) : Mounts V := ⟨s.cover, s.mountpoint⟩

structure Moved (s₀ s : Vnodes V) (δ : V → ℤ) (l : V → Rwlock) : Prop where
  ref : ∀ v, (s.ref v : ℤ) = s₀.ref v + δ v
  lock : s.lock = l
  mounts : s.mounts = s₀.mounts

def Holds (s : Vnodes V) (δ : V → ℤ) : Prop := ∀ v, δ v ≤ s.ref v

omit [DecidableEq V] in
theorem Holds.mono (h : Holds s δ) (hδ : δ' ≤ δ) : Holds s δ' := fun v => (hδ v).trans (h v)

omit [DecidableEq V] in
theorem Holds.moved (h : Holds s₀ δ) (hm : Moved s₀ s δ' l) : Holds s (δ + δ') := by
  intro v
  have := h v
  rw [hm.ref, Pi.add_apply]
  omega

namespace Moved

omit [DecidableEq V] in
theorem refl (s : Vnodes V) : Moved s s 0 s.lock := ⟨by simp, rfl, rfl⟩

omit [DecidableEq V] in
theorem trans (h : Moved s₀ s δ l) (h' : Moved s s1 δ' l') : Moved s₀ s1 (δ + δ') l' where
  ref v := by rw [h'.ref, h.ref, Pi.add_apply, add_assoc]
  lock := h'.lock
  mounts := h'.mounts.trans h.mounts

omit [DecidableEq V] in
theorem cast (h : Moved s₀ s δ l) (hδ : δ = δ') : Moved s₀ s δ' l := hδ ▸ h

omit [DecidableEq V] in
theorem holds (h : Moved s₀ s δ l) : Holds s δ := by
  intro v
  rw [h.ref]
  omega

theorem setRef (h : Moved s₀ s δ l) (n : ℕ) :
    Moved s₀ (s.setRef v n) (δ + Pi.single v (n - s.ref v : ℤ)) l := by
  refine ⟨fun w => ?_, h.lock, h.mounts⟩
  have hw := h.ref w
  by_cases hwv : w = v
  · subst hwv
    simp only [setRef, update_self, Pi.add_apply, Pi.single_eq_same]
    omega
  · simp [Vnodes.setRef, hwv, hw]

theorem addRef (h : Moved s₀ s δ l) : Moved s₀ (s.setRef v (s.ref v + 1)) (δ + one v) l :=
  (h.setRef _).cast (by rw [one, Nat.cast_succ, add_sub_cancel_left])

theorem vRef (h : Moved s₀ s δ l) (hsafe : safe → Holds s (one v)) :
    Runs safe (s.vRef v) (fun s => Moved s₀ s (δ + one v) l) := by
  unfold Vnodes.vRef
  split_ifs with hv
  · refine .fail fun hs => ?_
    have := hsafe hs v
    rw [one_self, hv] at this
    omega
  · exact .pure h.addRef

theorem vRele (h : Moved s₀ s δ l) (hsafe : safe → Holds s (one v)) :
    Runs safe (s.vRele v) (fun s => Moved s₀ s (δ - one v) l) := by
  unfold Vnodes.vRele
  split_ifs with hv
  · refine .fail fun hs => ?_
    have := hsafe hs v
    rw [one_self, hv] at this
    omega
  · have hless : ((s.ref v - 1 : ℕ) - s.ref v : ℤ) = -1 := by omega
    exact .pure ((h.setRef _).cast (by rw [hless, Pi.single_neg, one, sub_eq_add_neg]))

theorem lockWait (h : Moved s₀ s δ l) (hlkf : lkf ≠ .none) (hsafe : safe → ready l lkf v) :
    Runs safe (s.lockWait v lkf) (fun s => ready l lkf v ∧ Moved s₀ s δ (held l lkf v)) := by
  rw [lockWait_eq hlkf, h.lock]
  split_ifs with hr
  · exact .pure ⟨hr, h.ref, rfl, h.mounts⟩
  · exact .fail fun hs => hr (hsafe hs)

theorem getWait (h : Moved s₀ s δ l) (hsafe : safe → ready l lkf v) : Runs safe (s.getWait v lkf)
      (fun s => ready l lkf v ∧ Moved s₀ s (δ + one v) (held l lkf v)) := by
  rw [getWait_eq, h.lock]
  split_ifs with hr
  · exact .pure ⟨hr, h.addRef.ref, rfl, h.mounts⟩
  · exact .fail fun hs => hr (hsafe hs)

theorem vopUnlock (h : Moved s₀ s δ (held l lkf v)) (hlkf : lkf ≠ .none) (hr : ready l lkf v) :
    Runs safe (s.vopUnlock v) (fun s => Moved s₀ s δ l) := by
  have hl : (l v).writer = false := by cases lkf <;> simp_all [ready]
  have hback : ∀ k, update (update l v k) v ⟨(l v).readers, false⟩ = l := by
    intro k
    rw [update_idem, ← hl]
    exact update_eq_self v l
  have hunlock : s.vopUnlock v = some { s with lock := l } := by
    cases lkf with
    | none => exact absurd rfl hlkf
    | read => simp [vopUnlock, unlock, h.lock, held, hl, setLock, hback]
    | write => simp [vopUnlock, unlock, h.lock, held, setLock, hback]
  rw [hunlock]
  exact .pure ⟨h.ref, rfl, h.mounts⟩

end Moved
end Cplant.Nexus
