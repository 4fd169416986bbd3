import Cplant.Nexus.Refs

/-!
# Looking up a name

`v_lookup` goes from a directory to the file of a name in it, down to the root of a file system
that is mounted there and, for `..`, up from the root of the file system.
-/
namespace Cplant.Nexus
open Function Option
open Foundations (Runs)

structure Fs (V : Type*) where
  root : V
  getattr : V → Except Errno ℕ
  readlink : V → Except Errno (List Char)
  lookup : V → Name → Except Errno V

variable {V : Type*} [DecidableEq V]

section Model
variable (fs : Fs V)

/-- `VOP_LOOKUP` with `RWLK_READ`: the lock on the directory is always dropped. -/
def vopLookup (s : Vnodes V) (dvp : V) (name : Name) : Option (Except Errno V × Vnodes V) :=
  match fs.lookup dvp name with
  | .error e => (s.vopUnlock dvp).map (fun s => (.error e, s))
  | .ok vp => do
    let s ← s.getWait vp .read
    (s.vopUnlock dvp).map (fun s => (.ok vp, s))

def climb : ℕ → Vnodes V → V → Bool → Option (V × Bool × Vnodes V)
  | 0, _, _, _ => none
  | fuel + 1, s, dvp, intermediate =>
    match s.mountpoint dvp with
    | none => some (dvp, intermediate, s)
    | some vp =>
      if vp = dvp then some (dvp, intermediate, s)
      else do
        let s ← if intermediate then s.vPut dvp else s.vopUnlock dvp
        let s ← s.getWait vp .read
        climb fuel s vp true

def descend : ℕ → Vnodes V → V → Option (V × Vnodes V)
  | 0, _, _ => none
  | fuel + 1, s, vp =>
    match s.cover vp with
    | none => some (vp, s)
    | some cvp => do
      let s ← s.vopUnlock vp
      let s ← s.getWait cvp .read
      let s ← s.vRele vp
      descend fuel s cvp

def relock (s : Vnodes V) (vp : V) (lkf : Rwty) : Option (Vnodes V) := do
  let s ← if lkf ≠ s.vopLkty vp then s.vopUnlock vp else some s
  if lkf = .write then s.lockWait vp lkf else some s

def lookupAt (fuel : ℕ) (s : Vnodes V) (dvp : V) (name : Name) (lkf : Rwty) :
    Option (Except Errno (Option V) × Vnodes V) := do
  match ← vopLookup fs s dvp name with
  | (.error e, s) => some (.error e, s)
  | (.ok vp, s) =>
    let (vp, s) ← descend fuel s vp
    (relock s vp lkf).map (fun s => (.ok (some vp), s))

/-- `v_lookup`. For `.` it returns with `*vpp` not set, which is `.ok none`. -/
def vLookup (fuel : ℕ) (s : Vnodes V) (dvp : V) (name : Name) (lkf : Rwty) :
    Option (Except Errno (Option V) × Vnodes V) :=
  if '/' ∈ name then (s.vopUnlock dvp).map (fun s => (.error .einval, s))
  else if s.vopLkty dvp = .none then none
  else if name = dot then do
    let s ← s.vopUnlock dvp
    (s.getWait dvp lkf).map (fun s => (.ok none, s))
  else
    (if name = dotdot then climb fuel s dvp false else some (dvp, false, s)).bind
      fun (dvp, intermediate, s) => do
        let (res, s) ← lookupAt fs fuel s dvp name lkf
        if intermediate then (s.vRele dvp).map (fun s => (res, s)) else some (res, s)

end Model
section Found
variable (m : Mounts V) (l : V → Rwlock)

def top : ℕ → V → Option V
  | 0, _ => none
  | fuel + 1, d =>
    match m.mountpoint d with
    | none => some d
    | some d' => if d' = d then some d else if ready l .read d' then top fuel d' else none

def bottom : ℕ → V → Option V
  | 0, _ => none
  | fuel + 1, v =>
    match m.cover v with
    | none => some v
    | some v' => if ready l .read v' then bottom fuel v' else none

def foundAt (fs : Fs V) (fuel : ℕ) (d : V) (name : Name) (lkf : Rwty) :
    Option (Except Errno V) :=
  match fs.lookup d name with
  | .error e => some (.error e)
  | .ok v =>
    if ready l .read v then do
      let w ← bottom m l fuel v
      if ready l lkf w then some (.ok w) else none
    else none

def found (fs : Fs V) (fuel : ℕ) (d : V) (name : Name) (lkf : Rwty) : Option (Except Errno V) :=
  (if name = dotdot then top m l fuel d else some d).bind fun d =>
    foundAt m l fs fuel d name lkf

variable {l} {fs : Fs V} {s₀ s : Vnodes V} {d v : V} {ε : V → ℤ} {name : Name} {fuel : ℕ}
  {lkf : Rwty} {safe : Prop}

theorem held_comm (v w : V) : held (held l .read v) .read w = held (held l .read w) .read v := by
  by_cases h : v = w
  · rw [h]
  · simp only [held, update_of_ne (Ne.symm h), update_of_ne h]
    exact update_comm h _ _ l

theorem ready_held (h : ready l .read v) : ready (held l .read d) .read v := by
  by_cases hv : v = d
  · subst hv
    simpa [ready, held] using h
  · simpa [ready, held, hv] using h

theorem ready_of_held (h : ready (held l .read d) .read v) : ready l .read v := by
  by_cases hv : v = d
  · subst hv
    simpa [ready, held] using h
  · simpa [ready, held, hv] using h

def Looked (s₀ : Vnodes V) (l : V → Rwlock) (ε : V → ℤ) (lkf : Rwty) (r : Option (Except Errno V))
    (p : Except Errno (Option V) × Vnodes V) : Prop :=
  (∃ e, p.1 = .error e ∧ r = some (.error e) ∧ Moved s₀ p.2 ε l) ∨
    ∃ v, p.1 = .ok (some v) ∧ r = some (.ok v) ∧ ready l lkf v ∧
      Moved s₀ p.2 (ε + one v) (held l lkf v)

theorem vopLookup_runs (h : Moved s₀ s ε (held l .read d)) (hd : ready l .read d)
    (hsafe : safe → ∀ v, fs.lookup d name = .ok v → ready l .read v) :
    Runs safe (vopLookup fs s d name) (fun p =>
      (∃ e, p.1 = .error e ∧ fs.lookup d name = .error e ∧ Moved s₀ p.2 ε l) ∨
        ∃ v, p.1 = .ok v ∧ fs.lookup d name = .ok v ∧ ready l .read v ∧
          Moved s₀ p.2 (ε + one v) (held l .read v)) := by
  unfold vopLookup
  cases hfs : fs.lookup d name with
  | error e =>
    exact (h.vopUnlock nofun hd).map fun s hs => .inl ⟨e, rfl, rfl, hs⟩
  | ok v =>
    refine (h.getWait fun hs => ready_held (hsafe hs v hfs)).bind fun s hs => ?_
    have hv := ready_of_held hs.1
    have hs' : Moved s₀ s (ε + one v) (held (held l .read v) .read d) := held_comm d v ▸ hs.2
    exact (hs'.vopUnlock nofun (ready_held hd)).map fun s hs => .inr ⟨v, rfl, rfl, hv, hs⟩

theorem descend_runs (hε : 0 ≤ ε) (h : Moved s₀ s (ε + one v) (held l .read v))
    (hv : ready l .read v) : Runs (bottom s₀.mounts l fuel v).isSome (descend fuel s v) (fun p =>
      bottom s₀.mounts l fuel v = some p.1 ∧ ready l .read p.1 ∧
        Moved s₀ p.2 (ε + one p.1) (held l .read p.1)) := by
  induction fuel generalizing s v with
  | zero => exact .fail (by simp [bottom])
  | succ fuel ih =>
    have hcover : s.cover = s₀.mounts.cover := congrArg Mounts.cover h.mounts
    rw [descend, bottom, hcover]
    cases s₀.mounts.cover v with
    | none => exact .pure ⟨rfl, hv, h⟩
    | some c =>
      dsimp only
      refine (h.vopUnlock nofun hv).bind fun s hs => ?_
      refine (hs.getWait fun hsafe => ?_).bind fun s ⟨hc, hs⟩ => ?_
      · by_contra hc
        simp [hc] at hsafe
      · have hle : one v ≤ ε + one v + one c :=
          le_add_of_le_of_nonneg (le_add_of_nonneg_left hε) (one_nonneg c)
        refine (hs.vRele fun _ => hs.holds.mono hle).bind fun s hs => ?_
        rw [if_pos hc]
        exact ih (hs.cast (by abel)) hc

theorem climb_runs (hε : 0 ≤ ε) (h : Moved s₀ s (ε + one d) (held l .read d))
    (hd : ready l .read d) : Runs (top s₀.mounts l fuel d).isSome (climb fuel s d true) (fun p =>
      top s₀.mounts l fuel d = some p.1 ∧ ready l .read p.1 ∧ p.2.1 = true ∧
        Moved s₀ p.2.2 (ε + one p.1) (held l .read p.1)) := by
  induction fuel generalizing s d with
  | zero => exact .fail (by simp [top])
  | succ fuel ih =>
    have hpoint : s.mountpoint = s₀.mounts.mountpoint := congrArg Mounts.mountpoint h.mounts
    rw [climb, top, hpoint]
    cases s₀.mounts.mountpoint d with
    | none => exact .pure ⟨rfl, hd, rfl, h⟩
    | some c =>
      dsimp only
      by_cases hcd : c = d
      · rw [if_pos hcd, if_pos hcd]
        exact .pure ⟨rfl, hd, rfl, h⟩
      rw [if_neg hcd, if_neg hcd, if_pos rfl]
      refine ((h.vopUnlock nofun hd).bind fun s hs => hs.vRele fun _ =>
        hs.holds.mono (le_add_of_nonneg_left hε)).bind fun s hs => ?_
      refine (hs.getWait fun hsafe => ?_).bind fun s ⟨hc, hs⟩ => ?_
      · by_contra hc
        simp [hc] at hsafe
      · rw [if_pos hc]
        exact ih (hs.cast (by abel)) hc

theorem climb_start (h : s₀.lock = held l .read d) (hd : ready l .read d) :
    Runs (top s₀.mounts l fuel d).isSome (climb fuel s₀ d false) (fun p =>
      top s₀.mounts l fuel d = some p.1 ∧ ready l .read p.1 ∧
        Moved s₀ p.2.2 (if p.2.1 then one p.1 else 0) (held l .read p.1)) := by
  have hm : Moved s₀ s₀ 0 (held l .read d) := h ▸ Moved.refl s₀
  cases fuel with
  | zero => exact .fail (by simp [top])
  | succ fuel =>
    have hpoint : s₀.mountpoint = s₀.mounts.mountpoint := rfl
    rw [climb, top, hpoint]
    cases s₀.mounts.mountpoint d with
    | none => exact .pure ⟨rfl, hd, hm⟩
    | some c =>
      dsimp only
      by_cases hcd : c = d
      · rw [if_pos hcd, if_pos hcd]
        exact .pure ⟨rfl, hd, hm⟩
      rw [if_neg hcd, if_neg hcd, if_neg Bool.false_ne_true]
      refine (hm.vopUnlock nofun hd).bind fun s hs => ?_
      refine (hs.getWait fun hsafe => ?_).bind fun s ⟨hc, hs⟩ => ?_
      · by_contra hc
        simp [hc] at hsafe
      · rw [if_pos hc]
        refine (climb_runs le_rfl hs hc).mono id fun p ⟨ht, hr, hp, hm⟩ => ⟨ht, hr, ?_⟩
        rw [if_pos hp, ← zero_add (one p.1)]
        exact hm

theorem relock_runs (h : Moved s₀ s ε (held l .read v)) (hv : ready l .read v)
    (hsafe : safe → ready l lkf v) :
    Runs safe (relock s v lkf) (fun s => ready l lkf v ∧ Moved s₀ s ε (held l lkf v)) := by
  have hstat : s.vopLkty v = .read := by
    have hl : (l v).writer = false := by simpa [ready] using hv
    simp [Vnodes.vopLkty, h.lock, held, Rwlock.lkstat, hl]
  unfold relock
  rw [hstat]
  cases lkf with
  | none => exact (h.vopUnlock (by decide) hv).bind fun s hs => .pure ⟨rfl, hs⟩
  | read => exact .pure ⟨hv, h⟩
  | write =>
    exact (h.vopUnlock (by decide) hv).bind fun s hs => hs.lockWait (by decide) hsafe

theorem lookupAt_runs (hε : 0 ≤ ε) (h : Moved s₀ s ε (held l .read d)) (hd : ready l .read d) :
    Runs (foundAt s₀.mounts l fs fuel d name lkf).isSome (lookupAt fs fuel s d name lkf)
      (Looked s₀ l ε lkf (foundAt s₀.mounts l fs fuel d name lkf)) := by
  unfold lookupAt foundAt
  refine (vopLookup_runs h hd fun hsafe v hv => ?_).bind fun ⟨res, s⟩ hs => ?_
  · by_contra hr
    simp [hv, hr] at hsafe
  rcases hs with ⟨e, rfl, hfs, hs⟩ | ⟨v, rfl, hfs, hv, hs⟩
  · rw [hfs]
    exact .pure (.inl ⟨e, rfl, rfl, hs⟩)
  rw [hfs]
  dsimp only
  rw [if_pos hv]
  refine ((descend_runs hε hs hv).mono (fun hsafe => ?_) fun _ => id).bind
    fun ⟨w, s⟩ ⟨hb, hw, hs⟩ => ?_
  · exact isSome_of_isSome_bind hsafe
  · rw [hb, bind_eq_bind, bind_some]
    refine (relock_runs hs hw fun hsafe => ?_).map fun s ⟨hr, hs⟩ => ?_
    · by_contra hr
      simp [hr] at hsafe
    · exact .inr ⟨w, rfl, if_pos hr, hr, hs⟩

theorem vLookup_runs (hname : '/' ∉ name) (hdot : name ≠ dot) (h : s₀.lock = held l .read d)
    (hd : ready l .read d) :
    Runs (found s₀.mounts l fs fuel d name lkf).isSome (vLookup fs fuel s₀ d name lkf)
      (Looked s₀ l 0 lkf (found s₀.mounts l fs fuel d name lkf)) := by
  have hlkty : s₀.vopLkty d ≠ .none := by
    have hl : (l d).writer = false := by simpa [ready] using hd
    simp [Vnodes.vopLkty, h, held, Rwlock.lkstat, hl]
  have hstart : Runs (if name = dotdot then top s₀.mounts l fuel d else some d).isSome
      (if name = dotdot then climb fuel s₀ d false else some (d, false, s₀)) (fun p =>
        (if name = dotdot then top s₀.mounts l fuel d else some d) = some p.1 ∧ ready l .read p.1 ∧
          Moved s₀ p.2.2 (if p.2.1 then one p.1 else 0) (held l .read p.1)) := by
    split_ifs
    · exact climb_start h hd
    · exact .pure ⟨rfl, hd, h ▸ Moved.refl s₀⟩
  rw [vLookup, if_neg hname, if_neg hlkty, if_neg hdot, found]
  refine (hstart.mono isSome_of_isSome_bind fun _ => id).bind fun p hp => ?_
  obtain ⟨d', b, s⟩ := p
  obtain ⟨ht, hd', hs⟩ := hp
  rw [ht, bind_some]
  cases b with
  | false =>
    refine (lookupAt_runs le_rfl hs hd').bind fun p hp => ?_
    exact .pure hp
  | true =>
    refine (lookupAt_runs (one_nonneg d') hs hd').bind fun p hp => ?_
    obtain ⟨res, s⟩ := p
    rcases hp with ⟨e, rfl, hr, hs⟩ | ⟨v, rfl, hr, hv, hs⟩
    · refine (hs.vRele fun _ => hs.holds).map fun s hs => .inl ⟨e, rfl, hr, hs.cast ?_⟩
      exact sub_self _
    · refine (hs.vRele fun _ => hs.holds.mono (le_add_of_nonneg_right (one_nonneg v))).map
        fun s hs => .inr ⟨v, rfl, hr, hv, hs.cast ?_⟩
      abel

/-- `v_lookup` returns, with the lock of the directory dropped. On success `*vpp` is a vnode with
one reference more and the lock asked for. -/
def KeepsContract (fs : Fs V) (s₀ : Vnodes V) (l : V → Rwlock) (d : V) (name : Name)
    (lkf : Rwty) : Prop :=
  ∃ fuel res s, vLookup fs fuel s₀ d name lkf = some (res, s) ∧
    ((∃ e, res = .error e ∧ Moved s₀ s 0 l) ∨
      ∃ v, res = .ok (some v) ∧ Moved s₀ s (one v) (held l lkf v))

theorem KeepsContract.name_ne_dot (hc : KeepsContract fs s₀ l d name lkf) : name ≠ dot := by
  rintro rfl
  obtain ⟨fuel, res, s, hres, hs⟩ := hc
  rw [vLookup, if_neg (by decide), if_pos rfl] at hres
  split_ifs at hres
  obtain ⟨s1, -, hres⟩ := bind_eq_some_iff.mp hres
  obtain ⟨s2, -, hres⟩ := map_eq_some_iff.mp hres
  obtain ⟨rfl, -⟩ := Prod.mk.inj hres
  simp at hs

theorem KeepsContract.isSome_found (hc : KeepsContract fs s₀ l d name lkf) (hname : '/' ∉ name)
    (h : s₀.lock = held l .read d) (hd : ready l .read d) :
    ∃ fuel, (found s₀.mounts l fs fuel d name lkf).isSome := by
  obtain ⟨fuel, res, s, hres, -⟩ := id hc
  refine ⟨fuel, ?_⟩
  rcases (vLookup_runs hname hc.name_ne_dot h hd).sound _ hres with ⟨e, -, hr, -⟩ | ⟨v, -, hr, -⟩
  · rw [hr, isSome_some]
  · rw [hr, isSome_some]

omit [DecidableEq V] in
theorem bottom_of_cover_self (h : m.cover v = some v) : bottom m l fuel v = none := by
  induction fuel with
  | zero => rfl
  | succ fuel ih => simp [bottom, h, ih]

/-- The contract is kept just if the name is not `.`, and it has a slash or the way up and the way
down end, at locks that can be had. -/
theorem keeps_contract_iff (fs : Fs V) (s₀ : Vnodes V) (l : V → Rwlock) (d : V) (name : Name)
    (lkf : Rwty) (h : s₀.lock = held l .read d) (hd : ready l .read d) :
    KeepsContract fs s₀ l d name lkf ↔ name ≠ dot ∧
      ('/' ∈ name ∨ ∃ fuel, (found s₀.mounts l fs fuel d name lkf).isSome) := by
  constructor
  · intro hc
    refine ⟨hc.name_ne_dot, ?_⟩
    by_cases hname : '/' ∈ name
    · exact .inl hname
    · exact .inr (hc.isSome_found hname h hd)
  · rintro ⟨hdot, hname⟩
    by_cases hslash : '/' ∈ name
    · have hm : Moved s₀ s₀ 0 (held l .read d) := h ▸ Moved.refl s₀
      obtain ⟨s, hs, hmoved⟩ := (hm.vopUnlock nofun hd).exists_of_safe trivial
      exact ⟨0, _, s, by rw [vLookup, if_pos hslash, hs]; rfl, .inl ⟨_, rfl, hmoved⟩⟩
    · obtain ⟨fuel, hfound⟩ := hname.resolve_left hslash
      obtain ⟨⟨res, s⟩, hres, hlooked⟩ :=
        (vLookup_runs hslash hdot h hd).exists_of_safe hfound
      rcases hlooked with ⟨e, rfl, -, hs⟩ | ⟨v, rfl, -, -, hs⟩
      · exact ⟨fuel, _, s, hres, .inl ⟨e, rfl, hs⟩⟩
      · exact ⟨fuel, _, s, hres, .inr ⟨v, rfl, hs.cast (zero_add _)⟩⟩

end Found

def rootHeld : Vnodes ℕ where
  ref v := if v = 0 then 1 else 0
  lock := held (fun _ => .free) .read 0
  cover v := if v = 0 then some 0 else none
  mountpoint v := if v = 0 then some 0 else none

def oneDir : Fs ℕ where
  root := 0
  getattr _ := .ok 0o40755
  readlink _ := .error .einval
  lookup d name := if name = dotdot then .ok d else if name = ['a'] then .ok 1 else .error .enoent

theorem keeps_contract_a : KeepsContract oneDir rootHeld (fun _ => .free) 0 ['a'] .read :=
  (keeps_contract_iff _ _ _ _ _ _ rfl rfl).mpr ⟨by decide, .inr ⟨1, by decide⟩⟩

theorem contract_broken_at_root :
    ¬ KeepsContract oneDir rootHeld (fun _ => .free) 0 dotdot .read ∧
      ¬ KeepsContract oneDir rootHeld (fun _ => .free) 0 dot .read := by
  refine ⟨fun hc => ?_, fun hc => hc.name_ne_dot rfl⟩
  obtain ⟨fuel, hfuel⟩ := hc.isSome_found (by decide) rfl rfl
  have hbottom : bottom rootHeld.mounts (fun _ => .free) fuel 0 = none := bottom_of_cover_self _ rfl
  cases fuel with
  | zero => cases hfuel
  | succ fuel =>
    simp [found, top, foundAt, oneDir, rootHeld, Vnodes.mounts, ready, Rwlock.free] at hfuel hbottom
    simp [hbottom] at hfuel

end Cplant.Nexus
