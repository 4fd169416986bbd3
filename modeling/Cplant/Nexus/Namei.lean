import Cplant.Nexus.Lookup

/-!
# Path names

`namei` walks from a directory along a path. It holds a reference on the directory it has come
from and one on the file it has come to, which is locked; a symbolic link on the way is followed
by another such walk.
-/
namespace Cplant.Nexus
open List Option Moved
open Foundations (Runs)

def zMaxnamlen : ℕ := 255

def zMaxsymlinks : ℕ := 255

/-- `VS_ISLNK`, which is also true of regular files. -/
def vsIslnk (mode : ℕ) : Bool := mode &&& 0o120000 != 0

def vsIsdir (mode : ℕ) : Bool := mode &&& 0o040000 != 0

def isAbsolute (path : List Char) : Bool := path.head? == some '/'

def component (path : List Char) : Name :=
  ((path.dropWhile (· == '/')).takeWhile (· != '/')).take zMaxnamlen

def behind (path : List Char) : List Char :=
  (path.dropWhile (· == '/')).drop (component path).length

inductive Stop (V : Type*)
  | found (dvp vp : V)
  | failed (dvp vp : V) (err : Errno)
  | missing (dvp : V) (err : Errno)

abbrev Loop (V : Type*) := Vnodes V → List Char → V → V → Option (Stop V × Vnodes V)

variable {V : Type*} [DecidableEq V]

section Model
variable (fs : Fs V)

def startOf (path : List Char) (dir : V) : V := if isAbsolute path then fs.root else dir

/-- `inamei` up to the loop. The root is referenced twice, the directory of the caller once. -/
def begin (s : Vnodes V) (path : List Char) (dir : V) : Option (Vnodes V) :=
  (if isAbsolute path then s.getWait fs.root .none else some s).bind fun s => do
    let s ← s.vRef (startOf fs path dir)
    s.lockWait (startOf fs path dir) .read

def finish (wantparent : Bool) (lkf : Rwty) (s : Vnodes V) :
    Stop V → Option (Except Errno (V × V) × Vnodes V)
  | .found dvp vp =>
    (if wantparent then some s else s.vRele dvp).bind fun s =>
      if lkf = .read then some (.ok (dvp, vp), s)
      else do
        let s ← s.vopUnlock vp
        let s ← if lkf = .write then s.lockWait vp lkf else some s
        some (.ok (dvp, vp), s)
  | .failed dvp vp err => do
    let s ← s.vRele dvp
    let s ← s.vopUnlock vp
    (s.vRele vp).map (fun s => (.error err, s))
  | .missing dvp err => (s.vRele dvp).map (fun s => (.error err, s))

def inameiWith (loop : Loop V) (wantparent : Bool) (lkf : Rwty) (s : Vnodes V)
    (path : List Char) (dir : V) :
    Option (Except Errno (V × V) × Vnodes V) := do
  let s ← begin fs s path dir
  let (stop, s) ← loop s path (startOf fs path dir) (startOf fs path dir)
  finish wantparent lkf s stop

def target (depth : ℕ) (vp : V) : Except Errno (List Char) :=
  if zMaxsymlinks < depth + 1 then .error .eloop else fs.readlink vp

def followSymlink (inner : Loop V) (depth : ℕ) (s : Vnodes V) (dvp vp : V) :
    Option (Except Errno (V × V) × Vnodes V) := do
  let s ← s.vopUnlock vp
  match target fs depth vp with
  | .error err => some (.error err, s)
  | .ok path => inameiWith fs inner true .read s path dvp

def follow (inner loop : Loop V) (depth : ℕ) : Loop V := fun s path dvp vp => do
  let (res, s) ← followSymlink fs inner depth s dvp vp
  let s ← s.vRele dvp
  let s ← s.vRele vp
  match res with
  | .error err => some (.missing dvp err, s)
  | .ok (dvp, vp) => loop s path dvp vp

def enter (loop : Loop V) (fuel : ℕ) : Loop V := fun s path dvp vp => do
  let s ← s.vRele dvp
  if component path = dot then
    let s ← s.vRef vp
    loop s (behind path) vp vp
  else match ← vLookup fs fuel s vp (component path) .read with
    | (.error err, s) => some (.missing vp err, s)
    | (.ok none, _) => none
    | (.ok (some v), s) => loop s (behind path) vp v

def walk : ℕ → ℕ → Bool → Loop V
  | 0, _, _, _, _, _, _ => none
  | fuel + 1, depth, nofollow, s, path, dvp, vp =>
    if path = [] then some (.found dvp vp, s)
    else match fs.getattr vp with
    | .error err => some (.failed dvp vp err, s)
    | .ok mode =>
      if !nofollow && vsIslnk mode then
        follow fs (walk fuel (depth + 1) false) (walk fuel depth nofollow) depth s path dvp vp
      else if component path = [] then some (.found dvp vp, s)
      else if zMaxnamlen ≤ (component path).length then some (.failed dvp vp .enametoolong, s)
      else if !vsIsdir mode then some (.failed dvp vp .enotdir, s)
      else enter fs (walk fuel depth nofollow) fuel s path dvp vp

def namei (fuel : ℕ) (nofollow wantparent : Bool) (lkf : Rwty) (s : Vnodes V) (path : List Char)
    (dir : V) : Option (Except Errno (V × V) × Vnodes V) :=
  inameiWith fs (walk fs fuel 0 nofollow) wantparent lkf s path dir

end Model
section Resolve

structure Link (V : Type*) where
  dir : V
  relative : Bool
  resolved : Bool

def Link.isClean (f : Link V) : Bool := !f.relative && f.resolved

def Link.cost (f : Link V) : V → ℤ :=
  (if f.relative then one f.dir else 0) + if f.resolved then 0 else one f.dir

def cost (links : List (Link V)) : V → ℤ := (links.map Link.cost).sum

variable (fs : Fs V) (m : Mounts V) (l : V → Rwlock)

abbrev Resolution (V : Type*) := Except Errno (V × V) × List (Link V)

abbrev Path (V : Type*) := List Char → V → V → Option (Resolution V)

def resolveWith (loop : Path V) (path : List Char) (dir : V) : Option (Resolution V) :=
  if ready l .read (startOf fs path dir) then
    loop path (startOf fs path dir) (startOf fs path dir)
  else none

def resolveLink (inner loop : Path V) (depth : ℕ) : Path V := fun path dvp vp =>
  match target fs depth vp with
  | .error err => some (.error err, [⟨dvp, false, false⟩])
  | .ok path' => do
    match ← resolveWith fs l inner path' dvp with
    | (.error err, links) => some (.error err, links ++ [⟨dvp, !isAbsolute path', false⟩])
    | (.ok (d, v), links) =>
      (loop path d v).map (fun r => (r.1, links ++ ⟨dvp, !isAbsolute path', true⟩ :: r.2))

def resolveIn (loop : Path V) (fuel : ℕ) : Path V := fun path _ vp =>
  if component path = dot then loop (behind path) vp vp
  else do
    match ← found m l fs fuel vp (component path) .read with
    | .error err => some (.error err, [])
    | .ok v => loop (behind path) vp v

def resolve : ℕ → ℕ → Bool → Path V
  | 0, _, _, _, _, _ => none
  | fuel + 1, depth, nofollow, path, dvp, vp =>
    if path = [] then some (.ok (dvp, vp), [])
    else match fs.getattr vp with
    | .error err => some (.error err, [])
    | .ok mode =>
      if !nofollow && vsIslnk mode then
        resolveLink fs l (resolve fuel (depth + 1) false) (resolve fuel depth nofollow) depth path
          dvp vp
      else if component path = [] then some (.ok (dvp, vp), [])
      else if zMaxnamlen ≤ (component path).length then some (.error .enametoolong, [])
      else if !vsIsdir mode then some (.error .enotdir, [])
      else resolveIn fs m l (resolve fuel depth nofollow) fuel path dvp vp

end Resolve
section Balance
variable {fs : Fs V} {m : Mounts V} {l k : V → Rwlock} {s s1 s' : Vnodes V} {path : List Char}
  {dir dvp vp : V} {ε δ : V → ℤ} {links more : List (Link V)} {wantparent : Bool} {lkf : Rwty}
  {stop : Stop V} {safe : Prop} {loop : Loop V} {loopR : Path V} {res : Except Errno (V × V)}
  {r : Option (Resolution V)}

theorem Link.cost_nonneg (f : Link V) : 0 ≤ f.cost := by
  unfold Link.cost
  split_ifs
  · exact add_nonneg (one_nonneg _) le_rfl
  · exact add_nonneg (one_nonneg _) (one_nonneg _)
  · exact add_nonneg le_rfl le_rfl
  · exact add_nonneg le_rfl (one_nonneg _)

theorem cost_append (links more : List (Link V)) :
    cost (links ++ more) = cost links + cost more := by
  simp [cost]

theorem cost_cons (f : Link V) (more : List (Link V)) : cost (f :: more) = f.cost + cost more := by
  simp [cost]

theorem cost_nonneg (links : List (Link V)) : 0 ≤ cost links := by
  induction links with
  | nil => exact le_rfl
  | cons f links ih =>
    exact add_nonneg f.cost_nonneg ih

theorem Link.isClean_of_cost {f : Link V} (h : f.cost = 0) : f.isClean = true := by
  have hdir := congrFun h f.dir
  cases hr : f.relative <;> cases hs : f.resolved <;>
    simp [Link.isClean, Link.cost, hr, hs, one_self] at hdir ⊢

theorem isClean_of_cost (h : cost links = 0) : ∀ f ∈ links, f.isClean = true := by
  induction links with
  | nil => simp
  | cons f links ih =>
    have hboth := (add_eq_zero_iff_of_nonneg f.cost_nonneg (cost_nonneg links)).mp h
    exact forall_mem_cons.mpr ⟨f.isClean_of_cost hboth.1, ih hboth.2⟩

def Clean (r : Option (Resolution V)) : Prop :=
  ∃ res links, r = some (res, links) ∧ ∀ f ∈ links, Link.isClean f = true

def Lockable (l : V → Rwlock) (lkf : Rwty) (r : Option (Resolution V)) : Prop :=
  lkf = .write → ∀ d v links, r = some (.ok (d, v), links) → ready l lkf v

def Stop.result : Stop V → Except Errno (V × V)
  | .found dvp vp => .ok (dvp, vp)
  | .failed _ _ err | .missing _ err => .error err

def Stop.Left (l : V → Rwlock) (s : Vnodes V) (ε : V → ℤ) (s' : Vnodes V) : Stop V → Prop
  | .found dvp vp | .failed dvp vp _ =>
    ready l .read vp ∧ Moved s s' (ε + one dvp + one vp) (held l .read vp)
  | .missing dvp _ => Moved s s' (ε + one dvp) l

theorem Stop.Left.after (h : stop.Left l s1 ε s') (hm : Moved s s1 δ k) :
    stop.Left l s (δ + ε) s' := by
  cases stop with
  | found d v | failed d v e => exact ⟨h.1, (hm.trans h.2).cast (by abel)⟩
  | missing d e => exact (hm.trans h).cast (by abel)

def Left (l : V → Rwlock) (wantparent : Bool) (lkf : Rwty) (s : Vnodes V) (ε : V → ℤ)
    (s' : Vnodes V) : Except Errno (V × V) → Prop
  | .ok (d, v) => ready l lkf v ∧
      Moved s s' (ε + (if wantparent then one d else 0) + one v) (held l lkf v)
  | .error _ => Moved s s' ε l

theorem begin_runs (hs : s.lock = l)
    (hsafe : safe → isAbsolute path = true ∧ ready l .read (startOf fs path dir)) :
    Runs safe (begin fs s path dir) (fun s' => ready l .read (startOf fs path dir) ∧
      Moved s s' (one (startOf fs path dir) + one (startOf fs path dir) -
        if isAbsolute path then 0 else one dir) (held l .read (startOf fs path dir))) := by
  have hm : Moved s s 0 l := hs ▸ refl s
  unfold begin startOf
  cases hp : isAbsolute path with
  | true =>
    simp only [startOf, hp, if_true] at hsafe ⊢
    refine (hm.getWait fun _ => rfl).bind fun s hs => ?_
    replace hs := hs.2
    refine (hs.vRef fun _ => hs.holds.mono (le_add_of_nonneg_left le_rfl)).bind fun s hs => ?_
    exact (hs.lockWait (by decide) fun h => (hsafe h).2).mono id fun s hs =>
      ⟨hs.1, hs.2.cast (by abel)⟩
  | false =>
    simp only [hp, Bool.false_eq_true, false_and, if_false, imp_false] at hsafe ⊢
    refine (hm.vRef fun h => absurd h hsafe).bind fun s hs => ?_
    exact (hs.lockWait (by decide) fun h => absurd h hsafe).mono id fun s hs =>
      ⟨hs.1, hs.2.cast (by abel)⟩

theorem finish_runs (h : stop.Left l s ε s1) (hε : safe → 0 ≤ ε)
    (hsafe : safe → lkf = .write → ∀ d v, stop.result = .ok (d, v) → ready l lkf v) :
    Runs safe (finish wantparent lkf s1 stop)
      (fun p => p.1 = stop.result ∧ Left l wantparent lkf s ε p.2 p.1) := by
  cases stop with
  | found d v =>
    obtain ⟨hv, hm⟩ := h
    have hrele : Runs safe (if wantparent then some s1 else s1.vRele d) (fun s' =>
        Moved s s' (ε + (if wantparent then one d else 0) + one v) (held l .read v)) := by
      cases wantparent with
      | true => exact .pure hm
      | false =>
        refine (hm.vRele fun h => hm.holds.mono ?_).mono id fun s' hs => hs.cast ?_
        · exact le_add_of_le_of_nonneg (le_add_of_nonneg_left (hε h)) (one_nonneg v)
        · simp only [Bool.false_eq_true, if_false]
          abel
    refine hrele.bind fun s' hs => ?_
    cases lkf with
    | read => exact .pure ⟨rfl, hv, hs⟩
    | none => exact (hs.vopUnlock (by decide) hv).bind fun s' hs => .pure ⟨rfl, rfl, hs⟩
    | write =>
      refine (hs.vopUnlock (by decide) hv).bind fun s' hs => ?_
      refine (hs.lockWait (by decide) fun h => hsafe h rfl d v rfl).bind fun s' hs => ?_
      exact .pure ⟨rfl, hs⟩
  | failed d v e =>
    obtain ⟨hv, hm⟩ := h
    refine (hm.vRele fun h => hm.holds.mono ?_).bind fun s' hs => ?_
    · exact le_add_of_le_of_nonneg (le_add_of_nonneg_left (hε h)) (one_nonneg v)
    · have hs' : Moved s s' (ε + one v) (held l .read v) := hs.cast (by abel)
      refine (hs'.vopUnlock (by decide) hv).bind fun s' hs => ?_
      refine (hs.vRele fun h => hs.holds.mono (le_add_of_nonneg_left (hε h))).map fun s' hs => ?_
      exact ⟨rfl, hs.cast (by abel)⟩
  | missing d e =>
    exact (h.vRele fun hs => h.holds.mono (le_add_of_nonneg_left (hε hs))).map
      fun s' hs => ⟨rfl, hs.cast (by abel)⟩

theorem cost_eq_zero (h : ∀ f ∈ links, Link.isClean f = true) : cost links = 0 := by
  induction links with
  | nil => rfl
  | cons f links ih =>
    obtain ⟨hf, hlinks⟩ := forall_mem_cons.mp h
    have hzero : f.cost = 0 := by
      obtain ⟨hr, hs⟩ : f.relative = false ∧ f.resolved = true := by simpa [Link.isClean] using hf
      simp [Link.cost, hr, hs]
    rw [cost_cons, hzero, ih hlinks, add_zero]

def Leads (l : V → Rwlock) (s : Vnodes V) (dvp vp : V) (r : Option (Resolution V))
    (p : Option (Stop V × Vnodes V)) : Prop :=
  Runs (Holds s (one dvp + one vp) ∧ Clean r) p (fun p => ∃ links,
    r = some (p.1.result, links) ∧ p.1.Left l s (-one dvp - one vp - cost links) p.2)

def Walks (m : Mounts V) (l : V → Rwlock) (loop : Loop V) (path : Path V) : Prop :=
  ∀ s p dvp vp, s.mounts = m → s.lock = held l .read vp → ready l .read vp →
    Leads l s dvp vp (path p dvp vp) (loop s p dvp vp)

theorem inameiWith_runs (hloop : Walks m l loop loopR) (hm : s.mounts = m) (hs : s.lock = l) :
    Runs (isAbsolute path = true ∧ Clean (resolveWith fs l loopR path dir) ∧
        Lockable l lkf (resolveWith fs l loopR path dir))
      (inameiWith fs loop wantparent lkf s path dir) (fun p => ∃ links,
        resolveWith fs l loopR path dir = some (p.1, links) ∧ Left l wantparent lkf s
          (-(if isAbsolute path then 0 else one dir) - cost links) p.2 p.1) := by
  unfold inameiWith resolveWith
  set v := startOf fs path dir with hv
  refine (begin_runs hs ?_).bind fun s1 hbegun => ?_
  · rintro ⟨hp, ⟨res, links, hr, -⟩, -⟩
    exact ⟨hp, (ite_none_right_eq_some.mp hr).1⟩
  obtain ⟨hready, hs1⟩ := hbegun
  rw [← hv] at hready hs1
  rw [if_pos hready]
  have hwalk := hloop s1 path v v (hs1.mounts.trans hm) hs1.lock hready
  refine (hwalk.mono ?_ fun _ => id).bind fun walked hwalked => ?_
  · rintro ⟨hp, hclean, -⟩
    exact ⟨by simpa [hp] using hs1.holds, hclean⟩
  obtain ⟨stop, s2⟩ := walked
  obtain ⟨links, hr, hleft⟩ := hwalked
  refine (finish_runs (hleft.after hs1) ?_ ?_).mono id fun p hp => ?_
  · rintro ⟨hp, ⟨res, links', hr', hclean⟩, -⟩
    rw [hr] at hr'
    obtain ⟨-, rfl⟩ := Prod.mk.inj (some.inj hr')
    simp [hp, cost_eq_zero hclean]
  · rintro ⟨-, -, hlockable⟩ hlkf d v hres
    exact hlockable hlkf d v links (by rw [hr, hres])
  · obtain ⟨hres, hl⟩ := hp
    refine ⟨links, by rw [hr, ← hres], ?_⟩
    have hε : one v + one v - (if isAbsolute path then 0 else one dir) +
        (-one v - one v - cost links) =
          -(if isAbsolute path then 0 else one dir) - cost links := by abel
    rwa [hε] at hl

theorem Leads.stay (h : stop.Left l s (-one dvp - one vp) s) :
    Leads l s dvp vp (some (stop.result, [])) (some (stop, s)) :=
  .pure ⟨[], rfl, by simpa [cost] using h⟩

theorem Clean.pre {pre : List (Link V)}
    (h : Clean (r.map fun x => (x.1, pre ++ x.2))) : cost pre = 0 ∧ Clean r := by
  obtain ⟨res, links, hr, hclean⟩ := h
  obtain ⟨⟨res', more⟩, hr', heq⟩ := map_eq_some_iff.mp hr
  obtain ⟨rfl, rfl⟩ := Prod.mk.inj heq
  obtain ⟨hpre, hmore⟩ := forall_mem_append.mp hclean
  exact ⟨cost_eq_zero hpre, res', more, hr', hmore⟩

theorem Leads.after {p : Option (Stop V × Vnodes V)} {d v : V}
    {pre : List (Link V)} (h : Leads l s1 d v r p)
    (hm : Moved s s1 (one d + one v - one dvp - one vp - cost pre) k) :
    Leads l s dvp vp (r.map fun x => (x.1, pre ++ x.2)) p := by
  refine Runs.mono h (fun ⟨hh, hclean⟩ => ?_) fun ⟨stop, s'⟩ ⟨links, hr, hleft⟩ => ?_
  · obtain ⟨hpre, hr⟩ := hclean.pre
    rw [hpre] at hm
    exact ⟨(hh.moved hm).mono (le_of_eq (by abel)), hr⟩
  · refine ⟨pre ++ links, by rw [hr]; rfl, ?_⟩
    have hε : one d + one v - one dvp - one vp - cost pre + (-one d - one v - cost links) =
        -one dvp - one vp - cost (pre ++ links) := by
      rw [cost_append]
      abel
    exact hε ▸ hleft.after hm

theorem Left.after (hm : Moved s s1 0 k)
    (h : Left l wantparent lkf s1 ε s' res) : Left l wantparent lkf s ε s' res := by
  cases res with
  | error e => exact (hm.trans h).cast (zero_add _)
  | ok p => exact ⟨h.1, (hm.trans h.2).cast (zero_add _)⟩

section
variable {inner : Loop V} {innerR : Path V} {depth : ℕ} (hinner : Walks m l inner innerR)
include hinner

theorem followSymlink_runs (hm : s.mounts = m) (hs : s.lock = held l .read vp)
    (hvp : ready l .read vp)
    (hsafe : safe → ∀ p, target fs depth vp = .ok p →
      isAbsolute p = true ∧ Clean (resolveWith fs l innerR p dvp)) :
    Runs safe (followSymlink fs inner depth s dvp vp) (fun p => ∃ links relative,
      (∀ loopR path, resolveLink fs l innerR loopR depth path dvp vp =
        match p.1 with
        | .error err => some (.error err, links ++ [⟨dvp, relative, false⟩])
        | .ok (d, v) => (loopR path d v).map fun x =>
            (x.1, (links ++ [⟨dvp, relative, true⟩]) ++ x.2)) ∧
      Left l true .read s (-(if relative then one dvp else 0) - cost links) p.2 p.1) := by
  have hself : Moved s s 0 (held l .read vp) := hs ▸ refl s
  refine (hself.vopUnlock (by decide) hvp).bind fun s1 hs1 => ?_
  cases ht : target fs depth vp with
  | error e =>
    refine .pure ⟨[], false, fun loopR path => by simp [resolveLink, ht], ?_⟩
    exact hs1.cast (by simp [cost])
  | ok p =>
    refine (inameiWith_runs hinner (hs1.mounts.trans hm) hs1.lock).mono (fun h => ?_)
      fun ⟨res, s2⟩ ⟨links, hr, hleft⟩ => ⟨links, !isAbsolute p, fun loopR path => ?_, ?_⟩
    · exact ⟨(hsafe h p ht).1, (hsafe h p ht).2, nofun⟩
    · cases res with
      | error e | ok q => simp [resolveLink, ht, hr]
    · have hrel : (if (!isAbsolute p) = true then one dvp else 0) =
          if isAbsolute p = true then 0 else one dvp := by
        cases isAbsolute p <;> rfl
      exact hrel ▸ hleft.after hs1

theorem Leads.follow (hloop : Walks m l loop loopR) (hm : s.mounts = m)
    (hs : s.lock = held l .read vp) (hvp : ready l .read vp) :
    Leads l s dvp vp (resolveLink fs l innerR loopR depth path dvp vp)
      (follow fs inner loop depth s path dvp vp) := by
  refine (followSymlink_runs hinner hm hs hvp ?_).bind fun ⟨res, s1⟩ ⟨links, rel, hres, hleft⟩ => ?_
  · rintro ⟨-, res, links, hr, hclean⟩ p hp
    rw [resolveLink, hp] at hr
    obtain ⟨⟨res1, links1⟩, hr1, hr⟩ := bind_eq_some_iff.mp hr
    have hall : ∀ f ∈ links1 ++ [⟨dvp, !isAbsolute p, res1.toBool⟩], Link.isClean f = true := by
      cases res1 with
      | error e =>
        cases hr
        exact hclean
      | ok q =>
        obtain ⟨r, -, heq⟩ := map_eq_some_iff.mp hr
        cases heq
        exact fun f hf => hclean f (by simp at hf ⊢; tauto)
    obtain ⟨hlinks, hlast⟩ := forall_mem_append.mp hall
    have hlast := forall_mem_singleton.mp hlast
    exact ⟨by simp [Link.isClean] at hlast; exact hlast.1, res1, links1, hr1, hlinks⟩
  · cases res with
    | error e =>
      have hunsafe : ¬ Clean (resolveLink fs l innerR loopR depth path dvp vp) := by
        rw [hres]
        rintro ⟨res, links', hr, hclean⟩
        obtain ⟨-, rfl⟩ := Prod.mk.inj (some.inj hr)
        have hlast := hclean ⟨dvp, rel, false⟩ (by simp)
        simp [Link.isClean] at hlast
      refine (vRele hleft fun h => absurd h.2 hunsafe).bind fun s2 hs2 => ?_
      refine (hs2.vRele fun h => absurd h.2 hunsafe).bind fun s3 hs3 => ?_
      refine .pure ⟨_, hres _ _, hs3.cast ?_⟩
      simp only [cost, map_append, map_cons, map_nil, sum_append, sum_cons,
        sum_nil, Link.cost, Bool.false_eq_true, if_false]
      abel
    | ok q =>
      obtain ⟨d, v⟩ := q
      have hpre : cost (links ++ [⟨dvp, rel, true⟩]) = cost links + if rel then one dvp else 0 := by
        simp [cost, Link.cost]
      have hs1 : Moved s s1 (one d + one v - cost (links ++ [⟨dvp, rel, true⟩])) (held l .read v) :=
        hleft.2.cast (by rw [hpre, if_pos rfl]; abel)
      rw [hres]
      have hholds : Holds s (one dvp + one vp) ∧ Clean ((loopR path d v).map fun x =>
          (x.1, links ++ [⟨dvp, rel, true⟩] ++ x.2)) → Holds s1 (one dvp + one vp) := by
        rintro ⟨hh, hclean⟩
        rw [hclean.pre.1, sub_zero] at hs1
        exact (hh.moved hs1).mono
          (le_add_of_nonneg_right (add_nonneg (one_nonneg d) (one_nonneg v)))
      refine ((refl s1).vRele fun h => (hholds h).mono ?_).bind fun s2 hs2 => ?_
      · exact le_add_of_nonneg_right (one_nonneg vp)
      refine (hs2.vRele fun h => ((hholds h).moved hs2).mono (le_of_eq (by abel))).bind
        fun s3 hs3 => ?_
      have hs := hs1.trans hs3
      rw [hs1.lock] at hs
      exact (hloop s3 path d v (hs.mounts.trans hm) hs.lock hleft.1).after (hs.cast (by abel))

end

theorem not_slash_mem_component (path : List Char) : '/' ∉ component path := by
  intro h
  simpa using mem_takeWhile_imp (mem_of_mem_take h)

theorem Leads.enter {fuel : ℕ} (hloop : Walks m l loop loopR) (hm : s.mounts = m)
    (hs : s.lock = held l .read vp) (hvp : ready l .read vp) :
    Leads l s dvp vp (resolveIn fs m l loopR fuel path dvp vp)
      (enter fs loop fuel s path dvp vp) := by
  have hself : Moved s s 0 (held l .read vp) := hs ▸ refl s
  have hgo : ∀ {s1 v}, Moved s s1 (-one dvp + one v) (held l .read v) → ready l .read v →
      Leads l s dvp vp (loopR (behind path) vp v) (loop s1 (behind path) vp v) := by
    intro s1 v hs1 hv
    have hlead := hloop s1 (behind path) vp v (hs1.mounts.trans hm) hs1.lock hv
    have hnil : cost ([] : List (Link V)) = 0 := rfl
    have hmoved : Moved s s1 (one vp + one v - one dvp - one vp - cost []) (held l .read v) :=
      hs1.cast (by rw [hnil]; abel)
    simpa using hlead.after hmoved
  refine (hself.vRele fun h => h.1.mono (le_add_of_nonneg_right (one_nonneg vp))).bind
    fun s1 hs1 => ?_
  by_cases hdot : component path = dot
  · have hres : resolveIn fs m l loopR fuel path dvp vp = loopR (behind path) vp vp := if_pos hdot
    rw [if_pos hdot, hres]
    refine (hs1.vRef fun h => (h.1.moved hs1).mono (le_of_eq (by abel))).bind fun s2 hs2 => ?_
    exact hgo (hs2.cast (by abel)) hvp
  · rw [if_neg hdot]
    have hlook : Runs _ (vLookup fs fuel s1 vp (component path) .read) _ :=
      vLookup_runs (not_slash_mem_component path) hdot hs1.lock hvp
    rw [hs1.mounts, hm] at hlook
    refine (hlook.mono ?_ fun _ => id).bind fun ⟨res, s2⟩ hp => ?_
    · rintro ⟨-, res, links, hr, -⟩
      rw [resolveIn, if_neg hdot] at hr
      exact isSome_of_isSome_bind (isSome_iff_exists.mpr ⟨_, hr⟩)
    rcases hp with ⟨e, rfl, hr, hs2⟩ | ⟨v, rfl, hr, hv, hs2⟩
    · have hres : resolveIn fs m l loopR fuel path dvp vp = some (.error e, []) := by
        simp [resolveIn, hdot, hr]
      rw [hres]
      refine .pure ⟨[], rfl, (hs1.trans hs2).cast ?_⟩
      simp only [cost, map_nil, sum_nil]
      abel
    · have hres : resolveIn fs m l loopR fuel path dvp vp = loopR (behind path) vp v := by
        simp [resolveIn, hdot, hr]
      rw [hres]
      exact hgo ((hs1.trans hs2).cast (by abel)) hv

theorem walks (fuel depth : ℕ) (nofollow : Bool) :
    Walks m l (walk fs fuel depth nofollow) (resolve fs m l fuel depth nofollow) := by
  induction fuel generalizing depth nofollow with
  | zero =>
    intro s path dvp vp _ _ _
    exact .fail fun ⟨_, hclean⟩ => by simp [Clean, resolve] at hclean
  | succ fuel ih =>
    intro s path dvp vp hm hs hvp
    have hself : Moved s s (-one dvp - one vp + one dvp + one vp) (held l .read vp) :=
      (hs ▸ refl s).cast (by abel)
    have hfound : (Stop.found dvp vp).Left l s (-one dvp - one vp) s := ⟨hvp, hself⟩
    have hfailed : ∀ e, (Stop.failed dvp vp e).Left l s (-one dvp - one vp) s :=
      fun _ => ⟨hvp, hself⟩
    unfold walk resolve
    by_cases hpath : path = []
    · rw [if_pos hpath, if_pos hpath]
      exact .stay hfound
    rw [if_neg hpath, if_neg hpath]
    cases fs.getattr vp with
    | error e => exact .stay (hfailed e)
    | ok mode =>
      dsimp only
      split_ifs
      · exact .follow (ih _ _) (ih _ _) hm hs hvp
      · exact .stay hfound
      · exact .stay (hfailed _)
      · exact .stay (hfailed _)
      · exact .enter (ih _ _) hm hs hvp

/-- `namei` returns, and all that it leaves behind are a reference on the file and the lock that
was asked for and, with `ND_WANTPARENT`, a reference on the directory. -/
def Neutral (fs : Fs V) (nofollow wantparent : Bool) (lkf : Rwty) (s : Vnodes V) (path : List Char)
    (dir : V) : Prop :=
  ∃ fuel res s', namei fs fuel nofollow wantparent lkf s path dir = some (res, s') ∧
    Left s.lock wantparent lkf s 0 s' res

omit [DecidableEq V] in
theorem Moved.unique (h : Moved s s' ε l) (h' : Moved s s' δ k) : ε = δ := by
  funext v
  have hv := h.ref v
  have hv' := h'.ref v
  omega

theorem Left.unique (h : Left l wantparent lkf s ε s' res)
    (h' : Left l wantparent lkf s δ s' res) : ε = δ := by
  cases res with
  | error e => exact Moved.unique h h'
  | ok p => exact add_right_cancel (add_right_cancel (h.2.unique h'.2))

theorem Neutral.resolves {nofollow : Bool} (h : Neutral fs nofollow wantparent lkf s path dir) :
    isAbsolute path = true ∧ ∃ fuel,
      let r := resolveWith fs s.lock (resolve fs s.mounts s.lock fuel 0 nofollow) path dir
      Clean r ∧ Lockable s.lock lkf r := by
  obtain ⟨fuel, res, s', hnamei, hleft⟩ := h
  obtain ⟨links, hr, hleft'⟩ :=
    (inameiWith_runs (walks fuel 0 nofollow) rfl rfl).sound (res, s') hnamei
  have hzero := hleft'.unique hleft
  have hsum : (if isAbsolute path then 0 else one dir) + cost links = 0 :=
    neg_eq_zero.mp ((neg_add' _ _).trans hzero)
  have hstart : 0 ≤ (if isAbsolute path then 0 else one dir : V → ℤ) := by
    split_ifs
    · exact le_rfl
    · exact one_nonneg dir
  obtain ⟨hrel, hcost⟩ := (add_eq_zero_iff_of_nonneg hstart (cost_nonneg links)).mp hsum
  refine ⟨?_, fuel, ⟨res, links, hr, isClean_of_cost hcost⟩, ?_⟩
  · by_contra hp
    rw [if_neg hp] at hrel
    have hdir := congrFun hrel dir
    rw [one_self] at hdir
    exact absurd hdir one_ne_zero
  · intro hlkf d v links' hr'
    rw [hr] at hr'
    obtain ⟨rfl, -⟩ := Prod.mk.inj (some.inj hr')
    exact hleft.1

/-- A path is walked without a trace just if it is absolute, the walk comes to an end, and every
symbolic link on the way has an absolute target that leads somewhere; and a file to be locked for
writing is not locked. -/
theorem neutral_iff (fs : Fs V) (nofollow wantparent : Bool) (lkf : Rwty) (s : Vnodes V)
    (path : List Char) (dir : V) :
    Neutral fs nofollow wantparent lkf s path dir ↔ isAbsolute path = true ∧ ∃ fuel,
      let r := resolveWith fs s.lock (resolve fs s.mounts s.lock fuel 0 nofollow) path dir
      Clean r ∧ Lockable s.lock lkf r := by
  refine ⟨Neutral.resolves, ?_⟩
  rintro ⟨hp, fuel, ⟨res, links, hr, hclean⟩, hlockable⟩
  obtain ⟨⟨res', s'⟩, hnamei, links', hr', hleft⟩ :=
    (inameiWith_runs (walks fuel 0 nofollow) rfl rfl).exists_of_safe
      ⟨hp, ⟨res, links, hr, hclean⟩, hlockable⟩
  rw [hr] at hr'
  obtain ⟨rfl, rfl⟩ := Prod.mk.inj (some.inj hr')
  refine ⟨fuel, res, s', hnamei, ?_⟩
  simpa [hp, cost_eq_zero hclean] using hleft

def twoDirs : Fs ℕ where
  root := 0
  getattr _ := .ok 0o40755
  readlink _ := .error .einval
  lookup d name := if d = 1 ∧ name = ['a'] then .ok 2 else .error .enoent

theorem namei_consumes_reference : let s : Vnodes ℕ :=
      ⟨fun v => if v ≤ 1 then 1 else 0, fun _ => .free, fun _ => none, fun _ => none⟩
    (namei twoDirs 2 false false .none s ['a'] 1).map (fun r => r.2.ref 1) = some 0 ∧
      ¬ Neutral twoDirs false false .none s ['a'] 1 := by
  refine ⟨by decide, fun h => ?_⟩
  cases h.resolves.1

end Balance
end Cplant.Nexus
