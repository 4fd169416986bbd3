import Cplant.Foundations.Runs
import Cplant.Portals.Update

/-!
# Several interfaces in one process

`ni.c` keeps the open interfaces in a table of eight pointers and packs the number of an
interface into the upper half of every handle. The routines of `eq.c` unpack it again, each
in its own way. `World` is a process with the interfaces it has open and the queues it has
allocated on them, as the application sees it.
-/
namespace Cplant.Portals
open Option Function

def maxNis : ℕ := 8

def ptlNalFailed : Int32 := 5
def ptlNoinit : Int32 := 6

def collectivePortal : PtlPtIndex := 0
def collectiveBcastBits : PtlMatchBits := 0x777
def collectiveReduceBits : PtlMatchBits := 0x555

def interfaceNum (h : PtlHandle) : ℕ := h.toUInt32.toNat / 65536 % 16

def ptlInterfaceNum (h : PtlHandle) : ℤ := (h.toInt >>> (16 : ℕ)).tmod 8

def niHandle (i : ℕ) : PtlHandle := Int32.ofNat (i * 65536)

/-- The application's side: `ptl_interfaces` with its count, the `nal_t` objects, and the
globals of `coll.c`. -/
structure Api (ν : Type) where
  ptlInit : Bool
  interfaces : ℕ → Option ν
  numInterfaces : ℕ
  nal : ν → Process
  collDidInit : Bool
  bcastMe : PtlHandle
  bcastMd : PtlHandle
  bcastEq : PtlHandle
  reduceMe : PtlHandle
  reduceMd : PtlHandle
  reduceEq : PtlHandle

inductive Found (ν : Type)
  | noinit
  | invEq
  | queue (nal : ν) (current : ℕ)
deriving DecidableEq

inductive Routine
  | eqGet
  | eqWait
  | eqFree
  | eqCount
  | mdUpdate (mdIn : PtlHandle)

/-- The answers to the calls that `ptl_coll_init` makes. `maxOffset` and `junk` stand for the
variables that the source leaves unset. -/
structure CollReply where
  bcastBuf : ℤ
  reduceBuf : ℤ
  maxOffset : Int32
  junk : PtlHandle
  bcastEv : Option ℤ
  reduceEv : Option ℤ
  validateBcastEq : Int32
  validateBcastMd : Int32
  validateReduceEq : Int32
  validateReduceMd : Int32
  bcastReply : NalReply
  reduceReply : NalReply

namespace Api
variable {ν : Type} [DecidableEq ν]

def setNal (a : Api ν) (n : ν) (p : Process) : Api ν := { a with nal := update a.nal n p }

def nalOf (a : Api ν) (h : PtlHandle) : Option (Option ν) :=
  if interfaceNum h < maxNis then some (a.interfaces (interfaceNum h)) else none

def queueOf (a : Api ν) (h eventq : PtlHandle) : Option (Found ν) := do
  match ← a.nalOf h with
  | none => return .noinit
  | some n =>
    let current := handleIndex eventq
    if maxEqs < current then return .invEq
    else if current = maxEqs then none
    else if !((a.nal n).eq current).inuse then return .invEq
    else return .queue n current

/-- Three routines take the interface number from `current`, which is the handle without its
upper half. -/
def find (a : Api ν) (routine : Routine) (eventq : PtlHandle) : Option (Found ν) :=
  let current := eventq &&& 0xFFFF
  match routine with
  | .eqGet => a.queueOf current eventq
  | .eqWait => a.queueOf current eventq
  | .eqFree => a.queueOf current eventq
  | .eqCount => a.queueOf eventq eventq
  | .mdUpdate mdIn => a.queueOf mdIn eventq

def forward (a : Api ν) (h : PtlHandle) (c : Call) (r : NalReply) :
    Option (Int32 × Option PtlHandle × Api ν) := do
  match ← a.nalOf h with
  | none => return (ptlNoinit, none, a)
  | some n =>
    let o ← step (a.nal n).ni r c
    return (o.rc, o.handleOut, a.setNal n ((a.nal n).after o))

def ptlMDAttach (a : Api ν) (currentIn : PtlHandle) (mdIn : PtlMd) (unlinkIn : PtlUnlink)
    (validate : Int32) (r : NalReply) : Option (Int32 × Option PtlHandle × Api ν) := do
  match ← a.nalOf currentIn with
  | none => return (ptlNoinit, none, a)
  | some _ =>
    if validate ≠ 0 then return (ptlSegv, none, a)
    else a.forward currentIn (.mdAttach currentIn mdIn unlinkIn) r

def ptlEQAlloc (a : Api ν) (interface : PtlHandle) (count : PtlSize) (ev : Option ℤ)
    (validate : Int32) : Option (Int32 × Option PtlHandle × Api ν) := do
  match ← a.nalOf interface with
  | none => return (ptlNoinit, none, a)
  | some n =>
    let (rc, handle, p) ← Portals.ptlEQAlloc (a.nal n) interface count ev validate
    return (rc, handle, a.setNal n p)

def ptlEQFree (a : Api ν) (eventq : PtlHandle) : Option (Int32 × Api ν) := do
  match ← a.find .eqFree eventq with
  | .noinit => return (ptlNoinit, a)
  | .invEq => return (ptlInvEq, a)
  | .queue n current =>
    let (rc, _, a) ← a.forward eventq (.eqFree eventq) okReply
    let p := a.nal n
    let eq := { p.eq current with inuse := false }
    return (rc, a.setNal n { p with eq := update p.eq current eq })

def ptlEQGet (a : Api ν) (eventq : PtlHandle) : Option (Int32 × Option PtlEvent × Api ν) := do
  match ← a.find .eqGet eventq with
  | .noinit => return (ptlNoinit, none, a)
  | .invEq => return (ptlInvEq, none, a)
  | .queue n _ =>
    let (rc, ev, p) ← Portals.ptlEQGet (a.nal n) eventq
    return (rc, ev, a.setNal n p)

def ptlMDUpdate (a : Api ν) (mdIn : PtlHandle) (oldInout : Bool) (newInout : Option PtlMd)
    (testqIn : PtlHandle) (validate : Int32) (r : NalReply) :
    Option (Int32 × Option PtlMd × Api ν) := do
  match ← a.nalOf mdIn with
  | none => return (ptlNoinit, none, a)
  | some n =>
    let found ← if testqIn = ptlEqNone then some (.queue n 0) else a.find (.mdUpdate mdIn) testqIn
    match found with
    | .noinit => return (ptlNoinit, none, a)
    | .invEq => return (ptlInvEq, none, a)
    | .queue n _ =>
      let (rc, md, p) ← Portals.ptlMDUpdate (a.nal n) mdIn oldInout newInout testqIn validate r
      return (rc, md, a.setNal n p)

def ptlNIHandle (handleIn : PtlHandle) : PtlHandle := handleIn &&& 0xFFFF

inductive CollObject
  | reduceMd
  | reduceEq
  | reduceMe
  | bcastMd
  | bcastEq
  | bcastMe

def release (a : Api ν) : CollObject → Option (Api ν)
  | .reduceMd => (a.forward a.reduceMd (.mdUnlink a.reduceMd) okReply).map fun q => q.2.2
  | .reduceEq => (a.ptlEQFree a.reduceEq).map Prod.snd
  | .reduceMe => (a.forward a.reduceMe (.meUnlink a.reduceMe) okReply).map fun q => q.2.2
  | .bcastMd => (a.forward a.bcastMd (.mdUnlink a.bcastMd) okReply).map fun q => q.2.2
  | .bcastEq => (a.ptlEQFree a.bcastEq).map Prod.snd
  | .bcastMe => (a.forward a.bcastMe (.meUnlink a.bcastMe) okReply).map fun q => q.2.2

def releaseAll (a : Api ν) : List CollObject → Option (Api ν)
  | [] => some a
  | x :: xs => do (← a.release x).releaseAll xs

def collMd (start : ℤ) (maxOffset : Int32) (eventq : PtlHandle) : PtlMd :=
  { start, length := 4, threshold := -1, maxOffset
    options := ptlMdOpPut ||| ptlMdManageRemote ||| ptlMdTruncate, userPtr := 0, eventq }

def setUp (a : Api ν) (ni : PtlHandle) (id : PtlProcessId) (nodes : Int32) (r : CollReply) :
    CollObject → Option (Int32 × Api ν)
  | .bcastMe =>
    (a.forward ni (.meAttach ni collectivePortal ⟨id, collectiveBcastBits, 0, .retain⟩)
      okReply).map fun (rc, me, a) => (rc, { a with bcastMe := me.getD r.junk })
  | .bcastEq =>
    (a.ptlEQAlloc ni (nodes * 4) r.bcastEv r.validateBcastEq).map fun (rc, eq, a) =>
      (rc, { a with bcastEq := eq.getD a.bcastEq })
  | .bcastMd =>
    (a.ptlMDAttach a.bcastMe (collMd r.bcastBuf r.maxOffset a.bcastEq) .retain
      r.validateBcastMd r.bcastReply).map fun (rc, md, a) =>
        (rc, { a with bcastMd := md.getD r.junk })
  | .reduceMe =>
    (a.forward a.bcastMe (.meInsert a.bcastMe ⟨id, collectiveReduceBits, 0, .retain⟩ .after)
      okReply).map fun (rc, me, a) => (rc, { a with reduceMe := me.getD r.junk })
  | .reduceEq =>
    (a.ptlEQAlloc ni (nodes * 4) r.reduceEv r.validateReduceEq).map fun (rc, eq, a) =>
      (rc, { a with reduceEq := eq.getD a.reduceEq })
  | .reduceMd =>
    (a.ptlMDAttach a.reduceMe (collMd r.reduceBuf r.maxOffset a.reduceEq) .retain
      r.validateReduceMd r.reduceReply).map fun (rc, md, a) =>
        (rc, { a with reduceMd := md.getD r.junk })

def setUpAll (ni : PtlHandle) (id : PtlProcessId) (nodes : Int32) (r : CollReply) (a : Api ν)
    (done : List CollObject) : List CollObject → Option (Int32 × Api ν)
  | [] => some (ptlOk, { a with collDidInit := true })
  | x :: xs => do
    let (rc, a) ← a.setUp ni id nodes r x
    if rc ≠ ptlOk then return (rc, ← a.releaseAll done)
    else setUpAll ni id nodes r a (x :: done) xs

def collObjects : List CollObject := [.bcastMe, .bcastEq, .bcastMd, .reduceMe, .reduceEq, .reduceMd]

def ptlCollInit (a : Api ν) (ni : PtlHandle) (r : CollReply) : Option (Int32 × Api ν) := do
  if a.collDidInit then return (ptlOk, a)
  else
    let some n ← a.nalOf ni | none
    let lib := (a.nal n).ni
    setUpAll ni ⟨.gid, lib.nid, lib.pid, lib.gid, ptlIdAny⟩ lib.numNodes r a [] collObjects

def ptlCollFini (a : Api ν) : Option (Api ν) :=
  { a with collDidInit := false }.releaseAll collObjects.reverse

def ptlEqNiInit (p : Process) : Process :=
  { p with eq := fun i => { p.eq i with inuse := false } }

def enter (a : Api ν) (n : ν) : Api ν :=
  { a with
    interfaces := update a.interfaces a.numInterfaces (some n)
    numInterfaces := a.numInterfaces + 1
    nal := update a.nal n (ptlEqNiInit (a.nal n)) }

def ptlNIInit (a : Api ν) (opened : Option ν) (r : CollReply) :
    Option (Int32 × Option PtlHandle × Api ν) := do
  if !a.ptlInit then return (ptlNoinit, none, a)
  else
    match opened with
    | none => return (ptlNalFailed, none, a)
    | some n =>
      match (List.range a.numInterfaces).find? fun i => a.interfaces i = some n with
      | some i => return (ptlOk, some (niHandle i), a)
      | none =>
        let handle := niHandle a.numInterfaces
        if maxNis ≤ a.numInterfaces then return (ptlNospace, some handle, a)
        else
          let (_, a) ← (a.enter n).ptlCollInit handle r
          return (ptlOk, some handle, a)

/-- `shutdown` is what `nal->shutdown` returns. A handle without an interface leads to a null
pointer. -/
def ptlNIFini (a : Api ν) (ni : PtlHandle) (shutdown : Int32) : Option (Int32 × Api ν) := do
  if !a.ptlInit then return (ptlNoinit, a)
  else if ptlInterfaceNum ni < 0 then none
  else
    let number := (ptlInterfaceNum ni).toNat
    let _ ← a.interfaces number
    let a ← a.ptlCollFini
    return (shutdown, { a with
      interfaces := update a.interfaces number none
      numInterfaces := a.numInterfaces - 1 })

end Api

structure Queue (ν : Type) where
  handle : PtlHandle
  nal : ν
  base : ℤ
  size : PtlSize

/-- The state of the interface layer, the handles of the open interfaces and the queues that
were allocated on them. -/
structure World (ν : Type) where
  api : Api ν
  handle : ν → Option PtlHandle
  queues : List (Queue ν)

inductive World.Act (ν : Type)
  | niInit (opened : Option ν) (r : CollReply)
  | niFini (ni : PtlHandle) (shutdown : Int32)
  | eqAlloc (interface : PtlHandle) (count : PtlSize) (ev : Option ℤ) (validate : Int32)

namespace World
variable {ν : Type} [DecidableEq ν]

def start (nal : ν → Process) : World ν where
  api := ⟨true, fun _ => none, 0, nal, false, 0, 0, 0, 0, 0, 0⟩
  handle := fun _ => none
  queues := []

def opens (s : World ν) (opened : Option ν) (handle : Option PtlHandle) : ν → Option PtlHandle :=
  match opened with
  | none => s.handle
  | some n => update s.handle n handle

def adds (s : World ν) (interface : PtlHandle) (count : PtlSize) (ev : Option ℤ)
    (handle : Option PtlHandle) : List (Queue ν) :=
  match s.api.nalOf interface, ev, handle with
  | some (some n), some base, some h => ⟨h, n, base, count⟩ :: s.queues
  | _, _, _ => s.queues

def step (s : World ν) : Act ν → Option (World ν)
  | .niInit opened r => do
    let (rc, handle, api) ← s.api.ptlNIInit opened r
    return { s with api, handle := if rc = ptlOk then s.opens opened handle else s.handle }
  | .niFini ni shutdown => do
    let (_, api) ← s.api.ptlNIFini ni shutdown
    let n ← s.api.interfaces (ptlInterfaceNum ni).toNat
    return { api, handle := update s.handle n none,
             queues := s.queues.filter fun q => q.nal ≠ n }
  | .eqAlloc interface count ev validate => do
    let (rc, handle, api) ← s.api.ptlEQAlloc interface count ev validate
    return { s with
      api, queues := if rc = ptlOk then s.adds interface count ev handle else s.queues }

/-- An interface is opened at an entry of the table that is empty, and the collectives, which
give back their queues through `PtlEQFree`, do not meet a queue of interface 0 there. -/
def Orderly (s : World ν) : Act ν → Prop
  | .niInit none _ => True
  | .niInit (some n) _ => (∃ i < s.api.numInterfaces, s.api.interfaces i = some n) ∨
      s.api.interfaces s.api.numInterfaces = none ∧ (∀ i, s.api.interfaces i ≠ some n) ∧
        (s.api.collDidInit = true ∨ ∀ q ∈ s.queues, interfaceNum q.handle ≠ 0)
  | .niFini ni _ => ptlInterfaceNum ni = 0 ∨ ∀ q ∈ s.queues, interfaceNum q.handle = 0 →
      handleIndex q.handle ≠ handleIndex s.api.bcastEq ∧
        handleIndex q.handle ≠ handleIndex s.api.reduceEq
  | .eqAlloc .. => True

inductive Reached (ok : World ν → Act ν → Prop) : World ν → Prop
  | start (nal : ν → Process) (hlib : ∀ n, Reachable (fun _ _ => True) (nal n).ni) :
      Reached ok (start nal)
  | act {s s' : World ν} {a : Act ν} (h : Reached ok s) (hok : ok s a) (hs : s.step a = some s') :
      Reached ok s'
  | lib {s : World ν} (h : Reached ok s) (n : ν) (ni : LibNi) (events : ℤ → ℕ → PtlEvent)
      (hlib : Reachable (fun _ _ => True) ni) :
      Reached ok { s with api := s.api.setNal n { s.api.nal n with ni, events } }

def Reaches (s : World ν) (routine : Routine) (q : Queue ν) : Prop :=
  s.api.find routine q.handle = some (.queue q.nal (handleIndex q.handle)) ∧
    ((s.api.nal q.nal).eq (handleIndex q.handle)).base = q.base

end World

theorem handleIndex_lt (h : PtlHandle) : handleIndex h < 65536 := Nat.mod_lt _ (by decide)

variable {i : ℕ} {c : Call} {eventq interface ni : PtlHandle} {handle x : Option PtlHandle}
  {id : PtlProcessId} {nodes validate : Int32} {p : Process} {xs : List CollObject}

theorem interfaceNum_handleOf (hi : i < 2 ^ 16) (h : PtlHandle) :
    interfaceNum (handleOf i h) = interfaceNum h :=
  congrArg (· % 16) (high_half h.toBitVec hi)

theorem toNat_mask (h : PtlHandle) : (h &&& 0xFFFF).toUInt32.toNat = handleIndex h :=
  toNat_mask_low h.toBitVec

@[simp]
theorem interfaceNum_mask (h : PtlHandle) : interfaceNum (h &&& 0xFFFF) = 0 := by
  have hlt := handleIndex_lt h
  rw [interfaceNum, toNat_mask, Nat.div_eq_of_lt hlt, Nat.zero_mod]

theorem toNat_niHandle (hi : i < maxNis) : (niHandle i).toUInt32.toNat = i * 65536 := by
  have hto : (niHandle i).toUInt32.toNat = i * 65536 % 2 ^ 32 := UInt32.toNat_ofNat'
  unfold maxNis at hi
  omega

theorem niHandle_injective {j : ℕ} (hi : i < maxNis) (hj : j < maxNis)
    (h : niHandle i = niHandle j) : i = j := by
  have hnat := congrArg (fun h : PtlHandle => h.toUInt32.toNat) h
  simp only [toNat_niHandle hi, toNat_niHandle hj] at hnat
  omega

structure Api.Keeps {ν : Type} (S : ν → ℕ → Prop) (a a' : Api ν) : Prop where
  ptlInit : a'.ptlInit = a.ptlInit
  interfaces : a'.interfaces = a.interfaces
  numInterfaces : a'.numInterfaces = a.numInterfaces
  lib : (∀ n, Reachable (fun _ _ => True) (a.nal n).ni) →
    ∀ n, Reachable (fun _ _ => True) (a'.nal n).ni
  eq : ∀ n i, ¬ S n i → (a'.nal n).eq i = (a.nal n).eq i

namespace Api
variable {ν : Type} {S T : ν → ℕ → Prop} {a a' a'' : Api ν} {n : ν}

theorem Keeps.refl (S : ν → ℕ → Prop) (a : Api ν) : Keeps S a a :=
  ⟨rfl, rfl, rfl, fun h => h, fun _ _ _ => rfl⟩

theorem Keeps.trans (h : Keeps S a a') (h' : Keeps S a' a'') : Keeps S a a'' where
  ptlInit := h'.ptlInit.trans h.ptlInit
  interfaces := h'.interfaces.trans h.interfaces
  numInterfaces := h'.numInterfaces.trans h.numInterfaces
  lib := fun hl => h'.lib (h.lib hl)
  eq := fun n i hn => (h'.eq n i hn).trans (h.eq n i hn)

theorem Keeps.mono (h : Keeps S a a') (hST : ∀ n i, S n i → T n i) : Keeps T a a' :=
  { h with eq := fun n i hn => h.eq n i fun hS => hn (hST n i hS) }

theorem Keeps.globals (h : Keeps S a a') {b : Bool} {h1 h2 h3 h4 h5 h6 : PtlHandle} :
    Keeps S a { a' with
      collDidInit := b, bcastMe := h1, bcastMd := h2, bcastEq := h3, reduceMe := h4,
      reduceMd := h5, reduceEq := h6 } :=
  ⟨h.ptlInit, h.interfaces, h.numInterfaces, h.lib, h.eq⟩

theorem nalOf_eq_some {h : PtlHandle} : a.nalOf h = some (some n) ↔
      interfaceNum h < maxNis ∧ a.interfaces (interfaceNum h) = some n := by
  unfold nalOf
  split_ifs with hlt <;> simp [hlt]

theorem queueOf_eq_queue {h : PtlHandle} :
    a.queueOf h eventq = some (.queue n i) ↔ a.nalOf h = some (some n) ∧ i = handleIndex eventq ∧
      i < maxEqs ∧ ((a.nal n).eq i).inuse = true := by
  unfold queueOf
  rcases hn : a.nalOf h with _ | _ | m
  · simp
  · simp
  simp only [bind_eq_bind, bind_some]
  split_ifs with h1 h2 h3
  · simp only [pure, some.injEq, reduceCtorEq, false_iff]
    rintro ⟨-, rfl, hlt, -⟩
    omega
  · simp only [false_iff]
    rintro ⟨-, rfl, hlt, -⟩
    omega
  · simp only [pure, some.injEq, reduceCtorEq, false_iff]
    rintro ⟨rfl, rfl, -, hin⟩
    simp [hin] at h3
  · simp only [pure, some.injEq, Found.queue.injEq]
    constructor
    · rintro ⟨rfl, rfl⟩
      exact ⟨rfl, rfl, by omega, by simpa using h3⟩
    · rintro ⟨rfl, rfl, -, -⟩
      exact ⟨rfl, rfl⟩

variable [DecidableEq ν] {rc : Int32} {ev : Option ℤ} {count : PtlSize}

theorem Keeps.setNal
    (hlib : Reachable (fun _ _ => True) (a.nal n).ni → Reachable (fun _ _ => True) p.ni)
    (heq : ∀ i, ¬ S n i → p.eq i = (a.nal n).eq i) : Keeps S a (a.setNal n p) := by
  refine ⟨rfl, rfl, rfl, fun hl m => ?_, fun m i hm => ?_⟩
  · by_cases h : m = n
    · subst h
      simpa [Api.setNal] using hlib (hl m)
    · simpa [Api.setNal, h] using hl m
  · by_cases h : m = n
    · subst h
      simpa [Api.setNal] using heq i hm
    · simp [Api.setNal, h]

theorem forward_keeps {h : PtlHandle} {r : NalReply} (hs : a.forward h c r = some (rc, x, a'))
    (hc : ∀ ni, Enabled ni c) : Keeps S a a' ∧ a' = { a with nal := a'.nal } := by
  obtain ⟨found, -, hs⟩ := bind_eq_some_iff.mp hs
  rcases found with _ | n
  · cases hs
    exact ⟨.refl S a, rfl⟩
  · obtain ⟨o, ho, hs⟩ := bind_eq_some_iff.mp hs
    cases hs
    exact ⟨.setNal (fun hl => hl.step (hc _) trivial ho) fun i _ => rfl, rfl⟩

theorem ptlMDAttach_keeps {currentIn : PtlHandle} {mdIn : PtlMd} {unlinkIn : PtlUnlink}
    {r : NalReply}
    (hs : a.ptlMDAttach currentIn mdIn unlinkIn validate r = some (rc, x, a')) : Keeps S a a' := by
  obtain ⟨found, -, hs⟩ := bind_eq_some_iff.mp hs
  rcases found with _ | n
  · cases hs
    exact .refl S a
  · dsimp only at hs
    split_ifs at hs
    · cases hs
      exact .refl S a
    · exact (forward_keeps hs fun _ => trivial).1

theorem ptlEQFree_keeps (hs : a.ptlEQFree eventq = some (rc, a')) :
    Keeps (fun n i => a.interfaces 0 = some n ∧ i = handleIndex eventq) a a' ∧
      a' = { a with nal := a'.nal } := by
  obtain ⟨found, hfind, hs⟩ := bind_eq_some_iff.mp hs
  rcases found with _ | _ | ⟨n, current⟩
  · cases hs
    exact ⟨.refl _ a, rfl⟩
  · cases hs
    exact ⟨.refl _ a, rfl⟩
  · obtain ⟨⟨rc', x, mid⟩, hmid, hs⟩ := bind_eq_some_iff.mp hs
    cases hs
    obtain ⟨hnal, rfl, -, -⟩ := queueOf_eq_queue.mp hfind
    have hzero : a.interfaces 0 = some n := by simpa [nalOf_eq_some] using (nalOf_eq_some.mp hnal).2
    obtain ⟨hkeeps, hsame⟩ := forward_keeps hmid fun _ => trivial
    refine ⟨hkeeps.trans (.setNal (fun hl => hl) fun i hi => ?_), by rw [hsame]; rfl⟩
    exact update_of_ne (fun h => hi ⟨hzero, h⟩) _ _

theorem ptlEQAlloc_slots {p' : Process} (hlib : Reachable (fun _ _ => True) p.ni)
    (hs : Portals.ptlEQAlloc p interface count ev validate = some (rc, handle, p')) :
    Reachable (fun _ _ => True) p'.ni ∧ (∀ i, (p.eq i).inuse = true → p'.eq i = p.eq i) ∧
      (rc = ptlOk → ∃ h base, handle = some h ∧ ev = some base ∧ handleIndex h < maxEqs ∧
        interfaceNum h = interfaceNum interface ∧
        p'.eq (handleIndex h) = ⟨true, 1, count, base⟩) := by
  have hcases := ptlEQAlloc_cases hlib.eqPool hs
  refine ⟨hcases.reachable hlib fun _ _ => trivial, fun i hi => ?_, ?_⟩
  · cases hcases with
    | refused => rfl
    | lost => rfl
    | done _ hout =>
      refine update_of_ne ?_ _ _
      rintro rfl
      simp [hi] at hout
  · rintro rfl
    cases hcases with
    | refused hrc => exact absurd rfl hrc
    | done _ _ hnew hidx =>
      refine ⟨_, _, rfl, rfl, hidx.symm ▸ hnew, interfaceNum_handleOf ?_ interface, ?_⟩
      · unfold maxEqs at hnew
        omega
      · rw [hidx]
        exact update_self ..

theorem ptlEQAlloc_keeps (hlib : ∀ n, Reachable (fun _ _ => True) (a.nal n).ni)
    (hs : a.ptlEQAlloc interface count ev validate = some (rc, handle, a')) :
    Keeps (fun n i => a.nalOf interface = some (some n) ∧ ((a.nal n).eq i).inuse = false) a a' ∧
      (rc = ptlOk → ∃ n h base, a.nalOf interface = some (some n) ∧ handle = some h ∧
        ev = some base ∧ handleIndex h < maxEqs ∧ interfaceNum h = interfaceNum interface ∧
        (a'.nal n).eq (handleIndex h) = ⟨true, 1, count, base⟩) := by
  obtain ⟨found, hn, hs⟩ := bind_eq_some_iff.mp hs
  rcases found with _ | n
  · cases hs
    exact ⟨.refl _ a, nofun⟩
  · obtain ⟨⟨rc', handle', p⟩, hp, hs⟩ := bind_eq_some_iff.mp hs
    cases hs
    obtain ⟨hnext, hkept, hnew⟩ := ptlEQAlloc_slots (hlib n) hp
    refine ⟨.setNal (fun _ => hnext) fun i hi => hkept i ?_, fun hok => ?_⟩
    · simpa [hn] using hi
    · obtain ⟨h, base, hh, hev, hlt, hnum, heq⟩ := hnew hok
      exact ⟨n, h, base, hn, hh, hev, hlt, hnum, by simpa [setNal] using heq⟩

def CollSlot (a : Api ν) (n : ν) (i : ℕ) : Prop :=
  a.interfaces 0 = some n ∧ (i = handleIndex a.bcastEq ∨ i = handleIndex a.reduceEq)

theorem release_keeps {x : CollObject} (hs : a.release x = some a') :
    Keeps a.CollSlot a a' ∧ a' = { a with nal := a'.nal } := by
  cases x with
  | reduceEq =>
    obtain ⟨⟨rc, mid⟩, hfree, rfl⟩ := map_eq_some_iff.mp hs
    exact (ptlEQFree_keeps hfree).imp_left fun hk => hk.mono fun n i h => ⟨h.1, .inr h.2⟩
  | bcastEq =>
    obtain ⟨⟨rc, mid⟩, hfree, rfl⟩ := map_eq_some_iff.mp hs
    exact (ptlEQFree_keeps hfree).imp_left fun hk => hk.mono fun n i h => ⟨h.1, .inl h.2⟩
  | reduceMd | reduceMe | bcastMd | bcastMe =>
    obtain ⟨⟨rc, y, mid⟩, hfw, rfl⟩ := map_eq_some_iff.mp hs
    exact forward_keeps hfw fun _ => trivial

theorem releaseAll_keeps (hs : a.releaseAll xs = some a') : Keeps a.CollSlot a a' := by
  induction xs generalizing a with
  | nil =>
    cases hs
    exact .refl _ a'
  | cons x xs ih =>
    obtain ⟨mid, hx, hs⟩ := bind_eq_some_iff.mp hs
    obtain ⟨hfirst, hmid⟩ := release_keeps hx
    refine hfirst.trans ((ih hs).mono fun n i h => ?_)
    rwa [hmid] at h

theorem ptlCollFini_keeps (hs : a.ptlCollFini = some a') : Keeps a.CollSlot a a' :=
  (Keeps.refl _ a).globals.trans (releaseAll_keeps (a := { a with collDidInit := false }) hs)

def CollNal (a : Api ν) (n m : ν) (_ : ℕ) : Prop := m = n ∨ a.interfaces 0 = some m

section CollInit
variable {a0 : Api ν} {n : ν} {ni : PtlHandle} (h : Keeps (a0.CollNal n) a0 a)
include h

theorem Keeps.then_release (hs : a.releaseAll xs = some a') : Keeps (a0.CollNal n) a0 a' := by
  refine h.trans ((releaseAll_keeps hs).mono fun m i hm => .inr ?_)
  rw [← h.interfaces]
  exact hm.1

variable (hlib : ∀ m, Reachable (fun _ _ => True) (a0.nal m).ni) (hn : a0.nalOf ni = some (some n))
  {r : CollReply}
include hlib hn

theorem Keeps.then_alloc (hs : a.ptlEQAlloc ni count ev validate = some (rc, x, a')) :
    Keeps (a0.CollNal n) a0 a' := by
  refine h.trans ((ptlEQAlloc_keeps (h.lib hlib) hs).1.mono fun m i hm => .inl ?_)
  have hsame : a.nalOf ni = a0.nalOf ni := by rw [nalOf, nalOf, h.interfaces]
  rw [hsame, hn] at hm
  simpa using hm.1.symm

theorem Keeps.then_setUp {x : CollObject}
    (hs : a.setUp ni id nodes r x = some (rc, a')) : Keeps (a0.CollNal n) a0 a' := by
  cases x with
  | bcastMe | reduceMe =>
    obtain ⟨⟨rc', y, mid⟩, hfw, hq⟩ := map_eq_some_iff.mp hs
    cases hq
    exact (h.trans (forward_keeps hfw fun _ => trivial).1).globals
  | bcastEq | reduceEq =>
    obtain ⟨⟨rc', y, mid⟩, halloc, hq⟩ := map_eq_some_iff.mp hs
    cases hq
    exact (h.then_alloc hlib hn halloc).globals
  | bcastMd | reduceMd =>
    obtain ⟨⟨rc', y, mid⟩, hmd, hq⟩ := map_eq_some_iff.mp hs
    cases hq
    exact (h.trans (ptlMDAttach_keeps hmd)).globals

theorem Keeps.then_setUpAll {done : List CollObject}
    (hs : setUpAll ni id nodes r a done xs = some (rc, a')) : Keeps (a0.CollNal n) a0 a' := by
  induction xs generalizing a done with
  | nil =>
    cases hs
    exact h.globals
  | cons x xs ih =>
    obtain ⟨⟨rc', mid⟩, hx, hs⟩ := bind_eq_some_iff.mp hs
    have hmid := h.then_setUp hlib hn hx
    dsimp only at hs
    split_ifs at hs
    · obtain ⟨b, hb, hs⟩ := bind_eq_some_iff.mp hs
      cases hs
      exact hmid.then_release hb
    · exact ih hmid hs

end CollInit

theorem ptlCollInit_keeps
    (hlib : ∀ m, Reachable (fun _ _ => True) (a.nal m).ni) (hn : a.nalOf ni = some (some n))
    (hs : a.ptlCollInit ni r = some (rc, a')) :
    Keeps (fun m _ => a.collDidInit = false ∧ a.CollNal n m 0) a a' := by
  unfold ptlCollInit at hs
  split_ifs at hs with hdid
  · cases hs
    exact .refl _ a
  · simp only [hn, bind_eq_bind, bind_some] at hs
    exact ((Keeps.refl _ a).then_setUpAll hlib hn hs).mono fun m _ hm => ⟨by simpa using hdid, hm⟩

end Api

namespace World
variable {ν : Type} {q : Queue ν} {s : World ν}

structure Held (a : Api ν) (q : Queue ν) : Prop where
  nal : a.interfaces (interfaceNum q.handle) = some q.nal
  index : handleIndex q.handle < maxEqs
  inuse : ((a.nal q.nal).eq (handleIndex q.handle)).inuse = true
  base : ((a.nal q.nal).eq (handleIndex q.handle)).base = q.base

structure Inv (s : World ν) : Prop where
  ptlInit : s.api.ptlInit = true
  num : s.api.numInterfaces ≤ maxNis
  below : ∀ i n, s.api.interfaces i = some n → i < maxNis
  inj : ∀ i j n, s.api.interfaces i = some n → s.api.interfaces j = some n → i = j
  handle : ∀ n h, s.handle n = some h ↔ ∃ i, s.api.interfaces i = some n ∧ h = niHandle i
  lib : ∀ n, Reachable (fun _ _ => True) (s.api.nal n).ni
  queue : ∀ q ∈ s.queues, Held s.api q

theorem Held.keep {a a' : Api ν} (h : Held a q)
    (hnal : a'.interfaces (interfaceNum q.handle) = some q.nal)
    (heq : (a'.nal q.nal).eq (handleIndex q.handle) = (a.nal q.nal).eq (handleIndex q.handle)) :
    Held a' q :=
  ⟨hnal, h.index, by rw [heq, h.inuse], by rw [heq, h.base]⟩

theorem Held.of_keeps {S : ν → ℕ → Prop} {a a' : Api ν} (h : Held a q)
    (hk : Api.Keeps S a a') (hq : ¬ S q.nal (handleIndex q.handle)) : Held a' q :=
  h.keep (by rw [hk.interfaces, h.nal]) (hk.eq _ _ hq)

theorem inv_start (nal : ν → Process) (hlib : ∀ n, Reachable (fun _ _ => True) (nal n).ni) :
    Inv (start nal) := by
  refine ⟨rfl, by simp [start], by simp [start], by simp [start], by simp [start], hlib, ?_⟩
  intro q hq
  cases hq

/-- A routine that takes the interface number from `h` works on the queue exactly if that is the
number in the queue's own handle. -/
theorem Inv.queueOf_iff (hi : Inv s) (hq : q ∈ s.queues)
    (h : PtlHandle) : s.api.queueOf h q.handle = some (.queue q.nal (handleIndex q.handle)) ↔
      interfaceNum h = interfaceNum q.handle := by
  have hheld := hi.queue q hq
  rw [Api.queueOf_eq_queue, Api.nalOf_eq_some]
  constructor
  · rintro ⟨⟨-, hn⟩, -⟩
    exact hi.inj _ _ _ hn hheld.nal
  · intro heq
    rw [heq]
    exact ⟨⟨hi.below _ _ hheld.nal, hheld.nal⟩, rfl, hheld.index, hheld.inuse⟩

theorem Inv.handle_injective (hi : Inv s) {n m : ν} {h : PtlHandle}
    (hn : s.handle n = some h) (hm : s.handle m = some h) : n = m := by
  obtain ⟨i, hin, rfl⟩ := (hi.handle n h).mp hn
  obtain ⟨j, hjm, heq⟩ := (hi.handle m _).mp hm
  have hij : i = j := niHandle_injective (hi.below i n hin) (hi.below j m hjm) heq
  rw [← hij, hin] at hjm
  exact some.inj hjm

theorem Inv.niHandle_iff (hi : Inv s) (hq : q ∈ s.queues) :
    s.handle q.nal = some (Api.ptlNIHandle q.handle) ↔
      interfaceNum q.handle = 0 ∧ handleIndex q.handle = 0 := by
  have hheld := hi.queue q hq
  have hlt := handleIndex_lt q.handle
  have hbelow := hi.below _ _ hheld.nal
  have hnat : Api.ptlNIHandle q.handle = niHandle (interfaceNum q.handle) ↔
      handleIndex q.handle = interfaceNum q.handle * 65536 := by
    rw [← toNat_mask, ← toNat_niHandle hbelow]
    exact ⟨fun h => congrArg (fun x : PtlHandle => x.toUInt32.toNat) h,
      fun h => congrArg Int32.ofUInt32 (UInt32.toNat_inj.mp h)⟩
  rw [hi.handle]
  constructor
  · rintro ⟨i, hin, heq⟩
    obtain rfl : interfaceNum q.handle = i := hi.inj _ _ _ hheld.nal hin
    have hidx := hnat.mp heq
    omega
  · rintro ⟨hnum, hidx⟩
    exact ⟨_, hheld.nal, hnat.mpr (by omega)⟩

variable [DecidableEq ν] {s s' : World ν}

theorem Inv.setLib (h : Inv s) (n : ν) {ni : LibNi} {events : ℤ → ℕ → PtlEvent}
    (hlib : Reachable (fun _ _ => True) ni) :
    Inv { s with api := s.api.setNal n { s.api.nal n with ni, events } } := by
  have hk : Api.Keeps (fun _ _ => False) s.api (s.api.setNal n { s.api.nal n with ni, events }) :=
    .setNal (fun _ => hlib) fun _ _ => rfl
  exact ⟨h.ptlInit, h.num, h.below, h.inj, h.handle, hk.lib h.lib,
    fun q hq => (h.queue q hq).of_keeps hk fun hf => hf⟩

theorem Inv.eqAlloc (h : Inv s)
    (hs : s.step (.eqAlloc interface count ev validate) = some s') : Inv s' := by
  obtain ⟨⟨rc, x, api⟩, halloc, hs⟩ := bind_eq_some_iff.mp hs
  cases hs
  obtain ⟨hk, hnew⟩ := Api.ptlEQAlloc_keeps h.lib halloc
  have hold : ∀ q ∈ s.queues, Held api q := fun q hq =>
    (h.queue q hq).of_keeps hk fun hS => by simp [(h.queue q hq).inuse] at hS
  refine ⟨hk.ptlInit.trans h.ptlInit, ?_, ?_, ?_, ?_, hk.lib h.lib, ?_⟩
  · rw [hk.numInterfaces]
    exact h.num
  · rw [hk.interfaces]
    exact h.below
  · rw [hk.interfaces]
    exact h.inj
  · rw [hk.interfaces]
    exact h.handle
  by_cases hrc : rc = ptlOk
  · obtain ⟨n, handle, base, hn, rfl, rfl, hlt, hnum, heq⟩ := hnew hrc
    simp only [hrc, if_true, adds, hn]
    intro q hq
    rcases List.mem_cons.mp hq with rfl | hq
    · refine ⟨?_, hlt, by rw [heq], by rw [heq]⟩
      rw [hk.interfaces, hnum]
      exact (Api.nalOf_eq_some.mp hn).2
    · exact hold q hq
  · simpa [hrc] using hold

theorem Inv.niFini (h : Inv s) {shutdown : Int32}
    (hok : s.Orderly (.niFini ni shutdown)) (hs : s.step (.niFini ni shutdown) = some s') :
    Inv s' := by
  obtain ⟨⟨rc, api⟩, hfini, hs⟩ := bind_eq_some_iff.mp hs
  obtain ⟨n, hn, hs⟩ := bind_eq_some_iff.mp hs
  cases hs
  unfold Api.ptlNIFini at hfini
  simp only [h.ptlInit, Bool.not_true, Bool.false_eq_true, if_false] at hfini
  split_ifs at hfini with hneg
  obtain ⟨-, -, hfini⟩ := bind_eq_some_iff.mp hfini
  obtain ⟨mid, hmid, hfini⟩ := bind_eq_some_iff.mp hfini
  cases hfini
  have hk := Api.ptlCollFini_keeps hmid
  have hother : ∀ i m, update mid.interfaces (ptlInterfaceNum ni).toNat none i = some m ↔
      i ≠ (ptlInterfaceNum ni).toNat ∧ s.api.interfaces i = some m := by
    intro i m
    rw [hk.interfaces]
    by_cases hi : i = (ptlInterfaceNum ni).toNat <;> simp [hi]
  refine ⟨hk.ptlInit.trans h.ptlInit, ?_, ?_, ?_, ?_, hk.lib h.lib, ?_⟩
  · have hnum := h.num
    simp only [hk.numInterfaces]
    omega
  · intro i m hm
    exact h.below i m ((hother i m).mp hm).2
  · intro i j m hi hj
    exact h.inj i j m ((hother i m).mp hi).2 ((hother j m).mp hj).2
  · intro m x
    simp only [hother]
    by_cases hm : m = n
    · subst hm
      simp only [update_self, reduceCtorEq, false_iff]
      rintro ⟨i, ⟨hne, hi⟩, -⟩
      exact hne (h.inj _ _ _ hi hn)
    · rw [update_of_ne hm, h.handle]
      refine exists_congr fun i => and_congr_left fun _ => (and_iff_right_of_imp ?_).symm
      rintro hi rfl
      exact hm (some.inj (hi.symm.trans hn))
  · intro q hq
    obtain ⟨hq, hne⟩ := List.mem_filter.mp hq
    have hheld := h.queue q hq
    refine hheld.keep ((hother _ _).mpr ⟨fun hi => ?_, hheld.nal⟩) (hk.eq _ _ ?_)
    · rw [← hi, hheld.nal] at hn
      simp [some.inj hn] at hne
    rintro ⟨hzero, hslot⟩
    have hnum : interfaceNum q.handle = 0 := h.inj _ _ _ hheld.nal hzero
    rcases hok with hni | hfree
    · rw [hni] at hn
      rw [some.inj (hzero.symm.trans hn)] at hne
      simp at hne
    · obtain ⟨hb, hr⟩ := hfree q hq hnum
      rcases hslot with hslot | hslot
      · exact hb hslot
      · exact hr hslot

theorem interfaceNum_niHandle (hi : i < maxNis) : interfaceNum (niHandle i) = i := by
  rw [interfaceNum, toNat_niHandle hi]
  unfold maxNis at hi
  omega

theorem Inv.enter (h : Inv s) {n : ν} {api : Api ν}
    (hroom : s.api.numInterfaces < maxNis) (hempty : s.api.interfaces s.api.numInterfaces = none)
    (hfresh : ∀ i, s.api.interfaces i ≠ some n)
    (hzero : s.api.collDidInit = true ∨ ∀ q ∈ s.queues, interfaceNum q.handle ≠ 0)
    (hcoll : (s.api.enter n).ptlCollInit (niHandle s.api.numInterfaces) r = some (rc, api)) :
    Inv { s with api, handle := s.opens (some n) (some (niHandle s.api.numInterfaces)) } := by
  have htable : ∀ i m, (s.api.enter n).interfaces i = some m ↔
      i = s.api.numInterfaces ∧ m = n ∨ s.api.interfaces i = some m := by
    intro i m
    by_cases hi : i = s.api.numInterfaces
    · subst hi
      simp [Api.enter, hempty, eq_comm]
    · simp [Api.enter, hi]
  have hlib : ∀ m, Reachable (fun _ _ => True) ((s.api.enter n).nal m).ni := by
    intro m
    by_cases hm : m = n
    · subst hm
      simpa [Api.enter, Api.ptlEqNiInit] using h.lib m
    · simpa [Api.enter, hm] using h.lib m
  have hn : (s.api.enter n).nalOf (niHandle s.api.numInterfaces) = some (some n) := by
    rw [Api.nalOf_eq_some, interfaceNum_niHandle hroom]
    exact ⟨hroom, (htable _ _).mpr (.inl ⟨rfl, rfl⟩)⟩
  have hk := Api.ptlCollInit_keeps hlib hn hcoll
  refine ⟨hk.ptlInit.trans h.ptlInit, ?_, ?_, ?_, ?_, hk.lib hlib, ?_⟩
  · rw [hk.numInterfaces]
    exact hroom
  · intro i m hm
    rw [hk.interfaces, htable] at hm
    rcases hm with ⟨rfl, -⟩ | hm
    · exact hroom
    · exact h.below i m hm
  · intro i j m hi hj
    rw [hk.interfaces, htable] at hi hj
    rcases hi with ⟨rfl, rfl⟩ | hi <;> rcases hj with ⟨rfl, hm⟩ | hj
    · rfl
    · exact absurd hj (hfresh j)
    · exact absurd (hm ▸ hi) (hfresh i)
    · exact h.inj i j m hi hj
  · intro m x
    simp only [hk.interfaces, htable, opens]
    by_cases hm : m = n
    · subst hm
      simp [hfresh, eq_comm]
    · simp [hm, h.handle]
  · intro q hq
    have hheld := h.queue q hq
    have hne : q.nal ≠ n := fun hn => hfresh _ (hn ▸ hheld.nal)
    have hentered : Held (s.api.enter n) q :=
      hheld.keep ((htable _ _).mpr (.inr hheld.nal)) (by simp [Api.enter, hne])
    refine hentered.of_keeps hk ?_
    rintro ⟨hdid, rfl | hz⟩
    · exact hne rfl
    · rcases hzero with hdid' | hnone
      · cases hdid'.symm.trans hdid
      · rcases (htable _ _).mp hz with ⟨-, hm⟩ | hz
        · exact hne hm
        · exact hnone q hq (h.inj _ _ _ hheld.nal hz)

theorem Inv.niInit (h : Inv s) {opened : Option ν}
    (hok : s.Orderly (.niInit opened r)) (hs : s.step (.niInit opened r) = some s') : Inv s' := by
  obtain ⟨⟨rc, x, api⟩, hinit, hs⟩ := bind_eq_some_iff.mp hs
  cases hs
  unfold Api.ptlNIInit at hinit
  simp only [h.ptlInit, Bool.not_true, Bool.false_eq_true, if_false] at hinit
  cases opened with
  | none =>
    cases hinit
    exact h
  | some n =>
    cases hfind : (List.range s.api.numInterfaces).find? fun i => s.api.interfaces i = some n with
    | some i =>
      simp only [hfind] at hinit
      cases hinit
      have hi : s.api.interfaces i = some n := by simpa using List.find?_some hfind
      have hsame : s.opens (some n) (some (niHandle i)) = s.handle := by
        funext m
        by_cases hm : m = n
        · subst hm
          simp only [opens, update_self]
          exact ((h.handle _ _).mpr ⟨i, hi, rfl⟩).symm
        · simp [opens, hm]
      rw [if_pos rfl, hsame]
      exact h
    | none =>
      simp only [hfind] at hinit
      split_ifs at hinit with hfull
      · cases hinit
        exact h
      · obtain ⟨⟨rc', mid⟩, hcoll, hinit⟩ := bind_eq_some_iff.mp hinit
        cases hinit
        obtain ⟨hempty, hfresh, hzero⟩ := hok.resolve_left fun ⟨i, hi, hin⟩ => by
          simpa [hin] using List.find?_eq_none.mp hfind i (List.mem_range.mpr hi)
        exact h.enter (by omega) hempty hfresh hzero hcoll

theorem Inv.act (h : Inv s) {a : Act ν} (hok : s.Orderly a) (hs : s.step a = some s') : Inv s' := by
  cases a with
  | niInit opened r => exact h.niInit hok hs
  | niFini ni shutdown => exact h.niFini hok hs
  | eqAlloc interface count ev validate => exact h.eqAlloc hs

theorem Reached.inv (h : Reached Orderly s) : Inv s := by
  induction h with
  | start nal hlib => exact inv_start nal hlib
  | act _ hok hs ih => exact ih.act hok hs
  | lib _ n ni events hlib ih => exact ih.setLib n hlib

/-- In an orderly run distinct interfaces have distinct handles and `PtlEQCount` finds the queue of
every handle. Routines that mask the handle find it just on interface 0, `PtlMDUpdate` if its
descriptor is on the same interface, and `PtlNIHandle` returns the handle of an interface for one
handle only. -/
theorem handles_resolve (h : Reached Orderly s) :
    (∀ n m x, s.handle n = some x → s.handle m = some x → n = m) ∧
      ∀ q ∈ s.queues, s.Reaches .eqCount q ∧ (s.Reaches .eqGet q ↔ interfaceNum q.handle = 0) ∧
        (s.Reaches .eqWait q ↔ interfaceNum q.handle = 0) ∧
        (s.Reaches .eqFree q ↔ interfaceNum q.handle = 0) ∧
        (∀ md, s.Reaches (.mdUpdate md) q ↔ interfaceNum md = interfaceNum q.handle) ∧
        (s.handle q.nal = some (Api.ptlNIHandle q.handle) ↔
          interfaceNum q.handle = 0 ∧ handleIndex q.handle = 0) := by
  have hi := h.inv
  refine ⟨fun n m x hn hm => hi.handle_injective hn hm, fun q hq => ?_⟩
  have hbase := (hi.queue q hq).base
  have hmasked : s.api.queueOf (q.handle &&& 0xFFFF) q.handle =
      some (.queue q.nal (handleIndex q.handle)) ↔ interfaceNum q.handle = 0 := by
    rw [hi.queueOf_iff hq, interfaceNum_mask, eq_comm]
  refine ⟨⟨(hi.queueOf_iff hq _).mpr rfl, hbase⟩, (and_iff_left hbase).trans hmasked,
    (and_iff_left hbase).trans hmasked, (and_iff_left hbase).trans hmasked,
    fun md => (and_iff_left hbase).trans (hi.queueOf_iff hq md), hi.niHandle_iff hq⟩

def okColl : CollReply := ⟨10, 20, 0, 0, some 100, some 200, 0, 0, 0, 0, okReply, okReply⟩

theorem handles_resolve_second : ∃ s : World (Fin 2), ∃ q ∈ s.queues, Reached Orderly s ∧
    (s.handle 0).isSome ∧ interfaceNum q.handle = 1 ∧ s.Reaches .eqCount q ∧
    ¬ s.Reaches .eqGet q := by
  have h0 : Reached Orderly (start fun _ : Fin 2 => freshProcess) := .start _ fun _ => .init ..
  have heval : ((start fun _ : Fin 2 => freshProcess).step (.niInit (some 0) okColl)).any (fun s1 =>
      s1.handle 1 = none ∧ s1.api.interfaces s1.api.numInterfaces = none ∧
      s1.api.collDidInit = true ∧ (s1.step (.niInit (some 1) okColl)).any fun s2 =>
        (s2.step (.eqAlloc (niHandle 1) 4 (some 1000) 0)).any fun s => (s.handle 0).isSome ∧
          s.queues.any fun q => interfaceNum q.handle = 1) = true := by
    decide +kernel
  obtain ⟨s1, hs1, hfacts⟩ := (any_eq_true _ _).mp heval
  obtain ⟨hnone, hfree, hcoll, hrest⟩ := of_decide_eq_true hfacts
  obtain ⟨s2, hs2, hrest⟩ := (any_eq_true _ _).mp hrest
  obtain ⟨s, hs, hfacts⟩ := (any_eq_true _ _).mp hrest
  obtain ⟨hopen, hqueue⟩ := of_decide_eq_true hfacts
  obtain ⟨q, hq, hnum⟩ := List.any_eq_true.mp hqueue
  rw [decide_eq_true_eq] at hnum
  have h1 := h0.act (a := .niInit (some 0) okColl)
    (.inr ⟨rfl, by simp [start], .inr (by simp [start])⟩) hs1
  have hnew : ∀ i, s1.api.interfaces i ≠ some 1 := fun i hi => by
    cases hnone.symm.trans ((h1.inv.handle 1 _).mpr ⟨i, hi, rfl⟩)
  have h2 := h1.act (a := .niInit (some 1) okColl) (.inr ⟨hfree, hnew, .inl hcoll⟩) hs2
  have h := h2.act (a := .eqAlloc (niHandle 1) 4 (some 1000) 0) trivial hs
  obtain ⟨hcount, hget, -⟩ := (handles_resolve h).2 q hq
  exact ⟨s, q, hq, h, hopen, hnum, hcount, by simp [hget, hnum]⟩

theorem exists_reached {P : World (Fin 3) → Prop} [DecidablePred P] (as : List (Act (Fin 3)))
    (h : (exec step (fun _ _ => True) as (start fun _ => freshProcess)).any
      (fun s => decide (P s)) = true) : ∃ s, Reached (fun _ _ => True) s ∧ P s := by
  obtain ⟨s, hs, hp⟩ := exists_reaches as h
  exact ⟨s, hs.invariant (.start _ fun _ => .init ..) fun hr _ hs => hr.act trivial hs, hp⟩

def secondInterface {ι : Type} (a b : ι) : List (Act ι) :=
  [.niInit (some a) okColl, .niInit (some b) okColl, .eqAlloc (niHandle 1) 4 (some 1000) 0]

def closedFirst {ι : Type} (a b c : ι) : List (Act ι) :=
  [.niInit (some a) okColl, .niInit (some b) okColl, .niFini 0 0, .niInit (some c) okColl]

/-- `PtlEQGet` does not find a queue of the second interface, nor does `PtlNIHandle` return its
interface; and after an interface is closed out of order two others have the same handle. -/
theorem handles_confused :
    (∃ s : World (Fin 3), Reached (fun _ _ => True) s ∧ ∃ q ∈ s.queues, ¬ s.Reaches .eqGet q ∧
      s.handle q.nal ≠ some (Api.ptlNIHandle q.handle)) ∧
    ∃ s : World (Fin 3), Reached (fun _ _ => True) s ∧ (s.handle 1).isSome ∧
      s.handle 1 = s.handle 2 := by
  constructor
  · obtain ⟨s, hs, q, hmem, hfind, hni⟩ := exists_reached (P := fun s => ∃ q ∈ s.queues,
      s.api.find .eqGet q.handle ≠ some (.queue q.nal (handleIndex q.handle)) ∧
        s.handle q.nal ≠ some (Api.ptlNIHandle q.handle)) (secondInterface 0 1) (by decide +kernel)
    exact ⟨s, hs, q, hmem, fun hr => hfind hr.1, hni⟩
  · exact exists_reached (closedFirst 0 1 2) (by decide +kernel)

end World
end Cplant.Portals
