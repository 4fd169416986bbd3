import Cplant.Foundations.Probing
import Cplant.Foundations.Runs
import Cplant.Nexus.Compress

/-!
# The handle maps of the NFS server

`nfssvc.c`: `handle_map` takes a client's handle to a vnode and `vnode_map` takes a vnode to its
entry there. Both are searched by open addressing, and entries are taken out when their vnode is
reclaimed. A panic or a failed `assert` is `none`.
-/
namespace Cplant.Nexus
open Function
open Finset
open Option
open Foundations

def hash (data : List UInt8) : UInt32 :=
  data.foldl (fun acc c =>
    let hibit := acc &&& 0x80000000
    let acc := acc <<< 1
    (if hibit ≠ 0 then acc ||| 1 else acc) ^^^ c.toUInt32) 0

structure MapEntry (V : Type*) where
  vp : V
  fh : List UInt8
  epp : ℕ
  deriving DecidableEq

structure Maps (V : Type*) where
  handleMap : ℕ → Option (MapEntry V)
  vnodeMap : ℕ → Option ℕ
  live : Finset V
  /-- How often `v_atreclaim` has registered `remove_handle`. -/
  callbacks : V → ℕ

structure Service (V : Type*) where
  vnodesMax : UInt32
  /-- The bytes of a vnode's address. -/
  address : V → List UInt8

/-- What the file systems say to `nfs_getv`, by the bytes of the device number: the vnode for
handle data or for an inode number, and whether the vnode cache has the inode number. -/
structure Answers (V : Type*) where
  getvByHandle : List UInt8 → Option (List UInt8) → Option V
  vfind : List UInt8 → List UInt8 → Bool
  getv : List UInt8 → List UInt8 → Option V

variable {V : Type*} [DecidableEq V]

namespace Maps
variable (s : Maps V) (k j : ℕ) (vp : V)

/-- `cache_handle` ignores an `ENOMEM` of `v_atreclaim`: without memory nothing is registered. -/
def insert (fh : List UInt8) (memory : Bool) : Maps V where
  handleMap := update s.handleMap k (some ⟨vp, fh, j⟩)
  vnodeMap := update s.vnodeMap j (some k)
  live := s.live
  callbacks := if memory then update s.callbacks vp (s.callbacks vp + 1) else s.callbacks

def delete : Maps V :=
  { s with
    handleMap := update s.handleMap k none
    vnodeMap := update s.vnodeMap j none }

def enter : Maps V := { s with live := Insert.insert vp s.live }

def leave : Maps V :=
  { s with live := s.live.erase vp, callbacks := update s.callbacks vp 0 }

def Unmapped : Prop := ∀ k e, s.handleMap k = some e → e.vp ≠ vp

end Maps
namespace Service
variable (c : Service V) (s : Maps V) (vp : V) (fh : List UInt8) (memory : Bool)

def handleMapLen : ℕ := (2 * c.vnodesMax - 1).toNat

def hashAddress : UInt32 := hash (c.address vp)

def lookupHandle : Option ℕ :=
  (seek c.handleMapLen (c.hashAddress vp) fun j =>
    (s.vnodeMap j).any fun k => (s.handleMap k).any fun e => e.vp = vp).bind s.vnodeMap

def removeHandle : Option (Maps V) :=
  (c.lookupHandle s vp).bind fun k => (s.handleMap k).map fun e => s.delete k e.epp

def cacheHandle : Option (Maps V) :=
  match seek c.handleMapLen (hash fh) fun k => (s.handleMap k).all fun e => e.vp = vp with
  | none => none
  | some k =>
    match s.handleMap k with
    | none =>
      (seek c.handleMapLen (c.hashAddress vp) fun j => (s.vnodeMap j).isNone).map
        fun j => s.insert k j vp fh memory
    | some e => if e.fh = fh ∧ s.vnodeMap e.epp = some k then some s else none

def nfsMkfh : Option (Maps V) :=
  if (c.lookupHandle s vp).isSome then some s else c.cacheHandle s vp fh memory

def lookupVnode : Option V :=
  ((seek c.handleMapLen (hash fh) fun k => (s.handleMap k).any fun e => e.fh = fh).bind
    s.handleMap).map MapEntry.vp

def regen : Bool := (fh.drop 8).headD 0 &&& 1 ≠ 0

def fetched (a : Answers V) : Option V :=
  if (c.lookupVnode s fh).isSome then none
  else if regen fh then a.getvByHandle (fh.take 8) (imuncompress (fh.drop 9) 249)
  else if a.vfind (fh.take 8) ((fh.drop 9).take 8) then none
  else a.getv (fh.take 8) ((fh.drop 9).take 8)

def nfsGetv (a : Answers V) : Option (Maps V) :=
  match c.fetched s fh a with
  | none => some s
  | some v => c.cacheHandle (s.enter v) v fh memory

def runCallbacks : ℕ → Maps V → Option (Maps V)
  | 0, s => some s
  | n + 1, s => (c.removeHandle s vp).bind (runCallbacks n)

def vReclaim : Option (Maps V) := (c.runCallbacks vp (s.callbacks vp) s).map fun s => s.leave vp

inductive Op (V : Type*)
  | instantiate (vp : V)
  | reclaim (vp : V)
  | mkfh (vp : V) (fh : List UInt8) (memory : Bool)
  | getv (fh : List UInt8) (a : Answers V) (memory : Bool)

def step : Op V → Option (Maps V)
  | .instantiate vp => some (s.enter vp)
  | .reclaim vp => c.vReclaim s vp
  | .mkfh vp fh memory => c.nfsMkfh s vp fh memory
  | .getv fh a memory => c.nfsGetv s fh memory a

def init : Maps V := ⟨fun _ => none, fun _ => none, ∅, fun _ => 0⟩

/-- There are no more than `vnodes_max` live vnodes, handles are made for and reclaims come to live
ones, and `VFSOP_GETV` is asked for what is not live. -/
def Allowed : Op V → Prop
  | .instantiate vp => (insert vp s.live).card ≤ c.vnodesMax.toNat
  | .reclaim vp => vp ∈ s.live
  | .mkfh vp _ _ => vp ∈ s.live
  | .getv fh a _ => ∀ vp ∈ c.fetched s fh a,
      (insert vp s.live).card ≤ c.vnodesMax.toNat ∧ (regen fh = false → vp ∉ s.live)

instance : DecidablePred (c.Allowed s)
  | .instantiate vp => inferInstanceAs (Decidable ((insert vp s.live).card ≤ c.vnodesMax.toNat))
  | .reclaim vp => inferInstanceAs (Decidable (vp ∈ s.live))
  | .mkfh vp _ _ => inferInstanceAs (Decidable (vp ∈ s.live))
  | .getv fh a _ => inferInstanceAs (Decidable (∀ vp ∈ c.fetched s fh a,
      (insert vp s.live).card ≤ c.vnodesMax.toNat ∧ (regen fh = false → vp ∉ s.live)))

/-- There is memory for the callback, and a handle that is not in the map is not another name of
a vnode that is. -/
def Unaliased : Op V → Prop
  | .mkfh _ _ memory => memory = true
  | .getv fh a memory => memory = true ∧ ∀ vp ∈ c.fetched s fh a, regen fh → s.Unmapped vp
  | _ => True

end Service

/-- Each vnode has at most one entry, and the slot that an entry points to is the only one that
points to it. -/
structure Maps.Inverse (s : Maps V) : Prop where
  single : ∀ {k k' e e'}, s.handleMap k = some e → s.handleMap k' = some e' → e.vp = e'.vp → k = k'
  pointed : ∀ {k e}, s.handleMap k = some e → ∀ j, s.vnodeMap j = some k ↔ j = e.epp

namespace Service
variable {c : Service V} {s s' : Maps V} {vp : V} {fh : List UInt8}

structure Inv (c : Service V) (s : Maps V) : Prop extends s.Inverse where
  used : ∀ {j k}, s.vnodeMap j = some k → s.handleMap k ≠ none
  near : ∀ {k e}, s.handleMap k = some e →
    ∃ i < c.handleMapLen, e.epp = probe c.handleMapLen (c.hashAddress e.vp) i
  live : ∀ {k e}, s.handleMap k = some e → e.vp ∈ s.live
  called : ∀ {k e}, s.handleMap k = some e → s.callbacks e.vp = 1
  idle : ∀ {vp}, s.Unmapped vp → s.callbacks vp = 0
  card : s.live.card ≤ c.vnodesMax.toNat

omit [DecidableEq V] in
theorem inv_init : Inv c init where
  single h := nomatch h
  pointed h := nomatch h
  used h := nomatch h
  near h := nomatch h
  live h := nomatch h
  called h := nomatch h
  idle _ := rfl
  card := Nat.zero_le _

namespace Inv

theorem enter (h : Inv c s) (hcard : (insert vp s.live).card ≤ c.vnodesMax.toNat) :
    Inv c (s.enter vp) :=
  { h with
    live := fun hk => mem_insert_of_mem (h.live hk)
    idle := h.idle
    card := hcard }

variable {e : MapEntry V} {k : ℕ}

theorem lookupHandle_eq (h : Inv c s) (hk : s.handleMap k = some e) :
    c.lookupHandle s e.vp = some k := by
  obtain ⟨i, hi, hepp⟩ := h.near hk
  have hback : s.vnodeMap e.epp = some k := (h.pointed hk _).mpr rfl
  obtain ⟨j, hj⟩ := exists_seek (p := fun j =>
    (s.vnodeMap j).any fun k => (s.handleMap k).any fun e' => e'.vp = e.vp) hi
    (by rw [← hepp]; simp [hback, hk])
  obtain ⟨k', hj', hk'⟩ := (any_eq_true _ _).mp (of_seek hj).1
  obtain ⟨e', hk', hvp⟩ := (any_eq_true _ _).mp hk'
  rw [lookupHandle, hj, bind_some, hj', h.single hk' hk (of_decide_eq_true hvp)]

theorem lookupHandle_eq_none (hnew : s.Unmapped vp) : c.lookupHandle s vp = none := by
  apply bind_eq_none_iff.mpr
  intro j hj
  obtain ⟨k, -, hk⟩ := (any_eq_true _ _).mp (of_seek hj).1
  obtain ⟨e, he, hvp⟩ := (any_eq_true _ _).mp hk
  exact absurd (of_decide_eq_true hvp) (hnew k e he)

theorem insert {j : ℕ} (h : Inv c s) (hvp : vp ∈ s.live) (hnew : s.Unmapped vp)
    (hk : s.handleMap k = none) (hj : s.vnodeMap j = none)
    (hnear : ∃ i < c.handleMapLen, j = probe c.handleMapLen (c.hashAddress vp) i) :
    Inv c (s.insert k j vp fh true) := by
  have hidle := h.idle hnew
  have hcases {k' e} (hk' : (s.insert k j vp fh true).handleMap k' = some e) :
      k' = k ∧ e = ⟨vp, fh, j⟩ ∨ k' ≠ k ∧ s.handleMap k' = some e := by
    simp only [Maps.insert, update_apply] at hk'
    grind
  have hkeep {k' e} (hk' : s.handleMap k' = some e) :
      (s.insert k j vp fh true).handleMap k' = some e := by
    simp only [Maps.insert, update_apply]
    grind
  have hthere : (s.insert k j vp fh true).handleMap k = some ⟨vp, fh, j⟩ := update_self ..
  refine ⟨⟨?_, ?_⟩, ?_, ?_, ?_, ?_, ?_, h.card⟩
  · have := @h.single
    grind [Maps.Unmapped]
  · have := @h.pointed
    have := @h.used
    simp only [Maps.insert, update_apply]
    grind
  · have := @h.used
    simp only [Maps.insert, update_apply]
    grind
  · have := @h.near
    grind
  · have := @h.live
    simp only [Maps.insert]
    grind
  · have := @h.called
    simp only [Maps.insert, update_apply]
    grind [Maps.Unmapped]
  · intro w hw
    have hne : w ≠ vp := fun h => hw _ _ hthere h.symm
    exact (update_of_ne hne ..).trans (h.idle fun k' e hk' => hw k' e (hkeep hk'))

theorem delete (h : Inv c s) (hk : s.handleMap k = some e) :
    Inv c ((s.delete k e.epp).leave e.vp) := by
  have hcases {k' e'} (hk' : ((s.delete k e.epp).leave e.vp).handleMap k' = some e') :
      k' ≠ k ∧ s.handleMap k' = some e' := by
    simp only [Maps.delete, Maps.leave, update_apply] at hk'
    grind
  have hother {k' e'} (hk' : ((s.delete k e.epp).leave e.vp).handleMap k' = some e') :
      e'.vp ≠ e.vp := fun he => (hcases hk').1 (h.single (hcases hk').2 hk he)
  have hback : s.vnodeMap e.epp = some k := (h.pointed hk _).mpr rfl
  refine ⟨⟨?_, ?_⟩, ?_, ?_, ?_, ?_, ?_, ?_⟩
  · intro k1 k2 e1 e2 h1 h2 he
    exact h.single (hcases h1).2 (hcases h2).2 he
  · intro k' e' hk' i
    have hiff := h.pointed (hcases hk').2 i
    simp only [Maps.delete, Maps.leave, update_apply]
    grind
  · have := @h.used
    have := @h.pointed
    simp only [Maps.delete, Maps.leave, update_apply]
    grind
  · intro k' e' hk'
    exact h.near (hcases hk').2
  · intro k' e' hk'
    exact mem_erase.mpr ⟨hother hk', h.live (hcases hk').2⟩
  · intro k' e' hk'
    exact (update_of_ne (hother hk') ..).trans (h.called (hcases hk').2)
  · intro w hw
    simp only [Maps.leave, Maps.delete, update_apply]
    split_ifs with hwe
    · rfl
    · apply h.idle
      intro k' e' hk'
      by_cases hkk : k' = k
      · rw [hkk, hk] at hk'
        exact some.inj hk' ▸ Ne.symm hwe
      · exact hw k' e' ((update_of_ne hkk ..).trans hk')
  · exact (card_le_card (erase_subset _ _)).trans h.card

theorem leave (h : Inv c s) (hnew : s.Unmapped vp) : Inv c (s.leave vp) where
  single := h.single
  pointed := h.pointed
  used := h.used
  near := h.near
  live hk := Finset.mem_erase.mpr ⟨hnew _ _ hk, h.live hk⟩
  called hk := (update_of_ne (hnew _ _ hk) ..).trans (h.called hk)
  idle {w} hw := by
    by_cases hwe : w = vp
    · exact hwe ▸ update_self ..
    · exact (update_of_ne hwe ..).trans (h.idle hw)
  card := (card_le_card (erase_subset _ _)).trans h.card

section
variable (hmax : c.vnodesMax.toNat ≤ 2 ^ 31) (h : Inv c s)
include hmax h

theorem room {o : ℕ → Option (MapEntry V)} (hvp : vp ∈ s.live) (hnew : s.Unmapped vp)
    (hocc : ∀ {i e}, o i = some e → ∃ k, s.handleMap k = some e)
    (hinj : ∀ {i j e e'}, o i = some e → o j = some e' → e.vp = e'.vp → i = j) (hval : UInt32) :
    ∃ i < c.handleMapLen, o (probe c.handleMapLen hval i) = none := by
  have hpos : 0 < c.vnodesMax.toNat := (card_pos.mpr ⟨vp, hvp⟩).trans_le h.card
  have hlen : c.handleMapLen = 2 * c.vnodesMax.toNat - 1 := by
    simp only [handleMapLen, UInt32.toNat_sub, UInt32.toNat_mul, UInt32.reduceToNat]
    omega
  obtain ⟨i, hi, hfree⟩ := exists_seek_free (o := fun k => (o k).map MapEntry.vp) hmax h.card hvp
    (fun i j w hi hj => by
      obtain ⟨e, he, rfl⟩ := map_eq_some_iff.mp hi
      obtain ⟨e', he', hw⟩ := map_eq_some_iff.mp hj
      exact hinj he he' hw.symm)
    (fun i w hi => by
      obtain ⟨e, he, rfl⟩ := map_eq_some_iff.mp hi
      obtain ⟨k, hk⟩ := hocc he
      exact mem_erase.mpr ⟨hnew k e hk, h.live hk⟩) hval
  exact ⟨i, hlen ▸ hi, hlen ▸ map_eq_none_iff.mp hfree⟩

theorem cacheHandle (hvp : vp ∈ s.live) (hnew : s.Unmapped vp) :
    ∃ s', c.cacheHandle s vp fh true = some s' ∧ Inv c s' := by
  obtain ⟨i, hi, hfree⟩ := h.room hmax hvp hnew (fun hk => ⟨_, hk⟩) h.single (hash fh)
  obtain ⟨k, hk⟩ := exists_seek (p := fun k => (s.handleMap k).all fun e => e.vp = vp) hi
    (by rw [hfree]; rfl)
  have hkfree : s.handleMap k = none := by
    cases he : s.handleMap k with
    | none => rfl
    | some e => exact absurd (by simpa [he] using (of_seek hk).1) (hnew k e he)
  -- a slot of the other map is free when the entry that it would lead to is
  obtain ⟨i', hi', hfree'⟩ := h.room (o := fun j => (s.vnodeMap j).bind s.handleMap) hmax hvp hnew
    (fun he => (bind_eq_some_iff.mp he).imp fun _ => And.right)
    (fun {i j e e'} he he' hvp => by
      obtain ⟨k, hik, hk⟩ := bind_eq_some_iff.mp he
      obtain ⟨k', hjk, hk'⟩ := bind_eq_some_iff.mp he'
      obtain rfl := h.single hk hk' hvp
      exact ((h.pointed hk i).mp hik).trans ((h.pointed hk j).mp hjk).symm) (c.hashAddress vp)
  obtain ⟨j, hj⟩ := exists_seek (p := fun j => (s.vnodeMap j).isNone) hi' (by
    rw [isNone_iff_eq_none]
    by_contra hne
    obtain ⟨k, hk⟩ := ne_none_iff_exists'.mp hne
    exact h.used hk (bind_eq_none_iff.mp hfree' k hk))
  obtain ⟨hjfree, near⟩ := of_seek hj
  refine ⟨s.insert k j vp fh true, ?_,
    h.insert hvp hnew hkfree (isNone_iff_eq_none.mp hjfree) near⟩
  simp [Service.cacheHandle, hk, hkfree, hj]

theorem mkfh (hvp : vp ∈ s.live) : ∃ s', c.nfsMkfh s vp fh true = some s' ∧ Inv c s' := by
  by_cases hnew : s.Unmapped vp
  · rw [nfsMkfh, lookupHandle_eq_none hnew]
    exact h.cacheHandle hmax hvp hnew
  · unfold Maps.Unmapped at hnew
    push Not at hnew
    obtain ⟨k, e, hk, rfl⟩ := hnew
    rw [nfsMkfh, h.lookupHandle_eq hk]
    exact ⟨s, rfl, h⟩

theorem getv {a : Answers V} (hok : c.Allowed s (.getv fh a true))
    (hun : c.Unaliased s (.getv fh a true)) : ∃ s', c.nfsGetv s fh true a = some s' ∧ Inv c s' := by
  unfold nfsGetv
  cases hf : c.fetched s fh a with
  | none => exact ⟨s, rfl, h⟩
  | some v =>
    obtain ⟨hcard, hgone⟩ := hok v hf
    have hnew : s.Unmapped v := by
      cases hr : regen fh with
      | true => exact hun.2 v hf hr
      | false => exact fun k e hk he => hgone hr (he ▸ h.live hk)
    exact (h.enter hcard).cacheHandle hmax (mem_insert_self v s.live) hnew

end

theorem reclaim (h : Inv c s) (vp : V) :
    ∃ s', c.vReclaim s vp = some s' ∧ Inv c s' ∧ s'.Unmapped vp := by
  by_cases hnew : s.Unmapped vp
  · refine ⟨s.leave vp, ?_, h.leave hnew, hnew⟩
    rw [vReclaim, h.idle hnew]
    rfl
  unfold Maps.Unmapped at hnew
  push Not at hnew
  obtain ⟨k, e, hk, rfl⟩ := hnew
  have hinv := h.delete hk
  refine ⟨_, ?_, hinv, fun k' e' hk' he => ?_⟩
  · rw [vReclaim, h.called hk, runCallbacks, removeHandle, h.lookupHandle_eq hk]
    simp [hk, runCallbacks]
  · exact ne_of_mem_erase (hinv.live hk') he

theorem step {op : Op V} (hmax : c.vnodesMax.toNat ≤ 2 ^ 31) (h : Inv c s) (hok : c.Allowed s op)
    (hun : c.Unaliased s op) : ∃ s', c.step s op = some s' ∧ Inv c s' := by
  cases op with
  | instantiate vp => exact ⟨_, rfl, h.enter hok⟩
  | reclaim vp => exact (h.reclaim vp).imp fun _ hs => ⟨hs.1, hs.2.1⟩
  | mkfh vp fh memory =>
    obtain rfl : memory = true := hun
    exact h.mkfh hmax hok
  | getv fh a memory =>
    obtain rfl := hun.1
    exact h.getv hmax hok hun

end Inv

/-- In a run in which no handle is another name of a mapped vnode and each callback is registered
the maps stay inverse to each
other, no step stops the server and a reclaimed vnode has no entry. -/
theorem maps_inverse (hmax : c.vnodesMax.toNat ≤ 2 ^ 31)
    (hrun : Reaches c.step (fun s op => c.Allowed s op ∧ c.Unaliased s op) init s) : s.Inverse ∧
      (∀ op, c.Allowed s op → c.Unaliased s op → c.step s op ≠ none) ∧
      ∀ vp s', c.step s (.reclaim vp) = some s' → s'.Unmapped vp := by
  have h : Inv c s := by
    apply hrun.invariant inv_init
    intro s s' op h hok hs
    obtain ⟨s1, hs1, h1⟩ := h.step hmax hok.1 hok.2
    exact some.inj (hs1.symm.trans hs) ▸ h1
  refine ⟨h.toInverse, fun op hok hun => ?_, fun vp s' hs => ?_⟩
  · obtain ⟨s', hs, -⟩ := h.step hmax hok hun
    simp [hs]
  · obtain ⟨s1, hs1, -, hun⟩ := h.reclaim vp
    exact some.inj (hs1.symm.trans hs) ▸ hun

def paddedHandle (padding : UInt8) : List UInt8 :=
  [0, 0, 0, 1, 0, 0, 0, 0, 1] ++ [192, 61, 128, 191, 255, 48, 34, 33, 128] ++
    List.replicate 13 0 ++ [padding]

def oneFile : Answers ℕ where
  getvByHandle _ data := if data = some [0, 0, 0, 1, 0, 0, 0, 0, 0, 0, 0, 2] then some 0 else none
  vfind _ _ := false
  getv _ _ := none

def small : Service ℕ := ⟨2, fun _ => []⟩

def Op.Made : Op V → Bool
  | .mkfh _ _ memory => memory
  | .getv .. => false
  | _ => true

theorem maps_inverse_two : ∃ s s', (s.handleMap 1).map MapEntry.vp = some 0 ∧
      (s.handleMap 2).map MapEntry.vp = some 1 ∧ s.Inverse ∧
      small.step s (.reclaim 0) = some s' ∧ s'.Unmapped 0 ∧ s'.handleMap 2 = s.handleMap 2 := by
  obtain ⟨s, hrun, h1, h2, hreclaim⟩ : ∃ s,
      Reaches small.step (fun s op => small.Allowed s op ∧ op.Made = true) init s ∧
        (s.handleMap 1).map MapEntry.vp = some 0 ∧ (s.handleMap 2).map MapEntry.vp = some 1 ∧
        (small.step s (.reclaim 0)).any fun s' => s'.handleMap 2 = s.handleMap 2 :=
    exists_reaches [.instantiate 0, .mkfh 0 [1] true, .instantiate 1, .mkfh 1 [2] true]
      (by decide +kernel)
  obtain ⟨s', hs, hkept⟩ := (any_eq_true _ _).mp hreclaim
  have hrun : Reaches small.step (fun s op => small.Allowed s op ∧ small.Unaliased s op)
      init s := by
    refine hrun.invariant .init fun {_ _ op} h hok hs => h.step op ⟨hok.1, ?_⟩ hs
    cases op with
    | instantiate | reclaim => trivial
    | mkfh => exact hok.2
    | getv => cases hok.2
  obtain ⟨hinv, -, hgone⟩ := maps_inverse (by decide) hrun
  exact ⟨s, s', h1, h2, hinv, hs, hgone 0 s' hs, of_decide_eq_true hkept⟩

theorem padded_handles_alias : ∃ s, Reaches small.step small.Allowed init s ∧ ¬ s.Inverse := by
  refine exists_reaches_imp (P := fun s =>
      (s.handleMap 0).map MapEntry.vp = some 0 ∧ (s.handleMap 1).map MapEntry.vp = some 0)
    [.getv (paddedHandle 0) oneFile true, .getv (paddedHandle 1) oneFile true] (by decide +kernel)
    fun s _ ⟨h0, h1⟩ h => ?_
  obtain ⟨e0, he0, hvp0⟩ := map_eq_some_iff.mp h0
  obtain ⟨e1, he1, hvp1⟩ := map_eq_some_iff.mp h1
  cases h.single he0 he1 (hvp0.trans hvp1.symm)

end Service
end Cplant.Nexus
