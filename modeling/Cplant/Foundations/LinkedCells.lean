import Mathlib.Data.List.Nodup
import Mathlib.Data.List.Perm.Subperm

/-!
# Intrusive doubly linked lists with back pointers to cells

A node holds the node after it and, instead of the node before it, the address
of the cell that points to it: either the head cell of some list or the `next`
field of another node. A node whose back pointer is null starts a list of its
own that no head cell knows about.
-/
namespace Cplant
open Function
open List

inductive Cell (κ : Type*)
  | head (k : κ)
  | node (i : ℕ)
deriving DecidableEq, Repr

structure Links (κ : Type*) where
  head : κ → Option ℕ
  next : ℕ → Option ℕ
  prev : ℕ → Option (Cell κ)

namespace Links
variable {κ : Type*} {H : κ → Prop} {L : ℕ → Prop} {own : ℕ → Option κ} {l : Links κ} {i j : ℕ}
  {c : Option (Cell κ)} {k : κ} {t : List ℕ} {o : Option κ}

def get (l : Links κ) : Cell κ → Option ℕ
  | .head k => l.head k
  | .node i => l.next i

def setPrev (l : Links κ) (i : ℕ) (c : Option (Cell κ)) : Links κ :=
  { l with prev := update l.prev i c }

def setPrevOf (l : Links κ) : Option ℕ → Option (Cell κ) → Links κ
  | some i, c => l.setPrev i c
  | none, _ => l

section
variable (l : Links κ)

theorem next_eq_get (i : ℕ) : l.next i = l.get (.node i) := rfl

theorem head_eq_get (k : κ) : l.head k = l.get (.head k) := rfl

@[simp] theorem get_setPrev (i : ℕ) (c : Option (Cell κ)) (d : Cell κ) :
    (l.setPrev i c).get d = l.get d := by
  cases d <;> rfl

@[simp] theorem prev_setPrev (i : ℕ) (c : Option (Cell κ)) (j : ℕ) :
    (l.setPrev i c).prev j = if j = i then c else l.prev j := by
  simp [setPrev, update_apply]

@[simp] theorem get_setPrevOf (o : Option ℕ) (c : Option (Cell κ)) (d : Cell κ) :
    (l.setPrevOf o c).get d = l.get d := by
  cases o <;> simp [setPrevOf]

@[simp] theorem prev_setPrevOf (o : Option ℕ) (c : Option (Cell κ)) (j : ℕ) :
    (l.setPrevOf o c).prev j = if o = some j then c else l.prev j := by
  cases o with
  | none => simp [setPrevOf]
  | some i => simp [setPrevOf, eq_comm]

end
section
variable [DecidableEq κ] {l : Links κ} {obj new : ℕ}

def set (l : Links κ) (c : Cell κ) (v : Option ℕ) : Links κ :=
  match c with
  | .head k => { l with head := update l.head k v }
  | .node i => { l with next := update l.next i v }

def setThrough (l : Links κ) : Option (Cell κ) → Option ℕ → Links κ
  | some c, v => l.set c v
  | none, _ => l

def clear (l : Links κ) (i : ℕ) : Links κ :=
  (l.setPrev i none).set (.node i) none

def insertAfter (l : Links κ) (obj new : ℕ) : Links κ :=
  let l := l.set (.node new) (l.next obj)
  let l := l.setPrev new (some (.node obj))
  let l := l.set (.node obj) (some new)
  l.setPrevOf (l.next new) (some (.node new))

def insertBefore (l : Links κ) (obj new : ℕ) : Links κ :=
  let l := l.set (.node new) (some obj)
  let l := l.setPrev new (l.prev obj)
  let l := l.setPrev obj (some (.node new))
  l.setThrough (l.prev new) (some new)

def unlink (l : Links κ) (obj : ℕ) : Links κ :=
  let l := l.setThrough (l.prev obj) (l.next obj)
  let l := l.setPrevOf (l.next obj) (l.prev obj)
  l.clear obj

def attach (l : Links κ) (k : κ) (new : ℕ) : Links κ :=
  (l.setPrev new (some (.head k))).set (.head k) (some new)

section
variable (l : Links κ)

@[simp] theorem get_set (c d : Cell κ) (v : Option ℕ) :
    (l.set c v).get d = if d = c then v else l.get d := by
  cases c <;> cases d <;> simp [set, get, update_apply]

@[simp] theorem prev_set (c : Cell κ) (v : Option ℕ) : (l.set c v).prev = l.prev := by
  cases c <;> rfl

@[simp] theorem get_setThrough (p : Option (Cell κ)) (v : Option ℕ) (d : Cell κ) :
    (l.setThrough p v).get d = if p = some d then v else l.get d := by
  cases p with
  | none => simp [setThrough]
  | some c => simp [setThrough, eq_comm]

@[simp] theorem prev_setThrough (p : Option (Cell κ)) (v : Option ℕ) :
    (l.setThrough p v).prev = l.prev := by
  cases p <;> simp [setThrough]

theorem get_clear (i : ℕ) (d : Cell κ) :
    (l.clear i).get d = if d = .node i then none else l.get d := by
  simp [clear]

theorem prev_clear (i j : ℕ) : (l.clear i).prev j = if j = i then none else l.prev j := by
  simp [clear]

theorem get_unlink (i : ℕ) (d : Cell κ) : (l.unlink i).get d =
      if d = .node i then none else if l.prev i = some d then l.next i else l.get d := by
  simp [unlink, get_clear]

end

theorem prev_unlink (h : l.prev i ≠ some (.node i)) (j : ℕ) : (l.unlink i).prev j =
      if j = i then none else if l.next i = some j then l.prev i else l.prev j := by
  simp only [unlink, prev_clear, next_eq_get, get_setThrough, prev_setPrevOf, prev_setThrough, h,
    if_false]
  grind

theorem get_insertAfter (l : Links κ) (obj new : ℕ) (d : Cell κ) : (l.insertAfter obj new).get d =
      if d = .node obj then some new else if d = .node new then l.next obj else l.get d := by
  simp [insertAfter]

theorem prev_insertAfter (h : new ≠ obj) (j : ℕ) : (l.insertAfter obj new).prev j =
      if l.next obj = some j then some (.node new)
      else if j = new then some (.node obj) else l.prev j := by
  have hne : (Cell.node new : Cell κ) ≠ .node obj := by simpa using h
  simp only [insertAfter, next_eq_get, prev_setPrevOf, prev_set, prev_setPrev, get_set,
    get_setPrev, hne, if_false, if_true]
  grind

theorem get_insertBefore (h : new ≠ obj) (d : Cell κ) : (l.insertBefore obj new).get d =
      if l.prev obj = some d then some new else if d = .node new then some obj else l.get d := by
  simp [insertBefore, h]

theorem prev_insertBefore (j : ℕ) : (l.insertBefore obj new).prev j =
      if j = obj then some (.node new) else if j = new then l.prev obj else l.prev j := by
  simp [insertBefore]

theorem get_attach (l : Links κ) (k : κ) (new : ℕ) (d : Cell κ) :
    (l.attach k new).get d = if d = .head k then some new else l.get d := by
  simp [attach]

theorem prev_attach (l : Links κ) (k : κ) (new j : ℕ) :
    (l.attach k new).prev j = if j = new then some (.head k) else l.prev j := by
  simp [attach]

end

def Live (H : κ → Prop) (L : ℕ → Prop) : Cell κ → Prop
  | .head k => H k
  | .node i => L i

inductive Rooted (prev : ℕ → Option (Cell κ)) : Option (Cell κ) → Option κ → Prop
  | null : Rooted prev none none
  | head (k : κ) : Rooted prev (some (.head k)) (some k)
  | node {i : ℕ} {o : Option κ} (h : Rooted prev (prev i) o) : Rooted prev (some (.node i)) o

/-- `H` and `L` are the head cells and nodes that exist; `own` names the list
each node is on. -/
structure WellLinked (H : κ → Prop) (L : ℕ → Prop) (own : ℕ → Option κ) (l : Links κ) : Prop where
  fwd : ∀ c j, Live H L c → l.get c = some j → L j ∧ l.prev j = some c
  bwd : ∀ j c, L j → l.prev j = some c → Live H L c ∧ l.get c = some j
  rooted : ∀ j, L j → Rooted l.prev (l.prev j) (own j)

theorem Rooted.not_self (h : Rooted l.prev (l.prev i) o) : l.prev i ≠ some (.node i) := by
  intro hi
  generalize hc : l.prev i = c at h
  induction h with
  | null => simp [hi] at hc
  | head k => simp [hi] at hc
  | @node j o _ ih =>
    have hj : j = i := by simpa [hi, eq_comm] using hc
    subst hj
    exact ih rfl

/-- Rootedness of a live cell carries over to new back pointers. `bypass` redirects
a cell that the change takes out of its list. -/
theorem Rooted.transport (w : WellLinked H L own l) {prev' : ℕ → Option (Cell κ)}
    (bypass : Option (Cell κ) → Option (Cell κ)) (hnull : bypass none = none)
    (hhead : ∀ k, bypass (some (.head k)) = some (.head k))
    (step : ∀ j o, L j → Rooted prev' (bypass (l.prev j)) o →
      Rooted prev' (bypass (some (.node j))) o)
    (h : Rooted l.prev c o) (hc : ∀ d, c = some d → Live H L d) : Rooted prev' (bypass c) o := by
  induction h with
  | null => rw [hnull]; exact .null
  | head k => rw [hhead]; exact .head k
  | @node i o _ ih =>
    have hi : L i := hc _ rfl
    exact step i o hi (ih fun d hd => (w.bwd i d hi hd).1)

namespace WellLinked
section
variable (w : WellLinked H L own l) {prev' : ℕ → Option (Cell κ)}
include w

theorem prev_live (hj : L j) : ∀ d, l.prev j = some d → Live H L d :=
  fun d hd => (w.bwd j d hj hd).1

theorem next_iff (hi : L i) (hj : L j) : l.next i = some j ↔ l.prev j = some (.node i) :=
  ⟨fun h => (w.fwd (.node i) j hi h).2, fun h => (w.bwd j _ hj h).2⟩

theorem rooted_of_step
    (step : ∀ j o, L j → Rooted prev' (l.prev j) o → Rooted prev' (prev' j) o) (hj : L j) :
    Rooted prev' (prev' j) (own j) :=
  step j _ hj <| Rooted.transport w id rfl (fun _ => rfl) (fun i o hi hr => .node (step i o hi hr))
    (w.rooted j hj) (w.prev_live hj)

theorem rooted_insert {new : ℕ} (hn : ¬ L new) (hnew : Rooted prev' (prev' new) o)
    (hstep : ∀ j o, L j → Rooted prev' (l.prev j) o → Rooted prev' (prev' j) o) :
    ∀ j, j = new ∨ L j → Rooted prev' (prev' j) (update own new o j) := by
  rintro j (rfl | hj)
  · rwa [update_self]
  · have hjn : j ≠ new := fun h => hn (h ▸ hj)
    rw [update_of_ne hjn]
    exact w.rooted_of_step hstep hj

theorem congr {H' : κ → Prop} {L' : ℕ → Prop} {own' : ℕ → Option κ} (hH : ∀ k, H' k ↔ H k)
    (hL : ∀ j, L' j ↔ L j) (ho : ∀ j, L j → own' j = own j) : WellLinked H' L' own' l := by
  obtain rfl : H' = H := funext fun k => propext (hH k)
  obtain rfl : L' = L := funext fun j => propext (hL j)
  exact ⟨w.fwd, w.bwd, fun j hj => ho j hj ▸ w.rooted j hj⟩

theorem head_of_own (hj : L j) (ho : own j = some k) : H k ∧ l.head k ≠ none := by
  have hr := ho ▸ w.rooted j hj
  clear ho
  generalize hc : l.prev j = c at hr
  generalize hk : some k = o at hr
  induction hr generalizing j with
  | null => cases hk
  | head k' =>
    cases hk
    obtain ⟨hH, hg⟩ := w.bwd j _ hj hc
    exact ⟨hH, by simp [show l.head k = some j from hg]⟩
  | node _ ih => exact ih (w.bwd j _ hj hc).1 rfl hk

theorem own_of_head (hk : H k) (hh : l.head k = some j) : L j ∧ own j = some k := by
  obtain ⟨hj, hp⟩ := w.fwd (.head k) j hk hh
  have hr := w.rooted j hj
  rw [hp] at hr
  generalize own j = o at hr
  cases hr
  exact ⟨hj, rfl⟩

end
end WellLinked
section
variable [DecidableEq κ] {obj new : ℕ}

/-- The cell that takes over the role of `c` when node `i` leaves its list. -/
def bypass (l : Links κ) (i : ℕ) (c : Option (Cell κ)) : Option (Cell κ) :=
  if c = some (.node i) then l.prev i else c

theorem WellLinked.prev_unlink (w : WellLinked H L own l) (hi : L i) (hj : L j)
    (hne : j ≠ i) : (l.unlink i).prev j = l.bypass i (l.prev j) := by
  rw [Links.prev_unlink (w.rooted i hi).not_self, if_neg hne, bypass]
  simp [w.next_iff hi hj]

theorem WellLinked.unlink (w : WellLinked H L own l) (hi : L i) :
    WellLinked H (fun j => L j ∧ j ≠ i) own (l.unlink i) := by
  have hs := (w.rooted i hi).not_self
  refine ⟨fun c j hc hj => ?_, fun j c hj hc => ?_, fun j hj => ?_⟩
  · rw [get_unlink] at hj
    rw [Links.prev_unlink hs]
    have := w.fwd c j
    have := w.fwd (.node i) j
    cases c <;> simp only [Live, next_eq_get] at * <;> grind
  · rw [Links.prev_unlink hs] at hc
    rw [get_unlink]
    have := w.bwd j c
    have := w.bwd i c
    cases c <;> simp only [Live, next_eq_get] at * <;> grind
  · have hstep : ∀ k o, L k → Rooted (l.unlink i).prev (l.bypass i (l.prev k)) o →
        Rooted (l.unlink i).prev (l.bypass i (some (.node k))) o := by
      intro k o hk hr
      by_cases hki : k = i
      · subst hki
        simpa [bypass, hs] using hr
      · simp only [bypass, Option.some.injEq, Cell.node.injEq, hki, if_false]
        exact .node (w.prev_unlink hi hk hki ▸ hr)
    rw [w.prev_unlink hi hj.1 hj.2]
    exact Rooted.transport w (l.bypass i) (by simp [bypass]) (by simp [bypass]) hstep
      (w.rooted j hj.1) (w.prev_live hj.1)

section
variable (w : WellLinked H L own l) {e : ℕ}
include w

namespace WellLinked

theorem insertAfter (ho : L obj) (hn : ¬ L new) :
    WellLinked H (fun j => j = new ∨ L j) (update own new (own obj)) (l.insertAfter obj new) := by
  have hne : new ≠ obj := fun h => hn (h ▸ ho)
  have hself : l.next obj ≠ some new := fun h => hn (w.fwd (.node obj) new ho h).1
  have hnew : (l.insertAfter obj new).prev new = some (.node obj) := by
    rw [prev_insertAfter hne, if_neg hself, if_pos rfl]
  have hstep : ∀ j o, L j → Rooted (l.insertAfter obj new).prev (l.prev j) o →
      Rooted (l.insertAfter obj new).prev ((l.insertAfter obj new).prev j) o := by
    intro j o hj hr
    have hjn : j ≠ new := fun h => hn (h ▸ hj)
    by_cases h : l.next obj = some j
    · rw [show (l.insertAfter obj new).prev j = some (.node new) by
        rw [prev_insertAfter hne, if_pos h]]
      refine .node ?_
      rwa [hnew, ← (w.next_iff ho hj).mp h]
    · rwa [show (l.insertAfter obj new).prev j = l.prev j by
        rw [prev_insertAfter hne, if_neg h, if_neg hjn]]
  refine ⟨fun c j hc hj => ?_, fun j c hj hc => ?_,
    w.rooted_insert hn (hnew ▸ .node (w.rooted_of_step hstep ho)) hstep⟩
  · rw [get_insertAfter] at hj
    rw [prev_insertAfter hne]
    have := w.fwd c j
    have := w.fwd (.node obj) j
    cases c <;> simp only [Live, next_eq_get] at * <;> grind
  · rw [prev_insertAfter hne] at hc
    rw [get_insertAfter]
    have := w.bwd j c
    cases c <;> simp only [Live, next_eq_get] at * <;> grind

theorem insertBefore (ho : L obj) (hn : ¬ L new) :
    WellLinked H (fun j => j = new ∨ L j) (update own new (own obj)) (l.insertBefore obj new) := by
  have hne : new ≠ obj := fun h => hn (h ▸ ho)
  have hnew : (l.insertBefore obj new).prev new = l.prev obj := by
    rw [prev_insertBefore, if_neg hne, if_pos rfl]
  have hstep : ∀ j o, L j → Rooted (l.insertBefore obj new).prev (l.prev j) o →
      Rooted (l.insertBefore obj new).prev ((l.insertBefore obj new).prev j) o := by
    intro j o hj hr
    have hjn : j ≠ new := fun h => hn (h ▸ hj)
    rw [prev_insertBefore]
    by_cases h : j = obj
    · rw [if_pos h]
      exact .node (hnew ▸ h ▸ hr)
    · rwa [if_neg h, if_neg hjn]
  refine ⟨fun c j hc hj => ?_, fun j c hj hc => ?_, w.rooted_insert hn ?_ hstep⟩
  · rw [get_insertBefore hne] at hj
    rw [prev_insertBefore]
    have := w.fwd c j
    cases c <;> simp only [Live] at * <;> grind
  · rw [prev_insertBefore] at hc
    rw [get_insertBefore hne]
    have := w.bwd j c
    have := w.bwd obj c
    cases c <;> simp only [Live] at * <;> grind
  · have h := w.rooted_of_step hstep ho
    rw [prev_insertBefore, if_pos rfl] at h
    cases h with
    | node h => exact h

theorem clear_dead (hn : ¬ L new) : WellLinked H L own (l.clear new) := by
  have hprev : ∀ j, L j → (l.clear new).prev j = l.prev j := by
    intro j hj
    have hjn : j ≠ new := fun h => hn (h ▸ hj)
    rw [prev_clear, if_neg hjn]
  have hget : ∀ c, Live H L c → (l.clear new).get c = l.get c := by
    intro c hc
    have hcn : c ≠ .node new := by rintro rfl; exact hn hc
    rw [get_clear, if_neg hcn]
  refine ⟨fun c j hc hj => ?_, fun j c hj hc => ?_, fun j hj => ?_⟩
  · obtain ⟨hl, hp⟩ := w.fwd c j hc (hget c hc ▸ hj)
    exact ⟨hl, (hprev j hl).trans hp⟩
  · obtain ⟨hl, hg⟩ := w.bwd j c hj (hprev j hj ▸ hc)
    exact ⟨hl, (hget c hl).trans hg⟩
  · exact w.rooted_of_step (fun i o hi hr => hprev i hi ▸ hr) hj

theorem clear (hn : ¬ L new) :
    WellLinked H (fun j => j = new ∨ L j) (update own new none) (l.clear new) := by
  refine ⟨fun c j hc hj => ?_, fun j c hj hc => ?_,
    w.rooted_insert hn (by rw [prev_clear, if_pos rfl]; exact .null) fun j _ hj hr => ?_⟩
  · rw [get_clear] at hj
    rw [prev_clear]
    have := w.fwd c j
    cases c <;> simp only [Live] at * <;> grind
  · rw [prev_clear] at hc
    rw [get_clear]
    have := w.bwd j c
    cases c <;> simp only [Live] at * <;> grind
  · have hjn : j ≠ new := fun h => hn (h ▸ hj)
    rwa [prev_clear, if_neg hjn]

theorem attach (hk : H k) (hempty : l.head k = none) (hclear : l.next new = none) (hn : ¬ L new) :
    WellLinked H (fun j => j = new ∨ L j) (update own new (some k)) (l.attach k new) := by
  refine ⟨fun c j hc hj => ?_, fun j c hj hc => ?_,
    w.rooted_insert hn (by rw [prev_attach, if_pos rfl]; exact .head k) fun j _ hj hr => ?_⟩
  · rw [get_attach] at hj
    rw [prev_attach]
    have := w.fwd c j
    rw [next_eq_get] at hclear
    cases c <;> simp only [Live] at * <;> grind
  · rw [prev_attach] at hc
    rw [get_attach]
    have := w.bwd j c
    rw [head_eq_get] at hempty
    cases c <;> simp only [Live] at * <;> grind
  · have hjn : j ≠ new := fun h => hn (h ▸ hj)
    rwa [prev_attach, if_neg hjn]

theorem addHead (hk : ¬ H k) : WellLinked (fun a => a = k ∨ H a) L own (l.set (.head k) none) := by
  refine ⟨fun c j hc hj => ?_, fun j c hj hc => ?_, fun j hj => ?_⟩
  · have := w.fwd c j
    rw [get_set] at hj
    rw [prev_set]
    cases c <;> simp only [Live] at * <;> grind
  · have := w.bwd j c
    rw [prev_set] at hc
    rw [get_set]
    cases c <;> simp only [Live] at * <;> grind
  · rw [prev_set]
    exact w.rooted j hj

theorem insertAfter_dead (ho : L obj) (hn : ¬ L new) (he : ¬ L e) (hne : e ≠ new) :
    (l.insertAfter obj new).next e = l.next e ∧ (l.insertAfter obj new).prev e = l.prev e := by
  have hno : new ≠ obj := fun h => hn (h ▸ ho)
  have heo : e ≠ obj := fun h => he (h ▸ ho)
  have hnext : l.next obj ≠ some e := fun h => he (w.fwd (.node obj) e ho h).1
  refine ⟨?_, by simp [prev_insertAfter hno, hnext, hne]⟩
  simp [next_eq_get, get_insertAfter, heo, hne]

theorem insertBefore_dead (ho : L obj) (hn : ¬ L new) (he : ¬ L e) (hne : e ≠ new) :
    (l.insertBefore obj new).next e = l.next e ∧ (l.insertBefore obj new).prev e = l.prev e := by
  have hno : new ≠ obj := fun h => hn (h ▸ ho)
  have heo : e ≠ obj := fun h => he (h ▸ ho)
  have hprev : l.prev obj ≠ some (.node e) := fun h => he (w.bwd obj _ ho h).1
  refine ⟨?_, by simp [prev_insertBefore, heo, hne]⟩
  simp [next_eq_get, get_insertBefore hno, hprev, hne]

end WellLinked
end
end

theorem WellLinked.dropHead (w : WellLinked H L own l) (hempty : l.head k = none) :
    WellLinked (fun a => H a ∧ a ≠ k) L own l := by
  refine ⟨fun c j hc hj => ?_, fun j c hj hc => ?_, w.rooted⟩
  · have := w.fwd c j
    cases c <;> simp only [Live] at * <;> grind
  · have := w.bwd j c
    rw [head_eq_get] at hempty
    cases c <;> simp only [Live] at * <;> grind

def Walk (l : Links κ) : Option ℕ → List ℕ → Prop
  | o, [] => o = none
  | o, i :: ids => o = some i ∧ Walk l (l.next i) ids

def Trail (l : Links κ) : Option (Cell κ) → List ℕ → Prop
  | c, [] => ∀ i, c ≠ some (.node i)
  | c, i :: t => c = some (.node i) ∧ Trail l (l.prev i) t

theorem Trail.unique {t' : List ℕ} (h : l.Trail c t) (h' : l.Trail c t') : t = t' := by
  induction t generalizing c t' with
  | nil =>
    cases t' with
    | nil => rfl
    | cons j t => exact absurd h'.1 (h j)
  | cons i t ih =>
    cases t' with
    | nil => exact absurd h.1 (h' i)
    | cons j t' =>
      have hij : i = j := by simpa using h.1.symm.trans h'.1
      subst hij
      rw [ih h.2 h'.2]

theorem Trail.suffix (h : l.Trail c t) (hi : i ∈ t) :
    ∃ t', l.Trail (some (.node i)) t' ∧ t'.length ≤ t.length := by
  induction t generalizing c with
  | nil => simp at hi
  | cons j t ih =>
    rcases mem_cons.mp hi with rfl | hi
    · exact ⟨i :: t, ⟨rfl, h.2⟩, Nat.le_refl _⟩
    · obtain ⟨t', ht', hlen⟩ := ih h.2 hi
      exact ⟨t', ht', by simp only [length_cons]; omega⟩

theorem Trail.nodup (h : l.Trail c t) : t.Nodup := by
  induction t generalizing c with
  | nil => exact nodup_nil
  | cons i t ih =>
    refine nodup_cons.mpr ⟨fun hi => ?_, ih h.2⟩
    -- a second visit of `i` would start a shorter trail from the same cell
    obtain ⟨t', ht', hlen⟩ := h.2.suffix hi
    have heq : t' = i :: t := ht'.unique ⟨rfl, h.2⟩
    simp only [heq, length_cons] at hlen
    omega

section
variable {n : ℕ} (w : WellLinked H L own l) (hn : ∀ i, L i → i < n)
include w hn

theorem WellLinked.exists_walk_from (m : ℕ) :
    ∀ c t, Live H L c → l.Trail (some c) t → (∀ i ∈ t, i < n) → n - t.length ≤ m →
      ∃ ids, l.Walk (l.get c) ids ∧ (∀ i ∈ ids, L i) ∧ (ids.reverse ++ t).Nodup := by
  induction m with
  | zero =>
    intro c t hc ht hlt hm
    cases hg : l.get c with
    | none => exact ⟨[], rfl, by simp, by simpa using ht.nodup⟩
    | some j =>
      obtain ⟨hj, hp⟩ := w.fwd c j hc hg
      have hnd : (j :: t).Nodup := Trail.nodup (l := l) (c := some (.node j)) ⟨rfl, hp ▸ ht⟩
      have hsub : j :: t ⊆ List.range n := by
        intro i hi
        rcases mem_cons.mp hi with rfl | hi
        · exact mem_range.mpr (hn i hj)
        · exact mem_range.mpr (hlt i hi)
      have hlen := (subperm_of_subset hnd hsub).length_le
      simp only [length_cons, length_range] at hlen
      omega
  | succ m ih =>
    intro c t hc ht hlt hm
    cases hg : l.get c with
    | none => exact ⟨[], rfl, by simp, by simpa using ht.nodup⟩
    | some j =>
      obtain ⟨hj, hp⟩ := w.fwd c j hc hg
      have hlt' : ∀ i ∈ j :: t, i < n := by
        intro i hi
        rcases mem_cons.mp hi with rfl | hi
        · exact hn i hj
        · exact hlt i hi
      have hm' : n - (j :: t).length ≤ m := by simp only [length_cons]; omega
      obtain ⟨ids, hwalk, hlive, hnd⟩ := ih (.node j) (j :: t) hj ⟨rfl, hp ▸ ht⟩ hlt' hm'
      refine ⟨j :: ids, ⟨rfl, hwalk⟩, ?_, by simpa using hnd⟩
      intro i hi
      rcases mem_cons.mp hi with rfl | hi
      · exact hj
      · exact hlive i hi

theorem WellLinked.exists_walk (hk : H k) :
    ∃ ids, l.Walk (l.head k) ids ∧ (∀ i ∈ ids, L i) ∧ ids.Nodup := by
  obtain ⟨ids, hwalk, hlive, hnd⟩ := w.exists_walk_from hn n (.head k) [] hk
    (fun i => by simp) (by simp) (by simp)
  exact ⟨ids, hwalk, hlive, by simpa using hnd⟩

end
end Links
end Cplant
