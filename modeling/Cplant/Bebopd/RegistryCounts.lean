import Cplant.Bebopd.Registry

/-!
# The counts of the registry

A node is registered exactly when it is in one of the two lists. Registering a node that is
not registered and removing one that is change `activeNodes` by as much as the number of
scheduled nodes. The removal does not test that the node is registered, so a node that is
removed again, or that was never registered, still lowers `activeNodes` by one.
-/
namespace Cplant.Bebopd.Registry
open List Registry
open Function (update_self update_of_ne update)
variable {r r' r'' : Registry} {n : ℤ}

def scheduled (r : Registry) : Finset ℤ :=
  ((Finset.range maxNodes.toNat).map ⟨Int.ofNat, fun _ _ => Int.ofNat.inj⟩).filter fun n =>
    r.scheduledList n = true

theorem mem_scheduled : n ∈ r.scheduled ↔ IsNode n ∧ r.scheduledList n = true := by
  rw [scheduled, Finset.mem_filter, Finset.mem_map]
  refine and_congr_left fun _ => ?_
  constructor
  · rintro ⟨i, hi, rfl⟩
    have hlt := Finset.mem_range.mp hi
    exact ⟨Int.natCast_nonneg i, Int.lt_toNat.mp hlt⟩
  · rintro ⟨hlow, hhigh⟩
    exact ⟨n.toNat, Finset.mem_range.mpr ((Int.toNat_lt_toNat (by decide)).mpr hhigh),
      Int.toNat_of_nonneg hlow⟩

structure Consistent (r : Registry) : Prop where
  one : ∀ n, IsNode n → r.registered n = true → r.interactiveList n ≠ r.scheduledList n
  neither : ∀ n, IsNode n → r.registered n = false →
    r.interactiveList n = false ∧ r.scheduledList n = false

/-- What holds between two events: the registry is consistent, and the nodes that were heard
of are indices of the arrays. -/
structure Inv (r : Registry) : Prop extends r.Consistent where
  minPct : 0 ≤ r.minPct
  maxPct : r.maxPct < maxNodes

def drift (r r' : Registry) : ℤ :=
  (r'.activeNodes - r.activeNodes) - (r'.scheduled.card - r.scheduled.card)

@[simp] theorem drift_self : r.drift r = 0 := by rw [drift, sub_self, sub_self, sub_self]

theorem drift_trans (r r' r'' : Registry) : r.drift r'' = r.drift r' + r'.drift r'' := by
  simp only [drift]
  omega

section
variable (hlist : r'.scheduledList = r''.scheduledList) (hcount : r'.activeNodes = r''.activeNodes)
include hlist hcount

theorem drift_congr : r.drift r' = r.drift r'' := by
  have h : r'.scheduled = r''.scheduled := by rw [scheduled, scheduled, hlist]
  rw [drift, drift, hcount, h]

theorem drift_congr_left : r'.drift r = r''.drift r := by
  have h : r'.scheduled = r''.scheduled := by rw [scheduled, scheduled, hlist]
  rw [drift, drift, hcount, h]

end

theorem Consistent.congr (h : r.Consistent) (hreg : r'.registered = r.registered)
    (hint : r'.interactiveList = r.interactiveList)
    (hsched : r'.scheduledList = r.scheduledList) : r'.Consistent where
  one := by simpa [hreg, hint, hsched] using h.one
  neither := by simpa [hreg, hint, hsched] using h.neither

theorem scheduled_set (hn : IsNode n) (hlist : r'.scheduledList = update r.scheduledList n true) :
    r'.scheduled = insert n r.scheduled := by
  ext m
  rw [Finset.mem_insert, mem_scheduled, mem_scheduled, hlist]
  by_cases hm : m = n
  · simp [hm, hn]
  · simp [hm]

theorem scheduled_unset (hlist : r'.scheduledList = update r.scheduledList n false) :
    r'.scheduled = r.scheduled.erase n := by
  ext m
  rw [Finset.mem_erase, mem_scheduled, mem_scheduled, hlist]
  by_cases hm : m = n <;> simp [hm]

theorem registered_register : (r.register n).registered = update r.registered n true := by
  rw [register]
  split <;> rfl

theorem Consistent.register (h : r.Consistent) (hn : IsNode n) (hr : r.registered n = false) :
    (r.register n).Consistent := by
  obtain ⟨hint, hsched⟩ := h.neither n hn hr
  constructor
  all_goals
    intro m hm hreg
    rw [registered_register] at hreg
    by_cases hmn : m = n
    · subst hmn
      rw [update_self] at hreg
      first
        | exact absurd hreg.symm Bool.false_ne_true
        | rw [register]
          split <;> simp [hint, hsched]
    · rw [update_of_ne hmn] at hreg
      have hone := h.one m hm
      have hneither := h.neither m hm
      rw [Registry.register]
      split <;> simp only [update_of_ne hmn] <;> solve_by_elim

theorem drift_register (h : r.Consistent) (hn : IsNode n) (hr : r.registered n = false) :
    r.drift (r.register n) = 0 := by
  obtain ⟨-, hsched⟩ := h.neither n hn hr
  rw [register]
  split
  · exact (drift_congr rfl rfl).trans drift_self
  · have hnot : n ∉ r.scheduled := fun hmem => by
      rw [mem_scheduled, hsched] at hmem
      exact Bool.false_ne_true hmem.2
    rw [drift, scheduled_set (r := r) hn rfl, Finset.card_insert_of_notMem hnot]
    push_cast
    omega

theorem registered_unregister : (r.unregister n).registered = update r.registered n false := by
  rw [unregister]
  split_ifs <;> rfl

theorem Consistent.unregister (h : r.Consistent) (hn : IsNode n) : (r.unregister n).Consistent := by
  have hmine : r.interactiveList n = true → r.scheduledList n = false := fun hi => by
    cases hreg : r.registered n with
    | false => exact (h.neither n hn hreg).2
    | true => simpa [hi] using (h.one n hn hreg).symm
  constructor
  all_goals
    intro m hm hreg
    rw [registered_unregister] at hreg
    by_cases hmn : m = n
    · subst hmn
      rw [update_self] at hreg
      first
        | exact absurd hreg Bool.false_ne_true
        | rw [unregister]
          split_ifs with hi
          · exact ⟨update_self .., hmine hi⟩
          · exact ⟨by simpa using hi, update_self ..⟩
    · rw [update_of_ne hmn] at hreg
      have hold := h.one m hm
      have hnew := h.neither m hm
      rw [Registry.unregister]
      split_ifs <;> simp only [update_of_ne hmn] <;> solve_by_elim

theorem drift_unregister (h : r.Consistent) (hn : IsNode n) :
    r.drift (r.unregister n) = if r.registered n then 0 else -1 := by
  cases hreg : r.registered n with
  | true =>
    have hone := h.one n hn hreg
    rw [if_pos rfl, unregister]
    split
    · exact (drift_congr rfl rfl).trans drift_self
    next hi =>
    have hmem : n ∈ r.scheduled := by
      rw [mem_scheduled]
      refine ⟨hn, ?_⟩
      simpa [Bool.not_eq_true _ ▸ hi] using hone
    have hpos := Finset.card_pos.mpr ⟨n, hmem⟩
    rw [drift, scheduled_unset (r := r) rfl, Finset.card_erase_of_mem hmem]
    push_cast [Nat.one_le_iff_ne_zero.mpr hpos.ne']
    omega
  | false =>
    obtain ⟨hint, hsched⟩ := h.neither n hn hreg
    have hnot : n ∉ r.scheduled := fun hmem => by
      rw [mem_scheduled, hsched] at hmem
      exact Bool.false_ne_true hmem.2
    rw [unregister, if_neg (by simp [hint]), drift, scheduled_unset (r := r) rfl,
      Finset.erase_eq_of_notMem hnot, sub_self, if_neg Bool.false_ne_true]
    dsimp only
    omega

def removeAll (r : Registry) (ns : List ℤ) : Registry := ns.foldl unregister r

section
variable {ns : List ℤ} (h : r.Consistent) (hns : ∀ n ∈ ns, IsNode n)
include h hns

theorem drift_removeAll_nonpos : r.drift (r.removeAll ns) ≤ 0 := by
  induction ns generalizing r with
  | nil => exact drift_self.le
  | cons n ns ih =>
    rw [forall_mem_cons] at hns
    have hrest := ih (h.unregister hns.1) hns.2
    have hfirst := drift_unregister h hns.1
    rw [removeAll, foldl_cons, drift_trans r (r.unregister n), hfirst]
    rw [removeAll] at hrest
    split <;> omega

theorem drift_removeAll :
    r.drift (r.removeAll ns) = 0 ↔ ns.Nodup ∧ ∀ n ∈ ns, r.registered n = true := by
  induction ns generalizing r with
  | nil => simp [removeAll]
  | cons n ns ih =>
    rw [forall_mem_cons] at hns
    have hcons := h.unregister hns.1
    have hfirst := drift_unregister h hns.1
    have hrest := drift_removeAll_nonpos hcons hns.2
    have hsplit : r.drift (r.removeAll (n :: ns)) =
        r.drift (r.unregister n) + (r.unregister n).drift ((r.unregister n).removeAll ns) :=
      drift_trans ..
    have hzero : r.drift (r.removeAll (n :: ns)) = 0 ↔ r.registered n = true ∧
        (r.unregister n).drift ((r.unregister n).removeAll ns) = 0 := by
      rw [hsplit, hfirst]
      split
      · simp_all
      · simp_all
        omega
    -- After the first removal the node counts as not registered, also if it comes again.
    have hothers : (∀ m ∈ ns, (r.unregister n).registered m = true) ↔
        n ∉ ns ∧ ∀ m ∈ ns, r.registered m = true := by
      rw [registered_unregister]
      constructor
      · intro hall
        have hn : n ∉ ns := fun hmem => by simpa using hall n hmem
        refine ⟨hn, fun m hm => ?_⟩
        have hmn : m ≠ n := fun heq => hn (heq ▸ hm)
        simpa [update_of_ne hmn] using hall m hm
      · rintro ⟨hn, hall⟩ m hm
        have hmn : m ≠ n := fun heq => hn (heq ▸ hm)
        simpa [update_of_ne hmn] using hall m hm
    rw [hzero, ih hcons hns.2, hothers, nodup_cons, forall_mem_cons]
    tauto

end

structure SameLists (r r' : Registry) : Prop where
  registered : r'.registered = r.registered
  interactiveList : r'.interactiveList = r.interactiveList
  scheduledList : r'.scheduledList = r.scheduledList
  activeNodes : r'.activeNodes = r.activeNodes
  minPct : r'.minPct = r.minPct
  maxPct : r'.maxPct = r.maxPct

namespace SameLists

theorem refl (r : Registry) : SameLists r r := ⟨rfl, rfl, rfl, rfl, rfl, rfl⟩

theorem trans (h : SameLists r r') (h' : SameLists r' r'') : SameLists r r'' where
  registered := h'.registered.trans h.registered
  interactiveList := h'.interactiveList.trans h.interactiveList
  scheduledList := h'.scheduledList.trans h.scheduledList
  activeNodes := h'.activeNodes.trans h.activeNodes
  minPct := h'.minPct.trans h.minPct
  maxPct := h'.maxPct.trans h.maxPct

theorem larray (r : Registry) (f : ℤ → PctId) : SameLists r { r with larray := f } :=
  ⟨rfl, rfl, rfl, rfl, rfl, rfl⟩

section
variable (h : SameLists r r')
include h

theorem unregister (n : ℤ) : SameLists (r.unregister n) (r'.unregister n) := by
  rw [Registry.unregister, Registry.unregister, h.interactiveList]
  split
  · exact ⟨by simp [h.registered], rfl, h.scheduledList, h.activeNodes, h.minPct, h.maxPct⟩
  · exact ⟨by simp only [h.registered], rfl, by simp [h.scheduledList],
      by simp [h.activeNodes], h.minPct, h.maxPct⟩

theorem removeAll (ns : List ℤ) : SameLists (r.removeAll ns) (r'.removeAll ns) := by
  induction ns generalizing r r' with
  | nil => exact h
  | cons n ns ih => exact ih (h.unregister n)

theorem consistent (hr : r.Consistent) : r'.Consistent :=
  hr.congr h.registered h.interactiveList h.scheduledList

theorem inv (hr : r.Inv) : r'.Inv where
  toConsistent := h.consistent hr.toConsistent
  minPct := h.minPct ▸ hr.minPct
  maxPct := h.maxPct ▸ hr.maxPct

end

theorem drift_eq (h : SameLists r' r'') : r.drift r'' = r.drift r' :=
  drift_congr h.scheduledList h.activeNodes

end SameLists

theorem Inv.unregister (h : r.Inv) (hn : IsNode n) : (r.unregister n).Inv := by
  refine ⟨h.toConsistent.unregister hn, ?_, ?_⟩ <;> rw [Registry.unregister]
  · split <;> exact h.minPct
  · split <;> exact h.maxPct

theorem Inv.removeAll {ns : List ℤ} (h : r.Inv) (hns : ∀ n ∈ ns, IsNode n) :
    (r.removeAll ns).Inv := by
  induction ns generalizing r with
  | nil => exact h
  | cons n ns ih =>
    rw [forall_mem_cons] at hns
    exact ih (h.unregister hns.1) hns.2

theorem Inv.isNode (h : r.Inv) (hmin : r.minPct ≤ n) (hmax : n ≤ r.maxPct) : IsNode n :=
  ⟨h.minPct.trans hmin, hmax.trans_lt h.maxPct⟩

def goneNodes (r : Registry) (p : Ping) : List ℤ :=
  (r.pingNodes p).filter fun n => (r.larray n).status ≠ statusNoStatus

theorem status_unregister : (r.unregister n).larray = r.larray := by
  rw [unregister]
  split <;> rfl

theorem status_pctGone (m : ℤ) : ((r.pctGone n).larray m).status = statusNoStatus ↔
    (r.larray m).status = statusNoStatus := by
  rw [pctGone]
  split
  · rfl
  next hn =>
    rw [status_unregister]
    by_cases hm : m = n
    · subst hm
      simp only [update_self, hn, iff_false]
      decide
    · simp [update_of_ne hm]

theorem foldl_pctGone (ns : List ℤ) :
    SameLists (r.removeAll (ns.filter fun n => (r.larray n).status ≠ statusNoStatus))
      (ns.foldl pctGone r) := by
  induction ns generalizing r with
  | nil => exact .refl r
  | cons n ns ih =>
    rw [foldl_cons]
    have hfilter : (ns.filter fun m => ((r.pctGone n).larray m).status ≠ statusNoStatus) =
        ns.filter fun m => (r.larray m).status ≠ statusNoStatus := by
      simp [status_pctGone]
    have hrest := ih (r := r.pctGone n)
    rw [hfilter] at hrest
    by_cases hn : (r.larray n).status = statusNoStatus
    · rw [filter_cons_of_neg (by simpa using hn)]
      rw [pctGone, if_pos hn] at hrest ⊢
      exact hrest
    · rw [filter_cons_of_pos (by simpa using hn)]
      have hsame : SameLists (r.unregister n) (r.pctGone n) := by
        rw [pctGone, if_neg hn]
        exact (SameLists.larray r _).unregister n
      exact (hsame.removeAll _).trans hrest

theorem pctGoneUpdate_removes (p : Ping) :
    SameLists (r.removeAll (r.goneNodes p)) (r.pctGoneUpdate p) :=
  foldl_pctGone _

theorem pingNodes_isNode (h : r.Inv) (p : Ping) : ∀ n ∈ r.pingNodes p, IsNode n := by
  intro n hn
  rw [pingNodes] at hn
  split_ifs at hn with _ _ _ hrange
  any_goals cases hn
  · split at hn
    · cases hn
    · have hmem := of_decide_eq_true (mem_filter.mp hn).2
      exact h.isNode hmem.1 hmem.2
  · rw [Int.mem_range_iff] at hn
    exact h.isNode (by omega) (by omega)

theorem foldl_sendFailed (ns : List ℤ) : SameLists (r.removeAll ns) (ns.foldl sendFailed r) := by
  induction ns generalizing r with
  | nil => exact .refl r
  | cons n ns ih =>
    have hsame : SameLists (r.unregister n) (r.sendFailed n) :=
      (SameLists.larray r _).unregister n
    exact (hsame.removeAll ns).trans ih

theorem solicitTargets_sameLists (scan : Bool) (ns : List ℤ) :
    SameLists r (solicitTargets scan r ns).1 := by
  induction ns generalizing r with
  | nil => exact .refl r
  | cons n ns ih =>
    rw [solicitTargets]
    split
    · exact (SameLists.larray r _).trans ih
    · exact ih

theorem solicitTargets_subset (scan : Bool) (ns : List ℤ) : (solicitTargets scan r ns).2 ⊆ ns := by
  induction ns generalizing r with
  | nil => exact List.Subset.refl _
  | cons n ns ih =>
    rw [solicitTargets]
    split
    · exact cons_subset_cons n ih
    · exact subset_cons_of_subset n ih

theorem queryNodes_isNode (h : r.Inv) (q : Query) : ∀ n ∈ r.queryNodes q, IsNode n := by
  intro n hn
  cases q with
  | all =>
    rw [queryNodes, Int.mem_range_iff] at hn
    exact h.isNode hn.1 (by omega)
  | range a b =>
    rw [queryNodes, Int.mem_range_iff] at hn
    exact h.isNode (by omega) (by omega)
  | nodes nids =>
    have hmem := of_decide_eq_true (mem_filter.mp hn).2
    exact h.isNode hmem.1 hmem.2

theorem failedNodes_isNode (h : r.Inv) (q : Query) (scan : Bool) (waitFor : ℕ → Bool) :
    ∀ n ∈ r.failedNodes q scan waitFor, IsNode n := by
  intro n hn
  obtain ⟨t, ht, rfl⟩ := mem_map.mp hn
  have hmem := fst_mem_of_mem_zipIdx (mem_filter.mp ht).1
  exact queryNodes_isNode h q t.1 (solicitTargets_subset scan _ hmem)

theorem queryNodes_eq_nil (hpcts : r.maxPct < r.minPct) (q : Query) : r.queryNodes q = [] := by
  refine eq_nil_iff_forall_not_mem.mpr fun n hn => ?_
  cases q with
  | all | range a b =>
    rw [queryNodes, Int.mem_range_iff] at hn
    omega
  | nodes nids =>
    have hmem := of_decide_eq_true (mem_filter.mp hn).2
    omega

theorem solicitPctUpdates_removes (q : Query) (scan : Bool) (waitFor : ℕ → Bool) :
    SameLists (r.removeAll (r.failedNodes q scan waitFor))
      (r.solicitPctUpdates q scan waitFor) := by
  rw [solicitPctUpdates]
  split
  next hpcts =>
    simp only [failedNodes, queryNodes_eq_nil hpcts q]
    exact .refl r
  · exact ((solicitTargets_sameLists scan _).removeAll _).trans (foldl_sendFailed _)

theorem Inv.register (h : r.Inv) (hn : IsNode n) (hr : r.registered n = false) :
    (r.register n).Inv := by
  refine ⟨h.toConsistent.register hn hr, ?_, ?_⟩ <;> rw [Registry.register]
  · split <;> exact h.minPct
  · split <;> exact h.maxPct

theorem Inv.larray (h : r.Inv) (f : ℤ → PctId) : Inv { r with larray := f } :=
  (SameLists.larray r f).inv h

theorem Inv.takeUpdate (h : r.Inv) (hn : IsNode n) (data : PctId) : (r.takeUpdate n data).Inv := by
  rw [Registry.takeUpdate]
  split
  next hr => exact (h.larray _).register hn hr
  split
  · exact (h.larray _).unregister hn
  · exact h.larray _

theorem drift_takeUpdate (h : r.Inv) (hn : IsNode n) (data : PctId) :
    r.drift (r.takeUpdate n data) = 0 := by
  rw [takeUpdate]
  split
  next hr =>
    refine (drift_congr_left rfl rfl).trans (drift_register (h.larray _).toConsistent hn hr)
  split
  next hr _ =>
    refine (drift_congr_left rfl rfl).trans
      ((drift_unregister (h.larray _).toConsistent hn).trans (if_pos ?_))
    simpa using hr
  · exact (drift_congr rfl rfl).trans drift_self

theorem Inv.widenPcts (h : r.Inv) (hn : IsNode n) : (r.widenPcts n).Inv where
  toConsistent := h.toConsistent.congr rfl rfl rfl
  minPct := by
    have := h.minPct
    have := hn.1
    simp only [Registry.widenPcts]
    split <;> assumption
  maxPct := by
    have := h.maxPct
    have := hn.2
    simp only [Registry.widenPcts]
    split <;> assumption

inductive Event
  | pctUpdate (msg : PctMsg) (rc : ℤ)
  | pctGone (p : Ping)
  | solicit (q : Query) (scan : Bool) (waitFor : ℕ → Bool)

def handle (r : Registry) : Event → Registry
  | .pctUpdate msg rc => r.updatePctPidArray msg rc
  | .pctGone p => r.pctGoneUpdate p
  | .solicit q scan waitFor => r.solicitPctUpdates q scan waitFor

/-- The registries after `new_interactive_list`. Between the events `activeNodes` is computed
anew, and what is known of the PCTs changes for other reasons. -/
inductive Reachable : Registry → Prop
  | start (r : Registry) (list : List ℤ) (hmin : 0 ≤ r.minPct) (hmax : r.maxPct < maxNodes) :
    Reachable (r.newInteractiveList list)
  | handle (e : Event) {r : Registry} : Reachable r → Reachable (r.handle e)
  | recount {r : Registry} : Reachable r → Reachable r.computeActiveNodes
  | larray (f : ℤ → PctId) {r : Registry} : Reachable r → Reachable { r with larray := f }

theorem Inv.start (list : List ℤ) (hmin : 0 ≤ r.minPct) (hmax : r.maxPct < maxNodes) :
    (r.newInteractiveList list).Inv where
  one n hn hreg := by simp [newInteractiveList, hn] at hreg
  neither n hn _ := ⟨if_pos hn, if_pos hn⟩
  minPct := hmin
  maxPct := hmax

theorem Inv.updatePctPidArray (h : r.Inv) (msg : PctMsg) (rc : ℤ) :
    (r.updatePctPidArray msg rc).Inv := by
  rw [Registry.updatePctPidArray]
  split
  · exact h
  split
  · exact h
  · have hn : IsNode msg.nid := ⟨by omega, by omega⟩
    exact (h.takeUpdate hn msg.data).widenPcts hn

theorem drift_updatePctPidArray (h : r.Inv) (msg : PctMsg) (rc : ℤ) :
    r.drift (r.updatePctPidArray msg rc) = 0 := by
  rw [updatePctPidArray]
  split
  · exact drift_self
  split
  · exact drift_self
  · have hn : IsNode msg.nid := ⟨by omega, by omega⟩
    rw [← drift_takeUpdate h hn msg.data]
    exact drift_congr rfl rfl

theorem goneNodes_isNode (h : r.Inv) (p : Ping) : ∀ n ∈ r.goneNodes p, IsNode n :=
  fun n hn => pingNodes_isNode h p n (mem_of_mem_filter hn)

theorem Inv.handle (h : r.Inv) : ∀ e, (r.handle e).Inv
  | .pctUpdate msg rc => h.updatePctPidArray msg rc
  | .pctGone p => (pctGoneUpdate_removes p).inv (h.removeAll (goneNodes_isNode h p))
  | .solicit q scan waitFor =>
    (solicitPctUpdates_removes q scan waitFor).inv
      (h.removeAll (failedNodes_isNode h q scan waitFor))

theorem Reachable.inv (h : Reachable r) : r.Inv := by
  induction h with
  | start r list hmin hmax => exact .start list hmin hmax
  | handle e _ ih => exact ih.handle e
  | recount _ ih => exact ⟨ih.toConsistent.congr rfl rfl rfl, ih.minPct, ih.maxPct⟩
  | larray f _ ih => exact ih.larray f

def Event.Clean (r : Registry) : Event → Prop
  | .pctUpdate .. => True
  | .pctGone p => (r.goneNodes p).Nodup ∧ ∀ n ∈ r.goneNodes p, r.registered n = true
  | .solicit q scan waitFor => (r.failedNodes q scan waitFor).Nodup ∧
      ∀ n ∈ r.failedNodes q scan waitFor, r.registered n = true

theorem drift_handle (h : r.Inv) (e : Event) : r.drift (r.handle e) = 0 ↔ e.Clean r := by
  cases e with
  | pctUpdate msg rc => exact iff_of_true (drift_updatePctPidArray h msg rc) trivial
  | pctGone p =>
    rw [handle, (pctGoneUpdate_removes p).drift_eq]
    exact drift_removeAll h.toConsistent (goneNodes_isNode h p)
  | solicit q scan waitFor =>
    rw [handle, (solicitPctUpdates_removes q scan waitFor).drift_eq]
    exact drift_removeAll h.toConsistent (failedNodes_isNode h q scan waitFor)

/-- The lists and `Registered` agree, and an event changes `activeNodes` as much as the number of
scheduled nodes just if it removes only registered nodes, each once. -/
theorem registry_counts (h : Reachable r) (e : Event) : (∀ n, IsNode n →
      (r.registered n = true → r.interactiveList n ≠ r.scheduledList n) ∧
      (r.registered n = false → r.interactiveList n = false ∧ r.scheduledList n = false)) ∧
    ((r.handle e).activeNodes - r.activeNodes =
      (r.handle e).scheduled.card - r.scheduled.card ↔ e.Clean r) := by
  have hinv := h.inv
  refine ⟨fun n hn => ⟨hinv.one n hn, hinv.neither n hn⟩, ?_⟩
  rw [← drift_handle hinv e, drift]
  exact sub_eq_zero.symm

def fresh : Registry :=
  newInteractiveList
    { larray := fun _ => ⟨statusNoStatus, -1, -1, -1, .unsetNode, -1, -1⟩
      registered := fun _ => false, interactiveList := fun _ => false
      scheduledList := fun _ => false, activeNodes := 0
      minPct := maxNodes, maxPct := -1, intMIN := maxNodes, intMAX := -1
      pbsMIN := maxNodes, pbsMAX := -1, pbsSupport := true, remap := false
      carray := fun _ => -1, marray := fun _ => -1 } []

theorem fresh_reachable : Reachable fresh := .start _ _ (by decide) (by decide)

def firstUpdate : Event :=
  .pctUpdate ⟨5, ppidPct, .pctInitialMsg, ⟨statusFree, -1, -1, -1, .unsetNode, -1, -1⟩⟩ 1

def updated : Registry := fresh.handle firstUpdate

def goneOnce : Registry := updated.handle (.pctGone ⟨5, 5, none⟩)

theorem registry_counts_gone : updated.registered 5 = true ∧ goneOnce.registered 5 = false ∧
      goneOnce.activeNodes - updated.activeNodes =
        goneOnce.scheduled.card - updated.scheduled.card := by
  have hgone : updated.goneNodes ⟨5, 5, none⟩ = [5] := by decide +kernel
  refine ⟨by decide +kernel, by decide +kernel,
    (registry_counts (fresh_reachable.handle firstUpdate) (.pctGone ⟨5, 5, none⟩)).2.mpr ?_⟩
  change (updated.goneNodes _).Nodup ∧ ∀ n ∈ updated.goneNodes _, updated.registered n = true
  rw [hgone]
  decide +kernel

theorem registry_counts_gone_again :
    ∃ r, Reachable r ∧ ∃ p, (r.pctGoneUpdate p).activeNodes - r.activeNodes ≠
      (r.pctGoneUpdate p).scheduled.card - r.scheduled.card := by
  have hreach : Reachable goneOnce := (fresh_reachable.handle firstUpdate).handle _
  refine ⟨goneOnce, hreach, ⟨5, 5, none⟩, fun hexact => ?_⟩
  have hclean := (drift_handle hreach.inv (.pctGone ⟨5, 5, none⟩)).mp (sub_eq_zero.mpr hexact)
  have hgone : (5 : ℤ) ∈ goneOnce.goneNodes ⟨5, 5, none⟩ := by decide +kernel
  exact absurd (hclean.2 5 hgone) (by decide +kernel)

end Cplant.Bebopd.Registry
