import Cplant.AddrCache.Slots
import Cplant.Foundations.Chains

/-!
# The tables are conserved

Each table of a subcache is on the free list or on the list of one process. `tblLink` takes a table
off the list of a process without looking whether it is there, `pushTask` relies on the link back
of a free table being null, which `tblClear` does not ensure, and the lists of a `TBL_LOOKUP`
subcache have no links back at all.
-/
namespace Cplant.AddrCache
open Function Nat
open List Option
namespace Subcache

def next (s : Subcache) (t : ℕ) : Option ℕ := (s.tbl t).next

def prev (s : Subcache) (t : ℕ) : Option ℕ := (s.tbl t).prev

def head (s : Subcache) : Option TaskId → Option ℕ
  | none => s.addrTbl
  | some ppid => s.taskTbl ppid

/-- The lists are `L`, those for which `D` holds with links back, and `freeTables` is the length of
the free list. -/
structure Listed (D : Option TaskId → Prop) (n : ℕ) (s : Subcache) (L : Option TaskId → List ℕ) :
    Prop where
  threaded : Threaded n D s.next s.prev s.head L
  count : s.freeTables = (L none).length

def Conserved (n : ℕ) (s : Subcache) : Prop := ∃ L, s.Listed (· ≠ none) n L

variable {D : Option TaskId → Prop} {s s' : Subcache} {n t fuel vaddr : ℕ} {ppid : TaskId}
  {o : Option ℕ} {L : Option TaskId → List ℕ} {redo : Bool} {j : CacheId} {l : List ℕ} {nbytes : ℤ}

theorem Listed.congr (h : s.Listed D n L) (hs : SameLists s s') : s'.Listed D n L := by
  have hnext : s'.next = s.next := funext fun t => congrArg (fun x => x.2.1) (hs.place t)
  have hprev : s'.prev = s.prev := funext fun t => congrArg (fun x => x.2.2) (hs.place t)
  have hhead : s'.head = s.head := by
    funext o
    cases o with
    | none => exact hs.addrTbl
    | some ppid => exact congrFun hs.taskTbl ppid
  refine ⟨?_, hs.freeTables.trans h.count⟩
  rw [hnext, hprev, hhead]
  exact h.threaded

theorem Listed.length_le (h : s.Listed D n L) (o : Option TaskId) : (L o).length ≤ n :=
  h.threaded.parted.length_le o

theorem next_pushTask (redo : Bool) (i : ℕ) :
    (s.pushTask redo ppid t).next i = if i = t then s.taskTbl ppid else s.next i := by
  have hset : (s.setTbl t fun x => { x with next := s.taskTbl ppid }).next i =
      if i = t then s.taskTbl ppid else s.next i := by
    rw [next, setTbl_apply]
    split <;> rfl
  rw [← hset, pushTask]
  cases s.taskTbl ppid with
  | none => rfl
  | some q =>
    cases redo with
    | false => rfl
    | true =>
      dsimp only [next]
      rw [if_pos rfl, setTbl_apply]
      split <;> rfl

theorem prev_pushTask (redo : Bool) (i : ℕ) : (s.pushTask redo ppid t).prev i =
      if redo = true ∧ s.taskTbl ppid = some i then some t else s.prev i := by
  have hset : ∀ o, (s.setTbl t fun x => { x with next := o }).prev i = s.prev i := by
    intro o
    rw [prev, setTbl_apply]
    split <;> rfl
  rw [← hset (s.taskTbl ppid), pushTask]
  cases s.taskTbl ppid with
  | none => simp [prev]
  | some q =>
    cases redo with
    | false => simp [prev]
    | true =>
      dsimp only [prev]
      rw [if_pos rfl, setTbl_apply]
      by_cases hi : i = q
      · simp [hi]
      · simp [hi, Ne.symm hi]

theorem taskTbl_pushTask (redo : Bool) :
    (s.pushTask redo ppid t).taskTbl = update s.taskTbl ppid (some t) := by
  rw [pushTask]
  cases s.taskTbl ppid with
  | none => rfl
  | some q => cases redo <;> rfl

theorem addrTbl_pushTask (redo : Bool) : (s.pushTask redo ppid t).addrTbl = s.addrTbl := by
  rw [pushTask]
  cases s.taskTbl ppid with
  | none => rfl
  | some q => cases redo <;> rfl

theorem freeTables_pushTask (redo : Bool) : (s.pushTask redo ppid t).freeTables = s.freeTables := by
  rw [pushTask]
  cases s.taskTbl ppid with
  | none => rfl
  | some q => cases redo <;> rfl

theorem tblUnlink_eq_some (h : s.tblUnlink = some (some t, s')) :
    0 < s.freeTables ∧ s.addrTbl = some t ∧ s' = { s.setTbl t fun x => { x with next := none } with
        addrTbl := (s.tbl t).next
        freeTables := s.freeTables - 1 } := by
  rw [tblUnlink] at h
  split at h
  · cases h
  next hfree =>
  split at h
  · cases h
  next hhead =>
  cases h
  exact ⟨not_le.mp hfree, hhead, rfl⟩

theorem Listed.tblUnlink_isSome (h : s.Listed D n L) : s.tblUnlink.isSome = true := by
  rw [tblUnlink]
  split
  · rfl
  next hfree =>
  have hchain := h.threaded.chain none
  cases hhead : s.addrTbl with
  | some t => rfl
  | none =>
    have hnil : L none = [] := by
      have := hchain.head?_eq
      rw [show s.head none = none from hhead] at this
      exact head?_eq_none_iff.mp this
    have hcount := h.count
    rw [hnil] at hcount
    exact absurd hcount.le hfree

structure Taken (s s' : Subcache) (redo : Bool) (ppid : TaskId) (t : ℕ) : Prop where
  first : s.addrTbl = some t
  next : ∀ i, s'.next i = if i = t then s.taskTbl ppid else s.next i
  prev : ∀ i, s'.prev i = if redo = true ∧ s.taskTbl ppid = some i then some t else s.prev i
  head : ∀ q, s'.head q = if q = some ppid then some t else if q = none then s.next t else s.head q
  freeTables : s'.freeTables = s.freeTables - 1

theorem newTable_taken (h : s.newTable redo ppid = some (.fill t s')) : Taken s s' redo ppid t := by
  rw [newTable] at h
  split at h
  · cases h
  · cases h
  next hunlink =>
  cases h
  obtain ⟨-, hfirst, rfl⟩ := tblUnlink_eq_some hunlink
  refine ⟨hfirst, ?_, ?_, ?_, freeTables_pushTask redo⟩
  · intro i
    rw [next_pushTask]
    split
    · rfl
    next hi =>
      rw [next, setTbl_apply, if_neg hi]
      rfl
  · intro i
    refine (prev_pushTask redo i).trans (if_congr Iff.rfl rfl ?_)
    rw [prev, setTbl_apply]
    split <;> rfl
  · intro q
    cases q with
    | none => exact addrTbl_pushTask redo
    | some p =>
      refine (congrFun (taskTbl_pushTask redo) p).trans ?_
      rw [update_apply]
      simp only [Option.some.injEq, reduceCtorEq, if_false]
      rfl

theorem Listed.taken (h : s.Listed D n L) (hD : ¬ D none) (htaken : Taken s s' redo ppid t)
    (hnew : D (some ppid) → s.prev t = none ∧ (redo = true ∨ s.taskTbl ppid = none)) :
    s'.Listed D n (moveTo L none (some ppid) t) := by
  have hne : (none : Option TaskId) ≠ some ppid := nofun
  have hfree : (L none).head? = some t := (h.threaded.chain none).head?_eq.trans htaken.first
  have hhead : (L (some ppid)).head? = s.taskTbl ppid := (h.threaded.chain (some ppid)).head?_eq
  have ht : t ∈ L none := mem_of_head? hfree
  have hother : ∀ i, s.taskTbl ppid = some i → i ∈ L (some ppid) := fun i hi =>
    mem_of_head? (hhead.trans hi)
  refine ⟨(h.threaded.moveHead hne htaken.first hD htaken.next htaken.head ?_ ?_).2, ?_⟩
  · intro hDp
    obtain ⟨hprev, hredo⟩ := hnew hDp
    refine ⟨?_, ?_⟩
    · rw [htaken.prev, if_neg fun hif => h.threaded.ne_of_mem ht (hother t hif.2) hne rfl, hprev]
    have hback := h.threaded.back (some ppid) hDp
    cases hredo with
    | inl hredo =>
      refine hback.reroot (h.threaded.parted.nodup _) ?_ ?_
      · intro i hi
        rw [htaken.prev, if_pos ⟨hredo, hhead.symm.trans hi⟩]
      · intro i _ hi
        rw [htaken.prev, if_neg fun hif => hi (hhead.trans hif.2)]
    | inr hempty =>
      rw [head?_eq_none_iff.mp (hhead.trans hempty)]
      trivial
  · intro q hq hq' i hi
    rw [htaken.prev, if_neg fun hif => h.threaded.ne_of_mem hi (hother i hif.2) hq' rfl]
  · have hpos := length_pos_of_mem ht
    rw [htaken.freeTables, h.count, moveTo_source hne, length_erase_of_mem ht]
    omega

structure Returned (s s' : Subcache) (ppid : TaskId) (t : ℕ) : Prop where
  next : ∀ i, s'.next i =
    if i = t then s.addrTbl else if s.prev t = some i then s.next t else s.next i
  prev : ∀ i, i ≠ t → s'.prev i = if s.next t = some i then s.prev t else s.prev i
  prev_self : s'.prev t = none
  head : ∀ q, s'.head q = if q = none then some t
    else if q = some ppid ∧ s.prev t = none then s.next t else s.head q
  freeTables : s'.freeTables = s.freeTables + 1

theorem next_bridgeBack (i : ℕ) : (s.bridgeBack t).next i = s.next i := by
  rw [bridgeBack]
  split
  · rw [next, setTbl_apply]
    split <;> rfl
  · rfl

theorem prev_bridgeBack (i : ℕ) :
    (s.bridgeBack t).prev i = if s.next t = some i then s.prev t else s.prev i := by
  rw [bridgeBack, next]
  split
  next n hn =>
    rw [prev, setTbl_apply, hn]
    by_cases hi : i = n
    · rw [if_pos hi, if_pos (congrArg some hi.symm)]
      rfl
    · rw [if_neg hi, if_neg fun h => hi (some.inj h).symm]
      rfl
  next hn => rw [hn, if_neg (some_ne_none i).symm]

theorem prev_bridgeBack_self : (s.bridgeBack t).prev t = s.prev t := by
  rw [prev_bridgeBack]
  split <;> rfl

theorem head_bridgeBack : (s.bridgeBack t).head = s.head := by
  funext q
  rw [bridgeBack]
  split <;> cases q <;> rfl

theorem freeTables_bridgeBack : (s.bridgeBack t).freeTables = s.freeTables := by
  rw [bridgeBack]
  split <;> rfl

theorem takeOff_of_prev_none (h : s.prev t = none) : s.takeOff ppid t = { s.bridgeBack t with
      taskTbl := update (s.bridgeBack t).taskTbl ppid ((s.bridgeBack t).next t) } := by
  have hself : ((s.bridgeBack t).tbl t).prev = none := prev_bridgeBack_self.trans h
  rw [takeOff, hself]
  rfl

theorem takeOff_of_prev_some {p : ℕ} (h : s.prev t = some p) : s.takeOff ppid t =
      ((s.bridgeBack t).setTbl p fun x => { x with next := (s.bridgeBack t).next t }).setTbl t
        fun x => { x with prev := none } := by
  have hself : ((s.bridgeBack t).tbl t).prev = some p := prev_bridgeBack_self.trans h
  rw [takeOff, hself]
  rfl

theorem next_takeOff (ppid : TaskId) (i : ℕ) :
    (s.takeOff ppid t).next i = if s.prev t = some i then s.next t else s.next i := by
  cases hp : s.prev t with
  | none =>
    rw [takeOff_of_prev_none hp, if_neg nofun]
    exact next_bridgeBack i
  | some p =>
    rw [takeOff_of_prev_some hp, next_bridgeBack]
    have hset : ∀ s1 : Subcache, (s1.setTbl t fun x => { x with prev := none }).next i =
        s1.next i := by
      intro s1
      rw [next, setTbl_apply]
      split <;> rfl
    rw [hset, next, setTbl_apply]
    by_cases hi : i = p
    · rw [if_pos hi, if_pos (congrArg some hi.symm)]
    · rw [if_neg hi, if_neg fun h => hi (some.inj h).symm]
      exact next_bridgeBack i

theorem prev_takeOff (ppid : TaskId) {i : ℕ} (hi : i ≠ t) :
    (s.takeOff ppid t).prev i = if s.next t = some i then s.prev t else s.prev i := by
  rw [← prev_bridgeBack]
  cases hp : s.prev t with
  | none =>
    rw [takeOff_of_prev_none hp]
    rfl
  | some p =>
    rw [takeOff_of_prev_some hp, prev, setTbl_apply, if_neg hi, setTbl_apply]
    split <;> rfl

theorem prev_takeOff_self (ppid : TaskId) : (s.takeOff ppid t).prev t = none := by
  cases hp : s.prev t with
  | none =>
    rw [takeOff_of_prev_none hp]
    exact prev_bridgeBack_self.trans hp
  | some p => rw [takeOff_of_prev_some hp, prev, setTbl_apply, if_pos rfl]

theorem head_takeOff (q : Option TaskId) : (s.takeOff ppid t).head q =
    if q = some ppid ∧ s.prev t = none then s.next t else s.head q := by
  have hback : (s.bridgeBack t).head q = s.head q := congrFun head_bridgeBack q
  rw [← hback]
  cases hp : s.prev t with
  | none =>
    rw [takeOff_of_prev_none hp, next_bridgeBack]
    cases q with
    | none => rfl
    | some p =>
      simp [head, update_apply]
  | some p =>
    rw [takeOff_of_prev_some hp, if_neg fun h => nomatch h.2]
    cases q <;> rfl

theorem freeTables_takeOff : (s.takeOff ppid t).freeTables = s.freeTables := by
  refine Eq.trans ?_ (freeTables_bridgeBack (t := t))
  cases hp : s.prev t with
  | none => rw [takeOff_of_prev_none hp]
  | some p =>
    rw [takeOff_of_prev_some hp]
    rfl

theorem returned_tblLink : Returned s ((s.takeOff ppid t).putBack t) ppid t where
  next i := by
    have hfree : (s.takeOff ppid t).addrTbl = s.addrTbl :=
      (head_takeOff none).trans (if_neg fun h => nomatch h.1)
    rw [← next_takeOff ppid, ← hfree, putBack]
    dsimp only [next]
    rw [setTbl_apply]
    split <;> rfl
  prev i hi := by
    rw [← prev_takeOff ppid hi, putBack]
    dsimp only [prev]
    rw [setTbl_apply]
    split <;> rfl
  prev_self := by
    rw [← prev_takeOff_self ppid, putBack]
    dsimp only [prev]
    rw [setTbl_apply]
    split <;> rfl
  head q := by
    rw [← head_takeOff]
    cases q <;> rfl
  freeTables := congrArg (· + 1) freeTables_takeOff

theorem Listed.returned (h : s.Listed D n L) (hD : ¬ D none) (hDp : D (some ppid))
    (hreturned : Returned s s' ppid t) (ht : t ∈ L (some ppid)) :
    s'.Listed D n (moveTo L (some ppid) none t) := by
  refine ⟨h.threaded.moveOut nofun ht hDp hD hreturned.next hreturned.prev hreturned.head, ?_⟩
  rw [hreturned.freeTables, h.count, moveTo_target]
  rfl

/-- The lists while `tblClear` works on the list of `ppid` and has come to `o`. The links back of
that list are not followed any more. -/
structure Clearing (n : ℕ) (ppid : TaskId) (s : Subcache) (o : Option ℕ)
    (L : Option TaskId → List ℕ) : Prop where
  threaded : Threaded n (fun q => q ≠ none ∧ q ≠ some ppid) s.next s.prev
    (update s.head (some ppid) o) L
  count : s.freeTables = (L none).length

theorem Listed.clearing (h : s.Listed (· ≠ none) n L) (ppid : TaskId) :
    s.Clearing n ppid (s.taskTbl ppid) L := by
  refine ⟨?_, h.count⟩
  rw [show s.taskTbl ppid = s.head (some ppid) from rfl, update_eq_self]
  exact h.threaded.mono fun q hq => hq.1

theorem Clearing.step (h : s.Clearing n ppid (some t) L) : t ∈ L (some ppid) ∧
      ((s.putBack t).setTbl t fun x => { x with start := 0, length := 0 }).Clearing n ppid
        (s.next t) (moveTo L (some ppid) none t) := by
  have hne : some ppid ≠ none := nofun
  have hfirst : update s.head (some ppid) (some t) (some ppid) = some t :=
    update_self ..
  have ht : t ∈ L (some ppid) :=
    mem_of_head? ((h.threaded.chain (some ppid)).head?_eq.trans hfirst)
  refine ⟨ht, (h.threaded.moveHead hne hfirst (fun hD => hD.2 rfl) ?_ ?_ ?_ ?_).2, ?_⟩
  · intro i
    rw [update_of_ne hne.symm, next, setTbl_apply, putBack]
    rw [setTbl_apply]
    split <;> rfl
  · intro q
    cases q with
    | none =>
      rfl
    | some p =>
      rw [if_neg nofun, update_apply, update_apply]
      split <;> rfl
  · exact fun hD => absurd rfl hD.1
  · intro q _ _ i _
    rw [prev, setTbl_apply, putBack]
    rw [setTbl_apply]
    split <;> rfl
  · rw [moveTo_target, length_cons, cast_add, ← h.count]
    rfl

theorem Clearing.clearTables (h : s.Clearing n ppid o L) (hfuel : (L (some ppid)).length ≤ fuel) :
    ∃ s' L', s.clearTables fuel o = some s' ∧ s'.Clearing n ppid none L' := by
  induction fuel generalizing s o L with
  | zero =>
    cases o with
    | none => exact ⟨s, L, rfl, h⟩
    | some t => exact absurd (length_pos_of_mem h.step.1) (not_lt.mpr hfuel)
  | succ fuel ih =>
    cases o with
    | none => exact ⟨s, L, rfl, h⟩
    | some t =>
      obtain ⟨ht, hstep⟩ := h.step
      refine ih hstep ?_
      have hne : some ppid ≠ none := nofun
      rw [moveTo_source hne, length_erase_of_mem ht]
      omega

theorem Clearing.listed (h : s.Clearing n ppid none L) :
    { s with taskTbl := update s.taskTbl ppid none : Subcache }.Listed (· ≠ none) n L := by
  have hhead : { s with taskTbl := update s.taskTbl ppid none : Subcache }.head =
      update s.head (some ppid) none := by
    funext q
    cases q with
    | none => rfl
    | some p =>
      simp [head, update_apply]
  have hchain := h.threaded.chain (some ppid)
  rw [update_self] at hchain
  have hnil : L (some ppid) = [] := head?_eq_none_iff.mp hchain.head?_eq
  refine ⟨⟨?_, ?_, h.threaded.parted⟩, h.count⟩
  · rw [hhead]
    exact h.threaded.chain
  · intro q hq
    by_cases hp : q = some ppid
    · rw [hp, hnil]
      trivial
    · exact h.threaded.back q ⟨hq, hp⟩

theorem Listed.tblClearSub (h : s.Listed (· ≠ none) n L) (ppid : TaskId) (hn : n ≤ numReg j) :
    ∃ s', Caches.tblClearSub s j ppid = some s' ∧ s'.Conserved n := by
  obtain ⟨s1, L', hclear, hs1⟩ :=
    (h.clearing ppid).clearTables ((h.length_le _).trans hn)
  rw [Caches.tblClearSub, hclear]
  exact ⟨_, rfl, L', hs1.listed⟩

section
variable {o : Option ℕ} (h : Chain s.next o l)
include h

theorem lookup_isSome (vaddr : ℕ) (hfuel : l.length ≤ fuel) :
    (s.lookup vaddr fuel o).isSome = true := by
  induction l generalizing o fuel with
  | nil =>
    obtain rfl : o = none := h
    cases fuel <;> rfl
  | cons t l ih =>
    obtain ⟨rfl, htail⟩ := h
    cases fuel with
    | zero => cases hfuel
    | succ fuel =>
      rw [lookup]
      split
      · rfl
      · exact ih htail (le_of_succ_le_succ hfuel)

theorem lookup_found (hfound : s.lookup vaddr fuel o = some (some t)) :
    t ∈ l ∧ (s.tbl t).start = vaddr := by
  induction l generalizing o fuel with
  | nil =>
    obtain rfl : o = none := h
    cases fuel <;> cases hfound
  | cons u l ih =>
    obtain ⟨rfl, htail⟩ := h
    cases fuel with
    | zero => cases hfound
    | succ fuel =>
      rw [lookup] at hfound
      split at hfound
      next hstart =>
        cases hfound
        exact ⟨mem_cons_self, hstart⟩
      · obtain ⟨hmem, hstart⟩ := ih htail hfound
        exact ⟨mem_cons_of_mem u hmem, hstart⟩

theorem invalidateTables_isSome (hfuel : l.length ≤ fuel) :
    (s.invalidateTables fuel o).isSome = true := by
  induction l generalizing s o fuel with
  | nil =>
    obtain rfl : o = none := h
    cases fuel <;> rfl
  | cons t l ih =>
    obtain ⟨rfl, htail⟩ := h
    cases fuel with
    | zero => cases hfuel
    | succ fuel =>
      rw [invalidateTables]
      refine ih (htail.congr fun i _ => ?_) (le_of_succ_le_succ hfuel)
      rw [next, setTbl_apply]
      split <;> rfl

end

def TakesTable (s : Subcache) (j : CacheId) (vaddr : ℕ) (ppid : TaskId) : Prop :=
  strategy j = .tblLookup → s.lookup vaddr (numReg j) (s.taskTbl ppid) = some none

theorem chooseTable_fill (h : s.chooseTable j vaddr nbytes ppid = some (.fill t s')) :
    (s' = s ∧ strategy j = .tblLookup ∧ s.lookup vaddr (numReg j) (s.taskTbl ppid) = some (some t) ∧
        ¬ ((s.tbl t).length ≥ nbytes ∧ (s.tbl t).valid = true)) ∨
      s.TakesTable j vaddr ppid ∧ Taken s s' (strategy j = .tblRedo) ppid t := by
  rw [chooseTable] at h
  split at h
  next hstrategy =>
    refine .inr ⟨fun hl => by simp [hstrategy] at hl, ?_⟩
    rw [decide_eq_true hstrategy]
    exact newTable_taken h
  next hstrategy =>
    split at h
    · cases h
    next hlookup =>
      split at h
      · cases h
      next hkeep =>
        cases h
        exact .inl ⟨rfl, hstrategy, hlookup, hkeep⟩
    next hlookup =>
      refine .inr ⟨fun _ => hlookup, ?_⟩
      rw [hstrategy]
      exact newTable_taken h

theorem chooseTable_keep (h : s.chooseTable j vaddr nbytes ppid = some (.keep t)) :
    strategy j = .tblLookup ∧ s.lookup vaddr (numReg j) (s.taskTbl ppid) = some (some t) ∧
      (s.tbl t).length ≥ nbytes ∧ (s.tbl t).valid = true := by
  have hnew : ∀ redo, s.newTable redo ppid ≠ some (.keep t) := by
    intro redo hnew
    rw [newTable] at hnew
    split at hnew <;> cases hnew
  rw [chooseTable] at h
  split at h
  · exact absurd h (hnew true)
  next hstrategy =>
  split at h
  · cases h
  next hlookup =>
    split at h
    next hkeep =>
      cases h
      exact ⟨hstrategy, hlookup, hkeep⟩
    · cases h
  · exact absurd h (hnew false)

theorem Listed.newTable_isSome (h : s.Listed D n L) (redo : Bool) :
    (s.newTable redo ppid).isSome = true := by
  obtain ⟨⟨o, s1⟩, hunlink⟩ := isSome_iff_exists.mp h.tblUnlink_isSome
  rw [newTable, hunlink]
  cases o <;> rfl

theorem Listed.chooseTable_isSome (h : s.Listed D n L) (ppid : TaskId) (hn : n ≤ numReg j)
    (vaddr : ℕ) (nbytes : ℤ) : (s.chooseTable j vaddr nbytes ppid).isSome = true := by
  rw [chooseTable]
  split
  · exact h.newTable_isSome true
  obtain ⟨o, hlookup⟩ := isSome_iff_exists.mp
    (lookup_isSome (h.threaded.chain (some ppid)) vaddr ((h.length_le _).trans hn))
  rw [show s.taskTbl ppid = s.head (some ppid) from rfl, hlookup]
  cases o with
  | none => exact h.newTable_isSome false
  | some t =>
    dsimp only
    split <;> rfl

/-- A table that `populate` takes is consistent with the list of the process exactly if no old link
leads back from it and, for `TBL_LOOKUP`, the list was empty. -/
theorem Listed.taken_iff (h : s.Listed (· ≠ none) n L) (htaken : Taken s s' redo ppid t) :
    s'.Conserved n ↔ s.prev t = none ∧ (redo = false → s.taskTbl ppid = none) := by
  constructor
  · rintro ⟨L', h'⟩
    have hne : (none : Option TaskId) ≠ some ppid := nofun
    have hhead : (L (some ppid)).head? = s.taskTbl ppid := (h.threaded.chain (some ppid)).head?_eq
    have ht : t ∈ L none :=
      mem_of_head? ((h.threaded.chain none).head?_eq.trans htaken.first)
    have hchain := h'.threaded.chain (some ppid)
    rw [htaken.head, if_pos rfl] at hchain
    obtain ⟨l, hl, htail⟩ := hchain.eq_cons
    have hback := h'.threaded.back (some ppid) nofun
    rw [hl] at hback
    refine ⟨?_, fun hredo => ?_⟩
    · have hprev := hback.1
      rwa [htaken.prev, if_neg] at hprev
      rintro ⟨-, htask⟩
      exact h.threaded.ne_of_mem ht (mem_of_head? (hhead.trans htask)) hne rfl
    · rw [htaken.next, if_pos rfl] at htail
      cases htask : s.taskTbl ppid with
      | none => rfl
      | some u =>
        -- the link back of the old first table is still null
        rw [htask] at htail hhead
        obtain ⟨l', rfl, -⟩ := htail.eq_cons
        obtain ⟨l'', hl''⟩ : ∃ l'', L (some ppid) = u :: l'' :=
          ⟨_, (cons_head?_tail hhead).symm⟩
        have hold := h.threaded.back (some ppid) nofun
        rw [hl''] at hold
        have hnew := hback.2.1
        rw [htaken.prev, if_neg fun hif => by simp [hredo] at hif, hold.1] at hnew
        cases hnew
  · rintro ⟨hprev, hlookup⟩
    refine ⟨_, h.taken (fun hD => hD rfl) htaken fun _ => ⟨hprev, ?_⟩⟩
    cases redo with
    | true => exact .inl rfl
    | false => exact .inr (hlookup rfl)

end Subcache
namespace Caches
variable {a : Arch} {c c' : Caches} {ppid : TaskId}

def Conserved (c : Caches) : Prop := ∀ j, (c.sub j).Conserved (numReg j)

/-- A table that `populate` takes has no link back left, and in a `TBL_LOOKUP` subcache it is the
only one of the process; `tblLink` gets a table of the process; `tblInit` finds no tables. -/
def Orderly (c : Caches) : Act a → Prop
  | .validate _ base extent ppid =>
    let j := cacheFor a (toInt32 extent)
    (c.sub j).TakesTable j base ppid → ∀ t, (c.sub j).addrTbl = some t →
      (c.sub j).prev t = none ∧ (strategy j = .tblLookup → (c.sub j).taskTbl ppid = none)
  | .tblLink (some (j, t)) ppid => strategy j = .tblRedo →
      ∃ l, Chain (c.sub j).next ((c.sub j).taskTbl ppid) l ∧ t ∈ l
  | .tblInit ppid => ∀ j, (c.sub j).taskTbl ppid = none
  | _ => True

theorem Conserved.congr (h : c.Conserved) (hc : SameLists c c') : c'.Conserved := by
  intro j
  obtain ⟨L, hL⟩ := h j
  exact ⟨L, hL.congr (hc j)⟩

theorem Conserved.setSub (h : c.Conserved) {j : CacheId} {s : Subcache}
    (hs : s.Conserved (numReg j)) : (c.setSub j s).Conserved := by
  intro i
  rw [setSub_apply]
  split
  next hi => exact hi ▸ hs
  · exact h i

theorem Conserved.validate (h : c.Conserved) {m : Mapping a} {base extent : ℕ} {r : Populated}
    (hact : Orderly c (.validate m base extent ppid))
    (hr : c.validate m base extent ppid = some r) : r.caches.Conserved := by
  rcases populate_cases hr with ⟨hc, -⟩ | ⟨-, -, t, s, hchoose, rfl⟩
  · rw [hc]
    exact h
  refine Conserved.congr (h.setSub ?_) sameLists_fillTable
  obtain ⟨L, hL⟩ := h (cacheFor a (toInt32 extent))
  rcases Subcache.chooseTable_fill hchoose with ⟨rfl, -⟩ | ⟨htakes, htaken⟩
  · exact ⟨L, hL⟩
  · obtain ⟨hprev, hlookup⟩ := hact htakes t htaken.first
    refine (hL.taken_iff htaken).mpr ⟨hprev, fun hredo => hlookup ?_⟩
    cases hstrategy : strategy (cacheFor a (toInt32 extent)) with
    | tblLookup => rfl
    | tblRedo => simp [hstrategy] at hredo

theorem Conserved.tblLink (h : c.Conserved) {key : Option AddrKey}
    (hact : Orderly c (.tblLink key ppid : Act a)) : (c.tblLink key ppid).Conserved := by
  cases key with
  | none => exact h
  | some k =>
    obtain ⟨j, t⟩ := k
    rw [Caches.tblLink.eq_def]
    dsimp only
    split
    · exact h
    next hstrategy =>
      obtain ⟨l, hchain, ht⟩ := hact hstrategy
      obtain ⟨L, hL⟩ := h j
      rw [← (hL.threaded.chain (some ppid)).unique hchain] at ht
      exact h.setSub ⟨_, hL.returned (fun hD => hD rfl) (by simp) Subcache.returned_tblLink ht⟩

theorem Conserved.tblInit (h : c.Conserved) (hact : Orderly c (.tblInit ppid : Act a)) :
    (c.tblInit ppid).Conserved := by
  have hsame : c.tblInit ppid = c := by
    have hsub : (c.tblInit ppid).sub = c.sub := by
      funext j
      have hnone : update (c.sub j).taskTbl ppid none = (c.sub j).taskTbl := by
        rw [← hact j, update_eq_self]
      simp [Caches.tblInit, hnone]
    exact congrArg (Caches.mk · _) hsub
  rw [hsame]
  exact h

theorem Conserved.step (h : c.Conserved) {act : Act a} (hact : Orderly c act)
    (hstep : c.step act = some c') : c'.Conserved := by
  cases act with
  | validate m base extent ppid =>
    obtain ⟨r, hr, rfl⟩ := map_eq_some_iff.mp hstep
    exact h.validate hact hr
  | memcpy3 m vaddr nbytes k =>
    cases hstep
    exact h.congr sameLists_memcpy3
  | tblLink key ppid =>
    cases hstep
    exact h.tblLink hact
  | invalidate ppid => exact h.congr (sameLists_invalidate hstep)
  | tblInit ppid =>
    cases hstep
    exact h.tblInit hact
  | tblClear ppid =>
    intro j
    obtain ⟨L, hL⟩ := h j
    obtain ⟨s', hs', hconserved⟩ := hL.tblClearSub ppid le_rfl
    have hclear : c.tblClear ppid = some c' := hstep
    have hsub : c'.sub j = s' := some.inj ((eachSub_cases hclear j).symm.trans hs')
    rw [hsub]
    exact hconserved

theorem eachSub_isSome {f : CacheId → Subcache → Option Subcache}
    (h : ∀ j, (f j (c.sub j)).isSome = true) : (c.eachSub f).isSome = true := by
  obtain ⟨s0, h0⟩ := isSome_iff_exists.mp (h 0)
  obtain ⟨s1, h1⟩ := isSome_iff_exists.mp (h 1)
  obtain ⟨s2, h2⟩ := isSome_iff_exists.mp (h 2)
  rw [eachSub, h0, h1, h2]
  rfl

theorem populate_isSome {D : Option TaskId → Prop} {nbytes : ℤ} {L : Option TaskId → List ℕ}
    (h : (c.sub (cacheFor a nbytes)).Listed D (numReg (cacheFor a nbytes)) L) (m : Mapping a)
    (vaddr : ℕ) (ppid : TaskId) : (c.populate m vaddr nbytes ppid).isSome = true := by
  obtain ⟨choice, hchoice⟩ :=
    isSome_iff_exists.mp (h.chooseTable_isSome ppid le_rfl vaddr nbytes)
  rw [populate]
  split
  · rfl
  · simp only [hchoice]
    cases choice with
    | refuse => rfl
    | keep t => rfl
    | fill t s => rfl

theorem invalidate_isSome {D : CacheId → Option TaskId → Prop}
    (h : ∀ j, ∃ L, (c.sub j).Listed (D j) (numReg j) L) (ppid : TaskId) :
    (c.invalidate ppid).isSome = true := by
  refine eachSub_isSome fun j => ?_
  obtain ⟨L, hL⟩ := h j
  exact Subcache.invalidateTables_isSome (hL.threaded.chain (some ppid)) (hL.length_le _)

theorem Conserved.tblClear_isSome (h : c.Conserved) (ppid : TaskId) :
    (c.tblClear ppid).isSome = true := by
  refine eachSub_isSome fun j => ?_
  obtain ⟨L, hL⟩ := h j
  obtain ⟨s', hs', -⟩ := hL.tblClearSub ppid le_rfl
  rw [hs']
  exact isSome_some

theorem Conserved.step_isSome (h : c.Conserved) (act : Act a) : (c.step act).isSome = true := by
  cases act with
  | validate m base extent ppid =>
    obtain ⟨L, hL⟩ := h (cacheFor a (toInt32 extent))
    rw [Caches.step, isSome_map]
    exact populate_isSome hL m base ppid
  | memcpy3 m vaddr nbytes k => exact isSome_some
  | tblLink key ppid => exact isSome_some
  | invalidate ppid => exact invalidate_isSome h ppid
  | tblInit ppid => exact isSome_some
  | tblClear ppid => exact h.tblClear_isSome ppid

theorem conserved_initModule (a : Arch) : (initModule a).Conserved := by
  intro j
  have hpos : 0 < numReg j := by fin_cases j <;> decide
  refine ⟨fun o => if o = none then List.range' 0 (numReg j) else [], ⟨?_, ?_, ?_, ?_, ?_⟩, ?_⟩
  · intro o
    cases o with
    | none =>
      have hchain := chain_range' (numReg j) 0 (numReg j) (zero_add _)
      rw [if_pos hpos] at hchain
      exact hchain
    | some p => rfl
  · intro o ho
    rw [if_neg ho]
    trivial
  · intro o
    split
    · exact nodup_range'
    · exact nodup_nil
  · intro o t ht
    split at ht
    · have := mem_range'_1.mp ht
      omega
    · cases ht
  · intro t ht
    refine ⟨none, ?_, ?_⟩
    · exact mem_range'_1.mpr ⟨zero_le t, by omega⟩
    · intro o ho
      by_contra hne
      rw [if_neg hne] at ho
      cases ho
  · rw [if_pos rfl, length_range']
    rfl

/-- In every orderly run the tables are conserved, and no action is undefined. -/
theorem tables_conserved (h : Reached (Orderly (a := a)) c) :
    c.Conserved ∧ ∀ act : Act a, (c.step act).isSome = true := by
  have hconserved : c.Conserved := by
    induction h with
    | init => exact conserved_initModule a
    | step _ hact hstep ih => exact ih.step hact hstep
  exact ⟨hconserved, hconserved.step_isSome⟩

theorem tables_conserved_linked : ∃ c c', (initModule .alpha).run [
        .validate (everyPage .alpha) 8192 100 1, .validate (everyPage .alpha) 8192 100 1] = some c ∧
      c.step (.tblLink (some (0, 0)) 1 : Act .alpha) = some c' ∧
      c'.Conserved ∧ ∀ act : Act .alpha, (c'.step act).isSome = true := by
  let act : Act .alpha := .validate (everyPage .alpha) 8192 100 1
  have hrun : ((initModule .alpha).step act).any (fun c1 =>
      (c1.sub 0).addrTbl = some 1 ∧ (c1.sub 0).prev 1 = none ∧
        (c1.step act).any fun c => (c.sub 0).taskTbl 1 = some 1 ∧ (c.sub 0).next 1 = some 0 ∧
          (c.sub 0).next 0 = none) = true := by
    decide +kernel
  obtain ⟨c1, h1, hnext⟩ := (any_eq_true _ _).mp hrun
  obtain ⟨hfree, hprev, hnext⟩ := of_decide_eq_true hnext
  obtain ⟨c, h2, hlist⟩ := (any_eq_true _ _).mp hnext
  obtain ⟨htask, hone, hzero⟩ := of_decide_eq_true hlist
  have hfirst : Orderly (initModule .alpha) act := fun _ _ _ => ⟨rfl, fun _ => rfl⟩
  have hact : Orderly c1 act := fun _ t ht =>
    ⟨some.inj (hfree.symm.trans ht) ▸ hprev, fun h => nomatch h⟩
  have hlink : Orderly c (.tblLink (some (0, 0)) 1 : Act .alpha) := fun _ =>
    ⟨[1, 0], by simp [Chain, htask, hone, hzero], by simp⟩
  have hreached : Reached (Orderly (a := .alpha)) c := .step (.step .init hfirst h1) hact h2
  exact ⟨c, _, by simp [run, act, h1, h2], rfl, tables_conserved (hreached.step hlink rfl)⟩

def invalidatedTwice : List (Act .alpha) :=
  [.validate (everyPage .alpha) 8192 100 1, .tblLink (some (cacheFor .alpha 100, 0)) 1,
    .tblLink (some (cacheFor .alpha 100, 0)) 1]

theorem tables_not_conserved : ∃ c, Reached (fun _ (_ : Act .alpha) => True) c ∧
      (initModule .alpha).run invalidatedTwice = some c ∧
      (c.sub 0).freeTables = 4097 ∧ (c.sub 0).head none = some 0 ∧ (c.sub 0).next 0 = some 0 ∧
      ¬ c.Conserved := by
  have hrun : ((initModule .alpha).run invalidatedTwice).any (fun c =>
      (c.sub 0).freeTables = 4097 ∧ (c.sub 0).head none = some 0 ∧ (c.sub 0).next 0 = some 0) =
      true := by
    decide +kernel
  obtain ⟨c, hc, hstate⟩ := (any_eq_true _ _).mp hrun
  obtain ⟨hfree, hhead, hnext⟩ := of_decide_eq_true hstate
  refine ⟨c, Reached.init.run hc, hc, hfree, hhead, hnext, fun hconserved => ?_⟩
  obtain ⟨L, hL⟩ := hconserved 0
  have hchain := hL.threaded.chain none
  rw [hhead] at hchain
  obtain ⟨l, hl, htail⟩ := hchain.eq_cons
  rw [hnext] at htail
  have heq : L none = l := hchain.unique htail
  have hlength := congrArg List.length (hl.symm.trans heq)
  rw [length_cons] at hlength
  omega

end Caches
end Cplant.AddrCache
