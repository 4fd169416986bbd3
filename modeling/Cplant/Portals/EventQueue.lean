import Cplant.Foundations.StampedRing
import Cplant.Portals.Accounting
import Cplant.Portals.Posts

/-!
# Event queues, seen from both sides

The library writes events to user memory and the application reads them there;
the two keep separate sequence numbers and share only the slots. `EqRun` is any
interleaving of library calls and `PtlEQGet` calls after a queue was allocated,
with the events posted to the queue and the events returned from it.
-/
namespace Cplant.Portals
open Function
open Option
open List

def ptlSegv : Int32 := 1

structure PtlEq where
  inuse : Bool
  sequence : PtlSeq
  size : PtlSize
  base : ℤ

structure Process where
  ni : LibNi
  eq : ℕ → PtlEq
  events : ℤ → ℕ → PtlEvent

def storeEvent (events : ℤ → ℕ → PtlEvent) (post : ℤ × ℕ × PtlEvent) : ℤ → ℕ → PtlEvent :=
  update events post.1 (update (events post.1) post.2.1 post.2.2)

def Process.after (p : Process) (o : Outcome) : Process :=
  { p with ni := o.ni, events := (posts o.calls).foldl storeEvent p.events }

/-- `ev` is the result of `malloc` and `validate` that of `nal->validate`. Whatever
goes wrong after the allocation is reported as `PTL_SEGV`. -/
def ptlEQAlloc (p : Process) (interface : PtlHandle) (count : PtlSize) (ev : Option ℤ)
    (validate : Int32) : Option (Int32 × Option PtlHandle × Process) :=
  match ev with
  | none => some (ptlNospace, none, p)
  | some base =>
    let cleared := fun i : ℕ =>
      if i < count.toInt then { p.events base i with sequence := 0 } else p.events base i
    let p := { p with events := update p.events base cleared }
    if validate ≠ 0 then some (ptlSegv, none, p)
    else
      let o := doPtlEQAlloc p.ni interface count base
      let p := p.after o
      match o.handleOut with
      | none => some (ptlSegv, none, p)
      | some handle =>
        let current := handleIndex handle
        if maxEqs < current then some (ptlSegv, none, p)
        else if current = maxEqs then none
        else if (p.eq current).inuse then some (ptlSegv, none, p)
        else
          let eq : PtlEq := { inuse := true, sequence := 1, size := count, base }
          some (ptlOk, some handle, { p with eq := update p.eq current eq })

def ptlEQGet (p : Process) (eventq : PtlHandle) :
    Option (Int32 × Option PtlEvent × Process) :=
  let current := handleIndex eventq
  if maxEqs < current then some (ptlInvEq, none, p)
  else if current = maxEqs then none
  else
    let eq := p.eq current
    if !eq.inuse then some (ptlInvEq, none, p)
    else if eq.size = 0 then none
    else
      let newEvent := p.events eq.base (eq.sequence % eq.size.toUInt32).toNat
      if newEvent.sequence < eq.sequence then some (ptlEqEmpty, none, p)
      else
        let rc := if eq.sequence ≠ newEvent.sequence then ptlEqDropped else ptlOk
        let eq := { eq with sequence := newEvent.sequence + 1 }
        some (rc, some newEvent, { p with eq := update p.eq current eq })

def postedTo (base : ℤ) (calls : List NalCall) : List PtlEvent :=
  (posts calls).filterMap fun post => if post.1 = base then some post.2.2 else none

/-- Runs from `p₀` with what was posted to queue `e` and what was returned from it.
`ok` limits the two numbers after each library call. -/
inductive EqRun (p₀ : Process) (e : ℕ) (ok : ℕ → ℕ → Prop) :
    List PtlEvent → List (Int32 × PtlEvent) → Process → Prop
  | start : EqRun p₀ e ok [] [] p₀
  | lib {posted : List PtlEvent} {got : List (Int32 × PtlEvent)} {p : Process} {c : Call}
      {r : NalReply} {o : Outcome} (h : EqRun p₀ e ok posted got p) (hc : c.KeepsEqs)
      (hw : r.write = 0) (hs : step p.ni r c = some o)
      (hok : ok (posted ++ postedTo (p.ni.eq e).base o.calls).length got.length) :
      EqRun p₀ e ok (posted ++ postedTo (p.ni.eq e).base o.calls) got (p.after o)
  | get {posted : List PtlEvent} {got : List (Int32 × PtlEvent)} {p p' : Process}
      {eventq : PtlHandle} {rc : Int32} {ev : Option PtlEvent} (h : EqRun p₀ e ok posted got p)
      (hg : ptlEQGet p eventq = some (rc, ev, p')) :
      EqRun p₀ e ok posted
        (if handleIndex eventq = e then got ++ (ev.map fun y => (rc, y)).toList else got) p'

def lastPos (got : List (Int32 × PtlEvent)) : ℕ :=
  match got.getLast? with
  | none => 0
  | some g => g.2.sequence.toNat

@[simp]
theorem lastPos_nil : lastPos [] = 0 := rfl

@[simp]
theorem lastPos_concat (got : List (Int32 × PtlEvent)) (g : Int32 × PtlEvent) :
    lastPos (got ++ [g]) = g.2.sequence.toNat := by
  simp [lastPos]

structure Delivery (posted : List PtlEvent) (got : List (Int32 × PtlEvent)) (rc : Int32)
    (ev : Option PtlEvent) : Prop where
  empty : rc = ptlEqEmpty ↔ lastPos got = posted.length
  returns : ev = none ↔ rc = ptlEqEmpty
  posted : ∀ y, ev = some y → posted[y.sequence.toNat - 1]? = some y
  later : ∀ y, ev = some y → ∀ g ∈ got, g.2.sequence < y.sequence
  ok : ∀ y, ev = some y → (rc = ptlOk ↔ y.sequence.toNat = lastPos got + 1)
  dropped : ∀ y, ev = some y → (rc = ptlEqDropped ↔ lastPos got + 1 < y.sequence.toNat)

structure EqInv (e : ℕ) (count : PtlSize) (base : ℤ) (posted : List PtlEvent)
    (got : List (Int32 × PtlEvent)) (p : Process) : Prop where
  ring : RingHolds (fun ev => ev.sequence.toNat) count.toInt.toNat posted (p.events base)
  numbered : ∀ k y, posted[k]? = some y → y.sequence.toNat = k + 1
  libSequence : (p.ni.eq e).sequence.toNat = posted.length + 1
  libSize : (p.ni.eq e).size = count
  libBase : (p.ni.eq e).base = base
  own : ∀ e', e' ≠ e → (p.ni.eq e').base ≠ base
  inuse : (p.eq e).inuse = true
  apiSequence : (p.eq e).sequence.toNat = lastPos got + 1
  apiSize : (p.eq e).size = count
  apiBase : (p.eq e).base = base
  returned : ∀ g ∈ got, g.2.sequence.toNat ≤ lastPos got
  lastPos_le : lastPos got ≤ posted.length

variable {e : ℕ} {count : PtlSize} {base : ℤ} {posted : List PtlEvent}
  {got : List (Int32 × PtlEvent)} {p p' p₀ : Process} {o : Outcome} {eventq interface : PtlHandle}
  {ev : PtlEvent} {rc validate : Int32} {handle : Option PtlHandle} {ok : LibNi → Call → Prop}

theorem EqInv.slot_lib (h : EqInv e count base posted got p) (hcount : 0 < count) :
    ((p.ni.eq e).sequence % (p.ni.eq e).size.toUInt32).toNat =
      (posted.length + 1) % count.toInt.toNat := by
  rw [UInt32.toNat_mod, h.libSequence, h.libSize, toNat_toUInt32 (Int32.le_of_lt hcount)]

theorem EqInv.slot_api (h : EqInv e count base posted got p) (hcount : 0 < count) :
    ((p.eq e).sequence % (p.eq e).size.toUInt32).toNat = (lastPos got + 1) % count.toInt.toNat := by
  rw [UInt32.toNat_mod, h.apiSequence, h.apiSize, toNat_toUInt32 (Int32.le_of_lt hcount)]

section
variable (h : EqInv e count base posted got p)
include h

theorem EqInv.of_same (hevents : p'.events base = p.events base)
    (hseq : (p'.ni.eq e).sequence = (p.ni.eq e).sequence)
    (hsize : (p'.ni.eq e).size = (p.ni.eq e).size)
    (hbase : ∀ e, (p'.ni.eq e).base = (p.ni.eq e).base) (heq : p'.eq e = p.eq e) :
    EqInv e count base posted got p' where
  ring := hevents ▸ h.ring
  numbered := h.numbered
  libSequence := hseq ▸ h.libSequence
  libSize := hsize.trans h.libSize
  libBase := (hbase e).trans h.libBase
  own := fun e' he hb => h.own e' he ((hbase e').symm.trans hb)
  inuse := heq ▸ h.inuse
  apiSequence := heq ▸ h.apiSequence
  apiSize := heq ▸ h.apiSize
  apiBase := heq ▸ h.apiBase
  returned := h.returned
  lastPos_le := h.lastPos_le

theorem EqInv.noPost (hq : NoPost p.ni o.ni o.calls) : EqInv e count base posted got (p.after o) :=
  h.of_same (by simp [Process.after, hq.silent]) (hq.keeps.sequence e) (hq.keeps.size e)
    hq.keeps.base rfl

theorem EqInv.postOther {e1 : ℕ} (hq : PostsOne p.ni o.ni o.calls e1 ev)
    (he1 : e1 ≠ e) : EqInv e count base posted got (p.after o) := by
  have hne : base ≠ (p.ni.eq e1).base := (h.own e1 he1).symm
  refine h.of_same ?_ ?_ (hq.size e) hq.base rfl
  · simp [Process.after, hq.written, storeEvent, update_of_ne hne]
  · exact (hq.sequence e).trans (if_neg he1.symm)

theorem EqInv.postOwn (hcount : 0 < count) (hq : PostsOne p.ni o.ni o.calls e ev)
    (hlen : posted.length + 1 < 2 ^ 32 - 1) :
    EqInv e count base (posted ++ [ev]) got (p.after o) := by
  have hstamp : ev.sequence.toNat = posted.length + 1 := by rw [hq.stamp, h.libSequence]
  have hevents : (p.after o).events base =
      update (p.events base) ((posted.length + 1) % count.toInt.toNat) ev := by
    rw [← h.slot_lib hcount]
    simp [Process.after, hq.written, storeEvent, h.libBase]
  refine { h with
    ring := ?_, numbered := ?_, libSequence := ?_, libSize := ?_, libBase := ?_, own := ?_
    lastPos_le := ?_ }
  · rw [hevents]
    exact h.ring.post hstamp
  · intro k y hk
    rcases lt_trichotomy k posted.length with hlt | rfl | hgt
    · rw [getElem?_append_left hlt] at hk
      exact h.numbered k y hk
    · obtain rfl : ev = y := by simpa using hk
      exact hstamp
    · rw [getElem?_eq_none (by simp; omega)] at hk
      cases hk
  · have hseq := hq.sequence e
    rw [if_pos rfl] at hseq
    have hnext : (o.ni.eq e).sequence.toNat = (posted ++ [ev]).length + 1 := by
      rw [hseq, UInt32.toNat_add, h.libSequence]
      simp
      omega
    exact hnext
  · exact (hq.size e).trans h.libSize
  · exact (hq.base e).trans h.libBase
  · intro e' he
    exact fun hb => h.own e' he ((hq.base e').symm.trans hb)
  · have := h.lastPos_le
    simp
    omega

end

theorem EqInv.size_pos (hcount : 0 < count) : 0 < count.toInt.toNat := by
  rw [Int32.lt_iff_toInt_lt] at hcount
  simp at hcount
  omega

theorem EqInv.get (h : EqInv e count base posted got p) (hcount : 0 < count) (he : e < maxEqs)
    (hlen : posted.length < 2 ^ 32 - 1) (hq : handleIndex eventq = e) :
    (lastPos got = posted.length ∧ ptlEQGet p eventq = some (ptlEqEmpty, none, p)) ∨
    ∃ y rc p', ptlEQGet p eventq = some (rc, some y, p') ∧
      lastPos got < y.sequence.toNat ∧ posted[y.sequence.toNat - 1]? = some y ∧
      rc = (if y.sequence.toNat = lastPos got + 1 then ptlOk else ptlEqDropped) ∧
      (y.sequence.toNat = lastPos got + 1 ↔ posted.length < lastPos got + 1 + count.toInt.toNat) ∧
      y = p.events base ((lastPos got + 1) % count.toInt.toNat) ∧
      EqInv e count base posted (got ++ [(rc, y)]) p' := by
  have hn := EqInv.size_pos hcount
  have hne : (p.eq e).size ≠ 0 := by
    rw [h.apiSize]
    rintro rfl
    cases hcount
  set y := p.events base ((lastPos got + 1) % count.toInt.toNat) with hy
  have hget : ptlEQGet p eventq = if y.sequence < (p.eq e).sequence then some (ptlEqEmpty, none, p)
      else some (if (p.eq e).sequence ≠ y.sequence then ptlEqDropped else ptlOk, some y,
        { p with eq := update p.eq e { p.eq e with sequence := y.sequence + 1 } }) := by
    rw [ptlEQGet, hq]
    simp only [if_neg (show ¬ maxEqs < e by omega), if_neg (show e ≠ maxEqs by omega), h.inuse,
      hne, h.slot_api hcount, h.apiBase, ← hy]
    simp
  have hlt : y.sequence < (p.eq e).sequence ↔ posted.length < lastPos got + 1 := by
    rw [UInt32.lt_iff_toNat_lt, h.apiSequence]
    exact h.ring.stamp_lt_iff hn (by omega)
  have hle := h.lastPos_le
  by_cases hempty : lastPos got = posted.length
  · exact .inl ⟨hempty, by rw [hget, if_pos (hlt.mpr (by omega))]⟩
  have hstamp : lastPos got + 1 ≤ y.sequence.toNat := by
    refine Nat.le_of_not_lt fun hc => ?_
    have := (h.ring.stamp_lt_iff hn (by omega)).mp hc
    omega
  have hitem : posted[y.sequence.toNat - 1]? = some y :=
    h.ring.getElem?_stamp hn (by omega) hstamp
  have hylen := (List.getElem?_eq_some_iff.mp hitem).1
  have heq : (p.eq e).sequence = y.sequence ↔ y.sequence.toNat = lastPos got + 1 := by
    rw [← UInt32.toNat_inj, h.apiSequence]
    exact eq_comm
  refine .inr ⟨y, _, _, by rw [hget, if_neg (by rw [hlt]; omega)], by omega, hitem, ?_, ?_, hy, ?_⟩
  · by_cases hs : (p.eq e).sequence = y.sequence
    · rw [if_neg (not_not.mpr hs), if_pos (heq.mp hs)]
    · rw [if_pos hs, if_neg (fun hc => hs (heq.mpr hc))]
  · have hring := h.ring.stamp_eq_iff hn (r := lastPos got + 1) (by omega)
    exact hring.trans ⟨fun hc => hc.2, fun hc => ⟨by omega, hc⟩⟩
  refine { h with
    inuse := ?_, apiSequence := ?_, apiSize := ?_, apiBase := ?_, returned := ?_
    lastPos_le := ?_ }
  · simpa using h.inuse
  · simp only [update_self, lastPos_concat]
    rw [UInt32.toNat_add]
    simp
    omega
  · simpa using h.apiSize
  · simpa using h.apiBase
  · intro g hg
    rw [lastPos_concat]
    rcases mem_append.mp hg with hold | hnew
    · exact (h.returned g hold).trans (by omega : lastPos got ≤ y.sequence.toNat)
    · rw [mem_singleton.mp hnew]
  · rw [lastPos_concat]
    exact (by omega : y.sequence.toNat ≤ posted.length)

theorem ptlEQGet_frame {ev : Option PtlEvent} (hg : ptlEQGet p eventq = some (rc, ev, p')) :
    p'.ni = p.ni ∧ p'.events = p.events ∧ ∀ e, handleIndex eventq ≠ e → p'.eq e = p.eq e := by
  unfold ptlEQGet at hg
  simp only at hg
  split_ifs at hg
  all_goals cases hg
  all_goals refine ⟨rfl, rfl, fun e hq => ?_⟩
  all_goals first | rfl | exact update_of_ne (Ne.symm hq) _ _

theorem EqInv.getOther (h : EqInv e count base posted got p) {ev : Option PtlEvent}
    (hq : handleIndex eventq ≠ e) (hg : ptlEQGet p eventq = some (rc, ev, p')) :
    EqInv e count base posted got p' := by
  obtain ⟨hni, hevents, heq⟩ := ptlEQGet_frame hg
  exact h.of_same (by rw [hevents]) (by rw [hni]) (by rw [hni]) (by simp [hni]) (heq e hq)

/-- `PtlEQAlloc` only clears the slots, or leaves a queue of the library behind because the
application's entry is in use, or sets up both sides. -/
inductive EqAllocated (p : Process) (interface : PtlHandle) (count : PtlSize) :
    Option ℤ → Int32 → Option PtlHandle → Process → Prop
  | refused {ev : Option ℤ} {rc : Int32} {events : ℤ → ℕ → PtlEvent} (hrc : rc ≠ ptlOk)
      (hevents : ∀ b, ev ≠ some b → events b = p.events b) :
      EqAllocated p interface count ev rc none { p with events }
  | lost {base : ℤ} {new : ℕ} {pool : FreeList} {events : ℤ → ℕ → PtlEvent}
      (ha : p.ni.eqPool.alloc = some (new, pool)) (hin : (p.eq new).inuse = true) :
      EqAllocated p interface count (some base) ptlSegv none
        { p with ni := (doPtlEQAlloc p.ni interface count base).ni, events }
  | done {base : ℤ} {new : ℕ} {pool : FreeList} {events : ℤ → ℕ → PtlEvent}
      (ha : p.ni.eqPool.alloc = some (new, pool)) (hout : (p.eq new).inuse = false)
      (hnew : new < maxEqs) (hidx : handleIndex (handleOf new interface) = new)
      (hevents : ∀ b, b ≠ base → events b = p.events b)
      (hclear : ∀ i : ℕ, i < count.toInt → (events base i).sequence = 0) :
      EqAllocated p interface count (some base) ptlOk (some (handleOf new interface))
        { ni := (doPtlEQAlloc p.ni interface count base).ni
          eq := update p.eq new { inuse := true, sequence := 1, size := count, base }
          events }

theorem ptlEQAlloc_cases {ev : Option ℤ} (hpool : FreeList.Valid maxEqs p.ni.eqPool)
    (hs : ptlEQAlloc p interface count ev validate = some (rc, handle, p')) :
    EqAllocated p interface count ev rc handle p' := by
  unfold ptlEQAlloc at hs
  cases ev with
  | none =>
    cases hs
    exact .refused (by decide) fun _ _ => rfl
  | some base =>
    have hevents : ∀ b, some base ≠ some b →
        update p.events base (fun i : ℕ => if i < count.toInt then
          { p.events base i with sequence := 0 } else p.events base i) b = p.events b :=
      fun b hb => update_of_ne (fun h => hb (congrArg some h.symm)) _ _
    simp only at hs
    split at hs
    · cases hs
      exact .refused (by decide) hevents
    cases ha : p.ni.eqPool.alloc with
    | none =>
      simp only [doPtlEQAlloc, ha, reject] at hs
      cases hs
      exact .refused (by decide) hevents
    | some q =>
      obtain ⟨new, pool⟩ := q
      have hnew := (FreeList.alloc_spec hpool ha).1
      have hidx : handleIndex (handleOf new interface) = new := by
        refine handleIndex_handleOf ?_ interface
        unfold maxEqs at hnew
        omega
      have hni : (doPtlEQAlloc p.ni interface count base).handleOut =
          some (handleOf new interface) ∧
          (doPtlEQAlloc p.ni interface count base).calls = [] := by simp [doPtlEQAlloc, ha]
      simp only [hni.1, Process.after, hni.2, posts, filterMap_nil, foldl_nil, hidx,
        if_neg (show ¬ maxEqs < new by omega), if_neg (show new ≠ maxEqs by omega)] at hs
      split at hs
      next hin =>
        cases hs
        exact .lost ha hin
      next hin =>
        cases hs
        refine .done ha (by simpa using hin) hnew hidx (fun b hb => ?_) fun i hi => ?_
        · exact update_of_ne hb _ _
        · simp [hi]

theorem EqAllocated.reachable {ev : Option ℤ} (h : EqAllocated p interface count ev rc handle p')
    (hreach : Reachable ok p.ni)
    (hok : ∀ base, ev = some base → ok p.ni (.eqAlloc interface count base)) :
    Reachable ok p'.ni := by
  have hnext : ∀ base, ev = some base → Reachable ok (doPtlEQAlloc p.ni interface count base).ni :=
    fun base hb => hreach.step (c := .eqAlloc interface count base) (r := okReply) trivial
      (hok base hb) rfl
  cases h with
  | refused => exact hreach
  | lost => exact hnext _ rfl
  | done => exact hnext _ rfl

theorem ptlEQAlloc_inv (hreach : Reachable ok p.ni) {handle : PtlHandle}
    (hs : ptlEQAlloc p interface count (some base) validate = some (ptlOk, some handle, p'))
    (hown : ∀ e, e ≠ handleIndex handle → (p.ni.eq e).base ≠ base) :
    handleIndex handle < maxEqs ∧ EqInv (handleIndex handle) count base [] [] p' := by
  cases ptlEQAlloc_cases hreach.eqPool hs with
  | done ha _ hnew hidx _ hclear =>
    rw [hidx] at hown ⊢
    refine ⟨hnew, RingHolds.empty fun i hi => ?_, by simp, ?_, ?_, ?_, fun e' he' => ?_, ?_, ?_, ?_,
      ?_, by simp, by simp⟩
    · rw [hclear i (by omega)]
      rfl
    · simp [doPtlEQAlloc, ha]
    · simp [doPtlEQAlloc, ha]
    · simp [doPtlEQAlloc, ha]
    · simpa [doPtlEQAlloc, ha, he'] using hown e' he'
    all_goals simp

section
variable (h0 : EqInv e count base [] [] p₀) (hcount : 0 < count) (he : e < maxEqs)
include h0 hcount he

theorem EqRun.inv {ok : ℕ → ℕ → Prop} (h : EqRun p₀ e ok posted got p) :
    posted.length < 2 ^ 32 - 1 → EqInv e count base posted got p := by
  induction h with
  | start => exact fun _ => h0
  | @lib posted got p c r o h hc hw hs hok ih =>
    intro hlen
    rw [length_append] at hlen
    have hinv := ih (by omega)
    rw [hinv.libBase] at hlen ⊢
    rcases step_posts hc hw hs with hq | ⟨e1, ev, hq⟩
    · have hnone : postedTo base o.calls = [] := by simp [postedTo, hq.silent]
      rw [hnone, append_nil]
      exact hinv.noPost hq
    by_cases he1 : e1 = e
    · subst he1
      have hone : postedTo base o.calls = [ev] := by simp [postedTo, hq.written, hinv.libBase]
      rw [hone] at hlen ⊢
      exact hinv.postOwn hcount hq hlen
    · have hnone : postedTo base o.calls = [] := by simp [postedTo, hq.written, hinv.own e1 he1]
      rw [hnone, append_nil]
      exact hinv.postOther hq he1
  | @get posted got p p' eventq rc ev h hg ih =>
    intro hlen
    have hinv := ih hlen
    by_cases hq : handleIndex eventq = e
    · rw [if_pos hq]
      rcases hinv.get hcount he hlen hq with
        ⟨-, hempty⟩ | ⟨y, rc', p'', hsome, -, -, -, -, -, hnext⟩
      · cases hg.symm.trans hempty
        simpa using hinv
      · cases hg.symm.trans hsome
        simpa using hnext
    · rw [if_neg hq]
      exact hinv.getOther hq hg

theorem EqRun.in_order
    (h : EqRun p₀ e (fun sent read => sent ≤ read + count.toInt.toNat) posted got p) :
    posted.length < 2 ^ 32 - 1 →
      posted.length ≤ got.length + count.toInt.toNat ∧ lastPos got = got.length ∧
        got = (posted.take got.length).map fun y => (ptlOk, y) := by
  induction h with
  | start => exact fun _ => ⟨by simp, rfl, rfl⟩
  | @lib posted got p c r o h hc hw hs hok ih =>
    intro hlen
    have hlen' : posted.length < 2 ^ 32 - 1 := by
      rw [length_append] at hlen
      omega
    obtain ⟨-, hlast, hgot⟩ := ih hlen'
    refine ⟨hok, hlast, ?_⟩
    have hle : got.length ≤ posted.length := hlast ▸ (h.inv h0 hcount he hlen').lastPos_le
    rw [take_append_of_le_length hle]
    exact hgot
  | @get posted got p p' eventq rc ev h hg ih =>
    intro hlen
    obtain ⟨hbound, hlast, hgot⟩ := ih hlen
    by_cases hq : handleIndex eventq = e
    · rw [if_pos hq]
      rcases (h.inv h0 hcount he hlen).get hcount he hlen hq with
        ⟨-, hempty⟩ | ⟨y, rc', p'', hsome, -, hitem, hrc, hnext, -, -⟩
      · cases hg.symm.trans hempty
        simp only [map_none, toList_none, append_nil]
        exact ⟨hbound, hlast, hgot⟩
      cases hg.symm.trans hsome
      have hpos : y.sequence.toNat = lastPos got + 1 := hnext.mpr (by omega)
      rw [if_pos hpos] at hrc
      rw [hpos, Nat.add_sub_cancel, hlast] at hitem
      subst hrc
      simp only [map_some, toList_some, length_append, length_singleton,
        lastPos_concat]
      refine ⟨by omega, by omega, ?_⟩
      rw [take_add_one, hitem, toList_some, map_append, ← hgot]
      rfl
    · rw [if_neg hq]
      exact ⟨hbound, hlast, hgot⟩

end

theorem EqInv.delivery (h : EqInv e count base posted got p) (hcount : 0 < count) (he : e < maxEqs)
    (hlen : posted.length < 2 ^ 32 - 1) (hq : handleIndex eventq = e) :
    ∃ rc ev p', ptlEQGet p eventq = some (rc, ev, p') ∧ Delivery posted got rc ev := by
  rcases h.get hcount he hlen hq with ⟨hlast, hget⟩ | ⟨y, rc, p', hget, hlt, hitem, hrc, -, -, -⟩
  · refine ⟨_, _, _, hget, ⟨fun _ => hlast, fun _ => rfl⟩, by simp, ?_, ?_, ?_, ?_⟩
    all_goals
      intro y hy
      cases hy
  have hylen := (List.getElem?_eq_some_iff.mp hitem).1
  have hne : rc ≠ ptlEqEmpty := by
    rw [hrc]
    split <;> decide
  have hdiffer : ptlEqDropped ≠ ptlOk := by decide
  refine ⟨_, _, _, hget, ⟨fun hc => absurd hc hne, fun hc => by omega⟩, by simp [hne],
    ?_, ?_, ?_, ?_⟩
  · rintro _ ⟨⟩
    exact hitem
  · rintro _ ⟨⟩ g hg
    rw [UInt32.lt_iff_toNat_lt]
    exact (h.returned g hg).trans_lt hlt
  · rintro _ ⟨⟩
    rw [hrc]
    split <;> simp_all
  · rintro _ ⟨⟩
    rw [hrc]
    split
    next hpos => simpa [hdiffer.symm] using hpos.le
    next hpos =>
      simp only [true_iff]
      omega

/-- Events are delivered in posting order from a queue of any positive size. -/
theorem ptlEQGet_delivery {p p₀ : Process} {ok : LibNi → Call → Prop} (hreach : Reachable ok p.ni)
    {interface handle : PtlHandle} {count : PtlSize} {base : ℤ} {validate : Int32}
    (hcount : 0 < count)
    (halloc : ptlEQAlloc p interface count (some base) validate = some (ptlOk, some handle, p₀))
    (hown : ∀ e, e ≠ handleIndex handle → (p.ni.eq e).base ≠ base) :
    (∀ posted got q, EqRun p₀ (handleIndex handle) (fun _ _ => True) posted got q →
      posted.length < 2 ^ 32 - 1 →
      (∀ k y, posted[k]? = some y → y.sequence.toNat = k + 1) ∧
      ∃ rc ev q', ptlEQGet q handle = some (rc, ev, q') ∧ Delivery posted got rc ev) ∧
    (∀ posted got q, EqRun p₀ (handleIndex handle)
        (fun sent read => sent ≤ read + count.toInt.toNat) posted got q →
      posted.length < 2 ^ 32 - 1 →
      got = (posted.take got.length).map (fun y => (ptlOk, y)) ∧
      ∃ rc q', ptlEQGet q handle = some (rc, posted[got.length]?, q') ∧
        rc = if got.length < posted.length then ptlOk else ptlEqEmpty) := by
  obtain ⟨he, h0⟩ := ptlEQAlloc_inv hreach halloc hown
  constructor
  · intro posted got q hrun hlen
    have hinv := hrun.inv h0 hcount he hlen
    exact ⟨hinv.numbered, hinv.delivery hcount he hlen rfl⟩
  intro posted got q hrun hlen
  have hinv := hrun.inv h0 hcount he hlen
  obtain ⟨hbound, hlast, hgot⟩ := hrun.in_order h0 hcount he hlen
  refine ⟨hgot, ?_⟩
  rcases hinv.get hcount he hlen rfl with
    ⟨hend, hget⟩ | ⟨y, rc, q', hget, hlt, hitem, hrc, hnext, -, -⟩
  · refine ⟨_, q, ?_, rfl⟩
    rw [hget, if_neg (by omega), getElem?_eq_none (by omega)]
  · have hpos : y.sequence.toNat = lastPos got + 1 := hnext.mpr (by omega)
    have hylen := (List.getElem?_eq_some_iff.mp hitem).1
    rw [hpos, Nat.add_sub_cancel, hlast] at hitem
    rw [if_pos hpos] at hrc
    exact ⟨rc, q', by rw [hget, hitem], by rw [hrc, if_pos (by omega)]⟩

def freshProcess : Process where
  ni := freshNi
  eq := fun _ => ⟨false, 0, 0, 0⟩
  events := fun _ _ => ⟨.put, 0, ⟨.both, 0, 0, 0, 0⟩, 0, 0, 0, 0, 0, ⟨0, 0, 0, 0, 0, 0, 0⟩, 0⟩

def twoSlots : Process :=
  ((ptlEQAlloc freshProcess 0 2 (some 1000) 0).map fun q => q.2.2).getD freshProcess

theorem twoSlots_alloc :
    ptlEQAlloc freshProcess 0 2 (some 1000) 0 = some (ptlOk, some 4095, twoSlots) := rfl

def Process.calls (e : ℕ) : Process → List Call → List PtlEvent × Process
  | p, [] => ([], p)
  | p, c :: cs =>
    match step p.ni okReply c with
    | none => ([], p)
    | some o =>
      let rest := (p.after o).calls e cs
      (postedTo (p.ni.eq e).base o.calls ++ rest.1, rest.2)

theorem EqRun.calls {cs : List Call} :
    ∀ {posted : List PtlEvent} {p : Process}, EqRun p₀ e (fun _ _ => True) posted got p →
      (∀ c ∈ cs, c.KeepsEqs) →
      EqRun p₀ e (fun _ _ => True) (posted ++ (p.calls e cs).1) got (p.calls e cs).2 := by
  induction cs with
  | nil =>
    intro posted p h _
    simpa [Process.calls] using h
  | cons c cs ih =>
    intro posted p h hcs
    unfold Process.calls
    split
    · simpa using h
    next o hs =>
      have hnext := h.lib (hcs c (by simp)) rfl hs trivial
      simpa [append_assoc] using ih hnext fun c' hc' => hcs c' (by simp [hc'])

def threePuts : List Call :=
  let put := putFrom 4095
  let done := Call.finalize (some 1023)
  [.mdBind 0 ⟨0, 10, ptlMdThreshInf, 10, ptlMdOpPut, 0, 4095⟩, put, done, put, done, put, done]

theorem eqRun_threePuts {e k : ℕ} : EqRun twoSlots e (fun _ _ => True)
    (twoSlots.calls e (threePuts.take k)).1 [] (twoSlots.calls e (threePuts.take k)).2 := by
  have hstart : EqRun twoSlots e (fun _ _ => True) [] [] twoSlots := .start
  have hkeeps : ∀ c ∈ threePuts, c.KeepsEqs := by simp [threePuts, putFrom, Call.KeepsEqs]
  exact hstart.calls fun c hc => hkeeps c (mem_of_mem_take hc)

theorem threePuts_run : ∃ r, ptlEQGet (twoSlots.calls 4095 threePuts).2 4095 = some r ∧
    EqRun twoSlots 4095 (fun _ _ => True) (twoSlots.calls 4095 threePuts).1
      (r.2.1.map fun y => (r.1, y)).toList r.2.2 := by
  obtain ⟨r, hr⟩ : ∃ r, ptlEQGet (twoSlots.calls 4095 threePuts).2 4095 = some r :=
    isSome_iff_exists.mp (by decide +kernel)
  have hget := (eqRun_threePuts (k := 7)).get hr
  rw [if_pos (by decide), nil_append] at hget
  exact ⟨r, hr, hget⟩

theorem ptlEQGet_delivery_three : ∃ posted got q,
      EqRun twoSlots 4095 (fun _ _ => True) posted got q ∧ posted.length = 3 ∧ got.length = 1 ∧
      ∃ rc ev q', ptlEQGet q 4095 = some (rc, ev, q') ∧ Delivery posted got rc ev := by
  obtain ⟨r, hr, hrun⟩ := threePuts_run
  have hlen : (twoSlots.calls 4095 threePuts).1.length = 3 := by decide +kernel
  have hsome : (ptlEQGet (twoSlots.calls 4095 threePuts).2 4095).all fun r => r.2.1.isSome := by
    decide +kernel
  rw [hr] at hsome
  obtain ⟨y, hy⟩ := isSome_iff_exists.mp hsome
  have hidx : handleIndex 4095 = 4095 := by decide
  have h := ptlEQGet_delivery freshNi_reachable (by decide) twoSlots_alloc
    (fun e _ => (by decide : (0 : ℤ) ≠ 1000))
  exact ⟨_, _, _, hrun, hlen, by rw [hy]; rfl, (h.1 _ _ _ (hidx ▸ hrun) (by rw [hlen]; decide)).2⟩

/-- Three events in two slots: the third comes back for the first, and the second is
still in its slot when the queue is reported empty. -/
theorem ptlEQGet_passes_over : ∃ posted got q, EqRun twoSlots 4095 (fun _ _ => True) posted got q ∧
      (ptlEQGet q 4095).map (fun r => (r.1, r.2.1)) = some (ptlEqEmpty, none) ∧
      ∃ y ∈ posted, y ∉ got.map Prod.snd ∧ q.events 1000 (y.sequence.toNat % 2) = y := by
  obtain ⟨r, hr, hrun⟩ := threePuts_run
  have heval : (ptlEQGet (twoSlots.calls 4095 threePuts).2 4095).all fun r =>
      (ptlEQGet r.2.2 4095).map (fun s => (s.1, s.2.1)) = some (ptlEqEmpty, none) ∧
      r.2.2.events 1000 0 ∈ (twoSlots.calls 4095 threePuts).1 ∧
      r.2.1 ≠ some (r.2.2.events 1000 0) ∧ (r.2.2.events 1000 0).sequence = 2 := by
    decide +kernel
  rw [hr] at heval
  obtain ⟨hempty, hmem, hnot, hseq⟩ := of_decide_eq_true heval
  refine ⟨_, _, _, hrun, hempty, r.2.2.events 1000 0, hmem, ?_, ?_⟩
  · cases hev : r.2.1 with
    | none => simp
    | some y => simpa [hev, eq_comm] using hnot
  · rw [hseq]
    rfl

end Cplant.Portals
