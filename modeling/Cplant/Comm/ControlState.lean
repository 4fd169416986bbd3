import Cplant.Comm.ControlPortal

/-!
# The buffers and the list of a control portal

The slots of the two buffers, the first before the second, are numbered: slot `j` holds
message `base + j`. The first `done` of them are processed, and the next ones up to the number
of arrivals wait. The list holds the messages before `base + done` that are not freed, in
order.
-/
namespace Cplant.Comm
open Function
open List Option Node Int32
open Portals

section Lists
variable {α : Type*} {l : List α} {u q : α → Bool}

theorem find?_congr (h : ∀ x ∈ l, u x = q x) : l.find? u = l.find? q := by
  induction l with
  | nil => rfl
  | cons x l ih =>
    rw [find?_cons, find?_cons, h x mem_cons_self, ih fun y hy => h y (mem_cons_of_mem x hy)]

theorem find?_filter_of_imp (h : ∀ x ∈ l, u x = true → q x = true) :
    (l.filter q).find? u = l.find? u := by
  rw [find?_filter]
  refine find?_congr fun x hx => ?_
  rw [Bool.eq_iff_iff, decide_eq_true_iff]
  exact and_iff_right_of_imp (h x hx)

theorem find?_of_imp {a : α} (h : ∀ x, q x = true → u x = true) (ha : l.find? u = some a)
    (hq : q a = true) : l.find? q = some a := by
  induction l with
  | nil => cases ha
  | cons x l ih =>
    cases hu : u x with
    | true =>
      rw [find?_cons_of_pos hu] at ha
      cases ha
      exact find?_cons_of_pos hq
    | false =>
      rw [find?_cons_of_neg (by simp [hu])] at ha
      have hqx : ¬ q x = true := fun hq => by
        rw [h x hq] at hu
        cases hu
      rw [find?_cons_of_neg hqx]
      exact ih ha

theorem find?_dropWhile (h : ∀ x ∈ l.takeWhile q, u x = false) :
    (l.dropWhile q).find? u = l.find? u := by
  have hnone : (l.takeWhile q).find? u = none := by
    rw [find?_eq_none]
    intro x hx
    simp [h x hx]
  conv_rhs => rw [← takeWhile_append_dropWhile (p := q) (l := l), find?_append, hnone]
  rfl

end Lists

theorem walk_eq (stop : Node → Bool) {hopcount : ℤ} {l : List Node}
    (h : (l.length : ℤ) < hopcount) :
    (CtlPtl.walk stop hopcount l).1 = l.find? stop ∧ (CtlPtl.walk stop hopcount l).2 ≠ 0 := by
  induction l generalizing hopcount with
  | nil =>
    refine ⟨rfl, ?_⟩
    simp only [CtlPtl.walk]
    omega
  | cons n l ih =>
    rw [length_cons] at h
    rw [CtlPtl.walk, if_neg (by omega)]
    cases hn : stop n with
    | true => exact ⟨(find?_cons_of_pos hn).symm, by simp; omega⟩
    | false =>
      rw [find?_cons_of_neg (by simp [hn])]
      exact ih (by omega)

@[simp] theorem num_markRead (addr : ℤ) (n : Node) : (n.markRead addr).num = n.num := by
  unfold markRead
  split <;> rfl

@[simp] theorem addr_markRead (addr : ℤ) (n : Node) : (n.markRead addr).addr = n.addr := by
  unfold markRead
  split <;> rfl

@[simp] theorem msg_markRead (addr : ℤ) (n : Node) : (n.markRead addr).msg = n.msg := by
  unfold markRead
  split <;> rfl

theorem flag_markRead (addr : ℤ) (n : Node) :
    (n.markRead addr).flag = if n.addr = addr then .read else n.flag := by
  unfold markRead
  split <;> rfl

def mdAt (maxMsgs k : ℕ) : LibMd :=
  { bufMd maxMsgs with
    offset := Int32.ofNat (msgSize * k)
    threshold := Int32.ofNat (maxMsgs - k) }

theorem mdAt_zero (maxMsgs : ℕ) : mdAt maxMsgs 0 = bufMd maxMsgs := rfl

theorem toInt_ofNat {n : ℕ} (h : n < 2 ^ 31) : (ofNat n).toInt = n :=
  toInt_ofNat_of_lt h

variable {maxMsgs k base done i : ℕ} {mem : Buf → ℕ → Slot} {b1 b2 b : Buf}
  {mds : List (Buf × LibMd)} {arrivals : List Msg}

theorem managedRemote_mdAt (maxMsgs k : ℕ) : managedRemote (mdAt maxMsgs k) = false := by
  show hasOption ptlMdOpPut ptlMdManageRemote = false
  decide

section
variable (hfits : msgSize * maxMsgs < 2 ^ 31) (hk : k < maxMsgs)
include hfits hk

theorem tryMd_mdAt :
    tryMd (mdAt maxMsgs k) 0 ctlPut = some ⟨0, ofNat msgSize, ofNat (msgSize * k)⟩ := by
  have hroom : msgSize * k + msgSize ≤ msgSize * maxMsgs := by exact Nat.mul_le_mul_left msgSize hk
  have hmanaged : managedRemote (mdAt maxMsgs k) = false := managedRemote_mdAt maxMsgs k
  have hoffset : ¬ (mdAt maxMsgs k).maxOffset < (mdAt maxMsgs k).offset := by
    show ¬ ofNat (msgSize * maxMsgs) < ofNat (msgSize * k)
    rw [lt_iff_toInt_lt, toInt_ofNat hfits, toInt_ofNat (by omega)]
    omega
  have hfit : (mdAt maxMsgs k).offset + ctlPut.rlength ≤ (mdAt maxMsgs k).length := by
    show ofNat (msgSize * k) + ofNat msgSize ≤ ofNat (msgSize * maxMsgs)
    rw [← ofNat_add, le_iff_toInt_le, toInt_ofNat (by omega), toInt_ofNat hfits]
    omega
  have htruncates (o : PtlSize) : truncates (mdAt maxMsgs k) o = false := by
    show (hasOption ptlMdOpPut ptlMdTruncate && _) = false
    rw [show hasOption ptlMdOpPut ptlMdTruncate = false by decide, Bool.false_and]
  have heffective : effectiveOffset (mdAt maxMsgs k) ctlPut = (mdAt maxMsgs k).offset := by
    rw [effectiveOffset, hmanaged]
    rfl
  have hgranted : grantedLength (mdAt maxMsgs k) ctlPut (mdAt maxMsgs k).offset =
      ctlPut.rlength := by
    rw [grantedLength, htruncates]
    rfl
  rw [tryMd, if_neg (by simp [hmanaged, hoffset])]
  simp only [heffective, htruncates, hgranted]
  exact if_pos (by simp [hfit])

theorem heldMd_mdAt : heldMd { mdAt maxMsgs k with
      offset := (mdAt maxMsgs k).offset + ofNat msgSize } true =
      { mdAt maxMsgs (k + 1) with doUnlink := decide (maxMsgs = k + 1), pending := 1 } := by
  have hmax : maxMsgs < 2 ^ 31 := by
    unfold msgSize at hfits
    omega
  have hoffset : (mdAt maxMsgs k).offset + ofNat msgSize =
      ofNat (msgSize * (k + 1)) := by
    rw [Nat.mul_succ, ofNat_add]
    rfl
  have hthreshold : (mdAt maxMsgs k).threshold -
      (if (mdAt maxMsgs k).threshold = ptlMdThreshInf then 0 else 1) =
        ofNat (maxMsgs - (k + 1)) := by
    show ofNat (maxMsgs - k) - (if ofNat (maxMsgs - k) = ptlMdThreshInf then 0 else 1)
      = _
    rw [if_neg, show maxMsgs - k = maxMsgs - (k + 1) + 1 by omega, ofNat_add]
    · exact Int32.add_sub_cancel _ _
    · intro h
      have h := congrArg toInt h
      rw [toInt_ofNat (by omega), show ptlMdThreshInf.toInt = -1 from rfl] at h
      omega
  have hdone : (ofNat (maxMsgs - (k + 1)) == 0) = decide (maxMsgs = k + 1) := by
    rw [Bool.eq_iff_iff, beq_iff_eq, decide_eq_true_iff, ← toInt_inj, toInt_ofNat (by omega)]
    simp
    omega
  have hinside : ¬ (mdAt maxMsgs k).maxOffset < ofNat (msgSize * (k + 1)) := by
    have hle : msgSize * (k + 1) ≤ msgSize * maxMsgs := Nat.mul_le_mul_left msgSize hk
    show ¬ ofNat (msgSize * maxMsgs) < ofNat (msgSize * (k + 1))
    rw [lt_iff_toInt_lt, toInt_ofNat hfits, toInt_ofNat (by omega)]
    omega
  have hmanaged : ∀ o, managedRemote { mdAt maxMsgs k with offset := o } = false :=
    fun _ => managedRemote_mdAt maxMsgs k
  rw [hoffset, heldMd]
  simp only [hmanaged, hthreshold, hdone, hinside, decide_false, Bool.and_false, Bool.or_false]
  have hunlink : (mdAt maxMsgs k).unlink = .unlink := rfl
  have hpending : (mdAt maxMsgs k).pending + 1 = 1 := rfl
  simp only [hunlink, hpending, true_and]
  by_cases hlast : maxMsgs = k + 1
  · rw [if_pos (by simp [hlast])]
    simp only [hlast, decide_true]
    rfl
  · rw [if_neg (by simp [hlast])]
    simp only [hlast, decide_false]
    rfl

theorem depositMd_mdAt : depositMd (mdAt maxMsgs k) = some (ofNat (msgSize * k),
      if k + 1 < maxMsgs then some (mdAt maxMsgs (k + 1)) else none) := by
  have hmax : maxMsgs < 2 ^ 31 := by
    unfold msgSize at hfits
    omega
  have hthreshold : (mdAt maxMsgs k).threshold ≠ 0 := fun h => by
    have h := congrArg toInt h
    rw [show (mdAt maxMsgs k).threshold = ofNat (maxMsgs - k) from rfl,
      toInt_ofNat (by omega)] at h
    simp at h
    omega
  have hput : hasOption (mdAt maxMsgs k).options ctlPut.op.flag = true := by
    show hasOption ptlMdOpPut ptlMdOpPut = true
    decide
  rw [depositMd, if_neg (by simp [hthreshold, hput]), tryMd_mdAt hfits hk]
  simp only [map_some, heldMd_mdAt hfits hk]
  by_cases hlast : k + 1 < maxMsgs
  · have hne : maxMsgs ≠ k + 1 := by omega
    simp only [hlast, hne, decide_false]
    rfl
  · have heq : maxMsgs = k + 1 := by omega
    rw [if_neg hlast]
    simp [heq]

end

def slotAt (maxMsgs : ℕ) (mem : Buf → ℕ → Slot) (b1 b2 : Buf) (j : ℕ) : Slot :=
  if j < maxMsgs then mem b1 j else mem b2 (j - maxMsgs)

def mdsOf (maxMsgs : ℕ) (b1 b2 : Buf) (j : ℕ) : List (Buf × LibMd) :=
  if j < maxMsgs then [(b1, mdAt maxMsgs j), (b2, mdAt maxMsgs 0)]
  else [(b2, mdAt maxMsgs (j - maxMsgs))]

theorem slotAt_update (hb : b1 ≠ b2) {J : ℕ} (x : Slot)
    (hJ : J < maxMsgs ∧ b = b1 ∧ i = J ∨ maxMsgs ≤ J ∧ b = b2 ∧ i = J - maxMsgs) (j : ℕ) :
    slotAt maxMsgs (update mem b (update (mem b) i x)) b1 b2 j =
      if j = J then x else slotAt maxMsgs mem b1 b2 j := by
  unfold slotAt
  rcases hJ with ⟨hJ, rfl, rfl⟩ | ⟨hJ, rfl, rfl⟩
  · by_cases hj : j < maxMsgs
    · simp [if_pos hj, update_apply]
    · have hne : j ≠ i := by omega
      simp [if_neg hj, if_neg hne, update_of_ne hb.symm]
  · by_cases hj : j < maxMsgs
    · have hne : j ≠ J := by omega
      simp [if_pos hj, if_neg hne, update_of_ne hb]
    · have hiff : j - maxMsgs = J - maxMsgs ↔ j = J := by omega
      simp [if_neg hj, update_apply, hiff]

structure Buffers (maxMsgs : ℕ) (mem : Buf → ℕ → Slot) (b1 b2 : Buf) (mds : List (Buf × LibMd))
    (arrivals : List Msg) (base done : ℕ) : Prop where
  fits : msgSize * maxMsgs < 2 ^ 31
  apart : b1 ≠ b2
  le : base + done ≤ arrivals.length
  room : arrivals.length < base + 2 * maxMsgs
  waiting : ∀ j, done ≤ j → base + j < arrivals.length →
    (slotAt maxMsgs mem b1 b2 j).flag = .unprocessed ∧
      (slotAt maxMsgs mem b1 b2 j).num = base + j ∧
      arrivals[base + j]? = some (slotAt maxMsgs mem b1 b2 j).msg
  empty : ∀ j < 2 * maxMsgs, arrivals.length ≤ base + j →
    (slotAt maxMsgs mem b1 b2 j).flag = .noMsg
  mds : mds = mdsOf maxMsgs b1 b2 (arrivals.length - base)

namespace Buffers
section
variable (h : Buffers maxMsgs mem b1 b2 mds arrivals base done)
include h

theorem process
    (hloc : done < maxMsgs ∧ b = b1 ∧ i = done ∨ maxMsgs ≤ done ∧ b = b2 ∧ i = done - maxMsgs)
    (hdone : base + done < arrivals.length) (x : Slot) :
    Buffers maxMsgs (update mem b (update (mem b) i x)) b1 b2 mds arrivals base (done + 1) where
  fits := h.fits
  apart := h.apart
  le := hdone
  room := h.room
  waiting j hj hlt := by
    rw [slotAt_update h.apart x hloc, if_neg (by omega)]
    exact h.waiting j (by omega) hlt
  empty j hj hle := by
    rw [slotAt_update h.apart x hloc, if_neg (by omega)]
    exact h.empty j hj hle
  mds := h.mds

theorem at_done (hdone : done < 2 * maxMsgs) :
    base + done < arrivals.length ∧ (slotAt maxMsgs mem b1 b2 done).flag = .unprocessed ∨
      arrivals.length = base + done ∧ (slotAt maxMsgs mem b1 b2 done).flag = .noMsg := by
  have hle := h.le
  rcases Nat.lt_or_ge (base + done) arrivals.length with hlt | hge
  · exact .inl ⟨hlt, (h.waiting done (Nat.le_refl _) hlt).1⟩
  · exact .inr ⟨by omega, h.empty done hdone hge⟩

theorem flip (hdone : maxMsgs ≤ done) :
    Buffers maxMsgs (update mem b1 fun i => if i < maxMsgs then Slot.zero else mem b1 i)
      b2 b1 (mds ++ [(b1, bufMd maxMsgs)]) arrivals (base + maxMsgs) (done - maxMsgs) := by
  have hle := h.le
  have hroom := h.room
  refine ⟨h.fits, h.apart.symm, by omega, by omega, fun j hj hlt => ?_, fun j hj hge => ?_, ?_⟩
  · have hold := h.waiting (maxMsgs + j) (by omega) (by omega)
    simp only [slotAt, if_neg (show ¬ maxMsgs + j < maxMsgs by omega), Nat.add_sub_cancel_left]
      at hold
    simp only [slotAt, if_pos (show j < maxMsgs by omega), update_of_ne h.apart.symm]
    rwa [Nat.add_assoc]
  · by_cases hj' : j < maxMsgs
    · have hold := h.empty (maxMsgs + j) (by omega) (by omega)
      simp only [slotAt, if_neg (show ¬ maxMsgs + j < maxMsgs by omega),
        Nat.add_sub_cancel_left] at hold
      simpa [slotAt, if_pos hj', update_of_ne h.apart.symm] using hold
    · simp only [slotAt, if_neg hj', update_self,
        if_pos (show j - maxMsgs < maxMsgs by omega)]
      rfl
  · rw [h.mds, mdsOf, if_neg (by omega), mdsOf, if_pos (by omega), mdAt_zero,
      show arrivals.length - base - maxMsgs = arrivals.length - (base + maxMsgs) by omega]
    rfl

theorem arrive (hloc : arrivals.length - base < maxMsgs ∧ b = b1 ∧ i = arrivals.length - base ∨
      maxMsgs ≤ arrivals.length - base ∧ b = b2 ∧ i = arrivals.length - base - maxMsgs)
    (hspace : arrivals.length + 1 < base + 2 * maxMsgs) (m : Msg) : Buffers maxMsgs
      (update mem b (update (mem b) i ⟨.unprocessed, m, arrivals.length⟩))
      b1 b2 (mdsOf maxMsgs b1 b2 (arrivals.length - base + 1)) (arrivals ++ [m]) base done := by
  have hle := h.le
  have hlen : (arrivals ++ [m]).length = arrivals.length + 1 := by simp
  refine ⟨h.fits, h.apart, by omega, by omega, fun j hj hlt => ?_, fun j hj hge => ?_, ?_⟩
  · rw [slotAt_update h.apart _ hloc]
    by_cases hnew : j = arrivals.length - base
    · rw [if_pos hnew, show base + j = arrivals.length by omega]
      exact ⟨rfl, rfl, getElem?_concat_length⟩
    · rw [if_neg hnew]
      have hold := h.waiting j hj (by omega)
      rwa [getElem?_append_left (by omega)]
  · rw [slotAt_update h.apart _ hloc, if_neg (by omega)]
    exact h.empty j hj (by omega)
  · rw [hlen, show arrivals.length + 1 - base = arrivals.length - base + 1 by omega]

end
end Buffers

theorem slotOf_offset (hfits : msgSize * maxMsgs < 2 ^ 31) (hk : k < maxMsgs) :
    ((ofNat (msgSize * k)).toInt / msgSize).toNat = k := by
  unfold msgSize at *
  rw [toInt_ofNat (by omega)]
  omega

namespace CtlPtl
variable {s s' : CtlPtl}

theorem arrive_eq (h : Buffers s.maxMsgs s.mem s.buf1.buf s.buf2.buf s.mds s.arrivals base done)
    (hspace : s.arrivals.length + 1 < base + 2 * s.maxMsgs) (m : Msg) :
    ∃ b i, (s.arrivals.length - base < s.maxMsgs ∧ b = s.buf1.buf ∧ i = s.arrivals.length - base ∨
      s.maxMsgs ≤ s.arrivals.length - base ∧ b = s.buf2.buf ∧
        i = s.arrivals.length - base - s.maxMsgs) ∧ s.arrive m = { s with
        arrivals := s.arrivals ++ [m]
        mem := update s.mem b
          (update (s.mem b) i ⟨.unprocessed, m, s.arrivals.length⟩)
        mds := mdsOf s.maxMsgs s.buf1.buf s.buf2.buf (s.arrivals.length - base + 1) } := by
  have hle := h.le
  generalize hF : s.arrivals.length - base = F
  have hmds := h.mds
  rw [hF, mdsOf] at hmds
  by_cases hfirst : F < s.maxMsgs
  · rw [if_pos hfirst] at hmds
    refine ⟨s.buf1.buf, F, .inl ⟨hfirst, rfl, rfl⟩, ?_⟩
    rw [arrive, hmds]
    simp only [depositMd_mdAt h.fits hfirst, slotOf_offset h.fits hfirst]
    congr 1
    by_cases hlast : F + 1 < s.maxMsgs
    · rw [mdsOf, if_pos hlast, if_pos hlast]
      rfl
    · rw [mdsOf, if_neg hlast, if_neg hlast, show F + 1 - s.maxMsgs = 0 by omega]
      rfl
  · have hsecond : F - s.maxMsgs < s.maxMsgs := by omega
    rw [if_neg hfirst] at hmds
    refine ⟨s.buf2.buf, F - s.maxMsgs, .inr ⟨by omega, rfl, rfl⟩, ?_⟩
    rw [arrive, hmds]
    simp only [depositMd_mdAt h.fits hsecond, slotOf_offset h.fits hsecond]
    have hnext : F - s.maxMsgs + 1 < s.maxMsgs := by omega
    have hover : ¬ F + 1 < s.maxMsgs := by omega
    rw [mdsOf, if_neg hover, if_pos hnext, show F + 1 - s.maxMsgs = F - s.maxMsgs + 1 by omega]
    rfl

end CtlPtl

structure Listed (list : List Node) (firstUnread : Option ℤ) (arrivals : List Msg)
    (returned freed : List ℕ) (seen : ℕ) : Prop where
  nums : list.map Node.num = (List.range seen).filter fun k => k ∉ freed
  msgs : ∀ n ∈ list, arrivals[n.num]? = some n.msg
  flags : ∀ n ∈ list, n.flag = if n.num ∈ returned then .read else .unread
  addrs : (list.map Node.addr).Nodup
  first : firstUnread = (list.find? Node.isUnread).map Node.addr
  returned_lt : ∀ k ∈ returned, k < seen
  returned_nodup : returned.Nodup
  freed_subset : freed ⊆ returned
  freed_nodup : freed.Nodup

namespace Listed
variable {list : List Node} {firstUnread : Option ℤ} {returned freed : List ℕ} {seen : ℕ} {n : Node}

section
variable (h : Listed list firstUnread arrivals returned freed seen)
include h

theorem isUnread_iff (hn : n ∈ list) : n.isUnread = true ↔ n.num ∉ returned := by
  rw [isUnread, decide_eq_true_eq, h.flags n hn]
  split_ifs with hread <;> simp [hread]

theorem length_le : list.length + freed.length ≤ seen := by
  have hnodup : ((range seen).filter (fun k => k ∉ freed) ++ freed).Nodup := by
    refine List.Nodup.append (nodup_range.filter _) h.freed_nodup fun k hk hf => ?_
    exact absurd hf (by simpa using (mem_filter.mp hk).2)
  have hsub : (range seen).filter (fun k => k ∉ freed) ++ freed ⊆ range seen := by
    intro k hk
    rcases mem_append.mp hk with hk | hk
    · exact (mem_filter.mp hk).1
    · exact mem_range.mpr (h.returned_lt k (h.freed_subset hk))
  have hlen := (subperm_of_subset hnodup hsub).length_le
  rwa [length_append, ← h.nums, length_map, length_range] at hlen

theorem arrive (m : Msg) : Listed list firstUnread (arrivals ++ [m]) returned freed seen :=
  { h with
    msgs := fun n hn => by
      have hget := h.msgs n hn
      rw [List.getElem?_append_left (List.getElem?_eq_some_iff.mp hget).1]
      exact hget }

theorem push {addr : ℤ} {msg : Msg} (hfresh : ∀ n ∈ list, addr ≠ n.addr)
    (hmsg : arrivals[seen]? = some msg) : Listed (list ++ [⟨addr, .unread, msg, seen⟩])
      (if list = [] ∨ firstUnread = none then some addr else firstUnread)
      arrivals returned freed (seen + 1) := by
  have hnot : seen ∉ returned := fun hk => absurd (h.returned_lt seen hk) (Nat.lt_irrefl _)
  have hnotfreed : seen ∉ freed := fun hk => hnot (h.freed_subset hk)
  refine ⟨?_, ?_, ?_, ?_, ?_, ?_, h.returned_nodup, h.freed_subset, h.freed_nodup⟩
  · rw [map_append, h.nums, range_succ, filter_append]
    simp [hnotfreed]
  · intro n hn
    rcases mem_append.mp hn with hn | hn
    · exact h.msgs n hn
    · obtain rfl := mem_singleton.mp hn
      exact hmsg
  · intro n hn
    rcases mem_append.mp hn with hn | hn
    · exact h.flags n hn
    · obtain rfl := mem_singleton.mp hn
      exact (if_neg hnot).symm
  · rw [map_append]
    refine List.Nodup.append h.addrs (nodup_singleton _) ?_
    intro a ha ha'
    obtain ⟨n, hn, rfl⟩ := mem_map.mp ha
    exact hfresh n hn (mem_singleton.mp ha').symm
  · rw [find?_append, h.first]
    cases hfind : list.find? isUnread with
    | none =>
      rw [if_pos (.inr rfl)]
      rfl
    | some n =>
      have hne : list ≠ [] := ne_nil_of_mem (mem_of_find?_eq_some hfind)
      rw [if_neg (by simp [hne])]
      rfl
  · intro k hk
    exact Nat.lt_succ_of_lt (h.returned_lt k hk)

end

theorem read_before (hfind : list.find? isUnread = some n) :
    ∀ x ∈ list.takeWhile (fun x => some n.addr ≠ some x.addr), x.isUnread = false := by
  induction list with
  | nil => exact fun x hx => absurd hx not_mem_nil
  | cons y list ih =>
    intro x hx
    cases hy : y.isUnread with
    | true =>
      rw [find?_cons_of_pos hy] at hfind
      cases hfind
      simp at hx
    | false =>
      rw [find?_cons_of_neg (by simp [hy])] at hfind
      rw [takeWhile_cons] at hx
      split_ifs at hx
      · rcases mem_cons.mp hx with rfl | hx
        · exact hy
        · exact ih hfind x hx
      · exact absurd hx not_mem_nil

theorem find?_nodesFrom {s : CtlPtl} (h : Listed s.list s.firstUnread arrivals returned freed seen)
    {p : Node → Bool} (hp : ∀ n, p n = true → n.isUnread = true) :
    (s.nodesFrom s.firstUnread).find? p = s.list.find? p := by
  rw [CtlPtl.nodesFrom, h.first]
  cases hfind : s.list.find? isUnread with
  | none =>
    rw [find?_eq_none] at hfind
    rw [find?_eq_none.mpr, find?_eq_none.mpr]
    · exact fun n hn hpn => hfind n hn (hp n hpn)
    · exact fun n hn hpn => hfind n (dropWhile_subset _ hn) (hp n hpn)
  | some n =>
    apply find?_dropWhile
    intro x hx
    by_contra hpx
    have hunread := hp x (by simpa using hpx)
    rw [read_before hfind x hx] at hunread
    cases hunread

section
variable (h : Listed list firstUnread arrivals returned freed seen)
include h

theorem find?_eq_earliest (f : Filter) :
    (list.find? fun n => n.isUnread && f.accepts n.msg).map num =
      earliest arrivals f returned seen := by
  have hcongr : ∀ n ∈ list, (n.isUnread && f.accepts n.msg) =
      decide (n.num ∉ returned ∧ arrivals[n.num]?.any f.accepts) := by
    intro n hn
    have hu := h.isUnread_iff hn
    rw [h.msgs n hn, Bool.eq_iff_iff]
    simp [hu]
  have hmap := find?_map (f := num) (l := list)
    (p := fun k => decide (k ∉ returned ∧ arrivals[k]?.any f.accepts))
  rw [find?_congr hcongr, earliest, ← find?_filter_of_imp (q := fun k => decide (k ∉ freed)),
    ← h.nums, hmap]
  · rfl
  · intro k _ hk
    have hk := of_decide_eq_true hk
    simpa using fun hf => hk.1 (h.freed_subset hf)

theorem addr_eq_iff {m : Node} (hm : m ∈ list) (hn : n ∈ list) :
    m.addr = n.addr ↔ m.num = n.num := by
  have hnums : (list.map num).Nodup := h.nums ▸ nodup_range.filter _
  constructor
  · exact fun heq => congrArg num (inj_on_of_nodup_map h.addrs hm hn heq)
  · exact fun heq => congrArg addr (inj_on_of_nodup_map hnums hm hn heq)

theorem num_mem (hn : n ∈ list) : n.num < seen ∧ n.num ∉ freed := by
  have hmem : n.num ∈ list.map num := mem_map_of_mem hn
  rw [h.nums] at hmem
  simpa using hmem

theorem take (hn : n ∈ list) (hunread : n.isUnread = true) {first : Option ℤ}
    (hfirst : first = ((list.map (markRead n.addr)).find? isUnread).map addr) :
    Listed (list.map (markRead n.addr)) first arrivals (returned ++ [n.num]) freed seen where
  nums := by
    rw [List.map_map, ← h.nums]
    exact congrArg (list.map ·) (funext (num_markRead n.addr))
  msgs m hm := by
    obtain ⟨m', hm', rfl⟩ := mem_map.mp hm
    rw [num_markRead, msg_markRead]
    exact h.msgs m' hm'
  flags m hm := by
    obtain ⟨m', hm', rfl⟩ := mem_map.mp hm
    rw [flag_markRead, num_markRead, h.flags m' hm']
    simp only [h.addr_eq_iff hm' hn, mem_append, mem_singleton]
    split_ifs <;> simp_all
  addrs := by
    rw [List.map_map, show addr ∘ markRead n.addr = addr from
      funext (addr_markRead n.addr)]
    exact h.addrs
  first := hfirst
  returned_lt k hk := by
    rcases mem_append.mp hk with hk | hk
    · exact h.returned_lt k hk
    · exact mem_singleton.mp hk ▸ (h.num_mem hn).1
  returned_nodup := by
    refine List.Nodup.append h.returned_nodup (nodup_singleton _) fun k hk hk' => ?_
    exact (h.isUnread_iff hn).mp hunread (mem_singleton.mp hk' ▸ hk)
  freed_subset k hk := mem_append_left _ (h.freed_subset hk)
  freed_nodup := h.freed_nodup

theorem unlink (hn : n ∈ list) (hread : n.flag = .read) :
    Listed (list.filter fun m => m.addr ≠ n.addr) firstUnread arrivals returned
      (freed ++ [n.num]) seen := by
  have hreturned : n.num ∈ returned := by
    by_contra hnot
    have hunread := (h.isUnread_iff hn).mpr hnot
    simp [isUnread, hread] at hunread
  have hmem : ∀ m ∈ list.filter fun m => m.addr ≠ n.addr, m ∈ list :=
    fun m hm => (mem_filter.mp hm).1
  refine ⟨?_, fun m hm => h.msgs m (hmem m hm), fun m hm => h.flags m (hmem m hm), ?_, ?_,
    h.returned_lt, h.returned_nodup, ?_, ?_⟩
  · have hfilter : (list.filter fun m => m.addr ≠ n.addr) =
        list.filter ((fun k => decide (k ≠ n.num)) ∘ num) := by
      refine filter_congr fun m hm => ?_
      simp [h.addr_eq_iff hm hn]
    rw [hfilter, ← List.filter_map, h.nums, List.filter_filter]
    refine filter_congr fun k _ => ?_
    simp [and_comm]
  · exact h.addrs.sublist (filter_sublist.map _)
  · rw [h.first, find?_filter_of_imp]
    intro m hm hu
    have hne : m.num ≠ n.num := fun heq => (h.isUnread_iff hm).mp hu (heq ▸ hreturned)
    simpa [h.addr_eq_iff hm hn] using hne
  · intro k hk
    rcases mem_append.mp hk with hk | hk
    · exact h.freed_subset hk
    · exact mem_singleton.mp hk ▸ hreturned
  · refine List.Nodup.append h.freed_nodup (nodup_singleton _) fun k hk hk' => ?_
    exact (h.num_mem hn).2 (mem_singleton.mp hk' ▸ hk)

end
end Listed
namespace CtlPtl
variable {s s' : CtlPtl} {returned freed : List ℕ} {seen : ℕ} {n : Node} {list : List Node}

theorem read_before_markRead (hfind : list.find? isUnread = some n) :
    ∀ x ∈ (list.map (markRead n.addr)).takeWhile (fun x => some n.addr ≠ some x.addr),
      x.isUnread = false := by
  intro x hx
  rw [takeWhile_map] at hx
  obtain ⟨y, hy, rfl⟩ := mem_map.mp hx
  simp only [comp_def, addr_markRead] at hy
  have hread := Listed.read_before hfind y hy
  rw [isUnread, decide_eq_false_iff_not] at hread ⊢
  rw [flag_markRead]
  split_ifs
  · decide
  · exact hread

theorem find?_markRead {first : Node}
    (hfind : list.find? isUnread = some first) (hne : first.addr ≠ n.addr) :
    (list.map (markRead n.addr)).find? isUnread = some first := by
  have hsame : first.markRead n.addr = first := if_neg hne
  have hunread := find?_some hfind
  rw [find?_map, find?_of_imp ?_ hfind]
  · exact congrArg some hsame
  · rw [comp_apply, hsame, hunread]
  · intro x hx
    simp only [comp_apply, isUnread, flag_markRead, decide_eq_true_eq] at hx ⊢
    split_ifs at hx
    exact hx

theorem length_lt_hopcount (hpos : 0 < s.maxMsgs) (hfits : msgSize * s.maxMsgs < 2 ^ 31)
    (hlen : s.list.length ≤ s.maxMsgs) : (s.list.length : ℤ) < s.hopcount := by
  unfold msgSize at hfits
  have hhop : s.hopcount = 2 * s.maxMsgs := Int.bmod_eq_of_le (by omega) (by omega)
  omega

theorem nodesFrom_length_le (addr : Option ℤ) : (s.nodesFrom addr).length ≤ s.list.length :=
  (dropWhile_sublist _).length_le

section
variable (h : Listed s.list s.firstUnread arrivals returned freed seen)
  (hhop : (s.list.length : ℤ) < s.hopcount)
include h hhop

theorem search_eq (hunread : s.firstUnread ≠ none) (f : Filter) :
    (s.search f).1 = s.list.find? (fun n => n.isUnread && f.accepts n.msg) ∧
      (s.search f).2 ≠ 0 := by
  have hfrom : ∀ p : Node → Bool, (∀ n, p n = true → n.isUnread = true) →
      (s.nodesFrom s.firstUnread).find? p = s.list.find? p := fun p hp =>
    h.find?_nodesFrom hp
  unfold search
  split_ifs with hany
  · refine ⟨?_, Int.one_ne_zero⟩
    have haccepts : (fun n : Node => n.isUnread && f.accepts n.msg) = isUnread := by
      funext n
      simp [hany, Filter.any, Filter.accepts]
    rw [haccepts, ← hfrom _ fun _ hn => hn]
    obtain ⟨n, hn⟩ : ∃ n, s.list.find? isUnread = some n := by
      rw [h.first, ne_eq, map_eq_none_iff] at hunread
      exact ne_none_iff_exists'.mp hunread
    have hfound := hfrom _ fun _ hn => hn
    rw [hn] at hfound
    cases hnodes : s.nodesFrom s.firstUnread with
    | nil =>
      rw [hnodes] at hfound
      cases hfound
    | cons x rest =>
      -- The node at the address of the cursor is the first one that is not read.
      have hx : x.addr = n.addr := by
        have hhead := head?_dropWhile_not (fun m => decide (s.firstUnread ≠ some m.addr)) s.list
        rw [show s.list.dropWhile _ = x :: rest from hnodes] at hhead
        rw [h.first, hn] at hhead
        have hcursor : n.addr = x.addr := by simpa using hhead
        exact hcursor.symm
      have hmem : x ∈ s.list := dropWhile_subset _ (hnodes ▸ mem_cons_self)
      have heq : x = n :=
        inj_on_of_nodup_map h.addrs hmem (mem_of_find?_eq_some hn) hx
      rw [heq, find?_cons_of_pos (find?_some hn)]
      rfl
  · have hlen : ((s.nodesFrom s.firstUnread).length : ℤ) < s.hopcount := by
      have hle := s.nodesFrom_length_le s.firstUnread
      omega
    have hwalk := walk_eq (fun n => n.isUnread && f.accepts n.msg) hlen
    refine ⟨hwalk.1.trans (hfrom _ fun n hn => ?_), hwalk.2⟩
    exact (Bool.and_eq_true_iff.mp hn).1

theorem take_eq (hn : n ∈ s.list) (hunread : n.isUnread = true) : s.take n = ({ s with
      list := s.list.map (markRead n.addr)
      returned := s.returned ++ [n.num]
      firstUnread :=
        ((s.list.map (markRead n.addr)).find? isUnread).map addr }, .found n) := by
  obtain ⟨first, hfind⟩ : ∃ first, s.list.find? isUnread = some first := by
    rw [← isSome_iff_exists, find?_isSome]
    exact ⟨n, hn, hunread⟩
  have hfirst : s.firstUnread = some first.addr := by rw [h.first, hfind, map_some]
  unfold take
  by_cases heq : first.addr = n.addr
  · have hsame : first = n :=
      inj_on_of_nodup_map h.addrs (mem_of_find?_eq_some hfind) hn heq
    subst hsame
    rw [if_pos hfirst]
    generalize hs' : ({ s with
      list := s.list.map (markRead first.addr)
      returned := s.returned ++ [first.num] } : CtlPtl) = s'
    have hlist : s'.list = s.list.map (markRead first.addr) := hs' ▸ rfl
    have hcursor : s'.firstUnread = some first.addr := hs' ▸ hfirst
    have hhop' : s'.hopcount = s.hopcount := hs' ▸ rfl
    have hlen : ((s'.nodesFrom s'.firstUnread).length : ℤ) < s'.hopcount := by
      have hle := s'.nodesFrom_length_le s'.firstUnread
      rw [hlist, length_map] at hle
      omega
    have hwalk := walk_eq isUnread hlen
    have hnext : (s'.nodesFrom s'.firstUnread).find? isUnread =
        (s.list.map (markRead first.addr)).find? isUnread := by
      rw [nodesFrom, hcursor, hlist]
      exact find?_dropWhile (read_before_markRead hfind)
    simp only [updateFirstUnread, if_neg hwalk.2, hwalk.1, hnext]
    subst hs'
    rfl
  · rw [if_neg (by rw [hfirst]; simpa using heq), find?_markRead hfind heq, map_some, ← hfirst]

end
end CtlPtl
end Cplant.Comm
