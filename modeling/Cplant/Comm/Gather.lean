import Cplant.Foundations.Halving

/-!
# Who sends what to whom in a gather

`dsrvr_gather` halves the group again and again. At each level the first member of the right
half sends the blocks of its half to the first member of the left half. A member receives from
the levels at which it is the first of the left half, and sends at most once.
-/
namespace Cplant.Comm

def log2xFrom (x : ℕ) : ℕ → ℕ → ℕ
  | 0, i => i
  | fuel + 1, i => if 1 <<< i < x then log2xFrom x fuel (i + 1) else i

def log2x (x : ℕ) : ℕ := log2xFrom x x 0

@[ext]
structure Block where
  offset : ℕ
  len : ℕ
deriving DecidableEq, Repr

structure GatherPlan where
  recvs : List (ℕ × Block)
  send : Option (ℕ × Block)
deriving DecidableEq, Repr

def gatherLoop (myelt : ℕ) : (fuel iroot left right : ℕ) → GatherPlan
  | 0, _, _, _ => ⟨[], none⟩
  | fuel + 1, iroot, left, right =>
    let mid := (left + right) / 2
    let src :=
      if iroot ≤ mid then (if iroot = left then mid + 1 else right)
      else (if iroot = right then mid else left)
    let block : Block :=
      if src ≤ mid then ⟨left, mid - left + 1⟩ else ⟨mid + 1, right - mid⟩
    let iroot' :=
      if myelt ≤ mid then (if iroot > mid then src else iroot)
      else (if iroot ≤ mid then src else iroot)
    let left' := if myelt ≤ mid then left else mid + 1
    let right' := if myelt ≤ mid then mid else right
    let rest := if left' = right' then ⟨[], none⟩ else gatherLoop myelt fuel iroot' left' right'
    if myelt = iroot then { rest with recvs := (src, block) :: rest.recvs }
    -- a later turn would write over `snid` and `sblock`
    else if myelt = src then { rest with send := rest.send.or (some (iroot, block)) }
    else rest

def gatherPlan (listLen myelt : ℕ) : GatherPlan :=
  gatherLoop myelt (log2x listLen) 0 0 (listLen - 1)

variable {fuel e l r i : ℕ} {B : Block}

theorem le_two_pow_log2xFrom {x : ℕ} (h : x ≤ 2 ^ (i + fuel)) : x ≤ 2 ^ log2xFrom x fuel i := by
  induction fuel generalizing i with
  | zero => exact h
  | succ fuel ih =>
    unfold log2xFrom
    split_ifs with hlt
    · apply ih
      rwa [Nat.add_right_comm]
    · rw [Nat.shiftLeft_eq, Nat.one_mul] at hlt
      omega

theorem le_two_pow_log2x (x : ℕ) : x ≤ 2 ^ log2x x := by
  apply le_two_pow_log2xFrom
  rw [Nat.zero_add]
  exact Nat.le_of_lt Nat.lt_two_pow_self

def gatherRange (myelt fuel l r : ℕ) : GatherPlan :=
  if l = r then ⟨[], none⟩ else gatherLoop myelt fuel l l r

theorem gatherRange_left (hlr : l < r) (he : e ≤ (l + r) / 2) : gatherRange e (fuel + 1) l r =
      if e = l then { gatherRange e fuel l ((l + r) / 2) with
          recvs := ((l + r) / 2 + 1, ⟨(l + r) / 2 + 1, r - (l + r) / 2⟩) ::
            (gatherRange e fuel l ((l + r) / 2)).recvs }
      else gatherRange e fuel l ((l + r) / 2) := by
  have hmid : l ≤ (l + r) / 2 := by omega
  have hne : e ≠ (l + r) / 2 + 1 := by omega
  rw [gatherRange, if_neg (by omega)]
  simp only [gatherLoop, if_pos hmid, if_pos he, if_neg (show ¬l > (l + r) / 2 by omega), if_true,
    if_neg (show ¬(l + r) / 2 + 1 ≤ (l + r) / 2 by omega), if_neg hne]
  rfl

theorem gatherRange_right (hlr : l < r) (he : (l + r) / 2 < e) : gatherRange e (fuel + 1) l r =
      if e = (l + r) / 2 + 1 then { gatherRange e fuel ((l + r) / 2 + 1) r with
          send := (gatherRange e fuel ((l + r) / 2 + 1) r).send.or
            (some (l, ⟨(l + r) / 2 + 1, r - (l + r) / 2⟩)) }
      else gatherRange e fuel ((l + r) / 2 + 1) r := by
  have hmid : l ≤ (l + r) / 2 := by omega
  rw [gatherRange, if_neg (by omega)]
  simp only [gatherLoop, if_pos hmid, if_neg (show ¬e ≤ (l + r) / 2 by omega), if_true,
    if_neg (show ¬(l + r) / 2 + 1 ≤ (l + r) / 2 by omega), if_neg (show e ≠ l by omega)]
  rfl

theorem mem_gatherRange {s : ℕ} (hl : l ≤ e) (hr : e ≤ r) (hfuel : r - l < 2 ^ fuel) :
    (s, B) ∈ (gatherRange e fuel l r).recvs ↔ HalvingEdge l r e s B.len ∧ B.offset = s := by
  induction fuel generalizing l r with
  | zero =>
    have hlr : l = r := by omega
    rw [gatherRange, if_pos hlr]
    exact iff_of_false List.not_mem_nil fun h => Nat.lt_irrefl l (by have := h.1.lt; omega)
  | succ fuel ih =>
    rcases Nat.eq_or_lt_of_le (Nat.le_trans hl hr) with hlr | hlr
    · rw [gatherRange, if_pos hlr]
      exact iff_of_false List.not_mem_nil fun h => Nat.lt_irrefl l (by have := h.1.lt; omega)
    rcases Nat.lt_or_ge ((l + r) / 2) e with hmid | hmid
    · rw [gatherRange_right hlr hmid, HalvingEdge.iff_right hlr hmid,
        ← ih (by omega) hr (by omega)]
      split_ifs <;> rfl
    rw [gatherRange_left hlr hmid, HalvingEdge.iff_left hlr hmid]
    have ih := ih (r := (l + r) / 2) hl hmid (by omega)
    split_ifs with he
    · rw [List.mem_cons, ih, Prod.mk.injEq, Block.ext_iff]
      constructor
      · rintro (⟨rfl, hoff, hlen⟩ | ⟨hedge, hoff⟩)
        · exact ⟨.inl ⟨he, rfl, hlen⟩, hoff⟩
        · exact ⟨.inr hedge, hoff⟩
      · rintro ⟨⟨-, rfl, hlen⟩ | hedge, hoff⟩
        · exact .inl ⟨rfl, hoff, hlen⟩
        · exact .inr ⟨hedge, hoff⟩
    · rw [ih]
      constructor
      · rintro ⟨hedge, hoff⟩
        exact ⟨.inr hedge, hoff⟩
      · rintro ⟨⟨rfl, -⟩ | hedge, hoff⟩
        · exact absurd rfl he
        · exact ⟨hedge, hoff⟩

theorem gatherRange_send {d : ℕ} (hl : l ≤ e) (hr : e ≤ r) (hfuel : r - l < 2 ^ fuel) :
    (gatherRange e fuel l r).send = some (d, B) ↔ HalvingEdge l r d e B.len ∧ B.offset = e := by
  induction fuel generalizing l r d B with
  | zero =>
    have hlr : l = r := by omega
    rw [gatherRange, if_pos hlr]
    exact iff_of_false nofun fun h => Nat.lt_irrefl l (by have := h.1.lt; omega)
  | succ fuel ih =>
    rcases Nat.eq_or_lt_of_le (Nat.le_trans hl hr) with hlr | hlr
    · rw [gatherRange, if_pos hlr]
      exact iff_of_false nofun fun h => Nat.lt_irrefl l (by have := h.1.lt; omega)
    rcases Nat.lt_or_ge ((l + r) / 2) e with hmid | hmid
    · rw [gatherRange_right hlr hmid, HalvingEdge.src_iff_right hlr hmid]
      split_ifs with he
      · -- the first of the right half is the root there and has sent nothing
        have hnot : ∀ {d k}, ¬HalvingEdge ((l + r) / 2 + 1) r d e k := fun hedge => by
          have := hedge.range
          omega
        have hnone : (gatherRange e fuel ((l + r) / 2 + 1) r).send = none := by
          cases hrest : (gatherRange e fuel ((l + r) / 2 + 1) r).send with
          | none => rfl
          | some x => exact absurd ((ih (by omega) hr (by omega)).mp hrest).1 hnot
        simp only [hnone, Option.none_or, Option.some_inj, Prod.mk.injEq, Block.ext_iff]
        constructor
        · rintro ⟨rfl, hoff, hlen⟩
          exact ⟨.inl ⟨rfl, he, hlen.symm⟩, by omega⟩
        · rintro ⟨⟨rfl, -, hlen⟩ | hedge, hoff⟩
          · exact ⟨rfl, by omega, hlen.symm⟩
          · exact absurd hedge hnot
      · rw [ih (by omega) hr (by omega)]
        constructor
        · rintro ⟨hedge, hoff⟩
          exact ⟨.inr hedge, hoff⟩
        · rintro ⟨⟨-, rfl, -⟩ | hedge, hoff⟩
          · exact absurd rfl he
          · exact ⟨hedge, hoff⟩
    · rw [gatherRange_left hlr hmid, HalvingEdge.src_iff_left hlr hmid, ← ih hl hmid (by omega)]
      split_ifs <;> rfl

section Plan
variable {n e d s : ℕ} {B : Block}

section
variable (hn : 1 < n)
include hn

theorem gatherPlan_eq (e : ℕ) : gatherPlan n e = gatherRange e (log2x n) 0 (n - 1) := by
  rw [gatherPlan, gatherRange, if_neg (by omega)]

theorem mem_recvs (he : e < n) :
    (s, B) ∈ (gatherPlan n e).recvs ↔ HalvingEdge 0 (n - 1) e s B.len ∧ B.offset = s := by
  have := le_two_pow_log2x n
  rw [gatherPlan_eq hn]
  exact mem_gatherRange (Nat.zero_le e) (by omega) (by omega)

theorem send_eq (he : e < n) :
    (gatherPlan n e).send = some (d, B) ↔ HalvingEdge 0 (n - 1) d e B.len ∧ B.offset = e := by
  have := le_two_pow_log2x n
  rw [gatherPlan_eq hn]
  exact gatherRange_send (Nat.zero_le e) (by omega) (by omega)

theorem recv_iff_send (hd : d < n) (hs : s < n) :
    (s, B) ∈ (gatherPlan n d).recvs ↔ (gatherPlan n s).send = some (d, B) := by
  rw [mem_recvs hn hd, send_eq hn hs]

theorem recv_lt (hd : d < n) (h : (s, B) ∈ (gatherPlan n d).recvs) :
    s < n ∧ B.offset + B.len ≤ n := by
  obtain ⟨hedge, hoff⟩ := (mem_recvs hn hd).mp h
  have := hedge.range
  have := hedge.pos
  omega

theorem send_lt (hs : s < n) (h : (gatherPlan n s).send = some (d, B)) : d < n := by
  have := ((send_eq hn hs).mp h).1.range
  omega

theorem recvs_cover_root (hi : i < n) :
    i = 0 ∨ ∃ x ∈ (gatherPlan n 0).recvs, x.2.offset ≤ i ∧ i < x.2.offset + x.2.len := by
  rcases HalvingEdge.cover_root (r := n - 1) (Nat.zero_le i) (by omega) with h | ⟨s, k, hedge, hi⟩
  · exact .inl h
  · exact .inr ⟨(s, ⟨s, k⟩), (mem_recvs hn (by omega)).mpr ⟨hedge, rfl⟩, hi⟩

theorem recvs_cover_send (he : e < n) (h : (gatherPlan n e).send = some (d, B))
    (hlo : B.offset ≤ i) (hhi : i < B.offset + B.len) :
    i = e ∨ ∃ x ∈ (gatherPlan n e).recvs, x.2.offset ≤ i ∧ i < x.2.offset + x.2.len := by
  obtain ⟨hedge, hoff⟩ := (send_eq hn he).mp h
  rcases hedge.cover (i := i) (by omega) (by omega) with h | ⟨s, k, hedge, hi⟩
  · exact .inl h
  · exact .inr ⟨(s, ⟨s, k⟩), (mem_recvs hn he).mpr ⟨hedge, rfl⟩, hi⟩

end
end Plan
end Cplant.Comm
