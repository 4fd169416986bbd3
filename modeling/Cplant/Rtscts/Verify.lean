import Cplant.Rtscts.Types

/-!
# The checks on a received packet

`Pkt_rcvLANai_start` keeps two flags, and `do_recovery` sets `error` anew from the type alone.
A packet that was found bad before `check_hdr` has looked at it can so be passed on.
-/
namespace Cplant.Rtscts
open Option

inductive McpStatus
  | goodPkt
  | longPkt
  | badCrcPkt
  | truncPkt

structure PktHdr where
  version : UInt32
  (type type2 type3 : Int16)
  (srcNid srcNid2 srcNid3 : UInt16)
  (msgID msgID2 msgID3 : UInt32)
  (len1 len2 : Int16)

def msgID2pnid (msgID : UInt32) : UInt32 := (msgID >>> 21) - 1

def checkCopies {α : Type*} [DecidableEq α] (a b c : α) : Option (α × Bool) :=
  if a ≠ b ∨ a ≠ c ∨ b ≠ c then
    if a = b ∧ a ≠ c then some (a, true)
    else if a = c ∧ a ≠ b then some (a, true)
    else if b = c ∧ a ≠ b then some (b, true)
    else none
  else some (a, false)

def cts : ℤ := 2
def lastEntry : ℤ := 28

def checkHdr (h : PktHdr) : Option (PktHdr × Bool) := do
  let (type, w₁) ← checkCopies h.type h.type2 h.type3
  let (srcNid, w₂) ← checkCopies h.srcNid h.srcNid2 h.srcNid3
  let (msgID, w₃) ← checkCopies h.msgID h.msgID2 h.msgID3
  if h.len1 ≠ h.len2 ∨ 2048 ≤ (msgID2pnid msgID).toNat ∨ 2048 ≤ srcNid.toNat ∨
      type.toInt < cts ∨ lastEntry ≤ type.toInt then none
  else some ({ h with
    type, type2 := type, type3 := type, srcNid, srcNid2 := srcNid, srcNid3 := srcNid
    msgID, msgID2 := msgID, msgID3 := msgID }, w₁ || w₂ || w₃)

def class2 : List Int16 := [2, 6, 7, 8, 12, 13, 16, 17, 18, 19]

def doRecovery (h : PktHdr) : Option PktHdr := if h.type ∈ class2 then some h else none

def tooLong (rcvlen : ℤ) : Bool := rcvlen < 0 ∨ myrpktMtu < rcvlen

def rcvLANaiStart (status : McpStatus) (rcvlen : ℤ) (h : PktHdr) : Option PktHdr :=
  match status with
  | .longPkt | .truncPkt => none
  | .badCrcPkt => doRecovery h
  | .goodPkt =>
    if tooLong rcvlen then doRecovery h
    else if rcvlen < sizeofPkthdr ∨ rcvlen ≠ h.len1.toInt ∨
        h.version &&& 0xffff0000 ≠ 0x000a0000 then none
    else match checkHdr h with
      | none => none
      | some (h, warning) => if warning then doRecovery h else some h

structure Verified (rcvlen : ℤ) (h : PktHdr) : Prop where
  type : h.type = h.type2 ∧ h.type = h.type3
  srcNid : h.srcNid = h.srcNid2 ∧ h.srcNid = h.srcNid3
  msgID : h.msgID = h.msgID2 ∧ h.msgID = h.msgID3
  known : cts ≤ h.type.toInt ∧ h.type.toInt < lastEntry
  nodes : h.srcNid.toNat < 2048 ∧ (msgID2pnid h.msgID).toNat < 2048
  length : h.len1 = h.len2 ∧ h.len1.toInt = rcvlen
  fits : sizeofPkthdr ≤ rcvlen ∧ rcvlen ≤ myrpktMtu

variable {status : McpStatus} {rcvlen : ℤ} {h h' : PktHdr}

theorem of_doRecovery (hr : doRecovery h = some h') : h' = h ∧ h.type ∈ class2 := by
  unfold doRecovery at hr
  split_ifs at hr with hclass
  exact ⟨(some.inj hr).symm, hclass⟩

theorem verified_of_checkHdr {w : Bool} (hlen : h.len1.toInt = rcvlen)
    (hfits : sizeofPkthdr ≤ rcvlen ∧ rcvlen ≤ myrpktMtu) (hc : checkHdr h = some (h', w)) :
    Verified rcvlen h' := by
  simp only [checkHdr, bind_eq_bind, bind_eq_some_iff] at hc
  obtain ⟨⟨type, w1⟩, -, ⟨srcNid, w2⟩, -, ⟨msgID, w3⟩, -, hc⟩ := hc
  split_ifs at hc with hbad
  simp only [not_or, not_le, not_lt, Decidable.not_not] at hbad
  obtain ⟨hlens, hpnid, hnid, hlow, hhigh⟩ := hbad
  cases hc
  exact ⟨⟨rfl, rfl⟩, ⟨rfl, rfl⟩, ⟨rfl, rfl⟩, ⟨hlow, hhigh⟩, ⟨hnid, hpnid⟩, ⟨hlens, hlen⟩, hfits⟩

/-- Every packet that is passed on has a verified header, except those of class 2 that came
with a bad CRC or are too long: for these it is passed on as it is. -/
theorem passed_verified_iff (status : McpStatus) (rcvlen : ℤ) (h : PktHdr) :
    (∀ h', rcvLANaiStart status rcvlen h = some h' → Verified rcvlen h') ↔
      (status = .badCrcPkt ∨ status = .goodPkt ∧ tooLong rcvlen → h.type ∈ class2 →
        Verified rcvlen h) := by
  constructor
  · intro hpass hunchecked hclass
    apply hpass
    rcases hunchecked with rfl | ⟨rfl, hlong⟩
    · exact if_pos hclass
    · rw [rcvLANaiStart, if_pos hlong]
      exact if_pos hclass
  · intro hcond h' hs
    cases status with
    | longPkt | truncPkt => cases hs
    | badCrcPkt =>
      obtain ⟨rfl, hclass⟩ := of_doRecovery hs
      exact hcond (.inl rfl) hclass
    | goodPkt =>
      simp only [rcvLANaiStart] at hs
      split_ifs at hs with hlong hbad
      · obtain ⟨rfl, hclass⟩ := of_doRecovery hs
        exact hcond (.inr ⟨rfl, hlong⟩) hclass
      simp only [tooLong, decide_eq_true_eq, not_or, not_lt, Decidable.not_not] at hlong hbad
      cases hc : checkHdr h with
      | none => simp [hc] at hs
      | some p =>
        obtain ⟨h1, w⟩ := p
        have hok := verified_of_checkHdr hbad.2.1.symm ⟨hbad.1, hlong.2⟩ hc
        simp only [hc] at hs
        split_ifs at hs
        · exact (of_doRecovery hs).1 ▸ hok
        · exact some.inj hs ▸ hok

def garbage : PktHdr := ⟨0, 2, 3, 4, 65535, 0, 1, 0, 1, 2, 7, 8⟩

/-- A packet with a bad CRC whose first copy of the type reads `CTS` is passed on, whatever else
stands in it. -/
theorem garbage_passed : rcvLANaiStart .badCrcPkt 0 garbage = some garbage ∧ ¬ Verified 0 garbage :=
  ⟨rfl, fun h => absurd h.type.1 (by decide)⟩

end Cplant.Rtscts
