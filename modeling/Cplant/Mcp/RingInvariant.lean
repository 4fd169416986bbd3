import Mathlib.Data.List.Basic
import Mathlib.Data.List.GetD
import Cplant.Mcp.Machines

/-!
What holds of the receive ring. A slot goes from the host to the MCP with the address of a
page, and back with a marker; in between the machine's variables describe the packet that is
in one of its two buffers.
-/
namespace Cplant.Mcp
open List

def headerLen (w : List UInt8) : ℕ := (w.getD 2 0).toNat * 256 + (w.getD 3 0).toNat

structure Holds (mem : ℕ → UInt8) (buf : Buf) (w : List UInt8) : Prop where
  le : w.length ≤ dblBufSize
  byte : ∀ j < w.length, w[j]? = some (mem (buf.addr + j))

variable {w : List UInt8} {buf : Buf} {mem : ℕ → UInt8} {a : ℕ}

theorem Holds.halfword (h : Holds mem buf w)
    (hw : 8 ≤ w.length) : Mcp.halfword mem (buf.addr + 2) = headerLen w := by
  have h2 := h.byte 2 (by omega)
  have h3 := h.byte 3 (by omega)
  simp [Mcp.halfword, headerLen, getD_eq_getElem?_getD, h2, h3, Nat.add_assoc]

theorem Holds.congr {mem' : ℕ → UInt8} (h : Holds mem buf w)
    (heq : ∀ a, buf.addr ≤ a → a < buf.addr + dblBufSize → mem' a = mem a) : Holds mem' buf w := by
  refine ⟨h.le, fun j hj => ?_⟩
  rw [heq (buf.addr + j) (by omega) (by have := h.le; omega)]
  exact h.byte j hj

theorem headerLen_append {v : List UInt8} (hw : 8 ≤ w.length) :
    headerLen (w ++ v) = headerLen w := by
  unfold headerLen
  rw [getD_append _ _ _ _ (by omega), getD_append _ _ _ _ (by omega)]

theorem Buf.addr_swap_disjoint (buf : Buf) (h1 : buf.addr ≤ a)
    (h2 : a < buf.addr + dblBufSize) : ¬ (buf.swap.addr ≤ a ∧ a < buf.swap.addr + dblBufSize) := by
  cases buf <;> simp only [Buf.addr, Buf.swap, dblBufSize] at * <;> omega

def IsMarker (a : ℕ) : Prop := 1 ≤ a ∧ a ≤ 4

instance (a : ℕ) : Decidable (IsMarker a) := inferInstanceAs (Decidable (_ ∧ _))

theorem Pages.le (p : Pages) (i : ℕ) : pageSize ≤ p.addr i :=
  Nat.le_of_dvd (p.pos i) (p.aligned i)

theorem Pages.not_isMarker (p : Pages) (i : ℕ) : ¬ IsMarker (p.addr i) := by
  have h := p.le i
  simp only [pageSize] at h
  unfold IsMarker
  omega

theorem Pages.disjoint (p : Pages) {i j : ℕ} (hi : i < maxRcvPktEntries)
    (hj : j < maxRcvPktEntries) (hij : i ≠ j) (h1 : p.addr i ≤ a)
    (h2 : a < p.addr i + pageSize) : ¬ (p.addr j ≤ a ∧ a < p.addr j + pageSize) := by
  have hne : p.addr i ≠ p.addr j := fun heq => hij (p.inj i j hi hj heq)
  obtain ⟨c, hc⟩ := p.aligned i
  obtain ⟨d, hd⟩ := p.aligned j
  simp only [pageSize] at *
  omega

namespace Rx
variable {p : Pages} {x x' : Rx} {v : List UInt8}

def WorkingAt (x : Rx) (i : ℕ) : Prop := x.host.state = .working ∧ x.host.lastPkt = i

def PostingAt (x : Rx) (i : ℕ) : Prop := x.host.state = .posting ∧ x.host.lastPkt = i

structure Filled (p : Pages) (x : Rx) (i : ℕ) (w : List UInt8) : Prop where
  arrived : w ∈ x.net.arrived
  len : (x.list i).len = headerLen w
  posted : headerLen w ≤ x.postedLen i
  byte : ∀ j < headerLen w, w[8 + j]? = some (x.host.mem (p.addr i + j))
  pushed : x.pushed i = some ⟨p.addr i, p.addr i, headerLen w⟩
  page : headerLen w ≤ pageSize

structure Ring (p : Pages) (x : Rx) : Prop where
  pages : x.host.pageList = p.addr
  last_lt : x.lastRcvPkt < maxRcvPktEntries
  host_lt : x.host.lastPkt < maxRcvPktEntries
  slot : ∀ i, (x.list i).physAddr = p.addr i ∨ IsMarker (x.list i).physAddr
  len : ∀ i, (x.list i).physAddr = p.addr i → ¬ x.PostingAt i → (x.list i).len ≤ x.postedLen i
  posting : ∀ i, x.PostingAt i → (x.list i).physAddr = p.addr i
  working : ∀ i, x.WorkingAt i → IsMarker (x.list i).physAddr
  good : ∀ i < maxRcvPktEntries, (x.list i).physAddr = goodPkt → ¬ x.WorkingAt i →
    ∃ w, Filled p x i w
  pushed : ∀ i q, x.pushed i = some q → q.physAddr = p.addr i ∧ q.dest = p.addr i

structure Streaming (x : Rx) : Prop where
  rmp : x.net.rmp = x.curBuf.addr + x.net.wire.length
  dvd : 8 ∣ x.net.wire.length
  holds : Holds x.net.mem x.curBuf x.net.wire
  arrived : x.net.recvInt = true → x.net.wire ∈ x.net.arrived

structure Describes (p : Pages) (x : Rx) (w : List UInt8) : Prop where
  header : 8 ≤ w.length
  posted : x.slot.physAddr = p.addr x.lastRcvPkt
  addr : x.curHstAddr = p.addr x.lastRcvPkt
  len : x.curLen = headerLen w
  expected : x.expectedLen = align64 (headerLen w + 8)
  page : headerLen w ≤ pageSize

structure Accepts (p : Pages) (x : Rx) (buf : Buf) (w : List UInt8) : Prop extends
    Describes p x w where
  data : x.pktData = buf.addr + 8
  fits : headerLen w ≤ x.postedLen x.lastRcvPkt

structure Old (p : Pages) (x : Rx) (w : List UInt8) : Prop extends
    Accepts p x x.oldBuf w where
  swapped : x.curBuf = x.oldBuf.swap
  arrived : w ∈ x.net.arrived
  rmp : x.oldRmp = x.oldBuf.addr + w.length
  holds : Holds x.net.mem x.oldBuf w
  slotLen : x.slot.len = headerLen w

structure Pushed (p : Pages) (x : Rx) (w : List UInt8) : Prop extends Old p x w where
  pushed : x.pushed x.lastRcvPkt =
    some ⟨p.addr x.lastRcvPkt, p.addr x.lastRcvPkt, headerLen w⟩
  transfer : ∀ t, x.l2e = some t →
    t = ⟨x.oldBuf.addr + 8, headerLen w, p.addr x.lastRcvPkt⟩
  done : x.l2e = none → ∀ j < headerLen w, 8 + j < w.length →
    w[8 + j]? = some (x.host.mem (p.addr x.lastRcvPkt + j))

def Current (p : Pages) (x : Rx) : Prop :=
  match x.state with
  | .r0 | .r5 => True
  | .r0Wait => IsMarker x.slot.physAddr
  | .r0Saved | .r0Addr => False
  | .r0Ready => Describes p x x.net.wire
  | .r0Fits => Accepts p x x.curBuf x.net.wire ∧ x.threshold = dblBufSize
  | .r1 | .r2 => Accepts p x x.curBuf x.net.wire ∧ x.threshold = dblBufSize ∧
      x.slot.len = headerLen x.net.wire
  | .r3 => ∃ w, Old p x w
  | .r4 => ∃ w, Pushed p x w

structure Inv (p : Pages) (x : Rx) : Prop where
  ring : Ring p x
  window : x.net.rml = x.curBuf.addr + dblBufSize - 4
  posting : x.PostingAt x.lastRcvPkt → x.state = .r0 ∨ x.state = .r5
  streaming : x.state ≠ .r5 → Streaming x
  idle : x.state ≠ .r4 → x.l2e = none
  current : Current p x

theorem Ring.congr (h : Ring p x) (hl : x'.list = x.list) (hh : x'.host = x.host)
    (ha : ∀ w ∈ x.net.arrived, w ∈ x'.net.arrived) (hp : x'.postedLen = x.postedLen)
    (hq : x'.pushed = x.pushed) (hk : x'.lastRcvPkt = x.lastRcvPkt) : Ring p x' := by
  have hpost : ∀ i, x'.PostingAt i ↔ x.PostingAt i := fun i => by simp [PostingAt, hh]
  have hwork : ∀ i, x'.WorkingAt i ↔ x.WorkingAt i := fun i => by simp [WorkingAt, hh]
  constructor
  · rw [hh]; exact h.pages
  · rw [hk]; exact h.last_lt
  · rw [hh]; exact h.host_lt
  · rw [hl]; exact h.slot
  · intro i hi hn
    rw [hl] at hi ⊢
    rw [hp]
    exact h.len i hi (mt (hpost i).mpr hn)
  · intro i hi
    rw [hl]
    exact h.posting i ((hpost i).mp hi)
  · intro i hi
    rw [hl]
    exact h.working i ((hwork i).mp hi)
  · intro i hi hg hn
    rw [hl] at hg
    obtain ⟨w, hw⟩ := h.good i hi hg (mt (hwork i).mpr hn)
    refine ⟨w, ha w hw.arrived, ?_, ?_, ?_, ?_, hw.page⟩
    · rw [hl]; exact hw.len
    · rw [hp]; exact hw.posted
    · rw [hh]; exact hw.byte
    · rw [hq]; exact hw.pushed
  · rw [hq]; exact h.pushed

structure SameVars (x x' : Rx) : Prop where
  state : x'.state = x.state
  curBuf : x'.curBuf = x.curBuf
  oldBuf : x'.oldBuf = x.oldBuf
  pktData : x'.pktData = x.pktData
  curLen : x'.curLen = x.curLen
  curHstAddr : x'.curHstAddr = x.curHstAddr
  threshold : x'.threshold = x.threshold
  oldRmp : x'.oldRmp = x.oldRmp
  lastRcvPkt : x'.lastRcvPkt = x.lastRcvPkt
  expectedLen : x'.expectedLen = x.expectedLen
  slot : x'.slot = x.slot
  postedLen : x'.postedLen x.lastRcvPkt = x.postedLen x.lastRcvPkt
  pushed : x'.pushed = x.pushed
  l2e : x'.l2e = x.l2e

theorem Describes.congr (h : Describes p x w) (hv : SameVars x x') : Describes p x' (w ++ v) := by
  have hw := h.header
  constructor
  · simp only [length_append]; omega
  · rw [hv.slot, hv.lastRcvPkt]; exact h.posted
  · rw [hv.curHstAddr, hv.lastRcvPkt]; exact h.addr
  · rw [hv.curLen, headerLen_append hw]; exact h.len
  · rw [hv.expectedLen, headerLen_append hw]; exact h.expected
  · rw [headerLen_append hw]; exact h.page

theorem Accepts.congr (h : Accepts p x buf w) (hv : SameVars x x') : Accepts p x' buf (w ++ v) := by
  refine ⟨h.toDescribes.congr hv, ?_, ?_⟩
  · rw [hv.pktData]; exact h.data
  · rw [headerLen_append h.header, hv.lastRcvPkt, hv.postedLen]; exact h.fits

def KeepsOld (x x' : Rx) : Prop :=
  x.curBuf = x.oldBuf.swap → ∀ a, x.oldBuf.addr ≤ a → a < x.oldBuf.addr + dblBufSize →
    x'.net.mem a = x.net.mem a

theorem Old.congr (h : Old p x w) (hv : SameVars x x') (hold : KeepsOld x x')
    (ha : ∀ w ∈ x.net.arrived, w ∈ x'.net.arrived) : Old p x' w := by
  constructor
  · have hacc := h.toAccepts.congr (v := []) hv
    rwa [append_nil, ← hv.oldBuf] at hacc
  · rw [hv.curBuf, hv.oldBuf]; exact h.swapped
  · exact ha w h.arrived
  · rw [hv.oldRmp, hv.oldBuf]; exact h.rmp
  · rw [hv.oldBuf]; exact h.holds.congr (hold h.swapped)
  · rw [hv.slot]; exact h.slotLen

theorem Pushed.congr (h : Pushed p x w) (hv : SameVars x x')
    (hold : KeepsOld x x') (ha : ∀ w ∈ x.net.arrived, w ∈ x'.net.arrived)
    (hmem : ∀ j < pageSize, x'.host.mem (p.addr x.lastRcvPkt + j) =
      x.host.mem (p.addr x.lastRcvPkt + j)) : Pushed p x' w := by
  refine ⟨h.toOld.congr hv hold ha, ?_, ?_, ?_⟩
  · rw [hv.pushed, hv.lastRcvPkt]; exact h.pushed
  · rw [hv.l2e, hv.oldBuf, hv.lastRcvPkt]; exact h.transfer
  · rw [hv.l2e, hv.lastRcvPkt]
    intro hdone j hj hw
    rw [hmem j (by have := h.page; omega)]
    exact h.done hdone j hj hw

theorem Current.congr (h : Current p x) (hv : SameVars x x') (hold : KeepsOld x x')
    (ha : ∀ w ∈ x.net.arrived, w ∈ x'.net.arrived) (hw : ∃ v, x'.net.wire = x.net.wire ++ v)
    (hmem : x.slot.physAddr = p.addr x.lastRcvPkt → ∀ j < pageSize,
      x'.host.mem (p.addr x.lastRcvPkt + j) = x.host.mem (p.addr x.lastRcvPkt + j)) :
    Current p x' := by
  obtain ⟨v, hw⟩ := hw
  unfold Current at h ⊢
  rw [hv.state]
  split at h
  · trivial
  · trivial
  · rw [hv.slot]; exact h
  · exact h
  · exact h
  · rw [hw]; exact h.congr hv
  · rw [hw, hv.curBuf, hv.threshold]
    exact ⟨h.1.congr hv, h.2⟩
  · rw [hw, hv.curBuf, hv.threshold, hv.slot, headerLen_append h.1.header]
    exact ⟨h.1.congr hv, h.2⟩
  · rw [hw, hv.curBuf, hv.threshold, hv.slot, headerLen_append h.1.header]
    exact ⟨h.1.congr hv, h.2⟩
  · obtain ⟨w, h⟩ := h
    exact ⟨w, h.congr hv hold ha⟩
  · obtain ⟨w, h⟩ := h
    exact ⟨w, h.congr hv hold ha (hmem h.posted)⟩

end Rx
end Cplant.Mcp
