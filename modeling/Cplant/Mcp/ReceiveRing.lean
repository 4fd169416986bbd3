import Cplant.Mcp.Bus
import Cplant.Mcp.RingInvariant

/-!
The receive ring over whole runs. As long as the host does not post a page in the slot the
MCP is waiting at, the MCP does not look at a slot between the host's two writes to it, and
no header gives more than a page, a slot marked good holds the data of one packet with that
packet's own length.
-/
namespace Cplant.Mcp
open Function (update_self update_of_ne update)
open List Option Nat
variable {byte : ℕ → UInt8} {i n : ℕ} {tail : Bool} {w : List UInt8}

namespace Rx
variable {p : Pages} {x x' : Rx}

theorem mem_refl (x : Rx) : ∀ w ∈ x.net.arrived, w ∈ x.net.arrived := fun _ => id

theorem Streaming.congr (h : Streaming x) (hn : x'.net = x.net) (hb : x'.curBuf = x.curBuf) :
    Streaming x' := by
  constructor
  · rw [hn, hb]; exact h.rmp
  · rw [hn]; exact h.dvd
  · rw [hn, hb]; exact h.holds
  · rw [hn]; exact h.arrived

theorem Inv.vars {state : RcvState} {pktData curHstAddr : ℕ} {curLen threshold expectedLen : ℤ}
    (h : Inv p x) (h5 : x.state ≠ .r5) (h4 : x.state ≠ .r4)
    (hpost : x.PostingAt x.lastRcvPkt → state = .r0 ∨ state = .r5)
    (hc : Current p { x with state, pktData, curLen, curHstAddr, threshold, expectedLen }) :
    Inv p { x with state, pktData, curLen, curHstAddr, threshold, expectedLen } where
  ring := h.ring.congr rfl rfl x.mem_refl rfl rfl rfl
  window := h.window
  posting := hpost
  streaming _ := (h.streaming h5).congr rfl rfl
  idle _ := h.idle h4
  current := hc

/-- The host is not between its two writes to the slot, and the header gives at most a page,
when R0 looks at a packet. -/
def InTime (x : Rx) : Prop :=
  x.net.rmp ≠ x.curBuf.addr → halfword x.net.mem x.curBuf.addr = myriPortalPacketType →
    ¬ x.PostingAt x.lastRcvPkt ∧ halfword x.net.mem (x.curBuf.addr + 2) ≤ pageSize

theorem Streaming.eight_le (h : Streaming x) (hrmp : x.net.rmp ≠ x.curBuf.addr) :
    8 ≤ x.net.wire.length := by
  have := h.rmp
  obtain ⟨c, hc⟩ := h.dvd
  omega

theorem IsMarker.div {a : ℕ} (h : IsMarker a) : a / 16 = 0 ∧ a % 16 ≠ 0 := by
  unfold IsMarker at h
  omega

theorem Ring.slot_of_div (h : Ring p x) (hdiv : x.slot.physAddr / 16 ≠ 0) :
    x.slot.physAddr = p.addr x.lastRcvPkt :=
  (h.slot x.lastRcvPkt).resolve_right fun hm => hdiv (IsMarker.div hm).1

theorem Ring.isMarker_of_div (h : Ring p x) (hdiv : ¬ x.slot.physAddr / 16 ≠ 0) :
    IsMarker x.slot.physAddr := by
  refine (h.slot x.lastRcvPkt).resolve_left fun heq => hdiv ?_
  have hle := p.le x.lastRcvPkt
  simp only [Rx.slot, heq, pageSize] at hle ⊢
  omega

theorem Inv.r0 (h : Inv p x) (hs : x.state = .r0) (hin : x.InTime) : Inv p x.r0.1 := by
  unfold Rx.r0
  split_ifs with hrmp hportal hdiv
  · have hst := h.streaming (by simp [hs])
    have h8 := hst.eight_le hrmp
    obtain ⟨hpost, hpage⟩ := hin hrmp hportal
    have hlen := hst.holds.halfword h8
    refine h.vars (by simp [hs]) (by simp [hs]) ?_ ?_
    · exact fun hp => absurd hp hpost
    · refine ⟨h8, h.ring.slot_of_div hdiv, h.ring.slot_of_div hdiv, ?_, ?_, hlen ▸ hpage⟩
      · exact congrArg Nat.cast hlen
      · exact congrArg (fun n : ℕ => align64 (n + 8)) hlen
  · refine h.vars (by simp [hs]) (by simp [hs]) ?_ ?_
    · exact fun hp => absurd hp (hin hrmp hportal).1
    · exact h.ring.isMarker_of_div hdiv
  · refine h.vars (by simp [hs]) (by simp [hs]) ?_ ?_
    · exact fun _ => .inr rfl
    · trivial
  · exact h

theorem Inv.dump (h : Inv p x) (h5 : x.state ≠ .r5) (h4 : x.state ≠ .r4) :
    Inv p { x with state := .r5 } :=
  h.vars h5 h4 (fun _ => .inr rfl) trivial

theorem Inv.not_posting (h : Inv p x) (h0 : x.state ≠ .r0) (h5 : x.state ≠ .r5) :
    ¬ x.PostingAt x.lastRcvPkt :=
  fun hp => (h.posting hp).elim h0 h5

theorem Inv.r0Ready (h : Inv p x) (hs : x.state = .r0Ready) : Inv p x.r0Ready.1 := by
  have hc : Describes p x x.net.wire := by simpa [Current, hs] using h.current
  have hpost := h.not_posting (by simp [hs]) (by simp [hs])
  unfold Rx.r0Ready
  split_ifs with hlen
  · exact h.dump (by simp [hs]) (by simp [hs])
  refine h.vars (by simp [hs]) (by simp [hs]) ?_ ?_
  · exact fun hp => absurd hp hpost
  · refine ⟨⟨⟨hc.header, hc.posted, hc.addr, hc.len, hc.expected, hc.page⟩, rfl, ?_⟩, rfl⟩
    have hle := h.ring.len x.lastRcvPkt hc.posted hpost
    rw [hc.len] at hlen
    simp only [slot] at hlen
    dsimp only
    omega

theorem ne_of_good (hg : (x.list i).physAddr = goodPkt)
    (hpage : x.slot.physAddr = p.addr x.lastRcvPkt) : i ≠ x.lastRcvPkt := by
  rintro rfl
  apply p.not_isMarker x.lastRcvPkt
  rw [← hpage, slot, hg]
  decide

theorem Ring.setLen (h : Ring p x) (hpage : x.slot.physAddr = p.addr x.lastRcvPkt)
    (hn : n ≤ x.postedLen x.lastRcvPkt) : Ring p (x.setSlot { x.slot with len := n }) := by
  have haddr : ∀ i, ((x.setSlot { x.slot with len := n }).list i).physAddr =
      (x.list i).physAddr := by
    intro i
    by_cases hi : i = x.lastRcvPkt
    · simp [setSlot, Rx.slot, hi]
    · simp [setSlot, hi]
  constructor
  · exact h.pages
  · exact h.last_lt
  · exact h.host_lt
  · intro i; rw [haddr]; exact h.slot i
  · intro i hi hp
    rw [haddr] at hi
    by_cases hk : i = x.lastRcvPkt
    · simpa [setSlot, hk] using hn
    · simpa [setSlot, hk] using h.len i hi hp
  · intro i hi; rw [haddr]; exact h.posting i hi
  · intro i hi; rw [haddr]; exact h.working i hi
  · intro i hi hg hw
    rw [haddr] at hg
    have hk : i ≠ x.lastRcvPkt := ne_of_good hg hpage
    obtain ⟨w, hf⟩ := h.good i hi hg hw
    exact ⟨w, hf.arrived, by simpa [setSlot, hk] using hf.len, hf.posted, hf.byte, hf.pushed,
      hf.page⟩
  · exact h.pushed

theorem Inv.r0Fits (h : Inv p x) (hs : x.state = .r0Fits) : Inv p x.r0Fits.1 := by
  obtain ⟨hc, hth⟩ : Accepts p x x.curBuf x.net.wire ∧ x.threshold = dblBufSize := by
    simpa [Current, hs] using h.current
  have hlen : (x.curLen % 2 ^ 32).toNat = headerLen x.net.wire := by
    have := hc.page
    rw [hc.len]
    simp only [pageSize] at this
    omega
  have hst := h.streaming (by simp [hs])
  constructor
  · rw [Rx.r0Fits, hlen]
    exact (h.ring.setLen hc.posted hc.fits).congr rfl rfl (mem_refl _) rfl rfl rfl
  · exact h.window
  · exact fun hp => absurd hp (h.not_posting (by simp [hs]) (by simp [hs]))
  · exact fun _ => hst.congr rfl rfl
  · exact fun _ => h.idle (by simp [hs])
  · refine ⟨⟨⟨hc.header, ?_, hc.addr, hc.len, hc.expected, hc.page⟩, hc.data, hc.fits⟩, hth, ?_⟩
    · simpa [Rx.r0Fits, setSlot, slot] using hc.posted
    · simpa [Rx.r0Fits, setSlot, slot] using hlen

theorem Inv.r0Wait (h : Inv p x) (hs : x.state = .r0Wait) : Inv p x.r0Wait.1 := by
  have hm : IsMarker x.slot.physAddr := by simpa [Current, hs] using h.current
  rw [Rx.r0Wait, if_pos (IsMarker.div hm).2]
  exact h.dump (by simp [hs]) (by simp [hs])

theorem Inv.r1 (h : Inv p x) (hs : x.state = .r1) : Inv p { x with state := .r2 } := by
  obtain ⟨hc, hth, hlen⟩ : Accepts p x x.curBuf x.net.wire ∧ x.threshold = dblBufSize ∧
      x.slot.len = headerLen x.net.wire := by simpa [Current, hs] using h.current
  refine h.vars (by simp [hs]) (by simp [hs]) ?_ ?_
  · exact fun hp => absurd hp (h.not_posting (by simp [hs]) (by simp [hs]))
  · exact ⟨⟨⟨hc.header, hc.posted, hc.addr, hc.len, hc.expected, hc.page⟩, hc.data, hc.fits⟩,
      hth, hlen⟩

theorem Accepts.availLen_le (hc : Accepts p x x.curBuf x.net.wire) (hst : Streaming x) :
    x.availLen ≤ dblBufSize := by
  have := hst.holds.le
  rw [availLen, hst.rmp, hc.data]
  omega

theorem streaming_postBuf {buf : Buf} (hr : x.net.recvInt = true) (hb : x'.curBuf = buf)
    (hn : x'.net = (x.postBuf buf).net) : Streaming x' := by
  constructor <;> rw [hn]
  · simp [postBuf, hr, hb]
  · simp [postBuf, hr]
  · simpa [postBuf, hr] using ⟨zero_le _, by simp⟩
  · simp [postBuf]

theorem Inv.r2 (h : Inv p x) (hs : x.state = .r2) (hx : x.r2 = .ok x') : Inv p x' := by
  obtain ⟨hc, hth, hlen⟩ : Accepts p x x.curBuf x.net.wire ∧ x.threshold = dblBufSize ∧
      x.slot.len = headerLen x.net.wire := by simpa [Current, hs] using h.current
  have hst := h.streaming (by simp [hs])
  have havail := hc.availLen_le hst
  have hpost := h.not_posting (by simp [hs]) (by simp [hs])
  -- the start threshold is the size of the buffer, so nothing is pushed early
  rw [Rx.r2, if_neg fun hpush => absurd hpush.1 (by rw [hth]; omega)] at hx
  split_ifs at hx with hint hbuf
  · cases hx
    exact ⟨h.ring.congr rfl rfl (mem_refl _) rfl rfl rfl, rfl, fun _ => .inr rfl,
      fun hne => absurd rfl hne, fun _ => h.idle (by simp [hs]), trivial⟩
  · have hrecv : x.net.recvInt = true := by simpa [hbuf] using hint
    cases hx
    refine ⟨h.ring.congr rfl rfl (mem_refl _) rfl rfl rfl, rfl, fun hp => absurd hp hpost,
      fun _ => streaming_postBuf hrecv rfl rfl, fun _ => h.idle (by simp [hs]), x.net.wire, ?_⟩
    exact ⟨⟨⟨hc.header, hc.posted, hc.addr, hc.len, hc.expected, hc.page⟩, hc.data, hc.fits⟩,
      rfl, hst.arrived hrecv, hst.rmp, hst.holds, hlen⟩
  · cases hx
    exact h

theorem l2eDmaStart_ok {buf dest : ℕ} (h : x.l2eDmaStart buf n dest = .ok x') : x' = { x with
      pushed := update x.pushed x.lastRcvPkt (some ⟨x.slot.physAddr, dest, n⟩)
      l2e := if n = 0 then x.l2e else some ⟨buf, n, dest⟩ } := by
  unfold l2eDmaStart at h
  by_cases hn : n = 0
  · rw [if_pos (by simp [hn])] at h
    cases h
    simp [hn]
  · rw [if_neg (by simpa using hn)] at h
    split_ifs at h
    cases h
    simp [hn]

theorem Ring.push (h : Ring p x) (hpage : x.slot.physAddr = p.addr x.lastRcvPkt) {q : Push}
    (hq : q.physAddr = p.addr x.lastRcvPkt ∧ q.dest = p.addr x.lastRcvPkt)
    (hl : x'.list = x.list) (hh : x'.host = x.host) (hn : x'.net = x.net)
    (hp : x'.postedLen = x.postedLen) (hk : x'.lastRcvPkt = x.lastRcvPkt)
    (hpush : x'.pushed = update x.pushed x.lastRcvPkt (some q)) : Ring p x' := by
  have hr : Ring p { x' with pushed := x.pushed } :=
    h.congr hl hh (by simp [hn]) hp rfl hk
  refine ⟨hr.pages, hr.last_lt, hr.host_lt, hr.slot, hr.len, hr.posting, hr.working, ?_, ?_⟩
  · intro i hi hg hw
    have hne : i ≠ x.lastRcvPkt := ne_of_good (hl ▸ hg) hpage
    obtain ⟨w, hf⟩ := hr.good i hi hg hw
    refine ⟨w, hf.arrived, hf.len, hf.posted, hf.byte, ?_, hf.page⟩
    rw [hpush, update_of_ne hne]
    exact hf.pushed
  · intro i q' hq'
    rw [hpush] at hq'
    by_cases hi : i = x.lastRcvPkt
    · rw [hi, update_self] at hq'
      cases hq'
      rw [hi]
      exact hq
    · rw [update_of_ne hi] at hq'
      exact h.pushed i q' hq'

theorem Inv.r3 (h : Inv p x) (hs : x.state = .r3) (hx : x.r3 = .ok x') : Inv p x' := by
  obtain ⟨w, hw⟩ : ∃ w, Old p x w := by simpa [Current, hs] using h.current
  have hidle := h.idle (by simp [hs])
  have hst := h.streaming (by simp [hs])
  rw [Rx.r3, if_pos hidle, hw.len] at hx
  cases hd : x.l2eDmaStart x.pktData (headerLen w : ℤ) x.curHstAddr with
  | error e => rw [hd] at hx; cases hx
  | ok y =>
    rw [hd] at hx
    cases hx
    have hy := l2eDmaStart_ok hd
    rw [hw.posted, hw.addr, hw.data] at hy
    subst hy
    refine ⟨h.ring.push hw.posted ⟨rfl, rfl⟩ rfl rfl rfl rfl rfl rfl, h.window,
      fun hp => absurd hp (h.not_posting (by simp [hs]) (by simp [hs])),
      fun _ => ⟨hst.rmp, hst.dvd, hst.holds, hst.arrived⟩, fun hne => absurd rfl hne, w, ?_⟩
    refine ⟨⟨⟨⟨hw.header, hw.posted, rfl, hw.len, hw.expected, hw.page⟩, rfl, hw.fits⟩,
      hw.swapped, hw.arrived, hw.rmp, hw.holds, hw.slotLen⟩, ?_, ?_, ?_⟩
    · simp
    · intro t ht
      simp only [hidle] at ht
      split_ifs at ht
      exact (some.inj ht).symm
    · intro hnone j hj
      split_ifs at hnone
      omega

theorem Pushed.filled (h : Pushed p x w) (hdone : x.l2e = none) (hgood : x.marker = goodPkt) {j : ℕ}
    (hj : j < headerLen w) : w[8 + j]? = some (x.host.mem (p.addr x.lastRcvPkt + j)) := by
  apply h.done hdone j hj
  have hlen : ¬ ((x.oldRmp : ℤ) - x.oldBuf.addr - 8 < x.expectedLen) := by
    intro hlt
    rw [marker, if_neg (by omega), if_pos hlt] at hgood
    cases hgood
  rw [h.rmp, h.expected, align64] at hlen
  omega

theorem marker_isMarker (x : Rx) : IsMarker x.marker := by
  unfold marker
  dsimp only
  split_ifs <;> decide

theorem Ring.r4Done (h : Ring p x) (hw : Pushed p x w) (hdone : x.l2e = none)
    (hpost : ¬ x.PostingAt x.lastRcvPkt) : Ring p x.r4Done := by
  have hself : x.r4Done.list x.lastRcvPkt = { x.slot with physAddr := x.marker } := by
    simp [Rx.r4Done, setSlot]
  have hother : ∀ i, i ≠ x.lastRcvPkt → x.r4Done.list i = x.list i := fun i hi => by
    simp [Rx.r4Done, setSlot, hi]
  constructor
  · exact h.pages
  · exact mod_lt _ (by decide)
  · exact h.host_lt
  · intro i
    by_cases hi : i = x.lastRcvPkt
    · rw [hi, hself]
      exact .inr x.marker_isMarker
    · rw [hother i hi]
      exact h.slot i
  · intro i hpage hpost
    by_cases hi : i = x.lastRcvPkt
    · rw [hi, hself] at hpage
      have hm := x.marker_isMarker
      rw [show x.marker = p.addr x.lastRcvPkt from hpage] at hm
      exact absurd hm (p.not_isMarker _)
    · rw [hother i hi] at hpage ⊢
      exact h.len i hpage hpost
  · intro i hi
    have hne : i ≠ x.lastRcvPkt := by rintro rfl; exact hpost hi
    rw [hother i hne]
    exact h.posting i hi
  · intro i hwork
    by_cases hi : i = x.lastRcvPkt
    · rw [hi, hself]
      exact x.marker_isMarker
    · rw [hother i hi]
      exact h.working i hwork
  · intro i hi hg hwork
    by_cases hk : i = x.lastRcvPkt
    · rw [hk, hself] at hg
      refine ⟨w, hw.arrived, ?_, ?_, ?_, ?_, hw.page⟩
      · rw [hk, hself]
        exact hw.slotLen
      · rw [hk]
        exact hw.fits
      · intro j hj
        rw [hk]
        exact hw.filled hdone hg hj
      · rw [hk]
        exact hw.pushed
    · rw [hother i hk] at hg
      obtain ⟨v, hv⟩ := h.good i hi hg hwork
      exact ⟨v, hv.arrived, by rw [hother i hk]; exact hv.len, hv.posted, hv.byte, hv.pushed,
        hv.page⟩
  · exact h.pushed

theorem Inv.r4 (h : Inv p x) (hs : x.state = .r4) (hdone : x.l2e = none) : Inv p x.r4Done := by
  obtain ⟨w, hw⟩ : ∃ w, Pushed p x w := by simpa [Current, hs] using h.current
  have hst := h.streaming (by simp [hs])
  exact ⟨h.ring.r4Done hw hdone (h.not_posting (by simp [hs]) (by simp [hs])), h.window,
    fun _ => .inl rfl, fun _ => ⟨hst.rmp, hst.dvd, hst.holds, hst.arrived⟩, fun _ => hdone,
    trivial⟩

theorem Inv.r5 (h : Inv p x) (hs : x.state = .r5) : Inv p x.r5 := by
  have hidle := h.idle (by simp [hs])
  unfold Rx.r5
  split_ifs with hint hbuf
  · exact ⟨h.ring.congr rfl rfl (mem_refl _) rfl rfl rfl, rfl, fun _ => .inr rfl,
      fun hne => absurd rfl hne, fun _ => hidle, trivial⟩
  · have hrecv : x.net.recvInt = true := by simpa [hbuf] using hint
    exact ⟨h.ring.congr rfl rfl (mem_refl _) rfl rfl rfl, rfl, fun _ => .inl rfl,
      fun _ => streaming_postBuf hrecv rfl rfl, fun _ => hidle, trivial⟩
  · exact h

theorem Streaming.words (h : Streaming x) (hwin : x.net.rml = x.curBuf.addr + dblBufSize - 4)
    (hroom : x.net.rmp + 8 * n ≤ x.net.rml + 4) : Streaming (x.words n byte tail) := by
  have hlen : x.net.wire.length + 8 * n ≤ dblBufSize := by
    have := h.rmp
    simp only [dblBufSize] at *
    omega
  constructor
  · simp [Rx.words, h.rmp, Nat.add_assoc]
  · simpa [Rx.words] using (Nat.dvd_add_left (Nat.dvd_mul_right 8 n)).mpr h.dvd
  · refine ⟨by simpa [Rx.words] using hlen, fun j hj => ?_⟩
    by_cases hold : j < x.net.wire.length
    · have hout : ¬ (x.net.rmp ≤ x.curBuf.addr + j) := by rw [h.rmp]; omega
      simp [Rx.words, getElem?_append_left hold, hout, h.holds.byte j hold]
    have hj' : j < x.net.wire.length + 8 * n := by simpa [Rx.words] using hj
    have hin : x.net.rmp ≤ x.curBuf.addr + j ∧ x.curBuf.addr + j < x.net.rmp + 8 * n := by
      rw [h.rmp]
      omega
    have hidx : x.curBuf.addr + j - x.net.rmp = j - x.net.wire.length := by
      rw [h.rmp]
      omega
    have hlt : j - x.net.wire.length < 8 * n := by omega
    simp [Rx.words, getElem?_append_right (Nat.not_lt.mp hold), hin, hidx, hlt]
  · intro htail
    have htail : tail = true := htail
    simp [Rx.words, htail]

theorem Inv.event_congr (h : Inv p x) (hv : SameVars x x') (hring : Ring p x')
    (hwin : x'.net.rml = x.net.rml) (hpost : x'.PostingAt x.lastRcvPkt → x.PostingAt x.lastRcvPkt)
    (hst : x.state ≠ .r5 → Streaming x') (hold : x.state ≠ .r5 → KeepsOld x x')
    (ha : ∀ w ∈ x.net.arrived, w ∈ x'.net.arrived) (hw : ∃ v, x'.net.wire = x.net.wire ++ v)
    (hmem : x.slot.physAddr = p.addr x.lastRcvPkt → ∀ j < pageSize,
      x'.host.mem (p.addr x.lastRcvPkt + j) = x.host.mem (p.addr x.lastRcvPkt + j)) : Inv p x' where
  ring := hring
  window := by rw [hwin, hv.curBuf]; exact h.window
  posting := by
    rw [hv.state, hv.lastRcvPkt]
    exact fun hp => h.posting (hpost hp)
  streaming := by rw [hv.state]; exact hst
  idle := by rw [hv.state, hv.l2e]; exact h.idle
  current := by
    by_cases h5 : x.state = .r5
    · simp [Current, hv.state, h5]
    · exact h.current.congr hv (hold h5) ha hw hmem

theorem Inv.host_congr (h : Inv p x) (hv : SameVars x x') (hring : Ring p x')
    (hn : x'.net = x.net) (hpost : x'.PostingAt x.lastRcvPkt → x.PostingAt x.lastRcvPkt)
    (hmem : x.slot.physAddr = p.addr x.lastRcvPkt → ∀ j < pageSize,
      x'.host.mem (p.addr x.lastRcvPkt + j) = x.host.mem (p.addr x.lastRcvPkt + j)) : Inv p x' :=
  h.event_congr hv hring (by rw [hn]) hpost (fun h5 => (h.streaming h5).congr hn hv.curBuf)
    (fun _ _ _ _ _ => by rw [hn]) (by rw [hn]; exact x.mem_refl) ⟨[], by rw [hn, append_nil]⟩ hmem

theorem Inv.words (h : Inv p x)
    (hroom : x.net.rmp + 8 * n ≤ x.net.rml + 4) : Inv p (x.words n byte tail) := by
  have ha : ∀ w ∈ x.net.arrived, w ∈ (x.words n byte tail).net.arrived := by
    intro w hw
    cases tail <;> simp [Rx.words, hw]
  refine h.event_congr (by constructor <;> rfl)
    (h.ring.congr rfl rfl ha rfl rfl rfl) rfl id (fun h5 => (h.streaming h5).words h.window hroom)
    ?_ ha ⟨_, rfl⟩ (fun _ _ _ => rfl)
  intro h5 hswap a h1 h2
  have hout := x.oldBuf.addr_swap_disjoint h1 h2
  rw [← hswap] at hout
  have hrmp := (h.streaming h5).rmp
  have hwin := h.window
  simp only [Rx.words, dblBufSize] at *
  rw [if_neg (by omega)]

theorem Inv.overrun (h : Inv p x) : Inv p x.overrun :=
  h.event_congr (by constructor <;> rfl)
    (h.ring.congr rfl rfl (mem_refl _) rfl rfl rfl) rfl id
    (fun h5 => let hst := h.streaming h5; ⟨hst.rmp, hst.dvd, hst.holds, hst.arrived⟩)
    (fun _ _ _ _ _ => rfl) (mem_refl _) ⟨[], (append_nil _).symm⟩ (fun _ _ _ => rfl)

theorem Ring.write (h : Ring p x) {k : ℕ} (hk : k < maxRcvPktEntries)
    (hnot : (x.list k).physAddr = goodPkt → x.WorkingAt k)
    (hl : x'.list = x.list) (hpl : x'.host.pageList = x.host.pageList)
    (hlast : x'.host.lastPkt = x.host.lastPkt) (hstate : x'.host.state = x.host.state)
    (ha : x'.net.arrived = x.net.arrived) (hp : x'.postedLen = x.postedLen)
    (hq : x'.pushed = x.pushed) (hr : x'.lastRcvPkt = x.lastRcvPkt)
    (hmem : ∀ a, ¬ (p.addr k ≤ a ∧ a < p.addr k + pageSize) → x'.host.mem a = x.host.mem a) :
    Ring p x' := by
  have hr' : Ring p { x' with host := x.host } := h.congr hl rfl (by simp [ha]) hp hq hr
  have hpost : ∀ i, x'.PostingAt i ↔ x.PostingAt i := fun i => by simp [PostingAt, hlast, hstate]
  have hwork : ∀ i, x'.WorkingAt i ↔ x.WorkingAt i := fun i => by simp [WorkingAt, hlast, hstate]
  refine ⟨hpl ▸ h.pages, hr'.last_lt, hlast ▸ h.host_lt, hr'.slot,
    fun i hi hn => hr'.len i hi (mt (hpost i).mpr hn), fun i hi => hr'.posting i ((hpost i).mp hi),
    fun i hi => hr'.working i ((hwork i).mp hi), ?_, hr'.pushed⟩
  intro i hi hg hn
  have hne : i ≠ k := by
    rintro rfl
    rw [hl] at hg
    exact hn ((hwork i).mpr (hnot hg))
  obtain ⟨w, hf⟩ := hr'.good i hi hg (mt (hwork i).mpr hn)
  refine ⟨w, hf.arrived, hf.len, hf.posted, fun j hj => ?_, hf.pushed, hf.page⟩
  have hpage := hf.page
  rw [hmem _ (p.disjoint hi hk hne (le_add_right _ _) (by omega))]
  exact hf.byte j hj

theorem Inv.finish (h : Inv p x) {t : Transfer} (ht : x.l2e = some t) : Inv p (x.finish t) := by
  have hs : x.state = .r4 := by
    by_contra hne
    rw [h.idle hne] at ht
    cases ht
  obtain ⟨w, hw⟩ : ∃ w, Pushed p x w := by simpa [Current, hs] using h.current
  have hpage := hw.page
  have htr := hw.transfer t ht
  subst htr
  have hst := h.streaming (by simp [hs])
  refine ⟨?_, h.window, h.posting, fun _ => hst.congr rfl rfl, fun _ => rfl, ?_⟩
  · refine h.ring.write h.ring.last_lt (fun hg => absurd rfl (ne_of_good hg hw.posted))
      rfl rfl rfl rfl rfl rfl rfl rfl fun a ha => ?_
    simp only [Rx.finish]
    rw [if_neg (by omega)]
  · rw [Current, show (x.finish _).state = .r4 from hs]
    refine ⟨w, ⟨⟨⟨hw.header, hw.posted, hw.addr, hw.len, hw.expected, hw.page⟩, hw.data, hw.fits⟩,
      hw.swapped, hw.arrived, hw.rmp, hw.holds, hw.slotLen⟩, hw.pushed, nofun, ?_⟩
    intro _ j hj hjw
    simp only [Rx.finish]
    rw [if_pos (by omega), hw.holds.byte _ hjw]
    congr 2
    omega

theorem Inv.take (h : Inv p x) (hwait : x.host.state = .waiting)
    (hm : IsMarker (x.list x.host.lastPkt).physAddr) : Inv p x.take := by
  have hnw : ∀ i, ¬ x.WorkingAt i := fun i hi => by simp [WorkingAt, hwait] at hi
  have hnp : ∀ i, ¬ x.PostingAt i := fun i hi => by simp [PostingAt, hwait] at hi
  have hnp' : ∀ i, ¬ x.take.PostingAt i := fun i hi => by simp [PostingAt, Rx.take] at hi
  have hr := h.ring
  refine h.host_congr (by constructor <;> rfl)
    ⟨hr.pages, hr.last_lt, hr.host_lt, hr.slot, fun i hi _ => hr.len i hi (hnp i),
      fun i hi => absurd hi (hnp' i), ?_, ?_, hr.pushed⟩ rfl (fun hp => absurd hp (hnp' _))
    fun _ _ _ => rfl
  · rintro i ⟨-, rfl⟩
    exact hm
  · intro i hi hg _
    obtain ⟨w, hf⟩ := hr.good i hi hg (hnw i)
    exact ⟨w, hf.arrived, hf.len, hf.posted, hf.byte, hf.pushed, hf.page⟩

theorem Inv.use (h : Inv p x) (hwork : x.host.state = .working) {v : UInt8}
    (hi : i < pageSize) : Inv p (x.use i v) := by
  have hat : x.WorkingAt x.host.lastPkt := ⟨hwork, rfl⟩
  have hm := h.ring.working _ hat
  have haddr : x.hostPage = p.addr x.host.lastPkt := congrFun h.ring.pages _
  refine h.host_congr (by constructor <;> rfl)
    (h.ring.write h.ring.host_lt (fun _ => hat) rfl rfl rfl rfl rfl rfl rfl rfl ?_) rfl id ?_
  · intro a ha
    apply update_of_ne
    omega
  intro hpage j hj
  have hne : x.lastRcvPkt ≠ x.host.lastPkt := by
    intro heq
    rw [slot, heq] at hpage
    exact p.not_isMarker _ (hpage ▸ hm)
  have hout := p.disjoint h.ring.last_lt h.ring.host_lt hne (le_add_right _ j) (by omega)
  apply update_of_ne
  omega

theorem Inv.state_of_isMarker (h : Inv p x) (hm : IsMarker x.slot.physAddr)
    (hwait : x.state ≠ .r0Wait) : x.state = .r0 ∨ x.state = .r5 := by
  have hpage : x.slot.physAddr ≠ p.addr x.lastRcvPkt := fun heq =>
    p.not_isMarker _ (heq ▸ hm)
  have hc := h.current
  unfold Current at hc
  split at hc
  next hs => exact .inl hs
  next hs => exact .inr hs
  next hs => exact absurd hs hwait
  next => exact hc.elim
  next => exact hc.elim
  next => exact absurd hc.posted hpage
  next => exact absurd hc.1.posted hpage
  next => exact absurd hc.1.posted hpage
  next => exact absurd hc.1.posted hpage
  next => exact absurd hc.choose_spec.posted hpage
  next => exact absurd hc.choose_spec.posted hpage

theorem Inv.idle_congr (h : Inv p x) (hring : Ring p x') (hs : x.state = .r0 ∨ x.state = .r5)
    (hstate : x'.state = x.state) (hb : x'.curBuf = x.curBuf) (hn : x'.net = x.net)
    (hd : x'.l2e = x.l2e) : Inv p x' where
  ring := hring
  window := by rw [hn, hb]; exact h.window
  posting _ := by rw [hstate]; exact hs
  streaming h5 := (h.streaming (hstate ▸ h5)).congr hn hb
  idle h4 := by
    rw [hd]
    exact h.idle (hstate ▸ h4)
  current := by
    rw [Current, hstate]
    rcases hs with hs | hs <;> simp [hs]

theorem Ring.post (h : Ring p x) (hwork : x.host.state = .working) : Ring p x.post := by
  have haddr : x.hostPage = p.addr x.host.lastPkt := congrFun h.pages _
  have hself : (x.post.list x.host.lastPkt).physAddr = p.addr x.host.lastPkt := by
    simp [Rx.post, haddr]
  have hother : ∀ i, i ≠ x.host.lastPkt → x.post.list i = x.list i := fun i hi => by
    simp [Rx.post, hi]
  have hnp : ∀ i, ¬ x.PostingAt i := fun i hi => by simp [PostingAt, hwork] at hi
  refine ⟨h.pages, h.last_lt, h.host_lt, ?_, ?_, ?_, ?_, ?_, h.pushed⟩
  · intro i
    by_cases hi : i = x.host.lastPkt
    · exact .inl (hi ▸ hself)
    · rw [hother i hi]
      exact h.slot i
  · intro i hpage hpost
    have hi : i ≠ x.host.lastPkt := fun heq => hpost ⟨rfl, heq.symm⟩
    rw [hother i hi] at hpage ⊢
    exact h.len i hpage (hnp i)
  · rintro i ⟨-, rfl⟩
    exact hself
  · rintro i ⟨hw, -⟩
    simp [Rx.post] at hw
  · intro i hi hg _
    have hne : i ≠ x.host.lastPkt := by
      rintro rfl
      rw [hself] at hg
      exact p.not_isMarker x.host.lastPkt (by rw [hg]; decide)
    rw [hother i hne] at hg
    obtain ⟨w, hf⟩ := h.good i hi hg fun hw => hne hw.2.symm
    exact ⟨w, hf.arrived, by rw [hother i hne]; exact hf.len, hf.posted, hf.byte, hf.pushed,
      hf.page⟩

theorem Inv.post (h : Inv p x) (hwork : x.host.state = .working)
    (hin : x.host.lastPkt = x.lastRcvPkt → x.state ≠ .r0Wait) : Inv p x.post := by
  have hring := h.ring.post hwork
  by_cases heq : x.host.lastPkt = x.lastRcvPkt
  · have hm := h.ring.working x.host.lastPkt ⟨hwork, rfl⟩
    rw [heq] at hm
    exact h.idle_congr hring (h.state_of_isMarker hm (hin heq)) rfl rfl rfl rfl
  · refine h.host_congr ⟨rfl, rfl, rfl, rfl, rfl, rfl, rfl, rfl, rfl, rfl, ?_, rfl, rfl, rfl⟩
      hring rfl (fun hp => absurd hp.2 heq) fun _ _ _ => rfl
    exact update_of_ne (Ne.symm heq) _ _

theorem Ring.postLen (h : Ring p x) (hpost : x.host.state = .posting) : Ring p x.postLen := by
  have hpage := h.posting x.host.lastPkt ⟨hpost, rfl⟩
  have haddr : ∀ i, (x.postLen.list i).physAddr = (x.list i).physAddr := by
    intro i
    by_cases hi : i = x.host.lastPkt <;> simp [Rx.postLen, hi]
  have hother : ∀ i, i ≠ x.host.lastPkt →
      x.postLen.list i = x.list i ∧ x.postLen.postedLen i = x.postedLen i := fun i hi => by
    simp [Rx.postLen, hi]
  refine ⟨h.pages, h.last_lt, mod_lt _ (by decide), ?_, ?_, ?_, ?_, ?_, h.pushed⟩
  · intro i; rw [haddr]; exact h.slot i
  · intro i hi _
    rw [haddr] at hi
    by_cases hk : i = x.host.lastPkt
    · simp [Rx.postLen, hk]
    · rw [(hother i hk).1, (hother i hk).2]
      exact h.len i hi fun hp => hk hp.2.symm
  · rintro i ⟨hp, -⟩
    simp [Rx.postLen] at hp
  · rintro i ⟨hw, -⟩
    simp [Rx.postLen] at hw
  · intro i hi hg _
    rw [haddr] at hg
    have hne : i ≠ x.host.lastPkt := by
      rintro rfl
      rw [hpage] at hg
      exact p.not_isMarker x.host.lastPkt (by rw [hg]; decide)
    obtain ⟨w, hf⟩ := h.good i hi hg fun hw => by simp [WorkingAt, hpost] at hw
    exact ⟨w, hf.arrived, by rw [(hother i hne).1]; exact hf.len,
      by rw [(hother i hne).2]; exact hf.posted, hf.byte, hf.pushed, hf.page⟩

theorem Inv.postLen (h : Inv p x) (hpost : x.host.state = .posting) : Inv p x.postLen := by
  have hring := h.ring.postLen hpost
  by_cases heq : x.host.lastPkt = x.lastRcvPkt
  · exact h.idle_congr hring (h.posting ⟨hpost, heq⟩) rfl rfl rfl rfl
  · refine h.host_congr ⟨rfl, rfl, rfl, rfl, rfl, rfl, rfl, rfl, rfl, rfl, ?_, ?_, rfl, rfl⟩
      hring rfl (fun hp => by simp [PostingAt, Rx.postLen] at hp) fun _ _ _ => rfl
    · exact update_of_ne (Ne.symm heq) _ _
    · exact update_of_ne (Ne.symm heq) _ _

end Rx

def Sys.InTime (s : Sys) : Act → Prop
  | .mcp => s.turn = .rcv → s.rx.state = .r0 → s.rx.InTime
  | .event .post => s.rx.host.lastPkt = s.rx.lastRcvPkt → s.rx.state ≠ .r0Wait
  | .event _ => True

instance (x : Rx) (i : ℕ) : Decidable (x.PostingAt i) := inferInstanceAs (Decidable (_ ∧ _))

instance (x : Rx) : Decidable x.InTime := by
  unfold Rx.InTime
  infer_instance

instance (s : Sys) (a : Act) : Decidable (s.InTime a) := by
  cases a with
  | mcp => unfold Sys.InTime; infer_instance
  | event e => cases e <;> unfold Sys.InTime <;> infer_instance

namespace Sys
open Rx
variable {p : Pages} {s s' : Sys}

theorem inv_rcvStatem (h : Inv p s.rx) (hin : s.rx.state = .r0 → s.rx.InTime)
    (hs : s.rcvStatem = .ok s') : Inv p s'.rx := by
  unfold rcvStatem at hs
  split at hs
  next hst => cases hs; exact h.r0 hst (hin hst)
  next hst => cases hs; exact h.r0Ready hst
  next hst => cases hs; exact h.r0Fits hst
  next hst => cases hs; exact h.r0Wait hst
  next hst => exact absurd h.current (by simp [Current, hst])
  next hst => exact absurd h.current (by simp [Current, hst])
  next hst =>
    split_ifs at hs with hp
    · simp only [grabPciBus, hp, if_true] at hs
      cases hs
      exact h.r1 hst
    · cases hs
      exact h
  next hst =>
    cases hx : s.rx.r2 with
    | error e => rw [hx] at hs; cases hs
    | ok x => rw [hx] at hs; cases hs; exact h.r2 hst hx
  next hst =>
    cases hx : s.rx.r3 with
    | error e => rw [hx] at hs; cases hs
    | ok x => rw [hx] at hs; cases hs; exact h.r3 hst hx
  next hst =>
    split_ifs at hs with hdone
    · unfold freePciBus at hs
      split_ifs at hs
      · cases hs
      · cases hs
        exact h.r4 hst hdone
    · cases hs
      exact h
  next hst => cases hs; exact h.r5 hst

theorem rx_sndStatem (hs : s.sndStatem = .ok s') : s'.rx = s.rx := by
  unfold sndStatem s0 s1 s2 pktOnLanai freePciBus grabPciBus at hs
  dsimp only at hs
  split at hs <;> split_ifs at hs <;> cases hs <;> rfl

theorem inv_event {e : Event} {x : Rx} (h : Inv p s.rx) (hin : s.InTime (.event e))
    (he : s.rx.event e = some x) : Inv p x := by
  cases e <;> simp only [Rx.event] at he
  case words n byte tail =>
    split_ifs at he with hok
    exact some.inj he ▸ h.words hok.2.2.2
  case overrun =>
    split_ifs at he
    exact some.inj he ▸ h.overrun
  case l2eDone =>
    obtain ⟨t, ht, rfl⟩ := map_eq_some_iff.mp he
    exact h.finish ht
  case take =>
    split_ifs at he with hok
    refine some.inj he ▸ h.take hok.1 ?_
    have hm := hok.2
    simp only [mem_cons, not_mem_nil, or_false] at hm
    rcases hm with hm | hm | hm | hm <;> rw [hm] <;> decide
  case use i v =>
    split_ifs at he with hok
    exact some.inj he ▸ h.use hok.1 hok.2
  case post =>
    split_ifs at he with hok
    exact some.inj he ▸ h.post hok hin
  case postLen =>
    split_ifs at he with hok
    exact some.inj he ▸ h.postLen hok
  all_goals exact some.inj he ▸ h

theorem inv_step {a : Act} (h : Inv p s.rx) (hin : s.InTime a) (hs : s.step a = some s') :
    Inv p s'.rx := by
  cases a with
  | mcp =>
    simp only [Sys.step] at hs
    cases hm : s.pktStateMachine with
    | error e => simp [hm, Except.toOption] at hs
    | ok t =>
      rw [hm] at hs
      obtain rfl : t = s' := some.inj hs
      unfold pktStateMachine at hm
      split at hm
      next hturn => exact inv_rcvStatem h (hin hturn) hm
      next => exact rx_sndStatem hm ▸ h
  | event e =>
    obtain ⟨x, hx, rfl⟩ := map_eq_some_iff.mp hs
    exact inv_event h hin hx

theorem inv_init (lanai hostMem : ℕ → UInt8) : Inv p (init p lanai hostMem).rx where
  ring :=
    { pages := rfl
      last_lt := succ_pos 2047
      host_lt := succ_pos 2047
      slot := fun _ => .inl rfl
      len := fun _ _ _ => Nat.le_refl _
      posting := fun _ hp => nomatch hp.1
      working := fun _ hw => nomatch hw.1
      good := fun i _ hg => by
        have hm := p.not_isMarker i
        rw [show p.addr i = goodPkt from hg] at hm
        exact absurd (by decide) hm
      pushed := nofun }
  window := rfl
  posting _ := .inl rfl
  streaming _ := ⟨rfl, Nat.dvd_zero 8, ⟨Nat.zero_le _, nofun⟩, nofun⟩
  idle _ := rfl
  current := trivial

/-- While the host and the MCP keep out of each other's way, a slot marked good whose page the host
has not begun to work on holds the data of one arrived packet, pushed with the length of its header,
which is that in the slot and within what was posted; and nothing is pushed to a slot without a
page. -/
theorem receive_ring_handed_off (lanai hostMem : ℕ → UInt8)
    (h : Reaches step InTime (init p lanai hostMem) s) :
    (∀ i < maxRcvPktEntries, (s.rx.list i).physAddr = goodPkt → ¬ s.rx.WorkingAt i →
      ∃ w ∈ s.rx.net.arrived, (s.rx.list i).len = headerLen w ∧ headerLen w ≤ s.rx.postedLen i ∧
        (∀ j < headerLen w, w[8 + j]? = some (s.rx.host.mem (p.addr i + j))) ∧
        s.rx.pushed i = some ⟨p.addr i, p.addr i, headerLen w⟩) ∧
    ∀ i q, s.rx.pushed i = some q → q.physAddr = p.addr i ∧ q.dest = p.addr i := by
  have hinv : Inv p s.rx := h.invariant (inv_init lanai hostMem) inv_step
  refine ⟨fun i hi hg hn => ?_, hinv.ring.pushed⟩
  obtain ⟨w, hw⟩ := hinv.ring.good i hi hg hn
  exact ⟨w, hw.arrived, hw.len, hw.posted, hw.byte, hw.pushed⟩

theorem first_packet_handed_off : ∃ s, Reaches step InTime (init pagesInRow zeros zeros) s ∧
    (s.rx.list 0).physAddr = goodPkt ∧ ∃ w ∈ s.rx.net.arrived, (s.rx.list 0).len = headerLen w ∧
      ∀ j < headerLen w, w[8 + j]? = some (s.rx.host.mem (pagesInRow.addr 0 + j)) := by
  refine exists_reaches_imp
    (P := fun s => (s.rx.list 0).physAddr = goodPkt ∧ s.rx.host.state = .waiting)
    [.event (.words 3 (pktBytes 8) true), .mcp, .mcp, .mcp, .mcp, .mcp, .mcp, .mcp, .mcp,
      .event .l2eDone, .mcp] (by decide +kernel) fun s hs ⟨hgood, hwait⟩ => ⟨hgood, ?_⟩
  have hnot : ¬ s.rx.WorkingAt 0 := fun hw => by
    rw [hw.1] at hwait
    cases hwait
  obtain ⟨w, hw, hlen, -, hbyte, -⟩ :=
    (receive_ring_handed_off zeros zeros hs).1 0 (by decide) hgood hnot
  exact ⟨w, hw, hlen, hbyte⟩

end Sys
end Cplant.Mcp
