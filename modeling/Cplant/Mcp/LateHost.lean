import Cplant.Mcp.Bus
import Cplant.Mcp.RingInvariant

/-!
A host that is late. When the MCP has gone once around the ring and the host has not yet
looked at the first slot, the next packet finds a marker there and the machine waits. If the
host posts the page during the wait, the packet is taken with the length of an earlier one.
-/
namespace Cplant.Mcp
open Rx Function

def AnyAct (_ : Sys) (_ : Act) : Prop := True

namespace Rx

def complete (x : Rx) : Rx :=
  { ({ x with state := .r3 } : Rx).postBuf x.curBuf.swap with
    oldBuf := x.curBuf, curBuf := x.curBuf.swap, oldRmp := x.net.rmp }

def transfer (x : Rx) : Transfer := ⟨x.pktData, x.curLen.toNat, x.curHstAddr⟩

def pushing (x : Rx) : Rx :=
  { x with
    state := .r4
    l2e := some x.transfer
    pushed := update x.pushed x.lastRcvPkt
      (some ⟨x.slot.physAddr, x.curHstAddr, x.curLen⟩) }

def delivered (x : Rx) : Rx := (x.complete.pushing.finish x.complete.transfer).r4Done

end Rx
namespace Sys
variable {s₀ s : Sys} {x y : Rx} {k i : ℕ} {byte : ℕ → UInt8} {len b : UInt8}

theorem reaches_rcv {s' : Sys} (h : Reaches step AnyAct s₀ s) (ht : s.turn = .rcv)
    (hs : s.rcvStatem = .ok s') : Reaches step AnyAct s₀ s' := by
  apply h.step .mcp trivial
  simp [step, pktStateMachine, ht, hs, Except.toOption]

theorem reaches_idle (h : Reaches step AnyAct s₀ s) (ht : s.turn = .snd)
    (hs : s.tx.state = .s0) (he : (s.tx.list s.tx.lastSndPkt).physAddr = 0) :
    Reaches step AnyAct s₀ { s with turn := .rcv } := by
  apply h.step .mcp trivial
  simp only [step, pktStateMachine, ht, sndStatem, hs, s0]
  rw [if_neg (by simp [he])]
  rfl

theorem r2_complete (hth : x.availLen ≤ x.threshold) (hrecv : x.net.recvInt = true)
    (hbuff : x.net.buffInt = false) : x.r2 = .ok x.complete := by
  rw [r2, if_neg fun hpush => absurd hpush.1 (by omega), if_pos (by simp [hrecv])]
  simp [hbuff, complete]

theorem r3_pushing (hl2e : x.l2e = none) (hlen : 0 < x.curLen)
    (hdata : x.pktData % 4 = 0) (haddr : x.curHstAddr % 4 = 0) : x.r3 = .ok x.pushing := by
  simp [r3, hl2e, l2eDmaStart, show x.curLen ≠ 0 by omega, show ¬ x.curLen < 0 by omega,
    hdata, haddr, Except.map, pushing, transfer]

theorem rcvStatem_ready {n : ℕ} (hs : s.rx.state = .r0) (hin : s.rx.net.rmp ≠ s.rx.curBuf.addr)
    (htype : halfword s.rx.net.mem s.rx.curBuf.addr = myriPortalPacketType)
    (hdiv : s.rx.slot.physAddr / 16 ≠ 0) (hlen : halfword s.rx.net.mem (s.rx.curBuf.addr + 2) = n) :
    s.rcvStatem = .ok (s.rcvNext ({ s.rx with
      state := .r0Ready
      curHstAddr := s.rx.slot.physAddr
      curLen := n
      expectedLen := align64 (n + 8) }, .rcv)) := by
  simp [rcvStatem, hs, r0, hin, htype, hdiv, hlen]

theorem rcvStatem_late (hs : s.rx.state = .r0) (hin : s.rx.net.rmp ≠ s.rx.curBuf.addr)
    (htype : halfword s.rx.net.mem s.rx.curBuf.addr = myriPortalPacketType)
    (hdiv : s.rx.slot.physAddr / 16 = 0) : s.rcvStatem = .ok (s.rcvNext
      ({ s.rx with state := .r0Wait, curHstAddr := s.rx.slot.physAddr }, .rcv)) := by
  simp [rcvStatem, hs, r0, hin, htype, hdiv]

theorem rcvStatem_fits (hs : s.rx.state = .r0Ready) (hlen : s.rx.curLen ≤ s.rx.slot.len) :
    s.rcvStatem = .ok (s.rcvNext ({ s.rx with
      state := .r0Fits, pktData := s.rx.curBuf.addr + 8, threshold := rcvStartTh }, .rcv)) := by
  simp only [rcvStatem, hs, r0Ready]
  rw [if_neg (Int.not_lt.mpr hlen)]

theorem rcvStatem_r0Fits (hs : s.rx.state = .r0Fits) :
    s.rcvStatem = .ok (s.rcvNext s.rx.r0Fits) := by
  simp [rcvStatem, hs]

theorem rcvStatem_saved (hs : s.rx.state = .r0Wait) (haddr : s.rx.slot.physAddr % 16 = 0) :
    s.rcvStatem = .ok (s.rcvNext
      ({ s.rx with state := .r0Saved, pktData := s.rx.curBuf.addr + 8 }, .rcv)) := by
  simp [rcvStatem, hs, r0Wait, haddr]

theorem rcvStatem_r0Saved (hs : s.rx.state = .r0Saved) :
    s.rcvStatem = .ok (s.rcvNext s.rx.r0Saved) := by
  simp [rcvStatem, hs]

theorem rcvStatem_r0Addr (hs : s.rx.state = .r0Addr) :
    s.rcvStatem = .ok (s.rcvNext s.rx.r0Addr) := by
  simp [rcvStatem, hs]

theorem rcvStatem_r2 (hs : s.rx.state = .r2) (hx : s.rx.r2 = .ok x) :
    s.rcvStatem = .ok (s.rcvNext (x, .snd)) := by
  simp [rcvStatem, hs, hx, Except.map]

theorem rcvStatem_r3 (hs : s.rx.state = .r3) (hx : s.rx.r3 = .ok x) :
    s.rcvStatem = .ok (s.rcvNext (x, .snd)) := by
  simp [rcvStatem, hs, hx, Except.map]

theorem rcvStatem_r4 (hs : s.rx.state = .r4) (hl2e : s.rx.l2e = none)
    (hbus : s.pciAvailable = false) :
    s.rcvStatem = .ok { s with pciAvailable := true, turn := .snd, rx := s.rx.r4Done } := by
  simp only [rcvStatem, hs, hl2e, if_true, freePciBus, hbus]
  rfl

theorem reaches_delivered (h : Reaches step AnyAct s₀ s) (ht : s.turn = .rcv)
    (hr1 : s.rx.state = .r1) (hbus : s.pciAvailable = true) (hs : s.tx.state = .s0)
    (he : (s.tx.list s.tx.lastSndPkt).physAddr = 0) (hl2e : s.rx.l2e = none)
    (hrecv : s.rx.net.recvInt = true) (hbuff : s.rx.net.buffInt = false)
    (hth : s.rx.availLen ≤ s.rx.threshold) (hlen : 0 < s.rx.curLen)
    (hdata : s.rx.pktData % 4 = 0) (haddr : s.rx.curHstAddr % 4 = 0) :
    Reaches step AnyAct s₀ { s with rx := s.rx.delivered } := by
  have h2 : Reaches step AnyAct s₀
      { s with pciAvailable := false, rx := { s.rx with state := .r2 } } := by
    refine reaches_rcv h ht ?_
    simp [rcvStatem, hr1, hbus, grabPciBus, rcvNext, Except.map, ht]
  have h3 : Reaches step AnyAct s₀
      { s with pciAvailable := false, turn := .snd, rx := s.rx.complete } :=
    reaches_rcv h2 ht (rcvStatem_r2 rfl (r2_complete hth hrecv hbuff))
  have h4 : Reaches step AnyAct s₀
      { s with pciAvailable := false, turn := .snd, rx := s.rx.complete.pushing } :=
    reaches_rcv (reaches_idle h3 rfl hs he) rfl
      (rcvStatem_r3 rfl (r3_pushing hl2e hlen hdata haddr))
  have h5 : Reaches step AnyAct s₀
      { s with
        pciAvailable := false
        rx := s.rx.complete.pushing.finish s.rx.complete.transfer } :=
    ht ▸ (reaches_idle h4 rfl hs he).step (.event .l2eDone) trivial rfl
  have h6 : Reaches step AnyAct s₀ { s with turn := .snd, rx := s.rx.delivered } :=
    hbus ▸ reaches_rcv h5 ht (rcvStatem_r4 rfl rfl rfl)
  exact ht ▸ reaches_idle h6 rfl hs he

def packet (len b : UInt8) (i : ℕ) : UInt8 :=
  if i = 0 then 8 else if i = 3 then len else if 8 ≤ i ∧ i < 24 then b else 0

def packetBytes (len b : UInt8) : List UInt8 := (List.range (8 * 4)).map (packet len b)

/-- The MCP waits for a packet after `k` packets of length 10, and the host has done nothing
since it posted the pages. -/
structure Idle (k : ℕ) (s : Sys) : Prop where
  turn : s.turn = .rcv
  bus : s.pciAvailable = true
  tx : s.tx.state = .s0
  send : (s.tx.list s.tx.lastSndPkt).physAddr = 0
  state : s.rx.state = .r0
  l2e : s.rx.l2e = none
  rmp : s.rx.net.rmp = s.rx.curBuf.addr
  rml : s.rx.net.rml = s.rx.curBuf.addr + dblBufSize - 4
  recvInt : s.rx.net.recvInt = false
  buffInt : s.rx.net.buffInt = false
  wire : s.rx.net.wire = []
  arrived : ∀ w ∈ s.rx.net.arrived, w = packetBytes 10 0
  last : s.rx.lastRcvPkt = k % maxRcvPktEntries
  host : s.rx.host.state = .waiting
  hostLast : s.rx.host.lastPkt = 0
  pages : s.rx.host.pageList = pagesInRow.addr
  ahead : ∀ i, k ≤ i → i < maxRcvPktEntries → s.rx.list i = ⟨pagesInRow.addr i, 2 ^ 32 - 1⟩
  behind : 0 < k → s.rx.list 0 = ⟨goodPkt, 10⟩
  vars : 0 < k → s.rx.curLen = 10 ∧ s.rx.expectedLen = 24 ∧ s.rx.threshold = dblBufSize

theorem idle_init (lanai hostMem : ℕ → UInt8) : Idle 0 (init pagesInRow lanai hostMem) where
  turn := rfl
  bus := rfl
  tx := rfl
  send := rfl
  state := rfl
  l2e := rfl
  rmp := rfl
  rml := rfl
  recvInt := rfl
  buffInt := rfl
  wire := rfl
  arrived := nofun
  last := rfl
  host := rfl
  hostLast := rfl
  pages := rfl
  ahead _ _ _ := rfl
  behind := nofun
  vars := nofun

theorem Idle.words (h : Idle k s) (hr : Reaches step AnyAct s₀ s) (byte : ℕ → UInt8) :
    Reaches step AnyAct s₀ { s with rx := s.rx.words 4 byte true } := by
  apply hr.step (.event (.words 4 byte true)) trivial
  have hroom : s.rx.net.rmp + 8 * 4 ≤ s.rx.net.rml + 4 := by
    rw [h.rmp, h.rml, dblBufSize]
    omega
  simp only [step, event]
  rw [if_pos ⟨by omega, by simp [h.recvInt], by simp [h.buffInt], hroom⟩]
  rfl

theorem mem_words (hr : x.net.rmp = x.curBuf.addr)
    (hi : i < 32) : (x.words 4 byte true).net.mem (x.curBuf.addr + i) = byte i := by
  simp only [words, hr]
  rw [if_pos (by omega)]
  congr 1
  omega

theorem halfword_words (hr : x.net.rmp = x.curBuf.addr)
    (hi : i + 1 < 32) : halfword (x.words 4 byte true).net.mem (x.curBuf.addr + i) =
      (byte i).toNat * 256 + (byte (i + 1)).toNat := by
  rw [halfword, mem_words hr (by omega), Nat.add_assoc, mem_words hr hi]

theorem type_words (hr : x.net.rmp = x.curBuf.addr) :
    halfword (x.words 4 (packet len b) true).net.mem x.curBuf.addr = myriPortalPacketType := by
  have h : halfword (x.words 4 (packet len b) true).net.mem (x.curBuf.addr + 0) = _ :=
    halfword_words hr (by decide)
  simpa [packet, myriPortalPacketType] using h

theorem len_words (hr : x.net.rmp = x.curBuf.addr) :
    halfword (x.words 4 (packet len b) true).net.mem (x.curBuf.addr + 2) = len.toNat := by
  rw [halfword_words hr (by decide)]
  simp [packet]

def accepted (x : Rx) (len b : UInt8) : Rx :=
  { x.words 4 (packet len b) true with
    state := .r1
    curHstAddr := x.slot.physAddr
    curLen := len.toNat
    expectedLen := align64 (len.toNat + 8)
    pktData := x.curBuf.addr + 8
    threshold := rcvStartTh
    list := update x.list x.lastRcvPkt
      { x.slot with len := ((len.toNat : ℤ) % 2 ^ 32).toNat } }

theorem rmp_words (hr : x.net.rmp = x.curBuf.addr) :
    (x.words 4 byte true).net.rmp ≠ x.curBuf.addr := by
  simp [words, hr]

theorem reaches_accepted (h : Idle k s) (hr : Reaches step AnyAct s₀ s)
    (hdiv : s.rx.slot.physAddr / 16 ≠ 0) (hlen : len.toNat ≤ s.rx.slot.len) :
    Reaches step AnyAct s₀ { s with rx := accepted s.rx len b } := by
  have h2 := reaches_rcv (h.words hr (packet len b)) h.turn
    (rcvStatem_ready h.state (rmp_words h.rmp) (type_words h.rmp) hdiv (len_words h.rmp))
  have h3 := reaches_rcv h2 rfl (rcvStatem_fits rfl (Int.ofNat_le.mpr hlen))
  have h4 := reaches_rcv h3 rfl (rcvStatem_r0Fits rfl)
  rw [h.turn]
  exact h4

def saved (x : Rx) (len b : UInt8) : Rx :=
  let y := ({ x.words 4 (packet len b) true with
    state := .r0Wait, curHstAddr := x.slot.physAddr } : Rx).take.post.postLen
  (({ y with state := .r0Saved, pktData := y.curBuf.addr + 8 } : Rx).r0Saved.1).r0Addr.1

theorem reaches_take (h : Reaches step AnyAct s₀ s) (hwait : s.rx.host.state = .waiting)
    (hgood : (s.rx.list s.rx.host.lastPkt).physAddr = goodPkt) :
    Reaches step AnyAct s₀ { s with rx := s.rx.take } := by
  apply h.step (.event .take) trivial
  simp [step, event, hwait, hgood, Tx.event]

theorem reaches_saved (h : Idle k s) (hr : Reaches step AnyAct s₀ s)
    (hlast : s.rx.lastRcvPkt = 0) (hgood : (s.rx.list 0).physAddr = goodPkt) :
    Reaches step AnyAct s₀ { s with rx := saved s.rx len b } := by
  have hmark : s.rx.slot.physAddr = goodPkt := by rw [slot, hlast, hgood]
  have hdiv : s.rx.slot.physAddr / 16 = 0 := by rw [hmark]; rfl
  have h2 := reaches_rcv (h.words hr (packet len b)) h.turn
    (rcvStatem_late h.state (rmp_words h.rmp) (type_words h.rmp) hdiv)
  have h3 := reaches_take h2 h.host (by rw [← h.hostLast] at hgood; exact hgood)
  have h4 := h3.step (.event .post) trivial rfl
  have h5 := h4.step (.event .postLen) trivial rfl
  have h6 := reaches_rcv h5 rfl (rcvStatem_saved rfl (by
    simp [rcvNext, take, words, post, postLen, slot, hostPage, hlast, h.hostLast,
      h.pages, pagesInRow, pageSize]))
  have h7 := reaches_rcv h6 rfl (rcvStatem_r0Saved rfl)
  have h8 := reaches_rcv h7 rfl (rcvStatem_r0Addr rfl)
  rw [h.turn]
  exact reaches_idle h8 rfl h.tx h.send

theorem marker_delivered (hr : x.net.rmp = x.curBuf.addr)
    (hy : y.net = (x.words 4 (packet len b) true).net) (hb : y.curBuf = x.curBuf)
    (he : y.expectedLen = 24) :
    (y.complete.pushing.finish y.complete.transfer).marker = goodPkt := by
  have hcrc : (y.complete.pushing.finish y.complete.transfer).crc = 0 := by
    have h1 : halfword (x.words 4 (packet len b) true).net.mem (x.curBuf.addr + 28) = 0 := by
      rw [halfword_words hr (by decide)]
      simp [packet]
    have h2 : halfword (x.words 4 (packet len b) true).net.mem (x.curBuf.addr + 30) = 0 := by
      rw [halfword_words hr (by decide)]
      simp [packet]
    have hrmp : y.net.rmp = x.curBuf.addr + 32 := by simp [hy, words, hr]
    show halfword y.net.mem (y.net.rmp - 4) * 65536 + halfword y.net.mem (y.net.rmp - 2) = 0
    rw [hrmp, hy, show x.curBuf.addr + 32 - 4 = x.curBuf.addr + 28 by omega,
      show x.curBuf.addr + 32 - 2 = x.curBuf.addr + 30 by omega, h1, h2]
  have hlen : ((y.complete.pushing.finish y.complete.transfer).oldRmp : ℤ) -
      (y.complete.pushing.finish y.complete.transfer).oldBuf.addr - 8 = 24 := by
    show (y.net.rmp : ℤ) - y.curBuf.addr - 8 = 24
    simp only [hy, hb, words, hr]
    omega
  have hexp : (y.complete.pushing.finish y.complete.transfer).expectedLen = 24 := he
  simp only [marker, hlen, hexp, hcrc]
  decide

section
variable (h : Idle k s) (hk : k < maxRcvPktEntries)
include h hk

theorem Idle.last_eq : s.rx.lastRcvPkt = k := by rw [h.last, Nat.mod_eq_of_lt hk]

theorem Idle.slot_eq : s.rx.slot = ⟨pagesInRow.addr k, 2 ^ 32 - 1⟩ := by
  rw [slot, h.last_eq hk]
  exact h.ahead k (Nat.le_refl k) hk

theorem Idle.next : Idle (k + 1) { s with rx := (accepted s.rx 10 0).delivered } := by
  have hlast := h.last_eq hk
  have hlist : (accepted s.rx 10 0).delivered.list =
      update s.rx.list k ⟨goodPkt, 10⟩ := by
    have hmarker := marker_delivered (y := accepted s.rx 10 0) h.rmp rfl rfl rfl
    simp only [Rx.delivered, Rx.r4Done, Rx.setSlot, hmarker]
    simp [Rx.finish, Rx.pushing, Rx.complete, Rx.postBuf, accepted, Rx.words, Rx.slot, hlast]
  refine ⟨h.turn, h.bus, h.tx, h.send, rfl, rfl, rfl, rfl, rfl, rfl, rfl, ?_, ?_, h.host,
    h.hostLast, h.pages, ?_, ?_, fun _ => ⟨rfl, rfl, rfl⟩⟩
  · intro w hw
    have hw : w ∈ s.rx.net.arrived ++ [s.rx.net.wire ++ packetBytes 10 0] := hw
    rw [h.wire, List.nil_append, List.mem_append, List.mem_singleton] at hw
    exact hw.elim (h.arrived w) id
  · show (s.rx.lastRcvPkt + 1) % maxRcvPktEntries = (k + 1) % maxRcvPktEntries
    rw [hlast]
  · intro i hi hlt
    rw [hlist, update_of_ne (by omega)]
    exact h.ahead i (by omega) hlt
  · intro _
    rw [hlist]
    by_cases hk0 : k = 0
    · rw [hk0, update_self]
    · rw [update_of_ne (Ne.symm hk0)]
      exact h.behind (Nat.pos_of_ne_zero hk0)

end

theorem availLen_words (hr : x.net.rmp = x.curBuf.addr)
    (hy : y.net = (x.words 4 byte true).net) (hd : y.pktData = x.curBuf.addr + 8)
    (hth : y.threshold = dblBufSize) : y.availLen ≤ y.threshold := by
  rw [hth, availLen, hy, hd]
  simp only [words, hr, dblBufSize]
  omega

theorem Buf.addr_mod (buf : Buf) : (buf.addr + 8) % 4 = 0 := by
  cases buf <;> rfl

theorem pagesInRow_mod (i : ℕ) : pagesInRow.addr i % 4 = 0 ∧ pagesInRow.addr i / 16 ≠ 0 := by
  simp only [pagesInRow, pageSize]
  omega

theorem exists_idle (k : ℕ) (hk : k ≤ maxRcvPktEntries) :
    ∃ s, Reaches step AnyAct (init pagesInRow zeros zeros) s ∧ Idle k s := by
  induction k with
  | zero => exact ⟨_, .init, idle_init zeros zeros⟩
  | succ k ih =>
    obtain ⟨s, hr, h⟩ := ih (by omega)
    have hslot := h.slot_eq hk
    have hacc : Reaches step AnyAct (init pagesInRow zeros zeros)
        { s with rx := accepted s.rx 10 0 } := by
      apply reaches_accepted h hr
      · rw [hslot]
        exact (pagesInRow_mod k).2
      · rw [hslot]
        exact (by decide : UInt8.toNat 10 ≤ 2 ^ 32 - 1)
    refine ⟨_, ?_, h.next hk⟩
    refine reaches_delivered hacc h.turn rfl h.bus h.tx h.send h.l2e rfl h.buffInt
      (availLen_words h.rmp rfl rfl rfl) (Int.natCast_pos.mpr (by decide)) (Buf.addr_mod _) ?_
    show s.rx.slot.physAddr % 4 = 0
    rw [hslot]
    exact (pagesInRow_mod k).1

section Saved
variable (h : Idle maxRcvPktEntries s)
include h

theorem Idle.last_full : s.rx.lastRcvPkt = 0 := by rw [h.last, Nat.mod_self]

theorem Idle.list_saved : (saved s.rx 12 7).delivered.list 0 = ⟨goodPkt, 10⟩ := by
  have hlast := h.last_full
  obtain ⟨hlen, hexp, -⟩ := h.vars (by decide)
  have hmarker := marker_delivered (y := saved s.rx 12 7) h.rmp rfl rfl hexp
  simp only [Rx.delivered, Rx.r4Done, Rx.setSlot, hmarker]
  simp [Rx.finish, Rx.pushing, Rx.complete, Rx.postBuf, saved, Rx.r0Saved, Rx.r0Addr, Rx.take,
    Rx.post, Rx.postLen, Rx.setSlot, Rx.words, Rx.slot, hlast, h.hostLast, hlen]

theorem Idle.mem_saved : (saved s.rx 12 7).delivered.host.mem (pagesInRow.addr 0) = 7 := by
  have hlast := h.last_full
  obtain ⟨hlen, -⟩ := h.vars (by decide)
  have haddr : (saved s.rx 12 7).complete.transfer.dest = pagesInRow.addr 0 := by
    simp [Rx.transfer, Rx.complete, Rx.postBuf, saved, Rx.r0Saved, Rx.r0Addr, Rx.take, Rx.post,
      Rx.postLen, Rx.setSlot, Rx.words, Rx.slot, Rx.hostPage, hlast, h.hostLast, h.pages]
  have hcount : (saved s.rx 12 7).complete.transfer.len = 10 := by
    show s.rx.curLen.toNat = 10
    rw [hlen]
    rfl
  have hbyte : (s.rx.words 4 (packet 12 7) true).net.mem (s.rx.curBuf.addr + 8) = 7 :=
    mem_words h.rmp (by decide)
  show (if (saved s.rx 12 7).complete.transfer.dest ≤ pagesInRow.addr 0 ∧
    pagesInRow.addr 0 < (saved s.rx 12 7).complete.transfer.dest +
      (saved s.rx 12 7).complete.transfer.len then _ else _) = _
  rw [haddr, hcount, if_pos (by omega), Nat.sub_self]
  exact hbyte

end Saved

/-- The MCP has gone around the ring with packets of length 10 before the host looks at slot 0.
While a packet of length 12 is awaited the host posts that page: the slot is marked good with length
10, and no packet of that length has the data in the page. -/
theorem late_host_mixes_lengths : ∃ s, Reaches step AnyAct (init pagesInRow zeros zeros) s ∧
    (s.rx.list 0).physAddr = goodPkt ∧ s.rx.host.state = .waiting ∧
    ∀ w ∈ s.rx.net.arrived, (s.rx.list 0).len = headerLen w →
      ¬ ∀ j < headerLen w, w[8 + j]? = some (s.rx.host.mem (pagesInRow.addr 0 + j)) := by
  obtain ⟨s, hr, h⟩ := exists_idle maxRcvPktEntries (Nat.le_refl _)
  obtain ⟨hlen, hexp, hth⟩ := h.vars (by decide)
  have hlast := h.last_full
  have hlist := h.behind (by decide)
  have hsaved : Reaches step AnyAct (init pagesInRow zeros zeros)
      { s with rx := saved s.rx 12 7 } := reaches_saved h hr hlast (by rw [hlist])
  refine ⟨{ s with rx := (saved s.rx 12 7).delivered }, ?_, ?_, rfl, ?_⟩
  · refine reaches_delivered hsaved h.turn rfl h.bus h.tx h.send h.l2e rfl h.buffInt
      (availLen_words h.rmp rfl rfl hth) (by show 0 < s.rx.curLen; omega) (Buf.addr_mod _) ?_
    simp [saved, r0Saved, r0Addr, take, post, postLen, setSlot, words,
      slot, hostPage, hlast, h.hostLast, h.pages, (pagesInRow_mod 0).1]
  · exact congrArg RcvPkt.physAddr h.list_saved
  · intro w hw hwlen hdata
    have hw : w ∈ s.rx.net.arrived ++ [s.rx.net.wire ++ packetBytes 12 7] := hw
    rw [h.list_saved] at hwlen
    rw [h.wire, List.nil_append, List.mem_append, List.mem_singleton] at hw
    rcases hw with hw | rfl
    · have hfirst := hdata 0 (by rw [← hwlen]; decide)
      rw [h.arrived w hw] at hfirst
      have hfirst : some (0 : UInt8) =
          some ((saved s.rx 12 7).delivered.host.mem (pagesInRow.addr 0)) := hfirst
      rw [h.mem_saved] at hfirst
      cases hfirst
    · cases hwlen

end Sys
end Cplant.Mcp
