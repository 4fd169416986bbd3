import Cplant.Mcp.Machines

/-!
Who has the PCI bus. The flag `PCIavailable` is down exactly while one of the two machines is
in a state that holds the bus, as long as the receive machine sees no overrun in R2: from there
it leaves for R5 without freeing the bus.
-/
namespace Cplant.Mcp
open Rx Option

def Rx.holdsBus (x : Rx) : Bool :=
  match x.state with
  | .r2 | .r3 | .r4 => true
  | _ => false

def Tx.holdsBus (t : Tx) : Bool :=
  match t.state with
  | .s1 | .s2 => !t.pktOnLanai
  | .s0 => false

structure Sys.Owned (s : Sys) : Prop where
  down : s.pciAvailable = false ↔ s.rx.holdsBus = true ∨ s.tx.holdsBus = true
  once : ¬ (s.rx.holdsBus = true ∧ s.tx.holdsBus = true)

def Sys.NoOverrun (s : Sys) : Act → Prop
  | .mcp => s.turn = .rcv → s.rx.state = .r2 → s.rx.net.buffInt = false
  | .event _ => True

instance (s : Sys) : (a : Act) → Decidable (s.NoOverrun a)
  | .mcp => inferInstanceAs (Decidable (_ → _ → _))
  | .event _ => inferInstanceAs (Decidable True)

def KeepsBus : Except Assertion Sys → Prop
  | .ok s => s.Owned
  | .error e => e ≠ .a48 ∧ e ≠ .a49

namespace Sys
variable {s s' : Sys} {x x' : Rx} {buf dest : ℕ} {len : ℤ} {e : Event}

theorem Owned.congr (h : s.Owned) (hp : s'.pciAvailable = s.pciAvailable)
    (hr : s'.rx.holdsBus = s.rx.holdsBus) (ht : s'.tx.holdsBus = s.tx.holdsBus) : s'.Owned := by
  constructor
  · rw [hp, hr, ht]
    exact h.down
  · rw [hr, ht]
    exact h.once

theorem Owned.up (h : s.Owned) (hp : s.pciAvailable = true) :
    s.rx.holdsBus = false ∧ s.tx.holdsBus = false := by
  have hn := (not_congr h.down).mp (by simp [hp])
  simpa using hn

theorem Owned.of_rx (h : s.Owned) (hr : s.rx.holdsBus = true) :
    s.pciAvailable = false ∧ s.tx.holdsBus = false :=
  ⟨h.down.mpr (.inl hr), by simpa [hr] using h.once⟩

theorem Owned.of_tx (h : s.Owned) (ht : s.tx.holdsBus = true) :
    s.pciAvailable = false ∧ s.rx.holdsBus = false :=
  ⟨h.down.mpr (.inr ht), by simpa [ht] using h.once⟩

theorem owned_of_up (hp : s'.pciAvailable = true) (hr : s'.rx.holdsBus = false)
    (ht : s'.tx.holdsBus = false) : s'.Owned :=
  ⟨by simp [hp, hr, ht], by simp [hr]⟩

theorem Owned.rcvNext (h : s.Owned) {next : Rx × Turn} (hr : next.1.holdsBus = s.rx.holdsBus) :
    (s.rcvNext next).Owned :=
  h.congr rfl hr rfl

theorem l2eDmaStart_state (h : x.l2eDmaStart buf len dest = .ok x') : x'.state = x.state := by
  unfold l2eDmaStart at h
  split_ifs at h <;> (cases h; rfl)

theorem l2eDmaStart_error {e : Assertion} (h : x.l2eDmaStart buf len dest = .error e) :
    e ≠ .a48 ∧ e ≠ .a49 := by
  unfold l2eDmaStart at h
  split_ifs at h <;> (cases h; decide)

theorem holdsBus_r0 (hx : x.state = .r0) : x.r0.1.holdsBus = x.holdsBus := by
  unfold r0
  split_ifs <;> simp [holdsBus, hx]

theorem Owned.push (h : s.Owned) (hr : s.rx.holdsBus = true) {f : Rx → Rx}
    (hf : ∀ x, x.state = s.rx.state → (f x).holdsBus = true) :
    KeepsBus (((s.rx.l2eDmaStart buf len dest).map f).map fun x => s.rcvNext (x, .snd)) := by
  cases hd : s.rx.l2eDmaStart buf len dest with
  | error e => exact l2eDmaStart_error hd
  | ok x =>
    apply h.rcvNext
    rw [hr]
    exact hf x (l2eDmaStart_state hd)

theorem Owned.r2 (h : s.Owned) (hs : s.rx.state = .r2) (hb : s.rx.net.buffInt = false) :
    KeepsBus (s.rx.r2.map fun x => s.rcvNext (x, .snd)) := by
  have hr : s.rx.holdsBus = true := by simp [holdsBus, hs]
  unfold Rx.r2
  split_ifs with hpush hint hbuf
  · apply h.push hr
    intro x hx
    simp [holdsBus, hx, hs]
  · exact absurd hbuf (by simp [hb])
  · apply h.rcvNext
    simp [holdsBus, postBuf, hs]
  · exact h.rcvNext rfl

theorem Owned.r3 (h : s.Owned) (hs : s.rx.state = .r3) :
    KeepsBus (s.rx.r3.map fun x => s.rcvNext (x, .snd)) := by
  have hr : s.rx.holdsBus = true := by simp [holdsBus, hs]
  unfold Rx.r3
  split_ifs
  · apply h.push hr
    intro x _
    rfl
  · exact h.rcvNext rfl

theorem holdsBus_r5 (hx : x.state = .r5) : x.r5.holdsBus = x.holdsBus := by
  unfold r5
  split_ifs <;> simp [holdsBus, hx]

section
variable (h : s.Owned)
include h

theorem Owned.rcvStatem (hb : s.rx.state = .r2 → s.rx.net.buffInt = false) :
    KeepsBus s.rcvStatem := by
  unfold Sys.rcvStatem
  split
  next hs => exact h.rcvNext (holdsBus_r0 hs)
  next hs =>
    apply h.rcvNext
    unfold r0Ready
    split_ifs <;> simp [holdsBus, hs]
  next hs => exact h.rcvNext (by simp [r0Fits, holdsBus, hs])
  next hs =>
    apply h.rcvNext
    unfold r0Wait
    split_ifs <;> simp [holdsBus, hs]
  next hs => exact h.rcvNext (by simp [r0Saved, holdsBus, hs])
  next hs => exact h.rcvNext (by simp [r0Addr, holdsBus, hs])
  next hs =>
    split_ifs with hp
    · have ht := (h.up hp).2
      simp only [grabPciBus, hp, if_true]
      exact ⟨by simp [Sys.rcvNext, Rx.holdsBus], by simp [Sys.rcvNext, ht]⟩
    · exact h.rcvNext rfl
  next hs => exact h.r2 hs (hb hs)
  next hs => exact h.r3 hs
  next hs =>
    split_ifs
    · have ht := h.of_rx (by simp [holdsBus, hs])
      simp only [freePciBus, ht.1]
      exact owned_of_up rfl rfl ht.2
    · exact h.rcvNext rfl
  next hs => exact h.rcvNext (holdsBus_r5 hs)

theorem Owned.pktOnLanai (ht : s.tx.holdsBus = true) : KeepsBus s.pktOnLanai := by
  have hown := h.of_tx ht
  simp only [Sys.pktOnLanai, freePciBus, hown.1]
  refine owned_of_up rfl hown.2 ?_
  simp only [Tx.holdsBus]
  split <;> rfl

theorem Owned.s0 : KeepsBus s.s0 := by
  unfold Sys.s0
  dsimp only
  split_ifs with hready halign hlen
  · exact ⟨nofun, nofun⟩
  · exact ⟨nofun, nofun⟩
  · have hr := (h.up hready.1).1
    simp only [grabPciBus, hready.1, if_true]
    exact ⟨by simp [Tx.holdsBus], by simp [hr]⟩
  · exact h.congr rfl rfl rfl

theorem Owned.s1 (hs : s.tx.state = .s1) : KeepsBus s.s1 := by
  unfold Sys.s1
  split_ifs with hrdy hdone
  · refine Owned.congr h rfl rfl ?_
    simp [Tx.holdsBus, hs]
  · apply h.pktOnLanai
    simp_all [Tx.holdsBus]
  · exact h.congr rfl rfl rfl

theorem Owned.s2 (hs : s.tx.state = .s2) : KeepsBus s.s2 := by
  unfold Sys.s2
  split_ifs with hsend hon hdone
  · refine Owned.congr h rfl rfl ?_
    simp [Tx.holdsBus, hs, hon]
  · have ht : s.tx.holdsBus = true := by simp_all [Tx.holdsBus]
    simp only [freePciBus, (h.of_tx ht).1]
    exact owned_of_up rfl (h.of_tx ht).2 rfl
  · apply h.pktOnLanai
    simp_all [Tx.holdsBus]
  · exact h.congr rfl rfl rfl

theorem Owned.pktStateMachine (hb : s.NoOverrun .mcp) : KeepsBus s.pktStateMachine := by
  unfold Sys.pktStateMachine
  split
  next hturn => exact h.rcvStatem (hb hturn)
  next =>
    unfold sndStatem
    split
    next => exact h.s0
    next hs => exact h.s1 hs
    next hs => exact h.s2 hs

end

theorem event_state (h : x.event e = some x') : x'.state = x.state := by
  cases e with
  | l2eDone =>
    obtain ⟨t, -, rfl⟩ := map_eq_some_iff.mp h
    rfl
  | _ => grind [event, words, overrun, take, use, post, postLen]

theorem Owned.event (h : s.Owned) (hx : s.rx.event e = some x) :
    ({ s with rx := x, tx := s.tx.event e } : Sys).Owned := by
  refine Owned.congr h rfl ?_ ?_
  · simp [holdsBus, event_state hx]
  · cases e <;> rfl

theorem Owned.step (h : s.Owned) {a : Act} (hb : s.NoOverrun a) (hs : s.step a = some s') :
    s'.Owned := by
  cases a with
  | mcp =>
    have hk := h.pktStateMachine hb
    simp only [Sys.step] at hs
    cases hm : s.pktStateMachine with
    | error e => simp [hm, Except.toOption] at hs
    | ok t =>
      rw [hm] at hs hk
      exact some.inj hs ▸ hk
  | event e =>
    obtain ⟨x, hx, rfl⟩ := map_eq_some_iff.mp hs
    exact h.event hx

theorem owned_init (pages : Pages) (lanai hostMem : ℕ → UInt8) : (init pages lanai hostMem).Owned :=
  owned_of_up rfl rfl rfl

/-- In every state reached without an overrun in R2 the flag says who has the bus, and the
next block passes the checks of `grab_pci_bus` and `free_pci_bus`. -/
theorem pci_bus_kept (pages : Pages) (lanai hostMem : ℕ → UInt8)
    (h : Reaches step NoOverrun (init pages lanai hostMem) s) :
    ((s.pciAvailable = false ↔ s.rx.holdsBus = true ∨ s.tx.holdsBus = true) ∧
      ¬ (s.rx.holdsBus = true ∧ s.tx.holdsBus = true)) ∧
    (s.NoOverrun .mcp → s.pktStateMachine ≠ .error .a48 ∧ s.pktStateMachine ≠ .error .a49) := by
  have hown : s.Owned := h.invariant (owned_init pages lanai hostMem)
    fun hown hb hs => hown.step hb hs
  refine ⟨⟨hown.down, hown.once⟩, fun hb => ?_⟩
  have hk := hown.pktStateMachine hb
  constructor <;>
  · intro he
    rw [he] at hk
    simp [KeepsBus] at hk

def pagesInRow : Pages where
  addr i := pageSize * (i + 1)
  aligned i := Nat.dvd_mul_right _ _
  pos i := Nat.mul_pos (by decide) i.succ_pos
  inj i j _ _ h := Nat.succ_inj.mp (Nat.eq_of_mul_eq_mul_left (by decide) h)

def zeros : ℕ → UInt8 := fun _ => 0

def pktBytes (len : UInt8) (i : ℕ) : UInt8 := if i = 0 then 8 else if i = 3 then len else 0

theorem pci_bus_kept_in_r2 : ∃ s, Reaches step NoOverrun (init pagesInRow zeros zeros) s ∧
    s.rx.state = .r2 ∧ s.pciAvailable = false ∧ s.tx.holdsBus = false := by
  refine exists_reaches_imp (P := fun s => s.rx.state = .r2)
    [.event (.words 1 (pktBytes 8) false), .mcp, .mcp, .mcp, .mcp] (by decide +kernel)
    fun s hs hr2 => ?_
  have hkept := (pci_bus_kept pagesInRow zeros zeros hs).1
  have hrx : s.rx.holdsBus = true := by simp [holdsBus, hr2]
  exact ⟨hr2, hkept.1.mpr (.inl hrx), by simpa [hrx] using hkept.2⟩

/-- A packet fills the buffer and goes on: R2 is left for R5 with the flag down. -/
theorem pci_bus_lost : ∃ s, Reaches step (fun _ _ => True) (init pagesInRow zeros zeros) s ∧
    s.pciAvailable = false ∧ s.rx.holdsBus = false ∧ s.tx.holdsBus = false := by
  refine exists_reaches
    [.event (.words 1024 (pktBytes 8) false), .event .overrun, .mcp, .mcp, .mcp, .mcp, .mcp] ?_
  decide +kernel

end Sys
end Cplant.Mcp
