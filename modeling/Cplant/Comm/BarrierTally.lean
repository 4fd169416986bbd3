import Cplant.Comm.ServerBarrier

/-!
# No barrier message is taken that was not sent

Over a whole run, whatever the views and programs of the processes are: the messages that a
process has taken from another one, those that wait at it and those on their way to it are no
more than what the other one has sent.
-/
namespace Cplant.Comm
open List Option Barrier Calls Servers Function
variable {ι : Type*} {b : Barrier} {dst outPeer : Option Peer} {inPeers : List Peer}

namespace Calls
variable (c : Calls ι)

def links (p : Peer) (i : ι) : List Peer :=
  match (c.view p).prologue (c.list p i) with
  | .partners inPeers outPeer => inPeers ++ outPeer.toList
  | _ => []

def heard (p : Peer) (x : Server ι) (q : Peer) : ℕ :=
  (x.past.map fun i => (c.links p i).count q).sum + x.barrier.heard q

def told (p : Peer) (x : Server ι) (q : Peer) : ℕ :=
  (x.past.map fun i => (c.links p i).count q).sum + x.barrier.told q

structure Sound (p : Peer) (x : Server ι) : Prop where
  fits : x.barrier.Fits
  inside : ∀ i, x.cur = some i →
    (c.view p).prologue (c.list p i) = .partners x.barrier.inPeers x.barrier.outPeer
  outside : x.cur = none ↔ x.barrier.phase = .outside
  inOrder : x.past ++ x.cur.toList <+: c.prog p

/-- A move of the process at `p`: it takes only messages that it holds, and `sent q` messages
go out to `q`. -/
structure Moves (p : Peer) (x x' : Server ι) (sent : Peer → ℕ) : Prop where
  sound : c.Sound p x'
  takes : ∀ q, c.heard p x' q + x'.barrier.held q ≤ c.heard p x q + x.barrier.held q
  tells : ∀ q, c.told p x' q = c.told p x q + sent q

variable {c} {p : Peer} {x : Server ι}

theorem links_eq {i : ι} (h : (c.view p).prologue (c.list p i) = .partners inPeers outPeer) :
    c.links p i = inPeers ++ outPeer.toList := by
  rw [links, h]

theorem prefix_call (hx : c.Sound p x) {i : ι} (hcur : x.cur = none)
    (hi : (c.prog p)[x.past.length]? = some i) : x.past ++ [i] <+: c.prog p := by
  have hpast : x.past <+: c.prog p := by
    have := hx.inOrder
    rwa [hcur, toList_none, append_nil] at this
  obtain ⟨rest, hrest⟩ := hpast
  rw [← hrest, getElem?_append_right (Nat.le_refl _), Nat.sub_self] at hi
  cases rest with
  | nil => cases hi
  | cons j rest =>
    cases hi
    exact ⟨rest, by rw [← hrest, append_assoc, singleton_append]⟩

theorem moves_ok (hx : c.Sound p x) {i : ι} (hcur : x.cur = none)
    (hi : (c.prog p)[x.past.length]? = some i) (hp : (c.view p).prologue (c.list p i) = .ok) :
    c.Moves p x { x with past := x.past ++ [i] } fun _ => 0 := by
  have hlinks : c.links p i = [] := by rw [links, hp]
  have hsum : ∀ q, ((x.past ++ [i]).map fun i => (c.links p i).count q).sum =
      (x.past.map fun i => (c.links p i).count q).sum := fun q => by
    simp [hlinks]
  refine ⟨⟨hx.fits, hx.inside, hx.outside, ?_⟩, fun q => ?_, fun q => ?_⟩
  · simp only [hcur, toList_none, append_nil]
    exact prefix_call hx hcur hi
  · simp only [heard, hsum]
    exact le_refl _
  · simp only [told, hsum, add_zero]

theorem moves_enter (hx : c.Sound p x) {i : ι}
    (hcur : x.cur = none) (hi : (c.prog p)[x.past.length]? = some i)
    (hp : (c.view p).prologue (c.list p i) = .partners inPeers outPeer) :
    c.Moves p x { x with cur := some i, barrier := x.barrier.enter inPeers outPeer }
      fun _ => 0 := by
  have hout := hx.outside.mp hcur
  refine ⟨⟨x.barrier.enter_fits inPeers outPeer, ?_, ?_, ?_⟩, fun q => ?_, fun q => ?_⟩
  · intro j hj
    cases hj
    exact hp
  · exact iff_of_false nofun nofun
  · exact prefix_call hx hcur hi
  · have := x.barrier.enter_takes inPeers outPeer q
    simp only [heard]
    omega
  · have hzero : x.barrier.told q = 0 := by rw [Barrier.told, hout]
    simp only [told, hzero]
    rfl

theorem moves_barrier (hx : c.Sound p x) (h : x.barrier.Moves b dst) :
    c.Moves p x { x with barrier := b } fun q => dst.toList.count q := by
  refine ⟨⟨h.fits, ?_, ?_, hx.inOrder⟩, fun q => ?_, fun q => ?_⟩
  · intro i hi
    rw [h.inPeers, h.outPeer]
    exact hx.inside i hi
  · have := mt hx.outside.mp h.inside.1
    exact iff_of_false this h.inside.2
  · have := h.takes q
    simp only [heard]
    omega
  · have := h.tells q
    simp only [told]
    omega

theorem moves_leave (hx : c.Sound p x) {i : ι} (hcur : x.cur = some i)
    (hph : x.barrier.phase = .release []) : c.Moves p x
      { barrier := { x.barrier with phase := .outside }, past := x.past ++ [i], cur := none }
      fun _ => 0 := by
  have hlinks := links_eq (hx.inside i hcur)
  have hsum : ∀ q, ((x.past ++ [i]).map fun i => (c.links p i).count q).sum =
      (x.past.map fun i => (c.links p i).count q).sum +
        (x.barrier.inPeers.count q + x.barrier.outPeer.toList.count q) := fun q => by
    simp [hlinks, count_append]
  refine ⟨⟨trivial, nofun, ⟨fun _ => rfl, fun _ => rfl⟩, ?_⟩, fun q => ?_, fun q => ?_⟩
  · have := hx.inOrder
    rw [hcur] at this
    simpa using this
  · simp only [heard, hsum, Barrier.heard, Barrier.held, hph]
    omega
  · simp only [told, hsum, Barrier.told, hph, count_nil]
    omega

theorem moves_lose (hx : c.Sound p x) (k : ℕ) : c.Moves p x
      { x with barrier := { x.barrier with eventq := x.barrier.eventq.eraseIdx k } }
      fun _ => 0 := by
  refine ⟨⟨hx.fits, hx.inside, hx.outside, hx.inOrder⟩, fun q => ?_, fun q => rfl⟩
  have hle := (eraseIdx_sublist x.barrier.eventq k).count_le q
  simp only [heard, Barrier.heard, Barrier.held]
  omega

end Calls

structure Servers.Tallied (c : Calls ι) (s : Servers ι) : Prop where
  sound : ∀ p, c.Sound p (s.server p)
  tally : ∀ p q, c.heard p (s.server p) q + (s.server p).barrier.held q + s.wire q p ≤
    c.told q (s.server q) p

namespace Servers.Tallied
variable {c : Calls ι} {s s' : Servers ι} {p : Peer}

theorem init (c : Calls ι) : Tallied c init where
  sound := fun _ => ⟨trivial, nofun, ⟨fun _ => rfl, fun _ => rfl⟩, nil_prefix⟩
  tally := fun _ _ => le_refl _

section
variable (h : Tallied c s) {x : Server ι}
include h

theorem move {sent : Peer → ℕ} (hm : c.Moves p (s.server p) x sent)
    (hserver : ∀ a, s'.server a = if a = p then x else s.server a)
    (hwire : ∀ a b, s'.wire a b = s.wire a b + if a = p then sent b else 0) : Tallied c s' := by
  refine ⟨fun a => ?_, fun a b => ?_⟩
  · rw [hserver]
    split_ifs with ha
    · exact ha ▸ hm.sound
    · exact h.sound a
  · have htally := h.tally a b
    have hin : c.heard a (s'.server a) b + (s'.server a).barrier.held b ≤
        c.heard a (s.server a) b + (s.server a).barrier.held b := by
      rw [hserver]
      split_ifs with ha
      · exact ha ▸ hm.takes b
      · exact le_refl _
    have hout : c.told b (s'.server b) a + s.wire b a =
        c.told b (s.server b) a + s'.wire b a := by
      rw [hserver, hwire]
      split_ifs with hb
      · subst hb
        rw [hm.tells a]
        omega
      · omega
    omega

theorem set (hm : c.Moves p (s.server p) x fun _ => 0) : Tallied c (s.set p x) := by
  apply h.move hm
  · intro a
    exact update_apply ..
  · intro a b
    rw [ite_self]
    rfl

theorem go
    (hb : (s.server p).barrier.go = some (b, dst)) : Tallied c ((s.setBarrier p b).send p dst) := by
  have hm := moves_barrier (h.sound p) (go_moves (h.sound p).fits hb)
  cases dst with
  | none => exact h.set hm
  | some q =>
    apply h.move hm
    · intro a
      exact update_apply ..
    · intro a d
      by_cases ha : a = p
      · by_cases hd : d = q
        · simp [send, setWire, setBarrier, Servers.set, ha, hd]
        · simp [send, setWire, setBarrier, Servers.set, ha, hd, Ne.symm hd]
      · simp [send, setWire, setBarrier, Servers.set, ha]

theorem deliver {q : Peer} (hs : s.deliver p q = some s') : Tallied c s' := by
  unfold Servers.deliver at hs
  split_ifs at hs with hzero
  cases hs
  generalize hx : ({ s.server q with barrier := { (s.server q).barrier with
    eventq := (s.server q).barrier.eventq ++ [p] } } : Server ι) = x
  have hserver : ∀ a, ((s.setWire p q (s.wire p q - 1)).setBarrier q { (s.server q).barrier with
      eventq := (s.server q).barrier.eventq ++ [p] }).server a =
        if a = q then x else s.server a := fun a => by
    rw [← hx]
    exact update_apply ..
  refine ⟨fun a => ?_, fun a b => ?_⟩
  · rw [hserver]
    split_ifs with ha
    · obtain ⟨hfits, hinside, hout, horder⟩ := h.sound q
      subst ha hx
      exact ⟨hfits, hinside, hout, horder⟩
    · exact h.sound a
  · have htally := h.tally a b
    have hheard : c.heard a (if a = q then x else s.server a) b = c.heard a (s.server a) b := by
      split_ifs with ha
      · subst ha hx
        rfl
      · rfl
    have htold : c.told b (if b = q then x else s.server b) a = c.told b (s.server b) a := by
      split_ifs with hb
      · subst hb hx
        rfl
      · rfl
    have hheld : (if a = q then x else s.server a).barrier.held b +
        (if b = p ∧ a = q then s.wire p q - 1 else s.wire b a) =
          (s.server a).barrier.held b + s.wire b a := by
      split_ifs with ha hb hb
      · obtain ⟨rfl, rfl⟩ := hb
        subst hx
        simp only [held, count_append, count_singleton_self]
        omega
      · subst ha hx
        have hne : p ≠ b := fun hpb => hb ⟨hpb.symm, rfl⟩
        simp [held, count_append, hne]
      · exact absurd hb.2 ha
      · rfl
    rw [hserver, hserver, hheard, htold]
    show c.heard a (s.server a) b + (if a = q then x else s.server a).barrier.held b +
      (if b = p ∧ a = q then s.wire p q - 1 else s.wire b a) ≤ _
    omega

theorem step {m : Move} (hs : s.step c m = some s') : Tallied c s' := by
  cases m with
  | call p =>
    simp only [Servers.step, Servers.call] at hs
    split at hs
    next i hcur hi =>
      split at hs
      next hp =>
        cases hs
        exact h.set (moves_ok (h.sound p) hcur hi hp)
      · cases hs
      next hp =>
        cases hs
        exact h.set (moves_enter (h.sound p) hcur hi hp)
    · cases hs
  | get p =>
    obtain ⟨b, hb, rfl⟩ := map_eq_some_iff.mp hs
    exact h.set (moves_barrier (h.sound p) (get_moves (h.sound p).fits hb))
  | go p =>
    obtain ⟨⟨b, dst⟩, hb, rfl⟩ := map_eq_some_iff.mp hs
    exact h.go hb
  | leave p =>
    simp only [Servers.step, Servers.leave] at hs
    split at hs
    next i hcur hph =>
      cases hs
      exact h.set (moves_leave (h.sound p) hcur hph)
    · cases hs
  | deliver p q => exact h.deliver hs
  | overrun p k =>
    simp only [Servers.step, Servers.overrun] at hs
    split_ifs at hs
    cases hs
    exact h.set (moves_lose (h.sound p) k)

end
end Servers.Tallied

theorem Servers.tallied {c : Calls ι} {ok : Servers ι → Move → Prop} {s : Servers ι}
    (h : Reaches (step c) ok init s) : s.Tallied c :=
  h.invariant (Tallied.init c) fun hs _ hstep => hs.step hstep

end Cplant.Comm
