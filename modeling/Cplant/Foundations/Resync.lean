import Mathlib.Algebra.Order.Group.Nat
import Mathlib.Data.List.Nodup
import Mathlib.Data.List.Pairwise

/-!
# Numbered messages over lossy channels

A sender numbers its messages from 0 and repeats each of them until it is answered or
given up. The receiver takes the message it expects next and keeps a record of what it
took until it is told to forget it, or until no copy of the message is left. With
`sync m` the sender makes the receiver expect message `m`.
-/
namespace Cplant
open List
open Relation (ReflTransGen)

inductive Resync.Msg
  | first (k : ℕ)
  | sync (k : ℕ)
  | forget (k : ℕ)
deriving DecidableEq

/-- `held` are the records of the receiver, `taken` the history of what it took. -/
structure Resync where
  issued : ℕ
  pending : List ℕ
  answered : Bool
  forward : List Resync.Msg
  back : List ℕ
  expect : ℕ
  held : List ℕ
  taken : List ℕ

variable {back pending : List ℕ} {forward : List Msg} {x : Msg}

namespace Resync

def Dead (s : Resync) (k : ℕ) : Prop := k ∉ s.pending ∧ .first k ∉ s.forward

def Oldest (s : Resync) (m : ℕ) : Prop := ∀ k ∈ s.pending, m ≤ k

/-- The steps of sender, receiver and channels, where `sync` may name the messages that
meet `may`. -/
inductive Step (may : Resync → ℕ → Prop) (s : Resync) : Resync → Prop
  | issue : Step may s { s with issued := s.issued + 1, pending := s.pending ++ [s.issued] }
  | send {k : ℕ} : k ∈ s.pending → (k = 0 ∨ s.answered) →
      Step may s { s with forward := s.forward ++ [.first k] }
  | sync {m : ℕ} : m ∈ s.pending → may s m →
      Step may s { s with forward := s.forward ++ [.sync m] }
  | giveUp (k : ℕ) : Step may s { s with pending := s.pending.erase k }
  | forget {k : ℕ} : k ∉ s.pending → k < s.issued →
      Step may s { s with forward := s.forward ++ [.forget k] }
  | answer {k : ℕ} {rest : List ℕ} : s.back = k :: rest →
      Step may s { s with back := rest, pending := s.pending.erase k, answered := true }
  | reply {k : ℕ} : k ∈ s.held → Step may s { s with back := s.back ++ [k] }
  | take {k : ℕ} {rest : List Msg} : s.forward = .first k :: rest → k ∉ s.held →
      (k = 0 ∨ s.expect = 0 ∨ k = s.expect) →
      Step may s { s with
        forward := rest, expect := k + 1, held := s.held ++ [k], taken := s.taken ++ [k] }
  | resync {m : ℕ} {rest : List Msg} : s.forward = .sync m :: rest → m ≠ 0 → s.expect ≠ 0 →
      Step may s { s with forward := rest, expect := m }
  | release {k : ℕ} {rest : List Msg} : s.forward = .forget k :: rest →
      Step may s { s with forward := rest, held := s.held.erase k }
  | collect {k : ℕ} : s.Dead k → Step may s { s with held := s.held.erase k }
  | lose {forward : List Msg} {back : List ℕ} : forward.Sublist s.forward →
      back.Sublist s.back → Step may s { s with forward, back }

/-- How two messages in the channel may follow each other: no copy of a message stands
behind the hint to forget it. -/
def AfterForget : Msg → Msg → Prop
  | .forget k, .first j => j ≠ k
  | _, _ => True

def AfterSync (taken : List ℕ) : Msg → Msg → Prop
  | .sync m, .first j => m ≤ j ∨ j ∈ taken
  | _, _ => True

structure Once (s : Resync) : Prop where
  pending : s.pending.Pairwise (· < ·)
  pending_lt : ∀ k ∈ s.pending, k < s.issued
  first_lt : ∀ k, .first k ∈ s.forward → k < s.issued
  sync_lt : ∀ m, .sync m ∈ s.forward → m < s.issued
  forget_lt : ∀ k, .forget k ∈ s.forward → k < s.issued
  forget_done : ∀ k, .forget k ∈ s.forward → k ∉ s.pending
  afterForget : s.forward.Pairwise AfterForget
  held : s.held.Nodup
  once : s.taken.Nodup
  taken_lt : ∀ k ∈ s.taken, k < s.issued
  taken_done : ∀ k ∈ s.taken, k ∈ s.held ∨ s.Dead k
  expect_le : s.expect ≤ s.issued
  expect_ne : 0 ∈ s.taken → s.expect ≠ 0
  taken_zero : ∀ k ∈ s.taken, 0 ∈ s.taken
  answered_zero : s.answered = true → 0 ∈ s.taken
  first_zero : ∀ k, .first k ∈ s.forward → k ≠ 0 → 0 ∈ s.taken
  held_taken : ∀ k ∈ s.held, k ∈ s.taken
  back_taken : ∀ k ∈ s.back, k ∈ s.taken

structure InOrder (s : Resync) : Prop where
  once : s.Once
  sync_oldest : ∀ m, .sync m ∈ s.forward → ∀ k ∈ s.pending, m ≤ k ∨ k ∈ s.taken
  afterSync : s.forward.Pairwise (AfterSync s.taken)
  taken_below : ∀ z ∈ s.taken, ∀ k < z, k ∈ s.taken ∨ s.Dead k
  in_order : s.taken.Pairwise (· < ·)
  expect_below : ∀ k < s.expect, k ∈ s.taken ∨ s.Dead k

variable {s s' : Resync} {k m : ℕ} {may : Resync → ℕ → Prop}

theorem Dead.mono (h : s.Dead k) (hp : s'.pending ⊆ s.pending) (hf : s'.forward ⊆ s.forward) :
    s'.Dead k :=
  ⟨fun hk => h.1 (hp hk), fun hk => h.2 (hf hk)⟩

theorem AfterSync.mono {taken taken' : List ℕ} {y : Msg} (h : AfterSync taken x y)
    (hsub : taken ⊆ taken') : AfterSync taken' x y := by
  cases x <;> cases y <;> simp only [AfterSync] at h ⊢
  exact h.imp_right fun hj => hsub hj

theorem dead_issue (hlt : k < s.issued) (h : s.Dead k) :
    Dead { s with issued := s.issued + 1, pending := s.pending ++ [s.issued] } k := by
  refine ⟨?_, h.2⟩
  rw [mem_append, mem_singleton]
  rintro (hp | rfl)
  · exact h.1 hp
  · exact lt_irrefl _ hlt

theorem dead_send (hk : k ∈ s.pending) {j : ℕ} (h : s.Dead j) :
    Dead { s with forward := s.forward ++ [.first k] } j := by
  refine ⟨h.1, ?_⟩
  rw [mem_append, mem_singleton, Msg.first.injEq]
  rintro (hf | rfl)
  · exact h.2 hf
  · exact h.1 hk

theorem dead_hint (hx : ∀ j, x ≠ .first j) (h : s.Dead k) :
    Dead { s with forward := s.forward ++ [x] } k := by
  refine ⟨h.1, fun hk => ?_⟩
  rcases mem_append.mp hk with hk | hk
  · exact h.2 hk
  · exact hx k (mem_singleton.mp hk).symm

namespace Once

theorem issue (h : s.Once) :
    Once { s with issued := s.issued + 1, pending := s.pending ++ [s.issued] } := by
  have hpend : ∀ k ∈ s.pending ++ [s.issued], k ∈ s.pending ∨ k = s.issued :=
    fun k hk => by simpa using hk
  exact {
    h with
    pending := pairwise_append.mpr ⟨h.pending, pairwise_singleton _ _,
      fun k hk j hj => mem_singleton.mp hj ▸ h.pending_lt k hk⟩
    pending_lt := fun k hk => (hpend k hk).elim
      (fun hk => (h.pending_lt k hk).trans s.issued.lt_succ_self) fun hk => hk ▸ s.issued.lt_succ_self
    first_lt := fun k hk => (h.first_lt k hk).trans s.issued.lt_succ_self
    sync_lt := fun k hk => (h.sync_lt k hk).trans s.issued.lt_succ_self
    forget_lt := fun k hk => (h.forget_lt k hk).trans s.issued.lt_succ_self
    forget_done := fun k hk hp => (hpend k hp).elim (h.forget_done k hk)
      fun he => (h.forget_lt k hk).ne he
    taken_lt := fun k hk => (h.taken_lt k hk).trans s.issued.lt_succ_self
    taken_done := fun k hk => (h.taken_done k hk).imp_right (dead_issue (h.taken_lt k hk))
    expect_le := h.expect_le.trans s.issued.le_succ }

theorem shrink (h : s.Once)
    (hp : pending.Sublist s.pending) (hf : forward.Sublist s.forward) (hb : back.Sublist s.back) :
    Once { s with pending, forward, back } :=
  { h with
    pending := h.pending.sublist hp
    pending_lt := fun k hk => h.pending_lt k (hp.subset hk)
    first_lt := fun k hk => h.first_lt k (hf.subset hk)
    sync_lt := fun k hk => h.sync_lt k (hf.subset hk)
    forget_lt := fun k hk => h.forget_lt k (hf.subset hk)
    forget_done := fun k hk hk' => h.forget_done k (hf.subset hk) (hp.subset hk')
    afterForget := h.afterForget.sublist hf
    taken_done := fun k hk => (h.taken_done k hk).imp_right fun hd => hd.mono hp.subset hf.subset
    first_zero := fun k hk => h.first_zero k (hf.subset hk)
    back_taken := fun k hk => h.back_taken k (hb.subset hk) }

variable {rest : List Msg}

section
variable (h : s.Once)
include h

theorem pop (hf : s.forward = x :: rest) : Once { s with forward := rest } :=
  h.shrink (Sublist.refl _) (hf ▸ sublist_cons_self x rest) (Sublist.refl _)

theorem send (hk : k ∈ s.pending) (hz : k = 0 ∨ s.answered = true) :
    Once { s with forward := s.forward ++ [.first k] } := by
  have hmem : ∀ x ∈ s.forward ++ [.first k], x ∈ s.forward ∨ x = .first k :=
    fun x hx => by simpa using hx
  exact {
    h with
    first_lt := fun j hj => (hmem _ hj).elim (h.first_lt j)
      fun he => Msg.first.inj he ▸ h.pending_lt k hk
    sync_lt := fun m hm => h.sync_lt m ((hmem _ hm).resolve_right nofun)
    forget_lt := fun m hm => h.forget_lt m ((hmem _ hm).resolve_right nofun)
    forget_done := fun m hm => h.forget_done m ((hmem _ hm).resolve_right nofun)
    afterForget := by
      refine pairwise_append.mpr ⟨h.afterForget, pairwise_singleton _ _, ?_⟩
      intro x hx y hy
      rw [mem_singleton.mp hy]
      cases x with
      | first j => trivial
      | sync m => trivial
      | forget j => exact fun he => h.forget_done j hx (he ▸ hk)
    taken_done := fun j hj => (h.taken_done j hj).imp_right (dead_send hk)
    first_zero := fun j hj hne => (hmem _ hj).elim (fun hj => h.first_zero j hj hne) fun he =>
      h.answered_zero (hz.resolve_left (Msg.first.inj he ▸ hne)) }

theorem hint (hx : ∀ j, x ≠ .first j) (hs : ∀ m, x = .sync m → m < s.issued)
    (hg : ∀ k, x = .forget k → k < s.issued ∧ k ∉ s.pending) :
    Once { s with forward := s.forward ++ [x] } := by
  have hmem : ∀ y ∈ s.forward ++ [x], y ∈ s.forward ∨ y = x := fun y hy => by simpa using hy
  have hfirst : ∀ j, .first j ∈ s.forward ++ [x] → .first j ∈ s.forward :=
    fun j hj => (hmem _ hj).resolve_right fun he => hx j he.symm
  exact {
    h with
    first_lt := fun j hj => h.first_lt j (hfirst j hj)
    sync_lt := fun m hm => (hmem _ hm).elim (h.sync_lt m) fun he => hs m he.symm
    forget_lt := fun m hm => (hmem _ hm).elim (h.forget_lt m) fun he => (hg m he.symm).1
    forget_done := fun m hm => (hmem _ hm).elim (h.forget_done m) fun he => (hg m he.symm).2
    afterForget := by
      refine pairwise_append.mpr ⟨h.afterForget, pairwise_singleton _ _, ?_⟩
      intro y _ z hz
      rw [mem_singleton.mp hz]
      cases x with
      | first j => exact absurd rfl (hx j)
      | sync m => cases y <;> trivial
      | forget m => cases y <;> trivial
    taken_done := fun j hj => (h.taken_done j hj).imp_right (dead_hint hx)
    first_zero := fun j hj => h.first_zero j (hfirst j hj) }

theorem not_taken (hf : .first k ∈ s.forward) (hk : k ∉ s.held) : k ∉ s.taken :=
  fun ht => (h.taken_done k ht).elim hk fun hd => hd.2 hf

theorem take (hf : s.forward = .first k :: rest) (hk : k ∉ s.held) : Once { s with
      forward := rest, expect := k + 1, held := s.held ++ [k], taken := s.taken ++ [k] } := by
  have hmem : .first k ∈ s.forward := hf ▸ mem_cons_self
  have hnew := h.not_taken hmem hk
  have hp := h.pop hf
  have hsub : s.taken ⊆ s.taken ++ [k] := subset_append_left _ _
  have hself : k ∈ s.taken ++ [k] := mem_append_right _ (mem_singleton_self k)
  have hcases : ∀ z ∈ s.taken ++ [k], z ∈ s.taken ∨ z = k := fun z hz => by simpa using hz
  have hzero : 0 ∈ s.taken ++ [k] := by
    by_cases hk0 : k = 0
    · exact hk0 ▸ hself
    · exact hsub (h.first_zero k hmem hk0)
  have hfresh : ∀ l : List ℕ, l.Nodup → k ∉ l → (l ++ [k]).Nodup := fun l hl hkl =>
    nodup_append.mpr ⟨hl, nodup_singleton k, fun a ha b hb => by
      rw [mem_singleton.mp hb]; exact fun he => hkl (he ▸ ha)⟩
  exact {
    hp with
    held := hfresh _ h.held hk
    once := hfresh _ h.once hnew
    taken_lt := fun z hz => (hcases z hz).elim (h.taken_lt z) fun he => he ▸ h.first_lt k hmem
    taken_done := fun z hz => (hcases z hz).elim
      (fun hz => (hp.taken_done z hz).imp_left fun hz => mem_append_left _ hz)
      fun he => .inl (mem_append_right _ (mem_singleton.mpr he))
    expect_le := h.first_lt k hmem
    expect_ne := fun _ => k.succ_ne_zero
    taken_zero := fun _ _ => hzero
    answered_zero := fun _ => hzero
    first_zero := fun _ _ _ => hzero
    held_taken := fun z hz => (mem_append.mp hz).elim (fun hz => hsub (h.held_taken z hz))
      fun hz => mem_singleton.mp hz ▸ hself
    back_taken := fun z hz => hsub (h.back_taken z hz) }

theorem collect (hk : s.Dead k) : Once { s with held := s.held.erase k } :=
  { h with
    held := h.held.erase k
    taken_done := fun z hz => by
      by_cases hzk : z = k
      · exact .inr (hzk ▸ hk)
      · exact (h.taken_done z hz).imp_left fun hz => (mem_erase_of_ne hzk).mpr hz
    held_taken := fun z hz => h.held_taken z (mem_of_mem_erase hz) }

theorem forgotten (hf : s.forward = .forget k :: rest) : Dead { s with forward := rest } k := by
  have hafter := (pairwise_cons.mp (hf ▸ h.afterForget)).1
  exact ⟨h.forget_done k (hf ▸ mem_cons_self), fun hr => hafter _ hr rfl⟩

theorem step (hs : Step may s s') : s'.Once := by
  cases hs with
  | issue => exact h.issue
  | send hk hz => exact h.send hk hz
  | sync hm _ => exact h.hint nofun (fun _ he => Msg.sync.inj he ▸ h.pending_lt _ hm) nofun
  | giveUp k => exact h.shrink erase_sublist (.refl _) (.refl _)
  | forget hk hlt => exact h.hint nofun nofun fun _ he => Msg.forget.inj he ▸ ⟨hlt, hk⟩
  | @answer k rest hb =>
    have hs := h.shrink (erase_sublist (a := k)) (.refl _) (hb ▸ sublist_cons_self k rest)
    have ht := h.back_taken k (hb ▸ mem_cons_self)
    exact { hs with answered_zero := fun _ => h.taken_zero k ht }
  | @reply k hk =>
    refine { h with back_taken := fun j hj => ?_ }
    rcases mem_append.mp hj with hj | hj
    · exact h.back_taken j hj
    · rw [mem_singleton.mp hj]
      exact h.held_taken k hk
  | take hf hk _ => exact h.take hf hk
  | @resync m rest hf hm _ =>
    exact { h.pop hf with
      expect_le := (h.sync_lt m (hf ▸ mem_cons_self)).le
      expect_ne := fun _ => hm }
  | release hf => exact (h.pop hf).collect (h.forgotten hf)
  | collect hk => exact h.collect hk
  | lose hf hb => exact h.shrink (.refl _) hf hb

end
end Once

namespace InOrder

theorem shrink (h : s.InOrder)
    (hp : pending.Sublist s.pending) (hf : forward.Sublist s.forward) (hb : back.Sublist s.back) :
    InOrder { s with pending, forward, back } where
  once := h.once.shrink hp hf hb
  sync_oldest := fun m hm k hk => h.sync_oldest m (hf.subset hm) k (hp.subset hk)
  afterSync := h.afterSync.sublist hf
  taken_below := fun z hz k hk =>
    (h.taken_below z hz k hk).imp_right fun hd => hd.mono hp.subset hf.subset
  in_order := h.in_order
  expect_below := fun k hk => (h.expect_below k hk).imp_right fun hd => hd.mono hp.subset hf.subset

variable {rest : List Msg}

section
variable (h : s.InOrder)
include h

theorem pop (hf : s.forward = x :: rest) : InOrder { s with forward := rest } :=
  h.shrink (Sublist.refl _) (hf ▸ sublist_cons_self x rest) (Sublist.refl _)

theorem issue : InOrder { s with issued := s.issued + 1, pending := s.pending ++ [s.issued] } where
  once := h.once.issue
  sync_oldest := fun m hm k hk => by
    rcases mem_append.mp hk with hk | hk
    · exact h.sync_oldest m hm k hk
    · exact .inl (mem_singleton.mp hk ▸ (h.once.sync_lt m hm).le)
  afterSync := h.afterSync
  taken_below := fun z hz k hk =>
    (h.taken_below z hz k hk).imp_right (dead_issue (hk.trans (h.once.taken_lt z hz)))
  in_order := h.in_order
  expect_below := fun k hk =>
    (h.expect_below k hk).imp_right (dead_issue (hk.trans_le h.once.expect_le))

theorem send (hk : k ∈ s.pending) (hz : k = 0 ∨ s.answered = true) :
    InOrder { s with forward := s.forward ++ [.first k] } where
  once := h.once.send hk hz
  sync_oldest := fun m hm => h.sync_oldest m (by simpa using hm)
  afterSync := by
    refine pairwise_append.mpr ⟨h.afterSync, pairwise_singleton _ _, ?_⟩
    intro x hx y hy
    rw [mem_singleton.mp hy]
    cases x with
    | first j => trivial
    | sync m => exact h.sync_oldest m hx k hk
    | forget j => trivial
  taken_below := fun z hz j hj => (h.taken_below z hz j hj).imp_right (dead_send hk)
  in_order := h.in_order
  expect_below := fun j hj => (h.expect_below j hj).imp_right (dead_send hk)

theorem hint (hx : ∀ j, x ≠ .first j) (ho : Once { s with forward := s.forward ++ [x] })
    (hs : ∀ m, x = .sync m → s.Oldest m) : InOrder { s with forward := s.forward ++ [x] } where
  once := ho
  sync_oldest := fun m hm k hk => by
    rcases mem_append.mp hm with hm | hm
    · exact h.sync_oldest m hm k hk
    · exact .inl (hs m (mem_singleton.mp hm).symm k hk)
  afterSync := by
    refine pairwise_append.mpr ⟨h.afterSync, pairwise_singleton _ _, ?_⟩
    intro y _ z hz
    rw [mem_singleton.mp hz]
    cases x with
    | first j => exact absurd rfl (hx j)
    | sync m => cases y <;> trivial
    | forget m => cases y <;> trivial
  taken_below := fun z hz j hj => (h.taken_below z hz j hj).imp_right (dead_hint hx)
  in_order := h.in_order
  expect_below := fun j hj => (h.expect_below j hj).imp_right (dead_hint hx)

theorem lt_of_delivered (hf : .first k ∈ s.forward) (hk : k ∉ s.held) : ∀ z ∈ s.taken, z < k := by
  intro z hz
  have hnew := h.once.not_taken hf hk
  rcases lt_trichotomy z k with hlt | rfl | hgt
  · exact hlt
  · exact absurd hz hnew
  · exact ((h.taken_below z hz k hgt).elim hnew fun hd => hd.2 hf).elim

theorem take (hf : s.forward = .first k :: rest) (hk : k ∉ s.held)
    (hnext : k = 0 ∨ s.expect = 0 ∨ k = s.expect) : InOrder { s with
      forward := rest, expect := k + 1, held := s.held ++ [k], taken := s.taken ++ [k] } := by
  have hmem : .first k ∈ s.forward := hf ▸ mem_cons_self
  have hp := h.pop hf
  have hsub : s.taken ⊆ s.taken ++ [k] := subset_append_left _ _
  have hself : k ∈ s.taken ++ [k] := mem_append_right _ (mem_singleton_self k)
  -- whatever comes before `k` was taken or will never come
  have hbelow : ∀ j < k, j ∈ s.taken ∨ Dead { s with forward := rest } j := by
    intro j hj
    have hk0 : k ≠ 0 := (Nat.zero_le j).trans_lt hj |>.ne'
    have hne := h.once.expect_ne (h.once.first_zero k hmem hk0)
    obtain rfl := (hnext.resolve_left hk0).resolve_left hne
    exact hp.expect_below j hj
  exact {
    once := h.once.take hf hk
    sync_oldest := fun m hm j hj => (hp.sync_oldest m hm j hj).imp_right fun hj => hsub hj
    afterSync := hp.afterSync.imp fun ho => ho.mono hsub
    taken_below := fun z hz j hj => by
      rcases mem_append.mp hz with hz | hz
      · exact (hp.taken_below z hz j hj).imp_left fun hj => hsub hj
      · exact (hbelow j (mem_singleton.mp hz ▸ hj)).imp_left fun hj => hsub hj
    in_order := pairwise_append.mpr ⟨h.in_order, pairwise_singleton _ _,
      fun z hz y hy => mem_singleton.mp hy ▸ h.lt_of_delivered hmem hk z hz⟩
    expect_below := fun j hj => (Nat.lt_succ_iff_lt_or_eq.mp hj).elim
      (fun hj => (hbelow j hj).imp_left fun hj => hsub hj) fun he => .inl (he ▸ hself) }

theorem resync (hf : s.forward = .sync m :: rest)
    (ho : Once { s with forward := rest, expect := m }) :
    InOrder { s with forward := rest, expect := m } := by
  have hmem : .sync m ∈ s.forward := hf ▸ mem_cons_self
  have hafter := (pairwise_cons.mp (hf ▸ h.afterSync)).1
  refine { h.pop hf with once := ho, expect_below := fun k hk => ?_ }
  by_cases ht : k ∈ s.taken
  · exact .inl ht
  · refine .inr ⟨fun hp => ?_, fun hr => ?_⟩
    · exact (h.sync_oldest m hmem k hp).elim (fun hle => hk.not_ge hle) ht
    · exact (hafter _ hr).elim (fun hle => hk.not_ge hle) ht

theorem step (hs : Step Oldest s s') : s'.InOrder := by
  have ho := h.once.step hs
  cases hs with
  | issue => exact h.issue
  | send hk hz => exact h.send hk hz
  | sync hm hold => exact h.hint nofun ho fun _ he => Msg.sync.inj he ▸ hold
  | giveUp k => exact h.shrink erase_sublist (.refl _) (.refl _)
  | forget hk hlt => exact h.hint nofun ho nofun
  | @answer k rest hb =>
    have hs := h.shrink (erase_sublist (a := k)) (.refl _) (hb ▸ sublist_cons_self k rest)
    exact { hs with once := ho }
  | reply hk | collect hk => exact { h with once := ho }
  | take hf hk hnext => exact h.take hf hk hnext
  | resync hf hm _ => exact h.resync hf ho
  | release hf => exact { h.pop hf with once := ho }
  | lose hf hb => exact h.shrink (.refl _) hf hb

end
end InOrder

/-- Some steps lead from `s` to a state with `P`. -/
abbrev Leads (may : Resync → ℕ → Prop) (s : Resync) (P : Resync → Prop) : Prop :=
  ∃ s', ReflTransGen (Step may) s s' ∧ P s'

theorem Once.steps (h : s.Once) (hs : ReflTransGen (Step may) s s') : s'.Once := by
  induction hs with
  | refl => exact h
  | tail _ hs ih => exact ih.step hs

theorem InOrder.steps (h : s.InOrder) (hs : ReflTransGen (Step Oldest) s s') : s'.InOrder := by
  induction hs with
  | refl => exact h
  | tail _ hs ih => exact ih.step hs

theorem replies (hk : k ∈ s.held) (count : ℕ) :
    ReflTransGen (Step may) s { s with back := s.back ++ replicate count k } := by
  induction count with
  | zero => simpa using ReflTransGen.refl
  | succ count ih =>
    refine ih.tail ?_
    rw [replicate_succ', ← append_assoc]
    exact .reply hk

def start : Resync where
  issued := 0
  pending := []
  answered := false
  forward := []
  back := []
  expect := 0
  held := []
  taken := []

theorem start_once : start.Once := by constructor <;> simp [start]

theorem start_inOrder : start.InOrder := by
  refine ⟨start_once, ?_, ?_, ?_, ?_, ?_⟩ <;> simp [start]

end Resync
end Cplant
