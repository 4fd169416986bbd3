import Cplant.Portals.AutoUnlink
import Cplant.Portals.Retry

/-!
# The life of a descriptor

From its creation on, a descriptor that nobody updates or unlinks counts its operations
down, and the completion that finds it exhausted and idle takes it away.
-/
namespace Cplant.Portals
open Option Finset LibNi

def Call.Touches (ni : LibNi) (d : ℕ) : Call → Prop
  | .mdUpdate mdIn _ _ _ _ => handleIndex mdIn = d
  | c => c.Unlinks ni d

variable {ni : LibNi} {d i : ℕ} {o : Outcome} {r : NalReply}

theorem Call.Unlinks.touches {c : Call} (h : c.Unlinks ni d) : c.Touches ni d := by
  cases c with
  | mdUpdate => exact h.elim
  | _ => exact h

/-- The runs in which descriptor `d` is created as `md₀` and then only used, with the number of
operations that it has accepted. -/
inductive Life (ok : LibNi → Call → Prop) (d : ℕ) (md₀ : LibMd) : ℕ → LibNi → Prop
  | born {ni : LibNi} {c : Call} {r : NalReply} {o : Outcome} (h : Reachable ok ni)
      (hen : Enabled ni c) (hok : ok ni c) (hs : step ni r c = some o) (hdead : ¬ LiveMd ni d)
      (hlive : LiveMd o.ni d) (hmd : o.ni.md d = md₀) : Life ok d md₀ 0 o.ni
  | step {k : ℕ} {ni : LibNi} {c : Call} {r : NalReply} {o : Outcome} (h : Life ok d md₀ k ni)
      (hlive : LiveMd ni d) (hen : Enabled ni c) (hok : ok ni c) (huse : ¬ c.Touches ni d)
      (hs : step ni r c = some o) :
      Life ok d md₀ (k + (msgsOn o.ni d \ msgsOn ni d).card) o.ni

/-- The next call takes the descriptor away if it completes the last operation on it and the
descriptor is inactive, and the match entry too if that is to go and holds nothing else. -/
def UnlinksWhenDone (d : ℕ) (ni : LibNi) : Prop :=
  ∀ (c : Call) (r : NalReply) (o : Outcome), Enabled ni c → ¬ c.Touches ni d → r.write = 0 →
    step ni r c = some o →
    (¬ LiveMd o.ni d ↔
      ∃ i, c = .finalize (some i) ∧ msgsOn ni d = {i} ∧ Inactive (ni.md d)) ∧
    (¬ LiveMd o.ni d → ∀ m, (ni.md d).me = some m →
      (¬ LiveMe o.ni m ↔ (ni.me m).unlink = .unlink ∧
        ∀ d', LiveMd ni d' → (ni.md d').me = some m → d' = d))

def UnlinksIdleAndRoomy (ni : LibNi) (c : Call) : Prop :=
  UnlinksIdle ni c ∧ ∀ hdr, c = .parse hdr → hdr.request ≠ none → MsgAvailable ni

theorem Life.reachable {ok : LibNi → Call → Prop} {k : ℕ} {md₀ : LibMd} (h : Life ok d md₀ k ni) :
    Reachable ok ni := by
  induction h with
  | born h hen hok hs => exact h.step hen hok hs
  | step h hlive hen hok huse hs ih => exact ih.step hen hok hs

theorem libFinalize_releases (hup : ni.up = true)
    (hr : r.write = 0) (hmd : (ni.msg i).md = some d) (hs : libFinalize ni (some i) r = some o) :
    ∃ ni' calls, releaseMd (ni.posted i d) d = some (ni', calls) ∧ o.ni = libMsgFree ni' i := by
  rcases libFinalize_ends hs with ⟨hdown, -⟩ | ⟨-, d', hd', ⟨e, -, hw, -⟩ | ⟨-, calls, -, hf⟩⟩
  · simp [hup] at hdown
  · exact absurd hr hw
  · cases hmd.symm.trans hd'
    obtain ⟨⟨ni', unlinks⟩, hrel, ho⟩ := bind_eq_some_iff.mp hf
    cases ho
    exact ⟨ni', unlinks, hrel, rfl⟩

theorem libFinalize_of_stays (hup : ni.up = true) (hmd : (ni.msg i).md = some d)
    (heq : (ni.md d).eq = none) (hstay : ¬ ((ni.md d).pending - 1 = 0 ∧ (ni.md d).doUnlink = true))
    (r : NalReply) : ∃ o, libFinalize ni (some i) r = some o ∧ (LiveMd o.ni d ↔ LiveMd ni d) := by
  have hrel : releaseMd ni d = some (ni.unhold d, []) := by
    simp only [releaseMd, setMd, Function.update_self]
    rw [if_neg hstay]
  simp only [libFinalize, hup, hmd, heq, finishMsg, hrel, bind_eq_bind, bind_some]
  exact ⟨_, rfl, Iff.rfl⟩

theorem releaseMd_liveMe {ni' : LibNi} {m : ℕ} {calls : List NalCall} (hw : Wf ni)
    (hd : LiveMd ni d) (hdone : (ni.md d).pending - 1 = 0 ∧ (ni.md d).doUnlink = true)
    (hm : (ni.md d).me = some m) (hr : releaseMd ni d = some (ni', calls)) :
    ¬ LiveMe ni' m ↔ (ni.me m).unlink = .unlink ∧
      ∀ d', LiveMd ni d' → (ni.md d').me = some m → d' = d := by
  have hset : Wf (ni.unhold d) := hw.of_setMd rfl
  obtain ⟨hwu, hliveu⟩ := hset.libMdUnlink (d := d) hd
  have hlive : LiveMe ni m := (hw.mdLinked.head_of_own hd hm).1
  have hempty : (libMdUnlink (ni.unhold d) d).mdLinks.head m = none ↔
      ∀ d', LiveMd ni d' → (ni.md d').me = some m → d' = d := by
    constructor
    · intro hnone d' hd' hown
      by_contra hne
      have hl := (hliveu d').mpr ⟨hd', hne⟩
      have hme : ((libMdUnlink (ni.unhold d) d).md d').me = some m := by
        simpa [libMdUnlink, setMd, hne] using hown
      exact (hwu.mdLinked.head_of_own hl hme).2 hnone
    · intro hall
      by_contra hsome
      obtain ⟨d', hhead⟩ := ne_none_iff_exists'.mp hsome
      obtain ⟨hl, hme⟩ := hwu.mdLinked.own_of_head hlive hhead
      obtain ⟨hd', hne⟩ := (hliveu d').mp hl
      refine hne (hall d' hd' ?_)
      simpa [libMdUnlink, setMd, hne] using hme
  rw [← hempty, and_comm]
  cases releaseMd_spec hr with
  | kept h => exact absurd (by simpa [setMd] using hdone) h
  | unlinked _ hlast =>
    exact iff_of_false (fun hn => hn hlive) (hlast m (by simpa [setMd] using hm))
  | emptied _ hm' hlast hun =>
    obtain rfl : _ = m := some.inj (hm'.symm.trans (by simpa [setMd] using hm))
    obtain ⟨mid, hloop, rfl⟩ := libMeUnlink_spec hun
    simp only [maxMds, libMeUnlinkMds, hlast.1, some.injEq, Prod.mk.injEq] at hloop
    obtain ⟨rfl, -⟩ := hloop
    refine iff_of_true (fun hl => ?_) hlast
    exact ((FreeList.release_live hw.mePool hlive.1 hlive.2 _).mp hl).2 rfl

structure Accounts (md₀ : LibMd) (k : ℕ) (md : LibMd) : Prop where
  threshold : md.threshold.toInt = md₀.threshold.toInt - k
  unlink : md.unlink = md₀.unlink
  mark : md₀.unlink = .unlink → (md.doUnlink = true ↔ Inactive md)

theorem heldMd_threshold {md : LibMd} (hpos : 0 < md.threshold.toInt) (checkOffset : Bool) :
    (heldMd md checkOffset).threshold.toInt = md.threshold.toInt - 1 := by
  have hinf : md.threshold ≠ ptlMdThreshInf := by
    rintro h
    rw [h] at hpos
    cases hpos
  have hone : (1 : Int32).toInt = 1 := rfl
  have hlt := md.threshold.toInt_lt
  simp only [heldMd, if_neg hinf]
  rw [toInt_sub_of_range (by omega) (by omega)]
  omega

namespace Accounts
variable {md₀ md : LibMd} {k : ℕ}

theorem active_pos (h : Accounts md₀ k md) (hle : (k : ℤ) ≤ md₀.threshold.toInt)
    (hactive : md.threshold ≠ 0) : 0 < md.threshold.toInt := by
  have hne : md.threshold.toInt ≠ 0 := fun hz => hactive (Int32.toInt_inj.mp hz)
  have ht := h.threshold
  omega

theorem used (h : Accounts md₀ k md) (hpos : 0 < md.threshold.toInt) :
    Accounts md₀ (k + 1) (heldMd md false) := by
  refine ⟨?_, h.unlink, fun hu => ?_⟩
  · rw [heldMd_threshold hpos, h.threshold]
    omega
  · have hactive : md.threshold ≠ 0 := fun hz => by simp [hz] at hpos
    have hold : md.doUnlink = true ↔ managedRemote md = false ∧ md.maxOffset < md.offset := by
      rw [h.mark hu, Inactive, or_iff_right hactive]
    rw [heldMd_doUnlink, hold, h.unlink, hu]
    simp only [true_and, Bool.false_eq_true, false_and, or_false]
    exact or_comm

theorem requested (h : Accounts md₀ k md) (hpos : 0 < md.threshold.toInt)
    (hmark : md₀.unlink = .unlink → md.doUnlink = false) (length : PtlSize) :
    Accounts md₀ (k + 1) (heldMd (chargedMd md length) true) := by
  have hpos' : 0 < (chargedMd md length).threshold.toInt := hpos
  refine ⟨?_, h.unlink, fun hu => ?_⟩
  · rw [heldMd_threshold hpos', show (chargedMd md length).threshold = md.threshold from rfl,
      h.threshold]
    omega
  · have hu' : (chargedMd md length).unlink = .unlink := h.unlink.trans hu
    have hmark' : (chargedMd md length).doUnlink = false := hmark hu
    rw [heldMd_doUnlink, hu', hmark']
    simp only [Bool.false_eq_true, false_or, true_and]
    exact Iff.rfl

end Accounts

variable {d k : ℕ} {md₀ : LibMd} {ni ni' : LibNi} {c : Call}

def Counted (d : ℕ) (md₀ : LibMd) (k : ℕ) (ni : LibNi) : Prop :=
  (k : ℤ) ≤ md₀.threshold.toInt ∧ (LiveMd ni d → Accounts md₀ k (ni.md d))

theorem Counted.of_fate (h : Counted d md₀ k ni) (hw : Wf ni) (hlive : LiveMd ni d)
    (hok : UnlinksIdleAndRoomy ni c) (huse : ¬ c.Touches ni d) (hf : Fate ni c ni' d) :
    Counted d md₀ (k + (msgsOn ni' d \ msgsOn ni d).card) ni' := by
  obtain ⟨hle, hacc⟩ := h
  have ha := hacc hlive
  cases hf with
  | kept hiff hmsgs hmd =>
    rw [hmsgs, Finset.sdiff_self, Finset.card_empty, Nat.add_zero]
    exact ⟨hle, fun _ => hmd ▸ ha⟩
  | born key u me hdead => exact absurd hlive hdead
  | updated key hc hidx =>
    subst hc
    exact absurd hidx huse
  | charged hc hreq hfound hidx hfull =>
    have hroom := hok.2 _ hc (by simp [hreq])
    exact absurd hfull hroom
  | @requested hdr req found i hc hreq hfound hidx hnew _ hlive' hmsgs hmd =>
    subst hidx
    have hinactive := hw.found_not_inactive hfound
    have hpos := ha.active_pos hle fun hz => hinactive (.inl hz)
    have ht := ha.threshold
    rw [hmsgs, Finset.insert_sdiff_of_notMem _ hnew, Finset.sdiff_self, insert_empty_eq,
      card_singleton, Counted, hmd]
    refine ⟨by omega, fun _ => ha.requested hpos (fun hu => ?_) _⟩
    exact Bool.eq_false_iff.mpr fun hmark => hinactive ((ha.mark hu).mp hmark)
  | @used i hown hnew _ hlive' hmsgs hactive hmd =>
    have hpos := ha.active_pos hle hactive
    have ht := ha.threshold
    rw [hmsgs, Finset.insert_sdiff_of_notMem _ hnew, Finset.sdiff_self, insert_empty_eq,
      card_singleton, Counted, hmd]
    exact ⟨by omega, fun _ => ha.used hpos⟩
  | completed hc hi hiff hmsgs hstay hmd =>
    rw [hmsgs, sdiff_eq_empty_iff_subset.mpr (erase_subset _ _), card_empty,
      Nat.add_zero, Counted, hmd]
    exact ⟨hle, fun _ => ⟨ha.threshold, ha.unlink, ha.mark⟩⟩
  | released hc hi hdead hmsgs hidle hmark hmd =>
    rw [hmsgs, sdiff_eq_empty_iff_subset.mpr (erase_subset _ _), card_empty, Nat.add_zero]
    exact ⟨hle, fun hl => absurd hl hdead⟩
  | unlinked hc => exact absurd hc.touches huse

theorem Counted.of_birth (hf : Fate ni c ni' d) (hdead : ¬ LiveMd ni d) (hlive : LiveMd ni' d)
    (hn : 0 < (ni'.md d).threshold.toInt)
    (hmax : managedRemote (ni'.md d) = true ∨ 0 ≤ (ni'.md d).maxOffset) :
    Counted d (ni'.md d) 0 ni' := by
  have hborn : (ni'.md d).doUnlink = false ∧ (ni'.md d).offset = 0 := by
    cases hf with
    | kept hiff | completed hc hi hiff => exact absurd (hiff.mp hlive) hdead
    | born key u me _ _ hmsgs heq hmd =>
      rw [hmd]
      exact ⟨rfl, rfl⟩
    | updated key hc hidx hl => exact absurd hl hdead
    | charged hc hreq hfound hidx hfull hl => exact absurd hl hdead
    | requested hc hreq hfound hidx hnew hl => exact absurd hl hdead
    | used hown hnew hl => exact absurd hl hdead
    | released hc hi hl => exact absurd hlive hl
    | unlinked hc hl => exact absurd hl hdead
  have hactive : ¬ Inactive (ni'.md d) := by
    rintro (hz | ⟨hlocal, hlt⟩)
    · simp [hz] at hn
    · rw [hborn.2] at hlt
      rcases hmax with hremote | hle
      · simp [hremote] at hlocal
      · exact absurd hle (Int32.not_le.mpr hlt)
  refine ⟨by omega, fun _ => ⟨by simp, rfl, fun _ => ?_⟩⟩
  simp [hborn.1, hactive]

theorem Life.counted (h : Life UnlinksIdleAndRoomy d md₀ k ni) (hn : 0 < md₀.threshold.toInt)
    (hmax : managedRemote md₀ = true ∨ 0 ≤ md₀.maxOffset) : Counted d md₀ k ni := by
  induction h with
  | born h hen hok hs hdead hlive hmd =>
    subst hmd
    exact .of_birth ((step_action hs).fate h.wf hen d) hdead hlive hn hmax
  | step h hlive hen hok huse hs ih =>
    have hw := h.reachable.wf
    exact ih.of_fate hw hlive hok huse ((step_action hs).fate hw hen d)

theorem finalize_last (hw : Wf ni) (hup : ni.up = true)
    (hlive : LiveMd ni d) (hmd : (ni.msg i).md = some d)
    (hdone : (ni.md d).pending - 1 = 0 ∧ (ni.md d).doUnlink = true) (hr : r.write = 0)
    (hs : libFinalize ni (some i) r = some o) : ¬ LiveMd o.ni d ∧ ∀ m, (ni.md d).me = some m →
      (¬ LiveMe o.ni m ↔ (ni.me m).unlink = .unlink ∧
        ∀ d', LiveMd ni d' → (ni.md d').me = some m → d' = d) := by
  obtain ⟨ni', calls, hrel, ho⟩ := libFinalize_releases hup hr hmd hs
  have hquiet := posted_quiet ni i d
  have hwp := hw.of_quiet hquiet
  have hlivep : LiveMd (ni.posted i d) d := by simpa [LiveMd, hquiet.mdPool] using hlive
  rw [← hquiet.md] at hdone
  rw [ho]
  constructor
  · rcases releaseMd_cases hwp hlive.1 hrel with ⟨hstay, -⟩ | ⟨-, -, hiff, -⟩
    · exact absurd hdone hstay
    · exact fun hl => ((hiff d).mp hl).2 rfl
  · intro m hm
    have hme := releaseMd_liveMe hwp hlivep hdone (hquiet.md ▸ hm) hrel
    simpa [LiveMd, LiveMe, libMsgFree, hquiet.md, hquiet.me, hquiet.mdPool] using hme

theorem Counted.unlinksWhenDone (h : Counted d md₀ k ni) (hr : Reachable UnlinksIdle ni)
    (hlive : LiveMd ni d) (hu : md₀.unlink = .unlink) : UnlinksWhenDone d ni := by
  intro c r o hen huse hwrite hs
  have hmsgs := hr.msgsAccounted fun _ _ hok => hok
  have hmark := (h.2 hlive).mark hu
  have hgone : ¬ LiveMd o.ni d →
      ∃ i, c = .finalize (some i) ∧ msgsOn ni d = {i} ∧ Inactive (ni.md d) := by
    intro hdead
    have hf := (step_action hs).fate hr.wf hen d
    obtain ⟨i, hc, hi, hidle, hdo⟩ := hf.finalize_of_dead hlive hdead fun hc => huse hc.touches
    exact ⟨i, hc, (hmsgs.last_iff hlive hi).mp hidle, hmark.mp hdo⟩
  have hlast : ∀ i, c = .finalize (some i) → msgsOn ni d = {i} → Inactive (ni.md d) →
      ¬ LiveMd o.ni d ∧ ∀ m, (ni.md d).me = some m → (¬ LiveMe o.ni m ↔ (ni.me m).unlink = .unlink ∧
          ∀ d', LiveMd ni d' → (ni.md d').me = some m → d' = d) := by
    rintro i rfl hset hinactive
    have hi : i ∈ msgsOn ni d := by simp [hset]
    exact finalize_last hr.wf hr.up hlive (mem_msgsOn.mp hi).2
      ⟨(hmsgs.last_iff hlive hi).mpr hset, hmark.mpr hinactive⟩ hwrite hs
  refine ⟨⟨hgone, fun ⟨i, hc, hset, hinactive⟩ => (hlast i hc hset hinactive).1⟩, fun hdead => ?_⟩
  obtain ⟨i, hc, hset, hinactive⟩ := hgone hdead
  exact (hlast i hc hset hinactive).2

theorem life_accounts (h : Life UnlinksIdleAndRoomy d md₀ k ni) (hn : 0 < md₀.threshold.toInt)
    (hmax : managedRemote md₀ = true ∨ 0 ≤ md₀.maxOffset) : (k : ℤ) ≤ md₀.threshold.toInt ∧
      (LiveMd ni d → (ni.md d).threshold.toInt = md₀.threshold.toInt - k ∧
        (md₀.unlink = .unlink → UnlinksWhenDone d ni)) := by
  have hc := h.counted hn hmax
  have hr : Reachable UnlinksIdle ni := h.reachable.mono fun _ _ hok => hok.1
  exact ⟨hc.1, fun hlive => ⟨(hc.2 hlive).threshold, fun hu => hc.unlinksWhenDone hr hlive hu⟩⟩

def limitedMd : PtlMd := ⟨0, 10, 5, 0, ptlMdOpPut, 0, ptlEqNone⟩

def limitedNi : LibNi :=
  let ni := ((step freshNi okReply (.mdBind 0 plainMd)).map Outcome.ni).getD freshNi
  let ni := ((step ni okReply attachMe).map Outcome.ni).getD freshNi
  ((step ni okReply (.mdAttach 4095 limitedMd .unlink)).map Outcome.ni).getD freshNi

theorem limitedNi_life (ok : LibNi → Call → Prop)
    (hok : ∀ ni c, UnlinksIdleAndRoomy ni c → ok ni c) :
    Life ok 4094 (limitedNi.md 4094) 0 limitedNi := by
  have h0 : Reachable ok freshNi := .init ..
  have h1 := h0.step (c := .mdBind 0 plainMd) (r := okReply) trivial (hok _ _ ⟨trivial, nofun⟩) rfl
  have h2 := h1.step (c := attachMe) (r := okReply) trivial (hok _ _ ⟨trivial, nofun⟩) rfl
  exact .born h2 (c := .mdAttach 4095 limitedMd .unlink) (r := okReply) trivial
    (hok _ _ ⟨trivial, nofun⟩) rfl (fun h => absurd h.2 (by decide)) ⟨by decide, by decide⟩ rfl

def usedNi : LibNi := ((step limitedNi okReply (putFrom 4094)).map Outcome.ni).getD freshNi

theorem usedNi_life (ok : LibNi → Call → Prop) (hok : ∀ ni c, UnlinksIdleAndRoomy ni c → ok ni c) :
    ∃ k, Life ok 4094 (limitedNi.md 4094) k usedNi :=
  ⟨_, (limitedNi_life ok hok).step (c := putFrom 4094) (r := okReply) ⟨by decide, by decide⟩ trivial
    (hok _ _ ⟨trivial, nofun⟩) id rfl⟩

theorem usedNi_msgs : msgsOn usedNi 4094 = {1023} := by
  obtain ⟨k, h⟩ := usedNi_life UnlinksIdle fun _ _ hok => hok.1
  have hmem : 1023 ∈ msgsOn usedNi 4094 := mem_msgsOn.mpr ⟨⟨by decide, by decide⟩, rfl⟩
  have hlive : LiveMd usedNi 4094 := ⟨by decide, by decide⟩
  exact ((h.reachable.msgsAccounted fun _ _ hok => hok).last_iff hlive hmem).mp (by decide)

theorem life_accounts_used :
    ∃ k, (k : ℤ) ≤ 5 ∧ (usedNi.md 4094).threshold.toInt = 5 - k ∧ UnlinksWhenDone 4094 usedNi := by
  obtain ⟨k, h⟩ := usedNi_life UnlinksIdleAndRoomy fun _ _ hok => hok
  obtain ⟨hle, hlive⟩ := life_accounts h (by decide) (.inr (by decide))
  obtain ⟨hthreshold, hdone⟩ := hlive ⟨by decide, by decide⟩
  exact ⟨k, hle, hthreshold, hdone rfl⟩

theorem putFrom_other {h : PtlHandle} (hw : Wf ni)
    (hs : step ni r (putFrom h) = some o) (hd : handleIndex h ≠ d) (hlive : LiveMd ni d) :
    LiveMd o.ni d ∧ msgsOn o.ni d = msgsOn ni d ∧ o.ni.md d = ni.md d := by
  have hen : Enabled ni (putFrom h) := trivial
  cases (step_action hs).fate hw hen d with
  | kept hiff hmsgs hmd => exact ⟨hiff.mpr hlive, hmsgs, hmd⟩
  | born key u me hdead => exact absurd hlive hdead
  | updated key hc => cases hc
  | charged hc => cases hc
  | requested hc => cases hc
  | used hown => exact absurd (some.inj hown) hd
  | completed hc => cases hc
  | released hc => cases hc
  | unlinked hc => exact hc.elim

/-- With every message object taken, an incoming put moves the offset of the descriptor past
its limit without marking it, and the completion of its last operation leaves it. -/
theorem life_not_unlinked : ∃ k ni, Life UnlinksIdle 4094 (limitedNi.md 4094) k ni ∧
      0 < (limitedNi.md 4094).threshold.toInt ∧ 0 ≤ (limitedNi.md 4094).maxOffset ∧
      (limitedNi.md 4094).unlink = .unlink ∧ LiveMd ni 4094 ∧ ¬ UnlinksWhenDone 4094 ni := by
  obtain ⟨k0, hused⟩ := usedNi_life UnlinksIdle fun _ _ hok => hok.1
  obtain ⟨l, hl, hnd, -⟩ := hused.reachable.wf.msgPool
  obtain ⟨ni, ⟨⟨k, hlife⟩, hlive, hmsgs, hmd⟩, hs, hfull⟩ := exhaust_msgs
    (P := fun ni => (∃ k, Life UnlinksIdle 4094 (limitedNi.md 4094) k ni) ∧ LiveMd ni 4094 ∧
      msgsOn ni 4094 = {1023} ∧ ni.md 4094 = usedNi.md 4094) (by
      rintro ni o ⟨⟨k, hlife⟩, hlive, hmsgs, hmd⟩ ho
      obtain ⟨hlive', hmsgs', hmd'⟩ := putFrom_other hlife.reachable.wf ho (by decide) hlive
      exact ⟨⟨_, hlife.step hlive (c := putFrom 4095) trivial trivial id ho⟩, hlive',
        hmsgs'.trans hmsgs, hmd'.trans hmd⟩)
    (by decide) (by decide) rfl
    ⟨⟨k0, hused⟩, ⟨by decide, by decide⟩, usedNi_msgs, rfl⟩ (.refl usedNi) hnd hl
  -- the put is charged, and nothing else happens
  obtain ⟨-, hparse⟩ := put_exhausted hs hfull (show _ = some (some ⟨4094, 1, 0⟩) by rfl)
  have hlife' := hlife.step hlive (c := .parse (putHdr 1 0)) (r := okReply) trivial trivial id hparse
  have hmd' : (ni.charge ⟨4094, 1, 0⟩).md 4094 = chargedMd (usedNi.md 4094) 1 := by
    simp [charge, setMd, chargedMd, hmd]
  refine ⟨_, _, hlife', by decide, by decide, rfl, hlive, fun hdone => ?_⟩
  have hmem : 1023 ∈ msgsOn ni 4094 := hmsgs ▸ mem_singleton_self 1023
  obtain ⟨hmsg, hon⟩ := mem_msgsOn.mp hmem
  have hon' : ((ni.charge ⟨4094, 1, 0⟩).msg 1023).md = some 4094 := hon
  obtain ⟨o, ho, hstays⟩ := libFinalize_of_stays hlife'.reachable.up hon' (by rw [hmd']; rfl)
    (by rw [hmd']; decide) okReply
  have hiff := (hdone (.finalize (some 1023)) okReply o hmsg id rfl ho).1
  exact hiff.mpr ⟨1023, rfl, hmsgs, by rw [hmd']; decide⟩ (hstays.mpr hlive)

end Cplant.Portals
