import Cplant.Portals.Fates

/-!
# Outstanding messages and their descriptors

Every outstanding message holds its descriptor, and `pending` counts the
messages that do. Explicit unlinking does not look at `pending`, so this is an
invariant of the runs that unlink idle descriptors only; the automatic unlinking
in `lib_finalize` waits by itself.
-/
namespace Cplant.Portals
open Finset

theorem card_msgsOn_le (ni : LibNi) (d : ℕ) : (msgsOn ni d).card ≤ maxMsgs := by
  exact (card_filter_le _ _).trans (card_range maxMsgs).le

section
variable {s : Finset ℕ} {i : ℕ} {pending : Int32} (hp : pending.toInt = s.card)
  (hle : s.card ≤ maxMsgs)
include hp hle

theorem pending_insert (hi : i ∉ s) : (pending + 1).toInt = (insert i s).card := by
  have hone : (1 : Int32).toInt = 1 := rfl
  rw [maxMsgs] at hle
  rw [card_insert_of_notMem hi, toInt_add_of_range (by omega) (by omega)]
  omega

theorem pending_erase (hi : i ∈ s) : (pending - 1).toInt = (s.erase i).card := by
  have hpos := card_pos.mpr ⟨i, hi⟩
  have hone : (1 : Int32).toInt = 1 := rfl
  rw [maxMsgs] at hle
  rw [card_erase_of_mem hi, toInt_sub_of_range (by omega) (by omega)]
  omega

end

/-- No outstanding message refers to a dead descriptor, and `pending` is their number. -/
structure MsgsAccounted (ni : LibNi) : Prop where
  live : ∀ i, LiveMsg ni i → ∀ d, (ni.msg i).md = some d → LiveMd ni d
  pending : ∀ d, LiveMd ni d → (ni.md d).pending.toInt = (msgsOn ni d).card

def UnlinksIdle (ni : LibNi) : Call → Prop
  | .mdUnlink mdIn => LiveMd ni (handleIndex mdIn) → (ni.md (handleIndex mdIn)).pending = 0
  | .meUnlink currentIn => ∀ d, LiveMd ni d → (ni.md d).me = some (handleIndex currentIn) →
      (ni.md d).pending = 0
  | _ => True

theorem libInit_msgsAccounted (mem : LibNi) (nid pid rid gid : PtlId) (gsize : Int32)
    (ptlSize : PtlPtIndex) : MsgsAccounted (libInit mem nid pid rid gid gsize ptlSize) where
  live := fun i hi => absurd hi.2 (FreeList.fill_free _ _ i hi.1)
  pending := fun d hd => absurd hd.2 (FreeList.fill_free _ _ d hd.1)

namespace MsgsAccounted
variable {ni ni' : LibNi} {c : Call} {d : ℕ}

section
variable (h : MsgsAccounted ni) {i : ℕ}
include h

theorem msgsOn_eq_empty (hd : LiveMd ni d) (hidle : (ni.md d).pending = 0) : msgsOn ni d = ∅ := by
  have hc := h.pending d hd
  have hzero : (0 : Int32).toInt = 0 := rfl
  rw [hidle, hzero] at hc
  exact card_eq_zero.mp (Int.natCast_eq_zero.mp hc.symm)

theorem msgsOn_eq_empty_of_dead (hd : ¬ LiveMd ni d) : msgsOn ni d = ∅ := by
  refine eq_empty_of_forall_notMem fun i hi => hd ?_
  obtain ⟨hlive, hmd⟩ := mem_msgsOn.mp hi
  exact h.live i hlive d hmd

theorem card_erase (hd : LiveMd ni d) (hi : i ∈ msgsOn ni d) :
    ((ni.md d).pending - 1).toInt = ((msgsOn ni d).erase i).card :=
  pending_erase (h.pending d hd) (card_msgsOn_le ni d) hi

theorem last_iff (hd : LiveMd ni d) (hi : i ∈ msgsOn ni d) :
    (ni.md d).pending - 1 = 0 ↔ msgsOn ni d = {i} := by
  have hc := h.card_erase hd hi
  have hzero : (0 : Int32).toInt = 0 := rfl
  rw [← Int32.toInt_inj, hc, hzero, Int.natCast_eq_zero, card_eq_zero,
    erase_eq_empty_iff, or_iff_right (ne_empty_of_mem hi)]

theorem not_unlinks (hidle : UnlinksIdle ni c) (hd : LiveMd ni d) (hc : c.Unlinks ni d) :
    msgsOn ni d = ∅ := by
  cases c with
  | mdUnlink mdIn =>
    cases hc
    exact h.msgsOn_eq_empty hd (hidle hd)
  | meUnlink currentIn => exact h.msgsOn_eq_empty hd (hidle d hd hc)
  | _ => exact hc.elim

end

def At (ni : LibNi) (d : ℕ) : Prop :=
  (¬ LiveMd ni d → msgsOn ni d = ∅) ∧
    (LiveMd ni d → (ni.md d).pending.toInt = (msgsOn ni d).card)

theorem of_at (h : ∀ d, At ni d) : MsgsAccounted ni := by
  refine ⟨fun i hi d hmd => ?_, fun d => (h d).2⟩
  by_contra hdead
  have hmem : i ∈ msgsOn ni d := mem_msgsOn.mpr ⟨hi, hmd⟩
  simp [(h d).1 hdead] at hmem

theorem at_of_fate (h : MsgsAccounted ni) (hidle : UnlinksIdle ni c) (hf : Fate ni c ni' d) :
    At ni' d := by
  have hdead := h.msgsOn_eq_empty_of_dead (d := d)
  have hp := h.pending d
  cases hf with
  | kept hlive hmsgs hmd =>
    rw [At, hlive, hmsgs, hmd]
    exact ⟨hdead, hp⟩
  | born key u me hnot hlive hmsgs heq hmd =>
    refine ⟨fun hn => absurd hlive hn, fun _ => ?_⟩
    rw [hmsgs, hdead hnot, hmd]
    rfl
  | updated key hc hidx hlive hlive' hmsgs heq hmd
  | charged hc hreq hfound hidx hfull hlive hlive' hmsgs hmd =>
    refine ⟨fun hn => absurd hlive' hn, fun _ => ?_⟩
    rw [hmsgs, hmd]
    exact hp hlive
  | requested hc hreq hfound hidx hnew hlive hlive' hmsgs hmd
  | used hown hnew hlive hlive' hmsgs hactive hmd =>
    refine ⟨fun hn => absurd hlive' hn, fun _ => ?_⟩
    rw [hmsgs, hmd]
    exact pending_insert (h.pending d hlive) (card_msgsOn_le ni d) hnew
  | completed hc hi hlive hmsgs hstay hmd =>
    rw [At, hlive, hmsgs, hmd]
    refine ⟨fun hn => by simp [hdead hn], fun hd => h.card_erase hd hi⟩
  | @released i hc hi hnot hmsgs hlast hmark hmd =>
    -- the last operation is over, so nothing else holds the descriptor
    refine ⟨fun _ => ?_, fun hd => absurd hd hnot⟩
    have hd : LiveMd ni d := h.live i (mem_msgsOn.mp hi).1 d (mem_msgsOn.mp hi).2
    rw [hmsgs, (h.last_iff hd hi).mp hlast, erase_singleton]
  | unlinked hc hlive hnot hmsgs hmd =>
    refine ⟨fun _ => ?_, fun hd => absurd hd hnot⟩
    rw [hmsgs]
    exact h.not_unlinks hidle hlive hc

theorem of_fates (h : MsgsAccounted ni) (hidle : UnlinksIdle ni c) (hf : ∀ d, Fate ni c ni' d) :
    MsgsAccounted ni' := of_at fun d => h.at_of_fate hidle (hf d)

end MsgsAccounted

theorem Reachable.msgsAccounted {ok : LibNi → Call → Prop} (h : Reachable ok ni)
    (hidle : ∀ ni c, ok ni c → UnlinksIdle ni c) : MsgsAccounted ni := by
  induction h with
  | init => exact libInit_msgsAccounted ..
  | step h hen hok hs ih => exact ih.of_fates (hidle _ _ hok) ((step_action hs).fate h.wf hen)

theorem reachable_msgsAccounted {ni : LibNi} (h : Reachable UnlinksIdle ni) : MsgsAccounted ni := by
  induction h with
  | init => exact libInit_msgsAccounted ..
  | step h hen hok hs ih => exact ih.of_fates hok ((step_action hs).fate h.wf hen)

def plainMd : PtlMd := ⟨0, 10, ptlMdThreshInf, 10, ptlMdOpPut, 0, ptlEqNone⟩

def putFrom (md : PtlHandle) : Call := .put ⟨md, ⟨.both, 2, 2, 0, 1⟩, 0, 7, 0⟩ false 0

theorem reachable_msgsAccounted_put :
    ∃ ni, Reachable UnlinksIdle ni ∧ LiveMsg ni 1023 ∧ MsgsAccounted ni := by
  have h0 : Reachable UnlinksIdle freshNi := .init ..
  have h1 := h0.step (c := .mdBind 0 plainMd) (r := okReply) trivial trivial rfl
  have h2 := h1.step (c := putFrom 4095) (r := okReply) trivial trivial rfl
  exact ⟨_, h2, by decide, reachable_msgsAccounted h2⟩

theorem mdUnlink_strands_msg : ∃ ni, Reachable (fun _ _ => True) ni ∧ ¬ MsgsAccounted ni := by
  have h1 := freshNi_reachable.calls (.mdBind 0 plainMd) trivial rfl
  have h2 := h1.calls (putFrom 4095) trivial rfl
  have h3 := h2.calls (.mdUnlink 4095) trivial rfl
  refine ⟨_, h3, fun h => ?_⟩
  have hdead := h.live 1023 (by decide) 4095 rfl
  cases hdead.2

end Cplant.Portals
