import Cplant.Portals.Accounting

/-!
# Automatic unlinking

An operation that exhausts a descriptor marks it, and the completion that leaves it without
operations unlinks it. In between the descriptor can change.
-/
namespace Cplant.Portals

def Inactive (md : LibMd) : Prop :=
  md.threshold = 0 ∨ managedRemote md = false ∧ md.maxOffset < md.offset

instance (md : LibMd) : Decidable (Inactive md) := inferInstanceAs (Decidable (_ ∨ _))

variable {req : MdRequest} {ni ni' : LibNi}

theorem Eligible.not_inactive {me : LibMe} {md : LibMd}
    (h : Eligible me md req) : ¬ Inactive md := by
  rintro (hthreshold | ⟨hlocal, hoffset⟩)
  · exact h.active hthreshold
  · have hle := h.below hlocal
    rw [Int32.lt_iff_toInt_lt] at hoffset
    omega

theorem Wf.found_not_inactive (h : Wf ni) {found : MdFound}
    (hf : libFindMd ni req = some (some (found, ni'))) : ¬ Inactive (ni.md found.md) := by
  obtain ⟨ids, m, -, -, -, helig, -⟩ := h.found_spec hf
  exact helig.not_inactive

theorem heldMd_doUnlink (md : LibMd) (checkOffset : Bool) :
    (heldMd md checkOffset).doUnlink = true ↔ md.doUnlink = true ∨ md.unlink = .unlink ∧
      ((heldMd md checkOffset).threshold = 0 ∨
        checkOffset = true ∧ managedRemote md = false ∧ md.maxOffset < md.offset) := by
  by_cases hu : md.unlink = .unlink
  · by_cases hm : md.doUnlink = true <;> simp [heldMd, hu, hm, and_assoc]
  · simp [heldMd, hu]

def MarkedInactive (ni : LibNi) : Prop :=
  ∀ d, LiveMd ni d → (ni.md d).doUnlink = true → Inactive (ni.md d)

def KeepsMarked (ni : LibNi) : Call → Prop
  | .mdUpdate mdIn _ (some new) _ _ => (ni.md (handleIndex mdIn)).doUnlink = true →
      new.threshold = 0 ∨ hasOption new.options ptlMdManageRemote = false ∧
        new.maxOffset < (ni.md (handleIndex mdIn)).offset
  | _ => True

theorem MarkedInactive.of_fates {c : Call} (h : MarkedInactive ni) (hw : Wf ni)
    (hok : KeepsMarked ni c) (hfate : ∀ d, Fate ni c ni' d) : MarkedInactive ni' := by
  intro d hd hmark
  cases hfate d with
  | kept hlive hmsgs hmd | completed hc hi hlive hmsgs hstay hmd =>
    rw [hmd] at hmark ⊢
    exact h d (hlive.mp hd) hmark
  | born key u me hdead hlive hmsgs heq hmd =>
    rw [hmd] at hmark
    cases hmark
  | @updated _ _ _ new _ _ key hc hidx hlive hlive' hmsgs heq hmd =>
    subst hc hidx
    rw [hmd] at hmark ⊢
    exact hok hmark
  | charged hc hreq hfound hidx hfull hlive hlive' hmsgs hmd =>
    subst hidx
    rw [hmd] at hmark
    exact absurd (h _ hlive hmark) (hw.found_not_inactive hfound)
  | requested hc hreq hfound hidx hnew hlive hlive' hmsgs hmd =>
    subst hidx
    rw [hmd] at hmark ⊢
    rcases (heldMd_doUnlink _ _).mp hmark with hold | ⟨-, hzero | ⟨-, hlocal⟩⟩
    · exact absurd (h _ hlive hold) (hw.found_not_inactive hfound)
    · exact .inl hzero
    · exact .inr hlocal
  | used hown hnew hlive hlive' hmsgs hactive hmd =>
    rw [hmd] at hmark ⊢
    rcases (heldMd_doUnlink _ _).mp hmark with hold | ⟨-, hzero | ⟨hfalse, -⟩⟩
    · exact .inr ((h d hlive hold).resolve_left hactive)
    · exact .inl hzero
    · cases hfalse
  | released hc hi hdead => exact absurd hd hdead
  | unlinked hc hlive hdead => exact absurd hd hdead

theorem reachable_markedInactive (h : Reachable KeepsMarked ni) : MarkedInactive ni := by
  induction h with
  | init => exact fun d hd => absurd hd.2 (FreeList.fill_free _ _ d hd.1)
  | step h hen hok hs ih => exact ih.of_fates h.wf hok ((step_action hs).fate h.wf hen)

theorem marked_of_finalize {i d : ℕ} {r : NalReply} {o : Outcome} (hw : Wf ni)
    (hi : LiveMsg ni i) (hs : libFinalize ni (some i) r = some o) (hd : LiveMd ni d)
    (hgone : ¬ LiveMd o.ni d) : (ni.md d).doUnlink = true := by
  have hen : Enabled ni (.finalize (some i)) := hi
  have hf := (libFinalize_acts hs).action.fate hw hen d
  obtain ⟨-, -, -, -, hmark⟩ := hf.finalize_of_dead hd hgone id
  exact hmark

theorem finalize_unlinks_inactive {ni : LibNi} (h : Reachable KeepsMarked ni) {i d : ℕ}
    {r : NalReply} {o : Outcome} (hi : LiveMsg ni i) (hs : libFinalize ni (some i) r = some o)
    (hd : LiveMd ni d) (hgone : ¬ LiveMd o.ni d) : Inactive (ni.md d) :=
  reachable_markedInactive h d hd (marked_of_finalize h.wf hi hs hd hgone)

def onceMd : PtlMd := ⟨0, 10, 1, 10, ptlMdOpPut, 0, ptlEqNone⟩

theorem finalize_unlinks_inactive_put :
    ∃ ni o, Reachable KeepsMarked ni ∧ libFinalize ni (some 1023) okReply = some o ∧
      LiveMd ni 4095 ∧ ¬ LiveMd o.ni 4095 ∧ Inactive (ni.md 4095) := by
  have h0 : Reachable KeepsMarked freshNi := .init ..
  have h1 := h0.step (c := .mdBind 0 onceMd) (r := okReply) trivial trivial rfl
  have h2 := h1.step (c := putFrom 4095) (r := okReply) trivial trivial rfl
  refine ⟨_, _, h2, rfl, ⟨by decide, by decide⟩, fun h => absurd h.2 (by decide), ?_⟩
  exact finalize_unlinks_inactive h2 (i := 1023) (r := okReply) ⟨by decide, by decide⟩ rfl
    ⟨by decide, by decide⟩ (fun h => absurd h.2 (by decide))

theorem finalize_unlinks_rearmed : ∃ ni o, Reachable (fun _ _ => True) ni ∧ LiveMsg ni 1023 ∧
      libFinalize ni (some 1023) okReply = some o ∧ LiveMd ni 4095 ∧ ¬ LiveMd o.ni 4095 ∧
      ¬ Inactive (ni.md 4095) := by
  have h1 := freshNi_reachable.calls (.mdBind 0 onceMd) trivial rfl
  have h2 := h1.calls (putFrom 4095) trivial rfl
  have h3 := h2.calls (.mdUpdate 4095 false (some onceMd) ptlEqNone 0) trivial rfl
  refine ⟨_, _, h3, ⟨by decide, by decide⟩, rfl, ⟨by decide, by decide⟩, ?_, by decide⟩
  exact fun h => absurd h.2 (by decide)

end Cplant.Portals
