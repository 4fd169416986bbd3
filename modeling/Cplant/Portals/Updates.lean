import Cplant.Portals.Actions

/-!
# Updates that fail, and updates against creation

`do_PtlMDUpdate_internal` gives the old region up before it asks for the new one, and it reads the
handle of the event queue in another way than `lib_md_build`.
-/
namespace Cplant.Portals
open Option

def LibMd.region (md : LibMd) : ℤ × PtlSize × ℤ := (md.start, md.length, md.addrkey)

def regionsAfter (r : NalReply) : List (ℤ × PtlSize × ℤ) → List NalCall → List (ℤ × PtlSize × ℤ) :=
  List.foldl fun regions call =>
    match call with
    | .validate base len => if r.validate < 0 then regions else (base, len, r.addrkey) :: regions
    | .invalidate base len key => regions.erase (base, len, key)
    | _ => regions

def LibMd.setup (md : LibMd) : PtlMd × Option ℕ :=
  (⟨md.start, md.length, md.threshold, md.maxOffset, md.options, md.userPtr, 0⟩, md.eq)

variable {ni : LibNi} {mdIn testqIn : PtlHandle} {oldIn : Bool} {newIn : Option PtlMd} {new : PtlMd}
  {seq : PtlSeq} {r : NalReply} {o : Outcome}

def RegionKept (ni : LibNi) (mdIn testqIn : PtlHandle) (newIn : Option PtlMd) (seq : PtlSeq)
    (r : NalReply) : Prop :=
  LiveMd ni (handleIndex mdIn) → ∀ new testq, newIn = some new →
    mdUpdateTestq testqIn = some (some testq) → mdUpdateReady ni testq seq = true →
    new.start ≠ (ni.md (handleIndex mdIn)).start ∨ (ni.md (handleIndex mdIn)).length < new.length →
    0 ≤ r.validate

theorem doPtlMDUpdate_cases (hs : doPtlMDUpdate ni mdIn oldIn newIn testqIn seq r = some o) :
    RegionKept ni mdIn testqIn newIn seq r ∧ (o.ni = ni ∧ o.calls = [] ∨ o.rc = ptlOk) ∧
        (∀ new, newIn = some new → o.rc = ptlOk → ∃ eq, mdUpdateEq ni new.eventq = some eq ∧
          (o.ni.md (handleIndex mdIn)).setup = (newMd new eq 0).setup) ∨
      ¬ RegionKept ni mdIn testqIn newIn seq r ∧ o.rc = ptlValFailed ∧ ∃ new : PtlMd, o.calls =
        [.invalidate (ni.md (handleIndex mdIn)).start (ni.md (handleIndex mdIn)).length
          (ni.md (handleIndex mdIn)).addrkey, .validate new.start new.length] ∧ r.validate < 0 := by
  obtain ⟨ok, hok, hs⟩ := bind_eq_some_iff.mp hs
  cases ok with
  | false =>
    cases hs
    refine .inl ⟨fun hlive => ?_, .inl ⟨rfl, rfl⟩, fun _ _ h => ?_⟩
    · rw [validObj_of_live hlive] at hok
      cases hok
    · exact absurd h (show ptlInvMd ≠ ptlOk by decide)
  | true =>
  have hlive := validObj_spec hok rfl
  cases newIn with
  | none =>
    cases hs
    refine .inl ⟨?_, .inl ⟨rfl, rfl⟩, ?_⟩
    · rintro - _ _ ⟨⟩
    · rintro _ ⟨⟩
  | some new =>
    obtain ⟨testq, htestq, hs⟩ := bind_eq_some_iff.mp hs
    cases testq with
    | none =>
      cases hs
      refine .inl ⟨fun _ _ _ _ h => ?_, .inl ⟨rfl, rfl⟩, fun _ _ h => ?_⟩
      · rw [htestq] at h
        cases h
      · exact absurd h (show ptlInvEq ≠ ptlOk by decide)
    | some testq =>
      have hkept : (mdUpdateReady ni testq seq = true →
          (new.start ≠ (ni.md (handleIndex mdIn)).start ∨
            (ni.md (handleIndex mdIn)).length < new.length) → 0 ≤ r.validate) ↔
          RegionKept ni mdIn testqIn (some new) seq r := by
        refine ⟨?_, fun h => h hlive new testq rfl htestq⟩
        rintro h - _ testq' ⟨⟩ htestq'
        rw [htestq] at htestq'
        cases htestq'
        exact h
      rw [← hkept]
      simp only at hs
      split at hs
      next hready =>
        cases hs
        refine .inl ⟨fun h => ?_, .inl ⟨rfl, rfl⟩, fun _ _ h => ?_⟩
        · simp [h] at hready
        · exact absurd h (show ptlNoupdate ≠ ptlOk by decide)
      next hready =>
      replace hready : mdUpdateReady ni testq seq = true := by simpa using hready
      split at hs
      next hfail =>
        cases hs
        obtain ⟨hmoved, hval⟩ := Bool.and_eq_true_iff.mp hfail
        refine .inr ⟨fun h => ?_, rfl, new, if_pos hmoved, of_decide_eq_true hval⟩
        have hnonneg := h hready (of_decide_eq_true hmoved)
        exact absurd (of_decide_eq_true hval) (Int32.not_lt.mpr hnonneg)
      next hfail =>
        obtain ⟨eq, heq, hs⟩ := bind_eq_some_iff.mp hs
        cases hs
        refine .inl ⟨fun _ hmoved => ?_, .inr rfl, ?_⟩
        · by_contra hneg
          exact hfail (by simpa [hmoved] using hneg)
        · rintro _ ⟨⟩ -
          exact ⟨eq, heq, by simp [LibNi.setMd, updatedMd, LibMd.setup, newMd]⟩

theorem failed_update_noop_iff (hs : doPtlMDUpdate ni mdIn oldIn newIn testqIn seq r = some o) :
    (o.rc ≠ ptlOk → o.ni.md = ni.md ∧ regionsAfter r [(ni.md (handleIndex mdIn)).region] o.calls =
      [(ni.md (handleIndex mdIn)).region]) ↔ RegionKept ni mdIn testqIn newIn seq r := by
  rcases doPtlMDUpdate_cases hs with ⟨hkept, hsame, -⟩ | ⟨hnot, hrc, new, hcalls, hval⟩
  · refine iff_of_true (fun hrc => ?_) hkept
    obtain ⟨hni, hcalls⟩ := hsame.resolve_right hrc
    rw [hni, hcalls]
    exact ⟨rfl, rfl⟩
  · refine iff_of_false (fun h => ?_) hnot
    have hregions := (h (by rw [hrc]; decide)).2
    rw [hcalls] at hregions
    simp [regionsAfter, LibMd.region, hval] at hregions

def boundMd : PtlMd := ⟨0, 10, ptlMdThreshInf, 10, ptlMdOpPut, 0, ptlEqNone⟩

def boundNi : LibNi :=
  let queued := (doPtlEQAlloc freshNi 0x10000 2 1000).ni
  ((step queued okReply (.mdBind 0x10000 boundMd)).map Outcome.ni).getD queued

theorem boundNi_reachable : Reachable (fun _ _ => True) boundNi := by
  have h1 := freshNi_reachable.calls (.eqAlloc 0x10000 2 1000) trivial rfl
  exact h1.calls (.mdBind 0x10000 boundMd) trivial rfl

theorem boundNi_live : LiveMd boundNi (handleIndex 4095) := ⟨by decide, by decide⟩

theorem failed_update_noop_badQueue : ∃ o,
    doPtlMDUpdate boundNi 4095 false (some { boundMd with start := 5 }) 5000 0 okReply = some o ∧
    o.rc = ptlInvEq ∧ o.ni.md = boundNi.md := by
  have hkept : RegionKept boundNi 4095 5000 (some { boundMd with start := 5 }) 0 okReply :=
    nofun
  exact ⟨_, rfl, rfl, ((failed_update_noop_iff rfl).mpr hkept (by decide)).1⟩

theorem failed_update_loses_region : ∃ ni r o, Reachable (fun _ _ => True) ni ∧ LiveMd ni 4095 ∧
    doPtlMDUpdate ni 4095 false (some { boundMd with start := 5 }) ptlEqNone 0 r = some o ∧
    o.rc = ptlValFailed ∧ (o.ni.md 4095).region = (ni.md 4095).region ∧
    regionsAfter r [(ni.md 4095).region] o.calls = [] :=
  ⟨boundNi, { okReply with validate := -1 }, _, boundNi_reachable, boundNi_live, rfl, rfl, rfl,
    by decide⟩

theorem mdBuildEq_spec {h : PtlHandle} {eq : Option ℕ} (hne : h ≠ ptlEqNone) :
    mdBuildEq ni h = some (some eq) ↔ LiveEq ni (handleIndex h) ∧ eq = some (handleIndex h) := by
  rw [mdBuildEq, if_neg hne, map_eq_some_iff]
  constructor
  · rintro ⟨ok, hok, h⟩
    split_ifs at h with ht
    exact ⟨validObj_spec hok (by simp [ht]), (some.inj h).symm⟩
  · rintro ⟨hlive, rfl⟩
    exact ⟨true, validObj_of_live hlive, rfl⟩

/-- A successful update agrees with a creation just if the handle of the queue, unmasked, is the
index of a queue in use. -/
theorem update_agrees_iff
    (hs : doPtlMDUpdate ni mdIn oldIn (some new) ptlEqNone seq r = some o) (hok : o.rc = ptlOk) :
    (∃ eq, mdBuildEq ni new.eventq = some (some eq) ∧
      (o.ni.md (handleIndex mdIn)).setup = (newMd new eq 0).setup) ↔ new.eventq = ptlEqNone ∨
      (0 ≤ new.eventq ∧ new.eventq ≤ 4096) ∧ LiveEq ni (handleIndex new.eventq) := by
  rcases doPtlMDUpdate_cases hs with ⟨-, -, hupdate⟩ | ⟨-, hrc, -⟩
  swap
  · rw [hrc] at hok
    cases hok
  obtain ⟨eq, heq, hsetup⟩ := hupdate new rfl hok
  have hsame (eq' : Option ℕ) : (newMd new eq 0).setup = (newMd new eq' 0).setup ↔ eq = eq' := by
    simp [LibMd.setup, newMd]
  simp only [hsetup, hsame, exists_eq_right']
  by_cases hnone : new.eventq = ptlEqNone
  · rw [hnone] at heq ⊢
    cases heq
    simp [mdBuildEq]
  rw [mdBuildEq_spec hnone, or_iff_right hnone]
  unfold mdUpdateEq at heq
  split_ifs at heq with hin
  · rw [and_iff_right hin]
    refine and_iff_left_of_imp fun hq => ?_
    rw [validObj_of_live hq] at heq
    exact (some.inj heq).symm
  · cases heq
    simp [hin]

theorem update_agrees_queue : ∃ o, doPtlMDUpdate boundNi 4095 false
        (some { boundMd with start := 5, eventq := 4095 }) ptlEqNone 0 okReply = some o ∧
      (o.ni.md 4095).eq = some 4095 ∧ ∃ eq, mdBuildEq boundNi 4095 = some (some eq) ∧
        (o.ni.md 4095).setup = (newMd { boundMd with start := 5, eventq := 4095 } eq 0).setup := by
  have hs : doPtlMDUpdate boundNi 4095 false (some { boundMd with start := 5, eventq := 4095 })
      ptlEqNone 0 okReply = some _ := rfl
  exact ⟨_, hs, rfl, (update_agrees_iff hs rfl).mpr
    (.inr ⟨⟨by decide, by decide⟩, by decide, by decide⟩)⟩

theorem update_drops_queue : ∃ ni o, Reachable (fun _ _ => True) ni ∧ LiveMd ni 4095 ∧
    mdBuildEq ni 0x10FFF = some (some (some 4095)) ∧
    doPtlMDUpdate ni 4095 false (some { boundMd with eventq := 0x10FFF }) ptlEqNone 0 okReply =
      some o ∧ o.rc = ptlOk ∧ (o.ni.md 4095).eq = none :=
  ⟨boundNi, _, boundNi_reachable, boundNi_live, rfl, rfl, rfl, rfl⟩

end Cplant.Portals
