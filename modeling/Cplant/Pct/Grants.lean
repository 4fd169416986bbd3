import Cplant.Pct.States

/-!
# What a PCT grants

Only an allocation request that finds the PCT free adds to `allocations`, and the update that
answers it says that it was free. `Resting` describes the sections of the main loop in which
the PCT is given no reason to send an update.
-/
namespace Cplant.Pct.Main
open Option List
open Bebopd
variable {p p' : Main} {r : Readings} {i : Input}

@[simp] theorem out_updateStatus (p : Main) (s : Int16) : (p.updateStatus s).out = p.out := by
  unfold updateStatus
  split <;> rfl

theorem allocations_initLoad {m : InitLoad} (h : p.initLoad m = some p') :
    p'.allocations = p.allocations := by
  unfold initLoad initNewJob at h
  dsimp only at h
  split_ifs at h
  · cases h
    rfl
  · rw [(tame_pullLoadData h).allocations]
    simp [stopPendingFor]
  · cases h
    exact (tame_resetPct _).allocations

theorem checkHealth_history (p : Main) (r : Readings) :
    (p.checkHealth r).allocations = p.allocations ∧ (p.checkHealth r).out = p.out := by
  unfold checkHealth pctPending stopPendingFor
  dsimp only
  split_ifs <;> simp

theorem allocate_answer (p : Main) (job session t : ℤ) :
    ∃ d, (p.allocate job session t).out = p.out ++ [d] ∧
      ((p.allocate job session t).allocations = p.allocations ++ [job] ∨
        d.status ≠ statusFree ∧ (p.allocate job session t).allocations = p.allocations) := by
  unfold allocate
  split_ifs with hfree
  · exact ⟨p.state, rfl, .inr ⟨hfree, rfl⟩⟩
  · exact ⟨_, rfl, .inl rfl⟩

theorem serve_allocate {job : JobId} {session : ℤ}
    (h : p.step (.bebopd (some (.allocate job session)) r) = some p') :
    ∃ d, p'.out = p.out ++ [d] ∧ (p'.allocations = p.allocations ++ [job.val] ∨
      d.status ≠ statusFree ∧ p'.allocations = p.allocations) := by
  unfold step at h
  dsimp only at h
  split_ifs at h
  obtain ⟨q, hq, rfl⟩ := map_eq_some_iff.mp h
  cases hq
  obtain ⟨d, hd⟩ := (p.checkHealth r).allocate_answer job.val session r.tNow
  rw [(p.checkHealth_history r).1, (p.checkHealth_history r).2] at hd
  exact ⟨d, hd⟩

theorem allocations_processBebopdRequests {q : Request}
    (h : p.processBebopdRequests r q = some p') : p.allocations <+: p'.allocations := by
  have hsame : ∀ {a : Main}, some a = some p' → a.allocations = p.allocations →
      p.allocations <+: p'.allocations := fun ha heq => by
    cases ha
    rw [heq]
  cases q with
  | gotcha => exact hsame h rfl
  | status => exact hsame h (p.checkHealth_history r).1
  | allocate job session =>
    cases h
    obtain ⟨d, -, hgrant | ⟨-, hsame⟩⟩ :=
      (p.checkHealth r).allocate_answer job.val session r.tNow
    · rw [hgrant, (p.checkHealth_history r).1]
      exact prefix_append _ _
    · rw [hsame, (p.checkHealth_history r).1]
  | die q =>
    unfold processBebopdRequests at h
    dsimp only at h
    split_ifs at h
    exact hsame h rfl
  | reset q => exact hsame h (tame_ite p.tame_resetPct (.refl p)).allocations
  | interrupt q | niceKill q | reserve q uid | unreserve q =>
    apply hsame h
    split <;> rfl

theorem step_allocations (h : p.step i = some p') : p.allocations <+: p'.allocations := by
  unfold step at h
  cases i with
  | top t =>
    dsimp only at h
    split_ifs at h
    cases h
    rw [top]
    split <;> exact prefix_refl _
  | kill t =>
    dsimp only at h
    split_ifs at h
    exact some.inj h ▸ (p.tame_kill t).allocations ▸ prefix_refl _
  | yod m =>
    dsimp only at h
    split_ifs at h
    obtain ⟨q, hq, rfl⟩ := map_eq_some_iff.mp h
    cases m with
    | none => exact some.inj hq ▸ prefix_refl _
    | some m =>
      obtain ⟨l, rfl⟩ | htame := tame_processYodMessage hq
      · exact allocations_initLoad hq ▸ prefix_refl _
      · exact htame.allocations ▸ prefix_refl _
  | app r =>
    dsimp only at h
    split_ifs at h
    obtain ⟨q, hq, rfl⟩ := map_eq_some_iff.mp h
    exact (tame_app hq).allocations ▸ prefix_refl _
  | bebopd q r =>
    dsimp only at h
    split_ifs at h
    obtain ⟨a, ha, rfl⟩ := map_eq_some_iff.mp h
    cases q with
    | none => exact some.inj ha ▸ prefix_refl _
    | some q =>
      have hgrow := allocations_processBebopdRequests ha
      exact hgrow

def Takes (p : Main) : YodMsg → Prop
  | .initLoad m => m.job = p.state.pendingJid.toInt ∧ p.state.status = statusAllocated
  | .put _ job _ | .goMain job _ | .getBt job _ | .sigUsr job | .abortLoad job
  | .abortReset job | .yodlessCompletion job _ _ => p.proc.jobId = job
  | .other => False

/-- No pending state and no nice kill runs out, `yod` has no message for the job, and the
application host has nothing to say. -/
def Resting (p : Main) : Input → Prop
  | .top t => p.clock = 0 ∨ t - p.clock ≤ pendingStateTimeOut
  | .yod none => True
  | .yod (some m) => ¬ p.Takes m
  | .kill t => p.state.status ≠ statusBusy ∨ p.niceKillTimeout t = false
  | .app .quiet => True
  | .app _ => p.state.status ≠ statusBusy ∧ p.todo = false
  | .bebopd q _ => q.isNone

theorem processYodMessage_ignored {m : YodMsg} (hm : ¬ p.Takes m) :
    p.processYodMessage m = some p := by
  cases m with
  | initLoad m => exact if_pos (Decidable.not_and_iff_not_or_not.mp hm)
  | other => rfl
  | _ => exact congrArg some (if_neg hm)

theorem app_resting {r : AppReply} (hr : p.Resting (.app r)) (h : p.app r = some p') :
    p'.out = p.out := by
  unfold app at h
  cases r with
  | quiet =>
    split_ifs at h <;> exact some.inj h ▸ rfl
  | _ =>
    rw [if_neg (by simp [hr.1, hr.2])] at h
    exact some.inj h ▸ rfl

theorem step_resting (hr : p.Resting i) (h : p.step i = some p') : p'.out = p.out := by
  unfold step at h
  cases i with
  | top t =>
    dsimp only at h
    split_ifs at h
    cases h
    rw [top, if_neg (by rcases hr with hr | hr <;> omega)]
  | yod m =>
    dsimp only at h
    split_ifs at h
    obtain ⟨q, hq, rfl⟩ := map_eq_some_iff.mp h
    cases m with
    | none => exact some.inj hq ▸ rfl
    | some m => exact some.inj ((processYodMessage_ignored hr).symm.trans hq) ▸ rfl
  | kill t =>
    dsimp only at h
    split_ifs at h
    cases h
    rw [kill, if_neg]
    rintro ⟨hb, hk⟩
    rcases hr with hr | hr
    · exact hr hb
    · cases hr.symm.trans hk
  | app r =>
    dsimp only at h
    split_ifs at h
    obtain ⟨q, hq, rfl⟩ := map_eq_some_iff.mp h
    have hout := app_resting hr hq
    exact hout
  | bebopd q r =>
    dsimp only at h
    split_ifs at h
    obtain ⟨a, ha, rfl⟩ := map_eq_some_iff.mp h
    obtain rfl := isNone_iff_eq_none.mp hr
    exact some.inj ha ▸ rfl

end Cplant.Pct.Main
