import Mathlib.Data.Fintype.Card

/-!
# The end of a job

`job_get_pct_message` counts the processes that have ended or could not be started. The job is over
when there are as many as it has nodes.
-/
namespace Cplant.Launch
open List

inductive PctMessage (nnodes : ℕ)
  | procDone (rank : Option (Fin nnodes))
  | launchFailure (rank : Option (Fin nnodes))
  | other

/-- `endings` counts `MSG_ALL_DONE`, which the log record and the removal of the executables go
with. -/
structure Job where
  procDoneCount : ℕ := 0
  failCount : ℕ := 0
  appFinished : Bool := false
  endings : ℕ := 0

variable {nnodes : ℕ}

def Job.count (job : Job) : PctMessage nnodes → Job
  | .procDone (some _) => { job with procDoneCount := job.procDoneCount + 1 }
  | .launchFailure (some _) => { job with failCount := job.failCount + 1 }
  | _ => job

def Job.getPctMessage (job : Job) (m : PctMessage nnodes) : Job :=
  let job := job.count m
  if job.procDoneCount + job.failCount = nnodes then
    { job with appFinished := true, endings := job.endings + 1 }
  else job

def jobAfter (msgs : List (PctMessage nnodes)) : Job := msgs.foldl Job.getPctMessage {}

def PctMessage.rank : PctMessage nnodes → Option (Fin nnodes)
  | .procDone rank | .launchFailure rank => rank
  | .other => none

def ended (msgs : List (PctMessage nnodes)) : List (Fin nnodes) := msgs.filterMap PctMessage.rank

variable {msgs : List (PctMessage nnodes)} {m : PctMessage nnodes}

theorem jobAfter_concat : jobAfter (msgs ++ [m]) = (jobAfter msgs).getPctMessage m := by
  simp [jobAfter]

theorem Job.count_eq (job : Job) (m : PctMessage nnodes) :
    (job.count m).appFinished = job.appFinished ∧ (job.count m).endings = job.endings ∧
      (job.count m).procDoneCount + (job.count m).failCount =
        job.procDoneCount + job.failCount + (ended [m]).length := by
  rcases m with (_ | r) | (_ | r) | _ <;> simp [count, ended, PctMessage.rank] <;> omega

theorem jobAfter_count (msgs : List (PctMessage nnodes)) :
    (jobAfter msgs).procDoneCount + (jobAfter msgs).failCount = (ended msgs).length := by
  induction msgs using reverseRecOn with
  | nil => rfl
  | append_singleton msgs m ih =>
    have hsum := ((jobAfter msgs).count_eq m).2.2
    rw [jobAfter_concat, Job.getPctMessage, ended, filterMap_append, length_append]
    split_ifs <;> exact ih ▸ hsum

theorem full_iff {l : List (Fin nnodes)} (h : l.Nodup) : (∀ r, r ∈ l) ↔ l.length = nnodes := by
  rw [← toFinset_card_of_nodup h]
  have hcard := Finset.card_eq_iff_eq_univ l.toFinset
  rw [Fintype.card_fin] at hcard
  simp [hcard, Finset.ext_iff]

/-- A job is over once, and when all ranks have ended, if none ends twice and nothing follows. -/
theorem job_over_once (hnodup : (ended msgs).Nodup) (hlast : ∃ r, r ∉ ended msgs.dropLast) :
    ((jobAfter msgs).appFinished = true ↔ ∀ r, r ∈ ended msgs) ∧
      (jobAfter msgs).endings = if ∀ r, r ∈ ended msgs then 1 else 0 := by
  simp only [full_iff hnodup]
  induction msgs using reverseRecOn with
  | nil => simp [jobAfter, ended, (Fin.pos hlast.choose).ne]
  | append_singleton msgs m ih =>
    have hfront : (ended msgs).Nodup := hnodup.sublist ((sublist_append_left _ _).filterMap _)
    obtain ⟨r, hr⟩ : ∃ r, r ∉ ended msgs := by simpa using hlast
    have hopen : (ended msgs).length ≠ nnodes := fun hfull => hr ((full_iff hfront).mpr hfull r)
    obtain ⟨hover, hends⟩ := ih hfront
      ⟨r, fun h => hr (((dropLast_sublist _).filterMap _).subset h)⟩
    obtain ⟨hsame, hsame', hsum⟩ := (jobAfter msgs).count_eq m
    rw [jobAfter_count, ← length_append, ended, ended, ← filterMap_append] at hsum
    rw [if_neg hopen] at hends
    rw [jobAfter_concat, Job.getPctMessage, hsum]
    simp only [ended] at *
    split_ifs <;> simp_all

theorem job_over_once_two :
    (jobAfter ([.procDone (some 0), .launchFailure (some 1)] : List (PctMessage 2))).endings = 1 :=
  (job_over_once (by decide) ⟨1, by decide⟩).2

theorem job_over_early :
    ((jobAfter ([.procDone (some 0), .procDone (some 0)] : List (PctMessage 2))).appFinished ∧
      (1 : Fin 2) ∉ ended [.procDone (some 0), .procDone (some 0)]) ∧
    (jobAfter ([.procDone (some 0), .other] : List (PctMessage 1))).endings = 2 := by
  decide

end Cplant.Launch
