import Cplant.Bebopd.Allocated
import Cplant.Foundations.Runs

/-!
# Job ids

`bebopd` numbers the jobs with a counter, `prevJobID`. A new `bebopd` starts it at `FIRSTJOBID`,
and one that is restarted takes it from the file that the last one left. The counter is never
compared with the jobs that run.
-/
namespace Cplant.Bebopd
open Option Registry
open List
open Function (update_self update_of_ne update)

def firstJobID : ℤ := 100

def lastJobID : ℤ := 10000

namespace Registry

def takeMsgs (r : Registry) (msgs : List (PctMsg × ℤ)) : Registry :=
  msgs.foldl (fun r m => r.updatePctPidArray m.1 m.2) r

def markAllocated (r : Registry) : List ℤ → Registry × Bool
  | [] => (r, true)
  | n :: rest =>
    if (r.larray n).status ≠ statusFree then ((r.markAllocated rest).1, false)
    else (r.setStatus n statusAllocated).markAllocated rest

def Reports (r : Registry) (id : ℤ) : Prop :=
  ∃ n, IsNode n ∧ r.registered n = true ∧ (r.larray n).jobId.toInt = id

end Registry

structure Daemon where
  registry : Registry
  prevJobID : ℤ

def nextJobID (prevJobID : ℤ) : ℤ := if prevJobID > lastJobID then firstJobID else prevJobID + 1

structure Load where
  req : YodRequest
  yod : Yod
  before : List (PctMsg × ℤ)
  waitFor : ℕ → Bool
  after : List (PctMsg × ℤ)

def Daemon.answerYodRequests (d : Daemon) (l : Load) : Option (Daemon × Option ℤ) :=
  if checkYodRequest l.req = false then some (d, none)
  else if d.registry.maxPct < d.registry.minPct then some (d, none)
  else
    let jobID := nextJobID d.prevJobID
    let r₁ := d.registry.takeMsgs l.before
    match findFreeNodes r₁ l.req l.yod with
    | none => none
    | some (rc, ws) =>
      if rc ≠ .ok then some (⟨r₁, d.prevJobID⟩, none)
      else
        let query := Query.nodes (pctList l.req ws)
        let targets := (Registry.solicitTargets false r₁ (r₁.queryNodes query)).2
        let sent := targets.zipIdx.countP fun t => l.waitFor t.2
        let r₂ := (r₁.solicitPctUpdates query false l.waitFor).takeMsgs l.after
        let r₃ := if r₂.pbsSupport then r₂.computeActiveNodes else r₂
        if (sent : ℤ) ≠ l.req.nnodes then some (⟨r₃, d.prevJobID⟩, none)
        else
          let marked := r₃.markAllocated (pctList l.req ws)
          if marked.2 then some (⟨marked.1, jobID⟩, some jobID)
          else some (⟨marked.1, d.prevJobID⟩, none)

structure PctRec where
  nid : ℤ
  status : PctId

def raiseJobID (m : ℤ) (p : PctRec) : ℤ :=
  let j := p.status.jobId.toInt
  if j ≥ firstJobID ∧ j ≤ lastJobID ∧ j > m then j else m

def maxJobID (saved : List PctRec) : ℤ := saved.foldl raiseJobID 0

def restorePct (r : Registry) (p : PctRec) : Registry :=
  (r.setStatus p.nid statusFree).widenPcts p.nid

/-- `restart_bebopd`, up to the query of the PCTs. Without a file that has content and can be
read the counter keeps the value that it has in a new process. -/
def restartBebopd (r : Registry) : Option (List PctRec) → Daemon
  | none => ⟨r, 0⟩
  | some saved =>
    ⟨saved.foldl restorePct r, if maxJobID saved ≠ 0 then maxJobID saved + 1 else firstJobID⟩

structure World where
  bebopd : Daemon
  running : Finset ℤ

inductive Act
  | start (r : Registry) (list : List ℤ)
  | restart (r : Registry) (list : List ℤ) (saved : Option (List PctRec))
  | event (e : Registry.Event)
  | load (l : Load)
  | complete (id : ℤ)

def Act.msgs : Act → List PctMsg
  | .event (.pctUpdate msg _) => [msg]
  | .load l => (l.before ++ l.after).map Prod.fst
  | _ => []

namespace World

def step (w : World) : Act → Option World
  | .start r list => some ⟨⟨r.newInteractiveList list, firstJobID⟩, w.running⟩
  | .restart r list saved => some ⟨restartBebopd (r.newInteractiveList list) saved, w.running⟩
  | .event e => some ⟨⟨w.bebopd.registry.handle e, w.bebopd.prevJobID⟩, w.running⟩
  | .load l => (w.bebopd.answerYodRequests l).map fun res =>
      ⟨res.1, match res.2 with | none => w.running | some id => insert id w.running⟩
  | .complete id => some ⟨w.bebopd, w.running.erase id⟩

def Honest (w : World) (a : Act) : Prop :=
  ∀ msg ∈ a.msgs, msg.data.jobId.toInt = inval ∨ msg.data.jobId.toInt ∈ w.running

instance (w : World) (a : Act) : Decidable (w.Honest a) :=
  inferInstanceAs (Decidable (∀ msg ∈ a.msgs, _))

inductive Reached (P : World → Act → Prop) : World → Prop
  | begin (r : Registry) (list : List ℤ) :
    Reached P ⟨⟨r.newInteractiveList list, firstJobID⟩, ∅⟩
  | step {w w' : World} {a : Act} :
    Reached P w → w.Honest a → P w a → w.step a = some w' → Reached P w'

/-- A load finds the counter below `LASTJOBID`, or above it and no job running. A `bebopd` is
started when no job runs, and restarted from a file with an id as large as that of any running
job. -/
def Orderly (w : World) : Act → Prop
  | .start .. => w.running = ∅
  | .restart _ _ saved => ∃ pcts, saved = some pcts ∧ ∀ id ∈ w.running, ∃ p ∈ pcts,
      id ≤ p.status.jobId.toInt ∧ firstJobID ≤ p.status.jobId.toInt ∧
        p.status.jobId.toInt ≤ lastJobID
  | .event _ => True
  | .load _ => w.bebopd.prevJobID < lastJobID ∨ lastJobID < w.bebopd.prevJobID ∧
      w.running = ∅ ∧ ∀ id, w.bebopd.registry.Reports id → id = inval
  | .complete _ => True

end World

namespace Registry
variable {r r' r'' : Registry} {n id : ℤ}

def Forgets (r r' : Registry) : Prop :=
  ∀ n, r'.registered n = true → r.registered n = true ∧ (r'.larray n).jobId = (r.larray n).jobId

namespace Forgets

theorem refl (r : Registry) : Forgets r r := fun _ h => ⟨h, rfl⟩

theorem trans (h : Forgets r r') (h' : Forgets r' r'') : Forgets r r'' := fun n hn =>
  ⟨(h n (h' n hn).1).1, (h' n hn).2.trans (h n (h' n hn).1).2⟩

theorem reports (h : Forgets r r') (hid : r'.Reports id) : r.Reports id := by
  obtain ⟨n, hn, hreg, rfl⟩ := hid
  exact ⟨n, hn, (h n hreg).1, congrArg Int16.toInt (h n hreg).2.symm⟩

theorem foldl {f : Registry → ℤ → Registry} (hf : ∀ r n, Forgets r (f r n)) (ns : List ℤ) :
    Forgets r (ns.foldl f r) := by
  induction ns generalizing r with
  | nil => exact refl r
  | cons n ns ih => exact (hf r n).trans ih

end Forgets

theorem forgets_setStatus (r : Registry) (n : ℤ) (s : Int16) : Forgets r (r.setStatus n s) := by
  intro m hm
  refine ⟨hm, ?_⟩
  by_cases hmn : m = n
  · subst hmn
    simp [setStatus]
  · simp [setStatus, update_of_ne hmn]

theorem forgets_unregister (r : Registry) (n : ℤ) (data : PctId) :
    Forgets r ({ r with larray := update r.larray n data }.unregister n) := by
  intro m hm
  rw [registered_unregister] at hm
  rw [status_unregister]
  by_cases hmn : m = n
  · subst hmn
    rw [update_self] at hm
    cases hm
  · rw [update_of_ne hmn] at hm
    exact ⟨hm, by simp [update_of_ne hmn]⟩

theorem forgets_pctGone (r : Registry) (n : ℤ) : Forgets r (r.pctGone n) := by
  rw [pctGone]
  split
  · exact .refl r
  · exact forgets_unregister r n _

theorem forgets_solicitTargets (scan : Bool) (ns : List ℤ) :
    Forgets r (solicitTargets scan r ns).1 := by
  induction ns generalizing r with
  | nil => exact .refl r
  | cons n ns ih =>
    rw [solicitTargets]
    split
    · exact (forgets_setStatus r n _).trans ih
    · exact ih

theorem forgets_solicitPctUpdates (q : Query) (scan : Bool) (waitFor : ℕ → Bool) :
    Forgets r (r.solicitPctUpdates q scan waitFor) := by
  rw [solicitPctUpdates]
  split
  · exact .refl r
  · exact (forgets_solicitTargets scan _).trans (.foldl (fun r n => forgets_unregister r n _) _)

theorem forgets_markAllocated (ns : List ℤ) : Forgets r (r.markAllocated ns).1 := by
  induction ns generalizing r with
  | nil => exact .refl r
  | cons n ns ih =>
    rw [markAllocated]
    split
    · exact ih
    · exact (forgets_setStatus r n _).trans ih

theorem larray_register : (r.register n).larray = r.larray := by
  rw [register]
  split <;> rfl

theorem larray_takeUpdate (data : PctId) : (r.takeUpdate n data).larray =
    update r.larray n { data with nodeType := (r.larray n).nodeType } := by
  rw [takeUpdate]
  split
  · exact larray_register
  split
  · exact status_unregister
  · rfl

theorem registered_takeUpdate {m : ℤ} (hmn : m ≠ n) (data : PctId) :
    (r.takeUpdate n data).registered m = r.registered m := by
  rw [takeUpdate]
  split
  · rw [registered_register, update_of_ne hmn]
  split
  · rw [registered_unregister, update_of_ne hmn]
  · rfl

theorem reports_updatePctPidArray {msg : PctMsg} {rc : ℤ}
    (h : (r.updatePctPidArray msg rc).Reports id) : r.Reports id ∨ msg.data.jobId.toInt = id := by
  rw [updatePctPidArray] at h
  split at h
  · exact .inl h
  split at h
  · exact .inl h
  obtain ⟨m, hm, hreg, hid⟩ := h
  simp only [widenPcts, larray_takeUpdate] at hreg hid
  by_cases hmn : m = msg.nid
  · rw [hmn, update_self] at hid
    exact .inr hid
  · rw [update_of_ne hmn] at hid
    rw [registered_takeUpdate hmn] at hreg
    exact .inl ⟨m, hm, hreg, hid⟩

theorem reports_takeMsgs {msgs : List (PctMsg × ℤ)} (h : (r.takeMsgs msgs).Reports id) :
    r.Reports id ∨ ∃ m ∈ msgs, m.1.data.jobId.toInt = id := by
  induction msgs generalizing r with
  | nil => exact .inl h
  | cons m msgs ih =>
    rcases ih h with hr | ⟨m', hm', hid⟩
    · refine (reports_updatePctPidArray hr).imp_right fun hid => ?_
      exact ⟨m, mem_cons_self, hid⟩
    · exact .inr ⟨m', mem_cons_of_mem m hm', hid⟩

theorem reports_handle {e : Event} (h : (r.handle e).Reports id) :
    r.Reports id ∨ ∃ msg ∈ Act.msgs (.event e), msg.data.jobId.toInt = id := by
  cases e with
  | pctUpdate msg rc =>
    exact (reports_updatePctPidArray h).imp_right fun hid => ⟨msg, mem_singleton_self _, hid⟩
  | pctGone p => exact .inl ((Forgets.foldl forgets_pctGone _).reports h)
  | solicit q scan waitFor => exact .inl ((forgets_solicitPctUpdates q scan waitFor).reports h)

theorem not_reports_newInteractiveList (list : List ℤ) :
    ¬ (r.newInteractiveList list).Reports id := by
  rintro ⟨n, hn, hreg, -⟩
  simp [newInteractiveList, hn] at hreg

end Registry

structure World.Below (w : World) : Prop where
  first : firstJobID ≤ w.bebopd.prevJobID
  running : ∀ id ∈ w.running, id ≤ w.bebopd.prevJobID
  reported : ∀ id, w.bebopd.registry.Reports id → id ≤ w.bebopd.prevJobID

theorem le_foldl_raiseJobID (saved : List PctRec) (m : ℤ) : m ≤ saved.foldl raiseJobID m := by
  induction saved generalizing m with
  | nil => exact le_refl m
  | cons p saved ih =>
    refine le_trans ?_ (ih _)
    simp only [raiseJobID]
    split <;> omega

theorem le_maxJobID {saved : List PctRec} {p : PctRec} (hp : p ∈ saved)
    (hfirst : firstJobID ≤ p.status.jobId.toInt) (hlast : p.status.jobId.toInt ≤ lastJobID) :
    p.status.jobId.toInt ≤ maxJobID saved := by
  rw [maxJobID]
  generalize (0 : ℤ) = m
  induction saved generalizing m with
  | nil => cases hp
  | cons q saved ih =>
    rcases mem_cons.mp hp with rfl | hp
    · refine le_trans ?_ (le_foldl_raiseJobID saved _)
      simp only [raiseJobID]
      split <;> omega
    · exact ih hp _

theorem maxJobID_eq_zero_or (saved : List PctRec) :
    maxJobID saved = 0 ∨ firstJobID ≤ maxJobID saved := by
  have hraise : ∀ (saved : List PctRec) m, m = 0 ∨ firstJobID ≤ m →
      saved.foldl raiseJobID m = 0 ∨ firstJobID ≤ saved.foldl raiseJobID m := by
    intro saved
    induction saved with
    | nil => exact fun m hm => hm
    | cons p saved ih =>
      intro m hm
      refine ih _ ?_
      simp only [raiseJobID]
      split
      next hp => exact .inr hp.1
      · exact hm
  exact hraise saved 0 (.inl rfl)

theorem not_reports_restore {r : Registry} (hr : ∀ id, ¬ r.Reports id) (saved : List PctRec)
    (id : ℤ) : ¬ (saved.foldl restorePct r).Reports id := by
  induction saved generalizing r with
  | nil => exact hr id
  | cons p saved ih =>
    refine ih fun id' hid => hr id' ?_
    exact (forgets_setStatus r p.nid _).reports hid

theorem answerYodRequests_spec {d d' : Daemon} {l : Load} {out : Option ℤ}
    (h : d.answerYodRequests l = some (d', out)) :
    (∀ id, d'.registry.Reports id → d.registry.Reports id ∨
      ∃ msg ∈ Act.msgs (.load l), msg.data.jobId.toInt = id) ∧
    (out = none ∧ d'.prevJobID = d.prevJobID ∨
      out = some (nextJobID d.prevJobID) ∧ d'.prevJobID = nextJobID d.prevJobID) := by
  have hbefore : ∀ id, (d.registry.takeMsgs l.before).Reports id → d.registry.Reports id ∨
      ∃ msg ∈ Act.msgs (.load l), msg.data.jobId.toInt = id := by
    intro id hid
    refine (reports_takeMsgs hid).imp_right ?_
    rintro ⟨m, hm, hid⟩
    exact ⟨m.1, mem_map_of_mem (mem_append_left _ hm), hid⟩
  simp only [Daemon.answerYodRequests] at h
  split at h
  · cases h
    exact ⟨fun id hid => .inl hid, .inl ⟨rfl, rfl⟩⟩
  split at h
  · cases h
    exact ⟨fun id hid => .inl hid, .inl ⟨rfl, rfl⟩⟩
  split at h
  · cases h
  next rc ws _ =>
  split at h
  · cases h
    exact ⟨hbefore, .inl ⟨rfl, rfl⟩⟩
  generalize Query.nodes (pctList l.req ws) = query at h
  have hafter : ∀ id, (((d.registry.takeMsgs l.before).solicitPctUpdates query false
      l.waitFor).takeMsgs l.after).Reports id → d.registry.Reports id ∨
        ∃ msg ∈ Act.msgs (.load l), msg.data.jobId.toInt = id := by
    intro id hid
    rcases reports_takeMsgs hid with hid | ⟨m, hm, hid⟩
    · exact hbefore id ((forgets_solicitPctUpdates query false l.waitFor).reports hid)
    · exact .inr ⟨m.1, mem_map_of_mem (mem_append_right _ hm), hid⟩
  generalize ((d.registry.takeMsgs l.before).solicitPctUpdates query false
      l.waitFor).takeMsgs l.after = r2 at h hafter
  have hcount : ∀ id, (if r2.pbsSupport then r2.computeActiveNodes else r2).Reports id →
      r2.Reports id := by
    intro id hid
    split at hid <;> exact hid
  generalize (if r2.pbsSupport then r2.computeActiveNodes else r2) = r3 at h hcount
  have hmarked : ∀ id, (r3.markAllocated (pctList l.req ws)).1.Reports id →
      d.registry.Reports id ∨ ∃ msg ∈ Act.msgs (.load l), msg.data.jobId.toInt = id :=
    fun id hid => hafter id (hcount id ((forgets_markAllocated _).reports hid))
  split at h
  · cases h
    exact ⟨fun id hid => hafter id (hcount id hid), .inl ⟨rfl, rfl⟩⟩
  split at h
  · cases h
    exact ⟨hmarked, .inr ⟨rfl, rfl⟩⟩
  · cases h
    exact ⟨hmarked, .inl ⟨rfl, rfl⟩⟩

namespace World
variable {w w' : World} {a : Act} {id : ℤ}

theorem Below.reports (h : w.Below) (hh : w.Honest a)
    (hid : w.bebopd.registry.Reports id ∨ ∃ msg ∈ a.msgs, msg.data.jobId.toInt = id) :
    id ≤ w.bebopd.prevJobID := by
  rcases hid with hid | ⟨msg, hmsg, rfl⟩
  · exact h.reported id hid
  · rcases hh msg hmsg with hnone | hjob
    · have := h.first
      rw [hnone]
      rw [firstJobID] at this
      rw [inval]
      omega
    · exact h.running _ hjob

/-- With the counter above the last id and no job running, the only thing that is reported is
that none runs. -/
theorem eq_inval_of_idle (hrun : w.running = ∅)
    (hrep : ∀ id, w.bebopd.registry.Reports id → id = inval) (hh : w.Honest a)
    (hid : w.bebopd.registry.Reports id ∨ ∃ msg ∈ a.msgs, msg.data.jobId.toInt = id) :
    id = inval := by
  rcases hid with hid | ⟨msg, hmsg, rfl⟩
  · exact hrep id hid
  · refine (hh msg hmsg).resolve_right ?_
    rw [hrun]
    exact Finset.notMem_empty _

theorem Below.nextJobID (h : w.Below) {l : Load} (hh : w.Honest (.load l))
    (ho : w.Orderly (.load l)) :
    firstJobID ≤ nextJobID w.bebopd.prevJobID ∧ nextJobID w.bebopd.prevJobID ≤ lastJobID ∧
      (∀ id ∈ w.running, id < nextJobID w.bebopd.prevJobID) ∧ ∀ id, (w.bebopd.registry.Reports id ∨
        ∃ msg ∈ Act.msgs (.load l), msg.data.jobId.toInt = id) →
          id < nextJobID w.bebopd.prevJobID := by
  have hfirst := h.first
  rcases ho with hbelow | ⟨habove, hrun, hrep⟩
  · have hnext : Bebopd.nextJobID w.bebopd.prevJobID = w.bebopd.prevJobID + 1 :=
      if_neg (by omega)
    rw [hnext]
    refine ⟨by omega, by omega, fun id hid => ?_, fun id hid => ?_⟩
    · exact Int.lt_add_one_of_le (h.running id hid)
    · exact Int.lt_add_one_of_le (h.reports hh hid)
  · have hnext : Bebopd.nextJobID w.bebopd.prevJobID = firstJobID := if_pos habove
    rw [hnext]
    refine ⟨le_refl _, by decide, fun id hid => ?_, fun id hid => ?_⟩
    · rw [hrun] at hid
      exact absurd hid (Finset.notMem_empty _)
    · rw [eq_inval_of_idle hrun hrep hh hid]
      decide

theorem Below.begin (r : Registry) (list : List ℤ) {running : Finset ℤ}
    (hrun : running = ∅) : Below ⟨⟨r.newInteractiveList list, firstJobID⟩, running⟩ where
  first := le_refl _
  running id hid := by
    rw [hrun] at hid
    exact absurd hid (Finset.notMem_empty _)
  reported _ hid := absurd hid (not_reports_newInteractiveList list)

theorem Below.restart (r : Registry) (list : List ℤ) {saved : Option (List PctRec)}
    (ho : w.Orderly (.restart r list saved)) :
    Below ⟨restartBebopd (r.newInteractiveList list) saved, w.running⟩ := by
  obtain ⟨pcts, rfl, hpcts⟩ := ho
  refine ⟨?_, fun id hid => ?_, fun id hid => ?_⟩
  · simp only [restartBebopd]
    rcases maxJobID_eq_zero_or pcts with hzero | hfirst
    · rw [if_neg (not_not.mpr hzero)]
    · split <;> omega
  · obtain ⟨p, hp, hle, hfirst, hlast⟩ := hpcts id hid
    have hmax := le_maxJobID hp hfirst hlast
    simp only [restartBebopd]
    rw [firstJobID] at hfirst
    omega
  · exact absurd hid
      (not_reports_restore (fun _ => not_reports_newInteractiveList list) pcts id)

theorem Below.step (h : w.Below) (hh : w.Honest a) (ho : w.Orderly a)
    (hstep : w.step a = some w') : w'.Below := by
  cases a with
  | start r list =>
    cases hstep
    exact .begin r list ho
  | restart r list saved =>
    cases hstep
    exact .restart r list ho
  | event e =>
    cases hstep
    exact ⟨h.first, h.running, fun id hid => h.reports hh (reports_handle hid)⟩
  | load l =>
    obtain ⟨⟨d', out⟩, hout, rfl⟩ := map_eq_some_iff.mp hstep
    obtain ⟨hreports, hcounter⟩ := answerYodRequests_spec hout
    rcases hcounter with ⟨rfl, hprev⟩ | ⟨rfl, hprev⟩
    · refine ⟨hprev ▸ h.first, hprev ▸ h.running, fun id hid => ?_⟩
      exact hprev ▸ h.reports hh (hreports id hid)
    obtain ⟨hfirst, -, hrun, hrep⟩ := h.nextJobID hh ho
    refine ⟨hprev ▸ hfirst, fun id hid => ?_, fun id hid => ?_⟩
    · rw [hprev]
      rcases Finset.mem_insert.mp hid with rfl | hid
      · exact le_refl _
      · exact (hrun id hid).le
    · rw [hprev]
      exact (hrep id (hreports id hid)).le
  | complete id =>
    cases hstep
    exact ⟨h.first, fun id' hid => h.running id' (Finset.mem_of_mem_erase hid), h.reported⟩

theorem below_of_reached (h : Reached Orderly w) : w.Below := by
  induction h with
  | begin r list => exact .begin r list rfl
  | step _ hh ho hstep ih => exact ih.step hh ho hstep

/-- In an orderly run every id that is handed out is a job id, and no job with this id runs or is
reported to run. -/
theorem job_ids_fresh (h : Reached Orderly w) {l : Load} (hh : w.Honest (.load l))
    (ho : w.Orderly (.load l)) {d : Daemon} {id : ℤ}
    (hout : w.bebopd.answerYodRequests l = some (d, some id)) :
    firstJobID ≤ id ∧ id ≤ lastJobID ∧ ¬ d.registry.Reports id ∧ id ∉ w.running := by
  obtain ⟨hreports, hcounter⟩ := answerYodRequests_spec hout
  obtain ⟨hfirst, hlast, hrun, hrep⟩ := (below_of_reached h).nextJobID hh ho
  have hid : id = Bebopd.nextJobID w.bebopd.prevJobID := by
    rcases hcounter with ⟨hnone, -⟩ | ⟨hsome, -⟩
    · cases hnone
    · exact some.inj hsome
  rw [hid]
  refine ⟨hfirst, hlast, fun hbad => ?_, fun hbad => ?_⟩
  · exact absurd (hrep _ (hreports _ hbad)) (lt_irrefl _)
  · exact absurd (hrun _ hbad) (lt_irrefl _)

def blank : Registry where
  larray _ := ⟨statusNoStatus, 0, 0, 0, .unsetNode, 0, 0⟩
  registered _ := false
  interactiveList _ := false
  scheduledList _ := false
  activeNodes := 0
  minPct := maxNodes
  maxPct := -1
  intMIN := maxNodes
  intMAX := -1
  pbsMIN := maxNodes
  pbsMAX := -1
  pbsSupport := false
  remap := false
  carray _ := -1
  marray _ := -1

def newWorld : World := ⟨⟨blank.newInteractiveList [], firstJobID⟩, ∅⟩

def report (n : ℤ) (status jobId : Int16) : PctMsg × ℤ :=
  (⟨n, ppidPct, .pctUpdateMsg, ⟨status, -1, -1, -1, .unsetNode, jobId, -1⟩⟩, 1)

def update (n : ℤ) (status jobId : Int16) : Act :=
  .event (.pctUpdate (report n status jobId).1 1)

def loadOn (n : ℤ) : Load :=
  ⟨userRequest 1 .any, yodWith [], [], fun _ => true, [report n statusFree (-1)]⟩

theorem exists_handed {P ok : World → Act → Prop} [∀ w a, Decidable (ok w a)]
    (hok : ∀ w a, ok w a → w.Honest a ∧ P w a) (acts : List Act) (l : Load)
    (q : World → Daemon → ℤ → Bool)
    (h : ((exec World.step ok acts newWorld).any fun w => decide (w.Honest (.load l)) &&
      (w.bebopd.answerYodRequests l).any fun res => res.2.any (q w res.1)) = true) :
    ∃ w d id, Reached P w ∧ w.Honest (.load l) ∧
      w.bebopd.answerYodRequests l = some (d, some id) ∧ q w d id = true := by
  obtain ⟨w, hrun, hw⟩ := (any_eq_true _ _).mp h
  have hreached : Reached P w := (Reaches.init.exec hrun).invariant (.begin blank [])
    fun hr ha hs => hr.step (hok _ _ ha).1 (hok _ _ ha).2 hs
  rw [Bool.and_eq_true, decide_eq_true_eq] at hw
  obtain ⟨⟨d, out⟩, hout, hres⟩ := (any_eq_true _ _).mp hw.2
  obtain ⟨id, rfl, hq⟩ := (any_eq_true _ _).mp hres
  exact ⟨w, d, id, hreached, hw.1, hout, hq⟩

def plain (w : World) : Act → Bool
  | .event _ => true
  | .load _ => w.bebopd.prevJobID < lastJobID
  | _ => false

theorem orderly_of_plain (h : w.plain a = true) : w.Orderly a := by
  cases a with
  | event => trivial
  | load => exact .inl (of_decide_eq_true h)
  | _ => cases h

theorem job_ids_fresh_second : ∃ w d, Reached Orderly w ∧ 101 ∈ w.running ∧
    w.bebopd.answerYodRequests (loadOn 1) = some (d, some 102) ∧ firstJobID ≤ 102 ∧
      102 ≤ lastJobID ∧ ¬ d.registry.Reports 102 ∧ 102 ∉ w.running := by
  obtain ⟨w, d, id, h, hh, hout, hid⟩ := exists_handed
    (fun w a (h : w.Honest a ∧ w.plain a) => ⟨h.1, orderly_of_plain h.2⟩)
    [update 0 statusFree (-1), .load (loadOn 0), update 1 statusFree (-1)] (loadOn 1)
    (fun w _ id => decide (w.plain (.load (loadOn 1)) ∧ 101 ∈ w.running ∧ id = 102))
    (by decide +kernel)
  obtain ⟨hplain, hruns, rfl⟩ := of_decide_eq_true hid
  exact ⟨w, d, h, hruns, hout, job_ids_fresh h hh (orderly_of_plain hplain) hout⟩

def Few (w : World) (_ : Act) : Prop := (w.running.card : ℤ) < lastJobID - firstJobID

def savedJob (nid : ℤ) (jobId : Int16) : PctRec :=
  ⟨nid, ⟨statusBusy, -1, -1, -1, .unsetNode, jobId, -1⟩⟩

/-- After a restart from a file with job 9999 the first id is 10001, without a file 1; from a file
with the jobs 101 and 10000 the ids are 100 and 101, although the node of job 101 reports it. -/
theorem job_ids_misused : (∃ w l d id, Reached Few w ∧ w.Honest (.load l) ∧
      w.bebopd.answerYodRequests l = some (d, some id) ∧ lastJobID < id) ∧
    (∃ w l d id, Reached Few w ∧ w.Honest (.load l) ∧
      w.bebopd.answerYodRequests l = some (d, some id) ∧ id < firstJobID) ∧
    (∃ w l d id, Reached Few w ∧ w.Honest (.load l) ∧
      w.bebopd.answerYodRequests l = some (d, some id) ∧ d.registry.Reports id) := by
  have hfew : ∀ (w : World) a, w.Honest a ∧ (w.running.card : ℤ) < lastJobID - firstJobID →
      w.Honest a ∧ Few w a := fun _ _ => id
  refine ⟨?_, ?_, ?_⟩
  · obtain ⟨w, d, id, h, hh, hout, hid⟩ := exists_handed hfew
      [.restart blank [] (some [savedJob 0 9999]), update 0 statusFree (-1)] (loadOn 0)
      (fun _ _ id => decide (lastJobID < id)) (by decide +kernel)
    exact ⟨w, _, d, id, h, hh, hout, of_decide_eq_true hid⟩
  · obtain ⟨w, d, id, h, hh, hout, hid⟩ := exists_handed hfew
      [.restart blank [] none, update 0 statusFree (-1)] (loadOn 0)
      (fun _ _ id => decide (id < firstJobID)) (by decide +kernel)
    exact ⟨w, _, d, id, h, hh, hout, of_decide_eq_true hid⟩
  · obtain ⟨w, d, id, h, hh, hout, hid⟩ := exists_handed hfew
      [update 0 statusFree (-1), .load (loadOn 0), update 0 statusBusy 101,
        .restart blank [] (some [savedJob 0 101, savedJob 1 10000]), update 0 statusBusy 101,
        update 1 statusFree (-1), .load (loadOn 1), update 2 statusFree (-1)] (loadOn 2)
      (fun _ d id => d.registry.registered 0 && (d.registry.larray 0).jobId.toInt == id)
      (by decide +kernel)
    rw [Bool.and_eq_true, beq_iff_eq] at hid
    exact ⟨w, _, d, id, h, hh, hout, 0, by decide, hid⟩

end World
end Cplant.Bebopd
