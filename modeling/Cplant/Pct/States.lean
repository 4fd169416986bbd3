import Cplant.Pct.Machine

/-!
The states of a PCT. Allocated, busy and free go with the pending job, the pending clock and
the process entry in a fixed way, as long as the clock does not run out between the top of the
loop and a health check of an allocated PCT: the health check ends the pending state, but
leaves the PCT allocated.
-/
namespace Cplant.Pct
open Option
open Bebopd

def IsJobId (j : Int16) : Prop := 1 ≤ j.toInt ∧ j.toInt ≤ 10001

instance (j : Int16) : Decidable (IsJobId j) := inferInstanceAs (Decidable (_ ∧ _))

theorem JobId.isJobId (job : JobId) : IsJobId (Int16.ofInt job.val) := by
  have h1 := job.pos
  have h2 := job.le_last
  have heq : (Int16.ofInt job.val).toInt = job.val :=
    Int16.toInt_ofInt_of_le (by omega) (by omega)
  rw [IsJobId, heq]
  exact ⟨h1, h2⟩

namespace Main
variable {p p' p'' : Main} {r : Readings} {m : InitLoad}

structure Sound (p : Main) : Prop where
  allocated : p.state.status = statusAllocated → IsJobId p.state.pendingJid ∧ p.clock ≠ 0
  pending : p.state.status = statusBusy → p.clock = 0
  busy : p.state.status = statusBusy ↔ p.proc.jobId ≠ unused

structure Idle (p : Main) : Prop where
  status : p.state.status = statusFree
  proc : p.proc.jobId = unused

def Quiet (p p' : Main) : Prop :=
  (p'.state.status = p.state.status ∧ p'.state.pendingJid = p.state.pendingJid ∧
    p'.clock = p.clock ∧ p'.proc.jobId = p.proc.jobId) ∨ p'.Idle

theorem Idle.sound (h : p.Idle) : p.Sound where
  allocated ha := by simp [h.status, statusFree, statusAllocated] at ha
  pending hb := by simp [h.status, statusFree, statusBusy] at hb
  busy := by simp [h.status, h.proc, statusFree, statusBusy]

structure Tame (p p' : Main) : Prop where
  quiet : Quiet p p'
  allocations : p'.allocations = p.allocations

theorem Quiet.sound (hq : Quiet p p') (h : p.Sound) : p'.Sound := by
  rcases hq with ⟨hs, hj, hc, hp⟩ | hidle
  · constructor
    · rw [hs, hj, hc]; exact h.allocated
    · rw [hs, hc]; exact h.pending
    · rw [hs, hp]; exact h.busy
  · exact hidle.sound

theorem Tame.same (hs : p'.state.status = p.state.status)
    (hj : p'.state.pendingJid = p.state.pendingJid) (hc : p'.clock = p.clock)
    (hp : p'.proc.jobId = p.proc.jobId) (ha : p'.allocations = p.allocations) : Tame p p' :=
  ⟨.inl ⟨hs, hj, hc, hp⟩, ha⟩

theorem Tame.refl (p : Main) : Tame p p := .same rfl rfl rfl rfl rfl

theorem tame_todo (p : Main) (b : Bool) : Tame p { p with todo := b } := .same rfl rfl rfl rfl rfl

theorem quiet_sendToBebopd (p : Main) : Quiet p p.sendToBebopd := .inl ⟨rfl, rfl, rfl, rfl⟩

theorem Tame.trans (h : Tame p p') (h' : Tame p' p'') : Tame p p'' := by
  refine ⟨?_, h'.allocations.trans h.allocations⟩
  rcases h'.quiet with ⟨hs', hj', hc', hp'⟩ | hidle'
  · rcases h.quiet with ⟨hs, hj, hc, hp⟩ | hidle
    · exact .inl ⟨hs'.trans hs, hj'.trans hj, hc'.trans hc, hp'.trans hp⟩
    · exact .inr ⟨hs'.trans hidle.status, hp'.trans hidle.proc⟩
  · exact .inr hidle'

@[simp] theorem allocations_updateStatus (p : Main) (s : Int16) :
    (p.updateStatus s).allocations = p.allocations := by
  unfold updateStatus
  split <;> rfl

theorem updateStatus_proc (p : Main) (s : Int16) : (p.updateStatus s).proc = p.proc := by
  unfold updateStatus
  split_ifs <;> rfl

theorem proc_resetPct2 (p : Main) : p.resetPct2.proc.jobId = unused := by
  unfold resetPct2 recoverProcListEntry
  split_ifs with h
  · exact h
  · rfl

theorem idle_resetPct (p : Main) : p.resetPct.Idle := by
  refine ⟨rfl, ?_⟩
  show (p.resetPct2.updateStatus statusFree).proc.jobId = unused
  exact p.proc_resetPct2

theorem allocations_resetPct2 (p : Main) : p.resetPct2.allocations = p.allocations := by
  unfold resetPct2 recoverProcListEntry
  split
  · rfl
  · exact p.allocations_updateStatus statusFree

theorem tame_resetPct (p : Main) : Tame p p.resetPct :=
  ⟨.inr p.idle_resetPct, (allocations_updateStatus _ _).trans p.allocations_resetPct2⟩

theorem idle_resetPct2 (h : p.state.status = statusFree) : p.resetPct2.Idle := by
  refine ⟨?_, p.proc_resetPct2⟩
  unfold resetPct2 recoverProcListEntry
  split_ifs
  · exact h
  · rfl

theorem tame_ite {c : Prop} [Decidable c] (h : Tame p p') (h' : Tame p p'') :
    Tame p (if c then p' else p'') := by
  split_ifs
  · exact h
  · exact h'

theorem tame_resetUnless (ok : Bool) (p : Main) : Tame p (p.resetUnless ok) :=
  tame_ite (.refl p) p.tame_resetPct

theorem tame_putData (p : Main) (r : PutResult) : Tame p (p.putData r) :=
  ((tame_resetUnless _ _).trans (tame_resetUnless _ _)).trans (tame_resetUnless _ _)

theorem tame_startExec (p : Main) (r : PutResult) : Tame p (p.startExec r) :=
  (p.tame_putData r).trans (tame_ite (.refl _) (tame_ite (tame_resetPct _) (tame_todo _ true)))

theorem tame_put (p : Main) (r : PutResult) (kind : PutKind) : Tame p (p.put r kind) := by
  cases kind with
  | exec => exact tame_ite (p.tame_startExec r) (.refl p)
  | execPath => exact tame_ite (.refl p) (p.tame_startExec r)
  | portalIds => exact (p.tame_putData r).trans (tame_todo _ true)
  | _ => exact p.tame_putData r

theorem tame_goMain (p : Main) (fanout : Bool) : Tame p (p.goMain fanout) :=
  tame_ite p.tame_resetPct (p.tame_todo true)

theorem idle_getBt (p : Main) (reply : Bool) : (p.getBt reply).Idle := by
  apply idle_resetPct2
  split_ifs
  · unfold resetUnless
    split_ifs
    · rfl
    · exact (idle_resetPct _).status
  · rfl

theorem tame_getBt (p : Main) (reply : Bool) : Tame p (p.getBt reply) := by
  refine ⟨.inr (p.idle_getBt reply), (allocations_resetPct2 _).trans ?_⟩
  split_ifs
  · exact (tame_resetUnless _ _).allocations.trans (p.allocations_updateStatus statusFree)
  · exact p.allocations_updateStatus statusFree

theorem tame_forJob {job : ℤ} (hq : Tame p p') (h : p.forJob job p' = some p'') : Tame p p'' :=
  some.inj h ▸ tame_ite hq (.refl p)

theorem tame_pullLoadData (h : p.pullLoadData m = some p') : Tame p p' := by
  have hpull := tame_resetUnless m.pull p
  unfold pullLoadData at h
  split_ifs at h
  · exact some.inj h ▸ hpull.trans (tame_resetPct _)
  · cases h
    refine (hpull.trans ?_).trans (tame_resetPct _)
    exact .same rfl rfl rfl rfl rfl
  · exact some.inj h ▸ hpull.trans (.same rfl rfl rfl rfl rfl)

theorem Sound.initLoad (h : p.Sound) (hm : p.initLoad m = some p') : p'.Sound := by
  unfold Main.initLoad at hm
  split_ifs at hm with hok
  · exact some.inj hm ▸ h
  push Not at hok
  obtain ⟨hjob, hstatus⟩ := hok
  dsimp only at hm
  split at hm
  · exact some.inj hm ▸ (idle_resetPct _).sound
  next p2 hp2 =>
  refine (tame_pullLoadData hm).quiet.sound ?_
  unfold initNewJob at hp2
  split_ifs at hp2
  obtain ⟨hid, -⟩ := (h.allocated hstatus).1
  cases hp2
  refine ⟨fun ha => ?_, fun _ => rfl, fun _ => ?_, fun _ => rfl⟩
  · exact absurd (show statusBusy = statusAllocated from ha) (by decide)
  · show m.job ≠ unused
    simp only [unused]
    omega

theorem tame_processYodMessage {m : YodMsg} (h : p.processYodMessage m = some p') :
    (∃ l, m = .initLoad l) ∨ Tame p p' := by
  cases m with
  | initLoad m => exact .inl ⟨m, rfl⟩
  | put kind job r => exact .inr (tame_forJob (p.tame_put r kind) h)
  | goMain job fanout => exact .inr (tame_forJob (p.tame_goMain fanout) h)
  | getBt job reply => exact .inr (tame_forJob (p.tame_getBt reply) h)
  | sigUsr job | abortLoad job => exact .inr (tame_forJob (p.tame_todo true) h)
  | abortReset job => exact .inr (tame_forJob p.tame_resetPct h)
  | yodlessCompletion job fanout vote =>
    exact .inr (tame_forJob (tame_ite p.tame_resetPct (.refl p)) h)
  | other => exact .inr (some.inj h ▸ .refl p)

theorem tame_childDone (p : Main) (c : AppChange) : Tame p (p.childDone c) := by
  have hsize : Tame p (if c.btSize ≠ 0 then
      { p with proc := { p.proc with btSize := c.btSize } } else p) :=
    tame_ite (.same rfl rfl rfl rfl rfl) (.refl p)
  have hsent := hsize.trans (tame_resetUnless (c.btSize ≠ 0) _)
  exact tame_ite (hsize.trans (tame_resetPct _)) (tame_ite (hsent.trans (tame_resetPct _)) hsent)

theorem tame_childStarts (p : Main) (c : AppChange) : Tame p (p.childStarts c) := by
  have h1 : Tame p (if c.started then { p with sentKill2 := false } else p) :=
    tame_ite (.same rfl rfl rfl rfl rfl) (.refl p)
  have h2 := tame_ite (c := c.gotPortalId) (h1.trans (tame_resetUnless c.idOk _)) h1
  have h3 := tame_ite (c := c.gotReady) ((h2.trans (tame_resetUnless c.barrierOk _)).trans
    (tame_resetUnless c.readyOk _)) h2
  exact tame_ite (h3.trans (.same rfl rfl rfl rfl rfl)) h3

theorem tame_processAppStateChange (p : Main) (c : AppChange) :
    Tame p (p.processAppStateChange c) := by
  have h : Tame p (p.noteEvents c) := .same rfl rfl rfl rfl rfl
  unfold processAppStateChange
  split_ifs
  · exact .refl p
  · exact h.trans (tame_resetUnless _ _)
  · exact h.trans (tame_childDone _ _)
  · exact h.trans (tame_childStarts _ _)

theorem tame_app {r : AppReply} (h : p.app r = some p') : Tame p p' := by
  unfold app at h
  split_ifs at h
  · have htodo := p.tame_todo false
    cases r with
    | quiet => exact some.inj h ▸ htodo
    | failed =>
      have hreset := htodo.trans (tame_resetPct _)
      exact some.inj h ▸ hreset.trans (.same rfl rfl rfl rfl rfl)
    | fatal => cases h
    | change c => exact some.inj h ▸ htodo.trans (tame_processAppStateChange _ c)
  · exact some.inj h ▸ .refl p

theorem tame_kill (p : Main) (t : ℤ) : Tame p (p.kill t) := tame_ite p.tame_resetPct (.refl p)

theorem Sound.top (h : p.Sound) (t : ℤ) : (p.top t).Sound := by
  unfold Main.top
  split_ifs with hout
  · refine Idle.sound ⟨rfl, ?_⟩
    by_contra hjob
    exact hout.1 (h.pending (h.busy.mpr hjob))
  · exact h

def InTime (p : Main) (r : Readings) : Prop :=
  p.state.status = statusAllocated → p.healthCheck = true →
    r.tPending - p.clock ≤ pendingStateTimeOut

instance (p : Main) (r : Readings) : Decidable (p.InTime r) :=
  inferInstanceAs (Decidable (_ → _ → _))

theorem pctPending_frame (p : Main) (t : ℤ) : (p.pctPending t).1.state.status = p.state.status ∧
    (p.pctPending t).1.proc = p.proc := by
  unfold pctPending
  split_ifs <;> exact ⟨rfl, rfl⟩

theorem Sound.pctPending_allocated (h : p.Sound) (hin : p.InTime r)
    (hcheck : p.healthCheck = true) (ha : p.state.status = statusAllocated) :
    p.pctPending r.tPending = (p, true) := by
  obtain ⟨hid, hclock⟩ := h.allocated ha
  have hjid : p.state.pendingJid ≠ -1 := by
    intro heq
    rw [heq] at hid
    exact absurd hid (by decide)
  have htime : ¬ (r.tPending - p.clock > pendingStateTimeOut) := by
    have := hin ha hcheck
    omega
  simp [pctPending, hjid, hclock, htime]

theorem sound_of_idle_status (hf : p.state.status = statusFree ∨ p.state.status = statusTrouble)
    (hp : p.proc.jobId = unused) : p.Sound := by
  rcases hf with hf | hf
  · exact Idle.sound ⟨hf, hp⟩
  · refine ⟨fun ha => ?_, fun hb => ?_, ?_⟩
    · cases hf.symm.trans ha
    · cases hf.symm.trans hb
    · simp [hf, hp, statusTrouble, statusBusy]

theorem Sound.checkHealth (h : p.Sound) (hin : p.InTime r) : (p.checkHealth r).Sound := by
  unfold Main.checkHealth
  by_cases hcheck : p.healthCheck = true ∧ p.state.status ≠ statusBusy
  · rw [if_pos hcheck]
    obtain ⟨hcheck, hbusy⟩ := hcheck
    by_cases ha : p.state.status = statusAllocated
    · rw [h.pctPending_allocated hin hcheck ha]
      exact h
    have hfree : p.proc.jobId = unused := by
      by_contra hjob
      exact hbusy (h.busy.mpr hjob)
    obtain ⟨hs, hp⟩ := p.pctPending_frame r.tPending
    have hsame : (p.pctPending r.tPending).1.Sound := by
      refine ⟨fun h' => ?_, fun h' => ?_, ?_⟩
      · exact absurd (hs.symm.trans h') ha
      · exact absurd (hs.symm.trans h') hbusy
      · simp [hs, hp, hfree, hbusy]
    dsimp only
    split_ifs
    · exact hsame
    · exact sound_of_idle_status (.inr rfl) (by rw [updateStatus_proc, hp, hfree])
    · exact sound_of_idle_status (.inl rfl) (by rw [updateStatus_proc, hp, hfree])
    · exact hsame
  · rw [if_neg hcheck]
    exact h

theorem Sound.allocate (h : p.Sound) (job : JobId) (session : ℤ) {t : ℤ} (ht : t ≠ 0) :
    (p.allocate job.val session t).Sound := by
  unfold Main.allocate
  split_ifs with hfree
  · exact p.quiet_sendToBebopd.sound h
  push Not at hfree
  refine ⟨fun _ => ⟨job.isJobId, ht⟩, fun hb => ?_, ?_⟩
  · cases show statusAllocated = statusBusy from hb
  · have hproc : p.proc.jobId = unused := by
      by_contra hjob
      cases hfree.symm.trans (h.busy.mpr hjob)
    show statusAllocated = statusBusy ↔ p.proc.jobId ≠ unused
    simp [hproc, statusAllocated, statusBusy]

/-- The clock does not run out between the top of the loop and the health check of an
allocated PCT, and it does not read 0 when an allocation begins. -/
def OnTime (p : Main) : Input → Prop
  | .bebopd (some .status) r => p.InTime r
  | .bebopd (some (.allocate _ _)) r => p.InTime r ∧ r.tNow ≠ 0
  | _ => True

theorem Sound.processBebopdRequests {q : Request} (h : p.Sound)
    (hok : p.OnTime (.bebopd (some q) r)) (hq : p.processBebopdRequests r q = some p') :
    p'.Sound := by
  have htame : ∀ {a : Main}, some a = some p' → Tame p a → p'.Sound := fun ha hpa =>
    some.inj ha ▸ hpa.quiet.sound h
  cases q with
  | gotcha => exact htame hq (.refl p)
  | status =>
    exact some.inj hq ▸ (quiet_sendToBebopd _).sound (h.checkHealth hok)
  | allocate job session =>
    exact some.inj hq ▸ (h.checkHealth hok.1).allocate job session hok.2
  | die q =>
    unfold Main.processBebopdRequests at hq
    dsimp only at hq
    split_ifs at hq
    exact htame hq (.refl p)
  | reset q => exact htame hq (tame_ite p.tame_resetPct (.refl p))
  | interrupt q => exact htame hq (tame_ite (p.tame_todo true) (.refl p))
  | niceKill q | reserve q uid | unreserve q =>
    exact htame hq (tame_ite (.same rfl rfl rfl rfl rfl) (.refl p))

theorem Sound.atLoc (h : p.Sound) (l : Loc) : ({ p with loc := l } : Main).Sound :=
  Quiet.sound (p := p) (.inl ⟨rfl, rfl, rfl, rfl⟩) h

theorem Sound.step {i : Input} (h : p.Sound) (hok : p.OnTime i) (hs : p.step i = some p') :
    p'.Sound := by
  unfold Main.step at hs
  cases i with
  | top t =>
    dsimp only at hs
    split_ifs at hs
    exact some.inj hs ▸ (h.top t).atLoc _
  | yod m =>
    dsimp only at hs
    split_ifs at hs
    obtain ⟨q, hq, rfl⟩ := map_eq_some_iff.mp hs
    cases m with
    | none => exact (some.inj hq ▸ h).atLoc _
    | some m =>
      obtain ⟨l, rfl⟩ | htame := tame_processYodMessage hq
      · exact (h.initLoad hq).atLoc _
      · exact (htame.quiet.sound h).atLoc _
  | kill t =>
    dsimp only at hs
    split_ifs at hs
    exact some.inj hs ▸ ((p.tame_kill t).quiet.sound h).atLoc _
  | app r =>
    dsimp only at hs
    split_ifs at hs
    obtain ⟨q, hq, rfl⟩ := map_eq_some_iff.mp hs
    exact ((tame_app hq).quiet.sound h).atLoc _
  | bebopd q r =>
    dsimp only at hs
    split_ifs at hs
    obtain ⟨a, ha, rfl⟩ := map_eq_some_iff.mp hs
    cases q with
    | none => exact (some.inj ha ▸ h).atLoc _
    | some q => exact (h.processBebopdRequests hok ha).atLoc _

/-- If the clock keeps to its condition, an allocated PCT has a pending job and a running clock, a
busy one a job and no clock, and a free one no job. -/
theorem pct_states (nodeType : NodeType) (healthCheck : Bool) (niceKillSeconds : ℤ)
    (h : Reaches step OnTime (init nodeType healthCheck niceKillSeconds) p) :
    (p.state.status = statusAllocated → IsJobId p.state.pendingJid ∧ p.clock ≠ 0) ∧
    (p.state.status = statusBusy → p.proc.jobId ≠ unused ∧ p.clock = 0) ∧
    (p.state.status = statusFree → p.proc.jobId = unused) := by
  have hsound : p.Sound := h.invariant (Idle.sound ⟨rfl, rfl⟩) Sound.step
  refine ⟨hsound.allocated, fun hb => ⟨hsound.busy.mp hb, hsound.pending hb⟩, fun hf => ?_⟩
  by_contra hjob
  cases hf.symm.trans (hsound.busy.mpr hjob)

instance (p : Main) (i : Input) : Decidable (p.OnTime i) := by
  unfold OnTime
  split <;> infer_instance

def job100 : JobId := ⟨100, by decide, by decide⟩

def requestPass (t : ℤ) (q : Request) (tPending : ℤ) : List Input :=
  [.top t, .yod none, .kill t, .app .quiet, .bebopd (some q) ⟨true, tPending, t⟩]

theorem pct_states_allocated : ∃ p, Reaches step OnTime (init .unsetNode true 300) p ∧
    p.state.status = statusAllocated ∧ IsJobId p.state.pendingJid ∧ p.clock ≠ 0 := by
  exact exists_reaches_imp (P := fun p => p.state.status = statusAllocated)
    (requestPass 1000 (.allocate job100 (-1)) 1000) (by decide +kernel)
    fun p hp ha => ⟨ha, (pct_states .unsetNode true 300 hp).1 ha⟩

/-- The clock starts at 1000 and reads 1030 at the top of the next pass and 1031 at the health
check in it. Between two passes the PCT is then allocated without a pending job or a clock. -/
theorem allocated_without_clock : ∃ p,
    Reaches step (fun _ _ => True) (init .unsetNode true 300) p ∧ p.loc = .top ∧
      p.state.status = statusAllocated ∧ ¬ IsJobId p.state.pendingJid ∧ p.clock = 0 :=
  exists_reaches (requestPass 1000 (.allocate job100 (-1)) 1000 ++ requestPass 1030 .status 1031)
    (by decide +kernel)

end Main
end Cplant.Pct
