import Cplant.Bebopd.JobIds
import Cplant.Pct.Grants

/-!
# The allocation handshake

`bebopd` and the PCTs, with a queue of requests to each node and a queue of updates from it.
`bebopd` picks the nodes for a request of `yod`, sends them an allocation request and takes
updates until it has heard from all of them or has waited long enough; it then answers `yod`.
It does nothing else meanwhile.
-/
namespace Cplant.Bebopd
open List Option Registry
open Function
open Pct (Main Request JobId Input Readings)
namespace Registry
variable {r : Registry} {n m : ℤ}

def sentNodes (r : Registry) (q : Query) (scan : Bool) (waitFor : ℕ → Bool) : List ℤ :=
  let targets := (solicitTargets scan r (r.queryNodes q)).2
  (targets.zipIdx.filter fun t => waitFor t.2).map Prod.fst

end Registry

/-- `prevJobID`. It is 0 in a `bebopd` that is restarted without a file. -/
structure PrevJobID where
  val : ℤ
  nonneg : 0 ≤ val
  le_last : val ≤ 10001

def PrevJobID.next (prev : PrevJobID) : JobId where
  val := nextJobID prev.val
  pos := by
    have := prev.nonneg
    unfold nextJobID firstJobID
    split <;> omega
  le_last := by
    unfold nextJobID firstJobID lastJobID
    split <;> omega

def PrevJobID.of (job : JobId) : PrevJobID := ⟨job.val, by have := job.pos; omega, job.le_last⟩

/-- What `answer_yod_requests` keeps while it waits: the nodes that were asked, and how many
allocations each PCT had granted before. -/
structure Pending where
  job : JobId
  nnodes : ℤ
  pcts : List ℤ
  sent : List ℤ
  since : ℤ → ℕ

structure Answer where
  job : JobId
  pcts : List ℤ
  since : ℤ → ℕ

structure Site where
  registry : Registry
  prevJobID : PrevJobID
  pending : Option Pending
  pct : ℤ → Main
  requests : ℤ → List Request
  updates : ℤ → List (UpdateType × PctId)
  /-- The PCT still sends its initial message (`noBebopdAckYet`). -/
  unacked : ℤ → Bool
  answers : List Answer

namespace Site

def work (s : Site) (n : ℤ) (i : Input) : Option Site :=
  ((s.pct n).newSection.step i).map fun p =>
    { s with
      pct := update s.pct n p
      updates := update s.updates n
        (s.updates n ++ p.out.map fun d => (.pctUpdateMsg, d)) }

def serve (s : Site) (n : ℤ) (r : Readings) : Option Site :=
  match s.requests n with
  | [] => none
  | q :: rest =>
    ({ s with
      requests := update s.requests n rest
      unacked := update s.unacked n false } : Site).work n (.bebopd (some q) r)

def hello (s : Site) (n : ℤ) : Option Site :=
  if s.unacked n ∧ (s.pct n).loc = .yod then
    some { s with
      updates := update s.updates n
        (s.updates n ++ [(.pctInitialMsg, (s.pct n).state)]) }
  else none

/-- `bebopd` takes the next update of a node. `rc` is what the send of `PCT_GOTCHA` returns. -/
def receive (s : Site) (n rc : ℤ) : Option Site :=
  match s.updates n with
  | [] => none
  | (msgtype, data) :: rest =>
    some { s with
      registry := s.registry.updatePctPidArray ⟨n, ppidPct, msgtype, data⟩ rc
      updates := update s.updates n rest
      requests :=
        if msgtype = .pctInitialMsg ∧ IsNode n ∧ rc = 1 then
          update s.requests n (s.requests n ++ [.gotcha])
        else s.requests }

def send (s : Site) (ns : List ℤ) (q : Request) : Site :=
  { s with requests := fun n => if n ∈ ns then s.requests n ++ [q] else s.requests n }

def ping (s : Site) (n : ℤ) (q : Request) : Site :=
  if statusTalking (s.registry.larray n).status then s.send [n] q else s

def poll (s : Site) (query : Query) (scan : Bool) (waitFor : ℕ → Bool) : Site :=
  ({ s with registry := s.registry.solicitPctUpdates query scan waitFor } : Site).send
    (s.registry.sentNodes query scan waitFor) .status

def ask (s : Site) (req : YodRequest) (yod : Yod) (waitFor : ℕ → Bool) : Option Site :=
  if checkYodRequest req = false then some s
  else if s.registry.maxPct < s.registry.minPct then some s
  else
    match findFreeNodes s.registry req yod with
    | none => none
    | some (rc, ws) =>
      if rc ≠ .ok then some s
      else
        let query := Query.nodes (pctList req ws)
        let sent := s.registry.sentNodes query false waitFor
        let job := s.prevJobID.next
        some (({ s with
          registry := s.registry.solicitPctUpdates query false waitFor
          pending := some ⟨job, req.nnodes, pctList req ws, sent,
            fun n => (s.pct n).allocations.length⟩ } : Site).send sent
              (.allocate job req.sessionId))

def answer (s : Site) (w : Pending) : Site :=
  let r := if s.registry.pbsSupport then s.registry.computeActiveNodes else s.registry
  if (w.sent.length : ℤ) ≠ w.nnodes then { s with registry := r, pending := none }
  else
    let marked := r.markAllocated w.pcts
    if marked.2 then
      { s with
        registry := marked.1
        prevJobID := .of w.job
        pending := none
        answers := s.answers ++ [⟨w.job, w.pcts, w.since⟩] }
    else { s with registry := marked.1, pending := none }

end Site

inductive SiteAct
  | work (n : ℤ) (i : Input)
  | serve (n : ℤ) (r : Readings)
  | hello (n : ℤ)
  | receive (n rc : ℤ)
  | ping (n : ℤ) (q : Request)
  | gone (p : Ping)
  | poll (query : Query) (scan : Bool) (waitFor : ℕ → Bool)
  | ask (req : YodRequest) (yod : Yod) (waitFor : ℕ → Bool)
  | answer

namespace Site

def noRequest : Input → Bool
  | .bebopd (some _) _ => false
  | _ => true

def fromPing : Request → Bool
  | .allocate _ _ | .gotcha | .status => false
  | _ => true

def step (s : Site) : SiteAct → Option Site
  | .work n i => if noRequest i then s.work n i else none
  | .serve n r => s.serve n r
  | .hello n => s.hello n
  | .receive n rc => s.receive n rc
  | .ping n q => if s.pending.isNone ∧ fromPing q then some (s.ping n q) else none
  | .gone p =>
    if s.pending.isNone then some { s with registry := s.registry.pctGoneUpdate p } else none
  | .poll query scan waitFor =>
    if s.pending.isNone then some (s.poll query scan waitFor) else none
  | .ask req yod waitFor => if s.pending.isNone then s.ask req yod waitFor else none
  | .answer => s.pending.map s.answer

def start (r : Registry) (list : List ℤ) (prev : PrevJobID) (nodeType : ℤ → NodeType)
    (healthCheck : ℤ → Bool) (niceKillSeconds : ℤ → ℤ) : Site where
  registry := r.newInteractiveList list
  prevJobID := prev
  pending := none
  pct n := .init (nodeType n) (healthCheck n) (niceKillSeconds n)
  requests _ := []
  updates _ := []
  unacked _ := true
  answers := []

def awaits (s : Site) (n : ℤ) : Bool :=
  match s.pending with
  | none => false
  | some w => n ∈ w.sent

/-- When nodes are asked, nothing is on its way to or from them, and until `yod` is answered
they have nothing to tell but the answer. -/
def Settled (s : Site) : SiteAct → Prop
  | .ask req yod waitFor =>
    match findFreeNodes s.registry req yod with
    | some (.ok, ws) => ∀ n ∈ s.registry.sentNodes (.nodes (pctList req ws)) false waitFor,
        s.updates n = [] ∧ s.requests n = []
    | _ => True
  | .work n i => s.awaits n = true → (s.pct n).Resting i
  | .hello n => s.awaits n = false
  | _ => True

def Granted (s : Site) (job : JobId) (since : ℤ → ℕ) (n : ℤ) : Prop :=
  job.val ∈ (s.pct n).allocations.drop (since n)

end Site

variable {ns : List ℤ} {waitFor : ℕ → Bool} {i : Input}

namespace Registry
variable {r : Registry} {n m : ℤ}

theorem status_setStatus_self (s : Int16) : ((r.setStatus n s).larray n).status = s := by
  simp [setStatus]

theorem status_setStatus_of_ne (hmn : m ≠ n) (s : Int16) :
    (r.setStatus n s).larray m = r.larray m := by
  simp [setStatus, update_of_ne hmn]

theorem talking_of_mem_solicitTargets (h : n ∈ (solicitTargets false r ns).2) :
    statusTalking (r.larray n).status = true := by
  induction ns generalizing r with
  | nil => cases h
  | cons m ns ih =>
    rw [solicitTargets] at h
    split_ifs at h with ht
    · rcases mem_cons.mp h with rfl | h
      · simpa [isTarget] using ht
      · have htalk := ih h
        by_cases hnm : n = m
        · rw [hnm, status_setStatus_self] at htalk
          cases htalk
        · rwa [status_setStatus_of_ne hnm] at htalk
    · exact ih h

theorem solicitTargets_nodup (ns : List ℤ) : (solicitTargets false r ns).2.Nodup := by
  induction ns generalizing r with
  | nil => exact nodup_nil
  | cons m ns ih =>
    rw [solicitTargets]
    split_ifs
    · refine nodup_cons.mpr ⟨fun hm => ?_, ih⟩
      have htalk := talking_of_mem_solicitTargets hm
      rw [status_setStatus_self] at htalk
      cases htalk
    · exact ih

theorem status_solicitTargets (scan : Bool) (ns : List ℤ) :
    ((solicitTargets scan r ns).1.larray n).status =
      if n ∈ (solicitTargets scan r ns).2 then statusUnreported else (r.larray n).status := by
  induction ns generalizing r with
  | nil => rfl
  | cons m ns ih =>
    rw [solicitTargets]
    split_ifs with ht hn hn
    · rw [ih]
      rcases mem_cons.mp hn with rfl | hn
      · rw [status_setStatus_self, ite_self]
      · rw [if_pos hn]
    · rw [mem_cons, not_or] at hn
      rw [ih, if_neg hn.2, status_setStatus_of_ne hn.1]
    · rw [ih, if_pos hn]
    · rw [ih, if_neg hn]

theorem status_foldl_sendFailed (ns : List ℤ) (h : (r.larray n).status ≠ statusFree) :
    ((ns.foldl sendFailed r).larray n).status ≠ statusFree := by
  induction ns generalizing r with
  | nil => exact h
  | cons m ns ih =>
    apply ih
    rw [sendFailed, status_unregister]
    by_cases hnm : n = m
    · rw [hnm, status_setStatus_self]
      decide
    · rwa [status_setStatus_of_ne hnm]

theorem sentNodes_sublist (q : Query) (scan : Bool) (waitFor : ℕ → Bool) :
    (r.sentNodes q scan waitFor).Sublist (solicitTargets scan r (r.queryNodes q)).2 := by
  have hsub := (filter_sublist (p := fun t : ℤ × ℕ => waitFor t.2)
    (l := (solicitTargets scan r (r.queryNodes q)).2.zipIdx)).map Prod.fst
  rwa [zipIdx_map_fst] at hsub

theorem sentNodes_subset (waitFor : ℕ → Bool) :
    r.sentNodes (.nodes ns) false waitFor ⊆ ns := fun _ hn =>
  (List.mem_filter.mp (solicitTargets_subset _ _ ((sentNodes_sublist _ _ _).subset hn))).1

theorem status_solicitPctUpdates {q : Query} {scan : Bool}
    (hpcts : ¬ r.maxPct < r.minPct) (hn : n ∈ r.sentNodes q scan waitFor) :
    ((r.solicitPctUpdates q scan waitFor).larray n).status ≠ statusFree := by
  rw [solicitPctUpdates, if_neg hpcts]
  apply status_foldl_sendFailed
  rw [status_solicitTargets, if_pos ((sentNodes_sublist _ _ _).subset hn)]
  decide

theorem larray_updatePctPidArray_of_ne {msg : PctMsg} (rc : ℤ) (hn : n ≠ msg.nid) :
    (r.updatePctPidArray msg rc).larray n = r.larray n := by
  unfold updatePctPidArray
  split_ifs
  · rfl
  · rfl
  · rw [widenPcts, larray_takeUpdate, update_of_ne hn]

theorem status_updatePctPidArray (msg : PctMsg) (rc : ℤ) :
    ((r.updatePctPidArray msg rc).larray msg.nid).status = (r.larray msg.nid).status ∨
      ((r.updatePctPidArray msg rc).larray msg.nid).status = msg.data.status := by
  unfold updatePctPidArray
  split_ifs
  · exact .inl rfl
  · exact .inl rfl
  · rw [widenPcts, larray_takeUpdate, update_self]
    exact .inr rfl

theorem free_of_markAllocated (h : (r.markAllocated ns).2 = true) (hn : n ∈ ns) :
    (r.larray n).status = statusFree := by
  induction ns generalizing r with
  | nil => cases hn
  | cons m ns ih =>
    rw [markAllocated] at h
    split_ifs at h with hm
    push Not at hm
    rcases mem_cons.mp hn with rfl | hn
    · exact hm
    · have hfree := ih h hn
      by_cases hnm : n = m
      · rwa [hnm]
      · rwa [status_setStatus_of_ne hnm] at hfree

end Registry

namespace Site
variable {s s' : Site} {w : Pending} {n m : ℤ} {job : JobId} {since : ℤ → ℕ}

theorem Granted.mono (hgrow : (s.pct n).allocations <+: (s'.pct n).allocations)
    (h : s.Granted job since n) : s'.Granted job since n := by
  obtain ⟨rest, hrest⟩ := hgrow
  rw [Granted, ← hrest, drop_append]
  exact mem_append_left _ h

inductive Awaited (s : Site) (w : Pending) (n : ℤ) : Prop
  | asked (session : ℤ) : s.requests n = [.allocate w.job session] → s.updates n = [] →
      (s.registry.larray n).status ≠ statusFree → Awaited s w n
  | replied (data : PctId) : s.requests n = [] → s.updates n = [(.pctUpdateMsg, data)] →
      (s.registry.larray n).status ≠ statusFree →
      (data.status = statusFree → s.Granted w.job w.since n) → Awaited s w n
  | heard : s.requests n = [] → s.updates n = [] →
      ((s.registry.larray n).status = statusFree → s.Granted w.job w.since n) → Awaited s w n

theorem Awaited.congr (h : s.Awaited w n) (hreq : s'.requests n = s.requests n)
    (hupd : s'.updates n = s.updates n) (hlarray : s'.registry.larray n = s.registry.larray n)
    (hgrow : (s.pct n).allocations <+: (s'.pct n).allocations) : s'.Awaited w n := by
  cases h with
  | asked session hr hu hs =>
    exact .asked session (hreq.trans hr) (hupd.trans hu) (hlarray ▸ hs)
  | replied data hr hu hs hg =>
    exact .replied data (hreq.trans hr) (hupd.trans hu) (hlarray ▸ hs) fun hd => (hg hd).mono hgrow
  | heard hr hu hg =>
    refine .heard (hreq.trans hr) (hupd.trans hu) fun hs => ?_
    rw [hlarray] at hs
    exact (hg hs).mono hgrow

structure Waiting (s : Site) (w : Pending) : Prop where
  nodup : w.sent.Nodup
  subset : w.sent ⊆ w.pcts
  length : w.pcts.length = w.nnodes.toNat
  since_le : ∀ n, w.since n ≤ (s.pct n).allocations.length
  awaited : ∀ n ∈ w.sent, s.Awaited w n

structure Inv (s : Site) : Prop where
  answered : ∀ a ∈ s.answers, ∀ n ∈ a.pcts, s.Granted a.job a.since n
  waiting : ∀ w, s.pending = some w → s.Waiting w

theorem awaits_eq (hw : s.pending = some w) : s.awaits n = true ↔ n ∈ w.sent := by simp [awaits, hw]

section
variable (h : s.Inv) (hans : s'.answers = s.answers) (hpend : s'.pending = s.pending)
include h hans hpend

theorem Inv.keep (hgrow : ∀ n, (s.pct n).allocations <+: (s'.pct n).allocations)
    (hawait : ∀ w n, s.Waiting w → n ∈ w.sent → s.pending = some w → s'.Awaited w n) : s'.Inv where
  answered a ha n hn := (h.answered a (hans ▸ ha) n hn).mono (hgrow n)
  waiting w hw := by
    rw [hpend] at hw
    have hwait := h.waiting w hw
    exact ⟨hwait.nodup, hwait.subset, hwait.length,
      fun n => (hwait.since_le n).trans (hgrow n).length_le,
      fun n hn => hawait w n hwait hn hw⟩

theorem Inv.idle (hidle : s.pending = none) (hpct : s'.pct = s.pct) : s'.Inv := by
  refine h.keep hans hpend (fun n => hpct ▸ prefix_refl _) fun w n _ _ hw => ?_
  rw [hidle] at hw
  cases hw

end

theorem work_eq (h : s.work n i = some s') :
    ∃ p, (s.pct n).newSection.step i = some p ∧ s' = { s with
      pct := update s.pct n p
      updates := update s.updates n
        (s.updates n ++ p.out.map fun d => (.pctUpdateMsg, d)) } := by
  obtain ⟨p, hp, rfl⟩ := map_eq_some_iff.mp h
  exact ⟨p, hp, rfl⟩

theorem allocations_update {p : Main} (hp : (s.pct n).newSection.step i = some p)
    (m : ℤ) : (s.pct m).allocations <+: (update s.pct n p m).allocations := by
  by_cases hmn : m = n
  · subst hmn
    rw [update_self]
    have hgrow := Main.step_allocations hp
    exact hgrow
  · rw [update_of_ne hmn]

theorem Inv.work (h : s.Inv) (hok : s.awaits n = true → (s.pct n).Resting i)
    (hs : s.work n i = some s') : s'.Inv := by
  obtain ⟨p, hp, rfl⟩ := work_eq hs
  have hgrow := allocations_update (s := s) hp
  refine h.keep rfl rfl hgrow fun w m hwait hm hw => ?_
  refine (hwait.awaited m hm).congr rfl ?_ rfl (hgrow m)
  by_cases hmn : m = n
  · subst hmn
    have hrest : (s.pct m).newSection.Resting i := hok ((awaits_eq hw).mpr hm)
    have hout : p.out = [] := Main.step_resting hrest hp
    simp [hout]
  · exact update_of_ne hmn _ _

theorem Inv.serve {r : Readings} (h : s.Inv) (hs : s.serve n r = some s') : s'.Inv := by
  unfold Site.serve at hs
  split at hs
  · cases hs
  rename_i q rest hq
  obtain ⟨p, hp, rfl⟩ := work_eq hs
  have hgrow := allocations_update (s := s) hp
  refine h.keep rfl rfl hgrow fun w m hwait hm hw => ?_
  have hawait := hwait.awaited m hm
  by_cases hmn : m = n
  · subst hmn
    cases hawait with
    | asked session hr hu hfree =>
      obtain ⟨rfl, rfl⟩ := cons_eq_cons.mp (hq.symm.trans hr)
      obtain ⟨d, hout, hgrant⟩ := Main.serve_allocate hp
      refine .replied d (update_self _ _ _)
        ((update_self _ _ _).trans ?_) hfree fun hd => ?_
      · show s.updates m ++ _ = _
        rw [hu, hout]
        rfl
      rcases hgrant with hgrant | ⟨hd', -⟩
      · have hsince : ((s.pct m).allocations ++ [w.job.val]).drop (w.since m) = _ :=
          drop_append_of_le_length (hwait.since_le m)
        simp only [Granted, update_self]
        rw [hgrant]
        refine hsince.symm ▸ ?_
        exact mem_append_right _ (mem_singleton_self _)
      · exact absurd hd hd'
    | replied data hr | heard hr => exact absurd (hq.symm.trans hr) (cons_ne_nil _ _)
  · exact hawait.congr (update_of_ne hmn _ _) (update_of_ne hmn _ _) rfl (hgrow m)

theorem Inv.hello (h : s.Inv) (hok : s.awaits n = false) (hs : s.hello n = some s') : s'.Inv := by
  unfold Site.hello at hs
  split_ifs at hs
  cases hs
  refine h.keep rfl rfl (fun _ => prefix_refl _) fun w m hwait hm hw => ?_
  have hmn : m ≠ n := by
    rintro rfl
    rw [(awaits_eq hw).mpr hm] at hok
    cases hok
  exact (hwait.awaited m hm).congr rfl (update_of_ne hmn _ _) rfl (prefix_refl _)

theorem Inv.receive {rc : ℤ} (h : s.Inv) (hs : s.receive n rc = some s') : s'.Inv := by
  unfold Site.receive at hs
  split at hs
  · cases hs
  rename_i msgtype data rest hu
  cases hs
  refine h.keep rfl rfl (fun _ => prefix_refl _) fun w m hwait hm hw => ?_
  have hawait := hwait.awaited m hm
  by_cases hmn : m = n
  · subst hmn
    cases hawait with
    | asked session hr hu' | heard hr hu' => exact absurd (hu.symm.trans hu') (cons_ne_nil _ _)
    | replied d hr hu' hfree hgrant =>
      obtain ⟨hd, rfl⟩ := cons_eq_cons.mp (hu.symm.trans hu')
      obtain ⟨rfl, rfl⟩ := Prod.mk.inj hd
      refine .heard ?_ (update_self _ _ _) fun hs => ?_
      · rw [if_neg fun hinit => absurd hinit.1 (by decide)]
        exact hr
      · have hstatus := s.registry.status_updatePctPidArray ⟨m, ppidPct, .pctUpdateMsg, data⟩ rc
        rcases hstatus with heq | heq
        · exact absurd (heq.symm.trans hs) hfree
        · exact hgrant (heq.symm.trans hs)
  · refine hawait.congr ?_ (update_of_ne hmn _ _)
      (larray_updatePctPidArray_of_ne rc hmn) (prefix_refl _)
    split_ifs
    · exact update_of_ne hmn _ _
    · rfl

theorem Inv.ask {req : YodRequest} {yod : Yod} (h : s.Inv) (hok : s.Settled (.ask req yod waitFor))
    (hs : s.ask req yod waitFor = some s') : s'.Inv := by
  unfold Site.ask at hs
  split_ifs at hs with hreq hpcts
  · exact some.inj hs ▸ h
  · exact some.inj hs ▸ h
  unfold Settled at hok
  split at hs
  · cases hs
  rename_i rc ws hfind
  split_ifs at hs with hrc
  · exact some.inj hs ▸ h
  rw [not_not] at hrc
  subst hrc
  simp only [hfind] at hok
  cases hs
  refine ⟨h.answered, fun w hw => ?_⟩
  cases hw
  refine ⟨?_, sentNodes_subset waitFor, ?_, fun n => le_refl _, fun n hn => ?_⟩
  · exact (solicitTargets_nodup _).sublist (sentNodes_sublist _ _ _)
  · simp [pctList]
  · obtain ⟨hu, hr⟩ := hok n hn
    refine .asked req.sessionId ?_ hu (status_solicitPctUpdates hpcts hn)
    exact (if_pos hn).trans (congrArg (· ++ _) hr)

theorem Waiting.granted (h : s.Waiting w) (hsent : (w.sent.length : ℤ) = w.nnodes)
    (hfree : ∀ n ∈ w.pcts, (s.registry.larray n).status = statusFree) (hn : n ∈ w.pcts) :
    s.Granted w.job w.since n := by
  have hlen : w.pcts.length ≤ w.sent.length := by
    rw [h.length]
    omega
  have hperm := (subperm_of_subset h.nodup h.subset).perm_of_length_le hlen
  cases h.awaited n (hperm.mem_iff.mpr hn) with
  | asked session _ _ hs | replied data _ _ hs => exact absurd (hfree n hn) hs
  | heard _ _ hgrant => exact hgrant (hfree n hn)

theorem Inv.answer (h : s.Inv) (hw : s.pending = some w) : (s.answer w).Inv := by
  unfold Site.answer
  have hlarray : (if s.registry.pbsSupport then s.registry.computeActiveNodes
      else s.registry).larray = s.registry.larray := by
    split <;> rfl
  revert hlarray
  generalize (if s.registry.pbsSupport then s.registry.computeActiveNodes else s.registry) = r
  intro hlarray
  dsimp only
  split_ifs with hsent hmark
  all_goals refine ⟨?_, nofun⟩
  · exact h.answered
  · intro a ha n hn
    rcases mem_append.mp ha with ha | ha
    · exact h.answered a ha n hn
    · obtain rfl := mem_singleton.mp ha
      refine (h.waiting w hw).granted (not_not.mp hsent) (fun m hm => ?_) hn
      rw [← hlarray]
      exact free_of_markAllocated hmark hm
  · exact h.answered

theorem Inv.step {a : SiteAct} (h : s.Inv) (hok : s.Settled a) (hs : s.step a = some s') :
    s'.Inv := by
  cases a with
  | work n i =>
    rw [Site.step] at hs
    split_ifs at hs
    exact h.work hok hs
  | serve n r => exact h.serve hs
  | hello n => exact h.hello hok hs
  | receive n rc => exact h.receive hs
  | ping n q =>
    rw [Site.step] at hs
    split_ifs at hs with hidle
    cases hs
    rw [Site.ping]
    split_ifs
    · exact h.idle rfl rfl (isNone_iff_eq_none.mp hidle.1) rfl
    · exact h
  | gone p | poll query scan waitFor =>
    rw [Site.step] at hs
    split_ifs at hs with hidle
    exact some.inj hs ▸ h.idle rfl rfl (isNone_iff_eq_none.mp hidle) rfl
  | ask req yod waitFor =>
    rw [Site.step] at hs
    split_ifs at hs
    exact h.ask hok hs
  | answer =>
    obtain ⟨w, hw, rfl⟩ := map_eq_some_iff.mp hs
    exact h.answer hw

/-- If the nodes are settled when they are asked, each PCT of a load that succeeds has granted its
request: it was free and is then allocated to the job. -/
theorem allocation_handshake (r : Registry) (list : List ℤ) (prev : PrevJobID)
    (nodeType : ℤ → NodeType) (healthCheck : ℤ → Bool) (niceKillSeconds : ℤ → ℤ)
    (h : Reaches step Settled (start r list prev nodeType healthCheck niceKillSeconds) s)
    {a : Answer} (ha : a ∈ s.answers) (hn : n ∈ a.pcts) : s.Granted a.job a.since n := by
  have hinv : s.Inv := by
    apply h.invariant _ Inv.step
    exact ⟨nofun, nofun⟩
  exact hinv.answered a ha n hn

instance (p : Main) (m : Pct.YodMsg) : Decidable (p.Takes m) := by
  cases m <;> unfold Main.Takes <;> infer_instance

instance (p : Main) (i : Input) : Decidable (p.Resting i) := by
  unfold Main.Resting
  split <;> infer_instance

instance (s : Site) (a : SiteAct) : Decidable (s.Settled a) := by
  unfold Settled
  split
  · split <;> infer_instance
  all_goals infer_instance

instance (s : Site) (job : JobId) (since : ℤ → ℕ) (n : ℤ) :
    Decidable (s.Granted job since n) :=
  inferInstanceAs (Decidable (_ ∈ _))

def newSite : Site :=
  start World.blank [] ⟨firstJobID, by decide, by decide⟩ (fun _ => .iactiveNode) (fun _ => false)
    fun _ => 300

def registers (n : ℤ) : List SiteAct :=
  [.work n (.top 1000), .hello n, .receive n 1, .work n (.yod none), .work n (.kill 1000),
    .work n (.app .quiet), .serve n ⟨true, 1000, 1000⟩]

def requestPass (n t : ℤ) : List SiteAct :=
  [.work n (.top t), .work n (.yod none), .work n (.kill t), .work n (.app .quiet),
    .serve n ⟨true, t, t⟩]

def askOne : SiteAct := .ask (userRequest 1 .any) (yodWith []) fun _ => true

theorem allocation_handshake_one : ∃ s, Reaches step Settled newSite s ∧
    ∃ a ∈ s.answers, a.pcts = [1] ∧ s.Granted a.job a.since 1 := by
  refine exists_reaches_imp (P := fun s => ∃ a ∈ s.answers, a.pcts = [1])
    (registers 1 ++ [askOne] ++ requestPass 1 1001 ++ [.receive 1 1, .answer]) (by decide +kernel)
    fun s hs ⟨a, ha, hpcts⟩ => ⟨a, ha, hpcts, ?_⟩
  exact allocation_handshake _ _ _ _ _ _ hs ha (hpcts ▸ mem_singleton_self 1)

/-- A reset makes the PCT of node 1 say that it is free. The update is on its way when node 1
is asked, and is taken for the answer. The load succeeds, and the PCT has not seen the
request. -/
theorem stale_update_answers : ∃ s, Reaches step (fun _ _ => True) newSite s ∧
    ∃ a ∈ s.answers, ∃ n ∈ a.pcts, ¬ s.Granted a.job a.since n ∧
      (s.pct n).allocations = [] :=
  exists_reaches (registers 1 ++ [.ping 1 (.reset ⟨-1, -1, -1⟩)] ++ requestPass 1 1001 ++
    [askOne, .receive 1 1, .answer]) (by decide +kernel)

end Site
end Cplant.Bebopd
