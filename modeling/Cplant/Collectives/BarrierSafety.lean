import Cplant.Collectives.Barrier
import Cplant.Foundations.TreeBarrier

/-!
The barrier holds as long as no put of the reduction is counted twice: the state
of a group is a balanced tally of puts, and every careful act keeps it balanced.
-/
namespace Cplant.Collectives
open List Option Collectives.Group Nat Phase Proc Turn
open Function (update_self update_of_ne update)
open Portals (PtlEventKind)

def kids (n p : ℕ) : Finset ℕ :=
  if p < n then (partners 0 n p).1.toFinset else ∅

namespace Phase

def toHear : Phase → ℕ
  | .reduce turns => turns.countP fun t => !t.isChild
  | _ => 0

def unsent : Phase → ℕ
  | .reduce turns => turns.countP Turn.isChild
  | _ => 0

def unreleased : Phase → ℕ
  | .outside => 0
  | .reduce _ => 1
  | .acking _ _ => 1
  | .bcast turns => turns.countP Turn.isChild

def untold : Phase → ℕ → ℕ
  | .outside, _ => 0
  | .reduce _, _ => 1
  | .acking _ _, _ => 1
  | .bcast turns, c => turns.count (.asRoot c)

inductive Shape (found : List ℕ × Option ℕ) : Phase → Prop
  | outside : Shape found .outside
  | hearing {cs : List ℕ} (h : cs <:+ found.1) : Shape found (.reduce (faninTurns (cs, found.2)))
  | acking {q : ℕ} (h : found.2 = some q) : Shape found (.acking q [])
  | reduced : Shape found (.reduce [])
  | awaiting : Shape found (.bcast (fanoutTurns found))
  | telling {cs : List ℕ} (h : cs <:+ found.1) : Shape found (.bcast (cs.map .asRoot))

end Phase

def Proc.station (p : Proc) : Station ℕ where
  calls := p.calls
  done := p.done
  toHear := p.phase.toHear
  unsent := p.phase.unsent
  unreleased := p.phase.unreleased
  untold := p.phase.untold
  upQueue := (p.events .reduce).count .put
  downQueue := (p.events .bcast).count .put

namespace Group

def putsTo (g : Group) (c : ℕ) : ℕ :=
  g.flight.countP fun k => k.op = .bcast ∧ k.kind = .put ∧ k.dst = c

def tally (g : Group) : Tally ℕ where
  station r := (g.proc r).station
  upFlight := g.putsOut
  heard := g.heard
  downFlight := g.putsTo

def OnEdge (n : ℕ) (k : Packet) : Prop :=
  match k.op with
  | .reduce => k.src ∈ kids n k.dst
  | .bcast => k.dst ∈ kids n k.src

structure Sound (n : ℕ) (g : Group) : Prop where
  shape : ∀ r, (g.proc r).phase.Shape (partners 0 n r)
  edge : ∀ k ∈ g.flight, k.kind = .put → OnEdge n k
  balanced : g.tally.Balanced (kids n)

end Group

variable {r q c : ℕ} {cs : List ℕ} {ev wanted : PtlEventKind} {g' : Group} {k : Packet}
  {next : Phase} {op : Op} {sent : List Packet}

section Tree
variable {n p c : ℕ}

theorem mem_kids : c ∈ kids n p ↔ p < n ∧ c ∈ (partners 0 n p).1 := by
  unfold kids
  split_ifs with h <;> simp [h]

theorem kids_lt (h : c ∈ kids n p) : p < n ∧ c < n := by
  obtain ⟨hp, hc⟩ := mem_kids.mp h
  exact ⟨hp, sendto_lt (by omega) hc⟩

theorem card_kids (hp : p < n) : (kids n p).card = (partners 0 n p).1.length := by
  rw [kids, if_pos hp]
  exact toFinset_card_of_nodup (sendto_nodup (by omega) p)

theorem recvfrom_iff (hc : c < n) : (partners 0 n c).2 = some p ↔ c ∈ kids n p := by
  have hroot : 0 < n := by omega
  rw [mem_kids]
  constructor
  · intro h
    have hp := recvfrom_lt hroot h
    exact ⟨hp, (mem_sendto hroot hc).mpr ((recvfrom_eq hroot hp).mp h)⟩
  · rintro ⟨hp, h⟩
    exact (recvfrom_eq hroot hp).mpr ((mem_sendto hroot hc).mp h)

theorem parent_unique {p' : ℕ} (h : c ∈ kids n p) (h' : c ∈ kids n p') : p = p' := by
  have hc := (kids_lt h).2
  exact some.inj (((recvfrom_iff hc).mpr h).symm.trans ((recvfrom_iff hc).mpr h'))

theorem not_mem_kids_self : p ∉ kids n p := by
  intro h
  obtain ⟨hp, hmem⟩ := mem_kids.mp h
  exact lt_irrefl _ ((mem_sendto (by omega) hp).mp hmem).lt

theorem reached_by_kids (hr : r < n) : Relation.ReflTransGen (fun p c => c ∈ kids n p) 0 r := by
  have hroot : 0 < n := by omega
  suffices h : r < n ∧ Relation.ReflTransGen (fun p c => c ∈ kids n p) 0 r from h.2
  have hpath := reached_from_root hroot hr
  clear hr
  induction hpath with
  | refl => exact ⟨hroot, .refl⟩
  | @tail p c _ hc ih => exact ⟨sendto_lt hroot hc, ih.2.tail (mem_kids.mpr ⟨ih.1, hc⟩)⟩

end Tree

section Counts
variable {found : List ℕ × Option ℕ} {ph : Phase}

theorem countP_asRoot (cs : List ℕ) : (cs.map asRoot).countP isChild = 0 := by
  simp [countP_eq_zero, isChild]

theorem countP_asChild (o : Option ℕ) :
    (o.toList.map asChild).countP isChild = o.toList.length := by
  cases o <;> rfl

theorem toHear_faninTurns (found : List ℕ × Option ℕ) :
    (reduce (faninTurns found)).toHear = found.1.length := by
  have hchild : (found.2.toList.map asChild).countP (fun t => !t.isChild) = 0 := by
    cases found.2 <;> rfl
  have hroot : (found.1.map asRoot).countP (fun t => !t.isChild) = found.1.length := by
    rw [countP_map]
    exact countP_eq_length.mpr fun _ _ => rfl
  rw [toHear, faninTurns, countP_append, hchild, hroot, add_zero]

theorem unsent_faninTurns (found : List ℕ × Option ℕ) :
    (reduce (faninTurns found)).unsent = found.2.toList.length := by
  rw [unsent, faninTurns, countP_append, countP_asRoot, countP_asChild, zero_add]

theorem unreleased_fanoutTurns (found : List ℕ × Option ℕ) :
    (bcast (fanoutTurns found)).unreleased = found.2.toList.length := by
  rw [unreleased, fanoutTurns, countP_append, countP_asRoot, countP_asChild, add_zero]

theorem unreleased_asRoot (cs : List ℕ) : (bcast (cs.map .asRoot)).unreleased = 0 :=
  countP_asRoot cs

theorem untold_asRoot (cs : List ℕ) (c : ℕ) : (bcast (cs.map .asRoot)).untold c = cs.count c :=
  count_map_of_injective _ _ (fun _ _ => asRoot.inj) _

theorem untold_fanoutTurns (found : List ℕ × Option ℕ) (c : ℕ) :
    (bcast (fanoutTurns found)).untold c = found.1.count c := by
  have hchild : (found.2.toList.map asChild).count (.asRoot c) = 0 := by
    cases found.2 <;> rfl
  rw [untold, fanoutTurns, count_append, hchild, zero_add]
  exact untold_asRoot found.1 c

namespace Phase.Shape
section
variable (h : ph.Shape found)
include h

theorem unreleased_le_one : ph.unreleased ≤ 1 := by
  cases h with
  | outside => exact zero_le 1
  | hearing _ => exact le_rfl
  | acking _ => exact le_rfl
  | reduced => exact le_rfl
  | awaiting =>
    rw [unreleased_fanoutTurns]
    exact length_toList_le
  | telling _ =>
    rw [unreleased_asRoot]
    exact zero_le 1

theorem toHear_le_unsent (hq : found.2 = some q) : min 1 ph.toHear ≤ ph.unsent := by
  cases h with
  | hearing _ =>
    rw [unsent_faninTurns, hq]
    exact min_le_left _ _
  | _ => exact min_le_right _ _

theorem toHear_le_unreleased : min 1 ph.toHear ≤ ph.unreleased := by
  cases h with
  | hearing _ | reduced => exact min_le_left _ _
  | _ => exact (min_le_right _ _).trans (zero_le _)

theorem unreleased_le_untold (hc : c ∈ found.1) : ph.unreleased ≤ ph.untold c := by
  cases h with
  | awaiting =>
    rw [unreleased_fanoutTurns, untold_fanoutTurns]
    exact length_toList_le.trans (count_pos_iff.mpr hc)
  | telling _ =>
    rw [unreleased_asRoot]
    exact zero_le _
  | _ => exact le_rfl

end
end Phase.Shape
end Counts
namespace Group
variable {n : ℕ} {g : Group} {p : Proc}

theorem Sound.phased (h : Sound n g) : g.tally.Phased (kids n) 0 where
  hears_first _ c hc := (h.shape c).toHear_le_unsent ((recvfrom_iff (kids_lt hc).2).mpr hc)
  root_hears := (h.shape 0).toHear_le_unreleased
  released_first p _ hc := (h.shape p).unreleased_le_untold (mem_kids.mp hc).2

def advance (g : Group) (r : ℕ) (p : Proc) (sent : List Packet) : Group :=
  { g with proc := Function.update g.proc r p, flight := g.flight ++ sent }

theorem advance_self (g : Group) (r : ℕ) (p : Proc) (sent : List Packet) :
    (g.advance r p sent).proc r = p := by
  simp [advance]

theorem advance_of_ne (g : Group) {s : ℕ} (p : Proc) (sent : List Packet) (h : s ≠ r) :
    (g.advance r p sent).proc s = g.proc s := by
  simp [advance, update_of_ne h]

theorem putsOut_advance (g : Group) (r : ℕ) (p : Proc) (sent : List Packet) (s : ℕ) :
    (g.advance r p sent).putsOut s = g.putsOut s +
      sent.countP fun k => k.op = .reduce ∧ k.kind = .put ∧ k.src = s :=
  countP_append

theorem putsTo_advance (g : Group) (r : ℕ) (p : Proc) (sent : List Packet) (c : ℕ) :
    (g.advance r p sent).putsTo c = g.putsTo c +
      sent.countP fun k => k.op = .bcast ∧ k.kind = .put ∧ k.dst = c :=
  countP_append

section
variable (h : Sound n g) {r : ℕ}
include h

theorem Sound.advance (hshape : p.phase.Shape (partners 0 n r))
    (hsent : ∀ k ∈ sent, k.kind = .put → k.src = r ∧ OnEdge n k) (hup : g.heard r + g.putsOut r +
      (sent.countP fun k => k.op = .reduce ∧ k.kind = .put ∧ k.src = r) + p.phase.unsent ≤ p.calls)
    (hgather : p.calls * (kids n r).card + (p.events .reduce).count .put + (g.proc r).phase.toHear ≤
      (g.proc r).calls * (kids n r).card + ((g.proc r).events .reduce).count .put + p.phase.toHear)
    (hreported : ∀ c ∈ kids n r, p.calls ≤ g.heard c + min 1 p.phase.toHear)
    (htold : ∀ c ∈ kids n r, (sent.countP fun k => k.op = .bcast ∧ k.kind = .put ∧ k.dst = c) +
        p.phase.untold c + (g.proc r).calls ≤ (g.proc r).phase.untold c + p.calls)
    (hreleased : (partners 0 n r).2 ≠ none →
      p.calls + (p.events .bcast).count .put + (g.proc r).phase.unreleased ≤
        (g.proc r).calls + ((g.proc r).events .bcast).count .put + p.phase.unreleased)
    (hdone : p.done + p.phase.unreleased ≤ p.calls) : Sound n (g.advance r p sent) := by
  have hself := g.advance_self r p sent
  refine ⟨?_, ?_, h.balanced.move (r := r) ?_ fun _ => not_mem_kids_self⟩
  · intro s
    by_cases hs : s = r
    · rw [hs, hself]
      exact hshape
    · rw [g.advance_of_ne p sent hs]
      exact h.shape s
  · intro k hk hput
    rcases mem_append.mp hk with hk | hk
    · exact h.edge k hk hput
    · exact (hsent k hk hput).2
  · constructor
    case others =>
      intro s hs
      refine ⟨congrArg station (g.advance_of_ne p sent hs), ?_⟩
      refine (g.putsOut_advance r p sent s).trans ?_
      rw [countP_eq_zero.mpr, add_zero]
      · rfl
      · intro k hk hput
        have hput := of_decide_eq_true hput
        exact hs (hput.2.2.symm.trans (hsent k hk hput.2.1).1)
    case heard => rfl
    case downFlight =>
      intro s hs c hc
      refine (g.putsTo_advance r p sent c).trans ?_
      rw [countP_eq_zero.mpr, add_zero]
      · rfl
      · intro k hk hput
        have hput := of_decide_eq_true hput
        obtain ⟨hsrc, hedge⟩ := hsent k hk hput.2.1
        -- a put to a child of `s` comes from `s`
        rw [OnEdge, hput.1, hsrc, hput.2.2] at hedge
        exact hs (parent_unique hc hedge)
    case up =>
      simp only [tally, station, hself, putsOut_advance]
      omega
    case gather =>
      simp only [tally, station, hself]
      exact hgather
    case reported =>
      simp only [tally, station, hself]
      exact hreported
    case told =>
      intro c hc
      have := htold c hc
      simp only [tally, station, hself, putsTo_advance]
      omega
    case released =>
      intro q hq
      simp only [tally, station, hself]
      refine hreleased ?_
      rw [(recvfrom_iff (kids_lt hq).2).mpr hq]
      exact nofun
    case done_le =>
      simp only [tally, station, hself]
      exact hdone

theorem Sound.done_le (r : ℕ) : (g.proc r).done + (g.proc r).phase.unreleased ≤ (g.proc r).calls :=
  h.balanced.done_le r

theorem Sound.up (r : ℕ) : g.heard r + g.putsOut r + (g.proc r).phase.unsent ≤ (g.proc r).calls :=
  h.balanced.up r

theorem Sound.reported (hc : c ∈ kids n r) :
    (g.proc r).calls ≤ g.heard c + min 1 (g.proc r).phase.toHear :=
  h.balanced.reported r c hc

theorem Sound.reported_last (hc : c ∈ kids n r) {turns : List Turn}
    (hphase : (g.proc r).phase = .reduce turns) (hlast : (g.proc r).phase.toHear = 1)
    (hput : 0 < ((g.proc r).events .reduce).count .put) : (g.proc r).calls = g.heard c := by
  have htold : ∀ d ∈ kids n r, (g.proc r).phase.untold d = 1 := by
    intro d _
    rw [hphase]
    rfl
  exact (h.balanced.reported_last hlast hput htold (fun d => (h.shape d).unreleased_le_one) c
    hc).symm

theorem Sound.rest (hcalls : p.calls = (g.proc r).calls)
    (hdone : p.done = (g.proc r).done) (hphase : p.phase = (g.proc r).phase)
    (hevents : ∀ op, (p.events op).count .put ≤ ((g.proc r).events op).count .put) :
    Sound n (g.advance r p []) := by
  have := hevents .reduce
  have := hevents .bcast
  refine h.advance (hphase ▸ h.shape r) nofun ?_ ?_ ?_ ?_ ?_ ?_
  · rw [hcalls, hphase, countP_nil]
    exact h.up r
  · rw [hcalls, hphase]
    omega
  · rw [hcalls, hphase]
    exact fun c hc => h.reported hc
  · intro c _
    rw [hcalls, hphase, countP_nil]
    omega
  · rw [hcalls, hphase]
    omega
  · rw [hcalls, hphase, hdone]
    exact h.done_le r

end

theorem count_put_tail {events rest : List PtlEventKind} (h : events = ev :: rest) :
    rest.count .put + (if ev = .put then 1 else 0) = events.count .put := by
  rw [h, count_cons]
  simp

theorem eqGet_cases {p' : Proc} (h : p.eqGet op wanted next = some p') :
    ∃ ev rest, p.events op = ev :: rest ∧ p' = { p with
        events := update p.events op rest
        phase := if ev = wanted then next else p.phase } := by
  unfold eqGet at h
  split at h
  · cases h
  next ev rest hev => exact ⟨ev, rest, hev, (some.inj h).symm⟩

section
variable (h : Sound n g) {rest : List PtlEventKind} {r : ℕ}
include h

theorem Sound.discard (hev : (g.proc r).events op = ev :: rest) : Sound n (g.advance r
      { g.proc r with events := update (g.proc r).events op rest } []) := by
  refine h.rest rfl rfl rfl fun op' => ?_
  by_cases hop : op' = op
  · subst hop
    have := count_put_tail hev
    simp only [update_self]
    omega
  · simp only [update_of_ne hop]
    exact le_rfl

theorem Sound.hear (hphase : (g.proc r).phase = .reduce (faninTurns (c :: cs, (partners 0 n r).2)))
    (hcs : (c :: cs) <:+ (partners 0 n r).1) (hev : (g.proc r).events .reduce = .put :: rest) :
    Sound n (g.advance r { g.proc r with
        events := update (g.proc r).events .reduce rest
        phase := .reduce (faninTurns (cs, (partners 0 n r).2)) } []) := by
  have hqueue : rest.count .put + 1 = ((g.proc r).events .reduce).count .put := count_put_tail hev
  have hhear : (g.proc r).phase.toHear = cs.length + 1 := by rw [hphase, toHear_faninTurns]; rfl
  have hup := h.up r
  have hdone := h.done_le r
  refine h.advance (.hearing ((suffix_cons c cs).trans hcs))
    nofun ?_ ?_ ?_ ?_ ?_ ?_
  · simp only [hphase, unsent_faninTurns] at hup
    simp only [unsent_faninTurns, countP_nil]
    exact hup
  · simp only [hhear, toHear_faninTurns, update_self]
    omega
  · intro d hd
    simp only [toHear_faninTurns]
    rcases Nat.eq_zero_or_pos cs.length with hcs | hcs
    · have := h.reported_last hd hphase (by omega) (by omega)
      omega
    · have := h.reported hd
      omega
  · intro d _
    simp only [hphase, countP_nil, untold]
    omega
  · simp only [hphase, unreleased, ne_eq, reduceCtorEq, not_false_eq_true,
      update_of_ne]
    exact fun _ => le_rfl
  · rwa [hphase] at hdone

theorem Sound.turn {ph : Phase} {sent : List Packet} (hshape : ph.Shape (partners 0 n r))
    (hsent : ∀ k ∈ sent, k.kind = .put → k.src = r ∧ OnEdge n k)
    (hup : (sent.countP fun k => k.op = .reduce ∧ k.kind = .put ∧ k.src = r) + ph.unsent ≤
      (g.proc r).phase.unsent) (hhear : ph.toHear = (g.proc r).phase.toHear)
    (htold : ∀ c ∈ kids n r,
      (sent.countP fun k => k.op = .bcast ∧ k.kind = .put ∧ k.dst = c) + ph.untold c ≤
        (g.proc r).phase.untold c) (hle : ph.unreleased ≤ (g.proc r).phase.unreleased)
    (hreleased : (partners 0 n r).2 ≠ none → ph.unreleased = (g.proc r).phase.unreleased) :
    Sound n (g.advance r { g.proc r with phase := ph } sent) := by
  have := h.up r
  have := h.done_le r
  refine h.advance hshape hsent ?_ ?_ ?_ ?_ ?_ ?_
  · change _ + _ + _ + ph.unsent ≤ (g.proc r).calls
    omega
  · exact le_of_eq (congrArg _ hhear.symm)
  · rw [hhear]
    exact h.balanced.reported r
  · intro c hc
    exact Nat.add_le_add_right (htold c hc) _
  · exact fun hp => le_of_eq (congrArg _ (hreleased hp).symm)
  · change (g.proc r).done + ph.unreleased ≤ (g.proc r).calls
    omega

theorem Sound.call (hr : r < n) (hphase : (g.proc r).phase = .outside) : Sound n (g.advance r
      { g.proc r with
        calls := (g.proc r).calls + 1
        phase := .reduce (faninTurns (partners 0 n r))
        failed := false } []) := by
  have hup := h.up r
  have hdone := h.done_le r
  have hparent : (partners 0 n r).2.toList.length ≤ 1 := length_toList_le
  have hcard := card_kids hr
  rw [hphase] at hup hdone
  refine h.advance (.hearing suffix_rfl) nofun
    ?_ ?_ ?_ ?_ ?_ ?_
  · simp only [unsent_faninTurns, countP_nil]
    omega
  · simp only [hphase, toHear_faninTurns, hcard, add_one_mul]
    change _ + 0 ≤ _
    omega
  · intro c hc
    have hreported := h.reported hc
    have hpos := length_pos_of_mem (mem_kids.mp hc).2
    rw [hphase] at hreported
    simp only [toHear_faninTurns]
    change _ ≤ g.heard c + min 1 0 at hreported
    omega
  · intro c _
    simp only [hphase, countP_nil, untold]
    omega
  · intro _
    simp only [hphase, unreleased]
    omega
  · exact succ_le_succ hdone

theorem Sound.release (hparent : (partners 0 n r).2 = some q)
    (hphase : (g.proc r).phase = .bcast (fanoutTurns (partners 0 n r)))
    (hev : (g.proc r).events .bcast = .put :: rest) : Sound n (g.advance r { g.proc r with
        events := update (g.proc r).events .bcast rest
        phase := .bcast ((partners 0 n r).1.map .asRoot) } []) := by
  have hqueue : rest.count .put + 1 = ((g.proc r).events .bcast).count .put := count_put_tail hev
  have hup := h.up r
  have hdone := h.done_le r
  rw [hphase] at hup hdone
  refine h.advance (.telling suffix_rfl) nofun
    ?_ ?_ ?_ ?_ ?_ ?_
  · exact hup
  · simp only [hphase, ne_eq, reduceCtorEq, not_false_eq_true, update_of_ne]
    exact le_rfl
  · intro c hc
    have hreported := h.reported hc
    rwa [hphase] at hreported
  · intro c _
    simp only [hphase, countP_nil, untold_fanoutTurns, untold_asRoot]
    omega
  · intro _
    simp only [hphase, unreleased_fanoutTurns, hparent, toList_some, length_singleton,
      unreleased_asRoot, update_self]
    omega
  · simp only [unreleased_asRoot]
    omega

theorem Sound.finish (hphase : (g.proc r).phase = .bcast []) :
    Sound n (g.advance r { g.proc r with phase := .outside, done := (g.proc r).calls } []) := by
  have hup := h.up r
  rw [hphase] at hup
  refine h.advance .outside nofun hup ?_ ?_ ?_ ?_ le_rfl
  · simp only [hphase]
    exact le_rfl
  · intro c hc
    have hreported := h.reported hc
    rwa [hphase] at hreported
  · intro c _
    simp only [hphase, countP_nil, untold, count_nil]
    exact le_rfl
  · intro _
    simp only [hphase]
    exact le_rfl

end

theorem ptlPut_onEdge {src dst : ℕ} (h : OnEdge n ⟨op, .put, src, dst⟩) :
    ∀ k ∈ ptlPut op src dst, k.kind = .put → k.src = src ∧ OnEdge n k := by
  intro k hk hput
  rcases mem_cons.mp hk with rfl | hk
  · exact ⟨rfl, h⟩
  · rw [mem_singleton.mp hk] at hput
    cases hput

theorem parent_onEdge (hr : r < n) (hparent : (partners 0 n r).2 = some q) :
    OnEdge n ⟨.reduce, .put, r, q⟩ :=
  (recvfrom_iff hr).mp hparent

theorem Sound.send (h : Sound n g) (hr : r < n) (hparent : (partners 0 n r).2 = some q)
    (hphase : (g.proc r).phase = .reduce [.asChild q]) :
    Sound n (g.advance r { g.proc r with phase := .acking q [] } (ptlPut .reduce r q)) := by
  refine h.turn (.acking hparent) (ptlPut_onEdge (parent_onEdge hr hparent)) ?_ ?_ ?_ ?_ ?_
  all_goals rw [hphase]
  · simp [ptlPut, unsent, isChild]
  · rfl
  · intro c _
    simp [ptlPut, untold]
  · exact le_rfl
  · exact fun _ => rfl

theorem Sound.resend (h : Sound n g) (hr : r < n) (hparent : (partners 0 n r).2 = some q)
    (hphase : (g.proc r).phase = .acking q [])
    (hlost : g.heard r + g.putsOut r < (g.proc r).calls) :
    Sound n (g.advance r (g.proc r) (ptlPut .reduce r q)) := by
  refine h.advance (h.shape r) (ptlPut_onEdge (parent_onEdge hr hparent)) ?_ le_rfl
    (fun c hc => h.reported hc) ?_ (fun _ => le_rfl) (h.done_le r)
  · have hone : ((ptlPut .reduce r q).countP
        fun k => k.op = .reduce ∧ k.kind = .put ∧ k.src = r) = 1 := by
      simp [ptlPut]
    rw [hphase, hone]
    exact hlost
  · intro c _
    simp [ptlPut]

theorem Sound.tell (h : Sound n g) (hr : r < n) (hcs : (c :: cs) <:+ (partners 0 n r).1)
    (hphase : (g.proc r).phase = .bcast ((c :: cs).map .asRoot)) :
    Sound n (g.advance r { g.proc r with phase := .bcast (cs.map .asRoot) }
      (ptlPut .bcast r c)) := by
  have hkid : c ∈ kids n r := mem_kids.mpr ⟨hr, hcs.subset mem_cons_self⟩
  refine h.turn (.telling ((suffix_cons c cs).trans hcs)) (ptlPut_onEdge hkid) ?_ ?_ ?_ ?_ ?_
  all_goals rw [hphase]
  · simp [ptlPut, unsent]
  · rfl
  · intro d _
    have hone : ((ptlPut .bcast r c).countP
        fun k => k.op = .bcast ∧ k.kind = .put ∧ k.dst = d) = if c = d then 1 else 0 := by
      simp [ptlPut, countP_cons]
    rw [untold_asRoot, untold_asRoot, count_cons, hone]
    simp only [beq_iff_eq]
    omega
  · rw [unreleased_asRoot, unreleased_asRoot]
  · intro _
    rw [unreleased_asRoot, unreleased_asRoot]

theorem Sound.turnAround (h : Sound n g) (hr : r < n) (hphase : (g.proc r).phase = .reduce []) :
    Sound n (g.advance r { g.proc r with phase := .bcast (fanoutTurns (partners 0 n r)) } []) := by
  refine h.turn .awaiting nofun ?_ ?_ ?_ ?_ ?_
  all_goals rw [hphase]
  · exact le_rfl
  · rfl
  · intro c hc
    rw [untold_fanoutTurns, countP_nil, zero_add]
    exact nodup_iff_count_le_one.mp (sendto_nodup (by omega) r) c
  · rw [unreleased_fanoutTurns]
    exact length_toList_le
  · intro hparent
    obtain ⟨q, hq⟩ := ne_none_iff_exists'.mp hparent
    rw [unreleased_fanoutTurns, hq]
    rfl

theorem Sound.eqGet (h : Sound n g) (hget : (g.proc r).eqGet op wanted next = some p)
    (hwanted : ∀ rest, (g.proc r).events op = wanted :: rest → Sound n (g.advance r { g.proc r with
          events := update (g.proc r).events op rest
          phase := next } [])) : Sound n (g.advance r p []) := by
  obtain ⟨ev, rest, hev, rfl⟩ := eqGet_cases hget
  by_cases hw : ev = wanted
  · rw [if_pos hw]
    exact hwanted rest (hw ▸ hev)
  · rw [if_neg hw]
    exact h.discard hev

theorem advance_advance (g : Group) (r : ℕ) (p p' : Proc) :
    (g.advance r p []).advance r p' [] = g.advance r p' [] := by
  simp [advance]

section
variable {r : ℕ} {p : Proc} (h : Sound n g)
include h

theorem Sound.poll (hpoll : (g.proc r).poll = some p) : Sound n (g.advance r p []) := by
  have hs := h.shape r
  generalize hph : (g.proc r).phase = ph at hs
  rw [Proc.poll, hph] at hpoll
  cases hs with
  | outside => cases hpoll
  | @hearing cs hcs =>
    cases cs with
    | cons c cs => exact h.eqGet hpoll fun rest hev => h.hear hph hcs hev
    | nil => cases hq : (partners 0 n r).2 <;> rw [hq] at hpoll <;> cases hpoll
  | acking hq =>
    refine h.eqGet hpoll fun rest hev => ?_
    -- the acknowledgement is taken like any event, then the fan-in is over
    have hself := g.advance_self r
      { g.proc r with events := update (g.proc r).events .reduce rest } []
    have hturn := @Sound.turn n _ (h.discard hev) r (.reduce []) [] .reduced
      nofun
    rw [advance_advance, hself, hph] at hturn
    exact hturn le_rfl rfl (fun _ _ => le_rfl) le_rfl fun _ => rfl
  | reduced => cases hpoll
  | awaiting =>
    cases hq : (partners 0 n r).2 with
    | some q =>
      rw [fanoutTurns, hq] at hpoll
      exact h.eqGet hpoll fun rest hev => h.release hq hph hev
    | none =>
      rw [fanoutTurns, hq] at hpoll
      cases hcs : (partners 0 n r).1 <;> rw [hcs] at hpoll <;> cases hpoll
  | @telling cs hcs => cases cs <;> cases hpoll

theorem Sound.put (hr : r < n)
    (hput : (g.proc r).move n r .put = some (p, sent)) : Sound n (g.advance r p sent) := by
  have hs := h.shape r
  generalize hph : (g.proc r).phase = ph at hs
  rw [move, hph] at hput
  cases hs with
  | outside => cases hput
  | @hearing cs hcs =>
    cases cs with
    | cons c cs => cases hput
    | nil =>
      cases hq : (partners 0 n r).2 with
      | none =>
        rw [hq] at hput
        cases hput
      | some q =>
        rw [hq] at hput hph
        cases hput
        exact h.send hr hq hph
  | acking hq => cases hput
  | reduced => cases hput
  | awaiting =>
    cases hq : (partners 0 n r).2 with
    | some q =>
      rw [fanoutTurns, hq] at hput
      cases hput
    | none =>
      rw [fanoutTurns, hq] at hput hph
      cases hcs : (partners 0 n r).1 with
      | nil =>
        rw [hcs] at hput
        cases hput
      | cons c cs =>
        rw [hcs] at hput hph
        cases hput
        exact h.tell hr (hcs ▸ suffix_rfl) hph
  | @telling cs hcs =>
    cases cs with
    | nil => cases hput
    | cons c cs =>
      cases hput
      exact h.tell hr hcs hph

theorem Sound.move (hr : r < n) {mv : Move} (hc : g.Careful (.proc r mv))
    (hm : (g.proc r).move n r mv = some (p, sent)) : Sound n (g.advance r p sent) := by
  cases mv with
  | call =>
    rw [Proc.move] at hm
    split at hm
    case isTrue hfree =>
      cases hm
      have hphase := hfree.resolve_right (ne_true_of_eq_false hc)
      rw [faninCalls_eq]
      exact h.call hr hphase
    case isFalse => cases hm
  | poll =>
    obtain ⟨p', hpoll, hp⟩ := map_eq_some_iff.mp hm
    obtain ⟨rfl, rfl⟩ := Prod.mk.inj hp
    exact h.poll hpoll
  | put => exact h.put hr hm
  | retry =>
    have hs := h.shape r
    rw [Proc.move] at hm
    split at hm
    case h_1 q turns hph =>
      cases hm
      rw [hph] at hs
      cases hs with
      | acking hq => exact h.resend hr hq hph hc
    case h_2 => cases hm
  | proceed =>
    rw [Proc.move] at hm
    split at hm
    case h_1 hph =>
      cases hm
      rw [fanoutCalls_eq]
      exact h.turnAround hr hph
    case h_2 hph =>
      cases hm
      exact h.finish hph
    case h_3 => cases hm
  | fail =>
    rw [Proc.move] at hm
    split at hm
    case h_1 => cases hm
    case h_2 => cases hm
    case h_3 =>
      cases hm
      exact h.rest rfl rfl rfl fun _ => le_rfl

end

theorem count_put_append (events : List PtlEventKind) (ev : PtlEventKind) :
    (events ++ [ev]).count .put = events.count .put + if ev = .put then 1 else 0 := by
  rw [count_append, count_singleton]
  simp

theorem setEvents_events (g : Group) (r s : ℕ) (op op' : Op) (events : List PtlEventKind) :
    (g.setEvents r op events s).events op' =
      if s = r ∧ op' = op then events else (g.proc s).events op' := by
  unfold setEvents
  by_cases hs : s = r
  · subst hs
    by_cases hop : op' = op
    · subst hop
      simp
    · simp [hop]
  · simp [hs]

theorem setEvents_station (g : Group) (r s : ℕ) (op : Op) (events : List PtlEventKind) :
    (g.setEvents r op events s).station = { (g.proc s).station with
        upQueue := ((g.setEvents r op events s).events .reduce).count .put
        downQueue := ((g.setEvents r op events s).events .bcast).count .put } := by
  unfold setEvents
  by_cases hs : s = r
  · subst hs
    simp only [update_self]
    rfl
  · simp only [update_of_ne hs]
    rfl

theorem setEvents_phase (g : Group) (r s : ℕ) (op : Op) (events : List PtlEventKind) :
    (g.setEvents r op events s).phase = (g.proc s).phase := by
  unfold setEvents
  by_cases hs : s = r
  · subst hs
    simp
  · simp [update_of_ne hs]

theorem countP_erase_add {flight : List Packet} (hk : k ∈ flight) (f : Packet → Bool) :
    (flight.erase k).countP f + (if f k then 1 else 0) = flight.countP f := by
  rw [(perm_cons_erase hk).countP_eq, countP_cons]

theorem Sound.lose (h : Sound n g) (k : Packet) :
    Sound n { g with flight := g.flight.erase k } := by
  have hsub : (g.flight.erase k).Sublist g.flight := erase_sublist
  refine ⟨h.shape, fun j hj => h.edge j (hsub.subset hj), ?_⟩
  exact h.balanced.carry (fun _ => rfl) (fun _ => le_rfl)
    (fun c => Nat.add_le_add_left (hsub.countP_le) _) (fun _ => le_rfl)
    (fun c => Nat.add_le_add_left (hsub.countP_le) _)

theorem Sound.overwrite (h : Sound n g) (r : ℕ) (op : Op) (i : ℕ) :
    Sound n { g with proc := g.setEvents r op (((g.proc r).events op).eraseIdx i) } := by
  have hrest := h.rest (r := r) (p := { g.proc r with
    events := update (g.proc r).events op (((g.proc r).events op).eraseIdx i) })
    rfl rfl rfl fun op' => by
      by_cases hop : op' = op
      · subst hop
        simp only [update_self]
        exact (eraseIdx_sublist _ i).count_le _
      · simp only [update_of_ne hop]
        exact le_rfl
  simpa [Group.advance, setEvents] using hrest

theorem count_delivered (g : Group) (k : Packet) (s : ℕ) (op : Op) :
    ((g.setEvents k.dst k.op ((g.proc k.dst).events k.op ++ [k.kind]) s).events op).count .put =
      ((g.proc s).events op).count .put +
        if s = k.dst ∧ op = k.op ∧ k.kind = .put then 1 else 0 := by
  rw [setEvents_events]
  by_cases hs : s = k.dst ∧ op = k.op
  · rw [if_pos hs, count_put_append, hs.1, hs.2]
    simp
  · rw [if_neg hs, if_neg fun h => hs ⟨h.1, h.2.1⟩, add_zero]

theorem putsOut_deliver (hk : k ∈ g.flight) (c : ℕ) :
    (g.deliver k).putsOut c + (if k.op = .reduce ∧ k.kind = .put ∧ k.src = c then 1 else 0) =
      g.putsOut c := by
  have herase := countP_erase_add hk fun j => j.op = .reduce ∧ j.kind = .put ∧ j.src = c
  simp only [decide_eq_true_eq] at herase
  unfold putsOut deliver
  split_ifs at herase ⊢ <;> simpa [countP_append] using herase

theorem putsTo_deliver (hk : k ∈ g.flight) (c : ℕ) :
    (g.deliver k).putsTo c + (if k.op = .bcast ∧ k.kind = .put ∧ k.dst = c then 1 else 0) =
      g.putsTo c := by
  have herase := countP_erase_add hk fun j => j.op = .bcast ∧ j.kind = .put ∧ j.dst = c
  simp only [decide_eq_true_eq] at herase
  unfold putsTo deliver
  split_ifs at herase ⊢ <;> simpa [countP_append] using herase

theorem deliver_proc (g : Group) (k : Packet) (s : ℕ) : (g.deliver k).proc s =
    g.setEvents k.dst k.op ((g.proc k.dst).events k.op ++ [k.kind]) s := by
  unfold deliver
  split_ifs <;> rfl

theorem heard_deliver (g : Group) (k : Packet) (c : ℕ) : (g.deliver k).heard c =
    g.heard c + if k.op = .reduce ∧ k.kind = .put ∧ k.src = c then 1 else 0 := by
  unfold deliver
  split_ifs with hput hc hc
  · rw [← hc.2.2]
    exact update_self _ _ g.heard
  · exact update_of_ne (fun e => hc ⟨hput.1, hput.2, e.symm⟩) _ _
  · exact absurd ⟨hc.1, hc.2.1⟩ hput
  · rfl

theorem mem_deliver {j : Packet} (hj : j ∈ (g.deliver k).flight) :
    j ∈ g.flight ∨ j.kind = .ack := by
  unfold deliver at hj
  split_ifs at hj
  · rcases mem_append.mp hj with hj | hj
    · exact .inl (mem_of_mem_erase hj)
    · exact .inr (congrArg Packet.kind (mem_singleton.mp hj))
  · exact .inl (mem_of_mem_erase hj)

theorem sum_heard_deliver (g : Group) (k : Packet) (s : Finset ℕ) : ∑ c ∈ s, (g.deliver k).heard c =
      (∑ c ∈ s, g.heard c) + if k.op = .reduce ∧ k.kind = .put ∧ k.src ∈ s then 1 else 0 := by
  simp only [heard_deliver, Finset.sum_add_distrib, add_left_cancel_iff]
  by_cases hput : k.op = .reduce ∧ k.kind = .put
  · simp [hput.1, hput.2]
  · have hnone : ∀ q : Prop, ¬(k.op = .reduce ∧ k.kind = .put ∧ q) := fun _ h =>
      hput ⟨h.1, h.2.1⟩
    simp [hnone]

theorem Sound.deliver (h : Sound n g) (hk : k ∈ g.flight) : Sound n (g.deliver k) := by
  have hqueue := g.count_delivered k
  have hstation := fun s =>
    (congrArg station (g.deliver_proc k s)).trans (g.setEvents_station k.dst s k.op _)
  refine ⟨?_, ?_, h.balanced.carry hstation (fun c => ?_) (fun c => ?_) (fun p => ?_)
    (fun c => ?_)⟩
  · intro s
    rw [deliver_proc, setEvents_phase]
    exact h.shape s
  · intro j hj hjput
    rcases mem_deliver hj with hj | hj
    · exact h.edge j hj hjput
    · rw [hj] at hjput
      cases hjput
  · exact (le_add_right _ _).trans_eq (g.heard_deliver k c).symm
  · have := g.heard_deliver k c
    have := putsOut_deliver hk c
    change (g.deliver k).heard c + (g.deliver k).putsOut c ≤ g.heard c + g.putsOut c
    omega
  · change _ + ∑ c ∈ kids n p, g.heard c ≤ ((g.proc p).events .reduce).count .put +
      ∑ c ∈ kids n p, (g.deliver k).heard c
    rw [hqueue p .reduce, sum_heard_deliver]
    split_ifs with hp hkid
    · omega
    · have hedge := h.edge k hk hp.2.2
      rw [OnEdge, ← hp.2.1, ← hp.1] at hedge
      exact absurd ⟨hp.2.1.symm, hp.2.2, hedge⟩ hkid
    · omega
    · omega
  · have := putsTo_deliver hk c
    change _ + (g.deliver k).putsTo c ≤ ((g.proc c).events .bcast).count .put + g.putsTo c
    rw [hqueue c .bcast]
    split_ifs at this ⊢ with hc hk' hk'
    · omega
    · exact absurd ⟨hc.2.1.symm, hc.2.2, hc.1.symm⟩ hk'
    · omega
    · omega

theorem Sound.step (h : Sound n g) {a : Act} (hc : g.Careful a)
    (hs : g.step n a = some g') : Sound n g' := by
  cases a with
  | proc r mv =>
    rw [Group.step] at hs
    split at hs
    case isTrue hr =>
      obtain ⟨⟨p, sent⟩, hm, rfl⟩ := map_eq_some_iff.mp hs
      exact h.move hr.1 hc hm
    case isFalse => cases hs
  | deliver k =>
    rw [Group.step] at hs
    split at hs
    case isTrue hk =>
      cases hs
      exact h.deliver hk
    case isFalse => cases hs
  | lose k =>
    rw [Group.step] at hs
    split at hs
    case isTrue hk =>
      cases hs
      exact h.lose k
    case isFalse => cases hs
  | overwrite r op i =>
    cases hs
    exact h.overwrite r op i

theorem sound_init (n : ℕ) : Sound n init := by
  refine ⟨fun _ => .outside, nofun, ?_⟩
  constructor
  · exact fun _ => le_rfl
  · exact fun p => by simp [tally, init, station]
  · exact fun _ _ _ => zero_le _
  · exact fun _ _ _ => le_rfl
  · exact fun _ => le_rfl

theorem Reached.sound (h : Reached n g) : Sound n g := by
  induction h with
  | init => exact sound_init n
  | step _ hc hs ih => exact ih.step hc hs

/-- A rank returns from a barrier only when every rank has called it as often. -/
theorem barrier_safe (h : Reached n g) {r q : ℕ} (hr : r < n) (hq : q < n) :
    (g.proc r).done ≤ (g.proc q).calls :=
  h.sound.balanced.done_le_calls h.sound.phased (reached_by_kids hr) (reached_by_kids hq)

def playCarefully (n : ℕ) (g : Group) (acts : List Act) : Option Group :=
  acts.foldlM (fun g a => if g.Careful a then g.step n a else none) g

theorem Reached.playCarefully (h : Reached n g) {acts : List Act}
    (hplay : g.playCarefully n acts = some g') : Reached n g' := by
  induction acts generalizing g with
  | nil =>
    cases hplay
    exact h
  | cons a acts ih =>
    rw [playCarefully, foldlM_cons] at hplay
    obtain ⟨g1, hstep, hrest⟩ := bind_eq_some_iff.mp hplay
    split_ifs at hstep with hc
    exact ih (h.step hc hstep) hrest

def lostPut : List Act :=
  [.proc 1 .call, .proc 1 .put, .lose ⟨.reduce, .put, 1, 0⟩, .proc 1 .retry, .proc 0 .call,
    .deliver ⟨.reduce, .put, 1, 0⟩, .deliver ⟨.reduce, .ack, 0, 1⟩, .proc 0 .poll, .proc 0 .proceed,
    .proc 0 .put, .deliver ⟨.bcast, .put, 0, 1⟩, .proc 1 .poll, .proc 1 .proceed, .proc 1 .poll,
    .proc 1 .proceed]

theorem barrier_safe_lostPut : ∃ g, Reached 2 g ∧ (g.proc 1).done = 1 ∧
    (g.proc 1).done ≤ (g.proc 0).calls := by
  have hrun : (init.playCarefully 2 lostPut).any
      (fun g => (g.proc 1).done = 1) = true := by decide +kernel
  obtain ⟨g, hg, hdone⟩ := (any_eq_true _ _).mp hrun
  have hreached := Reached.init.playCarefully hg
  exact ⟨g, hreached, of_decide_eq_true hdone,
    barrier_safe hreached (by decide : 1 < 2) (by decide : 0 < 2)⟩

end Group
end Cplant.Collectives
