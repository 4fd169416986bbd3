import Cplant.Portals.AutoUnlink
import Cplant.Portals.Bounds

/-!
# Answers and incarnations of descriptors

Interfaces that exchange headers. A header names the descriptor an answer is for by
its slot alone, so the slot must hold that descriptor until the answer is in. Here
every slot counts how often it has been handed out, and each packet and message carries
the slot and the count of the put or get it belongs to. The library sees neither.
-/
namespace Cplant.Portals
open Option Call PtlHdr Function List

structure Origin (ι : Type*) where
  host : ι
  slot : ℕ
  epoch : ℕ
deriving DecidableEq

structure Packet (ι : Type*) where
  nid : PtlId
  pid : PtlId
  hdr : PtlHdr
  origin : Origin ι
deriving DecidableEq

structure Network (ι : Type*) where
  ni : ι → LibNi
  epoch : ι → ℕ → ℕ
  origin : ι → ℕ → Origin ι
  flight : List (Packet ι)

def PtlHdr.answerMd (hdr : PtlHdr) : Option PtlHandle :=
  match hdr.msg with
  | .put _ ackMd _ _ _ _ => if 0 ≤ ackMd then some ackMd else none
  | .get _ _ _ _ _ returnMd => some returnMd
  | .ack dstMd _ _ => some dstMd
  | .reply dstMd _ _ => some dstMd
  | _ => none

def Packet.answerTo {ι : Type*} (p : Packet ι) : PtlId × PtlId :=
  match p.hdr.msg with
  | .put .. | .get .. => (p.hdr.src.nid, p.hdr.src.pid)
  | _ => (p.nid, p.pid)

def NalCall.packet {ι : Type*} (g : Origin ι) : NalCall → Option (Packet ι)
  | .send _ hdr nid pid _ _ _ _ => some ⟨nid, pid, hdr, g⟩
  | _ => none

namespace Network
variable {ι : Type*} [DecidableEq ι]

def address (w : Network ι) (x : ι) : PtlId × PtlId := ((w.ni x).nid, (w.ni x).pid)

def cause (w : Network ι) (x : ι) : Call → Origin ι
  | .put args _ _ => ⟨x, handleIndex args.mdIn, w.epoch x (handleIndex args.mdIn)⟩
  | .get args => ⟨x, handleIndex args.mdIn, w.epoch x (handleIndex args.mdIn)⟩
  | .finalize (some i) => w.origin x i
  | _ => ⟨x, 0, 0⟩

def after (w : Network ι) (x : ι) (g : Origin ι) (o : Outcome) (flight : List (Packet ι)) :
    Network ι where
  ni := update w.ni x o.ni
  epoch := update w.epoch x fun d =>
    if LiveMd o.ni d ∧ ¬ LiveMd (w.ni x) d then w.epoch x d + 1 else w.epoch x d
  origin := update w.origin x fun i =>
    if LiveMsg (w.ni x) i then w.origin x i else g
  flight := flight ++ o.calls.filterMap (NalCall.packet g)

inductive Reached (ok : Network ι → ι → Call → Prop) : Network ι → Prop
  | init {w : Network ι} (hinit : ∀ x, ∃ mem nid pid rid gid gsize ptlSize,
        w.ni x = libInit mem nid pid rid gid gsize ptlSize)
      (haddress : Injective w.address) (hflight : w.flight = []) : Reached ok w
  | call {w : Network ι} {x : ι} {c : Call} {r : NalReply} {o : Outcome} (h : Reached ok w)
      (hc : ∀ hdr, c ≠ .parse hdr) (henabled : Enabled (w.ni x) c) (hok : ok w x c)
      (hstep : step (w.ni x) r c = some o) : Reached ok (w.after x (w.cause x c) o w.flight)
  | deliver {w : Network ι} {x : ι} {a b : List (Packet ι)} {p : Packet ι} {r : NalReply}
      {o : Outcome} (h : Reached ok w) (hflight : w.flight = a ++ p :: b)
      (haddress : w.address x = (p.nid, p.pid)) (hok : ok w x (.parse p.hdr))
      (hstep : step (w.ni x) r (.parse p.hdr) = some o) :
      Reached ok (w.after x p.origin o (a ++ b))
  | lose {w : Network ι} {a b : List (Packet ι)} {p : Packet ι} (h : Reached ok w)
      (hflight : w.flight = a ++ p :: b) : Reached ok { w with flight := a ++ b }

def Outstanding (w : Network ι) (g : Origin ι) : Prop :=
  (∃ p ∈ w.flight, p.origin = g ∧ p.hdr.answerMd.isSome) ∨
    ∃ y i, LiveMsg (w.ni y) i ∧ 0 ≤ ((w.ni y).msg i).returnMd ∧ w.origin y i = g

end Network

def Call.Frees (ni : LibNi) (d : ℕ) (c : Call) : Prop :=
  c.Unlinks ni d ∨ ∃ i, c = .finalize (some i) ∧ (ni.msg i).md = some d ∧
    (ni.md d).pending - 1 = 0 ∧ (ni.md d).doUnlink = true

def AwaitsAnswers {ι : Type*} (w : Network ι) (x : ι) (c : Call) : Prop :=
  ∀ d, c.Frees (w.ni x) d → ¬ w.Outstanding ⟨x, d, w.epoch x d⟩

variable {d : ℕ} {o : Outcome} {r : NalReply} {a : PtlId × PtlId} {k : NalCall}
  {ok : Network Bool → Bool → Call → Prop} {ni ni' : LibNi} {c : Call}

theorem Fate.live_of_not_frees (hf : Fate ni c ni' d) (hlive : LiveMd ni d)
    (hfrees : ¬ c.Frees ni d) : LiveMd ni' d := by
  cases hf with
  | kept hiff => exact hiff.mpr hlive
  | born _ _ _ hdead => exact absurd hlive hdead
  | updated _ _ _ _ hlive' => exact hlive'
  | charged _ _ _ _ _ _ hlive' => exact hlive'
  | requested _ _ _ _ _ _ hlive' => exact hlive'
  | used _ _ _ hlive' => exact hlive'
  | completed _ _ hiff => exact hiff.mpr hlive
  | released hc hi hdead hmsgs hidle hmark =>
    exact absurd (.inr ⟨_, hc, (mem_msgsOn.mp hi).2, hidle, hmark⟩) hfrees
  | unlinked hc => exact absurd (.inl hc) hfrees

/-- The messages after a call: those from before, and a new one that owes an
acknowledgement only if a put header asked for it. -/
theorem Action.msgs (ha : Action ni c ni') (hw : Wf ni) (hen : Enabled ni c) {i : ℕ}
    (hi : LiveMsg ni' i) : LiveMsg ni i ∧ (ni'.msg i).unstamped = (ni.msg i).unstamped ∨
      ¬ LiveMsg ni i ∧ ((ni'.msg i).returnMd = -1 ∨ ∃ hdr, c = .parse hdr ∧
        (ni'.msg i).ackTo = (hdr.ackMd, hdr.src.nid, hdr.src.pid)) := by
  have hsame : ∀ {n : LibNi}, n.msgPool = ni.msgPool → n.msg = ni.msg → LiveMsg n i →
      LiveMsg ni i ∧ (n.msg i).unstamped = (ni.msg i).unstamped :=
    fun hpool hmsg hl => ⟨by simpa [LiveMsg, hpool] using hl, by rw [hmsg]⟩
  have hstarts : ∀ {n : LibNi} {j d : ℕ} {b : Bool}, n.msgPool = ni.msgPool → n.msg = ni.msg →
      Starts n j d b ni' → i ≠ j ∧ LiveMsg ni i ∧ (ni'.msg i).unstamped = (ni.msg i).unstamped ∨
        i = j ∧ ¬ LiveMsg ni i := by
    intro n j d b hpool hmsg hs
    have halloc := hpool ▸ hs.alloc
    have hlive := FreeList.alloc_live hw.msgPool halloc
    by_cases hij : i = j
    · exact .inr ⟨hij, hij ▸ fun hl => (FreeList.alloc_spec hw.msgPool halloc).2.1 hl.2⟩
    · refine .inl ⟨hij, ((hlive i).mp hi).resolve_left hij, ?_⟩
      rw [hs.msg i hij, hmsg]
  cases ha with
  | rejected | eqAlloc | eqFree | mdUnlink | mdUpdate | granted => exact .inl (hsame rfl rfl hi)
  | meAttach hk hempty halloc | meInsert hlive halloc =>
    obtain ⟨p, -, hmid⟩ := map_eq_some_iff.mp halloc
    cases hmid
    exact .inl (hsame rfl rfl hi)
  | meUnlink hlive hun =>
    obtain ⟨-, -, -, -, hpool, hmsg, -⟩ := libMeUnlink_rest hun
    exact .inl (hsame hpool hmsg hi)
  | mdAttach hlive hempty hb | mdInsert hlive hb | mdBind hb =>
    have hb := libMdBuild_spec hb
    exact .inl (hsame hb.msgPool hb.msg hi)
  | @grantedHeld hdr _ found j _ hreq hfound hstart hreturn =>
    obtain ⟨-, hold⟩ | ⟨rfl, hnew⟩ := hstarts (n := ni.charge found) rfl rfl hstart
    · exact .inl hold
    · refine .inr ⟨hnew, ?_⟩
      obtain hnone | ⟨-, hto⟩ := hreturn
      · exact .inl hnone
      · exact .inr ⟨hdr, rfl, hto⟩
  | held hown hlive hactive hstart hreturn =>
    obtain ⟨-, hold⟩ | ⟨rfl, hnew⟩ := hstarts (n := ni) rfl rfl hstart
    · exact .inl hold
    · exact .inr ⟨hnew, .inl hreturn⟩
  | @notWritten j d e hmd heq => exact .inl ⟨hi, stampEvent_unstamped ni j e i⟩
  | @finalize j d ni' calls hmd hrelease =>
    obtain ⟨-, -, -, -, hpool, hmsg, -⟩ := releaseMd_rest hrelease
    have hpool : ni'.msgPool = ni.msgPool := hpool.trans (posted_quiet ni j d).msgPool
    have hlive : LiveMsg ni i ∧ i ≠ j := by
      have hrel := FreeList.release_live hw.msgPool hen.1 hen.2 i
      simp only [LiveMsg, libMsgFree, hpool] at hi
      exact hrel.mp hi
    refine .inl ⟨hlive.1, ?_⟩
    have hto := posted_unstamped ni j d i
    rwa [← hmsg] at hto

theorem libParse_accepts {hdr : PtlHdr} (hown : (parse hdr).ownMd = some d)
    (hs : libParse ni hdr r = some o) (hrc : o.rc = 0) : ∃ i, Starts ni i d false o.ni := by
  have htake : ∀ {dst : PtlHandle}, handleIndex dst = d → TakesAnswer ni dst o →
      ∃ i, Starts ni i d false o.ni := by
    rintro dst rfl ⟨-, ⟨hne, -⟩ | ⟨-, -, -, i, hstart, -⟩⟩
    · exact absurd hrc hne
    · exact ⟨i, hstart⟩
  unfold libParse at hs
  split at hs
  next hm => exact htake (by simpa [ownMd, hm] using hown) (parseAck_cases hs)
  next hm => simp [ownMd, hm] at hown
  next hm => simp [ownMd, hm] at hown
  next hm => exact htake (by simpa [ownMd, hm] using hown) (parseReply_cases hs)
  next hm => simp [ownMd, hm] at hown
  next hm => simp [ownMd, hm] at hown

namespace Network
variable {ι : Type*} {w : Network ι} {hdl : PtlHandle} {g : Origin ι} {x : ι} {c : Call}
  {flight : List (Packet ι)} {q p : Packet ι}

structure Owed (w : Network ι) (hdl : PtlHandle) (a : PtlId × PtlId) (g : Origin ι) : Prop where
  live : LiveMd (w.ni g.host) g.slot
  slot : handleIndex hdl = g.slot
  epoch : w.epoch g.host g.slot = g.epoch
  address : w.address g.host = a

structure Attributed (w : Network ι) : Prop where
  wf : ∀ x, Wf (w.ni x)
  address : Injective w.address
  packet : ∀ p ∈ w.flight, ∀ hdl, p.hdr.answerMd = some hdl → w.Owed hdl p.answerTo p.origin
  msg : ∀ y i, LiveMsg (w.ni y) i → 0 ≤ ((w.ni y).msg i).returnMd →
    w.Owed ((w.ni y).msg i).returnMd (((w.ni y).msg i).nid, ((w.ni y).msg i).pid) (w.origin y i)

theorem Owed.not_freed (h : w.Owed hdl a g) (hok : AwaitsAnswers w x c)
    (hout : w.Outstanding g) : g.host = x → ¬ c.Frees (w.ni x) g.slot := by
  rintro rfl hfrees
  refine hok g.slot hfrees ?_
  rwa [h.epoch]

theorem owed_own {md : ℕ} (hmd : LiveMd (w.ni x) md) :
    w.Owed (Int32.ofNat md) (w.address x) ⟨x, md, w.epoch x md⟩ := by
  have hlt : md < 2 ^ 16 := lt_trans hmd.1 (by decide)
  exact ⟨hmd, handleIndex_ofNat hlt, rfl, rfl⟩

/-- A call of the application or the NAL sends a request of its own, or the
acknowledgement that the completed message owes. -/
theorem Attributed.call_sends (h : w.Attributed) (hen : Enabled (w.ni x) c)
    (hc : ∀ hdr, c ≠ .parse hdr) (he : Emits (w.ni x) c k)
    (hp : k.packet (w.cause x c) = some p) (hans : p.hdr.answerMd = some hdl) :
    w.Owed hdl p.answerTo (w.cause x c) ∧
      (w.Outstanding (w.cause x c) ∨ ∀ d, ¬ c.Frees (w.ni x) d) := by
  cases he with
  | plain hplain =>
    cases k with
    | send => exact hplain.elim
    | _ => cases hp
  | @put args ack data i nid pid gid rid length addr src hsrc hlive =>
    cases hp
    subst hsrc
    cases ack with
    | false => simp [answerMd] at hans
    | true =>
      simp only [answerMd, if_true, ite_none_right_eq_some, Option.some.injEq] at hans
      obtain rfl := hans.2
      exact ⟨owed_own hlive, .inr fun d => by simp [Call.Frees, Call.Unlinks]⟩
  | @get args i nid pid gid rid length offset hlive =>
    cases hp
    cases hans
    exact ⟨owed_own hlive, .inr fun d => by simp [Call.Frees, Call.Unlinks]⟩
  | reply => exact absurd rfl (hc _)
  | write => cases hp
  | @ack i mlength bits gid rid src howed =>
    cases hp
    cases hans
    exact ⟨h.msg x i hen howed, .inl (.inr ⟨x, i, hen, howed, rfl⟩)⟩

theorem Attributed.delivery_sends (h : w.Attributed) (hq : q ∈ w.flight)
    (he : Emits (w.ni x) (.parse q.hdr) k)
    (hp : k.packet q.origin = some p) (hans : p.hdr.answerMd = some hdl) :
    w.Owed hdl p.answerTo q.origin := by
  cases he with
  | plain hplain =>
    cases k with
    | send => exact hplain.elim
    | _ => cases hp
  | reply hmsg =>
    cases hp
    cases hans
    have hans' : q.hdr.answerMd = some hdl := by simp [answerMd, hmsg]
    have howed := h.packet q hq hdl hans'
    simpa [Packet.answerTo, hmsg] using howed

theorem Attributed.delivery_owes (h : w.Attributed) (hq : q ∈ w.flight)
    (hack : 0 ≤ q.hdr.ackMd) : w.Owed q.hdr.ackMd (q.hdr.src.nid, q.hdr.src.pid) q.origin := by
  have hput : q.hdr.answerMd = some q.hdr.ackMd ∧
      q.answerTo = (q.hdr.src.nid, q.hdr.src.pid) := by
    unfold ackMd at hack ⊢
    split at hack
    next hmsg => simp [answerMd, Packet.answerTo, hmsg, hack]
    next => cases hack
  have howed := h.packet q hq _ hput.1
  rwa [hput.2] at howed

theorem Attributed.lose (h : w.Attributed) (hsub : ∀ p ∈ flight, p ∈ w.flight) :
    { w with flight := flight }.Attributed := by
  have howed : ∀ {hdl : PtlHandle} {a : PtlId × PtlId} {g : Origin ι}, w.Owed hdl a g →
      { w with flight := flight }.Owed hdl a g :=
    fun ho => ⟨ho.live, ho.slot, ho.epoch, ho.address⟩
  exact ⟨h.wf, h.address, fun p hp hdl hans => howed (h.packet p (hsub p hp) hdl hans),
    fun y i hi hret => howed (h.msg y i hi hret)⟩

variable [DecidableEq ι]

theorem Owed.after {g' : Origin ι} (h : w.Owed hdl a g) (hw : Wf (w.ni x))
    (hen : Enabled (w.ni x) c) (hs : step (w.ni x) r c = some o)
    (hkeep : g.host = x → ¬ c.Frees (w.ni x) g.slot) : (w.after x g' o flight).Owed hdl a g := by
  have hsrc : o.ni.src = (w.ni x).src := (step_action hs).host.2
  simp only [LibNi.src, PtlSrc.mk.injEq] at hsrc
  by_cases hx : g.host = x
  · subst hx
    have hlive := ((step_action hs).fate hw hen g.slot).live_of_not_frees h.live (hkeep rfl)
    refine ⟨by simpa [Network.after] using hlive, h.slot, ?_, ?_⟩
    · simp [Network.after, h.live, h.epoch]
    · rw [← h.address]
      simp [Network.after, Network.address, hsrc]
  · exact ⟨by simpa [Network.after, hx] using h.live, h.slot,
      by simpa [Network.after, hx] using h.epoch,
      by simpa [Network.after, Network.address, hx] using h.address⟩

theorem Attributed.after (h : w.Attributed) (hen : Enabled (w.ni x) c)
    (hs : step (w.ni x) r c = some o) (hok : AwaitsAnswers w x c)
    (hsub : ∀ p ∈ flight, p ∈ w.flight)
    (hsend : ∀ k, Emits (w.ni x) c k → ∀ p, k.packet g = some p →
      ∀ hdl, p.hdr.answerMd = some hdl → w.Owed hdl p.answerTo g ∧
        (w.Outstanding g ∨ ∀ d, ¬ c.Frees (w.ni x) d))
    (hnew : ∀ hdr, c = .parse hdr → 0 ≤ hdr.ackMd → w.Owed hdr.ackMd (hdr.src.nid, hdr.src.pid) g) :
    (w.after x g o flight).Attributed := by
  have hacts := step_acts hs
  have haddress : (w.after x g o flight).address = w.address := by
    have hsrc : o.ni.src = (w.ni x).src := hacts.action.host.2
    simp only [LibNi.src, PtlSrc.mk.injEq] at hsrc
    funext y
    by_cases hy : y = x
    · subst hy
      simp [Network.after, Network.address, hsrc]
    · simp [Network.after, Network.address, hy]
  refine ⟨fun y => ?_, haddress ▸ h.address, fun p hp hdl hans => ?_, fun y i hi hret => ?_⟩
  · by_cases hy : y = x
    · subst hy
      simpa [Network.after] using (h.wf y).of_action hen (step_action hs)
    · simpa [Network.after, hy] using h.wf y
  · rcases mem_append.mp hp with hp | hp
    · have howed := h.packet p (hsub p hp) hdl hans
      have hout : w.Outstanding p.origin := .inl ⟨p, hsub p hp, rfl, by simp [hans]⟩
      exact howed.after (h.wf x) hen hs (howed.not_freed hok hout)
    obtain ⟨k, hk, hkp⟩ := mem_filterMap.mp hp
    obtain ⟨howed, hcase⟩ := hsend k (hacts.emits k hk) p hkp hdl hans
    have horigin : p.origin = g := by
      cases k with
      | send => exact (congrArg Packet.origin (some.inj hkp)).symm
      | _ => cases hkp
    rw [horigin]
    refine howed.after (h.wf x) hen hs ?_
    rcases hcase with hout | hnone
    · exact howed.not_freed hok hout
    · exact fun _ => hnone _
  · by_cases hy : y = x
    · subst hy
      simp only [Network.after, update_self] at hi hret ⊢
      obtain ⟨hlive, hto⟩ | ⟨hdead, hcase⟩ := hacts.action.msgs (h.wf y) hen hi
      · replace hto := congrArg LibMsg.ackTo hto
        simp only [LibMsg.ackTo, LibMsg.unstamped, Prod.mk.injEq] at hto
        rw [hto.1] at hret
        have howed := h.msg y i hlive hret
        have hout : w.Outstanding (w.origin y i) := .inr ⟨y, i, hlive, hret, rfl⟩
        rw [if_pos hlive, hto.1, hto.2.1, hto.2.2]
        exact howed.after (h.wf y) hen hs (howed.not_freed hok hout)
      · rw [if_neg hdead]
        obtain hnone | ⟨hdr, rfl, hto⟩ := hcase
        · rw [hnone] at hret
          cases hret
        · simp only [LibMsg.ackTo, Prod.mk.injEq] at hto
          rw [hto.1] at hret
          rw [hto.1, hto.2.1, hto.2.2]
          refine (hnew hdr rfl hret).after (h.wf y) hen hs fun _ hfrees => ?_
          obtain hun | ⟨_, hc, -⟩ := hfrees
          · exact hun
          · cases hc
    · have hi' : LiveMsg (w.ni y) i := by simpa [Network.after, hy] using hi
      have hret' : 0 ≤ ((w.ni y).msg i).returnMd := by simpa [Network.after, hy] using hret
      have howed := h.msg y i hi' hret'
      have hout : w.Outstanding (w.origin y i) := .inr ⟨y, i, hi', hret', rfl⟩
      have hafter : (w.after x g o flight).Owed _ _ (w.origin y i) :=
        howed.after (h.wf x) hen hs (howed.not_freed hok hout)
      simpa [Network.after, hy] using hafter

theorem Reached.attributed (h : w.Reached AwaitsAnswers) : w.Attributed := by
  have hsub : ∀ {w : Network ι} {a b : List (Packet ι)} {p : Packet ι},
      w.flight = a ++ p :: b → ∀ q ∈ a ++ b, q ∈ w.flight := by
    intro w a b p hflight q hq
    rw [hflight]
    rcases mem_append.mp hq with hq | hq
    · simp [hq]
    · simp [hq]
  induction h with
  | @init w hinit haddress hflight =>
    refine ⟨fun x => ?_, haddress, by simp [hflight], fun y i hi => ?_⟩
    · obtain ⟨mem, nid, pid, rid, gid, gsize, ptlSize, hni⟩ := hinit x
      exact hni ▸ libInit_wf ..
    · obtain ⟨mem, nid, pid, rid, gid, gsize, ptlSize, hni⟩ := hinit y
      rw [hni] at hi
      exact absurd hi.2 (FreeList.fill_free _ _ i hi.1)
  | @call w x c r o h hc hen hok hs ih =>
    refine ih.after hen hs hok (fun _ hp => hp) (fun k he p hp hdl hans => ?_) fun hdr hpc => ?_
    · exact ih.call_sends hen hc he hp hans
    · exact absurd hpc (hc hdr)
  | @deliver w x a b p r o h hflight haddress hok hs ih =>
    have hp : p ∈ w.flight := by simp [hflight]
    have hen : Enabled (w.ni x) (.parse p.hdr) := trivial
    refine ih.after hen hs hok (hsub hflight) (fun k he q hq hdl hans => ?_) fun hdr hpc hack => ?_
    · refine ⟨ih.delivery_sends hp he hq hans, .inr fun d => ?_⟩
      simp [Call.Frees, Call.Unlinks]
    · cases hpc
      exact ih.delivery_owes hp hack
  | lose h hflight ih => exact ih.lose (hsub hflight)

end Network

/-- An acknowledgement or reply that an interface accepts goes to the descriptor whose put
or get it answers. -/
theorem answers_own {ι : Type*} [DecidableEq ι] {w : Network ι} (h : w.Reached AwaitsAnswers)
    {x : ι} {p : Packet ι} (hp : p ∈ w.flight) (hx : w.address x = (p.nid, p.pid)) {d : ℕ}
    (hans : (Call.parse p.hdr).ownMd = some d) {r : NalReply} {o : Outcome}
    (hs : libParse (w.ni x) p.hdr r = some o) (hrc : o.rc = 0) :
    (∃ i, Starts (w.ni x) i d false o.ni) ∧ p.origin = ⟨x, d, w.epoch x d⟩ := by
  have hatt := h.attributed
  refine ⟨libParse_accepts hans hs hrc, ?_⟩
  obtain ⟨dst, hdst, hmd, hto⟩ : ∃ dst, handleIndex dst = d ∧ p.hdr.answerMd = some dst ∧
      p.answerTo = (p.nid, p.pid) := by
    unfold ownMd at hans
    simp only at hans
    split at hans
    next hm =>
      exact ⟨_, some.inj hans, by simp [answerMd, hm], by simp [Packet.answerTo, hm]⟩
    next hm =>
      exact ⟨_, some.inj hans, by simp [answerMd, hm], by simp [Packet.answerTo, hm]⟩
    next => cases hans
  have howed := hatt.packet p hp dst hmd
  have hhost : p.origin.host = x := hatt.address (howed.address.trans (hto.trans hx.symm))
  have hslot : p.origin.slot = d := howed.slot.symm.trans hdst
  have hepoch : p.origin.epoch = w.epoch x d := by rw [← howed.epoch, hhost, hslot]
  rw [← hhost, ← hslot] at hepoch ⊢
  rw [← hepoch]

inductive Act
  | call (x : Bool) (c : Call)
  | deliver (x : Bool)

def Network.act (w : Network Bool) : Act → Option (Network Bool)
  | .call _ (.parse _) => none
  | .call x c =>
    if Enabled (w.ni x) c then
      (step (w.ni x) okReply c).map fun o => w.after x (w.cause x c) o w.flight
    else none
  | .deliver x =>
    match w.flight with
    | [] => none
    | p :: rest =>
      if w.address x = (p.nid, p.pid) then
        (step (w.ni x) okReply (.parse p.hdr)).map fun o => w.after x p.origin o rest
      else none

def Network.play : Network Bool → List Act → Option (Network Bool)
  | w, [] => some w
  | w, a :: acts => (w.act a).bind fun w => w.play acts

theorem Network.Reached.act {w w' : Network Bool} {a : Act}
    (h : w.Reached ok) (hcall : ∀ w x c, a = .call x c → ok w x c)
    (hparse : ∀ w x hdr, ok w x (.parse hdr)) (ha : w.act a = some w') : w'.Reached ok := by
  unfold Network.act at ha
  split at ha
  · cases ha
  next x c hc =>
    split_ifs at ha with hen
    obtain ⟨o, hs, rfl⟩ := map_eq_some_iff.mp ha
    exact h.call hc hen (hcall _ _ _ rfl) hs
  next x =>
    split at ha
    · cases ha
    next p rest hflight =>
      split_ifs at ha with hx
      obtain ⟨o, hs, rfl⟩ := map_eq_some_iff.mp ha
      exact h.deliver (a := []) hflight hx (hparse _ _ _) hs

theorem Network.Reached.play {acts : List Act}
    (hcall : ∀ w x c, .call x c ∈ acts → ok w x c) (hparse : ∀ w x hdr, ok w x (.parse hdr)) :
    ∀ {w w' : Network Bool}, w.Reached ok → w.play acts = some w' → w'.Reached ok := by
  induction acts with
  | nil =>
    intro w w' h hp
    cases hp
    exact h
  | cons a acts ih =>
    intro w w' h hp
    obtain ⟨mid, ha, hp⟩ := bind_eq_some_iff.mp hp
    have hmid := h.act (fun w x c hc => hcall w x c (by simp [hc])) hparse ha
    exact ih (fun w x c hc => hcall w x c (by simp [hc])) hmid hp

def pair : Network Bool where
  ni := fun x => if x then libInit blankNi 2 2 0 0 1 1 else freshNi
  epoch := fun _ _ => 0
  origin := fun _ _ => ⟨false, 0, 0⟩
  flight := []

theorem pair_reached (ok : Network Bool → Bool → Call → Prop) : pair.Reached ok := by
  refine .init (fun x => ?_) (fun x y hxy => ?_) rfl
  · cases x with
    | false => exact ⟨blankNi, 1, 1, 0, 0, 1, 1, rfl⟩
    | true => exact ⟨blankNi, 2, 2, 0, 0, 1, 1, rfl⟩
  · revert x y
    decide

def getActs : List Act :=
  [.call true attachMe, .call true (.mdAttach 4095 { plainMd with options := ptlMdOpGet } .retain),
    .call false (.mdBind 0 plainMd), .call false (.get ⟨4095, ⟨.both, 2, 2, 0, 1⟩, 0, 7, 0⟩),
    .deliver true]

theorem answers_own_reply : ∃ (w : Network Bool) (p : Packet Bool), w.Reached AwaitsAnswers ∧
    p ∈ w.flight ∧ (Call.parse p.hdr).ownMd = some 4095 ∧
    p.origin = ⟨false, 4095, w.epoch false 4095⟩ := by
  have heval : (pair.play getActs).any fun w => w.flight.head?.any fun p =>
      decide (w.address false = (p.nid, p.pid)) && decide ((parse p.hdr).ownMd = some 4095) &&
        (libParse (w.ni false) p.hdr okReply).any fun o => o.rc == 0 := by
    decide +kernel
  obtain ⟨w, hw, hhead⟩ := (any_eq_true _ _).mp heval
  obtain ⟨p, hp, hfacts⟩ := (any_eq_true _ _).mp hhead
  simp only [Bool.and_eq_true, decide_eq_true_eq] at hfacts
  obtain ⟨⟨haddress, hown⟩, hparse⟩ := hfacts
  obtain ⟨o, hs, hrc⟩ := (any_eq_true _ _).mp hparse
  have hreached := (pair_reached AwaitsAnswers).play
    (by simp [getActs, attachMe, AwaitsAnswers, Call.Frees, Call.Unlinks])
    (by simp [AwaitsAnswers, Call.Frees, Call.Unlinks]) hw
  have hmem : p ∈ w.flight := mem_of_mem_head? (by simp [hp])
  exact ⟨w, p, hreached, hmem, hown,
    (answers_own hreached hmem haddress hown hs (by simpa using hrc)).2⟩

def reuseActs : List Act :=
  [.call true attachMe, .call true (.mdAttach 4095 plainMd .retain), .call false (.mdBind 0 onceMd),
    .call false (.put ⟨4095, ⟨.both, 2, 2, 0, 1⟩, 0, 7, 0⟩ true 0),
    .call false (.finalize (some 1023)), .deliver true, .call true (.finalize (some 1023)),
    .call false (.mdBind 0 plainMd)]

theorem ack_to_other_md : ∃ (w : Network Bool) (p : Packet Bool) (o : Outcome),
    w.Reached (fun _ _ _ => True) ∧ p ∈ w.flight ∧ w.address false = (p.nid, p.pid) ∧
      (Call.parse p.hdr).ownMd = some 4095 ∧ libParse (w.ni false) p.hdr okReply = some o ∧
      o.rc = 0 ∧ p.origin ≠ ⟨false, 4095, w.epoch false 4095⟩ := by
  have heval : (pair.play reuseActs).any fun w => w.flight.head?.any fun p =>
      decide (w.address false = (p.nid, p.pid)) && decide ((parse p.hdr).ownMd = some 4095) &&
        decide (p.origin ≠ ⟨false, 4095, w.epoch false 4095⟩) &&
        (libParse (w.ni false) p.hdr okReply).any fun o => o.rc == 0 := by
    decide +kernel
  obtain ⟨w, hw, hhead⟩ := (any_eq_true _ _).mp heval
  obtain ⟨p, hp, hfacts⟩ := (any_eq_true _ _).mp hhead
  simp only [Bool.and_eq_true, decide_eq_true_eq] at hfacts
  obtain ⟨⟨⟨haddress, hown⟩, horigin⟩, hparse⟩ := hfacts
  obtain ⟨o, hs, hrc⟩ := (any_eq_true _ _).mp hparse
  have hreached := (pair_reached fun _ _ _ => True).play (fun _ _ _ _ => trivial)
    (fun _ _ _ => trivial) hw
  exact ⟨w, p, o, hreached, mem_of_mem_head? (by simp [hp]), haddress, hown, hs,
    by simpa using hrc, horigin⟩

end Cplant.Portals
