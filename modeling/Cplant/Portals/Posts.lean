import Cplant.Portals.Wellformed

/-!
# Which calls post events

The sequence number, the size and the base address of an event queue change in
three places only: its allocation, and the completion of a message whose
descriptor names the queue, which writes one event. All other calls leave them
alone and write nothing to the user.
-/
namespace Cplant.Portals
open List Option

def NalCall.posted : NalCall → Option (ℤ × ℕ × PtlEvent)
  | .write base slot ev => some (base, slot.toNat, ev)
  | _ => none

def posts (calls : List NalCall) : List (ℤ × ℕ × PtlEvent) := calls.filterMap NalCall.posted

structure KeepsQueues (ni ni' : LibNi) : Prop where
  pool : ni'.eqPool = ni.eqPool
  sequence : ∀ e, (ni'.eq e).sequence = (ni.eq e).sequence
  size : ∀ e, (ni'.eq e).size = (ni.eq e).size
  base : ∀ e, (ni'.eq e).base = (ni.eq e).base

variable {i e d : ℕ} {mid ni ni' : LibNi} {msg : Option ℕ} {calls : List NalCall} {r : NalReply}
  {c : Call} {o : Outcome}

namespace KeepsQueues

theorem of_eq (hpool : ni'.eqPool = ni.eqPool) (heq : ni'.eq = ni.eq) : KeepsQueues ni ni' :=
  ⟨hpool, fun e => by rw [heq], fun e => by rw [heq], fun e => by rw [heq]⟩

theorem refl (ni : LibNi) : KeepsQueues ni ni := of_eq rfl rfl

theorem trans {a b c : LibNi} (h : KeepsQueues a b) (h' : KeepsQueues b c) : KeepsQueues a c where
  pool := h'.pool.trans h.pool
  sequence := fun e => (h'.sequence e).trans (h.sequence e)
  size := fun e => (h'.size e).trans (h.size e)
  base := fun e => (h'.base e).trans (h.base e)

theorem of_pending (ni : LibNi) (e : ℕ) (p : Int32) (msg : ℕ → LibMsg) : KeepsQueues ni { ni with
      eq := Function.update ni.eq e { ni.eq e with pending := p }, msg := msg } := by
  refine ⟨rfl, fun e' => ?_, fun e' => ?_, fun e' => ?_⟩
  all_goals by_cases he : e' = e <;> simp [he]

theorem of_allocMe {me : LibMe} (h : allocMe ni me = some (i, ni')) : KeepsQueues ni ni' := by
  obtain ⟨p, -, h⟩ := map_eq_some_iff.mp h
  cases h
  exact of_eq rfl rfl

end KeepsQueues

structure NoPost (ni ni' : LibNi) (calls : List NalCall) : Prop where
  keeps : KeepsQueues ni ni'
  silent : posts calls = []

theorem NoPost.reject (ni : LibNi) : NoPost ni ni [] := ⟨.refl ni, rfl⟩

theorem posts_of_plain (h : ∀ k ∈ calls, k.Plain) : posts calls = [] := by
  refine filterMap_eq_nil_iff.mpr fun k hk => ?_
  have hplain := h k hk
  cases k with
  | write => exact hplain.elim
  | _ => rfl

theorem libMdBuild_keepsQueues {md : PtlMd} {new : ℕ}
    (h : libMdBuild ni md r = some (.ok new mid calls)) : KeepsQueues ni mid := by
  obtain ⟨eq, pool, -, -, rfl⟩ := libMdBuild_ok h
  exact .of_eq rfl rfl

theorem KeepsQueues.of_rest (h : SameRest ni ni') : KeepsQueues ni ni' := .of_eq h.eqPool h.eq

theorem Starts.keepsQueues {checkOffset : Bool} (h : Starts ni i d checkOffset ni') :
    KeepsQueues ni ni' := by
  have heq := h.eq
  unfold LibNi.expecting at heq
  split at heq
  · exact .of_eq h.eqPool heq
  · exact .trans (.of_pending ni _ _ ni.msg) (.of_eq h.eqPool heq)

def Call.KeepsEqs : Call → Prop
  | .eqAlloc .. => False
  | .eqFree .. => False
  | _ => True

theorem Action.keepsQueues (h : Action ni c ni') (hc : c.KeepsEqs)
    (hfin : ∀ i, c ≠ .finalize (some i)) : KeepsQueues ni ni' := by
  cases h with
  | rejected => exact .of_eq rfl rfl
  | eqAlloc => exact hc.elim
  | eqFree => exact hc.elim
  | meAttach hk hempty ha | meInsert hlive ha => exact .trans (.of_allocMe ha) (.of_eq rfl rfl)
  | meUnlink hlive hun => exact .of_rest (libMeUnlink_rest hun)
  | mdAttach hlive hempty hb | mdInsert hlive hb =>
    exact .trans (libMdBuild_keepsQueues hb) (.of_eq rfl rfl)
  | mdBind hb => exact libMdBuild_keepsQueues hb
  | mdUnlink => exact .of_eq rfl rfl
  | mdUpdate => exact .of_eq rfl rfl
  | granted => exact .of_eq rfl rfl
  | @grantedHeld _ _ found _ _ hreq hfound hstart =>
    have hcharge : KeepsQueues ni (ni.charge found) := .of_eq rfl rfl
    exact hcharge.trans hstart.keepsQueues
  | held hown hlive hactive hstart => exact hstart.keepsQueues
  | notWritten | finalize => exact absurd rfl (hfin _)

theorem posts_of_emits (h : ∀ k ∈ calls, Emits ni c k) (hfin : ∀ i, c ≠ .finalize (some i)) :
    posts calls = [] := by
  refine filterMap_eq_nil_iff.mpr fun k hk => ?_
  cases h k hk with
  | plain hplain =>
    cases k with
    | write => exact hplain.elim
    | _ => rfl
  | write => exact absurd rfl (hfin _)
  | put => rfl
  | get => rfl
  | reply => rfl
  | ack => rfl

structure PostsOne (ni ni' : LibNi) (calls : List NalCall) (e : ℕ) (ev : PtlEvent) : Prop where
  pool : ni'.eqPool = ni.eqPool
  size_ne : (ni.eq e).size ≠ 0
  stamp : ev.sequence = (ni.eq e).sequence
  sequence : ∀ e', (ni'.eq e').sequence =
    if e' = e then (ni.eq e).sequence + 1 else (ni.eq e').sequence
  size : ∀ e', (ni'.eq e').size = (ni.eq e').size
  base : ∀ e', (ni'.eq e').base = (ni.eq e').base
  written : posts calls =
    [((ni.eq e).base, ((ni.eq e).sequence % (ni.eq e).size.toUInt32).toNat, ev)]

theorem PostsOne.then_noPost {calls' : List NalCall} {ev : PtlEvent}
    (h : PostsOne ni mid calls e ev) (h' : NoPost mid ni' calls') :
    PostsOne ni ni' (calls ++ calls') e ev where
  pool := h'.keeps.pool.trans h.pool
  size_ne := h.size_ne
  stamp := h.stamp
  sequence := fun e' => (h'.keeps.sequence e').trans (h.sequence e')
  size := fun e' => (h'.keeps.size e').trans (h.size e')
  base := fun e' => (h'.keeps.base e').trans (h.base e')
  written := by
    have hsilent : calls'.filterMap NalCall.posted = [] := h'.silent
    rw [posts, filterMap_append, hsilent, append_nil]
    exact h.written

theorem postEvent_posts {msg : ℕ} {written : Bool} {call : NalCall} (hw : r.write = 0)
    (h : postEvent ni msg e r = some (written, ni', call)) :
    written = true ∧ ∃ ev, PostsOne ni ni' [call] e ev := by
  unfold postEvent at h
  simp only [hw, ne_eq, not_true_eq_false, if_false] at h
  split at h
  · cases h
  next hsize =>
    cases h
    refine ⟨rfl, { (ni.msg msg).ev with sequence := (ni.eq e).sequence }, rfl, hsize, rfl,
      fun e' => ?_, fun e' => ?_, fun e' => ?_, ?_⟩
    iterate 3 by_cases he : e' = e <;> simp [eqDone, LibNi.setEq, stampEvent, he]
    · simp [posts, NalCall.posted, stampEvent]

theorem ackOf_silent (ni : LibNi) (msg : LibMsg) : posts (ackOf ni msg) = [] := by
  unfold ackOf
  split <;> rfl

theorem finishMsg_noPost (hs : finishMsg ni i d r calls = some o) :
    ∃ rest, o.calls = calls ++ rest ∧ NoPost ni o.ni rest := by
  obtain ⟨⟨ni1, unlinks⟩, hrel, hs⟩ := bind_eq_some_iff.mp hs
  cases hs
  refine ⟨ackOf ni (ni.msg i) ++ unlinks, append_assoc ..,
    .trans (.of_rest (releaseMd_rest hrel)) (.of_eq rfl rfl), ?_⟩
  have hack := ackOf_silent ni (ni.msg i)
  have hun := posts_of_plain (releaseMd_plain hrel)
  unfold posts at hack hun ⊢
  rw [filterMap_append, hack, hun, append_nil]

theorem libFinalize_cases (hs : libFinalize ni msg r = some o) :
    (NoPost ni o.ni o.calls ∧ (ni.up = true → ∀ i d e, msg = some i → (ni.msg i).md = some d →
        (ni.md d).eq ≠ some e)) ∨
      ∃ i d e, msg = some i ∧ (ni.msg i).md = some d ∧ (ni.md d).eq = some e ∧
        (r.write = 0 ∧ (∃ ev, PostsOne ni o.ni o.calls e ev) ∨
          r.write ≠ 0 ∧ o.ni = stampEvent ni i e) := by
  unfold libFinalize at hs
  split at hs
  next hdown =>
    cases hs
    exact .inl ⟨.reject ni, fun hup => absurd hup (by simpa using hdown)⟩
  split at hs
  · cases hs
    exact .inl ⟨.reject ni, nofun⟩
  next i =>
  obtain ⟨d, hmd, hs⟩ := bind_eq_some_iff.mp hs
  split at hs
  next heq =>
    obtain ⟨rest, hcalls, h⟩ := finishMsg_noPost hs
    rw [hcalls]
    refine .inl ⟨h, ?_⟩
    rintro - _ d' e ⟨⟩ hd'
    cases hmd.symm.trans hd'
    simp [heq]
  next e heq =>
    refine .inr ⟨i, d, e, rfl, hmd, heq, ?_⟩
    obtain ⟨⟨written, mid, call⟩, hp, hs⟩ := bind_eq_some_iff.mp hs
    by_cases hw : r.write = 0
    · obtain ⟨rfl, ev, hone⟩ := postEvent_posts hw hp
      obtain ⟨rest, hcalls, h⟩ := finishMsg_noPost hs
      rw [hcalls]
      exact .inl ⟨hw, ev, hone.then_noPost h⟩
    · unfold postEvent at hp
      split_ifs at hp
      cases hp
      cases hs
      exact .inr ⟨hw, rfl⟩

theorem step_noPost (hc : c.KeepsEqs) (hs : step ni r c = some o) :
    NoPost ni o.ni o.calls ∨ ∃ msg, c = .finalize msg := by
  by_cases hfin : ∃ i, c = .finalize (some i)
  · obtain ⟨i, rfl⟩ := hfin
    exact .inr ⟨_, rfl⟩
  · have hne : ∀ i, c ≠ .finalize (some i) := fun i hi => hfin ⟨i, hi⟩
    have hacts := step_acts hs
    exact .inl ⟨hacts.action.keepsQueues hc hne, posts_of_emits hacts.emits hne⟩

theorem step_posts (hc : c.KeepsEqs) (hw : r.write = 0) (hs : step ni r c = some o) :
    NoPost ni o.ni o.calls ∨ ∃ e ev, PostsOne ni o.ni o.calls e ev := by
  rcases step_noPost hc hs with h | ⟨msg, rfl⟩
  · exact .inl h
  rcases libFinalize_cases hs with h | ⟨i, d, e, -, -, -, ⟨-, ev, h⟩ | ⟨hne, -⟩⟩
  · exact .inl h.1
  · exact .inr ⟨e, ev, h⟩
  · exact absurd hw hne

theorem libFinalize_eqPool (hs : libFinalize ni msg r = some o) : o.ni.eqPool = ni.eqPool := by
  rcases libFinalize_cases hs with ⟨h, -⟩ | ⟨i, d, e, -, -, -, ⟨-, ev, h⟩ | ⟨-, hni⟩⟩
  · exact h.keeps.pool
  · exact h.pool
  · rw [hni]
    rfl

theorem Reachable.eqPool {ok : LibNi → Call → Prop} (h : Reachable ok ni) :
    FreeList.Valid maxEqs ni.eqPool := by
  induction h with
  | init => exact FreeList.fill_valid _ _
  | @step ni c r o h hen hok hs ih =>
    by_cases hc : c.KeepsEqs
    · have hpool : o.ni.eqPool = ni.eqPool := by
        rcases step_noPost hc hs with h | ⟨msg, rfl⟩
        · exact h.keeps.pool
        · exact libFinalize_eqPool hs
      rw [hpool]
      exact ih
    cases c with
    | eqAlloc niIn count base =>
      cases hs
      unfold doPtlEQAlloc
      split
      · exact ih
      next ha => exact (FreeList.alloc_spec ih ha).2.2.1
    | eqFree eventq =>
      rcases validObj_cases hs with rfl | ⟨⟨hlt, huse⟩, hs⟩
      · exact ih
      · cases hs
        exact (FreeList.release_spec ih hlt huse).1
    | _ => exact absurd trivial hc

end Cplant.Portals
