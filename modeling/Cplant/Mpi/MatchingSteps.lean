import Cplant.Mpi.Matching

/-!
# How receives take messages

A receive takes a message either when it arrives, as the first active entry of the match list
that admits it, or from among those that wait, and then none of the messages before it is
admitted.
-/
namespace Cplant.Mpi
open Function (update)
open List Nat Process
variable {malloc : Bool} {p : Posted} {ph : Phase}

namespace Process
variable {σ : Type*} {cfg : Config} {s s' t : Process σ} {m a b : Message σ} {r : Recv}
  {rest : List (Message σ)}

inductive Takes (s : Process σ) (r : Recv) (m : Message σ) : Prop
  | posted {i : σ} {rest : List (Message σ)} {p : Posted} (hc : s.coming i = m :: rest)
      (hp : s.receiver m = some p) (hr : p.recv = r)
  | unexpected {pre post : List (Message σ)} (hw : s.waiting = pre ++ m :: post)
      (hpre : ∀ x ∈ pre, r.admits x = false) (hm : r.admits m = true) (hr : r.Fits)

structure Outcome (cfg : Config) (s s' : Process σ) : Prop where
  sound : s'.Sound cfg
  taken : s'.taken = s.taken ∨ ∃ r m, s'.taken = s.taken ++ [(r, m)] ∧ s.Takes r m

namespace Sound
section
variable (h : s.Sound cfg)
include h

theorem quiet (hbox : s'.box = s.box) (hsent : s'.sent = s.sent) (htaken : s'.taken = s.taken)
    (hl : s'.Listing) (hu : s'.Underway s'.phase) : Outcome cfg s s' :=
  ⟨⟨h.traffic.congr hbox hsent, hl, hu⟩, .inl htaken⟩

theorem phase (hu : s.Underway ph) : Outcome cfg s { s with phase := ph } := by
  refine h.quiet rfl rfl rfl ?_ ?_
  · exact h.listing.mono (List.Sublist.refl _) (Nat.le_refl _) fun _ hm => hm
  · exact hu.mono (fun _ hp => hp) (Nat.le_refl _) fun _ hm => hm

theorem take {pre post : List (Message σ)} (hr : r.Fits) (hw : s.waiting = pre ++ m :: post)
    (hpre : ∀ x ∈ pre, r.admits x = false) (hm : r.admits m = true)
    (ht : t.waiting = pre ++ post) (hsent : t.sent = s.sent) (hc : t.coming = s.coming)
    (htaken : t.taken = s.taken) (hlost : t.lost = s.lost) (hp : t.posted.Sublist s.posted)
    (hcalls : t.calls = s.calls) : Outcome cfg s (t.processUnex r m) where
  sound := by
    have hsub : pre ++ post ⊆ s.waiting := by
      rw [hw]
      exact ((sublist_cons_self m post).append_left pre).subset
    refine ⟨h.traffic.leave hw hsent hc ht ?_, h.listing.mono hp ?_ ?_, trivial⟩
    · simp only [processUnex, htaken, hlost, map_append, map_cons, map_nil,
        append_assoc, singleton_append]
      exact perm_middle
    · exact Nat.le_of_eq hcalls.symm
    · intro x hx
      exact hsub (ht ▸ hx)
  taken := by
    refine .inr ⟨r, m, ?_, Takes.unexpected hw hpre hm hr⟩
    simp [processUnex, htaken]

theorem enlist (he : s.unexEq = m :: rest) {free : ℕ}
    (hu : { s with unexEq := rest, unexList := s.unexList ++ [m] }.Underway ph) :
    Outcome cfg s
      { s with
        unexEq := rest, unexList := s.unexList ++ [m], unexListFree := free, phase := ph } := by
  have hw : { s with
      unexEq := rest, unexList := s.unexList ++ [m], unexListFree := free,
      phase := ph }.waiting = s.waiting := by
    simp [waiting, he]
  refine h.quiet ?_ rfl rfl ?_ ?_
  · simp [box, hw]
  · exact h.listing.mono (List.Sublist.refl _) (Nat.le_refl _) fun x hx => hw ▸ hx
  · exact hu.mono (fun _ hp => hp) (Nat.le_refl _) fun _ hm => hm

theorem lose (he : s.unexEq = m :: rest) (hu : s.Underway ph) :
    Outcome cfg s { s with unexEq := rest, lost := s.lost ++ [m], phase := ph } where
  sound := by
    have hw : s.waiting = s.unexList ++ m :: (rest ++ s.pending) := by simp [waiting, he]
    refine ⟨h.traffic.leave hw rfl rfl rfl ?_, ?_, ?_⟩
    · rw [← append_assoc]
      exact perm_append_singleton m _
    · refine h.listing.mono (List.Sublist.refl _) (Nat.le_refl _) ?_
      rw [hw]
      exact ((sublist_cons_self m _).append_left _).subset
    · exact hu.mono (fun _ hp => hp) (Nat.le_refl _) fun _ hm => hm
  taken := .inl rfl

end
end Sound

theorem eqGet_ok (h : s.eqGet cfg = .ok m rest) : s.unexEq = m :: rest := by
  unfold eqGet at h
  split at h
  · cases h
  · split_ifs at h
    rename_i he _
    cases h
    exact he

theorem getUnex_cases (malloc : Bool) (m : Message σ) :
    s.getUnex malloc m = none ∨ s.getUnex malloc m =
      some { s with unexList := s.unexList ++ [m], unexListFree := s.unexListFree - 1 } := by
  unfold getUnex
  split_ifs
  · exact .inl rfl
  · exact .inr rfl

theorem getUnex_of_room (hroom : malloc = true ∨ 0 < t.unexListFree) (m : Message σ) :
    t.getUnex malloc m =
      some { t with unexList := t.unexList ++ [m], unexListFree := t.unexListFree - 1 } := by
  apply if_neg
  rintro ⟨hfree, hmalloc⟩
  rcases hroom with hroom | hroom
  · rw [hmalloc] at hroom
    cases hroom
  · omega

theorem Sound.checkForDrop (h : s.Sound cfg) : Outcome cfg s s.checkForDrop := by
  unfold Process.checkForDrop
  split_ifs
  · exact h.phase trivial
  · exact h.phase h.underway

theorem Sound.search (h : s.Sound cfg) (hph : s.phase = .search r) :
    Outcome cfg s (s.search r) := by
  have hu := h.underway
  rw [hph] at hu
  unfold Process.search
  split
  next m hfind =>
    obtain ⟨hm, pre, post, hl, hpre⟩ := find?_eq_some_iff_append.mp hfind
    have herase : s.unexList.eraseP r.admits = pre ++ post := by
      rw [hl, eraseP_append_right _ (by simpa using hpre), eraseP_cons_of_pos hm]
    have hw : s.waiting = pre ++ m :: (post ++ (s.unexEq ++ s.pending)) := by simp [waiting, hl]
    refine h.take hu.1 hw (by simpa using hpre) hm ?_ rfl rfl rfl rfl (Sublist.refl _) rfl
    simp [waiting, herase]
  next hfind =>
    apply h.phase
    exact ⟨hu, by simpa using hfind⟩

theorem forall_append_singleton {l : List (Message σ)} (hl : ∀ x ∈ l, r.admits x = false)
    (hm : ¬r.admits m = true) : ∀ x ∈ l ++ [m], r.admits x = false := by
  intro x hx
  rcases mem_append.mp hx with hx | hx
  · exact hl x hx
  · rw [mem_singleton.mp hx]
    exact Bool.eq_false_iff.mpr hm

section
variable (h : s.Sound cfg)
include h

theorem Sound.poll (hph : s.phase = .poll r) (malloc : Bool) :
    Outcome cfg s (s.poll cfg malloc r) := by
  obtain ⟨⟨hfits, hcalls, hposted⟩, hlist⟩ : s.Underway (.poll r) := hph ▸ h.underway
  unfold Process.poll
  split
  · exact h.phase trivial
  next m rest heq =>
    have he := eqGet_ok heq
    split_ifs with hm
    · have hw : s.waiting = s.unexList ++ m :: (rest ++ s.pending) := by simp [waiting, he]
      exact h.take hfits hw hlist hm rfl rfl rfl rfl rfl (Sublist.refl _) rfl
    · rcases getUnex_cases (s := { s with unexEq := rest }) malloc m with hg | hg <;>
        simp [hg]
      · exact h.lose he trivial
      · refine h.enlist he ?_
        rw [hph]
        exact ⟨⟨hfits, hcalls, hposted⟩, forall_append_singleton hlist hm⟩
  · split_ifs
    · refine h.quiet rfl rfl rfl ⟨?_, ?_, ?_, ?_⟩ ⟨hfits, hlist⟩
      · simpa [or_imp, forall_and] using ⟨h.listing.fits, hfits⟩
      · simpa [or_imp, forall_and] using ⟨h.listing.called, hcalls⟩
      · rw [pairwise_append]
        refine ⟨h.listing.ordered, pairwise_singleton _ _, fun p hp q hq => ?_⟩
        rw [mem_singleton.mp hq]
        exact hposted p hp
      · intro p hp hact
        rcases mem_append.mp hp with hp | hp
        · exact h.listing.refused p hp hact
        · rw [mem_singleton.mp hp] at hact
          cases hact
    · exact h.phase trivial

theorem Sound.post (hph : s.phase = .post r) : Outcome cfg s (s.post r) := by
  obtain ⟨hfits, hlist⟩ : s.Underway (.post r) := hph ▸ h.underway
  unfold Process.post
  split_ifs with hempty
  · have hmem {p' : Posted}
        (hp' : p' ∈ s.posted.map fun p => if p.recv = r then { p with active := true } else p) :
        ∃ p ∈ s.posted, p'.recv = p.recv ∧ (p.recv ≠ r → p'.active = p.active) := by
      obtain ⟨p, hp, rfl⟩ := mem_map.mp hp'
      refine ⟨p, hp, ?_⟩
      split_ifs with hr <;> simp [hr]
    refine h.quiet rfl rfl rfl ⟨fun p' hp' => ?_, fun p' hp' => ?_, ?_, fun p' hp' hact => ?_⟩
      trivial
    · obtain ⟨p, hp, hr, -⟩ := hmem hp'
      exact hr ▸ h.listing.fits p hp
    · obtain ⟨p, hp, hr, -⟩ := hmem hp'
      exact hr ▸ h.listing.called p hp
    · rw [pairwise_map]
      apply h.listing.ordered.imp
      intro p q hlt
      split_ifs <;> exact hlt
    · obtain ⟨p, hp, hr, ha⟩ := hmem hp'
      intro m hm
      rw [hr]
      by_cases hpr : p.recv = r
      · have hmem : m ∈ s.unexList := by simpa [waiting, hempty] using hm
        exact hpr ▸ hlist m hmem
      · exact h.listing.refused p hp (ha hpr ▸ hact) m hm
  · exact h.phase ⟨hfits, hlist⟩

theorem Sound.wait (hph : s.phase = .wait r) (malloc : Bool) (hs : s.wait cfg malloc r = some s') :
    Outcome cfg s s' := by
  obtain ⟨hfits, hlist⟩ : s.Underway (.wait r) := hph ▸ h.underway
  unfold Process.wait at hs
  split at hs
  · cases hs
  · cases hs
    exact h.phase trivial
  rename_i m rest heq
  have he := eqGet_ok heq
  have hw : s.waiting = s.unexList ++ m :: (rest ++ s.pending) := by simp [waiting, he]
  split_ifs at hs with hm
  · cases hs
    exact h.take hfits hw hlist hm rfl rfl rfl rfl rfl filter_sublist rfl
  · rcases getUnex_cases (s := { s with unexEq := rest }) malloc m with hg | hg <;>
      simp only [hg] at hs <;> cases hs
    · exact h.lose he trivial
    · exact h.enlist he ⟨hfits, forall_append_singleton hlist hm⟩

theorem Sound.go (malloc : Bool) (hs : s.go cfg malloc = some s') : Outcome cfg s s' := by
  unfold Process.go at hs
  split at hs
  next r hph =>
    cases hs
    exact h.search hph
  next r hph =>
    cases hs
    exact h.poll hph malloc
  next r hph =>
    cases hs
    exact h.post hph
  next r hph =>
    exact h.wait hph malloc hs
  · cases hs
  · cases hs

theorem Sound.probe (hph : s.phase = .idle) (malloc : Bool) (k : Criteria) :
    Outcome cfg s (s.probe cfg malloc k) := by
  unfold Process.probe
  split_ifs
  · exact h.phase h.underway
  split
  · exact h.phase trivial
  · exact h.phase h.underway
  rename_i m rest heq
  have he := eqGet_ok heq
  rcases getUnex_cases (s := { s with unexEq := rest }) malloc m with hg | hg <;>
    simp [hg]
  · exact h.lose he h.underway
  · refine h.enlist he ?_
    rw [hph]
    trivial

theorem Sound.recv (hr : r.Fits) (hnum : r.num = s.calls) :
    Outcome cfg s { s with phase := .search r, calls := s.calls + 1 }.checkForDrop := by
  have hl (ph : Phase) : { s with phase := ph, calls := s.calls + 1 }.Listing :=
    h.listing.mono (Sublist.refl _) (le_succ _) fun _ hm => hm
  unfold Process.checkForDrop
  split_ifs
  · exact h.quiet rfl rfl rfl (hl _) trivial
  · refine h.quiet rfl rfl rfl (hl _) ⟨hr, ?_, fun p hp => ?_⟩
    · exact Nat.lt_succ_of_le (Nat.le_of_eq hnum)
    · rw [hnum]
      exact h.listing.called p hp

end

theorem lost_go (hroom : malloc = true ∨ 0 < s.unexListFree)
    (hs : s.go cfg malloc = some s') : s'.lost = s.lost := by
  have hget (rest : List (Message σ)) (m : Message σ) :=
    getUnex_of_room (t := { s with unexEq := rest }) hroom m
  unfold go at hs
  split at hs
  · cases hs
    unfold search
    split <;> rfl
  · cases hs
    unfold poll
    split
    · rfl
    · simp only [hget]
      split_ifs <;> rfl
    · split_ifs <;> rfl
  · cases hs
    unfold post
    split_ifs <;> rfl
  · unfold wait at hs
    split at hs
    · cases hs
    · cases hs
      rfl
    · simp only [hget] at hs
      split_ifs at hs <;> cases hs <;> rfl
  · cases hs
  · cases hs

theorem Takes.inOrder (h : s.Sound cfg) (ht : s.Takes r b) (ha : a ∈ s.sent)
    (hs : a.sender = b.sender) (hlt : a.num < b.num) (hr : r.Matches a) :
    a ∈ s.taken.map Prod.snd ++ s.lost := by
  have hpresent := (h.traffic.present a).mp ha
  have hfits := h.traffic.fits a ha
  cases ht with
  | posted hi hp hpr =>
    have hmem := mem_of_find?_eq_some hp
    have hact := find?_some hp
    rw [Bool.and_eq_true] at hact
    rcases h.traffic.box.arrived hi hpresent hs hlt with hw | hg
    · have hno := h.listing.refused _ hmem hact.1 a hw
      have hyes := ((h.listing.fits _ hmem).admits_iff hfits).mpr (hpr ▸ hr)
      rw [hno] at hyes
      cases hyes
    · exact hg
  | unexpected hw hpre hm hrf =>
    rcases h.traffic.box.before hw hpresent hs hlt with hp | hg
    · have hyes := (hrf.admits_iff hfits).mpr hr
      rw [hpre a hp] at hyes
      cases hyes
    · exact hg

theorem Sound.receiver_le (h : s.Sound cfg) {q : Posted} (hp : s.receiver m = some p)
    (hq : q ∈ s.posted) (hact : q.active = true) (hm : q.recv.admits m = true) :
    p.recv.num ≤ q.recv.num := by
  obtain ⟨-, pre, post, hl, hpre⟩ := find?_eq_some_iff_append.mp hp
  have hord := h.listing.ordered
  rw [hl, pairwise_append, pairwise_cons] at hord
  rw [hl, mem_append, mem_cons] at hq
  rcases hq with hq | rfl | hq
  · have := hpre q hq
    simp [hact, hm] at this
  · exact Nat.le_refl _
  · exact Nat.le_of_lt (hord.2.1.1 q hq)

theorem Takes.mem_sent (h : s.Sound cfg) (ht : s.Takes r m) : m ∈ s.sent := by
  cases ht with
  | posted hi hp hpr => exact h.traffic.mem_sent hi
  | unexpected hw hpre hm hr =>
    rw [h.traffic.present]
    exact .inr (.inl (by simp [box, hw]))

theorem Takes.earliest (h : s.Sound cfg) (ht : s.Takes r m) (hp : p ∈ s.posted)
    (hact : p.active = true) (hm : p.recv.Matches m) : r.num ≤ p.recv.num := by
  have hyes := ((h.listing.fits p hp).admits_iff (h.traffic.fits m (ht.mem_sent h))).mpr hm
  cases ht with
  | posted hi hq hr => exact hr ▸ h.receiver_le hq hp hact hyes
  | unexpected hw hpre _ hr =>
    have hno := h.listing.refused p hp hact m (by simp [hw])
    rw [hno] at hyes
    cases hyes

theorem receiver_eq_none (h : s.receiver m = none) (hp : p ∈ s.posted)
    (hact : p.active = true) : p.recv.admits m = false := by
  have := find?_eq_none.mp h p hp
  simpa [hact] using this

variable [DecidableEq σ]

theorem Sound.postEvent (h : s.Sound cfg) {i : ℕ} (hs : s.postEvent i = some s') :
    Outcome cfg s s' := by
  unfold Process.postEvent at hs
  split at hs
  next m hm =>
    split_ifs at hs with hsender
    cases hs
    obtain ⟨hi, rfl⟩ := List.getElem?_eq_some_iff.mp hm
    have hpend : s.pending = s.pending.take i ++ s.pending[i] :: s.pending.drop (i + 1) := by
      rw [← drop_eq_getElem_cons hi, take_append_drop]
    have hw : s.waiting = (s.unexList ++ s.unexEq) ++
        (s.pending.take i ++ s.pending[i] :: s.pending.drop (i + 1)) := by
      rw [← hpend, waiting, append_assoc]
    have hw' : s.unexList ++ (s.unexEq ++ [s.pending[i]] ++ s.pending.eraseIdx i) =
        (s.unexList ++ s.unexEq) ++
          s.pending[i] :: (s.pending.take i ++ s.pending.drop (i + 1)) := by
      simp [eraseIdx_eq_take_drop_succ]
    refine ⟨⟨h.traffic.pass hw hw' rfl rfl rfl ?_, ?_, ?_⟩, .inl rfl⟩
    · simpa using hsender
    · refine h.listing.mono (List.Sublist.refl _) (Nat.le_refl _) fun x hx => ?_
      rw [waiting, hw'] at hx
      rw [hw]
      simp only [mem_append, mem_cons] at hx ⊢
      tauto
    · exact h.underway.mono (fun _ hp => hp) (Nat.le_refl _) fun _ hm => hm
  · cases hs

theorem Sound.send (h : s.Sound cfg) (hm : m.Fits cfg) (hnum : m.num = s.sent.length) :
    Outcome cfg s { s with
        sent := s.sent ++ [m]
        coming := update s.coming m.sender (s.coming m.sender ++ [m]) } := by
  have hlt (x : Message σ) (hx : x ∈ s.sent) : x.num < m.num := hnum ▸ h.traffic.numbered x hx
  refine ⟨⟨⟨?_, fun x => ?_, fun x hx => ?_, fun x hx => ?_⟩, ?_, ?_⟩, .inl rfl⟩
  · exact h.traffic.box.send rfl fun x hx => hlt x ((h.traffic.present x).mpr hx)
  · rw [mem_append, mem_singleton, h.traffic.present x]
    exact (Mailbox.present_send rfl).symm
  · rw [length_append, length_singleton]
    rcases mem_append.mp hx with hx | hx
    · exact lt_succ_of_lt (h.traffic.numbered x hx)
    · rw [mem_singleton.mp hx, hnum]
      exact lt_succ_self _
  · rcases mem_append.mp hx with hx | hx
    · exact h.traffic.fits x hx
    · exact mem_singleton.mp hx ▸ hm
  · exact h.listing.mono (List.Sublist.refl _) (Nat.le_refl _) fun _ hx => hx
  · exact h.underway.mono (fun _ hp => hp) (Nat.le_refl _) fun _ hx => hx

theorem Sound.deliver (h : s.Sound cfg) {i : σ} (hi : s.coming i = m :: rest) :
    Outcome cfg s ({ s with coming := update s.coming i rest }.deliver cfg m) := by
  set t : Process σ := { s with coming := update s.coming i rest } with ht
  have hu {t' : Process σ} (hp : t'.posted ⊆ s.posted) (hcalls : t'.calls = s.calls)
      (hl : t'.unexList = s.unexList) (hph : t'.phase = s.phase) : t'.Underway t'.phase := by
    rw [hph]
    exact h.underway.mono hp (Nat.le_of_eq hcalls.symm) (hl ▸ fun _ hx => hx)
  have hlost {b : Bool} :
      Outcome cfg s { t with errorEq := b, lost := t.lost ++ [m] } := by
    refine ⟨⟨h.traffic.arrive hi rfl rfl rfl ?_, ?_, hu (fun _ hp => hp) rfl rfl rfl⟩, .inl rfl⟩
    · rw [← append_assoc]
      exact perm_append_singleton m _
    · exact h.listing.mono (List.Sublist.refl _) (Nat.le_refl _) fun _ hx => hx
  have hfind : t.findEntry cfg m = s.findEntry cfg m := rfl
  unfold Process.deliver
  rw [hfind, findEntry_eq]
  cases hr : s.receiver m with
  | some p =>
    refine ⟨⟨h.traffic.arrive hi rfl rfl rfl ?_, ?_, hu ?_ rfl rfl rfl⟩,
      .inr ⟨p.recv, m, rfl, Takes.posted hi hr rfl⟩⟩
    · simp only [ht, Option.map_some, Option.some_or, map_append, map_cons, map_nil,
        append_assoc, singleton_append]
      exact perm_middle
    · exact h.listing.mono filter_sublist (Nat.le_refl _) fun _ hx => hx
    · exact filter_sublist.subset
  | none =>
    have henter {k : ℕ} : Outcome cfg s { t with shortMds := k, pending := t.pending ++ [m] } := by
      have hw : { t with shortMds := k, pending := t.pending ++ [m] }.waiting =
          s.waiting ++ [m] := by
        simp [waiting, ht]
      refine ⟨⟨h.traffic.enter hi rfl rfl hw rfl, ⟨h.listing.fits, h.listing.called,
        h.listing.ordered, fun p hp hact x hx => ?_⟩, hu (fun _ hp => hp) rfl rfl rfl⟩, .inl rfl⟩
      rw [hw, mem_append, mem_singleton] at hx
      rcases hx with hx | rfl
      · exact h.listing.refused p hp hact x hx
      · exact receiver_eq_none hr hp hact
    cases he : s.unexEntry cfg m with
    | none => exact hlost
    | some e =>
      cases e with
      | posted r => exact absurd he (unexEntry_ne_posted s m r)
      | noMatch => exact hlost
      | shortUnex => exact henter
      | longUnex => exact henter
      | error => exact hlost

end Process
end Cplant.Mpi
