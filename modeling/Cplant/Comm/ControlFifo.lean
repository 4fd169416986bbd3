import Cplant.Comm.ControlState

/-!
# A control portal is a queue

The invariant of the steps. A descriptor with room is in the entry whenever a message may
arrive: freed messages are before `base + maxMsgs`, so at most `maxMsgs` messages that are not
freed end before slot `2 * maxMsgs`. For the same reason the second buffer is never full when
the buffers are flipped.
-/
namespace Cplant.Comm.CtlPtl
open List Option
variable {s s' : CtlPtl} {base done k i : ℕ} {arrivals : List Msg} {handle : Option Handle}
  {b : Buf} {addr : ℤ}

def PhaseAt (s : CtlPtl) (base done : ℕ) : Prop :=
  match s.phase with
  | .idle => s.buf1.nextread = done ∧ done < s.maxMsgs
  | .scan1 _ started count => s.buf1.nextread + count = done ∧ 0 ≤ s.buf1.nextread ∧
      s.buf1.nextread < s.maxMsgs ∧ done ≤ s.maxMsgs ∧ started ≤ s.arrivals.length
  | .scan2 _ started eventCount count => done = s.maxMsgs + count ∧ 0 < eventCount ∧
      started ≤ s.arrivals.length
  | .flip _ started eventCount eventCount2 => (done : ℤ) = s.maxMsgs + eventCount2 ∧
      s.buf2.nextread = eventCount2 ∧ 0 ≤ eventCount2 ∧ eventCount2 < s.maxMsgs ∧
      0 < eventCount ∧ started ≤ base + done
  | .finish _ started rc => s.buf1.nextread = done ∧ done < s.maxMsgs ∧
      started ≤ base + done ∧ 0 ≤ rc

structure Inv (s : CtlPtl) (base done : ℕ) : Prop where
  pos : 0 < s.maxMsgs
  live : s.live = true
  buffers : Buffers s.maxMsgs s.mem s.buf1.buf s.buf2.buf s.mds s.arrivals base done
  listed : Listed s.list s.firstUnread s.arrivals s.returned s.freed (base + done)
  bound : s.arrivals.length ≤ s.freed.length + s.maxMsgs
  freed_lt : s.freed.length < base + s.maxMsgs
  phase : s.PhaseAt base done
  calls : ∀ c ∈ s.calls, c.ended ≤ s.arrivals.length ∧ c.Served s.arrivals

theorem Inv.length_lt_hopcount (h : s.Inv base done) : (s.list.length : ℤ) < s.hopcount := by
  have hlen := h.listed.length_le
  have hle := h.buffers.le
  have hbound := h.bound
  exact CtlPtl.length_lt_hopcount h.pos h.buffers.fits (by omega)

theorem PhaseAt.arrive (h : s.PhaseAt base done) {m : Msg} {mem : Buf → ℕ → Slot}
    {mds : List (Buf × Portals.LibMd)} :
    ({ s with arrivals := s.arrivals ++ [m], mem := mem, mds := mds } : CtlPtl).PhaseAt base
      done := by
  unfold PhaseAt at *
  cases hphase : s.phase <;> simp only [hphase] at h ⊢ <;> grind

theorem earliest_append (hk : k ≤ arrivals.length) (m : Msg) (f : Filter) (read : List ℕ) :
    earliest (arrivals ++ [m]) f read k = earliest arrivals f read k := by
  refine find?_congr fun j hj => ?_
  have hj := mem_range.mp hj
  rw [getElem?_append_left (by omega)]

theorem served_append {c : Call} (hended : c.ended ≤ arrivals.length)
    (h : c.Served arrivals) (m : Msg) : c.Served (arrivals ++ [m]) := by
  obtain ⟨k, hstarted, hle, hres⟩ := h
  refine ⟨k, hstarted, hle, ?_⟩
  rw [earliest_append (Nat.le_trans hle hended)]
  split at hres
  · exact hres
  · obtain ⟨n, hn, hnum, hget⟩ := hres
    refine ⟨n, hn, hnum, ?_⟩
    rw [List.getElem?_append_left (List.getElem?_eq_some_iff.mp hget).1]
    exact hget

theorem Inv.arrive (h : s.Inv base done) (hspace : s.HasSpace) (m : Msg) :
    (s.arrive m).Inv base done := by
  have hfreed := h.freed_lt
  unfold HasSpace at hspace
  obtain ⟨b, i, hloc, heq⟩ := arrive_eq h.buffers (by omega) m
  have hbuffers := h.buffers.arrive hloc (by omega) m
  rw [heq]
  refine ⟨h.pos, h.live, hbuffers, h.listed.arrive m, ?_, hfreed, h.phase.arrive, ?_⟩
  · simp only [length_append, length_singleton]
    omega
  · intro c hc
    obtain ⟨hended, hserved⟩ := h.calls c hc
    refine ⟨?_, served_append hended hserved m⟩
    simp only [length_append]
    omega

theorem Inv.call (h : s.Inv base done) (hs : s.call handle = some s') : s'.Inv base done := by
  have hphase := h.phase
  unfold CtlPtl.call at hs
  split at hs
  next hidle =>
    simp only [PhaseAt, hidle] at hphase
    rw [if_neg (by simp [h.live]), if_neg (by omega)] at hs
    cases hs
    refine ⟨h.pos, h.live, h.buffers, h.listed, h.bound, h.freed_lt, ?_, h.calls⟩
    simp only [PhaseAt]
    omega
  · cases hs

def At (s : CtlPtl) (done : ℕ) (b : Buf) (i : ℕ) : Prop :=
  done < s.maxMsgs ∧ b = s.buf1.buf ∧ i = done ∨
    s.maxMsgs ≤ done ∧ b = s.buf2.buf ∧ i = done - s.maxMsgs

theorem At.slotAt_eq (h : s.At done b i) :
    slotAt s.maxMsgs s.mem s.buf1.buf s.buf2.buf done = s.mem b i := by
  rcases h with ⟨hlt, rfl, rfl⟩ | ⟨hge, rfl, rfl⟩
  · exact if_pos hlt
  · exact if_neg (by omega)

section
variable (h : s.Inv base done)
include h

theorem Inv.processSlot (hat : s.At done b i) (hlt : base + done < s.arrivals.length)
    (hfresh : ∀ n ∈ s.list, addr ≠ n.addr) {phase : Phase}
    (hphase : ({ s.processSlot b i (some addr) with phase := phase } : CtlPtl).PhaseAt base
      (done + 1)) :
    ({ s.processSlot b i (some addr) with phase := phase } : CtlPtl).Inv base (done + 1) := by
  obtain ⟨-, hnum, hmsg⟩ := h.buffers.waiting done (Nat.le_refl _) hlt
  rw [hat.slotAt_eq] at hnum hmsg
  have hpush := h.listed.push hfresh hmsg
  rw [Nat.add_assoc] at hpush
  refine ⟨h.pos, h.live, h.buffers.process hat hlt _, ?_, h.bound, h.freed_lt, hphase, h.calls⟩
  simpa [CtlPtl.processSlot, recvCtlMsg, hnum] using hpush

theorem Inv.processTurn (hat : s.At done b i) (hdone : done < 2 * s.maxMsgs) (addr : Option ℤ)
    {first nmsgs : ℤ} {count : ℕ} (hi : (first + count).toNat = i) (hcount : count < nmsgs) :
    base + done < s.arrivals.length ∧
        s.processTurn b first nmsgs count addr = .inl (s.processSlot b i addr) ∨
      s.arrivals.length = base + done ∧ s.processTurn b first nmsgs count addr = .inr count := by
  unfold CtlPtl.processTurn
  rw [if_pos hcount, hi]
  rcases h.buffers.at_done hdone with ⟨hlt, hflag⟩ | ⟨hlen, hflag⟩
  · rw [hat.slotAt_eq] at hflag
    exact .inl ⟨hlt, by simp [hflag]⟩
  · rw [hat.slotAt_eq] at hflag
    exact .inr ⟨hlen, by simp [hflag]⟩

theorem Inv.look (hfresh : ∀ n ∈ s.list, addr ≠ n.addr) (hs : s.look (some addr) = some s') :
    (∃ done, s'.Inv base done) ∧ s'.pace < s.pace := by
  have hphase := h.phase
  have hle := h.buffers.le
  have hroom := h.buffers.room
  unfold CtlPtl.look at hs
  split at hs
  next handle started count hscan =>
    simp only [PhaseAt, hscan] at hphase
    by_cases hfull : done < s.maxMsgs
    · have hi : (s.buf1.nextread + count).toNat = done := by omega
      have hshort : (count : ℤ) < s.left1 := by
        unfold left1
        omega
      have hturn := h.processTurn (.inl ⟨hfull, rfl, rfl⟩) (by omega) (some addr) hi hshort
      rcases hturn with ⟨hlt, hturn⟩ | ⟨hlen, hturn⟩
      · rw [hturn] at hs
        cases hs
        refine ⟨⟨done + 1, h.processSlot (.inl ⟨hfull, rfl, rfl⟩) hlt hfresh ?_⟩, ?_⟩
        · simp only [PhaseAt, CtlPtl.processSlot, recvCtlMsg]
          omega
        · simp only [pace, hscan, CtlPtl.processSlot, recvCtlMsg]
          omega
      · rw [hturn] at hs
        cases hs
        refine ⟨⟨done, h.pos, h.live, h.buffers, h.listed, h.bound, h.freed_lt, ?_, h.calls⟩, ?_⟩
        · simp only [PhaseAt, endScan1, if_pos hshort]
          omega
        · simp only [pace, hscan, endScan1, if_pos hshort]
          omega
    · have hturn : s.processTurn s.buf1.buf s.buf1.nextread s.left1 count (some addr) =
          .inr count := if_neg (by unfold left1; omega)
      rw [hturn] at hs
      cases hs
      have hall : ¬ (count : ℤ) < s.left1 := by
        unfold left1
        omega
      refine ⟨⟨done, h.pos, h.live, h.buffers, h.listed, h.bound, h.freed_lt, ?_, h.calls⟩, ?_⟩
      · simp only [PhaseAt, endScan1, if_neg hall]
        omega
      · simp only [pace, hscan, endScan1, if_neg hall]
        omega
  next handle started eventCount count hscan =>
    simp only [PhaseAt, hscan] at hphase
    have hat : s.At done s.buf2.buf count := .inr ⟨by omega, rfl, by omega⟩
    have hi : ((0 : ℤ) + count).toNat = count := by omega
    have hshort : (count : ℤ) < s.maxMsgs := by omega
    have hturn := h.processTurn hat (by omega) (some addr) hi hshort
    rcases hturn with ⟨hlt, hturn⟩ | ⟨hlen, hturn⟩
    · rw [hturn] at hs
      cases hs
      refine ⟨⟨done + 1, h.processSlot hat hlt hfresh ?_⟩, ?_⟩
      · simp only [PhaseAt, CtlPtl.processSlot, recvCtlMsg]
        omega
      · simp only [pace, hscan, CtlPtl.processSlot, recvCtlMsg]
        omega
    · rw [hturn] at hs
      cases hs
      refine ⟨⟨done, h.pos, h.live, h.buffers, h.listed, h.bound, h.freed_lt, ?_, h.calls⟩, ?_⟩
      · simp only [PhaseAt, endScan2, true_and]
        omega
      · simp only [pace, hscan, endScan2]
        omega
  · cases hs

theorem Inv.flip (hs : s.flip = some s') : ∃ base done, s'.Inv base done := by
  have hphase := h.phase
  have hfreed := h.freed_lt
  unfold CtlPtl.flip at hs
  split at hs
  next handle started eventCount eventCount2 hflip =>
    simp only [PhaseAt, hflip] at hphase
    rw [if_neg (by omega)] at hs
    cases hs
    refine ⟨base + s.maxMsgs, done - s.maxMsgs, h.pos, h.live,
      h.buffers.flip (by omega), ?_, h.bound, ?_, ?_, h.calls⟩
    · rw [show base + s.maxMsgs + (done - s.maxMsgs) = base + done by omega]
      exact h.listed
    · show s.freed.length < base + s.maxMsgs + s.maxMsgs
      omega
    · simp only [PhaseAt, flipBuffers]
      omega
  · cases hs

theorem Inv.deliver {rc : ℤ} (hrc : rc ≠ -1) (res : CtlPtl × Result)
    (hres : s.deliver handle rc = some res) : (∃ list first returned, res.1 = { s with
        list := list, firstUnread := first, returned := returned } ∧
      Listed list first s.arrivals returned s.freed (base + done)) ∧
    match earliest s.arrivals (wanted handle) s.returned (base + done) with
    | none => res.2 = .none
    | some k => ∃ n, res.2 = .found n ∧ n.num = k ∧ s.arrivals[k]? = some n.msg := by
  have hhop := h.length_lt_hopcount
  rw [← h.listed.find?_eq_earliest]
  unfold CtlPtl.deliver at hres
  rw [if_neg hrc] at hres
  split_ifs at hres with hnone
  · cases hres
    have hfind : s.list.find? (fun n => n.isUnread && (wanted handle).accepts n.msg) = none := by
      have hunread : s.list.find? Node.isUnread = none := by
        rw [h.listed.first, map_eq_none_iff] at hnone
        exact hnone
      rw [find?_eq_none] at hunread ⊢
      exact fun n hn hp => hunread n hn (Bool.and_eq_true_iff.mp hp).1
    rw [hfind]
    exact ⟨⟨_, _, _, rfl, h.listed⟩, rfl⟩
  · cases handle with
    | none => cases hres
    | some handle =>
      obtain ⟨hfound, hhop'⟩ := search_eq h.listed hhop hnone handle.wants
      simp only [if_neg hhop'] at hres
      rw [hfound] at hres
      rw [show wanted (some handle) = handle.wants from rfl]
      cases hfind : s.list.find? (fun n => n.isUnread && handle.wants.accepts n.msg) with
      | none =>
        rw [hfind] at hres
        cases hres
        exact ⟨⟨_, _, _, rfl, h.listed⟩, rfl⟩
      | some n =>
        have hn := mem_of_find?_eq_some hfind
        have hwanted := find?_some hfind
        have hunread := (Bool.and_eq_true_iff.mp hwanted).1
        rw [hfind] at hres
        simp only [take_eq h.listed hhop hn hunread, Option.some.injEq] at hres
        subst hres
        exact ⟨⟨_, _, _, rfl, h.listed.take hn hunread rfl⟩, n, rfl, rfl, h.listed.msgs n hn⟩

theorem Inv.finish (hs : s.finish = some s') : s'.Inv base done := by
  have hphase := h.phase
  have hle := h.buffers.le
  unfold CtlPtl.finish at hs
  split at hs
  next handle started rc hfinish =>
    simp only [PhaseAt, hfinish] at hphase
    obtain ⟨res, hres, rfl⟩ := map_eq_some_iff.mp hs
    obtain ⟨⟨list, first, returned, heq, hlisted⟩, hserved⟩ := h.deliver (by omega) res hres
    rw [heq]
    refine ⟨h.pos, h.live, h.buffers, hlisted, h.bound, h.freed_lt, ⟨hphase.1, hphase.2.1⟩,
      fun c hc => ?_⟩
    rcases mem_append.mp hc with hc | hc
    · exact h.calls c hc
    · obtain rfl := mem_singleton.mp hc
      exact ⟨Nat.le_refl _, base + done, hphase.2.2.1, hle, hserved⟩
  · cases hs

theorem Inv.unlink (hidle : s.phase = .idle) {n : Node} (hn : n ∈ s.list) (hread : n.flag = .read) :
    (s.unlink n).Inv base done := by
  have hphase := h.phase
  simp only [PhaseAt, hidle] at hphase
  have hfirst : s.firstUnread ≠ some n.addr := by
    rw [h.listed.first]
    intro heq
    obtain ⟨m, hm, haddr⟩ := map_eq_some_iff.mp heq
    have hsame := inj_on_of_nodup_map h.listed.addrs (mem_of_find?_eq_some hm) hn haddr
    have hunread := find?_some hm
    rw [hsame, Node.isUnread, hread] at hunread
    cases hunread
  have hlisted := h.listed.unlink hn hread
  have hlen := hlisted.length_le
  have hbound := h.bound
  rw [length_append, length_singleton] at hlen
  have heq : s.unlink n = { s with
      list := s.list.filter fun m => m.addr ≠ n.addr
      freed := s.freed ++ [n.num] } := by
    unfold CtlPtl.unlink
    rw [if_neg hfirst]
    rfl
  rw [heq]
  refine ⟨h.pos, h.live, h.buffers, hlisted, ?_, ?_, ?_, h.calls⟩
  · simp only [length_append]
    omega
  · simp only [length_append, length_singleton]
    omega
  · simp only [PhaseAt, hidle]
    exact hphase

theorem Inv.free {addr : Option ℤ} (hok : ∀ n ∈ s.list, addr = some n.addr → n.flag = .read)
    (hs : s.free addr = some s') : s'.Inv base done := by
  unfold CtlPtl.free at hs
  split at hs
  · exact some.inj hs ▸ h
  next p hidle =>
    rw [if_neg (by simp [h.live])] at hs
    have hwalk := (walk_eq (fun n => decide (n.addr = p)) h.length_lt_hopcount).1
    rw [hwalk] at hs
    cases hfind : s.list.find? (fun n => decide (n.addr = p)) with
    | none =>
      rw [hfind] at hs
      exact some.inj hs ▸ h
    | some n =>
      have haddr : n.addr = p := by simpa using find?_some hfind
      have hn := mem_of_find?_eq_some hfind
      rw [hfind] at hs
      simp only [if_pos haddr] at hs
      exact some.inj hs ▸ h.unlink hidle hn (hok n hn (congrArg some haddr.symm))
  · cases hs

end

theorem Inv.step {a : CtlAct} (h : ∃ base done, s.Inv base done) (hok : s.Proper a)
    (hs : s.step a = some s') : ∃ base done, s'.Inv base done := by
  obtain ⟨base, done, h⟩ := h
  cases a with
  | arrive m => exact ⟨base, done, some.inj hs ▸ h.arrive hok m⟩
  | call handle => exact ⟨base, done, h.call hs⟩
  | look addr =>
    obtain ⟨addr, rfl⟩ := isSome_iff_exists.mp hok
    rw [CtlPtl.step] at hs
    split_ifs at hs with hfresh
    exact ⟨base, (h.look (fun n hn heq => hfresh n hn (congrArg some heq)) hs).1⟩
  | flip => exact h.flip hs
  | finish => exact ⟨base, done, h.finish hs⟩
  | free addr => exact ⟨base, done, h.free hok hs⟩

theorem inv_make {maxMsgs : ℕ} (hpos : 1 ≤ maxMsgs) (hfits : msgSize * maxMsgs < 2 ^ 31) :
    (make maxMsgs).Inv 0 0 where
  pos := hpos
  live := rfl
  buffers := by
    refine ⟨hfits, Buf.noConfusion, Nat.le_refl _, ?_, fun j _ hj => absurd hj (Nat.not_lt_zero _),
      fun j _ _ => ?_, ?_⟩
    · show 0 < 0 + 2 * maxMsgs
      omega
    · unfold slotAt
      split <;> rfl
    · exact (if_pos hpos).symm
  listed := ⟨rfl, fun _ h => absurd h not_mem_nil, fun _ h => absurd h not_mem_nil,
    nodup_nil, rfl, fun _ h => absurd h not_mem_nil, nodup_nil,
    List.Subset.refl _, nodup_nil⟩
  bound := Nat.zero_le _
  freed_lt := by
    show 0 < 0 + maxMsgs
    omega
  phase := ⟨rfl, hpos⟩
  calls c hc := absurd hc not_mem_nil

theorem Inv.holds (h : s.Inv base done) (hk : k < s.arrivals.length)
    (hnot : k ∉ s.returned) : s.Holds k := by
  by_cases hseen : k < base + done
  · have hmem : k ∈ s.list.map Node.num := by
      rw [h.listed.nums, mem_filter]
      exact ⟨mem_range.mpr hseen, by simpa using fun hf => hnot (h.listed.freed_subset hf)⟩
    obtain ⟨n, hn, rfl⟩ := mem_map.mp hmem
    exact .inl ⟨n, hn, rfl, (h.listed.flags n hn).trans (if_neg hnot)⟩
  · have hroom := h.buffers.room
    obtain ⟨hflag, hnum, -⟩ := h.buffers.waiting (k - base) (by omega) (by omega)
    rw [show base + (k - base) = k by omega] at hnum
    unfold slotAt at hflag hnum
    by_cases hfirst : k - base < s.maxMsgs
    · rw [if_pos hfirst] at hflag hnum
      exact .inr ⟨_, _, hfirst, hflag, hnum⟩
    · rw [if_neg hfirst] at hflag hnum
      exact .inr ⟨_, _, by omega, hflag, hnum⟩

theorem deliver_isSome (handle : Handle) (rc : ℤ) :
    ∃ res, s.deliver (some handle) rc = some res := by
  unfold deliver
  split_ifs
  · exact ⟨_, rfl⟩
  · exact ⟨_, rfl⟩
  · dsimp only
    split_ifs
    · exact ⟨_, rfl⟩
    · split <;> exact ⟨_, rfl⟩

theorem Inv.resume (h : s.Inv base done) (hhandle : s.handle.isSome)
    (hfresh : ∀ n ∈ s.list, addr ≠ n.addr) : ∃ s', s.resume addr = some s' ∧ s'.pace < s.pace := by
  cases hphase : s.phase with
  | idle => simp [CtlPtl.handle, hphase] at hhandle
  | scan1 handle started count | scan2 handle started eventCount count =>
    obtain ⟨s', hs⟩ : ∃ s', s.look (some addr) = some s' := by
      unfold CtlPtl.look
      rw [hphase]
      dsimp only
      split <;> exact ⟨_, rfl⟩
    rw [CtlPtl.resume, hphase]
    exact ⟨s', hs, (h.look hfresh hs).2⟩
  | flip handle started eventCount eventCount2 =>
    simp only [CtlPtl.resume, CtlPtl.flip, pace, hphase]
    exact ⟨_, rfl, Nat.one_lt_two⟩
  | finish handle started rc =>
    simp only [CtlPtl.handle, hphase] at hhandle
    obtain ⟨handle, rfl⟩ := isSome_iff_exists.mp hhandle
    obtain ⟨res, hres⟩ := s.deliver_isSome handle rc
    simp only [CtlPtl.resume, CtlPtl.finish, pace, hphase, hres]
    exact ⟨_, rfl, Nat.one_pos⟩

theorem pace_arrive (m : Msg) : (s.arrive m).pace = s.pace := by
  unfold arrive
  split
  · rfl
  · split <;> rfl

/-- If at most `maxMsgs` messages are there at a time, `malloc` succeeds, no unread message is freed
and the length of a buffer fits an `int`, no message is lost, each call returns the first one that
meets its filter and none twice, and the portal stays. -/
theorem control_portal_fifo {maxMsgs : ℕ} (hpos : 1 ≤ maxMsgs)
    (hfits : msgSize * maxMsgs < 2 ^ 31) (h : Reaches step Proper (make maxMsgs) s) :
    s.live = true ∧ s.returned.Nodup ∧ (∀ k < s.arrivals.length, k ∉ s.returned → s.Holds k) ∧
      (∀ c ∈ s.calls, c.Served s.arrivals) ∧
      (s.handle.isSome → ∀ addr, (∀ n ∈ s.list, addr ≠ n.addr) →
        ∃ s', s.resume addr = some s' ∧ s'.pace < s.pace) ∧ ∀ m, (s.arrive m).pace = s.pace := by
  obtain ⟨base, done, hinv⟩ : ∃ base done, s.Inv base done :=
    h.invariant (P := fun s => ∃ base done, s.Inv base done) ⟨0, 0, inv_make hpos hfits⟩ Inv.step
  refine ⟨hinv.live, hinv.listed.returned_nodup, fun k hk hnot => hinv.holds hk hnot,
    fun c hc => (hinv.calls c hc).2, fun hhandle addr hfresh => hinv.resume hhandle hfresh,
    fun m => pace_arrive m⟩

instance (s : CtlPtl) (a : CtlAct) : Decidable (s.Proper a) :=
  match a with
  | .arrive _ => inferInstanceAs (Decidable (_ < _))
  | .look _ => inferInstanceAs (Decidable (_ = true))
  | .free _ => inferInstanceAs (Decidable (∀ n ∈ s.list, _))
  | .call _ | .flip | .finish => isTrue trivial

def letter (nid type : ℤ) : Msg := ⟨nid, 20, type, 0, 0, 0, []⟩

def receive (type : ℤ) (addrs : List ℤ) : List CtlAct :=
  [.call (some ⟨⟨-1, 0, type⟩, none⟩)] ++ addrs.map (fun a => .look (some a)) ++ [.finish]

theorem control_portal_fifo_two : ∃ s, Reaches step Proper (make 3) s ∧ s.returned = [1, 0] ∧
    s.live = true ∧ ∀ c ∈ s.calls, c.Served s.arrivals := by
  refine exists_reaches_imp (P := fun s => s.returned = [1, 0])
    ([.arrive (letter 7 100), .arrive (letter 8 200)] ++ receive 200 [1, 2, 3] ++ receive (-1) [4])
    (by decide +kernel) fun s hs hreturned => ?_
  have hfifo := control_portal_fifo (by decide) (by decide) hs
  exact ⟨hreturned, hfifo.1, hfifo.2.2.2.1⟩

/-- `sizeof(data_xfer_msg) * maxMsgs` is `2 ^ 32 + 64`, so the descriptors have a length of 64
bytes and take no message. The call that follows the first message returns nothing. -/
theorem long_portal_loses : ∃ s, Reaches step Proper (make 26843546) s ∧
    s.arrivals = [letter 7 100] ∧ s.returned = [] ∧
    ∃ c ∈ s.calls, c.filter = .any ∧ c.started = 1 ∧ ¬ c.Served s.arrivals := by
  refine exists_reaches_imp (P := fun s => s.arrivals = [letter 7 100] ∧ s.returned = [] ∧
      ∃ c ∈ s.calls, c.filter = .any ∧ c.read = [] ∧ c.started = 1 ∧ c.ended = 1 ∧
        (match c.result with | .none => true | _ => false) = true)
    ([.arrive (letter 7 100)] ++ receive (-1) [1]) (by decide +kernel) ?_
  rintro s - ⟨harr, hret, c, hc, hfilter, hread, hstarted, hended, hnone⟩
  refine ⟨harr, hret, c, hc, hfilter, hstarted, ?_⟩
  rintro ⟨m, hm, hm', hres⟩
  obtain rfl : m = 1 := by omega
  rw [harr, hfilter, hread, show earliest [letter 7 100] .any [] 1 = some 0 by decide] at hres
  obtain ⟨n, hn, -⟩ := hres
  rw [hn] at hnone
  cases hnone

end Cplant.Comm.CtlPtl
