import Cplant.Foundations.Runs
import Cplant.Nexus.Vnode
import Mathlib.Tactic.MkIffOfInductiveProp

/-!
# Readers and writers

The lock of `rwlk.c` among several threads. What a thread does with the record it does under
`rw_mutex`, which `cond_wait` gives up. To the lock all threads are alike, so they are counted:
those that sleep in `cond_wait`, those that were woken but do not have the mutex back, and those
that hold the lock. A thread may also wake up without a signal.
-/
namespace Cplant.Nexus
open Option

structure Rwlk where
  nr : ℕ
  nw : ℕ
  readers : ℕ
  writer : ℕ
  sleepR : ℕ
  sleepW : ℕ
  wokenR : ℕ
  wokenW : ℕ
  reading : ℕ
  writing : ℕ

inductive RwMove
  | lock (lkf : Rwty) (dontwait : Bool)
  | resume (lkf : Rwty) (spurious : Bool)
  | unlock (lkf : Rwty)

namespace Rwlk

def init : Rwlk := ⟨0, 0, 0, 0, 0, 0, 0, 0, 0, 0⟩

/-- `get_lock` from the test of its loop on. -/
def getLock (s : Rwlk) (dontwait : Bool) : Rwty → Rwlk
  | .read =>
    if s.nw ≠ 0 ∨ s.writer ≠ 0 then
      if dontwait then { s with nr := s.nr - 1 } else { s with sleepR := s.sleepR + 1 }
    else { s with nr := s.nr - 1, readers := s.readers + 1, reading := s.reading + 1 }
  | .write =>
    if s.readers ≠ 0 ∨ s.writer ≠ 0 then
      if dontwait then { s with nw := s.nw - 1 } else { s with sleepW := s.sleepW + 1 }
    else { s with nw := s.nw - 1, writer := 1, writing := s.writing + 1 }
  | .none => s

/-- There is no value where `assert(rwlp->rw_readers--)` fails. -/
def release (s : Rwlk) : Option Rwlk :=
  if s.writer ≠ 0 then some { s with writer := 0 }
  else if s.readers = 0 then none
  else some { s with readers := s.readers - 1 }

/-- `cond_signal` for one writer, or `cond_broadcast` for the readers. -/
def wake (s : Rwlk) : Rwlk :=
  if s.nw ≠ 0 then
    if s.readers = 0 then
      { s with sleepW := s.sleepW - 1, wokenW := s.wokenW + min 1 s.sleepW }
    else s
  else if s.nr ≠ 0 then { s with sleepR := 0, wokenR := s.wokenR + s.sleepR }
  else s

def rwUnlock (s : Rwlk) : Option Rwlk := s.release.map wake

def leaveWait (s : Rwlk) : Rwty → Bool → Option Rwlk
  | .read, true => if s.sleepR = 0 then none else some { s with sleepR := s.sleepR - 1 }
  | .read, false => if s.wokenR = 0 then none else some { s with wokenR := s.wokenR - 1 }
  | .write, true => if s.sleepW = 0 then none else some { s with sleepW := s.sleepW - 1 }
  | .write, false => if s.wokenW = 0 then none else some { s with wokenW := s.wokenW - 1 }
  | .none, _ => none

def step (s : Rwlk) : RwMove → Option Rwlk
  | .lock .read dontwait => some ({ s with nr := s.nr + 1 }.getLock dontwait .read)
  | .lock .write dontwait => some ({ s with nw := s.nw + 1 }.getLock dontwait .write)
  | .lock .none _ => some s
  | .resume lkf spurious => (s.leaveWait lkf spurious).map fun s => s.getLock false lkf
  | .unlock .read => if s.reading = 0 then none else { s with reading := s.reading - 1 }.rwUnlock
  | .unlock .write => if s.writing = 0 then none else { s with writing := s.writing - 1 }.rwUnlock
  | .unlock .none => none

/-- The counters are those of the threads, and whoever could go on has been woken. -/
@[mk_iff] structure Inv (s : Rwlk) : Prop where
  reading : s.readers = s.reading
  writing : s.writer = s.writing
  alone : s.writing = 0 ∨ s.writing = 1 ∧ s.reading = 0
  nr : s.nr = s.sleepR + s.wokenR
  nw : s.nw = s.sleepW + s.wokenW
  writerWoken : s.reading = 0 → s.writing = 0 → s.nw ≠ 0 → s.wokenW ≠ 0
  readersWoken : s.writing = 0 → s.nw = 0 → s.sleepR = 0

variable {s s' : Rwlk} {m : RwMove}

theorem step_spec (hs : s.step m = some s') :
    (s.Inv → s'.Inv) ∧ (s.nw ≠ 0 → s'.reading ≤ s.reading) := by
  -- behind the case splits all is arithmetic on the counters
  simp only [inv_iff]
  cases m with
  | lock lkf dontwait =>
    cases lkf <;> cases hs
    · exact ⟨id, fun _ => le_rfl⟩
    all_goals
      simp only [getLock]
      split_ifs <;> dsimp only at * <;> grind
  | resume lkf spurious =>
    obtain ⟨s1, hs1, rfl⟩ := map_eq_some_iff.mp hs
    cases lkf <;> cases spurious <;> simp only [leaveWait] at hs1 <;> try cases hs1
    all_goals
      split_ifs at hs1
      cases hs1
      simp only [getLock]
      split_ifs <;> dsimp only at * <;> grind
  | unlock lkf =>
    cases lkf <;> simp only [step] at hs <;> try cases hs
    all_goals
      split_ifs at hs
      obtain ⟨s1, hs1, rfl⟩ := map_eq_some_iff.mp hs
      unfold release at hs1
      split_ifs at hs1 <;> cases hs1 <;> unfold wake <;> split_ifs <;> dsimp only at * <;> grind

theorem Inv.of_reaches (h : Reaches Rwlk.step (fun _ _ => True) init s) : s.Inv :=
  h.invariant ⟨rfl, rfl, .inl rfl, rfl, rfl, by decide, by decide⟩ fun hi _ hs =>
    (step_spec hs).1 hi

/-- A writer holds the lock alone, and a thread that holds it can give it back. -/
theorem rwlk_exclusive (h : Reaches step (fun _ _ => True) init s) :
    (s.writing = 0 ∨ s.writing = 1 ∧ s.reading = 0) ∧
      (s.reading ≠ 0 → (s.step (.unlock .read)).isSome) ∧
      (s.writing ≠ 0 → (s.step (.unlock .write)).isSome) := by
  obtain ⟨hreading, hwriting, halone, -⟩ := Inv.of_reaches h
  refine ⟨halone, fun hr => ?_, fun hw => ?_⟩
  · have hw : s.writer = 0 := by omega
    simp [step, rwUnlock, release, hr, hw, hreading]
  · simp [step, rwUnlock, release, hwriting, hw]

theorem rwlk_exclusive_writer : ∃ s, Reaches step (fun _ _ => True) init s ∧
    (s.writing = 1 ∧ s.sleepR = 1) ∧ (s.step (.unlock .write)).isSome :=
  exists_reaches_imp (P := fun s => s.writing = 1 ∧ s.sleepR = 1)
    [.lock .read false, .lock .write false, .lock .read false, .unlock .read, .resume .write false]
    (by decide) fun _ hs hw => ⟨hw, (rwlk_exclusive hs).2.2 (by omega)⟩

/-- No wake-up is lost. If nobody holds the lock and a writer waits, one was woken and can go on
with the lock. If no writer holds it or waits, all waiting readers were woken and can. -/
theorem rwlk_no_lost_wakeup (h : Reaches step (fun _ _ => True) init s) :
    (s.reading = 0 → s.writing = 0 → s.nw ≠ 0 →
      ∃ s', s.step (.resume .write false) = some s' ∧ s'.writing = 1) ∧
    (s.writing = 0 → s.nw = 0 → s.nr ≠ 0 → s.wokenR = s.nr ∧
      ∃ s', s.step (.resume .read false) = some s' ∧ s'.reading = s.reading + 1) := by
  obtain ⟨hreading, hwriting, halone, hnr, hnw, hwriter, hreaders⟩ := Inv.of_reaches h
  constructor
  · intro hr hw hn
    simp [step, leaveWait, getLock, hwriter hr hw hn, hreading, hwriting, hr, hw]
  · intro hw hn hr
    have hsleep := hreaders hw hn
    have hwoken : s.wokenR = s.nr := by omega
    simp [step, leaveWait, getLock, hwoken, hr, hn, hwriting, hw]

theorem rwlk_no_lost_wakeup_writer : ∃ s, Reaches step (fun _ _ => True) init s ∧ s.nw = 1 ∧
    ∃ s', s.step (.resume .write false) = some s' ∧ s'.writing = 1 :=
  exists_reaches_imp (P := fun s => s.nw = 1 ∧ s.reading = 0 ∧ s.writing = 0)
    [.lock .read false, .lock .write false, .unlock .read] (by decide) fun _ hs hn =>
      ⟨hn.1, (rwlk_no_lost_wakeup hs).1 hn.2.1 hn.2.2 (by omega)⟩

/-- Writers are preferred: while one waits, no reader gets the lock. -/
theorem writers_preferred (h : Reaches step (fun s _ => s.nw ≠ 0) s s') :
    s'.reading ≤ s.reading :=
  h.invariant (P := fun t => t.reading ≤ s.reading) le_rfl fun hle hn hs =>
    ((step_spec hs).2 hn).trans hle

theorem writers_preferred_refused : ∃ s',
    Reaches step (fun s _ => s.nw ≠ 0) ⟨0, 1, 1, 0, 0, 1, 0, 0, 1, 0⟩ s' ∧
      s'.sleepR = 1 ∧ s'.reading ≤ 1 :=
  have h := Reaches.init.step (.lock .read false) (by decide) rfl
  ⟨_, h, rfl, writers_preferred h⟩

def seen (s : Rwlk) : Rwlock := ⟨s.readers, s.writer ≠ 0⟩

end Rwlk
end Cplant.Nexus
