import Cplant.Foundations.Runs
import Mathlib.Data.List.Perm.Basic
import Mathlib.Data.List.Range

/-!
# Signals

`job_send_signal` sends one message, to the PCT of rank 0. A PCT that handles it passes it on
to its children in a binary tree and leaves a request for its application host.
-/
namespace Cplant.Pct
open List

inductive Todo
  | sigUsr1 | sigUsr2 | abort1 | abort2
  deriving DecidableEq

inductive Signal
  | usr1 | usr2 | term | kill
  deriving DecidableEq

inductive SigMsg
  | sendSigUsr (type : Int8)
  | abortLoad1
  | abortLoad2

def jobSendSignal (number : Signal → ℤ) : Signal → SigMsg
  | .usr1 => .sendSigUsr (.ofInt (number .usr1))
  | .usr2 => .sendSigUsr (.ofInt (number .usr2))
  | .term => .abortLoad1
  | .kill => .abortLoad2

def SigMsg.todo : SigMsg → Option Todo
  | .sendSigUsr type => if type = 1 then some .sigUsr1 else if type = 2 then some .sigUsr2 else none
  | .abortLoad1 => some .abort1
  | .abortLoad2 => some .abort2

def Signal.todo : Signal → Todo
  | .usr1 => .sigUsr1
  | .usr2 => .sigUsr2
  | .term => .abort1
  | .kill => .abort2

def fanoutRanks (nprocs rank : ℕ) : List ℕ :=
  ([0, 1].map (rank * 2 + 1 + ·)).filter (· < nprocs)

structure Spread where
  waiting : List ℕ
  handled : List ℕ
  deriving DecidableEq

namespace Spread
variable {n : ℕ} {s s' : Spread}

def handle (nprocs : ℕ) (s : Spread) (rank : ℕ) : Option Spread :=
  if rank ∈ s.waiting then
    some ⟨s.waiting.erase rank ++ fanoutRanks nprocs rank, rank :: s.handled⟩
  else none

def asked (m : SigMsg) (s : Spread) : List (ℕ × Option Todo) := s.handled.map (·, m.todo)

theorem count_fanoutRanks (n k r : ℕ) :
    (fanoutRanks n k).count r = if r ≠ 0 ∧ r < n ∧ (r - 1) / 2 = k then 1 else 0 := by
  have hcount (a : ℕ) : ([a].filter (· < n)).count r = if a = r ∧ r < n then 1 else 0 := by
    by_cases ha : a = r
    · by_cases hr : r < n <;> simp [ha, hr]
    · by_cases hn : a < n <;> simp [ha, hn]
  have hsplit : fanoutRanks n k = [k * 2 + 1].filter (· < n) ++ [k * 2 + 2].filter (· < n) := by
    simp [fanoutRanks, ← filter_append]
  rw [hsplit, count_append, hcount, hcount]
  split_ifs <;> omega

def Relayed (n : ℕ) (s : Spread) : Prop :=
  ∀ r, (s.waiting ++ s.handled).count r =
    if r = 0 then 1 else if r < n then s.handled.count ((r - 1) / 2) else 0

theorem Relayed.handle {k : ℕ} (h : Relayed n s) (hs : s.handle n k = some s') : Relayed n s' := by
  obtain ⟨hk, hs⟩ := Option.ite_none_right_eq_some.mp hs
  cases hs
  intro r
  have hold := h r
  have hpos : 0 < s.waiting.count k := count_pos_iff.mpr hk
  simp only [count_append, count_erase, count_cons, count_fanoutRanks, beq_iff_eq] at hold ⊢
  by_cases hkr : k = r
  · subst hkr
    split_ifs at hold ⊢ <;> omega
  · split_ifs at hold ⊢ <;> omega

theorem Relayed.subperm (h : Relayed n s) (hn : 0 < n) : s.waiting ++ s.handled <+~ range n := by
  refine subperm_of_subset (nodup_iff_count.mpr fun r => ?_) fun r hr => ?_
  · -- by induction on the rank: the parent's is smaller
    induction r using Nat.strong_induction_on with
    | _ r ih =>
      have hparent := ih ((r - 1) / 2)
      rw [count_append] at hparent
      rw [h r]
      split_ifs <;> omega
  · have hpos := count_pos_iff.mpr hr
    rw [h r] at hpos
    rw [mem_range]
    split_ifs at hpos <;> omega

theorem Relayed.handled_perm (h : Relayed n s) (hn : 0 < n) (hrest : s.waiting = []) :
    s.handled ~ range n := by
  have hsub := h.subperm hn
  simp only [Relayed, hrest, nil_append] at h hsub
  refine hsub.antisymm (subperm_of_subset nodup_range fun r hr => ?_)
  replace hr := mem_range.mp hr
  induction r using Nat.strong_induction_on with
  | _ r ih =>
    have hparent := ih ((r - 1) / 2)
    rw [← count_pos_iff] at hparent ⊢
    rw [h r]
    split_ifs <;> omega

end Spread

def Signal.Understood (number : Signal → ℤ) : Signal → Prop
  | .usr1 => Int8.ofInt (number .usr1) = 1
  | .usr2 => Int8.ofInt (number .usr2) = 2
  | .term | .kill => True

theorem todo_jobSendSignal (number : Signal → ℤ) (sig : Signal) :
    (jobSendSignal number sig).todo = some sig.todo ↔ sig.Understood number := by
  cases sig with
  | usr1 | usr2 =>
    simp only [jobSendSignal, SigMsg.todo, Signal.todo, Signal.Understood]
    split_ifs <;> simp_all
  | term | kill => exact iff_of_true rfl trivial

/-- However the messages of a signal are delivered, at most one for each PCT is handled, and in the
end exactly one. The PCT passes the signal on just if its number is understood. -/
theorem signal_handled_once {n : ℕ} {s : Spread} (number : Signal → ℤ) (sig : Signal) (hn : 0 < n)
    (h : Reaches (Spread.handle n) (fun _ _ => True) ⟨[0], []⟩ s) :
    s.handled.length ≤ n ∧ (s.waiting = [] ↔ s.handled.length = n) ∧ (s.waiting = [] →
      (s.asked (jobSendSignal number sig) ~ (range n).map (·, some sig.todo) ↔
        sig.Understood number)) := by
  have hinv : s.Relayed n := by
    refine h.invariant (fun r => ?_) fun h _ hs => h.handle hs
    by_cases hzero : r = 0
    · simp [hzero]
    · simp [hzero, Ne.symm hzero]
  have hlen := (hinv.subperm hn).length_le
  rw [length_append, length_range] at hlen
  refine ⟨by omega, ⟨fun hrest => ?_, fun hall => ?_⟩, fun hrest => ?_⟩
  · simpa using (hinv.handled_perm hn hrest).length_eq
  · exact length_eq_zero_iff.mp (by omega)
  · have hperm := hinv.handled_perm hn hrest
    rw [← todo_jobSendSignal]
    refine ⟨fun hwant => ?_, fun heq => heq ▸ hperm.map _⟩
    have hmem := hwant.mem_iff.mp (mem_map_of_mem (hperm.mem_iff.mpr (mem_range.mpr hn)))
    obtain ⟨r, -, heq⟩ := mem_map.mp hmem
    exact (congrArg Prod.snd heq).symm

theorem signal_handled_once_term : ∃ s : Spread, s.waiting = [] ∧
    (s.asked .abortLoad1 ~ (range 2).map (·, some Todo.abort1) ↔
      Signal.Understood (fun _ => 30) .term) := by
  have hrun : ∃ s, Reaches (Spread.handle 2) (fun _ _ => True) ⟨[0], []⟩ s ∧ s.waiting = [] :=
    exists_reaches [0, 1] (by decide)
  obtain ⟨s, hs, hrest⟩ := hrun
  exact ⟨s, hrest, (signal_handled_once _ .term (by decide) hs).2.2 hrest⟩

/-- `SIGUSR1` has the number 30 on the Alpha: the only PCT handles the message and asks its
application host for nothing. -/
theorem signal_not_passed_on : Spread.handle 1 ⟨[0], []⟩ 0 = some ⟨[], [0]⟩ ∧
    Spread.asked (jobSendSignal (fun _ => 30) .usr1) ⟨[], [0]⟩ = [(0, none)] := by decide

end Cplant.Pct
