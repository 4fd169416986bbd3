import Cplant.Rtscts.Network
import Mathlib.Data.List.Chain

/-!
# Garbage collection in the receiving queue

`clean_recv_queues` walks `Qreceiving` by position. After it has taken an entry out it still goes
on to the next position, past the entry that moved up, and `dequeue` takes out the first entry
that has the message ID of the one in hand.
-/
namespace Cplant.Rtscts
open List
variable {env : Env} {pre rest : List Qentry} {e : Qentry}

def Qentry.stale (env : Env) (e : Qentry) : Bool :=
  idleFor env e gchTimeout ∧ (e.event = .sentMsgend ∨ e.event = .sentMsgdrop)

def Node.cleanRecvQueues (n : Node) (env : Env) : Node :=
  (range n.receiving.length).foldl (fun n pos => n.cleanReceiving env pos) n

def sweep (env : Env) : List Qentry → List Qentry → List Qentry
  | pre, [] => pre
  | pre, e :: rest =>
    if e.stale env then
      match rest with
      | [] => dequeue (pre ++ [e]) e.msgID
      | x :: rest => sweep env (dequeue (pre ++ [e]) e.msgID ++ [x]) rest
    else sweep env (pre ++ [e]) rest

theorem handleGCH_receiving (n : Node) (msgID : ℕ) :
    (n.handleGCH msgID).receiving = dequeue n.receiving msgID := by
  unfold Node.handleGCH
  split
  next hnone => exact (eraseP_of_forall_not (find?_eq_none.mp hnone)).symm
  · rfl

theorem cleanReceiving_receiving (env : Env) (n : Node)
    (hn : n.receiving = pre ++ e :: rest) : (n.cleanReceiving env pre.length).receiving =
      if e.stale env then dequeue (pre ++ [e]) e.msgID ++ rest else pre ++ e :: rest := by
  have hget : n.receiving[pre.length]? = some e := by simp [hn]
  have happend : dequeue (pre ++ e :: rest) e.msgID = dequeue (pre ++ [e]) e.msgID ++ rest := by
    rw [append_cons, dequeue, dequeue, eraseP_append_left (a := e) (by simp) _ (by simp)]
  simp only [Node.cleanReceiving, hget, Qentry.stale, decide_eq_true_eq]
  split_ifs
  · rw [handleGCH_receiving, hn, happend]
  · exact hn

theorem foldl_cleanReceiving_end (n : Node) {k m : ℕ} (hk : n.receiving.length ≤ k) :
    (range' k m).foldl (fun n pos => n.cleanReceiving env pos) n = n := by
  induction m generalizing k with
  | zero => rfl
  | succ m ih =>
    have hend : n.cleanReceiving env k = n := by rw [Node.cleanReceiving, getElem?_eq_none hk]
    rw [range'_succ, foldl_cons, hend, ih (by omega)]

theorem length_dequeue_append (e : Qentry) :
    (dequeue (pre ++ [e]) e.msgID).length = pre.length := by
  rw [dequeue, length_eraseP_of_mem (a := e) (by simp) (by simp), length_append]
  rfl

theorem foldl_cleanReceiving (n : Node) (hn : n.receiving = pre ++ rest) (j : ℕ) :
    ((range' pre.length (rest.length + j)).foldl
      (fun n pos => n.cleanReceiving env pos) n).receiving = sweep env pre rest := by
  fun_induction sweep env pre rest generalizing n j with
  | case1 pre =>
    rw [append_nil] at hn
    rw [foldl_cleanReceiving_end n (by rw [hn]), hn]
  | case2 pre e hstale =>
    have hturn := cleanReceiving_receiving env n hn
    rw [if_pos hstale, append_nil] at hturn
    rw [length_cons, add_right_comm, range'_succ, foldl_cons, foldl_cleanReceiving_end, hturn]
    rw [hturn, length_dequeue_append]
    exact Nat.le_succ _
  | case3 pre e hstale x rest ih =>
    have hturn := cleanReceiving_receiving env n hn
    rw [if_pos hstale, append_cons] at hturn
    have hrun := ih _ hturn (j + 1)
    rw [length_append, length_dequeue_append, length_singleton, ← add_assoc] at hrun
    rwa [length_cons, add_right_comm, range'_succ, foldl_cons, length_cons, add_right_comm]
  | case4 pre e rest hfresh ih =>
    have hturn := cleanReceiving_receiving env n hn
    rw [if_neg hfresh, append_cons] at hturn
    have hrun := ih _ hturn j
    rw [length_append, length_singleton] at hrun
    rwa [length_cons, add_right_comm, range'_succ, foldl_cons]

theorem sweep_sublist : (sweep env pre rest).Sublist (pre ++ rest) := by
  fun_induction sweep env pre rest with
  | case1 pre => rw [append_nil]
  | case2 pre e hstale => exact eraseP_sublist
  | case3 pre e hstale x rest ih =>
    refine ih.trans ?_
    rw [append_assoc, append_cons pre e (x :: rest)]
    exact eraseP_sublist.append_right _
  | case4 pre e rest hfresh ih => rwa [append_cons pre e rest]

theorem le_length_sweep (env : Env) (pre rest : List Qentry) :
    pre.length + rest.countP (!·.stale env) ≤ (sweep env pre rest).length := by
  fun_induction sweep env pre rest with
  | case1 pre => rfl
  | case2 pre e hstale => simp [length_dequeue_append, hstale]
  | case3 pre e hstale x rest ih =>
    rw [length_append, length_dequeue_append] at ih
    cases hx : x.stale env <;> simp [hstale, hx] at ih ⊢ <;> omega
  | case4 pre e rest hfresh ih =>
    simp [hfresh] at ih ⊢
    omega

/-- Two entries in the order of the queue, of which the second is collected only if the first
has another message ID or is collected too. -/
def KeepsTwin (env : Env) (a b : Qentry) : Prop :=
  a.msgID = b.msgID → b.stale env → a.stale env

section
variable (hpre : ∀ a ∈ pre, a.stale env = false)
include hpre

theorem pairwise_kept : pre.Pairwise (KeepsTwin env) :=
  pairwise_of_forall_mem_list fun _ _ b hb _ hstale => absurd hstale (by simp [hpre b hb])

variable {e : Qentry} (hstale : e.stale env = true)
include hstale

theorem pairwise_stale_iff : (pre ++ e :: rest).Pairwise (KeepsTwin env) ↔
    (∀ a ∈ pre, a.msgID ≠ e.msgID) ∧ (pre ++ rest).Pairwise (KeepsTwin env) := by
  have htwin : ∀ a ∈ pre, KeepsTwin env a e ↔ a.msgID ≠ e.msgID := fun a ha => by
    simp [KeepsTwin, hstale, hpre a ha]
  have hfirst : ∀ b ∈ rest, KeepsTwin env e b := fun _ _ _ _ => hstale
  simp only [pairwise_append, pairwise_cons, forall_mem_cons, forall₂_and, pairwise_kept hpre]
  have := forall₂_congr htwin
  tauto

theorem twin_lost (rest : List Qentry) (htwin : ¬ ∀ a ∈ pre, a.msgID ≠ e.msgID) {q : List Qentry}
    (hq : q.Sublist (dequeue (pre ++ [e]) e.msgID ++ rest)) :
    q ≠ pre ++ rest.filter (!·.stale env) := by
  push Not at htwin
  obtain ⟨a, ha, hid⟩ := htwin
  rintro rfl
  have hlen := (hq.filter (!·.stale env)).length_le
  have hself : pre.filter (!·.stale env) = pre := by simpa using hpre
  have herase := length_eraseP_of_mem (p := fun b => b.msgID == e.msgID) ha (by simpa using hid)
  have hle := length_filter_le (!·.stale env) (dequeue pre e.msgID)
  have hpos := length_pos_of_mem ha
  rw [dequeue, eraseP_append_left (a := a) (by simpa using hid) _ ha] at hlen
  simp [hself, hstale] at hlen
  rw [dequeue] at hle
  omega

end

theorem dequeue_append_self (h : ∀ a ∈ pre, a.msgID ≠ e.msgID) :
    dequeue (pre ++ [e]) e.msgID = pre := by
  rw [dequeue, eraseP_append_right _ (by simpa using h)]
  simp

theorem sweep_eq_iff (hpre : ∀ a ∈ pre, a.stale env = false) :
    sweep env pre rest = pre ++ rest.filter (!·.stale env) ↔
      rest.IsChain (fun a b => ¬ (a.stale env ∧ b.stale env)) ∧
        (pre ++ rest).Pairwise (KeepsTwin env) := by
  fun_induction sweep env pre rest with
  | case1 pre => simpa using pairwise_kept hpre
  | case2 pre e hstale =>
    rw [pairwise_stale_iff hpre hstale, filter_cons_of_neg (by simp [hstale]), append_nil]
    by_cases htwin : ∀ a ∈ pre, a.msgID ≠ e.msgID
    · simpa [dequeue_append_self htwin] using ⟨htwin, pairwise_kept hpre⟩
    · refine iff_of_false ?_ fun h => htwin h.2.1
      simpa using twin_lost hpre hstale [] htwin (by rw [append_nil])
  | case3 pre e hstale x rest ih =>
    rw [pairwise_stale_iff hpre hstale, filter_cons_of_neg (by simp [hstale]), isChain_cons_cons]
    by_cases htwin : ∀ a ∈ pre, a.msgID ≠ e.msgID
    · rw [dequeue_append_self htwin] at ih ⊢
      cases hx : x.stale env with
      | true =>
        refine iff_of_false (fun h => ?_) fun h => h.1.1 ⟨hstale, rfl⟩
        have hlen := le_length_sweep env (pre ++ [x]) rest
        rw [h, countP_eq_length_filter, filter_cons_of_neg (by simp [hx]), length_append,
          length_append, length_singleton] at hlen
        omega
      | false =>
        rw [filter_cons_of_pos (by simp [hx]), append_cons pre x (rest.filter _),
          ih (by simpa [or_imp, forall_and] using ⟨hpre, hx⟩), isChain_cons]
        simp [hx]
        exact fun _ _ => htwin
    · refine iff_of_false ?_ fun h => htwin h.2.1
      exact twin_lost hpre hstale _ htwin (append_cons _ x rest ▸ sweep_sublist)
  | case4 pre e rest hfresh ih =>
    rw [Bool.not_eq_true] at hfresh
    rw [filter_cons_of_pos (by simp [hfresh]), append_cons pre e (rest.filter _),
      ih (by simpa [or_imp, forall_and] using ⟨hpre, hfresh⟩), isChain_cons]
    simp [hfresh]

theorem cleanRecvQueues_receiving (n : Node) :
    (n.cleanRecvQueues env).receiving = sweep env [] n.receiving := by
  rw [Node.cleanRecvQueues, range_eq_range']
  exact foldl_cleanReceiving n (nil_append n.receiving).symm 0

/-- `clean_recv_queues` takes out the stale entries and no others exactly if no two of them are
neighbours and none has the message ID of an entry before it that stays. -/
theorem cleanRecvQueues_complete_iff (n : Node) (env : Env) :
    (n.cleanRecvQueues env).receiving = n.receiving.filter (!·.stale env) ↔
      n.receiving.IsChain (fun a b => ¬ (a.stale env ∧ b.stale env)) ∧
        n.receiving.Pairwise (KeepsTwin env) := by
  rw [cleanRecvQueues_receiving]
  exact sweep_eq_iff (forall_mem_nil _)

def doneEntry (msgID : ℕ) : Qentry :=
  sendEntry (goodEnv 0 none) emptyMsg msgID 0 0 .sentMsgend none []

theorem cleanRecvQueues_skips : ∃ (n : Node) (env : Env) (e : Qentry), e ∈ n.receiving ∧
    e.stale env ∧ e ∈ (n.cleanRecvQueues env).receiving := by
  have hstale : ∀ msgID, (doneEntry msgID).stale (goodEnv 200000 none) = true := fun _ => by
    simp [Qentry.stale, doneEntry, sendEntry, idleFor, goodEnv, gchTimeout, hz]
  refine ⟨{ initProtocol 0 (fun _ _ => 0) with receiving := [doneEntry 1, doneEntry 2] },
    goodEnv 200000 none, doneEntry 2, by simp, hstale 2, ?_⟩
  simp [cleanRecvQueues_receiving, sweep, hstale]

end Cplant.Rtscts
