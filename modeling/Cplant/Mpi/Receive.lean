import Cplant.Mpi.Device

/-!
# Where a receive puts its message

A message is written into the buffer of a receive by Portals if the receive is posted when it
arrives. An unexpected short message is copied out of the buffer that it was put in, and an
unexpected long one is pulled from the sender with `PtlGet`, into a descriptor as long as the
message. The request is completed by calls of its test and wait functions, of which the first
looks at the type of an event and the second, for a message that is pulled, only counts events.
-/
namespace Cplant.Mpi
open List

structure Exchange where
  protocol : Protocol
  data : List UInt8
  buf : ℕ
  len : ℕ

inductive MpiErr
  | success
  | truncate
deriving DecidableEq, Repr

structure Status where
  count : ℕ
  error : MpiErr
deriving DecidableEq, Repr

inductive RecvEvent
  | put (rlength mlength : ℕ)
  | sent
  | reply
deriving DecidableEq, Repr

inductive Completion
  | recv
  | pulled
deriving DecidableEq, Repr

structure Rhandle where
  status : Status
  isComplete : Bool
  completion : Option Completion
  gotSent : Bool
  gotReply : Bool
deriving DecidableEq, Repr

structure Receiver where
  mem : ℕ → UInt8
  arrived : Bool
  called : Bool
  rhandle : Rhandle
  eq : List RecvEvent
  waiting : Bool
  /-- What is still to come for a `PtlGet`. -/
  sentDue : Bool
  replyDue : Bool

inductive RecvMove
  | arrive
  | recv
  | getSent
  | getReply
  | test
  | wait
  | waitGo
deriving DecidableEq, Repr

def store (mem : ℕ → UInt8) (start : ℕ) (bytes : List UInt8) : ℕ → UInt8 := fun a =>
  if start ≤ a then bytes[a - start]?.getD (mem a) else mem a

namespace Receiver
variable (x : Exchange) (r : Receiver)

def init (mem : ℕ → UInt8) : Receiver where
  mem
  arrived := false
  called := false
  rhandle := ⟨⟨0, .success⟩, false, none, false, false⟩
  eq := []
  waiting := false
  sentDue := false
  replyDue := false

def arrive : Receiver :=
  if r.called then
    let mlength := min x.data.length x.len
    { r with
      arrived := true
      mem := store r.mem x.buf (x.data.take mlength)
      eq := r.eq ++ [.put x.data.length mlength] }
  else { r with arrived := true }

def processUnex : Receiver :=
  if x.protocol = .long then
    { r with
      rhandle := { r.rhandle with
        status :=
          if x.data.length > x.len then ⟨x.len, .truncate⟩
          else { r.rhandle.status with count := x.data.length }
        gotSent := false
        gotReply := false
        isComplete := false
        completion := some .pulled }
      sentDue := true
      replyDue := true }
  else
    let status : Status :=
      if x.data.length > x.len then ⟨x.len, .truncate⟩
      else { r.rhandle.status with count := x.data.length }
    { r with
      rhandle := { r.rhandle with status, isComplete := true }
      mem := store r.mem x.buf (x.data.take status.count) }

def recv : Receiver :=
  let r := { r with
    called := true
    rhandle := { r.rhandle with status := { r.rhandle.status with error := .success } } }
  if r.arrived then r.processUnex x
  else { r with rhandle := { r.rhandle with isComplete := false, completion := some .recv } }

def getReply : Receiver :=
  { r with replyDue := false, mem := store r.mem x.buf x.data, eq := r.eq ++ [.reply] }

def finishRecv (rlength mlength : ℕ) : Rhandle :=
  { r.rhandle with
    status := ⟨mlength, if rlength > mlength then .truncate else r.rhandle.status.error⟩
    isComplete := true }

def testPulled (e : RecvEvent) : Rhandle :=
  let gotSent := if e = .sent then true else r.rhandle.gotSent
  let gotReply := if e = .reply then true else r.rhandle.gotReply
  { r.rhandle with
    gotSent, gotReply
    isComplete := if gotSent && gotReply then true else r.rhandle.isComplete }

def waitPulled : Rhandle :=
  if r.rhandle.gotSent = false then
    { r.rhandle with gotSent := true, isComplete := r.rhandle.gotReply }
  else { r.rhandle with gotReply := true, isComplete := true }

def take (wait : Bool) (e : RecvEvent) (rest : List RecvEvent) : Option Receiver :=
  match r.rhandle.completion, e with
  | some .recv, .put rlength mlength =>
    some { r with eq := rest, rhandle := r.finishRecv rlength mlength, waiting := false }
  | some .pulled, e =>
    let rhandle := if wait then r.waitPulled else r.testPulled e
    some { r with eq := rest, rhandle, waiting := wait && !rhandle.isComplete }
  | _, _ => none

def step : RecvMove → Option Receiver
  | .arrive => if r.arrived then none else some (r.arrive x)
  | .recv => if r.called then none else some (r.recv x)
  | .getSent =>
    if r.sentDue then some { r with sentDue := false, eq := r.eq ++ [.sent] } else none
  | .getReply => if r.replyDue then some (r.getReply x) else none
  | .test =>
    if r.rhandle.isComplete || r.waiting then none
    else match r.eq with
      | [] => some r
      | e :: rest => r.take false e rest
  | .wait =>
    if r.rhandle.isComplete || r.waiting || r.rhandle.completion.isNone then none
    else some { r with waiting := true }
  | .waitGo =>
    if r.waiting then
      match r.eq with
      | [] => none
      | e :: rest => r.take true e rest
    else none

end Receiver

def Exchange.status (x : Exchange) : Status :=
  ⟨min x.data.length x.len, if x.data.length > x.len then .truncate else .success⟩

variable {mem : ℕ → UInt8} {start a : ℕ} {bytes : List UInt8}

theorem store_of_outside (h : a < start ∨ start + bytes.length ≤ a) :
    store mem start bytes a = mem a := by
  unfold store
  split_ifs with hle
  · rw [getElem?_eq_none (by omega), Option.getD_none]
  · rfl

theorem store_of_inside {i : ℕ} (h : i < bytes.length) :
    store mem start bytes (start + i) = bytes[i] := by
  rw [store, if_pos (Nat.le_add_right _ _), Nat.add_sub_cancel_left, getElem?_eq_getElem h,
    Option.getD_some]

namespace Receiver
variable {x : Exchange} {r r' : Receiver} {mem : ℕ → UInt8} {mv : RecvMove}

def Held (x : Exchange) (mem : ℕ → UInt8) : Prop :=
  ∀ i (h : i < x.data.length), i < x.len → mem (x.buf + i) = x.data[i]

inductive Stage (x : Exchange) (r : Receiver) : Prop
  | before (hcalled : r.called = false)
      (hrh : r.rhandle = ⟨⟨0, .success⟩, false, none, false, false⟩) (heq : r.eq = [])
      (hw : r.waiting = false) (hs : r.sentDue = false) (hr : r.replyDue = false)
  | posted (hcalled : r.called = true) (harr : r.arrived = false)
      (hc : r.rhandle.completion = some .recv) (hinc : r.rhandle.isComplete = false)
      (herr : r.rhandle.status.error = .success) (heq : r.eq = []) (hs : r.sentDue = false)
      (hr : r.replyDue = false)
  | put (hcalled : r.called = true) (harr : r.arrived = true)
      (hc : r.rhandle.completion = some .recv) (hinc : r.rhandle.isComplete = false)
      (herr : r.rhandle.status.error = .success)
      (heq : r.eq = [.put x.data.length (min x.data.length x.len)]) (hs : r.sentDue = false)
      (hr : r.replyDue = false) (hheld : Held x r.mem)
  | pulling (hcalled : r.called = true) (harr : r.arrived = true)
      (hc : r.rhandle.completion = some .pulled) (hinc : r.rhandle.isComplete = false)
      (hstatus : r.rhandle.status = x.status)
      (hsum : r.eq.length + r.sentDue.toNat + r.replyDue.toNat + r.rhandle.gotSent.toNat +
        r.rhandle.gotReply.toNat = 2)
      (hsent : r.waiting = false →
        r.eq.count .sent + r.sentDue.toNat + r.rhandle.gotSent.toNat = 1)
      (hreply : r.waiting = false →
        r.eq.count .reply + r.replyDue.toNat + r.rhandle.gotReply.toNat = 1)
      (hheld : r.replyDue = false → Held x r.mem)
  | done (hcalled : r.called = true) (harr : r.arrived = true) (hcomp : r.rhandle.isComplete = true)
      (hstatus : r.rhandle.status = x.status) (hw : r.waiting = false) (hs : r.sentDue = false)
      (hr : r.replyDue = false) (hheld : Held x r.mem)

theorem held_store_take (mem : ℕ → UInt8) :
    Held x (store mem x.buf (x.data.take (min x.data.length x.len))) := by
  intro i hi hlen
  rw [store_of_inside (by rw [length_take]; omega), getElem_take]

theorem held_store (mem : ℕ → UInt8) : Held x (store mem x.buf x.data) := by
  intro i hi _
  exact store_of_inside hi

theorem status_eq : (if x.data.length > x.len then (⟨x.len, .truncate⟩ : Status)
    else ⟨x.data.length, .success⟩) = x.status := by
  unfold Exchange.status
  split_ifs with h
  · rw [Nat.min_eq_right (Nat.le_of_lt h)]
  · rw [Nat.min_eq_left (Nat.le_of_not_gt h)]

namespace Stage

theorem arrive (h : Stage x r) (harr : r.arrived = false) : Stage x (r.arrive x) := by
  unfold Receiver.arrive
  cases h with
  | before hcalled hrh heq hw hs hr =>
    rw [if_neg (by simp [hcalled])]
    exact before hcalled hrh heq hw hs hr
  | posted hcalled _ hc hinc herr heq hs hr =>
    rw [if_pos hcalled]
    exact put hcalled rfl hc hinc herr (by simp [heq]) hs hr (held_store_take _)
  | put _ harr' | pulling _ harr' | done _ harr' =>
    rw [harr] at harr'
    cases harr'

theorem recv (h : Stage x r) (hcalled : r.called = false) : Stage x (r.recv x) := by
  cases h with
  | before _ hrh heq hw hs hr =>
    unfold Receiver.recv
    by_cases harr : r.arrived = true
    · simp only [harr, if_true, Receiver.processUnex, hrh]
      by_cases hlong : x.protocol = .long
      · rw [if_pos hlong]
        refine pulling rfl rfl rfl rfl status_eq ?_ ?_ ?_ ?_ <;> simp [heq]
      · rw [if_neg hlong]
        refine done rfl rfl rfl status_eq hw hs hr ?_
        simp only [status_eq]
        exact held_store_take _
    · rw [Bool.not_eq_true] at harr
      simp only [harr, Bool.false_eq_true, if_false, hrh]
      exact posted rfl rfl rfl rfl rfl heq hs hr
  | posted hc | put hc | pulling hc | done hc =>
    rw [hcalled] at hc
    cases hc

theorem getSent (h : Stage x r) (hdue : r.sentDue = true) :
    Stage x { r with sentDue := false, eq := r.eq ++ [.sent] } := by
  cases h with
  | pulling hcalled harr hc hinc hstatus hsum hsent hreply hheld =>
    rw [hdue] at hsum hsent
    refine pulling hcalled harr hc hinc hstatus ?_ (fun hw => ?_) (fun hw => ?_) hheld
    · simp only [length_append, length_singleton, Bool.toNat_true, Bool.toNat_false]
        at hsum ⊢
      omega
    · have := hsent hw
      simp only [count_append, count_singleton_self, Bool.toNat_true, Bool.toNat_false]
        at this ⊢
      omega
    · simpa using hreply hw
  | before _ _ _ _ hs | posted _ _ _ _ _ _ hs | put _ _ _ _ _ _ hs | done _ _ _ _ _ hs =>
    rw [hdue] at hs
    cases hs

theorem getReply (h : Stage x r) (hdue : r.replyDue = true) : Stage x (r.getReply x) := by
  cases h with
  | pulling hcalled harr hc hinc hstatus hsum hsent hreply hheld =>
    rw [hdue] at hsum hreply
    refine pulling hcalled harr hc hinc hstatus ?_ (fun hw => ?_) (fun hw => ?_)
      fun _ => held_store _
    · simp only [Receiver.getReply, length_append, length_singleton, Bool.toNat_true,
        Bool.toNat_false] at hsum ⊢
      omega
    · simpa [Receiver.getReply] using hsent hw
    · have := hreply hw
      simp only [Receiver.getReply, count_append, count_singleton_self, Bool.toNat_true,
        Bool.toNat_false] at this ⊢
      omega
  | before _ _ _ _ _ hr | posted _ _ _ _ _ _ _ hr | put _ _ _ _ _ _ _ hr
  | done _ _ _ _ _ _ hr =>
    rw [hdue] at hr
    cases hr

theorem count_sent_add_count_reply_le (l : List RecvEvent) :
    l.count .sent + l.count .reply ≤ l.length := by
  induction l with
  | nil => exact Nat.le_refl _
  | cons e l ih =>
    cases e <;> simp <;> omega

variable {rest : List RecvEvent} {e : RecvEvent}

theorem finishRecv (h : Stage x r) (hc : r.rhandle.completion = some .recv) {rlength mlength : ℕ}
    (heq : r.eq = .put rlength mlength :: rest) (hinc : r.rhandle.isComplete = false) :
    Stage x { r with eq := rest, rhandle := r.finishRecv rlength mlength, waiting := false } := by
  cases h with
  | put hcalled harr _ _ herr heq' hs hr hheld =>
    obtain ⟨⟨rfl, rfl⟩, rfl⟩ : (rlength = x.data.length ∧ mlength = min x.data.length x.len) ∧
        rest = [] := by
      simpa [heq] using heq'
    refine done hcalled harr rfl ?_ rfl hs hr hheld
    simp only [Receiver.finishRecv, Exchange.status, herr]
    congr 2
    exact propext ⟨fun h => by omega, fun h => by omega⟩
  | before _ _ heq' | posted _ _ _ _ _ heq' =>
    rw [heq'] at heq
    cases heq
  | pulling _ _ hc' =>
    rw [hc] at hc'
    cases hc'
  | done _ _ hcomp =>
    rw [hinc] at hcomp
    cases hcomp

theorem pulled (hcalled : r.called = true) (harr : r.arrived = true)
    (hc : r.rhandle.completion = some .pulled) (hstatus : r.rhandle.status = x.status)
    (hsum : r.eq.length + r.sentDue.toNat + r.replyDue.toNat + r.rhandle.gotSent.toNat +
      r.rhandle.gotReply.toNat = 2)
    (hcomp : r.rhandle.isComplete = (r.rhandle.gotSent && r.rhandle.gotReply))
    (hw : r.rhandle.isComplete = true → r.waiting = false)
    (hsent : r.rhandle.isComplete = false → r.waiting = false →
      r.eq.count .sent + r.sentDue.toNat + r.rhandle.gotSent.toNat = 1)
    (hreply : r.rhandle.isComplete = false → r.waiting = false →
      r.eq.count .reply + r.replyDue.toNat + r.rhandle.gotReply.toNat = 1)
    (hheld : r.replyDue = false → Held x r.mem) : Stage x r := by
  cases hboth : r.rhandle.gotSent && r.rhandle.gotReply with
  | true =>
    rw [hboth] at hcomp
    rw [Bool.and_eq_true] at hboth
    rw [hboth.1, hboth.2] at hsum
    have hs : r.sentDue = false := by
      cases hdue : r.sentDue with
      | false => rfl
      | true => simp [hdue] at hsum
    have hr : r.replyDue = false := by
      cases hdue : r.replyDue with
      | false => rfl
      | true => simp [hdue] at hsum
    exact done hcalled harr hcomp hstatus (hw hcomp) hs hr (hheld hr)
  | false =>
    have hinc := hcomp.trans hboth
    exact pulling hcalled harr hc hinc hstatus hsum (hsent hinc) (hreply hinc) hheld

section
variable (h : Stage x r) (hc : r.rhandle.completion = some .pulled)
  (hinc : r.rhandle.isComplete = false)
include h hc hinc

theorem waitPulled (heq : r.eq = e :: rest) : Stage x { r with
      eq := rest, rhandle := r.waitPulled, waiting := !r.waitPulled.isComplete } := by
  cases h with
  | pulling hcalled harr _ _ hstatus hsum _ _ hheld =>
    rw [heq, length_cons] at hsum
    unfold Receiver.waitPulled
    cases hgot : r.rhandle.gotSent with
    | false =>
      rw [hgot, Bool.toNat_false] at hsum
      rw [if_pos rfl]
      refine pulled hcalled harr hc hstatus ?_ ?_ ?_ ?_ ?_ hheld
      · simp only [Bool.toNat_true]
        omega
      · simp
      · simp
      · simp +contextual
      · simp +contextual
    | true =>
      have hreply : r.rhandle.gotReply.toNat = 0 := by
        rw [hgot, Bool.toNat_true] at hsum
        omega
      rw [if_neg Bool.noConfusion]
      refine pulled hcalled harr hc hstatus ?_ ?_ ?_ ?_ ?_ hheld
      · simp only [hgot, Bool.toNat_true] at hsum ⊢
        omega
      · simp [hgot]
      · simp
      · simp
      · simp
  | before _ hrh =>
    rw [hrh] at hc
    cases hc
  | posted _ _ hc' | put _ _ hc' =>
    rw [hc] at hc'
    cases hc'
  | done _ _ hcomp =>
    rw [hinc] at hcomp
    cases hcomp

theorem testPulled (hw : r.waiting = false) (heq : r.eq = e :: rest) :
    Stage x { r with eq := rest, rhandle := r.testPulled e, waiting := false } := by
  cases h with
  | pulling hcalled harr _ _ hstatus hsum hsent hreply hheld =>
    have hsent := hsent hw
    have hreply := hreply hw
    have hle := count_sent_add_count_reply_le rest
    rw [heq, length_cons] at hsum
    rw [heq, count_cons] at hsent hreply
    cases e with
    | put rlength mlength =>
      simp only [beq_iff_eq, reduceCtorEq, if_false] at hsent hreply
      omega
    | sent =>
      simp only [beq_iff_eq, reduceCtorEq, if_false, if_true] at hsent hreply
      refine pulled hcalled harr hc hstatus ?_ ?_ (fun _ => rfl) (fun _ _ => ?_) (fun _ _ => hreply)
        hheld
      · simp only [Receiver.testPulled, if_true, reduceCtorEq, if_false, Bool.toNat_true]
        omega
      · simp [Receiver.testPulled, hinc]
      · simp only [Receiver.testPulled, if_true, Bool.toNat_true]
        omega
    | reply =>
      simp only [beq_iff_eq, reduceCtorEq, if_false, if_true] at hsent hreply
      refine pulled hcalled harr hc hstatus ?_ ?_ (fun _ => rfl) (fun _ _ => hsent) (fun _ _ => ?_)
        hheld
      · simp only [Receiver.testPulled, if_true, reduceCtorEq, if_false, Bool.toNat_true]
        omega
      · simp [Receiver.testPulled, hinc]
      · simp only [Receiver.testPulled, if_true, Bool.toNat_true]
        omega
  | before _ hrh =>
    rw [hrh] at hc
    cases hc
  | posted _ _ hc' | put _ _ hc' =>
    rw [hc] at hc'
    cases hc'
  | done _ _ hcomp =>
    rw [hinc] at hcomp
    cases hcomp

end

theorem take (h : Stage x r) (hinc : r.rhandle.isComplete = false) {wait : Bool}
    (hw : r.waiting = wait) (heq : r.eq = e :: rest) (hs : r.take wait e rest = some r') :
    Stage x r' := by
  unfold Receiver.take at hs
  split at hs
  next rlength mlength hc =>
    cases hs
    exact h.finishRecv hc heq hinc
  next hc =>
    cases hs
    cases wait with
    | true => exact h.waitPulled hc hinc heq
    | false => exact h.testPulled hc hinc hw heq
  · cases hs

theorem not_isComplete (h : Stage x r) (hw : r.waiting = true) : r.rhandle.isComplete = false := by
  cases h with
  | before _ hrh => rw [hrh]
  | posted _ _ _ hinc | put _ _ _ hinc | pulling _ _ _ hinc => exact hinc
  | done _ _ _ _ hw' =>
    rw [hw] at hw'
    cases hw'

theorem wait (h : Stage x r) (hc : r.rhandle.completion.isNone = false)
    (hinc : r.rhandle.isComplete = false) : Stage x { r with waiting := true } := by
  cases h with
  | before _ hrh =>
    rw [hrh] at hc
    cases hc
  | posted hcalled harr hc hinc herr heq hs hr =>
    exact posted hcalled harr hc hinc herr heq hs hr
  | put hcalled harr hc hinc herr heq hs hr hheld =>
    exact put hcalled harr hc hinc herr heq hs hr hheld
  | pulling hcalled harr hc hinc hstatus hsum _ _ hheld =>
    exact pulling hcalled harr hc hinc hstatus hsum Bool.noConfusion Bool.noConfusion hheld
  | done _ _ hcomp =>
    rw [hinc] at hcomp
    cases hcomp

theorem step (h : Stage x r) (hs : r.step x mv = some r') : Stage x r' := by
  cases mv <;> simp only [Receiver.step] at hs
  case arrive =>
    split_ifs at hs with harr
    cases hs
    exact h.arrive (Bool.eq_false_iff.mpr harr)
  case recv =>
    split_ifs at hs with hcalled
    cases hs
    exact h.recv (Bool.eq_false_iff.mpr hcalled)
  case getSent =>
    split_ifs at hs with hdue
    cases hs
    exact h.getSent hdue
  case getReply =>
    split_ifs at hs with hdue
    cases hs
    exact h.getReply hdue
  case test =>
    split_ifs at hs with hno
    rw [Bool.or_eq_true, not_or, Bool.not_eq_true, Bool.not_eq_true] at hno
    split at hs
    · cases hs
      exact h
    next e rest heq =>
      exact h.take hno.1 hno.2 heq hs
  case wait =>
    split_ifs at hs with hno
    cases hs
    simp only [Bool.or_eq_true, not_or, Bool.not_eq_true] at hno
    exact h.wait hno.2 hno.1.1
  case waitGo =>
    split_ifs at hs with hw
    split at hs
    · cases hs
    next e rest heq =>
      exact h.take (h.not_isComplete hw) hw heq hs

end Stage

def PullFits (x : Exchange) (r : Receiver) : RecvMove → Prop
  | .recv => ¬(x.protocol = .long ∧ r.arrived = true ∧ x.len < x.data.length)
  | _ => True

structure Inside (x : Exchange) (mem : ℕ → UInt8) (r : Receiver) : Prop where
  outside : ∀ a, a < x.buf ∨ x.buf + x.len ≤ a → r.mem a = mem a
  reply : r.replyDue = true → x.data.length ≤ x.len

namespace Inside
section
variable (h : Inside x mem r)
include h

theorem store (hb : bytes.length ≤ x.len) (a : ℕ)
    (ha : a < x.buf ∨ x.buf + x.len ≤ a) : Mpi.store r.mem x.buf bytes a = mem a := by
  rw [store_of_outside (by omega)]
  exact h.outside a ha

theorem arrive : Inside x mem (r.arrive x) := by
  unfold Receiver.arrive
  split_ifs
  · refine ⟨h.store ?_, h.reply⟩
    rw [length_take]
    omega
  · exact ⟨h.outside, h.reply⟩

theorem recv (hfit : PullFits x r .recv) : Inside x mem (r.recv x) := by
  unfold Receiver.recv
  by_cases harr : r.arrived = true
  · rw [if_pos harr, Receiver.processUnex]
    split_ifs with hlong hbig
    · exact absurd ⟨hlong, harr, hbig⟩ hfit
    · exact ⟨h.outside, fun _ => Nat.le_of_not_gt hbig⟩
    · exact ⟨h.store (length_take_le _ _), h.reply⟩
    · exact ⟨h.store (Nat.le_trans (length_take_le _ _) (Nat.le_of_not_gt ‹_›)), h.reply⟩
  · rw [if_neg harr]
    exact ⟨h.outside, h.reply⟩

theorem take {wait : Bool} {e : RecvEvent} {rest : List RecvEvent}
    (hs : r.take wait e rest = some r') : Inside x mem r' := by
  unfold Receiver.take at hs
  split at hs
  · cases hs
    exact ⟨h.outside, h.reply⟩
  · cases hs
    exact ⟨h.outside, h.reply⟩
  · cases hs

theorem step (hfit : PullFits x r mv) (hs : r.step x mv = some r') : Inside x mem r' := by
  cases mv <;> simp only [Receiver.step] at hs
  case arrive =>
    split_ifs at hs
    cases hs
    exact h.arrive
  case recv =>
    split_ifs at hs
    cases hs
    exact h.recv hfit
  case getSent | wait =>
    split_ifs at hs
    cases hs
    exact ⟨h.outside, h.reply⟩
  case getReply =>
    split_ifs at hs with hdue
    cases hs
    exact ⟨h.store (h.reply hdue), Bool.noConfusion⟩
  case test =>
    split_ifs at hs
    split at hs
    · cases hs
      exact h
    · exact h.take hs
  case waitGo =>
    split_ifs at hs
    split at hs
    · cases hs
    · exact h.take hs

end
end Inside

def InBuffer (x : Exchange) (mem : ℕ → UInt8) (r : Receiver) : Prop :=
  (∀ a, a < x.buf ∨ x.buf + x.len ≤ a → r.mem a = mem a) ∧
  (r.rhandle.isComplete = true →
    (x.data.length ≤ x.len →
      (∀ i (h : i < x.data.length), r.mem (x.buf + i) = x.data[i]) ∧
        r.rhandle.status.count = x.data.length) ∧
    (x.len < x.data.length →
      r.rhandle.status.error = .truncate ∧ r.rhandle.status.count = x.len))

theorem Stage.of_isComplete (h : Stage x r) (hcomp : r.rhandle.isComplete = true) :
    r.rhandle.status = x.status ∧ Held x r.mem := by
  cases h with
  | done _ _ _ hstatus _ _ _ hheld => exact ⟨hstatus, hheld⟩
  | before _ hrh =>
    rw [hrh] at hcomp
    cases hcomp
  | posted _ _ _ hinc | put _ _ _ hinc | pulling _ _ _ hinc =>
    rw [hcomp] at hinc
    cases hinc

theorem receive_in_buffer (h : Reaches (fun r => r.step x) (PullFits x) (.init mem) r) :
    InBuffer x mem r := by
  have hstage : Stage x r :=
    h.invariant (Stage.before rfl rfl rfl rfl rfl rfl) fun hst _ hs => hst.step hs
  have hinside : Inside x mem r :=
    h.invariant ⟨fun _ _ => rfl, Bool.noConfusion⟩ fun hin hfit hs => hin.step hfit hs
  refine ⟨hinside.outside, fun hcomp => ?_⟩
  obtain ⟨hstatus, hheld⟩ := hstage.of_isComplete hcomp
  rw [hstatus]
  constructor
  · intro hle
    exact ⟨fun i hi => hheld i hi (Nat.lt_of_lt_of_le hi hle), Nat.min_eq_left hle⟩
  · intro hlt
    exact ⟨if_pos hlt, Nat.min_eq_right (Nat.le_of_lt hlt)⟩

instance (x : Exchange) (r : Receiver) : DecidablePred (PullFits x r)
  | .recv => inferInstanceAs (Decidable ¬_)
  | .arrive | .getSent | .getReply | .test | .wait | .waitGo => .isTrue trivial

theorem receive_in_buffer_truncated : ∃ r : Receiver,
    Reaches (fun r => r.step ⟨.long, [1, 2], 0, 1⟩) (PullFits ⟨.long, [1, 2], 0, 1⟩)
      (.init fun _ => 0) r ∧
    r.rhandle.isComplete = true ∧ InBuffer ⟨.long, [1, 2], 0, 1⟩ (fun _ => 0) r := by
  exact exists_reaches_imp (P := fun r => r.rhandle.isComplete = true) [.recv, .arrive, .test]
    (by decide +kernel) fun r hr hcomp => ⟨hcomp, receive_in_buffer hr⟩

/-- The reply to the `PtlGet` for an unexpected message is as long as the message. -/
theorem pull_overruns_buffer : ∃ (x : Exchange) (mem : ℕ → UInt8) (r : Receiver),
    Reaches (fun r => r.step x) (fun _ _ => True) (.init mem) r ∧
      x.buf + x.len ≤ 1 ∧ r.mem 1 ≠ mem 1 ∧ ¬InBuffer x mem r := by
  refine ⟨⟨.long, [1, 2], 0, 1⟩, fun _ => 0, exists_reaches_imp (P := fun r => r.mem 1 = 2)
    [.arrive, .recv, .getReply] (by decide +kernel) fun r _ hmem => ?_⟩
  have hne : r.mem 1 ≠ 0 := by
    rw [hmem]
    decide
  refine ⟨Nat.le_refl _, hne, fun h => ?_⟩
  exact hne (h.1 1 (.inr (Nat.le_refl _)))

end Receiver
end Cplant.Mpi
