import Cplant.Mpi.Receive

/-!
# Long sends

A long message is put to the receive portal and stays readable on the read portal. The length in
the acknowledgement of the put decides how the send ends: if it is positive the message was
received, and otherwise the send waits for the receiver to read the message. The test function of
a send looks at the types of its events and the wait function counts them.
-/
namespace Cplant.Mpi
open List Option

inductive SendEvent
  | sent
  | ack (mlength : ℕ)
  | get
deriving DecidableEq, Repr

structure Shandle where
  gotSent : Bool
  gotAck : Bool
  ackMlength : ℤ
  isComplete : Bool
  /-- The functions of the request are `MPID_P30_Long_test_send_read` and its wait function. -/
  read : Bool
deriving DecidableEq, Repr

structure LongSend where
  recv : Receiver
  shandle : Shandle
  eq : List SendEvent
  waiting : Bool
  sentDue : Bool
  ackDue : Option ℕ
  getDue : Bool
  /-- The descriptor of the sender has answered the `PtlGet`. -/
  served : Bool

inductive LongMove
  | recv (mv : RecvMove)
  | sent
  | ack
  | get
  | test
  | wait
  | waitGo
deriving DecidableEq, Repr

namespace Shandle
variable (h : Shandle) (e : SendEvent)

def longTestSendRead : List SendEvent → Shandle × List SendEvent
  | [] => (h, [])
  | _ :: rest => ({ h with isComplete := true }, rest)

def testEvent : SendEvent → Shandle
  | .sent => { h with gotSent := true }
  | .ack mlength => { h with gotAck := true, ackMlength := mlength }
  | .get => h

def longTestSend : List SendEvent → Shandle × List SendEvent
  | [] => (h, [])
  | e :: rest =>
    let h := h.testEvent e
    if h.gotSent && h.gotAck then
      if h.ackMlength > 0 then ({ h with isComplete := true }, rest)
      else longTestSendRead { h with read := true } rest
    else (h, rest)

def waitEvent : Shandle :=
  let h := match e with
    | .ack mlength => { h with ackMlength := mlength }
    | _ => h
  if h.gotSent = false then { h with gotSent := true } else { h with gotAck := true }

def waitRest : Shandle :=
  if h.gotSent && h.gotAck then
    if h.ackMlength > 0 then { h with isComplete := true } else { h with read := true }
  else h

def longWaitSend : Shandle :=
  if h.read then { h with isComplete := true } else (h.waitEvent e).waitRest

end Shandle
namespace LongSend
variable (x : Exchange) (s : LongSend)

def init (mem : ℕ → UInt8) : LongSend where
  recv := .init mem
  shandle := ⟨false, false, -1, false, false⟩
  eq := []
  waiting := false
  sentDue := true
  ackDue := none
  getDue := false
  served := false

def recvStep (mv : RecvMove) (r : Receiver) : LongSend :=
  match mv with
  -- the descriptor for unexpected long messages has no room
  | .arrive =>
    { s with recv := r, ackDue := some (if s.recv.called then min x.data.length x.len else 0) }
  | .recv => { s with recv := r, getDue := r.replyDue }
  | _ => { s with recv := r }

def step : LongMove → Option LongSend
  | .recv mv =>
    if mv = .getReply ∧ s.served = false then none
    else (s.recv.step x mv).map (s.recvStep x mv)
  | .sent =>
    if s.sentDue then some { s with sentDue := false, eq := s.eq ++ [.sent] } else none
  | .ack =>
    match s.ackDue with
    | some mlength => some { s with ackDue := none, eq := s.eq ++ [.ack mlength] }
    | none => none
  | .get =>
    if s.getDue && s.ackDue.isNone then
      -- the match entry of a send is unlinked when it is complete
      if s.shandle.isComplete then some { s with getDue := false }
      else some { s with getDue := false, served := true, eq := s.eq ++ [.get] }
    else none
  | .test =>
    if s.shandle.isComplete || s.waiting then none
    else
      let (shandle, eq) :=
        if s.shandle.read then s.shandle.longTestSendRead s.eq else s.shandle.longTestSend s.eq
      some { s with shandle, eq }
  | .wait =>
    if s.shandle.isComplete || s.waiting then none
    else
      let shandle := if s.shandle.read then s.shandle else s.shandle.waitRest
      some { s with shandle, waiting := !shandle.isComplete }
  | .waitGo =>
    if s.waiting then
      match s.eq with
      | [] => none
      | e :: rest =>
        let shandle := s.shandle.longWaitSend e
        some { s with shandle, eq := rest, waiting := !shandle.isComplete }
    else none

def Stuck : Prop :=
  s.recv.rhandle.isComplete = true ∧ s.recv.arrived = true ∧ s.recv.sentDue = false ∧
    s.recv.replyDue = false ∧ s.sentDue = false ∧ s.ackDue = none ∧ s.getDue = false ∧
    s.eq = [] ∧ s.shandle.isComplete = false

def Taken : Prop :=
  s.recv.rhandle.completion = some .recv ∧ s.recv.arrived = true ∨ s.served = true

/-- A message does not find a receive without a buffer, and the sender does not test for the two
events of its put while the next event is that of a read. -/
def Clear : LongMove → Prop
  | .recv .arrive => ¬(s.recv.called = true ∧ x.len = 0)
  | .test => ¬(s.shandle.read = false ∧ s.eq.head? = some .get)
  | _ => True

end LongSend
namespace Receiver
variable {x : Exchange} {r r' : Receiver}

theorem take_frame {wait : Bool} {e : RecvEvent} {rest : List RecvEvent}
    (hs : r.take wait e rest = some r') : r'.arrived = r.arrived ∧ r'.called = r.called ∧
      r'.rhandle.completion = r.rhandle.completion := by
  unfold take at hs
  split at hs
  · cases hs
    exact ⟨rfl, rfl, rfl⟩
  · cases hs
    refine ⟨rfl, rfl, ?_⟩
    cases wait with
    | true =>
      simp only [waitPulled, if_true]
      split_ifs <;> rfl
    | false => rfl
  · cases hs

theorem step_frame {mv : RecvMove} (harr : mv ≠ .arrive) (hrecv : mv ≠ .recv)
    (hs : r.step x mv = some r') : r'.arrived = r.arrived ∧ r'.called = r.called ∧
      r'.rhandle.completion = r.rhandle.completion := by
  cases mv with
  | arrive => exact absurd rfl harr
  | recv => exact absurd rfl hrecv
  | getSent | getReply | wait =>
    simp only [step] at hs
    split_ifs at hs
    cases hs
    exact ⟨rfl, rfl, rfl⟩
  | test =>
    simp only [step] at hs
    split_ifs at hs
    split at hs
    · cases hs
      exact ⟨rfl, rfl, rfl⟩
    · exact take_frame hs
  | waitGo =>
    simp only [step] at hs
    split_ifs at hs
    split at hs
    · cases hs
    · exact take_frame hs

end Receiver

inductive SendLog (m : ℕ) : Bool → Bool → Bool → List SendEvent → Prop
  | nil : SendLog m false false false []
  | sent {a g : Bool} {l : List SendEvent} :
      SendLog m false a g l → SendLog m true a g (l ++ [.sent])
  | ack {s : Bool} {l : List SendEvent} :
      SendLog m s false false l → SendLog m s true false (l ++ [.ack m])
  | get {s : Bool} {l : List SendEvent} :
      SendLog m s true false l → SendLog m s true true (l ++ [.get])

namespace SendLog
variable {m : ℕ} {s a g : Bool} {l l1 l2 rest : List SendEvent} {e : SendEvent}

theorem length_eq (h : SendLog m s a g l) : l.length = s.toNat + a.toNat + g.toNat := by
  induction h with
  | nil => rfl
  | sent _ ih =>
    rw [length_append, length_singleton, ih, Bool.toNat_true, Bool.toNat_false]
    omega
  | ack _ ih | get _ ih => rw [length_append, length_singleton, ih]; rfl

theorem mem_iff (h : SendLog m s a g l) (e : SendEvent) :
    e ∈ l ↔ e = .sent ∧ s = true ∨ e = .ack m ∧ a = true ∨ e = .get ∧ g = true := by
  induction h with
  | nil => simp
  | sent _ ih | ack _ ih | get _ ih =>
    grind

theorem nodup (h : SendLog m s a g l) : l.Nodup := by
  induction h with
  | nil => exact nodup_nil
  | sent h ih | ack h ih | get h ih =>
    refine nodup_append.mpr ⟨ih, nodup_singleton _, ?_⟩
    intro e he e' he' heq
    rw [mem_singleton.mp he'] at heq
    rw [heq, h.mem_iff] at he
    simp at he

theorem of_no_ack (h : SendLog m s false g l) (m' : ℕ) : SendLog m' s false g l := by
  generalize ha : false = a at h
  induction h with
  | nil => exact nil
  | sent _ ih => exact (ih ha).sent
  | ack | get => cases ha

theorem no_get_of_no_ack (h : SendLog m s false g l) : g = false := by
  generalize ha : false = a at h
  induction h with
  | nil => rfl
  | sent _ ih => exact ih ha
  | ack | get => cases ha

theorem eq_or_exists_of_concat_eq {c : SendEvent} (h : l ++ [e] = l1 ++ c :: l2) :
    l = l1 ∧ e = c ∨ ∃ l2', l = l1 ++ c :: l2' := by
  rcases eq_nil_or_concat l2 with rfl | ⟨l2', e', rfl⟩
  · exact .inl (by simpa using h)
  · rw [concat_eq_append, ← cons_append, ← append_assoc] at h
    exact .inr ⟨l2', (append_inj' h rfl).1⟩

theorem ack_before_get (h : SendLog m s a g (l1 ++ .get :: l2)) : .ack m ∈ l1 := by
  generalize hl : l1 ++ .get :: l2 = l at h
  induction h generalizing l2 with
  | nil => simp at hl
  | sent _ ih | ack _ ih =>
    rcases eq_or_exists_of_concat_eq hl.symm with ⟨-, he⟩ | ⟨l2', hl'⟩
    · cases he
    · exact ih hl'.symm
  | get h ih =>
    rcases eq_or_exists_of_concat_eq hl.symm with ⟨rfl, -⟩ | ⟨l2', hl'⟩
    · rw [h.mem_iff]
      exact .inr (.inl ⟨rfl, rfl⟩)
    · exact ih hl'.symm

theorem first (h : SendLog m s a g (e :: rest)) : e = .sent ∨ e = .ack m := by
  rcases (h.mem_iff e).mp mem_cons_self with ⟨he, -⟩ | ⟨he, -⟩ | ⟨rfl, -⟩
  · exact .inl he
  · exact .inr he
  · cases ack_before_get (by exact h : SendLog m s a g ([] ++ .get :: rest))

theorem after_sent (h : SendLog m s a g ([.sent] ++ e :: rest)) : e = .ack m := by
  rcases (h.mem_iff e).mp (by simp) with ⟨rfl, -⟩ | ⟨he, -⟩ | ⟨rfl, -⟩
  · simpa using h.nodup
  · exact he
  · simpa using h.ack_before_get

theorem after_ack (h : SendLog m s a g ([.ack m] ++ e :: rest)) : e = .sent ∨ e = .get := by
  rcases (h.mem_iff e).mp (by simp) with ⟨he, -⟩ | ⟨rfl, -⟩ | ⟨he, -⟩
  · exact .inl he
  · simpa using h.nodup
  · exact .inr he

end SendLog

inductive Shandle.Knows (m : ℕ) : Shandle → Bool → List SendEvent → Prop
  | none {w : Bool} : Knows m ⟨false, false, -1, false, false⟩ w []
  | sent {w : Bool} : Knows m ⟨true, false, -1, false, false⟩ w [.sent]
  | acked {w : Bool} : Knows m ⟨false, true, m, false, false⟩ w [.ack m]
  -- the wait function counts the acknowledgement as the first of two events
  | counted : Knows m ⟨true, false, m, false, false⟩ true [.ack m]
  | reading {h : Shandle} {w : Bool} {l : List SendEvent} (hl : l.length = 2) (hm : m = 0)
      (hread : h.read = true) (hinc : h.isComplete = false) : Knows m h w l
  | done {h : Shandle} {l : List SendEvent} (hl : l.length = 2 ∧ 0 < m ∨ l.length = 3)
      (hcomp : h.isComplete = true) : Knows m h false l

namespace Shandle.Knows
variable {m : ℕ} {h : Shandle} {a b c : Bool} {seen eq rest : List SendEvent} {e : SendEvent}

theorem both (hl : seen.length = 2) : Knows m (waitRest ⟨true, true, m, false, false⟩)
      (!(waitRest ⟨true, true, m, false, false⟩).isComplete) seen := by
  rcases Nat.eq_zero_or_pos m with rfl | hm
  · exact reading hl rfl rfl rfl
  · have hpos : (m : ℤ) > 0 := by omega
    simp only [waitRest, Bool.and_self, if_true, hpos]
    exact done (.inl ⟨hl, hm⟩) rfl

theorem longWaitSend (hk : Knows m h true seen) (hlog : SendLog m a b c (seen ++ e :: rest)) :
    Knows m (h.longWaitSend e) (!(h.longWaitSend e).isComplete) (seen ++ [e]) := by
  cases hk with
  | none =>
    rcases hlog.first with rfl | rfl
    · exact sent
    · exact counted
  | sent =>
    obtain rfl := hlog.after_sent
    exact both rfl
  | acked | counted =>
    rcases hlog.after_ack with rfl | rfl <;> exact both rfl
  | reading hl hm hread hinc =>
    rw [Shandle.longWaitSend, if_pos hread]
    exact done (.inr (by rw [length_append, hl]; rfl)) rfl

theorem longTestSendRead (eq : List SendEvent) (hl : seen.length = 2) (hm : m = 0)
    (hread : h.read = true) (hinc : h.isComplete = false) :
    ∃ seen', seen' ++ (h.longTestSendRead eq).2 = seen ++ eq ∧
      Knows m (h.longTestSendRead eq).1 false seen' := by
  cases eq with
  | nil => exact ⟨seen, rfl, reading hl hm hread hinc⟩
  | cons e rest =>
    refine ⟨seen ++ [e], append_cons _ _ _ ▸ rfl, done (.inr ?_) rfl⟩
    rw [length_append, hl]
    rfl

theorem testBoth (seen : List SendEvent) (hl : seen.length = 2)
    (he : h.testEvent e = ⟨true, true, m, false, false⟩) :
    ∃ seen', seen' ++ (h.longTestSend (e :: rest)).2 = seen ++ rest ∧
      Knows m (h.longTestSend (e :: rest)).1 false seen' := by
  simp only [Shandle.longTestSend, he, Bool.and_self, if_true]
  rcases Nat.eq_zero_or_pos m with rfl | hm
  · exact longTestSendRead rest hl rfl rfl rfl
  · have hpos : (m : ℤ) > 0 := by omega
    rw [if_pos hpos]
    exact ⟨seen, rfl, done (.inl ⟨hl, hm⟩) rfl⟩

theorem longTestSend (hk : Knows m h false seen) (hlog : SendLog m a b c (seen ++ eq))
    (hread : h.read = false) (hinc : h.isComplete = false) (hhead : eq.head? ≠ some .get) :
    ∃ seen', seen' ++ (h.longTestSend eq).2 = seen ++ eq ∧
      Knows m (h.longTestSend eq).1 false seen' := by
  cases eq with
  | nil => exact ⟨seen, rfl, hk⟩
  | cons e rest =>
    cases hk with
    | none =>
      rcases hlog.first with rfl | rfl
      · exact ⟨[.sent], rfl, sent⟩
      · exact ⟨[.ack m], rfl, acked⟩
    | sent =>
      obtain rfl := hlog.after_sent
      exact testBoth [.sent, .ack m] rfl rfl
    | acked =>
      rcases hlog.after_ack with rfl | rfl
      · exact testBoth [.ack m, .sent] rfl rfl
      · exact absurd rfl hhead
    | reading _ _ hread' =>
      rw [hread] at hread'
      cases hread'
    | done _ hcomp =>
      rw [hinc] at hcomp
      cases hcomp

theorem wait (hk : Knows m h false seen) (hinc : h.isComplete = false) :
    Knows m (if h.read then h else h.waitRest)
      (!(if h.read then h else h.waitRest).isComplete) seen := by
  cases hk with
  | none => exact none
  | sent => exact sent
  | acked => exact acked
  | reading hl hm hread =>
    rw [if_pos hread, hinc]
    exact reading hl hm hread hinc
  | done _ hcomp =>
    rw [hinc] at hcomp
    cases hcomp

theorem isComplete_iff {w : Bool} (hk : Knows m h w seen) :
    h.isComplete = true ↔ seen.length = 2 ∧ 0 < m ∨ seen.length = 3 := by
  cases hk with
  | none | sent | acked | counted => simp
  | reading hl hm _ hinc =>
    rw [hinc, hl, hm]
    simp
  | done hl hcomp => exact iff_of_true hcomp hl

theorem of_read (hk : Knows m h a seen) (hread : h.read = true) (hinc : h.isComplete = false) :
    seen.length = 2 ∧ m = 0 := by
  cases hk with
  | none | sent | acked | counted => cases hread
  | reading hl hm => exact ⟨hl, hm⟩
  | done _ hcomp =>
    rw [hinc] at hcomp
    cases hcomp

theorem of_no_ack (hk : Knows m h a seen) (hlog : SendLog m b false false (seen ++ eq)) (m' : ℕ) :
    Knows m' h a seen := by
  have hlen : seen.length ≤ 1 := by
    have := hlog.length_eq
    have := Bool.toNat_le b
    simp only [length_append, Bool.toNat_false] at *
    omega
  have hack : .ack m ∉ seen := by
    intro hmem
    simpa using (hlog.mem_iff (.ack m)).mp (mem_append_left _ hmem)
  cases hk with
  | none => exact none
  | sent => exact sent
  | acked | counted => simp at hack
  | reading | done => omega

end Shandle.Knows
namespace LongSend
variable {x : Exchange} {s s' : LongSend} {mv : LongMove} {mem : ℕ → UInt8} {m : ℕ}
  {seen : List SendEvent}

inductive Way (m : ℕ) (s : LongSend) : Prop
  | sent (harr : s.recv.arrived = false) (hack : s.ackDue = none) (hget : s.getDue = false)
      (hserved : s.served = false)
      (hc : s.recv.called = true → s.recv.rhandle.completion = some .recv)
  | posted (harr : s.recv.arrived = true) (hcalled : s.recv.called = true)
      (hc : s.recv.rhandle.completion = some .recv) (hack : ∀ k, s.ackDue = some k → k = m)
      (hm : 0 < m) (hget : s.getDue = false) (hserved : s.served = false)
  | unexpected (harr : s.recv.arrived = true) (hcalled : s.recv.called = false)
      (hack : ∀ k, s.ackDue = some k → k = m) (hm : m = 0) (hget : s.getDue = false)
      (hserved : s.served = false)
  | pulled (harr : s.recv.arrived = true) (hcalled : s.recv.called = true)
      (hack : ∀ k, s.ackDue = some k → k = m) (hm : m = 0) (hget : s.getDue = !s.served)

structure Inv (x : Exchange) (s : LongSend) (m : ℕ) (seen : List SendEvent) : Prop where
  stage : Receiver.Stage x s.recv
  way : Way m s
  log : SendLog m (!s.sentDue) (s.recv.arrived && s.ackDue.isNone) s.served (seen ++ s.eq)
  knows : s.shandle.Knows m s.waiting seen

theorem Way.congr (h : Way m s) (harr : s'.recv.arrived = s.recv.arrived)
    (hcalled : s'.recv.called = s.recv.called)
    (hc : s'.recv.rhandle.completion = s.recv.rhandle.completion) (hack : s'.ackDue = s.ackDue)
    (hget : s'.getDue = s.getDue) (hserved : s'.served = s.served) : Way m s' := by
  cases h with
  | sent h1 h2 h3 h4 h5 =>
    exact sent (harr.trans h1) (hack.trans h2) (hget.trans h3) (hserved.trans h4)
      (fun h => hc.trans (h5 (hcalled.symm.trans h)))
  | posted h1 h2 h3 h4 h5 h6 h7 =>
    exact posted (harr.trans h1) (hcalled.trans h2) (hc.trans h3) (by rwa [hack]) h5
      (hget.trans h6) (hserved.trans h7)
  | unexpected h1 h2 h3 h4 h5 h6 =>
    exact unexpected (harr.trans h1) (hcalled.trans h2) (by rwa [hack]) h4 (hget.trans h5)
      (hserved.trans h6)
  | pulled h1 h2 h3 h4 h5 =>
    exact pulled (harr.trans h1) (hcalled.trans h2) (by rwa [hack]) h4 (by rw [hget, hserved, h5])

namespace Inv
section
variable (h : Inv x s m seen)
include h

theorem arrive (hpos : 0 < x.data.length) (harr : s.recv.arrived = false)
    (hclear : Clear x s (.recv .arrive)) :
    ∃ m', Inv x (s.recvStep x .arrive (s.recv.arrive x)) m' seen := by
  have harr' : (s.recv.arrive x).arrived = true := by
    unfold Receiver.arrive
    split_ifs <;> rfl
  have hlog := h.log
  rw [harr, Bool.false_and] at hlog
  cases h.way with
  | sent _ hack hget hserved hc =>
    rw [hserved] at hlog
    cases hcalled : s.recv.called with
    | true =>
      have hlen : x.len ≠ 0 := fun hz => hclear ⟨hcalled, hz⟩
      have harrive : (s.recv.arrive x).called = true ∧
          (s.recv.arrive x).rhandle.completion = some .recv := by
        rw [Receiver.arrive, if_pos hcalled]
        exact ⟨hcalled, hc hcalled⟩
      refine ⟨min x.data.length x.len, h.stage.arrive harr, .posted harr' harrive.1 harrive.2 ?_ ?_
        hget hserved, ?_, h.knows.of_no_ack hlog _⟩
      · intro k hk
        simpa [recvStep, hcalled] using hk.symm
      · omega
      · simpa [recvStep, hserved] using hlog.of_no_ack _
    | false =>
      have hsame : (s.recv.arrive x).called = false := by simp [Receiver.arrive, hcalled]
      refine ⟨0, h.stage.arrive harr, .unexpected harr' hsame ?_ rfl hget hserved, ?_,
        h.knows.of_no_ack hlog _⟩
      · intro k hk
        simpa [recvStep, hcalled] using hk.symm
      · simpa [recvStep, hserved] using hlog.of_no_ack _
  | posted harr'' | unexpected harr'' | pulled harr'' =>
    rw [harr] at harr''
    cases harr''

theorem recv (hx : x.protocol = .long) (hcalled : s.recv.called = false) :
    Inv x (s.recvStep x .recv (s.recv.recv x)) m seen := by
  have hstage := h.stage.recv hcalled
  have hlog := h.log
  cases h.way with
  | sent harr hack hget hserved =>
    have hrecv : s.recv.recv x = { s.recv with
        called := true
        rhandle := { s.recv.rhandle with
          status := { s.recv.rhandle.status with error := .success }
          isComplete := false
          completion := some .recv } } := by
      simp [Receiver.recv, harr]
    have hdue : s.recv.replyDue = false := by
      cases h.stage with
      | before _ _ _ _ _ hr => exact hr
      | posted hc | put hc | pulling hc | done hc =>
        rw [hcalled] at hc
        cases hc
    rw [hrecv] at hstage ⊢
    exact ⟨hstage, .sent harr hack hdue hserved fun _ => rfl, hlog, h.knows⟩
  | unexpected harr _ hack hm hget hserved =>
    have hrecv : (s.recv.recv x).called = true ∧ (s.recv.recv x).arrived = true ∧
        (s.recv.recv x).replyDue = true := by
      simp [Receiver.recv, harr, Receiver.processUnex, hx]
    refine ⟨hstage, .pulled hrecv.2.1 hrecv.1 hack hm ?_, ?_, h.knows⟩
    · simp [recvStep, hrecv, hserved]
    · simpa [recvStep, hrecv, harr] using hlog
  | posted _ hc | pulled _ hc =>
    rw [hcalled] at hc
    cases hc

theorem recvStep (hx : x.protocol = .long) (hpos : 0 < x.data.length) {mv : RecvMove} {r : Receiver}
    (hs : s.recv.step x mv = some r) (hclear : Clear x s (.recv mv)) :
    ∃ m', Inv x (s.recvStep x mv r) m' seen := by
  by_cases harr : mv = .arrive
  · subst harr
    simp only [Receiver.step] at hs
    split_ifs at hs with harr
    cases hs
    exact h.arrive hpos (Bool.eq_false_iff.mpr harr) hclear
  by_cases hrecv : mv = .recv
  · subst hrecv
    simp only [Receiver.step] at hs
    split_ifs at hs with hcalled
    cases hs
    exact ⟨m, h.recv hx (Bool.eq_false_iff.mpr hcalled)⟩
  have heq : s.recvStep x mv r = { s with recv := r } := by
    cases mv with
    | arrive => exact absurd rfl harr
    | recv => exact absurd rfl hrecv
    | _ => rfl
  obtain ⟨ha, hcalled, hc⟩ := Receiver.step_frame harr hrecv hs
  rw [heq]
  refine ⟨m, h.stage.step hs, h.way.congr ha hcalled hc rfl rfl rfl, ?_, h.knows⟩
  simpa [ha] using h.log

theorem sent (hdue : s.sentDue = true) :
    Inv x { s with sentDue := false, eq := s.eq ++ [.sent] } m seen := by
  have hlog := h.log
  rw [hdue] at hlog
  refine ⟨h.stage, h.way.congr rfl rfl rfl rfl rfl rfl, ?_, h.knows⟩
  rw [← append_assoc]
  exact hlog.sent

theorem ack {mlength : ℕ} (hdue : s.ackDue = some mlength) :
    Inv x { s with ackDue := none, eq := s.eq ++ [.ack mlength] } m seen := by
  have hlog := h.log
  rw [hdue, isNone_some, Bool.and_false] at hlog
  have hserved := hlog.no_get_of_no_ack
  rw [hserved] at hlog
  have hnone : ∀ k, (none : Option ℕ) = some k → k = m := nofun
  have hway : mlength = m ∧ s.recv.arrived = true ∧ Way m { s with ackDue := none } := by
    cases h.way with
    | sent _ hack =>
      rw [hdue] at hack
      cases hack
    | posted harr h2 h3 hack h5 h6 h7 =>
      exact ⟨hack _ hdue, harr, .posted harr h2 h3 hnone h5 h6 h7⟩
    | unexpected harr h2 hack h4 h5 h6 =>
      exact ⟨hack _ hdue, harr, .unexpected harr h2 hnone h4 h5 h6⟩
    | pulled harr h2 hack h4 h5 =>
      exact ⟨hack _ hdue, harr, .pulled harr h2 hnone h4 h5⟩
  obtain ⟨rfl, harr, hway⟩ := hway
  refine ⟨h.stage, hway.congr rfl rfl rfl rfl rfl rfl, ?_, h.knows⟩
  rw [← append_assoc]
  simpa [harr, hserved] using hlog.ack

theorem get (hdue : s.getDue = true) (hack : s.ackDue = none) : s.shandle.isComplete = false ∧
      Inv x { s with getDue := false, served := true, eq := s.eq ++ [.get] } m seen := by
  cases h.way with
  | sent _ _ hget | posted _ _ _ _ _ hget | unexpected _ _ _ _ hget =>
    rw [hdue] at hget
    cases hget
  | pulled harr hcalled hk hm hget =>
    have hserved : s.served = false := by
      rw [hdue] at hget
      simpa using hget.symm
    have hlog := h.log
    rw [harr, hack, hserved] at hlog
    constructor
    · have hlen := hlog.length_eq
      have hle := Bool.toNat_le (!s.sentDue)
      rw [length_append] at hlen
      simp only [isNone_none, Bool.and_self, Bool.toNat_true, Bool.toNat_false] at hlen
      rw [← Bool.not_eq_true, h.knows.isComplete_iff]
      omega
    · refine ⟨h.stage, .pulled harr hcalled hk hm rfl, ?_, h.knows⟩
      rw [← append_assoc]
      simpa [harr, hack] using hlog.get

theorem taken {shandle : Shandle} {eq seen' : List SendEvent} {waiting : Bool}
    (heq : seen' ++ eq = seen ++ s.eq) (hk : shandle.Knows m waiting seen') :
    Inv x { s with shandle, eq, waiting } m seen' := by
  refine ⟨h.stage, h.way.congr rfl rfl rfl rfl rfl rfl, ?_, hk⟩
  rw [heq]
  exact h.log

theorem test (hclear : Clear x s .test) (hs : s.step x .test = some s') :
    ∃ seen', Inv x s' m seen' := by
  rw [step] at hs
  obtain ⟨hno, hs⟩ := Option.ite_none_left_eq_some.mp hs
  rw [Bool.or_eq_true, not_or, Bool.not_eq_true, Bool.not_eq_true] at hno
  obtain ⟨hinc, hw⟩ := hno
  have hk := h.knows
  rw [hw] at hk
  simp only [hw] at hs
  cases hread : s.shandle.read with
  | false =>
    have hhead : s.eq.head? ≠ some .get := fun hg => hclear ⟨hread, hg⟩
    obtain ⟨seen', heq, hk'⟩ := hk.longTestSend h.log hread hinc hhead
    rw [hread, if_neg Bool.noConfusion, some.injEq] at hs
    subst hs
    exact ⟨seen', h.taken heq hk'⟩
  | true =>
    obtain ⟨hl, hm⟩ := hk.of_read hread hinc
    obtain ⟨seen', heq, hk'⟩ := Shandle.Knows.longTestSendRead s.eq hl hm hread hinc
    rw [hread, if_pos rfl, some.injEq] at hs
    subst hs
    exact ⟨seen', h.taken heq hk'⟩

theorem wait (hs : s.step x .wait = some s') : Inv x s' m seen := by
  obtain ⟨hno, hs⟩ := Option.ite_none_left_eq_some.mp hs
  rw [Bool.or_eq_true, not_or, Bool.not_eq_true, Bool.not_eq_true] at hno
  have hk := h.knows
  rw [hno.2] at hk
  cases hs
  exact h.taken rfl (hk.wait hno.1)

theorem step (hx : x.protocol = .long) (hpos : 0 < x.data.length) (hclear : Clear x s mv)
    (hs : s.step x mv = some s') : ∃ m' seen', Inv x s' m' seen' := by
  cases mv with
  | recv mv =>
    simp only [LongSend.step] at hs
    split_ifs at hs
    obtain ⟨r, hr, rfl⟩ := map_eq_some_iff.mp hs
    obtain ⟨m', h'⟩ := h.recvStep hx hpos hr hclear
    exact ⟨m', seen, h'⟩
  | sent =>
    simp only [LongSend.step] at hs
    split_ifs at hs with hdue
    cases hs
    exact ⟨m, seen, h.sent hdue⟩
  | ack =>
    simp only [LongSend.step] at hs
    split at hs
    next mlength hdue =>
      cases hs
      exact ⟨m, seen, h.ack hdue⟩
    · cases hs
  | get =>
    simp only [LongSend.step] at hs
    split_ifs at hs with hdue hcomp
    all_goals
      rw [Bool.and_eq_true, isNone_iff_eq_none] at hdue
      obtain ⟨hinc, h'⟩ := h.get hdue.1 hdue.2
      cases hs
    · rw [hinc] at hcomp
      cases hcomp
    · exact ⟨m, seen, h'⟩
  | test =>
    obtain ⟨seen', h'⟩ := h.test hclear hs
    exact ⟨m, seen', h'⟩
  | wait =>
    exact ⟨m, seen, h.wait hs⟩
  | waitGo =>
    simp only [LongSend.step] at hs
    split_ifs at hs with hw
    split at hs
    · cases hs
    rename_i e rest heq
    cases hs
    have hk := h.knows
    have hlog := h.log
    rw [hw] at hk
    rw [heq] at hlog
    refine ⟨m, seen ++ [e], h.taken ?_ (hk.longWaitSend hlog)⟩
    rw [heq, append_assoc]
    rfl

end

theorem init (mem : ℕ → UInt8) : Inv x (.init mem) 0 [] :=
  ⟨.before rfl rfl rfl rfl rfl rfl, .sent rfl rfl rfl rfl Bool.noConfusion, .nil, .none⟩

theorem not_stuck (h : Inv x s m seen) : ¬s.Stuck := by
  rintro ⟨hcomp, harr, -, -, hsent, hack, hget, heq, hinc⟩
  have hlen := h.log.length_eq
  rw [heq, append_nil, hsent, harr, hack] at hlen
  rw [← Bool.not_eq_true, h.knows.isComplete_iff] at hinc
  cases h.way with
  | sent harr' =>
    rw [harr] at harr'
    cases harr'
  | posted _ _ _ _ hm _ hserved =>
    rw [hserved] at hlen
    exact hinc (.inl ⟨hlen, hm⟩)
  | unexpected _ hcalled =>
    cases h.stage with
    | done hcalled' =>
      rw [hcalled] at hcalled'
      cases hcalled'
    | before _ hrh =>
      rw [hrh] at hcomp
      cases hcomp
    | posted _ _ _ hinc | put _ _ _ hinc | pulling _ _ _ hinc =>
      rw [hcomp] at hinc
      cases hinc
  | pulled _ _ _ _ hserved =>
    rw [hget] at hserved
    have hserved : s.served = true := by simpa using hserved.symm
    rw [hserved] at hlen
    exact hinc (.inr hlen)

theorem isTaken (h : Inv x s m seen) (hcomp : s.shandle.isComplete = true) : s.Taken := by
  have hlen := h.log.length_eq
  rw [length_append] at hlen
  have hle := Bool.toNat_le (!s.sentDue)
  rcases h.knows.isComplete_iff.mp hcomp with ⟨hl, hm⟩ | hl
  · cases h.way with
    | sent harr _ _ hserved =>
      simp only [harr, hserved, Bool.false_and, Bool.toNat_false] at hlen
      omega
    | posted harr _ hc => exact .inl ⟨hc, harr⟩
    | unexpected _ _ _ hm' | pulled _ _ _ hm' => omega
  · right
    have hle' := Bool.toNat_le (s.recv.arrived && s.ackDue.isNone)
    cases hserved : s.served with
    | true => rfl
    | false =>
      rw [hserved, Bool.toNat_false] at hlen
      omega

end Inv

theorem long_send_finishes (hx : x.protocol = .long) (hpos : 0 < x.data.length)
    (h : Reaches (fun s => s.step x) (Clear x) (.init mem) s) :
    ¬s.Stuck ∧ (s.shandle.isComplete = true → s.Taken) := by
  obtain ⟨m, seen, hi⟩ := h.invariant (P := fun s => ∃ m seen, Inv x s m seen)
    ⟨0, [], Inv.init mem⟩ fun ⟨_, _, hi⟩ hclear hs => hi.step hx hpos hclear hs
  exact ⟨hi.not_stuck, hi.isTaken⟩

instance (x : Exchange) (s : LongSend) : DecidablePred (Clear x s)
  | .recv .arrive | .test => inferInstanceAs (Decidable ¬_)
  | .recv .recv | .recv .getSent | .recv .getReply | .recv .test | .recv .wait | .recv .waitGo
  | .sent | .ack | .get | .wait | .waitGo => .isTrue trivial

instance : DecidablePred Stuck := fun _ => inferInstanceAs (Decidable (_ ∧ _))

theorem long_send_finishes_pulled : ∃ s : LongSend,
    Reaches (fun s => s.step ⟨.long, [1, 2], 0, 2⟩) (Clear ⟨.long, [1, 2], 0, 2⟩)
      (.init fun _ => 0) s ∧ s.shandle.isComplete = true ∧ ¬s.Stuck ∧ s.Taken := by
  refine exists_reaches_imp (P := fun s => s.shandle.isComplete = true)
    [.recv .arrive, .recv .recv, .ack, .wait, .waitGo, .get, .waitGo, .sent, .waitGo]
    (by decide +kernel) fun s hs hcomp => ⟨hcomp, ?_⟩
  obtain ⟨hstuck, htaken⟩ := long_send_finishes rfl (by decide) hs
  exact ⟨hstuck, htaken hcomp⟩

/-- The send waits for a read that does not come when the receive has no buffer, and for one that
is over when a test has met it before the event of the put. -/
theorem long_send_stuck : (∃ (mem : ℕ → UInt8) (s : LongSend),
      Reaches (fun s => s.step ⟨.long, [1], 0, 0⟩) (fun _ _ => True) (.init mem) s ∧ s.Stuck) ∧
    ∃ (mem : ℕ → UInt8) (s : LongSend),
      Reaches (fun s => s.step ⟨.long, [1], 0, 1⟩) (fun _ _ => True) (.init mem) s ∧ s.Stuck := by
  constructor
  · exact ⟨fun _ => 0, exists_reaches [.recv .recv, .recv .arrive, .recv .test, .sent, .ack,
      .test, .test] (by decide +kernel)⟩
  · exact ⟨fun _ => 0, exists_reaches [.recv .arrive, .recv .recv, .ack, .test, .get, .test, .sent,
      .test, .recv .getSent, .recv .getReply, .recv .test, .recv .test] (by decide +kernel)⟩

end LongSend
end Cplant.Mpi
