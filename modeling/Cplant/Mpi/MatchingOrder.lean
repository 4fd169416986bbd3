import Cplant.Mpi.MatchingSteps

/-!
# The matching order of MPI

Runs of a process in which no message is lost keep the order. Without room for an unexpected
message it is given up: the message is lost in the last entry of the match list, which the
process does not look at before it takes a later message of the same sender from the event queue.
-/
namespace Cplant.Mpi
open Function (update)
open List Nat Option

variable {σ : Type*}

def Move.Fits : Move σ → Prop
  | .send _ contextId srcLrank tag _ _ => FitsContext contextId ∧ FitsRank srcLrank ∧ FitsTag tag
  | .recv contextId srcLrank tag _ | .probe contextId srcLrank tag _ =>
    FitsContext contextId ∧ (srcLrank = mpiAnySource ∨ FitsRank srcLrank) ∧
      (tag = mpiAnyTag ∨ FitsTag tag)
  | .put _ | .event _ | .go _ | .checkForDrop => True

instance : DecidablePred (Move.Fits : Move σ → Prop)
  | .send .. => inferInstanceAs (Decidable (_ ∧ _))
  | .recv .. | .probe .. => inferInstanceAs (Decidable (_ ∧ _))
  | .put _ | .event _ | .go _ | .checkForDrop => inferInstanceAs (Decidable True)

/-- A short message that arrives unexpected finds a buffer, and a message that is taken from the
event queue an entry for the list. -/
def Process.Room (s : Process σ) : Move σ → Prop
  | .put i => ∀ m ∈ (s.coming i).head?,
      m.protocol = .long ∨ (s.receiver m).isSome = true ∨ 0 < s.shortMds
  | .go malloc | .probe _ _ _ malloc => malloc = true ∨ 0 < s.unexListFree
  | .send .. | .event _ | .recv .. | .checkForDrop => True

instance (s : Process σ) : DecidablePred s.Room
  | .put i => decidable_of_iff
      ((s.coming i).head?.all fun m =>
        decide (m.protocol = .long ∨ (s.receiver m).isSome = true ∨ 0 < s.shortMds))
      (by cases h : (s.coming i).head? <;> simp [Process.Room, h])
  | .go _ | .probe .. => inferInstanceAs (Decidable (_ ∨ _))
  | .send .. | .event _ | .recv .. | .checkForDrop => inferInstanceAs (Decidable True)

structure Process.MatchesInOrder (s : Process σ) (mv : Move σ) (s' : Process σ) : Prop where
  once : (s'.taken.map Prod.snd).Nodup
  inOrder : ∀ r a b, s'.taken = s.taken ++ [(r, b)] → a ∈ s.sent → a.sender = b.sender →
    a.num < b.num → r.Matches a → ∃ r', (r', a) ∈ s.taken
  earliest : ∀ r m, s'.taken = s.taken ++ [(r, m)] → ∀ p ∈ s.posted, p.active = true →
    p.recv.Matches m → r.num ≤ p.recv.num
  posted : ∀ i m rest, mv = .put i → s.coming i = m :: rest →
    (∃ p ∈ s.posted, p.active = true ∧ p.recv.Matches m) →
    ∃ p ∈ s.posted, p.active = true ∧ p.recv.Matches m ∧ s'.taken = s.taken ++ [(p.recv, m)] ∧
      ∀ q ∈ s.posted, q.active = true → q.recv.Matches m → p.recv.num ≤ q.recv.num

namespace Process
variable {σ : Type*} [DecidableEq σ] {cfg : Config} {s s' : Process σ} {mv : Move σ}
  {m : Message σ} {rest : List (Message σ)} {i : σ}

theorem Sound.step (h : s.Sound cfg) (hf : mv.Fits) (hs : s.step cfg mv = some s') :
    Outcome cfg s s' := by
  cases mv with
  | send i contextId srcLrank tag len sync =>
    cases hs
    have hm : Message.Fits cfg (⟨i, s.sent.length, cfg.protocol len sync, contextId, srcLrank,
        tag, len⟩ : Message σ) := by
      refine ⟨hf.1, hf.2.1, hf.2.2, fun hp => ?_⟩
      by_contra hlen
      exact hp (by simp [Config.protocol, hlen])
    exact h.send hm rfl
  | put i =>
    simp only [step] at hs
    split at hs
    next m rest hi =>
      cases hs
      exact h.deliver hi
    · cases hs
  | event i => exact h.postEvent hs
  | recv contextId srcLrank tag len =>
    simp only [step] at hs
    split_ifs at hs
    cases hs
    exact h.recv ⟨hf.1, hf.2.1, hf.2.2⟩ rfl
  | go malloc => exact h.go malloc hs
  | probe contextId srcLrank tag malloc =>
    simp only [step] at hs
    split_ifs at hs with hph
    cases hs
    exact h.probe hph malloc _
  | checkForDrop =>
    simp only [step] at hs
    split_ifs at hs
    cases hs
    exact h.checkForDrop

theorem lost_deliver (hi : s.coming i = m :: rest) (hm : m.Fits cfg) (hroom : s.Room (.put i)) :
    ({ s with coming := update s.coming i rest }.deliver cfg m).lost = s.lost := by
  have hroom := hroom m (by simp [hi])
  have hfind : { s with coming := update s.coming i rest }.findEntry cfg m =
      s.findEntry cfg m := rfl
  unfold deliver
  rw [hfind, findEntry_eq]
  cases hr : s.receiver m with
  | some p => rfl
  | none =>
    have hroom : m.protocol = .long ∨ 0 < s.shortMds := by simpa [hr] using hroom
    rcases unexEntry_of_room hm hroom with he | he <;> rw [he] <;> rfl

theorem Sound.lost (h : s.Sound cfg) (hroom : s.Room mv) (hs : s.step cfg mv = some s') :
    s'.lost = s.lost := by
  cases mv with
  | send i contextId srcLrank tag len sync =>
    cases hs
    rfl
  | put i =>
    simp only [Process.step] at hs
    split at hs
    next m rest hi =>
      cases hs
      exact lost_deliver hi (h.traffic.fits m (h.traffic.mem_sent hi)) hroom
    · cases hs
  | event i =>
    simp only [Process.step, Process.postEvent] at hs
    split at hs
    · split_ifs at hs
      cases hs
      rfl
    · cases hs
  | recv contextId srcLrank tag len | checkForDrop =>
    simp only [Process.step, Process.checkForDrop] at hs
    split_ifs at hs <;> cases hs <;> rfl
  | go malloc => exact lost_go hroom hs
  | probe contextId srcLrank tag malloc =>
    simp only [Process.step] at hs
    split_ifs at hs
    cases hs
    unfold Process.probe
    split_ifs
    · rfl
    · split
      · rfl
      · rfl
      next m rest heq =>
        have hget := getUnex_of_room (t := { s with unexEq := rest }) hroom m
        simp [hget]

theorem Sound.posted (h : s.Sound cfg)
    (hi : s.coming i = m :: rest) (hs : s.step cfg (.put i) = some s')
    (hex : ∃ p ∈ s.posted, p.active = true ∧ p.recv.Matches m) :
    ∃ p ∈ s.posted, p.active = true ∧ p.recv.Matches m ∧ s'.taken = s.taken ++ [(p.recv, m)] ∧
      ∀ q ∈ s.posted, q.active = true → q.recv.Matches m → p.recv.num ≤ q.recv.num := by
  have hfits := h.traffic.fits m (h.traffic.mem_sent hi)
  have hadmits {p : Posted} (hp : p ∈ s.posted) : p.recv.admits m = true ↔ p.recv.Matches m :=
    (h.listing.fits p hp).admits_iff hfits
  obtain ⟨p, hp, hact, hm⟩ := hex
  have hsome : (s.receiver m).isSome = true := by
    rw [receiver, find?_isSome]
    exact ⟨p, hp, by simp [hact, (hadmits hp).mpr hm]⟩
  obtain ⟨q, hq⟩ := isSome_iff_exists.mp hsome
  have hqmem := mem_of_find?_eq_some hq
  have hqtest := find?_some hq
  rw [Bool.and_eq_true] at hqtest
  refine ⟨q, hqmem, hqtest.1, (hadmits hqmem).mp hqtest.2, ?_, fun p hp hact hm => ?_⟩
  · simp only [Process.step, hi] at hs
    cases hs
    have hfind : { s with coming := update s.coming i rest }.findEntry cfg m =
        some (.posted q.recv) := by
      change s.findEntry cfg m = _
      rw [findEntry_eq, hq]
      rfl
    simp [Process.deliver, hfind]
  · exact h.receiver_le hq hp hact ((hadmits hp).mpr hm)

end Process

variable {σ : Type*} [DecidableEq σ] {cfg : Config} {s s' : Process σ} {mv : Move σ}

theorem sound_of_reaches
    (h : Reaches (Process.step cfg) (fun s mv => mv.Fits ∧ s.Room mv) (.init cfg) s) :
    s.Sound cfg ∧ s.lost = [] := by
  apply h.invariant (P := fun s => s.Sound cfg ∧ s.lost = [])
  · exact ⟨Process.sound_init cfg, rfl⟩
  · intro s s' mv hsound hok hs
    exact ⟨(hsound.1.step hok.1 hs).sound, (hsound.1.lost hok.2 hs).trans hsound.2⟩

/-- In a run that finds room for every unexpected message each step keeps the matching order. -/
theorem matches_in_order
    (h : Reaches (Process.step cfg) (fun s mv => mv.Fits ∧ s.Room mv) (.init cfg) s)
    (hfits : mv.Fits) (hroom : s.Room mv) (hs : s.step cfg mv = some s') :
    s.MatchesInOrder mv s' := by
  obtain ⟨hsound, hlost⟩ := sound_of_reaches h
  have hout := hsound.step hfits hs
  have htakes {r : Recv} {m : Message σ} (ht : s'.taken = s.taken ++ [(r, m)]) :
      s.Takes r m := by
    rcases hout.taken with hsame | ⟨r', m', ht', htakes⟩
    · rw [ht] at hsame
      simp at hsame
    · rw [ht] at ht'
      obtain ⟨rfl, rfl⟩ : r = r' ∧ m = m' := by simpa using ht'
      exact htakes
  refine ⟨?_, fun r a b ht ha hab hlt hr => ?_, fun r m ht p hp hact hm => ?_,
    fun i m rest hmv hi hex => ?_⟩
  · have hnodup := hout.sound.traffic.box.nodup
    simp only [Process.box, nodup_append] at hnodup
    exact hnodup.2.1.1
  · have hmem := (htakes ht).inOrder hsound ha hab hlt hr
    rw [hlost, append_nil] at hmem
    obtain ⟨⟨r', a'⟩, htaken, rfl⟩ := mem_map.mp hmem
    exact ⟨r', htaken⟩
  · exact (htakes ht).earliest hsound hp hact hm
  · subst hmv
    exact hsound.posted hi hs hex

theorem matches_in_order_second : ∃ (cfg : Config) (s s' : Process Bool) (r : Recv)
    (m : Message Bool), s.step cfg (.put true) = some s' ∧ s.taken.length = 1 ∧
      s'.taken = s.taken ++ [(r, m)] ∧ s.MatchesInOrder (.put true) s' := by
  let cfg : Config := ⟨1024, 8000, Nat.le_refl _⟩
  let r : Recv := ⟨1, 5, mpiAnySource, mpiAnyTag, 16⟩
  let m : Message Bool := ⟨true, 1, .sshort, 5, 3, 9, 8⟩
  let receive : List (Move Bool) :=
    [.recv 5 mpiAnySource mpiAnyTag 16, .go true, .go true, .go true]
  have hrun : ∃ s, Reaches (Process.step cfg) (fun s mv => mv.Fits ∧ s.Room mv) (.init cfg) s ∧
      s.Room (.put true) ∧ s.taken.length = 1 ∧
        (s.step cfg (.put true)).map Process.taken = some (s.taken ++ [(r, m)]) :=
    exists_reaches ([.send true 5 3 7 8 true, .send true 5 3 9 8 true] ++ receive ++ receive ++
      [.put true]) (by decide +kernel)
  obtain ⟨s, h, hroom, hone, hs⟩ := hrun
  obtain ⟨s', hs', ht⟩ := map_eq_some_iff.mp hs
  exact ⟨cfg, s, s', r, m, hs', hone, ht, matches_in_order h trivial hroom hs'⟩

section
open Process
variable {cfg : Config} {s : Process Unit} {m : Message Unit} {tag : Int32} {len : ℕ}
  {rest : List (Message Unit)} {r : Recv}

abbrev Fitting (_ : Process Unit) (mv : Move Unit) : Prop := mv.Fits

abbrev Attained (cfg : Config) : Process Unit → Prop :=
  Reaches (Process.step cfg) Fitting (.init cfg)

theorem update_unit (f : Unit → List (Message Unit)) (l : List (Message Unit)) :
    update f () l = fun _ => l := by
  funext x
  exact Function.update_self () l f

section
variable (h : Attained cfg s) (htag : FitsTag tag)
  (hcoming : s.coming = fun _ => [])
include h htag hcoming

theorem reaches_put (hm : m = ⟨(), s.sent.length, cfg.protocol len false, 0, 0, tag, len⟩) :
    Attained cfg ({ s with sent := s.sent ++ [m] }.deliver cfg m) := by
  have hsend : s.step cfg (.send () 0 0 tag len false) =
      some { s with sent := s.sent ++ [m], coming := fun _ => [m] } := by
    simp [step, hcoming, update_unit, hm]
  have hput : { s with sent := s.sent ++ [m], coming := fun _ => [m] }.step cfg (.put ()) =
      some ({ s with sent := s.sent ++ [m] }.deliver cfg m) := by
    simp only [step, update_unit]
    rw [← hcoming]
  have hok : (Move.send () 0 0 tag len false).Fits := ⟨by decide, by decide, htag⟩
  exact (h.step _ hok hsend).step (.put ()) trivial hput

theorem reaches_unexpected (hpending : s.pending = [])
    (hm : m = ⟨(), s.sent.length, cfg.protocol len false, 0, 0, tag, len⟩) {k : ℕ}
    (hfind : s.findEntry cfg m = some .shortUnex ∧ k = s.shortMds - 1 ∨
      s.findEntry cfg m = some .longUnex ∧ k = s.shortMds) :
    Attained cfg { s with sent := s.sent ++ [m], shortMds := k, unexEq := s.unexEq ++ [m] } := by
  have hput := reaches_put h htag hcoming hm
  have hdeliver : { s with sent := s.sent ++ [m] }.deliver cfg m =
      { s with sent := s.sent ++ [m], shortMds := k, pending := [m] } := by
    have hsame : { s with sent := s.sent ++ [m] }.findEntry cfg m = s.findEntry cfg m := rfl
    unfold deliver
    rcases hfind with ⟨hf, rfl⟩ | ⟨hf, rfl⟩ <;> rw [hsame, hf] <;> simp [hpending]
  rw [hdeliver] at hput
  refine hput.step (.event 0) trivial ?_
  simp [step, postEvent, hpending]

theorem reaches_drop (hm : m = ⟨(), s.sent.length, cfg.protocol len false, 0, 0, tag, len⟩)
    (hfind : s.findEntry cfg m = some .error) :
    Attained cfg { s with sent := s.sent ++ [m], errorEq := true, lost := s.lost ++ [m] } := by
  have hput := reaches_put h htag hcoming hm
  have hsame : { s with sent := s.sent ++ [m] }.findEntry cfg m = s.findEntry cfg m := rfl
  unfold deliver at hput
  rw [hsame, hfind] at hput
  exact hput

end

theorem eqGet_eq_ok (he : s.unexEq = m :: rest) (hlen : s.unexEq.length ≤ cfg.unexMax * 2) :
    s.eqGet cfg = .ok m rest := by
  simp only [eqGet, he]
  rw [if_neg (by rw [he] at hlen; omega)]

theorem step_take (hph : s.phase = .poll r) (he : s.unexEq = m :: rest)
    (hlen : s.unexEq.length ≤ cfg.unexMax * 2) (hm : r.admits m = true) :
    s.step cfg (.go true) = some ({ s with unexEq := rest }.processUnex r m) := by
  simp [step, go, hph, poll, eqGet_eq_ok he hlen, hm]

section
variable (h : Attained cfg s) (hph : s.phase = .poll r)
include h hph

theorem reaches_enlist (he : s.unexEq = m :: rest) (hlen : s.unexEq.length ≤ cfg.unexMax * 2)
    (hm : r.admits m = false) : Attained cfg { s with
        unexEq := rest, unexList := s.unexList ++ [m], unexListFree := s.unexListFree - 1 } := by
  refine h.step (.go true) trivial ?_
  simp [step, go, hph, poll, eqGet_eq_ok he hlen, hm, getUnex]

theorem reaches_drain {l : List (Message Unit)} (he : s.unexEq = l ++ rest)
    (hlen : s.unexEq.length ≤ cfg.unexMax * 2) (hl : ∀ m ∈ l, r.admits m = false) :
    ∃ free, Attained cfg
      { s with unexEq := rest, unexList := s.unexList ++ l, unexListFree := free } := by
  induction l generalizing s with
  | nil =>
    refine ⟨s.unexListFree, ?_⟩
    rw [append_nil, ← nil_append rest, ← he]
    exact h
  | cons m l ih =>
    have hnext := reaches_enlist h hph he hlen (hl m mem_cons_self)
    have hlen' : (l ++ rest).length ≤ cfg.unexMax * 2 := by
      rw [he] at hlen
      simp only [cons_append, length_cons] at hlen
      omega
    obtain ⟨free, hfree⟩ := ih hnext hph rfl hlen' fun x hx => hl x (mem_cons_of_mem m hx)
    refine ⟨free, ?_⟩
    simpa using hfree

end

def filler (n : ℕ) : Message Unit := ⟨(), n, .short, 0, 0, 1, 0⟩

def fillers (n : ℕ) : List (Message Unit) := (List.range n).map filler

theorem length_fillers (n : ℕ) : (fillers n).length = n := by simp [fillers]

theorem fillers_succ (n : ℕ) : fillers (n + 1) = fillers n ++ [filler n] := by
  simp [fillers, range_succ]

theorem filler_fits (hcfg : 0 < cfg.shortSize) (n : ℕ) : (filler n).Fits cfg where
  context := (by decide : FitsContext 0)
  rank := (by decide : FitsRank 0)
  tag := (by decide : FitsTag 1)
  len _ := hcfg

def filled (cfg : Config) (n : ℕ) : Process Unit :=
  { Process.init cfg with
    shortMds := cfg.unexMax - n
    unexEq := fillers n
    sent := fillers n }

theorem reaches_filled (hcfg : 0 < cfg.shortSize) :
    ∀ n ≤ cfg.unexMax, Attained cfg (filled cfg n) := by
  intro n
  induction n with
  | zero => exact fun _ => Reaches.init
  | succ n ih =>
    intro hn
    have hm : filler n = ⟨(), (filled cfg n).sent.length, cfg.protocol 0 false, 0, 0, 1, 0⟩ := by
      simp [filler, filled, length_fillers, Config.protocol, hcfg]
    have hfind : (filled cfg n).findEntry cfg (filler n) = some .shortUnex := by
      apply unexEntry_eq_short
      apply shortUnexEntry_accepts (filler_fits hcfg n) Protocol.noConfusion
      exact Nat.sub_pos_of_lt hn
    have hnext := reaches_unexpected (ih (le_of_succ_le hn)) (by decide) rfl rfl hm
      (.inl ⟨hfind, rfl⟩)
    simpa [filled, fillers_succ, Nat.sub_sub] using hnext

theorem shortUnexEntry_zero (cfg : Config) (m : Message Unit) :
    (shortUnexEntry cfg 0).accepts m = false := by
  simp [shortUnexEntry, MatchEntry.accepts, MatchMd.accepts]

def early (cfg : Config) : Message Unit := ⟨(), cfg.unexMax, .short, 0, 0, 2, 0⟩
def late (cfg : Config) : Message Unit := ⟨(), cfg.unexMax + 1, .long, 0, 0, 2, cfg.shortSize⟩

theorem late_fits (cfg : Config) : (late cfg).Fits cfg where
  context := (by decide : FitsContext 0)
  rank := (by decide : FitsRank 0)
  tag := (by decide : FitsTag 2)
  len h := absurd rfl h

def waiter : Recv := ⟨0, 0, 0, 2, 0⟩

def polling (cfg : Config) : Process Unit :=
  { filled cfg cfg.unexMax with phase := .poll waiter, calls := 1 }

theorem reaches_polling (hcfg : 0 < cfg.shortSize) : Attained cfg (polling cfg) := by
  have hok : (Move.recv 0 0 2 0 : Move Unit).Fits := ⟨by decide, by decide, by decide⟩
  have hfilled := reaches_filled hcfg cfg.unexMax (Nat.le_refl _)
  exact (hfilled.step _ hok rfl).step (.go true) trivial rfl

theorem shortMds_polling (cfg : Config) : (polling cfg).shortMds = 0 := Nat.sub_self _

theorem reaches_lost (hcfg : 0 < cfg.shortSize) : Attained cfg { polling cfg with
        errorEq := true
        lost := [early cfg]
        sent := fillers cfg.unexMax ++ [early cfg] ++ [late cfg]
        unexEq := fillers cfg.unexMax ++ [late cfg] } := by
  have hearly : early cfg =
      ⟨(), (polling cfg).sent.length, cfg.protocol 0 false, 0, 0, 2, 0⟩ := by
    simp [early, polling, filled, length_fillers, Config.protocol, hcfg]
  have hlong : longUnexEntry.accepts (early cfg) = false :=
    (by decide : (p30SetLongUnexBits.admits (p30SetShortSendBits 0 0 2) &&
      longUnexEntry.mds.any fun md => md.accepts 0) = false)
  have herror : errorEntry.accepts (early cfg) = true :=
    (by decide : (errorEntry.criteria.admits (p30SetShortSendBits 0 0 2) &&
      errorEntry.mds.any fun md => md.accepts 0) = true)
  have hfind : (polling cfg).findEntry cfg (early cfg) = some .error := by
    rw [findEntry_eq]
    simp only [unexEntry, find?_cons, noMatchEntry_accepts, shortMds_polling,
      shortUnexEntry_zero, hlong, herror, map_some]
    rfl
  have hdrop := reaches_drop (reaches_polling hcfg) (by decide) rfl hearly hfind
  have hlate : late cfg = ⟨(), (fillers cfg.unexMax ++ [early cfg]).length,
      cfg.protocol cfg.shortSize false, 0, 0, 2, cfg.shortSize⟩ := by
    simp [late, length_fillers, Config.protocol]
  refine reaches_unexpected hdrop (by decide) rfl rfl hlate (.inr ⟨?_, rfl⟩)
  apply unexEntry_eq_long (late_fits cfg) rfl
  simp [shortMds_polling, shortUnexEntry_zero]

theorem long_overtakes_short : ∃ (cfg : Config) (s s' : Process Unit) (mv : Move Unit) (r : Recv)
    (a b : Message Unit), Reaches (Process.step cfg) (fun _ mv => mv.Fits) (.init cfg) s ∧
      mv.Fits ∧ s.step cfg mv = some s' ∧ s'.taken = s.taken ++ [(r, b)] ∧ a ∈ s.sent ∧
      a.sender = b.sender ∧ a.num < b.num ∧ r.Matches a ∧ r.Matches b ∧
      ¬∃ r', (r', a) ∈ s'.taken := by
  let cfg : Config := ⟨1024, 8000, Nat.le_refl _⟩
  have hadmits : ∀ m ∈ fillers cfg.unexMax, waiter.admits m = false := by
    intro m hm
    obtain ⟨n, -, rfl⟩ := List.mem_map.mp hm
    exact (by decide : waiter.criteria.admits (p30SetShortSendBits 0 0 1) = false)
  have hlen : (fillers cfg.unexMax ++ [late cfg]).length ≤ cfg.unexMax * 2 := by
    rw [length_append, length_fillers, length_singleton]
    decide
  obtain ⟨free, h⟩ := reaches_drain (reaches_lost (by decide)) rfl rfl hlen hadmits
  have hlate : waiter.admits (late cfg) = true := by decide
  have hone : [late cfg].length ≤ cfg.unexMax * 2 := by decide
  refine ⟨cfg, _, _, .go true, waiter, early cfg, late cfg, h, trivial,
    step_take rfl rfl hone hlate, rfl, by simp, rfl, by decide, by decide, by decide, ?_⟩
  rintro ⟨r', hr'⟩
  obtain ⟨-, hsame⟩ : r' = waiter ∧ early cfg = late cfg := by
    simpa [processUnex, polling, filled, init] using hr'
  cases congrArg Message.num hsame

end
end Cplant.Mpi
