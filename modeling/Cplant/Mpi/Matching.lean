import Cplant.Foundations.Mailbox
import Cplant.Mpi.Device

/-!
# Where the messages to a process are

An unexpected message waits from the time at which it is matched until a receive takes it. It is
first on its way to the event queue, then in the queue and then in the list of the process. No
active entry of the match list admits a message that waits, and the receive that is under way
admits none of those that it has seen.
-/
namespace Cplant.Mpi
open List MatchEntry Process Function Option Prod
variable {σ : Type*} {cfg : Config} {m : Message σ} {r : Recv}

def Recv.Matches (r : Recv) (m : Message σ) : Prop :=
  m.contextId = r.contextId ∧ (r.srcLrank = mpiAnySource ∨ m.srcLrank = r.srcLrank) ∧
    (r.tag = mpiAnyTag ∨ m.tag = r.tag)

instance (r : Recv) (m : Message σ) : Decidable (r.Matches m) :=
  inferInstanceAs (Decidable (_ ∧ _))

structure Message.Fits (cfg : Config) (m : Message σ) : Prop where
  context : FitsContext m.contextId
  rank : FitsRank m.srcLrank
  tag : FitsTag m.tag
  len : m.protocol ≠ .long → m.len < cfg.shortSize

structure Recv.Fits (r : Recv) : Prop where
  context : FitsContext r.contextId
  source : r.srcLrank = mpiAnySource ∨ FitsRank r.srcLrank
  tag : r.tag = mpiAnyTag ∨ FitsTag r.tag

theorem Recv.Fits.admits_iff (hr : r.Fits) (hm : m.Fits cfg) : r.admits m = true ↔ r.Matches m := by
  have hbits : ∃ p, IsProtocol p ∧ m.matchBits = setSendBits p m.contextId m.srcLrank m.tag := by
    unfold Message.matchBits
    cases m.protocol with
    | short | sshort => exact ⟨_, isProtocol_short, rfl⟩
    | long => exact ⟨_, isProtocol_long, rfl⟩
  obtain ⟨p, hp, hm'⟩ := hbits
  rw [Recv.admits, hm']
  exact admits_setSendBits hp hr.context hm.context hr.source hm.rank hr.tag hm.tag

namespace Process

def receiver (s : Process σ) (m : Message σ) : Option Posted :=
  s.posted.find? fun p => p.active && p.recv.admits m

def unexEntry (cfg : Config) (s : Process σ) (m : Message σ) : Option Entry :=
  ([noMatchEntry, shortUnexEntry cfg s.shortMds, longUnexEntry, errorEntry].find?
    fun e => e.accepts m).map MatchEntry.entry

variable {s s' : Process σ}

theorem accepts_entry (p : Posted) (m : Message σ) :
    p.entry.accepts m = (p.active && p.recv.admits m) := by
  cases p with
  | mk r active =>
    cases active <;> simp [Posted.entry, accepts, MatchMd.accepts, Recv.admits]

theorem findEntry_eq (s : Process σ) (m : Message σ) : s.findEntry cfg m =
      ((s.receiver m).map fun p => Entry.posted p.recv).or (s.unexEntry cfg m) := by
  have hposted : (s.posted.map Posted.entry).find? (fun e => e.accepts m) =
      (s.receiver m).map Posted.entry := by
    rw [find?_map, receiver]
    congr 2
    funext p
    exact accepts_entry p m
  rw [findEntry, matchList, find?_append, hposted, unexEntry]
  cases s.receiver m <;> rfl

theorem unexEntry_ne_posted (s : Process σ) (m : Message σ) (r : Recv) :
    s.unexEntry cfg m ≠ some (.posted r) := by
  intro h
  obtain ⟨e, he, hr⟩ := map_eq_some_iff.mp h
  have hmem := mem_of_find?_eq_some he
  simp only [mem_cons, not_mem_nil, or_false] at hmem
  rcases hmem with rfl | rfl | rfl | rfl <;> cases hr

theorem noMatchEntry_accepts (m : Message σ) : noMatchEntry.accepts m = false := by
  simp [noMatchEntry, accepts]

theorem shortUnexEntry_accepts (hm : m.Fits cfg) (hp : m.protocol ≠ .long) {free : ℕ}
    (hfree : 0 < free) : (shortUnexEntry cfg free).accepts m = true := by
  have hbits : m.matchBits = setSendBits p30ShortMsg m.contextId m.srcLrank m.tag := by
    unfold Message.matchBits
    cases hm' : m.protocol with
    | long => exact absurd hm' hp
    | _ => rfl
  obtain ⟨n, rfl⟩ := Nat.exists_eq_succ_of_ne_zero (Nat.pos_iff_ne_zero.mp hfree)
  have hlen := Nat.le_of_lt (hm.len hp)
  have hadmits : p30SetShortUnexBits.admits m.matchBits = true := by
    rw [hbits]
    exact admits_of_protocol hm.context hm.rank hm.tag
  simp [shortUnexEntry, accepts, MatchMd.accepts, replicate_succ, hadmits, hlen]

theorem longUnexEntry_accepts (hm : m.Fits cfg) (hp : m.protocol = .long) :
    longUnexEntry.accepts m = true := by
  have hbits : m.matchBits = setSendBits p30LongMsg m.contextId m.srcLrank m.tag := by
    rw [Message.matchBits, hp]
    rfl
  have hadmits : p30SetLongUnexBits.admits m.matchBits = true := by
    rw [hbits]
    exact admits_of_protocol hm.context hm.rank hm.tag
  simp [longUnexEntry, accepts, MatchMd.accepts, hadmits]

theorem unexEntry_eq_short (h : (shortUnexEntry cfg s.shortMds).accepts m = true) :
    s.unexEntry cfg m = some .shortUnex := by
  simp only [unexEntry, find?_cons, noMatchEntry_accepts, h, map_some]
  rfl

theorem unexEntry_eq_long (hm : m.Fits cfg) (hp : m.protocol = .long)
    (h : (shortUnexEntry cfg s.shortMds).accepts m = false) :
    s.unexEntry cfg m = some .longUnex := by
  simp only [unexEntry, find?_cons, noMatchEntry_accepts, h, longUnexEntry_accepts hm hp,
    map_some]
  rfl

theorem unexEntry_of_room (hm : m.Fits cfg) (hroom : m.protocol = .long ∨ 0 < s.shortMds) :
    s.unexEntry cfg m = some .shortUnex ∨ s.unexEntry cfg m = some .longUnex := by
  cases hshort : (shortUnexEntry cfg s.shortMds).accepts m with
  | true => exact .inl (unexEntry_eq_short hshort)
  | false =>
    have hlong : m.protocol = .long := by
      by_contra hp
      rw [shortUnexEntry_accepts hm hp (hroom.resolve_left hp)] at hshort
      cases hshort
    exact .inr (unexEntry_eq_long hm hlong hshort)

def waiting (s : Process σ) : List (Message σ) := s.unexList ++ (s.unexEq ++ s.pending)

def box (s : Process σ) : Mailbox (Message σ) σ where
  coming := s.coming
  waiting := s.waiting
  gone := s.taken.map snd ++ s.lost

structure Traffic (cfg : Config) (s : Process σ) : Prop where
  box : s.box.Ordered Message.sender Message.num
  present : ∀ m, m ∈ s.sent ↔ s.box.Present Message.sender m
  numbered : ∀ m ∈ s.sent, m.num < s.sent.length
  fits : ∀ m ∈ s.sent, m.Fits cfg

structure Listing (s : Process σ) : Prop where
  fits : ∀ p ∈ s.posted, p.recv.Fits
  called : ∀ p ∈ s.posted, p.recv.num < s.calls
  ordered : s.posted.Pairwise fun p q => p.recv.num < q.recv.num
  refused : ∀ p ∈ s.posted, p.active = true → ∀ m ∈ s.waiting, p.recv.admits m = false

def Underway (s : Process σ) : Phase → Prop
  | .idle | .aborted => True
  | .search r => r.Fits ∧ r.num < s.calls ∧ ∀ p ∈ s.posted, p.recv.num < r.num
  | .poll r => (r.Fits ∧ r.num < s.calls ∧ ∀ p ∈ s.posted, p.recv.num < r.num) ∧
      ∀ m ∈ s.unexList, r.admits m = false
  | .post r | .wait r => r.Fits ∧ ∀ m ∈ s.unexList, r.admits m = false

structure Sound (cfg : Config) (s : Process σ) : Prop where
  traffic : s.Traffic cfg
  listing : s.Listing
  underway : s.Underway s.phase

theorem sound_init (cfg : Config) : Sound cfg (init cfg : Process σ) where
  traffic := by
    refine ⟨⟨?_, ?_, ?_, ?_, ?_⟩, ?_, ?_, ?_⟩ <;> simp [init, box, waiting, Mailbox.Present]
  listing := by
    refine ⟨?_, ?_, ?_, ?_⟩ <;> simp [init]
  underway := trivial

theorem Traffic.congr (h : s.Traffic cfg) (hbox : s'.box = s.box) (hsent : s'.sent = s.sent) :
    s'.Traffic cfg where
  box := hbox ▸ h.box
  present := by
    rw [hbox, hsent]
    exact h.present
  numbered := by
    rw [hsent]
    exact h.numbered
  fits := by
    rw [hsent]
    exact h.fits

theorem Traffic.mem_sent (h : s.Traffic cfg) {i : σ} {rest : List (Message σ)}
    (hi : s.coming i = m :: rest) : m ∈ s.sent := by
  have hm : m.sender = i := h.box.own i m (by simp [Process.box, hi])
  rw [h.present]
  exact .inl (by simp [Process.box, hm, hi])

theorem Traffic.leave (h : s.Traffic cfg) {pre post : List (Message σ)}
    (hw : s.waiting = pre ++ m :: post) (hsent : s'.sent = s.sent) (hc : s'.coming = s.coming)
    (hw' : s'.waiting = pre ++ post)
    (hg : (s'.taken.map snd ++ s'.lost).Perm (m :: (s.taken.map snd ++ s.lost))) :
    s'.Traffic cfg := by
  have hbox : s'.box = ⟨s.box.coming, pre ++ post, s'.box.gone⟩ := by simp [Process.box, hc, hw']
  refine ⟨?_, fun x => ?_, ?_, ?_⟩
  · rw [hbox]
    exact h.box.take hw hg
  · rw [hbox, hsent, h.present x]
    exact (Mailbox.present_take hw hg).symm
  · rw [hsent]
    exact h.numbered
  · rw [hsent]
    exact h.fits

theorem Traffic.pass (h : s.Traffic cfg) {front pre post : List (Message σ)}
    (hw : s.waiting = front ++ (pre ++ m :: post)) (hw' : s'.waiting = front ++ m :: (pre ++ post))
    (hsent : s'.sent = s.sent) (hc : s'.coming = s.coming) (hg : s'.box.gone = s.box.gone)
    (hpre : ∀ x ∈ pre, x.sender ≠ m.sender) : s'.Traffic cfg := by
  have hbox : s'.box = ⟨s.box.coming, front ++ m :: (pre ++ post), s.box.gone⟩ := by
    rw [← hg]
    simp [Process.box, hc, hw']
  refine ⟨?_, fun x => ?_, ?_, ?_⟩
  · rw [hbox]
    exact h.box.pass hw hpre
  · rw [hbox, hsent, h.present x]
    exact (Mailbox.present_pass hw).symm
  · rw [hsent]
    exact h.numbered
  · rw [hsent]
    exact h.fits

section
variable [DecidableEq σ] {i : σ} {rest : List (Message σ)}

section
variable (h : s.Traffic cfg) (hi : s.coming i = m :: rest) (hsent : s'.sent = s.sent)
  (hc : s'.coming = update s.coming i rest)
include h hi hsent hc

theorem Traffic.arrive (hw : s'.waiting = s.waiting)
    (hg : (s'.taken.map snd ++ s'.lost).Perm (m :: (s.taken.map snd ++ s.lost))) :
    s'.Traffic cfg := by
  have hbox : s'.box = ⟨update s.box.coming i rest, s.box.waiting, s'.box.gone⟩ := by
    simp [Process.box, hc, hw]
  refine ⟨?_, fun x => ?_, ?_, ?_⟩
  · rw [hbox]
    exact h.box.arrive hi hg
  · rw [hbox, hsent, h.present x]
    have hm : m.sender = i := h.box.own i m (by simp [Process.box, hi])
    refine (Mailbox.present_arrive hi hm ?_).symm
    have hmem : x ∈ s'.box.gone ↔ x = m ∨ x ∈ s.box.gone := hg.mem_iff.trans mem_cons
    tauto
  · rw [hsent]
    exact h.numbered
  · rw [hsent]
    exact h.fits

theorem Traffic.enter (hw : s'.waiting = s.waiting ++ [m]) (hg : s'.box.gone = s.box.gone) :
    s'.Traffic cfg := by
  have hbox : s'.box =
      ⟨update s.box.coming i rest, s.box.waiting ++ [m], s.box.gone⟩ := by
    rw [← hg]
    simp [Process.box, hc, hw]
  refine ⟨?_, fun x => ?_, ?_, ?_⟩
  · rw [hbox]
    exact h.box.enter hi
  · rw [hbox, hsent, h.present x]
    have hm : m.sender = i := h.box.own i m (by simp [Process.box, hi])
    refine (Mailbox.present_arrive hi hm ?_).symm
    simp only [mem_append, mem_singleton]
    tauto
  · rw [hsent]
    exact h.numbered
  · rw [hsent]
    exact h.fits

end
end

theorem Listing.mono (h : s.Listing) (hp : s'.posted.Sublist s.posted) (hc : s.calls ≤ s'.calls)
    (hw : s'.waiting ⊆ s.waiting) : s'.Listing where
  fits p hmem := h.fits p (hp.subset hmem)
  called p hmem := Nat.lt_of_lt_of_le (h.called p (hp.subset hmem)) hc
  ordered := h.ordered.sublist hp
  refused p hmem ha m hm := h.refused p (hp.subset hmem) ha m (hw hm)

theorem Underway.mono {ph : Phase} (h : s.Underway ph) (hp : s'.posted ⊆ s.posted)
    (hc : s.calls ≤ s'.calls) (hl : s'.unexList ⊆ s.unexList) : s'.Underway ph := by
  cases ph with
  | idle => trivial
  | aborted => trivial
  | search r => exact ⟨h.1, Nat.lt_of_lt_of_le h.2.1 hc, fun p hmem => h.2.2 p (hp hmem)⟩
  | poll r =>
    exact ⟨⟨h.1.1, Nat.lt_of_lt_of_le h.1.2.1 hc, fun p hmem => h.1.2.2 p (hp hmem)⟩,
      fun m hm => h.2 m (hl hm)⟩
  | post r | wait r => exact ⟨h.1, fun m hm => h.2 m (hl hm)⟩

end Process
end Cplant.Mpi
