import Cplant.Comm.ServerBarrier

/-!
# The saved events of the barrier portal

`eventListSize` is the emptiness test of the list and the number of events `searchEventList`
looks at, and `addEventList` returns before it counts an event that it puts behind another one.
The barrier's own model (`Saved`) keeps only the senders of these events.
-/
namespace Cplant.Comm
open List
variable {Event : Type*} {initiator : Event → Peer}

structure EventList (Event : Type*) where
  events : List Event
  eventListSize : ℕ

namespace EventList

def freeEventList (_ : EventList Event) : EventList Event := ⟨[], 0⟩

def addEventList (l : EventList Event) (malloc : Bool) (ev : Event) : EventList Event :=
  let events := if l.eventListSize = 0 then [] else l.events
  if ¬ malloc then ⟨events, l.eventListSize⟩
  else if events.isEmpty then ⟨[ev], l.eventListSize + 1⟩
  else ⟨events ++ [ev], l.eventListSize⟩

def searchEventList (initiator : Event → Peer) (l : EventList Event) (q : Peer) :
    Option Event × EventList Event :=
  if l.eventListSize = 0 then (none, l)
  else match (l.events.take l.eventListSize).find? fun ev => initiator ev == q with
    | some ev => (some ev, ⟨l.events.eraseP fun ev => initiator ev == q, l.eventListSize - 1⟩)
    | none => (none, l)

theorem searchEventList_counted (events : List Event) (q : Peer) :
    searchEventList initiator ⟨events, events.length⟩ q = (events.find? fun ev => initiator ev == q,
        ⟨events.eraseP fun ev => initiator ev == q,
          (events.eraseP fun ev => initiator ev == q).length⟩) := by
  cases events with
  | nil => rfl
  | cons e events =>
    rw [searchEventList, if_neg (by simp), take_length]
    cases hfind : (e :: events).find? fun ev => initiator ev == q with
    | none => simp only [eraseP_of_forall_not (find?_eq_none.mp hfind)]
    | some ev =>
      have hmem := mem_of_find?_eq_some hfind
      rw [length_eraseP_of_mem hmem (find?_some hfind)]

inductive ListCall (Event : Type*)
  | addEventList (malloc : Bool) (ev : Event)
  | searchEventList (q : Peer)
  | freeEventList

def ListCall.step (initiator : Event → Peer) (s : EventList Event × List Event) :
    ListCall Event → Option (EventList Event × List Event)
  | .addEventList malloc ev =>
    some (s.1.addEventList malloc ev, if malloc then s.2 ++ [ev] else s.2)
  | .searchEventList q =>
    let found := s.1.searchEventList initiator q
    some (found.2, if found.1.isSome then s.2.eraseP fun ev => initiator ev == q else s.2)
  | .freeEventList => some (s.1.freeEventList, [])

def AddsFirst (s : EventList Event × List Event) : ListCall Event → Prop
  | .addEventList true _ => s.2 = []
  | _ => True

theorem AddsFirst.step {s s' : EventList Event × List Event} {c : ListCall Event}
    (hinv : s.1 = ⟨s.2, s.2.length⟩) (hok : AddsFirst s c)
    (hs : c.step initiator s = some s') : s'.1 = ⟨s'.2, s'.2.length⟩ := by
  obtain ⟨l, waiting⟩ := s
  obtain rfl : l = ⟨waiting, waiting.length⟩ := hinv
  cases c with
  | addEventList malloc ev =>
    cases hs
    cases malloc <;> cases waiting <;> simp_all [AddsFirst, addEventList]
  | searchEventList q =>
    cases hs
    simp only [searchEventList_counted]
    split_ifs with hsome
    · rfl
    · rw [eraseP_of_forall_not (find?_eq_none.mp (Option.not_isSome_iff_eq_none.mp hsome))]
  | freeEventList =>
    cases hs
    rfl

/-- If an event is added only when none is saved, a search returns the oldest event of its sender
that was not returned yet, and the events are counted. -/
theorem searchEventList_exact {s : EventList Event × List Event}
    (h : Reaches (fun s (c : ListCall Event) => c.step initiator s) AddsFirst (⟨[], 0⟩, []) s) :
    (∀ q, (s.1.searchEventList initiator q).1 = s.2.find? fun ev => initiator ev == q) ∧
      s.1.eventListSize = s.2.length := by
  have hinv : s.1 = ⟨s.2, s.2.length⟩ :=
    h.invariant (P := fun s => s.1 = ⟨s.2, s.2.length⟩) rfl AddsFirst.step
  rw [hinv]
  exact ⟨fun q => by rw [searchEventList_counted], rfl⟩

theorem searchEventList_exact_one :
    (searchEventList Prod.fst ⟨[((⟨1, 0⟩ : Peer), 7)], 1⟩ ⟨1, 0⟩).1 = some (⟨1, 0⟩, 7) :=
  (@searchEventList_exact (Peer × ℕ) Prod.fst _
    (Reaches.init.step (.addEventList true (⟨1, 0⟩, 7)) rfl rfl)).1 ⟨1, 0⟩

theorem searchEventList_loses : ∃ s, Reaches
      (fun s (c : ListCall (Peer × ℕ)) => c.step Prod.fst s) (fun _ _ => True) (⟨[], 0⟩, []) s ∧
    s.2 = [(⟨1, 0⟩, 7), (⟨2, 0⟩, 8)] ∧ (s.1.searchEventList Prod.fst ⟨2, 0⟩).1 = none ∧
      s.1.eventListSize = 1 :=
  ⟨_, (Reaches.init.step (.addEventList true (⟨1, 0⟩, 7)) trivial rfl).step
    (.addEventList true (⟨2, 0⟩, 8)) trivial rfl, rfl, rfl, rfl⟩

end EventList
end Cplant.Comm
