import Cplant.Foundations.Runs

/-!
# Cached NFS attributes

An NFS inode keeps the attributes that a reply of the server told until its stamp is taken away.
Of cached attributes it is known whether they can be relied on: they come from a reply with status
`NFS_OK`, and no entry of the directory was changed since.
-/
namespace Cplant.Nexus.NfsAttrs
variable {V : Type*} [DecidableEq V]

/-- `err` is an error of `nfs_call`, and `stamped` says that `time` gives a stamp. -/
structure Reply where
  err : Bool
  ok : Bool
  stamped : Bool

def Reply.good (r : Reply) : Bool := !r.err && r.ok

abbrev Cache (V : Type*) := V → Option Bool

section Model
variable (s : Cache V) (r : Reply) (v : V)

def nfsCacheattrs : Cache V
  | w => if w = v then if r.stamped then some r.ok else none else s w

def invalidate : Cache V
  | w => if w = v then none else s w

def changed : Cache V
  | w => if w = v ∧ r.good then (s w).map fun _ => false else s w

def nfsFindi (found : Bool) : Cache V := if found then nfsCacheattrs s r v else s

def transfer : Cache V → List Reply → Cache V
  | s, [] => s
  | s, r :: more => if r.good then transfer (nfsCacheattrs s r v) more else invalidate s v

/-- `fresh` says that the stamp is young enough, `found` that `nfs_findi` has an inode and `fits`
that the link fits the buffer. `beyond` is a transfer behind the offsets of NFS version 2. -/
inductive Op (V : Type*)
  | getattr (v : V) (fresh : Bool)
  | setattr (v : V)
  | lookup (d v : V) (found : Bool)
  | readlink (v : V) (fits : Bool)
  | transfer (v : V) (more : List Reply)
  | beyond (v : V)
  | create (d v : V) (found : Bool)
  | remove (d v : V)
  | rename (fd td : V)
  | link (v d : V)
  | symlink (d : V)
  | readdir (d : V)

/-- `create` is also `mkdir`, and `remove` is also `rmdir`. -/
def step (ino : V → ℕ) : Op V → Cache V
  | .getattr v fresh => if fresh && (s v).isSome || r.err then s else nfsCacheattrs s r v
  | .setattr v => if r.good then nfsCacheattrs s r v else invalidate s v
  | .lookup d v found => if r.good then nfsFindi s r v found else invalidate s d
  | .readlink v fits => if r.good && fits then s else invalidate s v
  | .transfer v more => transfer v s (r :: more)
  | .beyond v => invalidate s v
  | .create d v found =>
    let s := invalidate (changed s r d) d
    if r.good then nfsFindi s r v found else s
  | .remove d v => invalidate (invalidate (changed s r d) d) v
  | .rename fd td =>
    let s := changed (changed s r fd) r td
    if !r.good || ino fd = ino td then invalidate (invalidate s fd) td else s
  | .link v d => invalidate (invalidate (changed s r d) v) d
  | .symlink d => invalidate (changed s r d) d
  | .readdir d => if r.good then s else invalidate s d

def Honest : Prop := ∀ v, s v ≠ some false

/-- Attributes are asked for without an error status, and a file goes to another directory only
while the attributes of neither are cached. -/
def Fine (ino : V → ℕ) : Op V → Prop
  | .getattr v fresh => fresh && (s v).isSome || r.err || r.ok || !r.stamped
  | .rename fd td => r.good = true → ino fd = ino td ∨ s fd = none ∧ s td = none
  | _ => True

end Model

abbrev Reached (ino : V → ℕ) : Cache V → Prop :=
  Reaches (fun s (r, op) => some (step s r ino op)) (fun s (r, op) => Fine s r ino op) fun _ => none

variable {s : Cache V} {r : Reply} {v : V}

theorem Honest.cached_iff (h : Honest s) :
    Honest (nfsCacheattrs s r v) ↔ (r.stamped = true → r.ok = true) := by
  constructor
  · intro hc
    have := hc v
    grind [nfsCacheattrs]
  · intro hr w
    have := h w
    grind [nfsCacheattrs]

theorem Honest.transfer (h : Honest s) (rs : List Reply) : Honest (transfer v s rs) := by
  induction rs generalizing s with
  | nil => exact h
  | cons r rs ih =>
    unfold NfsAttrs.transfer
    split_ifs with hr
    · exact ih (h.cached_iff.mpr fun _ => by grind [Reply.good])
    · grind [Honest, invalidate]

theorem Honest.step_iff (h : Honest s) (ino : V → ℕ) (op : Op V) :
    Honest (step s r ino op) ↔ Fine s r ino op := by
  cases op with
  | transfer v more => exact iff_of_true (h.transfer _) trivial
  | getattr v fresh =>
    simp only [step, Fine]
    split_ifs
    · exact iff_of_true h (by grind)
    · rw [h.cached_iff]
      grind
  | rename fd td =>
    simp only [step, Fine]
    split_ifs
    · refine iff_of_true (fun w => ?_) (by grind)
      have := h w
      grind [changed, invalidate]
    · refine ⟨fun hc _ => ?_, fun hfine w => ?_⟩
      · have hf := hc fd
        have ht := hc td
        cases hfd : s fd <;> cases htd : s td <;> simp_all [changed]
      · have := h w
        grind [changed]
  | _ =>
    refine iff_of_true ?_ trivial
    simp only [step, nfsFindi]
    repeat' split
    all_goals grind [Honest, changed, nfsCacheattrs, invalidate, Reply.good]

/-- As long as every step is fine the cached attributes can be relied on, and no longer. -/
theorem attrs_honest_iff (ino : V → ℕ) (hs : Reached ino s) (r : Reply) (op : Op V) :
    Honest s ∧ (Honest (step s r ino op) ↔ Fine s r ino op) := by
  have h : Honest s := hs.invariant nofun fun h hfine hs => by
    cases hs
    exact (h.step_iff ino _).mpr hfine
  exact ⟨h, h.step_iff ino op⟩

theorem attrs_honest_rename : let r : Reply := ⟨false, true, true⟩
    ∃ s : Cache ℕ, Reached id s ∧ s 0 = some true ∧ step s r id (.rename 0 0) 0 = none ∧
      Honest (step s r id (.rename 0 0)) := by
  intro r
  have hs : Reached id (step (fun _ => none) r id (.getattr 0 false)) :=
    .step (r, .getattr 0 false) .init rfl rfl
  exact ⟨_, hs, rfl, rfl, (attrs_honest_iff id hs r _).2.mpr fun _ => .inl rfl⟩

theorem attrs_not_honest :
    ¬ Honest (step (fun _ => none) ⟨false, false, true⟩ id (.getattr 0 false)) ∧
      ¬ Honest (step (fun _ => some true) ⟨false, true, true⟩ id (.rename 0 1)) :=
  ⟨fun h => h 0 rfl, fun h => h 0 rfl⟩

end Cplant.Nexus.NfsAttrs
