import Cplant.Foundations.Runs
import Mathlib.Data.List.Basic
import Mathlib.Data.List.TakeWhile
import Mathlib.Tactic.Ring

/-!
# Directory trees

What the skeletal file system of the nexus server keeps of a file: its attributes, who may do
what with it, and the order in which a directory lists its inodes.
-/
namespace Cplant.Nexus
open List

abbrev Name := List Char

def dot : Name := ['.']
def dotdot : Name := ['.', '.']

inductive Errno
  | eperm | enoent | eacces | eexist | exdev | enotdir | eisdir | einval | enospc | ebusy
  | enametoolong | enotempty | estale | enosys | eloop
  deriving DecidableEq, Repr

structure Creds where
  uid : ℕ
  groups : List ℕ
  deriving DecidableEq

def Creds.isSuser (cr : Creds) : Bool := cr.uid == 0

structure Attr where
  mode : ℕ
  uid : ℕ
  gid : ℕ
  deriving DecidableEq

/-- The permission bits of others, of which `<<< 3` and `<<< 6` are those of group and owner. -/
inductive Access
  | read | write | exec
  deriving DecidableEq

def Access.bit : Access → ℕ
  | .read => 4
  | .write => 2
  | .exec => 1

def Attr.allows (a : Attr) (cr : Creds) (acc : Access) : Bool :=
  (a.uid == cr.uid && a.mode &&& (acc.bit <<< 6) != 0) || a.mode &&& acc.bit != 0 ||
    (a.mode &&& (acc.bit <<< 3) != 0 && cr.groups.contains a.gid)

section Order
variable {α : Type*} (inum : α → ℕ)

def Ascending (l : List α) : Prop := l.Pairwise (fun a b => inum a < inum b)

def insertFromTail (l : List α) (i : α) : List α :=
  (l.reverse.dropWhile (fun a => !decide (inum a < inum i))).reverse ++
    i :: (l.reverse.takeWhile (fun a => !decide (inum a < inum i))).reverse

def insertFromHead (l : List α) (i : α) : List α :=
  l.takeWhile (fun a => !decide (inum i < inum a)) ++
    i :: l.dropWhile (fun a => !decide (inum i < inum a))

def dtreeInsertInode (dhead child : α) (l : List α) (i : α) : List α :=
  if inum i < inum dhead then i :: l
  else if inum child - inum i < inum i - inum dhead then insertFromTail inum l i
  else insertFromHead inum l i

def dtreeAddInode (l : List α) (i : α) : List α :=
  match l.head?, l.getLast? with
  | some dhead, some child =>
    if inum i < inum child then dtreeInsertInode inum dhead child l i else l ++ [i]
  | _, _ => [i]

def dtreeRemInode [DecidableEq α] (l : List α) (i : α) : List α := l.erase i

variable {inum} {l : List α} {i : α}

theorem Ascending.erase [DecidableEq α] (h : Ascending inum l) :
    Ascending inum (dtreeRemInode l i) :=
  h.sublist erase_sublist

theorem Ascending.insert {l1 l2 : List α} (h : Ascending inum (l1 ++ l2))
    (h1 : ∀ a ∈ l1, inum a < inum i) (h2 : ∀ a ∈ l2, inum i < inum a) :
    Ascending inum (l1 ++ i :: l2) := by
  obtain ⟨hl1, hl2, hl⟩ := pairwise_append.mp h
  refine pairwise_append.mpr ⟨hl1, pairwise_cons.mpr ⟨h2, hl2⟩, ?_⟩
  intro a ha b hb
  rcases mem_cons.mp hb with rfl | hb
  · exact h1 a ha
  · exact hl a ha b hb

theorem Ascending.exists_split (h : Ascending inum l) (hi : ∀ a ∈ l, inum a ≠ inum i) :
    ∃ l1 l2, l = l1 ++ l2 ∧ (∀ a ∈ l1, inum a < inum i) ∧ ∀ a ∈ l2, inum i < inum a := by
  induction l with
  | nil => exact ⟨[], [], rfl, by simp, by simp⟩
  | cons b t ih =>
    obtain ⟨hb, ht⟩ := pairwise_cons.mp h
    obtain ⟨hne, hi⟩ := forall_mem_cons.mp hi
    rcases hne.lt_or_gt with hlt | hgt
    · obtain ⟨l1, l2, rfl, h1, h2⟩ := ih ht hi
      exact ⟨b :: l1, l2, rfl, forall_mem_cons.mpr ⟨hlt, h1⟩, h2⟩
    · exact ⟨[], b :: t, rfl, by simp, forall_mem_cons.mpr ⟨hgt, fun a ha => hgt.trans (hb a ha)⟩⟩

section
variable {l1 l2 : List α} (h1 : ∀ a ∈ l1, inum a < inum i) (h2 : ∀ a ∈ l2, inum i < inum a)
include h1 h2

theorem insertFromHead_split : insertFromHead inum (l1 ++ l2) i = l1 ++ i :: l2 := by
  have hpos : ∀ a ∈ l1, (!decide (inum i < inum a)) = true := by
    simpa using fun a ha => (h1 a ha).le
  rw [insertFromHead, takeWhile_append_of_pos hpos, dropWhile_append_of_pos hpos]
  cases l2 with
  | nil => simp
  | cons b t => simp [h2 b mem_cons_self]

theorem insertFromTail_split : insertFromTail inum (l1 ++ l2) i = l1 ++ i :: l2 := by
  have hpos : ∀ a ∈ l2.reverse, (!decide (inum a < inum i)) = true := by
    simpa using fun a ha => (h2 a ha).le
  rw [insertFromTail, reverse_append, takeWhile_append_of_pos hpos, dropWhile_append_of_pos hpos]
  rcases l1.eq_nil_or_concat with rfl | ⟨t, b, rfl⟩
  · simp
  · simp [h1 b (by simp)]

theorem dtreeAddInode_split : dtreeAddInode inum (l1 ++ l2) i = l1 ++ i :: l2 := by
  unfold dtreeAddInode dtreeInsertInode
  rw [insertFromHead_split h1 h2, insertFromTail_split h1 h2]
  split
  next dhead child hhead hchild =>
    split_ifs with hlt hfirst
    · cases l1 with
      | nil => rfl
      | cons b t =>
        cases hhead
        exact absurd hfirst (h1 _ mem_cons_self).le.not_gt
    · rfl
    · rfl
    · rcases l2.eq_nil_or_concat with rfl | ⟨t, b, rfl⟩
      · simp
      · rw [concat_eq_append, ← append_assoc, getLast?_concat] at hchild
        cases hchild
        exact absurd (h2 _ (by simp)) hlt
  next hnone =>
    -- a list that is not empty has a first and a last inode
    cases hl : l1 ++ l2 with
    | nil =>
      obtain ⟨rfl, rfl⟩ := append_eq_nil_iff.mp hl
      rfl
    | cons b t => exact (hnone b _ (by simp [hl]) (hl ▸ getLast?_cons)).elim

end

section
variable (h : Ascending inum l) (hi : ∀ a ∈ l, inum a ≠ inum i)
include h hi

theorem Ascending.add : Ascending inum (dtreeAddInode inum l i) := by
  obtain ⟨l1, l2, rfl, h1, h2⟩ := h.exists_split hi
  rw [dtreeAddInode_split h1 h2]
  exact h.insert h1 h2

theorem Ascending.perm_add : (dtreeAddInode inum l i).Perm (i :: l) := by
  obtain ⟨l1, l2, rfl, h1, h2⟩ := h.exists_split hi
  rw [dtreeAddInode_split h1 h2]
  exact perm_middle

end

theorem Ascending.eq_of_mem_iff {l' : List α} (h : Ascending inum l) (h' : Ascending inum l')
    (hmem : ∀ a, a ∈ l ↔ a ∈ l') : l = l' := by
  have hnd : ∀ {l : List α}, Ascending inum l → l.Nodup :=
    fun hl => hl.imp fun hlt heq => hlt.ne (congrArg inum heq)
  have hperm := (perm_ext_iff_of_nodup (hnd h) (hnd h')).mpr hmem
  exact hperm.eq_of_pairwise (fun _ _ _ _ hab hba => absurd hba hab.not_gt) h h'

inductive DirOp (α : Type*)
  | add (i : α)
  | rem (i : α)

variable (inum) [DecidableEq α]

def DirOp.apply (l : List α) : DirOp α → Option (List α)
  | .add i => some (dtreeAddInode inum l i)
  | .rem i => some (dtreeRemInode l i)

/-- A new inode has a number of its own, and what is removed is in the directory. -/
def DirOp.Proper (l : List α) : DirOp α → Prop
  | .add i => ∀ a ∈ l, inum a ≠ inum i
  | .rem i => i ∈ l

variable {inum}

theorem Ascending.of_reaches (h : Reaches (DirOp.apply inum) (DirOp.Proper inum) [] l) :
    Ascending inum l := by
  refine h.invariant (P := Ascending inum) .nil ?_
  rintro l l' op hl hop hs
  cases op with
  | add i =>
    cases hs
    exact hl.add hop
  | rem i =>
    cases hs
    exact hl.erase

/-- However its inodes came and went, a directory lists them by their numbers: what is added
comes to the others, and two directories with the same inodes have the same list. -/
theorem directory_listing (h : Reaches (DirOp.apply inum) (DirOp.Proper inum) [] l) :
    Ascending inum l ∧
      (∀ i, DirOp.Proper inum l (.add i) → (dtreeAddInode inum l i).Perm (i :: l)) ∧
      ∀ l', Reaches (DirOp.apply inum) (DirOp.Proper inum) [] l' → (∀ a, a ∈ l ↔ a ∈ l') → l = l' :=
  have hl := Ascending.of_reaches h
  ⟨hl, fun _ hi => hl.perm_add hi, fun _ h' => hl.eq_of_mem_iff (.of_reaches h')⟩

theorem directory_listing_two : ∃ l, Reaches (DirOp.apply id) (DirOp.Proper id) [] l ∧
    l = [1, 2] ∧ Ascending id l := by
  have h : Reaches (DirOp.apply id) (DirOp.Proper id) [] [2] :=
    Reaches.init.step (.add 2) (by simp [DirOp.Proper]) rfl
  have h' := h.step (.add 1) (by simp [DirOp.Proper]) rfl
  exact ⟨_, h', rfl, (directory_listing h').1⟩

end Order
end Cplant.Nexus
