import Cplant.Nexus.Dtree

/-!
# Reading a directory

A client lists a directory with READDIR calls, each of which goes on from the cookie of the last
entry the client has. The listing is cut twice: where the buffer for `directory_entry` records is
full and where the count of the request is used up by `entry` records.
-/
namespace Cplant.Nexus
open List

structure Layout where
  dirent : ℕ
  entry : ℕ
  dirent_pos : 0 < dirent

def rndup (x y : ℕ) : ℕ := (x + y - 1) / y * y

def Layout.recordLength (lay : Layout) (namlen : ℕ) : ℕ := rndup (lay.dirent + namlen) 4

theorem Layout.recordLength_pos (lay : Layout) (n : ℕ) : 0 < lay.recordLength n := by
  have h := lay.dirent_pos
  unfold Layout.recordLength rndup
  omega

structure Entry where
  name : Name
  inum : ℕ
  deriving DecidableEq

structure Directory where
  inum : ℕ
  parentInum : ℕ
  attr : Attr
  entries : List Entry
  ascending : Ascending Entry.inum entries
  inums : ∀ e ∈ entries, 1 < e.inum ∧ e.inum < 2 ^ 32
  names : ∀ e ∈ entries, e.name.length ≤ 255
  inum_lt : inum < 2 ^ 32
  parentInum_lt : parentInum < 2 ^ 32

structure DirectoryEntry where
  fileid : ℕ
  off : ℕ
  name : Name
  deriving DecidableEq

section Model
variable (lay : Layout)

def dtreeAdddirent (len : ℕ) (name : Name) : Option ℕ :=
  if len < lay.recordLength name.length then none else some (len - lay.recordLength name.length)

structure Filled where
  ents : List DirectoryEntry
  len : ℕ
  eod : Bool

def Filled.push (e : DirectoryEntry) (f : Filled) : Filled := { f with ents := e :: f.ents }

def addInodes : ℕ → ℕ → List Entry → Filled
  | len, _, [] => ⟨[], len, true⟩
  | len, myoff, ino :: rest =>
    match dtreeAdddirent lay len ino.name with
    | none => ⟨[], len, false⟩
    | some len =>
      let myoff' := match rest with
        | [] => myoff
        | next :: _ => next.inum % 2 ^ 32
      (addInodes len myoff' rest).push ⟨ino.inum, myoff, ino.name⟩

def readInodes (d : Directory) (len myoff : ℕ) : Except Errno Filled :=
  match d.entries.dropWhile (fun ino => decide (ino.inum < myoff)) with
  | [] => .error .einval
  | ino :: rest => .ok (addInodes lay len myoff (ino :: rest))

def readDotdot (d : Directory) (len : ℕ) : Except Errno Filled :=
  match dtreeAdddirent lay len dotdot with
  | none => .ok ⟨[], len, false⟩
  | some len =>
    match d.entries with
    | [] => .ok ⟨[⟨d.parentInum, 1, dotdot⟩], len, true⟩
    | ino :: _ =>
      (readInodes lay d len (ino.inum % 2 ^ 32)).map (Filled.push ⟨d.parentInum, 1, dotdot⟩)

def readDot (d : Directory) (len : ℕ) : Except Errno Filled :=
  match dtreeAdddirent lay len dot with
  | none => .error .einval
  | some len => (readDotdot lay d len).map (Filled.push ⟨d.inum, 0, dot⟩)

def Directory.readable (d : Directory) (cr : Creds) : Bool :=
  cr.isSuser || d.attr.allows cr .read

def dtreeReaddir (d : Directory) (off buflen : ℕ) (cr : Creds) : Except Errno Filled :=
  if d.readable cr = false then .error .eacces
  else match off % 2 ^ 32 with
    | 0 => readDot lay d buflen
    | 1 => readDotdot lay d buflen
    | myoff => readInodes lay d buflen myoff

structure NfsEntry where
  fileid : ℕ
  name : Name
  cookie : ℕ
  deriving DecidableEq

def nfsMaxdata : ℕ := 8192
def nfsMaxnamlen : ℕ := 255

def takeEntries : ℕ → ℕ → List DirectoryEntry → Except Errno (List NfsEntry × ℕ)
  | buflen, _, [] => .ok ([], buflen)
  | buflen, count, dep :: rest =>
    if lay.recordLength dep.name.length ≤ buflen ∧ lay.entry + dep.name.length + 1 < count then
      if dep.fileid % 2 ^ 32 ≠ dep.fileid then .error .einval
      else if dep.off % 2 ^ 32 ≠ dep.off then .error .einval
      else
        let name := dep.name.take nfsMaxnamlen
        (takeEntries (buflen - lay.recordLength dep.name.length)
          (count - (lay.entry + name.length + 1)) rest).map
            (fun r => (⟨dep.fileid, name, dep.off⟩ :: r.1, r.2))
    else .ok ([], buflen)

inductive ReaddirRes
  | reply (entries : List NfsEntry) (eof : Bool)
  | status (err : Errno)
  /-- `assert(entries != NULL || eof)` -/
  | assertion

def nfsprocReaddir (d : Directory) (cr : Creds) (cookie count : ℕ) : ReaddirRes :=
  let count := min count nfsMaxdata
  match dtreeReaddir lay d cookie count cr with
  | .error err => .status err
  | .ok f =>
    match takeEntries lay (count - f.len) count f.ents with
    | .error err => .status err
    | .ok (entries, buflen) =>
      let eof := buflen = 0 ∧ f.eod
      if entries ≠ [] ∨ eof then .reply entries eof else .assertion

/-- A client that goes on from the last cookie until the end is reported, with `counts i` the
count of its call `i`. -/
def Directory.list (d : Directory) (cr : Creds) (counts : ℕ → ℕ) :
    ℕ → ℕ → ℕ → List NfsEntry → Option (List NfsEntry)
  | 0, _, _, _ => none
  | fuel + 1, i, cookie, got =>
    match nfsprocReaddir lay d cr cookie (counts i) with
    | .reply entries true => some (got ++ entries)
    | .reply entries false =>
      match entries.getLast? with
      | some e => d.list cr counts fuel (i + 1) e.cookie (got ++ entries)
      | none => none
    | _ => none

def Directory.contents (d : Directory) : List (Name × ℕ) :=
  (dot, d.inum) :: (dotdot, d.parentInum) :: d.entries.map (fun e => (e.name, e.inum))

def Directory.ListedOnce (d : Directory) (cr : Creds) (counts : ℕ → ℕ) : Prop :=
  ∃ fuel got, d.list lay cr counts fuel 0 0 [] = some got ∧
    (got.map (fun e => (e.name, e.fileid))).Perm d.contents

def Directory.Fits (d : Directory) (count : ℕ) : Prop :=
  (d.contents.map (fun e => lay.recordLength e.1.length)).sum ≤ min count nfsMaxdata ∧
    (d.contents.map (fun e => lay.entry + e.1.length + 1)).sum < min count nfsMaxdata

end Model

def Entry.record (e : Entry) : DirectoryEntry := ⟨e.inum, e.inum, e.name⟩

def Directory.records (d : Directory) : List DirectoryEntry :=
  ⟨d.inum, 0, dot⟩ :: ⟨d.parentInum, 1, dotdot⟩ :: d.entries.map Entry.record

variable {lay : Layout} {l : List DirectoryEntry} {name : Name} {count len : ℕ} {counts : ℕ → ℕ}

def recordsLength (lay : Layout) (l : List DirectoryEntry) : ℕ :=
  (l.map (fun e => lay.recordLength e.name.length)).sum

@[simp] theorem recordsLength_nil : recordsLength lay [] = 0 := rfl

@[simp] theorem recordsLength_cons (e : DirectoryEntry) (l : List DirectoryEntry) :
    recordsLength lay (e :: l) = lay.recordLength e.name.length + recordsLength lay l := rfl

theorem recordsLength_eq_zero : recordsLength lay l = 0 ↔ l = [] := by
  cases l with
  | nil => simp
  | cons e l =>
    have := lay.recordLength_pos e.name.length
    simp only [recordsLength_cons, reduceCtorEq, iff_false]
    omega

structure Fills (lay : Layout) (len : ℕ) (l : List DirectoryEntry) (f : Filled) : Prop where
  front : ∃ more, l = f.ents ++ more ∧ (f.eod = true ↔ more = [])
  room : recordsLength lay f.ents + f.len = len
  whole : recordsLength lay l ≤ len → f.eod = true

namespace Fills
variable {len : ℕ} {l : List DirectoryEntry} {e : DirectoryEntry} {f : Filled}

theorem done : Fills lay len [] ⟨[], len, true⟩ :=
  ⟨⟨[], rfl, by simp⟩, by simp, fun _ => rfl⟩

theorem stop (h : len < lay.recordLength e.name.length) :
    Fills lay len (e :: l) ⟨[], len, false⟩ := by
  refine ⟨⟨e :: l, rfl, by simp⟩, by simp, ?_⟩
  intro hle
  rw [recordsLength_cons] at hle
  omega

theorem push (h : Fills lay (len - lay.recordLength e.name.length) l f)
    (hle : lay.recordLength e.name.length ≤ len) : Fills lay len (e :: l) (f.push e) := by
  obtain ⟨⟨more, hmore, heod⟩, hroom, hwhole⟩ := h
  refine ⟨⟨more, by rw [hmore]; rfl, heod⟩, ?_, ?_⟩
  · simp only [Filled.push, recordsLength_cons]
    omega
  · intro hl
    rw [recordsLength_cons] at hl
    exact hwhole (by omega)

end Fills

theorem dtreeAdddirent_eq_none (h : dtreeAdddirent lay len name = none) :
    len < lay.recordLength name.length := by
  unfold dtreeAdddirent at h
  split_ifs at h with hlt
  exact hlt

theorem dtreeAdddirent_eq_some {len' : ℕ} (h : dtreeAdddirent lay len name = some len') :
    lay.recordLength name.length ≤ len ∧ len' = len - lay.recordLength name.length := by
  unfold dtreeAdddirent at h
  split_ifs at h with hlt
  exact ⟨by omega, (Option.some.inj h).symm⟩

theorem addInodes_fills {l : List Entry} {ino : Entry} (len : ℕ)
    (hl : ∀ e ∈ ino :: l, e.inum < 2 ^ 32) :
    Fills lay len ((ino :: l).map Entry.record) (addInodes lay len ino.inum (ino :: l)) := by
  induction l generalizing ino len with
  | nil =>
    rw [addInodes]
    cases hadd : dtreeAdddirent lay len ino.name with
    | none => exact Fills.stop (dtreeAdddirent_eq_none hadd)
    | some len' =>
      obtain ⟨hle, rfl⟩ := dtreeAdddirent_eq_some hadd
      exact Fills.push Fills.done hle
  | cons next l ih =>
    rw [addInodes]
    cases hadd : dtreeAdddirent lay len ino.name with
    | none => exact Fills.stop (dtreeAdddirent_eq_none hadd)
    | some len' =>
      obtain ⟨hle, rfl⟩ := dtreeAdddirent_eq_some hadd
      have hnext : next.inum % 2 ^ 32 = next.inum := Nat.mod_eq_of_lt (hl next (by simp))
      simp only [hnext]
      exact Fills.push (ih _ fun e he => hl e (mem_cons_of_mem _ he)) hle

namespace Directory
variable {e : DirectoryEntry}

section Filling
variable (lay) (d : Directory) (len : ℕ)

section
variable {pre post : List Entry} {e : Entry} (h : d.entries = pre ++ e :: post)
include h

theorem dropWhile_entries :
    d.entries.dropWhile (fun ino => decide (ino.inum < e.inum)) = e :: post := by
  have hasc := d.ascending
  rw [h] at hasc ⊢
  rw [dropWhile_append_of_pos, dropWhile_cons_of_neg]
  · simp
  · intro a ha
    simpa using (pairwise_append.mp hasc).2.2 a ha e (by simp)

theorem readInodes_fills :
    ∃ f, readInodes lay d len e.inum = .ok f ∧ Fills lay len ((e :: post).map Entry.record) f := by
  refine ⟨_, by rw [readInodes, dropWhile_entries d h], ?_⟩
  apply addInodes_fills
  intro a ha
  exact (d.inums a (by rw [h]; exact mem_append_right _ ha)).2

end

theorem readDotdot_fills : ∃ f, readDotdot lay d len = .ok f ∧
    Fills lay len (⟨d.parentInum, 1, dotdot⟩ :: d.entries.map Entry.record) f := by
  unfold readDotdot
  cases hadd : dtreeAdddirent lay len dotdot with
  | none => exact ⟨_, rfl, Fills.stop (dtreeAdddirent_eq_none hadd)⟩
  | some len' =>
    obtain ⟨hle, rfl⟩ := dtreeAdddirent_eq_some hadd
    cases hd : d.entries with
    | nil => exact ⟨_, rfl, Fills.push Fills.done hle⟩
    | cons e l =>
      have hmod : e.inum % 2 ^ 32 = e.inum := Nat.mod_eq_of_lt (d.inums e (by simp [hd])).2
      obtain ⟨f, hf, hfills⟩ :=
        readInodes_fills lay d (len - lay.recordLength dotdot.length)
          (show d.entries = [] ++ e :: l from hd)
      refine ⟨f.push ⟨d.parentInum, 1, dotdot⟩, ?_, Fills.push hfills hle⟩
      simp only [hmod, hf, Except.map]

theorem readDot_fills : (readDot lay d len = .error .einval ∧ len < recordsLength lay d.records) ∨
    ∃ f, readDot lay d len = .ok f ∧ Fills lay len d.records f := by
  unfold readDot
  cases hadd : dtreeAdddirent lay len dot with
  | none =>
    have hlt := dtreeAdddirent_eq_none hadd
    refine .inl ⟨rfl, ?_⟩
    simp only [records, recordsLength_cons]
    omega
  | some len' =>
    obtain ⟨hle, rfl⟩ := dtreeAdddirent_eq_some hadd
    obtain ⟨f, hf, hfills⟩ := readDotdot_fills lay d (len - lay.recordLength dot.length)
    exact .inr ⟨_, by simp [hf, Except.map], Fills.push hfills hle⟩

theorem dtreeReaddir_fills {cr : Creds} (hcr : d.readable cr = true)
    {pre post : List DirectoryEntry} (h : d.records = pre ++ e :: post) :
    (dtreeReaddir lay d e.off len cr = .error .einval ∧ len < recordsLength lay (e :: post)) ∨
      ∃ f, dtreeReaddir lay d e.off len cr = .ok f ∧ Fills lay len (e :: post) f := by
  unfold dtreeReaddir
  rw [if_neg (by simp [hcr])]
  match pre, h with
  | [], h =>
    obtain ⟨rfl, rfl⟩ := cons.inj h
    exact readDot_fills lay d len
  | [x], h =>
    obtain ⟨-, h⟩ := cons.inj h
    obtain ⟨rfl, rfl⟩ := cons.inj h
    exact .inr (readDotdot_fills lay d len)
  | x :: y :: pre, h =>
    obtain ⟨-, h⟩ := cons.inj h
    obtain ⟨-, h⟩ := cons.inj h
    obtain ⟨es, es', hd, -, hrest⟩ := map_eq_append_iff.mp h
    obtain ⟨ino, l, rfl, rfl, rfl⟩ := map_eq_cons_iff.mp hrest
    have hino := d.inums ino (by simp [hd])
    obtain ⟨f, hf, hfills⟩ := readInodes_fills lay d len hd
    refine .inr ⟨f, ?_, hfills⟩
    have hoff : ino.record.off % 2 ^ 32 = ino.inum := Nat.mod_eq_of_lt hino.2
    rw [hoff]
    split
    · omega
    · omega
    · exact hf

end Filling

theorem mem_records {d : Directory} (he : e ∈ d.records) :
    e.fileid < 2 ^ 32 ∧ e.off < 2 ^ 32 ∧ e.name.length ≤ nfsMaxnamlen := by
  simp only [records, mem_cons, mem_map] at he
  rcases he with rfl | rfl | ⟨ino, hino, rfl⟩
  · exact ⟨d.inum_lt, Nat.two_pow_pos 32, by show 1 ≤ 255; omega⟩
  · exact ⟨d.parentInum_lt, Nat.one_lt_two_pow (by decide), by show 2 ≤ 255; omega⟩
  · exact ⟨(d.inums ino hino).2, (d.inums ino hino).2, d.names ino hino⟩

end Directory

def DirectoryEntry.entry (e : DirectoryEntry) : NfsEntry := ⟨e.fileid, e.name, e.off⟩

def entriesLength (lay : Layout) (l : List DirectoryEntry) : ℕ :=
  (l.map (fun e => lay.entry + e.name.length + 1)).sum

theorem takeEntries_front (lay : Layout) (count : ℕ)
    (hl : ∀ e ∈ l, e.fileid < 2 ^ 32 ∧ e.off < 2 ^ 32 ∧ e.name.length ≤ nfsMaxnamlen) :
    ∃ taken more, l = taken ++ more ∧ takeEntries lay (recordsLength lay l) count l =
        .ok (taken.map DirectoryEntry.entry, recordsLength lay more) ∧
      (more = [] → l ≠ [] → entriesLength lay l < count) ∧
      (entriesLength lay l < count → more = []) := by
  induction l generalizing count with
  | nil => exact ⟨[], [], rfl, rfl, by simp, by simp⟩
  | cons e l ih =>
    obtain ⟨hid, hoff, hname⟩ := hl e (by simp)
    by_cases hroom : lay.entry + e.name.length + 1 < count
    · obtain ⟨taken, more, hsplit, htake, hall, hmore⟩ :=
        ih (count - (lay.entry + e.name.length + 1)) fun a ha => hl a (by simp [ha])
      refine ⟨e :: taken, more, by rw [hsplit]; rfl, ?_, ?_, ?_⟩
      · rw [takeEntries, if_pos ⟨by simp, hroom⟩,
          if_neg (not_not.mpr (Nat.mod_eq_of_lt hid)), if_neg (not_not.mpr (Nat.mod_eq_of_lt hoff))]
        simp only [take_of_length_le hname, recordsLength_cons, Nat.add_sub_cancel_left,
          htake, Except.map]
        rfl
      · intro hnil _
        simp only [entriesLength, map_cons, sum_cons]
        by_cases hl : l = []
        · subst hl
          simpa using hroom
        · have := hall hnil hl
          simp only [entriesLength] at this
          omega
      · intro hlt
        simp only [entriesLength, map_cons, sum_cons] at hlt hmore
        exact hmore (by omega)
    · refine ⟨[], e :: l, rfl, ?_, by simp, ?_⟩
      · rw [takeEntries, if_neg (by tauto)]
        rfl
      · intro hlt
        simp only [entriesLength, map_cons, sum_cons] at hlt
        omega

namespace Directory
variable {d : Directory} {cr : Creds} {e : DirectoryEntry} {post pre : List DirectoryEntry}

/-- What a call from the offset of a record says: that record and some of those after it, with
the end reported when these are all. -/
theorem nfsprocReaddir_reply (h : d.records = pre ++ e :: post) {entries : List NfsEntry}
    {eof : Bool} (hres : nfsprocReaddir lay d cr e.off count = .reply entries eof) :
    ∃ taken more, e :: post = taken ++ more ∧ entries = taken.map DirectoryEntry.entry ∧
      (eof = true → more = [] ∧ recordsLength lay (e :: post) ≤ min count nfsMaxdata ∧
        entriesLength lay (e :: post) < min count nfsMaxdata) ∧ (eof = false → taken ≠ []) := by
  by_cases hcr : d.readable cr = true
  · rcases dtreeReaddir_fills lay d (min count nfsMaxdata) hcr h with ⟨herr, -⟩ | ⟨f, hf, hfills⟩
    · simp [nfsprocReaddir, herr] at hres
    obtain ⟨⟨rest, hrest, heod⟩, hroom, -⟩ := hfills
    have hents : ∀ a ∈ f.ents, a.fileid < 2 ^ 32 ∧ a.off < 2 ^ 32 ∧
        a.name.length ≤ nfsMaxnamlen := by
      intro a ha
      have hmem : a ∈ d.records := by rw [h, hrest]; simp [ha]
      exact mem_records hmem
    obtain ⟨taken, more, hsplit, htake, hall, -⟩ :=
      takeEntries_front lay (min count nfsMaxdata) hents
    have hlen : min count nfsMaxdata - f.len = recordsLength lay f.ents := by omega
    simp only [nfsprocReaddir, hf, hlen, htake, recordsLength_eq_zero] at hres
    split_ifs at hres with hsome
    obtain ⟨rfl, rfl⟩ := ReaddirRes.reply.inj hres
    refine ⟨taken, more ++ rest, by rw [hrest, hsplit, append_assoc], rfl, ?_, ?_⟩
    · intro heof
      obtain ⟨rfl, hend⟩ := of_decide_eq_true heof
      have hrest' : rest = [] := heod.mp hend
      subst hrest'
      rw [append_nil] at hrest
      rw [hrest]
      exact ⟨rfl, by omega, hall rfl (by rw [← hrest]; exact cons_ne_nil _ _)⟩
    · rintro heof rfl
      rw [decide_eq_false_iff_not] at heof
      rcases hsome with hne | hend
      · exact hne rfl
      · exact heof hend
  · simp [nfsprocReaddir, dtreeReaddir, hcr] at hres

theorem records_contents : d.records.map (fun e => (e.name, e.fileid)) = d.contents := by
  simp [records, contents, Entry.record, Function.comp_def]

theorem recordsLength_records : recordsLength lay d.records =
    (d.contents.map (fun e => lay.recordLength e.1.length)).sum := by
  rw [← records_contents, map_map]
  rfl

theorem entriesLength_records : entriesLength lay d.records =
    (d.contents.map (fun e => lay.entry + e.1.length + 1)).sum := by
  rw [← records_contents, map_map]
  rfl

theorem nfsprocReaddir_whole (hcr : d.readable cr = true) (hfits : d.Fits lay count) :
    nfsprocReaddir lay d cr 0 count = .reply (d.records.map DirectoryEntry.entry) true := by
  obtain ⟨hrec, hent⟩ := hfits
  rw [← recordsLength_records] at hrec
  rw [← entriesLength_records] at hent
  rcases dtreeReaddir_fills lay d (min count nfsMaxdata) hcr
    (show d.records = [] ++ ⟨d.inum, 0, dot⟩ :: _ from rfl) with ⟨-, hlt⟩ | ⟨f, hf, hfills⟩
  · exact absurd hrec (not_le.mpr hlt)
  have heod := hfills.whole hrec
  obtain ⟨⟨rest, hrest, hend⟩, hroom, -⟩ := hfills
  have hnil : rest = [] := hend.mp heod
  subst hnil
  have hents : f.ents = d.records := by rw [append_nil] at hrest; exact hrest.symm
  obtain ⟨taken, more, hsplit, htake, -, hmore⟩ :=
    takeEntries_front lay (min count nfsMaxdata) fun e (he : e ∈ d.records) => mem_records he
  have hnil := hmore hent
  subst hnil
  rw [append_nil] at hsplit
  subst hsplit
  have hlen : min count nfsMaxdata - f.len = recordsLength lay d.records := by rw [← hents]; omega
  simp only [nfsprocReaddir, hf, hents, hlen, htake, heod]
  simp [records]

theorem le_length_list {fuel i : ℕ} {acc got : List NfsEntry} (h : d.records = pre ++ e :: post)
    (hgot : d.list lay cr counts fuel i e.off acc = some got) :
    acc.length + (e :: post).length ≤ got.length ∧ (got.length = acc.length + (e :: post).length →
        recordsLength lay (e :: post) ≤ min (counts i) nfsMaxdata ∧
          entriesLength lay (e :: post) < min (counts i) nfsMaxdata) := by
  induction fuel generalizing i pre post e acc with
  | zero => simp [Directory.list] at hgot
  | succ fuel ih =>
    rw [Directory.list] at hgot
    cases hres : nfsprocReaddir lay d cr e.off (counts i) with
    | status err => simp [hres] at hgot
    | assertion => simp [hres] at hgot
    | reply entries eof =>
      obtain ⟨taken, more, hsplit, rfl, hend, hne⟩ := nfsprocReaddir_reply h hres
      cases eof with
      | true =>
        obtain ⟨rfl, hroom⟩ := hend rfl
        simp only [hres, Option.some.injEq] at hgot
        rw [append_nil] at hsplit
        rw [← hgot, hsplit, length_append, length_map]
        exact ⟨le_refl _, fun _ => hsplit ▸ hroom⟩
      | false =>
        obtain ⟨front, e', rfl⟩ := (eq_nil_or_concat taken).resolve_left (hne rfl)
        rw [concat_eq_append] at hsplit
        simp only [hres, concat_eq_append, map_append, map_cons, map_nil,
          getLast?_append, getLast?_singleton, Option.some_or] at hgot
        -- the next call starts with `e'`, which this one has told already
        have hnext : d.records = (pre ++ front) ++ e' :: more := by
          rw [h, hsplit]
          simp
        obtain ⟨hle, -⟩ := ih hnext hgot
        have hlen := congrArg length hsplit
        simp only [length_append, length_map, length_cons,
          length_nil] at hle hlen ⊢
        exact ⟨by omega, fun heq => by omega⟩

theorem ListedOnce.fits (h : d.ListedOnce lay cr counts) :
    d.readable cr = true ∧ d.Fits lay (counts 0) := by
  obtain ⟨fuel, got, hgot, hperm⟩ := h
  constructor
  · by_contra hcr
    rw [Bool.not_eq_true] at hcr
    cases fuel with
    | zero => simp [Directory.list] at hgot
    | succ fuel => simp [Directory.list, nfsprocReaddir, dtreeReaddir, hcr] at hgot
  · have hlen : got.length = d.records.length := by
      rw [← length_map, hperm.length_eq, ← records_contents, length_map]
    obtain ⟨-, hfits⟩ :=
      le_length_list (show d.records = [] ++ ⟨d.inum, 0, dot⟩ :: _ from rfl) hgot
    obtain ⟨hrec, hent⟩ := hfits (by rw [hlen, length_nil, Nat.zero_add]; rfl)
    exact ⟨recordsLength_records ▸ hrec, entriesLength_records ▸ hent⟩

/-- A client is told each entry of a directory once just if it may read the directory and the
whole listing fits the first call. -/
theorem listed_once_iff (lay : Layout) (d : Directory) (cr : Creds) (counts : ℕ → ℕ) :
    d.ListedOnce lay cr counts ↔ d.readable cr = true ∧ d.Fits lay (counts 0) := by
  refine ⟨ListedOnce.fits, ?_⟩
  rintro ⟨hcr, hfits⟩
  refine ⟨1, d.records.map DirectoryEntry.entry, ?_, ?_⟩
  · simp [Directory.list, nfsprocReaddir_whole hcr hfits]
  · rw [map_map, ← records_contents]
    exact List.Perm.refl _

def withTwo : Directory where
  inum := 2
  parentInum := 2
  attr := ⟨0o40755, 0, 0⟩
  entries := [⟨['a'], 3⟩, ⟨['b'], 4⟩]
  ascending := by simp [Ascending]
  inums := by simp
  names := by simp
  inum_lt := by simp
  parentInum_lt := by simp

/-- The superuser reads it on an Alpha with a count of 100, of which no entry takes 40. The calls
tell `.` and `..`, then `..` and `a`, then `a` and `b`. -/
theorem entries_told_twice :
    (∀ e ∈ withTwo.contents, Layout.recordLength ⟨24, 32, by decide⟩ e.1.length < 40 ∧
      32 + e.1.length + 1 < 40) ∧
    ¬ withTwo.ListedOnce ⟨24, 32, by decide⟩ ⟨0, []⟩ (fun _ => 100) := by
  refine ⟨by decide, fun h => ?_⟩
  obtain ⟨-, hrec, -⟩ := h.fits
  exact absurd hrec (by decide)

variable {cookie : ℕ} {f : Filled}

inductive Opens (lay : Layout) (len : ℕ) : Name → Filled → Prop
  | stop {name : Name} (h : dtreeAdddirent lay len name = none) :
      Opens lay len name ⟨[], len, false⟩
  | push {e : DirectoryEntry} {f : Filled} {len' : ℕ}
      (h : dtreeAdddirent lay len e.name = some len') (hf : f.len ≤ len') :
      Opens lay len e.name (f.push e)

theorem addInodes_len_le (l : List Entry) (len myoff : ℕ) :
    (addInodes lay len myoff l).len ≤ len := by
  induction l generalizing len myoff with
  | nil => exact le_rfl
  | cons ino l ih =>
    unfold addInodes
    cases hadd : dtreeAdddirent lay len ino.name with
    | none => exact le_rfl
    | some len' =>
      obtain ⟨-, rfl⟩ := dtreeAdddirent_eq_some hadd
      exact (ih _ _).trans (Nat.sub_le _ _)

def nameFrom (d : Directory) : ℕ → Option Name
  | 0 => some dot
  | 1 => some dotdot
  | myoff => (d.entries.dropWhile (fun ino => decide (ino.inum < myoff))).head?.map Entry.name

theorem dtreeReaddir_opens (lay : Layout) (len : ℕ) (hcr : d.readable cr = true)
    (hname : d.nameFrom (cookie % 2 ^ 32) = some name) :
    (cookie % 2 ^ 32 = 0 ∧ dtreeAdddirent lay len name = none ∧
        dtreeReaddir lay d cookie len cr = .error .einval) ∨
      ∃ f, dtreeReaddir lay d cookie len cr = .ok f ∧ Opens lay len name f ∧
        (cookie % 2 ^ 32 = 0 → f.ents ≠ []) := by
  unfold dtreeReaddir
  rw [if_neg (Bool.not_eq_false _ ▸ hcr)]
  generalize cookie % 2 ^ 32 = off at hname
  match off, hname with
  | 0, hname =>
    obtain rfl := Option.some.inj hname
    simp only [readDot]
    cases hadd : dtreeAdddirent lay len dot with
    | none => exact .inl ⟨trivial, rfl, rfl⟩
    | some len' =>
      obtain ⟨f, hf, hfills⟩ := readDotdot_fills lay d len'
      have hroom := hfills.room
      refine .inr ⟨_, ?_, .push (e := ⟨d.inum, 0, dot⟩) (f := f) hadd (by omega), nofun⟩
      simp only [hf]
      rfl
  | 1, hname =>
    obtain rfl := Option.some.inj hname
    simp only [readDotdot]
    cases hadd : dtreeAdddirent lay len dotdot with
    | none => exact .inr ⟨_, rfl, .stop hadd, nofun⟩
    | some len' =>
      cases hd : d.entries with
      | nil => exact .inr ⟨_, rfl, .push (e := ⟨d.parentInum, 1, dotdot⟩) (f := ⟨[], len', true⟩)
          hadd le_rfl, nofun⟩
      | cons ino l =>
        have hino := (d.inums ino (by simp [hd])).2
        obtain ⟨f, hf, hfills⟩ :=
          readInodes_fills lay d len' (show d.entries = [] ++ ino :: l from hd)
        have hroom := hfills.room
        refine .inr ⟨_, ?_, .push (e := ⟨d.parentInum, 1, dotdot⟩) (f := f) hadd (by omega), nofun⟩
        simp only [Nat.mod_eq_of_lt hino, hf]
        rfl
  | off + 2, hname =>
    obtain ⟨ino, hino, rfl⟩ := Option.map_eq_some_iff.mp hname
    obtain ⟨l, hl⟩ := head?_eq_some_iff.mp hino
    refine .inr ⟨addInodes lay len (off + 2) (ino :: l), by simp only [readInodes, hl], ?_, nofun⟩
    unfold addInodes
    cases hadd : dtreeAdddirent lay len ino.name with
    | none => exact .stop hadd
    | some len' => exact .push (e := ⟨ino.inum, _, ino.name⟩) hadd (addInodes_len_le l _ _)

theorem assertion_iff (hf : dtreeReaddir lay d cookie (min count nfsMaxdata) cr = .ok f)
    (hopens : Opens lay (min count nfsMaxdata) name f) :
    nfsprocReaddir lay d cr cookie count = .assertion ↔
      f.ents = [] ∨ min count nfsMaxdata ≤ lay.entry + name.length + 1 := by
  simp only [nfsprocReaddir, hf]
  cases hopens with
  | stop hadd => simp [takeEntries]
  | @push e f len' hadd hlen =>
    obtain ⟨hle, rfl⟩ := dtreeAdddirent_eq_some hadd
    have hpos := lay.recordLength_pos e.name.length
    have hused : lay.recordLength e.name.length ≤ min count nfsMaxdata - f.len := by omega
    simp only [Filled.push, takeEntries, hused, true_and, reduceCtorEq, false_or]
    by_cases hroom : lay.entry + e.name.length + 1 < min count nfsMaxdata
    · -- whatever becomes of the other entries, this one is in the reply
      rw [if_pos hroom]
      refine iff_of_false ?_ (not_le.mpr hroom)
      split_ifs
      · simp
      · simp
      · generalize takeEntries lay _ _ f.ents = r
        cases r <;> simp [Except.map]
    · rw [if_neg hroom]
      have : min count nfsMaxdata - f.len ≠ 0 := by omega
      simp [this, not_lt.mp hroom]

/-- A call trips no assertion, and has an empty reply where nothing is left from the cookie on, just
if something is left and its first record fits the buffer and the count. With cookie 0 the buffer
may be too small for it. -/
theorem readdir_answers_iff (lay : Layout) (d : Directory) (cr : Creds) (cookie count : ℕ)
    (hcr : d.readable cr = true) : (nfsprocReaddir lay d cr cookie count ≠ .assertion ∧
      (d.nameFrom (cookie % 2 ^ 32) = none →
        nfsprocReaddir lay d cr cookie count = .reply [] true)) ↔
      ∃ name, d.nameFrom (cookie % 2 ^ 32) = some name ∧
        if min count nfsMaxdata < lay.recordLength name.length then cookie % 2 ^ 32 = 0
        else lay.entry + name.length + 1 < min count nfsMaxdata := by
  cases hname : d.nameFrom (cookie % 2 ^ 32) with
  | none =>
    have hpast : nfsprocReaddir lay d cr cookie count = .status .einval := by
      simp only [nfsprocReaddir, dtreeReaddir, hcr]
      generalize cookie % 2 ^ 32 = off at hname
      match off, hname with
      | off + 2, hname =>
        have hnil := head?_eq_none_iff.mp (Option.map_eq_none_iff.mp hname)
        simp [readInodes, hnil]
    simp [hpast]
  | some name =>
    simp only [reduceCtorEq, false_implies, and_true, Option.some.injEq, exists_eq_left']
    rcases dtreeReaddir_opens lay (min count nfsMaxdata) hcr hname with
      ⟨hzero, hadd, herr⟩ | ⟨f, hf, hopens, hzero⟩
    · rw [if_pos (dtreeAdddirent_eq_none hadd)]
      simp only [nfsprocReaddir, herr]
      exact iff_of_true nofun hzero
    · rw [ne_eq, assertion_iff hf hopens]
      cases hopens with
      | stop hadd =>
        rw [if_pos (dtreeAdddirent_eq_none hadd)]
        exact iff_of_false (by simp) fun h => hzero h rfl
      | push hadd =>
        rw [if_neg (not_lt.mpr (dtreeAdddirent_eq_some hadd).1)]
        simp [Filled.push]

theorem readdir_answers_dot :
    nfsprocReaddir ⟨24, 32, by decide⟩ withTwo ⟨0, []⟩ 0 100 ≠ .assertion :=
  ((readdir_answers_iff _ withTwo ⟨0, []⟩ 0 100 rfl).mpr ⟨dot, rfl, by decide⟩).1

theorem readdir_asserts :
    nfsprocReaddir ⟨24, 32, by decide⟩ withTwo ⟨0, []⟩ 1 8 = .assertion ∧
      nfsprocReaddir ⟨24, 32, by decide⟩ withTwo ⟨0, []⟩ 5 100 = .status .einval :=
  ⟨rfl, rfl⟩

end Directory
end Cplant.Nexus
