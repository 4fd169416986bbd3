import Cplant.Foundations.Runs
import Cplant.Yod.FileHandle

/-!
# File positions

The seek before a read or a write is left out when the position recorded in the handle is the one
that the node asks for, so the record has to be the offset of the descriptor. A request that ends
with an error after its first block leaves them apart.
-/
namespace Cplant.Yod
open List Option FileHandle State Int Nat
open Keyed

def Contiguous : ℤ → Blocks → Prop
  | _, [] => True
  | pos, (place, n) :: rest => place = pos ∧ Contiguous (pos + n) rest

/-- Only the first block of a read meets an error, and the node gets every block after which there
is more to read. -/
def ReadWhole (nbytes : ℕ) (outcomes : List ReadBlock) : Prop :=
  (∀ o ∈ outcomes.tail, o.numRead ≠ none) ∧
  ∀ i o, outcomes[i]? = some o → o.numRead = some ioBufSize → (i + 1) * ioBufSize < nbytes →
    o.sent = true

def WriteWhole (nbytes : ℕ) (outcomes : List WriteBlock) : Prop :=
  ioBufSize < nbytes → ∀ i o, outcomes[i]? = some o →
    o.received = true ∧ o.written = some (min (nbytes - i * ioBufSize) ioBufSize) ∨
    i = 0 ∧ (o.received = false ∨ o.written = none ∨ o.written = some 0)

variable {offset size remaining nblocks nbytes rtlmessages rtlmessages' addr : ℕ} {append : Bool}
  {w : Written} {outcomes : List ReadBlock} {data : List UInt8} {opened : Option ℕ} {cfg : Config}
  {ν : Type} {l : Handles ν} {fh fh' : FileHandle ν}

theorem hostReadLoop_placed {startPos : ℤ} {m : Moved}
    (hm : hostReadLoop startPos outcomes remaining offset offset = some m)
    (hhead : ∀ o ∈ outcomes.head?, o.numRead = none → startPos = offset)
    (hwhole : ReadWhole remaining outcomes) : m.curPos = m.offset ∧ Contiguous offset m.blocks := by
  induction outcomes generalizing remaining offset m with
  | nil => cases hm
  | cons o rest ih =>
    obtain ⟨htail, hsent⟩ := hwhole
    rw [hostReadLoop] at hm
    cases hread : o.numRead with
    | none =>
      simp only [hread] at hm
      split_ifs at hm
      cases hm
      exact ⟨hhead o rfl hread, trivial⟩
    | some numRead =>
      simp only [hread] at hm
      split_ifs at hm with hbig hlast hrest hs hrest
      · cases hm
        exact ⟨by simp, rfl, trivial⟩
      · -- a full block, and there is more to read
        obtain ⟨m', hm', rfl⟩ := map_eq_some_iff.mp hm
        have hwhole' : ReadWhole (remaining - numRead) rest := by
          refine ⟨fun o ho => htail o (mem_of_mem_tail ho), fun i o ho hio hlt => ?_⟩
          refine hsent (i + 1) o ho hio ?_
          rw [succ_mul]
          omega
        have hhead' : ∀ o ∈ rest.head?, o.numRead = none → startPos = (offset + numRead : ℕ) :=
          fun o ho hnone => absurd hnone (htail o (mem_of_head? ho))
        obtain ⟨hpos, hblocks⟩ := ih hm' hhead' hwhole'
        refine ⟨hpos, rfl, ?_⟩
        rwa [natCast_add] at hblocks
      · refine absurd (hsent 0 o rfl ?_ ?_) hs
        · rw [hread]
          congr 1
          omega
        · omega

theorem writeAt_eq (h : append = true → size = offset) : writeAt append size offset = offset := by
  unfold writeAt
  split_ifs with ha
  · exact h ha
  · rfl

theorem hostWriteLoop_full {outcomes : List WriteBlock} {numWritten : ℤ}
    (hw : hostWriteLoop append nblocks outcomes remaining size offset numWritten = some w)
    (hsize : append = true → size = offset)
    (hfull : ∀ i o, outcomes[i]? = some o → o.received = true ∧
      o.written = some (min (remaining - i * ioBufSize) ioBufSize))
    : offset ≤ w.offset ∧ w.numWritten = numWritten + w.offset - offset ∧
      Contiguous offset w.blocks := by
  induction nblocks generalizing outcomes remaining size offset numWritten w with
  | zero =>
    simp only [hostWriteLoop] at hw
    split_ifs at hw
    cases hw
    exact ⟨Nat.le_refl _, by simp, trivial⟩
  | succ nblocks ih =>
    cases outcomes with
    | nil => cases hw
    | cons o rest =>
      obtain ⟨hrec, hwritten⟩ := hfull 0 o rfl
      rw [Nat.zero_mul, Nat.sub_zero] at hwritten
      simp only [hostWriteLoop, hrec, hwritten, Bool.true_eq_false, if_false, Nat.lt_irrefl,
        gt_iff_lt, if_true, writeAt_eq hsize] at hw
      obtain ⟨w', hw', rfl⟩ := map_eq_some_iff.mp hw
      have hfull' : ∀ i o, rest[i]? = some o → o.received = true ∧ o.written =
          some (min (remaining - min remaining ioBufSize - i * ioBufSize) ioBufSize) := by
        intro i o ho
        obtain ⟨hrec', hwritten'⟩ := hfull (i + 1) o ho
        rw [succ_mul] at hwritten'
        exact ⟨hrec', hwritten'.trans (congrArg some (by omega))⟩
      obtain ⟨hle, hnum, hblocks⟩ := ih hw' (fun ha => by rw [hsize ha]; omega) hfull'
      refine ⟨Nat.le_trans (Nat.le_add_right _ _) hle, ?_, rfl, ?_⟩
      · rw [hnum]
        push_cast
        omega
      · rwa [natCast_add] at hblocks

theorem hostWriteLoop_placed {outcomes : List WriteBlock}
    (hw : hostWriteLoop append nblocks outcomes nbytes size offset 0 = some w)
    (hsize : append = true → size = offset)
    (hwhole : ∀ i o, outcomes[i]? = some o → o.received = true ∧
      o.written = some (min (nbytes - i * ioBufSize) ioBufSize) ∨ i = 0 ∧
        (o.received = false ∨ o.written = none ∨ o.written = some 0)) :
    (if w.numWritten > 0 then offset + w.numWritten else (offset : ℤ)) = w.offset ∧
      Contiguous offset w.blocks := by
  by_cases hfull : ∀ i o, outcomes[i]? = some o →
      o.received = true ∧ o.written = some (min (nbytes - i * ioBufSize) ioBufSize)
  · obtain ⟨hle, hnum, hblocks⟩ := hostWriteLoop_full hw hsize hfull
    refine ⟨?_, hblocks⟩
    split_ifs <;> omega
  -- the first block is not done, and the loop ends with it
  have hfirst : ∃ o rest, outcomes = o :: rest ∧
      (o.received = false ∨ o.written = none ∨ o.written = some 0) ∧
      ¬(o.received = true ∧ o.written = some (min nbytes ioBufSize)) := by
    push Not at hfull
    obtain ⟨i, o, ho, hnot⟩ := hfull
    rcases hwhole i o ho with hdone | ⟨rfl, hfail⟩
    · exact absurd hdone.2 (hnot hdone.1)
    · cases outcomes with
      | nil => cases ho
      | cons o' rest =>
        cases ho
        refine ⟨o, rest, rfl, hfail, fun h => hnot h.1 ?_⟩
        simpa using h.2
  obtain ⟨o, rest, rfl, hfail, hnot⟩ := hfirst
  cases nblocks with
  | zero => simp [hostWriteLoop] at hw
  | succ nblocks =>
    rw [hostWriteLoop] at hw
    cases hrec : o.received with
    | false =>
      split_ifs at hw
      cases hw
      exact ⟨by simp, trivial⟩
    | true =>
      simp only [hrec, Bool.true_eq_false, if_false, false_or, true_and] at hw hfail hnot
      rcases hfail with hwritten | hwritten
      · simp only [hwritten] at hw
        split_ifs at hw
        cases hw
        exact ⟨by simp, trivial⟩
      · rw [hwritten, Option.some.injEq] at hnot
        simp only [hwritten, hnot, if_false, writeAt_eq hsize] at hw
        split_ifs at hw
        cases hw
        exact ⟨by simp, rfl, trivial⟩

theorem hostWrite2_placed {d : Desc} {buf : Bool} {outcomes : List WriteBlock}
    (hw : hostWrite2 cfg d data size buf outcomes rtlmessages = some (w, rtlmessages'))
    (hsize : d.append = true → size = d.offset) (hwhole : WriteWhole data.length outcomes)
    (hrtl : ¬(d.num = 6 ∧ isForrtl cfg data = true ∧ rtlmessages > 0)) :
    (if w.numWritten > 0 then d.offset + w.numWritten else (d.offset : ℤ)) = w.offset ∧
      Contiguous d.offset w.blocks := by
  unfold hostWrite2 at hw
  split_ifs at hw with hbuf houtcomes hone
  · cases hw
    exact ⟨by simp, trivial⟩
  · split at hw
    next o =>
      have hno : ¬((d.num = 6 ∧ isForrtl cfg data = true) ∧ rtlmessages > 0) := by rwa [and_assoc]
      simp only [hno, if_false, writeAt_eq hsize] at hw
      split_ifs at hw with hrec
      · cases hw
        exact ⟨by simp, trivial⟩
      all_goals
        split at hw
        · cases hw
          exact ⟨by simp, trivial⟩
        · split_ifs at hw
          cases hw
          refine ⟨?_, rfl, trivial⟩
          simp only
          split_ifs <;> omega
    · cases hw
  · obtain ⟨w', hw', heq⟩ := map_eq_some_iff.mp hw
    cases heq
    apply hostWriteLoop_placed hw' hsize
    by_cases hlong : ioBufSize < data.length
    · exact hwhole hlong
    -- the only write that has no block and no more than one is an empty one
    have hpos : 0 < ioBufSize := by decide
    have hzero : nioBlocks data.length = 0 := by
      unfold nioBlocks at hone ⊢
      rcases Nat.lt_or_ge data.length ioBufSize with hlt | hge
      · rw [div_eq_of_lt hlt, mod_eq_of_lt hlt] at hone ⊢
        split_ifs at hone ⊢ with hz
        · omega
        · rfl
      · have heq : data.length = ioBufSize := by omega
        rw [heq, Nat.div_self hpos, Nat.mod_self] at hone
        simp at hone
    rw [hzero, hostWriteLoop] at hw'
    split_ifs at hw' with hnil
    intro i o ho
    rw [hnil] at ho
    cases ho

namespace FileHandle
variable {ν : Type} {fh : FileHandle ν} {d : Desc} {cmd : IoCmd}

/-- The recorded position is the offset of the descriptor, and the descriptor appends only if the
recorded flags say so. -/
def Placed (fh : FileHandle ν) : Prop :=
  fh.iomode = .unix → ∀ d, fh.fd = some d →
    fh.curPos = d.offset ∧ (d.append = true → fh.otherFlags.append = true)

def Near (fh : FileHandle ν) : Prop :=
  fh.iomode = .unix → ∀ d, fh.fd = some d →
    (fh.curPos = d.offset ∨ fh.curPos < 0) ∧ (d.append = true → fh.otherFlags.append = true)

theorem Placed.near (h : fh.Placed) : fh.Near := by
  intro hmode d hd
  exact ⟨.inl (h hmode d hd).1, (h hmode d hd).2⟩

theorem cacheIn_near (opened : Option ℕ) : (fh.cacheIn opened).Near := by
  intro _ d hd
  cases opened with
  | none => cases hd
  | some num =>
    simp only [cacheIn, map_some, lseek] at hd ⊢
    split_ifs at hd ⊢ with hpos
    · cases hd
      exact ⟨.inl (Int.toNat_of_nonneg hpos).symm, Bool.noConfusion⟩
    · cases hd
      exact ⟨.inr (Int.negSucc_lt_zero 0), Bool.noConfusion⟩

theorem cacheIn_placed
    (h : opened.isSome → fh.iomode = .unix → 0 ≤ fh.curPos) : (fh.cacheIn opened).Placed := by
  intro hmode d hd
  cases opened with
  | none => cases hd
  | some num =>
    have hpos : 0 ≤ fh.curPos := h rfl hmode
    simp only [cacheIn, map_some, lseek, hpos, if_true] at hd ⊢
    cases hd
    exact ⟨(Int.toNat_of_nonneg hpos).symm, Bool.noConfusion⟩

theorem positionFilePtr_eq (hmode : fh.iomode = .unix) (hnear : fh.Near) (hd : fh.fd = some d)
    {pos : ℤ} (hpos : 0 ≤ pos) : fh.positionFilePtr pos =
      { fh with curPos := pos, fd := some { d with offset := pos.toNat } } := by
  unfold positionFilePtr
  simp only [hmode]
  split_ifs with hne
  · simp [hd, lseek, hpos]
  · rw [ne_eq, not_not] at hne
    have hoffset : d.offset = pos.toNat := by
      rcases (hnear hmode d hd).1 with h | h <;> omega
    simp [hd, ← hoffset]

theorem setFlags_eq (fh : FileHandle ν) (hd : fh.fd = some d)
    (happ : d.append = true → fh.otherFlags.append = true) (flags : OpenFlags) :
    ∃ append, (append = true → flags.append = true) ∧
      fh.setFlags flags = { fh with otherFlags := flags, fd := some { d with append } } := by
  unfold setFlags
  split_ifs with hne
  · exact ⟨flags.append, id, by rw [hd]; rfl⟩
  · rw [ne_eq, not_not] at hne
    exact ⟨d.append, fun h => hne ▸ happ h, by rw [hne, ← hd]⟩

end FileHandle
section
variable {ν : Type} {fh fh' : FileHandle ν} {d : Desc} {cmd : IoCmd} {buf : Bool} {blocks : Blocks}

theorem hostRead_placed (hnear : fh.Near) (hmode : fh.iomode = .unix) (hd : fh.fd = some d)
    (hpos : 0 ≤ cmd.curPos) (hwhole : ReadWhole nbytes outcomes)
    (hr : hostRead fh cmd nbytes buf outcomes = some (fh', blocks)) :
    fh'.Placed ∧ Contiguous cmd.curPos blocks := by
  have hcur : (cmd.curPos.toNat : ℤ) = cmd.curPos := toNat_of_nonneg hpos
  obtain ⟨append, happ, hset⟩ := setFlags_eq
    { fh with curPos := cmd.curPos, fd := some { d with offset := cmd.curPos.toNat } } rfl
    (hnear hmode d hd).2 cmd.fileStatusFlags
  rw [hostRead, positionFilePtr_eq hmode hnear hd hpos, hset] at hr
  simp only at hr
  split_ifs at hr
  · cases hr
    refine ⟨fun _ d' hd' => ?_, trivial⟩
    cases hd'
    exact ⟨hcur.symm, happ⟩
  · obtain ⟨m, hm, heq⟩ := map_eq_some_iff.mp hr
    cases heq
    nth_rewrite 2 [← hcur] at hm
    obtain ⟨hplaced, hblocks⟩ := hostReadLoop_placed hm (fun _ _ _ => hcur.symm) hwhole
    refine ⟨fun _ d' hd' => ?_, hcur ▸ hblocks⟩
    cases hd'
    exact ⟨hplaced, happ⟩

theorem hostWrite_placed (hnear : fh.Near) (hmode : fh.iomode = .unix)
    (hd : fh.fd = some d) (hpos : cmd.fileStatusFlags.append = false → 0 ≤ cmd.curPos)
    {outcomes : List WriteBlock} (hwhole : WriteWhole data.length outcomes)
    (hrtl : ¬(d.num = 6 ∧ isForrtl cfg data = true ∧ rtlmessages > 0))
    (hw : hostWrite cfg fh cmd data size buf outcomes rtlmessages =
      some (fh', blocks, rtlmessages')) :
    fh'.Placed ∧ (cmd.fileStatusFlags.append = false → Contiguous cmd.curPos blocks) := by
  -- the place of the first access
  obtain ⟨start, append, happ, hstart, heq⟩ : ∃ (start : ℕ) (append : Bool),
      (append = true → cmd.fileStatusFlags.append = true ∧ size = start) ∧
      (cmd.fileStatusFlags.append = false → cmd.curPos = start) ∧
      (if cmd.fileStatusFlags.append then
        { fh with curPos := size, fd := fh.fd.map fun d => { d with offset := size } }
      else fh.positionFilePtr cmd.curPos).setFlags cmd.fileStatusFlags =
        { fh with
          curPos := start
          otherFlags := cmd.fileStatusFlags
          fd := some ⟨d.num, start, append⟩ } := by
    cases hflag : cmd.fileStatusFlags.append with
    | true =>
      obtain ⟨append, -, hset⟩ := setFlags_eq
        { fh with curPos := size, fd := some { d with offset := size } } rfl
        (hnear hmode d hd).2 cmd.fileStatusFlags
      refine ⟨size, append, fun _ => ⟨rfl, rfl⟩, Bool.noConfusion, ?_⟩
      rw [if_pos rfl, hd, map_some, hset]
    | false =>
      have hnonneg := hpos hflag
      have hcur : (cmd.curPos.toNat : ℤ) = cmd.curPos := toNat_of_nonneg hnonneg
      obtain ⟨append, happ, hset⟩ := setFlags_eq
        { fh with curPos := cmd.curPos, fd := some { d with offset := cmd.curPos.toNat } }
        rfl (hnear hmode d hd).2 cmd.fileStatusFlags
      refine ⟨cmd.curPos.toNat, append, fun h => ?_, fun _ => hcur.symm, ?_⟩
      · rw [hflag] at happ
        cases happ h
      · rw [if_neg Bool.noConfusion, positionFilePtr_eq hmode hnear hd hnonneg, hset,
          hcur]
  rw [hostWrite, heq] at hw
  obtain ⟨⟨w, rtl⟩, hw', heq'⟩ := map_eq_some_iff.mp hw
  cases heq'
  obtain ⟨hplaced, hblocks⟩ := hostWrite2_placed hw' (fun h => (happ h).2) hwhole hrtl
  refine ⟨fun _ d' hd' => ?_, fun hflag => ?_⟩
  · cases hd'
    exact ⟨hplaced, fun h => (happ h).1⟩
  · rw [hstart hflag]
    exact hblocks

end

def FileHandle.Kept (fh : FileHandle ν) : Prop := fh.iomode = .unix → 0 ≤ fh.curPos

theorem FileHandle.Placed.kept (h : fh.Placed) (hd : fh.fd.isSome) : fh.Kept := by
  intro hmode
  obtain ⟨d, hd⟩ := isSome_iff_exists.mp hd
  rw [(h hmode d hd).1]
  exact natCast_nonneg _

namespace Handles

def Placed (l : Handles ν) : Prop := ∀ fh ∈ l, fh.Placed

theorem Placed.put (h : Placed l) (hfh : fh.Placed) : Placed (l.put fh) := by
  intro g hg
  rcases mem_put hg with rfl | ⟨hg, -⟩
  · exact hfh
  · exact h g hg

theorem Placed.destroy (h : Placed l) (addr : ℕ) : Placed (l.destroyFileHandle addr) :=
  fun g hg => h g (mem_remove.mp hg).1

theorem placed_cacheOut (fh : FileHandle ν) : fh.cacheOut.Placed := by
  intro _ d hd
  cases hd

theorem findOpen_spec (h : l.findOpenFileHandle = some fh) : fh ∈ l ∧ fh.fd.isSome :=
  ⟨mem_reverse.mp (mem_of_find?_eq_some h), by simpa using find?_some h⟩

theorem Placed.back (h : Placed l) (hf : l.findOpenFileHandle = some fh) (opened : Option ℕ) :
    (fh.cacheOut.cacheIn opened).Placed := by
  obtain ⟨hmem, hsome⟩ := findOpen_spec hf
  exact cacheIn_placed fun _ => (h fh hmem).kept hsome

structure Cached.Sound (fh : FileHandle ν) (o : CacheOutcome) (c : Cached ν) : Prop where
  same : fh.Same c.fh
  others : ∀ g ∈ c.handles, g = c.fh ∨ g.Placed
  none : c.out = none → Placed c.handles
  near : c.out ≠ Option.none → c.fh.Near ∧
    ∃ d, c.fh.fd = some d ∧ (fh.fd.map Desc.num).or o.inward = some d.num
  back : ∀ out, c.out = some out → out.addr ≠ fh.addr → ∀ opened, (out.cacheIn opened).Placed

theorem Placed.cacheFileHandle (h : Placed l) (hfh : fh ∈ l) (o : CacheOutcome) :
    (l.cacheFileHandle fh o).Sound fh o := by
  unfold Handles.cacheFileHandle
  cases hfd : fh.fd with
  | some d =>
    refine ⟨⟨rfl, rfl, rfl, rfl⟩, fun g hg => .inr (h g hg), fun _ => h, fun _ => ?_, ?_⟩
    · exact ⟨(h fh hfh).near, d, hfd, by rw [hfd]; rfl⟩
    · intro out hout hne
      cases hout
      exact absurd rfl hne
  | none =>
    simp only [isNone_none, if_true]
    split
    · exact ⟨⟨rfl, rfl, rfl, rfl⟩, fun g hg => .inr (h g hg), fun _ => h,
        fun hno => absurd rfl hno, fun _ hout => by cases hout⟩
    rename_i out hf
    have hout : Placed (l.put out.cacheOut) := h.put (placed_cacheOut out)
    cases hin : o.inward with
    | none =>
      have hin : (fh.cacheIn none).Placed := fun _ d hd => by cases hd
      have hall := (hout.put hin).put (h.back hf o.back)
      exact ⟨fh.same_cacheIn none, fun g hg => .inr (hall g hg), fun _ => hall,
        fun hno => absurd rfl hno, fun _ hout => by cases hout⟩
    | some num =>
      refine ⟨fh.same_cacheIn (some num), fun g hg => ?_, (fun hno => by cases hno), fun _ => ?_,
        ?_⟩
      · rcases mem_put hg with rfl | ⟨hg, -⟩
        · exact .inl rfl
        · exact .inr (hout g hg)
      · refine ⟨cacheIn_near _, ?_⟩
        rw [hfd, hin]
        simp only [cacheIn, map_some, lseek]
        split_ifs <;> exact ⟨_, rfl, rfl⟩
      · intro _ heq _
        cases heq
        exact h.back hf

theorem cacheFileHandle_fh (l : Handles ν) (fh : FileHandle ν) (o : CacheOutcome) :
    (l.cacheFileHandle fh o).fh = fh ∨
      fh.fd = none ∧ (l.cacheFileHandle fh o).fh = fh.cacheIn o.inward := by
  unfold Handles.cacheFileHandle
  cases hfd : fh.fd with
  | some d => exact .inl rfl
  | none =>
    simp only [isNone_none, if_true]
    split
    · exact .inl rfl
    · refine .inr ⟨trivial, ?_⟩
      split_ifs <;> rfl

theorem Cached.Sound.put {o : CacheOutcome} {c : Cached ν} (h : c.Sound fh o)
    (hsame : c.fh.Same fh') (hfh : fh'.Placed) : Placed (c.handles.put fh') := by
  intro g hg
  rcases mem_put hg with rfl | ⟨hg, hne⟩
  · exact hfh
  · rcases h.others g hg with rfl | hg
    · exact absurd hsame.addr.symm hne
    · exact hg

theorem Placed.cacheOutAny (h : Placed l) (cfg : Config) : Placed (l.cacheOutAny cfg).1 ∧
    ∀ out, (l.cacheOutAny cfg).2 = some out → ∀ opened, (out.cacheIn opened).Placed := by
  unfold Handles.cacheOutAny
  split_ifs
  · split
    next out hf =>
      refine ⟨h.put (placed_cacheOut out), fun _ heq => ?_⟩
      cases heq
      exact h.back hf
    · exact ⟨h, fun _ heq => by cases heq⟩
  · exact ⟨h, fun _ heq => by cases heq⟩

theorem Placed.hostOpen1st (h : Placed l) (cfg : Config) (name : ν) (flags : OpenFlags)
    (o : OpenOutcome) : Placed (l.hostOpen1st cfg name flags o).1 := by
  obtain ⟨hl, hback⟩ := h.cacheOutAny cfg
  unfold Handles.hostOpen1st
  simp only
  split
  · exact hl
  split
  · intro g hg
    rcases mem_append.mp hg with hg | hg
    · exact hl g hg
    · cases mem_singleton.mp hg
      intro _ d hd
      cases hd
      exact ⟨rfl, id⟩
  · split
    next out hout =>
      exact hl.put (hback out hout o.back)
    · exact hl

theorem Placed.hostOpenOtherwise (h : Placed l) (hfh : fh ∈ l) (flags : OpenFlags)
    (o : OpenOutcome) : Placed (l.hostOpenOtherwise fh flags o).1 := by
  have hc := h.cacheFileHandle hfh o.cache
  unfold Handles.hostOpenOtherwise
  split_ifs
  · exact h
  simp only
  split
  next hout =>
    exact hc.none hout
  rename_i out hout
  split
  · intro g hg
    rcases mem_put hg with rfl | ⟨hg, hne⟩
    · intro _ d hd
      cases hd
      exact ⟨rfl, id⟩
    · rcases hc.others g hg with rfl | hg
      · exact absurd rfl hne
      · exact hg
  · -- the handle is destroyed, and the others are in place
    intro g hg
    obtain ⟨hg, hne⟩ := mem_remove.mp hg
    split_ifs at hg with hout'
    · rcases mem_put hg with rfl | ⟨hg, -⟩
      · exact hc.back out hout hout' o.back
      · rcases hc.others g hg with rfl | hg
        · exact absurd hc.same.addr hne
        · exact hg
    · rcases hc.others g hg with rfl | hg
      · exact absurd hc.same.addr hne
      · exact hg

theorem Placed.hostOpen [DecidableEq ν] (h : Placed l) {name : ν} {flags : OpenFlags}
    {o : OpenOutcome} {l' : Handles ν} {returned : Option ℕ}
    (ho : l.hostOpen cfg name flags o = some (l', returned)) : Placed l' := by
  unfold Handles.hostOpen at ho
  split at ho
  · split_ifs at ho
    have := h.hostOpen1st cfg name flags o
    rw [some.inj ho] at this
    exact this
  next fh hfh =>
    have := h.hostOpenOtherwise (lookup_eq_some hfh).1 flags o
    rw [some.inj ho] at this
    exact this

theorem Placed.hostClose (h : Placed l) (hfh : fh ∈ l) (cfg : Config)
    (hkept : ∀ closed, l.findClosedFileHandle = some closed → opened.isSome → closed.Kept) :
    Placed (l.hostClose cfg fh opened) := by
  unfold Handles.hostClose
  split_ifs
  · split
    next closed hclosed =>
      apply Placed.destroy
      exact h.put (cacheIn_placed (hkept closed hclosed))
    · exact h
  · exact h.destroy fh.addr
  · exact h.put (h fh hfh)

end Handles

/-- What keeps the positions right: a read or write fails only before its first block, it asks for a
position in the file, its data are not taken for a message of the Fortran run time library, and a
handle is cached in only with a position in the file. -/
def Request.Whole (cfg : Config) (s : State ν) : Request ν → Prop
  | .open _ _ _ => True
  | .close _ opened =>
    ∀ fh, s.handles.findClosedFileHandle = some fh → opened.isSome → fh.Kept
  | .cache addr o =>
    ∀ fh, s.handles.at? addr = some fh → fh.fd = none → o.inward.isSome → fh.Kept
  | .read addr _ cmd nbytes _ outcomes =>
    ∀ fh, s.handles.at? addr = some fh → fh.iomode = .unix →
      0 ≤ cmd.curPos ∧ ReadWhole nbytes outcomes
  | .write addr o cmd data _ _ outcomes =>
    ∀ fh, s.handles.at? addr = some fh → fh.iomode = .unix →
      (cmd.fileStatusFlags.append = false → 0 ≤ cmd.curPos) ∧ WriteWhole data.length outcomes ∧
      ¬((fh.fd.map Desc.num).or o.inward = some 6 ∧ isForrtl cfg data = true ∧ s.rtlmessages > 0)

def Transfer.Honoured (t : Transfer) : Prop :=
  t.iomode = .unix → (t.write = true → t.cmd.fileStatusFlags.append = false) →
    Contiguous t.cmd.curPos t.blocks

namespace State
variable {cfg : Config} {s s' : State ν} {req : Request ν} {o : CacheOutcome}

def Right (s : State ν) : Prop := s.handles.Placed ∧ ∀ t ∈ s.transfers, t.Honoured

theorem Right.cache (h : s.Right) (hfh : fh ∈ s.handles)
    (hkept : fh.fd = none → o.inward.isSome → fh.Kept) :
    (s.handles.cacheFileHandle fh o).handles.Placed := by
  intro g hg
  rcases (h.1.cacheFileHandle hfh o).others g hg with rfl | hg
  · rcases Handles.cacheFileHandle_fh s.handles fh o with heq | ⟨hfd, heq⟩
    · rw [heq]
      exact h.1 fh hfh
    · rw [heq]
      exact cacheIn_placed (hkept hfd)
  · exact hg

theorem Right.transfer (h : s.Right) {t : Transfer} (ht : t.Honoured) :
    ∀ t' ∈ s.transfers ++ [t], t'.Honoured := by
  intro t' ht'
  rcases mem_append.mp ht' with ht' | ht'
  · exact h.2 t' ht'
  · cases mem_singleton.mp ht'
    exact ht

theorem right_init (io : Stdio) : (init io : State ν).Right := by
  refine ⟨fun fh hfh hmode => ?_, fun t ht => by cases ht⟩
  simp only [init, mem_cons, not_mem_nil, or_false] at hfh
  rcases hfh with rfl | rfl | rfl <;> cases hmode

variable [DecidableEq ν] {buf : Bool} {cmd : IoCmd}

theorem Right.read (h : s.Right) (hwhole : (Request.read addr o cmd nbytes buf outcomes).Whole cfg s)
    (hs : s.step cfg (.read addr o cmd nbytes buf outcomes) = some s') : s'.Right := by
  simp only [step, bind_eq_bind, bind_eq_some_iff] at hs
  obtain ⟨fh, hfh, hs⟩ := hs
  have hc := h.1.cacheFileHandle (lookup_eq_some hfh).1 o
  generalize s.handles.cacheFileHandle fh o = c at hc hs
  split_ifs at hs with hout
  · cases hs
    exact ⟨hc.none (isNone_iff_eq_none.mp hout), h.2⟩
  rw [isNone_iff_eq_none] at hout
  obtain ⟨hnear, d, hd, -⟩ := hc.near hout
  obtain ⟨⟨fh', blocks⟩, hr, hs⟩ := bind_eq_some_iff.mp hs
  cases hs
  have hsame := same_hostRead hr
  have hboth : fh'.iomode = .unix → fh'.Placed ∧ Contiguous cmd.curPos blocks := by
    intro hmode
    have hmode' : c.fh.iomode = .unix := hsame.iomode.symm.trans hmode
    obtain ⟨hpos, hblocks⟩ := hwhole fh hfh (hc.same.iomode.symm.trans hmode')
    exact hostRead_placed hnear hmode' hd hpos hblocks hr
  exact ⟨hc.put hsame fun hmode => (hboth hmode).1 hmode, h.transfer fun hmode _ => (hboth hmode).2⟩

theorem Right.write (h : s.Right) {outcomes : List WriteBlock}
    (hwhole : (Request.write addr o cmd data size buf outcomes).Whole cfg s)
    (hs : s.step cfg (.write addr o cmd data size buf outcomes) = some s') : s'.Right := by
  simp only [step, bind_eq_bind, bind_eq_some_iff] at hs
  obtain ⟨fh, hfh, hs⟩ := hs
  have hc := h.1.cacheFileHandle (lookup_eq_some hfh).1 o
  generalize s.handles.cacheFileHandle fh o = c at hc hs
  split_ifs at hs with hout
  · cases hs
    exact ⟨hc.none (isNone_iff_eq_none.mp hout), h.2⟩
  rw [isNone_iff_eq_none] at hout
  obtain ⟨hnear, d, hd, hnum⟩ := hc.near hout
  obtain ⟨⟨fh', blocks, rtlmessages⟩, hw, hs⟩ := bind_eq_some_iff.mp hs
  cases hs
  have hsame := same_hostWrite hw
  have hboth : fh'.iomode = .unix → fh'.Placed ∧
      (cmd.fileStatusFlags.append = false → Contiguous cmd.curPos blocks) := by
    intro hmode
    have hmode' : c.fh.iomode = .unix := hsame.iomode.symm.trans hmode
    obtain ⟨hpos, hblocks, hrtl⟩ := hwhole fh hfh (hc.same.iomode.symm.trans hmode')
    rw [hnum, some.injEq] at hrtl
    exact hostWrite_placed hnear hmode' hd hpos hblocks hrtl hw
  exact ⟨hc.put hsame fun hmode => (hboth hmode).1 hmode,
    h.transfer fun hmode happend => (hboth hmode).2 (happend rfl)⟩

theorem Right.step (h : s.Right) (hwhole : req.Whole cfg s) (hs : s.step cfg req = some s') :
    s'.Right := by
  cases req with
  | «open» name flags o =>
    obtain ⟨⟨handles, returned⟩, ho, rfl⟩ := map_eq_some_iff.mp hs
    exact ⟨h.1.hostOpen ho, h.2⟩
  | close addr opened =>
    obtain ⟨fh, hfh, rfl⟩ := map_eq_some_iff.mp hs
    exact ⟨h.1.hostClose (lookup_eq_some hfh).1 cfg hwhole, h.2⟩
  | cache addr o =>
    obtain ⟨fh, hfh, rfl⟩ := map_eq_some_iff.mp hs
    exact ⟨h.cache (lookup_eq_some hfh).1 (hwhole fh hfh), h.2⟩
  | read addr o cmd nbytes buf outcomes => exact h.read hwhole hs
  | write addr o cmd data size buf outcomes => exact h.write hwhole hs

theorem positions_honoured {io : Stdio}
    (h : Reaches (State.step cfg) (fun s req => req.Whole cfg s) (State.init io : State ν) s) :
    (∀ fh ∈ s.handles, fh.iomode = .unix → ∀ d, fh.fd = some d → fh.curPos = d.offset) ∧
      ∀ t ∈ s.transfers, t.Honoured := by
  have hright : s.Right := h.invariant (right_init io) fun hr hwhole hs => hr.step hwhole hs
  exact ⟨fun fh hfh hmode d hd => (hright.1 fh hfh hmode d hd).1, hright.2⟩

/-- Descriptors 3 to 5 are those of the standard files, and a file of a node gets descriptor 6. -/
def exampleStdio : Stdio where
  input := ⟨0, ⟨3, 0, false⟩, some .rdonly, 0⟩
  output := ⟨1, ⟨4, 0, false⟩, some .wronly, 0⟩
  error := ⟨2, ⟨5, 0, false⟩, some .wronly, 0⟩
  distinct := by decide

def exampleConfig : Config := ⟨7, by decide, false⟩

def noFlags : OpenFlags := ⟨false, false, false, 0⟩

def exampleOpen (num : ℕ) : Request Unit :=
  .open () noFlags ⟨some 3, ⟨none, none⟩, some num, some .rdwr, some num, none⟩

def noOpen : CacheOutcome := ⟨none, none⟩

def exampleFile (num offset : ℕ) (curPos : ℤ) : FileHandle Unit where
  addr := 3
  iomode := .unix
  fd := some ⟨num, offset, false⟩
  fname := .path ()
  accessFlags := some .rdwr
  otherFlags := noFlags
  refCount := 1
  curPos

def exampleRead (nbytes : ℕ) (outcomes : List ReadBlock) : Request Unit :=
  .read 3 noOpen ⟨0, noFlags⟩ nbytes true outcomes

theorem positions_honoured_read : ∃ s : State Unit,
    Reaches (State.step exampleConfig) (fun s req => req.Whole exampleConfig s)
      (State.init exampleStdio) s ∧ exampleFile 6 10 10 ∈ s.handles ∧ s.transfers ≠ [] ∧
    (∀ fh ∈ s.handles, fh.iomode = .unix → ∀ d, fh.fd = some d → fh.curPos = d.offset) ∧
      ∀ t ∈ s.transfers, t.Honoured := by
  have hopen : Reaches (step exampleConfig) (fun s req => req.Whole exampleConfig s)
      (init exampleStdio) _ := Reaches.init.step (exampleOpen 6) trivial rfl
  have hread := hopen.step (exampleRead 10 [⟨some 10, true⟩]) ?_ rfl
  · obtain ⟨hplaced, hhonoured⟩ := positions_honoured hread
    exact ⟨_, hread, by decide, by decide, hplaced, hhonoured⟩
  · intro fh _ _
    refine ⟨by decide, (fun o ho => by cases ho), fun i o _ _ hlt => ?_⟩
    exact absurd hlt (by unfold ioBufSize; omega)

/-- An error in the second block of a read, and a message that is not written, leave the recorded
position and the descriptor apart. The next read of the node is from the wrong place. -/
theorem position_lost : (∃ s : State Unit, Reaches (State.step exampleConfig) (fun _ _ => True)
      (State.init exampleStdio) s ∧ (∃ fh ∈ s.handles, fh.iomode = .unix ∧
        ∃ d, fh.fd = some d ∧ fh.curPos ≠ d.offset) ∧ ∃ t ∈ s.transfers, ¬t.Honoured) ∧
    ∃ s : State Unit, Reaches (State.step exampleConfig) (fun _ _ => True)
      (State.init exampleStdio) s ∧ ∃ fh ∈ s.handles, fh.iomode = .unix ∧
        ∃ d, fh.fd = some d ∧ fh.curPos ≠ d.offset := by
  constructor
  · refine exists_reaches_imp (P := fun s => exampleFile 7 32778 10 ∈ s.handles ∧
        ⟨.unix, ⟨0, noFlags⟩, false, [(32768, 10)]⟩ ∈ s.transfers)
      [exampleOpen 7, exampleRead 40000 [⟨some 32768, true⟩, ⟨none, true⟩],
        exampleRead 10 [⟨some 10, true⟩]] (by decide +kernel) fun s _ ⟨hfile, htransfer⟩ => ?_
    refine ⟨⟨_, hfile, rfl, _, rfl, by decide⟩, _, htransfer, fun h => ?_⟩
    exact absurd (h rfl (fun _ => rfl)).1 (by decide)
  · exact exists_reaches_imp (P := fun s => exampleFile 6 8 16 ∈ s.handles)
      [exampleOpen 6, .write 3 noOpen ⟨0, noFlags⟩ (forrtl ++ [58, 32]) 0 true [⟨true, some 8⟩],
        .write 3 noOpen ⟨8, noFlags⟩ (forrtl ++ [58, 32]) 8 true [⟨true, some 8⟩]]
      (by decide +kernel) fun s _ hfile => ⟨_, hfile, rfl, _, rfl, by decide⟩

end State
end Cplant.Yod
