import Cplant.Bebopd.Registry

/-!
# `smart_alloc`

The allocator of `bebopd` for requests that name no nodes. It takes the smallest block of
consecutive nodes that is large enough, and without one the stretch of blocks that spans the
fewest positions. `allocType` is never changed, so this is its only branch that runs.
-/
namespace Cplant.Bebopd
open List

structure RangeType where
  loc : ℕ
  range : ℕ
deriving DecidableEq, Repr

section
variable (pos : ℤ → ℤ)

def blockSizes : List ℤ → List ℕ
  | [] => []
  | [_] => [1]
  | a :: b :: rest =>
    if pos a = pos b - 1 then
      match blockSizes (b :: rest) with
      | [] => [1]
      | size :: sizes => (size + 1) :: sizes
    else 1 :: blockSizes (b :: rest)

def placeBlocks (loc : ℕ) : List ℕ → List RangeType
  | [] => []
  | size :: sizes => ⟨loc, size⟩ :: placeBlocks (loc + size) sizes

def rangelist (avail : List ℤ) : List RangeType := placeBlocks 0 (blockSizes pos avail)

structure Fit where
  beginReal : ℕ
  bestbinsize : ℕ

def bestFit (want : ℕ) (fit : Fit) (block : RangeType) : Fit :=
  if want ≤ block.range ∧ block.range - want < fit.bestbinsize then
    ⟨block.loc, block.range - want⟩
  else fit

def reach (want count : ℕ) : List RangeType → Option (RangeType × ℕ)
  | [] => none
  | block :: rest =>
    if want ≤ count + block.range then some (block, count + block.range)
    else reach want (count + block.range) rest

structure Span where
  start : ℕ
  bestsum : ℤ
  overflow : ℤ

/-- The second pass. It ends at the first block from which `want` nodes are not reached. -/
def bestSpan (avail : List ℤ) (want : ℕ) (best : Span) : List RangeType → Span
  | [] => best
  | first :: rest =>
    match reach want 0 (first :: rest) with
    | none => best
    | some (last, count) =>
      let sum := pos (avail.getD last.loc 0) - pos (avail.getD first.loc 0) + last.range -
        (count - want)
      let better := sum < best.bestsum ∨ sum = best.bestsum ∧ (count : ℤ) - want < best.overflow
      bestSpan avail want (if better then ⟨first.loc, sum, count - want⟩ else best) rest

def smartAlloc (avail : List ℤ) (want : ℕ) : Option (List ℤ) :=
  let len := avail.length
  if want = len then some avail
  else if len < want then none
  else
    let blocks := rangelist pos avail
    let fit := blocks.foldl (bestFit want) ⟨0, len + 1⟩
    let start :=
      if fit.bestbinsize = len + 1 then
        (bestSpan pos avail want ⟨0, maxNodes + 1, len + 1⟩ blocks).start
      else fit.beginReal
    some ((avail.drop start).take want)

end

variable {pos : ℤ → ℤ} {avail : List ℤ} {want len : ℕ} {blocks : List RangeType}

theorem sum_blockSizes (avail : List ℤ) : (blockSizes pos avail).sum = avail.length := by
  induction avail with
  | nil => rfl
  | cons a rest ih =>
    cases rest with
    | nil => rfl
    | cons b rest =>
      rw [blockSizes]
      cases hsizes : blockSizes pos (b :: rest) with
      | nil => simp [hsizes] at ih
      | cons size sizes =>
        rw [hsizes, sum_cons] at ih
        split
        · simp only [sum_cons, length_cons] at ih ⊢
          omega
        · simp only [sum_cons, length_cons] at ih ⊢
          omega

def Tiles (len : ℕ) : List RangeType → Prop
  | [] => True
  | block :: rest =>
    block.loc + ((block :: rest).map (·.range)).sum = len ∧ Tiles len rest

theorem tiles_placeBlocks {loc : ℕ} {sizes : List ℕ} (h : loc + sizes.sum = len) :
    Tiles len (placeBlocks loc sizes) := by
  have hranges : ∀ (sizes : List ℕ) loc, (placeBlocks loc sizes).map (·.range) = sizes := by
    intro sizes
    induction sizes with
    | nil => exact fun _ => rfl
    | cons size sizes ih => exact fun loc => congrArg (size :: ·) (ih _)
  induction sizes generalizing loc with
  | nil => trivial
  | cons size sizes ih =>
    rw [sum_cons] at h
    refine ⟨?_, ih (by omega)⟩
    rw [map_cons, hranges, sum_cons]
    exact h

theorem tiles_rangelist (pos : ℤ → ℤ) (avail : List ℤ) : Tiles avail.length (rangelist pos avail) :=
  tiles_placeBlocks (by rw [zero_add, sum_blockSizes])

theorem foldl_bestFit {fit : Fit} (hblocks : Tiles len blocks)
    (hfit : fit.bestbinsize = len + 1 ∨ fit.beginReal + want ≤ len) :
    (blocks.foldl (bestFit want) fit).bestbinsize = len + 1 ∨
      (blocks.foldl (bestFit want) fit).beginReal + want ≤ len := by
  induction blocks generalizing fit with
  | nil => exact hfit
  | cons block rest ih =>
    obtain ⟨hloc, hrest⟩ := hblocks
    refine ih hrest ?_
    rw [bestFit]
    split
    next hbetter =>
      right
      rw [map_cons, sum_cons] at hloc
      show block.loc + want ≤ len
      omega
    · exact hfit

theorem reach_le {count : ℕ} {res : RangeType × ℕ} (h : reach want count blocks = some res) :
    want ≤ count + (blocks.map (·.range)).sum := by
  induction blocks generalizing count with
  | nil => simp [reach] at h
  | cons block rest ih =>
    rw [map_cons, sum_cons]
    rw [reach] at h
    split at h
    · omega
    · have := ih h
      omega

theorem bestSpan_start {best : Span} (hblocks : Tiles len blocks)
    (hbest : best.start + want ≤ len) :
    (bestSpan pos avail want best blocks).start + want ≤ len := by
  induction blocks generalizing best with
  | nil => exact hbest
  | cons block rest ih =>
    rw [bestSpan]
    split
    · exact hbest
    next hreach =>
    refine ih hblocks.2 ?_
    have hwant := reach_le hreach
    have hloc := hblocks.1
    split
    · show block.loc + want ≤ len
      omega
    · exact hbest

theorem smartAlloc_eq_some {go : List ℤ} (h : smartAlloc pos avail want = some go) :
    ∃ start, start + want ≤ avail.length ∧ go = (avail.drop start).take want := by
  simp only [smartAlloc] at h
  split at h
  next hall =>
    refine ⟨0, by omega, ?_⟩
    rw [drop_zero, hall, take_length, Option.some.inj h]
  split at h
  · cases h
  next hless hmore =>
  have htiles := tiles_rangelist pos avail
  refine ⟨_, ?_, (Option.some.inj h).symm⟩
  split
  · refine bestSpan_start htiles ?_
    show 0 + want ≤ avail.length
    omega
  next hfound => exact (foldl_bestFit htiles (.inl rfl)).resolve_left hfound

end Cplant.Bebopd
