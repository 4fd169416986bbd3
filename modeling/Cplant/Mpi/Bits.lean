import Cplant.Portals.Match

/-!
# Match bits of the MPI device

The device puts the protocol, the context id, the rank of the source and the tag of a message
into the 64 match bits of the Portals message. A receive ignores the protocol and, for a
wildcard, the source or the tag. The macros are those of `p30dev.alpha.h`, where an `int` that
goes into the bits is extended with its sign.
-/
namespace Cplant.Mpi
open BitVec Int32

def p30ProtocolMask : UInt64 := 0xf000000000000000
def p30ContextMask : UInt64 := 0x0fff000000000000
def p30SourceMask : UInt64 := 0x0000ffff00000000
def p30TagMask : UInt64 := 0x00000000ffffffff

def p30ShortMsg : UInt64 := 0x1000000000000000
def p30LongMsg : UInt64 := 0x2000000000000000

def mpiAnySource : Int32 := -2
def mpiAnyTag : Int32 := -1

def bitsOf (x : Int32) : UInt64 := x.toInt64.toUInt64

structure Criteria where
  matchBits : UInt64
  ignoreBits : UInt64
deriving DecidableEq, Repr

def Criteria.admits (c : Criteria) (bits : UInt64) : Bool :=
  bits &&& ~~~c.ignoreBits == c.matchBits &&& ~~~c.ignoreBits

def p30SetShortUnexBits : Criteria where
  matchBits := p30ShortMsg
  ignoreBits := p30ContextMask ||| p30SourceMask ||| p30TagMask

def p30SetLongUnexBits : Criteria where
  matchBits := p30LongMsg
  ignoreBits := p30ContextMask ||| p30SourceMask ||| p30TagMask

def p30SetRecvBits (context src tag : Int32) : Criteria :=
  let bits := bitsOf context <<< 16
  let c : Criteria :=
    if src = mpiAnySource then ⟨bits <<< 32, p30ProtocolMask ||| p30SourceMask⟩
    else ⟨(bits ||| bitsOf src) <<< 32, p30ProtocolMask⟩
  if tag = mpiAnyTag then { c with ignoreBits := c.ignoreBits ||| p30TagMask }
  else { c with matchBits := c.matchBits ||| bitsOf tag }

def setSendBits (protocol : UInt64) (context src tag : Int32) : UInt64 :=
  (bitsOf context <<< 16 ||| bitsOf src) <<< 32 ||| (bitsOf tag ||| protocol)

def p30SetShortSendBits : Int32 → Int32 → Int32 → UInt64 := setSendBits p30ShortMsg

def p30SetLongSendBits : Int32 → Int32 → Int32 → UInt64 := setSendBits p30LongMsg

def p30IsShort (bits : UInt64) : Bool := bits &&& p30ShortMsg ≠ 0

def FitsContext (x : Int32) : Prop := 0 ≤ x ∧ x < 4096
def FitsRank (x : Int32) : Prop := 0 ≤ x ∧ x < 65536
def FitsTag (x : Int32) : Prop := 0 ≤ x

instance (x : Int32) : Decidable (FitsContext x) := inferInstanceAs (Decidable (_ ∧ _))
instance (x : Int32) : Decidable (FitsRank x) := inferInstanceAs (Decidable (_ ∧ _))
instance (x : Int32) : Decidable (FitsTag x) := inferInstanceAs (Decidable (_ ≤ _))

def bitAt (bits : UInt64) (i : ℕ) : Bool := bits.toBitVec.getLsbD i

@[simp] theorem bitAt_or (a b : UInt64) (i : ℕ) : bitAt (a ||| b) i = (bitAt a i || bitAt b i) := by
  simp [bitAt]

@[simp] theorem bitAt_shift16 (a : UInt64) (i : ℕ) :
    bitAt (a <<< 16) i = (decide (i < 64) && !decide (i < 16) && bitAt a (i - 16)) :=
  getLsbD_shiftLeft a.toBitVec 16

@[simp] theorem bitAt_shift32 (a : UInt64) (i : ℕ) :
    bitAt (a <<< 32) i = (decide (i < 64) && !decide (i < 32) && bitAt a (i - 32)) :=
  getLsbD_shiftLeft a.toBitVec 32

theorem bitAt_protocolMask : ∀ i < 64, bitAt p30ProtocolMask i = decide (60 ≤ i) := by decide
theorem bitAt_contextMask : ∀ i < 64, bitAt p30ContextMask i = decide (48 ≤ i ∧ i < 60) := by decide
theorem bitAt_sourceMask : ∀ i < 64, bitAt p30SourceMask i = decide (32 ≤ i ∧ i < 48) := by decide
theorem bitAt_tagMask : ∀ i < 64, bitAt p30TagMask i = decide (i < 32) := by decide

def FitsIn (k : ℕ) (x : Int32) : Prop := 0 ≤ x.toInt ∧ x.toInt < 2 ^ k

variable {k : ℕ} {x y c s t c' s' t' : Int32} {p : UInt64}

theorem FitsContext.fitsIn (h : FitsContext x) : FitsIn 12 x :=
  ⟨le_iff_toInt_le.mp h.1, lt_iff_toInt_lt.mp h.2⟩

theorem FitsRank.fitsIn (h : FitsRank x) : FitsIn 16 x :=
  ⟨le_iff_toInt_le.mp h.1, lt_iff_toInt_lt.mp h.2⟩

theorem FitsTag.fitsIn (h : FitsTag x) : FitsIn 31 x :=
  ⟨le_iff_toInt_le.mp h, x.toInt_lt⟩

theorem FitsIn.bitAt (h : FitsIn k x) (i : ℕ) : bitAt (bitsOf x) i = x.toInt.toNat.testBit i := by
  have hmsb : x.toBitVec.msb = false := by
    rw [msb_eq_false_iff_two_mul_lt]
    have := h.1
    rw [← toInt_toBitVec, toInt_eq_toNat_cond] at this
    split at this <;> omega
  have hnat : x.toInt.toNat = x.toBitVec.toNat := by
    rw [← toInt_toBitVec, toInt_eq_toNat_of_msb hmsb, Int.toNat_natCast]
  have hbits : (bitsOf x).toBitVec = setWidth 64 x.toBitVec := by
    rw [← signExtend_eq_setWidth_of_msb_false hmsb, ← toBitVec_toInt64]
    rfl
  rw [hnat, Mpi.bitAt, hbits, getLsbD_setWidth, ← testBit_toNat]
  cases hi : x.toBitVec.toNat.testBit i with
  | false => simp
  | true =>
    have := Nat.ge_two_pow_of_testBit hi
    have hlt := x.toBitVec.isLt
    have : i < 64 := by
      by_contra hge
      have : 2 ^ 32 ≤ 2 ^ i := Nat.pow_le_pow_right (by decide) (by omega)
      omega
    simp [this]

theorem FitsIn.bitAt_of_le (h : FitsIn k x) {i : ℕ} (hi : k ≤ i) :
    Mpi.bitAt (bitsOf x) i = false := by
  rw [h.bitAt i]
  apply Nat.testBit_lt_two_pow
  have hpow : (2 : ℕ) ^ k ≤ 2 ^ i := Nat.pow_le_pow_right (by decide) hi
  have hlt : x.toInt.toNat < 2 ^ k := by
    have := h.2
    rw [Int.toNat_lt h.1]
    exact_mod_cast this
  omega

theorem FitsIn.eq_of_bits (hx : FitsIn k x) (hy : FitsIn k y)
    (h : ∀ i < k, Mpi.bitAt (bitsOf x) i = Mpi.bitAt (bitsOf y) i) : x = y := by
  have hnat : x.toInt.toNat = y.toInt.toNat := by
    apply Nat.eq_of_testBit_eq
    intro i
    rw [← hx.bitAt, ← hy.bitAt]
    by_cases hi : i < k
    · exact h i hi
    · rw [hx.bitAt_of_le (by omega), hy.bitAt_of_le (by omega)]
  apply Int32.toInt_inj.mp
  have := hx.1
  have := hy.1
  omega
def IsProtocol (p : UInt64) : Prop := ∀ i < 60, bitAt p i = false

theorem isProtocol_short : IsProtocol p30ShortMsg := by unfold IsProtocol; decide
theorem isProtocol_long : IsProtocol p30LongMsg := by unfold IsProtocol; decide

theorem bitAt_setSendBits (i : ℕ) (hi : i < 64) : bitAt (setSendBits p c s t) i =
    ((decide (48 ≤ i) && bitAt (bitsOf c) (i - 48)) ||
      (decide (32 ≤ i) && bitAt (bitsOf s) (i - 32)) || bitAt (bitsOf t) i || bitAt p i) := by
  simp only [setSendBits, bitAt_or, bitAt_shift32, bitAt_shift16]
  grind

theorem bitAt_recvMatch (i : ℕ) (hi : i < 64) : bitAt (p30SetRecvBits c s t).matchBits i =
    ((decide (48 ≤ i) && bitAt (bitsOf c) (i - 48)) ||
      (decide (s ≠ mpiAnySource ∧ 32 ≤ i) && bitAt (bitsOf s) (i - 32)) ||
      (decide (t ≠ mpiAnyTag) && bitAt (bitsOf t) i)) := by
  by_cases hs : s = mpiAnySource <;> by_cases ht : t = mpiAnyTag <;>
    simp only [p30SetRecvBits, hs, ht, if_true, if_false, bitAt_or, bitAt_shift32,
      bitAt_shift16] <;> grind

theorem bitAt_recvIgnore (i : ℕ) (hi : i < 64) : bitAt (p30SetRecvBits c s t).ignoreBits i =
    decide (60 ≤ i ∨ s = mpiAnySource ∧ 32 ≤ i ∧ i < 48 ∨ t = mpiAnyTag ∧ i < 32) := by
  by_cases hs : s = mpiAnySource <;> by_cases ht : t = mpiAnyTag <;>
    simp [p30SetRecvBits, hs, ht, bitAt_protocolMask i hi, bitAt_sourceMask i hi,
      bitAt_tagMask i hi, Bool.or_assoc]

theorem admits_iff {k : Criteria} {bits : UInt64} : k.admits bits = true ↔
    ∀ i < 64, bitAt k.ignoreBits i = false → bitAt bits i = bitAt k.matchBits i := by
  rw [Criteria.admits, beq_iff_eq]
  exact Portals.and_compl_eq_iff bits k.matchBits k.ignoreBits

theorem admits_bitwise : (p30SetRecvBits c s t).admits (setSendBits p c' s' t') = true ↔ ∀ i < 64,
      ¬(60 ≤ i ∨ s = mpiAnySource ∧ 32 ≤ i ∧ i < 48 ∨ t = mpiAnyTag ∧ i < 32) →
      ((decide (48 ≤ i) && bitAt (bitsOf c') (i - 48)) ||
        (decide (32 ≤ i) && bitAt (bitsOf s') (i - 32)) || bitAt (bitsOf t') i || bitAt p i) =
      ((decide (48 ≤ i) && bitAt (bitsOf c) (i - 48)) ||
        (decide (s ≠ mpiAnySource ∧ 32 ≤ i) && bitAt (bitsOf s) (i - 32)) ||
        (decide (t ≠ mpiAnyTag) && bitAt (bitsOf t) i)) := by
  rw [admits_iff]
  apply forall₂_congr
  intro i hi
  rw [bitAt_recvIgnore i hi, bitAt_setSendBits i hi, bitAt_recvMatch i hi,
    decide_eq_false_iff_not]

theorem admits_setSendBits (hp : IsProtocol p) (hc : FitsContext c) (hc' : FitsContext c')
    (hs : s = mpiAnySource ∨ FitsRank s) (hs' : FitsRank s') (ht : t = mpiAnyTag ∨ FitsTag t)
    (ht' : FitsTag t') : (p30SetRecvBits c s t).admits (setSendBits p c' s' t') = true ↔
      c' = c ∧ (s = mpiAnySource ∨ s' = s) ∧ (t = mpiAnyTag ∨ t' = t) := by
  have hp0 (i : ℕ) (hi : i < 60) : bitAt p i = false := hp i hi
  have hs0 (i : ℕ) (hi : 16 ≤ i) (hany : s ≠ mpiAnySource) :=
    (hs.resolve_left hany).fitsIn.bitAt_of_le hi
  have hs0' (i : ℕ) (hi : 16 ≤ i) := hs'.fitsIn.bitAt_of_le hi
  have ht0 (i : ℕ) (hi : 31 ≤ i) (hany : t ≠ mpiAnyTag) :=
    (ht.resolve_left hany).fitsIn.bitAt_of_le hi
  have ht0' (i : ℕ) (hi : 31 ≤ i) := ht'.fitsIn.bitAt_of_le hi
  rw [admits_bitwise]
  constructor
  · intro h
    refine ⟨?_, ?_, ?_⟩
    · apply hc'.fitsIn.eq_of_bits hc.fitsIn
      intro i hi
      have := h (48 + i)
      grind
    · rw [or_iff_not_imp_left]
      intro hany
      apply hs'.fitsIn.eq_of_bits (hs.resolve_left hany).fitsIn
      intro i hi
      have := h (32 + i)
      grind
    · rw [or_iff_not_imp_left]
      intro hany
      apply ht'.fitsIn.eq_of_bits (ht.resolve_left hany).fitsIn
      intro i hi
      grind
  · rintro ⟨rfl, hsrc, htag⟩ i hi hign
    grind

theorem admits_of_protocol (hc : FitsContext c) (hs : FitsRank s) (ht : FitsTag t) :
    Criteria.admits ⟨p, p30ContextMask ||| p30SourceMask ||| p30TagMask⟩
      (setSendBits p c s t) = true := by
  have hc0 (i : ℕ) (hi : 12 ≤ i) := hc.fitsIn.bitAt_of_le hi
  have hs0 (i : ℕ) (hi : 16 ≤ i) := hs.fitsIn.bitAt_of_le hi
  have ht0 (i : ℕ) (hi : 31 ≤ i) := ht.fitsIn.bitAt_of_le hi
  rw [admits_iff]
  intro i hi hign
  simp only [bitAt_or, bitAt_contextMask i hi, bitAt_sourceMask i hi, bitAt_tagMask i hi] at hign
  rw [bitAt_setSendBits i hi]
  grind

end Cplant.Mpi
