import Cplant.Foundations.FirstFit
import Cplant.Portals.Objects

/-!
# Finding the memory descriptor of a request

`lib_find_md` walks the match list of a portal. The two loops of the source, with
the four jumps back to `next_me`, are `scanMes` and `scanMds`: the inner scan
answers `none` where the source jumps. The comparison `offset + rlength <=
md->length` is the one of the source, on 32-bit integers.
-/
namespace Cplant.Portals
open List Option Int32

inductive PtlOp
  | put
  | get
deriving DecidableEq, Repr

structure MdRequest where
  src : PtlSrc
  index : PtlPtIndex
  op : PtlOp
  rlength : PtlSize
  roffset : PtlSize
  matchBits : PtlMatchBits
deriving DecidableEq, Repr

structure MdFound where
  md : ℕ
  length : PtlSize
  offset : PtlSize
deriving DecidableEq, Repr

def PtlOp.flag : PtlOp → UInt32
  | .put => ptlMdOpPut
  | .get => ptlMdOpGet

def meAccepts (me : LibMe) (req : MdRequest) : Bool :=
  let mid := me.matchId
  let src := req.src
  if (mid.addrKind = .gid ∨ mid.addrKind = .both) ∧
      ((src.gid ≠ mid.gid ∧ mid.gid ≠ ptlIdAny) ∨ (src.rid ≠ mid.rid ∧ mid.rid ≠ ptlIdAny)) then
    false
  else if (mid.addrKind = .nid ∨ mid.addrKind = .both) ∧
      ((src.nid ≠ mid.nid ∧ mid.nid ≠ ptlIdAny) ∨ (src.pid ≠ mid.pid ∧ mid.pid ≠ ptlIdAny)) then
    false
  else
    me.matchBits &&& ~~~me.ignoreBits == req.matchBits &&& ~~~me.ignoreBits

def managedRemote (md : LibMd) : Bool := hasOption md.options ptlMdManageRemote

def effectiveOffset (md : LibMd) (req : MdRequest) : PtlSize :=
  if managedRemote md then req.roffset else md.offset

def truncates (md : LibMd) (offset : PtlSize) : Bool :=
  hasOption md.options ptlMdTruncate && offset ≤ md.length

def grantedLength (md : LibMd) (req : MdRequest) (offset : PtlSize) : PtlSize :=
  if truncates md offset then
    if md.length - offset < req.rlength then md.length - offset else req.rlength
  else req.rlength

def tryMd (md : LibMd) (i : ℕ) (req : MdRequest) : Option MdFound :=
  if !managedRemote md && md.maxOffset < md.offset then none
  else
    let offset := effectiveOffset md req
    if truncates md offset || offset + req.rlength ≤ md.length then
      some ⟨i, grantedLength md req offset, offset⟩
    else none

def scanMds (ni : LibNi) (req : MdRequest) : ℕ → Option ℕ → Option MdFound
  | _, none => none
  | 0, some _ => none
  | fuel + 1, some i =>
    if !hasOption (ni.md i).options req.op.flag then none
    else if (ni.md i).threshold = 0 then none
    else if ¬ ni.mdPool.InUse i then scanMds ni req fuel (ni.mdLinks.next i)
    else tryMd (ni.md i) i req

def scanMes (ni : LibNi) (req : MdRequest) : ℕ → Option ℕ → Option MdFound
  | _, none => none
  | 0, some _ => none
  | fuel + 1, some m =>
    if ¬ ni.mePool.InUse m then scanMes ni req fuel (ni.meLinks.next m)
    else if !meAccepts (ni.me m) req then scanMes ni req fuel (ni.meLinks.next m)
    else
      match scanMds ni req maxMds (ni.mdLinks.head m) with
      | none => scanMes ni req fuel (ni.meLinks.next m)
      | some found => some found

def LibNi.charge (ni : LibNi) (found : MdFound) : LibNi :=
  ni.setMd found.md { ni.md found.md with offset := (ni.md found.md).offset + found.length }

def libFindMd (ni : LibNi) (req : MdRequest) : Option (Option (MdFound × LibNi)) :=
  if req.index < 0 ∨ ni.tblSize < req.index then some none
  else if req.index = ni.tblSize then none
  else some ((scanMes ni req maxMes (ni.meLinks.head req.index)).map fun found =>
    (found, ni.charge found))

/-- Each identity pair counts when the address kind includes it; `PTL_ID_ANY` is wild. -/
def AcceptsSource (mid : PtlProcessId) (src : PtlSrc) : Prop :=
  (mid.addrKind ≠ .nid → (mid.gid = ptlIdAny ∨ src.gid = mid.gid) ∧
    (mid.rid = ptlIdAny ∨ src.rid = mid.rid)) ∧
  (mid.addrKind ≠ .gid → (mid.nid = ptlIdAny ∨ src.nid = mid.nid) ∧
    (mid.pid = ptlIdAny ∨ src.pid = mid.pid))

instance (mid : PtlProcessId) (src : PtlSrc) : Decidable (AcceptsSource mid src) :=
  inferInstanceAs (Decidable (_ ∧ _))

def BitsMatch (me : LibMe) (bits : PtlMatchBits) : Prop :=
  ∀ b < 64, me.ignoreBits.toBitVec.getLsbD b = false →
    me.matchBits.toBitVec.getLsbD b = bits.toBitVec.getLsbD b

instance (me : LibMe) (bits : PtlMatchBits) : Decidable (BitsMatch me bits) :=
  inferInstanceAs (Decidable (∀ b < 64, _))

structure Eligible (me : LibMe) (md : LibMd) (req : MdRequest) : Prop where
  source : AcceptsSource me.matchId req.src
  bits : BitsMatch me req.matchBits
  enabled : hasOption md.options req.op.flag = true
  active : md.threshold ≠ 0
  below : managedRemote md = false → md.offset.toInt ≤ md.maxOffset.toInt

instance (me : LibMe) (md : LibMd) (req : MdRequest) : Decidable (Eligible me md req) :=
  decidable_of_iff
    (AcceptsSource me.matchId req.src ∧ BitsMatch me req.matchBits ∧
      hasOption md.options req.op.flag = true ∧ md.threshold ≠ 0 ∧
      (managedRemote md = false → md.offset.toInt ≤ md.maxOffset.toInt))
    ⟨fun ⟨h₁, h₂, h₃, h₄, h₅⟩ => ⟨h₁, h₂, h₃, h₄, h₅⟩,
      fun ⟨h₁, h₂, h₃, h₄, h₅⟩ => ⟨h₁, h₂, h₃, h₄, h₅⟩⟩

def HasRoom (md : LibMd) (req : MdRequest) : Prop :=
  (effectiveOffset md req).toInt + req.rlength.toInt ≤ md.length.toInt ∨
    (hasOption md.options ptlMdTruncate = true ∧
      (effectiveOffset md req).toInt ≤ md.length.toInt)

instance (md : LibMd) (req : MdRequest) : Decidable (HasRoom md req) :=
  inferInstanceAs (Decidable (_ ∨ _))

def firstMdFit (ni : LibNi) (req : MdRequest) (m : ℕ) : Option MdFound :=
  (ni.mdLinks.head m).bind fun i =>
    if Eligible (ni.me m) (ni.md i) req ∧ HasRoom (ni.md i) req then
      some ⟨i, grantedLength (ni.md i) req (effectiveOffset (ni.md i) req),
        effectiveOffset (ni.md i) req⟩
    else none

/-- The match list of a portal is a finite list of different entries in use, and
no two of them share their first descriptor, which is in use as well. -/
structure MatchList (ni : LibNi) (index : PtlPtIndex) (ids : List ℕ) : Prop where
  walk : ni.meLinks.Walk (ni.meLinks.head index) ids
  nodup : ids.Nodup
  lt : ∀ m ∈ ids, m < maxMes
  inUse : ∀ m ∈ ids, ni.mePool.InUse m
  firstInUse : ∀ m ∈ ids, ∀ i, ni.mdLinks.head m = some i → ni.mdPool.InUse i
  firstInj : ∀ m ∈ ids, ∀ m' ∈ ids, ∀ i, ni.mdLinks.head m = some i →
    ni.mdLinks.head m' = some i → m = m'

theorem and_compl_eq_iff (a b c : UInt64) : a &&& ~~~c = b &&& ~~~c ↔
      ∀ i < 64, c.toBitVec.getLsbD i = false → a.toBitVec.getLsbD i = b.toBitVec.getLsbD i := by
  rw [← UInt64.toBitVec_inj]
  constructor
  · intro h i hi hc
    have hbit := congrArg (fun v : BitVec 64 => v.getLsbD i) h
    simpa only [UInt64.toBitVec_and, UInt64.toBitVec_not, BitVec.getLsbD_and, BitVec.getLsbD_not,
      hi, hc, decide_true, Bool.not_false, Bool.and_true] using hbit
  · intro h
    apply BitVec.eq_of_getLsbD_eq
    intro i hi
    simp only [UInt64.toBitVec_and, UInt64.toBitVec_not, BitVec.getLsbD_and, BitVec.getLsbD_not]
    cases hc : c.toBitVec.getLsbD i with
    | false => rw [h i hi hc]
    | true => simp

theorem meAccepts_iff (me : LibMe) (req : MdRequest) :
    meAccepts me req = true ↔ AcceptsSource me.matchId req.src ∧ BitsMatch me req.matchBits := by
  have hbits := and_compl_eq_iff me.matchBits req.matchBits me.ignoreBits
  unfold meAccepts AcceptsSource BitsMatch
  cases hk : me.matchId.addrKind <;> simp [hk] <;> tauto

variable {req : MdRequest} {ni : LibNi} {m : ℕ} {ids : List ℕ} {found : MdFound}

theorem tryMd_eq {me : LibMe} {md : LibMd} {i : ℕ} (hacc : meAccepts me req = true)
    (hop : hasOption md.options req.op.flag = true) (hthr : md.threshold ≠ 0) : tryMd md i req =
      if Eligible me md req ∧ (truncates md (effectiveOffset md req) = true ∨
          effectiveOffset md req + req.rlength ≤ md.length) then
        some ⟨i, grantedLength md req (effectiveOffset md req), effectiveOffset md req⟩
      else none := by
  obtain ⟨hsrc, hbits⟩ := (meAccepts_iff me req).mp hacc
  have helig : Eligible me md req ↔ (!managedRemote md && md.maxOffset < md.offset) = false := by
    constructor
    · intro h
      by_cases hr : managedRemote md = true
      · simp [hr]
      · have := h.below (by simpa using hr)
        simp [lt_iff_toInt_lt, hr, this]
    · intro h
      refine ⟨hsrc, hbits, hop, hthr, fun hr => ?_⟩
      simpa [hr, lt_iff_toInt_lt] using h
  unfold tryMd
  simp only [helig]
  cases hb : (!managedRemote md && md.maxOffset < md.offset) <;> simp

def codedMdFit (ni : LibNi) (req : MdRequest) (m : ℕ) : Option MdFound :=
  if meAccepts (ni.me m) req then scanMds ni req maxMds (ni.mdLinks.head m) else none

theorem codedMdFit_eq (hfirst : ∀ i, ni.mdLinks.head m = some i → ni.mdPool.InUse i) :
    codedMdFit ni req m = (ni.mdLinks.head m).bind fun i => let md := ni.md i
      let offset := effectiveOffset md req
      if Eligible (ni.me m) md req ∧
          (truncates md offset = true ∨ offset + req.rlength ≤ md.length) then
        some ⟨i, grantedLength md req offset, offset⟩
      else none := by
  unfold codedMdFit
  cases hm : ni.mdLinks.head m with
  | none => simp [scanMds]
  | some i =>
    have hu := hfirst i hm
    by_cases hacc : meAccepts (ni.me m) req = true
    case neg =>
      have hne : ¬ Eligible (ni.me m) (ni.md i) req :=
        fun h => hacc ((meAccepts_iff _ _).mpr ⟨h.source, h.bits⟩)
      simp [hacc, hne]
    case pos =>
      by_cases hop : hasOption (ni.md i).options req.op.flag = true
      case neg =>
        have hne : ¬ Eligible (ni.me m) (ni.md i) req := fun h => hop h.enabled
        simp [hacc, scanMds, maxMds, hop, hne]
      case pos =>
        by_cases hthr : (ni.md i).threshold = 0
        case pos =>
          have hne : ¬ Eligible (ni.me m) (ni.md i) req := fun h => h.active hthr
          simp [hacc, scanMds, maxMds, hop, hthr, hne]
        case neg =>
          simp [hacc, scanMds, maxMds, hop, hthr, hu, tryMd_eq hacc hop hthr]

theorem scanMes_eq (hu : ∀ m ∈ ids, ni.mePool.InUse m) :
    ∀ {fuel : ℕ} {o : Option ℕ}, ni.meLinks.Walk o ids → ids.length ≤ fuel →
      scanMes ni req fuel o = ids.findSome? (codedMdFit ni req) := by
  induction ids with
  | nil =>
    intro fuel o hw _
    have ho : o = none := hw
    simp [ho, scanMes]
  | cons m ids ih =>
    intro fuel o hw hlen
    obtain ⟨rfl, hw⟩ := hw
    cases fuel with
    | zero => simp at hlen
    | succ fuel =>
      have hrest := ih (fun k hk => hu k (mem_cons_of_mem m hk)) hw (by simpa using hlen)
      have hm := hu m mem_cons_self
      simp only [scanMes, hm, not_true_eq_false, if_false, findSome?_cons, codedMdFit, hrest]
      cases meAccepts (ni.me m) req with
      | false => simp
      | true => cases scanMds ni req maxMds (ni.mdLinks.head m) <;> simp

theorem MatchList.length_le {index : PtlPtIndex} (h : MatchList ni index ids) :
    ids.length ≤ maxMes := by
  have hsub : ids ⊆ range maxMes := fun m hm => mem_range.mpr (h.lt m hm)
  simpa using (subperm_of_subset h.nodup hsub).length_le

theorem hasRoom_iff (md : LibMd) (req : MdRequest) :
    HasRoom md req ↔ truncates md (effectiveOffset md req) = true ∨
      (effectiveOffset md req).toInt + req.rlength.toInt ≤ md.length.toInt := by
  simp [HasRoom, truncates, le_iff_toInt_le, or_comm]

/-- For a match entry that passes every other test and does not truncate, the
32-bit sum `offset + rlength` compares with the length as the exact sum does. -/
def SumAgrees (ni : LibNi) (req : MdRequest) (m : ℕ) : Prop :=
  ∀ i, ni.mdLinks.head m = some i → Eligible (ni.me m) (ni.md i) req →
    truncates (ni.md i) (effectiveOffset (ni.md i) req) = false →
    (effectiveOffset (ni.md i) req + req.rlength ≤ (ni.md i).length ↔
      (effectiveOffset (ni.md i) req).toInt + req.rlength.toInt ≤ (ni.md i).length.toInt)

section
variable (hfirst : ∀ i, ni.mdLinks.head m = some i → ni.mdPool.InUse i)
include hfirst

theorem codedMdFit_eq_iff : codedMdFit ni req m = firstMdFit ni req m ↔ SumAgrees ni req m := by
  rw [codedMdFit_eq hfirst, firstMdFit, SumAgrees]
  cases ni.mdLinks.head m with
  | none => simp
  | some i =>
    simp only [bind_some, hasRoom_iff, some.injEq, forall_eq']
    by_cases he : Eligible (ni.me m) (ni.md i) req
    case neg => simp [he]
    case pos =>
      cases ht : truncates (ni.md i) (effectiveOffset (ni.md i) req) with
      | true => simp [he]
      | false =>
        simp only [he, true_and, Bool.false_eq_true, false_or, forall_const]
        by_cases hc : effectiveOffset (ni.md i) req + req.rlength ≤ (ni.md i).length <;>
        by_cases hz : (effectiveOffset (ni.md i) req).toInt + req.rlength.toInt ≤
          (ni.md i).length.toInt <;>
        simp [hc, hz]

theorem codedMdFit_md (h : codedMdFit ni req m = some found) :
    ni.mdLinks.head m = some found.md := by
  rw [codedMdFit_eq hfirst] at h
  obtain ⟨i, hi, h⟩ := bind_eq_some_iff.mp h
  simp only [ite_none_right_eq_some, some.injEq] at h
  rw [hi, ← h.2]

end

theorem firstMdFit_md (h : firstMdFit ni req m = some found) :
    ni.mdLinks.head m = some found.md := by
  obtain ⟨i, hi, h⟩ := bind_eq_some_iff.mp h
  simp only [ite_none_right_eq_some, some.injEq] at h
  rw [hi, ← h.2]

/-- The search returns the first descriptor of the first qualifying entry, or `NULL`, and charges
the granted length to it, just if no 32-bit overflow misleads the room test on the way. -/
theorem libFindMd_firstFit_iff (ni : LibNi) (req : MdRequest) (ids : List ℕ)
    (hlist : MatchList ni req.index ids) (h0 : 0 ≤ req.index) (hsize : req.index < ni.tblSize) :
    libFindMd ni req =
        some ((ids.findSome? (firstMdFit ni req)).map fun found => (found, ni.charge found)) ↔
      ∀ m ∈ examined (firstMdFit ni req) ids, SumAgrees ni req m := by
  have hfirst : ∀ m ∈ examined (firstMdFit ni req) ids, ∀ i, ni.mdLinks.head m = some i →
      ni.mdPool.InUse i := fun m hm => hlist.firstInUse m (mem_of_mem_examined hm)
  have hscan : libFindMd ni req =
      some ((ids.findSome? (codedMdFit ni req)).map fun found => (found, ni.charge found)) := by
    rw [← scanMes_eq hlist.inUse hlist.walk hlist.length_le]
    have h1 : ¬ (req.index < 0 ∨ ni.tblSize < req.index) := by
      rw [le_iff_toInt_le] at h0
      rw [lt_iff_toInt_lt] at hsize
      simp only [lt_iff_toInt_lt]
      omega
    have h2 : req.index ≠ ni.tblSize := by
      rintro h
      rw [h, lt_iff_toInt_lt] at hsize
      omega
    rw [libFindMd, if_neg h1, if_neg h2]
  have hinj : ∀ a ∈ ids, ∀ b ∈ ids, ∀ x, codedMdFit ni req a = some x →
      firstMdFit ni req b = some x → a = b := by
    intro a ha b hb x hfa hgb
    exact hlist.firstInj a ha b hb x.md (codedMdFit_md (hlist.firstInUse a ha) hfa)
      (firstMdFit_md hgb)
  have hcongr : ∀ o o' : Option MdFound, (o.map fun found => (found, ni.charge found)) =
        (o'.map fun found => (found, ni.charge found)) ↔ o = o' := by
    intro o o'
    cases o <;> cases o' <;> simp
    rintro rfl; rfl
  rw [hscan, some.injEq, hcongr, findSome?_eq_iff hlist.nodup hinj]
  constructor
  · intro h m hm
    exact (codedMdFit_eq_iff (hfirst m hm)).mp (h m hm)
  · intro h m hm
    exact (codedMdFit_eq_iff (hfirst m hm)).mpr (h m hm)

def singleEntry (me : LibMe) (md : LibMd) : LibNi where
  up := true
  nid := 1
  pid := 1
  rid := 0
  gid := 0
  numNodes := 1
  tblSize := 1
  eqPool := ⟨fun _ => .endMark, .endMark⟩
  mePool := ⟨fun i => if i = 0 then .null else .endMark, .obj 1⟩
  mdPool := ⟨fun i => if i = 0 then .null else .endMark, .obj 1⟩
  msgPool := ⟨fun _ => .endMark, .obj 0⟩
  meLinks := ⟨fun k => if k = 0 then some 0 else none, fun _ => none, fun _ => some (.head 0)⟩
  mdLinks := ⟨fun m => if m = 0 then some 0 else none, fun _ => none, fun _ => some (.head 0)⟩
  eq := fun _ => ⟨1, 0, 0, 0⟩
  me := fun _ => me
  md := fun _ => md
  msg := fun _ => ⟨none, 0, 0, 0, 0, ⟨.put, 0, ⟨.both, 0, 0, 0, 0⟩, 0, 0, 0, 0, 0,
    libMdDeconstruct md, 0⟩, -1⟩
  counters := ⟨0, 0, 0, 0, 0, 0, 0, 0⟩

def remoteMd : LibMd where
  me := some 0
  start := 0
  offset := 0
  length := 10
  threshold := ptlMdThreshInf
  maxOffset := 10
  pending := 0
  unlink := .retain
  options := ptlMdOpPut ||| ptlMdManageRemote
  userPtr := 0
  eq := none
  doUnlink := false
  addrkey := 0

def anySource : PtlProcessId := ⟨.both, ptlIdAny, ptlIdAny, ptlIdAny, ptlIdAny⟩

def putAt (rlength roffset : PtlSize) : MdRequest :=
  ⟨⟨2, 2, 0, 1⟩, 0, .put, rlength, roffset, 7⟩

/-- The first entry wants other match bits than the second. -/
def twoEntries : LibNi :=
  { singleEntry ⟨anySource, 7, 0, .retain⟩ remoteMd with
    mePool := ⟨fun i => if i < 2 then .null else .endMark, .obj 2⟩
    mdPool := ⟨fun i => if i < 2 then .null else .endMark, .obj 2⟩
    meLinks := ⟨fun _ => some 0, fun m => if m = 0 then some 1 else none,
      fun m => if m = 0 then some (.head 0) else some (.node 0)⟩
    mdLinks := ⟨some, fun _ => none, fun d => some (.head d)⟩
    me := fun m => ⟨anySource, if m = 0 then 5 else 7, 0, .retain⟩ }

theorem libFindMd_firstFit_second : MatchList twoEntries 0 [0, 1] ∧
    firstMdFit twoEntries (putAt 4 6) 0 = none ∧
    firstMdFit twoEntries (putAt 4 6) 1 = some ⟨1, 4, 6⟩ ∧
    ∀ m ∈ examined (firstMdFit twoEntries (putAt 4 6)) [0, 1],
      SumAgrees twoEntries (putAt 4 6) m := by
  have hlist : MatchList twoEntries 0 [0, 1] := by
    constructor <;> simp [twoEntries, FreeList.InUse, Links.Walk, maxMes]
  exact ⟨hlist, by decide, by decide,
    (libFindMd_firstFit_iff _ (putAt 4 6) [0, 1] hlist (by decide) (by decide)).mp rfl⟩

theorem libFindMd_overflow :
    (libFindMd (singleEntry ⟨anySource, 7, 0, .retain⟩ remoteMd) (putAt 1 2147483647)).map
        (Option.map Prod.fst) = some (some ⟨0, 1, 2147483647⟩) ∧
      [0].findSome? (firstMdFit (singleEntry ⟨anySource, 7, 0, .retain⟩ remoteMd)
        (putAt 1 2147483647)) = none := by
  decide

end Cplant.Portals
