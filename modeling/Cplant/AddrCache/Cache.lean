import Mathlib.Data.Fin.VecNotation
import Mathlib.Data.Int.Interval

/-!
# The address cache

The kernel copies to and from the memory of a user process through tables of translated page
addresses. A table belongs to one of three subcaches, which differ in the size of the regions
they hold. The tables of a subcache that are not in use form its free list, those of a process
form a list of the process.
-/
namespace Cplant.AddrCache
open Function

inductive Arch
  | i386
  | alpha
  | ia64
deriving DecidableEq, Repr

abbrev CacheId := Fin 3

namespace Arch

def pageSize : Arch → ℕ
  | i386 => 4096
  | alpha => 8192
  | ia64 => 16384

def longBits : Arch → ℕ
  | i386 => 32
  | alpha => 64
  | ia64 => 64

def tblSz : Arch → CacheId → ℕ
  | _, 0 => 2
  | i386, 1 => 32
  | i386, 2 => 1024
  | alpha, 1 => 16
  | alpha, 2 => 512
  | ia64, 1 => 8
  | ia64, 2 => 256

def regSz (a : Arch) : CacheId → ℤ
  | 0 => a.pageSize
  | 1 => 120 * 1024
  | 2 => 4088 * 1024

end Arch

def numReg : CacheId → ℕ
  | 0 => 4096
  | 1 => 1024
  | 2 => 256

inductive Strategy
  | tblLookup
  | tblRedo
deriving DecidableEq, Repr

def strategy : CacheId → Strategy
  | 0 => .tblRedo
  | 1 => .tblRedo
  | 2 => .tblLookup

structure AddrTbl where
  start : ℕ
  length : ℤ
  chunk0 : ℕ
  valid : Bool
  slot : ℕ
  next : Option ℕ
  prev : Option ℕ
deriving DecidableEq, Repr

/-- An index of `taskTbl`, which has `NUM_PTL_TASKS` entries. The code does not compare a `ppid`
with this bound, and for a larger one there is no result here. -/
abbrev TaskId := Fin 180

/-- `addr_cache_t`: the tables, the free list (`addr_tbl`) and the lists of the processes. -/
structure Subcache where
  tbl : ℕ → AddrTbl
  addrTbl : Option ℕ
  freeTables : ℤ
  taskTbl : TaskId → Option ℕ

abbrev AddrKey := CacheId × ℕ

structure Caches where
  sub : CacheId → Subcache
  addrSlot : ℕ → ℕ

/-- The page table of a process: the pages that are present and where their frames are, never at
address 0, which `calcPhysAddress` returns for an absent page. -/
structure Mapping (a : Arch) where
  frame : ℕ → Option ℕ
  aligned : ∀ p b, frame p = some b → a.pageSize ∣ b
  ne_zero : ∀ p b, frame p = some b → b ≠ 0

namespace Subcache

def setTbl (s : Subcache) (t : ℕ) (f : AddrTbl → AddrTbl) : Subcache :=
  { s with tbl := update s.tbl t (f (s.tbl t)) }

/-- `addrCache_tblUnlink`: the table it takes, if any. It is undefined if the free list is empty
but `freeTables` is not 0. -/
def tblUnlink (s : Subcache) : Option (Option ℕ × Subcache) :=
  if s.freeTables ≤ 0 then some (none, s)
  else match s.addrTbl with
    | none => none
    | some t => some (some t,
        { s.setTbl t fun x => { x with next := none } with
          addrTbl := (s.tbl t).next
          freeTables := s.freeTables - 1 })

/-- A new table of a process goes to the front of its list. Only `TBL_REDO` sets the link back
to it. -/
def pushTask (s : Subcache) (redo : Bool) (ppid : TaskId) (t : ℕ) : Subcache :=
  let s₁ := s.setTbl t fun x => { x with next := s.taskTbl ppid }
  let s₂ := match s.taskTbl ppid with
    | some n => if redo then s₁.setTbl n fun x => { x with prev := some t } else s₁
    | none => s₁
  { s₂ with taskTbl := update s₂.taskTbl ppid (some t) }

def lookup (s : Subcache) (vaddr : ℕ) : ℕ → Option ℕ → Option (Option ℕ)
  | _, none => some none
  | 0, some _ => none
  | fuel + 1, some t =>
    if (s.tbl t).start = vaddr then some (some t)
    else s.lookup vaddr fuel (s.tbl t).next

def bridgeBack (s : Subcache) (t : ℕ) : Subcache :=
  match (s.tbl t).next with
  | some n => s.setTbl n fun x => { x with prev := (s.tbl t).prev }
  | none => s

def takeOff (s : Subcache) (ppid : TaskId) (t : ℕ) : Subcache :=
  let s₁ := s.bridgeBack t
  match (s₁.tbl t).prev with
  | some p => (s₁.setTbl p fun x => { x with next := (s₁.tbl t).next }).setTbl t fun x =>
      { x with prev := none }
  | none => { s₁ with taskTbl := update s₁.taskTbl ppid (s₁.tbl t).next }

def putBack (s : Subcache) (t : ℕ) : Subcache :=
  { s.setTbl t fun x => { x with next := s.addrTbl } with
    addrTbl := some t
    freeTables := s.freeTables + 1 }

def clearTables (s : Subcache) : ℕ → Option ℕ → Option Subcache
  | _, none => some s
  | 0, some _ => none
  | fuel + 1, some t =>
    ((s.putBack t).setTbl t fun x => { x with start := 0, length := 0 }).clearTables fuel
      (s.tbl t).next

def invalidateTables (s : Subcache) : ℕ → Option ℕ → Option Subcache
  | _, none => some s
  | 0, some _ => none
  | fuel + 1, some t =>
    (s.setTbl t fun x => { x with valid := false }).invalidateTables fuel (s.tbl t).next

inductive Choice
  | refuse
  | keep (t : ℕ)
  | fill (t : ℕ) (s : Subcache)

def newTable (s : Subcache) (redo : Bool) (ppid : TaskId) : Option Choice :=
  match s.tblUnlink with
  | none => none
  | some (none, _) => some .refuse
  | some (some t, s₁) => some (.fill t (s₁.pushTask redo ppid t))

def chooseTable (s : Subcache) (j : CacheId) (vaddr : ℕ) (nbytes : ℤ) (ppid : TaskId) :
    Option Choice :=
  match strategy j with
  | .tblRedo => s.newTable true ppid
  | .tblLookup =>
    match s.lookup vaddr (numReg j) (s.taskTbl ppid) with
    | none => none
    | some (some t) =>
      if (s.tbl t).length ≥ nbytes ∧ (s.tbl t).valid = true then some (.keep t)
      else some (.fill t s)
    | some none => s.newTable false ppid

end Subcache

variable {a : Arch}

def toInt32 (n : ℤ) : ℤ := n.bmod (2 ^ 32)

/-- `calcPhysAddress`. Addresses wrap around at the end of the address space. -/
def calcPhysAddress (m : Mapping a) (virtAddr : ℕ) : Option ℕ :=
  (m.frame (virtAddr / a.pageSize % (2 ^ a.longBits / a.pageSize))).map fun base =>
    base + virtAddr % a.pageSize

def firstChunk (a : Arch) (physAddr nb : ℕ) : ℕ :=
  if physAddr % a.pageSize ≠ 0 then
    if nb < a.pageSize - physAddr % a.pageSize then nb
    else a.pageSize - physAddr % a.pageSize
  else if nb ≥ a.pageSize then a.pageSize
  else nb

def fillRest (m : Mapping a) : ℕ → ℕ → ℕ → List ℕ × Bool
  | 0, _, _ => ([], true)
  | fuel + 1, vaddr, nb =>
    if nb = 0 then ([], true)
    else match calcPhysAddress m vaddr with
      | none => ([], false)
      | some phys =>
        let chunk := if nb ≥ a.pageSize then a.pageSize else nb
        let next := fillRest m fuel (vaddr + chunk) (nb - chunk)
        (phys :: next.1, next.2)

def writeSlots (addrSlot : ℕ → ℕ) (slot : ℕ) (vals : List ℕ) : ℕ → ℕ := fun i =>
  if slot ≤ i then (vals[i - slot]?).getD (addrSlot i) else addrSlot i

namespace Caches
variable {a : Arch}

def table (c : Caches) (k : AddrKey) : AddrTbl := (c.sub k.1).tbl k.2

def setSub (c : Caches) (j : CacheId) (s : Subcache) : Caches :=
  { c with sub := update c.sub j s }

def setTable (c : Caches) (k : AddrKey) (f : AddrTbl → AddrTbl) : Caches :=
  c.setSub k.1 ((c.sub k.1).setTbl k.2 f)

def fillTable (c : Caches) (m : Mapping a) (k : AddrKey) (vaddr : ℕ) (nbytes : ℤ) :
    Caches × Bool × List ℕ :=
  match calcPhysAddress m vaddr with
  | none => (c.setTable k fun x => { x with start := vaddr, length := 0 }, false, [])
  | some phys =>
    let nb := (nbytes % 2 ^ 32).toNat
    let chunk := firstChunk a phys nb
    let rest := fillRest m nb (vaddr + chunk) (nb - chunk)
    let vals := phys :: rest.1
    let c₁ := { c with addrSlot := writeSlots c.addrSlot (c.table k).slot vals }
    if rest.2 then
      (c₁.setTable k fun x =>
        { x with start := vaddr, length := nbytes, chunk0 := chunk, valid := true }, true, vals)
    else
      (c₁.setTable k fun x => { x with start := vaddr, length := 0, chunk0 := chunk }, false, vals)

/-- What `addrCache_populate` does: the key, whether it succeeds, and the table that it filled
with what it wrote there. -/
structure Populated where
  caches : Caches
  ok : Bool
  addrKey : Option AddrKey
  filled : Option (AddrKey × List ℕ)

def cacheFor (a : Arch) (nbytes : ℤ) : CacheId :=
  if nbytes ≤ a.regSz 0 then 0 else if nbytes ≤ a.regSz 1 then 1 else 2

def populate (c : Caches) (m : Mapping a) (vaddr : ℕ) (nbytes : ℤ) (ppid : TaskId) :
    Option Populated :=
  if vaddr = 0 ∨ nbytes = 0 then some ⟨c, true, none, none⟩
  else
    let j := cacheFor a nbytes
    match (c.sub j).chooseTable j vaddr nbytes ppid with
    | none => none
    | some .refuse => some ⟨c, false, none, none⟩
    | some (.keep t) => some ⟨c, true, some (j, t), none⟩
    | some (.fill t s) =>
      let res := (c.setSub j s).fillTable m (j, t) vaddr nbytes
      some ⟨res.1, res.2.1, if res.2.1 then some (j, t) else none, some ((j, t), res.2.2)⟩

def revalidate (c : Caches) (m : Mapping a) (k : AddrKey) (vaddr : ℕ) (nbytes : ℤ) :
    Caches × Bool × List ℕ :=
  if vaddr = 0 ∨ nbytes = 0 then (c.setTable k fun x => { x with valid := true }, true, [])
  else c.fillTable m k vaddr nbytes

def tblLink (c : Caches) (key : Option AddrKey) (ppid : TaskId) : Caches :=
  match key with
  | none => c
  | some (j, t) =>
    match strategy j with
    | .tblLookup => c
    | .tblRedo => c.setSub j (((c.sub j).takeOff ppid t).putBack t)

def tblInit (c : Caches) (ppid : TaskId) : Caches :=
  { c with sub := fun j => { c.sub j with
      taskTbl := update (c.sub j).taskTbl ppid none } }

def tblClearSub (s : Subcache) (j : CacheId) (ppid : TaskId) : Option Subcache :=
  (s.clearTables (numReg j) (s.taskTbl ppid)).map fun s' =>
    { s' with taskTbl := update s'.taskTbl ppid none }

def eachSub (c : Caches) (f : CacheId → Subcache → Option Subcache) : Option Caches :=
  match f 0 (c.sub 0), f 1 (c.sub 1), f 2 (c.sub 2) with
  | some s₀, some s₁, some s₂ => some { c with sub := ![s₀, s₁, s₂] }
  | _, _, _ => none

def tblClear (c : Caches) (ppid : TaskId) : Option Caches :=
  c.eachSub fun j s => tblClearSub s j ppid

def invalidate (c : Caches) (ppid : TaskId) : Option Caches :=
  c.eachSub fun j s => s.invalidateTables (numReg j) (s.taskTbl ppid)

def copyRest (a : Arch) (c : Caches) : ℕ → ℕ → ℕ → List (ℕ × ℕ)
  | 0, _, _ => []
  | fuel + 1, index, nbytes =>
    if nbytes = 0 then []
    else
      let block := if nbytes < a.pageSize then nbytes else a.pageSize
      (c.addrSlot index, block) :: copyRest a c fuel (index + 1) (nbytes - block)

def firstBlock (a : Arch) (chunk0 offset : ℕ) : ℕ × ℕ × ℕ :=
  if chunk0 ≤ offset then
    let rest := offset - chunk0
    (rest / a.pageSize + 1, rest % a.pageSize, a.pageSize - rest % a.pageSize)
  else (0, offset, chunk0 - offset)

def copyBlocks (a : Arch) (c : Caches) (x : AddrTbl) (offset nbytes : ℕ) : List (ℕ × ℕ) :=
  let first := firstBlock a x.chunk0 offset
  let block := if nbytes < first.2.2 then nbytes else first.2.2
  (c.addrSlot (x.slot + first.1) + first.2.1, block) ::
    copyRest a c nbytes (x.slot + first.1 + 1) (nbytes - block)

def refresh (c : Caches) (m : Mapping a) (k : AddrKey) : Caches × Bool × List ℕ :=
  if (c.table k).valid then (c, true, [])
  else c.revalidate m k (c.table k).start (c.table k).length

def memcpy3 (c : Caches) (m : Mapping a) (vaddr nbytes : ℕ) (k : AddrKey) :
    Caches × Option (List (ℕ × ℕ)) :=
  if (c.table k).length < nbytes then (c, none)
  else
    let res := c.refresh m k
    if res.2.1 = false then (res.1, none)
    else
      let x := res.1.table k
      let offset := toInt32 (vaddr - x.start)
      if offset < 0 then (res.1, none)
      else if toInt32 (offset + nbytes) > x.length then (res.1, none)
      else (res.1, some (copyBlocks a res.1 x offset.toNat nbytes))

def slotBase (a : Arch) : CacheId → ℕ
  | 0 => 0
  | 1 => a.tblSz 0 * numReg 0
  | 2 => a.tblSz 0 * numReg 0 + a.tblSz 1 * numReg 1

def initModule (a : Arch) : Caches where
  sub j :=
    { tbl := fun i =>
        { start := 0, length := 0, chunk0 := 0, valid := false
          slot := slotBase a j + i * a.tblSz j
          next := if i + 1 < numReg j then some (i + 1) else none
          prev := none }
      addrTbl := some 0
      freeTables := numReg j
      taskTbl := fun _ => none }
  addrSlot _ := 0

def validate (c : Caches) (m : Mapping a) (base extent : ℕ) (ppid : TaskId) : Option Populated :=
  c.populate m base (toInt32 extent) ppid

end Caches

inductive Act (a : Arch)
  | validate (m : Mapping a) (base extent : ℕ) (ppid : TaskId)
  | memcpy3 (m : Mapping a) (vaddr nbytes : ℕ) (k : AddrKey)
  | tblLink (key : Option AddrKey) (ppid : TaskId)
  | invalidate (ppid : TaskId)
  | tblInit (ppid : TaskId)
  | tblClear (ppid : TaskId)

namespace Caches
variable {a : Arch}

def step (c : Caches) : Act a → Option Caches
  | .validate m base extent ppid => (c.validate m base extent ppid).map Populated.caches
  | .memcpy3 m vaddr nbytes k => some (c.memcpy3 m vaddr nbytes k).1
  | .tblLink key ppid => some (c.tblLink key ppid)
  | .invalidate ppid => c.invalidate ppid
  | .tblInit ppid => some (c.tblInit ppid)
  | .tblClear ppid => c.tblClear ppid

inductive Reached (P : Caches → Act a → Prop) : Caches → Prop
  | init : Reached P (initModule a)
  | step {c c' : Caches} {act : Act a} :
    Reached P c → P c act → c.step act = some c' → Reached P c'

def run (c : Caches) : List (Act a) → Option Caches
  | [] => some c
  | act :: acts => (c.step act).bind fun c' => c'.run acts

theorem Reached.run {c c' : Caches} {acts : List (Act a)}
    (h : Reached (fun _ (_ : Act a) => True) c) (hrun : c.run acts = some c') :
    Reached (fun _ (_ : Act a) => True) c' := by
  induction acts generalizing c with
  | nil =>
    cases hrun
    exact h
  | cons act acts ih =>
    obtain ⟨c1, hstep, hrest⟩ := Option.bind_eq_some_iff.mp hrun
    exact ih (h.step trivial hstep) hrest

end Caches
end Cplant.AddrCache
