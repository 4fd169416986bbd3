import Cplant.Foundations.Keyed
import Mathlib.Tactic.Ring

/-!
# The files that yod has open for its nodes

`yod` opens a file once for all nodes that use it and keeps a list of handles. A handle that is in
the cache has a descriptor, and at most `MAX_OPEN_FILES` handles have one. The results of the
system calls and of the transfers to a node are given with each request.
-/
namespace Cplant.Yod
open Keyed

inductive IoMode
  | unix
  | log
  | other
deriving DecidableEq, Repr

inductive Access
  | rdonly
  | wronly
  | rdwr
deriving DecidableEq, Repr

structure OpenFlags where
  creat : Bool
  excl : Bool
  append : Bool
  other : ℕ
deriving DecidableEq, Repr

inductive FileName (ν : Type)
  | stdin
  | stdout
  | stderr
  | path (name : ν)
deriving DecidableEq, Repr

structure Desc where
  num : ℕ
  offset : ℕ
  append : Bool
deriving DecidableEq, Repr

structure FileHandle (ν : Type) where
  addr : ℕ
  iomode : IoMode
  fd : Option Desc
  fname : FileName ν
  accessFlags : Option Access
  otherFlags : OpenFlags
  refCount : ℤ
  curPos : ℤ
deriving DecidableEq, Repr

structure Config where
  maxOpenFiles : ℕ
  stdio_le : 3 ≤ maxOpenFiles
  dbgForrtl : Bool

def ioBufSize : ℕ := 4 * 8 * 1024

def toInt32 (n : ℤ) : ℤ := n.bmod (2 ^ 32)

def lseek (fd : Option Desc) (pos : ℤ) : ℤ × Option Desc :=
  match fd with
  | none => (-1, none)
  | some d => if 0 ≤ pos then (pos, some { d with offset := pos.toNat }) else (-1, some d)

variable {ν : Type}

namespace FileHandle
variable (fh : FileHandle ν)

def cacheOut : FileHandle ν := { fh with fd := none }

def cacheIn (opened : Option ℕ) : FileHandle ν :=
  let (curPos, fd) := lseek (opened.map fun num => ⟨num, 0, false⟩) fh.curPos
  { fh with curPos, fd }

def positionFilePtr (nodeCurPos : ℤ) : FileHandle ν :=
  match fh.iomode with
  | .unix =>
    if fh.curPos ≠ nodeCurPos then
      let (curPos, fd) := lseek fh.fd nodeCurPos
      { fh with curPos, fd }
    else { fh with curPos := nodeCurPos }
  | .log => fh
  | .other => { fh with curPos := nodeCurPos }

def setFlags (fileStatusFlags : OpenFlags) : FileHandle ν :=
  if fileStatusFlags ≠ fh.otherFlags then
    { fh with
      otherFlags := fileStatusFlags
      fd := fh.fd.map fun d => { d with append := fileStatusFlags.append } }
  else fh

end FileHandle

structure ReadBlock where
  numRead : Option ℕ
  sent : Bool
deriving DecidableEq, Repr

structure WriteBlock where
  received : Bool
  written : Option ℕ
deriving DecidableEq, Repr

abbrev Blocks := List (ℕ × ℕ)

structure Moved where
  curPos : ℤ
  offset : ℕ
  blocks : Blocks
deriving DecidableEq, Repr

def hostReadLoop (startPos : ℤ) : List ReadBlock → ℕ → ℤ → ℕ → Option Moved
  | [], _, _, _ => none
  | o :: rest, remaining, curPos, offset =>
    let transferSize := min remaining ioBufSize
    match o.numRead with
    | none => if rest = [] then some ⟨startPos, offset, []⟩ else none
    | some numRead =>
      if numRead > transferSize then none
      else if remaining - numRead = 0 ∨ numRead < transferSize then
        if rest = [] then some ⟨curPos + numRead, offset + numRead, [(offset, numRead)]⟩ else none
      else if o.sent then
        (hostReadLoop startPos rest (remaining - numRead) (curPos + numRead)
          (offset + numRead)).map fun m => { m with blocks := (offset, numRead) :: m.blocks }
      else if rest = [] then
        some ⟨curPos + numRead - numRead, offset + numRead, [(offset, numRead)]⟩
      else none

def writeAt (append : Bool) (size offset : ℕ) : ℕ := if append then size else offset

def nioBlocks (n : ℕ) : ℕ := n / ioBufSize + if n % ioBufSize ≠ 0 then 1 else 0

structure Written where
  numWritten : ℤ
  offset : ℕ
  blocks : Blocks
deriving DecidableEq, Repr

def hostWriteLoop (append : Bool) : ℕ → List WriteBlock → ℕ → ℕ → ℕ → ℤ → Option Written
  | 0, outcomes, _, _, offset, numWritten =>
    if outcomes = [] then some ⟨numWritten, offset, []⟩ else none
  | _ + 1, [], _, _, _, _ => none
  | nblocks + 1, o :: rest, remaining, size, offset, numWritten =>
    let transferSize := min remaining ioBufSize
    if o.received = false then if rest = [] then some ⟨-1, offset, []⟩ else none
    else match o.written with
      | none => if rest = [] then some ⟨-1, offset, []⟩ else none
      | some rc =>
        let place := writeAt append size offset
        if rc > transferSize then none
        else if rc = transferSize then
          (hostWriteLoop append nblocks rest (remaining - transferSize) (max size (place + rc))
            (place + rc) (numWritten + rc)).map
              fun w => { w with blocks := (place, rc) :: w.blocks }
        else if rest = [] then some ⟨-1, place + rc, [(place, rc)]⟩
        else none

def forrtl : List UInt8 := [102, 111, 114, 114, 116, 108]

def isForrtl (cfg : Config) (data : List UInt8) : Bool :=
  !cfg.dbgForrtl && data.length > 7 && data.take 6 = forrtl

def hostWrite2 (cfg : Config) (d : Desc) (data : List UInt8) (size : ℕ) (buf : Bool)
    (outcomes : List WriteBlock) (rtlmessages : ℕ) : Option (Written × ℕ) :=
  if buf = false then if outcomes = [] then some (⟨-1, d.offset, []⟩, rtlmessages) else none
  else if nioBlocks data.length = 1 then
    match outcomes with
    | [o] =>
      if o.received = false then some (⟨-1, d.offset, []⟩, rtlmessages)
      else
        let isRtl := d.num = 6 ∧ isForrtl cfg data = true
        if isRtl ∧ rtlmessages > 0 then
          some (⟨data.length, d.offset, []⟩, rtlmessages + 1)
        else
          let rtlmessages := if isRtl then rtlmessages + 1 else rtlmessages
          match o.written with
          | none => some (⟨-1, d.offset, []⟩, rtlmessages)
          | some rc =>
            let place := writeAt d.append size d.offset
            if rc > data.length then none
            else some (⟨rc, place + rc, [(place, rc)]⟩, rtlmessages)
    | _ => none
  else
    (hostWriteLoop d.append (nioBlocks data.length) outcomes data.length size d.offset 0).map
      fun w => (w, rtlmessages)

structure IoCmd where
  curPos : ℤ
  fileStatusFlags : OpenFlags
deriving DecidableEq, Repr

def hostRead (fh : FileHandle ν) (cmd : IoCmd) (nbytes : ℕ) (buf : Bool)
    (outcomes : List ReadBlock) : Option (FileHandle ν × Blocks) :=
  let fh := (fh.positionFilePtr cmd.curPos).setFlags cmd.fileStatusFlags
  match fh.fd with
  | none => none
  | some d =>
    if buf = false then if outcomes = [] then some (fh, []) else none
    else
      (hostReadLoop cmd.curPos outcomes nbytes fh.curPos d.offset).map fun m =>
        ({ fh with curPos := m.curPos, fd := some { d with offset := m.offset } }, m.blocks)

def hostWrite (cfg : Config) (fh : FileHandle ν) (cmd : IoCmd) (data : List UInt8) (size : ℕ)
    (buf : Bool) (outcomes : List WriteBlock) (rtlmessages : ℕ) :
    Option (FileHandle ν × Blocks × ℕ) :=
  let fh :=
    if cmd.fileStatusFlags.append then
      { fh with curPos := size, fd := fh.fd.map fun d => { d with offset := size } }
    else fh.positionFilePtr cmd.curPos
  let fh := fh.setFlags cmd.fileStatusFlags
  match fh.fd with
  | none => none
  | some d =>
    (hostWrite2 cfg d data size buf outcomes rtlmessages).map fun (w, rtlmessages) =>
      ({ fh with
          curPos := if w.numWritten > 0 then fh.curPos + w.numWritten else fh.curPos
          fd := some { d with offset := w.offset } }, w.blocks, rtlmessages)

structure CacheOutcome where
  inward : Option ℕ
  back : Option ℕ
deriving DecidableEq, Repr

structure OpenOutcome where
  malloc : Option ℕ
  cache : CacheOutcome
  first : Option ℕ
  access : Option Access
  second : Option ℕ
  back : Option ℕ
deriving DecidableEq, Repr

abbrev Handles (ν : Type) := List (FileHandle ν)

namespace Handles
variable (l : Handles ν)

def put (fh : FileHandle ν) : Handles ν := Keyed.put FileHandle.addr fh l

def destroyFileHandle (addr : ℕ) : Handles ν := Keyed.remove FileHandle.addr addr l

def at? (addr : ℕ) : Option (FileHandle ν) := Keyed.lookup FileHandle.addr addr l

def checkFileHandleList [DecidableEq ν] (fname : FileName ν) : Option (FileHandle ν) :=
  Keyed.lookup FileHandle.fname fname l

def findOpenFileHandle : Option (FileHandle ν) := l.reverse.find? fun fh => fh.fd.isSome

def findClosedFileHandle : Option (FileHandle ν) := l.find? fun fh => fh.fd.isNone

def cacheOutAny (cfg : Config) : Handles ν × Option (FileHandle ν) :=
  if l.length ≥ cfg.maxOpenFiles then
    match findOpenFileHandle l with
    | some out => (put l out.cacheOut, some out.cacheOut)
    | none => (l, none)
  else (l, none)

structure Cached (ν : Type) where
  handles : Handles ν
  fh : FileHandle ν
  out : Option (FileHandle ν)

def cacheFileHandle (fh : FileHandle ν) (o : CacheOutcome) : Cached ν :=
  if fh.fd.isNone then
    match findOpenFileHandle l with
    | none => ⟨l, fh, none⟩
    | some out =>
      let fh := fh.cacheIn o.inward
      let l := put (put l out.cacheOut) fh
      if o.inward.isSome then ⟨l, fh, some out.cacheOut⟩
      else ⟨put l (out.cacheOut.cacheIn o.back), fh, none⟩
  else ⟨l, fh, some fh⟩

def hostOpen1st (cfg : Config) (name : ν) (flags : OpenFlags) (o : OpenOutcome) :
    Handles ν × Option ℕ :=
  let (l, out) := cacheOutAny l cfg
  match o.malloc with
  | none => (l, none)
  | some addr =>
    match o.first, o.access, o.second with
    | some _, some access, some num =>
      (l ++ [{
        addr
        iomode := .unix
        fd := some ⟨num, 0, flags.append⟩
        fname := .path name
        accessFlags := some access
        otherFlags := { flags with creat := false }
        refCount := 1
        curPos := 0 }], some addr)
    | _, _, _ =>
      match out with
      | some out => (put l (out.cacheIn o.back), none)
      | none => (l, none)

def hostOpenOtherwise (fh : FileHandle ν) (flags : OpenFlags) (o : OpenOutcome) :
    Handles ν × Option ℕ :=
  if fh.otherFlags.excl then (l, none)
  else
    let c := cacheFileHandle l fh o.cache
    match c.out with
    | none => (c.handles, none)
    | some out =>
      match o.first, o.access, o.second with
      | some _, some access, some num =>
        (put c.handles { c.fh with
          fd := some ⟨num, 0, flags.append⟩
          curPos := 0
          otherFlags := flags
          accessFlags := some access
          refCount := toInt32 (c.fh.refCount + 1) }, some fh.addr)
      | _, _, _ =>
        let l := if out.addr ≠ fh.addr then put c.handles (out.cacheIn o.back) else c.handles
        (destroyFileHandle l fh.addr, none)

def hostOpen [DecidableEq ν] (cfg : Config) (name : ν) (flags : OpenFlags) (o : OpenOutcome) :
    Option (Handles ν × Option ℕ) :=
  match checkFileHandleList l (.path name) with
  | none =>
    if ∃ fh ∈ l, o.malloc = some fh.addr then none else some (hostOpen1st l cfg name flags o)
  | some fh => some (hostOpenOtherwise l fh flags o)

def hostClose (cfg : Config) (fh : FileHandle ν) (opened : Option ℕ) : Handles ν :=
  if fh.refCount = 1 then
    if fh.fd.isSome ∧ l.length > cfg.maxOpenFiles then
      match findClosedFileHandle l with
      | some closed => destroyFileHandle (put l (closed.cacheIn opened)) fh.addr
      | none => l
    else destroyFileHandle l fh.addr
  else put l { fh with refCount := toInt32 (fh.refCount - 1) }

end Handles

structure Transfer where
  iomode : IoMode
  cmd : IoCmd
  write : Bool
  blocks : Blocks
deriving DecidableEq, Repr

structure State (ν : Type) where
  handles : Handles ν
  rtlmessages : ℕ
  held : List ℕ
  transfers : List Transfer

inductive Request (ν : Type)
  | open (name : ν) (flags : OpenFlags) (o : OpenOutcome)
  | close (addr : ℕ) (opened : Option ℕ)
  -- other requests that use a handle
  | cache (addr : ℕ) (o : CacheOutcome)
  | read (addr : ℕ) (o : CacheOutcome) (cmd : IoCmd) (nbytes : ℕ) (buf : Bool)
      (outcomes : List ReadBlock)
  | write (addr : ℕ) (o : CacheOutcome) (cmd : IoCmd) (data : List UInt8) (size : ℕ) (buf : Bool)
      (outcomes : List WriteBlock)

structure StdioFile where
  addr : ℕ
  fd : Desc
  accessFlags : Option Access
  curPos : ℤ
deriving DecidableEq, Repr

def StdioFile.handle (f : StdioFile) (fname : FileName ν) : FileHandle ν where
  addr := f.addr
  iomode := .log
  fd := some f.fd
  fname
  accessFlags := f.accessFlags
  otherFlags := ⟨false, false, false, 0⟩
  refCount := 1
  curPos := f.curPos

structure Stdio where
  input : StdioFile
  output : StdioFile
  error : StdioFile
  distinct : [input.addr, output.addr, error.addr].Nodup

def State.init (io : Stdio) : State ν where
  handles := [io.input.handle .stdin, io.output.handle .stdout, io.error.handle .stderr]
  rtlmessages := 0
  held := []
  transfers := []

namespace State
variable [DecidableEq ν] (cfg : Config) (s : State ν)

def step : Request ν → Option (State ν)
  | .open name flags o =>
    (s.handles.hostOpen cfg name flags o).map fun (handles, returned) =>
      { s with handles, held := returned.toList ++ s.held }
  | .close addr opened =>
    (s.handles.at? addr).map fun fh =>
      { s with handles := s.handles.hostClose cfg fh opened, held := s.held.erase addr }
  | .cache addr o =>
    (s.handles.at? addr).map fun fh =>
      { s with handles := (s.handles.cacheFileHandle fh o).handles }
  | .read addr o cmd nbytes buf outcomes => do
    let fh ← s.handles.at? addr
    let c := s.handles.cacheFileHandle fh o
    if c.out.isNone then return { s with handles := c.handles }
    else
      let (fh, blocks) ← hostRead c.fh cmd nbytes buf outcomes
      return { s with
        handles := c.handles.put fh
        transfers := s.transfers ++ [⟨fh.iomode, cmd, false, blocks⟩] }
  | .write addr o cmd data size buf outcomes => do
    let fh ← s.handles.at? addr
    let c := s.handles.cacheFileHandle fh o
    if c.out.isNone then return { s with handles := c.handles }
    else
      let (fh, blocks, rtlmessages) ← hostWrite cfg c.fh cmd data size buf outcomes s.rtlmessages
      return { s with
        handles := c.handles.put fh
        rtlmessages
        transfers := s.transfers ++ [⟨fh.iomode, cmd, true, blocks⟩] }

end State

structure FileHandle.Same (fh fh' : FileHandle ν) : Prop where
  addr : fh'.addr = fh.addr
  iomode : fh'.iomode = fh.iomode
  fname : fh'.fname = fh.fname
  refCount : fh'.refCount = fh.refCount

namespace FileHandle
variable {fh fh' : FileHandle ν} {blocks : Blocks} {cmd : IoCmd} {buf : Bool}

theorem Same.trans {fh'' : FileHandle ν} (h : fh.Same fh') (h' : fh'.Same fh'') : fh.Same fh'' :=
  ⟨h'.addr.trans h.addr, h'.iomode.trans h.iomode, h'.fname.trans h.fname,
    h'.refCount.trans h.refCount⟩

theorem same_cacheOut (fh : FileHandle ν) : fh.Same fh.cacheOut := ⟨rfl, rfl, rfl, rfl⟩

theorem same_cacheIn (fh : FileHandle ν) (opened : Option ℕ) : fh.Same (fh.cacheIn opened) :=
  ⟨rfl, rfl, rfl, rfl⟩

theorem same_positionFilePtr (fh : FileHandle ν) (pos : ℤ) : fh.Same (fh.positionFilePtr pos) := by
  unfold positionFilePtr
  split
  · split_ifs <;> exact ⟨rfl, rfl, rfl, rfl⟩
  · exact ⟨rfl, rfl, rfl, rfl⟩
  · exact ⟨rfl, rfl, rfl, rfl⟩

theorem same_setFlags (fh : FileHandle ν) (flags : OpenFlags) : fh.Same (fh.setFlags flags) := by
  unfold setFlags
  split_ifs <;> exact ⟨rfl, rfl, rfl, rfl⟩

theorem same_hostRead {nbytes : ℕ} {outcomes : List ReadBlock}
    (hr : hostRead fh cmd nbytes buf outcomes = some (fh', blocks)) : fh.Same fh' := by
  have hsame := (fh.same_positionFilePtr cmd.curPos).trans (same_setFlags _ cmd.fileStatusFlags)
  simp only [hostRead] at hr
  generalize (fh.positionFilePtr cmd.curPos).setFlags cmd.fileStatusFlags = fh1 at hsame hr
  cases hfd : fh1.fd with
  | none =>
    rw [hfd] at hr
    cases hr
  | some d =>
    simp only [hfd] at hr
    split_ifs at hr
    · cases hr
      exact hsame
    · obtain ⟨m, -, heq⟩ := Option.map_eq_some_iff.mp hr
      cases heq
      exact hsame.trans ⟨rfl, rfl, rfl, rfl⟩

theorem same_hostWrite {cfg : Config} {data : List UInt8} {size : ℕ}
    {outcomes : List WriteBlock} {rtlmessages rtlmessages' : ℕ}
    (hw : hostWrite cfg fh cmd data size buf outcomes rtlmessages =
      some (fh', blocks, rtlmessages')) : fh.Same fh' := by
  have hsame : fh.Same ((if cmd.fileStatusFlags.append then
      { fh with curPos := size, fd := fh.fd.map fun d => { d with offset := size } }
      else fh.positionFilePtr cmd.curPos).setFlags cmd.fileStatusFlags) := by
    refine Same.trans ?_ (same_setFlags _ cmd.fileStatusFlags)
    split_ifs
    · exact ⟨rfl, rfl, rfl, rfl⟩
    · exact fh.same_positionFilePtr cmd.curPos
  simp only [hostWrite] at hw
  generalize FileHandle.setFlags _ cmd.fileStatusFlags = fh1 at hsame hw
  cases hfd : fh1.fd with
  | none =>
    rw [hfd] at hw
    cases hw
  | some d =>
    simp only [hfd] at hw
    obtain ⟨m, -, heq⟩ := Option.map_eq_some_iff.mp hw
    cases heq
    exact hsame.trans ⟨rfl, rfl, rfl, rfl⟩

end FileHandle
end Cplant.Yod
