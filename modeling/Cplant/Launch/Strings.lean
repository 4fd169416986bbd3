import Mathlib.Data.List.TakeWhile
import Cplant.Foundations.Terminated

/-!
# Arguments and environment of a new process

`yod` packs the arguments and the environment of an application into two buffers,
`pack_string` of `libmisc.c` with `pack_up_args` and `pack_up_env` of `yod_data.c`. A PCT
takes them apart again with `unpack_strings` of `pct_app_host.c` before it starts the
process.
-/
namespace Cplant.Launch
open List Option

structure CString where
  bytes : List UInt8
  noNul : 0 ∉ bytes
deriving DecidableEq

def workbSize : ℕ := 5000
def maxArgv : ℕ := 128
def maxEnvp : ℕ := 256

/-- The loop of `pack_string` with `lp` bytes written. A string for which there is no room
is turned away, or, where its length does not fit into an `int`, written past the buffer. -/
def packLoop (maxp : ℕ) : List CString → ℕ → Option (List UInt8)
  | [], _ => some [0]
  | s :: ustr, lp =>
    let lnew := s.bytes.length + 1
    if maxp ≤ lp + lnew then none
    else (packLoop maxp ustr (lp + lnew)).map fun p => s.bytes ++ 0 :: p

def packString (ustr : Option (List CString)) (maxu maxp : ℕ) : Option (List UInt8) :=
  match ustr with
  | none => if maxp < 2 then none else some [0, 0]
  | some ustr => packLoop maxp (ustr.take maxu) 0

def cwdEnv (cwd : CString) : CString where
  bytes := [80, 87, 68, 61] ++ cwd.bytes
  noNul := by simpa using cwd.noNul

def oldCwdEnv (cwd : CString) : CString where
  bytes := [95, 95, 67, 87, 68, 61] ++ cwd.bytes
  noNul := by simpa using cwd.noNul

/-- `pack_up_env`; `malloc` says whether there is memory for the copy. With no environment
and a working directory that fills the buffer, the last byte is one behind it. -/
def packUpEnv (malloc : Bool) (envp : List CString) (cwd : CString) : Option (List UInt8) :=
  let workb := (cwdEnv cwd).bytes ++ 0 :: ((oldCwdEnv cwd).bytes ++ [0])
  if workbSize < workb.length then none
  else
    match packString (some envp) envp.length (workbSize - workb.length) with
    | none => none
    | some p => if malloc then some (workb ++ p) else none

def packUpArgs (malloc : Bool) (args : List CString) : Option (List UInt8) :=
  if args.length = 0 then some []
  else
    match packString (some args) args.length workbSize with
    | none => none
    | some p => if malloc then some p else none

/-- `unpack_strings` for the memory from `packed` on. It fails if the slots are used up, and
has no result if it runs past the end of the memory. -/
def unpackStrings (mem : List UInt8) (maxu : ℕ) : Except Shortage (List (List UInt8)) :=
  unpack 0 maxu mem

variable {p : List UInt8} {maxp maxu : ℕ} {ustr : List CString} {malloc : Bool}
  {out : List (List UInt8)}

theorem packLoop_eq_packed {lp : ℕ}
    (h : packLoop maxp ustr lp = some p) : p = packed 0 (ustr.map CString.bytes) := by
  induction ustr generalizing lp p with
  | nil => exact (some.inj h).symm
  | cons s ustr ih =>
    simp only [packLoop] at h
    split_ifs at h
    obtain ⟨p', hp', rfl⟩ := map_eq_some_iff.mp h
    rw [ih hp', map_cons, packed_cons]

theorem packString_eq_packed (h : packString (some ustr) ustr.length maxp = some p) :
    p = packed 0 (ustr.map CString.bytes) := by
  rw [packString, take_length] at h
  exact packLoop_eq_packed h

def withCwd (envp : List CString) (cwd : CString) : List CString :=
  cwdEnv cwd :: oldCwdEnv cwd :: envp

theorem packUpEnv_eq_packed {envp : List CString} {cwd : CString}
    (h : packUpEnv malloc envp cwd = some p) :
    p = packed 0 ((withCwd envp cwd).map CString.bytes) := by
  unfold packUpEnv at h
  dsimp only at h
  split at h
  · cases h
  · split at h
    · cases h
    next q hq =>
      split at h
      · rw [← some.inj h, packString_eq_packed hq]
        simp [withCwd, packed_cons]
      · cases h

theorem packUpArgs_eq_packed {args : List CString} (hne : args ≠ [])
    (h : packUpArgs malloc args = some p) : p = packed 0 (args.map CString.bytes) := by
  rw [packUpArgs, if_neg (mt length_eq_zero_iff.mp hne)] at h
  split at h
  · cases h
  next q hq =>
    split at h
    · rw [← some.inj h, packString_eq_packed hq]
    · cases h

theorem unpackStrings_packed_iff {ss : List CString} {rest : List UInt8}
    (h : unpackStrings (packed 0 (ss.map CString.bytes) ++ rest) maxu = .ok out) :
    out = ss.map CString.bytes ↔ ∀ s ∈ ss, s.bytes ≠ [] := by
  have hnul : ∀ w ∈ ss.map CString.bytes, 0 ∉ w := by
    intro w hw
    obtain ⟨s, -, rfl⟩ := mem_map.mp hw
    exact s.noNul
  rw [unpack_packed hnul h, takeWhile_eq_self_iff, List.forall_mem_map]
  simp

theorem unpackStrings_nil_iff {mem : List UInt8}
    (h : unpackStrings mem maxu = .ok out) : out = [] ↔ mem.head? = some 0 := by
  cases mem with
  | nil => cases maxu <;> cases h
  | cons a mem =>
    cases maxu with
    | zero => cases h
    | succ maxu =>
      simp only [unpackStrings, unpack] at h
      split_ifs at h with ha
      · rw [← Except.ok.inj h, ha]
        simp
      · cases hw : word 0 (a :: mem) with
        | none => rw [hw] at h; cases h
        | some r =>
          rw [hw] at h
          obtain ⟨ws, -, rfl⟩ := exists_of_map_eq_ok h
          simp [ha]

/-- If both sides succeed, the PCT has the arguments and the environment of `yod` just if no string
is empty and, where there are no arguments, the memory of the empty buffer holds a zero. `heap` is
what lies behind a buffer. -/
theorem strings_arrive_iff (malloc : Bool) (args envp : List CString) (cwd : CString)
    (argHeap envHeap : List UInt8) {argbuf envbuf : List UInt8}
    {argvOut envpOut : List (List UInt8)} (hargs : packUpArgs malloc args = some argbuf)
    (henvp : packUpEnv malloc envp cwd = some envbuf)
    (hargvOut : unpackStrings (argbuf ++ argHeap) maxArgv = .ok argvOut)
    (henvpOut : unpackStrings (envbuf ++ envHeap) maxEnvp = .ok envpOut) :
    argvOut = args.map CString.bytes ∧ envpOut = (withCwd envp cwd).map CString.bytes ↔
      (∀ s ∈ args, s.bytes ≠ []) ∧ (∀ s ∈ envp, s.bytes ≠ []) ∧
        (args = [] → argHeap.head? = some 0) := by
  rw [packUpEnv_eq_packed henvp] at henvpOut
  rw [unpackStrings_packed_iff henvpOut]
  have henv : (∀ s ∈ withCwd envp cwd, s.bytes ≠ []) ↔ ∀ s ∈ envp, s.bytes ≠ [] := by
    simp [withCwd, cwdEnv, oldCwdEnv]
  rw [henv]
  by_cases hne : args = []
  · subst hne
    obtain rfl : [] = argbuf := some.inj hargs
    have hnil := unpackStrings_nil_iff hargvOut
    simp [hnil, and_comm]
  · rw [packUpArgs_eq_packed hne hargs] at hargvOut
    rw [unpackStrings_packed_iff hargvOut]
    simp [hne]

theorem strings_arrive_iff_one :
    packUpArgs true [⟨[97], by decide⟩] = some [97, 0, 0] ∧
      ∃ argv envbuf envp, packUpEnv true [⟨[65, 61], by decide⟩] ⟨[47], by decide⟩ = some envbuf ∧
        unpackStrings [97, 0, 0] maxArgv = .ok argv ∧ unpackStrings envbuf maxEnvp = .ok envp ∧
        argv = [[97]] ∧ envp = [[80, 87, 68, 61, 47], [95, 95, 67, 87, 68, 61, 47], [65, 61]] := by
  refine ⟨rfl, _, _, _, rfl, rfl, rfl, ?_⟩
  exact (strings_arrive_iff true [⟨[97], by decide⟩] [⟨[65, 61], by decide⟩] ⟨[47], by decide⟩
    [] [] rfl rfl rfl rfl).mpr (by decide)

theorem empty_string_ends_args : ∃ argbuf,
    packUpArgs true [⟨[97], by decide⟩, ⟨[], by decide⟩, ⟨[98], by decide⟩] = some argbuf ∧
      unpackStrings argbuf maxArgv = .ok [[97]] :=
  ⟨_, rfl, rfl⟩

end Cplant.Launch
