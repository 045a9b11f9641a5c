import FsBench.Common.Utils
import FsBench.Lib.Ring
import FsBench.Lib.Word

/-!
The duration recorders of libc/sys_libc_file.c and posix/sys_posix_cmd.c: an array, the index of
the next store and a flag that is raised once the array has been filled. An access outside an
array is `none`.
-/

namespace FsBench

def MAX_FOPEN : Nat := 64 * 1024
def MAX_FCLOSE : Nat := 64 * 1024
def MAX_FREAD : Nat := 64 * 1024
def MAX_FWRITE : Nat := 64 * 1024
def MAX_FSYNC : Nat := 64 * 1024
def MAX_FSTAT : Nat := 64 * 1024
def MAX_SYNC : Nat := 64 * 1024
def MAX_FILENUM : Nat := 20000

structure Recorder (α : Type) where
  time : List α
  count : Nat
  flag : Nat

/--
The three arrays of `sys_file_fsync`, which share one index and one flag.
-/
structure SyncRecorder (α : Type) where
  fflushTime : List α
  filenoTime : List α
  fsyncTime : List α
  count : Nat
  flag : Nat

/--
`INT name[cap] = {-1}`
-/
def initialTime (cap : Nat) : List Int :=
  -1 :: List.replicate (cap - 1) 0

def Recorder.initial (cap : Nat) : Recorder Int where
  time := initialTime cap
  count := 0
  flag := 0

def SyncRecorder.initial (cap : Nat) : SyncRecorder Int where
  fflushTime := initialTime cap
  filenoTime := initialTime cap
  fsyncTime := initialTime cap
  count := 0
  flag := 0

structure Timed (β : Type) where
  start : Nat
  stop : Nat
  result : β

/--
`(INT)(end-start)`
-/
def Timed.duration {β : Type} (c : Timed β) : Int :=
  Word.toSigned 32 (Word.sub 64 c.stop c.start)

namespace Recorder

variable {α : Type}

/--
The effect of `time[count++] = value` whether or not `count` is inside the array.
-/
def put (r : Recorder α) (value : α) : Recorder α :=
  { r with time := r.time.set r.count value, count := r.count + 1 }

def store (r : Recorder α) (value : α) : Option (Recorder α) :=
  if r.count < r.time.length then
    some (r.put value)
  else
    none

def wrap (cap : Nat) (r : Recorder α) : Recorder α :=
  if r.count = cap then
    { r with flag := 1, count := 0 }
  else
    r

theorem wrap_of_ne {cap : Nat} {r : Recorder α} (h : r.count ≠ cap) : r.wrap cap = r := by
  simp [wrap, h]

def record (cap : Nat) (r : Recorder α) (value : α) : Option (Recorder α) := do
  let r ← r.store value
  return r.wrap cap

end Recorder

namespace SyncRecorder

variable {α : Type}

def fflush (r : SyncRecorder α) : Recorder α :=
  { time := r.fflushTime, count := r.count, flag := r.flag }

def fileno (r : SyncRecorder α) : Recorder α :=
  { time := r.filenoTime, count := r.count, flag := r.flag }

def fsync (r : SyncRecorder α) : Recorder α :=
  { time := r.fsyncTime, count := r.count, flag := r.flag }

def putFflush (r : SyncRecorder α) (value : α) : SyncRecorder α :=
  { r with fflushTime := r.fflushTime.set r.count value }

def putFileno (r : SyncRecorder α) (value : α) : SyncRecorder α :=
  { r with filenoTime := r.filenoTime.set r.count value }

def putFsync (r : SyncRecorder α) (value : α) : SyncRecorder α :=
  { r with fsyncTime := r.fsyncTime.set r.count value, count := r.count + 1 }

def wrap (cap : Nat) (r : SyncRecorder α) : SyncRecorder α :=
  if r.count = cap then
    { r with flag := 1, count := 0 }
  else
    r

section Wrap

variable {cap : Nat} {r : SyncRecorder α}

theorem wrap_of_ne (h : r.count ≠ cap) : r.wrap cap = r := by
  simp [wrap, h]

@[simp]
theorem wrap_fflushTime : (r.wrap cap).fflushTime = r.fflushTime := by
  unfold wrap
  split <;> rfl

@[simp]
theorem wrap_filenoTime : (r.wrap cap).filenoTime = r.filenoTime := by
  unfold wrap
  split <;> rfl

@[simp]
theorem wrap_fsyncTime : (r.wrap cap).fsyncTime = r.fsyncTime := by
  unfold wrap
  split <;> rfl

end Wrap

/--
The three stores of one call of `sys_file_fsync` with nothing in between.
-/
def record (cap : Nat) (r : SyncRecorder α) (fflush fileno fsync : α) : Option (SyncRecorder α) :=
  if r.count < r.fflushTime.length ∧ r.count < r.filenoTime.length
      ∧ r.count < r.fsyncTime.length then
    some ((((r.putFflush fflush).putFileno fileno).putFsync fsync).wrap cap)
  else
    none

end SyncRecorder

/-- `REPORT_LIBCAPI_T` -/
structure Report where
  avg : Int
  min : Int
  max : Int
  count : Nat

/--
`REPORT_SYNC_T`
-/
structure SyncReport where
  fflushAvg : Int
  fflushMax : Int
  fflushMin : Int
  filenoAvg : Int
  filenoMax : Int
  filenoMin : Int
  fsyncAvg : Int
  fsyncMax : Int
  fsyncMin : Int
  count : Nat

/--
`for(i = 0;i < len;i++) sum += time[i];` on a `long` of `long` bits.
-/
def sumTime (long : Nat) (time : List Int) (len : Nat) (sum : Int) : Option Int :=
  Loop.upTo len (fun i sum => do
    let x ← time[i]?
    some (Word.toSigned long (sum + x))) sum

/--
`sum/len` stored in an `INT`.
-/
def average (sum : Int) (len : Nat) : Int :=
  Word.toSigned 32 (sum.tdiv len)

def Recorder.length (cap : Nat) (r : Recorder Int) : Nat :=
  if r.flag ≠ 0 then cap else r.count

def SyncRecorder.length (cap : Nat) (r : SyncRecorder Int) : Nat :=
  if r.flag ≠ 0 then cap else r.count

def benchSorted (r : Recorder Int) (len : Nat) (sum : Int) : Option (Recorder Int × Report) := do
  let time ← sysBubbleSort r.time len
  let min ← time[0]?
  let max ← time[len - 1]?
  return ({ r with time := time }, { avg := average sum len, min, max, count := len })

/--
The `*_bench` functions that leave before the summation when `len < 2`. `cap` is the length taken
when the flag is up and `sum` what the local variable holds at the start.
-/
def bench (long cap : Nat) (sum : Int) (r : Recorder Int) (info : Report)
    : Option (Recorder Int × Report) := do
  let len := r.length cap
  if len < 2 then
    return (r, info)
  else
    let sum ← sumTime long r.time len sum
    benchSorted r len sum

/--
The `*_bench` functions that sum before they test `len < 2`.
-/
def benchSumFirst (long cap : Nat) (sum : Int) (r : Recorder Int) (info : Report)
    : Option (Recorder Int × Report) := do
  let len := r.length cap
  let sum ← sumTime long r.time len sum
  if len < 2 then
    return (r, info)
  else
    benchSorted r len sum

end FsBench
