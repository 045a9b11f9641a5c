import FsBench.Common.Text
import FsBench.Recorder.Basic

/-!
The recording functions of libc/sys_libc_file.c and their reports.
-/

namespace FsBench

abbrev FileId := Nat

def OK : Int := 0

def ERROR : Int := -1

structure Recorders where
  fopen : Recorder Int
  fclose : Recorder Int
  fread : Recorder Int
  fwrite : Recorder Int
  fsync : SyncRecorder Int
  fstat : Recorder Int
  access : Recorder Int
  unlink : Recorder Int
  sync : Recorder Int
  rename : Recorder Int

def Recorders.initial : Recorders where
  fopen := .initial MAX_FOPEN
  fclose := .initial MAX_FCLOSE
  fread := .initial MAX_FREAD
  fwrite := .initial MAX_FWRITE
  fsync := .initial MAX_FSYNC
  fstat := .initial MAX_FSTAT
  access := .initial MAX_FILENUM
  unlink := .initial MAX_FILENUM
  sync := .initial MAX_SYNC
  rename := .initial MAX_FILENUM

structure StatBuf where
  isDir : Bool
  stBlocks : Nat
  stSize : Nat
  stBlksize : Nat

structure SysFsStat where
  uSize : Nat
  uAttr : Nat
  uClusterSize : Nat
  uSpaceSize : Nat

def SYS_FS_ATTR_DIR : Nat := 0x10

def sysLibcFopen (st : Recorders) (strPath strMode : Option CStr) (c : Timed (Option FileId))
    : Option (Recorders × Option FileId) :=
  if strPath.isNone ∨ strMode.isNone then
    some (st, none)
  else
    match c.result with
    | none => some (st, none)
    | some pHandle => do
      let r ← st.fopen.record MAX_FOPEN c.duration
      return ({ st with fopen := r }, some pHandle)

def sysLibcFclose (st : Recorders) (pFileID : Option FileId) (c : Timed Int)
    : Option (Recorders × Int) :=
  if pFileID.isNone then
    some (st, ERROR)
  else if c.result ≠ OK then
    some (st, ERROR)
  else do
    let r ← st.fclose.record MAX_FCLOSE c.duration
    return ({ st with fclose := r }, c.result)

/--
`feof` is asked only when fewer blocks came than were wanted.
-/
def sysLibcFread (st : Recorders) (pFileID pBuffer : Option Nat) (uSize uCount : Nat)
    (c : Timed Nat) (feof : Int) : Option (Recorders × Int) :=
  if pFileID.isNone ∨ pBuffer.isNone ∨ Word.mul 32 uSize uCount = 0 then
    some (st, ERROR)
  else do
    let r ← st.fread.record MAX_FREAD c.duration
    let st := { st with fread := r }
    if c.result = uCount then
      return (st, Word.toSigned 32 c.result)
    else if feof > 0 then
      return (st, Word.toSigned 32 c.result)
    else
      return (st, ERROR)

def sysLibcFwrite (st : Recorders) (pFileID pBuffer : Option Nat) (uSize uCount : Nat)
    (c : Timed Nat) : Option (Recorders × Int) :=
  if pFileID.isNone ∨ pBuffer.isNone ∨ Word.mul 32 uSize uCount = 0 then
    some (st, ERROR)
  else if c.result ≠ uCount then
    some (st, ERROR)
  else do
    let r ← st.fwrite.record MAX_FWRITE c.duration
    return ({ st with fwrite := r }, Word.toSigned 32 uCount)

def sysFileFsync (st : Recorders) (pFileID : Option FileId) (fflush fileno fsync : Timed Int)
    : Option (Recorders × Int) :=
  if pFileID.isNone then
    some (st, ERROR)
  else do
    let r ← st.fsync.record MAX_FSYNC fflush.duration fileno.duration fsync.duration
    return ({ st with fsync := r }, fsync.result)

/--
The status buffer of the caller is passed in and out; a `stat` that fails leaves it alone.
-/
def sysFileFstat (st : Recorders) (strPath : Option CStr) (pStSate : Option SysFsStat)
    (c : Timed (Option StatBuf)) : Option (Recorders × Option SysFsStat × Int) :=
  match strPath, pStSate with
  | none, _ => some (st, pStSate, ERROR)
  | _, none => some (st, pStSate, ERROR)
  | some _, some buf =>
    match c.result with
    | none => some (st, some buf, ERROR)
    | some stState => do
      let r ← st.fstat.record MAX_FSTAT c.duration
      let uAttr := if stState.isDir then buf.uAttr ||| SYS_FS_ATTR_DIR else buf.uAttr
      let buf :=
        { uSize := stState.stSize
          uAttr := uAttr
          uClusterSize := Word.trunc 32 stState.stBlksize
          uSpaceSize := Word.mul 64 stState.stBlocks 512 }
      return ({ st with fstat := r }, some buf, OK)

variable (long : Nat)

def fopenBench (st : Recorders) (info : Report) : Option (Recorders × Report) := do
  let (r, info) ← bench long MAX_FOPEN 0 st.fopen info
  return ({ st with fopen := r }, info)

def fcloseBench (st : Recorders) (info : Report) : Option (Recorders × Report) := do
  let (r, info) ← bench long MAX_FCLOSE 0 st.fclose info
  return ({ st with fclose := r }, info)

def freadBench (st : Recorders) (info : Report) : Option (Recorders × Report) := do
  let (r, info) ← bench long MAX_FREAD 0 st.fread info
  return ({ st with fread := r }, info)

def fwriteBench (st : Recorders) (info : Report) : Option (Recorders × Report) := do
  let (r, info) ← bench long MAX_FWRITE 0 st.fwrite info
  return ({ st with fwrite := r }, info)

def fstatBench (st : Recorders) (info : Report) : Option (Recorders × Report) := do
  let (r, info) ← bench long MAX_FSTAT 0 st.fstat info
  return ({ st with fstat := r }, info)

/--
The third series is sorted before it is summed, the other two after.
-/
def fsyncBench (st : Recorders) (info : SyncReport) : Option (Recorders × SyncReport) := do
  let r := st.fsync
  let len := r.length MAX_FSYNC
  if len < 2 then
    return (st, info)
  else
    let fflushSum ← sumTime long r.fflushTime len 0
    let fflushTime ← sysBubbleSort r.fflushTime len
    let fflushMin ← fflushTime[0]?
    let fflushMax ← fflushTime[len - 1]?
    let filenoSum ← sumTime long r.filenoTime len 0
    let filenoTime ← sysBubbleSort r.filenoTime len
    let filenoMin ← filenoTime[0]?
    let filenoMax ← filenoTime[len - 1]?
    let fsyncTime ← sysBubbleSort r.fsyncTime len
    let fsyncSum ← sumTime long fsyncTime len 0
    let fsyncMin ← fsyncTime[0]?
    let fsyncMax ← fsyncTime[len - 1]?
    return (
      { st with fsync := { r with fflushTime, filenoTime, fsyncTime } },
      { fflushAvg := average fflushSum len, fflushMax, fflushMin
        filenoAvg := average filenoSum len, filenoMax, filenoMin
        fsyncAvg := average fsyncSum len, fsyncMax, fsyncMin
        count := len })

end FsBench
