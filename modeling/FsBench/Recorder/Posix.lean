import FsBench.Recorder.Libc

/-!
The recording functions of posix/sys_posix_cmd.c and their reports.
-/

namespace FsBench

def sysPosixAccess (st : Recorders) (strPath : Option CStr) (c : Timed Int)
    : Option (Recorders × Int) :=
  if strPath.isNone then
    some (st, ERROR)
  else do
    let r ← st.access.record MAX_FILENUM c.duration
    return ({ st with access := r }, c.result)

/--
A path that does not exist is reported as removed.
-/
def sysPosixRm (st : Recorders) (strPath : Option CStr) (access unlink : Timed Int)
    : Option (Recorders × Int) :=
  if strPath.isNone then
    some (st, ERROR)
  else do
    let (st, iRet) ← sysPosixAccess st strPath access
    if iRet ≠ OK then
      return (st, OK)
    else if unlink.result < 0 then
      return (st, unlink.result)
    else
      let r ← st.unlink.record MAX_FILENUM unlink.duration
      return ({ st with unlink := r }, OK)

def sysPosixSync (st : Recorders) (c : Timed Unit) : Option Recorders := do
  let r ← st.sync.record MAX_SYNC c.duration
  return { st with sync := r }

def sysPosixRename (st : Recorders) (strOldPath strNewPath : Option CStr) (c : Timed Int)
    : Option (Recorders × Int) :=
  if strOldPath.isNone ∨ strNewPath.isNone then
    some (st, ERROR)
  else do
    let r ← st.rename.record MAX_FILENUM c.duration
    return ({ st with rename := r }, c.result)

variable (long : Nat) (sum : Int)

/-- `sum` is the uninitialised local variable. -/
def accessBench (st : Recorders) (info : Report) : Option (Recorders × Report) := do
  let (r, info) ← benchSumFirst long MAX_SYNC sum st.access info
  return ({ st with access := r }, info)

def unlinkBench (st : Recorders) (info : Report) : Option (Recorders × Report) := do
  let (r, info) ← bench long MAX_SYNC sum st.unlink info
  return ({ st with unlink := r }, info)

def syncBench (st : Recorders) (info : Report) : Option (Recorders × Report) := do
  let (r, info) ← bench long MAX_SYNC sum st.sync info
  return ({ st with sync := r }, info)

def renameBench (st : Recorders) (info : Report) : Option (Recorders × Report) := do
  let (r, info) ← benchSumFirst long MAX_FILENUM 0 st.rename info
  return ({ st with rename := r }, info)

end FsBench
