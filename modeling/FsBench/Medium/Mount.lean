import FsBench.Bench.Jobs
import FsBench.Medium.Command
import FsBench.Medium.Info

/-!
The mount point of main, and the functions of medium/sys_medium.c and posix/sys_posix_cmd.c that put
a medium on it and take it off. What `sys_posix_access` records is in the recorder modules.
-/

namespace FsBench

/--
The media that are mounted on `MOUNT_PATH`, the last one first, or `none` when there is no such
directory.
-/
abbrev MountPoint := Option (List CStr)

/--
The arguments of `mount` that depend on the medium. `data` is `NULL` for `none`.
-/
structure MountCall where
  source : CStr
  filesystemtype : CStr
  data : Option CStr

def sysMediumFsTypeConvertData.options : SysMediumFsType → Option CStr
  | .vfat => some "shortname=mixed,errors=continue,fmask=0077".toList
  | .ext4 => some "data=ordered".toList
  | .exfat => some "iocharset=cp936,fmask=0077".toList
  | .ntfs => some []
  | _ => none

/--
What is then in the buffer of `uSize` bytes, `none` for `ERROR`.
-/
def sysMediumFsTypeConvertData (eFsType : SysMediumFsType) (uSize : Nat) : Option CStr :=
  (sysMediumFsTypeConvertData.options eFsType).map (strncpy uSize)

/--
`granted` says whether `mount` succeeds on a directory that is there.
-/
def MountPoint.mount (granted : Bool) (call : MountCall) : MountPoint → MountPoint × Int
  | none => (none, -1)
  | some media => if granted then (some (call.source :: media), 0) else (some media, -1)

def MountPoint.umount (granted : Bool) : MountPoint → MountPoint × Int
  | some (medium :: media) => if granted then (some media, 0) else (some (medium :: media), -1)
  | point => (point, -1)

/--
`system` is what the shell makes of a command, and of the mount point.
-/
def sysMediumMount (mount : Timed Bool) (system : CStr → MountPoint → MountPoint × Int)
    (strDevPath : Option CStr) (eFsType : SysMediumFsType) (point : MountPoint)
    (fsinfo : FsinfoReport) : MountPoint × FsinfoReport × Int :=
  match strDevPath with
  | none => (point, fsinfo, -1)
  | some dev =>
    match sysMediumFsTypeConvertString eFsType 16 with
    | none => (point, fsinfo, -1)
    | some strFileSystem =>
      match sysMediumFsTypeConvertData eFsType 128 with
      | none => (point, fsinfo, -1)
      | some strData =>
        if eFsType = .exfat then
          let called := sysMediumMountExfat (fun strCmd => (system strCmd point).2) (some dev)
            (some MOUNT_PATH)
          ((called.command.map fun strCmd => (system strCmd point).1).getD point, fsinfo, called.ret)
        else
          let data := if eFsType = .ntfs then none else some strData
          let (point, iRet) := point.mount mount.result
            { source := dev, filesystemtype := strFileSystem, data }
          (point, { fsinfo with mountTime := mount.duration }, iRet)

def sysMediumUmount (granted : Bool) (point : MountPoint) : MountPoint × Int :=
  if point.isNone then (point, -1) else point.umount granted

def sysPosixMkdir (granted : Bool) (point : MountPoint) : MountPoint × Int :=
  if point.isSome then
    (point, 0)
  else if granted then
    (some [], 0)
  else
    (point, -1)

end FsBench
