import FsBench.Common.Text
import FsBench.Lib.Separated

/-!
The functions that put a shell command together in a buffer and run it: `sys_medium_format` and
`sys_medium_mount_exfat` of medium/sys_medium.c, `sys_posix_move` and `sys_posix_cp` of
posix/sys_posix_cmd.c.
-/

namespace FsBench

/-- `SYS_MEDIUM_FS_TYPE_E` -/
inductive SysMediumFsType where
  | ext
  | ext2
  | ext3
  | ext4
  | hpfs
  | ios9660
  | jfs
  | minix
  | msdos
  | ncpfs
  | nfs
  | ntfs
  | proc
  | reiserfs
  | smb
  | sysv
  | umsdos
  | vfat
  | xfs
  | xiafs
  | exfat
  | unknown
deriving DecidableEq

/--
What a function returns, and the command that it has handed to `sys_posix_cmd_call`.
-/
structure Called where
  ret : Int
  command : Option CStr

/--
`system` is what the shell makes of a command.
-/
def sysPosixCmdCall (system : CStr → Int) (strCmd : CStr) : Called where
  ret := system strCmd
  command := some strCmd

def Called.error : Called where
  ret := -1
  command := none

def sysMediumFsTypeConvertString.name : SysMediumFsType → Option CStr
  | .vfat => some "vfat".toList
  | .xfs => some "xfs".toList
  | .ext => some "ext".toList
  | .ext2 => some "ext2".toList
  | .ext3 => some "ext3".toList
  | .ext4 => some "ext4".toList
  | .ntfs => some "ntfs".toList
  | .jfs => some "jfs".toList
  | .nfs => some "nfs".toList
  | .exfat => some "exfat".toList
  | _ => none

/--
What is copied into the buffer of `uSize` bytes, `none` for -1.
-/
def sysMediumFsTypeConvertString (eFsType : SysMediumFsType) (uSize : Nat) : Option CStr :=
  (sysMediumFsTypeConvertString.name eFsType).map (strncpy uSize)

def sysMediumFormat.extendCmd (eFsType : SysMediumFsType) (uBlockNum : Nat) : CStr :=
  match eFsType with
  -- The option that is copied when there are no blocks is printed over.
  | .vfat => snprintf (32 - 1) ("-F 32 -s ".toList ++ decimal (Word.toSigned 32 uBlockNum))
  | .ext | .ext2 | .ext3 | .ext4 => strncpy 32 "-m 0.05 -s 256".toList
  | .exfat => snprintf (32 - 1) ("-s ".toList ++ decimal (Word.toSigned 32 uBlockNum))
  | _ => []

def sysMediumFormat (system : CStr → Int) (strDevPath : Option CStr) (eFsType : SysMediumFsType)
    (uUintSize : Nat) : Called :=
  let uBlockSize := 512
  let uBlockNum := uUintSize / uBlockSize
  match strDevPath with
  | none => .error
  | some strDevPath =>
    let strExtendCmd := sysMediumFormat.extendCmd eFsType uBlockNum
    match sysMediumFsTypeConvertString eFsType 8 with
    | none => .error
    | some strFileSystem =>
      let strSysFormatCmd := snprintf 64
        ("mkfs.".toList ++ strFileSystem ++ [' '] ++ strExtendCmd ++ [' '] ++ strDevPath)
      sysPosixCmdCall system strSysFormatCmd

def callWithPaths (system : CStr → Int) (size : Nat) (format : CStr → CStr → CStr)
    (first second : Option CStr) : Called :=
  match first, second with
  | some first, some second => sysPosixCmdCall system (snprintf size (format first second))
  | _, _ => .error

def sysMediumMountExfat (system : CStr → Int) (strDevPath strMountPath : Option CStr) : Called :=
  callWithPaths system 64
    (fun dev mount => "mount.exfat ".toList ++ dev ++ [' '] ++ mount ++ " -o nonempty".toList)
    strDevPath strMountPath

def sysPosixMove (system : CStr → Int) (strSrcPath strDstPath : Option CStr) : Called :=
  callWithPaths system (128 - 1) (fun src dst => "mv ".toList ++ src ++ [' '] ++ dst) strSrcPath
    strDstPath

def sysPosixCp (system : CStr → Int) (strSrcPath strDstPath : Option CStr) : Called :=
  callWithPaths system (128 - 1) (fun src dst => "cp ".toList ++ src ++ [' '] ++ dst) strSrcPath
    strDstPath

/--
What a command is to say: the paths, with blanks between them, and what stands around them.
-/
structure Request where
  pre : CStr
  paths : List CStr
  options : CStr

namespace Request

def text (r : Request) : CStr :=
  r.pre ++ [' '].intercalate r.paths ++ r.options

/--
The command has every path in full, and the last one at its end but for the options.
-/
structure Complete (r : Request) (command : CStr) : Prop where
  paths_infix : ∀ path ∈ r.paths, path <:+: command
  last_suffix : ∀ path, r.paths.getLast? = some path → path ++ r.options <:+ command

def call (system : CStr → Int) (size : Nat) : Option Request → Called
  | none => .error
  | some r => sysPosixCmdCall system (snprintf size r.text)

end Request

/--
Without a request an error is returned and nothing is run. Otherwise a command is run, and if its
text fits, it is complete.
-/
def Called.Answers (c : Called) (system : CStr → Int) (size : Nat) : Option Request → Prop
  | none => c.ret < 0 ∧ c.command = none
  | some r => ∃ command, c.command = some command ∧ c.ret = system command
      ∧ (r.text.length < size → r.Complete command)

def formatRequest (strDevPath : Option CStr) (eFsType : SysMediumFsType) (uUintSize : Nat)
    : Option Request := do
  let dev ← strDevPath
  let name ← sysMediumFsTypeConvertString eFsType 8
  let extend := sysMediumFormat.extendCmd eFsType (uUintSize / 512)
  return { pre := "mkfs.".toList ++ name ++ [' '] ++ extend ++ [' '], paths := [dev], options := [] }

def pathsRequest (pre options : CStr) (first second : Option CStr) : Option Request := do
  let first ← first
  let second ← second
  return { pre, paths := [first, second], options }

def ZeroCluster (options : CStr) : Prop :=
  ["-s".toList, "0".toList] <:+: options.splitOn ' '

instance {options : CStr} : Decidable (ZeroCluster options) :=
  inferInstanceAs (Decidable (_ <:+: _))

section

variable {system : CStr → Int} {size uBlockNum uUintSize : Nat} {r : Request}
  {eFsType : SysMediumFsType} {strDevPath : Option CStr}

theorem Request.complete_text : r.Complete r.text := by
  unfold Request.text
  constructor
  . intro path hpath
    have hpaths := (Separated.infix_intercalate (c := ' ') hpath).trans
      (List.suffix_append r.pre _).isInfix
    exact hpaths.trans (List.prefix_append _ _).isInfix
  . intro path hpath
    obtain ⟨before, hbefore⟩ := Separated.suffix_intercalate (c := ' ') hpath
    rw [← hbefore, List.append_assoc, List.append_assoc]
    exact (List.suffix_append _ _).trans (List.suffix_append _ _)

theorem Request.pre_prefix_text : r.pre <+: r.text := by
  rw [text, List.append_assoc]
  exact List.prefix_append _ _

theorem Request.call_answers (r : Option Request)
    : (Request.call system size r).Answers system size r := by
  cases r with
  | none => exact ⟨show (-1 : Int) < 0 by decide, rfl⟩
  | some r =>
    refine ⟨_, rfl, rfl, ?_⟩
    intro hfits
    rw [snprintf_of_lt hfits]
    exact complete_text

theorem callWithPaths_eq {pre options : CStr} {format : CStr → CStr → CStr}
    (hformat : ∀ first second, format first second = pre ++ first ++ [' '] ++ second ++ options)
    (first second : Option CStr)
    : callWithPaths system size format first second
      = Request.call system size (pathsRequest pre options first second) := by
  cases first with
  | none => rfl
  | some first =>
    cases second with
    | none => rfl
    | some second =>
      have htext : format first second = Request.text ⟨pre, [first, second], options⟩ := by
        rw [hformat, Request.text]
        simp
      rw [callWithPaths, htext]
      rfl

theorem sysMediumFormat_eq
    : sysMediumFormat system strDevPath eFsType uUintSize
      = Request.call system 64 (formatRequest strDevPath eFsType uUintSize) := by
  cases strDevPath with
  | none => rfl
  | some dev =>
    cases hname : sysMediumFsTypeConvertString eFsType 8 with
    | none =>
      simp only [sysMediumFormat, formatRequest, hname]
      rfl
    | some name =>
      simp only [sysMediumFormat, formatRequest, hname, Option.bind_eq_bind, Option.bind_some]
      simp [Request.call, Request.text]

theorem formatRequest_eq_some (h : formatRequest strDevPath eFsType uUintSize = some r)
    : ∃ dev name, strDevPath = some dev ∧ sysMediumFsTypeConvertString eFsType 8 = some name
        ∧ r =
          { pre := "mkfs.".toList ++ name ++ [' ']
              ++ sysMediumFormat.extendCmd eFsType (uUintSize / 512) ++ [' ']
            paths := [dev]
            options := [] } := by
  cases strDevPath with
  | none => cases h
  | some dev =>
    cases hname : sysMediumFsTypeConvertString eFsType 8 with
    | none =>
      simp only [formatRequest, hname] at h
      cases h
    | some name =>
      simp only [formatRequest, hname] at h
      cases h
      exact ⟨dev, name, rfl, rfl, rfl⟩

theorem toSigned_uBlockNum (hsize : uUintSize < 2 ^ 32)
    : Word.toSigned 32 (uUintSize / 512 : Nat) = (uUintSize / 512 : Nat) := by
  apply Word.toSigned_of_fits
  unfold Word.Fits
  omega

theorem snprintf_uBlockNum (hsize : uUintSize < 2 ^ 32) {option : CStr} (hoption : option.length ≤ 9)
    : snprintf (32 - 1) (option ++ decimal (Word.toSigned 32 (uUintSize / 512 : Nat)))
      = option ++ decimal (uUintSize / 512 : Nat) := by
  have hdigits := decimal_length (Word.toSigned_fits (w := 32) (uUintSize / 512 : Nat))
  rw [snprintf_of_lt, toSigned_uBlockNum hsize]
  rw [List.length_append]
  omega

theorem ZeroCluster.mem {words : List CStr} (hne : words ≠ []) (hwords : ∀ w ∈ words, ' ' ∉ w)
    (h : ZeroCluster ([' '].intercalate words)) : "0".toList ∈ words := by
  rw [ZeroCluster, List.splitOn_intercalate ' ' hwords hne] at h
  exact h.subset (by simp)

theorem not_zeroCluster {words : List CStr} {n : Nat} (hn : n ≠ 0)
    (hwords : ∀ w ∈ words, ' ' ∉ w ∧ w ≠ "0".toList)
    : ¬ZeroCluster ([' '].intercalate (words ++ [decimal n, []])) := by
  intro h
  have hblank : ' ' ∉ decimal n := by
    intro hmem
    rcases mem_decimal hmem with heq | hdigit
    . exact absurd heq (by decide)
    . exact absurd hdigit (by decide)
  have hzero : decimal n ≠ "0".toList := by
    intro heq
    have : (n : Int) = (0 : Nat) := decimal_injective (heq.trans (by decide))
    omega
  have hmem := h.mem (by simp) (by
    intro w hw
    rcases List.mem_append.mp hw with hw | hw
    . exact (hwords w hw).1
    . rcases List.mem_pair.mp hw with rfl | rfl
      . exact hblank
      . exact List.not_mem_nil)
  rcases List.mem_append.mp hmem with hmem | hmem
  . exact (hwords _ hmem).2 rfl
  . rcases List.mem_pair.mp hmem with heq | heq
    . exact hzero heq.symm
    . exact absurd heq (by decide)

theorem formatRequest_not_zeroCluster (hsize : uUintSize < 2 ^ 32)
    (hunit : eFsType = .vfat ∨ eFsType = .exfat → 512 ≤ uUintSize)
    (hr : formatRequest strDevPath eFsType uUintSize = some r) : ¬ZeroCluster r.pre := by
  cases strDevPath with
  | none => cases hr
  | some dev =>
    have hblocks : eFsType = .vfat ∨ eFsType = .exfat → uUintSize / 512 ≠ 0 := by
      intro h
      have := hunit h
      omega
    cases eFsType with
    | vfat =>
      cases hr
      -- the words of the options, and an empty one behind the last blank
      have hpre : "mkfs.".toList ++ strncpy 8 "vfat".toList ++ [' ']
          ++ ("-F 32 -s ".toList ++ decimal (uUintSize / 512 : Nat)) ++ [' ']
          = [' '].intercalate (["mkfs.vfat".toList, "-F".toList, "32".toList, "-s".toList]
            ++ [decimal (uUintSize / 512 : Nat), []]) := rfl
      rw [sysMediumFormat.extendCmd, snprintf_uBlockNum hsize (by decide)]
      dsimp only
      rw [hpre]
      exact not_zeroCluster (hblocks (.inl rfl)) (by decide)
    | exfat =>
      cases hr
      have hpre : "mkfs.".toList ++ strncpy 8 "exfat".toList ++ [' ']
          ++ ("-s ".toList ++ decimal (uUintSize / 512 : Nat)) ++ [' ']
          = [' '].intercalate (["mkfs.exfat".toList, "-s".toList]
            ++ [decimal (uUintSize / 512 : Nat), []]) := rfl
      rw [sysMediumFormat.extendCmd, snprintf_uBlockNum hsize (by decide)]
      dsimp only
      rw [hpre]
      exact not_zeroCluster (hblocks (.inr rfl)) (by decide)
    | ext | ext2 | ext3 | ext4 | xfs | ntfs | jfs | nfs =>
      cases hr
      dsimp only [sysMediumFormat.extendCmd]
      decide
    | _ => cases hr

theorem sysMediumFsTypeConvertString_length_le {name : CStr}
    (h : sysMediumFsTypeConvertString eFsType size = some name) : name.length ≤ size := by
  obtain ⟨_, _, rfl⟩ := Option.map_eq_some_iff.mp h
  exact strncpy_length_le

theorem extendCmd_length_le
    : (sysMediumFormat.extendCmd eFsType uBlockNum).length ≤ 32 := by
  cases eFsType with
  | vfat | exfat => exact Nat.le_trans snprintf_length_le (by decide)
  | ext | ext2 | ext3 | ext4 => exact strncpy_length_le
  | _ => exact Nat.zero_le _

theorem formatRequest_pre (h : formatRequest strDevPath eFsType uUintSize = some r)
    : r.pre <+: snprintf 64 r.text := by
  -- what stands before the path is shorter than the buffer
  obtain ⟨dev, name, _, hname, rfl⟩ := formatRequest_eq_some h
  have hlen := sysMediumFsTypeConvertString_length_le hname
  have hextend := @extendCmd_length_le (uUintSize / 512) eFsType
  have hmkfs : "mkfs.".toList.length = 5 := by decide
  refine List.prefix_take_iff.mpr ⟨Request.pre_prefix_text, ?_⟩
  simp only [List.length_append, List.length_singleton, hmkfs]
  omega

theorem commands_complete (system : CStr → Int) {uUintSize : Nat} (hsize : uUintSize < 2 ^ 32)
    (eFsType : SysMediumFsType) (strDevPath strMountPath strSrcPath strDstPath : Option CStr)
    : (sysMediumFormat system strDevPath eFsType uUintSize).Answers system 64
        (formatRequest strDevPath eFsType uUintSize)
      ∧ (sysMediumMountExfat system strDevPath strMountPath).Answers system 64
        (pathsRequest "mount.exfat ".toList " -o nonempty".toList strDevPath strMountPath)
      ∧ (sysPosixMove system strSrcPath strDstPath).Answers system 127
        (pathsRequest "mv ".toList [] strSrcPath strDstPath)
      ∧ (sysPosixCp system strSrcPath strDstPath).Answers system 127
        (pathsRequest "cp ".toList [] strSrcPath strDstPath)
      ∧ ∀ r, formatRequest strDevPath eFsType uUintSize = some r →
        (∃ command, (sysMediumFormat system strDevPath eFsType uUintSize).command = some command
            ∧ r.pre <+: command)
          ∧ ((eFsType = .vfat ∨ eFsType = .exfat → 512 ≤ uUintSize) → ¬ZeroCluster r.pre) := by
  refine ⟨?_, ?_, ?_, ?_, ?_⟩
  . rw [sysMediumFormat_eq]
    exact Request.call_answers _
  . rw [sysMediumMountExfat, callWithPaths_eq fun _ _ => rfl]
    exact Request.call_answers _
  . rw [sysPosixMove, callWithPaths_eq fun _ _ => (List.append_nil _).symm]
    exact Request.call_answers _
  . rw [sysPosixCp, callWithPaths_eq fun _ _ => (List.append_nil _).symm]
    exact Request.call_answers _
  . intro r hr
    rw [sysMediumFormat_eq, hr]
    exact ⟨⟨_, rfl, formatRequest_pre hr⟩, fun hunit => formatRequest_not_zeroCluster hsize hunit hr⟩

def SDA1 : CStr := "/dev/sda1".toList

def MNT : CStr := "/mnt".toList

def BY_PATH : CStr := "/dev/disk/by-path/platform-3f980000.usb-usb-0:1.3:1.0-scsi-0:0:0:0-part1".toList

theorem commands_complete_sda1
    : (sysPosixCp (fun _ => 0) (some SDA1) (some MNT)).Answers (fun _ => 0) 127
        (pathsRequest "cp ".toList [] (some SDA1) (some MNT))
      ∧ ∀ r, formatRequest (some SDA1) .exfat 4194304 = some r →
        (∃ command, (sysMediumFormat (fun _ => 0) (some SDA1) .exfat 4194304).command = some command
            ∧ r.pre <+: command)
          ∧ ¬ZeroCluster r.pre := by
  have hsize : 4194304 < 2 ^ 32 := by decide
  obtain ⟨_, _, _, hcp, hmkfs⟩ :=
    commands_complete (fun _ => 0) hsize .exfat (some SDA1) (some MNT) (some SDA1) (some MNT)
  exact ⟨hcp, fun r hr => ⟨(hmkfs r hr).1, (hmkfs r hr).2 fun _ => by decide⟩⟩

theorem commands_not_complete
    : ∃ mount mkfs cluster,
        (sysMediumMountExfat (fun _ => 0) (some SDA1) (some MNT)).command = some mount
          ∧ ¬MNT <:+ mount
          ∧ (sysMediumFormat (fun _ => 0) (some BY_PATH) .ext4 0).command = some mkfs
          ∧ ¬BY_PATH <:+: mkfs
          ∧ (sysMediumFormat (fun _ => 0) (some SDA1) .vfat 0).command = some cluster
          ∧ ZeroCluster cluster :=
  ⟨_, _, _, rfl, by decide, rfl, by decide, rfl, by decide⟩

end

end FsBench
