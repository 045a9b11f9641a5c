import FsBench.Recorder.Basic
import Mathlib.Tactic.Ring

/-!
The size and the free space of a mounted medium: `sys_medium_get_info` of medium/sys_medium.c.
-/

namespace FsBench

inductive MediumFsType where
  | ext4
  | vfat
  | exfat
  | unknown
deriving DecidableEq

def MAGIC_FAT32 : Nat := 0x4d44
def MAGIC_EXT4 : Nat := 0xef53
def MAGIC_EXFAT : Nat := 0x65735546

structure Statfs where
  type : Nat
  bsize : Nat
  blocks : Nat
  bavail : Nat

/-- `SYS_MEDIUM_INFO_T`: sizes in MB, the size of a cluster in bytes. -/
structure MediumInfo where
  eType : MediumFsType
  uTotalSize : Nat
  uRemainSize : Nat
  uClusterSize : Nat

/-- `REPORT_FSINFO_T` -/
structure FsinfoReport where
  mountTime : Int
  statfsTime : Int
  opendirTime : Int
  readdirTime : Int

/--
The size in KB of so many blocks, as a `UINT`. Sizes and numbers of blocks have `long` bits; the
division comes first, on the one or on the other.
-/
def diskSize (long bsize blocks : Nat) : Nat :=
  if bsize ≥ 1024 then
    Word.trunc 32 (Word.mul long (bsize / 1024) blocks)
  else
    Word.trunc 32 (Word.mul long (blocks / 1024) bsize)

def mediumType (type : Nat) (eType : MediumFsType) : MediumFsType :=
  if type = MAGIC_EXFAT then
    .exfat
  else if type = MAGIC_FAT32 then
    .vfat
  else if type = MAGIC_EXT4 then
    .ext4
  else
    eType

/--
`stInfo` is what `statfs` does, `none` when it fails.
-/
def sysMediumGetInfo (long : Nat) (stInfo : Timed (Option Statfs)) (info : MediumInfo)
    (fsinfo : FsinfoReport) : MediumInfo × FsinfoReport × Int :=
  match stInfo.result with
  | none => ({ info with uTotalSize := 0, uRemainSize := 0, eType := .unknown }, fsinfo, -1)
  | some s =>
    let fsinfo := { fsinfo with statfsTime := stInfo.duration }
    if s.blocks < 1 then
      ({ info with uTotalSize := 0, uRemainSize := 0, eType := .unknown }, fsinfo, 0)
    else
      let uDiskTotalSize := diskSize long s.bsize (s.blocks - 1)
      let uDiskFreeSize := diskSize long s.bsize s.bavail
      let info :=
        { eType := mediumType s.type info.eType
          uTotalSize := uDiskTotalSize / 1024
          uRemainSize := uDiskFreeSize / 1024
          uClusterSize := Word.trunc 32 s.bsize }
      (info, fsinfo, 0)

theorem diskSize_mul_le {long bsize blocks : Nat}
    : diskSize long bsize blocks * 1024 ≤ blocks * bsize := by
  have hword : ∀ a b, Word.trunc 32 (Word.mul long a b) ≤ a * b :=
    fun a b => Nat.le_trans (Nat.mod_le _ _) (Nat.mod_le _ _)
  unfold diskSize
  split
  . calc Word.trunc 32 (Word.mul long (bsize / 1024) blocks) * 1024
      _ ≤ bsize / 1024 * blocks * 1024 := Nat.mul_le_mul_right _ (hword _ _)
      _ = blocks * (bsize / 1024 * 1024) := by ring
      _ ≤ blocks * bsize := Nat.mul_le_mul_left _ (Nat.div_mul_le_self ..)
  . calc Word.trunc 32 (Word.mul long (blocks / 1024) bsize) * 1024
      _ ≤ blocks / 1024 * bsize * 1024 := Nat.mul_le_mul_right _ (hword _ _)
      _ = blocks / 1024 * 1024 * bsize := by ring
      _ ≤ blocks * bsize := Nat.mul_le_mul_right _ (Nat.div_mul_le_self ..)

theorem sysMediumGetInfo_remain_le {long : Nat} {stInfo : Timed (Option Statfs)} {s : Statfs}
    {info : MediumInfo} {fsinfo : FsinfoReport} (h : stInfo.result = some s)
    : (sysMediumGetInfo long stInfo info fsinfo).1.uRemainSize * (1024 * 1024)
      ≤ s.bavail * s.bsize := by
  simp only [sysMediumGetInfo, h]
  split
  . rw [Nat.zero_mul]
    exact Nat.zero_le _
  . calc diskSize long s.bsize s.bavail / 1024 * (1024 * 1024)
      _ = diskSize long s.bsize s.bavail / 1024 * 1024 * 1024 := (Nat.mul_assoc ..).symm
      _ ≤ diskSize long s.bsize s.bavail * 1024 :=
        Nat.mul_le_mul_right _ (Nat.div_mul_le_self ..)
      _ ≤ s.bavail * s.bsize := diskSize_mul_le

/--
The figures are the sizes in MB, rounded down; the total leaves out one cluster, that of the root
directory.
-/
def MediumInfo.Exact (info : MediumInfo) (s : Statfs) : Prop :=
  info.uTotalSize = (s.blocks - 1) * s.bsize / 2 ^ 20 ∧ info.uRemainSize = s.bavail * s.bsize / 2 ^ 20

instance {info : MediumInfo} {s : Statfs} : Decidable (info.Exact s) :=
  inferInstanceAs (Decidable (_ ∧ _))

theorem diskSize_div_iff {long k : Nat} (blocks : Nat) (hlong : 32 ≤ long) (hk : 9 ≤ k)
    : diskSize long (2 ^ k) blocks / 1024 = blocks * 2 ^ k / 2 ^ 20 ↔ blocks * 2 ^ k < 2 ^ 42 := by
  -- neither order of the divisions loses anything, but the size in KB has to fit a `UINT`
  have htrunc : ∀ n, Word.trunc 32 (n % 2 ^ long) = n % 2 ^ 32 :=
    fun n => Nat.mod_mod_of_dvd n (Nat.pow_dvd_pow 2 hlong)
  unfold diskSize Word.mul
  rw [htrunc, htrunc]
  cases Nat.eq_or_lt_of_le hk with
  | inl heq =>
    rw [← heq, if_neg (by decide)]
    omega
  | inr hlt =>
    obtain ⟨j, rfl⟩ := Nat.exists_eq_add_of_le' (show 10 ≤ k from hlt)
    have hbytes : blocks * 2 ^ (j + 10) = 2 ^ j * blocks * 1024 := by ring
    have hdiv : 2 ^ (j + 10) / 1024 = 2 ^ j := by
      rw [Nat.pow_add]
      exact Nat.mul_div_cancel _ (by decide)
    have hlarge : 2 ^ (j + 10) ≥ 1024 := by
      rw [Nat.pow_add]
      exact Nat.le_mul_of_pos_left _ (Nat.two_pow_pos j)
    rw [if_pos hlarge, hdiv, hbytes]
    generalize 2 ^ j * blocks = size
    omega

theorem sysMediumGetInfo_exact_iff {long k : Nat} {stInfo : Timed (Option Statfs)} {s : Statfs}
    {info : MediumInfo} {fsinfo : FsinfoReport} (hlong : 32 ≤ long) (h : stInfo.result = some s)
    (hbsize : s.bsize = 2 ^ k) (hk : 9 ≤ k) (hblocks : 1 ≤ s.blocks)
    : (sysMediumGetInfo long stInfo info fsinfo).1.Exact s
      ↔ (s.blocks - 1) * s.bsize < 2 ^ 42 ∧ s.bavail * s.bsize < 2 ^ 42 := by
  have htotal := diskSize_div_iff (s.blocks - 1) hlong hk
  have hremain := diskSize_div_iff s.bavail hlong hk
  rw [← hbsize] at htotal hremain
  rw [← htotal, ← hremain]
  simp only [sysMediumGetInfo, h, if_neg (Nat.not_lt.mpr hblocks), MediumInfo.Exact]

def Statfs.disk : Statfs where
  type := MAGIC_FAT32
  bsize := 32768
  blocks := 2 ^ 27 + 1
  bavail := 2 ^ 27

theorem sysMediumGetInfo_exact_iff_disk
    : (sysMediumGetInfo 64 { start := 0, stop := 3, result := some .disk } ⟨.unknown, 0, 0, 0⟩
          ⟨0, 0, 0, 0⟩).1.Exact .disk
      ↔ (2 ^ 27 + 1 - 1) * 32768 < 2 ^ 42 ∧ 2 ^ 27 * 32768 < 2 ^ 42 :=
  sysMediumGetInfo_exact_iff (k := 15) (s := .disk) (by decide) rfl rfl (by decide) (by decide)

theorem sysMediumGetInfo_not_exact
    : (2 ^ 27 + 1) * 32768 < 2 ^ 64 ∧ 2 ^ 27 * 32768 / 2 ^ 20 < 2 ^ 32
      ∧ ¬(sysMediumGetInfo 64 { start := 0, stop := 3, result := some .disk } ⟨.unknown, 0, 0, 0⟩
          ⟨0, 0, 0, 0⟩).1.Exact .disk := by
  decide

end FsBench
