import FsBench.Bench.Jobs
import FsBench.Medium.Info
import Mathlib.Tactic.GCongr
import Mathlib.Tactic.Ring

/-!
How much the jobs write: the sizing of the workload by main and `Testlibc_func`, from the free space
of the medium on.
-/

namespace FsBench

def SIZE_1KB : Nat := 0x00000400

def udiv (a b : Nat) : Option Nat :=
  if b = 0 then none else some (a / b)

/-- `THEAD_PARAM_T` without the index. -/
structure ThreadParam where
  prejobsize : Nat
  prejobfilenum : Nat
  prejobrwsize : Nat

/--
What main hands to each job. It leaves with `some none` when no file can be written.
-/
def threadParam (uRemainSize jobsNum filesize rwsize : Nat) : Option (Option ThreadParam) := do
  let prejobsize ← udiv uRemainSize jobsNum
  let prejobfilenum ← udiv prejobsize filesize
  if prejobfilenum = 0 then
    return none
  else
    return some { prejobsize, prejobfilenum, prejobrwsize := rwsize }

namespace ThreadParam

def count (param : ThreadParam) : Option Int := do
  let size ← udiv param.prejobsize param.prejobfilenum
  let count ← udiv (Word.mul 32 size 1024) param.prejobrwsize
  return Word.toSigned 32 count

def writeSize (param : ThreadParam) : Nat :=
  Word.mul 32 param.prejobrwsize SIZE_1KB

def writes (param : ThreadParam) : Option (List Nat) := do
  let count ← param.count
  return (List.range count.toNat).flatMap fun _ =>
    (List.range param.prejobfilenum).map fun _ => param.writeSize

end ThreadParam

theorem udiv_of_pos {a b : Nat} (h : 1 ≤ b) : udiv a b = some (a / b) :=
  if_neg (Nat.ne_of_gt h)

theorem threadParam_eq {uRemainSize jobsNum filesize : Nat} (rwsize : Nat) (hjobs : 1 ≤ jobsNum)
    (hfilesize : 1 ≤ filesize) (hfilenum : 1 ≤ prejobfilenum uRemainSize jobsNum filesize)
    : threadParam uRemainSize jobsNum filesize rwsize = some (some
      { prejobsize := prejobsize uRemainSize jobsNum
        prejobfilenum := prejobfilenum uRemainSize jobsNum filesize
        prejobrwsize := rwsize }) := by
  simp only [threadParam, udiv_of_pos hjobs, udiv_of_pos hfilesize, Option.bind_eq_bind,
    Option.bind_some]
  exact if_neg (Nat.ne_of_gt hfilenum)

theorem prejobsize_div_lt {uRemainSize jobsNum filesize : Nat} (hfilesize : 1 ≤ filesize)
    (hfilenum : 1 ≤ prejobfilenum uRemainSize jobsNum filesize)
    : prejobsize uRemainSize jobsNum / prejobfilenum uRemainSize jobsNum filesize
      < 2 * filesize := by
  rw [Nat.div_lt_iff_lt_mul hfilenum]
  calc prejobsize uRemainSize jobsNum
    _ < filesize * (prejobfilenum uRemainSize jobsNum filesize + 1) :=
      Nat.lt_mul_div_succ _ hfilesize
    _ ≤ filesize * (prejobfilenum uRemainSize jobsNum filesize
        + prejobfilenum uRemainSize jobsNum filesize) :=
      Nat.mul_le_mul_left _ (Nat.add_le_add_left hfilenum _)
    _ = 2 * filesize * prejobfilenum uRemainSize jobsNum filesize := by ring

theorem ThreadParam.writes_sum {param : ThreadParam} {count : Nat}
    (h : param.count = some (count : Int))
    : ∃ writes, param.writes = some writes
        ∧ writes.sum = count * (param.prejobfilenum * param.writeSize) := by
  unfold ThreadParam.writes
  rw [h, Option.bind_eq_bind, Option.bind_some, Int.toNat_natCast]
  refine ⟨_, rfl, ?_⟩
  simp [List.flatMap_def, List.map_const', Nat.mul_assoc]

theorem ThreadParam.count_eq {param : ThreadParam} {filesize : Nat}
    (hfilesize : filesize ≤ 1024) (hfilenum : 1 ≤ param.prejobfilenum)
    (hrwsize : 1 ≤ param.prejobrwsize)
    (hlt : param.prejobsize / param.prejobfilenum < 2 * filesize)
    : param.count = some
      ((param.prejobsize / param.prejobfilenum * 1024 / param.prejobrwsize : Nat) : Int) := by
  -- the rounds come out of three roundings, and no product overflows
  have hcountLe : param.prejobsize / param.prejobfilenum * 1024 / param.prejobrwsize
      ≤ param.prejobsize / param.prejobfilenum * 1024 := Nat.div_le_self ..
  unfold ThreadParam.count
  simp only [udiv_of_pos hfilenum, udiv_of_pos hrwsize, Option.bind_eq_bind, Option.bind_some]
  rw [Word.mul_of_lt (by omega)]
  generalize param.prejobsize / param.prejobfilenum * 1024 / param.prejobrwsize = count at hcountLe ⊢
  rw [Word.toSigned_of_fits]
  . rfl
  . unfold Word.Fits
    omega

theorem workload_fits {long : Nat} {stInfo : Timed (Option Statfs)} {s : Statfs} {info : MediumInfo}
    {fsinfo : FsinfoReport} {uRemainSize jobsNum filesize rwsize : Nat}
    (hstatfs : stInfo.result = some s)
    (hremain : (sysMediumGetInfo long stInfo info fsinfo).1.uRemainSize = uRemainSize)
    (hjobs : 1 ≤ jobsNum ∧ jobsNum ≤ 64) (hfilesize : 1 ≤ filesize ∧ filesize ≤ 1024)
    (hrwsize : 1 ≤ rwsize ∧ rwsize ≤ 1024)
    (hfilenum : 1 ≤ prejobfilenum uRemainSize jobsNum filesize)
    : ∃ param count writes, threadParam uRemainSize jobsNum filesize rwsize = some (some param)
        ∧ param.count = some (count : Nat) ∧ param.writes = some writes
        ∧ param.prejobsize / param.prejobfilenum * 1024 < 2 ^ 32 ∧ rwsize * SIZE_1KB < 2 ^ 32
        ∧ jobsNum * writes.sum = jobsNum * param.prejobfilenum * count * rwsize * 1024
        ∧ jobsNum * param.prejobfilenum * count * rwsize * 1024 ≤ s.bavail * s.bsize := by
  have hfree : uRemainSize * (1024 * 1024) ≤ s.bavail * s.bsize := by
    rw [← hremain]
    exact sysMediumGetInfo_remain_le hstatfs
  generalize hsize : prejobsize uRemainSize jobsNum = size
  generalize hnum : prejobfilenum uRemainSize jobsNum filesize = filenum at hfilenum
  have hlt : size / filenum < 2 * filesize := by
    rw [← hsize, ← hnum]
    rw [← hnum] at hfilenum
    exact prejobsize_div_lt hfilesize.1 hfilenum
  have hparam := threadParam_eq rwsize hjobs.1 hfilesize.1 (by rw [hnum]; exact hfilenum)
  rw [hsize, hnum] at hparam
  let param : ThreadParam := { prejobsize := size, prejobfilenum := filenum, prejobrwsize := rwsize }
  have hrounds : size / filenum * 1024 / rwsize * rwsize ≤ size / filenum * 1024 :=
    Nat.div_mul_le_self ..
  have hcount : param.count = some ((size / filenum * 1024 / rwsize : Nat) : Int) :=
    ThreadParam.count_eq hfilesize.2 hfilenum hrwsize.1 hlt
  generalize size / filenum * 1024 / rwsize = count at hrounds hcount
  obtain ⟨writes, hwrites, hsum⟩ := param.writes_sum hcount
  have hbuffer : rwsize * SIZE_1KB < 2 ^ 32 := by
    unfold SIZE_1KB
    omega
  have hwriteSize : param.writeSize = rwsize * SIZE_1KB := Word.mul_of_lt hbuffer
  have hproduct : size / filenum * 1024 < 2 ^ 32 := by omega
  refine ⟨param, count, writes, hparam, hcount, hwrites, hproduct, hbuffer, ?_, ?_⟩
  . rw [hsum, hwriteSize, SIZE_1KB]
    ring
  . -- from the last rounding back to the first one
    calc jobsNum * filenum * count * rwsize * 1024
      _ = jobsNum * (filenum * (count * rwsize)) * 1024 := by ring
      _ ≤ jobsNum * (filenum * (size / filenum * 1024)) * 1024 := by gcongr
      _ = jobsNum * (filenum * (size / filenum)) * (1024 * 1024) := by ring
      _ ≤ jobsNum * size * (1024 * 1024) := by
        gcongr
        exact Nat.mul_div_le ..
      _ ≤ uRemainSize * (1024 * 1024) := by
        gcongr
        rw [← hsize]
        exact Nat.mul_div_le ..
      _ ≤ s.bavail * s.bsize := hfree

/-- An empty FAT32 card of 29 GB with clusters of 32 KB. -/
def Statfs.card : Statfs where
  type := MAGIC_FAT32
  bsize := 32768
  blocks := 950000
  bavail := 949000

theorem workload_fits_card
    : ∃ param count writes, threadParam 29656 4 210 512 = some (some param)
        ∧ param.count = some (count : Nat) ∧ param.writes = some writes
        ∧ param.prejobsize / param.prejobfilenum * 1024 < 2 ^ 32 ∧ 512 * SIZE_1KB < 2 ^ 32
        ∧ 4 * writes.sum = 4 * param.prejobfilenum * count * 512 * 1024
        ∧ 4 * param.prejobfilenum * count * 512 * 1024 ≤ 949000 * 32768 := by
  let info : MediumInfo := { eType := .unknown, uTotalSize := 0, uRemainSize := 0, uClusterSize := 0 }
  let fsinfo : FsinfoReport := { mountTime := 0, statfsTime := 0, opendirTime := 0, readdirTime := 0 }
  let stInfo : Timed (Option Statfs) := { start := 0, stop := 3, result := some .card }
  have hremain : (sysMediumGetInfo 64 stInfo info fsinfo).1.uRemainSize = 29656 := by decide
  exact workload_fits (s := .card) rfl hremain (by decide) (by decide) (by decide)
    (by decide)

theorem div_le_iff_mod_lt {size filesize : Nat} (hfilenum : 1 ≤ size / filesize)
    : size / (size / filesize) ≤ filesize ↔ size % filesize < size / filesize := by
  have hsplit := Nat.div_add_mod size filesize
  have hshare : size / (size / filesize) ≤ filesize
      ↔ size < (filesize + 1) * (size / filesize) := by
    rw [← Nat.lt_add_one_iff, Nat.div_lt_iff_lt_mul hfilenum]
  rw [hshare, Nat.succ_mul]
  omega

theorem rounds_mul_le_iff {size filesize rwsize : Nat} (hrwsize : 1 ≤ rwsize ∧ rwsize ≤ 1024)
    : size * 1024 / rwsize * rwsize ≤ filesize * 1024 ↔ size ≤ filesize := by
  constructor
  . intro h
    by_contra hlt
    have hle : (filesize + 1) * 1024 ≤ size * 1024 := Nat.mul_le_mul_right _ (by omega)
    have hrest := Nat.lt_div_mul_add hrwsize.1 (a := size * 1024)
    omega
  . intro h
    calc size * 1024 / rwsize * rwsize
      _ ≤ size * 1024 := Nat.div_mul_le_self ..
      _ ≤ filesize * 1024 := Nat.mul_le_mul_right _ h

theorem fileSize_le_iff {uRemainSize jobsNum filesize rwsize : Nat} (hjobs : 1 ≤ jobsNum)
    (hfilesize : 1 ≤ filesize ∧ filesize ≤ 1024) (hrwsize : 1 ≤ rwsize ∧ rwsize ≤ 1024)
    (hfilenum : 1 ≤ prejobfilenum uRemainSize jobsNum filesize)
    : ∃ param count, threadParam uRemainSize jobsNum filesize rwsize = some (some param)
        ∧ param.count = some (count : Nat)
        ∧ (count * rwsize ≤ filesize * 1024
          ↔ uRemainSize / jobsNum % filesize < uRemainSize / jobsNum / filesize) := by
  refine ⟨_, _, threadParam_eq rwsize hjobs hfilesize.1 hfilenum,
    ThreadParam.count_eq hfilesize.2 hfilenum hrwsize.1 (prejobsize_div_lt hfilesize.1 hfilenum), ?_⟩
  rw [rounds_mul_le_iff hrwsize]
  exact div_le_iff_mod_lt hfilenum

theorem fileSize_le_iff_one
    : ∃ param count, threadParam 300 1 210 512 = some (some param) ∧ param.count = some (count : Nat)
        ∧ (count * 512 ≤ 210 * 1024 ↔ 300 / 1 % 210 < 300 / 1 / 210) :=
  fileSize_le_iff (by decide) (by decide) (by decide) (by decide)

theorem fileSize_not_le
    : ∃ param, threadParam 300 1 210 512 = some (some param) ∧ param.count = some 600
        ∧ ¬600 * 512 ≤ 210 * 1024 :=
  ⟨⟨300, 1, 512⟩, rfl, rfl, by decide⟩

end FsBench
