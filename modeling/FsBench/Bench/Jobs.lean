import FsBench.Common.Text

/-!
The files of the jobs: how many main gives to each of them and under which paths `Testlibc_func`
opens them.
-/

namespace FsBench

def MOUNT_PATH : CStr := "/tmp/testmmc".toList

def TEST : CStr := "test".toList

def MP4 : CStr := ".mp4".toList

def prejobsize (uRemainSize jobsNum : Nat) : Nat :=
  uRemainSize / jobsNum

def prejobfilenum (uRemainSize jobsNum filesize : Nat) : Nat :=
  prejobsize uRemainSize jobsNum / filesize

def testName (n : Int) : CStr :=
  TEST ++ decimal n ++ MP4

/--
`param->index*64+i` is unsigned and printed as an `int`.
-/
def testNumber (index i : Nat) : Int :=
  Word.toSigned 32 (Word.add 32 (Word.mul 32 index 64) i)

def testPath (index i : Nat) : CStr :=
  snprintf 127 (MOUNT_PATH ++ ['/'] ++ testName (testNumber index i))

structure JobFile (jobsNum filenum : Nat) where
  index : Nat
  i : Nat
  index_lt : index < jobsNum
  i_lt : i < filenum

def JobFile.path {jobsNum filenum : Nat} (f : JobFile jobsNum filenum) : CStr :=
  testPath f.index f.i

theorem testName_length {n : Int} (h : Word.Fits 32 n) : (testName n).length ≤ 19 := by
  have := decimal_length h
  have htest : TEST.length = 4 := by decide
  have hmp4 : MP4.length = 4 := by decide
  rw [testName, List.length_append, List.length_append]
  omega

theorem testPath_eq {index i : Nat}
    : testPath index i = MOUNT_PATH ++ ['/'] ++ testName (testNumber index i) := by
  apply snprintf_of_lt
  have := testName_length (Word.toSigned_fits (Word.add 32 (Word.mul 32 index 64) i))
  have hmount : (MOUNT_PATH ++ ['/']).length = 13 := by decide
  rw [List.length_append, hmount, testNumber]
  omega

theorem testName_injective {m n : Int} (h : testName m = testName n) : m = n := by
  unfold testName at h
  exact decimal_injective (List.append_cancel_left (List.append_cancel_right h))

theorem testPath_eq_iff {index i index' i' : Nat}
    : testPath index i = testPath index' i'
        ↔ (index * 64 + i) % 2 ^ 32 = (index' * 64 + i') % 2 ^ 32 := by
  have hnumber : ∀ a b, Word.add 32 (Word.mul 32 a 64) b = (a * 64 + b) % 2 ^ 32 := by
    intro a b
    simp [Word.add, Word.mul]
  rw [testPath_eq, testPath_eq]
  constructor
  . intro h
    have h := testName_injective (List.append_cancel_left h)
    rw [testNumber, testNumber, hnumber, hnumber] at h
    have hlt := Nat.mod_lt (index * 64 + i) (Nat.two_pow_pos 32)
    have hlt' := Nat.mod_lt (index' * 64 + i') (Nat.two_pow_pos 32)
    exact Word.toSigned_injective hlt hlt' h
  . intro h
    rw [testNumber, testNumber, hnumber, hnumber, h]

theorem jobFile_path_injective_iff {uRemainSize jobsNum filesize : Nat}
    (hremain : uRemainSize < 2 ^ 32) (hjobs : 1 ≤ jobsNum ∧ jobsNum ≤ 64)
    : (∀ f g : JobFile jobsNum (prejobfilenum uRemainSize jobsNum filesize),
        f ≠ g → f.path ≠ g.path)
      ↔ jobsNum = 1 ∨ prejobfilenum uRemainSize jobsNum filesize ≤ 64 := by
  have hle : prejobfilenum uRemainSize jobsNum filesize ≤ uRemainSize :=
    (Nat.div_le_self _ _).trans (Nat.div_le_self _ _)
  constructor
  . intro h
    by_contra hnot
    rw [not_or, Nat.not_le] at hnot
    let f : JobFile jobsNum (prejobfilenum uRemainSize jobsNum filesize) :=
      { index := 0, i := 64, index_lt := by omega, i_lt := hnot.2 }
    let g : JobFile jobsNum (prejobfilenum uRemainSize jobsNum filesize) :=
      { index := 1, i := 0, index_lt := by omega, i_lt := by omega }
    have hne : f ≠ g := by simp [f, g]
    -- file 64 of job 0 has the number of file 0 of job 1
    have hpath : testPath 0 64 = testPath 1 0 := testPath_eq_iff.mpr (by decide)
    exact h f g hne hpath
  . intro h f g hne hpath
    replace hpath := testPath_eq_iff.mp hpath
    have hf := f.index_lt
    have hg := g.index_lt
    have hfi := f.i_lt
    have hgi := g.i_lt
    have hindex : f.index = g.index ∧ f.i = g.i := by
      cases h with
      | inl hone => omega
      | inr hfew => omega
    apply hne
    cases f
    cases g
    simpa using hindex

theorem jobFile_path_injective_iff_two
    : (∀ f g : JobFile 2 (prejobfilenum 30000 2 210), f ≠ g → f.path ≠ g.path)
      ↔ 2 = 1 ∨ prejobfilenum 30000 2 210 ≤ 64 :=
  jobFile_path_injective_iff (by decide) (by decide)

theorem jobFile_path_shared
    : ¬ ∀ f g : JobFile 2 (prejobfilenum 30000 2 210), f ≠ g → f.path ≠ g.path := by
  -- 71 files for a job: file 64 of job 0 is file 0 of job 1
  intro h
  have hpath : testPath 0 64 = testPath 1 0 := testPath_eq_iff.mpr (by decide)
  exact h { index := 0, i := 64, index_lt := by decide, i_lt := by decide }
    { index := 1, i := 0, index_lt := by decide, i_lt := by decide } (by simp) hpath

end FsBench
