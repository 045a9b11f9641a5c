import FsBench.Recorder.Posix

/-!
The csv files of `sys_libc_gencsv` and `sys_posix_gencsv`: one row for each recorder, with the
entries of its array in the order in which they lie there.
-/

namespace FsBench

structure CsvRow where
  name : CStr
  samples : List Int

/--
`"%d,"` for each sample, without the comma behind the last one.
-/
def CsvRow.samplesText : List Int → CStr
  | [] => []
  | [x] => decimal x
  | x :: samples => decimal x ++ ',' :: samplesText samples

def CsvRow.text (row : CsvRow) : CStr :=
  row.name ++ [':', ','] ++ samplesText row.samples ++ ['\n']

def csvSamples (time : List Int) (len : Nat) : Option (List Int) :=
  Loop.upTo len (fun i samples => do
    let x ← time[i]?
    some (samples ++ [x])) []

/--
One row. `cap` is the length taken when the flag is 1.
-/
def csvRow (name : String) (cap : Nat) (r : Recorder Int) : Option CsvRow := do
  let len := if r.flag = 1 then cap else r.count
  let samples ← csvSamples r.time len
  return { name := name.toList, samples }

/--
The rows that are printed into the file. When it does not open, a message comes before them.
-/
def sysLibcGencsv (st : Recorders) : Option (List CsvRow) := do
  let fopen ← csvRow "fopen" MAX_FOPEN st.fopen
  let fread ← csvRow "fread" MAX_FREAD st.fread
  let fwrite ← csvRow "fwrite" MAX_FWRITE st.fwrite
  let fflush ← csvRow "fflush" MAX_FSYNC st.fsync.fflush
  let fileno ← csvRow "fileno" MAX_FSYNC st.fsync.fileno
  let fsync ← csvRow "fsync" MAX_FSYNC st.fsync.fsync
  let fclose ← csvRow "fclose" MAX_FCLOSE st.fclose
  let fstat ← csvRow "fstat" MAX_FSTAT st.fstat
  return [fopen, fread, fwrite, fflush, fileno, fsync, fclose, fstat]

def sysPosixGencsv (st : Recorders) : Option (List CsvRow) := do
  let access ← csvRow "access" MAX_FILENUM st.access
  let unlink ← csvRow "unlink" MAX_FILENUM st.unlink
  let sync ← csvRow "sync" MAX_SYNC st.sync
  let rename ← csvRow "rename" MAX_FILENUM st.rename
  return [access, unlink, sync, rename]

theorem csvSamples_eq {time : List Int} {len : Nat} (hlen : len ≤ time.length)
    : csvSamples time len = some (time.take len) := by
  have hrun : ∃ samples, csvSamples time len = some samples ∧ samples = time.take len := by
    apply Loop.upTo_invariant (fun i samples => samples = time.take i) rfl
    intro i samples hi hsamples
    have hget : time[i]? = some time[i] := List.getElem?_eq_getElem (by omega)
    refine ⟨samples ++ [time[i]], ?_, ?_⟩
    . simp only [hget, Option.bind_eq_bind, Option.bind_some]
    . rw [hsamples, List.take_add_one, hget]
      rfl
  obtain ⟨samples, hrun, rfl⟩ := hrun
  exact hrun

section Row

variable {name : String} {cap : Nat} {r : Recorder Int}

theorem csvRow_length (hflag : r.flag ≤ 1)
    : (if r.flag = 1 then cap else r.count) = r.length cap := by
  -- the flag is looked at in another way than in the `*_bench` functions
  unfold Recorder.length
  split <;> split <;> omega

theorem csvRow_eq (hflag : r.flag ≤ 1) (hlen : r.length cap ≤ r.time.length)
    : csvRow name cap r
      = some { name := name.toList, samples := r.time.take (r.length cap) } := by
  unfold csvRow
  rw [csvRow_length hflag]
  simp only [csvSamples_eq hlen, Option.bind_eq_bind, Option.bind_some]
  rfl

theorem csvRow_outside (hflag : r.flag ≤ 1) (hlen : r.time.length < r.length cap)
    : csvRow name cap r = none := by
  have hnone : csvSamples r.time (r.length cap) = none := Loop.upTo_eq_none hlen (by simp)
  unfold csvRow
  rw [csvRow_length hflag]
  simp only [hnone, Option.bind_eq_bind, Option.bind_none]

end Row

end FsBench
