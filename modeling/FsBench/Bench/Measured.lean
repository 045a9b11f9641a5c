import FsBench.Bench.Reports
import FsBench.Bench.Streams
import Mathlib.Algebra.BigOperators.Fin
import Mathlib.Data.Nat.Count

/-!
What a run of main measures: its own recording calls in front of the jobs, those behind the calls of
`Testlibc_func`, and how many durations the reports are about. One recording call is taken to be over
before the next one begins.
-/

namespace FsBench

def Timed.returns {β γ : Type} (c : Timed β) (result : γ) : Timed γ where
  start := c.start
  stop := c.stop
  result := result

/--
A call of a job and the calls of the system in it, of which there are at most three. What decides
whether a duration is kept is in `JobAnswers`, not in their results.
-/
structure JobAction (n : Nat) where
  call : JobCall n
  first : Timed Int
  second : Timed Int
  third : Timed Int

def W_PLUS : CStr := "w+".toList

def JobAnswers.handle {n size : Nat} (answers : JobAnswers n size) (i : Fin n) : Option FileId :=
  if answers.opens i then some i.val else none

def JobAction.recording {n size : Nat} (answers : JobAnswers n size) (path : Fin n → CStr)
    (a : JobAction n) : List Call :=
  let buff := some 0
  match a.call with
  | .fopen i => [.fopen (some (path i)) (some W_PLUS) (a.first.returns (answers.handle i))]
  | .random _ => []
  | .fwrite i j => [.fwrite (answers.handle i) buff size 1 (a.first.returns (answers.fwrite i j))]
  | .fsync i => [.fsync (answers.handle i) a.first a.second a.third]
  | .sync => [.sync (a.first.returns ())]
  -- the second call is `feof`
  | .fread i =>
    [.fread (answers.handle i) buff size 1 (a.first.returns a.first.result.toNat) a.second.result]
  | .fclose i => [.fclose (answers.handle i) (a.first.returns (answers.fclose i))]
  | .raise => []

def recordings {jobsNum n size : Nat} (answers : Fin jobsNum → JobAnswers n size)
    (actions : List (Fin jobsNum × JobAction n)) : List Call :=
  actions.flatMap fun (k, a) => a.recording (answers k) (testPath k ·)

/--
The two calls of `sys_posix_access` for the mount point, in `sys_medium_umount` and `sys_posix_mkdir`.
-/
structure Mounting where
  umounted : Timed Int
  made : Timed Int

def Mounting.calls (m : Mounting) : List Call :=
  [.access (some MOUNT_PATH) m.umounted, .access (some MOUNT_PATH) m.made]

def beforeCsv {jobsNum n size : Nat} (m : Mounting) (answers : Fin jobsNum → JobAnswers n size)
    (actions : List (Fin jobsNum × JobAction n)) (visits : List Visit) : List Call :=
  m.calls ++ recordings answers actions ++ readDirCalls Visit.renameTest visits

def beforeReport {jobsNum n size : Nat} (m : Mounting) (answers : Fin jobsNum → JobAnswers n size)
    (actions : List (Fin jobsNum × JobAction n)) (csv : Bool) (o : Reporting) (s : Series)
    : List Use :=
  (beforeCsv m answers actions o.renameVisits).map .record
    ++ (if csv then [.libcGencsv, .posixGencsv] else []) ++ o.beforeReport s

def Series.ofJobs : Series → Bool
  | .fstat | .access | .unlink | .rename => false
  | _ => true

def JobCall.measures {n size : Nat} (answers : JobAnswers n size) (s : Series) : JobCall n → Nat
  | .fopen i => if s = .fopen ∧ answers.opens i then 1 else 0
  | .fwrite i j => if s = .fwrite ∧ answers.opens i ∧ answers.fwrite i j = 1 then 1 else 0
  | .fsync i => if (s = .fflush ∨ s = .fileno ∨ s = .fsync) ∧ answers.opens i then 1 else 0
  | .sync => if s = .sync then 1 else 0
  | .fread i => if s = .fread ∧ answers.opens i then 1 else 0
  | .fclose i => if s = .fclose ∧ answers.opens i ∧ answers.fclose i = OK then 1 else 0
  | .random _ | .raise => 0

def JobAnswers.measured {n size : Nat} (answers : JobAnswers n size) (count : Nat) (i : Fin n)
    : Series → Nat
  | .fopen => if answers.opens i then 1 else 0
  | .fclose => if answers.opens i ∧ answers.fclose i = OK then 1 else 0
  | .fwrite => if answers.opens i then Nat.count (answers.fwrite i · = 1) count else 0
  | .fread | .fflush | .fileno | .fsync => if answers.opens i then count else 0
  | .sync => count
  | .fstat | .access | .unlink | .rename => 0

def measured {jobsNum n size : Nat} (answers : Fin jobsNum → JobAnswers n size) (count : Nat)
    (s : Series) : Nat :=
  ∑ k, ∑ i, (answers k).measured count i s

section Measures

variable {n size : Nat} {answers : JobAnswers n size} {path : Fin n → CStr} {a : JobAction n}

theorem JobAction.recording_length (hsize : Word.mul 32 size 1 ≠ 0) (s : Series)
    : ((a.recording answers path).flatMap (·.recorded s)).length = a.call.measures answers s := by
  obtain ⟨call, first, second, third⟩ := a
  cases call with
  | random j => rfl
  | raise => rfl
  | sync => cases s <;> rfl
  | fopen i =>
    cases s with
    | fopen =>
      cases hopens : answers.opens i <;>
        simp [recording, JobCall.measures, Call.recorded, Timed.returns, JobAnswers.handle, hopens]
    | _ => rfl
  | fwrite i j =>
    cases s with
    | fwrite =>
      cases hopens : answers.opens i with
      | false => simp [recording, JobCall.measures, Call.recorded, JobAnswers.handle, hopens]
      | true =>
        by_cases hwritten : answers.fwrite i j = 1 <;>
          simp [recording, JobCall.measures, Call.recorded, Timed.returns, JobAnswers.handle,
            hopens, hsize, hwritten]
    | _ => rfl
  | fsync i =>
    cases s with
    | fflush | fileno | fsync =>
      cases hopens : answers.opens i <;>
        simp [recording, JobCall.measures, Call.recorded, JobAnswers.handle, hopens]
    | _ => rfl
  | fread i =>
    cases s with
    | fread =>
      cases hopens : answers.opens i <;>
        simp [recording, JobCall.measures, Call.recorded, JobAnswers.handle, hopens, hsize]
    | _ => rfl
  | fclose i =>
    cases s with
    | fclose =>
      cases hopens : answers.opens i with
      | false => simp [recording, JobCall.measures, Call.recorded, JobAnswers.handle, hopens]
      | true =>
        by_cases hclosed : answers.fclose i = OK <;>
          simp [recording, JobCall.measures, Call.recorded, Timed.returns, JobAnswers.handle,
            hopens, hclosed]
    | _ => rfl

theorem testlibcFunc_sum (f : JobCall n → Nat) (count : Nat) (hrandom : ∀ j, f (.random j) = 0)
    (hraise : f .raise = 0)
    : ((testlibcFunc n count).map f).sum
      = ∑ i, (f (.fopen i)
        + ∑ j ∈ Finset.range count, (f (.fwrite i j) + f (.fsync i) + f .sync + f (.fread i))
        + f (.fclose i)) := by
  have hround (j : Nat) : ((JobCall.round n j).map f).sum
      = ∑ i, (f (.fwrite i j) + f (.fsync i) + f .sync + f (.fread i)) := by
    simp [JobCall.round, JobCall.rw, hrandom, List.flatMap_def, List.map_flatten, List.sum_flatten,
      Function.comp_def, Fin.sum_univ_def, Nat.add_assoc]
  have hrounds : (((List.range count).flatMap (JobCall.round n)).map f).sum
      = ∑ i, ∑ j ∈ Finset.range count,
        (f (.fwrite i j) + f (.fsync i) + f .sync + f (.fread i)) := by
    rw [Finset.sum_comm, List.map_flatMap, List.flatMap_def, List.sum_flatten, List.map_map,
      Finset.sum_congr rfl fun j _ => (hround j).symm]
    exact (Multiset.sum_coe _).symm
  rw [Finset.sum_add_distrib, Finset.sum_add_distrib, ← hrounds]
  simp [testlibcFunc, hraise, Fin.sum_univ_def, Function.comp_def, Nat.add_assoc]

theorem testlibcFunc_measures (answers : JobAnswers n size) (s : Series) (count : Nat)
    : ((testlibcFunc n count).map (JobCall.measures answers s)).sum
      = ∑ i, answers.measured count i s := by
  rw [testlibcFunc_sum _ _ (fun _ => rfl) rfl]
  apply Finset.sum_congr rfl
  intro i _
  cases s with
  | fwrite =>
    cases hopens : answers.opens i <;>
      simp [JobCall.measures, JobAnswers.measured, hopens, Nat.count_eq_card_filter_range]
  | _ => simp [JobCall.measures, JobAnswers.measured]

variable {jobsNum : Nat}

def Complete (count : Nat) (actions : List (Fin jobsNum × JobAction n)) : Prop :=
  ∀ k, (Weave.stepsOf k actions).map (·.call) = testlibcFunc n count

variable {answers : Fin jobsNum → JobAnswers n size} {count : Nat}
  {actions : List (Fin jobsNum × JobAction n)}

theorem recordings_length (hsize : Word.mul 32 size 1 ≠ 0) (hactions : Complete count actions)
    (s : Series)
    : (durations (recordings answers actions) s).length = measured answers count s := by
  have hlength : (durations (recordings answers actions) s).length
      = (actions.map fun action => action.2.call.measures (answers action.1) s).sum := by
    simp only [durations, recordings, List.flatMap_assoc, List.length_flatMap]
    congr 1
    apply List.map_congr_left
    intro action _
    rw [← List.length_flatMap]
    exact JobAction.recording_length hsize s
  rw [hlength, Weave.sum_stepsOf fun k (a : JobAction n) => a.call.measures (answers k) s]
  apply Finset.sum_congr rfl
  intro k _
  rw [← testlibcFunc_measures, ← hactions k, List.map_map]
  rfl

end Measures

namespace Series.Tracked

variable {st st' : Recorders} {history history' : Series → List Int} {s : Series}

theorem report_short (long : Nat) (sum : Int) (h : Tracked st history)
    (hshort : (history s).length < 2)
    : st.report long sum s = some .zero := by
  have hcap := s.two_le_capacity
  have hsize := h.sized s
  have hlength (assumed : Nat) : (st.series s).length assumed = (history s).length := by
    have hflag := (h s).flag_eq
    rw [if_neg (by omega)] at hflag
    rw [Recorder.length, hflag, (h s).count_eq, Nat.mod_eq_of_lt (by omega)]
    simp
  have hbench (assumed : Nat) (sum : Int) : bench long assumed sum (st.series s) .zero
      = some (st.series s, .zero) := bench_short long sum .zero (by rw [hlength]; exact hshort)
  have hfirst (assumed : Nat) (sum : Int) : benchSumFirst long assumed sum (st.series s) .zero
      = some (st.series s, .zero) :=
    benchSumFirst_short long sum .zero (by rw [hlength, hsize.1]; omega)
      (by rw [hlength]; exact hshort)
  cases s with
  | fflush | fileno | fsync =>
    have hsync : fsyncBench long st .zero = some (st, .zero) :=
      fsyncBench_short long .zero ((hlength MAX_FSYNC).trans_lt hshort)
    simp only [Recorders.report, hsync, Option.map_some]
    rfl
  | _ =>
    simp only [Recorders.series] at hbench hfirst
    simp [Recorders.report, fopenBench, fcloseBench, freadBench, fwriteBench, fstatBench,
      accessBench, unlinkBench, syncBench, renameBench, hbench, hfirst]

end Series.Tracked

section Reported

variable {jobsNum n size count : Nat} {answers : Fin jobsNum → JobAnswers n size}
  {actions : List (Fin jobsNum × JobAction n)} {visits : List Visit} {m : Mounting} {s : Series}

theorem durations_renameTest (hfstat : s ≠ .fstat) (hrename : s ≠ .rename)
    : durations (readDirCalls Visit.renameTest visits) s = [] := by
  induction visits with
  | nil => rfl
  | cons v visits ih =>
    have hstat : (Call.fstat (some v.strFilePath) (some v.stStatBuf) v.stat).recorded s = [] := by
      cases s with
      | fstat => exact absurd rfl hfstat
      | _ => rfl
    have hcall : durations v.renameTest s = [] := by
      unfold Visit.renameTest
      split
      . cases s with
        | rename => exact absurd rfl hrename
        | _ => rfl
      . rfl
    unfold durations at *
    rw [readDirCalls, List.flatMap_cons, hstat, List.nil_append]
    split
    . rfl
    . rw [List.flatMap_append, hcall, ih, List.append_nil]

theorem beforeCsv_length (hsize : Word.mul 32 size 1 ≠ 0) (hactions : Complete count actions)
    (hfstat : s ≠ .fstat) (hrename : s ≠ .rename)
    : (durations (beforeCsv m answers actions visits) s).length
        = (if s = .access then 2 else 0) + measured answers count s := by
  have hmounting : (durations m.calls s).length = if s = .access then 2 else 0 := by
    cases s <;> rfl
  have hjobs : (durations (recordings answers actions) s).length = measured answers count s :=
    recordings_length hsize hactions s
  have hwalk : durations (readDirCalls Visit.renameTest visits) s = [] :=
    durations_renameTest hfstat hrename
  unfold durations beforeCsv at *
  rw [List.flatMap_append, List.flatMap_append, hwalk, List.append_nil, List.length_append,
    hmounting, hjobs]

theorem Series.ofJobs_iff : s.ofJobs = true
    ↔ s ≠ .fstat ∧ s ≠ .access ∧ s ≠ .unlink ∧ s ≠ .rename := by
  cases s <;> simp [ofJobs]

theorem recordedBy_record (calls : List Call) (s : Series)
    : recordedBy (calls.map .record) s = durations calls s := by
  simp [recordedBy, durations, List.flatMap_map, Use.recorded]

theorem beforeReport_length (hsize : Word.mul 32 size 1 ≠ 0) (hactions : Complete count actions)
    (hs : s.ofJobs = true) (csv : Bool) (o : Reporting)
    : (recordedBy (beforeReport m answers actions csv o s) s).length = measured answers count s := by
  obtain ⟨hfstat, haccess, hunlink, hrename⟩ := Series.ofJobs_iff.mp hs
  have hcsv : recordedBy (if csv then [.libcGencsv, .posixGencsv] else []) s = [] := by
    cases csv <;> rfl
  rw [beforeReport, recordedBy_append, recordedBy_append, recordedBy_record, hcsv,
    Reporting.recordedBy_beforeReport, if_neg (by simp [haccess, hunlink]), List.append_nil,
    List.append_nil, beforeCsv_length hsize hactions hfstat hrename, if_neg haccess, Nat.zero_add]

theorem beforeReport_fits (hs : s.ofJobs = true) {csv : Bool} {o : Reporting} {use : Use}
    (huse : use ∈ beforeReport m answers actions csv o s) (pre : List Use) : use.Fits pre := by
  rcases List.mem_append.mp huse with huse | huse
  . rcases List.mem_append.mp huse with huse | huse
    . obtain ⟨call, _, rfl⟩ := List.mem_map.mp huse
      trivial
    . cases csv with
      | false => cases huse
      | true =>
        rw [if_pos rfl, List.mem_pair] at huse
        rcases huse with rfl | rfl <;> trivial
  . have hearly : o.beforeReport s ⊆ o.reportUses.take 8 := by
      cases s <;> simp [Series.ofJobs] at hs <;>
        simp [Reporting.beforeReport, Reporting.reportUses, Use.reports]
    have huse := hearly huse
    simp only [Reporting.reportUses, List.cons_append, List.take_succ_cons, List.take_zero,
      List.mem_cons, List.not_mem_nil, or_false] at huse
    rcases huse with rfl | rfl | rfl | rfl | rfl | rfl | rfl | rfl <;> trivial

theorem Counted.report_count {pre : List Use} {st : Recorders} (h : Counted pre st) (long : Nat)
    (sum : Int) (hs : s.assumed = s.capacity)
    : ∃ rep, st.report long sum s = some rep
        ∧ rep.count = if (recordedBy pre s).length < 2 then 0
          else min (recordedBy pre s).length s.capacity := by
  obtain ⟨history, htracked, hlength⟩ := h
  rw [← hlength]
  cases Nat.lt_or_ge (history s).length 2 with
  | inl hshort => exact ⟨.zero, htracked.report_short long sum hshort, (if_pos hshort).symm⟩
  | inr htwo =>
    obtain ⟨rep, hrep, hsummarises⟩ := htracked.report long sum htwo (.inr hs)
    refine ⟨rep, hrep, ?_⟩
    rw [hsummarises.count_eq, List.rtake, List.length_drop, if_neg (by omega)]
    omega

theorem beforeReport_count (hsize : Word.mul 32 size 1 ≠ 0) (hactions : Complete count actions)
    (hs : s.ofJobs = true) (long : Nat) (m : Mounting) (csv : Bool) (o : Reporting)
    : ∃ st rep, runUses long .initial (beforeReport m answers actions csv o s) = some st
        ∧ st.report long (o.sum s) s = some rep
        ∧ rep.count = if measured answers count s < 2 then 0
            else min (measured answers count s) s.capacity := by
  have hassumed : s.assumed = s.capacity := by
    cases s with
    | access | unlink => cases hs
    | _ => rfl
  rcases runUses_cases long (beforeReport m answers actions csv o s) with
    ⟨st, hrun, hcounted, _⟩ | ⟨_, pre, use, post, huses, hnot⟩
  . obtain ⟨rep, hrep, hcount⟩ := hcounted.report_count long (o.sum s) hassumed
    rw [beforeReport_length hsize hactions hs csv o] at hcount
    exact ⟨st, rep, hrun, hrep, hcount⟩
  . exact absurd (beforeReport_fits hs (huses ▸ List.mem_append_cons_self) pre) hnot

end Reported

theorem ThreadParam.writeSize_pos {param : ThreadParam}
    (h : 1 ≤ param.prejobrwsize ∧ param.prejobrwsize ≤ 1024) : Word.mul 32 param.writeSize 1 ≠ 0 := by
  have hwriteSize : Word.mul 32 param.prejobrwsize SIZE_1KB = param.prejobrwsize * 1024 :=
    Word.mul_of_lt (by unfold SIZE_1KB; omega)
  rw [writeSize, hwriteSize, Word.mul_of_lt (by omega)]
  omega

end FsBench
