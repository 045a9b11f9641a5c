import FsBench.Bench.Directory
import FsBench.Recorder.Uses

/-!
What main tells of its calls once the jobs have ended: in the csv file, which it writes after the
files have been renamed, and in its reports, two of which it makes after they have been removed.
-/

namespace FsBench

/--
An entry that a walk comes to, and the answers that the calls on it get.
-/
structure Visit where
  strFilePath : CStr
  stStatBuf : SysFsStat
  stat : Timed (Option StatBuf)
  renamed : Timed Int
  accessed : Timed Int
  unlinked : Timed Int

namespace Visit

def renameTest (v : Visit) : List Call :=
  if strstr v.strFilePath TEST then
    [.rename (some v.strFilePath) (some (v.strFilePath ++ RENAMED)) v.renamed]
  else
    []

def unlinkTest (v : Visit) : List Call :=
  if strstr v.strFilePath RENAME then
    [.rm (some v.strFilePath) v.accessed v.unlinked]
  else
    []

structure Succeeds (v : Visit) : Prop where
  stat : v.stat.result.isSome = true
  accessed : v.accessed.result = OK
  unlinked : v.unlinked.result = OK

end Visit

def readDirCalls (pCallBack : Visit → List Call) : List Visit → List Call
  | [] => []
  | v :: visits =>
    .fstat (some v.strFilePath) (some v.stStatBuf) v.stat ::
      if v.stat.result.isNone then [] else pCallBack v ++ readDirCalls pCallBack visits

/--
The two walks, and what the locals of three of the reports hold.
-/
structure Reporting where
  renameVisits : List Visit
  unlinkVisits : List Visit
  accessSum : Int
  unlinkSum : Int
  syncSum : Int

def Use.reports : Use → List Series
  | .record _ => []
  | .fopenBench _ => [.fopen]
  | .fcloseBench _ => [.fclose]
  | .freadBench _ => [.fread]
  | .fwriteBench _ => [.fwrite]
  | .fsyncBench _ => [.fflush, .fileno, .fsync]
  | .fstatBench _ => [.fstat]
  | .accessBench _ _ => [.access]
  | .unlinkBench _ _ => [.unlink]
  | .syncBench _ _ => [.sync]
  | .renameBench _ => [.rename]
  | .libcGencsv => []
  | .posixGencsv => []

namespace Reporting

variable (o : Reporting)

def renamePass : List Use :=
  (readDirCalls Visit.renameTest o.renameVisits).map .record

def unlinkPass : List Use :=
  (readDirCalls Visit.unlinkTest o.unlinkVisits).map .record

/--
What follows the csv file, with the reports of `BENCH_REPORT_T report = {0}`.
-/
def reportUses : List Use :=
  [.renameBench .zero, .fstatBench .zero, .fopenBench .zero, .fcloseBench .zero, .fwriteBench .zero,
    .freadBench .zero, .fsyncBench .zero, .syncBench o.syncSum .zero]
    ++ o.unlinkPass ++ [.accessBench o.accessSum .zero, .unlinkBench o.unlinkSum .zero]

def beforeReport (s : Series) : List Use :=
  o.reportUses.takeWhile fun use => s ∉ use.reports

def bench : Series → Use
  | .fopen => .fopenBench .zero
  | .fclose => .fcloseBench .zero
  | .fread => .freadBench .zero
  | .fwrite => .fwriteBench .zero
  | .fflush | .fileno | .fsync => .fsyncBench .zero
  | .fstat => .fstatBench .zero
  | .access => .accessBench o.accessSum .zero
  | .unlink => .unlinkBench o.unlinkSum .zero
  | .sync => .syncBench o.syncSum .zero
  | .rename => .renameBench .zero

def sum : Series → Int
  | .access => o.accessSum
  | .unlink => o.unlinkSum
  | .sync => o.syncSum
  | _ => 0

/--
A run of main from the end of the jobs to the report of a series.
-/
structure Run (long : Nat) (st : Recorders) (s : Series) where
  csv : Recorders
  libc : List CsvRow
  posix : List CsvRow
  before : Recorders
  next : Recorders
  csv_eq : runUses long st o.renamePass = some csv
  libc_eq : sysLibcGencsv csv = some libc
  posix_eq : sysPosixGencsv csv = some posix
  before_eq : runUses long csv (o.beforeReport s) = some before
  next_eq : (o.bench s).run long before = some next

theorem takeWhile_unlinkPass (s : Series) (rest : List Use)
    : (o.unlinkPass ++ rest).takeWhile (fun use => s ∉ use.reports)
      = o.unlinkPass ++ rest.takeWhile fun use => s ∉ use.reports := by
  apply List.takeWhile_append_of_pos
  intro use huse
  obtain ⟨call, _, rfl⟩ := List.mem_map.mp huse
  simp [Use.reports]

theorem beforeReport_eq (s : Series) (hs : s = .access ∨ s = .unlink)
    : o.beforeReport s = (o.reportUses.take 8 ++ o.unlinkPass)
        ++ [Use.accessBench o.accessSum .zero].takeWhile fun use => s ∉ use.reports := by
  unfold beforeReport reportUses
  rw [List.append_assoc, List.takeWhile_append_of_pos, takeWhile_unlinkPass]
  . rcases hs with rfl | rfl <;> simp [Use.reports]
  . rcases hs with rfl | rfl <;> simp [Use.reports]

theorem reportUses_split (s : Series)
    : ∃ post, o.reportUses = o.beforeReport s ++ o.bench s :: post := by
  by_cases hs : s = .access ∨ s = .unlink
  . rw [beforeReport_eq o s hs]
    rcases hs with rfl | rfl <;> simp [reportUses, bench, Use.reports]
  . cases s <;> simp [reportUses, beforeReport, bench, Use.reports] at hs ⊢

theorem recordedBy_beforeReport (s : Series)
    : recordedBy (o.beforeReport s) s
      = if s = .access ∨ s = .unlink then recordedBy o.unlinkPass s else [] := by
  by_cases hs : s = .access ∨ s = .unlink
  . rw [beforeReport_eq o s hs, if_pos hs]
    rcases hs with rfl | rfl <;> simp [reportUses, Use.reports, recordedBy, Use.recorded]
  . rw [if_neg hs]
    cases s <;> simp [reportUses, beforeReport, Use.reports, recordedBy, Use.recorded] at hs ⊢

theorem recordedBy_unlinkPass {s : Series} (hs : s = .access ∨ s = .unlink)
    (hok : ∀ v ∈ o.unlinkVisits, v.Succeeds)
    : recordedBy o.unlinkPass s = []
      ↔ ∀ v ∈ o.unlinkVisits, strstr v.strFilePath RENAME = false := by
  unfold unlinkPass
  generalize o.unlinkVisits = visits at hok
  induction visits with
  | nil => simp [readDirCalls, recordedBy]
  | cons v visits ih =>
    have hv := hok v List.mem_cons_self
    have hstat : v.stat.result.isNone = false := by
      rw [Option.isNone_eq_false_iff]
      exact hv.stat
    have hunlinked : ¬v.unlinked.result < 0 := by
      rw [hv.unlinked]
      decide
    rw [List.forall_mem_cons, ← ih fun w hw => hok w (List.mem_cons_of_mem v hw)]
    simp only [readDirCalls, hstat, Bool.false_eq_true, if_false, recordedBy, List.map_cons,
      List.map_append, List.flatMap_cons, List.flatMap_append, List.append_eq_nil_iff]
    rw [Visit.unlinkTest]
    cases strstr v.strFilePath RENAME <;> rcases hs with rfl | rfl <;>
      simp [Use.recorded, Call.recorded, hv.accessed, hunlinked]

variable {o} {long : Nat} {st : Recorders} {s : Series}

theorem Run.report_inRange (run : o.Run long st s) (hsized : run.before.Sized)
    : (run.before.series s).length s.assumed ≤ s.capacity := by
  have hassumed : (o.bench s).assumed s = s.assumed := by cases s <;> rfl
  have hreads : s ∈ (o.bench s).reads := by cases s <;> simp [bench, Use.reads]
  have hquiet : ∀ call, o.bench s ≠ .record call := by cases s <;> simp [bench]
  cases (o.bench s).reads_of_quiet long hsized hquiet with
  | done _ _ hlen =>
    rw [← hassumed]
    exact hlen s hreads
  | outside hrun => cases hrun.symm.trans run.next_eq

/--
The samples of the row are those from which the report is computed, in some order.
-/
def Run.Agrees (run : o.Run long st s) : Prop :=
  ∃ row ∈ run.libc ++ run.posix, row.name = s.name.toList
    ∧ row.samples.Perm (run.before.window s)

theorem Run.agrees_iff_perm (run : o.Run long st s) (hsized : run.csv.Sized)
    : run.Agrees ↔ (run.csv.rowOf s).samples.Perm (run.before.window s) := by
  have hlibc := run.libc_eq
  have hposix := run.posix_eq
  rw [sysLibcGencsv_eq] at hlibc
  rw [sysPosixGencsv_eq] at hposix
  have hrows : run.libc ++ run.posix = ([.fopen, .fread, .fwrite, .fflush, .fileno, .fsync, .fclose,
      .fstat, .access, .unlink, .sync, .rename] : List Series).map run.csv.rowOf := by
    rw [Recorders.rows_eq hsized hlibc, Recorders.rows_eq hsized hposix]
    rfl
  unfold Agrees
  rw [hrows]
  constructor
  . intro ⟨row, hrow, hname, hperm⟩
    obtain ⟨t, _, rfl⟩ := List.mem_map.mp hrow
    have ht : t = s := Series.name_injective (String.toList_inj.mp hname)
    rw [ht] at hperm
    exact hperm
  . intro hperm
    exact ⟨_, List.mem_map.mpr ⟨s, by cases s <;> simp, rfl⟩, rfl, hperm⟩

theorem Run.not_perm (run : o.Run long st s) (hs : s = .access ∨ s = .unlink)
    (hcsv : run.csv.Sized) (hrecorded : recordedBy (o.beforeReport s) s ≠ [])
    : ¬(run.csv.rowOf s).samples.Perm (run.before.window s) := by
  have hgrows := runUses_grows hcsv run.before_eq
  have hbefore : run.before.Sized := hcsv.grows hgrows
  have hrange := run.report_inRange hbefore
  have hassumed : s.capacity < s.assumed := by rcases hs with rfl | rfl <;> decide
  have hflag : (run.before.series s).flag = 0 := by
    by_contra hflag
    rw [Recorder.length, if_pos hflag] at hrange
    omega
  obtain ⟨hflag', hcount⟩ := (hgrows s).count_eq hflag
  have hpos := List.length_pos_iff.mpr hrecorded
  have hsize := (hcsv s).1
  have hsize' := (hbefore s).1
  have hlength : (run.before.series s).length s.assumed = (run.before.series s).count := by
    rw [Recorder.length, if_neg (by simp [hflag])]
  have hlength' : (run.csv.series s).length s.capacity = (run.csv.series s).count := by
    rw [Recorder.length, if_neg (by simp [hflag'])]
  intro hperm
  have hsame := hperm.length_eq
  rw [Recorders.window, Recorders.rowOf, List.length_take, List.length_take, hlength,
    hlength'] at hsame
  rw [hlength] at hrange
  omega

theorem recordedBy_reportUses (s : Series)
    : recordedBy o.reportUses s = recordedBy o.unlinkPass s := by
  simp [reportUses, recordedBy, Use.recorded]

theorem exists_run {pre : List Use} (h : Counted pre st)
    (haccess : (recordedBy (pre ++ o.renamePass ++ o.unlinkPass) .access).length < MAX_FILENUM)
    (hunlink : (recordedBy (pre ++ o.renamePass ++ o.unlinkPass) .unlink).length < MAX_FILENUM)
    : Nonempty (o.Run long st s) := by
  simp only [recordedBy_append, List.length_append, ← recordedBy_reportUses] at haccess hunlink
  obtain ⟨csv, hcsv, hcounted⟩ := h.run long o.renamePass
    (by simp only [recordedBy_append, List.length_append]; omega)
    (by simp only [recordedBy_append, List.length_append]; omega)
  obtain ⟨last, hlast, _⟩ := hcounted.run long o.reportUses
    (by simp only [recordedBy_append, List.length_append]; omega)
    (by simp only [recordedBy_append, List.length_append]; omega)
  have hprints (use : Use) (hfits : use.Fits (pre ++ o.renamePass))
      : ∃ next, use.run long csv = some next := by
    rcases hcounted.step use with ⟨_, next, hnext, _⟩ | ⟨hnot, _⟩
    . exact ⟨next, hnext⟩
    . exact absurd hfits hnot
  obtain ⟨_, hlibc⟩ := hprints .libcGencsv trivial
  obtain ⟨_, hposix⟩ := hprints .posixGencsv trivial
  obtain ⟨libc, hlibc, _⟩ := Option.map_eq_some_iff.mp hlibc
  obtain ⟨posix, hposix, _⟩ := Option.map_eq_some_iff.mp hposix
  obtain ⟨post, hsplit⟩ := o.reportUses_split s
  rw [hsplit, runUses, List.foldlM_append] at hlast
  obtain ⟨before, hbefore, hlast⟩ := Option.bind_eq_some_iff.mp hlast
  rw [List.foldlM_cons] at hlast
  obtain ⟨next, hnext, _⟩ := Option.bind_eq_some_iff.mp hlast
  exact ⟨⟨csv, libc, posix, before, next, hcsv, hlibc, hposix, hbefore, hnext⟩⟩

def twoFiles : Reporting where
  renameVisits := [visit "/test0.txt", visit "/test1.txt"]
  unlinkVisits := [visit "/test0.txt_rename", visit "/test1.txt_rename"]
  accessSum := 0
  unlinkSum := 0
  syncSum := 0
where
  visit (file : String) : Visit :=
    { strFilePath := MOUNT_PATH ++ file.toList
      stStatBuf := { uSize := 0, uAttr := 0, uClusterSize := 0, uSpaceSize := 0 }
      stat := ⟨0, 1, some { isDir := false, stBlocks := 8, stSize := 4096, stBlksize := 4096 }⟩
      renamed := ⟨1, 2, OK⟩
      accessed := ⟨2, 3, OK⟩
      unlinked := ⟨3, 5, OK⟩ }

theorem twoFiles_succeed : ∀ v ∈ twoFiles.unlinkVisits, v.Succeeds := by
  intro v hv
  simp only [twoFiles, List.mem_cons, List.not_mem_nil, or_false] at hv
  rcases hv with rfl | rfl <;> exact ⟨rfl, rfl, rfl⟩

theorem recordedBy_twoFiles
    : (recordedBy twoFiles.renamePass .rename).length = 2
      ∧ (recordedBy twoFiles.unlinkPass .access).length = 2
      ∧ (recordedBy (twoFiles.renamePass ++ twoFiles.unlinkPass) .access).length = 2
      ∧ (recordedBy (twoFiles.renamePass ++ twoFiles.unlinkPass) .unlink).length = 2 := by
  decide

theorem initial_sized : Recorders.initial.Sized :=
  Recorders.initial_tracked.sized

theorem twoFiles_run (s : Series) : Nonempty (twoFiles.Run 64 .initial s) := by
  obtain ⟨_, _, haccess, hunlink⟩ := recordedBy_twoFiles
  apply exists_run Counted.initial
  . rw [List.nil_append, haccess]
    decide
  . rw [List.nil_append, hunlink]
    decide

theorem Run.agrees_iff (run : o.Run long st s) (hsized : st.Sized)
    (hok : ∀ v ∈ o.unlinkVisits, v.Succeeds) (htwo : 2 ≤ (run.before.window s).length)
    : (∃ rep, run.before.report long (o.sum s) s = some rep
          ∧ rep.Summarises long (s.start (o.sum s)) (run.before.window s))
        ∧ (run.Agrees ↔ (s = .access ∨ s = .unlink →
          ∀ v ∈ o.unlinkVisits, strstr v.strFilePath RENAME = false)) := by
  have hcsv : run.csv.Sized := hsized.grows (runUses_grows hsized run.csv_eq)
  have hbefore : run.before.Sized := hcsv.grows (runUses_grows hcsv run.before_eq)
  have hrange := run.report_inRange hbefore
  have hwindow : 2 ≤ (run.before.series s).length s.assumed := by
    rw [Recorders.window, List.length_take] at htwo
    omega
  refine ⟨Recorders.report_spec long (o.sum s) hbefore hrange hwindow, ?_⟩
  rw [run.agrees_iff_perm hcsv]
  have hrecorded := o.recordedBy_beforeReport s
  -- only the removal of a file records something between the two
  by_cases hquiet : recordedBy (o.beforeReport s) s = []
  . refine iff_of_true ?_ ?_
    . have hrearranged := runUses_quiet hcsv run.before_eq hquiet
      have hlength := (Recorder.length_assumed s.capacity_le_assumed hrange).trans
        hrearranged.length_cap_eq
      rw [Recorders.window, hlength]
      exact hrearranged.perm.symm
    . intro hs
      rw [if_pos hs, hquiet] at hrecorded
      exact (o.recordedBy_unlinkPass hs hok).mp hrecorded.symm
  . have hs : s = .access ∨ s = .unlink := by
      by_contra hs
      rw [if_neg hs] at hrecorded
      exact hquiet hrecorded
    refine iff_of_false (run.not_perm hs hcsv hquiet) ?_
    intro hnone
    rw [if_pos hs] at hrecorded
    exact hquiet (hrecorded.trans ((o.recordedBy_unlinkPass hs hok).mpr (hnone hs)))

theorem Run.two_le_window (run : o.Run long st s) (hsized : st.Sized)
    (htwo : 2 ≤ (recordedBy o.renamePass s).length + (recordedBy (o.beforeReport s) s).length)
    : 2 ≤ (run.before.window s).length := by
  have hcsv : run.csv.Sized := hsized.grows (runUses_grows hsized run.csv_eq)
  have hgrows := (runUses_grows hsized run.csv_eq s).trans (runUses_grows hcsv run.before_eq s)
  have hcapacity := s.two_le_capacity
  have hassumed := s.capacity_le_assumed
  rw [Recorders.window, List.length_take, hgrows.length_eq, (hsized s).1, Recorder.length]
  split
  . omega
  . next hflag =>
    have hcount := (hgrows.count_eq (not_not.mp hflag)).2
    omega

theorem Run.agrees_iff_rename
    : ∃ run : twoFiles.Run 64 .initial .rename, run.Agrees := by
  obtain ⟨run⟩ := twoFiles_run .rename
  have htwo := run.two_le_window initial_sized (by rw [recordedBy_twoFiles.1]; omega)
  obtain ⟨_, hagrees⟩ := run.agrees_iff initial_sized twoFiles_succeed htwo
  refine ⟨run, hagrees.mpr ?_⟩
  intro hs
  simp at hs

theorem Run.not_agrees
    : ∃ run : twoFiles.Run 64 .initial .access,
        (∀ v ∈ twoFiles.unlinkVisits, v.Succeeds) ∧ 2 ≤ (run.before.window .access).length
          ∧ ¬run.Agrees := by
  obtain ⟨run⟩ := twoFiles_run .access
  have hcsv := initial_sized.grows (runUses_grows initial_sized run.csv_eq)
  have hrecorded : (recordedBy (twoFiles.beforeReport .access) .access).length = 2 := by
    rw [recordedBy_beforeReport, if_pos (.inl rfl), recordedBy_twoFiles.2.1]
  refine ⟨run, twoFiles_succeed, run.two_le_window initial_sized (by omega), ?_⟩
  rw [run.agrees_iff_perm hcsv]
  apply run.not_perm (.inl rfl) hcsv
  intro hnone
  rw [hnone] at hrecorded
  cases hrecorded

end Reporting

end FsBench
