import FsBench.Bench.Directory
import FsBench.Recorder.Basic

/-!
What a run of main does to the files of the mounted medium, from the mount on.
-/

namespace FsBench

def cometName (n : Int) : CStr :=
  COMETTEST ++ decimal n ++ MP4

def cometPath (i : Nat) : CStr :=
  snprintf 127 (MOUNT_PATH ++ ['/'] ++ cometName i)

/--
The options that main admits. `csvEntry` is the entry of the root directory that the path after `-f`
leads to.
-/
structure Options where
  jobsNum : Nat
  nobypass : Bool
  cometfilenum : Nat
  filesize : Nat
  csvEntry : Option CStr
  jobsNum_le : jobsNum ≤ 64
  cometfilenum_le : cometfilenum ≤ MAX_FILENUM
  filesize_bounds : 1 ≤ filesize ∧ filesize ≤ 1024

/--
What the run learns: the free size when `sys_medium_get_info` succeeds, and the text that ends up in
the csv file.
-/
structure Answers where
  info : Option Nat
  csvText : List UInt8

/--
Opening the paths with mode "w+" and writing to them. An open may fail, on a directory it does.
-/
def OpensFiles (written : List UInt8 → Prop) (paths : List CStr) (d next : Dir) : Prop :=
  ∀ name, next name = d name
    ∨ (∃ path ∈ paths, resolve path = some name) ∧ d name ≠ some .dir
      ∧ ∃ content, written content ∧ next name = some (.file content)

def gencsv (entry : Option CStr) (text : List UInt8) (d : Dir) : Option Dir :=
  match entry with
  | none => some d
  | some name =>
    if d name = some .dir then none else some (Function.update d name (some (.file text)))

def jobPaths (o : Options) (uRemainSize : Nat) : List CStr :=
  (List.range o.jobsNum).flatMap fun index =>
    (List.range (prejobfilenum uRemainSize o.jobsNum o.filesize)).map (testPath index)

def cometPaths (o : Options) : List CStr :=
  (List.range o.cometfilenum).map cometPath

def JobsRun (c : Conduct) (o : Options) (a : Answers) (uRemainSize : Nat) (d next : Dir) : Prop :=
  ∃ opened renamed reported, OpensFiles (fun _ => True) (jobPaths o uRemainSize) d opened
    ∧ ReadDirFile renameTest c.renames c.stops opened renamed
    ∧ gencsv o.csvEntry a.csvText renamed = some reported
    ∧ ReadDirFile unlinkTest c.unlinks c.stops reported next

def CometRun (c : Conduct) (o : Options) (d next : Dir) : Prop :=
  ∃ opened, OpensFiles (· = []) (cometPaths o) d opened
    ∧ ReadDirFile fileshowTest c.unlinks c.stops opened next

/--
A run of main that ends: it leaves early without information on the medium, or with jobs that would
have no file to write.
-/
def MainRun (c : Conduct) (o : Options) (a : Answers) (d next : Dir) : Prop :=
  match a.info with
  | none => next = d
  | some uRemainSize =>
    if o.jobsNum ≠ 0 ∧ prejobfilenum uRemainSize o.jobsNum o.filesize = 0 then
      next = d
    else
      ∃ mid, (if o.nobypass ∧ o.jobsNum ≠ 0 then JobsRun c o a uRemainSize d mid else mid = d)
        ∧ if 0 < o.cometfilenum then CometRun c o mid next else next = mid

structure UserFile (d : Dir) (name : CStr) (content : List UInt8) : Prop where
  present : d name = some (.file content)
  not_test : ∀ n, name ≠ testName n
  not_comet : ∀ n, name ≠ cometName n

def Spared (d next : Dir) : Prop :=
  ∀ name content, UserFile d name content → next name = some (.file content)

def Proceeds (o : Options) (a : Answers) : Prop :=
  ∃ uRemainSize, a.info = some uRemainSize
    ∧ (o.jobsNum ≠ 0 → prejobfilenum uRemainSize o.jobsNum o.filesize ≠ 0)

def TestsJobs (o : Options) (a : Answers) : Prop :=
  Proceeds o a ∧ o.nobypass = true ∧ o.jobsNum ≠ 0

def TestsComet (o : Options) (a : Answers) : Prop :=
  Proceeds o a ∧ 0 < o.cometfilenum

theorem resolve_testPath {index i : Nat}
    : resolve (testPath index i) = some (testName (testNumber index i)) := by
  rw [testPath_eq, resolve_path]

theorem testName_head {n : Int} : (testName n).head? = some 't' := by
  rw [testName, List.append_assoc, List.head?_append]
  rfl

theorem cometName_head {n : Int} : (cometName n).head? = some 'c' := by
  rw [cometName, List.append_assoc, List.head?_append]
  rfl

theorem cometName_length {n : Int} (h : Word.Fits 32 n) : (cometName n).length ≤ 24 := by
  have := decimal_length h
  have hcomet : COMETTEST.length = 9 := by decide
  have hmp4 : MP4.length = 4 := by decide
  rw [cometName, List.length_append, List.length_append]
  omega

theorem cometPath_eq {i : Nat} (h : Word.Fits 32 i)
    : cometPath i = MOUNT_PATH ++ ['/'] ++ cometName i := by
  apply snprintf_of_lt
  have := cometName_length h
  have hmount : (MOUNT_PATH ++ ['/']).length = 13 := by decide
  rw [List.length_append, hmount]
  omega

theorem resolve_cometPath {o : Options} {i : Nat} (hi : i < o.cometfilenum)
    : resolve (cometPath i) = some (cometName i) := by
  have hle := o.cometfilenum_le
  have hfits : Word.Fits 32 i := by
    unfold MAX_FILENUM at hle
    unfold Word.Fits
    omega
  rw [cometPath_eq hfits, resolve_path]

theorem OpensFiles.other {written : List UInt8 → Prop} {paths : List CStr} {d next : Dir}
    {name : CStr} (h : OpensFiles written paths d next)
    (hname : ∀ path ∈ paths, resolve path ≠ some name) : next name = d name := by
  rcases h name with hsame | ⟨⟨path, hpath, hresolve⟩, -⟩
  . exact hsame
  . exact absurd hresolve (hname path hpath)

theorem JobsRun.file_iff {o : Options} {a : Answers} {uRemainSize : Nat} {d next : Dir}
    {name : CStr} {content : List UInt8} (h : JobsRun .succeeds o a uRemainSize d next)
    : next name = some (.file content)
        ↔ strstr name RENAME = false ∧ o.csvEntry = some name ∧ a.csvText = content := by
  obtain ⟨opened, renamed, reported, -, hrename, hcsv, hunlink⟩ := h
  have hrename_needle : '/' ∉ RENAME ∧ strstr MOUNT_PATH RENAME = false := by
    decide
  cases hname : strstr name RENAME with
  | true =>
    have hgone := hunlink.removed content hrename_needle Conduct.succeeds_unlinks hname
    simp [hgone]
  | false =>
    have hnone : renamed name = none := hrename.renamed hname
    rw [hunlink.kept hrename_needle hname]
    unfold gencsv at hcsv
    split at hcsv
    . next hentry => simp_all
    . next entry hentry =>
      split at hcsv
      . cases hcsv
      . rw [← Option.some.inj hcsv, Function.update_apply, hentry]
        split
        . next heq => simp [heq]
        . next hne => simp [hnone, Ne.symm hne]

theorem CometRun.file_iff {c : Conduct} {o : Options} {d next : Dir} {name : CStr}
    {content : List UInt8} (hc : c.Unlinks) (h : CometRun c o d next)
    (hname : ∀ n, name ≠ cometName n)
    : next name = some (.file content)
        ↔ strstr name COMETTEST = false ∧ d name = some (.file content) := by
  obtain ⟨opened, hopen, hremove⟩ := h
  have hcomet_needle : '/' ∉ COMETTEST ∧ strstr MOUNT_PATH COMETTEST = false := by
    decide
  have hopened : opened name = d name := by
    apply hopen.other
    intro path hpath
    obtain ⟨i, hi, rfl⟩ := List.mem_map.mp hpath
    rw [resolve_cometPath (List.mem_range.mp hi)]
    intro heq
    exact hname i (Option.some.inj heq).symm
  cases hname : strstr name COMETTEST with
  | true =>
    have hgone := hremove.removed content hcomet_needle hc hname
    simp [hgone]
  | false =>
    rw [hremove.kept hcomet_needle hname, hopened]
    simp

theorem MainRun.file_iff {o : Options} {a : Answers} {d next : Dir} {name : CStr}
    {content : List UInt8} (h : MainRun .succeeds o a d next) (hfile : UserFile d name content)
    : next name = some (.file content)
        ↔ (TestsJobs o a → strstr name RENAME = false ∧ o.csvEntry = some name
            ∧ a.csvText = content)
          ∧ (TestsComet o a → strstr name COMETTEST = false) := by
  unfold MainRun at h
  split at h
  . next hinfo =>
    have hproceeds : ¬ Proceeds o a := by simp [Proceeds, hinfo]
    simp [TestsJobs, TestsComet, hproceeds, h, hfile.present]
  . next uRemainSize hinfo =>
    split at h
    . next hfew =>
      have hproceeds : ¬ Proceeds o a := by simp [Proceeds, hinfo, hfew]
      simp [TestsJobs, TestsComet, hproceeds, h, hfile.present]
    . next hfew =>
      have hproceeds : Proceeds o a := ⟨uRemainSize, hinfo, by simpa using hfew⟩
      obtain ⟨mid, hjobs, hcomet⟩ := h
      have hmid : mid name = some (.file content) ↔ (TestsJobs o a →
          strstr name RENAME = false ∧ o.csvEntry = some name ∧ a.csvText = content) := by
        split at hjobs
        . next htests =>
          have : TestsJobs o a := ⟨hproceeds, htests⟩
          rw [hjobs.file_iff]
          simp [this]
        . next htests =>
          have : ¬ TestsJobs o a := fun h => htests h.2
          simp [this, hjobs, hfile.present]
      rw [← hmid]
      split at hcomet
      . next htests =>
        have : TestsComet o a := ⟨hproceeds, htests⟩
        rw [hcomet.file_iff Conduct.succeeds_unlinks hfile.not_comet]
        simp [this, and_comm]
      . next htests =>
        have : ¬ TestsComet o a := fun h => htests h.2
        simp [this, hcomet]

theorem mainRun_spared_iff {o : Options} {a : Answers} {d next : Dir}
    (h : MainRun .succeeds o a d next)
    : Spared d next
        ↔ (TestsJobs o a → ∀ name content, UserFile d name content →
            strstr name RENAME = false ∧ o.csvEntry = some name ∧ a.csvText = content)
          ∧ (TestsComet o a → ∀ name content, UserFile d name content →
            strstr name COMETTEST = false) := by
  constructor
  . intro hspared
    refine ⟨?_, ?_⟩
    . intro htests name content hfile
      exact ((h.file_iff hfile).mp (hspared name content hfile)).1 htests
    . intro htests name content hfile
      exact ((h.file_iff hfile).mp (hspared name content hfile)).2 htests
  . intro ⟨hjobs, hcomet⟩ name content hfile
    rw [h.file_iff hfile]
    exact ⟨fun htests => hjobs htests name content hfile,
      fun htests => hcomet htests name content hfile⟩

namespace Photo

/-!
A medium that holds one photo, and a run with one job that writes one file.
-/

def options : Options where
  jobsNum := 1
  nobypass := true
  cometfilenum := 0
  filesize := 210
  csvEntry := none
  jobsNum_le := by decide
  cometfilenum_le := by decide
  filesize_bounds := by decide

def answers : Answers where
  info := some 210
  csvText := []

def photo : CStr := "photo.jpg".toList

def test : CStr := "test0.mp4".toList

def before : Dir := Function.update (fun _ => none) photo (some (.file [1]))

def opened : Dir := Function.update before test (some (.file [7]))

def renamedPhoto : Dir :=
  Function.update (Function.update opened photo none) (photo ++ RENAMED) (opened photo)

def renamed : Dir :=
  Function.update (Function.update renamedPhoto test none) (test ++ RENAMED)
    (renamedPhoto test)

theorem userFile : UserFile before photo [1] where
  present := Function.update_self _ _ _
  not_test := by
    intro n h
    have hhead := congrArg List.head? h
    rw [testName_head] at hhead
    exact absurd hhead (by decide)
  not_comet := by
    intro n h
    have hhead := congrArg List.head? h
    rw [cometName_head] at hhead
    exact absurd hhead (by decide)

theorem opensFiles : OpensFiles (fun _ => True) (jobPaths options 210) before opened := by
  intro name
  by_cases hname : name = test
  . subst hname
    refine .inr ⟨⟨testPath 0 0, ?_, ?_⟩, ?_, [7], trivial, Function.update_self _ _ _⟩
    . decide
    . rw [resolve_testPath]
      decide
    . decide
  . exact .inl (Function.update_of_ne hname _ _)

theorem opened_name {name : CStr} (h : opened name ≠ none) : name = photo ∨ name = test := by
  by_contra hne
  rw [not_or] at hne
  exact h (by simp [opened, before, hne.1, hne.2])

theorem renames
    : ReadDirFile renameTest Conduct.succeeds.renames Conduct.succeeds.stops opened renamed := by
  have hopen : (walks renameTest Conduct.succeeds.renames).Run (.opendir opened) []
      (.opendir opened) := .nil _
  obtain ⟨_, mid, hrun, hphoto⟩ := walks_rename hopen
    (.inl (by decide : opened photo ≠ none)) rfl (by decide) (by decide)
    (by decide : opened photo ≠ none) (by decide : opened (photo ++ RENAMED) = none)
  have hmid : mid.dir = renamedPhoto := hphoto.dir_eq
  obtain ⟨entries, last, hrun, htest⟩ := walks_rename hrun
    (.inl ((hphoto.pending_iff test).mpr
      ⟨(by decide : opened test ≠ none), by decide, by decide⟩)) rfl
    (by decide) (by decide) (by rw [hmid]; decide) (by rw [hmid]; decide)
  refine ⟨entries, last, hrun, .inr ?_, ?_⟩
  . intro name hpending
    obtain ⟨hmid, hntest, _⟩ := (htest.pending_iff name).mp hpending
    obtain ⟨hopened, hnphoto, _⟩ := (hphoto.pending_iff name).mp hmid
    exact (opened_name hopened).elim hnphoto hntest
  . rw [htest.dir_eq, hmid]
    rfl

def unlinkedPhoto : Dir := Function.update renamed (photo ++ RENAMED) none

def after : Dir := Function.update unlinkedPhoto (test ++ RENAMED) none

theorem renamed_name {name : CStr} (h : renamed name ≠ none)
    : name = photo ++ RENAMED ∨ name = test ++ RENAMED := by
  by_contra hne
  rw [not_or] at hne
  apply h
  simp only [renamed, renamedPhoto, Function.update_of_ne hne.1, Function.update_of_ne hne.2,
    Function.update_apply]
  split
  . rfl
  . split
    . rfl
    . by_contra hopened
      exact (opened_name hopened).elim (by assumption) (by assumption)

theorem unlinks
    : ReadDirFile unlinkTest Conduct.succeeds.unlinks Conduct.succeeds.stops renamed after := by
  have hneedle : '/' ∉ RENAME ∧ strstr MOUNT_PATH RENAME = false := by decide
  have hok {d : Dir} {name : CStr} : Conduct.succeeds.unlinks d name true := fun h => by cases h
  have hopen : (walks unlinkTest Conduct.succeeds.unlinks).Run (.opendir renamed) []
      (.opendir renamed) := .nil _
  obtain ⟨_, mid, hrun, hphoto⟩ := walks_remove true hneedle hopen
    (.inl (by decide : renamed (photo ++ RENAMED) ≠ none)) hok (by decide) (by decide)
    (by decide : renamed (photo ++ RENAMED) ≠ none) (fun _ _ => ⟨[1], rfl⟩)
  have hmid : mid.dir = unlinkedPhoto := hphoto.dir_eq
  obtain ⟨entries, last, hrun, htest⟩ := walks_remove true hneedle hrun
    (.inl ((hphoto.pending_iff (test ++ RENAMED)).mpr
      ⟨(by decide : renamed (test ++ RENAMED) ≠ none), by decide⟩)) hok
    (by decide) (by decide) (by rw [hmid]; decide) (fun _ _ => ⟨[7], by rw [hmid]; rfl⟩)
  refine ⟨entries, last, hrun, .inr ?_, ?_⟩
  . intro name hpending
    obtain ⟨hmid, hntest⟩ := (htest.pending_iff name).mp hpending
    obtain ⟨hrenamed, hnphoto⟩ := (hphoto.pending_iff name).mp hmid
    exact (renamed_name hrenamed).elim hnphoto hntest
  . rw [htest.dir_eq, hmid]
    rfl

theorem run : MainRun .succeeds options answers before after :=
  ⟨after, ⟨opened, renamed, renamed, opensFiles, renames, rfl, unlinks⟩, rfl⟩

end Photo

theorem mainRun_spared_iff_photo
    : Spared Photo.before Photo.after
        ↔ (TestsJobs Photo.options Photo.answers →
            ∀ name content, UserFile Photo.before name content →
              strstr name RENAME = false ∧ Photo.options.csvEntry = some name
                ∧ Photo.answers.csvText = content)
          ∧ (TestsComet Photo.options Photo.answers →
            ∀ name content, UserFile Photo.before name content → strstr name COMETTEST = false) :=
  mainRun_spared_iff Photo.run

theorem mainRun_not_spared : ∃ o a d next, MainRun .succeeds o a d next ∧ ¬ Spared d next := by
  refine ⟨_, _, _, _, Photo.run, ?_⟩
  intro hspared
  have hkept := (Photo.run.file_iff Photo.userFile).mp (hspared _ _ Photo.userFile)
  have htests : TestsJobs Photo.options Photo.answers := ⟨⟨210, rfl, by decide⟩, rfl, by decide⟩
  have := (hkept.1 htests).2.1
  cases this

end FsBench
