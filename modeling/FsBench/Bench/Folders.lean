import FsBench.Bench.Leftover
import Mathlib.Algebra.BigOperators.Group.Finset.Basic
import Mathlib.Data.Finset.Max

/-!
What runs of main do to the directories on a medium: none goes but in the place of another one, their
names get longer and longer, and `newfilename` has room for no more than 235 characters of a name.
-/

namespace FsBench

def Dir.Folders (d : Dir) (dirs : Finset CStr) : Prop :=
  ∀ w, w ∈ dirs ↔ d w = some .dir

def Dir.Clear (d : Dir) : Prop :=
  ∀ name content, d name = some (.file content) → strstr name RENAME = false

/--
How often the names can get longer by seven characters.
-/
def room (dirs : Finset CStr) : Nat :=
  ∑ w ∈ dirs, (242 - w.length) / 7

theorem room_rename {dirs : Finset CStr} {w : CStr} (hw : w ∈ dirs) (hshort : w.length ≤ 235)
    : room (insert (w ++ RENAMED) (dirs.erase w)) < room dirs := by
  have hsuffix : RENAMED.length = 7 := by decide
  have hold := Finset.add_sum_erase dirs (fun w => (242 - w.length) / 7) hw
  have hnew : room (insert (w ++ RENAMED) (dirs.erase w))
      ≤ (242 - (w ++ RENAMED).length) / 7 + ∑ v ∈ dirs.erase w, (242 - v.length) / 7 := by
    by_cases hmem : w ++ RENAMED ∈ dirs.erase w
    . rw [Finset.insert_eq_of_mem hmem]
      exact Nat.le_add_left _ _
    . exact Nat.le_of_eq (Finset.sum_insert hmem)
  rw [List.length_append] at hnew
  unfold room at hnew ⊢
  omega

section Walks

variable {d next : Dir} {dirs : Finset CStr}

theorem Walk.Renames.folders {walk next : Walk} {name : CStr} (h : walk.Renames name next)
    (hdirs : walk.dir.Folders dirs)
    : if walk.dir name = some .dir then
        next.dir.Folders (insert (name ++ RENAMED) (dirs.erase name))
      else
        next.dir.Folders dirs := by
  have hne := ne_renamed name
  split
  . next hname =>
    intro w
    rw [Finset.mem_insert, Finset.mem_erase, hdirs w, h.dir_eq]
    by_cases hnew : w = name ++ RENAMED
    . subst hnew
      simp [hname]
    . by_cases hold : w = name
      . subst hold
        simp [hne]
      . simp [hnew, hold]
  . next hname =>
    -- a regular file takes the place of no directory
    have hfree : walk.dir (name ++ RENAMED) ≠ some .dir := by
      rcases h.possible with hnone | hsame
      . simp [hnone]
      . exact fun hdir => hname (hsame.mpr hdir)
    intro w
    rw [hdirs w, h.dir_eq]
    by_cases hnew : w = name ++ RENAMED
    . subst hnew
      simp [hname, hfree]
    . by_cases hold : w = name
      . subst hold
        simp [hne, hname]
      . simp [hnew, hold]

theorem ReadDirFile.renamed_folders
    (h : ReadDirFile renameTest Conduct.able.renames Conduct.able.stops d next)
    (hdirs : d.Folders dirs) (hone : dirs.Nonempty)
    : ∃ dirs', next.Folders dirs' ∧ dirs'.Nonempty ∧ room dirs' ≤ room dirs
        ∧ (d.Clear → room dirs' < room dirs) := by
  -- where files stand in the way the directories may all keep their names
  obtain ⟨w, hw, hlongest⟩ := dirs.exists_max_image List.length hone
  -- Until some directory has been renamed the longest name is still to come, and nothing is in its
  -- way.
  let Inv (walk : Walk) := ∃ dirs', walk.dir.Folders dirs' ∧ dirs'.Nonempty
    ∧ (room dirs' < room dirs ∨ dirs' = dirs
      ∧ (d.Clear → walk.scan.pending w ∧ walk.dir (w ++ RENAMED) = none))
  have hstart : Inv (.opendir d) := by
    refine ⟨dirs, hdirs, hone, .inr ⟨rfl, fun hclear => ⟨?_, ?_⟩⟩⟩
    . simp [Walk.opendir, Scan.opendir, (hdirs w).mp hw]
    . have hsuffix : RENAMED.length = 7 := by decide
      cases hnode : d (w ++ RENAMED) with
      | none => exact hnode
      | some node =>
        cases node with
        | dir =>
          have hle := hlongest _ ((hdirs _).mpr hnode)
          rw [List.length_append] at hle
          omega
        | file content =>
          have hsub : RENAME <:+: w ++ RENAMED := ⟨w ++ ['_'], [], by
            rw [List.append_nil, List.append_assoc]
            rfl⟩
          exact absurd hsub (of_decide_eq_false (hclear _ _ hnode))
  obtain ⟨walk, ⟨dirs', hdirs', hone', hinv⟩, hend, rfl⟩ := h.invariant Inv hstart
    (fun _ _ hinv _ => hinv) (by
      rintro walk name ok next ⟨dirs', hdirs', hone', hinv⟩ hdot hlen hanswers hstep
      obtain ⟨hshort, ⟨_, hrenames⟩ | ⟨rfl, rfl⟩⟩ := Walk.step_rename_cases hstep hdot
      . have hfolders := hrenames.folders hdirs'
        split at hfolders
        . next hname =>
          have hless := room_rename ((hdirs' name).mpr hname) hshort
          refine ⟨_, hfolders, Finset.insert_nonempty _ _, .inl ?_⟩
          rcases hinv with hlt | ⟨rfl, _⟩
          . exact hless.trans hlt
          . exact hless
        . next hname =>
          refine ⟨dirs', hfolders, hone', hinv.imp_right ?_⟩
          rintro ⟨rfl, hkeeps⟩
          refine ⟨rfl, fun hclear => ?_⟩
          obtain ⟨hpending, hfree⟩ := hkeeps hclear
          have hdir : walk.dir w = some .dir := (hdirs' w).mp hw
          have hne : w ≠ name := by
            rintro rfl
            exact hname hdir
          have hnew : w ≠ name ++ RENAMED := by
            rintro rfl
            exact hrenames.possible.elim (by simp [hdir]) fun hsame => hname (hsame.mpr hdir)
          refine ⟨(hrenames.pending_iff w).mpr ⟨hpending, hne, hnew⟩, ?_⟩
          rw [hrenames.dir_eq, Function.update_of_ne (by simpa using hne), Function.update_apply]
          split
          . rfl
          . exact hfree
      . refine ⟨dirs', hdirs', hone', hinv.imp_right ?_⟩
        rintro ⟨rfl, hkeeps⟩
        refine ⟨rfl, fun hclear => ?_⟩
        obtain ⟨hpending, hfree⟩ := hkeeps hclear
        -- the rename of `w` does not fail
        refine ⟨⟨hpending, ?_⟩, hfree⟩
        rintro rfl
        exact hanswers rfl hfree)
  refine ⟨dirs', hdirs', hone', ?_, ?_⟩
  . rcases hinv with hlt | ⟨rfl, _⟩
    . exact hlt.le
    . exact Nat.le_refl _
  . intro hclear
    refine hinv.resolve_right ?_
    rintro ⟨-, hkeeps⟩
    exact hend.resolve_left id w (hkeeps hclear).1

theorem ReadDirFile.left {needle : CStr} {answers : Dir → CStr → Bool → Prop} {stops : Prop}
    (hneedle : '/' ∉ needle ∧ strstr MOUNT_PATH needle = false)
    (h : ReadDirFile (removeTest needle) answers stops d next) (w : CStr)
    : next w = d w ∨ next w = none ∧ d w ≠ some .dir := by
  obtain ⟨walk, hinv, _, rfl⟩ := h.invariant
    (fun walk => walk.dir w = d w ∨ walk.dir w = none ∧ d w ≠ some .dir) (.inl rfl)
    (fun _ _ hinv _ => hinv) (by
      intro walk n ok next hinv hdot hlen _ hstep
      have hremoves := Walk.step_remove_cases hneedle hlen hstep hdot
      rw [hremoves.dir_eq]
      split
      . next hmeant =>
        obtain ⟨content, hfile⟩ := hremoves.file hmeant.1 hmeant.2
        by_cases hn : w = n
        . subst hn
          rw [Function.update_self]
          rcases hinv with hsame | hgone
          . exact .inr ⟨rfl, by simp [← hsame, hfile]⟩
          . exact .inr ⟨rfl, hgone.2⟩
        . rw [Function.update_of_ne hn]
          exact hinv
      . exact hinv)
  exact hinv

theorem ReadDirFile.removed_folders {needle : CStr} {answers : Dir → CStr → Bool → Prop}
    {stops : Prop} (hneedle : '/' ∉ needle ∧ strstr MOUNT_PATH needle = false)
    (h : ReadDirFile (removeTest needle) answers stops d next) (hdirs : d.Folders dirs)
    : next.Folders dirs := by
  intro w
  rw [hdirs w]
  rcases h.left hneedle w with hsame | ⟨hgone, hnot⟩
  . rw [hsame]
  . simp [hgone, hnot]

theorem OpensFiles.folders {written : List UInt8 → Prop} {paths : List CStr}
    (h : OpensFiles written paths d next) (hdirs : d.Folders dirs) : next.Folders dirs := by
  intro w
  rw [hdirs w]
  rcases h w with hsame | ⟨_, hnot, content, _, hfile⟩
  . rw [hsame]
  . simp [hnot, hfile]

theorem OpensFiles.clear {written : List UInt8 → Prop} {paths : List CStr}
    (h : OpensFiles written paths d next) (hclear : d.Clear)
    (hpaths : ∀ path ∈ paths, ∀ name, resolve path = some name → strstr name RENAME = false)
    : next.Clear := by
  intro name content hfile
  rcases h name with hsame | ⟨⟨path, hpath, hresolve⟩, _⟩
  . rw [hsame] at hfile
    exact hclear name content hfile
  . exact hpaths path hpath name hresolve

theorem gencsv_folders {entry : Option CStr} {text : List UInt8}
    (h : gencsv entry text d = some next) (hdirs : d.Folders dirs) : next.Folders dirs := by
  unfold gencsv at h
  split at h
  . cases h
    exact hdirs
  . next name =>
    split at h
    . cases h
    . next hname =>
      cases h
      intro w
      rw [hdirs w, Function.update_apply]
      split
      . next heq =>
        subst heq
        simp [hname]
      . rfl

end Walks

theorem strstr_of_not_mem {hay needle : CStr} {c : Char} (hc : c ∈ needle) (h : c ∉ hay)
    : strstr hay needle = false :=
  decide_eq_false fun hsub => h (hsub.subset hc)

theorem strstr_numbered {pre : CStr} (hpre : 'r' ∉ pre) (n : Int)
    : strstr (pre ++ decimal n ++ MP4) RENAME = false := by
  have hmp4 : 'r' ∉ MP4 := by decide
  refine strstr_of_not_mem (by decide : 'r' ∈ RENAME) ?_
  simp only [List.mem_append, not_or]
  refine ⟨⟨hpre, ?_⟩, hmp4⟩
  intro hmem
  rcases mem_decimal hmem with heq | hdigit
  . exact absurd heq (by decide)
  . exact absurd hdigit (by decide)

section Runs

variable {o : Options} {a : Answers} {d next : Dir} {dirs : Finset CStr}

theorem JobsRun.folders {uRemainSize : Nat} (h : JobsRun .able o a uRemainSize d next)
    (hdirs : d.Folders dirs) (hone : dirs.Nonempty)
    : ∃ dirs', next.Folders dirs' ∧ dirs'.Nonempty ∧ room dirs' ≤ room dirs ∧ next.Clear
        ∧ (d.Clear → room dirs' < room dirs) := by
  obtain ⟨opened, renamed, reported, hopen, hrename, hcsv, hunlink⟩ := h
  have hneedle : '/' ∉ RENAME ∧ strstr MOUNT_PATH RENAME = false := by decide
  obtain ⟨dirs', hdirs', hone', hle, hlt⟩ := hrename.renamed_folders (hopen.folders hdirs) hone
  refine ⟨dirs', hunlink.removed_folders hneedle (gencsv_folders hcsv hdirs'), hone', hle, ?_, ?_⟩
  . intro name content hfile
    by_contra hname
    exact hunlink.removed content hneedle Conduct.able_unlinks (by simpa using hname) hfile
  . intro hclear
    refine hlt (hopen.clear hclear ?_)
    intro path hpath name hresolve
    obtain ⟨index, _, hpath⟩ := List.mem_flatMap.mp hpath
    obtain ⟨i, _, rfl⟩ := List.mem_map.mp hpath
    rw [resolve_testPath] at hresolve
    cases hresolve
    exact strstr_numbered (by decide) _

theorem CometRun.folders {c : Conduct} (h : CometRun c o d next) (hdirs : d.Folders dirs)
    : next.Folders dirs := by
  obtain ⟨opened, hopen, hremove⟩ := h
  exact hremove.removed_folders (by decide) (hopen.folders hdirs)

theorem CometRun.clear {c : Conduct} (h : CometRun c o d next) (hclear : d.Clear)
    : next.Clear := by
  obtain ⟨opened, hopen, hremove⟩ := h
  have hopened := hopen.clear hclear (by
    intro path hpath name hresolve
    obtain ⟨i, hi, rfl⟩ := List.mem_map.mp hpath
    rw [resolve_cometPath (List.mem_range.mp hi)] at hresolve
    cases hresolve
    exact strstr_numbered (by decide) _)
  intro name content hfile
  rcases hremove.left (by decide) name with hsame | ⟨hgone, _⟩
  . rw [hsame] at hfile
    exact hopened name content hfile
  . rw [hgone] at hfile
    cases hfile

instance {o : Options} {a : Answers} : Decidable (Proceeds o a) :=
  match h : a.info with
  | none => isFalse (by simp [Proceeds, h])
  | some uRemainSize =>
    decidable_of_iff (o.jobsNum ≠ 0 → prejobfilenum uRemainSize o.jobsNum o.filesize ≠ 0)
      (by simp [Proceeds, h])

instance {o : Options} {a : Answers} : Decidable (TestsJobs o a) :=
  inferInstanceAs (Decidable (_ ∧ _ ∧ _))

theorem MainRun.folders (h : MainRun .able o a d next) (hdirs : d.Folders dirs)
    (hone : dirs.Nonempty)
    : ∃ dirs', next.Folders dirs' ∧ dirs'.Nonempty ∧ room dirs' ≤ room dirs
        ∧ (d.Clear → next.Clear)
        ∧ (TestsJobs o a → next.Clear ∧ (d.Clear → room dirs' < room dirs)) := by
  have hsame (hnot : ¬TestsJobs o a) (hnext : next = d)
      : ∃ dirs', next.Folders dirs' ∧ dirs'.Nonempty ∧ room dirs' ≤ room dirs
        ∧ (d.Clear → next.Clear)
        ∧ (TestsJobs o a → next.Clear ∧ (d.Clear → room dirs' < room dirs)) := by
    subst hnext
    exact ⟨dirs, hdirs, hone, Nat.le_refl _, id, fun htests => absurd htests hnot⟩
  unfold MainRun at h
  split at h
  . next hinfo => exact hsame (fun htests => by simp [TestsJobs, Proceeds, hinfo] at htests) h
  . next uRemainSize hinfo =>
    split at h
    . next hfew =>
      exact hsame (fun htests => by simp [TestsJobs, Proceeds, hinfo, hfew] at htests) h
    . next hfew =>
      have hproceeds : Proceeds o a := ⟨uRemainSize, hinfo, by simpa using hfew⟩
      obtain ⟨mid, hjobs, hcomet⟩ := h
      have hlast (dirs' : Finset CStr) (hmid : mid.Folders dirs') : next.Folders dirs' := by
        split at hcomet
        . exact hcomet.folders hmid
        . rwa [hcomet]
      have hclear (hmid : mid.Clear) : next.Clear := by
        split at hcomet
        . exact hcomet.clear hmid
        . rwa [hcomet]
      split at hjobs
      . obtain ⟨dirs', hdirs', hone', hle, hmid, hlt⟩ := hjobs.folders hdirs hone
        exact ⟨dirs', hlast dirs' hdirs', hone', hle, fun _ => hclear hmid,
          fun _ => ⟨hclear hmid, hlt⟩⟩
      . next htests =>
        subst hjobs
        exact ⟨dirs, hlast dirs hdirs, hone, Nat.le_refl _, hclear, fun h => absurd h.2 htests⟩

theorem mainRuns_directory {runs : List (Options × Answers)} (h : (mainRuns .able).Run d runs next)
    (hdirs : d.Folders dirs) (hone : dirs.Nonempty)
    : ∃ dirs', next.Folders dirs' ∧ dirs'.Nonempty
        ∧ runs.countP (fun r => TestsJobs r.1 r.2) + room dirs' ≤ room dirs + 1
        ∧ (d.Clear → runs.countP (fun r => TestsJobs r.1 r.2) + room dirs' ≤ room dirs) := by
  suffices hbound : ∃ dirs', next.Folders dirs' ∧ dirs'.Nonempty
      ∧ (d.Clear → next.Clear) ∧ room dirs' ≤ room dirs
      ∧ (runs.countP (fun r => TestsJobs r.1 r.2) ≠ 0 → next.Clear
        ∧ runs.countP (fun r => TestsJobs r.1 r.2) + room dirs' ≤ room dirs + 1)
      ∧ (d.Clear → runs.countP (fun r => TestsJobs r.1 r.2) + room dirs' ≤ room dirs) by
    obtain ⟨dirs', hdirs', hone', _, hle, hsome, hclear⟩ := hbound
    refine ⟨dirs', hdirs', hone', ?_, hclear⟩
    by_cases hzero : runs.countP (fun r => TestsJobs r.1 r.2) = 0
    . omega
    . exact (hsome hzero).2
  induction h with
  | nil => exact ⟨dirs, hdirs, hone, id, Nat.le_refl _, fun hno => absurd rfl hno, fun _ => by simp⟩
  | @snoc t u runs run _ hstep ih =>
    obtain ⟨mid, hmid, hmidOne, hkept, hle, hsome, hclear⟩ := ih
    obtain ⟨dirs', hdirs', hone', hless, hstays, htests⟩ := MainRun.folders hstep hmid hmidOne
    refine ⟨dirs', hdirs', hone', fun h => hstays (hkept h), hless.trans hle, ?_⟩
    rw [List.countP_append, List.countP_singleton]
    split
    . next hjobs =>
      obtain ⟨hnext, hlt⟩ := htests (of_decide_eq_true hjobs)
      refine ⟨fun _ => ⟨hnext, ?_⟩, fun h => ?_⟩
      . by_cases hzero : runs.countP (fun r => TestsJobs r.1 r.2) = 0
        . omega
        . obtain ⟨ht, hbound⟩ := hsome hzero
          have := hlt ht
          omega
      . have := hlt (hkept h)
        have := hclear h
        omega
    . refine ⟨fun hno => ?_, fun h => ?_⟩
      . obtain ⟨ht, hbound⟩ := hsome hno
        exact ⟨hstays ht, by omega⟩
      . have := hclear h
        omega

end Runs

namespace Folder

/-!
A medium that holds two directories, and a run whose job fails to open its file.
-/

def dcim : CStr := "DCIM".toList

def misc : CStr := "MISC".toList

def before : Dir := fun name => if name = dcim ∨ name = misc then some .dir else none

def between : Dir :=
  Function.update (Function.update before dcim none) (dcim ++ RENAMED) (before dcim)

def after : Dir :=
  Function.update (Function.update between misc none) (misc ++ RENAMED) (between misc)

theorem before_name {name : CStr} (h : before name ≠ none) : name = dcim ∨ name = misc := by
  by_contra hne
  exact h (if_neg hne)

theorem after_name {name : CStr} (h : after name ≠ none)
    : name = dcim ++ RENAMED ∨ name = misc ++ RENAMED := by
  by_contra hne
  rw [not_or] at hne
  apply h
  simp only [after, between, Function.update_of_ne hne.1, Function.update_of_ne hne.2,
    Function.update_apply]
  split
  . rfl
  . split
    . rfl
    . by_contra hbefore
      exact (before_name hbefore).elim (by assumption) (by assumption)

theorem folders : before.Folders {dcim, misc} := by
  intro w
  rw [Finset.mem_insert, Finset.mem_singleton, before]
  split
  . next hname => simp [hname]
  . next hname => simp [hname]

theorem clear : before.Clear := by
  intro name content hfile
  have hname := before_name (by rw [hfile]; exact Option.some_ne_none _)
  rcases hname with rfl | rfl <;> cases hfile

theorem renames : ReadDirFile renameTest Conduct.able.renames Conduct.able.stops before after := by
  have hopen : (walks renameTest Conduct.able.renames).Run (.opendir before) []
      (.opendir before) := .nil _
  obtain ⟨_, mid, hrun, hdcim⟩ := walks_rename hopen (.inl (by decide : before dcim ≠ none))
    (fun h => by cases h) (by decide) (by decide) (by decide : before dcim ≠ none)
    (by decide : before (dcim ++ RENAMED) = none)
  have hmid : mid.dir = between := hdcim.dir_eq
  obtain ⟨entries, last, hrun, hmisc⟩ := walks_rename hrun
    (.inl ((hdcim.pending_iff misc).mpr ⟨(by decide : before misc ≠ none), by decide, by decide⟩))
    (fun h => by cases h) (by decide) (by decide) (by rw [hmid]; decide) (by rw [hmid]; decide)
  refine ⟨entries, last, hrun, .inr ?_, ?_⟩
  . intro name hpending
    obtain ⟨hmid, hnmisc, _⟩ := (hmisc.pending_iff name).mp hpending
    obtain ⟨hbefore, hndcim, _⟩ := (hdcim.pending_iff name).mp hmid
    exact (before_name hbefore).elim hndcim hnmisc
  . rw [hmisc.dir_eq, hmid]
    rfl

theorem unlinks : ReadDirFile unlinkTest Conduct.able.unlinks Conduct.able.stops after after := by
  have hneedle : '/' ∉ RENAME ∧ strstr MOUNT_PATH RENAME = false := by decide
  have hopen : (walks unlinkTest Conduct.able.unlinks).Run (.opendir after) []
      (.opendir after) := .nil _
  obtain ⟨_, mid, hrun, hdcim⟩ := walks_remove false hneedle hopen
    (.inl (by decide : after (dcim ++ RENAMED) ≠ none)) (fun _ => by decide)
    (by decide) (by decide) (by decide : after (dcim ++ RENAMED) ≠ none) (fun _ h => by cases h)
  have hmid : mid.dir = after := hdcim.dir_eq
  obtain ⟨entries, last, hrun, hmisc⟩ := walks_remove false hneedle hrun
    (.inl ((hdcim.pending_iff (misc ++ RENAMED)).mpr
      ⟨(by decide : after (misc ++ RENAMED) ≠ none), by decide⟩))
    (fun _ => by rw [hmid]; decide) (by decide) (by decide) (by rw [hmid]; decide)
    (fun _ h => by cases h)
  refine ⟨entries, last, hrun, .inr ?_, ?_⟩
  . intro name hpending
    obtain ⟨hmid, hnmisc⟩ := (hmisc.pending_iff name).mp hpending
    obtain ⟨hafter, hndcim⟩ := (hdcim.pending_iff name).mp hmid
    exact (after_name hafter).elim hndcim hnmisc
  . rw [hmisc.dir_eq, hmid]
    rfl

theorem run : MainRun .able Photo.options Photo.answers before after :=
  ⟨after, ⟨before, after, after, fun _ => .inl rfl, renames, rfl, unlinks⟩, rfl⟩

end Folder

theorem mainRuns_directory_folder
    : ∃ dirs', Folder.after.Folders dirs' ∧ dirs'.Nonempty
        ∧ 1 + room dirs' ≤ room {Folder.dcim, Folder.misc} := by
  have htests : TestsJobs Photo.options Photo.answers := ⟨⟨210, rfl, by decide⟩, rfl, by decide⟩
  have hcount : [(Photo.options, Photo.answers)].countP (fun r => TestsJobs r.1 r.2) = 1 := by
    rw [List.countP_singleton, if_pos (decide_eq_true htests)]
  obtain ⟨dirs', hdirs', hone', _, hbound⟩ := mainRuns_directory
    (.single (a := (Photo.options, Photo.answers)) Folder.run) Folder.folders
    ⟨Folder.dcim, by decide⟩
  have hbound := hbound Folder.clear
  rw [hcount] at hbound
  exact ⟨dirs', hdirs', hone', hbound⟩

end FsBench
