import FsBench.Bench.Folders
import FsBench.Bench.Streams

/-!
The runs of main with the calls of its jobs written out, and that they are among the runs of which
nothing is known but which files the jobs may open.
-/

namespace FsBench

open Stdio

namespace Dir

def files (d : Dir) : Files CStr := fun path =>
  match stat d path with
  | some (.file content) => some content
  | _ => none

def withFiles (d : Dir) (files : Files CStr) : Dir := fun name =>
  match files (MOUNT_PATH ++ ['/'] ++ name) with
  | some content => some (.file content)
  | none => d name

end Dir

def Permits (d : Dir) (opens : Bool) (path : CStr) : Prop :=
  opens = true → stat d path ≠ some .dir

/--
The jobs with all their calls in some order, and what main does behind them.
-/
def JobsPerform (c : Conduct) (o : Options) (rwsize : Nat) (a : Answers) (uRemainSize : Nat)
    (d next : Dir) : Prop :=
  ∃ param count, threadParam uRemainSize o.jobsNum o.filesize rwsize = some (some param)
    ∧ param.count = some count
    ∧ ∃ (answers : Fin o.jobsNum → JobAnswers param.prejobfilenum param.writeSize)
        (calls : List (Fin o.jobsNum × JobCall param.prejobfilenum)) (w : World _ _)
        (renamed reported : Dir),
      (∀ k i, Permits d ((answers k).opens i) (testPath k i))
        ∧ (∀ k, Weave.stepsOf k calls = testlibcFunc param.prejobfilenum count.toNat)
        ∧ Weave.run (World.step answers) (World.start d.files) calls = some w
        ∧ ReadDirFile renameTest c.renames c.stops (d.withFiles w.files) renamed
        ∧ gencsv o.csvEntry a.csvText renamed = some reported
        ∧ ReadDirFile unlinkTest c.unlinks c.stops reported next

def cometFiles (opens : Nat → Bool) (cometfilenum : Nat) (files : Files CStr) : Files CStr :=
  (List.range cometfilenum).foldl
    (fun files i => if opens i then (Stdio.fopen files (cometPath i)).1 else files) files

def CometPerforms (c : Conduct) (o : Options) (d next : Dir) : Prop :=
  ∃ opens : Nat → Bool, (∀ i, Permits d (opens i) (cometPath i))
    ∧ ReadDirFile fileshowTest c.unlinks c.stops
      (d.withFiles (cometFiles opens o.cometfilenum d.files)) next

def MainPerforms (c : Conduct) (o : Options) (rwsize : Nat) (a : Answers) (d next : Dir)
    : Prop :=
  match a.info with
  | none => next = d
  | some uRemainSize =>
    (o.jobsNum ≠ 0 ∧ threadParam uRemainSize o.jobsNum o.filesize rwsize = some none ∧ next = d)
      ∨ (o.jobsNum ≠ 0 → threadParam uRemainSize o.jobsNum o.filesize rwsize ≠ some none)
        ∧ ∃ mid, (if o.nobypass ∧ o.jobsNum ≠ 0 then JobsPerform c o rwsize a uRemainSize d mid
            else mid = d)
          ∧ if 0 < o.cometfilenum then CometPerforms c o mid next else next = mid

/--
What opening `paths` and writing to them makes of files: `start` as it was, or a file where none of
the directories of `d` is.
-/
def OpenedFrom (d : Dir) (written : Bytes → Prop) (paths : List CStr) (files : Files CStr) : Prop :=
  ∀ path, files path = d.files path
    ∨ path ∈ paths ∧ stat d path ≠ some .dir ∧ ∃ content, written content ∧ files path = some content

section Opened

variable {d : Dir} {written : Bytes → Prop} {paths : List CStr} {files : Files CStr}
  {name path : CStr} {content : Bytes}

theorem Dir.withFiles_files : d.withFiles d.files = d := by
  funext name
  unfold withFiles files stat
  rw [resolve_path, Option.bind_some]
  cases d name with
  | none => rfl
  | some node => cases node <;> rfl

theorem OpenedFrom.start : OpenedFrom d written paths d.files :=
  fun _ => .inl rfl

theorem OpenedFrom.update (h : OpenedFrom d written paths files) (hpath : path ∈ paths)
    (hdir : stat d path ≠ some .dir) (hcontent : written content)
    : OpenedFrom d written paths (Function.update files path (some content)) := by
  intro other
  by_cases hother : other = path
  . subst hother
    rw [Function.update_self]
    exact .inr ⟨hpath, hdir, content, hcontent, rfl⟩
  . rw [Function.update_of_ne hother]
    exact h other

theorem OpenedFrom.opensFiles (h : OpenedFrom d written paths files)
    : OpensFiles written paths d (d.withFiles files) := by
  intro name
  have hstat : stat d (MOUNT_PATH ++ ['/'] ++ name) = d name := by
    rw [stat, resolve_path, Option.bind_some]
  rcases h (MOUNT_PATH ++ ['/'] ++ name) with hsame | ⟨hpath, hdir, content, hcontent, hfile⟩
  . left
    have hkept := congrFun (Dir.withFiles_files (d := d)) name
    unfold Dir.withFiles at hkept ⊢
    rw [hsame]
    exact hkept
  . right
    rw [hstat] at hdir
    refine ⟨⟨_, hpath, resolve_path⟩, hdir, content, hcontent, ?_⟩
    unfold Dir.withFiles
    rw [hfile]

end Opened

section Jobs

variable {jobsNum n size : Nat} {answers : Fin jobsNum → JobAnswers n size} {d : Dir}

structure World.Opened (answers : Fin jobsNum → JobAnswers n size) (d : Dir) (w : World jobsNum n)
    : Prop where
  files : OpenedFrom d (fun _ => True)
    ((List.range jobsNum).flatMap fun index => (List.range n).map (testPath index)) w.files
  reaches : ∀ k i, (w.job k).Reaches (answers k) i → (answers k).opens i = true

theorem World.Opened.start : World.Opened answers d (World.start d.files) where
  files := .start
  reaches k i h := by
    rcases h with hopens | ⟨stream, hstream⟩
    . exact hopens
    . cases hstream

theorem World.Opened.step (hpermits : ∀ k i, Permits d ((answers k).opens i) (testPath k i))
    {k : Fin jobsNum} {call : JobCall n} {w t : World jobsNum n} (h : w.Opened answers d)
    (hstep : World.step answers k call w = some t) : t.Opened answers d := by
  obtain ⟨⟨files, job⟩, hcall, ht⟩ := Option.bind_eq_some_iff.mp hstep
  cases ht
  have heffect := JobCall.step_effect hcall
  refine ⟨?_, ?_⟩
  . dsimp only
    rcases heffect.files with hsame | ⟨i, content, hreaches, hupdate⟩
    . rw [hsame]
      exact h.files
    . rw [hupdate]
      refine h.files.update ?_ (hpermits k i (h.reaches k i hreaches)) trivial
      exact List.mem_flatMap.mpr
        ⟨k, List.mem_range.mpr k.isLt, List.mem_map_of_mem (List.mem_range.mpr i.isLt)⟩
  . intro l i hreaches
    dsimp only at hreaches
    by_cases hl : l = k
    . subst hl
      rw [Function.update_self] at hreaches
      exact h.reaches l i (heffect.reaches i hreaches)
    . rw [Function.update_of_ne hl] at hreaches
      exact h.reaches l i hreaches

theorem World.run_opens (hpermits : ∀ k i, Permits d ((answers k).opens i) (testPath k i))
    {calls : List (Fin jobsNum × JobCall n)} {w : World jobsNum n}
    (hrun : Weave.run (World.step answers) (World.start d.files) calls = some w)
    : w.Opened answers d :=
  Weave.run_invariant (World.Opened answers d) (fun _ _ _ _ h hstep => h.step hpermits hstep) hrun
    .start

end Jobs

theorem cometFiles_opens {d : Dir} {opens : Nat → Bool} {cometfilenum : Nat}
    (hpermits : ∀ i, Permits d (opens i) (cometPath i))
    : OpenedFrom d (· = []) ((List.range cometfilenum).map cometPath)
        (cometFiles opens cometfilenum d.files) := by
  unfold cometFiles
  refine List.foldlRecOn _ _ .start ?_
  intro files hfiles i hi
  split
  . next hopens =>
    exact hfiles.update (List.mem_map_of_mem hi) (hpermits i hopens) rfl
  . exact hfiles

section Refines

variable {c : Conduct} {o : Options} {rwsize : Nat} {a : Answers} {uRemainSize : Nat} {d next : Dir}

theorem threadParam_eq_some {jobsNum filesize : Nat} {r : Option ThreadParam}
    (h : threadParam uRemainSize jobsNum filesize rwsize = some r)
    : (r = none ↔ prejobfilenum uRemainSize jobsNum filesize = 0)
      ∧ ∀ param, r = some param →
        param.prejobfilenum = prejobfilenum uRemainSize jobsNum filesize := by
  obtain ⟨size, hsize, hnum⟩ := Option.bind_eq_some_iff.mp h
  obtain ⟨num, hnum, hr⟩ := Option.bind_eq_some_iff.mp hnum
  have hdiv {m n r : Nat} (h : udiv m n = some r) : r = m / n := by
    unfold udiv at h
    split at h
    . cases h
    . exact (Option.some.inj h).symm
  have hnumEq : num = prejobfilenum uRemainSize jobsNum filesize := by
    rw [hdiv hnum, hdiv hsize, prejobfilenum, prejobsize]
  rw [← hnumEq]
  split at hr
  . next hnone =>
    cases hr
    exact ⟨iff_of_true rfl hnone, nofun⟩
  . next hsome =>
    cases hr
    refine ⟨iff_of_false nofun hsome, ?_⟩
    rintro param ⟨⟩
    rfl

theorem JobsPerform.jobsRun (h : JobsPerform c o rwsize a uRemainSize d next)
    : JobsRun c o a uRemainSize d next := by
  obtain ⟨param, count, hparam, -, answers, calls, w, renamed, reported, hpermits, -, hrun, hwalks⟩ :=
    h
  have hopens := (World.run_opens hpermits hrun).files.opensFiles
  have hpaths : (List.range o.jobsNum).flatMap (fun index =>
      (List.range param.prejobfilenum).map (testPath index)) = jobPaths o uRemainSize := by
    rw [(threadParam_eq_some hparam).2 param rfl, jobPaths]
  rw [hpaths] at hopens
  exact ⟨_, renamed, reported, hopens, hwalks⟩

theorem CometPerforms.cometRun (h : CometPerforms c o d next) : CometRun c o d next := by
  obtain ⟨opens, hpermits, hwalk⟩ := h
  exact ⟨_, (cometFiles_opens hpermits).opensFiles, hwalk⟩

theorem threadParam_of_pos (uRemainSize rwsize : Nat) {jobsNum filesize : Nat} (hjobs : jobsNum ≠ 0)
    (hfilesize : 1 ≤ filesize)
    : ∃ r, threadParam uRemainSize jobsNum filesize rwsize = some r := by
  simp only [threadParam, udiv_of_pos (Nat.one_le_iff_ne_zero.mpr hjobs), udiv_of_pos hfilesize,
    Option.bind_eq_bind, Option.bind_some]
  split
  . exact ⟨none, rfl⟩
  . exact ⟨some _, rfl⟩

theorem threadParam_eq_none_iff {jobsNum filesize : Nat} (hjobs : jobsNum ≠ 0)
    (hfilesize : 1 ≤ filesize)
    : threadParam uRemainSize jobsNum filesize rwsize = some none
      ↔ prejobfilenum uRemainSize jobsNum filesize = 0 := by
  obtain ⟨r, hr⟩ := threadParam_of_pos uRemainSize rwsize hjobs hfilesize
  rw [hr, Option.some_inj]
  exact (threadParam_eq_some hr).1

theorem mainPerforms_run (h : MainPerforms c o rwsize a d next) : MainRun c o a d next := by
  unfold MainPerforms at h
  unfold MainRun
  cases hinfo : a.info with
  | none =>
    rw [hinfo] at h
    exact h
  | some uRemainSize =>
    rw [hinfo] at h
    dsimp only at h ⊢
    rcases h with ⟨hjobs, hnone, hsame⟩ | ⟨hsome, mid, hjobs, hcomet⟩
    . rw [threadParam_eq_none_iff hjobs o.filesize_bounds.1] at hnone
      rw [if_pos ⟨hjobs, hnone⟩]
      exact hsame
    . rw [if_neg]
      . refine ⟨mid, ?_, ?_⟩
        . split at hjobs
          . next htests =>
            rw [if_pos htests]
            exact hjobs.jobsRun
          . next htests =>
            rw [if_neg htests]
            exact hjobs
        . split at hcomet
          . next htests =>
            rw [if_pos htests]
            exact hcomet.cometRun
          . next htests =>
            rw [if_neg htests]
            exact hcomet
      . rintro ⟨hjobsNum, hfew⟩
        exact hsome hjobsNum ((threadParam_eq_none_iff hjobsNum o.filesize_bounds.1).mpr hfew)

end Refines

def performedRuns (c : Conduct) : System Dir (Options × Nat × Answers) where
  init _ := True
  step d run next := MainPerforms c run.1 run.2.1 run.2.2 d next

namespace Folder

/-!
The run of `Folder.run` call by call: the job passes over the file that it cannot open.
-/

def jobAnswers : JobAnswers 1 (512 * 1024) where
  opens _ := false
  random _ := List.replicate (512 * 1024) 0
  random_length _ := List.length_replicate
  written _ _ := 0
  fwrite _ _ := 0
  fclose _ := 0

theorem performed : MainPerforms .able Photo.options 512 Photo.answers before after := by
  have hparam : threadParam 210 1 210 512 = some (some ⟨210, 1, 512⟩) := rfl
  have hpermits (k i : Fin 1) : Permits before (jobAnswers.opens i) (testPath k i) :=
    fun hopens => absurd hopens Bool.false_ne_true
  have hsome (hnone : threadParam 210 1 210 512 = some none) : False := by
    rw [hparam] at hnone
    cases hnone
  refine .inr ⟨fun _ => hsome, after, ?_, rfl⟩
  let calls : List (Fin 1 × JobCall 1) := (testlibcFunc 1 420).map (0, ·)
  have hcalls (k : Fin 1) : Weave.stepsOf k calls = testlibcFunc 1 420 := by
    rw [Subsingleton.elim k 0]
    simp [Weave.stepsOf, calls]
  have hprefix (k : Fin 1) : Weave.stepsOf k calls <+: testlibcFunc 1 420 := by rw [hcalls k]
  obtain ⟨w, hrun, _, hother, hclosed⟩ := World.run_interleaved (fun _ : Fin 1 => jobAnswers)
    before.files (by decide) (by decide) (.inl rfl) (by decide) hprefix
  have hfiles : w.files = before.files := by
    funext p
    by_cases hp : ∀ (k : Fin 1) (i : Fin 1), p ≠ testPath k i
    . exact hother p hp
    . simp only [not_forall, not_not] at hp
      obtain ⟨k, i, rfl⟩ := hp
      exact (hclosed k (hcalls k)).2 i
  refine ⟨⟨210, 1, 512⟩, 420, hparam, by decide, fun _ => jobAnswers, calls, w, after, after,
    hpermits, hcalls, hrun, ?_, rfl, unlinks⟩
  rw [hfiles, Dir.withFiles_files]
  exact renames

end Folder

end FsBench
