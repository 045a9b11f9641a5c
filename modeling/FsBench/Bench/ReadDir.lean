import FsBench.Bench.Directory
import FsBench.Medium.Info
import FsBench.Recorder.Uses

/-!
The result of `sys_file_read_dir_file` and the status that it hands to the callback: what they tell
of the entries that the scan has come to.
-/

namespace FsBench.ReadDir

/--
An entry that `readdir` returns, what `stat` says about it when its turn has come, and the recording
calls of the callback on it.
-/
structure Dirent where
  dName : CStr
  stat : Timed (Option StatBuf)
  calls : List Call

structure Handed where
  entry : Dirent
  strFilePath : CStr
  stStatBuf : SysFsStat

structure Scanned where
  recorders : Recorders
  returned : List Dirent
  handed : List Handed

/--
`SYS_FS_STAT_T stStatBuf = {-1};`
-/
def stStatBuf : SysFsStat where
  uSize := 2 ^ 64 - 1
  uAttr := 0
  uClusterSize := 0
  uSpaceSize := 0

/--
The loop over the entries. All calls of `sys_file_fstat` get the one buffer.
-/
def scan (strDir : CStr) : List Dirent → SysFsStat → Recorders → Option Scanned
  | [], _, st => some { recorders := st, returned := [], handed := [] }
  | entry :: entries, buf, st =>
    if isDot entry.dName then do
      let r ← scan strDir entries buf st
      return { r with returned := entry :: r.returned }
    else do
      let strFilePath := snprintf 512 (strDir ++ ['/'] ++ entry.dName)
      let (st, filled, iRet) ← sysFileFstat st (some strFilePath) (some buf) entry.stat
      let buf := filled.getD buf
      if iRet < 0 then
        return { recorders := st, returned := [entry], handed := [] }
      else
        let st ← runCalls st entry.calls
        let r ← scan strDir entries buf st
        return { r with
          returned := entry :: r.returned
          handed := { entry, strFilePath, stStatBuf := buf } :: r.handed }

structure Pass extends Scanned where
  fsinfo : FsinfoReport
  ret : Int

/--
`pDir` are the entries to come when the directory opens, `readdir` is the time around the loop.
-/
def sysFileReadDirFile (st : Recorders) (strDir : Option CStr) (pUserParam pCallBack : Option Nat)
    (pDir : Timed (Option (List Dirent))) (readdir : Timed Unit) (fsinfo : FsinfoReport)
    : Option Pass :=
  let failed : Pass := { recorders := st, returned := [], handed := [], fsinfo, ret := ERROR }
  match strDir with
  | none => some failed
  | some strDir =>
    if pUserParam.isNone ∨ pCallBack.isNone then
      some failed
    else
      match pDir.result with
      | none => some failed
      | some entries => do
        let r ← scan strDir entries stStatBuf st
        return { r with
          fsinfo := { fsinfo with opendirTime := pDir.duration, readdirTime := readdir.duration }
          ret := OK }

namespace Dirent

def meant (e : Dirent) : Bool := decide ¬isDot e.dName

def isDir (e : Dirent) : Bool := e.stat.result.any (·.isDir)

end Dirent

def visited (entries : List Dirent) : List Dirent :=
  (entries.filter Dirent.meant).takeWhile fun e => e.stat.result.isSome

def status (s : StatBuf) (uAttr : Nat) : SysFsStat where
  uSize := s.stSize
  uAttr := if s.isDir then uAttr ||| SYS_FS_ATTR_DIR else uAttr
  uClusterSize := Word.trunc 32 s.stBlksize
  uSpaceSize := Word.mul 64 s.stBlocks 512

section Scan

variable {strDir : CStr} {entry : Dirent} {entries : List Dirent} {buf : SysFsStat}
  {st : Recorders} {r : Scanned}

theorem sysFileFstat_none {path : CStr} {c : Timed (Option StatBuf)} (h : c.result = none)
    : sysFileFstat st (some path) (some buf) c = some (st, some buf, ERROR) := by
  simp only [sysFileFstat, h]

theorem sysFileFstat_some {path : CStr} {c : Timed (Option StatBuf)} {s : StatBuf}
    (h : c.result = some s)
    : sysFileFstat st (some path) (some buf) c
      = (st.fstat.record MAX_FSTAT c.duration).map fun fstat =>
        ({ st with fstat }, some (status s buf.uAttr), OK) := by
  simp only [sysFileFstat, h, status]
  cases st.fstat.record MAX_FSTAT c.duration <;> rfl

inductive Step (strDir : CStr) (entry : Dirent) (entries : List Dirent) (buf : SysFsStat)
    (r : Scanned) : Prop where
  | dot (st : Recorders) (rest : Scanned) (hdot : entry.meant = false)
    (hrest : scan strDir entries buf st = some rest)
    (hreturned : r.returned = entry :: rest.returned) (hhanded : r.handed = rest.handed)
  | aborted (hmeant : entry.meant = true) (hstat : entry.stat.result = none)
    (hreturned : r.returned = [entry]) (hhanded : r.handed = [])
  | handed (st : Recorders) (rest : Scanned) (s : StatBuf) (hmeant : entry.meant = true)
    (hstat : entry.stat.result = some s)
    (hrest : scan strDir entries (status s buf.uAttr) st = some rest)
    (hreturned : r.returned = entry :: rest.returned)
    (hhanded : r.handed =
      { entry
        strFilePath := snprintf 512 (strDir ++ ['/'] ++ entry.dName)
        stStatBuf := status s buf.uAttr } :: rest.handed)

theorem scan_step (h : scan strDir (entry :: entries) buf st = some r)
    : Step strDir entry entries buf r := by
  unfold scan at h
  by_cases hdot : isDot entry.dName
  . rw [if_pos hdot] at h
    obtain ⟨rest, hrest, h⟩ := Option.bind_eq_some_iff.mp h
    cases h
    exact .dot st rest (decide_eq_false (not_not_intro hdot)) hrest rfl rfl
  . have hmeant : entry.meant = true := decide_eq_true hdot
    rw [if_neg hdot] at h
    dsimp only at h
    cases hstat : entry.stat.result with
    | none =>
      rw [sysFileFstat_none hstat] at h
      cases h
      exact .aborted hmeant hstat rfl rfl
    | some s =>
      rw [sysFileFstat_some hstat] at h
      obtain ⟨⟨st', filled, iRet⟩, hfstat, h⟩ := Option.bind_eq_some_iff.mp h
      obtain ⟨fstat, _, heq⟩ := Option.map_eq_some_iff.mp hfstat
      cases heq
      rw [if_neg (show ¬OK < 0 by decide)] at h
      obtain ⟨st'', _, h⟩ := Option.bind_eq_some_iff.mp h
      obtain ⟨rest, hrest, h⟩ := Option.bind_eq_some_iff.mp h
      cases h
      exact .handed st'' rest s hmeant hstat hrest rfl rfl

/--
The callback has been called for each entry that was returned, one after the other, but for one that
was not found and at which the loop has stopped.
-/
inductive Covers (entries : List Dirent) (r : Scanned) : Prop where
  | complete (hall : ∀ e ∈ entries, e.meant = true → e.stat.result ≠ none)
    (hhanded : r.returned.filter Dirent.meant = r.handed.map (·.entry))
  | aborted (e : Dirent) (he : e ∈ entries) (hmeant : e.meant = true) (hstat : e.stat.result = none)
    (hhanded : r.returned.filter Dirent.meant = r.handed.map (·.entry) ++ [e])

theorem scan_covers (h : scan strDir entries buf st = some r) : Covers entries r := by
  induction entries generalizing buf st r with
  | nil =>
    cases h
    exact .complete (by simp) rfl
  | cons entry entries ih =>
    cases scan_step h with
    | dot st rest hdot hrest hreturned hhanded =>
      have hskip : ¬entry.meant = true := by simp [hdot]
      cases ih hrest with
      | complete hall hcovered =>
        refine .complete ?_ ?_
        . intro e he hmeant
          rcases List.mem_cons.mp he with rfl | he
          . exact absurd hmeant hskip
          . exact hall e he hmeant
        . rw [hreturned, hhanded, List.filter_cons_of_neg hskip, hcovered]
      | aborted e he hmeant hstat hcovered =>
        refine .aborted e (List.mem_cons_of_mem _ he) hmeant hstat ?_
        rw [hreturned, hhanded, List.filter_cons_of_neg hskip, hcovered]
    | aborted hmeant hstat hreturned hhanded =>
      refine .aborted entry List.mem_cons_self hmeant hstat ?_
      rw [hreturned, hhanded, List.filter_cons_of_pos hmeant]
      rfl
    | handed st rest s hmeant hstat hrest hreturned hhanded =>
      cases ih hrest with
      | complete hall hcovered =>
        refine .complete ?_ ?_
        . intro e he hmeant
          rcases List.mem_cons.mp he with rfl | he
          . rw [hstat]
            exact Option.some_ne_none s
          . exact hall e he hmeant
        . rw [hreturned, hhanded, List.filter_cons_of_pos hmeant, hcovered]
          rfl
      | aborted e he hmeant' hstat hcovered =>
        refine .aborted e (List.mem_cons_of_mem _ he) hmeant' hstat ?_
        rw [hreturned, hhanded, List.filter_cons_of_pos hmeant, hcovered]
        rfl

theorem scan_total {history : Series → List Int} (strDir : CStr) (entries : List Dirent)
    (buf : SysFsStat) (h : Series.Tracked st history)
    : ∃ r, scan strDir entries buf st = some r := by
  induction entries generalizing buf st history with
  | nil => exact ⟨_, rfl⟩
  | cons entry entries ih =>
    unfold scan
    by_cases hdot : isDot entry.dName
    . obtain ⟨rest, hrest⟩ := ih buf h
      rw [if_pos hdot, hrest]
      exact ⟨_, rfl⟩
    . rw [if_neg hdot]
      dsimp only
      generalize snprintf 512 (strDir ++ ['/'] ++ entry.dName) = path
      obtain ⟨next, hrun, hnext⟩ := h.step (.fstat (some path) (some buf) entry.stat)
      obtain ⟨⟨_, filled, iRet⟩, hfstat, rfl⟩ := Option.map_eq_some_iff.mp hrun
      rw [hfstat, Option.bind_eq_bind, Option.bind_some]
      dsimp only
      split
      . exact ⟨_, rfl⟩
      . obtain ⟨last, hlast, hlast'⟩ := hnext.run entry.calls
        obtain ⟨rest, hrest⟩ := ih (filled.getD buf) hlast'
        rw [hlast, Option.bind_eq_bind, Option.bind_some, hrest]
        exact ⟨_, rfl⟩

def Handed.Own (v : Handed) : Prop :=
  ∀ s, v.entry.stat.result = some s →
    v.stStatBuf = status s 0 ∧ (v.stStatBuf.uAttr &&& SYS_FS_ATTR_DIR ≠ 0 ↔ s.isDir = true)

theorem own_iff {s : StatBuf} {path : CStr} (hstat : entry.stat.result = some s)
    (hattr : buf.uAttr = 0 ∨ buf.uAttr = SYS_FS_ATTR_DIR)
    : Handed.Own { entry, strFilePath := path, stStatBuf := status s buf.uAttr }
      ↔ buf.uAttr = 0 ∨ s.isDir = true := by
  have hsome : ∀ {P : StatBuf → Prop}, (∀ t, entry.stat.result = some t → P t) ↔ P s := by
    intro P
    simp [hstat]
  unfold Handed.Own
  rw [hsome]
  cases hdir : s.isDir <;> rcases hattr with hattr | hattr <;>
    simp [status, hdir, hattr, SYS_FS_ATTR_DIR]

theorem visited_dot (h : entry.meant = false) : visited (entry :: entries) = visited entries := by
  unfold visited
  rw [List.filter_cons_of_neg (by simp [h])]

theorem visited_none (h : entry.meant = true) (hstat : entry.stat.result = none)
    : visited (entry :: entries) = [] := by
  unfold visited
  rw [List.filter_cons_of_pos h, List.takeWhile_cons_of_neg (by simp [hstat])]

theorem visited_some {s : StatBuf} (h : entry.meant = true) (hstat : entry.stat.result = some s)
    : visited (entry :: entries) = entry :: visited entries := by
  unfold visited
  rw [List.filter_cons_of_pos h, List.takeWhile_cons_of_pos (by simp [hstat])]

theorem scan_handed (h : scan strDir entries buf st = some r)
    : r.handed.map (·.entry) = visited entries := by
  induction entries generalizing buf st r with
  | nil =>
    cases h
    rfl
  | cons entry entries ih =>
    cases scan_step h with
    | dot st rest hdot hrest _ hhanded => rw [hhanded, visited_dot hdot, ih hrest]
    | aborted hmeant hstat _ hhanded =>
      rw [hhanded, visited_none hmeant hstat]
      rfl
    | handed st rest s hmeant hstat hrest _ hhanded =>
      rw [hhanded, visited_some hmeant hstat, List.map_cons, ih hrest]

theorem scan_own_iff (h : scan strDir entries buf st = some r)
    (hattr : buf.uAttr = 0 ∨ buf.uAttr = SYS_FS_ATTR_DIR)
    : (∀ v ∈ r.handed, v.Own)
      ↔ (visited entries).Pairwise (fun a b => a.isDir = true → b.isDir = true)
        ∧ (buf.uAttr ≠ 0 → ∀ e ∈ visited entries, e.isDir = true) := by
  induction entries generalizing buf st r with
  | nil =>
    cases h
    simp [visited]
  | cons entry entries ih =>
    cases scan_step h with
    | dot st rest hdot hrest _ hhanded =>
      rw [hhanded, visited_dot hdot]
      exact ih hrest hattr
    | aborted hmeant hstat _ hhanded =>
      rw [hhanded, visited_none hmeant hstat]
      simp
    | handed st rest s hmeant hstat hrest _ hhanded =>
      have hisDir : entry.isDir = s.isDir := by simp [Dirent.isDir, hstat]
      -- the attributes that the next entry finds in the buffer
      have hnext : (status s buf.uAttr).uAttr = 0
          ∨ (status s buf.uAttr).uAttr = SYS_FS_ATTR_DIR := by
        cases hdir : s.isDir <;> rcases hattr with hattr | hattr <;> simp [status, hdir, hattr]
      have hzero : (status s buf.uAttr).uAttr ≠ 0 ↔ buf.uAttr ≠ 0 ∨ s.isDir = true := by
        cases hdir : s.isDir <;> rcases hattr with hattr | hattr <;>
          simp [status, hdir, hattr, SYS_FS_ATTR_DIR]
      rw [hhanded, visited_some hmeant hstat, List.forall_mem_cons, List.pairwise_cons,
        List.forall_mem_cons, own_iff hstat hattr, ih hrest hnext, hzero, hisDir]
      tauto

end Scan

section Result

variable {st : Recorders} {strDir : Option CStr} {pUserParam pCallBack : Option Nat}
  {pDir : Timed (Option (List Dirent))} {readdir : Timed Unit} {fsinfo : FsinfoReport} {p : Pass}

inductive Pass.Cases (st : Recorders) (strDir : Option CStr) (pUserParam pCallBack : Option Nat)
    (pDir : Timed (Option (List Dirent))) (p : Pass) : Prop where
  | failed (hret : p.ret = ERROR) (hreturned : p.returned = []) (hhanded : p.handed = [])
    (hwhy : strDir = none ∨ pUserParam = none ∨ pCallBack = none ∨ pDir.result = none)
  | scanned (dir : CStr) (entries : List Dirent) (hdir : strDir = some dir)
    (hparam : pUserParam ≠ none) (hcall : pCallBack ≠ none) (hopen : pDir.result = some entries)
    (hscan : scan dir entries stStatBuf st = some p.toScanned) (hret : p.ret = OK)

theorem sysFileReadDirFile_cases {history : Series → List Int} (h : Series.Tracked st history)
    : ∃ p, sysFileReadDirFile st strDir pUserParam pCallBack pDir readdir fsinfo = some p
        ∧ p.Cases st strDir pUserParam pCallBack pDir := by
  unfold sysFileReadDirFile
  cases strDir with
  | none => exact ⟨_, rfl, .failed rfl rfl rfl (.inl rfl)⟩
  | some dir =>
    by_cases hnull : pUserParam.isNone ∨ pCallBack.isNone
    . refine ⟨_, if_pos hnull, .failed rfl rfl rfl ?_⟩
      rcases hnull with hnull | hnull
      . exact .inr (.inl (Option.isNone_iff_eq_none.mp hnull))
      . exact .inr (.inr (.inl (Option.isNone_iff_eq_none.mp hnull)))
    . dsimp only
      rw [if_neg hnull]
      simp only [not_or, Option.isNone_iff_eq_none] at hnull
      cases hopen : pDir.result with
      | none => exact ⟨_, rfl, .failed rfl rfl rfl (.inr (.inr (.inr hopen)))⟩
      | some entries =>
        obtain ⟨r, hr⟩ := scan_total dir entries stStatBuf h
        simp only [hr, Option.bind_eq_bind, Option.bind_some]
        exact ⟨_, rfl, .scanned dir entries rfl hnull.1 hnull.2 hopen hr rfl⟩

/--
The callback was called once for each entry that was returned, but for `.` and `..`.
-/
def Pass.Complete (p : Pass) : Prop :=
  p.handed.map (·.entry) = p.returned.filter Dirent.meant

def Pass.Truthful (p : Pass) : Prop :=
  (p.ret = 0 → p.Complete) ∧ (¬p.Complete → p.ret < 0)

theorem sysFileReadDirFile_truthful_iff {long : Nat} {uses : List Use}
    (hst : runUses long .initial uses = some st)
    : ∃ p, sysFileReadDirFile st strDir pUserParam pCallBack pDir readdir fsinfo = some p
        ∧ (p.Truthful ↔ (strDir ≠ none → pUserParam ≠ none → pCallBack ≠ none →
          ∀ entries, pDir.result = some entries →
            ∀ e ∈ entries, e.meant = true → e.stat.result ≠ none)) := by
  obtain ⟨history, htracked⟩ := runUses_tracked hst
  obtain ⟨p, hp, hcases⟩ := sysFileReadDirFile_cases htracked
  refine ⟨p, hp, ?_⟩
  cases hcases with
  | failed hret hreturned hhanded hwhy =>
    refine iff_of_true ⟨?_, ?_⟩ ?_
    . intro hzero
      rw [hret] at hzero
      cases hzero
    . intro _
      rw [hret]
      decide
    . intro hdir hparam hcall entries hopen
      rcases hwhy with hwhy | hwhy | hwhy | hwhy
      . exact absurd hwhy hdir
      . exact absurd hwhy hparam
      . exact absurd hwhy hcall
      . cases hwhy.symm.trans hopen
  | scanned dir entries hdir hparam hcall hopen hscan hret =>
    cases scan_covers hscan with
    | complete hall hhanded =>
      refine iff_of_true ⟨fun _ => hhanded.symm, fun hnot => absurd hhanded.symm hnot⟩ ?_
      intro _ _ _ entries' hopen'
      obtain rfl : entries' = entries := Option.some.inj (hopen'.symm.trans hopen)
      exact hall
    | aborted e he hmeant hstat hhanded =>
      refine iff_of_false ?_ ?_
      . intro htruthful
        -- the entry that was returned last has not been handed on
        have hcomplete := htruthful.1 hret
        rw [Pass.Complete, hhanded] at hcomplete
        have hlength := congrArg List.length hcomplete
        simp at hlength
      . intro hall
        exact hall (by simp [hdir]) hparam hcall entries hopen e he hmeant hstat

def missing : Dirent where
  dName := ['a']
  stat := { start := 0, stop := 0, result := none }
  calls := []

def openedDir (entries : List Dirent) : Timed (Option (List Dirent)) where
  start := 0
  stop := 0
  result := some entries

theorem sysFileReadDirFile_truthful_iff_missing
    : ∃ p, sysFileReadDirFile .initial (some MOUNT_PATH) (some 1) (some 1) (openedDir [missing])
          { start := 0, stop := 0, result := () } ⟨0, 0, 0, 0⟩ = some p
        ∧ (p.Truthful ↔ (some MOUNT_PATH ≠ none → some 1 ≠ none → some 1 ≠ none →
          ∀ entries, (openedDir [missing]).result = some entries →
            ∀ e ∈ entries, e.meant = true → e.stat.result ≠ none)) :=
  have hst : runUses 64 .initial [] = some .initial := rfl
  sysFileReadDirFile_truthful_iff hst

theorem sysFileReadDirFile_not_truthful
    : ∃ p, sysFileReadDirFile .initial (some MOUNT_PATH) (some 1) (some 1) (openedDir [missing])
          { start := 0, stop := 0, result := () } ⟨0, 0, 0, 0⟩ = some p
        ∧ ¬p.Truthful := by
  refine ⟨_, rfl, ?_⟩
  intro htruthful
  have hcomplete : [] = [missing].filter Dirent.meant := htruthful.1 rfl
  have hmeant : missing.meant = true := by decide
  rw [List.filter_cons_of_pos hmeant] at hcomplete
  cases hcomplete

theorem Pass.own_iff {history : Series → List Int} {entries : List Dirent}
    (h : Series.Tracked st history) (dir : CStr) (u c : Nat) (hopen : pDir.result = some entries)
    : ∃ p, sysFileReadDirFile st (some dir) (some u) (some c) pDir readdir fsinfo = some p
        ∧ p.handed.map (·.entry) = visited entries
        ∧ ((∀ v ∈ p.handed, v.Own)
          ↔ (visited entries).Pairwise fun a b => a.isDir = true → b.isDir = true) := by
  obtain ⟨p, hp, hcases⟩ := sysFileReadDirFile_cases h
  refine ⟨p, hp, ?_⟩
  cases hcases with
  | failed _ _ _ hwhy => simp [hopen] at hwhy
  | scanned dir' entries' _ _ _ hopen' hscan _ =>
    obtain rfl : entries' = entries := Option.some.inj (hopen'.symm.trans hopen)
    refine ⟨scan_handed hscan, ?_⟩
    rw [scan_own_iff hscan (.inl rfl)]
    simp [stStatBuf]

theorem sysFileReadDirFile_own_iff {long : Nat} {uses : List Use} {dir : CStr} {u c : Nat}
    {entries : List Dirent} (hst : runUses long .initial uses = some st)
    (hopen : pDir.result = some entries)
    : ∃ p, sysFileReadDirFile st (some dir) (some u) (some c) pDir readdir fsinfo = some p
        ∧ p.handed.map (·.entry) = visited entries
        ∧ ((∀ v ∈ p.handed, v.Own)
          ↔ (visited entries).Pairwise fun a b => a.isDir = true → b.isDir = true) := by
  obtain ⟨history, htracked⟩ := runUses_tracked hst
  exact Pass.own_iff htracked dir u c hopen

def found (c : Char) (isDir : Bool) : Dirent where
  dName := [c]
  stat :=
    { start := 0
      stop := 0
      result := some { isDir, stBlocks := 8, stSize := 4096, stBlksize := 512 } }
  calls := []

theorem sysFileReadDirFile_own_iff_found
    : ∃ p, sysFileReadDirFile .initial (some MOUNT_PATH) (some 1) (some 1)
          (openedDir [found 'a' true, found 'b' false]) { start := 0, stop := 0, result := () }
          ⟨0, 0, 0, 0⟩ = some p
        ∧ p.handed.map (·.entry) = visited [found 'a' true, found 'b' false]
        ∧ ((∀ v ∈ p.handed, v.Own)
          ↔ (visited [found 'a' true, found 'b' false]).Pairwise
            fun a b => a.isDir = true → b.isDir = true) :=
  have hst : runUses 64 .initial [] = some .initial := rfl
  have hopen : (openedDir [found 'a' true, found 'b' false]).result
      = some [found 'a' true, found 'b' false] := rfl
  sysFileReadDirFile_own_iff hst hopen

theorem sysFileReadDirFile_not_own
    : ∃ p, sysFileReadDirFile .initial (some MOUNT_PATH) (some 1) (some 1)
          (openedDir [found 'a' true, found 'b' false]) { start := 0, stop := 0, result := () }
          ⟨0, 0, 0, 0⟩ = some p
        ∧ ¬∀ v ∈ p.handed, v.Own := by
  have hopen : (openedDir [found 'a' true, found 'b' false]).result
      = some [found 'a' true, found 'b' false] := rfl
  obtain ⟨p, hp, _, hiff⟩ := Pass.own_iff Recorders.initial_tracked MOUNT_PATH 1 1 hopen
  refine ⟨p, hp, ?_⟩
  rw [hiff]
  decide

end Result

end FsBench.ReadDir
