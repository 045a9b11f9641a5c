import FsBench.Bench.Jobs
import FsBench.Lib.System
import Mathlib.Logic.Function.Basic

/-!
The root directory of the mounted medium, the calls that change it, and the walk of
`sys_file_read_dir_file` with the three callbacks of fsbench.c, one call of `readdir` after the
other, over the directory that it changes. What the calls record is in the recorder modules.
-/

namespace FsBench

inductive Node where
  | file (content : List UInt8)
  | dir
deriving DecidableEq

/--
The entries of the root directory under their names, without `.` and `..`.
-/
abbrev Dir := CStr → Option Node

def resolve (path : CStr) : Option CStr :=
  if (MOUNT_PATH ++ ['/']).isPrefixOf path then some (path.drop (MOUNT_PATH.length + 1)) else none

def stat (d : Dir) (path : CStr) : Option Node :=
  (resolve path).bind d

/--
A file goes under a new name or in the place of a file, a directory in the place of a directory.
Elsewhere the call cannot succeed.
-/
def rename (d : Dir) (oldPath newPath : CStr) : Option Dir := do
  let old ← resolve oldPath
  let new ← resolve newPath
  let node ← d old
  if (d new).isNone ∨ (node = .dir ↔ d new = some .dir) then
    return Function.update (Function.update d old none) new (some node)
  else
    none

def unlink (d : Dir) (path : CStr) : Option Dir := do
  let name ← resolve path
  match d name with
  | some (.file _) => some (Function.update d name none)
  | _ => none

def RENAME : CStr := "rename".toList

def RENAMED : CStr := "_rename".toList

def COMETTEST : CStr := "comettest".toList

/--
What a callback makes of the directory, and the renames that it has made. The first argument says
whether its call of `sys_posix_rename` or `sys_posix_rm` succeeds. There is no result where that call
cannot succeed, or where a buffer overflows.
-/
abbrev Callback := Bool → Dir → CStr → Option (Dir × List (CStr × CStr))

def renameTest : Callback := fun ok d filename =>
  if strstr filename TEST then do
    let newfilename ← sprintf 256 (filename ++ RENAMED)
    -- the result of the call is not looked at
    if ok then
      let d ← rename d filename newfilename
      return (d, [(filename, newfilename)])
    else
      return (d, [])
  else
    some (d, [])

/--
What `unlink_test` and `fileshow_test` do, which look for different texts.
-/
def removeTest (needle : CStr) : Callback := fun ok d filename =>
  if strstr filename needle ∧ ok then do
    let d ← unlink d filename
    return (d, [])
  else
    some (d, [])

def unlinkTest : Callback :=
  removeTest RENAME

def fileshowTest : Callback :=
  removeTest COMETTEST

def entryPath (name : CStr) : CStr :=
  snprintf 512 (MOUNT_PATH ++ ['/'] ++ name)

abbrev isDot (name : CStr) : Prop :=
  name = ['.'] ∨ name = ['.', '.']

/--
The entries that were there at `opendir` and have been neither returned nor renamed nor replaced,
and those that have come since and have not been returned.
-/
structure Scan where
  pending : CStr → Prop
  created : CStr → Prop

namespace Scan

/--
The directory itself and its parent may be returned too.
-/
def opendir (d : Dir) : Scan where
  pending name := d name ≠ none
  created := isDot

def Returns (scan : Scan) : Option CStr → Prop
  | some name => scan.pending name ∨ scan.created name
  | none => ∀ name, ¬scan.pending name

def skip (scan : Scan) (name : CStr) : Scan :=
  { scan with created n := scan.created n ∧ n ≠ name }

def visit (scan : Scan) (name : CStr) : Scan where
  pending n := scan.pending n ∧ n ≠ name
  created n := scan.created n ∧ n ≠ name

def rename (scan : Scan) (paths : CStr × CStr) : Scan where
  pending n := scan.pending n ∧ resolve paths.1 ≠ some n ∧ resolve paths.2 ≠ some n
  created n := scan.created n ∧ resolve paths.1 ≠ some n ∨ resolve paths.2 = some n

end Scan

structure Walk where
  dir : Dir
  scan : Scan
  renames : List (CStr × CStr)

def Walk.opendir (d : Dir) : Walk where
  dir := d
  scan := .opendir d
  renames := []

/--
The body of the loop. It is `none` where the loop is left because `stat` does not find the entry.
-/
def Walk.step (pCallBack : Callback) (walk : Walk) (name : CStr) (ok : Bool) : Option Walk :=
  if isDot name then
    some { walk with scan := walk.scan.skip name }
  else
    let strFilePath := entryPath name
    match stat walk.dir strFilePath with
    | none => none
    | some _ => do
      let (dir, renames) ← pCallBack ok walk.dir strFilePath
      return {
        dir
        scan := renames.foldl Scan.rename (walk.scan.visit name)
        renames := walk.renames ++ renames
      }

def walks (pCallBack : Callback) (answers : Dir → CStr → Bool → Prop)
    : System Walk (CStr × Bool) where
  init walk := ∃ d, walk = .opendir d
  step walk entry next := entry.1.length ≤ 255 ∧ walk.scan.Returns (some entry.1)
    ∧ answers walk.dir entry.1 entry.2 ∧ walk.step pCallBack entry.1 entry.2 = some next

/--
What is there after a walk. It goes on until `readdir` has no more entries, unless it may stop: when
`opendir`, `readdir` or `stat` fails.
-/
def ReadDirFile (pCallBack : Callback) (answers : Dir → CStr → Bool → Prop) (stops : Prop)
    (d next : Dir) : Prop :=
  ∃ entries walk, (walks pCallBack answers).Run (.opendir d) entries walk
    ∧ (stops ∨ walk.scan.Returns none) ∧ next = walk.dir

/--
How the system behaves in the walks of a run: whether one may stop, and which renames and which
unlinks of an entry may succeed and which may fail.
-/
structure Conduct where
  stops : Prop
  renames : Dir → CStr → Bool → Prop
  unlinks : Dir → CStr → Bool → Prop

namespace Conduct

/--
Only what cannot succeed fails: the unlink of a directory. A run with a rename that cannot succeed is
none.
-/
def succeeds : Conduct where
  stops := False
  renames _ _ ok := ok = true
  unlinks d name ok := ok = false → d name = some .dir

/--
A rename may fail as well where the new name is taken.
-/
def able : Conduct :=
  { succeeds with renames d name ok := ok = false → d (name ++ RENAMED) ≠ none }

structure Unlinks (c : Conduct) : Prop where
  ends : ¬c.stops
  fails : ∀ d name, c.unlinks d name false → d name = some .dir

theorem succeeds_unlinks : succeeds.Unlinks :=
  ⟨id, fun _ _ h => h rfl⟩

theorem able_unlinks : able.Unlinks :=
  ⟨id, fun _ _ h => h rfl⟩

end Conduct

theorem entryPath_eq {name : CStr} (h : name.length ≤ 255)
    : entryPath name = MOUNT_PATH ++ ['/'] ++ name := by
  apply snprintf_of_lt
  have hmount : (MOUNT_PATH ++ ['/']).length = 13 := by decide
  rw [List.length_append, hmount]
  omega

@[simp]
theorem resolve_path {name : CStr} : resolve (MOUNT_PATH ++ ['/'] ++ name) = some name := by
  have hprefix : (MOUNT_PATH ++ ['/']).isPrefixOf (MOUNT_PATH ++ ['/'] ++ name) = true := by
    rw [List.isPrefixOf_iff_prefix]
    exact List.prefix_append _ _
  have hlen : (MOUNT_PATH ++ ['/']).length = MOUNT_PATH.length + 1 := by simp
  rw [resolve, if_pos hprefix, ← hlen, List.drop_left]

theorem stat_entryPath {d : Dir} {name : CStr} (h : name.length ≤ 255)
    : stat d (entryPath name) = d name := by
  rw [stat, entryPath_eq h, resolve_path]
  rfl

theorem strstr_entryPath_test (name : CStr) : strstr (entryPath name) TEST = true := by
  have hmount : TEST <:+: MOUNT_PATH := by decide
  have hprefix : MOUNT_PATH <+: entryPath name := by
    rw [entryPath, snprintf, List.prefix_take_iff, List.append_assoc]
    exact ⟨List.prefix_append _ _, by decide⟩
  exact decide_eq_true (hmount.trans hprefix.isInfix)

theorem newfilename_fits_iff {name : CStr}
    : (entryPath name ++ RENAMED).length < 256 ↔ name.length ≤ 235 := by
  have hmount : MOUNT_PATH.length = 12 := by decide
  have hsuffix : RENAMED.length = 7 := by decide
  unfold entryPath snprintf
  simp only [List.length_append, List.length_take, List.length_singleton]
  omega

theorem entryPath_renamed {name : CStr} (h : name.length ≤ 235)
    : entryPath name ++ RENAMED = entryPath (name ++ RENAMED) := by
  have hsuffix : RENAMED.length = 7 := by decide
  rw [entryPath_eq (by omega), entryPath_eq (by rw [List.length_append]; omega), List.append_assoc]

theorem resolve_entryPath {name : CStr} (h : name.length ≤ 255)
    : resolve (entryPath name) = some name := by
  rw [entryPath_eq h, resolve_path]

theorem resolve_renamed {name : CStr} (h : name.length ≤ 235)
    : resolve (entryPath (name ++ RENAMED)) = some (name ++ RENAMED) := by
  have hsuffix : RENAMED.length = 7 := by decide
  apply resolve_entryPath
  rw [List.length_append]
  omega

theorem ne_renamed (name : CStr) : name ≠ name ++ RENAMED := by
  intro h
  have hlen := congrArg List.length h
  rw [List.length_append] at hlen
  have : RENAMED.length = 7 := by decide
  omega

theorem not_isDot_renamed (name : CStr) : ¬isDot (name ++ RENAMED) := by
  have hsuffix : RENAMED.length = 7 := by decide
  intro h
  rcases h with h | h <;>
  . have hlen := congrArg List.length h
    simp only [List.length_append, List.length_cons, List.length_nil] at hlen
    omega

namespace Walk

variable {pCallBack : Callback} {walk next : Walk} {name : CStr} {ok : Bool}

theorem step_dot (hdot : isDot name)
    : walk.step pCallBack name ok = some { walk with scan := walk.scan.skip name } := by
  rw [step, if_pos hdot]

theorem step_cases (h : walk.step pCallBack name ok = some next) (hdot : ¬isDot name)
    : ∃ dir renames, stat walk.dir (entryPath name) ≠ none
        ∧ pCallBack ok walk.dir (entryPath name) = some (dir, renames)
        ∧ next = {
          dir
          scan := renames.foldl Scan.rename (walk.scan.visit name)
          renames := walk.renames ++ renames } := by
  rw [step, if_neg hdot] at h
  dsimp only at h
  split at h
  . cases h
  . next hstat =>
    obtain ⟨⟨dir, renames⟩, hcall, h⟩ := Option.bind_eq_some_iff.mp h
    refine ⟨dir, renames, ?_, hcall, (Option.some.inj h).symm⟩
    rw [hstat]
    exact Option.some_ne_none _

theorem step_eq {dir : Dir} {renames : List (CStr × CStr)} (hdot : ¬isDot name)
    (hstat : stat walk.dir (entryPath name) ≠ none)
    (hcall : pCallBack ok walk.dir (entryPath name) = some (dir, renames))
    : walk.step pCallBack name ok = some {
        dir
        scan := renames.foldl Scan.rename (walk.scan.visit name)
        renames := walk.renames ++ renames } := by
  obtain ⟨node, hnode⟩ := Option.ne_none_iff_exists'.mp hstat
  rw [step, if_neg hdot]
  simp only [hnode, hcall, Option.bind_eq_bind, Option.bind_some]
  rfl

structure Renames (walk : Walk) (name : CStr) (next : Walk) : Prop where
  short : name.length ≤ 235
  possible : walk.dir (name ++ RENAMED) = none
    ∨ (walk.dir name = some .dir ↔ walk.dir (name ++ RENAMED) = some .dir)
  dir_eq : next.dir
    = Function.update (Function.update walk.dir name none) (name ++ RENAMED) (walk.dir name)
  pending_iff : ∀ n, next.scan.pending n ↔ walk.scan.pending n ∧ n ≠ name ∧ n ≠ name ++ RENAMED
  created_iff : ∀ n, next.scan.created n ↔ walk.scan.created n ∧ n ≠ name ∨ n = name ++ RENAMED
  renames_eq : next.renames = walk.renames ++ [(entryPath name, entryPath (name ++ RENAMED))]

theorem renameTest_cases {d dir : Dir} {renames : List (CStr × CStr)}
    (h : renameTest ok d (entryPath name) = some (dir, renames))
    : name.length ≤ 235
        ∧ (ok = false ∧ dir = d ∧ renames = []
          ∨ ok = true ∧ rename d (entryPath name) (entryPath (name ++ RENAMED)) = some dir
            ∧ renames = [(entryPath name, entryPath (name ++ RENAMED))]) := by
  unfold renameTest at h
  rw [if_pos (strstr_entryPath_test name)] at h
  obtain ⟨newfilename, hnew, h⟩ := Option.bind_eq_some_iff.mp h
  unfold sprintf at hnew
  split at hnew
  . next hfits =>
    have hshort := newfilename_fits_iff.mp hfits
    cases hnew
    rw [entryPath_renamed hshort] at h
    refine ⟨hshort, ?_⟩
    cases ok with
    | false =>
      cases h
      exact .inl ⟨rfl, rfl, rfl⟩
    | true =>
      obtain ⟨dir, hdir, h⟩ := Option.bind_eq_some_iff.mp h
      cases h
      exact .inr ⟨rfl, hdir, rfl⟩
  . cases hnew

theorem rename_eq_some_iff {d dir : Dir} (hshort : name.length ≤ 235)
    : rename d (entryPath name) (entryPath (name ++ RENAMED)) = some dir
      ↔ d name ≠ none
        ∧ (d (name ++ RENAMED) = none ∨ (d name = some .dir ↔ d (name ++ RENAMED) = some .dir))
        ∧ dir = Function.update (Function.update d name none) (name ++ RENAMED) (d name) := by
  rw [rename, resolve_entryPath (by omega), resolve_renamed hshort]
  simp only [Option.bind_eq_bind, Option.bind_some]
  cases hnode : d name with
  | none => simp
  | some node =>
    simp only [Option.bind_some, Option.isNone_iff_eq_none, Option.some.injEq]
    split
    . next hpossible => simp [hpossible, eq_comm]
    . next hpossible => simp [hpossible]

theorem step_rename_cases (h : walk.step renameTest name ok = some next) (hdot : ¬isDot name)
    : name.length ≤ 235
        ∧ (ok = true ∧ walk.Renames name next
          ∨ ok = false ∧ next = { walk with scan := walk.scan.visit name }) := by
  obtain ⟨dir, renames, _, hcall, rfl⟩ := step_cases h hdot
  obtain ⟨hshort, ⟨hok, rfl, rfl⟩ | ⟨hok, hdir, rfl⟩⟩ := renameTest_cases hcall
  . refine ⟨hshort, .inr ⟨hok, ?_⟩⟩
    rw [List.append_nil]
    rfl
  . obtain ⟨_, hpossible, hdir⟩ := (rename_eq_some_iff hshort).mp hdir
    refine ⟨hshort, .inl ⟨hok, hshort, hpossible, hdir, ?_, ?_, rfl⟩⟩ <;>
    . intro n
      simp only [List.foldl_cons, List.foldl_nil, Scan.rename, Scan.visit,
        resolve_entryPath (Nat.le_trans hshort (by decide)), resolve_renamed hshort,
        Option.some.injEq]
      grind

theorem renames_of_step (h : walk.step renameTest name true = some next) (hdot : ¬isDot name)
    : walk.Renames name next := by
  obtain ⟨_, ⟨_, hrenames⟩ | ⟨hok, _⟩⟩ := step_rename_cases h hdot
  . exact hrenames
  . cases hok

theorem step_renames {dir : Dir} (hdot : ¬isDot name) (hshort : name.length ≤ 235)
    (hdir : rename walk.dir (entryPath name) (entryPath (name ++ RENAMED)) = some dir)
    : ∃ next, walk.step renameTest name true = some next := by
  have hsprintf : sprintf 256 (entryPath name ++ RENAMED) = some (entryPath (name ++ RENAMED)) := by
    rw [sprintf, if_pos (newfilename_fits_iff.mpr hshort), entryPath_renamed hshort]
  have hstat : stat walk.dir (entryPath name) ≠ none := by
    rw [stat_entryPath (by omega)]
    exact ((rename_eq_some_iff hshort).mp hdir).1
  have hcall : renameTest true walk.dir (entryPath name)
      = some (dir, [(entryPath name, entryPath (name ++ RENAMED))]) := by
    rw [renameTest, if_pos (strstr_entryPath_test name), hsprintf]
    simp only [Option.bind_eq_bind, Option.bind_some, hdir, if_true]
    rfl
  exact ⟨_, step_eq hdot hstat hcall⟩

end Walk

section Remove

variable {needle : CStr} {name : CStr} {ok : Bool} {walk next : Walk}

theorem strstr_entryPath (hneedle : '/' ∉ needle ∧ strstr MOUNT_PATH needle = false)
    (hlen : name.length ≤ 255) : strstr (entryPath name) needle = strstr name needle := by
  rw [entryPath_eq hlen, strstr_path hneedle.1, hneedle.2]
  rfl

structure Walk.Removes (needle : CStr) (walk : Walk) (name : CStr) (ok : Bool) (next : Walk)
    : Prop where
  pending_iff : ∀ n, next.scan.pending n ↔ walk.scan.pending n ∧ n ≠ name
  dir_eq : next.dir = if strstr name needle ∧ ok then Function.update walk.dir name none else walk.dir
  file : strstr name needle = true → ok = true → ∃ content, walk.dir name = some (.file content)

theorem Walk.step_remove_cases (hneedle : '/' ∉ needle ∧ strstr MOUNT_PATH needle = false)
    (hlen : name.length ≤ 255) (h : walk.step (removeTest needle) name ok = some next)
    (hdot : ¬isDot name) : walk.Removes needle name ok next := by
  obtain ⟨dir, renames, _, hcall, rfl⟩ := step_cases h hdot
  unfold removeTest at hcall
  rw [strstr_entryPath hneedle hlen] at hcall
  split at hcall
  . next hmeant =>
    obtain ⟨dir, hunlink, hcall⟩ := Option.bind_eq_some_iff.mp hcall
    cases hcall
    rw [unlink, resolve_entryPath hlen, Option.bind_eq_bind, Option.bind_some] at hunlink
    split at hunlink
    . next content hfile =>
      cases hunlink
      exact ⟨fun n => Iff.rfl, (if_pos hmeant).symm, fun _ _ => ⟨content, hfile⟩⟩
    . cases hunlink
  . next hmeant =>
    cases hcall
    exact ⟨fun n => Iff.rfl, (if_neg hmeant).symm, fun hname hok => absurd ⟨hname, hok⟩ hmeant⟩

theorem Walk.step_removes (hneedle : '/' ∉ needle ∧ strstr MOUNT_PATH needle = false)
    (hlen : name.length ≤ 255) (hdot : ¬isDot name) (hpresent : walk.dir name ≠ none)
    (hfile : strstr name needle = true → ok = true → ∃ content, walk.dir name = some (.file content))
    : ∃ next, walk.step (removeTest needle) name ok = some next := by
  have hcall : ∃ dir, removeTest needle ok walk.dir (entryPath name) = some (dir, []) := by
    unfold removeTest
    rw [strstr_entryPath hneedle hlen]
    split
    . next hmeant =>
      obtain ⟨content, hcontent⟩ := hfile hmeant.1 hmeant.2
      rw [unlink, resolve_entryPath hlen]
      simp only [Option.bind_eq_bind, Option.bind_some, hcontent]
      exact ⟨_, rfl⟩
    . exact ⟨_, rfl⟩
  obtain ⟨dir, hcall⟩ := hcall
  exact ⟨_, step_eq hdot (by rwa [stat_entryPath hlen]) hcall⟩

end Remove

section Walks

variable {answers : Dir → CStr → Bool → Prop} {start walk : Walk} {entries : List (CStr × Bool)}
  {name : CStr}

theorem walks_rename (hrun : (walks renameTest answers).Run start entries walk)
    (hreturns : walk.scan.Returns (some name)) (hanswers : answers walk.dir name true)
    (hdot : ¬isDot name) (hshort : name.length ≤ 235) (hpresent : walk.dir name ≠ none)
    (hfree : walk.dir (name ++ RENAMED) = none)
    : ∃ entries next, (walks renameTest answers).Run start entries next
        ∧ walk.Renames name next := by
  obtain ⟨next, hnext⟩ := Walk.step_renames hdot hshort
    ((Walk.rename_eq_some_iff hshort).mpr ⟨hpresent, .inl hfree, rfl⟩)
  exact ⟨entries ++ [(name, true)], next,
    hrun.snoc ⟨Nat.le_trans hshort (by decide), hreturns, hanswers, hnext⟩,
    Walk.renames_of_step hnext hdot⟩

theorem walks_remove {needle : CStr} (ok : Bool)
    (hneedle : '/' ∉ needle ∧ strstr MOUNT_PATH needle = false)
    (hrun : (walks (removeTest needle) answers).Run start entries walk)
    (hreturns : walk.scan.Returns (some name)) (hanswers : answers walk.dir name ok)
    (hdot : ¬isDot name) (hlen : name.length ≤ 255) (hpresent : walk.dir name ≠ none)
    (hfile : strstr name needle = true → ok = true → ∃ content, walk.dir name = some (.file content))
    : ∃ entries next, (walks (removeTest needle) answers).Run start entries next
        ∧ walk.Removes needle name ok next := by
  obtain ⟨next, hnext⟩ := Walk.step_removes hneedle hlen hdot hpresent hfile
  exact ⟨entries ++ [(name, ok)], next, hrun.snoc ⟨hlen, hreturns, hanswers, hnext⟩,
    Walk.step_remove_cases hneedle hlen hnext hdot⟩

end Walks

namespace ReadDirFile

variable {pCallBack : Callback} {answers : Dir → CStr → Bool → Prop} {stops : Prop} {d next : Dir}

theorem invariant (Inv : Walk → Prop) (h : ReadDirFile pCallBack answers stops d next)
    (hstart : Inv (.opendir d))
    (hskip : ∀ walk name, Inv walk → isDot name → Inv { walk with scan := walk.scan.skip name })
    (hstep : ∀ walk name ok next, Inv walk → ¬isDot name → name.length ≤ 255 →
      answers walk.dir name ok → walk.step pCallBack name ok = some next → Inv next)
    : ∃ walk, Inv walk ∧ (stops ∨ walk.scan.Returns none) ∧ next = walk.dir := by
  obtain ⟨entries, walk, hrun, hend, hnext⟩ := h
  refine ⟨walk, hrun.invariant ?_ hstart, hend, hnext⟩
  intro walk entry next hinv ⟨hlen, _, hanswers, hentry⟩
  by_cases hdot : isDot entry.1
  . rw [Walk.step_dot hdot] at hentry
    cases hentry
    exact hskip walk entry.1 hinv hdot
  . exact hstep walk entry.1 entry.2 next hinv hdot hlen hanswers hentry

section Remove

variable {needle name : CStr}

theorem removed {c : Conduct} (content : List UInt8)
    (hneedle : '/' ∉ needle ∧ strstr MOUNT_PATH needle = false)
    (hc : c.Unlinks) (h : ReadDirFile (removeTest needle) c.unlinks c.stops d next)
    (hname : strstr name needle = true) : next name ≠ some (.file content) := by
  let Inv (walk : Walk) := walk.scan.pending name ∨ walk.dir name ≠ some (.file content)
  have hstart : Inv (.opendir d) := by
    cases hd : d name with
    | none => exact .inr (by simp [Walk.opendir, hd])
    | some node => exact .inl (by simp [Walk.opendir, Scan.opendir, hd])
  obtain ⟨walk, hinv, hend, rfl⟩ := h.invariant Inv hstart (fun _ _ hinv _ => hinv) (by
    intro walk n ok next hinv hdot hlen hanswers hstep
    have hremoves := Walk.step_remove_cases hneedle hlen hstep hdot
    by_cases hn : name = n
    . subst hn
      right
      cases ok with
      | false =>
        have hdir := hc.fails _ _ hanswers
        simp [hremoves.dir_eq, hdir]
      | true => simp [hremoves.dir_eq, hname]
    . cases hinv with
      | inl hpending => exact .inl ((hremoves.pending_iff name).mpr ⟨hpending, hn⟩)
      | inr hgone =>
        right
        rw [hremoves.dir_eq]
        split
        . rwa [Function.update_of_ne hn]
        . exact hgone)
  exact hinv.elim (absurd · (hend.resolve_left hc.ends name)) id

theorem kept (hneedle : '/' ∉ needle ∧ strstr MOUNT_PATH needle = false)
    (h : ReadDirFile (removeTest needle) answers stops d next) (hname : strstr name needle = false)
    : next name = d name := by
  obtain ⟨walk, hinv, _, rfl⟩ := h.invariant (fun walk => walk.dir name = d name) rfl
    (fun _ _ hinv _ => hinv) (by
      intro walk n ok next hinv hdot hlen _ hstep
      rw [(Walk.step_remove_cases hneedle hlen hstep hdot).dir_eq, ← hinv]
      split
      . next hmeant =>
        refine Function.update_of_ne ?_ _ _
        rintro rfl
        rw [hname] at hmeant
        cases hmeant.1
      . rfl)
  exact hinv

end Remove

theorem ne_renamed_of_strstr {name : CStr} (hname : strstr name RENAME = false) (n : CStr)
    : name ≠ n ++ RENAMED := by
  intro hn
  have hsub : RENAME <:+: name := by
    rw [hn]
    refine ⟨n ++ ['_'], [], ?_⟩
    rw [List.append_nil, List.append_assoc]
    rfl
  exact absurd hsub (of_decide_eq_false hname)

theorem renamed {name : CStr}
    (h : ReadDirFile renameTest Conduct.succeeds.renames Conduct.succeeds.stops d next)
    (hname : strstr name RENAME = false) : next name = none := by
  have hnew := ne_renamed_of_strstr hname
  obtain ⟨walk, hinv, hend, rfl⟩ := h.invariant
    (fun walk => walk.scan.pending name ∨ walk.dir name = none) (eq_or_ne (d name) none).symm
    (fun _ _ hinv _ => hinv) (by
      intro walk n ok next hinv hdot hlen hok hstep
      obtain ⟨_, ⟨_, hrenames⟩ | ⟨hnot, _⟩⟩ := Walk.step_rename_cases hstep hdot
      . rw [hrenames.pending_iff, hrenames.dir_eq, Function.update_of_ne (hnew n)]
        by_cases hn : name = n
        . subst hn
          right
          exact Function.update_self _ _ _
        . rw [Function.update_of_ne hn]
          exact hinv.imp_left fun hpending => ⟨hpending, hn, hnew n⟩
      . rw [hnot] at hok
        cases hok)
  exact hinv.elim (absurd · (hend.resolve_left id name)) id

end ReadDirFile

end FsBench
