import FsBench.Recorder.Posix

/-!
Sequential runs of the recording functions, and what every recorder holds after a run.
-/

namespace FsBench

inductive Series where
  | fopen
  | fclose
  | fread
  | fwrite
  | fflush
  | fileno
  | fsync
  | fstat
  | access
  | unlink
  | sync
  | rename
deriving DecidableEq

def Series.capacity : Series → Nat
  | .fopen => MAX_FOPEN
  | .fclose => MAX_FCLOSE
  | .fread => MAX_FREAD
  | .fwrite => MAX_FWRITE
  | .fflush | .fileno | .fsync => MAX_FSYNC
  | .fstat => MAX_FSTAT
  | .sync => MAX_SYNC
  | .access | .unlink | .rename => MAX_FILENUM

def Recorders.series (st : Recorders) : Series → Recorder Int
  | .fopen => st.fopen
  | .fclose => st.fclose
  | .fread => st.fread
  | .fwrite => st.fwrite
  | .fflush => st.fsync.fflush
  | .fileno => st.fsync.fileno
  | .fsync => st.fsync.fsync
  | .fstat => st.fstat
  | .access => st.access
  | .unlink => st.unlink
  | .sync => st.sync
  | .rename => st.rename

def Series.single : Series → Bool
  | .fflush | .fileno | .fsync => false
  | _ => true

def Recorders.put (st : Recorders) (r : Recorder Int) : Series → Recorders
  | .fopen => { st with fopen := r }
  | .fclose => { st with fclose := r }
  | .fread => { st with fread := r }
  | .fwrite => { st with fwrite := r }
  | .fstat => { st with fstat := r }
  | .access => { st with access := r }
  | .unlink => { st with unlink := r }
  | .sync => { st with sync := r }
  | .rename => { st with rename := r }
  | .fflush | .fileno | .fsync => st

theorem Recorders.series_put {st : Recorders} {r : Recorder Int} {s : Series}
    (h : s.single = true) (t : Series)
    : (st.put r s).series t = if t = s then r else st.series t := by
  cases s with
  | fflush | fileno | fsync => cases h
  | _ => cases t <;> rfl

inductive Call where
  | fopen (strPath strMode : Option CStr) (c : Timed (Option FileId))
  | fclose (pFileID : Option FileId) (c : Timed Int)
  | fread (pFileID pBuffer : Option Nat) (uSize uCount : Nat) (c : Timed Nat) (feof : Int)
  | fwrite (pFileID pBuffer : Option Nat) (uSize uCount : Nat) (c : Timed Nat)
  | fsync (pFileID : Option FileId) (flushed numbered synced : Timed Int)
  | fstat (strPath : Option CStr) (pStSate : Option SysFsStat) (c : Timed (Option StatBuf))
  | access (strPath : Option CStr) (c : Timed Int)
  | rm (strPath : Option CStr) (accessed unlinked : Timed Int)
  | sync (c : Timed Unit)
  | rename (strOldPath strNewPath : Option CStr) (c : Timed Int)

def Call.run (st : Recorders) : Call → Option Recorders
  | .fopen strPath strMode c => (sysLibcFopen st strPath strMode c).map (·.1)
  | .fclose pFileID c => (sysLibcFclose st pFileID c).map (·.1)
  | .fread pFileID pBuffer uSize uCount c feof =>
    (sysLibcFread st pFileID pBuffer uSize uCount c feof).map (·.1)
  | .fwrite pFileID pBuffer uSize uCount c =>
    (sysLibcFwrite st pFileID pBuffer uSize uCount c).map (·.1)
  | .fsync pFileID flushed numbered synced =>
    (sysFileFsync st pFileID flushed numbered synced).map (·.1)
  | .fstat strPath pStSate c => (sysFileFstat st strPath pStSate c).map (·.1)
  | .access strPath c => (sysPosixAccess st strPath c).map (·.1)
  | .rm strPath accessed unlinked => (sysPosixRm st strPath accessed unlinked).map (·.1)
  | .sync c => sysPosixSync st c
  | .rename strOldPath strNewPath c => (sysPosixRename st strOldPath strNewPath c).map (·.1)

def runCalls (st : Recorders) (calls : List Call) : Option Recorders :=
  calls.foldlM Call.run st

def Call.recorded : Call → Series → List Int
  | .fopen strPath strMode c, .fopen =>
    if strPath.isNone ∨ strMode.isNone then [] else if c.result.isNone then [] else [c.duration]
  | .fclose pFileID c, .fclose =>
    if pFileID.isNone ∨ c.result ≠ OK then [] else [c.duration]
  | .fread pFileID pBuffer uSize uCount c _, .fread =>
    if pFileID.isNone ∨ pBuffer.isNone ∨ Word.mul 32 uSize uCount = 0 then [] else [c.duration]
  | .fwrite pFileID pBuffer uSize uCount c, .fwrite =>
    if pFileID.isNone ∨ pBuffer.isNone ∨ Word.mul 32 uSize uCount = 0 then
      []
    else if c.result ≠ uCount then
      []
    else
      [c.duration]
  | .fsync pFileID c _ _, .fflush => if pFileID.isNone then [] else [c.duration]
  | .fsync pFileID _ c _, .fileno => if pFileID.isNone then [] else [c.duration]
  | .fsync pFileID _ _ c, .fsync => if pFileID.isNone then [] else [c.duration]
  | .fstat strPath pStSate c, .fstat =>
    if strPath.isNone ∨ pStSate.isNone ∨ c.result.isNone then [] else [c.duration]
  | .access strPath c, .access => if strPath.isNone then [] else [c.duration]
  | .rm strPath c _, .access => if strPath.isNone then [] else [c.duration]
  | .rm strPath c u, .unlink =>
    if strPath.isNone ∨ c.result ≠ OK ∨ u.result < 0 then [] else [u.duration]
  | .sync c, .sync => [c.duration]
  | .rename strOldPath strNewPath c, .rename =>
    if strOldPath.isNone ∨ strNewPath.isNone then [] else [c.duration]
  | _, _ => []

/--
All durations that a sequence of calls records in a series, oldest first.
-/
def durations (calls : List Call) (s : Series) : List Int :=
  calls.flatMap (·.recorded s)

structure Recorder.Tracks (cap : Nat) (r : Recorder Int) (history : List Int) : Prop where
  holds : Ring.Holds cap r.time history
  count_eq : r.count = history.length % cap
  flag_eq : r.flag = if cap ≤ history.length then 1 else 0

theorem Recorder.initial_tracks {cap : Nat} (hcap : 0 < cap) : (initial cap).Tracks cap [] where
  holds := .empty (by simp [initial, initialTime]; omega)
  count_eq := by simp [initial]
  flag_eq := by simp [initial, Nat.pos_iff_ne_zero.mp hcap]

private theorem succ_mod {n cap : Nat} (hcap : 0 < cap)
    : (n + 1) % cap = if n % cap + 1 = cap then 0 else n % cap + 1 := by
  have hlt : n % cap < cap := Nat.mod_lt _ hcap
  rw [Nat.add_mod_eq_ite]
  by_cases h1 : cap = 1
  . subst h1
    simp [Nat.mod_one]
  . have h1' : 1 % cap = 1 := Nat.mod_eq_of_lt (by omega)
    rw [h1']
    split <;> split <;> omega

private theorem filled_succ {n cap : Nat}
    : (if n % cap + 1 = cap then 1 else if cap ≤ n then 1 else 0)
        = if cap ≤ n + 1 then 1 else 0 := by
  cases Nat.lt_or_ge n cap with
  | inl hlt =>
    have hfull : n + 1 = cap ↔ cap ≤ n + 1 := by omega
    simp [Nat.mod_eq_of_lt hlt, Nat.not_le.mpr hlt, hfull]
  | inr hge =>
    have hge' : cap ≤ n + 1 := by omega
    simp [hge, hge']

namespace Recorder

variable {cap : Nat} {r : Recorder Int} {history : List Int}

theorem Tracks.count_lt (h : r.Tracks cap history) (hcap : 0 < cap) : r.count < r.time.length := by
  rw [h.count_eq, h.holds.length_eq]
  exact Nat.mod_lt _ hcap

theorem Tracks.put_wrap (h : r.Tracks cap history) (hcap : 0 < cap) (d : Int)
    : ((r.put d).wrap cap).Tracks cap (history ++ [d]) where
  holds := by
    have := h.holds.push hcap d
    rw [← h.count_eq] at this
    unfold wrap
    split <;> exact this
  count_eq := by
    unfold wrap put
    dsimp only
    rw [h.count_eq, List.length_append, List.length_singleton, succ_mod hcap]
    split <;> simp [*]
  flag_eq := by
    unfold wrap put
    dsimp only
    rw [h.count_eq, List.length_append, List.length_singleton, ← filled_succ]
    split <;> simp [*, h.flag_eq]

theorem Tracks.record (h : r.Tracks cap history) (hcap : 0 < cap) (d : Int)
    : ∃ next, r.record cap d = some next ∧ next.Tracks cap (history ++ [d]) := by
  refine ⟨_, ?_, h.put_wrap hcap d⟩
  simp [Recorder.record, store, h.count_lt hcap]

theorem Tracks.recordAll (h : r.Tracks cap history) (hcap : 0 < cap) (ds : List Int)
    : ∃ next, ds.foldlM (Recorder.record cap) r = some next ∧ next.Tracks cap (history ++ ds) := by
  induction ds generalizing r history with
  | nil =>
    refine ⟨r, rfl, ?_⟩
    rw [List.append_nil]
    exact h
  | cons d ds ih =>
    obtain ⟨mid, hmid, htracks⟩ := h.record hcap d
    obtain ⟨next, hnext, htracks⟩ := ih htracks
    refine ⟨next, ?_, ?_⟩
    . rw [List.foldlM_cons, hmid]
      exact hnext
    . rw [List.append_assoc] at htracks
      exact htracks

end Recorder

theorem Recorder.record_eq_none_iff {α : Type} {cap : Nat} {r : Recorder α} {value : α}
    : r.record cap value = none ↔ r.time.length ≤ r.count := by
  simp [record, store]

theorem SyncRecorder.record_series {cap : Nat} {r next : SyncRecorder Int} {d1 d2 d3 : Int}
    (h : r.record cap d1 d2 d3 = some next)
    : r.fflush.record cap d1 = some next.fflush ∧ r.fileno.record cap d2 = some next.fileno
        ∧ r.fsync.record cap d3 = some next.fsync := by
  unfold record at h
  split at h
  . next hlt =>
    obtain ⟨hflush, hfileno, hfsync⟩ := hlt
    cases h
    by_cases hwrap : r.count + 1 = cap <;>
      simp [Recorder.record, Recorder.store, Recorder.put, Recorder.wrap, wrap, fflush, fileno,
        fsync, putFflush, putFileno, putFsync, hflush, hfileno, hfsync, hwrap]
  . cases h

theorem SyncRecorder.record_none {cap : Nat} {r : SyncRecorder Int} {d1 d2 d3 : Int}
    (h : r.record cap d1 d2 d3 = none)
    : r.fflush.record cap d1 = none ∨ r.fileno.record cap d2 = none
        ∨ r.fsync.record cap d3 = none := by
  unfold record at h
  split at h
  . cases h
  . next hout =>
    simp only [not_and_or, Nat.not_lt] at hout
    simp only [Recorder.record_eq_none_iff]
    exact hout

def Recorders.recorded (st : Recorders) (call : Call) (s : Series) : Option (Recorder Int) :=
  (call.recorded s).foldlM (Recorder.record s.capacity) (st.series s)

inductive Call.Runs (st : Recorders) (call : Call) : Prop where
  | done (next : Recorders) (hrun : call.run st = some next)
      (hseries : ∀ s, st.recorded call s = some (next.series s))
  | outside (hrun : call.run st = none) (s : Series) (hseries : st.recorded call s = none)

namespace Call.Runs

variable (st : Recorders)

theorem nothing {call : Call} (hrun : call.run st = some st) (hrecorded : ∀ s, call.recorded s = [])
    : Runs st call := by
  apply done st hrun
  intro s
  rw [Recorders.recorded, hrecorded]
  rfl

theorem single {call : Call} (s : Series) (hs : s.single = true) (d : Int)
    (hrun : call.run st = ((st.series s).record s.capacity d).map (st.put · s))
    (hrecorded : ∀ t, call.recorded t = if t = s then [d] else []) : Runs st call := by
  have hself : st.recorded call s = (st.series s).record s.capacity d := by
    rw [Recorders.recorded, hrecorded, if_pos rfl]
    simp
  cases hr : (st.series s).record s.capacity d with
  | none =>
    refine .outside ?_ s ?_
    . rw [hrun, hr, Option.map_none]
    . rw [hself, hr]
  | some r =>
    refine .done (st.put r s) ?_ ?_
    . rw [hrun, hr, Option.map_some]
    . intro t
      rw [Recorders.series_put hs]
      split
      . next heq => rw [heq, hself, hr]
      . next hne =>
        rw [Recorders.recorded, hrecorded, if_neg hne]
        rfl

attribute [local simp] Call.recorded Recorders.series Recorders.put Series.capacity Recorders.recorded
  Call.run Option.map_eq_bind Option.bind_assoc

theorem fopen (strPath strMode : Option CStr) (c : Timed (Option FileId))
    : Runs st (.fopen strPath strMode c) := by
  by_cases hnull : strPath.isNone ∨ strMode.isNone
  . apply nothing
    . simp_all [sysLibcFopen]
    . intro s
      cases s <;> simp_all
  . cases hc : c.result with
    | none =>
      apply nothing
      . simp_all [sysLibcFopen]
      . intro s
        cases s <;> simp_all
    | some pHandle =>
      apply single st .fopen rfl c.duration
      . simp_all [sysLibcFopen]
      . intro s
        cases s <;> simp_all

theorem fsync (pFileID : Option FileId) (flushed numbered synced : Timed Int)
    : Runs st (.fsync pFileID flushed numbered synced) := by
  by_cases hnull : pFileID.isNone
  . apply nothing
    . simp_all [sysFileFsync]
    . intro s
      cases s <;> simp_all
  . cases hr : st.fsync.record MAX_FSYNC flushed.duration numbered.duration synced.duration with
    | none =>
      have hrun : (Call.fsync pFileID flushed numbered synced).run st = none := by
        simp_all [sysFileFsync]
      rcases SyncRecorder.record_none hr with h | h | h
      . exact .outside hrun .fflush (by simp_all)
      . exact .outside hrun .fileno (by simp_all)
      . exact .outside hrun .fsync (by simp_all)
    | some r =>
      obtain ⟨hflush, hfileno, hfsync⟩ := SyncRecorder.record_series hr
      exact .done { st with fsync := r } (by simp_all [sysFileFsync])
        (by intro s; cases s <;> simp_all)

theorem rm (strPath : Option CStr) (accessed unlinked : Timed Int)
    : Runs st (.rm strPath accessed unlinked) := by
  by_cases hnull : strPath.isNone
  . apply nothing
    . simp_all [sysPosixRm]
    . intro s
      cases s <;> simp_all
  . cases hr : st.access.record MAX_FILENUM accessed.duration with
    | none => exact .outside (by simp_all [sysPosixRm, sysPosixAccess]) .access (by simp_all)
    | some r =>
      by_cases hkeep : accessed.result ≠ OK ∨ unlinked.result < 0
      . refine .done { st with access := r } ?_ (by intro s; cases s <;> simp_all)
        by_cases hmissing : accessed.result = OK <;>
          simp_all [sysPosixRm, sysPosixAccess]
      . have hok : accessed.result = OK ∧ ¬unlinked.result < 0 := by simpa using hkeep
        cases hu : st.unlink.record MAX_FILENUM unlinked.duration with
        | none =>
          exact .outside (by simp_all [sysPosixRm, sysPosixAccess, Int.not_lt.mpr]) .unlink
            (by simp_all [Int.not_lt.mpr])
        | some u =>
          exact .done { st with access := r, unlink := u }
            (by simp_all [sysPosixRm, sysPosixAccess, Int.not_lt.mpr])
            (by intro s; cases s <;> simp_all [Int.not_lt.mpr])

theorem fstat (strPath : Option CStr) (pStSate : Option SysFsStat) (c : Timed (Option StatBuf))
    : Runs st (.fstat strPath pStSate c) := by
  cases strPath with
  | none =>
    apply nothing
    . simp_all [sysFileFstat]
    . intro s
      cases s <;> simp_all
  | some path =>
    cases pStSate with
    | none =>
      apply nothing
      . simp_all [sysFileFstat]
      . intro s
        cases s <;> simp_all
    | some buf =>
      cases hc : c.result with
      | none =>
        apply nothing
        . simp_all [sysFileFstat]
        . intro s
          cases s <;> simp_all
      | some stState =>
        apply single st .fstat rfl c.duration
        . simp_all [sysFileFstat]
        . intro s
          cases s <;> simp_all

theorem fread (pFileID pBuffer : Option Nat) (uSize uCount : Nat) (c : Timed Nat) (feof : Int)
    : Runs st (.fread pFileID pBuffer uSize uCount c feof) := by
  by_cases hnull : pFileID.isNone ∨ pBuffer.isNone ∨ Word.mul 32 uSize uCount = 0
  . apply nothing
    . simp_all [sysLibcFread]
    . intro s
      cases s <;> simp_all
  . apply single st .fread rfl c.duration
    . simp only [Call.run, sysLibcFread, if_neg hnull, Option.map_eq_bind, Option.bind_eq_bind,
        Option.bind_assoc]
      congr 1
      funext r
      -- what is returned depends on `feof`, the recorder does not
      split
      . rfl
      . split <;> rfl
    . intro s
      cases s <;> simp_all

theorem fclose (pFileID : Option FileId) (c : Timed Int) : Runs st (.fclose pFileID c) := by
  by_cases hnull : pFileID.isNone ∨ c.result ≠ OK
  . apply nothing
    . rcases hnull with hnull | hfails <;> simp_all [sysLibcFclose]
    . intro s
      cases s <;> simp_all
  . apply single st .fclose rfl c.duration
    . simp_all [sysLibcFclose]
    . intro s
      cases s <;> simp_all

theorem fwrite (pFileID pBuffer : Option Nat) (uSize uCount : Nat) (c : Timed Nat)
    : Runs st (.fwrite pFileID pBuffer uSize uCount c) := by
  by_cases hnull : pFileID.isNone ∨ pBuffer.isNone ∨ Word.mul 32 uSize uCount = 0
  . apply nothing
    . simp_all [sysLibcFwrite]
    . intro s
      cases s <;> simp_all
  . by_cases hshort : c.result ≠ uCount
    . apply nothing
      . simp_all [sysLibcFwrite]
      . intro s
        cases s <;> simp_all
    . apply single st .fwrite rfl c.duration
      . simp_all [sysLibcFwrite]
      . intro s
        cases s <;> simp_all

theorem access (strPath : Option CStr) (c : Timed Int) : Runs st (.access strPath c) := by
  by_cases hnull : strPath.isNone
  . apply nothing
    . simp_all [sysPosixAccess]
    . intro s
      cases s <;> simp_all
  . apply single st .access rfl c.duration
    . simp_all [sysPosixAccess]
    . intro s
      cases s <;> simp_all

theorem sync (c : Timed Unit) : Runs st (.sync c) := by
  apply single st .sync rfl c.duration
  . simp_all [sysPosixSync]
  . intro s
    cases s <;> simp_all

theorem rename (strOldPath strNewPath : Option CStr) (c : Timed Int)
    : Runs st (.rename strOldPath strNewPath c) := by
  by_cases hnull : strOldPath.isNone ∨ strNewPath.isNone
  . apply nothing
    . simp_all [sysPosixRename]
    . intro s
      cases s <;> simp_all
  . apply single st .rename rfl c.duration
    . simp_all [sysPosixRename]
    . intro s
      cases s <;> simp_all

end Call.Runs

def Series.Tracked (st : Recorders) (history : Series → List Int) : Prop :=
  ∀ s : Series, (st.series s).Tracks s.capacity (history s)

theorem Series.capacity_pos (s : Series) : 0 < s.capacity := by
  cases s <;> decide

theorem Recorders.initial_tracked : Series.Tracked .initial (fun _ => []) := by
  intro s
  have h := Recorder.initial_tracks s.capacity_pos
  cases s <;> exact h

theorem Call.runs (st : Recorders) (call : Call) : call.Runs st := by
  cases call with
  | fopen strPath strMode c => exact .fopen st strPath strMode c
  | fclose pFileID c => exact .fclose st pFileID c
  | fread pFileID pBuffer uSize uCount c feof => exact .fread st pFileID pBuffer uSize uCount c feof
  | fwrite pFileID pBuffer uSize uCount c => exact .fwrite st pFileID pBuffer uSize uCount c
  | fsync pFileID flushed numbered synced => exact .fsync st pFileID flushed numbered synced
  | fstat strPath pStSate c => exact .fstat st strPath pStSate c
  | access strPath c => exact .access st strPath c
  | rm strPath accessed unlinked => exact .rm st strPath accessed unlinked
  | sync c => exact .sync st c
  | rename strOldPath strNewPath c => exact .rename st strOldPath strNewPath c

namespace Series.Tracked

variable {st : Recorders} {history : Series → List Int}

theorem step (h : Tracked st history) (call : Call)
    : ∃ next, call.run st = some next ∧ Tracked next (fun s => history s ++ call.recorded s) := by
  have hrecords (s : Series) := (h s).recordAll s.capacity_pos (call.recorded s)
  cases call.runs st with
  | done next hrun hseries =>
    refine ⟨next, hrun, ?_⟩
    intro s
    obtain ⟨r, hr, htracks⟩ := hrecords s
    obtain rfl : r = next.series s := Option.some.inj (hr.symm.trans (hseries s))
    exact htracks
  | outside _ s hseries =>
    obtain ⟨r, hr, _⟩ := hrecords s
    cases hr.symm.trans hseries

theorem run (h : Tracked st history) (calls : List Call)
    : ∃ next, runCalls st calls = some next
        ∧ Tracked next (fun s => history s ++ durations calls s) := by
  induction calls generalizing st history with
  | nil =>
    refine ⟨st, rfl, ?_⟩
    simpa [durations] using h
  | cons call calls ih =>
    obtain ⟨mid, hmid, htracked⟩ := h.step call
    obtain ⟨next, hnext, htracked⟩ := ih htracked
    refine ⟨next, ?_, ?_⟩
    . simpa [runCalls, hmid] using hnext
    . simpa [durations] using htracked

end Series.Tracked

theorem runCalls_tracked (calls : List Call)
    : ∃ st, runCalls .initial calls = some st ∧ Series.Tracked st (durations calls) := by
  simpa using Recorders.initial_tracked.run calls

end FsBench
