import FsBench.Recorder.Csv
import FsBench.Recorder.Stats

/-!
Runs in which recording calls, reports and csv files come in any order, and when such a run stays
within the arrays.
-/

namespace FsBench

inductive Use where
  | record (call : Call)
  | fopenBench (info : Report)
  | fcloseBench (info : Report)
  | freadBench (info : Report)
  | fwriteBench (info : Report)
  | fsyncBench (info : SyncReport)
  | fstatBench (info : Report)
  | accessBench (sum : Int) (info : Report)
  | unlinkBench (sum : Int) (info : Report)
  | syncBench (sum : Int) (info : Report)
  | renameBench (info : Report)
  | libcGencsv
  | posixGencsv

def Use.run (long : Nat) (st : Recorders) : Use → Option Recorders
  | .record call => call.run st
  | .fopenBench info => (FsBench.fopenBench long st info).map (·.1)
  | .fcloseBench info => (FsBench.fcloseBench long st info).map (·.1)
  | .freadBench info => (FsBench.freadBench long st info).map (·.1)
  | .fwriteBench info => (FsBench.fwriteBench long st info).map (·.1)
  | .fsyncBench info => (FsBench.fsyncBench long st info).map (·.1)
  | .fstatBench info => (FsBench.fstatBench long st info).map (·.1)
  | .accessBench sum info => (FsBench.accessBench long sum st info).map (·.1)
  | .unlinkBench sum info => (FsBench.unlinkBench long sum st info).map (·.1)
  | .syncBench sum info => (FsBench.syncBench long sum st info).map (·.1)
  | .renameBench info => (FsBench.renameBench long st info).map (·.1)
  | .libcGencsv => (sysLibcGencsv st).map fun _ => st
  | .posixGencsv => (sysPosixGencsv st).map fun _ => st

def runUses (long : Nat) (st : Recorders) (uses : List Use) : Option Recorders :=
  uses.foldlM (Use.run long) st

def Use.recorded : Use → Series → List Int
  | .record call, s => call.recorded s
  | _, _ => []

def recordedBy (uses : List Use) (s : Series) : List Int :=
  uses.flatMap (·.recorded s)

def Use.reads : Use → List Series
  | .record _ => []
  | .fopenBench _ => [.fopen]
  | .fcloseBench _ => [.fclose]
  | .freadBench _ => [.fread]
  | .fwriteBench _ => [.fwrite]
  | .fsyncBench _ => [.fflush, .fileno, .fsync]
  | .fstatBench _ => [.fstat]
  | .accessBench _ _ => [.access]
  | .unlinkBench _ _ => [.unlink]
  | .syncBench _ _ => [.sync]
  | .renameBench _ => [.rename]
  | .libcGencsv => [.fopen, .fread, .fwrite, .fflush, .fileno, .fsync, .fclose, .fstat]
  | .posixGencsv => [.access, .unlink, .sync, .rename]

def Use.assumed (s : Series) : Use → Nat
  | .accessBench _ _ | .unlinkBench _ _ => MAX_SYNC
  | _ => s.capacity

def Series.name : Series → String
  | .fopen => "fopen"
  | .fclose => "fclose"
  | .fread => "fread"
  | .fwrite => "fwrite"
  | .fflush => "fflush"
  | .fileno => "fileno"
  | .fsync => "fsync"
  | .fstat => "fstat"
  | .access => "access"
  | .unlink => "unlink"
  | .sync => "sync"
  | .rename => "rename"

def Recorders.rowOf (st : Recorders) (s : Series) : CsvRow where
  name := s.name.toList
  samples := (st.series s).time.take ((st.series s).length s.capacity)

def Recorders.row (st : Recorders) (s : Series) : Option CsvRow :=
  csvRow s.name s.capacity (st.series s)

theorem Use.capacity_le_assumed (use : Use) (s : Series) : s.capacity ≤ use.assumed s := by
  unfold assumed
  split
  . exact s.capacity_le
  . exact s.capacity_le
  . exact Nat.le_refl _

theorem sysLibcGencsv_eq (st : Recorders)
    : sysLibcGencsv st
      = [.fopen, .fread, .fwrite, .fflush, .fileno, .fsync, .fclose, .fstat].mapM st.row := by
  simp only [List.mapM_cons, List.mapM_nil, bind_assoc, pure_bind]
  rfl

theorem sysPosixGencsv_eq (st : Recorders)
    : sysPosixGencsv st = [.access, .unlink, .sync, .rename].mapM st.row := by
  simp only [List.mapM_cons, List.mapM_nil, bind_assoc, pure_bind]
  rfl

theorem Recorders.row_eq {st : Recorders} {s : Series} (hsized : st.Sized)
    (hlen : (st.series s).length s.capacity ≤ s.capacity)
    : st.row s = some (st.rowOf s) :=
  csvRow_eq (hsized s).2 (by rw [(hsized s).1]; exact hlen)

theorem Recorders.row_outside {st : Recorders} {s : Series} (hsized : st.Sized)
    (hlen : s.capacity < (st.series s).length s.capacity) : st.row s = none :=
  csvRow_outside (hsized s).2 (by rw [(hsized s).1]; exact hlen)

theorem Recorders.rows_eq {st : Recorders} {l : List Series} {rows : List CsvRow} (hsized : st.Sized)
    (h : l.mapM st.row = some rows) : rows = l.map st.rowOf := by
  have hlen : ∀ s ∈ l, (st.series s).length s.capacity ≤ s.capacity := by
    intro s hs
    by_contra hout
    have hnone := Loop.mapM_eq_none hs (row_outside hsized (Nat.lt_of_not_le hout))
    cases hnone.symm.trans h
  have hrows := Loop.mapM_eq_some fun s hs => row_eq hsized (hlen s hs)
  exact Option.some.inj (h.symm.trans hrows)

theorem Series.name_injective {s t : Series} (h : s.name = t.name) : s = t := by
  revert h
  cases s <;> cases t <;> decide

/--
What a use that records nothing comes to: it leaves an array that is shorter than it assumes, or it
puts the entries in use in another order.
-/
inductive Use.Reads (long : Nat) (st : Recorders) (use : Use) : Prop where
  | done (next : Recorders) (hrun : use.run long st = some next)
      (hlen : ∀ s ∈ use.reads, (st.series s).length (use.assumed s) ≤ s.capacity)
      (hseries : ∀ s, (st.series s).Rearranged ((st.series s).length s.capacity) (next.series s))
  | outside (hrun : use.run long st = none) (s : Series) (hs : s ∈ use.reads)
      (hlen : s.capacity < (st.series s).length (use.assumed s))

namespace Use.Reads

variable {long : Nat} {st : Recorders} {use : Use}

theorem single (s₀ : Series) (hs₀ : s₀.single = true)
    (f : Nat → Nat → Int → Recorder Int → Report → Option (Recorder Int × Report)) (sum : Int)
    (info : Report) (hf : f = bench ∨ f = benchSumFirst) (hsized : st.Sized)
    (hreads : use.reads = [s₀])
    (hrun : use.run long st = Option.map (·.1) (do
      let (r, info) ← f long (use.assumed s₀) sum (st.series s₀) info
      return (st.put r s₀, info)))
    : use.Reads long st := by
  have hsize := (hsized s₀).1
  have htwo := s₀.two_le_capacity
  have hput {r : Recorder Int}
      (h : (st.series s₀).Rearranged ((st.series s₀).length s₀.capacity) r) (s : Series)
      : (st.series s).Rearranged ((st.series s).length s.capacity) ((st.put r s₀).series s) := by
    rw [Recorders.series_put hs₀]
    split
    . next hs =>
      rw [hs]
      exact h
    . exact .refl
  cases Nat.lt_or_ge s₀.capacity ((st.series s₀).length (use.assumed s₀)) with
  | inl hout =>
    refine .outside ?_ s₀ (by rw [hreads]; exact List.mem_singleton_self s₀) hout
    obtain ⟨hbench, hfirst⟩ := bench_outside long sum info (r := st.series s₀)
      (by rw [hsize]; exact hout) (by omega)
    rcases hf with rfl | rfl <;> simp [hrun, hbench, hfirst]
  | inr hlen =>
    have hlength := Recorder.length_assumed (use.capacity_le_assumed s₀) hlen
    have hlen' : (st.series s₀).length (use.assumed s₀) ≤ (st.series s₀).time.length := by
      rw [hsize]
      exact hlen
    have hlens : ∀ s ∈ use.reads, (st.series s).length (use.assumed s) ≤ s.capacity := by
      intro s hs
      rw [hreads] at hs
      rw [List.mem_singleton.mp hs]
      exact hlen
    cases Nat.lt_or_ge ((st.series s₀).length (use.assumed s₀)) 2 with
    | inl hshort =>
      have hbench := bench_short long sum info hshort
      have hfirst := benchSumFirst_short long sum info hlen' hshort
      refine .done (st.put (st.series s₀) s₀) ?_ hlens (hput .refl)
      rcases hf with rfl | rfl <;> simp [hrun, hbench, hfirst]
    | inr htwo' =>
      obtain ⟨r, rep, hbench, hfirst, _, hrearranged⟩ := bench_spec long sum info hlen' htwo'
      rw [hlength] at hrearranged
      refine .done (st.put r s₀) ?_ hlens (hput hrearranged)
      rcases hf with rfl | rfl <;> simp [hrun, hbench, hfirst]

theorem gencsv (hsized : st.Sized) (hassumed : ∀ s, use.assumed s = s.capacity)
    (hrun : use.run long st = (use.reads.mapM st.row).map fun _ => st) : use.Reads long st := by
  by_cases hout : ∃ s ∈ use.reads, s.capacity < (st.series s).length s.capacity
  . obtain ⟨s, hs, hlen⟩ := hout
    refine .outside ?_ s hs (by rw [hassumed]; exact hlen)
    rw [hrun, Loop.mapM_eq_none hs (Recorders.row_outside hsized hlen)]
    rfl
  . have hlen : ∀ s ∈ use.reads, (st.series s).length s.capacity ≤ s.capacity :=
      fun s hs => Nat.le_of_not_lt fun hlt => hout ⟨s, hs, hlt⟩
    refine .done st ?_ ?_ fun s => .refl
    . rw [hrun, Loop.mapM_eq_some fun s hs => Recorders.row_eq hsized (hlen s hs)]
      rfl
    . intro s hs
      rw [hassumed]
      exact hlen s hs

theorem fsync (info : SyncReport) (hsized : st.Sized) : Use.Reads long st (.fsyncBench info) := by
  have hflush : st.fsync.fflushTime.length = MAX_FSYNC := (hsized .fflush).1
  have hfileno : st.fsync.filenoTime.length = MAX_FSYNC := (hsized .fileno).1
  have hfsync : st.fsync.fsyncTime.length = MAX_FSYNC := (hsized .fsync).1
  cases Nat.lt_or_ge MAX_FSYNC (st.fsync.length MAX_FSYNC) with
  | inl hout =>
    refine .outside ?_ .fflush (List.mem_cons_self) hout
    have hcap : 2 ≤ MAX_FSYNC := Series.two_le_capacity .fsync
    rw [Use.run, fsyncBench_outside long info (by rw [hflush]; exact hout) (by omega)]
    rfl
  | inr hlen =>
    have hlens : ∀ s ∈ [Series.fflush, .fileno, .fsync],
        (st.series s).length s.capacity ≤ s.capacity := by
      intro s hs
      simp only [List.mem_cons, List.not_mem_nil, or_false] at hs
      rcases hs with rfl | rfl | rfl <;> exact hlen
    cases Nat.lt_or_ge (st.fsync.length MAX_FSYNC) 2 with
    | inl hshort =>
      refine .done st ?_ hlens fun s => .refl
      rw [Use.run, fsyncBench_short long info hshort]
      rfl
    | inr htwo =>
      obtain ⟨next, rep, hbench, _, _, _, h1, h2, h3⟩ := fsyncBench_spec long info
        (by rw [hflush]; exact hlen) (by rw [hfileno]; exact hlen) (by rw [hfsync]; exact hlen) htwo
      refine .done { st with fsync := next } (by simp [Use.run, hbench]) hlens ?_
      intro s
      cases s with
      | fflush => exact h1
      | fileno => exact h2
      | fsync => exact h3
      | _ => exact .refl

end Use.Reads

theorem Use.reads_of_quiet (long : Nat) {st : Recorders} (hsized : st.Sized) (use : Use)
    (hquiet : ∀ call, use ≠ .record call) : use.Reads long st := by
  cases use with
  | record call => exact absurd rfl (hquiet call)
  | fopenBench info =>
    exact .single .fopen rfl bench 0 info (.inl rfl) hsized rfl rfl
  | fcloseBench info =>
    exact .single .fclose rfl bench 0 info (.inl rfl) hsized rfl rfl
  | freadBench info =>
    exact .single .fread rfl bench 0 info (.inl rfl) hsized rfl rfl
  | fwriteBench info =>
    exact .single .fwrite rfl bench 0 info (.inl rfl) hsized rfl rfl
  | fstatBench info =>
    exact .single .fstat rfl bench 0 info (.inl rfl) hsized rfl rfl
  | accessBench sum info =>
    exact .single .access rfl benchSumFirst sum info (.inr rfl) hsized rfl rfl
  | unlinkBench sum info =>
    exact .single .unlink rfl bench sum info (.inl rfl) hsized rfl rfl
  | syncBench sum info =>
    exact .single .sync rfl bench sum info (.inl rfl) hsized rfl rfl
  | renameBench info =>
    exact .single .rename rfl benchSumFirst 0 info (.inr rfl) hsized rfl rfl
  | fsyncBench info => exact .fsync info hsized
  | libcGencsv =>
    exact .gencsv hsized (fun _ => rfl) (by rw [run, sysLibcGencsv_eq]; rfl)
  | posixGencsv =>
    exact .gencsv hsized (fun _ => rfl) (by rw [run, sysPosixGencsv_eq]; rfl)

structure Recorder.Grows (k : Nat) (r next : Recorder Int) : Prop where
  length_eq : next.time.length = r.time.length
  flag_le : r.flag ≤ 1 → next.flag ≤ 1
  count_eq : next.flag = 0 → r.flag = 0 ∧ next.count = r.count + k

theorem Recorder.Rearranged.grows {n : Nat} {r next : Recorder Int} (h : r.Rearranged n next)
    : r.Grows 0 next where
  length_eq := h.length_eq
  flag_le hflag := by
    rw [h.flag_eq]
    exact hflag
  count_eq hflag := ⟨h.flag_eq.symm.trans hflag, h.count_eq⟩

theorem Recorder.Grows.trans {k l : Nat} {r mid next : Recorder Int} (h : r.Grows k mid)
    (h' : mid.Grows l next) : r.Grows (k + l) next where
  length_eq := h'.length_eq.trans h.length_eq
  flag_le hflag := h'.flag_le (h.flag_le hflag)
  count_eq hflag := by
    obtain ⟨hmid, hcount'⟩ := h'.count_eq hflag
    obtain ⟨hstart, hcount⟩ := h.count_eq hmid
    exact ⟨hstart, by omega⟩

theorem Recorder.record_grows {cap : Nat} {d : Int} {r next : Recorder Int}
    (h : r.record cap d = some next) : r.Grows 1 next := by
  unfold record store at h
  split at h
  . cases h
    unfold wrap put
    dsimp only
    split
    . exact ⟨List.length_set, fun _ => Nat.le_refl 1, fun hflag => absurd hflag Nat.one_ne_zero⟩
    . exact ⟨List.length_set, id, fun hflag => ⟨hflag, rfl⟩⟩
  . cases h

theorem Recorder.foldlM_grows {cap : Nat} {ds : List Int} {r next : Recorder Int}
    (h : ds.foldlM (record cap) r = some next) : r.Grows ds.length next := by
  induction ds generalizing r with
  | nil =>
    cases h
    exact Rearranged.refl.grows (n := 0)
  | cons d ds ih =>
    rw [List.foldlM_cons] at h
    obtain ⟨mid, hmid, h⟩ := Option.bind_eq_some_iff.mp h
    rw [List.length_cons, Nat.add_comm]
    exact (record_grows hmid).trans (ih h)

section Series

variable {long : Nat} {st next : Recorders} {uses : List Use}

theorem Use.run_quiet {use : Use} {s : Series} (hsized : st.Sized)
    (h : use.run long st = some next) (hquiet : use.recorded s = [])
    : (st.series s).Rearranged ((st.series s).length s.capacity) (next.series s) := by
  by_cases hcall : ∃ call, use = .record call
  . obtain ⟨call, rfl⟩ := hcall
    cases call.runs st with
    | done next' hrun hseries =>
      obtain rfl : next' = next := Option.some.inj (hrun.symm.trans h)
      have hsame : st.recorded call s = some (st.series s) := by
        rw [Recorders.recorded, show call.recorded s = [] from hquiet]
        rfl
      rw [Option.some.inj ((hseries s).symm.trans hsame)]
      exact .refl
    | outside hrun _ _ => cases hrun.symm.trans h
  . cases use.reads_of_quiet long hsized fun call hcall' => hcall ⟨call, hcall'⟩ with
    | done next' hrun _ hseries =>
      obtain rfl : next' = next := Option.some.inj (hrun.symm.trans h)
      exact hseries s
    | outside hrun _ _ _ => cases hrun.symm.trans h

theorem Use.run_grows {use : Use} (hsized : st.Sized) (h : use.run long st = some next) (s : Series)
    : (st.series s).Grows (use.recorded s).length (next.series s) := by
  by_cases hquiet : use.recorded s = []
  . rw [hquiet]
    exact (run_quiet hsized h hquiet).grows
  . cases use with
    | record call =>
      cases call.runs st with
      | done next' hrun hseries =>
        obtain rfl : next' = next := Option.some.inj (hrun.symm.trans h)
        exact Recorder.foldlM_grows (hseries s)
      | outside hrun _ _ => cases hrun.symm.trans h
    | _ => exact absurd rfl hquiet

theorem Recorders.Sized.grows {k : Series → Nat} (hsized : st.Sized)
    (h : ∀ s, (st.series s).Grows (k s) (next.series s)) : next.Sized :=
  fun s => ⟨(h s).length_eq.trans (hsized s).1, (h s).flag_le (hsized s).2⟩

theorem runUses_grows (hsized : st.Sized) (h : runUses long st uses = some next) (s : Series)
    : (st.series s).Grows (recordedBy uses s).length (next.series s) := by
  induction uses generalizing st with
  | nil =>
    cases h
    exact Recorder.Rearranged.refl.grows (n := 0)
  | cons use uses ih =>
    rw [runUses, List.foldlM_cons] at h
    obtain ⟨mid, hmid, h⟩ := Option.bind_eq_some_iff.mp h
    have hgrows := Use.run_grows hsized hmid
    rw [recordedBy, List.flatMap_cons, List.length_append]
    exact (hgrows s).trans (ih (hsized.grows hgrows) h)

theorem runUses_quiet {s : Series} (hsized : st.Sized) (h : runUses long st uses = some next)
    (hquiet : recordedBy uses s = [])
    : (st.series s).Rearranged ((st.series s).length s.capacity) (next.series s) := by
  induction uses generalizing st with
  | nil =>
    cases h
    exact .refl
  | cons use uses ih =>
    rw [runUses, List.foldlM_cons] at h
    obtain ⟨mid, hmid, h⟩ := Option.bind_eq_some_iff.mp h
    rw [recordedBy, List.flatMap_cons, List.append_eq_nil_iff] at hquiet
    have hrest := ih (hsized.grows (Use.run_grows hsized hmid)) h hquiet.2
    have hfirst := Use.run_quiet hsized hmid hquiet.1
    rw [hfirst.length_cap_eq] at hrest
    exact hfirst.trans hrest

end Series

/--
A report on `access` or `unlink` must come before the array has been filled.
-/
def Use.Fits (pre : List Use) : Use → Prop
  | .accessBench _ _ => (recordedBy pre .access).length < MAX_FILENUM
  | .unlinkBench _ _ => (recordedBy pre .unlink).length < MAX_FILENUM
  | _ => True

theorem Use.fits_iff {pre : List Use} {use : Use}
    : use.Fits pre
      ↔ ∀ s ∈ use.reads, (recordedBy pre s).length < s.capacity ∨ use.assumed s = s.capacity := by
  have hne : MAX_SYNC ≠ MAX_FILENUM := by decide
  cases use <;> simp [Fits, reads, assumed, Series.capacity, hne]

theorem Recorder.Tracks.rearranged {r next : Recorder Int} {cap n : Nat} {history : List Int}
    (h : r.Tracks cap history) (hcap : 0 < cap) (hr : r.Rearranged n next)
    : ∃ other : List Int, other.length = history.length ∧ next.Tracks cap other := by
  obtain ⟨other, hlength, hholds⟩ := Ring.Holds.exists_history
    (hr.length_eq.trans h.holds.length_eq) hcap history.length
  refine ⟨other, hlength, hholds, ?_, ?_⟩
  . rw [hr.count_eq, h.count_eq, hlength]
  . rw [hr.flag_eq, h.flag_eq, hlength]

/--
The recorders after the uses `pre`, which have filled the arrays as far as they have recorded. What
the arrays hold is not kept: the reports sort them.
-/
def Counted (pre : List Use) (st : Recorders) : Prop :=
  ∃ history : Series → List Int, Series.Tracked st history
    ∧ ∀ s, (history s).length = (recordedBy pre s).length

theorem Counted.initial : Counted [] .initial :=
  ⟨fun _ => [], Recorders.initial_tracked, fun _ => rfl⟩

theorem recordedBy_append (pre uses : List Use) (s : Series)
    : recordedBy (pre ++ uses) s = recordedBy pre s ++ recordedBy uses s := by
  simp [recordedBy]

theorem recordedBy_concat (pre : List Use) (use : Use) (s : Series)
    : recordedBy (pre ++ [use]) s = recordedBy pre s ++ use.recorded s := by
  simp [recordedBy]

theorem Counted.record {pre : List Use} {st : Recorders} (h : Counted pre st) (call : Call)
    : ∃ next, call.run st = some next ∧ Counted (pre ++ [.record call]) next := by
  obtain ⟨history, htracked, hlength⟩ := h
  obtain ⟨next, hrun, hnext⟩ := htracked.step call
  refine ⟨next, hrun, _, hnext, ?_⟩
  intro s
  rw [recordedBy_concat, List.length_append, List.length_append, hlength]
  rfl

theorem Counted.step {long : Nat} {pre : List Use} {st : Recorders} (h : Counted pre st)
    (use : Use)
    : use.Fits pre ∧ (∃ next, use.run long st = some next ∧ Counted (pre ++ [use]) next)
        ∨ ¬use.Fits pre ∧ use.run long st = none := by
  by_cases hcall : ∃ call, use = .record call
  . obtain ⟨call, rfl⟩ := hcall
    exact .inl ⟨trivial, h.record call⟩
  . obtain ⟨history, htracked, hlength⟩ := h
    have hrecorded (s : Series) : use.recorded s = [] := by
      cases use with
      | record call => exact absurd ⟨call, rfl⟩ hcall
      | _ => rfl
    have hfits (s : Series) : (st.series s).length (use.assumed s) ≤ s.capacity
        ↔ (recordedBy pre s).length < s.capacity ∨ use.assumed s = s.capacity := by
      rw [← hlength]
      exact (htracked s).length_le_iff (use.capacity_le_assumed s)
    rw [Use.fits_iff]
    cases use.reads_of_quiet long htracked.sized fun call hcall' => hcall ⟨call, hcall'⟩ with
    | done next hrun hlen hseries =>
      refine .inl ⟨fun s hs => (hfits s).mp (hlen s hs), next, hrun, ?_⟩
      choose other hother htracks using fun s =>
        (htracked s).rearranged s.capacity_pos (hseries s)
      refine ⟨other, htracks, ?_⟩
      intro s
      rw [recordedBy_concat, hrecorded, List.append_nil, hother, hlength]
    | outside hrun s hs hlen =>
      refine .inr ⟨?_, hrun⟩
      intro hall
      have hle := (hfits s).mpr (hall s hs)
      omega

theorem Counted.run (long : Nat) {pre : List Use} {st : Recorders} (h : Counted pre st)
    (uses : List Use) (haccess : (recordedBy (pre ++ uses) .access).length < MAX_FILENUM)
    (hunlink : (recordedBy (pre ++ uses) .unlink).length < MAX_FILENUM)
    : ∃ next, runUses long st uses = some next ∧ Counted (pre ++ uses) next := by
  induction uses generalizing pre st with
  | nil =>
    rw [List.append_nil]
    exact ⟨st, rfl, h⟩
  | cons use uses ih =>
    rw [List.append_cons] at haccess hunlink ⊢
    have hfits : use.Fits pre := by
      rw [recordedBy_append, recordedBy_append, List.length_append, List.length_append]
        at haccess hunlink
      unfold Use.Fits
      split
      . omega
      . omega
      . trivial
    rcases h.step use with ⟨_, mid, hmid, hcounted⟩ | ⟨hnot, _⟩
    . obtain ⟨next, hnext, hcounted⟩ := ih hcounted haccess hunlink
      refine ⟨next, ?_, hcounted⟩
      rw [runUses, List.foldlM_cons, hmid]
      exact hnext
    . exact absurd hfits hnot

theorem runUses_cases (long : Nat) (uses : List Use)
    : (∃ st, runUses long .initial uses = some st ∧ Counted uses st
          ∧ ∀ pre use post, uses = pre ++ use :: post → use.Fits pre)
        ∨ runUses long .initial uses = none
          ∧ ∃ pre use post, uses = pre ++ use :: post ∧ ¬use.Fits pre :=
  Loop.foldlM_cases Counted Use.Fits (fun _ _ use h => h.step use) .initial uses

theorem runUses_tracked {long : Nat} {uses : List Use} {st : Recorders}
    (h : runUses long .initial uses = some st) : ∃ history, Series.Tracked st history := by
  rcases runUses_cases long uses with ⟨next, hrun, ⟨history, htracked, _⟩, _⟩ | ⟨hrun, _⟩
  . obtain rfl : next = st := Option.some.inj (hrun.symm.trans h)
    exact ⟨history, htracked⟩
  . cases hrun.symm.trans h

theorem runUses_inRange_iff (long : Nat) (uses : List Use)
    : (∃ st, runUses long .initial uses = some st)
      ↔ ∀ pre use post, uses = pre ++ use :: post → use.Fits pre := by
  rcases runUses_cases long uses with ⟨st, hrun, _, hall⟩ | ⟨hrun, pre, use, post, huses, hnot⟩
  . exact iff_of_true ⟨st, hrun⟩ hall
  . refine iff_of_false ?_ ?_
    . intro ⟨st, hst⟩
      cases hrun.symm.trans hst
    . intro hall
      exact hnot (hall pre use post huses)

theorem runUses_not_inRange
    : ∃ uses : List Use, ¬∃ st, runUses 64 .initial uses = some st := by
  -- `MAX_FILENUM` times `sys_posix_access`, then its report
  let access : Use := .record (.access (some []) { start := 0, stop := 0, result := OK })
  refine ⟨List.replicate MAX_FILENUM access ++ [.accessBench 0 .zero], ?_⟩
  intro ⟨st, hst⟩
  rcases runUses_cases 64 (List.replicate MAX_FILENUM access ++ [.accessBench 0 .zero]) with
    ⟨_, _, _, hall⟩ | ⟨hrun, _⟩
  . have hfits := hall _ _ [] rfl
    have hrecorded : (recordedBy (List.replicate MAX_FILENUM access) .access).length
        = MAX_FILENUM := by
      simp [recordedBy, Use.recorded, Call.recorded, access]
    simp only [Use.Fits, hrecorded] at hfits
    exact absurd hfits (Nat.lt_irrefl _)
  . cases hrun.symm.trans hst

end FsBench
