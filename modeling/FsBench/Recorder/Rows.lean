import FsBench.Lib.Separated
import FsBench.Recorder.Uses

/-!
The csv file that main writes: what is read back from its text, and when its rows are in the order
of the time.
-/

namespace FsBench

inductive FileMode where
  | write
  | append

def FileMode.print (strMode : FileMode) (file : CStr) (rows : List CsvRow) : CStr :=
  match strMode with
  | .write => rows.flatMap CsvRow.text
  | .append => file ++ rows.flatMap CsvRow.text

/--
The calls of main: `sys_libc_gencsv` with `"w+"` and `sys_posix_gencsv` with `"a+"`.
-/
def csvText (st : Recorders) (file : CStr) : Option CStr := do
  let rows ← sysLibcGencsv st
  let file := FileMode.write.print file rows
  let rows ← sysPosixGencsv st
  return FileMode.append.print file rows

/--
A line cut at its first comma into a label and numbers between commas.
-/
def readRow (line : CStr) : Option (CStr × List Int) := do
  let (label, rest) ← Separated.cut ',' line
  let values ← (Separated.fields ',' rest).mapM readDecimal
  return (label, values)

def readCsv (text : CStr) : Option (List (CStr × List Int)) := do
  let lines ← Separated.lines '\n' text
  lines.mapM readRow

def csvSeries : List Series :=
  [.fopen, .fread, .fwrite, .fflush, .fileno, .fsync, .fclose, .fstat]
    ++ [.access, .unlink, .sync, .rename]

def Series.label (s : Series) : CStr :=
  s.name.toList ++ [':']

def CsvRow.line (row : CsvRow) : CStr :=
  row.name ++ [':', ','] ++ samplesText row.samples

namespace CsvRow

variable {samples : List Int}

theorem samplesText_eq : samplesText samples = [','].intercalate (samples.map decimal) := by
  induction samples with
  | nil => rfl
  | cons x samples ih =>
    cases samples with
    | nil => simp [samplesText]
    | cons y samples =>
      rw [samplesText, ih]
      . simp [List.intercalate_cons_cons]
      . simp

theorem newline_not_mem : '\n' ∉ samplesText samples := by
  induction samples with
  | nil => simp [samplesText]
  | cons x samples ih =>
    have hx : '\n' ∉ decimal x := fun h => by simpa using mem_decimal h
    cases samples with
    | nil => exact hx
    | cons y samples =>
      rw [samplesText, List.mem_append, List.mem_cons]
      . simp [hx, ih]
      . simp

theorem fields_samplesText
    : (Separated.fields ',' (samplesText samples)).mapM readDecimal = some samples := by
  have hfields : Separated.fields ',' (samplesText samples) = samples.map decimal := by
    rw [samplesText_eq]
    apply Separated.fields_intercalate
    intro l hl
    obtain ⟨x, _, rfl⟩ := List.mem_map.mp hl
    exact ⟨fun h => by simpa using mem_decimal h, decimal_ne_nil⟩
  rw [hfields, List.mapM_map]
  have hread := Loop.mapM_eq_some (f := readDecimal ∘ decimal) (g := id) (l := samples)
    fun x _ => readDecimal_decimal
  rw [List.map_id] at hread
  exact hread

end CsvRow

section Rows

variable {st : Recorders} {s : Series}

theorem Series.mem_csvSeries (s : Series) : s ∈ csvSeries := by
  cases s <;> decide

theorem Series.label_injective : Function.Injective Series.label := by
  intro s t h
  exact Series.name_injective (String.ext (List.append_cancel_right h))

theorem Series.label_plain (s : Series) : ',' ∉ s.label ∧ '\n' ∉ s.label := by
  cases s <;> decide

theorem Recorders.rowOf_line
    : (st.rowOf s).line = s.label ++ ',' :: CsvRow.samplesText (st.rowOf s).samples := by
  simp [CsvRow.line, Series.label, rowOf]

theorem readRow_line : readRow (st.rowOf s).line = some (s.label, (st.rowOf s).samples) := by
  have hcut := Separated.cut_append (CsvRow.samplesText (st.rowOf s).samples) s.label_plain.1
  simp only [readRow, Recorders.rowOf_line, hcut, CsvRow.fields_samplesText, Option.bind_eq_bind,
    Option.bind_some]
  rfl

theorem gencsv_eq (hsized : st.Sized) (hlen : ∀ s, (st.series s).length s.capacity ≤ s.capacity)
    (file : CStr)
    : csvText st file = some ((csvSeries.map fun s => (st.rowOf s).line).flatMap (· ++ ['\n'])) := by
  have hlibc := sysLibcGencsv_eq st
  have hposix := sysPosixGencsv_eq st
  rw [Loop.mapM_eq_some fun s _ => Recorders.row_eq hsized (hlen s)] at hlibc hposix
  simp only [csvText, hlibc, hposix, Option.bind_eq_bind, Option.bind_some, FileMode.print,
    csvSeries, List.map_append, List.flatMap_append, List.flatMap_map]
  rfl

theorem gencsv_reads (hsized : st.Sized)
    (hlen : ∀ s, (st.series s).length s.capacity ≤ s.capacity) (file : CStr)
    : ∃ text, csvText st file = some text
        ∧ Separated.lines '\n' text = some (csvSeries.map fun s => (st.rowOf s).line)
        ∧ readCsv text = some (csvSeries.map fun s => (s.label, (st.rowOf s).samples)) := by
  refine ⟨_, gencsv_eq hsized hlen file, ?_⟩
  have hlines : Separated.lines '\n' ((csvSeries.map fun s => (st.rowOf s).line).flatMap (· ++ ['\n']))
      = some (csvSeries.map fun s => (st.rowOf s).line) := by
    apply Separated.lines_terminated
    intro l hl
    obtain ⟨s, _, rfl⟩ := List.mem_map.mp hl
    rw [Recorders.rowOf_line]
    simp [s.label_plain.2, CsvRow.newline_not_mem]
  refine ⟨hlines, ?_⟩
  rw [readCsv, hlines, Option.bind_eq_bind, Option.bind_some, List.mapM_map]
  exact Loop.mapM_eq_some fun s _ => readRow_line

theorem lookup_map {ι κ ν : Type} [BEq κ] [LawfulBEq κ] {f : ι → κ} (hf : Function.Injective f)
    (g : ι → ν) {l : List ι} {i : ι} (hi : i ∈ l)
    : (l.map fun i => (f i, g i)).lookup (f i) = some (g i) := by
  induction l with
  | nil => cases hi
  | cons j l ih =>
    rw [List.map_cons, List.lookup_cons]
    by_cases hj : i = j
    . simp [hj]
    . have hne : f i ≠ f j := fun heq => hj (hf heq)
      rw [beq_false_of_ne hne]
      exact ih ((List.mem_cons.mp hi).resolve_left hj)

theorem lookup_row (s : Series)
    : (csvSeries.map fun s => (s.label, (st.rowOf s).samples)).lookup s.label
      = some (st.rowOf s).samples :=
  lookup_map Series.label_injective _ s.mem_csvSeries

theorem gencsv_decodes (hsized : st.Sized) (hcount : ∀ s, (st.series s).count < s.capacity)
    (file : CStr)
    : ∃ text lines rows, csvText st file = some text ∧ Separated.lines '\n' text = some lines
        ∧ lines.length = 12 ∧ lines.mapM readRow = some rows
        ∧ ∀ s : Series, rows.lookup s.label
          = some ((st.series s).time.take
            (if (st.series s).flag ≠ 0 then s.capacity else (st.series s).count)) := by
  have hlen : ∀ s, (st.series s).length s.capacity ≤ s.capacity := by
    intro s
    have hlt := hcount s
    unfold Recorder.length
    split <;> omega
  obtain ⟨text, htext, hlines, hrows⟩ := gencsv_reads hsized hlen file
  rw [readCsv, hlines, Option.bind_eq_bind, Option.bind_some] at hrows
  exact ⟨text, _, _, htext, hlines, rfl, hrows, lookup_row⟩

def Recorders.oneSync : Recorders :=
  { Recorders.initial with
    sync := { time := -3 :: List.replicate (MAX_SYNC - 1) 0, count := 1, flag := 0 } }

theorem gencsv_decodes_oneSync
    : ∃ text lines rows, csvText .oneSync [] = some text ∧ Separated.lines '\n' text = some lines
        ∧ lines.length = 12 ∧ lines.mapM readRow = some rows
        ∧ ∀ s : Series, rows.lookup s.label
          = some ((Recorders.oneSync.series s).time.take (if (Recorders.oneSync.series s).flag ≠ 0
            then s.capacity else (Recorders.oneSync.series s).count)) := by
  have hsized : Recorders.oneSync.Sized := by
    intro s
    by_cases hs : s = .sync
    . subst hs
      have htime : (Recorders.oneSync.series .sync).time = -3 :: List.replicate (MAX_SYNC - 1) 0 := rfl
      have hcap : MAX_SYNC - 1 + 1 = Series.sync.capacity := by decide
      refine ⟨?_, Nat.zero_le 1⟩
      rw [htime, List.length_cons, List.length_replicate, hcap]
    . have hsame : Recorders.oneSync.series s = Recorders.initial.series s := by
        cases s with
        | sync => exact absurd rfl hs
        | _ => simp only [Recorders.series, Recorders.oneSync]
      rw [hsame]
      exact Recorders.initial_tracked.sized s
  have hcount : ∀ s, (Recorders.oneSync.series s).count < s.capacity := by
    intro s
    cases s <;> decide
  exact gencsv_decodes hsized hcount []

end Rows

section Order

variable {st : Recorders} {s : Series} {history : Series → List Int}

/--
The order of the slots is the order of the time before the ring wraps, at each whole turn, and
otherwise when the durations do not tell the difference.
-/
def Series.InOrder (s : Series) (ds : List Int) : Prop :=
  ds.length ≤ s.capacity
    ∨ (ds.rtake s.capacity).rotate (ds.length % s.capacity) = ds.rtake s.capacity

theorem Series.Tracked.samples_iff (h : Series.Tracked st history) (s : Series)
    : (st.rowOf s).samples = (history s).rtake s.capacity ↔ s.InOrder (history s) := by
  have hholds := (h s).holds
  change (st.series s).time.take ((st.series s).length s.capacity) = _ ↔ _
  rw [(h s).length_eq, List.rtake, List.length_drop]
  cases Nat.le_total (history s).length s.capacity with
  | inl hle =>
    refine iff_of_true ?_ (.inl hle)
    rw [Nat.sub_eq_zero_of_le hle, Nat.sub_zero, hholds.take_eq hle, List.drop_zero]
  | inr hge =>
    have hall : (st.series s).time.take ((history s).length - ((history s).length - s.capacity))
        = (st.series s).time := by
      rw [Nat.sub_sub_self hge, ← hholds.length_eq, List.take_length]
    rw [hall]
    refine (hholds.slots_eq_iff hge).trans ⟨.inr, ?_⟩
    rintro (hle | heq)
    . rw [Nat.le_antisymm hle hge, Nat.mod_self, List.rotate_zero]
    . exact heq

theorem Series.Tracked.gencsv (h : Series.Tracked st history) (file : CStr)
    : ∃ text rows, csvText st file = some text ∧ readCsv text = some rows
        ∧ ∀ s : Series, rows.lookup s.label = some ((history s).rtake s.capacity)
          ↔ s.InOrder (history s) := by
  have hlen : ∀ s, (st.series s).length s.capacity ≤ s.capacity := by
    intro s
    rw [(h s).length_le_iff (Nat.le_refl _)]
    exact .inr rfl
  obtain ⟨text, htext, _, hrows⟩ := gencsv_reads h.sized hlen file
  refine ⟨text, _, htext, hrows, ?_⟩
  intro s
  rw [lookup_row, Option.some.injEq, h.samples_iff]

theorem gencsv_inOrder_iff (calls : List Call) (s : Series) (file : CStr)
    : ∃ st text rows, runCalls .initial calls = some st ∧ csvText st file = some text
        ∧ readCsv text = some rows
        ∧ (rows.lookup s.label = some ((durations calls s).rtake s.capacity)
          ↔ (durations calls s).length ≤ s.capacity
            ∨ ((durations calls s).rtake s.capacity).rotate ((durations calls s).length % s.capacity)
              = (durations calls s).rtake s.capacity) := by
  obtain ⟨st, hrun, htracked⟩ := runCalls_tracked calls
  obtain ⟨text, rows, htext, hrows, hiff⟩ := htracked.gencsv file
  exact ⟨st, text, rows, hrun, htext, hrows, hiff s⟩

def syncCall (ms : Nat) : Call :=
  .sync { start := 0, stop := ms, result := () }

/-- `MAX_SYNC` calls of `sync` that take no time, then one of 1 ms. -/
def syncCalls : List Call :=
  List.replicate MAX_SYNC (syncCall 0) ++ [syncCall 1]

theorem durations_syncCalls : durations syncCalls .sync = List.replicate MAX_SYNC 0 ++ [1] := by
  have hzero : (syncCall 0).recorded .sync = [0] := by decide
  have hone : (syncCall 1).recorded .sync = [1] := by decide
  rw [durations, syncCalls, List.flatMap_append, List.flatMap_def, List.map_replicate, hzero,
    List.flatten_replicate_singleton, List.flatMap_singleton, hone]

theorem gencsv_not_inOrder
    : ∃ st text rows, runCalls .initial syncCalls = some st ∧ csvText st [] = some text
        ∧ readCsv text = some rows
        ∧ rows.lookup Series.sync.label ≠ some ((durations syncCalls .sync).rtake MAX_SYNC) := by
  -- the duration that was recorded last comes first in the row
  obtain ⟨st, hrun, htracked⟩ := runCalls_tracked syncCalls
  obtain ⟨text, rows, htext, hrows, hiff⟩ := htracked.gencsv []
  refine ⟨st, text, rows, hrun, htext, hrows, ?_⟩
  intro hlookup
  have hcap : Series.sync.capacity = MAX_SYNC := rfl
  have horder := (hiff .sync).mp hlookup
  unfold Series.InOrder at horder
  rw [durations_syncCalls, hcap, List.length_append, List.length_replicate,
    List.length_singleton] at horder
  rcases horder with hle | hturned
  . omega
  . have hone : (MAX_SYNC + 1) % MAX_SYNC = 1 := by decide
    have hwindow : (List.replicate MAX_SYNC (0 : Int) ++ [1]).rtake MAX_SYNC
        = List.replicate (MAX_SYNC - 1) 0 ++ [1] := by
      have hkept : 1 - MAX_SYNC = 0 := by decide
      simp [List.rtake, List.drop_append, hkept]
    have hsucc : MAX_SYNC - 1 = MAX_SYNC - 2 + 1 := by decide
    rw [hone, hwindow, hsucc, List.replicate_succ, List.cons_append, List.rotate_cons_succ,
      List.rotate_zero] at hturned
    rw [← List.cons_append] at hturned
    have hlast := (List.append_inj' hturned rfl).2
    simp at hlast

end Order

end FsBench
