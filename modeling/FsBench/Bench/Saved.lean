import FsBench.Bench.Measured
import FsBench.Recorder.Rows

/-!
The csv file that main writes once the jobs have ended and their files have been renamed: what can be
read from it of the calls of the jobs.
-/

namespace FsBench

section Saved

variable {jobsNum n size count : Nat} {answers : Fin jobsNum → JobAnswers n size}
  {actions : List (Fin jobsNum × JobAction n)}

theorem Series.Tracked.row_perm {st : Recorders} {history : Series → List Int}
    (h : Series.Tracked st history) (s : Series)
    : ((st.rowOf s).samples).Perm ((history s).rtake s.capacity) := by
  change ((st.series s).time.take ((st.series s).length s.capacity)).Perm _
  rw [(h s).length_eq]
  exact (h s).window_perm

theorem Series.Tracked.reads {st : Recorders} {history : Series → List Int}
    (h : Series.Tracked st history) (file : CStr)
    : ∃ text rows, csvText st file = some text ∧ readCsv text = some rows
        ∧ ∀ s : Series, ∃ samples, rows.lookup s.label = some samples
          ∧ samples.Perm ((history s).rtake s.capacity) := by
  have hlen (s : Series) : (st.series s).length s.capacity ≤ s.capacity := by
    rw [(h s).length_eq, List.rtake, List.length_drop]
    omega
  obtain ⟨text, htext, _, hrows⟩ := gencsv_reads h.sized hlen file
  exact ⟨text, _, htext, hrows, fun s => ⟨_, lookup_row s, h.row_perm s⟩⟩

theorem beforeCsv_reads (hsize : Word.mul 32 size 1 ≠ 0) (hactions : Complete count actions)
    (m : Mounting) (visits : List Visit) (file : CStr)
    : ∃ st text rows, runCalls .initial (beforeCsv m answers actions visits) = some st
        ∧ csvText st file = some text ∧ readCsv text = some rows
        ∧ ∀ s : Series, ∃ samples, rows.lookup s.label = some samples
          ∧ samples.Perm ((durations (beforeCsv m answers actions visits) s).rtake s.capacity)
          ∧ (s ≠ .fstat → s ≠ .rename → samples.length
            = min ((if s = .access then 2 else 0) + measured answers count s) s.capacity) := by
  obtain ⟨st, hst, htracked⟩ := runCalls_tracked (beforeCsv m answers actions visits)
  obtain ⟨text, rows, htext, hrows, hlookup⟩ := htracked.reads file
  refine ⟨st, text, rows, hst, htext, hrows, ?_⟩
  intro s
  obtain ⟨samples, hsamples, hperm⟩ := hlookup s
  refine ⟨samples, hsamples, hperm, ?_⟩
  intro hfstat hrename
  rw [hperm.length_eq, List.rtake, List.length_drop,
    beforeCsv_length hsize hactions hfstat hrename]
  omega

end Saved

end FsBench
