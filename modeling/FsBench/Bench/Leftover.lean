import FsBench.Bench.Main

/-!
What runs of main, one after the other, leave on a medium that nothing else changes: of the regular
files one csv file at most, when no call on an entry fails that could succeed.
-/

namespace FsBench

def mainRuns (c : Conduct) : System Dir (Options × Answers) where
  init _ := True
  step d run next := MainRun c run.1 run.2 d next

theorem strstr_cometName (n : Int) : strstr (cometName n) COMETTEST = true := by
  apply decide_eq_true
  rw [cometName, List.append_assoc]
  exact (List.prefix_append _ _).isInfix

theorem CometRun.left_iff {c : Conduct} {o : Options} {d next : Dir} {name : CStr}
    {content : List UInt8} (hc : c.Unlinks) (h : CometRun c o d next)
    : next name = some (.file content)
        ↔ strstr name COMETTEST = false ∧ d name = some (.file content) := by
  cases hname : strstr name COMETTEST with
  | true =>
    obtain ⟨opened, _, hremove⟩ := h
    have hgone := hremove.removed content (by decide) hc hname
    simp [hgone]
  | false =>
    have hnot : ∀ n, name ≠ cometName n := by
      rintro n rfl
      rw [strstr_cometName] at hname
      cases hname
    rw [h.file_iff hc hnot, hname]

theorem MainRun.left_iff {o : Options} {a : Answers} {d next : Dir}
    (h : MainRun .succeeds o a d next) {name : CStr} {content : List UInt8}
    : next name = some (.file content)
        ↔ (TestsJobs o a → strstr name RENAME = false ∧ o.csvEntry = some name
            ∧ a.csvText = content)
          ∧ (¬TestsJobs o a → d name = some (.file content))
          ∧ (TestsComet o a → strstr name COMETTEST = false) := by
  unfold MainRun at h
  split at h
  . next hinfo =>
    have hproceeds : ¬Proceeds o a := by simp [Proceeds, hinfo]
    simp [TestsJobs, TestsComet, hproceeds, h]
  . next uRemainSize hinfo =>
    split at h
    . next hfew =>
      have hproceeds : ¬Proceeds o a := by simp [Proceeds, hinfo, hfew]
      simp [TestsJobs, TestsComet, hproceeds, h]
    . next hfew =>
      have hproceeds : Proceeds o a := ⟨uRemainSize, hinfo, by simpa using hfew⟩
      obtain ⟨mid, hjobs, hcomet⟩ := h
      have hmid : mid name = some (.file content) ↔ (TestsJobs o a →
          strstr name RENAME = false ∧ o.csvEntry = some name ∧ a.csvText = content)
          ∧ (¬TestsJobs o a → d name = some (.file content)) := by
        split at hjobs
        . next htests =>
          have : TestsJobs o a := ⟨hproceeds, htests⟩
          rw [hjobs.file_iff]
          simp [this]
        . next htests =>
          have : ¬TestsJobs o a := fun h => htests h.2
          simp [this, hjobs]
      rw [← and_assoc, ← hmid]
      split at hcomet
      . next htests =>
        have : TestsComet o a := ⟨hproceeds, htests⟩
        rw [hcomet.left_iff Conduct.succeeds_unlinks]
        simp [this, and_comm]
      . next htests =>
        have : ¬TestsComet o a := fun h => htests h.2
        simp [this, hcomet]

/--
The last run with jobs decides: it leaves the csv file that it has written, unless the name is one
that the clean-ups look for, and nothing else.
-/
def LeftBy (name : CStr) (content : List UInt8) (runs : List (Options × Answers)) : Prop :=
  ∃ earlier run later, runs = earlier ++ run :: later
    ∧ TestsJobs run.1 run.2
    ∧ (strstr name RENAME = false ∧ run.1.csvEntry = some name ∧ run.2.csvText = content)
    ∧ (∀ r ∈ later, ¬TestsJobs r.1 r.2)
    ∧ ∀ r ∈ run :: later, TestsComet r.1 r.2 → strstr name COMETTEST = false

def Untouched (name : CStr) (runs : List (Options × Answers)) : Prop :=
  ∀ r ∈ runs, ¬TestsJobs r.1 r.2 ∧ (TestsComet r.1 r.2 → strstr name COMETTEST = false)

section Left

variable {name : CStr} {content : List UInt8} {runs : List (Options × Answers)}
  {run : Options × Answers}

theorem LeftBy.snoc_iff : LeftBy name content (runs ++ [run])
    ↔ (TestsComet run.1 run.2 → strstr name COMETTEST = false)
      ∧ ((TestsJobs run.1 run.2
          ∧ strstr name RENAME = false ∧ run.1.csvEntry = some name ∧ run.2.csvText = content)
        ∨ ¬TestsJobs run.1 run.2 ∧ LeftBy name content runs) := by
  constructor
  . rintro ⟨earlier, r, later, hsplit, htests, hcsv, hlater, hcomet⟩
    cases List.eq_nil_or_concat later with
    | inl hnil =>
      subst hnil
      obtain ⟨_, hlast⟩ := List.append_inj' hsplit rfl
      cases hlast
      exact ⟨hcomet run List.mem_cons_self, .inl ⟨htests, hcsv⟩⟩
    | inr hconcat =>
      obtain ⟨later, last, rfl⟩ := hconcat
      rw [List.concat_eq_append] at hsplit hlater hcomet
      rw [← List.cons_append, ← List.append_assoc] at hsplit
      obtain ⟨hfront, hlast⟩ := List.append_inj' hsplit rfl
      cases hlast
      refine ⟨hcomet run (by simp), .inr ⟨hlater run (by simp), ?_⟩⟩
      refine ⟨earlier, r, later, hfront, htests, hcsv, ?_, ?_⟩
      . intro s hs
        exact hlater s (List.mem_append_left _ hs)
      . intro s hs
        exact hcomet s (List.mem_append_left [run] hs)
  . rintro ⟨hspares, ⟨htests, hcsv⟩ | ⟨hnot, earlier, r, later, rfl, htests, hcsv, hlater, hcomet⟩⟩
    . refine ⟨runs, run, [], rfl, htests, hcsv, nofun, ?_⟩
      intro s hs
      rw [List.mem_singleton.mp hs]
      exact hspares
    . refine ⟨earlier, r, later ++ [run], ?_, htests, hcsv, ?_, ?_⟩
      . rw [List.append_assoc, List.cons_append]
      . intro s hs
        rcases List.mem_append.mp hs with hs | hs
        . exact hlater s hs
        . rw [List.mem_singleton.mp hs]
          exact hnot
      . intro s hs
        rw [← List.cons_append] at hs
        rcases List.mem_append.mp hs with hs | hs
        . exact hcomet s hs
        . rw [List.mem_singleton.mp hs]
          exact hspares

theorem Untouched.snoc_iff : Untouched name (runs ++ [run])
    ↔ Untouched name runs ∧ ¬TestsJobs run.1 run.2
      ∧ (TestsComet run.1 run.2 → strstr name COMETTEST = false) := by
  unfold Untouched
  rw [List.forall_mem_append]
  simp

end Left

theorem mainRuns_left_iff {d next : Dir} {runs : List (Options × Answers)}
    (h : (mainRuns .succeeds).Run d runs next) {name : CStr} {content : List UInt8}
    : next name = some (.file content)
        ↔ LeftBy name content runs ∨ Untouched name runs ∧ d name = some (.file content) := by
  induction h with
  | nil => simp [LeftBy, Untouched]
  | @snoc t u runs run _ hstep ih =>
    rw [MainRun.left_iff hstep, ih, LeftBy.snoc_iff, Untouched.snoc_iff]
    by_cases htests : TestsJobs run.1 run.2
    . simp only [htests, true_implies, not_true_eq_false, false_implies, true_and, false_and,
        and_false, or_false]
      exact and_comm
    . simp only [htests, false_implies, not_false_eq_true, true_implies, true_and, false_and,
        false_or]
      tauto

theorem mainRuns_left_iff_photo
    : Photo.after Photo.photo = some (.file [1])
        ↔ LeftBy Photo.photo [1] [(Photo.options, Photo.answers)]
          ∨ Untouched Photo.photo [(Photo.options, Photo.answers)]
            ∧ Photo.before Photo.photo = some (.file [1]) :=
  mainRuns_left_iff (.single (a := (Photo.options, Photo.answers)) Photo.run)

end FsBench
