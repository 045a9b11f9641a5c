import FsBench.Recorder.Torn

/-!
Recording calls of which none begins inside another one. Down to the loads and stores they leave what
the same calls leave one after the other, so that nothing of the order shows in a report.
-/

namespace FsBench

namespace Recorder.Tracks

variable {cap assumed : Nat} {r r' : Recorder Int} {history history' : List Int}

theorem length_assumed (h : r.Tracks cap history)
    (hroom : history.length < cap ∨ history.length = cap ∧ assumed = cap)
    : r.length assumed = history.length := by
  rw [Recorder.length, h.flag_eq, h.count_eq]
  rcases hroom with hlt | ⟨hfull, rfl⟩
  . rw [if_neg (Nat.not_le.mpr hlt), if_neg (not_not.mpr rfl), Nat.mod_eq_of_lt hlt]
  . rw [if_pos hfull.ge, if_pos Nat.one_ne_zero, hfull]

theorem bench_perm (h : r.Tracks cap history) (h' : r'.Tracks cap history')
    (hperm : history.Perm history')
    (hroom : history.length < cap ∨ history.length = cap ∧ assumed = cap) (long : Nat) (sum : Int)
    (info : Report)
    : (bench long assumed sum r info).map (·.2) = (bench long assumed sum r' info).map (·.2)
        ∧ (benchSumFirst long assumed sum r info).map (·.2)
          = (benchSumFirst long assumed sum r' info).map (·.2) := by
  have hlength := h.length_assumed hroom
  rw [hperm.length_eq] at hroom
  have hlength' := h'.length_assumed hroom
  have hsize := h.holds.length_eq
  have hsize' := h'.holds.length_eq
  have hsame := hperm.length_eq
  have hall (l : List Int) (hl : l.length ≤ cap) : l.rtake cap = l := by
    rw [List.rtake, Nat.sub_eq_zero_of_le hl, List.drop_zero]
  cases Nat.lt_or_ge history.length 2 with
  | inl hshort =>
    rw [bench_short long sum info (by omega), bench_short long sum info (by omega),
      benchSumFirst_short long sum info (by omega) (by omega),
      benchSumFirst_short long sum info (by omega) (by omega)]
    exact ⟨rfl, rfl⟩
  | inr htwo =>
    obtain ⟨_, rep, hbench, hsumFirst, hrep, _⟩ := bench_spec long sum info
      (by omega : r.length assumed ≤ r.time.length) (by omega)
    obtain ⟨_, rep', hbench', hsumFirst', hrep', _⟩ := bench_spec long sum info
      (by omega : r'.length assumed ≤ r'.time.length) (by omega)
    have hwindow := h.window_perm
    have hwindow' := h'.window_perm
    rw [hall history (by omega), ← hlength] at hwindow
    rw [hall history' (by omega), ← hlength'] at hwindow'
    have hunique : rep = rep' :=
      hrep.unique (hrep'.of_perm (hwindow'.trans (hperm.symm.trans hwindow.symm)))
    rw [hbench, hbench', hsumFirst, hsumFirst', hunique]
    exact ⟨rfl, rfl⟩

end Recorder.Tracks

namespace TornStep

variable {threads cap : Nat}

def Alone (s : State threads) : Step threads → Prop
  | .load _ _ => ∀ j, s.phase j = .idle
  | _ => True

/--
What the calls have measured, in the order in which they have loaded the index.
-/
def State.durations (s : State threads) : List Int :=
  (s.calls.map Prod.snd).reverse

def Phase.Amid (cap : Nat) (r : Recorder Int) (duration : Int) (now : Recorder Int) : Phase → Prop
  | .idle => False
  | .storing index d counted stored => index = r.count ∧ d = duration
    ∧ now = { time := if stored then r.time.set r.count duration else r.time
              count := if counted then r.count + 1 else r.count
              flag := r.flag }
  | .wrapping raised reset => r.count + 1 = cap
    ∧ now = { time := r.time.set r.count duration
              count := if reset then 0 else cap
              flag := if raised then 1 else r.flag }

inductive State.Serial (cap : Nat) (s : State threads) : Prop where
  | idle (hidle : ∀ i, s.phase i = .idle) (htracks : s.recorder.Tracks cap s.durations)
  | amid (i : Fin threads) (r : Recorder Int) (history : List Int) (duration : Int)
      (hothers : ∀ j, j ≠ i → s.phase j = .idle) (hdurations : s.durations = history ++ [duration])
      (htracks : r.Tracks cap history) (hphase : (s.phase i).Amid cap r duration s.recorder)

namespace State.Serial

variable {s t : State threads} {i : Fin threads} {r : Recorder Int} {duration : Int}
  {history : List Int} {phase : Phase} {now : Recorder Int}

theorem going (h : s.Serial cap) (hi : s.phase i ≠ .idle)
    : ∃ r history duration, (∀ j, j ≠ i → s.phase j = .idle)
        ∧ s.durations = history ++ [duration] ∧ r.Tracks cap history
        ∧ (s.phase i).Amid cap r duration s.recorder := by
  cases h with
  | idle hidle => exact absurd (hidle i) hi
  | amid k r history duration hothers hdurations htracks hphase =>
    obtain rfl : k = i := by
      by_contra hne
      exact hi (hothers i (Ne.symm hne))
    exact ⟨r, history, duration, hothers, hdurations, htracks, hphase⟩

theorem go_on (hothers : ∀ j, j ≠ i → s.phase j = .idle)
    (hdurations : s.durations = history ++ [duration]) (htracks : r.Tracks cap history)
    (hphase : phase.Amid cap r duration now)
    : Serial cap { s.enter i phase with recorder := now } := by
  refine .amid i r history duration ?_ hdurations htracks ?_
  . intro j hj
    exact (Function.update_of_ne hj ..).trans (hothers j hj)
  . dsimp only [enter]
    rw [Function.update_self]
    exact hphase

theorem come_out (hothers : ∀ j, j ≠ i → s.phase j = .idle)
    (hdurations : s.durations = history ++ [duration]) (htracks : r.Tracks cap history)
    (hcap : 0 < cap) (hrecorder : s.recorder = (r.put duration).wrap cap)
    : Serial cap (s.enter i .idle) := by
  refine .idle ?_ ?_
  . intro j
    by_cases hj : j = i
    . rw [hj]
      exact Function.update_self ..
    . exact (Function.update_of_ne hj ..).trans (hothers j hj)
  . have hdurations' : (s.enter i .idle).durations = history ++ [duration] := hdurations
    have hrecorder' : (s.enter i .idle).recorder = (r.put duration).wrap cap := hrecorder
    rw [hdurations', hrecorder']
    exact htracks.put_wrap hcap duration

theorem step {a : Step threads} (h : s.Serial cap) (hcap : 0 < cap) (halone : Alone s a)
    (hstep : (system cap threads).step s a t) : t.Serial cap := by
  cases a with
  | load i duration =>
    obtain ⟨hi, rfl⟩ := hstep
    cases h with
    | idle _ htracks =>
      refine .amid i s.recorder s.durations duration ?_ ?_ htracks ?_
      . intro j hj
        exact (Function.update_of_ne hj ..).trans (halone j)
      . simp [State.durations, State.load]
      . simp [State.load, State.enter, Phase.Amid]
    | amid k _ _ _ _ _ _ hphase =>
      rw [halone k] at hphase
      exact hphase.elim
  | count i =>
    obtain ⟨index, d, stored, hi, rfl⟩ := hstep
    obtain ⟨r, history, duration, hothers, hdurations, htracks, hphase⟩ :=
      h.going (by rw [hi]; exact nofun)
    rw [hi] at hphase
    obtain ⟨rfl, rfl, hnow⟩ := hphase
    exact go_on hothers hdurations htracks ⟨rfl, rfl, by simp [hnow]⟩
  | store i =>
    obtain ⟨index, d, counted, hi, rfl⟩ := hstep
    obtain ⟨r, history, duration, hothers, hdurations, htracks, hphase⟩ :=
      h.going (by rw [hi]; exact nofun)
    rw [hi] at hphase
    obtain ⟨rfl, rfl, hnow⟩ := hphase
    exact go_on hothers hdurations htracks ⟨rfl, rfl, by simp [hnow]⟩
  | compare i =>
    obtain ⟨index, d, hi, rfl⟩ := hstep
    obtain ⟨r, history, duration, hothers, hdurations, htracks, hphase⟩ :=
      h.going (by rw [hi]; exact nofun)
    rw [hi] at hphase
    obtain ⟨rfl, rfl, hnow⟩ := hphase
    unfold State.compare
    split
    . next hfull =>
      rw [hnow] at hfull
      have hwrapping : Phase.Amid cap r d s.recorder (.wrapping false false) :=
        ⟨hfull, by simpa [hnow] using hfull⟩
      exact go_on hothers hdurations htracks hwrapping
    . next hroom =>
      rw [hnow] at hroom
      refine come_out hothers hdurations htracks hcap ?_
      rw [hnow, Recorder.wrap_of_ne]
      . rfl
      . exact hroom
  | raise i =>
    obtain ⟨reset, hi, rfl⟩ := hstep
    obtain ⟨r, history, duration, hothers, hdurations, htracks, hphase⟩ :=
      h.going (by rw [hi]; exact nofun)
    rw [hi] at hphase
    obtain ⟨hfull, hnow⟩ := hphase
    exact go_on hothers hdurations htracks ⟨hfull, by simp [hnow]⟩
  | reset i =>
    obtain ⟨raised, hi, rfl⟩ := hstep
    obtain ⟨r, history, duration, hothers, hdurations, htracks, hphase⟩ :=
      h.going (by rw [hi]; exact nofun)
    rw [hi] at hphase
    obtain ⟨hfull, hnow⟩ := hphase
    exact go_on hothers hdurations htracks ⟨hfull, by simp [hnow]⟩
  | leave i =>
    obtain ⟨hi, rfl⟩ := hstep
    obtain ⟨r, history, duration, hothers, hdurations, htracks, hphase⟩ :=
      h.going (by rw [hi]; exact nofun)
    rw [hi] at hphase
    obtain ⟨hfull, hnow⟩ := hphase
    refine come_out hothers hdurations htracks hcap ?_
    rw [hnow]
    simp [Recorder.wrap, Recorder.put, hfull]

theorem of_reachable (hcap : 0 < cap) (h : ((system cap threads).restrict Alone).Reachable s)
    : s.Serial cap := by
  refine h.invariant ?_ fun _ _ _ hs hstep => hs.step hcap hstep.1 hstep.2
  rintro _ rfl
  exact .idle (fun _ => rfl) (Recorder.initial_tracks hcap)

theorem tracks (h : s.Serial cap) (hidle : ∀ i, s.phase i = .idle)
    : s.recorder.Tracks cap s.durations := by
  cases h with
  | idle _ htracks => exact htracks
  | amid i _ _ _ _ _ _ hphase =>
    rw [hidle i] at hphase
    exact hphase.elim

end State.Serial

/--
Between calls the report tells nothing of the order in which the durations have been measured.
-/
def SameReports (cap : Nat) (S : System (State threads) (Step threads)) : Prop :=
  ∀ s t, S.Reachable s → S.Reachable t → (∀ i, s.phase i = .idle) → (∀ i, t.phase i = .idle) →
    s.durations.Perm t.durations → ∀ assumed,
      s.durations.length < cap ∨ s.durations.length = cap ∧ assumed = cap →
      ∀ long sum info,
        (bench long assumed sum s.recorder info).map (·.2)
            = (bench long assumed sum t.recorder info).map (·.2)
          ∧ (benchSumFirst long assumed sum s.recorder info).map (·.2)
            = (benchSumFirst long assumed sum t.recorder info).map (·.2)

theorem sameReports_alone (hcap : 0 < cap)
    : SameReports cap ((system cap threads).restrict Alone) := by
  intro s t hs ht hsidle htidle hperm assumed hroom long sum info
  have htracks := (State.Serial.of_reachable hcap hs).tracks hsidle
  have htracks' := (State.Serial.of_reachable hcap ht).tracks htidle
  exact htracks.bench_perm htracks' hperm hroom long sum info

section Overlap

variable {i j : Fin threads}

def State.start (cap threads : Nat) : State threads where
  recorder := .initial cap
  phase _ := .idle
  calls := []

theorem State.compare_of_ne {s : State threads} (h : s.recorder.count ≠ cap)
    : s.compare i cap = s.enter i .idle := by
  rw [State.compare, if_neg h]

theorem exists_call {s : State threads} (i : Fin threads) (duration : Int)
    (hs : ((system cap threads).restrict Alone).Reachable s) (hidle : ∀ j, s.phase j = .idle)
    (hroom : s.recorder.count + 1 < cap)
    : ∃ t, ((system cap threads).restrict Alone).Reachable t ∧ (∀ j, t.phase j = .idle)
        ∧ t.durations = s.durations ++ [duration] ∧ t.recorder.count = s.recorder.count + 1 := by
  let loaded := s.load i duration
  let counted := loaded.count i s.recorder.count duration false
  let stored := counted.store i s.recorder.count duration true
  have hloaded : ((system cap threads).restrict Alone).Reachable loaded :=
    hs.step (a := .load i duration) ⟨hidle, hidle i, rfl⟩
  have hcounted : ((system cap threads).restrict Alone).Reachable counted :=
    hloaded.step (a := .count i) ⟨trivial, _, _, _, Function.update_self .., rfl⟩
  have hstored : ((system cap threads).restrict Alone).Reachable stored :=
    hcounted.step (a := .store i) ⟨trivial, _, _, _, Function.update_self .., rfl⟩
  have hcompared : ((system cap threads).restrict Alone).Reachable (stored.compare i cap) :=
    hstored.step (a := .compare i) ⟨trivial, _, _, Function.update_self .., rfl⟩
  have hcount : stored.recorder.count = s.recorder.count + 1 := rfl
  rw [State.compare_of_ne (by omega)] at hcompared
  refine ⟨stored.enter i .idle, hcompared, ?_, ?_, rfl⟩
  . intro j
    by_cases hj : j = i
    . rw [hj]
      exact Function.update_self ..
    . simp [stored, counted, loaded, State.enter, State.store, State.count, State.load,
        Function.update_of_ne hj, hidle]
  . simp [stored, counted, loaded, State.durations, State.enter, State.store, State.count,
      State.load]

theorem exists_overlap (hne : i ≠ j) (hcap : 3 ≤ cap)
    : ∃ s, (system cap threads).Reachable s ∧ (∀ k, s.phase k = .idle)
        ∧ s.durations = [3, 5] ∧ s.recorder.count = 1 ∧ s.recorder.flag = 0 := by
  -- both threads load the index before either of them stores the next one
  let loaded := ((State.start cap threads).load i 3).load j 5
  let first := (loaded.count i 0 3 false).store i 0 3 true
  let both := (first.count j 0 5 false).store j 0 5 true
  have hstart : (system cap threads).Reachable (State.start cap threads) := .of_init rfl
  have hload : (system cap threads).Reachable ((State.start cap threads).load i 3) :=
    hstart.step (a := .load i 3) ⟨rfl, rfl⟩
  have hloaded : (system cap threads).Reachable loaded :=
    hload.step (a := .load j 5) ⟨Function.update_of_ne hne.symm .., rfl⟩
  have hi : loaded.phase i = .storing 0 3 false false := by
    simp [loaded, State.load, State.enter, State.start, Recorder.initial, hne]
  have hj : loaded.phase j = .storing 0 5 false false := by
    simp [loaded, State.load, State.enter, State.start, Recorder.initial]
  have hcount : (system cap threads).Reachable (loaded.count i 0 3 false) :=
    hloaded.step (a := .count i) ⟨_, _, _, hi, rfl⟩
  have hfirst : (system cap threads).Reachable first :=
    hcount.step (a := .store i) ⟨_, _, _, Function.update_self .., rfl⟩
  have hjfirst : first.phase j = .storing 0 5 false false := by
    simp [first, State.store, State.count, State.enter, hne.symm, hj]
  have hcount' : (system cap threads).Reachable (first.count j 0 5 false) :=
    hfirst.step (a := .count j) ⟨_, _, _, hjfirst, rfl⟩
  have hboth : (system cap threads).Reachable both :=
    hcount'.step (a := .store j) ⟨_, _, _, Function.update_self .., rfl⟩
  have hiboth : both.phase i = .storing 0 3 true true := by
    simp [both, first, State.store, State.count, State.enter, hne]
  have hcompared : (system cap threads).Reachable (both.compare i cap) :=
    hboth.step (a := .compare i) ⟨_, _, hiboth, rfl⟩
  have hone : both.recorder.count = 1 := rfl
  rw [State.compare_of_ne (by omega)] at hcompared
  have hjboth : (both.enter i .idle).phase j = .storing 0 5 true true := by
    simp [both, State.store, State.count, State.enter, hne.symm]
  have hlast : (system cap threads).Reachable ((both.enter i .idle).compare j cap) :=
    hcompared.step (a := .compare j) ⟨_, _, hjboth, rfl⟩
  have hsame : (both.enter i .idle).recorder.count = 1 := rfl
  rw [State.compare_of_ne (by omega)] at hlast
  refine ⟨_, hlast, ?_, rfl, rfl, rfl⟩
  intro k
  by_cases hkj : k = j
  . rw [hkj]
    exact Function.update_self ..
  . by_cases hki : k = i
    . subst hki
      exact (Function.update_of_ne hne ..).trans (Function.update_self ..)
    . simp [both, first, loaded, State.enter, State.store, State.count, State.load, State.start,
        hkj, hki]

end Overlap

theorem not_sameReports {i j : Fin threads} (hne : i ≠ j) (hcap : 3 ≤ cap)
    : ¬SameReports cap (system cap threads) := by
  -- two calls that overlap leave one duration, which is too few for a report
  intro hsame
  have hstart : ((system cap threads).restrict Alone).Reachable (State.start cap threads) :=
    .of_init rfl
  have hzero : (State.start cap threads).recorder.count = 0 := rfl
  obtain ⟨first, hfirst, hidle, hdurations, hcount⟩ :=
    exists_call i 3 hstart (fun _ => rfl) (by omega)
  obtain ⟨last, hlast, hlastIdle, hlastDurations, _⟩ :=
    exists_call j 5 hfirst hidle (by omega)
  obtain ⟨torn, htorn, htornIdle, htornDurations, htornCount, htornFlag⟩ := exists_overlap hne hcap
  rw [hdurations] at hlastDurations
  have hperm : torn.durations.Perm last.durations := by
    rw [htornDurations, hlastDurations]
    exact .refl _
  have hlength : last.durations.length = 2 := by
    rw [hlastDurations]
    rfl
  obtain ⟨hbench, _⟩ := hsame torn last htorn hlast.of_restrict htornIdle hlastIdle hperm cap
    (.inl (by rw [hperm.length_eq]; omega)) 64 0 .zero
  have htracks := (State.Serial.of_reachable (by omega) hlast).tracks hlastIdle
  have hwindow : last.recorder.length cap = last.durations.length :=
    htracks.length_assumed (.inl (by omega))
  obtain ⟨_, rep, hlastBench, _, hrep, _⟩ := bench_spec 64 0 .zero
    (by rw [htracks.holds.length_eq]; omega : last.recorder.length cap ≤ last.recorder.time.length)
    (by omega)
  have htornLength : torn.recorder.length cap = 1 := by
    rw [Recorder.length, htornFlag, if_neg (not_not.mpr rfl), htornCount]
  rw [bench_short 64 0 .zero (by omega), hlastBench, Option.map_some, Option.map_some,
    Option.some_inj] at hbench
  have htwo := hrep.count_eq
  have hrepEq : Report.zero = rep := hbench
  rw [← hrepEq, List.length_take, htracks.holds.length_eq] at htwo
  have hzero : Report.zero.count = 0 := rfl
  omega

theorem sameReports_iff (hcap : 3 ≤ cap)
    : SameReports cap (system cap threads) ↔ threads ≤ 1 := by
  constructor
  . intro hsame
    by_contra hmany
    exact not_sameReports (i := ⟨0, by omega⟩) (j := ⟨1, by omega⟩)
      (fun h => Nat.zero_ne_one (congrArg Fin.val h)) hcap hsame
  . intro hone
    have hsub : Subsingleton (Fin threads) := Fin.subsingleton_iff_le_one.mpr hone
    have halone : ∀ s a t, (system cap threads).step s a t → Alone s a := by
      intro s a t hstep
      cases a with
      | load i duration =>
        intro j
        rw [Subsingleton.elim j i]
        exact hstep.1
      | _ => trivial
    intro s t hs ht
    exact sameReports_alone (by omega) s t (hs.restrict halone) (ht.restrict halone)

end TornStep

theorem reports_scheduled {cap threads : Nat} (hcap : 3 ≤ cap)
    : TornStep.SameReports cap ((TornStep.system cap threads).restrict TornStep.Alone)
        ∧ (TornStep.SameReports cap (TornStep.system cap threads) ↔ threads ≤ 1) :=
  ⟨TornStep.sameReports_alone (by omega), TornStep.sameReports_iff hcap⟩

theorem reports_scheduled_fopen
    : TornStep.SameReports MAX_FOPEN ((TornStep.system MAX_FOPEN 64).restrict TornStep.Alone)
        ∧ (TornStep.SameReports MAX_FOPEN (TornStep.system MAX_FOPEN 64) ↔ 64 ≤ 1) :=
  reports_scheduled (by decide)

end FsBench
