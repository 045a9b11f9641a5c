import FsBench.Lib.System
import FsBench.Recorder.Basic
import Mathlib.Logic.Function.Basic

/-!
The end of the job phase: main polls the flags that the job threads raise as their last step. The
threads are detached, so the flags are all that main waits for. What the recorders hold is left open.
-/

namespace FsBench

namespace Polling

variable {jobsNum : Nat} {σ : Type}

inductive Main where
  | polling (count : Nat)
  | left

structure State (jobsNum : Nat) (σ : Type) where
  flag : Nat → Nat
  running : Fin jobsNum → Bool
  main : Main
  recorders : σ

/--
`record` is a recording step of a job, `finish` its last step, `poll` one round of main's loop and
`report` a step of what main does behind it: renaming, the csv file and the reports.
-/
inductive Step (jobsNum : Nat) (σ : Type) where
  | record (i : Fin jobsNum) (next : σ)
  | finish (i : Fin jobsNum)
  | poll
  | report (next : σ)

def State.record (s : State jobsNum σ) (next : σ) : State jobsNum σ :=
  { s with recorders := next }

def State.finish (s : State jobsNum σ) (i : Fin jobsNum) : State jobsNum σ :=
  { s with
    flag := Function.update s.flag i 1
    running := Function.update s.running i false }

def State.poll (s : State jobsNum σ) (count : Nat) : State jobsNum σ :=
  if s.flag count = 0 then
    { s with main := .polling 0 }
  else if count = jobsNum - 1 then
    { s with main := .left }
  else
    { s with main := .polling (count + 1) }

def system (jobsNum : Nat) (σ : Type) : System (State jobsNum σ) (Step jobsNum σ) where
  init s := s.flag = (fun _ => 0) ∧ s.running = (fun _ => true) ∧ s.main = .polling 0
  step
    | s, .record i next, t => s.running i = true ∧ t = s.record next
    | s, .finish i, t => s.running i = true ∧ t = s.finish i
    | s, .poll, t => ∃ count, s.main = .polling count ∧ t = s.poll count
    | s, .report next, t => s.main = .left ∧ t = s.record next

def Main.Swept (flag : Nat → Nat) (jobsNum : Nat) : Main → Prop
  | .polling count => count < jobsNum ∧ ∀ i, i < count → flag i = 1
  | .left => ∀ i, i < jobsNum → flag i = 1

structure State.Consistent (s : State jobsNum σ) : Prop where
  flag_eq : ∀ i : Fin jobsNum, s.flag i = if s.running i then 0 else 1
  swept : s.main.Swept s.flag jobsNum

theorem Main.Swept.mono {flag flag' : Nat → Nat} {main : Main} (h : main.Swept flag jobsNum)
    (hle : ∀ i, flag i = 1 → flag' i = 1) : main.Swept flag' jobsNum := by
  cases main with
  | polling count => exact ⟨h.1, fun i hi => hle i (h.2 i hi)⟩
  | left => exact fun i hi => hle i (h i hi)

namespace State.Consistent

variable {s : State jobsNum σ} {count : Nat}

theorem record (h : s.Consistent) (next : σ) : (s.record next).Consistent :=
  ⟨h.flag_eq, h.swept⟩

theorem finish (h : s.Consistent) (i : Fin jobsNum) : (s.finish i).Consistent where
  flag_eq j := by
    simp only [State.finish, Function.update_apply]
    by_cases hj : j = i
    . simp [hj]
    . have hne : j.val ≠ i.val := fun heq => hj (Fin.eq_of_val_eq heq)
      simp only [hj, hne, if_false]
      exact h.flag_eq j
  swept := by
    apply h.swept.mono
    intro j hj
    simp only [State.finish, Function.update_apply]
    split
    . rfl
    . exact hj

theorem poll (h : s.Consistent) (hjobs : 1 ≤ jobsNum) (hmain : s.main = .polling count)
    : (s.poll count).Consistent := by
  have hswept := h.swept
  rw [hmain] at hswept
  obtain ⟨hlt, hswept⟩ := hswept
  have hflag := h.flag_eq ⟨count, hlt⟩
  unfold State.poll
  split
  . exact ⟨h.flag_eq, hjobs, fun i hi => absurd hi (Nat.not_lt_zero i)⟩
  . next hup =>
    have hup : s.flag count = 1 := by
      dsimp only at hflag
      split at hflag
      . exact absurd hflag hup
      . exact hflag
    have hnext : ∀ i, i < count + 1 → s.flag i = 1 := by
      intro i hi
      cases Nat.lt_or_eq_of_le (Nat.le_of_lt_succ hi) with
      | inl hlt => exact hswept i hlt
      | inr heq =>
        rw [heq]
        exact hup
    split
    . next hlast => exact ⟨h.flag_eq, fun i hi => hnext i (by omega)⟩
    . next hlast => exact ⟨h.flag_eq, by omega, hnext⟩

theorem step {t : State jobsNum σ} {a : Step jobsNum σ} (h : s.Consistent) (hjobs : 1 ≤ jobsNum)
    (hstep : (system jobsNum σ).step s a t) : t.Consistent := by
  cases a with
  | record i next =>
    obtain ⟨-, rfl⟩ := hstep
    exact h.record next
  | finish i =>
    obtain ⟨-, rfl⟩ := hstep
    exact h.finish i
  | poll =>
    obtain ⟨count, hmain, rfl⟩ := hstep
    exact h.poll hjobs hmain
  | report next =>
    obtain ⟨-, rfl⟩ := hstep
    exact h.record next

theorem initial (hjobs : 1 ≤ jobsNum) (hs : (system jobsNum σ).init s) : s.Consistent := by
  obtain ⟨hflag, hrunning, hmain⟩ := hs
  refine ⟨?_, ?_⟩
  . intro i
    rw [hflag, hrunning, if_pos rfl]
  . rw [hmain]
    exact ⟨hjobs, fun i hi => absurd hi (Nat.not_lt_zero i)⟩

theorem stopped (h : s.Consistent) (hmain : s.main = .left) (i : Fin jobsNum)
    : s.running i = false := by
  have hswept := h.swept
  rw [hmain] at hswept
  have hflag := h.flag_eq i
  rw [hswept i i.isLt] at hflag
  split at hflag
  . cases hflag
  . next hstopped => exact Bool.eq_false_iff.mpr hstopped

end State.Consistent

theorem left_of_step {s t : State jobsNum σ} {a : Step jobsNum σ} (h : s.main = .left)
    (hstep : (system jobsNum σ).step s a t) : t.main = .left := by
  cases a with
  | record i next =>
    obtain ⟨-, rfl⟩ := hstep
    exact h
  | finish i =>
    obtain ⟨-, rfl⟩ := hstep
    exact h
  | poll =>
    obtain ⟨count, hmain, -⟩ := hstep
    rw [h] at hmain
    cases hmain
  | report next =>
    obtain ⟨-, rfl⟩ := hstep
    exact h

theorem record_not_mem {s t : State jobsNum σ} {as : List (Step jobsNum σ)} (hjobs : 1 ≤ jobsNum)
    (hs : s.Consistent) (hmain : s.main = .left) (hrun : (system jobsNum σ).Run s as t)
    (i : Fin jobsNum) (next : σ) : .record i next ∉ as := by
  have hlabels : ∀ a ∈ as, a ≠ .record i next := by
    refine hrun.labels (fun s => s.Consistent ∧ s.main = .left) _ ?_ ⟨hs, hmain⟩
    intro s a t ⟨hs, hmain⟩ hstep
    refine ⟨⟨hs.step hjobs hstep, left_of_step hmain hstep⟩, ?_⟩
    intro heq
    subst heq
    have hstopped := hs.stopped hmain i
    rw [hstep.1] at hstopped
    cases hstopped
  exact fun hmem => hlabels _ hmem rfl

end Polling

open Polling

theorem reports_after_jobs {σ : Type} {jobsNum : Nat} (hjobs : 1 ≤ jobsNum ∧ jobsNum ≤ 64)
    : (∀ s, (Polling.system jobsNum σ).Reachable s → s.main = .left →
        ∀ i : Fin jobsNum, s.flag i = 1)
      ∧ ∀ s t as bs report, (Polling.system jobsNum σ).init s →
        (Polling.system jobsNum σ).Run s (as ++ .report report :: bs) t →
        ∀ (i : Fin jobsNum) next, .record i next ∉ bs := by
  have hconsistent : ∀ s, (Polling.system jobsNum σ).Reachable s → s.Consistent :=
    fun s hs => hs.invariant (fun s => .initial hjobs.1) (fun s a t h => h.step hjobs.1)
  constructor
  . intro s hs hmain i
    have hswept := (hconsistent s hs).swept
    rw [hmain] at hswept
    exact hswept i i.isLt
  . intro s t as bs report hinit hrun i next hmem
    obtain ⟨mid, has, hbs⟩ := hrun.split as
    have hmid := hconsistent mid ⟨s, as, hinit, has⟩
    -- the run behind `mid` begins with the report, which main takes only when it has left
    obtain ⟨after, hreport, _⟩ := System.Run.split [Step.report report] hbs
    have hmain : mid.main = .left := hreport.step_of_single.1
    exact record_not_mem hjobs.1 hmid hmain hbs i next (List.mem_cons_of_mem _ hmem)

theorem reports_after_jobs_two
    : ((∀ s, (Polling.system 2 (Recorder Int)).Reachable s → s.main = .left →
          ∀ i : Fin 2, s.flag i = 1)
        ∧ ∀ s t as bs report, (Polling.system 2 (Recorder Int)).init s →
          (Polling.system 2 (Recorder Int)).Run s (as ++ .report report :: bs) t →
          ∀ (i : Fin 2) next, .record i next ∉ bs)
      ∧ ∃ s, (Polling.system 2 (Recorder Int)).Reachable s ∧ s.main = .left := by
  refine ⟨reports_after_jobs (by decide), ?_⟩
  let s : State 2 (Recorder Int) :=
    { flag := fun _ => 0, running := fun _ => true, main := .polling 0, recorders := .initial 2 }
  have hs : (Polling.system 2 (Recorder Int)).Reachable s := .of_init ⟨rfl, rfl, rfl⟩
  let t := (s.finish 0).finish 1
  have hfirst : (Polling.system 2 (Recorder Int)).step s (.finish 0) (s.finish 0) := ⟨rfl, rfl⟩
  have hsecond : (Polling.system 2 (Recorder Int)).step (s.finish 0) (.finish 1) t := ⟨rfl, rfl⟩
  have hpoll : (Polling.system 2 (Recorder Int)).step t .poll (t.poll 0) := ⟨0, rfl, rfl⟩
  have hleave : (Polling.system 2 (Recorder Int)).step (t.poll 0) .poll ((t.poll 0).poll 1) :=
    ⟨1, rfl, rfl⟩
  exact ⟨_, (((hs.step hfirst).step hsecond).step hpoll).step hleave, rfl⟩

end FsBench
