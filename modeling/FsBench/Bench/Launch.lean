import FsBench.Bench.Polling
import FsBench.Thread.Create

/-!
The job phase of main from its start: the loop that creates the threads, the threads that begin and
end in any order meanwhile, the loop that joins them and the loop that polls their flags. main ignores
what `sys_pthread_create` returns. `sys_pthread_join` does not wait for a detached thread, but the
element of `taskid` that it is handed for a thread that could not be created was never set.
-/

namespace FsBench

def SIZE_1MB : Nat := 0x00100000

inductive Entry where
  | testlibcFunc

def taskname (i : Nat) : CStr :=
  snprintf 127 ("fsbenchtest".toList ++ decimal i)

namespace Launch

variable {jobsNum : Nat} {σ : Type}

/--
main is `lost` once it has joined what is no thread: nothing is said of what it does then.
-/
inductive Main where
  | creating (i : Nat)
  | joining (i : Nat)
  | polling (count : Nat)
  | left
  | lost

/--
How far a job has come. A thread that has been created holds the pointer `arg`, a running one works
on the element `param` of `threadparam`.
-/
inductive Job (jobsNum : Nat) where
  | waiting
  | failed
  | created (arg : Nat)
  | running (param : Fin jobsNum)
  | finished

structure State (jobsNum : Nat) (σ : Type) where
  process : Process Entry (Fin jobsNum)
  job : Fin jobsNum → Job jobsNum
  flag : Nat → Nat
  main : Main
  recorders : σ

/--
`create` and `join` are rounds of main's first two loops, `start` is the wrapper of a new thread and
`astray` whatever a lost main does; the others are the steps of `Polling`.
-/
inductive Step (jobsNum : Nat) (σ : Type) where
  | create
  | start (i : Fin jobsNum)
  | record (i : Fin jobsNum) (next : σ)
  | finish (i : Fin jobsNum)
  | join
  | poll
  | report (next : σ)
  | astray

section Steps

variable (pthreadStackMin : Nat) (answers : Fin jobsNum → ThreadAnswers)

def State.create (s : State jobsNum σ) (i : Fin jobsNum) : Option (State jobsNum σ) := do
  let (process, _, started) ← sysPthreadCreate pthreadStackMin (answers i) (taskname i) SIZE_1MB
    (some .testlibcFunc) [i] s.process
  let job :=
    match started with
    | some arg => .created arg
    | none => .failed
  let main := if i.val + 1 = jobsNum then .joining 0 else .creating (i + 1)
  return { s with process, main, job := Function.update s.job i job }

/-- `Testlibc_func` reads through its parameter at once. -/
def State.start (s : State jobsNum σ) (i : Fin jobsNum) (arg : Nat) : Option (State jobsNum σ) := do
  let (process, stfunc) ← sysThreadWrapper arg s.process
  let param ← stfunc.arg 0
  return { s with process, job := Function.update s.job i (.running param) }

def State.record (s : State jobsNum σ) (next : σ) : State jobsNum σ :=
  { s with recorders := next }

def State.finish (s : State jobsNum σ) (i param : Fin jobsNum) : State jobsNum σ :=
  { s with
    flag := Function.update s.flag param 1
    job := Function.update s.job i .finished }

def State.join (s : State jobsNum σ) (i : Fin jobsNum) : State jobsNum σ :=
  match s.job i with
  | .failed => { s with main := .lost }
  | _ => { s with main := if i.val + 1 = jobsNum then .polling 0 else .joining (i + 1) }

def State.poll (s : State jobsNum σ) (count : Nat) : State jobsNum σ :=
  if s.flag count = 0 then
    { s with main := .polling 0 }
  else if count = jobsNum - 1 then
    { s with main := .left }
  else
    { s with main := .polling (count + 1) }

def system : System (State jobsNum σ) (Step jobsNum σ) where
  init s := s.process = .initial ∧ s.job = (fun _ => .waiting) ∧ s.flag = (fun _ => 0)
    ∧ s.main = .creating 0
  step
    | s, .create, t => ∃ i : Fin jobsNum, s.main = .creating i
        ∧ s.create pthreadStackMin answers i = some t
    | s, .start i, t => ∃ arg, s.job i = .created arg ∧ s.start i arg = some t
    | s, .record i next, t => (∃ param, s.job i = .running param) ∧ t = s.record next
    | s, .finish i, t => ∃ param, s.job i = .running param ∧ t = s.finish i param
    | s, .join, t => ∃ i : Fin jobsNum, s.main = .joining i ∧ t = s.join i
    | s, .poll, t => ∃ count, s.main = .polling count ∧ t = s.poll count
    | s, .report next, t => s.main = .left ∧ t = s.record next
    | s, .astray, t => s.main = .lost ∧ t = s

end Steps

def warp (i : Fin jobsNum) : SysFuncWarp Entry (Fin jobsNum) where
  entry := .testlibcFunc
  strName := strncpy 31 (taskname i)
  arg k := [i][k.val]?

theorem warp_injective {i j : Fin jobsNum} (h : warp i = warp j) : i = j :=
  Option.some.inj (congrFun (congrArg SysFuncWarp.arg h) 0)

variable {pthreadStackMin : Nat} {answers : Fin jobsNum → ThreadAnswers}

structure State.Sound (pthreadStackMin : Nat) (answers : Fin jobsNum → ThreadAnswers)
    (s : State jobsNum σ) : Prop where
  settled : s.process.Settled
  creating : ∀ i, s.main = .creating i → i < jobsNum
  waiting_iff : ∀ i : Fin jobsNum, s.job i = .waiting ↔ ∃ j, s.main = .creating j ∧ j ≤ i
  failed_iff : ∀ i, s.job i ≠ .waiting →
    (s.job i = .failed ↔ ¬(answers i).Succeeds pthreadStackMin SIZE_1MB)
  heap_iff : ∀ arg w, s.process.heap arg = some w ↔ ∃ i, s.job i = .created arg ∧ w = warp i
  own : ∀ i param, s.job i = .running param → param = i

namespace State.Sound

variable {s : State jobsNum σ} {i : Fin jobsNum}

theorem unique (h : s.Sound pthreadStackMin answers) {j : Fin jobsNum} {arg : Nat}
    (hi : s.job i = .created arg) (hj : s.job j = .created arg) : i = j := by
  have hiwarp := (h.heap_iff arg _).mpr ⟨i, hi, rfl⟩
  have hjwarp := (h.heap_iff arg _).mpr ⟨j, hj, rfl⟩
  exact warp_injective (Option.some.inj (hiwarp.symm.trans hjwarp))

theorem initial (hjobs : 1 ≤ jobsNum)
    (hs : (system pthreadStackMin answers).init s)
    : s.Sound pthreadStackMin answers := by
  obtain ⟨hprocess, hjob, _, hmain⟩ := hs
  refine ⟨?_, ?_, ?_, ?_, ?_, ?_⟩
  . rw [hprocess]
    exact .initial
  . intro i hi
    rw [hmain] at hi
    cases hi
    exact hjobs
  . intro i
    rw [hjob, hmain]
    exact ⟨fun _ => ⟨0, rfl, Nat.zero_le _⟩, fun _ => rfl⟩
  . intro i hi
    rw [hjob] at hi
    exact absurd rfl hi
  . intro arg w
    rw [hprocess, hjob]
    refine ⟨?_, ?_⟩
    . rintro ⟨⟩
    . rintro ⟨i, ⟨⟩, _⟩
  . intro i param hi
    rw [hjob] at hi
    cases hi

theorem advance (h : s.Sound pthreadStackMin answers) (hmain : s.main = .creating i)
    {process : Process Entry (Fin jobsNum)} {job : Job jobsNum} (hsettled : process.Settled)
    (hwaiting : job ≠ .waiting) (hrunning : ∀ param, job ≠ .running param)
    (hfailed : job = .failed ↔ ¬(answers i).Succeeds pthreadStackMin SIZE_1MB)
    (hheap : ∀ arg w, process.heap arg = some w
      ↔ ∃ j, Function.update s.job i job j = .created arg ∧ w = warp j)
    : State.Sound pthreadStackMin answers
        { s with
          process
          main := if i.val + 1 = jobsNum then .joining 0 else .creating (i + 1)
          job := Function.update s.job i job } where
  settled := hsettled
  creating k hk := by
    dsimp only at hk
    split at hk
    . cases hk
    . cases hk
      omega
  waiting_iff j := by
    have hold := h.waiting_iff j
    rw [hmain] at hold
    dsimp only
    by_cases hji : j = i
    . subst hji
      rw [Function.update_self]
      refine ⟨fun heq => absurd heq hwaiting, ?_⟩
      rintro ⟨k, hk, hkj⟩
      split at hk
      . cases hk
      . cases hk
        omega
    . have hne : j.val ≠ i.val := fun heq => hji (Fin.ext heq)
      rw [Function.update_of_ne hji, hold]
      constructor
      . rintro ⟨k, hk, hkj⟩
        cases hk
        exact ⟨i + 1, if_neg (by omega), by omega⟩
      . rintro ⟨k, hk, hkj⟩
        split at hk
        . cases hk
        . cases hk
          exact ⟨i, rfl, by omega⟩
  failed_iff j hj := by
    dsimp only at hj ⊢
    by_cases hji : j = i
    . subst hji
      rw [Function.update_self]
      exact hfailed
    . rw [Function.update_of_ne hji] at hj ⊢
      exact h.failed_iff j hj
  heap_iff := hheap
  own j param hj := by
    dsimp only at hj
    by_cases hji : j = i
    . subst hji
      rw [Function.update_self] at hj
      exact absurd hj (hrunning param)
    . rw [Function.update_of_ne hji] at hj
      exact h.own j param hj

theorem create (h : s.Sound pthreadStackMin answers) (hmain : s.main = .creating i)
    : ∃ t, s.create pthreadStackMin answers i = some t ∧ t.Sound pthreadStackMin answers
        ∧ t.main = (if i.val + 1 = jobsNum then .joining 0 else .creating (i + 1))
        ∧ t.flag = s.flag ∧ t.recorders = s.recorders
        ∧ ∀ j, t.job j = .finished ↔ s.job j = .finished := by
  have hargs : [i].length ≤ 10 := by
    rw [List.length_singleton]
    decide
  obtain ⟨process, ret, started, hcreate, hsettled, hcases⟩ := h.settled.sysPthreadCreate
    pthreadStackMin (answers i) (taskname i) SIZE_1MB Entry.testlibcFunc hargs
  have hwaiting : s.job i = .waiting := (h.waiting_iff i).mpr ⟨i, hmain, Nat.le_refl _⟩
  have hfinished (job : Job jobsNum) (hjob : job ≠ .finished) (j : Fin jobsNum)
      : Function.update s.job i job j = .finished ↔ s.job j = .finished := by
    by_cases hji : j = i
    . subst hji
      rw [Function.update_self, hwaiting]
      exact ⟨fun heq => absurd heq hjob, nofun⟩
    . rw [Function.update_of_ne hji]
  unfold State.create
  rw [hcreate]
  rcases hcases with ⟨hsucceeds, _, rfl, hheap⟩ | ⟨hfails, _, rfl, hheap⟩
  . refine ⟨_, rfl, ?_, rfl, rfl, rfl, hfinished _ nofun⟩
    refine h.advance hmain hsettled nofun nofun ⟨nofun, fun hnot => absurd hsucceeds hnot⟩ ?_
    have hfresh : s.process.heap (s.process.allocated + 1) = none :=
      h.settled.heap_eq _ (Nat.lt_succ_self _)
    intro arg w
    rw [hheap]
    by_cases harg : arg = s.process.allocated + 1
    . subst harg
      rw [Function.update_self]
      constructor
      . intro hw
        exact ⟨i, Function.update_self _ _ _, (Option.some.inj hw).symm⟩
      . rintro ⟨j, hj, rfl⟩
        by_cases hji : j = i
        . rw [hji]
          rfl
        . -- a pointer that comes from `malloc` only now is in no other hands
          rw [Function.update_of_ne hji] at hj
          have hlive := (h.heap_iff _ _).mpr ⟨j, hj, rfl⟩
          rw [hfresh] at hlive
          cases hlive
    . rw [Function.update_of_ne harg, h.heap_iff]
      refine exists_congr fun j => and_congr_left fun _ => ?_
      by_cases hji : j = i
      . subst hji
        rw [Function.update_self, hwaiting]
        exact ⟨nofun, fun heq => absurd (Job.created.inj heq).symm harg⟩
      . rw [Function.update_of_ne hji]
  . refine ⟨_, rfl, ?_, rfl, rfl, rfl, hfinished _ nofun⟩
    refine h.advance hmain hsettled nofun nofun ⟨fun _ => hfails, fun _ => rfl⟩ ?_
    intro arg w
    rw [hheap, h.heap_iff]
    refine exists_congr fun j => and_congr_left fun _ => ?_
    by_cases hji : j = i
    . subst hji
      rw [Function.update_self, hwaiting]
      exact ⟨nofun, nofun⟩
    . rw [Function.update_of_ne hji]

theorem start (h : s.Sound pthreadStackMin answers) {arg : Nat} (hi : s.job i = .created arg)
    : ∃ t, s.start i arg = some t ∧ t.Sound pthreadStackMin answers
        ∧ t.job = Function.update s.job i (.running i) ∧ t.main = s.main ∧ t.flag = s.flag
        ∧ t.recorders = s.recorders := by
  obtain ⟨process, hwrapper, hsettled, hheap, _⟩ :=
    h.settled.sysThreadWrapper ((h.heap_iff arg _).mpr ⟨i, hi, rfl⟩)
  have hne (j : Fin jobsNum) (job : Job jobsNum) (hjob : s.job i ≠ job)
      (hrunning : Job.running i ≠ job)
      : Function.update s.job i (.running i) j = job ↔ s.job j = job := by
    by_cases hji : j = i
    . subst hji
      rw [Function.update_self]
      exact ⟨fun heq => absurd heq hrunning, fun heq => absurd heq hjob⟩
    . rw [Function.update_of_ne hji]
  unfold State.start
  rw [hwrapper]
  refine ⟨_, rfl, ⟨hsettled, h.creating, ?_, ?_, ?_, ?_⟩, rfl, rfl, rfl, rfl⟩
  . intro j
    dsimp only
    rw [hne j .waiting (by rw [hi]; nofun) nofun]
    exact h.waiting_iff j
  . intro j hj
    dsimp only at hj ⊢
    rw [hne j .failed (by rw [hi]; nofun) nofun]
    exact h.failed_iff j ((hne j .waiting (by rw [hi]; nofun) nofun).not.mp hj)
  . intro arg' w
    dsimp only
    rw [hheap]
    by_cases harg : arg' = arg
    . subst harg
      rw [Function.update_self]
      refine ⟨nofun, ?_⟩
      rintro ⟨j, hj, _⟩
      by_cases hji : j = i
      . rw [hji, Function.update_self] at hj
        cases hj
      . rw [Function.update_of_ne hji] at hj
        exact absurd (h.unique hj hi) hji
    . rw [Function.update_of_ne harg, h.heap_iff]
      refine exists_congr fun j => and_congr_left fun _ => ?_
      rw [hne j (.created arg') (by
        rw [hi]
        exact fun heq => harg (Job.created.inj heq).symm) nofun]
  . intro j param hj
    dsimp only at hj
    by_cases hji : j = i
    . rw [hji, Function.update_self] at hj
      rw [hji]
      exact (Job.running.inj hj).symm
    . rw [Function.update_of_ne hji] at hj
      exact h.own j param hj

theorem finish (h : s.Sound pthreadStackMin answers) {param : Fin jobsNum}
    (hi : s.job i = .running param) : (s.finish i param).Sound pthreadStackMin answers := by
  have hne (j : Fin jobsNum) (job : Job jobsNum) (hjob : s.job i ≠ job) (hfinished : .finished ≠ job)
      : Function.update s.job i .finished j = job ↔ s.job j = job := by
    by_cases hji : j = i
    . subst hji
      rw [Function.update_self]
      exact ⟨fun heq => absurd heq hfinished, fun heq => absurd heq hjob⟩
    . rw [Function.update_of_ne hji]
  refine ⟨h.settled, h.creating, ?_, ?_, ?_, ?_⟩
  . intro j
    unfold State.finish
    dsimp only
    rw [hne j .waiting (by rw [hi]; nofun) nofun]
    exact h.waiting_iff j
  . intro j hj
    unfold State.finish at hj ⊢
    dsimp only at hj ⊢
    rw [hne j .failed (by rw [hi]; nofun) nofun]
    exact h.failed_iff j ((hne j .waiting (by rw [hi]; nofun) nofun).not.mp hj)
  . intro arg w
    unfold State.finish
    dsimp only
    rw [h.heap_iff]
    refine exists_congr fun j => and_congr_left fun _ => ?_
    rw [hne j (.created arg) (by rw [hi]; nofun) nofun]
  . intro j param' hj
    unfold State.finish at hj
    dsimp only at hj
    by_cases hji : j = i
    . rw [hji, Function.update_self] at hj
      cases hj
    . rw [Function.update_of_ne hji] at hj
      exact h.own j param' hj

theorem of_main (h : s.Sound pthreadStackMin answers) (hmain : ∀ j, s.main ≠ .creating j)
    {main : Main} (hnext : ∀ j, main ≠ .creating j)
    : State.Sound pthreadStackMin answers { s with main } := by
  refine ⟨h.settled, fun j hj => absurd hj (hnext j), ?_, h.failed_iff, h.heap_iff, h.own⟩
  intro j
  rw [h.waiting_iff]
  constructor
  . rintro ⟨k, hk, _⟩
    exact absurd hk (hmain k)
  . rintro ⟨k, hk, _⟩
    exact absurd hk (hnext k)

theorem join (h : s.Sound pthreadStackMin answers) (hmain : s.main = .joining i)
    : (s.join i).Sound pthreadStackMin answers := by
  have hjoining : ∀ j, s.main ≠ .creating j := by
    intro j
    rw [hmain]
    exact nofun
  unfold State.join
  split
  . exact h.of_main hjoining nofun
  . refine h.of_main hjoining ?_
    split <;> exact nofun

theorem poll (h : s.Sound pthreadStackMin answers) {count : Nat} (hmain : s.main = .polling count)
    : (s.poll count).Sound pthreadStackMin answers := by
  have hpolling : ∀ j, s.main ≠ .creating j := by
    intro j
    rw [hmain]
    exact nofun
  unfold State.poll
  split
  . exact h.of_main hpolling nofun
  . split
    . exact h.of_main hpolling nofun
    . exact h.of_main hpolling nofun

theorem record (h : s.Sound pthreadStackMin answers) (next : σ)
    : (s.record next).Sound pthreadStackMin answers :=
  ⟨h.settled, h.creating, h.waiting_iff, h.failed_iff, h.heap_iff, h.own⟩

theorem step (h : s.Sound pthreadStackMin answers) {a : Step jobsNum σ} {t : State jobsNum σ}
    (hstep : (system pthreadStackMin answers).step s a t) : t.Sound pthreadStackMin answers := by
  cases a with
  | create =>
    obtain ⟨i, hmain, ht⟩ := hstep
    obtain ⟨t', ht', hsound, _⟩ := h.create hmain
    rw [ht] at ht'
    cases ht'
    exact hsound
  | start i =>
    obtain ⟨arg, hi, ht⟩ := hstep
    obtain ⟨t', ht', hsound, _⟩ := h.start hi
    rw [ht] at ht'
    cases ht'
    exact hsound
  | record i next =>
    obtain ⟨_, rfl⟩ := hstep
    exact h.record next
  | finish i =>
    obtain ⟨param, hi, rfl⟩ := hstep
    exact h.finish hi
  | join =>
    obtain ⟨i, hmain, rfl⟩ := hstep
    exact h.join hmain
  | poll =>
    obtain ⟨count, hmain, rfl⟩ := hstep
    exact h.poll hmain
  | report next =>
    obtain ⟨_, rfl⟩ := hstep
    exact h.record next
  | astray =>
    obtain ⟨_, rfl⟩ := hstep
    exact h

end State.Sound

def Job.isRunning : Job jobsNum → Bool
  | .finished => false
  | _ => true

def Main.polled : Main → Polling.Main
  | .creating _ | .joining _ | .lost => .polling 0
  | .polling count => .polling count
  | .left => .left

/--
The job phase as `Polling` has it: a job that has not ended is running, and main has not begun to
poll before it does so.
-/
def State.polled (s : State jobsNum σ) : Polling.State jobsNum σ where
  flag := s.flag
  running i := (s.job i).isRunning
  main := s.main.polled
  recorders := s.recorders

theorem Job.isRunning_eq_false {job : Job jobsNum} : job.isRunning = false ↔ job = .finished := by
  cases job <;> simp [isRunning]

theorem State.polled_running {s : State jobsNum σ} {job : Fin jobsNum → Job jobsNum}
    (h : ∀ i, job i = .finished ↔ s.job i = .finished)
    : (fun i => (job i).isRunning) = fun i => (s.job i).isRunning := by
  funext i
  rw [Bool.eq_iff_iff, ← not_iff_not, Bool.not_eq_true, Bool.not_eq_true,
    Job.isRunning_eq_false, Job.isRunning_eq_false]
  exact h i

theorem State.polled_finish {s : State jobsNum σ} {i : Fin jobsNum}
    : (s.finish i i).polled = s.polled.finish i := by
  have hrunning : (fun j => (Function.update s.job i .finished j).isRunning)
      = Function.update (fun j => (s.job j).isRunning) i false := by
    funext j
    by_cases hji : j = i
    . subst hji
      rw [Function.update_self, Function.update_self]
      rfl
    . rw [Function.update_of_ne hji, Function.update_of_ne hji]
  unfold State.finish State.polled Polling.State.finish
  dsimp only
  rw [hrunning]

theorem State.polled_join {s : State jobsNum σ} {i : Fin jobsNum} (hmain : s.main = .joining i)
    : (s.join i).polled = s.polled := by
  have hpolled : s.polled = { s with main := .lost }.polled := by
    unfold State.polled
    rw [hmain]
    rfl
  rw [hpolled]
  unfold State.join
  split
  . rfl
  . split <;> rfl

theorem State.polled_poll {s : State jobsNum σ} {count : Nat}
    : (s.poll count).polled = s.polled.poll count := by
  have hflag : s.polled.flag = s.flag := rfl
  unfold State.poll Polling.State.poll
  rw [hflag]
  split
  . rfl
  . split <;> rfl

theorem State.Sound.simulates {s t : State jobsNum σ} {a : Step jobsNum σ}
    (h : s.Sound pthreadStackMin answers)
    (hstep : (system pthreadStackMin answers).step s a t)
    : t.polled = s.polled ∨ ∃ b, (Polling.system jobsNum σ).step s.polled b t.polled := by
  cases a with
  | create =>
    left
    obtain ⟨i, hmain, ht⟩ := hstep
    obtain ⟨t', ht', _, hnext, hflag, hrecorders, hfinished⟩ := h.create hmain
    rw [ht] at ht'
    cases ht'
    have hpolled : t.main.polled = .polling 0 := by
      rw [hnext]
      split <;> rfl
    unfold State.polled
    rw [State.polled_running hfinished, hpolled, hmain, hflag, hrecorders]
    rfl
  | start i =>
    left
    obtain ⟨arg, hi, ht⟩ := hstep
    obtain ⟨t', ht', _, hjob, hmain, hflag, hrecorders⟩ := h.start hi
    rw [ht] at ht'
    cases ht'
    have hfinished : ∀ j, t.job j = .finished ↔ s.job j = .finished := by
      intro j
      rw [hjob]
      by_cases hji : j = i
      . subst hji
        rw [Function.update_self, hi]
        exact ⟨nofun, nofun⟩
      . rw [Function.update_of_ne hji]
    unfold State.polled
    rw [State.polled_running hfinished, hmain, hflag, hrecorders]
  | record i next =>
    right
    obtain ⟨⟨param, hi⟩, rfl⟩ := hstep
    have hrunning : s.polled.running i = true := congrArg Job.isRunning hi
    exact ⟨.record i next, hrunning, rfl⟩
  | finish i =>
    right
    obtain ⟨param, hi, rfl⟩ := hstep
    obtain rfl := h.own i param hi
    have hrunning : s.polled.running param = true := congrArg Job.isRunning hi
    exact ⟨.finish param, hrunning, State.polled_finish⟩
  | join =>
    left
    obtain ⟨i, hmain, rfl⟩ := hstep
    exact State.polled_join hmain
  | poll =>
    right
    obtain ⟨count, hmain, rfl⟩ := hstep
    exact ⟨.poll, count, congrArg Main.polled hmain, State.polled_poll⟩
  | report next =>
    right
    obtain ⟨hmain, rfl⟩ := hstep
    exact ⟨.report next, congrArg Main.polled hmain, rfl⟩
  | astray =>
    left
    obtain ⟨_, rfl⟩ := hstep
    rfl

section Reachable

variable {s : State jobsNum σ} (hjobs : 1 ≤ jobsNum)
  (hs : (system pthreadStackMin answers).Reachable s)
include hjobs hs

theorem sound_of_reachable : s.Sound pthreadStackMin answers :=
  hs.invariant (fun _ => .initial hjobs) fun _ _ _ h => h.step

theorem polled_of_reachable : (Polling.system jobsNum σ).Reachable s.polled := by
  refine hs.map State.polled (·.Sound pthreadStackMin answers) ?_ ?_
  . intro s hs
    obtain ⟨_, hjob, hflag, hmain⟩ := id hs
    refine ⟨.initial hjobs hs, hflag, ?_, ?_⟩
    . unfold State.polled
      rw [hjob]
      rfl
    . exact congrArg Main.polled hmain
  . exact fun s a t h hstep => ⟨h.step hstep, h.simulates hstep⟩

theorem consistent_of_reachable : s.polled.Consistent :=
  (polled_of_reachable hjobs hs).invariant (fun _ => .initial hjobs) fun _ _ _ h => h.step hjobs

end Reachable

def Main.Joined (failed : Fin jobsNum → Prop) : Main → Prop
  | .creating _ => True
  | .joining i => ∀ j : Fin jobsNum, j.val < i → ¬failed j
  | .polling _ | .left => ∀ j, ¬failed j
  | .lost => ∃ j, failed j

def State.Joined (s : State jobsNum σ) : Prop :=
  s.main.Joined fun j => s.job j = .failed

theorem State.Joined.join {s : State jobsNum σ} {i : Fin jobsNum} (h : s.Joined)
    (hmain : s.main = .joining i) : (s.join i).Joined := by
  unfold State.Joined at h ⊢
  rw [hmain] at h
  unfold State.join
  split
  . next hfailed => exact ⟨i, hfailed⟩
  . next hfailed =>
    have hnext (j : Fin jobsNum) (hj : j.val < i + 1) : s.job j ≠ .failed := by
      cases Nat.lt_or_eq_of_le (Nat.le_of_lt_succ hj) with
      | inl hlt => exact h j hlt
      | inr heq =>
        rw [Fin.ext heq]
        exact hfailed
    dsimp only
    split
    . next hlast => exact fun j => hnext j (by omega)
    . exact hnext

theorem State.Joined.step {s t : State jobsNum σ} {a : Step jobsNum σ} (h : s.Joined)
    (hsound : s.Sound pthreadStackMin answers)
    (hstep : (system pthreadStackMin answers).step s a t) : t.Joined := by
  have hmoved {i : Fin jobsNum} {job : Job jobsNum} (hi : s.job i ≠ .failed)
      (hjob : job ≠ .failed)
      : s.main.Joined fun j => Function.update s.job i job j = .failed := by
    have hsame : (fun j => Function.update s.job i job j = .failed)
        = fun j => s.job j = .failed := by
      funext j
      by_cases hji : j = i
      . subst hji
        rw [Function.update_self]
        exact propext ⟨fun heq => absurd heq hjob, fun heq => absurd heq hi⟩
      . rw [Function.update_of_ne hji]
    rw [hsame]
    exact h
  cases a with
  | create =>
    obtain ⟨i, hmain, ht⟩ := hstep
    obtain ⟨t', ht', _, hnext, _⟩ := hsound.create hmain
    rw [ht] at ht'
    cases ht'
    unfold State.Joined
    rw [hnext]
    split
    . exact fun j hj => absurd hj (Nat.not_lt_zero _)
    . trivial
  | start i =>
    obtain ⟨arg, hi, ht⟩ := hstep
    obtain ⟨t', ht', _, hjob, hmain, _⟩ := hsound.start hi
    rw [ht] at ht'
    cases ht'
    unfold State.Joined
    rw [hjob, hmain]
    exact hmoved (by rw [hi]; nofun) nofun
  | record i next =>
    obtain ⟨_, rfl⟩ := hstep
    exact h
  | finish i =>
    obtain ⟨param, hi, rfl⟩ := hstep
    exact hmoved (by rw [hi]; nofun) nofun
  | join =>
    obtain ⟨i, hmain, rfl⟩ := hstep
    exact h.join hmain
  | poll =>
    obtain ⟨count, hmain, rfl⟩ := hstep
    unfold State.Joined at h
    rw [hmain] at h
    unfold State.poll
    split
    . exact h
    . split <;> exact h
  | report next =>
    obtain ⟨_, rfl⟩ := hstep
    exact h
  | astray =>
    obtain ⟨_, rfl⟩ := hstep
    exact h

theorem joined_of_reachable (hjobs : 1 ≤ jobsNum) {s : State jobsNum σ}
    (hs : (system pthreadStackMin answers).Reachable s) : s.Joined := by
  have hboth : s.Sound pthreadStackMin answers ∧ s.Joined := by
    refine System.Reachable.invariant (?_ : ∀ s, _ → s.Sound pthreadStackMin answers ∧ s.Joined)
      ?_ hs
    . intro s hs
      refine ⟨.initial hjobs hs, ?_⟩
      unfold State.Joined
      rw [hs.2.2.2]
      trivial
    . exact fun _ _ _ h hstep => ⟨h.1.step hstep, h.2.step h.1 hstep⟩
  exact hboth.2

def Step.OfMain : Step jobsNum σ → Prop
  | .create | .join | .poll => True
  | _ => False

/--
main goes on until it has left its loops or is lost, and a thread that has been created runs and comes
to its end.
-/
structure Fair (run : Nat → State jobsNum σ) (act : Nat → Step jobsNum σ) : Prop where
  main : ∀ n, ∃ m, n ≤ m ∧ ((run m).main = .left ∨ (run m).main = .lost ∨ (act m).OfMain)
  jobs : ∀ n i, (∃ arg, (run n).job i = .created arg) ∨ (∃ param, (run n).job i = .running param) →
    ∃ m, n ≤ m ∧ (run m).job i = .finished

theorem State.join_eq (s : State jobsNum σ) (i : Fin jobsNum)
    : ∃ main, s.join i = { s with main }
        ∧ (main = .lost ∨ main = if i.val + 1 = jobsNum then .polling 0 else .joining (i + 1)) := by
  unfold State.join
  split
  . exact ⟨_, rfl, .inl rfl⟩
  . exact ⟨_, rfl, .inr rfl⟩

theorem finished_of_step (hjobs : 1 ≤ jobsNum) {s t : State jobsNum σ} {a : Step jobsNum σ}
    {i : Fin jobsNum} (hs : (system pthreadStackMin answers).Reachable s)
    (hi : s.job i = .finished) (hstep : (system pthreadStackMin answers).step s a t)
    : t.job i = .finished := by
  have hsound := sound_of_reachable hjobs hs
  have hkept {j : Fin jobsNum} {job : Job jobsNum} (hj : s.job j ≠ .finished)
      : Function.update s.job j job i = .finished := by
    rw [Function.update_of_ne]
    . exact hi
    . rintro rfl
      exact hj hi
  cases a with
  | create =>
    obtain ⟨j, hmain, ht⟩ := hstep
    obtain ⟨t', ht', _, _, _, _, hfinished⟩ := hsound.create hmain
    rw [ht] at ht'
    cases ht'
    exact (hfinished i).mpr hi
  | start j =>
    obtain ⟨arg, hj, ht⟩ := hstep
    obtain ⟨t', ht', _, hjob, _⟩ := hsound.start hj
    rw [ht] at ht'
    cases ht'
    rw [hjob]
    apply hkept
    rw [hj]
    exact nofun
  | record j next =>
    obtain ⟨_, rfl⟩ := hstep
    exact hi
  | finish j =>
    obtain ⟨param, hj, rfl⟩ := hstep
    apply hkept
    rw [hj]
    exact nofun
  | join =>
    obtain ⟨j, _, rfl⟩ := hstep
    obtain ⟨main, hjoin, _⟩ := s.join_eq j
    rw [hjoin]
    exact hi
  | poll =>
    obtain ⟨count, _, rfl⟩ := hstep
    unfold State.poll
    split
    . exact hi
    . split <;> exact hi
  | report next =>
    obtain ⟨_, rfl⟩ := hstep
    exact hi
  | astray =>
    obtain ⟨_, rfl⟩ := hstep
    exact hi

def Main.Launched : Main → Prop
  | .creating _ | .joining _ => False
  | .polling _ | .left | .lost => True

def Main.toLaunch (jobsNum : Nat) : Main → Nat
  | .creating i => jobsNum + 1 + (jobsNum - i)
  | .joining i => jobsNum - i
  | _ => 0

def Main.toPoll (jobsNum : Nat) : Main → Nat
  | .polling count => jobsNum - count
  | _ => 0

theorem launch_gains (hjobs : 1 ≤ jobsNum) (s : State jobsNum σ) (a : Step jobsNum σ)
    (t : State jobsNum σ) (hs : (system pthreadStackMin answers).Reachable s)
    (hstep : (system pthreadStackMin answers).step s a t)
    : t.main.Launched ∨ True ∧ t.main.toLaunch jobsNum ≤ s.main.toLaunch jobsNum
        ∧ (a.OfMain → t.main.toLaunch jobsNum < s.main.toLaunch jobsNum) := by
  have hsound := sound_of_reachable hjobs hs
  have hless {main main' : Main} (h : main.toLaunch jobsNum < main'.toLaunch jobsNum)
      : main.Launched ∨ True ∧ main.toLaunch jobsNum ≤ main'.toLaunch jobsNum
        ∧ (a.OfMain → main.toLaunch jobsNum < main'.toLaunch jobsNum) :=
    .inr ⟨trivial, h.le, fun _ => h⟩
  cases a with
  | create =>
    obtain ⟨i, hmain, ht⟩ := hstep
    obtain ⟨t', ht', _, hnext, _⟩ := hsound.create hmain
    rw [ht] at ht'
    cases ht'
    have hlt := i.isLt
    rw [hnext, hmain]
    apply hless
    split
    . unfold Main.toLaunch
      dsimp only
      omega
    . unfold Main.toLaunch
      dsimp only
      omega
  | start i =>
    obtain ⟨arg, hi, ht⟩ := hstep
    obtain ⟨t', ht', _, _, hmain, _⟩ := hsound.start hi
    rw [ht] at ht'
    cases ht'
    rw [hmain]
    exact .inr ⟨trivial, Nat.le_refl _, nofun⟩
  | record i next =>
    obtain ⟨_, rfl⟩ := hstep
    exact .inr ⟨trivial, Nat.le_refl _, nofun⟩
  | finish i =>
    obtain ⟨param, _, rfl⟩ := hstep
    exact .inr ⟨trivial, Nat.le_refl _, nofun⟩
  | join =>
    obtain ⟨i, hmain, rfl⟩ := hstep
    have hlt := i.isLt
    obtain ⟨main, hjoin, hnext⟩ := s.join_eq i
    rw [hjoin, hmain]
    dsimp only
    rcases hnext with rfl | rfl
    . exact .inl trivial
    . split
      . exact .inl trivial
      . apply hless
        unfold Main.toLaunch
        dsimp only
        omega
  | poll =>
    left
    obtain ⟨count, _, rfl⟩ := hstep
    unfold State.poll
    split
    . trivial
    . split <;> trivial
  | report next =>
    obtain ⟨_, rfl⟩ := hstep
    exact .inr ⟨trivial, Nat.le_refl _, nofun⟩
  | astray =>
    obtain ⟨_, rfl⟩ := hstep
    exact .inr ⟨trivial, Nat.le_refl _, nofun⟩

theorem launched_of_step (hjobs : 1 ≤ jobsNum) {s t : State jobsNum σ} {a : Step jobsNum σ}
    (hs : (system pthreadStackMin answers).Reachable s) (hmain : s.main.Launched)
    (hstep : (system pthreadStackMin answers).step s a t) : t.main.Launched := by
  cases a with
  | create =>
    obtain ⟨i, hi, _⟩ := hstep
    rw [hi] at hmain
    exact hmain.elim
  | start i =>
    obtain ⟨arg, hi, ht⟩ := hstep
    obtain ⟨t', ht', _, _, hsame, _⟩ := (sound_of_reachable hjobs hs).start hi
    rw [ht] at ht'
    cases ht'
    rw [hsame]
    exact hmain
  | record i next =>
    obtain ⟨_, rfl⟩ := hstep
    exact hmain
  | finish i =>
    obtain ⟨param, _, rfl⟩ := hstep
    exact hmain
  | join =>
    obtain ⟨i, hi, _⟩ := hstep
    rw [hi] at hmain
    exact hmain.elim
  | poll =>
    obtain ⟨count, _, rfl⟩ := hstep
    unfold State.poll
    split
    . trivial
    . split <;> trivial
  | report next =>
    obtain ⟨_, rfl⟩ := hstep
    exact hmain
  | astray =>
    obtain ⟨_, rfl⟩ := hstep
    exact hmain

def State.Swept (s : State jobsNum σ) : Prop :=
  s.main.Launched ∧ ∀ i, s.job i = .finished

theorem poll_gains (hjobs : 1 ≤ jobsNum) (s : State jobsNum σ) (a : Step jobsNum σ)
    (t : State jobsNum σ) (hs : (system pthreadStackMin answers).Reachable s) (hswept : s.Swept)
    (hstep : (system pthreadStackMin answers).step s a t)
    : t.main = .left ∨ t.Swept ∧ t.main.toPoll jobsNum ≤ s.main.toPoll jobsNum
        ∧ (a.OfMain → t.main.toPoll jobsNum < s.main.toPoll jobsNum) := by
  obtain ⟨hmain, hfinished⟩ := hswept
  cases a with
  | create =>
    obtain ⟨i, hi, _⟩ := hstep
    rw [hi] at hmain
    exact hmain.elim
  | start i =>
    obtain ⟨arg, hi, _⟩ := hstep
    rw [hfinished i] at hi
    cases hi
  | record i next =>
    obtain ⟨⟨param, hi⟩, _⟩ := hstep
    rw [hfinished i] at hi
    cases hi
  | finish i =>
    obtain ⟨param, hi, _⟩ := hstep
    rw [hfinished i] at hi
    cases hi
  | join =>
    obtain ⟨i, hi, _⟩ := hstep
    rw [hi] at hmain
    exact hmain.elim
  | poll =>
    obtain ⟨count, hcount, rfl⟩ := hstep
    have hconsistent := consistent_of_reachable hjobs hs
    have hswept := hconsistent.swept
    have hpolled : s.polled.main = .polling count := congrArg Main.polled hcount
    rw [hpolled] at hswept
    have hflag : s.flag count = 1 := by
      have hup := hconsistent.flag_eq ⟨count, hswept.1⟩
      have hnot : s.polled.running ⟨count, hswept.1⟩ = false :=
        Job.isRunning_eq_false.mpr (hfinished _)
      rw [hnot] at hup
      exact hup
    unfold State.poll
    rw [hflag, if_neg Nat.one_ne_zero]
    split
    . exact .inl rfl
    . next hlast =>
      right
      have hlt := hswept.1
      rw [hcount]
      unfold Main.toPoll
      exact ⟨⟨trivial, hfinished⟩, by dsimp only; omega, fun _ => by dsimp only; omega⟩
  | report next =>
    obtain ⟨hleft, rfl⟩ := hstep
    exact .inl hleft
  | astray =>
    obtain ⟨hlost, rfl⟩ := hstep
    have hjoined := joined_of_reachable hjobs hs
    unfold State.Joined at hjoined
    rw [hlost] at hjoined
    obtain ⟨i, hi⟩ := hjoined
    rw [hfinished i] at hi
    cases hi

section Progress

variable {run : Nat → State jobsNum σ} {act : Nat → Step jobsNum σ} (hjobs : 1 ≤ jobsNum)
  (htrace : (system pthreadStackMin answers).Trace run act) (hfair : Fair run act)
include hjobs htrace

theorem failed_iff_of_launched {n : Nat} (hn : (run n).main.Launched) (i : Fin jobsNum)
    : (run n).job i ≠ .waiting
        ∧ ((run n).job i = .failed ↔ ¬(answers i).Succeeds pthreadStackMin SIZE_1MB) := by
  have hsound := sound_of_reachable hjobs (htrace.reachable n)
  have hwaiting : (run n).job i ≠ .waiting := by
    rw [ne_eq, hsound.waiting_iff]
    rintro ⟨j, hj, _⟩
    rw [hj] at hn
    exact hn
  exact ⟨hwaiting, hsound.failed_iff i hwaiting⟩

include hfair

theorem launches : ∃ n, (run n).main.Launched := by
  have hgoal : ∀ n, ∃ m, n ≤ m ∧ ((run m).main.Launched ∨ (act m).OfMain) := by
    intro n
    obtain ⟨m, hm, hleft | hlost | hmain⟩ := hfair.main n
    . refine ⟨m, hm, .inl ?_⟩
      rw [hleft]
      trivial
    . refine ⟨m, hm, .inl ?_⟩
      rw [hlost]
      trivial
    . exact ⟨m, hm, .inr hmain⟩
  obtain ⟨n, _, hn⟩ := htrace.leads (fun _ => True) (fun s => s.main.Launched)
    (fun s => s.main.toLaunch jobsNum) Step.OfMain
    (fun s a t hs _ hstep => launch_gains hjobs s a t hs hstep) hgoal (n := 0) trivial
  exact ⟨n, hn⟩

theorem sweeps (hsucceeds : ∀ i, (answers i).Succeeds pthreadStackMin SIZE_1MB)
    : ∃ n, (run n).Swept := by
  obtain ⟨n, hn⟩ := launches hjobs htrace hfair
  have hcome : ∀ i ∈ List.finRange jobsNum, ∃ m, n ≤ m ∧ (run m).job i = .finished := by
    intro i _
    obtain ⟨hwaiting, hfailed⟩ := failed_iff_of_launched hjobs htrace hn i
    cases hi : (run n).job i with
    | waiting => exact absurd hi hwaiting
    | failed => exact absurd (hsucceeds i) (hfailed.mp hi)
    | created arg => exact hfair.jobs n i (.inl ⟨arg, hi⟩)
    | running param => exact hfair.jobs n i (.inr ⟨param, hi⟩)
    | finished => exact ⟨n, Nat.le_refl n, hi⟩
  obtain ⟨m, hm, hfinished⟩ := htrace.eventually_all (P := fun i s => s.job i = .finished)
    (List.finRange jobsNum) (fun i s a t hs hi hstep => finished_of_step hjobs hs hi hstep) n hcome
  have hmain : (run m).main.Launched :=
    htrace.stable (P := fun s => s.main.Launched)
      (fun s a t hs hmain hstep => launched_of_step hjobs hs hmain hstep) hm hn
  exact ⟨m, hmain, fun i => hfinished i (List.mem_finRange i)⟩

theorem leaves (hsucceeds : ∀ i, (answers i).Succeeds pthreadStackMin SIZE_1MB)
    : ∃ n, (run n).main = .left := by
  obtain ⟨n, hn⟩ := sweeps hjobs htrace hfair hsucceeds
  have hgoal : ∀ n, ∃ m, n ≤ m ∧ ((run m).main = .left ∨ (act m).OfMain) := by
    intro n
    obtain ⟨m, hm, hleft | hlost | hmain⟩ := hfair.main n
    . exact ⟨m, hm, .inl hleft⟩
    . -- all threads have been created, so that none is missing when main joins them
      have hjoined := joined_of_reachable hjobs (htrace.reachable m)
      unfold State.Joined at hjoined
      rw [hlost] at hjoined
      obtain ⟨i, hi⟩ := hjoined
      have hlaunched : (run m).main.Launched := by
        rw [hlost]
        trivial
      have hfailed := (failed_iff_of_launched hjobs htrace hlaunched i).2.mp hi
      exact absurd (hsucceeds i) hfailed
    . exact ⟨m, hm, .inr hmain⟩
  obtain ⟨m, _, hm⟩ := htrace.leads State.Swept (fun s => s.main = .left)
    (fun s => s.main.toPoll jobsNum) Step.OfMain
    (fun s a t hs hinv hstep => poll_gains hjobs s a t hs hinv hstep) hgoal hn
  exact ⟨m, hm⟩

end Progress

end Launch

open Launch

theorem launch_keeps {σ : Type} {jobsNum pthreadStackMin : Nat}
    {answers : Fin jobsNum → ThreadAnswers} (hjobs : 1 ≤ jobsNum)
    {s : Launch.State jobsNum σ} (hs : (Launch.system pthreadStackMin answers).Reachable s)
    : (∀ i : Fin jobsNum, s.main = .creating i → ∃ t, s.create pthreadStackMin answers i = some t)
        ∧ (∀ i arg, s.job i = .created arg → ∃ t, s.start i arg = some t)
        ∧ s.process.attr = false
        ∧ (∀ arg, s.process.heap arg ≠ none ↔ ∃ i, s.job i = .created arg)
        ∧ (∀ i j arg, s.job i = .created arg → s.job j = .created arg → i = j)
        ∧ ∀ i param, s.job i = .running param → param = i := by
  have hsound := sound_of_reachable hjobs hs
  refine ⟨?_, ?_, hsound.settled.attr_eq, ?_, fun i j arg hi hj => hsound.unique hi hj, hsound.own⟩
  . intro i hmain
    obtain ⟨t, ht, _⟩ := hsound.create hmain
    exact ⟨t, ht⟩
  . intro i arg hi
    obtain ⟨t, ht, _⟩ := hsound.start hi
    exact ⟨t, ht⟩
  . intro arg
    rw [Option.ne_none_iff_exists']
    constructor
    . rintro ⟨w, hw⟩
      obtain ⟨i, hi, _⟩ := (hsound.heap_iff arg w).mp hw
      exact ⟨i, hi⟩
    . rintro ⟨i, hi⟩
      exact ⟨warp i, (hsound.heap_iff arg _).mpr ⟨i, hi, rfl⟩⟩

theorem main_leaves_iff {σ : Type} {jobsNum pthreadStackMin : Nat}
    {answers : Fin jobsNum → ThreadAnswers} (hjobs : 1 ≤ jobsNum)
    {run : Nat → Launch.State jobsNum σ} {act : Nat → Launch.Step jobsNum σ}
    (htrace : (Launch.system pthreadStackMin answers).Trace run act) (hfair : Launch.Fair run act)
    : ((∃ n, (run n).main = .left) ↔ ∀ i, (answers i).Succeeds pthreadStackMin SIZE_1MB)
        ∧ ((∃ n, (run n).main = .lost) ↔ ∃ i, ¬(answers i).Succeeds pthreadStackMin SIZE_1MB) := by
  -- main does not look at what `sys_pthread_create` returns and joins what was never set for a job
  -- without a thread
  have hlaunched {n : Nat} {main : Launch.Main} (hn : (run n).main = main)
      (hmain : main.Launched) : (run n).main.Launched := by
    rw [hn]
    exact hmain
  have hjoined (n : Nat) : (run n).Joined := joined_of_reachable hjobs (htrace.reachable n)
  refine ⟨⟨?_, leaves hjobs htrace hfair⟩, ?_, ?_⟩
  . rintro ⟨n, hn⟩ i
    have hall := hjoined n
    unfold Launch.State.Joined at hall
    rw [hn] at hall
    have hfailed := (failed_iff_of_launched hjobs htrace (hlaunched hn trivial) i).2
    exact not_not.mp (hfailed.not.mp (hall i))
  . rintro ⟨n, hn⟩
    have hsome := hjoined n
    unfold Launch.State.Joined at hsome
    rw [hn] at hsome
    obtain ⟨i, hi⟩ := hsome
    exact ⟨i, (failed_iff_of_launched hjobs htrace (hlaunched hn trivial) i).2.mp hi⟩
  . rintro ⟨i, hi⟩
    obtain ⟨n, hn⟩ := launches hjobs htrace hfair
    have hfailed := (failed_iff_of_launched hjobs htrace hn i).2.mpr hi
    have hall := hjoined n
    unfold Launch.State.Joined at hall
    cases hmain : (run n).main with
    | lost => exact ⟨n, hmain⟩
    | creating j | joining j =>
      rw [hmain] at hn
      exact hn.elim
    | polling count | left =>
      rw [hmain] at hall
      exact absurd hfailed (hall i)

namespace Launch

def refused : ThreadAnswers where
  attrInit := 0
  attrSetdetachstate := 0
  attrSetstacksize _ := 0
  malloc := true
  create := 11

def granted : ThreadAnswers :=
  { refused with create := 0 }

def first : State 2 Unit where
  process := .initial
  job _ := .waiting
  flag _ := 0
  main := .creating 0
  recorders := ()

abbrev former : Fin 2 := ⟨0, Nat.two_pos⟩

abbrev latter : Fin 2 := ⟨1, Nat.one_lt_two⟩

section Two

variable (a : Fin 2 → ThreadAnswers)

def second : State 2 Unit :=
  (first.create 16384 a former).getD first

/-- The first of two jobs has begun before main creates the other one. -/
def third : State 2 Unit :=
  ((second a).start former 1).getD first

def fourth : State 2 Unit :=
  ((third a).create 16384 a latter).getD first

def fifth : State 2 Unit :=
  (fourth a).finish former former

end Two

def allGranted : Fin 2 → ThreadAnswers :=
  fun _ => granted

def lastRefused : Fin 2 → ThreadAnswers
  | 0 => granted
  | 1 => refused

def refusedRun : Nat → State 2 Unit
  | 0 => first
  | 1 => second lastRefused
  | 2 => third lastRefused
  | 3 => fourth lastRefused
  | 4 => fifth lastRefused
  | 5 => (fifth lastRefused).join former
  | _ => ((fifth lastRefused).join former).join latter

def refusedAct : Nat → Step 2 Unit
  | 0 => .create
  | 1 => .start former
  | 2 => .create
  | 3 => .finish former
  | 4 => .join
  | 5 => .join
  | _ => .astray

def sixth : State 2 Unit :=
  (((fifth allGranted).join former).start latter 2).getD first

def seventh : State 2 Unit :=
  (sixth.finish latter latter).join latter

def grantedRun : Nat → State 2 Unit
  | 0 => first
  | 1 => second allGranted
  | 2 => third allGranted
  | 3 => fourth allGranted
  | 4 => fifth allGranted
  | 5 => (fifth allGranted).join former
  | 6 => sixth
  | 7 => sixth.finish latter latter
  | 8 => seventh
  | 9 => seventh.poll former
  | _ => (seventh.poll former).poll latter

def grantedAct : Nat → Step 2 Unit
  | 0 => .create
  | 1 => .start former
  | 2 => .create
  | 3 => .finish former
  | 4 => .join
  | 5 => .start latter
  | 6 => .finish latter
  | 7 => .join
  | 8 => .poll
  | 9 => .poll
  | _ => .report ()

theorem refused_trace : (system 16384 lastRefused).Trace refusedRun refusedAct where
  init := ⟨rfl, rfl, rfl, rfl⟩
  step
    | 0 => ⟨0, rfl, rfl⟩
    | 1 => ⟨1, rfl, rfl⟩
    | 2 => ⟨1, rfl, rfl⟩
    | 3 => ⟨0, rfl, rfl⟩
    | 4 => ⟨0, rfl, rfl⟩
    | 5 => ⟨1, rfl, rfl⟩
    | _ + 6 => ⟨rfl, rfl⟩

theorem refused_fair : Fair refusedRun refusedAct where
  main n := ⟨n + 6, Nat.le_add_right n 6, .inr (.inl rfl)⟩
  jobs n i h := by
    match i with
    | 0 => exact ⟨n + 4, Nat.le_add_right n 4, finished n⟩
    | 1 => exact (never n h).elim
where
  finished : ∀ n, (refusedRun (n + 4)).job 0 = .finished
    | 0 | 1 | _ + 2 => rfl
  never : ∀ n, ¬((∃ arg, (refusedRun n).job 1 = .created arg)
      ∨ ∃ param, (refusedRun n).job 1 = .running param)
    | 0 | 1 | 2 | 3 | 4 | 5 | _ + 6 => by
      rintro (⟨_, h⟩ | ⟨_, h⟩) <;> cases h

theorem granted_trace : (system 16384 allGranted).Trace grantedRun grantedAct where
  init := ⟨rfl, rfl, rfl, rfl⟩
  step
    | 0 => ⟨0, rfl, rfl⟩
    | 1 => ⟨1, rfl, rfl⟩
    | 2 => ⟨1, rfl, rfl⟩
    | 3 => ⟨0, rfl, rfl⟩
    | 4 => ⟨0, rfl, rfl⟩
    | 5 => ⟨2, rfl, rfl⟩
    | 6 => ⟨1, rfl, rfl⟩
    | 7 => ⟨1, rfl, rfl⟩
    | 8 => ⟨0, rfl, rfl⟩
    | 9 => ⟨1, rfl, rfl⟩
    | _ + 10 => ⟨rfl, rfl⟩

theorem granted_fair : Fair grantedRun grantedAct where
  main n := ⟨n + 10, Nat.le_add_right n 10, .inl rfl⟩
  jobs n i _ := by
    refine ⟨n + 10, Nat.le_add_right n 10, ?_⟩
    match i with
    | 0 | 1 => rfl

end Launch

theorem launch_keeps_two
    : (system 16384 allGranted).Reachable (fourth allGranted)
        ∧ ((∀ i : Fin 2, (fourth allGranted).main = .creating i →
              ∃ t, (fourth allGranted).create 16384 allGranted i = some t)
            ∧ (∀ i arg, (fourth allGranted).job i = .created arg →
              ∃ t, (fourth allGranted).start i arg = some t)
            ∧ (fourth allGranted).process.attr = false
            ∧ (∀ arg, (fourth allGranted).process.heap arg ≠ none
              ↔ ∃ i, (fourth allGranted).job i = .created arg)
            ∧ (∀ i j arg, (fourth allGranted).job i = .created arg →
              (fourth allGranted).job j = .created arg → i = j)
            ∧ ∀ i param, (fourth allGranted).job i = .running param → param = i) :=
  have hs : (system 16384 allGranted).Reachable (fourth allGranted) := granted_trace.reachable 3
  ⟨hs, launch_keeps (by decide) hs⟩

theorem main_leaves_iff_two
    : (((∃ n, (refusedRun n).main = .left) ↔ ∀ i, (lastRefused i).Succeeds 16384 SIZE_1MB)
          ∧ ((∃ n, (refusedRun n).main = .lost) ↔ ∃ i, ¬(lastRefused i).Succeeds 16384 SIZE_1MB))
        ∧ (((∃ n, (grantedRun n).main = .left) ↔ ∀ i, (allGranted i).Succeeds 16384 SIZE_1MB)
          ∧ ((∃ n, (grantedRun n).main = .lost) ↔ ∃ i, ¬(allGranted i).Succeeds 16384 SIZE_1MB))
        ∧ ¬(lastRefused 1).Succeeds 16384 SIZE_1MB ∧ granted.Succeeds 16384 SIZE_1MB :=
  ⟨main_leaves_iff (by decide) refused_trace refused_fair,
    main_leaves_iff (by decide) granted_trace granted_fair, by decide, by decide⟩

end FsBench
