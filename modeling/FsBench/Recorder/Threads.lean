import FsBench.Lib.System
import FsBench.Recorder.History
import Mathlib.Logic.Function.Basic

/-!
The job threads of fsbench.c record into the same arrays without a lock. The two recording steps of
`sys_libc_fwrite`, `sys_libc_fread` and `sys_posix_sync`, and the three of `sys_file_fsync`, as
transition systems over any number of threads.
-/

namespace FsBench

namespace RecordStep

variable {threads cap : Nat}

/--
A thread is pending when it has stored and not yet compared `count` with the capacity.
-/
structure State (threads : Nat) where
  recorder : Recorder Int
  pending : Fin threads → Bool

inductive Step (threads : Nat) where
  | store (i : Fin threads) (duration : Int)
  | wrap (i : Fin threads)

def State.store (s : State threads) (i : Fin threads) (duration : Int) : State threads where
  recorder := s.recorder.put duration
  pending := Function.update s.pending i true

def State.wrap (cap : Nat) (s : State threads) (i : Fin threads) : State threads where
  recorder := s.recorder.wrap cap
  pending := Function.update s.pending i false

def system (cap threads : Nat) : System (State threads) (Step threads) where
  init s := s = { recorder := .initial cap, pending := fun _ => false }
  step
    | s, .store i duration, t => s.pending i = false ∧ t = s.store i duration
    | s, .wrap i, t => s.pending i = true ∧ t = s.wrap cap i

/--
`count` never passes the capacity, and every store has its slot in the array.
-/
def InRange (cap : Nat) (S : System (State threads) (Step threads)) : Prop :=
  ∀ s, S.Reachable s → s.recorder.count ≤ cap
    ∧ ∀ i duration t, S.step s (.store i duration) t → s.recorder.count < cap

/--
The last slot is filled only while no other thread has yet to compare.
-/
def LastAlone (cap : Nat) (s : State threads) : Step threads → Prop
  | .store _ _ => (∀ j, s.pending j = false) ∨ s.recorder.count + 1 < cap
  | .wrap _ => True

structure State.Bounded (cap : Nat) (s : State threads) : Prop where
  count_le : s.recorder.count ≤ cap
  idle_lt : (∀ j, s.pending j = false) → s.recorder.count < cap

theorem State.Bounded.count_lt {s : State threads} (h : s.Bounded cap)
    (halone : (∀ j, s.pending j = false) ∨ s.recorder.count + 1 < cap) : s.recorder.count < cap := by
  cases halone with
  | inl hidle => exact h.idle_lt hidle
  | inr hlt => omega

theorem State.Bounded.store {s : State threads} (i : Fin threads) (duration : Int)
    (hlt : s.recorder.count < cap) : (s.store i duration).Bounded cap where
  count_le := hlt
  idle_lt := by
    intro hnone
    have := hnone i
    simp [State.store] at this

theorem State.Bounded.wrap {s : State threads} (i : Fin threads) (hcap : 0 < cap)
    (h : s.Bounded cap) : (s.wrap cap i).Bounded cap := by
  have hle := h.count_le
  have hcount : (s.wrap cap i).recorder.count < cap := by
    simp only [State.wrap, Recorder.wrap]
    split
    . exact hcap
    . omega
  exact ⟨hcount.le, fun _ => hcount⟩

theorem bounded_of_reachable (hcap : 0 < cap) {s : State threads}
    (h : ((system cap threads).restrict (LastAlone cap)).Reachable s) : s.Bounded cap := by
  refine h.invariant ?_ ?_
  . intro s hs
    cases hs
    exact { count_le := by simp [Recorder.initial], idle_lt := fun _ => hcap }
  . intro s a t hs hstep
    cases a with
    | store i duration =>
      obtain ⟨halone, -, rfl⟩ := hstep
      exact .store i duration (hs.count_lt halone)
    | wrap i =>
      obtain ⟨-, -, rfl⟩ := hstep
      exact hs.wrap i hcap

theorem inRange_lastAlone (hcap : 0 < cap)
    : InRange cap ((system cap threads).restrict (LastAlone cap)) := by
  intro s hs
  have hbounded := bounded_of_reachable hcap hs
  refine ⟨hbounded.count_le, ?_⟩
  intro i duration t hstep
  exact hbounded.count_lt hstep.1

theorem inRange_single (hcap : 0 < cap) : InRange cap (system cap 1) := by
  have halone : ∀ s a t, (system cap 1).step s a t → LastAlone cap s a := by
    intro s a t hstep
    cases a with
    | store i duration =>
      left
      intro j
      rw [Subsingleton.elim j i]
      exact hstep.1
    | wrap i => trivial
  intro s hs
  have hs := inRange_lastAlone hcap s (hs.restrict halone)
  refine ⟨hs.1, ?_⟩
  intro i duration t hstep
  exact hs.2 i duration t ⟨halone _ _ _ hstep, hstep⟩

theorem reachable_count (i : Fin threads) {n : Nat} (hn : n < cap)
    : ∃ s, (system cap threads).Reachable s ∧ s.recorder.count = n ∧ ∀ j, s.pending j = false := by
  induction n with
  | zero => exact ⟨_, .of_init rfl, rfl, fun _ => rfl⟩
  | succ n ih =>
    obtain ⟨s, hs, hcount, hidle⟩ := ih (by omega)
    have hstore : (system cap threads).step s (.store i 0) (s.store i 0) := ⟨hidle i, rfl⟩
    have hwrap : (system cap threads).step (s.store i 0) (.wrap i) ((s.store i 0).wrap cap i) :=
      ⟨by simp [State.store], rfl⟩
    have hne : (s.store i 0).recorder.count ≠ cap := by
      simp only [State.store, Recorder.put]
      omega
    refine ⟨_, (hs.step hstore).step hwrap, ?_, ?_⟩
    . rw [State.wrap, Recorder.wrap_of_ne hne]
      simp only [State.store, Recorder.put, hcount]
    . intro j
      simp only [State.store, State.wrap, Function.update_apply]
      split
      . rfl
      . exact hidle j

theorem not_inRange_of_two {i j : Fin threads} (hij : i ≠ j) (hcap : 0 < cap)
    : ¬ InRange cap (system cap threads) := by
  -- one thread fills the last slot and is overtaken before it compares
  intro h
  obtain ⟨s, hs, hcount, hidle⟩ := reachable_count i (show cap - 1 < cap by omega)
  have hfill : (system cap threads).step s (.store i 0) (s.store i 0) := ⟨hidle i, rfl⟩
  have hpending : (s.store i 0).pending j = false := by
    simp [State.store, hij.symm, hidle]
  have hlt := (h _ (hs.step hfill)).2 j 0 _ ⟨hpending, rfl⟩
  simp only [State.store, Recorder.put] at hlt
  omega

end RecordStep

theorem record_inRange_iff {cap jobsNum : Nat}
    (hcap : cap = MAX_FWRITE ∨ cap = MAX_FREAD ∨ cap = MAX_SYNC) (hjobs : 1 ≤ jobsNum)
    : RecordStep.InRange cap ((RecordStep.system cap jobsNum).restrict (RecordStep.LastAlone cap))
      ∧ (RecordStep.InRange cap (RecordStep.system cap jobsNum) ↔ jobsNum = 1) := by
  have hpos : 0 < cap := by rcases hcap with rfl | rfl | rfl <;> decide
  refine ⟨RecordStep.inRange_lastAlone hpos, ?_, ?_⟩
  . intro h
    by_contra hne
    have hij : (⟨0, by omega⟩ : Fin jobsNum) ≠ ⟨1, by omega⟩ := by simp
    exact RecordStep.not_inRange_of_two hij hpos h
  . intro h
    subst h
    exact RecordStep.inRange_single hpos

theorem record_inRange_iff_two
    : RecordStep.InRange MAX_FREAD
        ((RecordStep.system MAX_FREAD 2).restrict (RecordStep.LastAlone MAX_FREAD))
      ∧ (RecordStep.InRange MAX_FREAD (RecordStep.system MAX_FREAD 2) ↔ 2 = 1) :=
  record_inRange_iff (.inr (.inl rfl)) (by decide)

theorem fwrite_not_inRange : ¬ RecordStep.InRange MAX_FWRITE (RecordStep.system MAX_FWRITE 2) :=
  RecordStep.not_inRange_of_two (i := 0) (j := 1) (by decide) (by decide)

namespace SyncStep

variable {threads cap : Nat}

/--
The calls of a thread are numbered in order. The number is not in the program, it only says which
call a duration comes from.
-/
structure CallId (threads : Nat) where
  thread : Fin threads
  number : Nat

structure Sample (threads : Nat) where
  call : CallId threads
  duration : Int

inductive Phase where
  | idle
  | flushed
  | numbered
deriving DecidableEq

/--
A slot that no call has written is `none`.
-/
structure State (threads : Nat) where
  recorder : SyncRecorder (Option (Sample threads))
  phase : Fin threads → Phase
  calls : Fin threads → Nat
  completed : Nat

def State.initial (cap threads : Nat) : State threads where
  recorder :=
    { fflushTime := List.replicate cap none
      filenoTime := List.replicate cap none
      fsyncTime := List.replicate cap none
      count := 0
      flag := 0 }
  phase _ := .idle
  calls _ := 0
  completed := 0

inductive Step (threads : Nat) where
  | fflush (i : Fin threads) (duration : Int)
  | fileno (i : Fin threads) (duration : Int)
  | fsync (i : Fin threads) (duration : Int)

def State.sample (s : State threads) (i : Fin threads) (duration : Int)
    : Option (Sample threads) :=
  some { call := { thread := i, number := s.calls i }, duration }

def State.fflush (s : State threads) (i : Fin threads) (duration : Int) : State threads :=
  { s with
    recorder := s.recorder.putFflush (s.sample i duration)
    phase := Function.update s.phase i .flushed }

def State.fileno (s : State threads) (i : Fin threads) (duration : Int) : State threads :=
  { s with
    recorder := s.recorder.putFileno (s.sample i duration)
    phase := Function.update s.phase i .numbered }

def State.fsync (cap : Nat) (s : State threads) (i : Fin threads) (duration : Int)
    : State threads where
  recorder := (s.recorder.putFsync (s.sample i duration)).wrap cap
  phase := Function.update s.phase i .idle
  calls := Function.update s.calls i (s.calls i + 1)
  completed := s.completed + 1

def system (cap threads : Nat) : System (State threads) (Step threads) where
  init s := s = .initial cap threads
  step
    | s, .fflush i duration, t => s.phase i = .idle ∧ t = s.fflush i duration
    | s, .fileno i duration, t => s.phase i = .flushed ∧ t = s.fileno i duration
    | s, .fsync i duration, t => s.phase i = .numbered ∧ t = s.fsync cap i duration

def WrittenBy (time : List (Option (Sample threads))) (k : Nat) (call : CallId threads) : Prop :=
  ∃ duration, time[k]? = some (some { call, duration })

def State.Matched (s : State threads) (k : Nat) : Prop :=
  ∃ call, WrittenBy s.recorder.fflushTime k call ∧ WrittenBy s.recorder.filenoTime k call
    ∧ WrittenBy s.recorder.fsyncTime k call

/--
As long as fewer than `cap` calls have completed, each of them has a slot of its own.
-/
def Unmixed (cap : Nat) (S : System (State threads) (Step threads)) : Prop :=
  ∀ s, S.Reachable s → s.completed < cap →
    s.recorder.count = s.completed ∧ ∀ k, k < s.recorder.count → s.Matched k

def Serial (s : State threads) : Step threads → Prop
  | .fflush _ _ => ∀ j, s.phase j = .idle
  | .fileno _ _ => True
  | .fsync _ _ => True

structure State.Counted (cap : Nat) (s : State threads) : Prop where
  fflush_length : s.recorder.fflushTime.length = cap
  fileno_length : s.recorder.filenoTime.length = cap
  fsync_length : s.recorder.fsyncTime.length = cap
  count_eq : s.completed < cap → s.recorder.count = s.completed

theorem State.Counted.step {s t : State threads} {a : Step threads} (h : s.Counted cap)
    (hstep : (system cap threads).step s a t) : t.Counted cap := by
  have hlen1 := h.fflush_length
  have hlen2 := h.fileno_length
  have hlen3 := h.fsync_length
  cases a with
  | fflush i duration =>
    obtain ⟨-, rfl⟩ := hstep
    exact { h with fflush_length := by simpa [State.fflush, SyncRecorder.putFflush] using hlen1 }
  | fileno i duration =>
    obtain ⟨-, rfl⟩ := hstep
    exact { h with fileno_length := by simpa [State.fileno, SyncRecorder.putFileno] using hlen2 }
  | fsync i duration =>
    obtain ⟨-, rfl⟩ := hstep
    refine ⟨by simpa [State.fsync, SyncRecorder.putFsync] using hlen1,
      by simpa [State.fsync, SyncRecorder.putFsync] using hlen2,
      by simpa [State.fsync, SyncRecorder.putFsync] using hlen3, ?_⟩
    intro hlt
    replace hlt : s.completed + 1 < cap := hlt
    have hcount := h.count_eq (by omega)
    have hne : (s.recorder.putFsync (s.sample i duration)).count ≠ cap := by
      simp only [SyncRecorder.putFsync]
      omega
    rw [State.fsync, SyncRecorder.wrap_of_ne hne]
    simp only [SyncRecorder.putFsync, hcount]

theorem counted_of_reachable {s : State threads} (h : (system cap threads).Reachable s)
    : s.Counted cap := by
  refine h.invariant ?_ (fun _ _ _ hs hstep => hs.step hstep)
  intro s hs
  cases hs
  exact
    { fflush_length := by simp [State.initial]
      fileno_length := by simp [State.initial]
      fsync_length := by simp [State.initial]
      count_eq := fun _ => rfl }

section WrittenBy

variable {time : List (Option (Sample threads))} {k n : Nat} {call : CallId threads}
  {x : Option (Sample threads)}

theorem WrittenBy.set_ne (h : WrittenBy time k call) (hne : n ≠ k)
    : WrittenBy (time.set n x) k call := by
  obtain ⟨duration, h⟩ := h
  refine ⟨duration, ?_⟩
  rw [List.getElem?_set_ne hne]
  exact h

theorem WrittenBy.set_eq {duration : Int} (hlt : k < time.length)
    : WrittenBy (time.set k (some { call, duration })) k call :=
  ⟨duration, by simp [hlt]⟩

theorem WrittenBy.unique {call' : CallId threads} (h : WrittenBy time k call)
    (h' : WrittenBy time k call') : call = call' := by
  obtain ⟨duration, h⟩ := h
  obtain ⟨duration', h'⟩ := h'
  rw [h] at h'
  simp only [Option.some.injEq, Sample.mk.injEq] at h'
  exact h'.1

end WrittenBy

structure State.Serialised (cap : Nat) (s : State threads) : Prop where
  counted : s.Counted cap
  unique : ∀ i j, s.phase i ≠ .idle → s.phase j ≠ .idle → i = j
  matched : s.completed < cap → ∀ k, k < s.completed → s.Matched k
  flushed : s.completed < cap → ∀ i, s.phase i ≠ .idle →
    WrittenBy s.recorder.fflushTime s.completed { thread := i, number := s.calls i }
  numbered : s.completed < cap → ∀ i, s.phase i = .numbered →
    WrittenBy s.recorder.filenoTime s.completed { thread := i, number := s.calls i }

namespace State.Serialised

variable {s : State threads} {i : Fin threads} {duration : Int}

theorem fflush (h : s.Serialised cap) (hidle : ∀ j, s.phase j = .idle)
    : (s.fflush i duration).Serialised cap := by
  have hcounted := h.counted.step (a := .fflush i duration) ⟨hidle i, rfl⟩
  have hphase : ∀ j, (s.fflush i duration).phase j ≠ .idle → j = i := by
    intro j hj
    simp only [State.fflush, Function.update_apply] at hj
    split at hj
    . assumption
    . exact absurd (hidle j) hj
  refine ⟨hcounted, ?_, ?_, ?_, ?_⟩
  . intro j k hj hk
    rw [hphase j hj, hphase k hk]
  . intro hlt k hk
    obtain ⟨call, h1, h2, h3⟩ := h.matched hlt k hk
    have hne : s.recorder.count ≠ k := by
      rw [h.counted.count_eq hlt]
      exact Nat.ne_of_gt hk
    exact ⟨call, h1.set_ne hne, h2, h3⟩
  . intro hlt j hj
    rw [hphase j hj]
    simp only [State.fflush, SyncRecorder.putFflush]
    rw [h.counted.count_eq hlt]
    exact WrittenBy.set_eq (by rw [h.counted.fflush_length]; exact hlt)
  . intro hlt j hj
    have := hphase j (by rw [hj]; decide)
    subst this
    simp [State.fflush] at hj

theorem fileno (h : s.Serialised cap) (hi : s.phase i = .flushed)
    : (s.fileno i duration).Serialised cap := by
  have hcounted := h.counted.step (a := .fileno i duration) ⟨hi, rfl⟩
  have hphase : ∀ j, (s.fileno i duration).phase j ≠ .idle → j = i := by
    intro j hj
    simp only [State.fileno, Function.update_apply] at hj
    split at hj
    . assumption
    . exact h.unique j i hj (by rw [hi]; decide)
  refine ⟨hcounted, ?_, ?_, ?_, ?_⟩
  . intro j k hj hk
    rw [hphase j hj, hphase k hk]
  . intro hlt k hk
    obtain ⟨call, h1, h2, h3⟩ := h.matched hlt k hk
    have hne : s.recorder.count ≠ k := by
      rw [h.counted.count_eq hlt]
      exact Nat.ne_of_gt hk
    exact ⟨call, h1, h2.set_ne hne, h3⟩
  . intro hlt j hj
    rw [hphase j hj]
    exact h.flushed hlt i (by rw [hi]; decide)
  . intro hlt j hj
    rw [hphase j (by rw [hj]; decide)]
    simp only [State.fileno, SyncRecorder.putFileno]
    rw [h.counted.count_eq hlt]
    exact WrittenBy.set_eq (by rw [h.counted.fileno_length]; exact hlt)

theorem fsync (h : s.Serialised cap) (hi : s.phase i = .numbered)
    : (s.fsync cap i duration).Serialised cap := by
  have hcounted := h.counted.step (a := .fsync i duration) ⟨hi, rfl⟩
  have hphase : ∀ j, (s.fsync cap i duration).phase j = .idle := by
    intro j
    simp only [State.fsync, Function.update_apply]
    split
    . rfl
    . next hne =>
      by_contra hj
      exact hne (h.unique j i hj (by rw [hi]; decide))
  refine ⟨hcounted, ?_, ?_, ?_, ?_⟩
  . intro j k hj hk
    exact absurd (hphase j) hj
  . intro hlt k hk
    replace hlt : s.completed < cap := Nat.lt_of_succ_lt hlt
    have hcount := h.counted.count_eq hlt
    simp only [State.Matched, State.fsync, SyncRecorder.wrap_fflushTime,
      SyncRecorder.wrap_filenoTime, SyncRecorder.wrap_fsyncTime, SyncRecorder.putFsync, hcount]
    cases Nat.eq_or_lt_of_le (Nat.le_of_lt_succ hk) with
    | inl heq =>
      subst heq
      refine ⟨{ thread := i, number := s.calls i }, ?_, ?_, ?_⟩
      . exact h.flushed hlt i (by rw [hi]; decide)
      . exact h.numbered hlt i hi
      . exact WrittenBy.set_eq (by rw [h.counted.fsync_length]; exact hlt)
    | inr hk =>
      obtain ⟨call, h1, h2, h3⟩ := h.matched hlt k hk
      exact ⟨call, h1, h2, h3.set_ne (Nat.ne_of_gt hk)⟩
  . intro hlt j hj
    exact absurd (hphase j) hj
  . intro hlt j hj
    rw [hphase j] at hj
    cases hj

theorem initial : (State.initial cap threads).Serialised cap where
  counted := counted_of_reachable (.of_init rfl)
  unique := by simp [State.initial]
  matched := by simp [State.initial]
  flushed := by simp [State.initial]
  numbered := by simp [State.initial]

end State.Serialised

theorem serialised_of_reachable {s : State threads}
    (h : ((system cap threads).restrict Serial).Reachable s) : s.Serialised cap := by
  refine h.invariant ?_ ?_
  . intro s hs
    cases hs
    exact .initial
  . intro s a t hs hstep
    cases a with
    | fflush i duration =>
      obtain ⟨hidle, -, rfl⟩ := hstep
      exact hs.fflush hidle
    | fileno i duration =>
      obtain ⟨-, hi, rfl⟩ := hstep
      exact hs.fileno hi
    | fsync i duration =>
      obtain ⟨-, hi, rfl⟩ := hstep
      exact hs.fsync hi

theorem unmixed_serial : Unmixed cap ((system cap threads).restrict Serial) := by
  intro s hs hlt
  have hser := serialised_of_reachable hs
  rw [hser.counted.count_eq hlt]
  exact ⟨rfl, hser.matched hlt⟩

theorem unmixed_single : Unmixed cap (system cap 1) := by
  have hserial : ∀ s a t, (system cap 1).step s a t → Serial s a := by
    intro s a t hstep
    cases a with
    | fflush i duration =>
      intro j
      rw [Subsingleton.elim j i]
      exact hstep.1
    | fileno i duration => trivial
    | fsync i duration => trivial
  intro s hs
  exact unmixed_serial s (hs.restrict hserial)

theorem not_unmixed_of_two {i j : Fin threads} (hij : i ≠ j) (hcap : 1 < cap)
    : ¬ Unmixed cap (system cap threads) := by
  -- the second thread flushes before the first has its descriptor
  intro h
  let s₀ := State.initial cap threads
  let s₁ := s₀.fflush i 0
  let s₂ := s₁.fflush j 0
  let s₃ := s₂.fileno i 0
  let s₄ := s₃.fsync cap i 0
  have hrun₁ : (system cap threads).Reachable s₁ :=
    (System.Reachable.of_init rfl).step (a := .fflush i 0) ⟨rfl, rfl⟩
  have hrun₂ : (system cap threads).Reachable s₂ :=
    hrun₁.step (a := .fflush j 0) ⟨by simp [s₁, s₀, State.fflush, State.initial, hij.symm], rfl⟩
  have hrun₃ : (system cap threads).Reachable s₃ :=
    hrun₂.step (a := .fileno i 0) ⟨by simp [s₂, s₁, State.fflush, hij], rfl⟩
  have hrun₄ : (system cap threads).Reachable s₄ :=
    hrun₃.step (a := .fsync i 0) ⟨by simp [s₃, State.fileno], rfl⟩
  obtain ⟨hcount, hmatched⟩ := h s₄ hrun₄ hcap
  replace hcount : s₄.recorder.count = 1 := hcount
  obtain ⟨call, hflush, hfileno, -⟩ := hmatched 0 (by omega)
  have hflush_j : WrittenBy s₄.recorder.fflushTime 0 { thread := j, number := 0 } := by
    have hset : s₄.recorder.fflushTime = s₁.recorder.fflushTime.set 0 (s₁.sample j 0) := by
      simp [s₄, s₃, s₂, State.fflush, State.fileno, State.fsync, SyncRecorder.putFflush,
        SyncRecorder.putFileno, SyncRecorder.putFsync, s₁, s₀, State.initial]
    have hlen := (counted_of_reachable hrun₁).fflush_length
    rw [hset]
    exact WrittenBy.set_eq (by omega)
  have hfileno_i : WrittenBy s₄.recorder.filenoTime 0 { thread := i, number := 0 } := by
    have hset : s₄.recorder.filenoTime = s₂.recorder.filenoTime.set 0 (s₂.sample i 0) := by
      simp [s₄, s₃, State.fileno, State.fsync, SyncRecorder.putFileno, SyncRecorder.putFsync, s₂,
        s₁, s₀, State.fflush, SyncRecorder.putFflush, State.initial]
    have hlen := (counted_of_reachable hrun₂).fileno_length
    rw [hset]
    exact WrittenBy.set_eq (by omega)
  have hcall := (hflush_j.unique hflush).trans (hfileno.unique hfileno_i)
  simp only [CallId.mk.injEq] at hcall
  exact hij hcall.1.symm

end SyncStep

theorem fsync_unmixed_iff {jobsNum : Nat} (hjobs : 1 ≤ jobsNum)
    : (∀ s, (SyncStep.system MAX_FSYNC jobsNum).Reachable s →
        s.completed < MAX_FSYNC → s.recorder.count = s.completed)
      ∧ SyncStep.Unmixed MAX_FSYNC ((SyncStep.system MAX_FSYNC jobsNum).restrict SyncStep.Serial)
      ∧ (SyncStep.Unmixed MAX_FSYNC (SyncStep.system MAX_FSYNC jobsNum) ↔ jobsNum = 1) := by
  refine ⟨fun s hs => (SyncStep.counted_of_reachable hs).count_eq, SyncStep.unmixed_serial, ?_, ?_⟩
  . intro h
    by_contra hne
    have hij : (⟨0, by omega⟩ : Fin jobsNum) ≠ ⟨1, by omega⟩ := by simp
    exact SyncStep.not_unmixed_of_two hij (by decide) h
  . intro h
    subst h
    exact SyncStep.unmixed_single

theorem fsync_unmixed_iff_two
    : (∀ s, (SyncStep.system MAX_FSYNC 2).Reachable s →
        s.completed < MAX_FSYNC → s.recorder.count = s.completed)
      ∧ SyncStep.Unmixed MAX_FSYNC ((SyncStep.system MAX_FSYNC 2).restrict SyncStep.Serial)
      ∧ (SyncStep.Unmixed MAX_FSYNC (SyncStep.system MAX_FSYNC 2) ↔ 2 = 1) :=
  fsync_unmixed_iff (by decide)

theorem fsync_not_unmixed : ¬ SyncStep.Unmixed MAX_FSYNC (SyncStep.system MAX_FSYNC 2) :=
  SyncStep.not_unmixed_of_two (i := 0) (j := 1) (by decide) (by decide)

end FsBench
