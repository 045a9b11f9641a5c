import FsBench.Lib.System
import FsBench.Recorder.Stats
import Mathlib.Data.List.Perm.Subperm
import Mathlib.Logic.Function.Basic

/-!
The recording of a duration as the machine does it: `time[count++] = duration` loads the index, and
stores the next one and the duration in any order, and other threads come between.
-/

namespace FsBench

namespace TornStep

variable {threads cap : Nat}

/--
Where a thread is in a recording call. `counted` and `stored` say which of the two stores have been
done, `raised` and `reset` which of those to the flag and to `count` when the array is full.
-/
inductive Phase where
  | idle
  | storing (index : Nat) (duration : Int) (counted stored : Bool)
  | wrapping (raised reset : Bool)
deriving DecidableEq

structure State (threads : Nat) where
  recorder : Recorder Int
  phase : Fin threads → Phase
  calls : List (Nat × Int)

inductive Step (threads : Nat) where
  | load (i : Fin threads) (duration : Int)
  | count (i : Fin threads)
  | store (i : Fin threads)
  | compare (i : Fin threads)
  | raise (i : Fin threads)
  | reset (i : Fin threads)
  | leave (i : Fin threads)

namespace State

variable (s : State threads) (i : Fin threads)

def enter (phase : Phase) : State threads :=
  { s with phase := Function.update s.phase i phase }

def load (duration : Int) : State threads :=
  { s.enter i (.storing s.recorder.count duration false false) with
    calls := (s.recorder.count, duration) :: s.calls }

def count (index : Nat) (duration : Int) (stored : Bool) : State threads :=
  { s.enter i (.storing index duration true stored) with
    recorder := { s.recorder with count := index + 1 } }

/--
Behind the end of the array the store changes something else.
-/
def store (index : Nat) (duration : Int) (counted : Bool) : State threads :=
  { s.enter i (.storing index duration counted true) with
    recorder := { s.recorder with time := s.recorder.time.set index duration } }

def compare (cap : Nat) : State threads :=
  s.enter i (if s.recorder.count = cap then .wrapping false false else .idle)

def raise (reset : Bool) : State threads :=
  { s.enter i (.wrapping true reset) with recorder := { s.recorder with flag := 1 } }

def reset (raised : Bool) : State threads :=
  { s.enter i (.wrapping raised true) with recorder := { s.recorder with count := 0 } }

end State

def system (cap threads : Nat) : System (State threads) (Step threads) where
  init s := s = { recorder := .initial cap, phase := fun _ => .idle, calls := [] }
  step s a t :=
    match a with
    | .load i duration => s.phase i = .idle ∧ t = s.load i duration
    | .count i => ∃ index duration stored, s.phase i = .storing index duration false stored
        ∧ t = s.count i index duration stored
    | .store i => ∃ index duration counted, s.phase i = .storing index duration counted false
        ∧ t = s.store i index duration counted
    | .compare i => ∃ index duration, s.phase i = .storing index duration true true
        ∧ t = s.compare i cap
    | .raise i => ∃ reset, s.phase i = .wrapping false reset ∧ t = s.raise i reset
    | .reset i => ∃ raised, s.phase i = .wrapping raised false ∧ t = s.reset i raised
    | .leave i => s.phase i = .wrapping true true ∧ t = s.enter i .idle

namespace State

variable {s t : State threads} {i : Fin threads} {index k n : Nat} {duration : Int}
  {counted stored : Bool}

def Filled (s : State threads) (k : Nat) : Prop :=
  ∃ duration, s.recorder.time[k]? = some duration ∧ (k, duration) ∈ s.calls

def Taken (s : State threads) (k : Nat) : Prop :=
  ∃ i duration counted, s.phase i = .storing k duration counted false

def Covered (s : State threads) (n : Nat) : Prop :=
  ∀ k, k < n → s.Filled k ∨ s.Taken k

def Fits (s : State threads) : Phase → Prop
  | .idle => True
  | .storing index duration _ stored => (index, duration) ∈ s.calls ∧ index < s.calls.length
    ∧ s.Covered index ∧ (stored = true → s.Filled index)
  | .wrapping _ _ => False

structure Sound (cap : Nat) (s : State threads) : Prop where
  length_eq : s.recorder.time.length = cap
  flag_eq : s.recorder.flag = 0
  count_le : s.recorder.count ≤ s.calls.length
  covered : s.Covered s.recorder.count
  fits : ∀ i, s.Fits (s.phase i)
  count_ne : s.calls ≠ [] → s.recorder.count ≠ 0
    ∨ ∃ i index duration stored, s.phase i = .storing index duration false stored

structure Keeps (s t : State threads) : Prop where
  calls : s.calls <:+ t.calls
  filled : ∀ k, s.Filled k → t.Filled k
  taken : ∀ k, s.Taken k → t.Filled k ∨ t.Taken k

theorem Keeps.covered (h : s.Keeps t) (hcovered : s.Covered n) : t.Covered n := by
  intro k hk
  rcases hcovered k hk with hfilled | htaken
  . exact .inl (h.filled k hfilled)
  . exact h.taken k htaken

theorem Keeps.fits (h : s.Keeps t) {phase : Phase} (hphase : s.Fits phase) : t.Fits phase := by
  cases phase with
  | idle => trivial
  | storing =>
    obtain ⟨hcall, hlt, hcovered, hfilled⟩ := hphase
    exact ⟨h.calls.subset hcall, Nat.lt_of_lt_of_le hlt h.calls.length_le, h.covered hcovered,
      fun hstored => h.filled _ (hfilled hstored)⟩
  | wrapping => exact hphase

theorem Keeps.fits_update (h : s.Keeps t) (hs : ∀ j, s.Fits (s.phase j)) {phase : Phase}
    (ht : t.phase = Function.update s.phase i phase) (hphase : t.Fits phase) (j : Fin threads)
    : t.Fits (t.phase j) := by
  rw [ht]
  by_cases hj : j = i
  . rw [hj, Function.update_self]
    exact hphase
  . rw [Function.update_of_ne hj]
    exact h.fits (hs j)

theorem ne_of_phase {j : Fin threads} {phase phase' : Phase} (hi : s.phase i = phase)
    (hj : s.phase j = phase') (hne : phase' ≠ phase) : j ≠ i := by
  rintro rfl
  exact hne (hj.symm.trans hi)

theorem Keeps.load (hi : s.phase i = .idle) : s.Keeps (s.load i duration) where
  calls := List.suffix_cons ..
  filled := by
    rintro k ⟨d, htime, hcall⟩
    exact ⟨d, htime, List.mem_cons_of_mem _ hcall⟩
  taken := by
    rintro k ⟨j, d, counted, hj⟩
    have hne := ne_of_phase hi hj (by simp)
    exact .inr ⟨j, d, counted, (Function.update_of_ne hne ..).trans hj⟩

theorem Sound.load (h : s.Sound cap) (hi : s.phase i = .idle)
    : (s.load i duration).Sound cap := by
  have hkeeps : s.Keeps (s.load i duration) := .load hi
  have hcovered : (s.load i duration).Covered s.recorder.count := hkeeps.covered h.covered
  refine ⟨h.length_eq, h.flag_eq, Nat.le_succ_of_le h.count_le, hcovered,
    hkeeps.fits_update h.fits rfl ?_, ?_⟩
  . exact ⟨List.mem_cons_self, Nat.lt_succ_of_le h.count_le, hcovered, nofun⟩
  . intro _
    exact .inr ⟨i, _, _, _, Function.update_self ..⟩

theorem Keeps.count (hi : s.phase i = .storing index duration false stored)
    : s.Keeps (s.count i index duration stored) where
  calls := List.suffix_rfl
  filled _ h := h
  taken := by
    rintro k ⟨j, d, counted, hj⟩
    right
    by_cases hji : j = i
    . subst hji
      rw [hi] at hj
      cases hj
      exact ⟨j, duration, true, Function.update_self ..⟩
    . exact ⟨j, d, counted, (Function.update_of_ne hji ..).trans hj⟩

theorem Sound.count (h : s.Sound cap) (hi : s.phase i = .storing index duration false stored)
    : (s.count i index duration stored).Sound cap := by
  have hkeeps := Keeps.count hi
  have hfits := h.fits i
  rw [hi] at hfits
  obtain ⟨hcall, hlt, hcovered, hfilled⟩ := hfits
  refine ⟨h.length_eq, h.flag_eq, hlt, ?_, hkeeps.fits_update h.fits rfl ?_,
    fun _ => .inl (Nat.succ_ne_zero index)⟩
  . -- below the index the slots were covered when it was loaded, and its own is this thread's
    intro k hk
    rcases Nat.lt_succ_iff_lt_or_eq.mp hk with hlow | rfl
    . exact hkeeps.covered hcovered k hlow
    . cases stored with
      | true => exact .inl (hfilled rfl)
      | false => exact .inr ⟨i, duration, true, Function.update_self ..⟩
  . exact ⟨hcall, hlt, hkeeps.covered hcovered, hfilled⟩

theorem Filled.store (h : s.Sound cap) (hfew : s.calls.length < cap)
    (hi : s.phase i = .storing index duration counted false)
    : (s.store i index duration counted).Filled index := by
  have hfits := h.fits i
  rw [hi] at hfits
  obtain ⟨hcall, hlt, _⟩ := hfits
  refine ⟨duration, List.getElem?_set_self ?_, hcall⟩
  rw [h.length_eq]
  omega

theorem Keeps.store (h : s.Sound cap) (hfew : s.calls.length < cap)
    (hi : s.phase i = .storing index duration counted false)
    : s.Keeps (s.store i index duration counted) where
  calls := List.suffix_rfl
  filled := by
    rintro k ⟨d, htime, hcall⟩
    by_cases hk : k = index
    . rw [hk]
      exact .store h hfew hi
    . exact ⟨d, (List.getElem?_set_ne (Ne.symm hk)).trans htime, hcall⟩
  taken := by
    rintro k ⟨j, d, counted', hj⟩
    by_cases hji : j = i
    . subst hji
      rw [hi] at hj
      cases hj
      exact .inl (.store h hfew hi)
    . exact .inr ⟨j, d, counted', (Function.update_of_ne hji ..).trans hj⟩

theorem Sound.store (h : s.Sound cap) (hfew : s.calls.length < cap)
    (hi : s.phase i = .storing index duration counted false)
    : (s.store i index duration counted).Sound cap := by
  have hkeeps := Keeps.store h hfew hi
  have hfits := h.fits i
  rw [hi] at hfits
  obtain ⟨hcall, hlt, hcovered, _⟩ := hfits
  refine ⟨(List.length_set ..).trans h.length_eq, h.flag_eq, h.count_le, hkeeps.covered h.covered,
    hkeeps.fits_update h.fits rfl ⟨hcall, hlt, hkeeps.covered hcovered, fun _ => .store h hfew hi⟩,
    ?_⟩
  intro hcalls
  rcases h.count_ne hcalls with hne | ⟨j, index', d, stored, hj⟩
  . exact .inl hne
  . right
    by_cases hji : j = i
    . subst hji
      rw [hi] at hj
      cases hj
      exact ⟨j, index, duration, true, Function.update_self ..⟩
    . exact ⟨j, index', d, stored, (Function.update_of_ne hji ..).trans hj⟩

theorem Sound.compare (h : s.Sound cap) (hfew : s.calls.length < cap)
    (hi : s.phase i = .storing index duration true true) : (s.compare i cap).Sound cap := by
  have hcount : s.recorder.count ≠ cap := Nat.ne_of_lt (Nat.lt_of_le_of_lt h.count_le hfew)
  rw [State.compare, if_neg hcount]
  have hkeeps : s.Keeps (s.enter i .idle) := by
    refine ⟨List.suffix_rfl, fun _ hfilled => hfilled, ?_⟩
    rintro k ⟨j, d, counted, hj⟩
    have hne := ne_of_phase hi hj (by simp)
    exact .inr ⟨j, d, counted, (Function.update_of_ne hne ..).trans hj⟩
  refine ⟨h.length_eq, h.flag_eq, h.count_le, hkeeps.covered h.covered,
    hkeeps.fits_update h.fits rfl trivial, ?_⟩
  intro hcalls
  rcases h.count_ne hcalls with hne | ⟨j, index', d, stored, hj⟩
  . exact .inl hne
  . have hne := ne_of_phase hi hj (by simp)
    exact .inr ⟨j, index', d, stored, (Function.update_of_ne hne ..).trans hj⟩

theorem Sound.not_wrapping (h : s.Sound cap) {raised reset : Bool}
    (hi : s.phase i = .wrapping raised reset) : False := by
  have hfits := h.fits i
  rw [hi] at hfits
  exact hfits

end State

theorem State.Sound.initial (hcap : 0 < cap) : State.Sound cap
    ({ recorder := .initial cap, phase := fun _ => .idle, calls := [] } : State threads) where
  length_eq := by
    simp only [Recorder.initial, initialTime, List.length_cons, List.length_replicate]
    omega
  flag_eq := rfl
  count_le := Nat.le_refl 0
  covered := nofun
  fits _ := trivial
  count_ne hcalls := absurd rfl hcalls

theorem calls_suffix {s t : State threads} {a : Step threads} (h : (system cap threads).step s a t)
    : s.calls <:+ t.calls := by
  cases a with
  | load i duration =>
    obtain ⟨_, rfl⟩ := h
    exact List.suffix_cons ..
  | count =>
    obtain ⟨_, _, _, _, rfl⟩ := h
    exact List.suffix_rfl
  | store =>
    obtain ⟨_, _, _, _, rfl⟩ := h
    exact List.suffix_rfl
  | compare =>
    obtain ⟨_, _, _, rfl⟩ := h
    exact List.suffix_rfl
  | raise =>
    obtain ⟨_, _, rfl⟩ := h
    exact List.suffix_rfl
  | reset =>
    obtain ⟨_, _, rfl⟩ := h
    exact List.suffix_rfl
  | leave =>
    obtain ⟨_, rfl⟩ := h
    exact List.suffix_rfl

theorem sound_of_reachable {s : State threads} (h : (system cap threads).Reachable s)
    (hfew : s.calls.length < cap) : s.Sound cap := by
  refine System.Reachable.invariant
    (?_ : ∀ s, _ → s.calls.length < cap → State.Sound cap s) ?_ h hfew
  . rintro s rfl hfew
    exact .initial hfew
  . intro s a t hinv hstep hfew
    have hle := (calls_suffix hstep).length_le
    have hs : s.calls.length < cap := by omega
    have hsound := hinv hs
    cases a with
    | load i duration =>
      obtain ⟨hi, rfl⟩ := hstep
      exact hsound.load hi
    | count i =>
      obtain ⟨_, _, _, hi, rfl⟩ := hstep
      exact hsound.count hi
    | store i =>
      obtain ⟨_, _, _, hi, rfl⟩ := hstep
      exact hsound.store hs hi
    | compare i =>
      obtain ⟨_, _, hi, rfl⟩ := hstep
      exact hsound.compare hs hi
    | raise i =>
      obtain ⟨_, hi, rfl⟩ := hstep
      exact (hsound.not_wrapping hi).elim
    | reset i =>
      obtain ⟨_, hi, rfl⟩ := hstep
      exact (hsound.not_wrapping hi).elim
    | leave i =>
      obtain ⟨hi, rfl⟩ := hstep
      exact (hsound.not_wrapping hi).elim

theorem State.Sound.window {s : State threads} (h : s.Sound cap) (hidle : ∀ i, s.phase i = .idle)
    : (s.recorder.time.take s.recorder.count).Subperm (s.calls.map Prod.snd) := by
  have hfilled (k : Nat) (hk : k < s.recorder.count) : s.Filled k := by
    rcases h.covered k hk with hfilled | ⟨i, _, _, hi⟩
    . exact hfilled
    . rw [hidle i] at hi
      cases hi
  let taken := (List.range s.recorder.count).map fun k => (k, s.recorder.time.getD k 0)
  have hnodup : taken.Nodup :=
    List.nodup_range.map fun _ _ heq => congrArg Prod.fst heq
  have hsubset : taken ⊆ s.calls := by
    intro call hcall
    obtain ⟨k, hk, rfl⟩ := List.mem_map.mp hcall
    obtain ⟨d, htime, hmem⟩ := hfilled k (List.mem_range.mp hk)
    rw [List.getD_eq_getElem?_getD, htime]
    exact hmem
  have hwindow : taken.map Prod.snd = s.recorder.time.take s.recorder.count := by
    apply List.ext_getElem?
    intro k
    rw [List.getElem?_map, List.getElem?_map, List.getElem?_take]
    split
    . next hk =>
      obtain ⟨d, htime, _⟩ := hfilled k hk
      rw [List.getElem?_range hk, htime, Option.map_some, Option.map_some,
        List.getD_eq_getElem?_getD, htime, Option.getD_some]
    . next hk =>
      rw [List.getElem?_eq_none (by simpa using hk)]
      rfl
  obtain ⟨calls, hperm, hsublist⟩ := hnodup.subperm hsubset
  rw [← hwindow]
  exact ⟨calls.map Prod.snd, hperm.map _, hsublist.map _⟩

end TornStep

open TornStep in
theorem torn_reported {cap threads : Nat} {s : State threads} (h : (system cap threads).Reachable s)
    (hfew : s.calls.length < cap)
    : (∀ i index duration counted, s.phase i = .storing index duration counted false →
        index < s.recorder.time.length)
      ∧ ((∀ i, s.phase i = .idle) → ∃ window : List Int, window.Subperm (s.calls.map Prod.snd)
        ∧ (s.calls ≠ [] → window ≠ [])
        ∧ ∀ long assumed sum info,
          if window.length < 2 then
            bench long assumed sum s.recorder info = some (s.recorder, info)
              ∧ benchSumFirst long assumed sum s.recorder info = some (s.recorder, info)
          else
            ∃ next rep, bench long assumed sum s.recorder info = some (next, rep)
              ∧ benchSumFirst long assumed sum s.recorder info = some (next, rep)
              ∧ rep.Summarises long sum window) := by
  have hsound := sound_of_reachable h hfew
  refine ⟨?_, ?_⟩
  . intro i index duration counted hi
    have hfits := hsound.fits i
    rw [hi] at hfits
    rw [hsound.length_eq]
    exact Nat.lt_trans hfits.2.1 hfew
  . intro hidle
    have hle := hsound.count_le
    have hlength := hsound.length_eq
    have hwindow : (s.recorder.time.take s.recorder.count).length = s.recorder.count := by
      rw [List.length_take]
      omega
    have hassumed (assumed : Nat) : s.recorder.length assumed = s.recorder.count := by
      rw [Recorder.length, hsound.flag_eq]
      rfl
    refine ⟨s.recorder.time.take s.recorder.count, hsound.window hidle, ?_, ?_⟩
    . intro hcalls hempty
      rw [hempty] at hwindow
      rcases hsound.count_ne hcalls with hne | ⟨i, _, _, _, hi⟩
      . exact hne hwindow.symm
      . rw [hidle i] at hi
        cases hi
    . intro long assumed sum info
      have hinside : s.recorder.length assumed ≤ s.recorder.time.length := by
        rw [hassumed]
        omega
      rw [hwindow]
      split
      . next hshort =>
        rw [← hassumed assumed] at hshort
        exact ⟨bench_short long sum info hshort, benchSumFirst_short long sum info hinside hshort⟩
      . next hlong =>
        rw [← hassumed assumed, Nat.not_lt] at hlong
        obtain ⟨next, rep, hbench, hsumFirst, hsummarises, _⟩ :=
          bench_spec long sum info hinside hlong
        rw [hassumed] at hsummarises
        exact ⟨next, rep, hbench, hsumFirst, hsummarises⟩

namespace Overlap

/-!
Two threads that both load the index 0.
-/

open TornStep

abbrev threads : System (State 2) (Step 2) := system MAX_FOPEN 2

def loaded : State 2 :=
  (State.load { recorder := .initial MAX_FOPEN, phase := fun _ => .idle, calls := [] } 0 3).load 1 5

def first : State 2 := (loaded.count 0 0 3 false).store 0 0 3 true

def both : State 2 := (first.count 1 0 5 false).store 1 0 5 true

def last : State 2 := (both.compare 0 MAX_FOPEN).compare 1 MAX_FOPEN

theorem first_reachable : threads.Reachable first := by
  let start : State 2 := { recorder := .initial MAX_FOPEN, phase := fun _ => .idle, calls := [] }
  have hload₀ : threads.step start (.load 0 3) (start.load 0 3) := ⟨rfl, rfl⟩
  have hload₁ : threads.step (start.load 0 3) (.load 1 5) loaded := ⟨rfl, rfl⟩
  have hcount : threads.step loaded (.count 0) (loaded.count 0 0 3 false) :=
    ⟨0, 3, false, rfl, rfl⟩
  have hstore : threads.step (loaded.count 0 0 3 false) (.store 0) first := ⟨0, 3, true, rfl, rfl⟩
  exact (((System.Reachable.of_init rfl).step hload₀).step hload₁).step hcount |>.step hstore

theorem last_reachable : threads.Reachable last := by
  have hcount : threads.step first (.count 1) (first.count 1 0 5 false) := ⟨0, 5, false, rfl, rfl⟩
  have hstore : threads.step (first.count 1 0 5 false) (.store 1) both := ⟨0, 5, true, rfl, rfl⟩
  have hcompare₀ : threads.step both (.compare 0) (both.compare 0 MAX_FOPEN) := ⟨0, 3, rfl, rfl⟩
  have hcompare₁ : threads.step (both.compare 0 MAX_FOPEN) (.compare 1) last := ⟨0, 5, rfl, rfl⟩
  exact ((first_reachable.step hcount).step hstore).step hcompare₀ |>.step hcompare₁

end Overlap

theorem torn_reported_overlap
    : Overlap.last.recorder.count = 1
      ∧ ∃ window : List Int, window.Subperm [5, 3] ∧ window ≠ [] := by
  refine ⟨rfl, ?_⟩
  obtain ⟨_, hreport⟩ := torn_reported Overlap.last_reachable (by decide)
  obtain ⟨window, hsubperm, hne, _⟩ := hreport (by decide)
  exact ⟨window, hsubperm, hne (by decide)⟩

end FsBench
