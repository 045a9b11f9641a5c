import FsBench.Bench.Jobs
import FsBench.Recorder.Basic
import FsBench.Lib.Loop

/-!
The options of main, from what `getopt_long` returns to the values that the run goes on with.
-/

namespace FsBench

def FSBENCH_VERSION : CStr := "1.0.7".toList

/--
The variables of main that the options set.
-/
structure Settings where
  devname : Option CStr
  jobsNum : Int
  nobypass : Bool
  cometfilenum : Int
  filesize : Nat
  rwsize : Nat
  csvfilename : Option CStr

def Settings.initial : Settings where
  devname := none
  jobsNum := 0
  nobypass := true
  cometfilenum := 0
  filesize := 210
  rwsize := 512
  csvfilename := none

/--
What `getopt_long` returns, under the names of the long options. `help` is every other character too.
-/
inductive Opt where
  | devname (optarg : CStr)
  | version
  | jobs (optarg : CStr)
  | comet (optarg : CStr)
  | pass
  | lenght (optarg : CStr)
  | prerwsize (optarg : CStr)
  | outfile (optarg : CStr)
  | help (c : Nat)

/--
Leaving main: what is printed on the standard output, whether the usage is printed behind it, and what
is returned. `usage` has no return statement.
-/
structure Exit where
  printed : CStr
  usage : Bool
  status : Option Int

def Exit.ofUsage (printed : CStr) : Exit where
  printed := printed
  usage := true
  status := none

namespace Settings

def within (s : Settings) (n max : Int) (error : CStr) : Except Exit Settings :=
  if n < 1 ∨ n > max then .error (.ofUsage error) else .ok s

def jobs (s : Settings) (optarg : CStr) : Except Exit Settings :=
  let s := { s with jobsNum := Word.toSigned 32 (strtoull optarg).1 }
  s.within s.jobsNum 64 ("args jobserror ".toList ++ decimal s.jobsNum ++ ".\n".toList)

def comet (s : Settings) (optarg : CStr) : Except Exit Settings :=
  let s := { s with cometfilenum := Word.toSigned 32 (strtoull optarg).1 }
  s.within s.cometfilenum MAX_FILENUM
    ("args cometfilenumerror ".toList ++ decimal s.cometfilenum ++ ".\n".toList)

def lenght (s : Settings) (optarg : CStr) : Except Exit Settings :=
  let s := { s with filesize := Word.trunc 32 (strtoull optarg).1 }
  s.within s.filesize 1024
    ("args filesize error ".toList ++ decimal (Word.toSigned 32 s.filesize) ++ ".\n".toList)

/--
The message has the size of the files in it, not that of the writes.
-/
def prerwsize (s : Settings) (optarg : CStr) : Except Exit Settings :=
  let s := { s with rwsize := Word.trunc 32 (strtoull optarg).1 }
  s.within s.rwsize 1024
    ("args filesize error ".toList ++ decimal (Word.toSigned 32 s.filesize) ++ ".\n".toList)

def step (s : Settings) : Opt → Except Exit Settings
  | .devname optarg => .ok { s with devname := some optarg }
  | .version =>
    .error { printed := "fsbench ".toList ++ FSBENCH_VERSION ++ ['\n'], usage := false, status := some 0 }
  | .jobs optarg => s.jobs optarg
  | .comet optarg => s.comet optarg
  | .pass => .ok { s with nobypass := false }
  | .lenght optarg => s.lenght optarg
  | .prerwsize optarg => s.prerwsize optarg
  | .outfile optarg => .ok { s with csvfilename := some optarg }
  | .help c =>
    .error
      { printed := "c[0x".toList ++ Nat.toDigits 16 c ++ "]\n".toList, usage := true
        status := some (-1) }

end Settings

def readOptions (argc : Nat) (opts : List Opt) : Except Exit Settings :=
  if argc > 1 then opts.foldlM Settings.step .initial else .ok .initial

/--
The part of main before the mount.
-/
def mainOptions (argc : Nat) (opts : List Opt) : Except Exit Settings :=
  if argc = 1 then
    .error (.ofUsage "args num is 1.\n".toList)
  else
    match readOptions argc opts with
    | .error exit => .error exit
    | .ok s =>
      if s.devname.isNone then
        .error (.ofUsage "args devname[(nil)]  is error.\n".toList)
      else
        .ok s

inductive NumericOption where
  | jobs
  | comet
  | lenght
  | prerwsize

namespace NumericOption

def opt (optarg : CStr) : NumericOption → Opt
  | .jobs => .jobs optarg
  | .comet => .comet optarg
  | .lenght => .lenght optarg
  | .prerwsize => .prerwsize optarg

def max : NumericOption → Nat
  | .jobs => 64
  | .comet => MAX_FILENUM
  | .lenght | .prerwsize => 1024

def set (s : Settings) (n : Int) : NumericOption → Settings
  | .jobs => { s with jobsNum := n }
  | .comet => { s with cometfilenum := n }
  | .lenght => { s with filesize := n.toNat }
  | .prerwsize => { s with rwsize := n.toNat }

def InRange (o : NumericOption) (n : Int) : Prop :=
  1 ≤ n ∧ n ≤ o.max

/--
Main goes on exactly with the integers of the range.
-/
structure Exact (o : NumericOption) (optarg : CStr) : Prop where
  accepts : ∀ (s : Settings) n, Numeral.Denotes optarg n → o.InRange n →
    s.step (o.opt optarg) = .ok (o.set s n)
  rejects : (∀ n, Numeral.Denotes optarg n → ¬o.InRange n) →
    ∀ s : Settings, ∃ printed, s.step (o.opt optarg) = .error (.ofUsage printed)

variable {o : NumericOption} {optarg : CStr} {n : Int}

theorem max_lt (o : NumericOption) : o.max < 2 ^ 31 := by
  cases o <;> decide

theorem inRange_toSigned {v : Nat}
    : o.InRange (Word.toSigned 32 v) ↔ o.InRange (Word.trunc 32 v) := by
  have := o.max_lt
  unfold InRange
  constructor
  . intro h
    rw [← Word.toSigned_eq_trunc (.inl (by omega))]
    exact h
  . intro h
    rw [Word.toSigned_eq_trunc (.inr (by omega))]
    exact h

theorem InRange.toSigned_eq {v : Nat} (h : o.InRange (Word.trunc 32 v))
    : Word.toSigned 32 v = Word.trunc 32 v := by
  have := o.max_lt
  unfold InRange at h
  apply Word.toSigned_eq_trunc
  omega

end NumericOption

namespace Settings

open NumericOption

variable {o : NumericOption} {optarg : CStr} {s : Settings}

theorem within_of_le {n max : Int} {error : CStr} (h : 1 ≤ n ∧ n ≤ max)
    : s.within n max error = .ok s := by
  unfold within
  rw [if_neg]
  omega

theorem within_of_not {n max : Int} {error : CStr} (h : ¬(1 ≤ n ∧ n ≤ max))
    : s.within n max error = .error (.ofUsage error) := by
  unfold within
  rw [if_pos]
  omega

theorem step_of_inRange (h : o.InRange (Word.trunc 32 (strtoull optarg).1))
    : s.step (o.opt optarg) = .ok (o.set s (Word.trunc 32 (strtoull optarg).1)) := by
  have hsigned := h.toSigned_eq
  cases o with
  | jobs =>
    simp only [opt, step, jobs, hsigned]
    exact within_of_le h
  | comet =>
    simp only [opt, step, comet, hsigned]
    exact within_of_le h
  | lenght => exact within_of_le h
  | prerwsize => exact within_of_le h

theorem step_of_not_inRange (h : ¬o.InRange (Word.trunc 32 (strtoull optarg).1))
    : ∃ printed, s.step (o.opt optarg) = .error (.ofUsage printed) := by
  have hsigned := mt inRange_toSigned.mp h
  cases o with
  | jobs =>
    simp only [opt, step, jobs]
    exact ⟨_, within_of_not hsigned⟩
  | comet =>
    simp only [opt, step, comet]
    exact ⟨_, within_of_not hsigned⟩
  | lenght =>
    simp only [opt, step, lenght]
    exact ⟨_, within_of_not h⟩
  | prerwsize =>
    simp only [opt, step, prerwsize]
    exact ⟨_, within_of_not h⟩

end Settings

namespace NumericOption

open Numeral (Denotes Leads)

variable {o : NumericOption} {optarg rest : CStr} {n : Int}

theorem trunc_strtoull (h : Leads optarg n rest) (hfits : n.natAbs < 2 ^ 64)
    : Word.trunc 32 (strtoull optarg).1 = n % 2 ^ 32 := by
  rw [strtoull_of_leads h, if_pos hfits, Word.trunc, Int.natCast_emod]
  exact Word.modEq_of_le (by decide) (Word.ofInt_modEq n)

theorem not_inRange_of_saturated (h : Leads optarg n rest) (hbig : ¬n.natAbs < 2 ^ 64)
    : ¬o.InRange (Word.trunc 32 (strtoull optarg).1) := by
  have := o.max_lt
  rw [strtoull_of_leads h, if_neg hbig]
  unfold InRange Word.trunc
  omega

theorem not_inRange_of_not_leads (h : ∀ n rest, ¬Leads optarg n rest)
    : ¬o.InRange (Word.trunc 32 (strtoull optarg).1) := by
  rw [strtoull_of_not_leads h]
  simp [InRange, Word.trunc]

theorem InRange.emod_eq (h : o.InRange n) : n % 2 ^ 32 = n := by
  have := o.max_lt
  unfold InRange at h
  omega

theorem inRange_strtoull_iff
    : o.InRange (Word.trunc 32 (strtoull optarg).1)
      ↔ ∃ n rest, Leads optarg n rest ∧ n.natAbs < 2 ^ 64 ∧ o.InRange (n % 2 ^ 32) := by
  constructor
  . intro h
    have hleads : ∃ n rest, Leads optarg n rest := by
      by_contra hnone
      simp only [not_exists] at hnone
      exact not_inRange_of_not_leads hnone h
    obtain ⟨n, rest, hleads⟩ := hleads
    have hfits : n.natAbs < 2 ^ 64 := by
      by_contra hbig
      exact not_inRange_of_saturated hleads hbig h
    rw [trunc_strtoull hleads hfits] at h
    exact ⟨n, rest, hleads, hfits, h⟩
  . rintro ⟨n, rest, hleads, hfits, h⟩
    rw [trunc_strtoull hleads hfits]
    exact h

theorem InRange.natAbs_lt (h : o.InRange n) : n.natAbs < 2 ^ 64 := by
  have := o.max_lt
  unfold InRange at h
  omega

theorem step_of_denotes (s : Settings) (hdenotes : Denotes optarg n) (h : o.InRange n)
    : s.step (o.opt optarg) = .ok (o.set s n) := by
  have htrunc := trunc_strtoull hdenotes.leads h.natAbs_lt
  rw [h.emod_eq] at htrunc
  rw [Settings.step_of_inRange] <;> rw [htrunc]
  exact h

end NumericOption

section NumericOptions

open Numeral (Denotes Leads)

open NumericOption (InRange inRange_strtoull_iff step_of_denotes)

theorem numericOption_exact_iff {o : NumericOption} {optarg : CStr}
    : o.Exact optarg
      ↔ (∃ n, Denotes optarg n ∧ o.InRange n)
        ∨ ∀ n rest, Leads optarg n rest → n.natAbs < 2 ^ 64 → ¬o.InRange (n % 2 ^ 32) := by
  constructor
  . intro h
    by_cases hdenotes : ∃ n, Denotes optarg n ∧ o.InRange n
    . exact .inl hdenotes
    . right
      intro n rest hleads hfits hrange
      simp only [not_exists, not_and] at hdenotes
      obtain ⟨printed, hexit⟩ := h.rejects hdenotes .initial
      have hstep := Settings.step_of_inRange (s := .initial)
        (inRange_strtoull_iff.mpr ⟨n, rest, hleads, hfits, hrange⟩)
      cases hstep.symm.trans hexit
  . intro h
    refine ⟨fun s n hdenotes hrange => step_of_denotes s hdenotes hrange, ?_⟩
    intro hnone s
    apply Settings.step_of_not_inRange
    rw [inRange_strtoull_iff]
    rintro ⟨n, rest, hleads, hfits, hrange⟩
    rcases h with ⟨n', hdenotes, hrange'⟩ | h
    . exact hnone n' hdenotes hrange'
    . exact h n rest hleads hfits hrange

theorem numericOption_not_exact
    : Settings.initial.step (.jobs "4294967297".toList)
          = .ok { Settings.initial with jobsNum := 1 }
        ∧ ¬NumericOption.jobs.Exact "4294967297".toList := by
  have hrange : InRange .jobs (Word.trunc 32 (strtoull "4294967297".toList).1) := by
    unfold InRange
    decide
  have hstep := Settings.step_of_inRange (s := .initial) hrange
  refine ⟨hstep, ?_⟩
  intro h
  have hscan : Numeral.scan "4294967297".toList = some (4294967297, []) := by
    decide
  have hnone : ∀ n, Denotes "4294967297".toList n → ¬InRange .jobs n := by
    intro n hdenotes
    cases hscan.symm.trans (Numeral.denotes_iff.mp hdenotes)
    unfold InRange
    decide
  obtain ⟨printed, hexit⟩ := h.rejects hnone .initial
  cases hstep.symm.trans hexit

end NumericOptions

namespace Settings

structure Admitted (s : Settings) : Prop where
  jobsNum : 0 ≤ s.jobsNum ∧ s.jobsNum ≤ 64
  cometfilenum : 0 ≤ s.cometfilenum ∧ s.cometfilenum ≤ MAX_FILENUM
  filesize : 1 ≤ s.filesize ∧ s.filesize ≤ 1024
  rwsize : 1 ≤ s.rwsize ∧ s.rwsize ≤ 1024

variable {s t : Settings}

theorem within_eq_ok {n max : Int} {error : CStr} (h : s.within n max error = .ok t)
    : t = s ∧ 1 ≤ n ∧ n ≤ max := by
  unfold within at h
  split at h
  . cases h
  . refine ⟨(Except.ok.inj h).symm, ?_⟩
    omega

theorem Admitted.initial : Settings.initial.Admitted where
  jobsNum := by decide
  cometfilenum := by decide
  filesize := by decide
  rwsize := by decide

theorem Admitted.step {opt : Opt} (h : s.Admitted) (hstep : s.step opt = .ok t) : t.Admitted := by
  cases opt with
  | devname | pass | outfile =>
    cases hstep
    exact { h with }
  | version | help => cases hstep
  | jobs =>
    simp only [Settings.step, jobs] at hstep
    generalize Word.toSigned 32 _ = n at hstep
    obtain ⟨rfl, hle⟩ := within_eq_ok hstep
    exact { h with jobsNum := ⟨Int.le_trans Int.one_nonneg hle.1, hle.2⟩ }
  | comet =>
    simp only [Settings.step, comet] at hstep
    generalize Word.toSigned 32 _ = n at hstep
    obtain ⟨rfl, hle⟩ := within_eq_ok hstep
    exact { h with cometfilenum := ⟨Int.le_trans Int.one_nonneg hle.1, hle.2⟩ }
  | lenght =>
    simp only [Settings.step, lenght] at hstep
    obtain ⟨rfl, hle⟩ := within_eq_ok hstep
    exact { h with filesize := by simpa using hle }
  | prerwsize =>
    simp only [Settings.step, prerwsize] at hstep
    obtain ⟨rfl, hle⟩ := within_eq_ok hstep
    exact { h with rwsize := by simpa using hle }

end Settings

theorem readOptions_admitted {argc : Nat} {opts : List Opt} {s : Settings}
    (h : readOptions argc opts = .ok s) : s.Admitted := by
  unfold readOptions at h
  split at h
  . apply Loop.foldlM_keeps Settings.Admitted _ .initial h
    intro opt _ s t hs hstep
    exact hs.step hstep
  . cases h
    exact .initial

theorem mainOptions_admitted {argc : Nat} {opts : List Opt} {s : Settings}
    (h : mainOptions argc opts = .ok s) : s.Admitted ∧ s.devname.isSome := by
  unfold mainOptions at h
  split at h
  . cases h
  . split at h
    . cases h
    . next hread =>
      split at h
      . cases h
      . next hdevname =>
        cases h
        exact ⟨readOptions_admitted hread, by simpa [Option.isSome_iff_ne_none] using hdevname⟩

end FsBench
