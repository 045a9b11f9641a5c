import FsBench.Bench.Arguments
import FsBench.Lib.Getopt

/-!
The command line of main, word by word, and the settings that it can give.
-/

namespace FsBench

def shortOptions : CStr := "hvpd:j:c:l:s:f:".toList

def longOptions : List Getopt.Long :=
  [⟨"help".toList, false, 'h'⟩, ⟨"version".toList, false, 'v'⟩, ⟨"pass".toList, false, 'p'⟩,
    ⟨"devname".toList, true, 'd'⟩, ⟨"jobs".toList, true, 'j'⟩, ⟨"comet".toList, true, 'c'⟩,
    ⟨"lenght".toList, true, 'l'⟩, ⟨"prerwsize".toList, true, 's'⟩, ⟨"outfile".toList, true, 'f'⟩]

def Opt.ofFound : Getopt.Found → Opt
  | ('d', some optarg) => .devname optarg
  | ('v', none) => .version
  | ('j', some optarg) => .jobs optarg
  | ('c', some optarg) => .comet optarg
  | ('p', none) => .pass
  | ('l', some optarg) => .lenght optarg
  | ('s', some optarg) => .prerwsize optarg
  | ('f', some optarg) => .outfile optarg
  | (c, _) => .help c.toNat

/--
`args` are the words behind the name of the program.
-/
def optsOf (args : List CStr) : List Opt :=
  (Getopt.getoptLong shortOptions longOptions none args).map Opt.ofFound

def mainArgs (args : List CStr) : Except Exit Settings :=
  mainOptions (args.length + 1) (optsOf args)

namespace Opt

/--
The number that an option is set to when it is `o`.
-/
def number : NumericOption → Opt → Option Nat
  | .jobs, .jobs optarg | .comet, .comet optarg | .lenght, .lenght optarg
  | .prerwsize, .prerwsize optarg => some (Word.trunc 32 (strtoull optarg).1)
  | _, _ => none

def devname? : Opt → Option CStr
  | .devname optarg => some optarg
  | _ => none

def outfile? : Opt → Option CStr
  | .outfile optarg => some optarg
  | _ => none

def Accepted : Opt → Prop
  | .version | .help _ => False
  | opt => ∀ (o : NumericOption) n, opt.number o = some n → o.InRange n

end Opt

def lastOf {α : Type} (value : Opt → Option α) (opts : List Opt) : Option α :=
  (opts.filterMap value).getLast?

namespace Settings

structure Reflects (s : Settings) (opts : List Opt) : Prop where
  devname : s.devname = lastOf Opt.devname? opts
  jobsNum : s.jobsNum = (lastOf (Opt.number .jobs) opts).getD 0
  nobypass : s.nobypass = true ↔ .pass ∉ opts
  cometfilenum : s.cometfilenum = (lastOf (Opt.number .comet) opts).getD 0
  filesize : s.filesize = (lastOf (Opt.number .lenght) opts).getD 210
  rwsize : s.rwsize = (lastOf (Opt.number .prerwsize) opts).getD 512
  csvfilename : s.csvfilename = lastOf Opt.outfile? opts

end Settings

section Last

variable {α : Type} {value : Opt → Option α} {opts : List Opt} {opt : Opt}

theorem lastOf_append {opts' : List Opt}
    : lastOf value (opts ++ opts') = (lastOf value opts').or (lastOf value opts) := by
  rw [lastOf, List.filterMap_append, List.getLast?_append]
  rfl

theorem lastOf_singleton : lastOf value [opt] = value opt := by
  unfold lastOf
  cases hvalue : value opt with
  | none => rw [List.filterMap_cons_none hvalue, List.filterMap_nil, List.getLast?_nil]
  | some v => rw [List.filterMap_cons_some hvalue, List.filterMap_nil, List.getLast?_singleton]

theorem lastOf_concat : lastOf value (opts ++ [opt]) = (value opt).or (lastOf value opts) := by
  rw [lastOf_append, lastOf_singleton]

theorem lastOf_toList {opt : Option Opt} : lastOf value opt.toList = opt.bind value := by
  cases opt with
  | none => rfl
  | some opt => exact lastOf_singleton

end Last

namespace Settings

variable {s t : Settings} {opts : List Opt} {opt : Opt}

theorem Reflects.initial : Settings.initial.Reflects [] where
  devname := rfl
  jobsNum := rfl
  nobypass := by simp [Settings.initial]
  cometfilenum := rfl
  filesize := rfl
  rwsize := rfl
  csvfilename := rfl

theorem Reflects.unique (h : s.Reflects opts) (h' : t.Reflects opts) : s = t := by
  have hnobypass : s.nobypass = t.nobypass :=
    Bool.eq_iff_iff.mpr (h.nobypass.trans h'.nobypass.symm)
  cases s
  cases t
  simp only [Settings.mk.injEq]
  exact ⟨h.devname.trans h'.devname.symm, h.jobsNum.trans h'.jobsNum.symm, hnobypass,
    h.cometfilenum.trans h'.cometfilenum.symm, h.filesize.trans h'.filesize.symm,
    h.rwsize.trans h'.rwsize.symm, h.csvfilename.trans h'.csvfilename.symm⟩

theorem Reflects.concat (h : s.Reflects opts) (hdevname : t.devname = opt.devname?.or s.devname)
    (hjobsNum : t.jobsNum = ((opt.number .jobs).map fun n : Nat => (n : Int)).getD s.jobsNum)
    (hnobypass : t.nobypass = true ↔ s.nobypass = true ∧ opt ≠ .pass)
    (hcometfilenum :
      t.cometfilenum = ((opt.number .comet).map fun n : Nat => (n : Int)).getD s.cometfilenum)
    (hfilesize : t.filesize = (opt.number .lenght).getD s.filesize)
    (hrwsize : t.rwsize = (opt.number .prerwsize).getD s.rwsize)
    (hcsvfilename : t.csvfilename = opt.outfile?.or s.csvfilename)
    : t.Reflects (opts ++ [opt]) where
  devname := by rw [hdevname, lastOf_concat, h.devname]
  jobsNum := by
    rw [hjobsNum, lastOf_concat, h.jobsNum]
    cases opt.number .jobs <;> rfl
  nobypass := by rw [hnobypass, h.nobypass, List.mem_append, List.mem_singleton, not_or, eq_comm]
  cometfilenum := by
    rw [hcometfilenum, lastOf_concat, h.cometfilenum]
    cases opt.number .comet <;> rfl
  filesize := by
    rw [hfilesize, lastOf_concat, h.filesize]
    cases opt.number .lenght <;> rfl
  rwsize := by
    rw [hrwsize, lastOf_concat, h.rwsize]
    cases opt.number .prerwsize <;> rfl
  csvfilename := by rw [hcsvfilename, lastOf_concat, h.csvfilename]

theorem step_of_accepted (h : s.Reflects opts) (haccepted : opt.Accepted)
    : ∃ t, s.step opt = .ok t ∧ t.Reflects (opts ++ [opt]) := by
  cases opt with
  | devname optarg => exact ⟨_, rfl, h.concat rfl rfl (by simp) rfl rfl rfl rfl⟩
  | version => exact absurd haccepted id
  | jobs optarg =>
    have hstep := step_of_inRange (s := s) (haccepted .jobs _ rfl)
    exact ⟨_, hstep, h.concat rfl (by simp [NumericOption.set, Opt.number])
      (by simp [NumericOption.set]) rfl rfl rfl rfl⟩
  | comet optarg =>
    have hstep := step_of_inRange (s := s) (haccepted .comet _ rfl)
    exact ⟨_, hstep, h.concat rfl rfl (by simp [NumericOption.set])
      (by simp [NumericOption.set, Opt.number]) rfl rfl rfl⟩
  | pass => exact ⟨_, rfl, h.concat rfl rfl (by simp) rfl rfl rfl rfl⟩
  | lenght optarg =>
    have hstep := step_of_inRange (s := s) (haccepted .lenght _ rfl)
    exact ⟨_, hstep, h.concat rfl rfl (by simp [NumericOption.set]) rfl rfl rfl rfl⟩
  | prerwsize optarg =>
    have hstep := step_of_inRange (s := s) (haccepted .prerwsize _ rfl)
    exact ⟨_, hstep, h.concat rfl rfl (by simp [NumericOption.set]) rfl rfl rfl rfl⟩
  | outfile optarg => exact ⟨_, rfl, h.concat rfl rfl (by simp) rfl rfl rfl rfl⟩
  | help => exact absurd haccepted id

theorem accepted_of_step (h : s.step opt = .ok t) : opt.Accepted := by
  have hnumeric (o : NumericOption) (optarg : CStr) (hstep : s.step (o.opt optarg) = .ok t)
      : o.InRange (Word.trunc 32 (strtoull optarg).1) := by
    by_contra hrange
    obtain ⟨printed, hexit⟩ := step_of_not_inRange (s := s) hrange
    cases hexit.symm.trans hstep
  cases opt with
  | devname | pass | outfile =>
    rintro ⟨⟩ n hn <;> cases hn
  | version | help => cases h
  | jobs optarg =>
    rintro ⟨⟩ n hn <;> cases hn
    exact hnumeric .jobs optarg h
  | comet optarg =>
    rintro ⟨⟩ n hn <;> cases hn
    exact hnumeric .comet optarg h
  | lenght optarg =>
    rintro ⟨⟩ n hn <;> cases hn
    exact hnumeric .lenght optarg h
  | prerwsize optarg =>
    rintro ⟨⟩ n hn <;> cases hn
    exact hnumeric .prerwsize optarg h

theorem foldlM_of_accepted (haccepted : ∀ opt ∈ opts, opt.Accepted)
    : ∃ s, opts.foldlM Settings.step .initial = .ok s ∧ s.Reflects opts := by
  induction opts using List.reverseRecOn with
  | nil => exact ⟨.initial, rfl, .initial⟩
  | append_singleton opts opt ih =>
    obtain ⟨s, hread, hs⟩ := ih fun opt hopt => haccepted opt (List.mem_append_left _ hopt)
    obtain ⟨t, hstep, ht⟩ := step_of_accepted hs (haccepted opt (by simp))
    refine ⟨t, ?_, ht⟩
    rw [List.foldlM_append, hread]
    change [opt].foldlM Settings.step s = .ok t
    rw [List.foldlM_cons, hstep]
    rfl

theorem accepted_of_foldlM (h : opts.foldlM Settings.step s = .ok t)
    : ∀ opt ∈ opts, opt.Accepted := by
  induction opts generalizing s with
  | nil => nofun
  | cons opt opts ih =>
    rw [List.foldlM_cons] at h
    cases hstep : s.step opt with
    | error exit =>
      rw [hstep] at h
      cases h
    | ok mid =>
      rw [hstep] at h
      exact List.forall_mem_cons.mpr ⟨accepted_of_step hstep, ih h⟩

end Settings

theorem readOptions_eq_ok_iff {argc : Nat} {opts : List Opt} {s : Settings} (hargc : 1 < argc)
    : readOptions argc opts = .ok s ↔ (∀ opt ∈ opts, opt.Accepted) ∧ s.Reflects opts := by
  rw [readOptions, if_pos hargc]
  constructor
  . intro h
    have haccepted := Settings.accepted_of_foldlM h
    obtain ⟨t, ht, hreflects⟩ := Settings.foldlM_of_accepted haccepted
    cases ht.symm.trans h
    exact ⟨haccepted, hreflects⟩
  . intro ⟨haccepted, hreflects⟩
    obtain ⟨t, ht, hreflects'⟩ := Settings.foldlM_of_accepted haccepted
    rw [hreflects.unique hreflects']
    exact ht

theorem mainOptions_eq_ok_iff {argc : Nat} {opts : List Opt} {s : Settings} (hargc : 1 < argc)
    : mainOptions argc opts = .ok s
      ↔ ((∀ opt ∈ opts, opt.Accepted) ∧ s.Reflects opts) ∧ s.devname.isSome := by
  rw [← readOptions_eq_ok_iff hargc, mainOptions, if_neg (by omega)]
  cases readOptions argc opts with
  | error exit => simp
  | ok t =>
    dsimp only
    cases hdevname : t.devname with
    | none =>
      refine iff_of_false nofun ?_
      rintro ⟨⟨⟩, hsome⟩
      rw [hdevname] at hsome
      cases hsome
    | some dev =>
      constructor
      . rintro ⟨⟩
        exact ⟨rfl, by rw [hdevname]; rfl⟩
      . rintro ⟨⟨⟩, -⟩
        rfl

theorem mainArgs_eq_ok_iff {args : List CStr} {s : Settings}
    : mainArgs args = .ok s
      ↔ ((∀ opt ∈ optsOf args, opt.Accepted) ∧ s.Reflects (optsOf args)) ∧ s.devname.isSome := by
  cases args with
  | nil =>
    refine iff_of_false nofun ?_
    rintro ⟨⟨_, hreflects⟩, hsome⟩
    rw [hreflects.devname] at hsome
    cases hsome
  | cons arg args => exact mainOptions_eq_ok_iff (by simp)

namespace Settings

def options (s : Settings) : List Getopt.Found :=
  (s.devname.map fun optarg => ('d', some optarg)).toList
    ++ (if s.jobsNum = 0 then none else some ('j', some (decimal s.jobsNum))).toList
    ++ (if s.nobypass then none else some ('p', none)).toList
    ++ (if s.cometfilenum = 0 then none else some ('c', some (decimal s.cometfilenum))).toList
    ++ [('l', some (decimal s.filesize))] ++ [('s', some (decimal s.rwsize))]
    ++ (s.csvfilename.map fun optarg => ('f', some optarg)).toList

def commandLine (s : Settings) : List CStr :=
  s.options.flatMap Getopt.render

variable {s : Settings}

theorem mem_options {f : Getopt.Found}
    : f ∈ s.options ↔ (∃ dev, s.devname = some dev ∧ ('d', some dev) = f)
      ∨ (s.jobsNum ≠ 0 ∧ ('j', some (decimal s.jobsNum)) = f)
      ∨ (s.nobypass ≠ true ∧ ('p', none) = f)
      ∨ (s.cometfilenum ≠ 0 ∧ ('c', some (decimal s.cometfilenum)) = f)
      ∨ f = ('l', some (decimal s.filesize)) ∨ f = ('s', some (decimal s.rwsize))
      ∨ ∃ path, s.csvfilename = some path ∧ ('f', some path) = f := by
  simp only [options, List.mem_append, Option.mem_toList, Option.map_eq_some_iff,
    Option.ite_none_left_eq_some, Option.some_inj, List.mem_singleton, or_assoc]

theorem getoptLong_commandLine
    : Getopt.getoptLong shortOptions longOptions none s.commandLine = s.options := by
  apply Getopt.getoptLong_render
  intro f hf
  rcases mem_options.mp hf with
    ⟨dev, -, rfl⟩ | ⟨-, rfl⟩ | ⟨-, rfl⟩ | ⟨-, rfl⟩ | rfl | rfl | ⟨path, -, rfl⟩
  all_goals exact ⟨by dsimp only; decide, rfl⟩

example
    : Getopt.getoptLong shortOptions longOptions none
        (commandLine ⟨some "/dev/sda1".toList, 4, false, 0, 210, 512, none⟩)
      = [('d', some "/dev/sda1".toList), ('j', some ['4']), ('p', none), ('l', some "210".toList),
        ('s', some "512".toList)] := by
  decide

theorem number_decimal {n : Int} (h : 0 ≤ n ∧ n < 2 ^ 32)
    : (Word.trunc 32 (strtoull (decimal n)).1 : Int) = n := by
  rw [NumericOption.trunc_strtoull (denotes_decimal n).leads (by omega)]
  omega

theorem Admitted.accepted {opt : Opt} (h : s.Admitted) (hopt : opt ∈ s.options.map Opt.ofFound)
    : opt.Accepted := by
  obtain ⟨f, hf, rfl⟩ := List.mem_map.mp hopt
  have hnumber {o : NumericOption} {n : Int} (hn : 1 ≤ n ∧ n ≤ o.max)
      : o.InRange (Word.trunc 32 (strtoull (decimal n)).1) := by
    have := o.max_lt
    rw [number_decimal (by omega)]
    exact hn
  rcases mem_options.mp hf with
    ⟨dev, -, rfl⟩ | ⟨hjobs, rfl⟩ | ⟨-, rfl⟩ | ⟨hcomet, rfl⟩ | rfl | rfl | ⟨path, -, rfl⟩
  . rintro ⟨⟩ n hn <;> cases hn
  . rintro ⟨⟩ n hn <;> cases hn
    have hrange := h.jobsNum
    exact hnumber (o := .jobs) ⟨by omega, hrange.2⟩
  . rintro ⟨⟩ n hn <;> cases hn
  . rintro ⟨⟩ n hn <;> cases hn
    have hrange := h.cometfilenum
    exact hnumber (o := .comet) ⟨by omega, hrange.2⟩
  . rintro ⟨⟩ n hn <;> cases hn
    have hrange := h.filesize
    exact hnumber (o := .lenght) ⟨by omega, Int.ofNat_le.mpr hrange.2⟩
  . rintro ⟨⟩ n hn <;> cases hn
    have hrange := h.rwsize
    exact hnumber (o := .prerwsize) ⟨by omega, Int.ofNat_le.mpr hrange.2⟩
  . rintro ⟨⟩ n hn <;> cases hn

theorem lastOf_options {α : Type} {value : Opt → Option α}
    : lastOf value (s.options.map Opt.ofFound)
      = (s.csvfilename.bind fun optarg => value (.outfile optarg)).or
        ((value (.prerwsize (decimal s.rwsize))).or
          ((value (.lenght (decimal s.filesize))).or
            ((if s.cometfilenum = 0 then none else value (.comet (decimal s.cometfilenum))).or
              ((if s.nobypass then none else value .pass).or
                ((if s.jobsNum = 0 then none else value (.jobs (decimal s.jobsNum))).or
                  (s.devname.bind fun optarg => value (.devname optarg))))))) := by
  unfold options
  simp only [List.map_append, ← Option.toList_map, lastOf_append, lastOf_toList, List.map_cons,
    List.map_nil, lastOf_singleton, Option.map_map, Option.bind_map,
    apply_ite (Option.map Opt.ofFound), apply_ite (Option.bind · value), Option.map_none, Option.map_some, Option.bind_none,
    Option.bind_some]
  rfl

theorem Admitted.reflects (h : s.Admitted) : s.Reflects (s.options.map Opt.ofFound) := by
  have hjobs := h.jobsNum
  have hcomet := h.cometfilenum
  have hmax := NumericOption.comet.max_lt
  have hfilesize := h.filesize
  have hrwsize := h.rwsize
  refine ⟨?_, ?_, ?_, ?_, ?_, ?_, ?_⟩
  . rw [lastOf_options]
    simp [Opt.devname?]
  . rw [lastOf_options]
    by_cases hzero : s.jobsNum = 0
    . simp [Opt.number, hzero]
    . simp [Opt.number, hzero, number_decimal (n := s.jobsNum) (by omega)]
  . constructor
    . intro hnobypass hmem
      obtain ⟨f, hf, heq⟩ := List.mem_map.mp hmem
      rcases mem_options.mp hf with
        ⟨dev, -, rfl⟩ | ⟨-, rfl⟩ | ⟨hpass, -⟩ | ⟨-, rfl⟩ | rfl | rfl | ⟨path, -, rfl⟩
      . cases heq
      . cases heq
      . exact hpass hnobypass
      all_goals cases heq
    . intro hnone
      by_contra hpass
      have hmem := mem_options.mpr (.inr (.inr (.inl ⟨hpass, rfl⟩)))
      exact hnone (List.mem_map.mpr ⟨_, hmem, rfl⟩)
  . rw [lastOf_options]
    by_cases hzero : s.cometfilenum = 0
    . simp [Opt.number, hzero]
    . have hread := number_decimal (n := s.cometfilenum) ⟨hcomet.1, by
        rw [NumericOption.max] at hmax
        omega⟩
      simp [Opt.number, hzero, hread]
  . rw [lastOf_options]
    have hread := number_decimal (n := s.filesize) (by omega)
    simp [Opt.number]
    omega
  . rw [lastOf_options]
    have hread := number_decimal (n := s.rwsize) (by omega)
    simp [Opt.number]
    omega
  . rw [lastOf_options]
    simp [Opt.outfile?]

theorem Admitted.mainArgs (h : s.Admitted) (hdevname : s.devname.isSome)
    : mainArgs s.commandLine = .ok s := by
  have hargc : 1 < s.commandLine.length + 1 := by
    have hmem : ('l', some (decimal s.filesize)) ∈ s.options :=
      mem_options.mpr (.inr (.inr (.inr (.inr (.inl rfl)))))
    have hwords : ['-', 'l'] ∈ s.commandLine :=
      List.mem_flatMap.mpr ⟨_, hmem, List.mem_cons_self⟩
    have := List.length_pos_of_mem hwords
    omega
  rw [FsBench.mainArgs, optsOf, getoptLong_commandLine, mainOptions_eq_ok_iff hargc]
  exact ⟨⟨fun opt hopt => h.accepted hopt, h.reflects⟩, hdevname⟩

end Settings

theorem mainArgs_range_iff {s : Settings}
    : ((∃ args, mainArgs args = .ok s) ↔ s.Admitted ∧ s.devname.isSome)
      ∧ (mainArgs s.commandLine = .ok s ↔ s.Admitted ∧ s.devname.isSome) := by
  have hadmitted (args : List CStr) (h : mainArgs args = .ok s) : s.Admitted ∧ s.devname.isSome :=
    mainOptions_admitted h
  refine ⟨⟨fun ⟨args, h⟩ => hadmitted args h, fun h => ⟨s.commandLine, ?_⟩⟩,
    hadmitted s.commandLine, ?_⟩
  . exact h.1.mainArgs h.2
  . exact fun h => h.1.mainArgs h.2

end FsBench
