import Mathlib.Data.List.Basic

/-!
`getopt_long` of the GNU C library, for options that take an argument always or never: what its calls
return on a command line, until it returns -1. Words that are no options are passed over.
-/

namespace Getopt

abbrev Word := List Char

/--
An entry of the table of long options. No two entries have the same `val`.
-/
structure Long where
  name : Word
  hasArg : Bool
  val : Char

/--
What a call returns, and `optarg` after it. A mistake in the command line is the character `?`.
-/
abbrev Found := Char × Option Word

def mistake : Found := ('?', none)

def takesArg : Word → Char → Option Bool
  | [], _ => none
  | option :: rest, c =>
    if c = ':' ∨ c = ';' then
      none
    else if c = option then
      some (rest.head? = some ':')
    else
      takesArg rest c

/--
The options of a word behind its dash, and the one that takes the next word as its argument.
-/
def short (optstring : Word) : Word → List Found × Option Char
  | [] => ([], none)
  | c :: rest =>
    match takesArg optstring c with
    | none => (mistake :: (short optstring rest).1, (short optstring rest).2)
    | some false => ((c, none) :: (short optstring rest).1, (short optstring rest).2)
    | some true => if rest = [] then ([], some c) else ([(c, some rest)], none)

/--
A name may be cut short as long as it is the start of one name only.
-/
def pick (longopts : List Long) (name : Word) : Option Long :=
  match longopts.find? (·.name = name) with
  | some option => some option
  | none =>
    match longopts.filter (name.isPrefixOf ·.name) with
    | [option] => some option
    | _ => none

def long (longopts : List Long) (word : Word) : List Found × Option Char :=
  match pick longopts (word.takeWhile (· ≠ '=')), word.dropWhile (· ≠ '=') with
  | none, _ => ([mistake], none)
  | some option, [] => if option.hasArg then ([], some option.val) else ([(option.val, none)], none)
  | some option, _ :: optarg =>
    if option.hasArg then ([(option.val, some optarg)], none) else ([mistake], none)

def word (optstring : Word) (longopts : List Long) : Word → List Found × Option Char
  | '-' :: '-' :: rest => long longopts rest
  | '-' :: c :: rest => short optstring (c :: rest)
  | _ => ([], none)

/--
`waiting` is the option that still needs its argument.
-/
def getoptLong (optstring : Word) (longopts : List Long) : Option Char → List Word → List Found
  | some _, [] => [mistake]
  | some c, optarg :: words => (c, some optarg) :: getoptLong optstring longopts none words
  | none, [] => []
  | none, argument :: words =>
    if argument = ['-', '-'] then
      []
    else
      (word optstring longopts argument).1
        ++ getoptLong optstring longopts (word optstring longopts argument).2 words

def render : Found → List Word
  | (c, none) => [['-', c]]
  | (c, some optarg) => [['-', c], optarg]

variable {optstring : Word} {longopts : List Long} {found : List Found}

def Known (optstring : Word) (f : Found) : Prop :=
  f.1 ≠ '-' ∧ takesArg optstring f.1 = some f.2.isSome

theorem getoptLong_cons (c : Char) (optarg : Option Word) (hknown : Known optstring (c, optarg))
    (words : List Word)
    : getoptLong optstring longopts none (render (c, optarg) ++ words)
      = (c, optarg) :: getoptLong optstring longopts none words := by
  obtain ⟨hdash, htakes⟩ := hknown
  have hword : word optstring longopts ['-', c] = short optstring [c] := by
    unfold word
    split
    . next heq =>
      cases heq
      exact absurd rfl hdash
    . next heq =>
      cases heq
      rfl
    . next hother => exact absurd rfl (hother c [])
  have hend : (['-', c] : Word) ≠ ['-', '-'] := by
    intro heq
    cases heq
    exact hdash rfl
  cases optarg with
  | none =>
    have hshort : short optstring [c] = ([(c, none)], none) := by
      simp only [short, htakes, Option.isSome_none]
    rw [render, List.singleton_append, getoptLong, if_neg hend, hword, hshort]
    rfl
  | some optarg =>
    have hshort : short optstring [c] = ([], some c) := by
      simp only [short, htakes, Option.isSome_some, if_true]
    rw [render, List.cons_append, List.singleton_append, getoptLong, if_neg hend, hword, hshort]
    rfl

theorem getoptLong_render (hknown : ∀ f ∈ found, Known optstring f)
    : getoptLong optstring longopts none (found.flatMap render) = found := by
  induction found with
  | nil => rfl
  | cons f found ih =>
    obtain ⟨c, optarg⟩ := f
    rw [List.flatMap_cons, getoptLong_cons c optarg (hknown _ List.mem_cons_self),
      ih fun f hf => hknown f (List.mem_cons_of_mem _ hf)]

end Getopt
