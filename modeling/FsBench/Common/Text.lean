import FsBench.Lib.Numeral
import FsBench.Lib.Word
import Mathlib.Data.List.Infix

/-!
The string functions of the C library that the program uses, on strings without their final zero.
-/

namespace FsBench

abbrev CStr := List Char

/--
The conversion `%d`.
-/
def decimal (x : Int) : CStr :=
  if x < 0 then '-' :: Nat.toDigits 10 x.natAbs else Nat.toDigits 10 x.natAbs

def readDigits (text : CStr) : Option Nat :=
  if text ≠ [] ∧ text.all Char.isDigit = true then some (Nat.ofDigitChars 10 text 0) else none

def readDecimal : CStr → Option Int
  | '-' :: digits => (readDigits digits).map fun n : Nat => -(n : Int)
  | digits => (readDigits digits).map fun n : Nat => (n : Int)

def snprintf (size : Nat) (text : CStr) : CStr :=
  text.take (size - 1)

/--
A text as long as the buffer or longer is not ended by a zero.
-/
def strncpy (size : Nat) (text : CStr) : CStr :=
  text.take size

/--
Writing a text that does not fit into the buffer is `none`.
-/
def sprintf (size : Nat) (text : CStr) : Option CStr :=
  if text.length < size then some text else none

def strstr (hay needle : CStr) : Bool :=
  decide (needle <:+: hay)

/--
`strtoull` in base 0: the value and where the text goes on. What does not fit saturates, a minus sign
negates modulo 2 ^ 64.
-/
def strtoull (text : CStr) : Nat × CStr :=
  match Numeral.scan text with
  | none => (0, text)
  | some (n, rest) => (if n.natAbs < 2 ^ 64 then Word.ofInt 64 n else 2 ^ 64 - 1, rest)

theorem snprintf_of_lt {size : Nat} {text : CStr} (h : text.length < size)
    : snprintf size text = text :=
  List.take_of_length_le (by omega)

theorem snprintf_length_le {size : Nat} {text : CStr} : (snprintf size text).length ≤ size - 1 :=
  List.length_take_le ..

theorem strncpy_length_le {size : Nat} {text : CStr} : (strncpy size text).length ≤ size :=
  List.length_take_le ..

theorem denotes_decimal (x : Int) : Numeral.Denotes (decimal x) x := by
  have hconstant := Numeral.constant_toDigits x.natAbs
  have hspaces : ∀ c ∈ ([] : List Char), Numeral.isSpace c := nofun
  unfold decimal
  split
  . have hdenotes := Numeral.Denotes.mk hspaces .minus hconstant
    have hx : -1 * (x.natAbs : Int) = x := by omega
    rw [hx] at hdenotes
    exact hdenotes
  . have hdenotes := Numeral.Denotes.mk hspaces .none hconstant
    have hx : 1 * (x.natAbs : Int) = x := by omega
    rw [hx] at hdenotes
    exact hdenotes

theorem strtoull_of_leads {text rest : CStr} {n : Int} (h : Numeral.Leads text n rest)
    : strtoull text = (if n.natAbs < 2 ^ 64 then Word.ofInt 64 n else 2 ^ 64 - 1, rest) := by
  rw [strtoull, Numeral.leads_iff.mp h]

theorem strtoull_of_not_leads {text : CStr} (h : ∀ n rest, ¬Numeral.Leads text n rest)
    : strtoull text = (0, text) := by
  unfold strtoull
  split
  . rfl
  . next n rest hscan => exact absurd (Numeral.leads_iff.mpr hscan) (h n rest)

private theorem minus_not_mem {n : Nat} : '-' ∉ Nat.toDigits 10 n := by
  intro h
  have := Nat.isDigit_of_mem_toDigits (by decide) (by decide) h
  simp at this

theorem mem_decimal {x : Int} {c : Char} (h : c ∈ decimal x) : c = '-' ∨ c.isDigit = true := by
  have hdigit : c ∈ Nat.toDigits 10 x.natAbs → c.isDigit = true :=
    Nat.isDigit_of_mem_toDigits (by decide) (by decide)
  unfold decimal at h
  split at h
  . exact (List.mem_cons.mp h).imp id hdigit
  . exact .inr (hdigit h)

theorem decimal_ne_nil {x : Int} : decimal x ≠ [] := by
  unfold decimal
  split
  . exact List.cons_ne_nil _ _
  . exact Nat.toDigits_ne_nil

@[simp]
theorem readDigits_toDigits {n : Nat} : readDigits (Nat.toDigits 10 n) = some n := by
  have hdigits : (Nat.toDigits 10 n).all Char.isDigit = true :=
    List.all_eq_true.mpr fun c hc => Nat.isDigit_of_mem_toDigits (by decide) (by decide) hc
  rw [readDigits, if_pos ⟨Nat.toDigits_ne_nil, hdigits⟩,
    Nat.ofDigitChars_toDigits (by decide) (by decide)]

@[simp]
theorem readDecimal_decimal {x : Int} : readDecimal (decimal x) = some x := by
  unfold decimal
  split
  . rw [readDecimal, readDigits_toDigits, Option.map_some]
    congr 1
    omega
  . unfold readDecimal
    split
    . next digits heq =>
      -- no digit is a minus sign
      exact absurd (heq ▸ List.mem_cons_self) minus_not_mem
    . rw [readDigits_toDigits, Option.map_some]
      congr 1
      omega

theorem decimal_injective {x y : Int} (h : decimal x = decimal y) : x = y := by
  have hread := congrArg readDecimal h
  simpa using hread

theorem decimal_length {x : Int} (h : Word.Fits 32 x) : (decimal x).length ≤ 11 := by
  have hlt : x.natAbs < 10 ^ 10 := by
    unfold Word.Fits at h
    omega
  have := (Nat.length_toDigits_le_iff (by decide) (by decide)).mpr hlt
  unfold decimal
  split
  . rw [List.length_cons]
    omega
  . omega

theorem strstr_path {dir name needle : CStr} {c : Char} (hc : c ∉ needle)
    : strstr (dir ++ [c] ++ name) needle = (strstr dir needle || strstr name needle) := by
  unfold strstr
  rw [← Bool.decide_or]
  apply decide_eq_decide.mpr
  rw [List.infix_append_iff, List.infix_concat_iff]
  constructor
  . rintro ((hsuffix | hdir) | hname | ⟨l₁, l₂, rfl, hsuffix, hprefix⟩)
    . rcases List.suffix_concat_iff.mp hsuffix with rfl | ⟨t, rfl, -⟩
      . exact .inl (List.nil_infix)
      . simp at hc
    . exact .inl hdir
    . exact .inr hname
    . rcases List.suffix_concat_iff.mp hsuffix with rfl | ⟨t, rfl, -⟩
      . exact .inr hprefix.isInfix
      . simp at hc
  . rintro (hdir | hname)
    . exact .inl (.inr hdir)
    . exact .inr (.inl hname)

end FsBench
