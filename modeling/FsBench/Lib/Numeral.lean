import Mathlib.Data.Int.Basic
import Mathlib.Data.List.TakeWhile
import Mathlib.Data.Nat.Digits.Defs

/-!
Integers in texts: decimal, octal and hexadecimal constants behind white space and a sign, and the
scanner that takes the longest start of a text that is one.
-/

namespace Numeral

def isSpace (c : Char) : Bool :=
  c = ' ' ∨ 9 ≤ c.toNat ∧ c.toNat ≤ 13

/-- Letters are digits from 10 on, all other characters have a value that no base reaches. -/
def digit (c : Char) : Nat :=
  if c.isDigit then c.toNat - 48
  else if c.isLower then c.toNat - 87
  else if c.isUpper then c.toNat - 55
  else 36

def value (base : Nat) (digits : List Char) : Nat :=
  Nat.ofDigits base (digits.reverse.map digit)

inductive Constant : List Char → Nat → Prop where
  | decimal {c : Char} {digits : List Char} (hne : c ≠ '0') (hc : digit c < 10)
    (hdigits : ∀ d ∈ digits, digit d < 10) : Constant (c :: digits) (value 10 (c :: digits))
  | octal {digits : List Char} (hdigits : ∀ d ∈ digits, digit d < 8)
    : Constant ('0' :: digits) (value 8 ('0' :: digits))
  | hexadecimal {x : Char} {digits : List Char} (hx : x = 'x' ∨ x = 'X') (hne : digits ≠ [])
    (hdigits : ∀ d ∈ digits, digit d < 16) : Constant ('0' :: x :: digits) (value 16 digits)

inductive Sign : List Char → Int → Prop where
  | none : Sign [] 1
  | plus : Sign ['+'] 1
  | minus : Sign ['-'] (-1)

inductive Denotes : List Char → Int → Prop where
  | mk {spaces sign constant : List Char} {s : Int} {n : Nat} (hspaces : ∀ c ∈ spaces, isSpace c)
    (hsign : Sign sign s) (hconstant : Constant constant n)
    : Denotes (spaces ++ (sign ++ constant)) (s * n)

/--
The text starts with an integer and goes on with `rest`, and no longer start of it is an integer.
-/
inductive Leads : List Char → Int → List Char → Prop where
  | mk {start rest : List Char} {n : Int} (hstart : Denotes start n)
    (longest : ∀ start' rest' n', start' ++ rest' = start ++ rest → Denotes start' n' →
      rest.length ≤ rest'.length)
    : Leads (start ++ rest) n rest

def run (base : Nat) (text : List Char) : Nat × List Char :=
  (value base (text.takeWhile (digit · < base)), text.dropWhile (digit · < base))

def hexDigits : List Char → Option (List Char)
  | x :: d :: rest => if (x = 'x' ∨ x = 'X') ∧ digit d < 16 then some (d :: rest) else none
  | _ => none

def scanConstant : List Char → Option (Nat × List Char)
  | [] => none
  | c :: rest =>
    if c = '0' then
      match hexDigits rest with
      | some digits => some (run 16 digits)
      | none => some (run 8 (c :: rest))
    else if digit c < 10 then
      some (run 10 (c :: rest))
    else
      none

def scanSign : List Char → Int × List Char
  | '+' :: rest => (1, rest)
  | '-' :: rest => (-1, rest)
  | text => (1, text)

def scan (text : List Char) : Option (Int × List Char) :=
  let signed := scanSign (text.dropWhile isSpace)
  (scanConstant signed.2).map fun scanned => (signed.1 * scanned.1, scanned.2)

section Digits

variable {base : Nat} {c : Char} {digits text rest : List Char}

theorem toNat_of_digit_lt (h : digit c < 10) : 48 ≤ c.toNat ∧ c.toNat ≤ 57 := by
  have hletter : (c.isLower → 97 ≤ c.toNat) ∧ (c.isUpper → 65 ≤ c.toNat) := by
    have hlower : c.isLower = (decide (97 ≤ c.val) && decide (c.val ≤ 122)) := rfl
    have hupper : c.isUpper = decide (65 ≤ c.val ∧ c.val ≤ 90) := rfl
    simp +contextual [hlower, hupper, ← Char.toNat_val, UInt32.le_iff_toNat_le]
  unfold digit at h
  split at h
  . next hdigit => simpa [Char.isDigit_iff_toNat] using hdigit
  . split at h
    . next hlower =>
      have := hletter.1 hlower
      omega
    . split at h
      . next hupper =>
        have := hletter.2 hupper
        omega
      . omega

theorem run_append (h : ∀ d ∈ digits, digit d < base)
    : run base (digits ++ rest)
      = (value base (digits ++ rest.takeWhile (digit · < base)),
        rest.dropWhile (digit · < base)) := by
  have hall : ∀ d ∈ digits, decide (digit d < base) = true := by simpa using h
  rw [run, List.takeWhile_append_of_pos hall, List.dropWhile_append_of_pos hall]

theorem run_cons (h : digit c < base) (text : List Char)
    : ∃ digits rest, text = digits ++ rest ∧ (∀ d ∈ digits, digit d < base)
        ∧ run base (c :: text) = (value base (c :: digits), rest) := by
  refine ⟨text.takeWhile (digit · < base), text.dropWhile (digit · < base), ?_, ?_, ?_⟩
  . rw [List.takeWhile_append_dropWhile]
  . intro d hd
    simpa using List.mem_takeWhile_imp hd
  . simp [run, h]

theorem hexDigits_eq_some
    : hexDigits text = some digits
      ↔ ∃ x d rest, text = x :: d :: rest ∧ digits = d :: rest ∧ (x = 'x' ∨ x = 'X')
          ∧ digit d < 16 := by
  constructor
  . intro h
    unfold hexDigits at h
    split at h
    . next x d rest =>
      split at h
      . next hx => exact ⟨x, d, rest, rfl, (Option.some.inj h).symm, hx⟩
      . cases h
    . cases h
  . rintro ⟨x, d, rest, rfl, rfl, hx⟩
    exact if_pos hx

end Digits

section Constants

variable {constant text rest : List Char} {n : Nat}

theorem Constant.head (h : Constant constant n)
    : ∃ c digits, constant = c :: digits ∧ digit c < 10 := by
  cases h with
  | decimal _ hc _ => exact ⟨_, _, rfl, hc⟩
  | octal _ => exact ⟨_, _, rfl, by decide⟩
  | hexadecimal _ _ _ => exact ⟨_, _, rfl, by decide⟩

theorem scanConstant_run {base : Nat} {constant digits : List Char}
    (h : ∀ d ∈ digits, digit d < base)
    (hscan : scanConstant (constant ++ rest) = some (run base (digits ++ rest)))
    : ∃ m left, scanConstant (constant ++ rest) = some (m, left) ∧ left.length ≤ rest.length
        ∧ (rest = [] → m = value base digits) := by
  rw [hscan, run_append h]
  refine ⟨_, _, rfl, List.length_dropWhile_le .., ?_⟩
  rintro rfl
  simp

theorem octal_of_hexDigits {digits hex : List Char} (h : ∀ d ∈ digits, digit d < 8)
    (hhex : hexDigits (digits ++ rest) = some hex) : digits = [] := by
  cases digits with
  | nil => rfl
  | cons e digits =>
    obtain ⟨x, d, tail, heq, -, hx, -⟩ := hexDigits_eq_some.mp hhex
    have he := h e List.mem_cons_self
    rw [(List.cons.inj heq).1] at he
    rcases hx with rfl | rfl <;> simp [digit] at he

theorem Constant.scan_append (h : Constant constant n) (rest : List Char)
    : ∃ m left, scanConstant (constant ++ rest) = some (m, left) ∧ left.length ≤ rest.length
        ∧ (rest = [] → m = n) := by
  cases h with
  | @decimal c digits hne hc hdigits =>
    have hscan : scanConstant (c :: digits ++ rest) = some (run 10 (c :: digits ++ rest)) := by
      simp [scanConstant, hne, hc]
    exact scanConstant_run (List.forall_mem_cons.mpr ⟨hc, hdigits⟩) hscan
  | @octal digits hdigits =>
    cases hhex : hexDigits (digits ++ rest) with
    | none =>
      apply scanConstant_run (List.forall_mem_cons.mpr ⟨by decide, hdigits⟩)
      simp [scanConstant, hhex]
    | some hex =>
      -- the zero is all that is octal, `rest` makes it hexadecimal
      obtain rfl := octal_of_hexDigits hdigits hhex
      obtain ⟨x, d, tail, rfl, rfl, -, -⟩ := hexDigits_eq_some.mp hhex
      have hscan : scanConstant ('0' :: x :: d :: tail) = some (run 16 (d :: tail)) := by
        rw [scanConstant, if_pos rfl]
        exact hhex ▸ rfl
      refine ⟨_, _, hscan, ?_, nofun⟩
      apply Nat.le_succ_of_le
      apply List.length_dropWhile_le
  | @hexadecimal x digits hx hne hdigits =>
    obtain ⟨d, tail, rfl⟩ := List.exists_cons_of_ne_nil hne
    have hhex : hexDigits (x :: d :: tail ++ rest) = some (d :: tail ++ rest) :=
      hexDigits_eq_some.mpr ⟨x, d, tail ++ rest, rfl, rfl, hx, hdigits d List.mem_cons_self⟩
    apply scanConstant_run hdigits
    rw [List.cons_append, scanConstant, if_pos rfl, hhex]

theorem scanConstant_sound (h : scanConstant text = some (n, rest))
    : ∃ constant, text = constant ++ rest ∧ Constant constant n := by
  cases text with
  | nil => cases h
  | cons c text =>
    rw [scanConstant] at h
    split at h
    . next hzero =>
      subst hzero
      split at h
      . next digits hhex =>
        obtain ⟨x, d, tail, rfl, rfl, hx, hd⟩ := hexDigits_eq_some.mp hhex
        obtain ⟨digits, left, rfl, hdigits, hrun⟩ := run_cons hd tail
        cases hrun.symm.trans (Option.some.inj h)
        have hall : ∀ e ∈ d :: digits, digit e < 16 := List.forall_mem_cons.mpr ⟨hd, hdigits⟩
        exact ⟨'0' :: x :: d :: digits, rfl, .hexadecimal hx (List.cons_ne_nil _ _) hall⟩
      . have hzero : digit '0' < 8 := by decide
        obtain ⟨digits, left, rfl, hdigits, hrun⟩ := run_cons hzero text
        cases hrun.symm.trans (Option.some.inj h)
        exact ⟨'0' :: digits, rfl, .octal hdigits⟩
    . next hne =>
      split at h
      . next hc =>
        obtain ⟨digits, left, rfl, hdigits, hrun⟩ := run_cons hc text
        cases hrun.symm.trans (Option.some.inj h)
        exact ⟨c :: digits, rfl, .decimal hne hc hdigits⟩
      . cases h

end Constants

section Integers

variable {c : Char} {text rest sign constant : List Char} {s n : Int} {m : Nat}

theorem not_isSpace (h : digit c < 10) : isSpace c = false := by
  have := toNat_of_digit_lt h
  have hspace : c ≠ ' ' := by
    rintro rfl
    simp at this
  simp [isSpace, hspace]
  omega

theorem scanSign_eq (hsign : Sign sign s) (hconstant : Constant constant m) (rest : List Char)
    : scanSign ((sign ++ (constant ++ rest)).dropWhile isSpace) = (s, constant ++ rest) := by
  obtain ⟨c, digits, rfl, hc⟩ := hconstant.head
  have hbounds := toNat_of_digit_lt hc
  cases hsign with
  | none =>
    rw [List.nil_append, List.cons_append, List.dropWhile_cons_of_neg (by simp [not_isSpace hc])]
    unfold scanSign
    split
    . next heq =>
      cases heq
      simp at hbounds
    . next heq =>
      cases heq
      simp at hbounds
    . rfl
  | plus => rfl
  | minus => rfl

theorem Denotes.scan_append (h : Denotes text n) (rest : List Char)
    : ∃ n' left, scan (text ++ rest) = some (n', left) ∧ left.length ≤ rest.length
        ∧ (rest = [] → n' = n) := by
  cases h with
  | @mk spaces sign constant s m hspaces hsign hconstant =>
    obtain ⟨m', left, hscan, hleft, hend⟩ := hconstant.scan_append rest
    refine ⟨s * m', left, ?_, hleft, ?_⟩
    . rw [List.append_assoc, List.append_assoc, scan, List.dropWhile_append_of_pos hspaces,
        scanSign_eq hsign hconstant]
      dsimp only
      rw [hscan, Option.map_some]
    . intro hnil
      rw [hend hnil]

theorem scanSign_sound (text : List Char)
    : ∃ sign, text = sign ++ (scanSign text).2 ∧ Sign sign (scanSign text).1 := by
  unfold scanSign
  split
  . exact ⟨['+'], rfl, .plus⟩
  . exact ⟨['-'], rfl, .minus⟩
  . exact ⟨[], rfl, .none⟩

theorem scan_sound (h : scan text = some (n, rest))
    : ∃ start, text = start ++ rest ∧ Denotes start n := by
  have hspaces : ∀ c ∈ text.takeWhile isSpace, isSpace c := fun c hc => List.mem_takeWhile_imp hc
  have hsplit := List.takeWhile_append_dropWhile (p := isSpace) (l := text)
  obtain ⟨sign, htext, hsign⟩ := scanSign_sound (text.dropWhile isSpace)
  obtain ⟨⟨m, left⟩, hscan, hmap⟩ := Option.map_eq_some_iff.mp h
  obtain ⟨constant, hrest, hconstant⟩ := scanConstant_sound hscan
  cases hmap
  rw [hrest] at htext
  rw [htext] at hsplit
  refine ⟨_, ?_, .mk hspaces hsign hconstant⟩
  rw [List.append_assoc, List.append_assoc]
  exact hsplit.symm

theorem denotes_iff : Denotes text n ↔ scan text = some (n, []) := by
  constructor
  . intro h
    obtain ⟨n', left, hscan, hleft, hend⟩ := h.scan_append []
    rw [List.append_nil] at hscan
    rw [hscan, hend rfl, List.eq_nil_of_length_eq_zero (Nat.le_zero.mp hleft)]
  . intro h
    obtain ⟨start, rfl, hstart⟩ := scan_sound h
    rw [List.append_nil]
    exact hstart

theorem leads_iff : Leads text n rest ↔ scan text = some (n, rest) := by
  constructor
  . rintro ⟨hstart, hlongest⟩
    obtain ⟨n', left, hscan, hleft, -⟩ := hstart.scan_append rest
    obtain ⟨start', hsplit, hstart'⟩ := scan_sound hscan
    have hle := hlongest start' left n' hsplit.symm hstart'
    obtain ⟨rfl, rfl⟩ := List.append_inj' hsplit (Nat.le_antisymm hle hleft)
    have hunique := (denotes_iff.mp hstart).symm.trans (denotes_iff.mp hstart')
    cases hunique
    exact hscan
  . intro h
    obtain ⟨start, rfl, hstart⟩ := scan_sound h
    refine .mk hstart ?_
    intro start' rest' n' hsplit hstart'
    obtain ⟨n'', left, hscan, hleft, -⟩ := hstart'.scan_append rest'
    rw [hsplit, h] at hscan
    cases hscan
    exact hleft

theorem Denotes.leads (h : Denotes text n) : Leads text n [] :=
  leads_iff.mpr (denotes_iff.mp h)

end Integers

section Printed

/-!
What is printed in base 10 is read back.
-/

variable {n : Nat}

theorem digit_digitChar (h : n < 10) : digit n.digitChar = n := by
  rw [digit, if_pos (by simpa using h), Nat.toNat_digitChar_sub_48_of_lt_ten h]

theorem value_concat {base : Nat} {digits : List Char} {c : Char}
    : value base (digits ++ [c]) = value base digits * base + digit c := by
  rw [value, List.reverse_concat, List.map_cons, Nat.ofDigits_cons, ← value, Nat.add_comm,
    Nat.mul_comm]

theorem value_singleton {base : Nat} {c : Char} : value base [c] = digit c := by
  simp [value]

theorem toDigits_eq (n : Nat)
    : ∃ c digits, Nat.toDigits 10 n = c :: digits ∧ (n ≠ 0 → c ≠ '0')
        ∧ (∀ d ∈ c :: digits, digit d < 10) ∧ value 10 (c :: digits) = n := by
  induction n using Nat.strongRecOn with
  | ind n ih =>
    by_cases hlt : n < 10
    . refine ⟨n.digitChar, [], Nat.toDigits_of_lt_base hlt, fun hn => by simpa using hn, ?_, ?_⟩
      . rw [List.forall_mem_singleton, digit_digitChar hlt]
        exact hlt
      . rw [value_singleton, digit_digitChar hlt]
    . have hmod : n % 10 < 10 := Nat.mod_lt n (by decide)
      obtain ⟨c, digits, heq, hc, hdigits, hvalue⟩ := ih (n / 10) (by omega)
      refine ⟨c, digits ++ [(n % 10).digitChar], ?_, fun _ => hc (by omega), ?_, ?_⟩
      . rw [Nat.toDigits_of_base_le (by decide) (by omega), heq, List.cons_append]
      . rw [← List.cons_append, List.forall_mem_append, List.forall_mem_singleton,
          digit_digitChar hmod]
        exact ⟨hdigits, hmod⟩
      . rw [← List.cons_append, value_concat, hvalue, digit_digitChar hmod]
        omega

theorem constant_toDigits (n : Nat) : Constant (Nat.toDigits 10 n) n := by
  by_cases hn : n = 0
  . subst hn
    have hzero : Constant ['0'] (value 8 ['0']) := .octal nofun
    rw [value_singleton] at hzero
    exact hzero
  . obtain ⟨c, digits, heq, hc, hdigits, hvalue⟩ := toDigits_eq n
    obtain ⟨hfirst, hrest⟩ := List.forall_mem_cons.mp hdigits
    have hconstant := Constant.decimal (hc hn) hfirst hrest
    rw [hvalue] at hconstant
    rw [heq]
    exact hconstant

theorem run_toDigits {rest : List Char} (hrest : ∀ c ∈ rest.head?, 10 ≤ digit c)
    : run 10 (Nat.toDigits 10 n ++ rest) = (n, rest) := by
  obtain ⟨c, digits, heq, _, hdigits, hvalue⟩ := toDigits_eq n
  have hstop : rest.takeWhile (digit · < 10) = [] ∧ rest.dropWhile (digit · < 10) = rest := by
    cases rest with
    | nil => exact ⟨rfl, rfl⟩
    | cons c rest =>
      have hc := hrest c rfl
      have hnot : ¬digit c < 10 := by omega
      rw [List.takeWhile_cons_of_neg (by simpa using hnot),
        List.dropWhile_cons_of_neg (by simpa using hnot)]
      exact ⟨rfl, rfl⟩
  rw [heq, run_append hdigits, hstop.1, hstop.2, List.append_nil, hvalue]

end Printed

end Numeral
