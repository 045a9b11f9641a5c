import Mathlib.Data.List.Basic

/-!
Lists that are cut at a separator: lines that each end with it, fields that lie between two of them
and a head that ends at the first one. Each way of cutting undoes the way of putting together.
-/

namespace Separated

variable {α : Type} {c : α} {l : List α} {ls : List (List α)}

theorem flatMap_terminated : ls.flatMap (· ++ [c]) = [c].intercalate (ls ++ [[]]) := by
  induction ls with
  | nil => rfl
  | cons l ls ih =>
    rw [List.flatMap_cons, ih, List.cons_append, List.intercalate_cons_of_ne_nil (by simp)]

theorem infix_intercalate (h : l ∈ ls) : l <:+: [c].intercalate ls := by
  induction ls with
  | nil => cases h
  | cons first ls ih =>
    cases ls with
    | nil =>
      rw [List.mem_singleton.mp h]
      simp
    | cons second ls =>
      rw [List.intercalate_cons_cons]
      rcases List.mem_cons.mp h with rfl | h
      . rw [List.append_assoc]
        exact (List.prefix_append _ _).isInfix
      . exact (ih h).trans (List.suffix_append _ _).isInfix

theorem suffix_intercalate (h : ls.getLast? = some l) : l <:+ [c].intercalate ls := by
  induction ls with
  | nil => cases h
  | cons first ls ih =>
    cases ls with
    | nil =>
      obtain rfl : first = l := Option.some.inj h
      simp
    | cons second ls =>
      rw [List.intercalate_cons_cons]
      exact (ih (List.getLast?_cons_cons ▸ h)).trans (List.suffix_append _ _)

variable [DecidableEq α]

/--
The lines of a text, `none` when the last one is not ended.
-/
def lines (c : α) (text : List α) : Option (List (List α)) :=
  let pieces := text.splitOn c
  if pieces.getLast? = some [] then some pieces.dropLast else none

/--
The fields of a line. A line of nothing has none.
-/
def fields (c : α) (line : List α) : List (List α) :=
  if line = [] then [] else line.splitOn c

def cut (c : α) (line : List α) : Option (List α × List α) :=
  match line.dropWhile (· ≠ c) with
  | [] => none
  | _ :: rest => some (line.takeWhile (· ≠ c), rest)

theorem lines_terminated (h : ∀ l ∈ ls, c ∉ l) : lines c (ls.flatMap (· ++ [c])) = some ls := by
  have hsplit : (ls.flatMap (· ++ [c])).splitOn c = ls ++ [[]] := by
    rw [flatMap_terminated]
    apply List.splitOn_intercalate c
    . intro l hl
      rcases List.mem_append.mp hl with hl | hl
      . exact h l hl
      . simp_all
    . simp
  simp [lines, hsplit]

theorem fields_intercalate (h : ∀ l ∈ ls, c ∉ l ∧ l ≠ []) : fields c ([c].intercalate ls) = ls := by
  cases ls with
  | nil => rfl
  | cons l ls =>
    have hne : [c].intercalate (l :: ls) ≠ [] := by
      have hl := (h l List.mem_cons_self).2
      cases ls with
      | nil => simpa using hl
      | cons => simp [hl]
    rw [fields, if_neg hne]
    exact List.splitOn_intercalate c (fun l hl => (h l hl).1) (List.cons_ne_nil l ls)

theorem cut_append (rest : List α) (h : c ∉ l) : cut c (l ++ c :: rest) = some (l, rest) := by
  have hall : ∀ a ∈ l, decide (a ≠ c) = true := by
    intro a ha
    rw [decide_eq_true_iff]
    rintro rfl
    exact h ha
  rw [cut, List.dropWhile_append_of_pos hall, List.takeWhile_append_of_pos hall]
  simp

end Separated
