import Mathlib.Data.List.Basic

/-!
Things that are moved from place to place. A move replaces what is at its goal.
-/

namespace Moves

variable {α : Type} [DecidableEq α]

/--
Where the moves leave what is at `a`, if they do not replace it.
-/
def whereabouts (a : α) : List (α × α) → Option α
  | [] => some a
  | (source, goal) :: moves =>
    if source = a then whereabouts goal moves
    else if goal = a then none
    else whereabouts a moves

def movesOf (a : α) : List (α × α) → List (α × α)
  | [] => []
  | (source, goal) :: moves =>
    if source = a then (source, goal) :: movesOf goal moves
    else if goal = a then []
    else movesOf a moves

variable {a b source goal : α} {moves : List (α × α)}

theorem whereabouts_append (more : List (α × α))
    : whereabouts a (moves ++ more) = (whereabouts a moves).bind (whereabouts · more) := by
  induction moves generalizing a with
  | nil => rfl
  | cons move moves ih =>
    obtain ⟨source, goal⟩ := move
    rw [List.cons_append, whereabouts, whereabouts]
    split
    . rw [ih]
    . split
      . rfl
      . rw [ih]

theorem movesOf_append (more : List (α × α))
    : movesOf a (moves ++ more)
      = movesOf a moves ++ (whereabouts a moves).elim [] (movesOf · more) := by
  induction moves generalizing a with
  | nil => rfl
  | cons move moves ih =>
    obtain ⟨source, goal⟩ := move
    rw [List.cons_append, movesOf, movesOf, whereabouts]
    split
    . rw [ih, List.cons_append]
    . split
      . rfl
      . rw [ih]

theorem movesOf_prefix (more : List (α × α)) : movesOf a moves <+: movesOf a (moves ++ more) := by
  rw [movesOf_append]
  exact List.prefix_append _ _

theorem moved (goal : α) (h : whereabouts a moves = some source)
    : whereabouts a (moves ++ [(source, goal)]) = some goal
      ∧ movesOf a (moves ++ [(source, goal)]) = movesOf a moves ++ [(source, goal)] := by
  rw [whereabouts_append, movesOf_append, h]
  simp [whereabouts, movesOf]

theorem kept (h : whereabouts a moves = some b) (hsource : source ≠ b) (hgoal : goal ≠ b)
    : whereabouts a (moves ++ [(source, goal)]) = some b
      ∧ movesOf a (moves ++ [(source, goal)]) = movesOf a moves := by
  rw [whereabouts_append, movesOf_append, h]
  simp [whereabouts, movesOf, hsource, hgoal]

theorem replaced (h : whereabouts a moves = some goal) (hsource : source ≠ goal)
    (more : List (α × α)) : movesOf a (moves ++ [(source, goal)] ++ more) = movesOf a moves := by
  rw [movesOf_append, movesOf_append, whereabouts_append, h]
  simp [whereabouts, movesOf, hsource]

end Moves
