import Mathlib.Data.List.Basic

/-!
Linked lists in a store: each entry has a position, and a link that leads to the position of the
entry that follows, or nowhere.
-/

namespace Linked

variable {α β : Type} {pos : α → β} {next : α → Option β}

/--
The link `start` leads through the entries of a list, and the last of their links is `stop`.
-/
def Segment (pos : α → β) (next : α → Option β) (start : Option β) : List α → Option β → Prop
  | [], stop => start = stop
  | e :: es, stop => start = some (pos e) ∧ Segment pos next (next e) es stop

variable {start stop : Option β} {pre l post : List α} {x y z : α}

theorem Segment.append (h : Segment pos next start l stop) (hpos : stop = some (pos x))
    : Segment pos next start (l ++ [x]) (next x) := by
  induction l generalizing start with
  | nil =>
    rw [Segment] at h
    exact ⟨h.trans hpos, rfl⟩
  | cons e es ih => exact ⟨h.1, ih h.2⟩

theorem Segment.unlink (pre : List α)
    (h : Segment pos next start (pre ++ x :: y :: post) stop)
    (hpos : pos z = pos x) (hnext : next z = next y)
    : Segment pos next start (pre ++ z :: post) stop := by
  induction pre generalizing start with
  | nil =>
    refine ⟨?_, ?_⟩
    . rw [hpos]
      exact h.1
    . rw [hnext]
      exact h.2.2
  | cons e es ih => exact ⟨h.1, ih h.2⟩

theorem Segment.relink (h : Segment pos next start (pre ++ [x]) stop) (hpos : pos z = pos x)
    : Segment pos next start (pre ++ [z]) (next z) := by
  induction pre generalizing start with
  | nil =>
    refine ⟨?_, rfl⟩
    rw [hpos]
    exact h.1
  | cons e es ih => exact ⟨h.1, ih h.2⟩

theorem Segment.last (h : Segment pos next start (pre ++ x :: post) none) (hx : next x = none)
    : post = [] := by
  induction pre generalizing start with
  | nil =>
    cases post with
    | nil => rfl
    | cons y post => cases hx.symm.trans h.2.1
  | cons e es ih => exact ih h.2

theorem Segment.next_eq (h : Segment pos next start (pre ++ x :: y :: post) stop)
    : next x = some (pos y) := by
  induction pre generalizing start with
  | nil => exact h.2.1
  | cons e es ih => exact ih h.2

theorem Segment.stop_eq (h : Segment pos next start (pre ++ [x]) stop) : next x = stop := by
  induction pre generalizing start with
  | nil => exact h.2
  | cons e es ih => exact ih h.2

end Linked
