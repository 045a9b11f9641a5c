import FsBench.Lib.Loop

/-!
Programs on an array that remember at which indices it was read and written. An access outside the
array is `none`.
-/

structure Cells (α : Type) where
  cells : List α
  touched : List Nat

namespace Cells

variable {α : Type}

def read (i : Nat) : StateT (Cells α) Option α := fun m =>
  m.cells[i]?.map fun x => (x, { m with touched := i :: m.touched })

def write (i : Nat) (value : α) : StateT (Cells α) Option Unit := fun m =>
  if i < m.cells.length then
    some ((), { cells := m.cells.set i value, touched := i :: m.touched })
  else
    none

def loop (n : Nat) (body : Nat → StateT (Cells α) Option Unit) : StateT (Cells α) Option Unit :=
  fun m => (Loop.upTo n (fun i m => (body i m).map (·.2)) m).map fun m => ((), m)

/--
The program changes the array as `f` does and touches nothing but the indices below `bound`.
-/
def Implements (bound : Nat) (p : StateT (Cells α) Option Unit) (f : List α → Option (List α))
    : Prop :=
  ∀ m, p m = none ∧ f m.cells = none
    ∨ ∃ out touched, p m = some ((), { cells := out, touched := touched ++ m.touched })
        ∧ f m.cells = some out ∧ ∀ i ∈ touched, i < bound

section Rules

variable {bound wide : Nat} {p : StateT (Cells α) Option Unit} {f : List α → Option (List α)}

theorem read_of_some {i : Nat} {x : α} {m : Cells α} (h : m.cells[i]? = some x)
    : read i m = some (x, { m with touched := i :: m.touched }) := by
  simp [read, h]

theorem read_of_none {i : Nat} {m : Cells α} (h : m.cells[i]? = none) : read i m = none := by
  simp [read, h]

theorem pure_eq {m : Cells α} : (pure () : StateT (Cells α) Option Unit) m = some ((), m) :=
  rfl

theorem Implements.mono (hle : bound ≤ wide) (h : Implements bound p f) : Implements wide p f := by
  intro m
  rcases h m with hnone | ⟨out, touched, hp, hf, htouched⟩
  . left
    exact hnone
  . right
    refine ⟨out, touched, hp, hf, ?_⟩
    intro i hi
    apply Nat.lt_of_lt_of_le
    . exact htouched i hi
    . exact hle

theorem Implements.loop {n : Nat} {body : Nat → StateT (Cells α) Option Unit}
    {step : Nat → List α → Option (List α)} (h : ∀ i, i < n → Implements bound (body i) (step i))
    : Implements bound (loop n body) (Loop.upTo n step) := by
  intro m
  unfold Cells.loop
  induction n with
  | zero =>
    right
    exact ⟨m.cells, [], rfl, rfl, by simp⟩
  | succ n ih =>
    have hrest := ih fun i hi => h i (by omega)
    unfold Loop.upTo
    rcases hrest with ⟨hnone, hstep⟩ | ⟨mid, first, hmid, hstep, hfirst⟩
    . left
      simp_all
    . rw [hstep, Option.bind_some]
      generalize Loop.upTo n _ m = ran at hmid
      obtain ⟨t, rfl, ht⟩ := Option.map_eq_some_iff.mp hmid
      cases ht
      rw [Option.bind_some]
      rcases h n (by omega) ⟨mid, first ++ m.touched⟩ with ⟨hnone, hlast⟩ | ⟨out, last, hout, hlast, hin⟩
      . left
        simp [hnone, hlast]
      . right
        refine ⟨out, last ++ first, by simp [hout], hlast, ?_⟩
        intro i hi
        rcases List.mem_append.mp hi with hi | hi
        . exact hin i hi
        . exact hfirst i hi

end Rules

end Cells
