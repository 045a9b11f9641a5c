import FsBench.Lib.Cells
import FsBench.Lib.Loop
import Mathlib.Data.List.Basic
import Mathlib.Data.Int.Order.Basic
import Mathlib.Order.MinMax

/-!
`sys_bubble_sort` of common/utils.c, on the values of the array and, access by access, on its cells.
An access outside the array is `none`.
-/

namespace FsBench

def sysBubbleSort.compareSwap (j : Nat) (arr : List Int) : Option (List Int) := do
  let x ← arr[j]?
  let y ← arr[j + 1]?
  if x > y then
    some ((arr.set j y).set (j + 1) x)
  else
    some arr

def sysBubbleSort.pass (m : Nat) (arr : List Int) : Option (List Int) :=
  Loop.upTo m compareSwap arr

def sysBubbleSort (arr : List Int) (len : Nat) : Option (List Int) :=
  Loop.upTo (len - 1) (fun i arr => sysBubbleSort.pass (len - 1 - i) arr) arr

namespace sysBubbleSort

variable {arr out : List Int} {len m : Nat}

theorem compareSwap_perm {j : Nat} (h : compareSwap j arr = some out) : out.Perm arr := by
  unfold compareSwap at h
  simp only [Option.bind_eq_bind, Option.bind_eq_some_iff] at h
  obtain ⟨x, hx, y, hy, h⟩ := h
  rw [List.getElem?_eq_some_iff] at hx hy
  obtain ⟨hj, rfl⟩ := hx
  obtain ⟨hj1, rfl⟩ := hy
  split at h
  . cases h
    exact List.set_set_perm hj hj1
  . cases h
    exact List.Perm.refl _

theorem compareSwap_spec {j : Nat} (hj : j + 1 < arr.length)
    : ∃ out, compareSwap j arr = some out
        ∧ out[j]? = some (min arr[j] arr[j + 1])
        ∧ out[j + 1]? = some (max arr[j] arr[j + 1])
        ∧ ∀ k, k ≠ j → k ≠ j + 1 → out[k]? = arr[k]? := by
  have hj' : j < arr.length := by omega
  unfold compareSwap
  simp only [List.getElem?_eq_getElem hj, List.getElem?_eq_getElem hj', Option.bind_eq_bind,
    Option.bind_some]
  split
  . next hgt =>
    refine ⟨_, rfl, ?_, ?_, ?_⟩
    . rw [List.getElem?_set_ne (by omega), List.getElem?_set_self hj', min_eq_right (by omega)]
    . rw [List.getElem?_set_self (by simpa using hj), max_eq_left (by omega)]
    . intro k hkj hkj1
      rw [List.getElem?_set_ne (by omega), List.getElem?_set_ne (by omega)]
  . next hle =>
    refine ⟨_, rfl, ?_, ?_, ?_⟩
    . rw [List.getElem?_eq_getElem hj', min_eq_left (by omega)]
    . rw [List.getElem?_eq_getElem hj, max_eq_right (by omega)]
    . intros
      rfl

/--
After the comparisons below `j` the largest of the first `j + 1` entries is at `j`.
-/
structure Bubbled (arr : List Int) (j : Nat) (out : List Int) : Prop where
  perm : out.Perm arr
  top : ∀ k x y, k ≤ j → out[k]? = some x → out[j]? = some y → x ≤ y
  source : ∀ k x, k ≤ j → out[k]? = some x → ∃ l, l ≤ j ∧ arr[l]? = some x
  frame : ∀ k, j < k → out[k]? = arr[k]?

theorem Bubbled.step {j : Nat} (hj : j + 1 < arr.length) (h : Bubbled arr j out)
    : ∃ next, compareSwap j out = some next ∧ Bubbled arr (j + 1) next := by
  have hlen : j + 1 < out.length := by
    rw [h.perm.length_eq]
    exact hj
  obtain ⟨next, hnext, hmin, hmax, hrest⟩ := compareSwap_spec hlen
  have hcur : out[j]? = some out[j] := List.getElem?_eq_getElem (by omega)
  have hsucc : out[j + 1]? = some out[j + 1] := List.getElem?_eq_getElem hlen
  have hsource : ∀ l x, l ≤ j + 1 → out[l]? = some x → ∃ k, k ≤ j + 1 ∧ arr[k]? = some x := by
    intro l x hl hx
    cases Nat.lt_or_ge j l with
    | inl hlt => exact ⟨l, hl, by rw [← h.frame l hlt]; exact hx⟩
    | inr hge =>
      obtain ⟨k, hk, hkx⟩ := h.source l x hge hx
      exact ⟨k, by omega, hkx⟩
  refine ⟨next, hnext, (compareSwap_perm hnext).trans h.perm, ?_, ?_, ?_⟩
  . -- the larger one of the two that were compared is now at `j + 1`
    intro k x y hk hx hy
    rw [hmax] at hy
    cases hy
    by_cases hkj1 : k = j + 1
    . subst hkj1
      rw [hmax] at hx
      cases hx
      exact le_refl _
    by_cases hkj : k = j
    . subst hkj
      rw [hmin] at hx
      cases hx
      exact min_le_max
    . rw [hrest k hkj hkj1] at hx
      exact le_max_of_le_left (h.top k x _ (by omega) hx hcur)
  . intro k x hk hx
    by_cases hkj1 : k = j + 1
    . subst hkj1
      rw [hmax] at hx
      cases hx
      cases max_choice out[j] out[j + 1] with
      | inl heq => exact hsource j _ (by omega) (by rw [heq]; exact hcur)
      | inr heq => exact hsource (j + 1) _ (by omega) (by rw [heq]; exact hsucc)
    by_cases hkj : k = j
    . subst hkj
      rw [hmin] at hx
      cases hx
      cases min_choice out[k] out[k + 1] with
      | inl heq => exact hsource k _ (by omega) (by rw [heq]; exact hcur)
      | inr heq => exact hsource (k + 1) _ (by omega) (by rw [heq]; exact hsucc)
    . rw [hrest k hkj hkj1] at hx
      exact hsource k x hk hx
  . intro k hk
    rw [hrest k (by omega) (by omega)]
    exact h.frame k (by omega)

theorem pass_spec (hm : m < arr.length) : ∃ out, pass m arr = some out ∧ Bubbled arr m out := by
  apply Loop.upTo_invariant (Bubbled arr)
  . refine ⟨List.Perm.refl _, ?_, ?_, ?_⟩
    . intro k x y hk hx hy
      have : k = 0 := by omega
      subst this
      rw [hx] at hy
      cases hy
      exact le_refl _
    . intro k x hk hx
      exact ⟨k, hk, hx⟩
    . intros
      rfl
  . intro j t hj ht
    exact ht.step (by omega)

/--
After `i` passes the last `i` of the first `len` entries are at or above everything before them.
-/
structure Settled (arr : List Int) (len i : Nat) (out : List Int) : Prop where
  perm : out.Perm arr
  above : ∀ k l x y, len ≤ l + i → l < len → k ≤ l → out[k]? = some x → out[l]? = some y → x ≤ y
  frame : ∀ k, len ≤ k → out[k]? = arr[k]?

theorem Settled.step {i : Nat} (hlen : len ≤ arr.length) (hi : i < len - 1)
    (h : Settled arr len i out)
    : ∃ next, pass (len - 1 - i) out = some next ∧ Settled arr len (i + 1) next := by
  have := h.perm.length_eq
  have hlast : len - 1 - i < out.length := by omega
  obtain ⟨next, hnext, hbub⟩ := pass_spec hlast
  refine ⟨next, hnext, hbub.perm.trans h.perm, ?_, ?_⟩
  . intro k l x y hli hl hkl hx hy
    cases Nat.lt_or_ge (len - 1 - i) l with
    | inr hge =>
      have : l = len - 1 - i := by omega
      subst this
      exact hbub.top k x y hkl hx hy
    | inl hlt =>
      rw [hbub.frame l hlt] at hy
      cases Nat.lt_or_ge (len - 1 - i) k with
      | inl hltk =>
        rw [hbub.frame k hltk] at hx
        exact h.above k l x y (by omega) hl hkl hx hy
      | inr hgek =>
        obtain ⟨k', hk', hx⟩ := hbub.source k x hgek hx
        exact h.above k' l x y (by omega) hl (by omega) hx hy
  . intro k hk
    rw [hbub.frame k (by omega)]
    exact h.frame k hk

theorem settled (hlen : len ≤ arr.length)
    : ∃ out, sysBubbleSort arr len = some out ∧ Settled arr len (len - 1) out := by
  apply Loop.upTo_invariant (Settled arr len)
  . refine ⟨List.Perm.refl _, ?_, ?_⟩
    . intro k l x y hle hl
      omega
    . intros
      rfl
  . intro i t hi ht
    exact ht.step hlen hi

end sysBubbleSort

theorem sysBubbleSort_sorts {arr : List Int} {len : Nat} (hlen : len ≤ arr.length)
    : ∃ out, sysBubbleSort arr len = some out
        ∧ (out.take len).Pairwise (· ≤ ·)
        ∧ (out.take len).Perm (arr.take len)
        ∧ out.drop len = arr.drop len := by
  obtain ⟨out, hout, h⟩ := sysBubbleSort.settled hlen
  have hdrop : out.drop len = arr.drop len := by
    apply List.ext_getElem?
    intro k
    rw [List.getElem?_drop, List.getElem?_drop]
    exact h.frame _ (by omega)
  refine ⟨out, hout, ?_, ?_, hdrop⟩
  . rw [List.pairwise_iff_getElem]
    intro k l hk hl hkl
    simp only [List.length_take] at hk hl
    simp only [List.getElem_take]
    apply h.above k l _ _ (by omega) (by omega) (by omega)
    . exact List.getElem?_eq_getElem (by omega)
    . exact List.getElem?_eq_getElem (by omega)
  . have hperm := h.perm
    rw [← List.take_append_drop len out, ← List.take_append_drop len arr, hdrop] at hperm
    exact (List.perm_append_right_iff _).mp hperm

/--
The body of the inner loop with all its reads and writes.
-/
def sysBubbleSort.compareSwapCells (j : Nat) : StateT (Cells Int) Option Unit := do
  if (← Cells.read j) > (← Cells.read (j + 1)) then
    let temp ← Cells.read j
    Cells.write j (← Cells.read (j + 1))
    Cells.write (j + 1) temp

def sysBubbleSort.passCells (m : Nat) : StateT (Cells Int) Option Unit :=
  Cells.loop m compareSwapCells

def sysBubbleSortCells (len : Nat) : StateT (Cells Int) Option Unit :=
  Cells.loop (len - 1) fun i => sysBubbleSort.passCells (len - 1 - i)

namespace sysBubbleSort

open Cells (Implements)

theorem compareSwapCells_implements (j : Nat)
    : Implements (j + 2) (compareSwapCells j) (compareSwap j) := by
  intro m
  unfold compareSwapCells compareSwap
  cases hx : m.cells[j]? with
  | none =>
    left
    simp [bind, StateT.bind, Cells.read_of_none hx]
  | some x =>
    cases hy : m.cells[j + 1]? with
    | none =>
      left
      simp [bind, StateT.bind, Cells.read_of_some hx, Cells.read_of_none, hy]
    | some y =>
      have hj : j + 1 < m.cells.length := (List.getElem?_eq_some_iff.mp hy).1
      have hreads : ∀ touched, Cells.read j ⟨m.cells, touched⟩ = some (x, ⟨m.cells, j :: touched⟩)
          ∧ Cells.read (j + 1) ⟨m.cells, touched⟩ = some (y, ⟨m.cells, (j + 1) :: touched⟩) :=
        fun touched => ⟨Cells.read_of_some hx, Cells.read_of_some hy⟩
      right
      by_cases hgt : x > y
      . refine ⟨(m.cells.set j y).set (j + 1) x, [j + 1, j, j + 1, j, j + 1, j], ?_, ?_, ?_⟩
        . simp [bind, StateT.bind, hreads, hgt, Cells.write, hj, Nat.lt_of_succ_lt hj]
        . simp [hgt]
        . simp
      . refine ⟨m.cells, [j + 1, j], ?_, ?_, ?_⟩
        . simp [bind, StateT.bind, hreads, hgt, Cells.pure_eq]
        . simp [hgt]
        . simp

theorem sortCells_implements (len : Nat)
    : Implements len (sysBubbleSortCells len) (fun arr => sysBubbleSort arr len) := by
  apply Implements.loop
  intro i hi
  apply Implements.loop
  intro j hj
  apply (compareSwapCells_implements j).mono
  omega

end sysBubbleSort

theorem sysBubbleSort_spec {arr : List Int} {len : Nat} (hlen : len ≤ arr.length)
    : ∃ out touched,
        sysBubbleSortCells len { cells := arr, touched := [] }
            = some ((), { cells := out, touched })
          ∧ sysBubbleSort arr len = some out
          ∧ (out.take len).Pairwise (· ≤ ·)
          ∧ (out.take len).Perm (arr.take len)
          ∧ out.drop len = arr.drop len
          ∧ ∀ i ∈ touched, i < len := by
  obtain ⟨out, hout, hsorted, hperm, hdrop⟩ := sysBubbleSort_sorts hlen
  rcases sysBubbleSort.sortCells_implements len ⟨arr, []⟩ with
    ⟨-, hnone⟩ | ⟨out', touched, hcells, hout', htouched⟩
  . cases hout.symm.trans hnone
  . cases hout.symm.trans hout'
    rw [List.append_nil] at hcells
    exact ⟨out, touched, hcells, hout, hsorted, hperm, hdrop, htouched⟩

theorem sysBubbleSort_spec_three
    : ∃ out touched,
        sysBubbleSortCells 3 { cells := [5, -1, 3, 0], touched := [] }
            = some ((), { cells := out, touched })
          ∧ sysBubbleSort [5, -1, 3, 0] 3 = some out
          ∧ (out.take 3).Pairwise (· ≤ ·)
          ∧ (out.take 3).Perm [5, -1, 3]
          ∧ out.drop 3 = [0]
          ∧ ∀ i ∈ touched, i < 3 := by
  have hlen : 3 ≤ [5, -1, 3, (0 : Int)].length := by decide
  exact sysBubbleSort_spec hlen

end FsBench
