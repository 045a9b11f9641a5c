import Mathlib.Data.Nat.Find
import Mathlib.Order.Lattice

/-!
Entries that lie in groups, some of them not in use: the closest entry before another one, and the
first one whose key is below that of the closest entry before it.
-/

namespace Descent

/--
Which entries are in use, and which ones begin a group.
-/
structure Groups where
  used : Nat → Bool
  first : Nat → Bool

namespace Groups

def closest (t : Groups) : Nat → Option Nat
  | 0 => none
  | i + 1 => if t.first (i + 1) then none else if t.used i then some i else t.closest i

structure Neighbours (t : Groups) (j i : Nat) : Prop where
  lt : j < i
  left : t.used j = true
  right : t.used i = true
  between : ∀ k, j < k → k < i → t.used k = false
  together : ∀ k, j < k → k ≤ i → t.first k = false

variable {κ : Type} [LinearOrder κ]

/--
No entry before `n` has a key below that of the closest one before it.
-/
def Ascends (t : Groups) (key : Nat → κ) (n : Nat) : Prop :=
  ∀ j i, t.Neighbours j i → i < n → key j ≤ key i

structure Descends (t : Groups) (key : Nat → κ) (j i : Nat) : Prop where
  neighbours : t.Neighbours j i
  lt : key i < key j
  before : t.Ascends key i

/--
What a search of the entries before `n` for the first descent comes to.
-/
def Finds (t : Groups) (key : Nat → κ) (n : Nat) : Option (Nat × Nat) → Prop
  | none => t.Ascends key n
  | some (j, i) => i < n ∧ t.Descends key j i

variable {t : Groups} {key : Nat → κ} {i j j' n : Nat}

theorem closest_of_first (h : t.first (i + 1) = true) : t.closest (i + 1) = none := by
  rw [closest, if_pos h]

theorem closest_of_used (hfirst : t.first (i + 1) = false) (hused : t.used i = true)
    : t.closest (i + 1) = some i := by
  rw [closest, hfirst, if_neg Bool.false_ne_true, if_pos hused]

theorem closest_of_unused (hfirst : t.first (i + 1) = false) (hunused : t.used i = false)
    : t.closest (i + 1) = t.closest i := by
  rw [closest, hfirst, hunused, if_neg Bool.false_ne_true, if_neg Bool.false_ne_true]

theorem closest_eq_some_iff
    : t.closest i = some j ↔ j < i ∧ t.used j = true ∧ (∀ k, j < k → k < i → t.used k = false)
        ∧ ∀ k, j < k → k ≤ i → t.first k = false := by
  induction i with
  | zero =>
    refine iff_of_false (fun h => by cases h) ?_
    rintro ⟨hlt, _⟩
    omega
  | succ i ih =>
    cases hfirst : t.first (i + 1) with
    | true =>
      rw [closest_of_first hfirst]
      refine iff_of_false (fun h => by cases h) ?_
      rintro ⟨hlt, _, _, htogether⟩
      rw [htogether (i + 1) hlt (Nat.le_refl _)] at hfirst
      cases hfirst
    | false =>
      cases hused : t.used i with
      | true =>
        rw [closest_of_used hfirst hused, Option.some.injEq]
        constructor
        . rintro rfl
          refine ⟨by omega, hused, fun k _ _ => by omega, ?_⟩
          intro k hlt hle
          rw [show k = i + 1 by omega, hfirst]
        . rintro ⟨hlt, _, hbetween, _⟩
          -- Nothing in use lies behind `j`, but `i` is in use.
          by_contra hne
          rw [hbetween i (by omega) (by omega)] at hused
          cases hused
      | false =>
        rw [closest_of_unused hfirst hused, ih]
        constructor
        . rintro ⟨hlt, hj, hbetween, htogether⟩
          refine ⟨by omega, hj, ?_, ?_⟩
          . intro k hjk hk
            cases Nat.lt_succ_iff_lt_or_eq.mp hk with
            | inl hk => exact hbetween k hjk hk
            | inr hk => rw [hk, hused]
          . intro k hjk hk
            cases Nat.le_succ_iff.mp hk with
            | inl hk => exact htogether k hjk hk
            | inr hk => rw [hk, hfirst]
        . rintro ⟨hlt, hj, hbetween, htogether⟩
          have hne : j ≠ i := by
            rintro rfl
            rw [hused] at hj
            cases hj
          exact ⟨by omega, hj, fun k hjk hk => hbetween k hjk (by omega),
            fun k hjk hk => htogether k hjk (by omega)⟩

theorem neighbours_iff : t.Neighbours j i ↔ t.used i = true ∧ t.closest i = some j := by
  rw [closest_eq_some_iff]
  constructor
  . intro h
    exact ⟨h.right, h.lt, h.left, h.between, h.together⟩
  . rintro ⟨hright, hlt, hleft, hbetween, htogether⟩
    exact ⟨hlt, hleft, hright, hbetween, htogether⟩

theorem Neighbours.unique (h : t.Neighbours j i) (h' : t.Neighbours j' i) : j = j' :=
  Option.some.inj ((neighbours_iff.mp h).2.symm.trans (neighbours_iff.mp h').2)

theorem ascends_zero : t.Ascends key 0 :=
  fun _ _ _ hlt => absurd hlt (Nat.not_lt_zero _)

theorem Ascends.mono {m : Nat} (h : t.Ascends key n) (hle : m ≤ n) : t.Ascends key m :=
  fun j i hneighbours hlt => h j i hneighbours (by omega)

theorem Ascends.succ (h : t.Ascends key i) (hi : ∀ j, t.Neighbours j i → key j ≤ key i)
    : t.Ascends key (i + 1) := by
  intro j k hneighbours hlt
  cases Nat.lt_succ_iff_lt_or_eq.mp hlt with
  | inl hlt => exact h j k hneighbours hlt
  | inr heq =>
    subst heq
    exact hi j hneighbours

theorem exists_neighbours (hlt : j < i) (hleft : t.used j = true) (hright : t.used i = true)
    (htogether : ∀ k, j < k → k ≤ i → t.first k = false) : ∃ m, j ≤ m ∧ t.Neighbours m i := by
  -- the last used entry before `i`
  let m := Nat.findGreatest (fun k => t.used k = true) (i - 1)
  have hjm : j ≤ m := Nat.le_findGreatest (by omega) hleft
  have hmi : m ≤ i - 1 := Nat.findGreatest_le _
  refine ⟨m, hjm, by omega, ?_, hright, ?_, ?_⟩
  . exact Nat.findGreatest_spec (P := fun k => t.used k = true) (show j ≤ i - 1 by omega) hleft
  . intro k hmk hki
    rw [← Bool.not_eq_true]
    exact Nat.findGreatest_is_greatest hmk (by omega)
  . intro k hmk hki
    exact htogether k (by omega) hki

theorem ascends_iff
    : t.Ascends key n ↔ ∀ i < n, ∀ j < i, (∀ k, j < k → k ≤ i → t.first k = false) →
        t.used j = true → t.used i = true → key j ≤ key i := by
  constructor
  . intro h i
    induction i using Nat.strongRecOn with
    | ind i ih =>
      intro hi j hji htogether hleft hright
      -- induction on the later entry: its neighbour lies between the two
      obtain ⟨m, hjm, hm⟩ := exists_neighbours hji hleft hright htogether
      have hmi := hm.lt
      cases Nat.eq_or_lt_of_le hjm with
      | inl heq =>
        subst heq
        exact h j i hm hi
      | inr hlt =>
        have hjm := ih m hmi (by omega) j hlt (fun k hjk hkm => htogether k hjk (by omega)) hleft
          hm.left
        exact le_trans hjm (h m i hm hi)
  . intro h j i hneighbours hi
    exact h i hi j hneighbours.lt hneighbours.together hneighbours.left hneighbours.right

theorem Descends.lt_of_ascends (h : t.Descends key j i) (hascends : t.Ascends key n) : n ≤ i := by
  by_contra hlt
  exact absurd h.lt (not_lt.mpr (hascends j i h.neighbours (by omega)))

variable {κ' : Type} [LinearOrder κ']

/--
Two keys compare alike as far as the first descent of the first one.
-/
def Agree (t : Groups) (key : Nat → κ) (key' : Nat → κ') (n : Nat) : Prop :=
  ∀ j i, t.Neighbours j i → i < n → t.Ascends key i → (key i < key j ↔ key' i < key' j)

variable {key' : Nat → κ'} {r : Option (Nat × Nat)}

theorem Agree.ascends {m : Nat} (h : t.Agree key key' n) (hle : m ≤ n) (hascends : t.Ascends key' m)
    : t.Ascends key m := by
  induction m with
  | zero => exact ascends_zero
  | succ m ih =>
    have hm := ih (by omega) (hascends.mono (by omega))
    apply hm.succ
    intro j hneighbours
    rw [← not_lt, h j m hneighbours (by omega) hm, not_lt]
    exact hascends j m hneighbours (by omega)

theorem finds_iff_agree (h : t.Finds key' n r) : t.Finds key n r ↔ t.Agree key key' n := by
  cases r with
  | none =>
    constructor
    . intro hascends j i hneighbours hi _
      exact iff_of_false (not_lt.mpr (hascends j i hneighbours hi))
        (not_lt.mpr (h j i hneighbours hi))
    . intro hagree
      exact hagree.ascends (Nat.le_refl n) h
  | some r =>
    obtain ⟨hr, hdescends'⟩ := h
    constructor
    . rintro ⟨_, hdescends⟩ j i hneighbours hi hascends
      have hle := hdescends.lt_of_ascends hascends
      cases Nat.eq_or_lt_of_le hle with
      | inl heq =>
        subst heq
        obtain rfl := hneighbours.unique hdescends.neighbours
        exact iff_of_true hdescends.lt hdescends'.lt
      | inr hlt =>
        exact iff_of_false (not_lt.mpr (hdescends.before j i hneighbours hlt))
          (not_lt.mpr (hdescends'.before j i hneighbours hlt))
    . intro hagree
      have hbefore := hagree.ascends (by omega) hdescends'.before
      have hneighbours := hdescends'.neighbours
      exact ⟨hr, hneighbours, (hagree _ _ hneighbours hr hbefore).mpr hdescends'.lt, hbefore⟩

end Groups

end Descent
