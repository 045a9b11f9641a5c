import Mathlib

/-!
Components that take their steps on one state in any order, each of them on a part of the state that
the others do not touch. What a component sees is then what it would see alone.
-/

namespace Weave

variable {ι α σ τ : Type}

/--
The steps of one component, in the order in which it takes them.
-/
def stepsOf [DecidableEq ι] (i : ι) (as : List (ι × α)) : List α :=
  as.filterMap fun (j, a) => if j = i then some a else none

def run (step : ι → α → σ → Option σ) (s : σ) (as : List (ι × α)) : Option σ :=
  as.foldlM (fun s (i, a) => step i a s) s

/--
What component `i` reads and writes is all in `view i`: there its steps are those of `own i`, and
those of the others do nothing.
-/
structure Separate (step : ι → α → σ → Option σ) (view : ι → σ → τ)
    (own : ι → α → τ → Option τ) : Prop where
  own_eq : ∀ i a s, (step i a s).map (view i) = own i a (view i s)
  other_eq : ∀ i j a s t, step i a s = some t → j ≠ i → view j t = view j s

variable {step : ι → α → σ → Option σ} {view : ι → σ → τ} {own : ι → α → τ → Option τ}
variable {i j : ι} {a : α} {as bs : List (ι × α)} {s t : σ}

theorem run_cons : run step s ((i, a) :: as) = (step i a s).bind (run step · as) :=
  rfl

theorem run_invariant (Inv : σ → Prop)
    (hstep : ∀ i a s t, Inv s → step i a s = some t → Inv t) (h : run step s as = some t)
    (hs : Inv s) : Inv t := by
  induction as generalizing s with
  | nil =>
    cases h
    exact hs
  | cons action as ih =>
    obtain ⟨i, a⟩ := action
    rw [run_cons] at h
    obtain ⟨mid, hmid, hrest⟩ := Option.bind_eq_some_iff.mp h
    exact ih hrest (hstep i a s mid hs hmid)

theorem run_keeps {κ : Type} (f : σ → κ) (hstep : ∀ i a s t, step i a s = some t → f t = f s)
    (h : run step s as = some t) : f t = f s :=
  run_invariant (fun t => f t = f s) (fun i a u v hu huv => (hstep i a u v huv).trans hu) h rfl

variable [DecidableEq ι]

theorem stepsOf_cons_self : stepsOf i ((i, a) :: as) = a :: stepsOf i as := by
  simp [stepsOf]

theorem stepsOf_cons_ne (h : j ≠ i) : stepsOf i ((j, a) :: as) = stepsOf i as := by
  simp [stepsOf, h]

theorem sum_stepsOf [Fintype ι] (f : ι → α → Nat) (as : List (ι × α))
    : (as.map fun action => f action.1 action.2).sum = ∑ i, ((stepsOf i as).map (f i)).sum := by
  induction as with
  | nil => exact Finset.sum_const_zero.symm
  | cons action as ih =>
    obtain ⟨i, a⟩ := action
    have hcons (j : ι) : ((stepsOf j ((i, a) :: as)).map (f j)).sum
        = (if i = j then f i a else 0) + ((stepsOf j as).map (f j)).sum := by
      by_cases hij : i = j
      . subst hij
        rw [stepsOf_cons_self, List.map_cons, List.sum_cons, if_pos rfl]
      . rw [stepsOf_cons_ne hij, if_neg hij, Nat.zero_add]
    rw [Finset.sum_congr rfl fun j _ => hcons j, Finset.sum_add_distrib, Finset.sum_ite_eq,
      if_pos (Finset.mem_univ i), ← ih, List.map_cons, List.sum_cons]

namespace Separate

theorem view_run (h : Separate step view own) (hrun : run step s as = some t) (i : ι)
    : (stepsOf i as).foldlM (fun v a => own i a v) (view i s) = some (view i t) := by
  induction as generalizing s with
  | nil =>
    cases hrun
    rfl
  | cons action as ih =>
    obtain ⟨j, a⟩ := action
    rw [run_cons] at hrun
    obtain ⟨mid, hmid, hrest⟩ := Option.bind_eq_some_iff.mp hrun
    by_cases hji : j = i
    . subst hji
      have hown := h.own_eq j a s
      rw [hmid, Option.map_some] at hown
      rw [stepsOf_cons_self, List.foldlM_cons, ← hown, Option.bind_eq_bind, Option.bind_some]
      exact ih hrest
    . rw [stepsOf_cons_ne hji, ← h.other_eq j i a s mid hmid (Ne.symm hji)]
      exact ih hrest

theorem exists_run (h : Separate step view own)
    (hown : ∀ i, ∃ v, (stepsOf i as).foldlM (fun v a => own i a v) (view i s) = some v)
    : ∃ t, run step s as = some t := by
  induction as generalizing s with
  | nil => exact ⟨s, rfl⟩
  | cons action as ih =>
    obtain ⟨j, a⟩ := action
    obtain ⟨v, hv⟩ := hown j
    rw [stepsOf_cons_self, List.foldlM_cons] at hv
    obtain ⟨w, hw, _⟩ := Option.bind_eq_some_iff.mp hv
    rw [← h.own_eq] at hw
    obtain ⟨mid, hmid, rfl⟩ := Option.map_eq_some_iff.mp hw
    rw [run_cons, hmid]
    apply ih
    intro i
    obtain ⟨v, hv⟩ := hown i
    by_cases hji : j = i
    . subst hji
      have hown := h.own_eq j a s
      rw [hmid, Option.map_some] at hown
      rw [stepsOf_cons_self, List.foldlM_cons, ← hown] at hv
      exact ⟨v, hv⟩
    . rw [stepsOf_cons_ne hji, ← h.other_eq j i a s mid hmid (Ne.symm hji)] at hv
      exact ⟨v, hv⟩

end Separate

end Weave
