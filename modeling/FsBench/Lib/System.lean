import Mathlib.Logic.Relation

/-!
Labelled transition systems and their runs.
-/

structure System (σ α : Type) where
  init : σ → Prop
  step : σ → α → σ → Prop

namespace System

variable {σ α : Type} {S : System σ α}

/--
`S.Run s as t`: the labels `as`, taken in order, lead from `s` to `t`.
-/
inductive Run (S : System σ α) : σ → List α → σ → Prop where
  | nil (s : σ) : Run S s [] s
  | snoc {s t u : σ} {as : List α} {a : α} : Run S s as t → S.step t a u → Run S s (as ++ [a]) u

def Reachable (S : System σ α) (s : σ) : Prop :=
  ∃ s₀ as, S.init s₀ ∧ S.Run s₀ as s

theorem Run.trans {s t u : σ} {as bs : List α} (h₁ : S.Run s as t) (h₂ : S.Run t bs u)
    : S.Run s (as ++ bs) u := by
  induction h₂ with
  | nil => simpa using h₁
  | snoc _ hstep ih =>
    rw [← List.append_assoc]
    exact .snoc ih hstep

theorem Run.single {s t : σ} {a : α} (h : S.step s a t) : S.Run s [a] t :=
  .snoc (.nil s) h

theorem Run.split {s u : σ} (as : List α) {bs : List α} (h : S.Run s (as ++ bs) u)
    : ∃ t, S.Run s as t ∧ S.Run t bs u := by
  generalize hlabels : as ++ bs = labels at h
  induction h generalizing bs with
  | nil =>
    obtain ⟨rfl, rfl⟩ := List.append_eq_nil_iff.mp hlabels
    exact ⟨s, .nil s, .nil s⟩
  | @snoc t u labels a hrun hstep ih =>
    cases List.eq_nil_or_concat bs with
    | inl hnil =>
      subst hnil
      rw [List.append_nil] at hlabels
      subst hlabels
      exact ⟨u, .snoc hrun hstep, .nil u⟩
    | inr hconcat =>
      obtain ⟨bs, b, rfl⟩ := hconcat
      rw [List.concat_eq_append, ← List.append_assoc] at hlabels
      obtain ⟨hfront, hlast⟩ := List.append_inj' hlabels rfl
      cases hlast
      obtain ⟨mid, has, hbs⟩ := ih hfront
      rw [List.concat_eq_append]
      exact ⟨mid, has, .snoc hbs hstep⟩

theorem Run.eq_of_nil {s t : σ} (h : S.Run s [] t) : t = s := by
  generalize hlabels : [] = as at h
  cases h with
  | nil => rfl
  | snoc => simp at hlabels

theorem Run.step_of_single {s t : σ} {a : α} (h : S.Run s [a] t) : S.step s a t := by
  generalize hlabels : [a] = as at h
  cases h with
  | nil => cases hlabels
  | snoc hrun hstep =>
    rw [← List.nil_append [a]] at hlabels
    obtain ⟨hnil, hlast⟩ := List.append_inj' hlabels rfl
    cases hlast
    subst hnil
    rw [hrun.eq_of_nil] at hstep
    exact hstep

theorem Reachable.of_init {s : σ} (h : S.init s) : S.Reachable s :=
  ⟨s, [], h, .nil s⟩

theorem Reachable.run {s t : σ} {as : List α} (h : S.Reachable s) (hrun : S.Run s as t)
    : S.Reachable t := by
  obtain ⟨s₀, bs, hinit, hbs⟩ := h
  exact ⟨s₀, bs ++ as, hinit, hbs.trans hrun⟩

theorem Reachable.step {s t : σ} {a : α} (h : S.Reachable s) (hstep : S.step s a t)
    : S.Reachable t :=
  h.run (.single hstep)

theorem Run.invariant {Inv : σ → Prop} (hstep : ∀ s a t, Inv s → S.step s a t → Inv t)
    {s t : σ} {as : List α} (hrun : S.Run s as t) (hs : Inv s) : Inv t := by
  induction hrun with
  | nil => exact hs
  | snoc _ h ih => exact hstep _ _ _ ih h

theorem Run.labels (Inv : σ → Prop) (P : α → Prop)
    (hstep : ∀ s a t, Inv s → S.step s a t → Inv t ∧ P a) {s t : σ} {as : List α}
    (hrun : S.Run s as t) (hs : Inv s) : ∀ a ∈ as, P a := by
  induction hrun with
  | nil => exact fun _ h => absurd h List.not_mem_nil
  | @snoc t u as a hrun h ih =>
    intro b hb
    cases List.mem_append.mp hb with
    | inl hmem => exact ih b hmem
    | inr hmem =>
      rw [List.mem_singleton.mp hmem]
      exact (hstep t a u (hrun.invariant (fun s a t hs h => (hstep s a t hs h).1) hs) h).2

theorem Reachable.invariant {Inv : σ → Prop} (hinit : ∀ s, S.init s → Inv s)
    (hstep : ∀ s a t, Inv s → S.step s a t → Inv t) {s : σ} (h : S.Reachable s) : Inv s := by
  obtain ⟨s₀, as, h₀, hrun⟩ := h
  exact hrun.invariant hstep (hinit s₀ h₀)

theorem Reachable.map {τ β : Type} {T : System τ β} (f : σ → τ) (Inv : σ → Prop)
    (hinit : ∀ s, S.init s → Inv s ∧ T.init (f s))
    (hstep : ∀ s a t, Inv s → S.step s a t →
      Inv t ∧ (f t = f s ∨ ∃ b, T.step (f s) b (f t)))
    {s : σ} (h : S.Reachable s) : T.Reachable (f s) := by
  have hboth : Inv s ∧ T.Reachable (f s) := by
    refine Reachable.invariant (?_ : ∀ s, S.init s → Inv s ∧ T.Reachable (f s)) ?_ h
    . intro s hs
      exact ⟨(hinit s hs).1, .of_init (hinit s hs).2⟩
    . intro s a t ⟨hinv, hs⟩ ht
      obtain ⟨hnext, hsame | ⟨b, hb⟩⟩ := hstep s a t hinv ht
      . rw [hsame]
        exact ⟨hnext, hs⟩
      . exact ⟨hnext, hs.step hb⟩
  exact hboth.2

theorem Run.project {τ β : Type} {T : System τ β} (f : σ → τ) (g : α → Option β)
    {s t : σ} {as : List α} (h : S.Run s as t)
    (hseen : ∀ s a t b, a ∈ as → S.step s a t → g a = some b → T.step (f s) b (f t))
    (hunseen : ∀ s a t, a ∈ as → S.step s a t → g a = none → f t = f s)
    : T.Run (f s) (as.filterMap g) (f t) := by
  induction h with
  | nil => exact .nil _
  | @snoc t u as a _ hlast ih =>
    have hrun := ih (fun s b t c hb => hseen s b t c (List.mem_append_left _ hb))
      (fun s b t hb => hunseen s b t (List.mem_append_left _ hb))
    have hmem : a ∈ as ++ [a] := List.mem_append_right _ (List.mem_singleton_self a)
    rw [List.filterMap_append]
    cases hlabel : g a with
    | none =>
      rw [List.filterMap_cons_none hlabel, List.filterMap_nil, List.append_nil,
        hunseen t a u hmem hlast hlabel]
      exact hrun
    | some b =>
      rw [List.filterMap_cons_some hlabel, List.filterMap_nil]
      exact .snoc hrun (hseen t a u b hmem hlast hlabel)

structure Trace (S : System σ α) (run : Nat → σ) (act : Nat → α) : Prop where
  init : S.init (run 0)
  step : ∀ n, S.step (run n) (act n) (run (n + 1))

namespace Trace

variable {run : Nat → σ} {act : Nat → α}

theorem reachable (h : S.Trace run act) (n : Nat) : S.Reachable (run n) := by
  induction n with
  | zero => exact .of_init h.init
  | succ n ih => exact ih.step (h.step n)

theorem stable (h : S.Trace run act) {P : σ → Prop}
    (hstep : ∀ s a t, S.Reachable s → P s → S.step s a t → P t) {n m : Nat} (hle : n ≤ m)
    (hn : P (run n)) : P (run m) := by
  induction hle with
  | refl => exact hn
  | step _ ih => exact hstep _ _ _ (h.reachable _) ih (h.step _)

theorem eventually_all (h : S.Trace run act) {ι : Type} {P : ι → σ → Prop} (l : List ι)
    (hstep : ∀ i s a t, S.Reachable s → P i s → S.step s a t → P i t) (n : Nat)
    (hcome : ∀ i ∈ l, ∃ m, n ≤ m ∧ P i (run m)) : ∃ m, n ≤ m ∧ ∀ i ∈ l, P i (run m) := by
  induction l with
  | nil => exact ⟨n, Nat.le_refl n, nofun⟩
  | cons i l ih =>
    obtain ⟨m, hm, hrest⟩ := ih fun j hj => hcome j (List.mem_cons_of_mem i hj)
    obtain ⟨m', hm', hi⟩ := hcome i List.mem_cons_self
    refine ⟨max m m', Nat.le_trans hm (Nat.le_max_left m m'), ?_⟩
    intro j hj
    cases List.mem_cons.mp hj with
    | inl heq =>
      rw [heq]
      exact h.stable (hstep i) (Nat.le_max_right m m') hi
    | inr hmem => exact h.stable (hstep j) (Nat.le_max_left m m') (hrest j hmem)

theorem leads (h : S.Trace run act) (Inv Goal : σ → Prop) (variant : σ → Nat) (gain : α → Prop)
    (hstep : ∀ s a t, S.Reachable s → Inv s → S.step s a t →
      Goal t ∨ Inv t ∧ variant t ≤ variant s ∧ (gain a → variant t < variant s))
    (hfair : ∀ n, ∃ m, n ≤ m ∧ (Goal (run m) ∨ gain (act m))) {n : Nat} (hn : Inv (run n))
    : ∃ m, n ≤ m ∧ Goal (run m) := by
  generalize hv : variant (run n) = v
  induction v using Nat.strongRecOn generalizing n with
  | ind v ih =>
    refine Classical.byContradiction fun hnever => ?_
    -- As the goal is not reached the invariant stays and the variant does not grow.
    have hkeep : ∀ m, n ≤ m → Inv (run m) ∧ variant (run m) ≤ v := by
      intro m hle
      induction hle with
      | refl => exact ⟨hn, Nat.le_of_eq hv⟩
      | @step m hle ihm =>
        rcases hstep _ _ _ (h.reachable m) ihm.1 (h.step m) with hgoal | ⟨hinv, hless, _⟩
        . exact absurd ⟨m + 1, Nat.le_succ_of_le hle, hgoal⟩ hnever
        . exact ⟨hinv, Nat.le_trans hless ihm.2⟩
    obtain ⟨m, hle, hgoal | hgain⟩ := hfair n
    . exact hnever ⟨m, hle, hgoal⟩
    . obtain ⟨hinv, hless⟩ := hkeep m hle
      rcases hstep _ _ _ (h.reachable m) hinv (h.step m) with hgoal | ⟨hnext, _, hlt⟩
      . exact hnever ⟨m + 1, Nat.le_succ_of_le hle, hgoal⟩
      . obtain ⟨m', hle', hgoal⟩ := ih _ (Nat.lt_of_lt_of_le (hlt hgain) hless) hnext rfl
        exact hnever ⟨m', by omega, hgoal⟩

end Trace

def restrict (S : System σ α) (cond : σ → α → Prop) : System σ α where
  init := S.init
  step s a t := cond s a ∧ S.step s a t

theorem Reachable.of_restrict {cond : σ → α → Prop} {s : σ} (h : (S.restrict cond).Reachable s)
    : S.Reachable s := by
  refine Reachable.map id (fun _ => True) ?_ ?_ h
  . exact fun _ hinit => ⟨trivial, hinit⟩
  . exact fun _ a _ _ hstep => ⟨trivial, .inr ⟨a, hstep.2⟩⟩

theorem Reachable.restrict {cond : σ → α → Prop} (hcond : ∀ s a t, S.step s a t → cond s a)
    {s : σ} (h : S.Reachable s) : (S.restrict cond).Reachable s := by
  obtain ⟨s₀, as, hinit, hrun⟩ := h
  refine Reachable.run (.of_init hinit) (?_ : (S.restrict cond).Run s₀ as s)
  induction hrun with
  | nil => exact .nil _
  | snoc _ hstep ih => exact .snoc ih ⟨hcond _ _ _ hstep, hstep⟩

end System
