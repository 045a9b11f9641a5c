import Mathlib.Data.List.Induction
import Mathlib.Order.Basic

/-!
Loops as step functions: a step either goes on with a new state or leaves with a result, and the
loop runs it under a bound on the number of steps. The rules give partial correctness from an
invariant and total correctness from an invariant with a variant.
-/

namespace Loop

variable {ε σ ρ : Type} {exhausted : ε} {step : σ → Except ε (σ ⊕ ρ)}

def iterate (exhausted : ε) (step : σ → Except ε (σ ⊕ ρ)) : Nat → σ → Except ε ρ
  | 0, _ => .error exhausted
  | fuel + 1, s =>
    match step s with
    | .error e => .error e
    | .ok (.inl s) => iterate exhausted step fuel s
    | .ok (.inr r) => .ok r

theorem iterate_of_next {fuel : Nat} {s t : σ} (h : step s = .ok (.inl t))
    : iterate exhausted step (fuel + 1) s = iterate exhausted step fuel t := by
  simp [iterate, h]

theorem iterate_of_done {fuel : Nat} {s : σ} {r : ρ} (h : step s = .ok (.inr r))
    : iterate exhausted step (fuel + 1) s = .ok r := by
  simp [iterate, h]

theorem iterate_total {Inv : σ → Prop} {Post : ρ → Prop} (variant : σ → Nat)
    (hstep : ∀ s, Inv s →
      (∃ t, step s = .ok (.inl t) ∧ Inv t ∧ variant t < variant s)
        ∨ ∃ r, step s = .ok (.inr r) ∧ Post r)
    {fuel : Nat} {s : σ} (hs : Inv s) (hfuel : variant s < fuel)
    : ∃ r, iterate exhausted step fuel s = .ok r ∧ Post r := by
  induction fuel generalizing s with
  | zero => omega
  | succ fuel ih =>
    cases hstep s hs with
    | inl hnext =>
      obtain ⟨t, ht, hinv, hlt⟩ := hnext
      rw [iterate_of_next ht]
      exact ih hinv (by omega)
    | inr hdone =>
      obtain ⟨r, hr, hpost⟩ := hdone
      rw [iterate_of_done hr]
      exact ⟨r, rfl, hpost⟩

theorem iterate_keeps (Inv : σ → Prop) (Post : ρ → Prop)
    (hnext : ∀ s t, Inv s → step s = .ok (.inl t) → Inv t)
    (hdone : ∀ s r, Inv s → step s = .ok (.inr r) → Post r) {fuel : Nat} {s : σ} {r : ρ}
    (hs : Inv s) (h : iterate exhausted step fuel s = .ok r) : Post r := by
  induction fuel generalizing s with
  | zero => cases h
  | succ fuel ih =>
    match hstep : step s with
    | .error e => simp [iterate, hstep] at h
    | .ok (.inl t) =>
      rw [iterate_of_next hstep] at h
      exact ih (hnext s t hs hstep) h
    | .ok (.inr u) =>
      rw [iterate_of_done hstep] at h
      obtain rfl := Except.ok.inj h
      exact hdone s u hs hstep

/--
The counted loop `for (i = 0; i < n; i++)` over a body that may fail.
-/
def upTo (n : Nat) (body : Nat → σ → Option σ) (s : σ) : Option σ :=
  match n with
  | 0 => some s
  | n + 1 => (upTo n body s).bind (body n)

theorem upTo_invariant {body : Nat → σ → Option σ} (Inv : Nat → σ → Prop) {n : Nat} {s : σ}
    (hs : Inv 0 s) (hstep : ∀ i t, i < n → Inv i t → ∃ u, body i t = some u ∧ Inv (i + 1) u)
    : ∃ t, upTo n body s = some t ∧ Inv n t := by
  induction n with
  | zero => exact ⟨s, rfl, hs⟩
  | succ n ih =>
    obtain ⟨t, ht, hinv⟩ := ih (fun i t hi => hstep i t (by omega))
    obtain ⟨u, hu, hinv⟩ := hstep n t (by omega) hinv
    refine ⟨u, ?_, hinv⟩
    simp [upTo, ht, hu]

theorem upTo_eq_none {body : Nat → σ → Option σ} {n i : Nat} {s : σ} (hi : i < n)
    (hnone : ∀ t, body i t = none) : upTo n body s = none := by
  induction n with
  | zero => omega
  | succ n ih =>
    unfold upTo
    cases Nat.eq_or_lt_of_le (Nat.le_of_lt_succ hi) with
    | inl heq =>
      subst heq
      simp [hnone]
    | inr hlt =>
      rw [ih hlt]
      rfl

theorem foldlM_range (body : σ → Nat → Except ε σ) (Inv : Nat → σ → Prop) {n : Nat} {s : σ}
    (hs : Inv 0 s) (hstep : ∀ i t, i < n → Inv i t → ∃ u, body t i = .ok u ∧ Inv (i + 1) u)
    : ∃ t, (List.range n).foldlM body s = .ok t ∧ Inv n t := by
  induction n with
  | zero => exact ⟨s, rfl, hs⟩
  | succ n ih =>
    obtain ⟨t, ht, hinv⟩ := ih (fun i t hi => hstep i t (by omega))
    obtain ⟨u, hu, hinv⟩ := hstep n t (by omega) hinv
    refine ⟨u, ?_, hinv⟩
    rw [List.range_succ, List.foldlM_append, ht]
    simp only [bind, Except.bind, List.foldlM_cons, hu, List.foldlM_nil, pure, Except.pure]

theorem foldlM_range_bind {body : σ → Nat → Except ε σ} {next : σ → Except ε ρ} {Post : ρ → Prop}
    (Inv : Nat → σ → Prop) {n : Nat} {s : σ} (hs : Inv 0 s)
    (hstep : ∀ i t, i < n → Inv i t → ∃ u, body t i = .ok u ∧ Inv (i + 1) u)
    (hnext : ∀ t, Inv n t → ∃ r, next t = .ok r ∧ Post r)
    : ∃ r, (List.range n).foldlM body s >>= next = .ok r ∧ Post r := by
  obtain ⟨t, ht, hinv⟩ := foldlM_range body Inv hs hstep
  rw [ht]
  exact hnext t hinv

theorem foldlM_keeps {α : Type} {body : σ → α → Except ε σ} (Inv : σ → Prop) {l : List α}
    {s t : σ} (hstep : ∀ a ∈ l, ∀ s t, Inv s → body s a = .ok t → Inv t) (hs : Inv s)
    (h : l.foldlM body s = .ok t) : Inv t := by
  induction l generalizing s with
  | nil =>
    cases h
    exact hs
  | cons a l ih =>
    rw [List.foldlM_cons] at h
    match hbody : body s a with
    | .error e => simp [hbody, bind, Except.bind] at h
    | .ok u =>
      simp only [hbody, bind, Except.bind] at h
      exact ih (fun b hb => hstep b (List.mem_cons_of_mem _ hb))
        (hstep a List.mem_cons_self s u hs hbody) h

theorem foldlM_simulates {α : Type} {body : σ → α → Except ε σ} {R : σ → σ → Prop} {l : List α}
    {s s' t : σ}
    (hstep : ∀ a ∈ l, ∀ s s' t, R s s' → body s a = .ok t → ∃ t', body s' a = .ok t' ∧ R t t')
    (hs : R s s') (h : l.foldlM body s = .ok t) : ∃ t', l.foldlM body s' = .ok t' ∧ R t t' := by
  induction l generalizing s s' with
  | nil =>
    cases h
    exact ⟨s', rfl, hs⟩
  | cons a l ih =>
    rw [List.foldlM_cons] at h
    match hbody : body s a with
    | .error e => simp [hbody, bind, Except.bind] at h
    | .ok u =>
      simp only [hbody, bind, Except.bind] at h
      obtain ⟨u', hu', hu⟩ := hstep a List.mem_cons_self s s' u hs hbody
      obtain ⟨t', ht', ht⟩ := ih (fun b hb => hstep b (List.mem_cons_of_mem _ hb)) hu h
      refine ⟨t', ?_, ht⟩
      simp only [List.foldlM_cons, hu', bind, Except.bind, ht']

theorem mapM_eq_some {α β : Type} {f : α → Option β} {g : α → β} {l : List α}
    (h : ∀ a ∈ l, f a = some (g a)) : l.mapM f = some (l.map g) := by
  induction l with
  | nil => rfl
  | cons a l ih =>
    have hrest := ih fun b hb => h b (List.mem_cons_of_mem a hb)
    simp [List.mapM_cons, h a List.mem_cons_self, hrest]

theorem mapM_eq_none {α β : Type} {f : α → Option β} {l : List α} {a : α} (ha : a ∈ l)
    (h : f a = none) : l.mapM f = none := by
  induction l with
  | nil => cases ha
  | cons b l ih =>
    cases ha with
    | head => simp [List.mapM_cons, h]
    | tail _ ha => simp [List.mapM_cons, ih ha]

theorem foldlM_cases {α : Type} {body : σ → α → Option σ} (Inv : List α → σ → Prop)
    (allowed : List α → α → Prop)
    (hstep : ∀ pre s a, Inv pre s →
      allowed pre a ∧ (∃ t, body s a = some t ∧ Inv (pre ++ [a]) t)
        ∨ ¬allowed pre a ∧ body s a = none)
    {s : σ} (hs : Inv [] s) (l : List α)
    : (∃ t, l.foldlM body s = some t ∧ Inv l t
          ∧ ∀ pre a post, l = pre ++ a :: post → allowed pre a)
        ∨ l.foldlM body s = none ∧ ∃ pre a post, l = pre ++ a :: post ∧ ¬allowed pre a := by
  induction l using List.reverseRecOn with
  | nil => exact .inl ⟨s, rfl, hs, by simp⟩
  | append_singleton l b ih =>
    rw [List.foldlM_append]
    rcases ih with ⟨t, ht, hinv, hall⟩ | ⟨hnone, pre, a, post, rfl, hnot⟩
    . rcases hstep l t b hinv with ⟨hallowed, u, hu, hinv⟩ | ⟨hnot, hnone⟩
      . refine .inl ⟨u, by simp [ht, hu], hinv, ?_⟩
        intro pre a post hsplit
        cases post using List.reverseRecOn with
        | nil =>
          obtain ⟨rfl, hb⟩ := List.append_inj' hsplit rfl
          cases hb
          exact hallowed
        | append_singleton post c =>
          rw [← List.cons_append, ← List.append_assoc] at hsplit
          exact hall pre a post (List.append_inj' hsplit rfl).1
      . exact .inr ⟨by simp [ht, hnone], l, b, [], rfl, hnot⟩
    . exact .inr ⟨by simp [hnone], pre, a, post ++ [b], by simp, hnot⟩

theorem foldlM_flatMap {α β : Type} {body : σ → β → Option σ} {f : α → List β} {l : List α} {s : σ}
    : (l.flatMap f).foldlM body s = l.foldlM (fun s a => (f a).foldlM body s) s := by
  induction l generalizing s with
  | nil => rfl
  | cons a l ih =>
    rw [List.flatMap_cons, List.foldlM_append, List.foldlM_cons]
    congr 1
    funext t
    exact ih

theorem foldlM_nodup {α : Type} (body : σ → α → Option σ) (Inv : List α → σ → Prop) {l : List α}
    (hl : l.Nodup)
    (hstep : ∀ done a s, a ∉ done → Inv done s → ∃ t, body s a = some t ∧ Inv (done ++ [a]) t)
    {s : σ} (hs : Inv [] s) : ∃ t, l.foldlM body s = some t ∧ Inv l t := by
  induction l using List.reverseRecOn with
  | nil => exact ⟨s, rfl, hs⟩
  | append_singleton l a ih =>
    rw [List.nodup_append] at hl
    obtain ⟨t, ht, hinv⟩ := ih hl.1
    have hnot : a ∉ l := fun ha => hl.2.2 a ha a (by simp) rfl
    obtain ⟨u, hu, hinv⟩ := hstep l a t hnot hinv
    exact ⟨u, by simp [List.foldlM_append, ht, hu], hinv⟩

theorem foldlM_of_prefix {α : Type} {body : σ → α → Option σ} {l m : List α} {s t : σ}
    (hl : l <+: m) (h : m.foldlM body s = some t)
    : ∃ (u : σ) (post : List α), l.foldlM body s = some u ∧ post.foldlM body u = some t := by
  obtain ⟨post, rfl⟩ := hl
  rw [List.foldlM_append] at h
  obtain ⟨u, hu, hpost⟩ := Option.bind_eq_some_iff.mp h
  exact ⟨u, post, hu, hpost⟩

end Loop
