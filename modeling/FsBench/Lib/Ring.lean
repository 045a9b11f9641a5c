import Mathlib.Data.Int.ModEq
import Mathlib.Data.List.DropRight
import Mathlib.Data.List.Rotate

/-!
A ring of `cap` slots that is overwritten in turn: what the slots hold after any history of pushes.
-/

namespace Ring

variable {α : Type} {cap : Nat} {slots history : List α}

/--
The last `cap` entries of the history are in the slots, entry `i` in slot `i % cap`.
-/
structure Holds (cap : Nat) (slots history : List α) : Prop where
  length_eq : slots.length = cap
  slot_eq : ∀ i, i < history.length → history.length ≤ i + cap → slots[i % cap]? = history[i]?

theorem Holds.empty (h : slots.length = cap) : Holds cap slots [] where
  length_eq := h
  slot_eq := by
    intro i hi
    simp at hi

theorem Holds.exists_history (h : slots.length = cap) (hcap : 0 < cap) (n : Nat)
    : ∃ history : List α, history.length = n ∧ Holds cap slots history := by
  have hlt (i : Nat) : i % cap < slots.length := by
    rw [h]
    exact Nat.mod_lt _ hcap
  refine ⟨(List.range n).map fun i => slots.get ⟨i % cap, hlt i⟩, by simp, h, ?_⟩
  intro i hi _
  rw [List.length_map, List.length_range] at hi
  rw [List.getElem?_eq_getElem (hlt i), List.getElem?_map, List.getElem?_range hi]
  rfl

private theorem mod_ne_mod {i n : Nat} (hlt : i < n) (hle : n < i + cap) : i % cap ≠ n % cap := by
  intro heq
  have hdvd : cap ∣ n - i := (Nat.modEq_iff_dvd' (by omega)).mp heq
  have := Nat.le_of_dvd (by omega) hdvd
  omega

theorem Holds.push (h : Holds cap slots history) (hcap : 0 < cap) (x : α)
    : Holds cap (slots.set (history.length % cap) x) (history ++ [x]) where
  length_eq := by simp [h.length_eq]
  slot_eq := by
    intro i hi hle
    simp only [List.length_append, List.length_singleton] at hi hle
    cases Nat.eq_or_lt_of_le (Nat.le_of_lt_succ hi) with
    | inl heq =>
      have : history.length % cap < slots.length := by
        rw [h.length_eq]
        exact Nat.mod_lt _ hcap
      subst heq
      simp [this]
    | inr hlt =>
      rw [List.getElem?_set_ne (mod_ne_mod hlt (by omega)).symm]
      rw [h.slot_eq i hlt (by omega)]
      rw [List.getElem?_append_left hlt]

theorem Holds.take_eq (h : Holds cap slots history) (hle : history.length ≤ cap)
    : slots.take history.length = history := by
  apply List.ext_getElem?
  intro i
  cases Nat.lt_or_ge i history.length with
  | inl hlt =>
    rw [List.getElem?_take_of_lt hlt]
    rw [← h.slot_eq i hlt (by omega)]
    rw [Nat.mod_eq_of_lt (by omega)]
  | inr hge =>
    rw [List.getElem?_eq_none, List.getElem?_eq_none hge]
    simp only [List.length_take]
    omega

theorem Holds.rotate_eq (h : Holds cap slots history) (hle : cap ≤ history.length)
    : slots.rotate (history.length % cap) = history.rtake cap := by
  apply List.ext_getElem?
  intro i
  cases Nat.lt_or_ge i cap with
  | inl hlt =>
    rw [List.getElem?_rotate (by rw [h.length_eq]; exact hlt)]
    rw [List.rtake, List.getElem?_drop, h.length_eq]
    rw [← h.slot_eq _ (by omega) (by omega)]
    have : history.length - cap + i + cap = i + history.length := by omega
    rw [← Nat.add_mod_right (history.length - cap + i), this, Nat.add_mod_mod]
  | inr hge =>
    rw [List.getElem?_eq_none, List.getElem?_eq_none]
    . simp only [List.rtake, List.length_drop]
      omega
    . simp only [List.length_rotate, h.length_eq]
      exact hge

theorem Holds.slots_eq_iff (h : Holds cap slots history) (hle : cap ≤ history.length)
    : slots = history.rtake cap
      ↔ (history.rtake cap).rotate (history.length % cap) = history.rtake cap := by
  have hrotate := h.rotate_eq hle
  constructor
  . intro heq
    rw [← heq, hrotate, heq]
  . intro heq
    exact List.rotate_injective _ (hrotate.trans heq.symm)

theorem Holds.take_perm (h : Holds cap slots history)
    : (slots.take (min history.length cap)).Perm (history.rtake cap) := by
  cases Nat.le_total history.length cap with
  | inl hle =>
    rw [Nat.min_eq_left hle, h.take_eq hle]
    simp [List.rtake, Nat.sub_eq_zero_of_le hle]
  | inr hge =>
    rw [Nat.min_eq_right hge, ← h.rotate_eq hge]
    rw [← h.length_eq, List.take_length]
    exact (List.rotate_perm _ _).symm

end Ring
