import Mathlib.Data.List.Nodup

/-!
Blocks that an allocator gives out and takes back. They are numbered from 1 on in the order in which
they have been given out, and a number is not used again.
-/

structure Ledger where
  allocated : Nat
  freed : List Nat

namespace Ledger

inductive Fault where
  | notAllocated
  | doubleFree
deriving DecidableEq

def free (l : Ledger) (block : Nat) : Except Fault Ledger :=
  if block = 0 ∨ l.allocated < block then
    .error .notAllocated
  else if block ∈ l.freed then
    .error .doubleFree
  else
    .ok { l with freed := block :: l.freed }

def freeAll (l : Ledger) (blocks : List Nat) : Except Fault Ledger :=
  blocks.foldlM free l

structure Live (l : Ledger) (block : Nat) : Prop where
  pos : 0 < block
  le : block ≤ l.allocated
  not_freed : block ∉ l.freed

variable {l next : Ledger} {block : Nat} {blocks : List Nat}

theorem free_eq_ok_iff
    : l.free block = .ok next ↔ l.Live block ∧ next = { l with freed := block :: l.freed } := by
  unfold free
  split
  . next hout =>
    constructor
    . intro h
      cases h
    . intro ⟨hlive, _⟩
      have := hlive.pos
      have := hlive.le
      omega
  . next hin =>
    split
    . next hfreed =>
      constructor
      . intro h
        cases h
      . intro ⟨hlive, _⟩
        exact absurd hfreed hlive.not_freed
    . next hfreed =>
      constructor
      . intro h
        exact ⟨⟨by omega, by omega, hfreed⟩, (Except.ok.inj h).symm⟩
      . rintro ⟨_, rfl⟩
        rfl

theorem freeAll_eq_ok_iff
    : l.freeAll blocks = .ok next ↔ (blocks.Nodup ∧ ∀ block ∈ blocks, l.Live block)
        ∧ next = { l with freed := blocks.reverse ++ l.freed } := by
  induction blocks generalizing l with
  | nil =>
    have hsame : l.freeAll [] = .ok l := rfl
    rw [hsame, Except.ok.injEq, eq_comm]
    simp
  | cons block blocks ih =>
    have hcons : l.freeAll (block :: blocks) = (l.free block).bind (·.freeAll blocks) := rfl
    rw [hcons, List.nodup_cons, List.forall_mem_cons, List.reverse_cons, List.append_assoc]
    constructor
    . intro h
      cases hfree : l.free block with
      | error e =>
        rw [hfree] at h
        cases h
      | ok mid =>
        rw [hfree] at h
        obtain ⟨hlive, rfl⟩ := free_eq_ok_iff.mp hfree
        obtain ⟨⟨hnodup, hrest⟩, rfl⟩ := ih.mp h
        refine ⟨⟨⟨?_, hnodup⟩, hlive, ?_⟩, rfl⟩
        . intro hmem
          exact (hrest block hmem).not_freed List.mem_cons_self
        . intro b hb
          have hb' := hrest b hb
          exact ⟨hb'.pos, hb'.le, fun hfreed => hb'.not_freed (List.mem_cons_of_mem _ hfreed)⟩
    . rintro ⟨⟨⟨hnew, hnodup⟩, hlive, hrest⟩, rfl⟩
      rw [free_eq_ok_iff.mpr ⟨hlive, rfl⟩]
      refine ih.mpr ⟨⟨hnodup, ?_⟩, rfl⟩
      intro b hb
      have hb' := hrest b hb
      refine ⟨hb'.pos, hb'.le, ?_⟩
      intro hfreed
      rcases List.mem_cons.mp hfreed with rfl | hfreed
      . exact hnew hb
      . exact hb'.not_freed hfreed

theorem freeAll_again (h : l.freeAll blocks = .ok next) (hne : blocks ≠ [])
    : next.freeAll blocks = .error .doubleFree := by
  obtain ⟨⟨_, hlive⟩, rfl⟩ := freeAll_eq_ok_iff.mp h
  cases blocks with
  | nil => exact absurd rfl hne
  | cons block blocks =>
    have hblock := hlive block List.mem_cons_self
    have hpos := hblock.pos
    have hle := hblock.le
    have hfree : free { l with freed := (block :: blocks).reverse ++ l.freed } block
        = .error .doubleFree := by
      unfold free
      dsimp only
      rw [if_neg (by omega), if_pos]
      exact List.mem_append_left _ (List.mem_reverse.mpr List.mem_cons_self)
    unfold freeAll
    rw [List.foldlM_cons, hfree]
    rfl

end Ledger
