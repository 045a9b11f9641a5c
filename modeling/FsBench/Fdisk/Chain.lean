import FsBench.Fdisk.Table

/-!
This module contains the proof that `get_boot` turns any device into a well formed table: the chain
of extended boot records is followed and its empty links are removed without a null pointer or an
index out of bounds, and both loops end.
-/

namespace FsBench.Fdisk

namespace deletePartition

variable {g : Globals} {i : Nat}

theorem moveDown_eq {count : Nat} (hlt : i + count < MAXIMUM_PARTS)
    : moveDown count g i = .ok { g with
        ptes := fun j => if i ≤ j ∧ j < i + count then g.ptes (j + 1) else g.ptes j } := by
  induction count generalizing g i with
  | zero =>
    have hptes : (fun j => if i ≤ j ∧ j < i + 0 then g.ptes (j + 1) else g.ptes j) = g.ptes := by
      funext j
      rw [if_neg (by omega)]
    rw [hptes]
    rfl
  | succ count ih =>
    simp only [moveDown, Globals.getPte_of_lt (show i + 1 < MAXIMUM_PARTS by omega), bind,
      Except.bind, Globals.setPte_of_lt (show i < MAXIMUM_PARTS by omega)]
    rw [ih (by omega)]
    congr 2
    funext j
    dsimp only
    by_cases heq : j = i
    . subst heq
      rw [if_neg (by omega), Function.update_self, if_pos (by omega)]
    . rw [Function.update_of_ne heq]
      split
      . rw [Function.update_of_ne (by omega), if_pos (by omega)]
      . rw [if_neg (by omega)]

theorem last_spec (h : g.WellFormed) (hle : 4 < i) (hlt : i < g.partitions)
    : ∃ next, last g i = .ok next ∧ next.WellFormed ∧ next.partitions + 1 = g.partitions
        ∧ next.extendedOffset = g.extendedOffset
        ∧ ∀ k, 4 ≤ k → k < next.partitions → next.logical k
          = if k = i - 1 then { g.logical k with link := .zero } else g.logical k := by
  obtain ⟨g₁, hg₁, hwf, hpartitions, hoffset, hptes, hbufs⟩ := h.dropLast (by omega)
  have hi : 4 ≤ i - 1 ∧ i - 1 < g₁.partitions := by omega
  obtain ⟨p, hp⟩ := hwf.extPointer hi.1 hi.2
  have hsame : g₁.SamePointers (g₁.setPart p .zero) := .setPart
  obtain ⟨next, hnext, hchanged, hoffset', hlogical⟩ :=
    Globals.setPte_changed (g := g₁.setPart p .zero) (hwf.lt hi.2)
  refine ⟨next, ?_, hwf.of_same (hsame.trans hchanged), ?_, hoffset'.trans hoffset, ?_⟩
  . simp only [last, hg₁, bind, Except.bind, Globals.getPte_of_lt (hwf.lt hi.2), clearPartition, hp]
    rw [← hnext]
    exact congrArg _ (by rw [← hp]; rfl)
  . rw [hchanged.partitions_eq, hsame.partitions_eq]
    exact hpartitions
  . intro k hle hlt
    rw [hchanged.partitions_eq, hsame.partitions_eq] at hlt
    rw [hlogical, hwf.logical_setPart_link hi ⟨hle, hlt⟩ hp,
      Globals.logical_congr (congrFun hptes k) hbufs]

theorem unlink_spec (h : g.WellFormed) (hle : 4 < i) (hlt : i < g.partitions) (q : PartPtr)
    : ∃ next link, unlink g i q = .ok next ∧ g.SamePointers next
        ∧ next.extendedOffset = g.extendedOffset ∧ link.sysInd = (g.part q).sysInd
        ∧ link.getStartSect = (g.part q).getStartSect
        ∧ ∀ k, 4 ≤ k → k < g.partitions → next.logical k
          = if k = i - 1 then { g.logical k with link } else g.logical k := by
  have hi : 4 ≤ i - 1 ∧ i - 1 < g.partitions := by omega
  obtain ⟨p, hp⟩ := h.extPointer hi.1 hi.2
  simp only [unlink, Globals.getPte_of_lt (h.lt hi.2), bind, Except.bind, hp, deref,
    Globals.setPart_setPart, Globals.part_setPart_self, Globals.part_setPart_part]
  generalize (Globals.part _ q).getNrSects = size
  generalize hlink : ((g.part q).setStartSect (g.part q).getStartSect).setNrSects size = link
  obtain ⟨next, hnext, hchanged, hoffset, hlogical⟩ :=
    Globals.setPte_changed (g := g.setPart p link) (h.lt hi.2)
  refine ⟨next, link, ?_, Globals.SamePointers.setPart.trans hchanged, hoffset, ?_, ?_, ?_⟩
  . rw [← hnext]
    exact congrArg _ (by rw [← hp]; rfl)
  . rw [← hlink, Partition.sysInd_setNrSects, Partition.sysInd_setStartSect]
  . rw [← hlink, Partition.getStartSect_setNrSects, Partition.getStartSect_setStartSect,
      Nat.mod_eq_of_lt Partition.getStartSect_lt]
  . intro k hle hlt
    rw [hlogical, h.logical_setPart_link hi ⟨hle, hlt⟩ hp]

theorem promote_spec (h : g.WellFormed) (hlt : 5 < g.partitions)
    : ∃ next, promote g = .ok next ∧ g.SamePointers next
        ∧ next.extendedOffset = g.extendedOffset
        ∧ ∀ k, 4 ≤ k → k < g.partitions → next.logical k
          = if k = 5 then
              { g.logical 5 with
                offset := g.extendedOffset
                part := (g.logical 5).part.setStartSect
                  (Word.sub 64 (g.logical 5).seen.start g.extendedOffset) }
            else
              g.logical k := by
  have hi : 5 < MAXIMUM_PARTS := h.lt hlt
  obtain ⟨p, hp⟩ := h.partTable (i := 5) (by omega) hlt
  simp only [promote, Globals.getPte_of_lt hi, bind, Except.bind, hp, getPartitionStart, deref, pure,
    Except.pure]
  have hseen : Word.add 64 (g.ptes 5).offset (g.part p).getStartSect = (g.logical 5).seen.start := by
    unfold Logical.seen Globals.logical
    rw [hp]
    rfl
  have hpart : g.part p = (g.logical 5).part := by
    unfold Globals.logical
    rw [hp]
    rfl
  rw [hseen, hpart]
  generalize (g.logical 5).part.setStartSect _ = value
  have hset : g.SamePointers (g.setPart p value) := .setPart
  obtain ⟨next, hnext, hsame, hoffset, hlogical⟩ := Globals.setPte_logical
    { (g.setPart p value).ptes 5 with offset := g.extendedOffset, changed := true } hi
    ⟨rfl, rfl, rfl⟩
  refine ⟨next, ?_, hset.trans hsame, hoffset, ?_⟩
  . rw [← hnext]
    exact congrArg _ (by rw [← hp]; rfl)
  . intro k hle hlt'
    rw [hlogical, h.logical_setPart_part ⟨by omega, hlt⟩ ⟨hle, hlt'⟩ hp]
    split
    . next hk => rw [hk]
    . rfl

theorem shrink_spec (h : g.WellFormed) (hle : 4 ≤ i) (hlt : i < g.partitions)
    (hmore : 5 < g.partitions)
    : ∃ next, shrink g i = .ok next ∧ next.WellFormed ∧ next.partitions + 1 = g.partitions
        ∧ next.extendedOffset = g.extendedOffset
        ∧ ∀ k, k < next.partitions → next.logical k = g.logical (if i ≤ k then k + 1 else k) := by
  have hbounds := h.bounds
  have hnew : 4 ≤ g.partitions - 1 ∧ g.partitions - 1 ≤ MAXIMUM_PARTS := by omega
  simp only [shrink, if_pos hmore, Globals.setPartitions_of_bounds hnew, bind, Except.bind]
  rw [moveDown_eq (by omega)]
  refine ⟨_, rfl, ?_, by dsimp only; omega, rfl, ?_⟩
  . apply h.reindex (fun j => if i ≤ j then j + 1 else j)
    . rfl
    . exact hnew
    . rfl
    . intro j
      have : ¬(i ≤ j.val ∧ j.val < i + (g.partitions - 1 - i)) := by omega
      dsimp only
      rw [if_neg this]
      exact .refl
    . intro j hjle hjlt
      dsimp only at hjlt
      by_cases hij : i ≤ j
      . rw [if_pos hij]
        refine ⟨by omega, by omega, ?_⟩
        dsimp only
        rw [if_pos (by omega)]
        exact .refl
      . rw [if_neg hij]
        refine ⟨by omega, by omega, ?_⟩
        dsimp only
        rw [if_neg (by omega)]
        exact .refl
    . intro j j' heq
      split at heq <;> split at heq <;> omega
  . intro k hk
    dsimp only at hk
    unfold Globals.logical
    dsimp only
    by_cases hik : i ≤ k
    . rw [if_pos (by omega), if_pos hik]
      rfl
    . rw [if_neg (by omega), if_neg hik]
      rfl

end deletePartition

def Globals.firstSysInd (g : Globals) : UInt8 :=
  match (g.ptes 4).partTable with
  | some p => (g.part p).sysInd
  | none => 0

/--
Every round of `goto remove` lowers it: an entry goes, or the only one that is left loses its type.
-/
def Globals.removeVariant (g : Globals) : Nat :=
  g.partitions + if 5 < g.partitions ∨ g.firstSysInd ≠ 0 then 1 else 0

theorem Globals.removeVariant_le {g : Globals} (h : g.WellFormed)
    : g.removeVariant ≤ MAXIMUM_PARTS + 1 := by
  have := h.bounds
  unfold removeVariant
  split <;> omega

theorem Globals.removeVariant_lt {g next : Globals} (h : next.partitions + 1 = g.partitions)
    (hmore : 5 < g.partitions) : next.removeVariant < g.removeVariant := by
  have hvariant : g.removeVariant = g.partitions + 1 := by
    unfold removeVariant
    rw [if_pos (.inl hmore)]
  rw [hvariant]
  unfold removeVariant
  split <;> omega

theorem Globals.firstSysInd_eq {g : Globals} : g.firstSysInd = (g.logical 4).part.sysInd := by
  unfold firstSysInd logical
  cases (g.ptes 4).partTable <;> rfl

inductive Globals.Deleted (g : Globals) (i : Nat) (next : Globals) : Prop where
  | last (hi : 4 < i) (hpartitions : next.partitions + 1 = g.partitions)
      (hend : (g.logical i).link.sysInd = 0)
      (hlogical : ∀ k, 4 ≤ k → k < next.partitions → next.logical k
        = if k = i - 1 then { g.logical k with link := .zero } else g.logical k)
  | unlink (hi : 4 < i) (hpartitions : next.partitions + 1 = g.partitions) (link : Partition)
      (hsys : link.sysInd = (g.logical i).link.sysInd)
      (hstart : link.getStartSect = (g.logical i).link.getStartSect)
      (hlogical : ∀ k, 4 ≤ k → k < next.partitions → next.logical k
        = if k = i - 1 then { g.logical k with link }
          else g.logical (if i ≤ k then k + 1 else k))
  | promote (hi : i = 4) (hpartitions : next.partitions + 1 = g.partitions)
      (hmore : 5 < g.partitions)
      (hlogical : ∀ k, 4 ≤ k → k < next.partitions → next.logical k
        = if k = 4 then
            { g.logical 5 with
              offset := g.extendedOffset
              part := (g.logical 5).part.setStartSect
                (Word.sub 64 (g.logical 5).seen.start g.extendedOffset) }
          else
            g.logical (k + 1))
  | clear (hi : i = 4) (hpartitions : next.partitions = g.partitions) (honly : g.partitions = 5)
      (hlogical : next.logical 4 = { g.logical 4 with part := .zero })

theorem Globals.Deleted.removeVariant_lt {g next : Globals} {i : Nat} (h : g.Deleted i next)
    (hlt : i < g.partitions) (hremove : 5 < g.partitions ∨ g.firstSysInd ≠ 0)
    : next.removeVariant < g.removeVariant := by
  cases h with
  | last hi hpartitions _ _ => exact Globals.removeVariant_lt hpartitions (by omega)
  | unlink hi hpartitions _ _ _ _ => exact Globals.removeVariant_lt hpartitions (by omega)
  | promote _ hpartitions hmore _ => exact Globals.removeVariant_lt hpartitions hmore
  | clear _ hpartitions honly hlogical =>
    have hcleared : next.firstSysInd = 0 := by
      rw [firstSysInd_eq, hlogical]
      rfl
    unfold removeVariant
    rw [if_pos hremove, if_neg (by simp [hcleared, hpartitions, honly]), hpartitions]
    exact Nat.lt_succ_self _

theorem Globals.Deleted.transport {g g₁ next : Globals} {i : Nat}
    (hpartitions : g₁.partitions = g.partitions) (hoffset : g₁.extendedOffset = g.extendedOffset)
    (hlogical : ∀ k, g₁.logical k = g.logical k) (h : g₁.Deleted i next) : g.Deleted i next := by
  cases h with
  | last hi hpartitions' hend hlogical' =>
    simp only [hpartitions, hlogical] at hpartitions' hend hlogical'
    exact .last hi hpartitions' hend hlogical'
  | unlink hi hpartitions' link hsys hstart hlogical' =>
    simp only [hpartitions, hlogical] at hpartitions' hsys hstart hlogical'
    exact .unlink hi hpartitions' link hsys hstart hlogical'
  | promote hi hpartitions' hmore hlogical' =>
    simp only [hpartitions, hoffset, hlogical] at hpartitions' hmore hlogical'
    exact .promote hi hpartitions' hmore hlogical'
  | clear hi hpartitions' honly hlogical' =>
    simp only [hpartitions, hlogical] at hpartitions' honly hlogical'
    exact .clear hi hpartitions' honly hlogical'

namespace deletePartition

variable {g : Globals} {i : Nat}

theorem last_deleted (h : g.WellFormed) (hle : 4 < i) (hlt : i < g.partitions)
    (hend : (g.logical i).link.sysInd = 0)
    : ∃ next, last g i = .ok next ∧ next.WellFormed ∧ next.extendedOffset = g.extendedOffset
        ∧ g.Deleted i next := by
  obtain ⟨next, hnext, hwf, hpartitions, hoffset, hlogical⟩ := last_spec h hle hlt
  exact ⟨next, hnext, hwf, hoffset, .last hle hpartitions hend hlogical⟩

theorem unlink_deleted (h : g.WellFormed) (hle : 4 < i) (hlt : i < g.partitions) {q : PartPtr}
    (hlink : g.part q = (g.logical i).link)
    : ∃ g₁ next, unlink g i q = .ok g₁ ∧ shrink g₁ i = .ok next ∧ next.WellFormed
        ∧ next.extendedOffset = g.extendedOffset ∧ g.Deleted i next := by
  obtain ⟨g₁, link, hg₁, hsame, hoffset, hsys, hstart, hlogical⟩ := unlink_spec h hle hlt q
  have hpartitions := hsame.partitions_eq
  obtain ⟨next, hnext, hwf, hpartitions', hoffset', hlogical'⟩ :=
    shrink_spec (h.of_same hsame) (i := i) (by omega) (by omega) (by omega)
  rw [hlink] at hsys hstart
  refine ⟨g₁, next, hg₁, hnext, hwf, hoffset'.trans hoffset,
    .unlink hle (hpartitions'.trans hpartitions) link hsys hstart ?_⟩
  intro k hk hklt
  rw [hlogical' k hklt, hlogical _ (by split <;> omega) (by split <;> omega)]
  by_cases hki : k = i - 1
  . have hik : ¬i ≤ k := by omega
    rw [if_neg hik, if_pos hki]
  . have hne : (if i ≤ k then k + 1 else k) ≠ i - 1 := by split <;> omega
    rw [if_neg hne, if_neg hki]

theorem promote_deleted (h : g.WellFormed) (hmore : 5 < g.partitions)
    : ∃ g₁ next, promote g = .ok g₁ ∧ shrink g₁ 4 = .ok next ∧ next.WellFormed
        ∧ next.extendedOffset = g.extendedOffset ∧ g.Deleted 4 next := by
  obtain ⟨g₁, hg₁, hsame, hoffset, hlogical⟩ := promote_spec h hmore
  have hpartitions := hsame.partitions_eq
  obtain ⟨next, hnext, hwf, hpartitions', hoffset', hlogical'⟩ :=
    shrink_spec (h.of_same hsame) (i := 4) (by omega) (by omega) (by omega)
  refine ⟨g₁, next, hg₁, hnext, hwf, hoffset'.trans hoffset,
    .promote rfl (hpartitions'.trans hpartitions) hmore ?_⟩
  intro k hk hklt
  rw [hlogical' k hklt, if_pos hk, hlogical _ (by omega) (by omega)]
  by_cases hk4 : k = 4
  . rw [if_pos (by omega), if_pos hk4]
  . rw [if_neg (by omega), if_neg hk4]

theorem clear_deleted (h : g.WellFormed) (honly : g.partitions = 5)
    : ∃ next, shrink g 4 = .ok next ∧ next.WellFormed ∧ next.extendedOffset = g.extendedOffset
        ∧ g.Deleted 4 next := by
  have hlt : 4 < g.partitions := by omega
  have hmore : ¬5 < g.partitions := by omega
  obtain ⟨p, hp⟩ := h.partTable (Nat.le_refl 4) hlt
  simp only [shrink, if_neg hmore, Globals.getPte_of_lt (h.lt hlt), bind, Except.bind, hp, pure,
    Except.pure]
  have hclear : g.SamePointers (clearPartition g (some p)) := .clearPartition
  refine ⟨_, rfl, h.of_same hclear, rfl, .clear rfl hclear.partitions_eq honly ?_⟩
  rw [clearPartition, h.logical_setPart_part ⟨Nat.le_refl 4, hlt⟩ ⟨Nat.le_refl 4, hlt⟩ hp,
    if_pos rfl]

end deletePartition

open deletePartition in
theorem deletePartition_spec {g : Globals} {i : Nat} (h : g.WellFormed) (hle : 4 ≤ i)
    (hlt : i < g.partitions)
    : ∃ next, deletePartition g i = .ok next ∧ next.WellFormed
        ∧ next.extendedOffset = g.extendedOffset ∧ g.Deleted i next := by
  obtain ⟨q, hq⟩ := h.extPointer hle hlt
  obtain ⟨g₁, hg₁, hsame, hoffset, hlogical⟩ := Globals.setPte_changed (g := g) (h.lt hlt)
  have hwf := h.of_same hsame
  have hpartitions := hsame.partitions_eq
  have hlink : g₁.part q = (g₁.logical i).link := by
    unfold Globals.logical
    rw [(hsame.ptes_same i).extPointer_eq, hq]
    rfl
  rw [← hpartitions] at hlt
  suffices hmarked : ∃ next, deletePartition g i = .ok next ∧ next.WellFormed
      ∧ next.extendedOffset = g₁.extendedOffset ∧ g₁.Deleted i next by
    obtain ⟨next, hnext, hnextwf, hoffset', hdeleted⟩ := hmarked
    exact ⟨next, hnext, hnextwf, hoffset'.trans hoffset,
      hdeleted.transport hpartitions hoffset hlogical⟩
  simp only [hq] at hg₁
  simp only [deletePartition, Globals.getPte_of_lt (hwf.lt hlt), bind, Except.bind, hg₁, hq, deref,
    if_neg (Nat.not_lt.mpr hle), hlink]
  -- the last link, one behind the first, the first of several, the only one
  by_cases hlast : (g₁.logical i).link.sysInd = 0 ∧ i > 4
  . rw [if_pos hlast]
    exact last_deleted hwf hlast.2 hlt hlast.1
  . rw [if_neg hlast]
    by_cases hi : i > 4
    . rw [if_pos hi]
      obtain ⟨g₂, next, hg₂, hnext, hdeleted⟩ := unlink_deleted hwf hi hlt hlink
      rw [hg₂]
      exact ⟨next, hnext, hdeleted⟩
    . rw [if_neg hi]
      obtain rfl : i = 4 := by omega
      by_cases hmore : 5 < g₁.partitions
      . rw [if_pos hmore]
        obtain ⟨g₂, next, hg₂, hnext, hdeleted⟩ := promote_deleted hwf hmore
        rw [hg₂]
        exact ⟨next, hnext, hdeleted⟩
      . rw [if_neg hmore]
        exact clear_deleted hwf (by omega)

def Pte.loaded (offset buf : Nat) : Pte where
  partTable := none
  extPointer := none
  changed := false
  offset := offset
  sectorbuffer := some buf

theorem readPte_spec (d : Device) (malloc : Nat → Nat → UInt8) {g : Globals} {pno : Nat}
    (offset : Nat) (hroom : DEFAULT_SECTOR_SIZE ≤ g.sectorSize) (hpno : pno < MAXIMUM_PARTS)
    : ∃ next, readPte d malloc g pno offset = .ok next ∧ next.sectorSize = g.sectorSize
        ∧ next.allocated = g.allocated + 1 ∧ next.partitions = g.partitions
        ∧ next.extendedOffset = g.extendedOffset
        ∧ next.ptes = Function.update g.ptes pno (.loaded offset (g.allocated + 1))
        ∧ ∀ buf ≤ g.allocated, next.bufs buf = g.bufs buf := by
  obtain ⟨position, bytes, heq⟩ := readSector_eq d { g with allocated := g.allocated + 1 } offset
  simp only [readPte, Globals.getPte_of_lt hpno, bind, Except.bind, heq,
    if_neg (Nat.not_lt.mpr hroom), Globals.setPte_of_lt hpno]
  refine ⟨_, rfl, rfl, rfl, rfl, rfl, rfl, ?_⟩
  intro buf hbuf
  exact Function.update_of_ne (by omega) _ _

namespace readExtended

variable {g : Globals} {buf : Nat} {pe : Pte}

/--
The pointers found so far: the partition is not extended, the link is.
-/
structure Found (g : Globals) (buf : Nat) (pe : Pte) : Prop where
  sectorbuffer : pe.sectorbuffer = some buf
  partTable : ∀ p, pe.partTable = some p → p.buf = buf ∧ IS_EXTENDED (g.part p).sysInd = false
  extPointer : ∀ p, pe.extPointer = some p → p.buf = buf ∧ IS_EXTENDED (g.part p).sysInd = true

theorem Found.select (h : Found g buf pe) (slot : Slot)
    : Found g buf (select g buf pe slot) := by
  unfold readExtended.select
  dsimp only
  split
  . split
    . next hext =>
      split
      . exact h
      . refine ⟨h.sectorbuffer, h.partTable, ?_⟩
        intro p hp
        cases hp
        exact ⟨rfl, hext⟩
    . next hext =>
      split
      . split
        . exact h
        . refine ⟨h.sectorbuffer, ?_, h.extPointer⟩
          intro p hp
          cases hp
          exact ⟨rfl, eq_false_of_ne_true hext⟩
      . exact h
  . exact h

theorem Found.foldl (h : Found g buf pe) (slots : List Slot)
    : Found g buf (slots.foldl (readExtended.select g buf) pe) := by
  induction slots generalizing pe with
  | nil => exact h
  | cons slot slots ih => exact ih (h.select slot)

theorem fallback_spec {pointer : Option PartPtr} (other : Option PartPtr)
    (hbuf : ∀ p, pointer = some p → p.buf = buf) (hne : ∀ p, pointer = some p → other ≠ some p)
    : (fallback buf pointer other).buf = buf ∧ other ≠ some (fallback buf pointer other) := by
  cases pointer with
  | some p => exact ⟨hbuf p rfl, hne p rfl⟩
  | none =>
    unfold fallback
    dsimp only
    split
    . next hother => exact ⟨rfl, Ne.symm hother⟩
    . next hother =>
      rw [not_not] at hother
      rw [← hother]
      exact ⟨rfl, by simp⟩

theorem complete_spec (h : Found g buf pe)
    : (complete buf pe).OwnSlots ∧ (complete buf pe).sectorbuffer = some buf := by
  have hpart := fallback_spec pe.extPointer (fun p hp => (h.partTable p hp).1) (by
    intro p hp heq
    have hnot := (h.partTable p hp).2
    rw [(h.extPointer p heq).2] at hnot
    cases hnot)
  unfold complete
  dsimp only
  generalize fallback buf pe.partTable pe.extPointer = p at hpart ⊢
  have hext := fallback_spec (some p) (fun q hq => (h.extPointer q hq).1) (by
    intro q hq heq
    exact hpart.2 (hq.trans heq.symm))
  generalize fallback buf pe.extPointer (some p) = q at hext ⊢
  obtain ⟨pbuf, pslot⟩ := p
  obtain ⟨qbuf, qslot⟩ := q
  obtain ⟨rfl, _⟩ := hpart
  obtain ⟨rfl, hne⟩ := hext
  refine ⟨⟨_, pslot, qslot, ?_, h.sectorbuffer, rfl, rfl⟩, h.sectorbuffer⟩
  intro heq
  exact hne (by rw [heq])

theorem select_eq (pe : Pte) (slot : Slot)
    : ∃ partTable extPointer, readExtended.select g buf pe slot
        = { pe with partTable, extPointer } := by
  unfold readExtended.select
  generalize g.part { buf, slot } = p
  dsimp only
  split
  . split
    . split
      . exact ⟨pe.partTable, pe.extPointer, rfl⟩
      . exact ⟨pe.partTable, _, rfl⟩
    . split
      . split
        . exact ⟨pe.partTable, pe.extPointer, rfl⟩
        . exact ⟨_, pe.extPointer, rfl⟩
      . exact ⟨pe.partTable, pe.extPointer, rfl⟩
  . exact ⟨pe.partTable, pe.extPointer, rfl⟩

theorem choose_eq (pe : Pte)
    : ∃ partTable extPointer, choose g buf pe = { pe with partTable, extPointer } := by
  have hfold (slots : List Slot)
      : ∃ partTable extPointer, slots.foldl (readExtended.select g buf) pe
        = { pe with partTable, extPointer } := by
    induction slots generalizing pe with
    | nil => exact ⟨pe.partTable, pe.extPointer, rfl⟩
    | cons slot slots ih =>
      have hselect : ∃ partTable extPointer, readExtended.select g buf pe slot
          = { pe with partTable, extPointer } := select_eq pe slot
      obtain ⟨_, _, hselect⟩ := hselect
      rw [List.foldl_cons, hselect]
      exact ih _
  obtain ⟨_, _, heq⟩ := hfold [0, 1, 2, 3]
  unfold choose complete
  rw [heq]
  exact ⟨_, _, rfl⟩

theorem choose_spec (pe : Pte) (hbuf : pe.sectorbuffer = some buf) (hpart : pe.partTable = none)
    (hext : pe.extPointer = none)
    : (choose g buf pe).OwnSlots ∧ (choose g buf pe).sectorbuffer = some buf := by
  have hnone : Found g buf pe := ⟨hbuf, by simp [hpart], by simp [hext]⟩
  exact complete_spec (hnone.foldl _)

variable {d : Device} {malloc : Nat → Nat → UInt8} {fuel : Nat}

theorem setOffset_spec (g : Globals) (start : Nat)
    : (setOffset g start).sectorSize = g.sectorSize ∧ (setOffset g start).allocated = g.allocated
        ∧ (setOffset g start).partitions = g.partitions ∧ (setOffset g start).ptes = g.ptes
        ∧ (setOffset g start).bufs = g.bufs
        ∧ (setOffset g start).extendedOffset
          = if g.extendedOffset = 0 then start else g.extendedOffset := by
  unfold setOffset
  split <;> exact ⟨rfl, rfl, rfl, rfl, rfl, rfl⟩

/--
What a round of the loop does that follows the link `p`: the boot record it leads to becomes the
last entry, whose link is `q`.
-/
structure Followed (g : Globals) (p : PartPtr) (next : Globals) (q : PartPtr) : Prop where
  extended : IS_EXTENDED (g.part p).sysInd = true
  partitions_eq : next.partitions = g.partitions + 1
  extendedOffset_eq : next.extendedOffset
    = if g.extendedOffset = 0 then (g.part p).getStartSect else g.extendedOffset
  offset_eq : (next.logical g.partitions).offset
    = Word.add 64 g.extendedOffset (g.part p).getStartSect
  link_eq : (next.logical g.partitions).link = next.part q
  logical_eq : ∀ k, 4 ≤ k → k < g.partitions → next.logical k = g.logical k

variable (d malloc) in
theorem chainStep_full (p : PartPtr) (h : g.WellFormed)
    (hextended : IS_EXTENDED (g.part p).sysInd = true) (hfull : g.partitions ≥ MAXIMUM_PARTS)
    : ∃ next, chainStep d malloc (g, p) = .ok (.inr (next, .omitting)) ∧ next.WellFormed
        ∧ MAXIMUM_PARTS ≤ next.partitions := by
  have hbounds := h.bounds
  have hi : g.partitions - 1 < MAXIMUM_PARTS := by omega
  have hclear := Globals.SamePointers.clearPartition (g := g)
    (p := (g.ptes (g.partitions - 1)).extPointer)
  obtain ⟨next, hnext, hsame, _⟩ := Globals.SamePointers.setPte
    { g.ptes (g.partitions - 1) with changed := true } hi
    ((hclear.ptes_same (g.partitions - 1)).symm.trans ⟨rfl, rfl, rfl⟩)
  simp only [chainStep, hextended, Bool.true_eq_false, if_false, if_pos hfull,
    Globals.getPte_of_lt hi, bind, Except.bind, hclear.partitions_eq, hnext, pure, Except.pure]
  refine ⟨next, rfl, h.of_same (hclear.trans hsame), ?_⟩
  rw [hsame.partitions_eq, hclear.partitions_eq]
  exact hfull

variable (d malloc) in
theorem chainStep_follow (p : PartPtr) (h : g.WellFormed)
    (hextended : IS_EXTENDED (g.part p).sysInd = true) (hi : g.partitions < MAXIMUM_PARTS)
    : ∃ next q, chainStep d malloc (g, p) = .ok (.inl (next, q)) ∧ next.WellFormed
        ∧ Followed g p next q := by
  have hbounds := h.bounds
  have hnew : 4 ≤ g.partitions + 1 ∧ g.partitions + 1 ≤ MAXIMUM_PARTS := by omega
  obtain ⟨g₁, hread, hsize₁, hallocated₁, hpartitions₁, hoffset₁, hptes₁, hbufs₁⟩ :=
    readPte_spec d malloc (Word.add 64 g.extendedOffset (g.part p).getStartSect) h.room hi
  obtain ⟨hsize₂, hallocated₂, hpartitions₂, hptes₂, hbufs₂, hoffset₂⟩ :=
    setOffset_spec g₁ (g.part p).getStartSect
  simp only [chainStep, hextended, Bool.true_eq_false, if_false, if_neg (Nat.not_le.mpr hi), hread,
    bind, Except.bind]
  generalize setOffset g₁ (g.part p).getStartSect = g₂ at *
  rw [hsize₁] at hsize₂
  rw [hallocated₁] at hallocated₂
  rw [hpartitions₁] at hpartitions₂
  rw [hptes₁] at hptes₂
  rw [hoffset₁] at hoffset₂
  simp only [hpartitions₂, Globals.getPte_of_lt hi, hptes₂, Function.update_self]
  -- the entry as it has been read, and what is chosen from its buffer
  obtain ⟨hslots, hbuf⟩ := choose_spec (g := g₂)
    (.loaded (Word.add 64 g.extendedOffset (g.part p).getStartSect) (g.allocated + 1)) rfl rfl rfl
  obtain ⟨_, _, hloaded⟩ := choose_eq (g := g₂)
    (.loaded (Word.add 64 g.extendedOffset (g.part p).getStartSect) (g.allocated + 1))
  simp only [Pte.loaded, deref] at hslots hbuf hloaded ⊢
  generalize choose g₂ (g.allocated + 1) _ = pe at hslots hbuf hloaded ⊢
  obtain ⟨_, _, q, _, _, _, hq⟩ := id hslots
  simp only [hq, Globals.setPte_of_lt hi, hpartitions₂, Globals.setPartitions_of_bounds hnew]
  refine ⟨_, _, rfl, ?_, ⟨hextended, rfl, hoffset₂, ?_, ?_, ?_⟩⟩
  . apply h.append hi hslots hbuf
    . exact hsize₂
    . exact hallocated₂
    . rfl
    . dsimp only
      rw [hptes₂, Function.update_idem]
  . unfold Globals.logical
    dsimp only
    rw [Function.update_self, hloaded]
  . unfold Globals.logical
    dsimp only
    rw [Function.update_self, hq]
    rfl
  . intro k hle hlt
    apply h.logical_congr hle hlt
    . dsimp only
      rw [Function.update_of_ne (by omega), hptes₂, Function.update_of_ne (by omega)]
    . intro buf hbuf
      dsimp only
      rw [hbufs₂]
      exact hbufs₁ buf hbuf

variable (d malloc) in
theorem chainStep_spec (p : PartPtr) (h : g.WellFormed)
    : (∃ next q, chainStep d malloc (g, p) = .ok (.inl (next, q)) ∧ next.WellFormed
          ∧ Followed g p next q)
        ∨ ∃ next exit, chainStep d malloc (g, p) = .ok (.inr (next, exit)) ∧ next.WellFormed
          ∧ (exit = .chainEnd → next = g ∧ IS_EXTENDED (g.part p).sysInd = false)
          ∧ (exit = .omitting → MAXIMUM_PARTS ≤ next.partitions) := by
  cases hextended : IS_EXTENDED (g.part p).sysInd with
  | false =>
    right
    refine ⟨g, .chainEnd, ?_, h, fun _ => ⟨rfl, rfl⟩, nofun⟩
    rw [chainStep, hextended, if_pos rfl]
  | true =>
    cases Nat.lt_or_ge g.partitions MAXIMUM_PARTS with
    | inl hi => exact .inl (chainStep_follow d malloc p h hextended hi)
    | inr hfull =>
      obtain ⟨next, hnext, hwf, hparts⟩ := chainStep_full d malloc p h hextended hfull
      exact .inr ⟨next, .omitting, hnext, hwf, nofun, fun _ => hparts⟩

end readExtended

namespace readExtended

variable {d : Device} {malloc : Nat → Nat → UInt8} {g : Globals} {fuel : Nat}

theorem firstEmpty_spec (h : g.WellFormed) {count i : Nat} (hle : 4 ≤ i)
    (hcount : i + count ≤ g.partitions)
    : ∃ r, firstEmpty g count i = .ok r
        ∧ (∀ j, r = some j → 4 ≤ j ∧ j < g.partitions ∧ (g.logical j).part.getNrSects = 0
            ∧ (5 < g.partitions ∨ g.firstSysInd ≠ 0))
        ∧ (r = none → ∀ j, i ≤ j → j < i + count → (g.logical j).part.getNrSects = 0 →
            ¬(5 < g.partitions ∨ g.firstSysInd ≠ 0)) := by
  induction count generalizing i with
  | zero => exact ⟨none, rfl, nofun, fun _ j hij hj => by omega⟩
  | succ count ih =>
    obtain ⟨r, hr, hsome, hnone⟩ := ih (i := i + 1) (by omega) (by omega)
    have hi : i < g.partitions := by omega
    obtain ⟨p, hp⟩ := h.partTable hle hi
    obtain ⟨p₄, hp₄⟩ := h.partTable (Nat.le_refl 4) (show 4 < g.partitions by omega)
    have hpart : g.part p = (g.logical i).part := by
      unfold Globals.logical
      rw [hp]
      rfl
    have hfirst : (g.part p₄).sysInd = g.firstSysInd := by
      unfold Globals.firstSysInd
      rw [hp₄]
    -- Entry `i` is in the way of nothing when it is not empty or may stay.
    have hrest (hstays : (g.logical i).part.getNrSects = 0 →
        ¬(5 < g.partitions ∨ g.firstSysInd ≠ 0))
        : r = none → ∀ j, i ≤ j → j < i + (count + 1) → (g.logical j).part.getNrSects = 0 →
            ¬(5 < g.partitions ∨ g.firstSysInd ≠ 0) := by
      intro heq j hij hj
      cases Nat.eq_or_lt_of_le hij with
      | inl hi =>
        rw [← hi]
        exact hstays
      | inr hlt => exact hnone heq j hlt (by omega)
    simp only [firstEmpty, h.getPte hi, h.getPte (show 4 < g.partitions by omega), bind, Except.bind,
      hp, hp₄, deref, pure, Except.pure, hpart, hfirst]
    split
    . next hempty =>
      split
      . next hmore =>
        refine ⟨_, rfl, ?_, nofun⟩
        intro j hj
        cases hj
        exact ⟨hle, hi, hempty, .inl hmore⟩
      . next hmore =>
        split
        . next hsys =>
          refine ⟨_, rfl, ?_, nofun⟩
          intro j hj
          cases hj
          exact ⟨hle, hi, hempty, .inr hsys⟩
        . next hsys => exact ⟨r, hr, hsome, hrest fun _ => not_or.mpr ⟨hmore, hsys⟩⟩
    . next hsize => exact ⟨r, hr, hsome, hrest fun hempty => absurd hempty hsize⟩

def Clean (g : Globals) : Prop :=
  ∀ k, 4 ≤ k → k < g.partitions → (g.logical k).part.getNrSects = 0 →
    ¬(5 < g.partitions ∨ g.firstSysInd ≠ 0)

theorem removeStep_spec (h : g.WellFormed)
    : (∃ next i, removeStep g = .ok (.inl next) ∧ next.WellFormed
          ∧ next.removeVariant < g.removeVariant ∧ next.extendedOffset = g.extendedOffset
          ∧ 4 ≤ i ∧ i < g.partitions ∧ (g.logical i).part.getNrSects = 0 ∧ g.Deleted i next)
        ∨ removeStep g = .ok (.inr g) ∧ Clean g := by
  have hbounds := h.bounds
  obtain ⟨r, hr, hsome, hnone⟩ := firstEmpty_spec h (Nat.le_refl 4)
    (show 4 + (g.partitions - 4) ≤ g.partitions by omega)
  cases r with
  | none =>
    right
    refine ⟨?_, fun k hle hlt => hnone rfl k hle (by omega)⟩
    simp only [removeStep, hr, bind, Except.bind, pure, Except.pure]
  | some i =>
    left
    obtain ⟨hle, hlt, hempty, hremove⟩ := hsome i rfl
    obtain ⟨next, hnext, hwf, hoffset, hdeleted⟩ := deletePartition_spec h hle hlt
    refine ⟨next, i, ?_, hwf, hdeleted.removeVariant_lt hlt hremove, hoffset, hle, hlt, hempty,
      hdeleted⟩
    simp only [removeStep, hr, bind, Except.bind, pure, Except.pure, hnext]

theorem remove_spec (Inv : Globals → Prop)
    (hkeep : ∀ (g next : Globals) (i : Nat), g.WellFormed → Inv g → 4 ≤ i → i < g.partitions →
      (g.logical i).part.getNrSects = 0 → next.extendedOffset = g.extendedOffset →
      g.Deleted i next → Inv next)
    (h : g.WellFormed) (hinv : Inv g) (hfuel : MAXIMUM_PARTS + 2 ≤ fuel)
    : ∃ next, Loop.iterate .outOfFuel removeStep fuel g = .ok next
        ∧ next.WellFormed ∧ Inv next ∧ Clean next := by
  have hstep : ∀ g : Globals, g.WellFormed ∧ Inv g →
      (∃ next, removeStep g = .ok (.inl next) ∧ (next.WellFormed ∧ Inv next)
          ∧ next.removeVariant < g.removeVariant)
        ∨ ∃ next, removeStep g = .ok (.inr next)
          ∧ next.WellFormed ∧ Inv next ∧ Clean next := by
    intro g ⟨hwf, hinv⟩
    rcases removeStep_spec hwf with hdeletes | ⟨hdone, hclean⟩
    . obtain ⟨next, i, hnext, hnextwf, hless, hoffset, hle, hlt, hempty, hdeleted⟩ := hdeletes
      exact .inl ⟨next, hnext,
        ⟨hnextwf, hkeep g next i hwf hinv hle hlt hempty hoffset hdeleted⟩, hless⟩
    . exact .inr ⟨g, hdone, hwf, hinv, hclean⟩
  exact Loop.iterate_total Globals.removeVariant hstep ⟨h, hinv⟩
    (Nat.lt_of_le_of_lt (Globals.removeVariant_le h) hfuel)

theorem chain_spec (d : Device) (malloc : Nat → Nat → UInt8) (Inv : Globals → PartPtr → Prop)
    (hkeep : ∀ (g next : Globals) (p q : PartPtr), g.WellFormed → Inv g p → Followed g p next q →
      Inv next q)
    {p : PartPtr} (h : g.WellFormed) (hinv : Inv g p) (hfuel : MAXIMUM_PARTS + 2 ≤ fuel)
    : ∃ r : Globals × Exit, Loop.iterate .outOfFuel (chainStep d malloc) fuel (g, p) = .ok r
        ∧ r.1.WellFormed
        ∧ (r.2 = .chainEnd → ∃ q, Inv r.1 q ∧ IS_EXTENDED (r.1.part q).sysInd = false)
        ∧ (r.2 = .omitting → MAXIMUM_PARTS ≤ r.1.partitions) := by
  have hstep : ∀ s : Globals × PartPtr, s.1.WellFormed ∧ Inv s.1 s.2 →
      (∃ t, chainStep d malloc s = .ok (.inl t) ∧ (t.1.WellFormed ∧ Inv t.1 t.2)
          ∧ MAXIMUM_PARTS - t.1.partitions < MAXIMUM_PARTS - s.1.partitions)
        ∨ ∃ r, chainStep d malloc s = .ok (.inr r) ∧ r.1.WellFormed
          ∧ (r.2 = .chainEnd → ∃ q, Inv r.1 q ∧ IS_EXTENDED (r.1.part q).sysInd = false)
          ∧ (r.2 = .omitting → MAXIMUM_PARTS ≤ r.1.partitions) := by
    intro (g, p) ⟨hwf, hinv⟩
    dsimp only at hwf hinv
    cases chainStep_spec d malloc p hwf with
    | inl hnext =>
      obtain ⟨next, q, hstep, hnextwf, hfollowed⟩ := hnext
      have hbounds := hnextwf.bounds
      have hpartitions := hfollowed.partitions_eq
      refine .inl ⟨(next, q), hstep, ⟨hnextwf, hkeep g next p q hwf hinv hfollowed⟩, ?_⟩
      dsimp only at hpartitions ⊢
      omega
    | inr hexit =>
      obtain ⟨next, exit, hstep, hnextwf, hend, homitting⟩ := hexit
      refine .inr ⟨(next, exit), hstep, hnextwf, ?_, homitting⟩
      intro hexit
      obtain ⟨rfl, hlast⟩ := hend hexit
      exact ⟨p, hinv, hlast⟩
  apply Loop.iterate_total (fun s : Globals × PartPtr => MAXIMUM_PARTS - s.1.partitions) hstep
    ⟨h, hinv⟩
  dsimp only
  omega

end readExtended

theorem Globals.WellFormed.setPrimary {g : Globals} (h : g.WellFormed) (i : Slot) (pe : Pte)
    (hpart : pe.partTable = (g.ptes i).partTable) (hbuf : pe.sectorbuffer = (g.ptes i).sectorbuffer)
    (extIndex : Nat)
    : ({ g with extIndex, ptes := Function.update g.ptes i pe } : Globals).WellFormed := by
  have hlogical : ∀ j, 4 ≤ j → Function.update g.ptes i pe j = g.ptes j := by
    intro j hj
    rw [Function.update_of_ne (by omega)]
  constructor
  . exact h.room
  . exact h.bounds
  . intro j
    dsimp only
    by_cases heq : j.val = i.val
    . rw [heq, Function.update_self, hpart, hbuf, ← heq]
      exact h.primary j
    . rw [Function.update_of_ne heq]
      exact h.primary j
  . intro j hle hlt
    dsimp only
    rw [hlogical j hle]
    exact h.logical j hle hlt
  . intro j buf hle hlt
    dsimp only
    rw [hlogical j hle]
    exact h.allocated j buf hle hlt
  . intro j j' hle hlt hle' hlt'
    dsimp only
    rw [hlogical j hle, hlogical j' hle']
    exact h.distinct j j' hle hlt hle' hlt'

def Globals.enterChain (g : Globals) (i : Slot) : Globals :=
  { g with
    extIndex := i
    ptes := Function.update g.ptes i { g.ptes i with extPointer := (g.ptes i).partTable } }

def Globals.Unread (g : Globals) : Prop :=
  g.partitions = 4 → g.extendedOffset = 0

theorem Globals.Deleted.five_le {g next : Globals} {i : Nat} (h : g.Deleted i next)
    (hlt : i < g.partitions) : 5 ≤ next.partitions := by
  cases h <;> omega

def readExtended.finish (fuel : Nat) (r : Globals × Exit) : Result Globals :=
  match r.2 with
  | .omitting => .ok r.1
  | .chainEnd => Loop.iterate .outOfFuel removeStep fuel r.1

section GetBoot

variable {d : Device} {malloc : Nat → Nat → UInt8} {g : Globals} {fuel : Nat}

theorem readExtended_eq (h : g.WellFormed) (i : Slot)
    : readExtended d malloc fuel g i
      = if (g.part ⟨0, i⟩).getStartSect = 0 then
          .ok (g.enterChain i)
        else
          (Loop.iterate .outOfFuel (readExtended.chainStep d malloc) fuel
            (g.enterChain i, ⟨0, i⟩)).bind (readExtended.finish fuel) := by
  have hi : i.val < MAXIMUM_PARTS := Nat.lt_trans i.isLt (by decide)
  simp only [readExtended, Globals.getPte_of_lt hi, bind, Except.bind, Globals.setPte_of_lt hi,
    (h.primary i).1, deref, pure, Except.pure]
  rw [← (h.primary i).1]
  congr 1
  cases hr : Loop.iterate .outOfFuel (readExtended.chainStep d malloc) fuel
    (g.enterChain i, ⟨0, i⟩) with
  | error e =>
    simp only [Globals.enterChain] at hr
    simp only [hr]
  | ok r =>
    simp only [Globals.enterChain] at hr
    simp only [hr]
    obtain ⟨next, exit⟩ := r
    cases exit <;> rfl

open readExtended in
theorem readExtended_spec (h : g.WellFormed) (i : Slot) (hfuel : MAXIMUM_PARTS + 2 ≤ fuel)
    (hunread : g.Unread) (hextended : IS_EXTENDED (g.part ⟨0, i⟩).sysInd = true)
    : ∃ next, readExtended d malloc fuel g i = .ok next ∧ next.WellFormed ∧ next.Unread := by
  have hwf : (g.enterChain i).WellFormed :=
    h.setPrimary i { g.ptes i with extPointer := (g.ptes i).partTable } rfl rfl i
  rw [readExtended_eq h]
  split
  . exact ⟨_, rfl, hwf, hunread⟩
  . let Inv (g : Globals) (p : PartPtr) := IS_EXTENDED (g.part p).sysInd = true ∨ 5 ≤ g.partitions
    have hkeep : ∀ (g next : Globals) (p q : PartPtr), g.WellFormed → Inv g p →
        Followed g p next q → Inv next q := by
      intro g next p q hg _ hfollowed
      have hpartitions := hfollowed.partitions_eq
      have hbounds := hg.bounds
      exact .inr (by omega)
    obtain ⟨r, hr, hrwf, hend, homitting⟩ :=
      chain_spec d malloc Inv hkeep (p := ⟨0, i⟩) hwf (.inl hextended) hfuel
    obtain ⟨next, exit⟩ := r
    simp only [hr, Except.bind, finish]
    cases exit with
    | omitting =>
      have hfull := homitting rfl
      refine ⟨next, rfl, hrwf, ?_⟩
      intro hfour
      dsimp only at hfull
      rw [hfour] at hfull
      exact absurd hfull (by decide)
    | chainEnd =>
      obtain ⟨q, hinv, hlast⟩ := hend rfl
      have hfive : 5 ≤ next.partitions := by
        refine hinv.resolve_left ?_
        rw [hlast]
        exact Bool.false_ne_true
      obtain ⟨last, hlast, hlastwf, hfive, _⟩ := remove_spec (fun g => 5 ≤ g.partitions)
        (fun _ _ _ _ _ _ hlt _ _ hdeleted => hdeleted.five_le hlt) hrwf hfive hfuel
      refine ⟨last, hlast, hlastwf, ?_⟩
      intro hfour
      omega

variable (d malloc) in
theorem extended_spec (h : g.WellFormed) (hunread : g.Unread) (i : Slot)
    (hfuel : MAXIMUM_PARTS + 2 ≤ fuel)
    : ∃ next, getBoot.extended d malloc fuel g i = .ok next ∧ next.WellFormed ∧ next.Unread := by
  have hi : i.val < MAXIMUM_PARTS := Nat.lt_trans i.isLt (by decide)
  simp only [getBoot.extended, Globals.getPte_of_lt hi, bind, Except.bind, (h.primary i).1, deref,
    pure, Except.pure]
  split
  . next hcall => exact readExtended_spec h i hfuel hunread hcall.1
  . exact ⟨g, rfl, h, hunread⟩

variable (d malloc) in
theorem foldlM_extended_spec (h : g.WellFormed) (hunread : g.Unread) (slots : List Slot)
    (hfuel : MAXIMUM_PARTS + 2 ≤ fuel)
    : ∃ next, slots.foldlM (getBoot.extended d malloc fuel) g = .ok next ∧ next.WellFormed
        ∧ next.Unread := by
  induction slots generalizing g with
  | nil => exact ⟨g, rfl, h, hunread⟩
  | cons i slots ih =>
    obtain ⟨g₁, hg₁, hwf, hunread₁⟩ := extended_spec d malloc h hunread i hfuel
    obtain ⟨next, hnext, hnextwf⟩ := ih hwf hunread₁
    refine ⟨next, ?_, hnextwf⟩
    simp only [List.foldlM_cons, hg₁, bind, Except.bind, hnext]

theorem checkFlags_spec (h : g.WellFormed) {count i : Nat} (hle : 3 ≤ i)
    (hcount : i + count ≤ g.partitions)
    : ∃ next, getBoot.checkFlags count g i = .ok next ∧ next.WellFormed := by
  induction count generalizing g i with
  | zero => exact ⟨g, rfl, h⟩
  | succ count ih =>
    have hi : i < g.partitions := by omega
    have hbuf : ∃ buf, (g.ptes i).sectorbuffer = some buf := by
      cases Nat.eq_or_lt_of_le hle with
      | inl heq =>
        rw [← heq]
        exact ⟨0, (h.primary 3).2⟩
      | inr hlt =>
        obtain ⟨buf, _, _, _, hbuf, _, _⟩ := h.logical i hlt hi
        exact ⟨buf, hbuf⟩
    obtain ⟨buf, hbuf⟩ := hbuf
    obtain ⟨g₁, hg₁, hsame, _⟩ := Globals.SamePointers.setPte
      { g.ptes i with changed := true } (h.lt hi) ⟨rfl, rfl, rfl⟩
    simp only [hbuf] at hg₁
    simp only [getBoot.checkFlags, h.getPte hi, bind, Except.bind, hbuf, deref, hg₁]
    split
    . exact ih h (by omega) (by omega)
    . apply ih (h.of_same hsame) (by omega)
      rw [hsame.partitions_eq]
      omega

namespace getBoot

def start (d : Device) (k : Kernel) (g : Globals) : Result Globals := do
  let g ← g.setPartitions 4
  let g ← getGeometry k (readMBR d (setUp { g with extIndex := 0, extendedOffset := 0 })).1
  return updateUnits g

theorem start_wellFormed (d : Device) {k : Kernel} (hsize : DEFAULT_SECTOR_SIZE ≤ g.nextSectorSize k)
    (hstate : g.sectorSize < 2 ^ 32)
    : ∃ next, start d k g = .ok next ∧ next.WellFormed ∧ next.partitions = 4 ∧ next.Unread := by
  have hfour : 4 ≤ 4 ∧ 4 ≤ MAXIMUM_PARTS := by decide
  simp only [start, Globals.setPartitions_of_bounds hfour, bind, Except.bind, pure, Except.pure]
  generalize hg₁ : (readMBR d (setUp
    { { g with partitions := 4 } with extIndex := 0, extendedOffset := 0 })).1 = g₁
  have hpartitions : g₁.partitions = 4 := by
    rw [← hg₁]
    rfl
  have hoffset : g₁.extendedOffset = 0 := by
    rw [← hg₁]
    rfl
  have hptes : ∀ i : Slot, g₁.ptes i = .primary i := by
    intro i
    rw [← hg₁]
    exact dif_pos i.isLt
  have hsector : g₁.sectorSize = g.sectorSize := by
    rw [← hg₁]
    rfl
  obtain ⟨g₂, hg₂, hmeasured, hsectorSize, _⟩ := measure_spec hsector hsize hstate
  have hpartitions₂ := hmeasured.same.partitions_eq.trans hpartitions
  simp only [hg₂]
  refine ⟨_, rfl, ?_, hpartitions₂, fun _ => hmeasured.same.extendedOffset_eq.trans hoffset⟩
  apply Globals.WellFormed.of_primary
  . rw [hsectorSize]
    exact hsize
  . exact hpartitions₂
  . intro i
    rw [hmeasured.same.ptes_eq, hptes]

end getBoot

open getBoot in
theorem getBoot_spec (d : Device) (malloc : Nat → Nat → UInt8) {k : Kernel}
    (hsize : DEFAULT_SECTOR_SIZE ≤ g.nextSectorSize k) (hstate : g.sectorSize < 2 ^ 32) (hfuel : MAXIMUM_PARTS + 2 ≤ fuel)
    : ∃ next ret, getBoot d malloc k fuel g = .ok (next, ret)
        ∧ (next.WellFormed
          ∨ ret ≠ 0 ∧ next.partitions = 4 ∧ ∀ i : Slot, next.ptes i = .primary i) := by
  have hfour : 4 ≤ 4 ∧ 4 ≤ MAXIMUM_PARTS := by decide
  obtain ⟨g₁, hstart, hwf, hpartitions, hunread⟩ := getBoot.start_wellFormed d hsize hstate
  simp only [getBoot.start, Globals.setPartitions_of_bounds hfour, bind, Except.bind, pure,
    Except.pure] at hstart
  simp only [getBoot, Globals.setPartitions_of_bounds hfour, bind, Except.bind, pure, Except.pure]
  split
  . -- fewer than 512 bytes have come, and the geometry is left as it was
    refine ⟨_, _, rfl, .inr ⟨by decide, rfl, ?_⟩⟩
    intro i
    exact dif_pos i.isLt
  . split at hstart
    . cases hstart
    . cases hstart
      split
      . obtain ⟨g₃, hg₃, hwf₃, _⟩ :=
          foldlM_extended_spec d malloc hwf hunread [0, 1, 2, 3] hfuel
        have hcount : 3 + (g₃.partitions - 3) ≤ g₃.partitions := by
          have := hwf₃.bounds
          omega
        obtain ⟨next, hnext, hnextwf⟩ := checkFlags_spec hwf₃ (Nat.le_refl 3) hcount
        simp only [hg₃, hnext]
        exact ⟨next, 0, rfl, .inl hnextwf⟩
      . exact ⟨_, _, rfl, .inl hwf⟩

theorem getBoot_wellFormed {k : Kernel} (hsize : DEFAULT_SECTOR_SIZE ≤ g.nextSectorSize k)
    (hstate : g.sectorSize < 2 ^ 32) (hfuel : MAXIMUM_PARTS + 2 ≤ fuel)
    : ∃ next ret, getBoot d malloc k fuel g = .ok (next, ret)
        ∧ (4 ≤ next.partitions ∧ next.partitions ≤ MAXIMUM_PARTS)
        ∧ (ret = 0 →
          (∀ i, 4 ≤ i → i < next.partitions → (next.ptes i).OwnSlots)
            ∧ ∀ i j, 4 ≤ i → i < j → j < next.partitions →
              (next.ptes i).sectorbuffer ≠ (next.ptes j).sectorbuffer) := by
  obtain ⟨next, ret, hnext, hwf | ⟨hret, hpartitions, _⟩⟩ :=
    getBoot_spec d malloc hsize hstate hfuel
  . refine ⟨next, ret, hnext, hwf.bounds, ?_⟩
    intro _
    refine ⟨hwf.logical, ?_⟩
    intro i j hle hij hlt heq
    have := hwf.distinct i j hle (by omega) (by omega) hlt heq
    omega
  . refine ⟨next, ret, hnext, ?_, fun hzero => absurd hzero hret⟩
    rw [hpartitions]
    decide

end GetBoot

/--
A device on which every sector is a boot record whose extended entry leads to the next sector.
-/
def Device.endlessChain : Device where
  byte i :=
    match i % 512 with
    | 450 => 0x05
    | 454 => 1
    | 458 => 1
    | 510 => 0x55
    | 511 => 0xaa
    | _ => 0
  size := 2 ^ 30
  seeks _ := true

theorem getBoot_wellFormed_endlessChain
    : ∃ next ret, getBoot .endlessChain (fun _ _ => 0) (.mmc 512 (2 ^ 30)) 62 .initial
          = .ok (next, ret)
        ∧ (4 ≤ next.partitions ∧ next.partitions ≤ MAXIMUM_PARTS)
        ∧ (ret = 0 →
          (∀ i, 4 ≤ i → i < next.partitions → (next.ptes i).OwnSlots)
            ∧ ∀ i j, 4 ≤ i → i < j → j < next.partitions →
              (next.ptes i).sectorbuffer ≠ (next.ptes j).sectorbuffer) :=
  getBoot_wellFormed (by decide) (by decide) (by decide)

end FsBench.Fdisk
