import FsBench.Fdisk.MakePart

/-!
This module contains what `addPartition` does when `get_boot` has read an extended partition before:
`fdisk_make_part` clears the table but not `extended_offset` and `ext_index`, and the extended
partition of the other table gets a bound without an end, since the end is taken from the entry that
is empty by now.
-/

namespace FsBench.Fdisk

open addPartition

/--
An extended partition at sector `offset` is left over in entry `i`, which is empty.
-/
structure Globals.Stale (g : Globals) (i : Slot) (offset : Nat) : Prop where
  extIndex_eq : g.extIndex = i
  extendedOffset_eq : g.extendedOffset = offset
  offset_bounds : 0 < offset ∧ offset < 2 ^ 32
  entry_eq : (g.bufs 0).entries i = .zero

def staleBound (offset : Nat) : Bound where
  offset := 0
  first := offset
  last := 2 ^ 64 - 1

def Globals.staleArea (g : Globals) (i : Slot) (offset : Nat) : Area where
  start := g.sectorOffset
  limit := g.lastSector
  bounds := ([0, 1, 2, 3].map fun j : Slot => ((g.bufs 0).entries j).bound).set i
    (staleBound offset)

def Globals.staleEntry (g : Globals) (i : Slot) (offset : Nat) : Slot → Bound :=
  Function.update (fun j => ((g.bufs 0).entries j).bound.round g.unitsPerSector) i
    ((staleBound offset).round g.unitsPerSector)

section Area

variable {g : Globals} {i : Slot} {offset : Nat}

theorem extendedEnd_of_lt (h : g.FourPrimary) (hi : g.extIndex = i)
    : extendedEnd g = .ok (Word.sub 64 (Word.add 64 ((g.bufs 0).entries i).getStartSect
        ((g.bufs 0).entries i).getNrSects) 1) := by
  simp only [extendedEnd, hi, Globals.getPte_of_lt (slot_lt i), bind, Except.bind,
    (h.primary i).partTable_eq, deref, pure, Except.pure]
  rfl

theorem getElem?_slots {α : Type} (entry : Slot → α) (i : Slot)
    : ([0, 1, 2, 3].map entry)[i.val]? = some (entry i) := by
  match i with
  | 0 | 1 | 2 | 3 => rfl

theorem set_slots {α : Type} (entry : Slot → α) (i : Slot) (a : α)
    : ([0, 1, 2, 3].map entry).set i a = [0, 1, 2, 3].map (Function.update entry i a) := by
  match i with
  | 0 | 1 | 2 | 3 => rfl

theorem area_stale (h : g.Ready) (hstale : g.Stale i offset) (n : Slot)
    : area g n = .ok (g.staleArea i offset) := by
  have hend := extendedEnd_of_lt h.toFourPrimary hstale.extIndex_eq
  have hbound : ((g.bufs 0).entries i).bound = { offset := 0, first := 0xffffffff, last := 0 } := by
    rw [hstale.entry_eq]
    rfl
  have hne : offset ≠ 0 := Nat.ne_of_gt hstale.offset_bounds.1
  have hlast : Word.sub 64 (Word.add 64 Partition.zero.getStartSect Partition.zero.getNrSects) 1
      = 2 ^ 64 - 1 := by decide
  rw [hstale.entry_eq, hlast] at hend
  simp only [area, h.toFourPrimary.fillBounds, bind, Except.bind, if_pos n.isLt, displayInCylUnits,
    true_or, if_true, hstale.extendedOffset_eq, if_pos hne, hstale.extIndex_eq, getElem?_slots,
    hbound, hend, pure, Except.pure]
  rfl

theorem rounded_stale : g.rounded (g.staleArea i offset) = [0, 1, 2, 3].map (g.staleEntry i offset) := by
  rw [Globals.rounded, Globals.staleArea, set_slots, List.map_map]
  congr 1
  funext j
  unfold Globals.staleEntry
  by_cases hj : j = i
  . rw [hj, Function.comp_apply, Function.update_self, Function.update_self]
  . rw [Function.comp_apply, Function.update_of_ne hj, Function.update_of_ne hj]

theorem round_staleBound {units : Nat} (hoffset : offset < 2 ^ 32)
    : (staleBound offset).round units
      = { offset := 0, first := offset / units * units, last := 2 ^ 64 - 1 } := by
  have hfirst : ((staleBound offset).round units).first = offset / units * units :=
    round_first (show offset + 1 < 2 ^ 64 by omega)
  exact congrArg (fun first => ({ offset := 0, first, last := 2 ^ 64 - 1 } : Bound)) hfirst

end Area

namespace addPartition

variable {sectorOffset start first : Nat}

theorem skip_lt {b : Bound} {logical : Bool} (h : start < 2 ^ 64)
    : skip sectorOffset logical start b < 2 ^ 64 := by
  have hadd (a c : Nat) : Word.add 64 a c < 2 ^ 64 := Nat.mod_lt _ (by decide)
  have hstart : (if start = b.offset then Word.add 64 start sectorOffset else start) < 2 ^ 64 := by
    split
    . exact hadd _ _
    . exact h
  unfold skip
  generalize (if start = b.offset then _ else start) = start at hstart
  generalize Word.add 64 b.last _ = lastplusoff
  dsimp only
  split
  . exact hadd _ _
  . exact hstart

theorem skip_endless (h : start < 2 ^ 64)
    : skip sectorOffset false start { offset := 0, first, last := 2 ^ 64 - 1 }
      = let start := if start = 0 then Word.add 64 0 sectorOffset else start
        if first ≤ start then 0 else start := by
  -- behind the last sector of such a bound comes sector 0
  have hlast : Word.add 64 (2 ^ 64 - 1) 0 = 2 ^ 64 - 1 := by decide
  have hwrap : Word.add 64 (2 ^ 64 - 1) 1 = 0 := by decide
  have hadd : Word.add 64 0 sectorOffset < 2 ^ 64 := Nat.mod_lt _ (by decide)
  simp only [skip, Bool.false_eq_true, if_false, hlast, hwrap]
  by_cases hzero : start = 0
  . subst hzero
    simp only [if_true]
    congr 1
    simp only [eq_iff_iff]
    omega
  . simp only [if_neg hzero]
    congr 1
    simp only [eq_iff_iff]
    omega

end addPartition

section Zero

/-!
When it starts in the first two sectors and is left over in the last entry, every search ends at
sector 0, whatever else is in the table.
-/

variable {g : Globals} {l : Layout} {offset fuel n : Nat}

theorem foldl_skip_zero {start : Nat} (hoffset : offset < 2 ^ 32)
    (hfirst : offset / g.unitsPerSector * g.unitsPerSector ≤ 1)
    (hsector : 1 ≤ g.sectorOffset ∧ g.sectorOffset < 2 ^ 64) (hstart : start < 2 ^ 64)
    : ([0, 1, 2, 3].map (g.staleEntry 3 offset)).foldl (skip g.sectorOffset false) start = 0 := by
  have hlast : g.staleEntry 3 offset 3
      = { offset := 0, first := offset / g.unitsPerSector * g.unitsPerSector, last := 2 ^ 64 - 1 } := by
    rw [Globals.staleEntry, Function.update_self, round_staleBound hoffset]
  have hsplit : [0, 1, 2, 3].map (g.staleEntry 3 offset)
      = [0, 1, 2].map (g.staleEntry 3 offset) ++ [g.staleEntry 3 offset 3] := rfl
  have hkeep : ([0, 1, 2].map (g.staleEntry 3 offset)).foldl (skip g.sectorOffset false) start
      < 2 ^ 64 :=
    List.foldlRecOn (motive := (· < 2 ^ 64)) _ _ hstart fun _ h _ _ => skip_lt h
  have hadd : Word.add 64 0 g.sectorOffset = g.sectorOffset := by
    rw [Word.add_of_lt (by omega), Nat.zero_add]
  rw [hsplit, List.foldl_append, List.foldl_cons, List.foldl_nil, hlast, skip_endless hkeep, hadd]
  dsimp only
  apply if_pos
  split <;> omega

theorem searchIn_zero (hoffset : offset < 2 ^ 32)
    (hfirst : offset / g.unitsPerSector * g.unitsPerSector ≤ 1)
    (hsector : 1 ≤ g.sectorOffset ∧ g.sectorOffset < 2 ^ 64) (hfuel : 2 ≤ fuel)
    : g.searchIn (g.staleArea 3 offset) fuel = .ok 0 := by
  unfold Globals.searchIn
  rw [rounded_stale]
  exact search_settles (foldl_skip_zero hoffset hfirst hsector hsector.2)
    (foldl_skip_zero hoffset hfirst hsector (by decide)) (Nat.zero_le _) (by decide) hfuel

theorem addPartition_zero (sys : UInt8) (partCyls : Nat) (h : g.Ready) (hstale : g.Stale 3 offset)
    (hfirst : offset / g.unitsPerSector * g.unitsPerSector ≤ 1)
    (hsector : 1 ≤ g.sectorOffset ∧ g.sectorOffset < 2 ^ 64) (n : Slot) (hfuel : 2 ≤ fuel)
    : ∃ next placed, addPartition fuel g n sys partCyls true = .ok (next, some placed)
        ∧ g.Added next n sys placed ∧ (n ≠ 0 → placed.start = 0)
        ∧ 1 ≤ next.sectorOffset ∧ next.sectorOffset < 2 ^ 64 := by
  obtain ⟨next, hnext, hadded, hsectorOffset⟩ := addPartition_placed sys partCyls h n
    (area_stale h hstale n) (searchIn_zero hstale.offset_bounds.2 hfirst hsector hfuel) rfl
    (Nat.zero_le _)
  refine ⟨next, _, hnext, hadded, ?_, ?_⟩
  . intro hn
    have hval : n.val ≠ 0 := Fin.val_ne_of_ne hn
    simp only [place, if_true, if_neg hval]
  . rw [hsectorOffset]
    simp only [place, if_true]
    split
    . decide
    . exact hsector

theorem Globals.Stale.added {next : Globals} {i k : Slot} {sys : UInt8} {placed : Placed}
    (h : g.Stale i offset) (hadded : g.Added next k sys placed) (hk : i ≠ k)
    : next.Stale i offset where
  extIndex_eq := hadded.same.extIndex_eq.trans h.extIndex_eq
  extendedOffset_eq := hadded.same.extendedOffset_eq.trans h.extendedOffset_eq
  offset_bounds := h.offset_bounds
  entry_eq := (hadded.other_eq i hk).trans h.entry_eq

theorem Layout.Applies.added {next : Globals} {k : Slot} {sys : UInt8} {placed : Placed}
    (h : l.Applies g) (hadded : g.Added next k sys placed) : l.Applies next where
  ready := hadded.ready
  heads_eq := hadded.same.heads_eq.trans h.heads_eq
  sectors_eq := hadded.same.sectors_eq.trans h.sectors_eq
  cylinders_eq := hadded.same.cylinders_eq.trans h.cylinders_eq

theorem addAll_zero (happlies : l.Applies g) (hstale : g.Stale 3 1)
    (hsector : 1 ≤ g.sectorOffset ∧ g.sectorOffset < 2 ^ 64) (hn : 2 ≤ n ∧ n ≤ 4)
    (hfuel : 2 ≤ fuel)
    : ∃ r, fdiskMakePart.addAll fuel g n = .ok r
        ∧ ((r.1.bufs 0).entries 1).sysInd = WIN95_FAT32_LBA
        ∧ ((r.1.bufs 0).entries 1).getStartSect = 0 := by
  -- the left-over entry is the last one, so that no call but the last of four comes to it
  let Inv (i : Nat) (s : Globals × List (Option Placed)) :=
    l.Applies s.1 ∧ (1 ≤ s.1.sectorOffset ∧ s.1.sectorOffset < 2 ^ 64)
      ∧ (i ≤ 3 → s.1.Stale 3 1)
      ∧ (1 < i → ((s.1.bufs 0).entries 1).sysInd = WIN95_FAT32_LBA
        ∧ ((s.1.bufs 0).entries 1).getStartSect = 0)
  obtain ⟨r, hr, hinv⟩ := l.addAll_spec fuel Inv (show 0 < n by omega)
    ⟨happlies, hsector, fun _ => hstale, fun h => absurd h (by decide)⟩ (fun _ _ h => h.1) (by
      intro i s hi ⟨happlies, hsector, hstale, hsecond⟩
      let slot : Slot := ⟨i, by omega⟩
      obtain ⟨next, placed, hnext, hadded, hzero, hsectorOffset⟩ :=
        addPartition_zero WIN95_FAT32_LBA (l.share n i) happlies.ready (hstale (by omega))
          (Nat.div_mul_le_self ..) hsector slot hfuel
      refine ⟨next, some placed, hnext, happlies.added hadded, hsectorOffset, ?_, ?_⟩
      . intro hi
        refine (hstale (by omega)).added hadded ?_
        intro heq
        have hval : 3 = i := congrArg Fin.val heq
        omega
      . intro hlt
        by_cases hone : i = 1
        . have hslot : slot = 1 := Fin.eq_of_val_eq hone
          rw [hslot] at hadded hzero
          refine ⟨hadded.sysInd_eq, ?_⟩
          rw [hadded.start_eq, hzero (by decide), Nat.zero_mod]
        . have hslot : (1 : Slot) ≠ slot := fun heq => hone (congrArg Fin.val heq).symm
          rw [hadded.other_eq 1 hslot]
          exact hsecond (by omega))
  exact ⟨r, hr, hinv.2.2.2 (by omega)⟩

end Zero

structure Layout.Empty (l : Layout) (g : Globals) : Prop extends l.Applies g where
  sectorOffset_eq : g.sectorOffset = l.track
  table_eq : g.bufs 0 = .zero

namespace Layout.Empty

variable {l : Layout} {g : Globals} {i : Slot} {offset fuel : Nat}

theorem entry_eq (h : l.Empty g) (i : Slot) : (g.bufs 0).entries i = .zero := by
  rw [h.table_eq]
  rfl

theorem staleEntry_self (h : l.Empty g) (hoffset : offset < 2 ^ 32)
    : g.staleEntry i offset i
      = { offset := 0, first := offset / l.units * l.units, last := 2 ^ 64 - 1 } := by
  rw [Globals.staleEntry, Function.update_self, h.units_eq, round_staleBound hoffset]

theorem staleEntry_ne (h : l.Empty g) {j : Slot} (hj : j ≠ i)
    : g.staleEntry i offset j = { offset := 0, first := l.unused, last := 0 } := by
  have hbound : Partition.zero.bound = { offset := 0, first := 0xffffffff, last := 0 } := rfl
  rw [Globals.staleEntry, Function.update_of_ne hj, h.entry_eq, h.units_eq, hbound]
  exact congrArg (fun first => ({ offset := 0, first, last := 0 } : Bound)) (round_first (by decide))

/-- The sector at which the search starts over when it meets the bound without an end. -/
def found (l : Layout) (i : Slot) (offset : Nat) : Nat :=
  if offset / l.units * l.units ≤ l.track ∧ i = 3 then 0 else l.track

theorem skip_ne (h : l.Empty g) {j : Slot} (hj : j ≠ i) {start : Nat}
    (hstart : start = 0 ∨ start = l.track)
    : skip g.sectorOffset false start (g.staleEntry i offset j) = l.track := by
  have htrack := l.track_bounds
  have hunused := l.unused_bounds
  have hadd : Word.add 64 0 l.track = l.track := by
    rw [Word.add_of_lt (by omega), Nat.zero_add]
  rw [h.staleEntry_ne hj, h.sectorOffset_eq]
  rcases hstart with rfl | rfl
  . simp only [skip, if_true, hadd]
    rw [if_neg (by omega)]
  . simp only [skip]
    rw [if_neg (show l.track ≠ 0 by omega), if_neg (by omega)]

theorem skip_self (h : l.Empty g) (hoffset : offset < 2 ^ 32) {start : Nat}
    (hstart : start = 0 ∨ start = l.track)
    : skip g.sectorOffset false start (g.staleEntry i offset i)
      = if offset / l.units * l.units ≤ l.track then 0 else l.track := by
  have htrack := l.track_bounds
  have hadd : Word.add 64 0 l.track = l.track := by
    rw [Word.add_of_lt (by omega), Nat.zero_add]
  rw [h.staleEntry_self hoffset, h.sectorOffset_eq, skip_endless (by omega)]
  rcases hstart with rfl | rfl
  . simp only [if_true, hadd]
  . simp only [if_neg (show l.track ≠ 0 by omega)]

theorem foldl_skip (h : l.Empty g) (hoffset : offset < 2 ^ 32) {start : Nat}
    (hstart : start = l.track ∨ start = found l i offset)
    : ([0, 1, 2, 3].map (g.staleEntry i offset)).foldl (skip g.sectorOffset false) start
      = found l i offset := by
  -- the search before entry `j`: the bound sends it to 0 and the next entry back behind the track
  let value (j : Nat) :=
    if j = 0 then start
    else if j = i + 1 ∧ offset / l.units * l.units ≤ l.track then 0 else l.track
  have hvalue (j : Nat) : value j = 0 ∨ value j = l.track := by
    dsimp only [value]
    unfold found at hstart
    split
    . rcases hstart with rfl | rfl
      . exact .inr rfl
      . split
        . exact .inl rfl
        . exact .inr rfl
    . split
      . exact .inl rfl
      . exact .inr rfl
  have hend : value 4 = found l i offset := by
    have hlast : 4 = i.val + 1 ↔ i = 3 := by
      rw [Fin.ext_iff]
      change _ ↔ i.val = 3
      omega
    dsimp only [value]
    unfold found
    simp only [OfNat.ofNat_ne_zero, if_false, hlast, and_comm]
  rw [← hend]
  change ([0, 1, 2, 3].map (g.staleEntry i offset)).foldl (skip g.sectorOffset false) (value 0) = _
  apply foldl_slots
  intro j
  by_cases hj : j = i
  . subst hj
    rw [h.skip_self hoffset (hvalue j)]
    simp [value]
  . have hne : j.val ≠ i.val := fun heq => hj (Fin.eq_of_val_eq heq)
    rw [h.skip_ne hj (hvalue j)]
    simp [value, hne]

theorem found_le (l : Layout) (i : Slot) (offset : Nat) : found l i offset ≤ l.track := by
  unfold found
  split
  . exact Nat.zero_le _
  . exact Nat.le_refl _

theorem searchIn (h : l.Empty g) (hoffset : offset < 2 ^ 32)
    (hle : found l i offset ≤ g.lastSector) (hfuel : 2 ≤ fuel)
    : g.searchIn (g.staleArea i offset) fuel = .ok (found l i offset) := by
  have htrack := l.track_bounds
  have hfound := found_le l i offset
  unfold Globals.searchIn
  rw [rounded_stale]
  refine search_settles (h.foldl_skip hoffset (.inl ?_)) (h.foldl_skip hoffset (.inr rfl)) hle
    (by omega) hfuel
  exact h.sectorOffset_eq

/-- The cylinders before the sector that bounds the free ones. -/
def ends (l : Layout) (i : Slot) (offset : Nat) : Nat :=
  if found l i offset < offset / l.units * l.units then min l.last (offset / l.units) else l.last

theorem foldl_cut (h : l.Empty g) (hoffset : offset < 2 ^ 32)
    : ([0, 1, 2, 3].map (g.staleEntry i offset)).foldl (cut (found l i offset)) g.lastSector
      = ends l i offset * l.units - 1 := by
  have htrack := l.track_bounds
  have hunused := l.unused_bounds
  have hfound := found_le l i offset
  have hlast := h.limit_eq
  have hlastPos : 1 ≤ l.last * l.units := Nat.mul_pos Layout.one_le_last l.units_bounds.1
  have hends : ends l i offset * l.units - 1
      = if found l i offset < offset / l.units * l.units then
          min (l.last * l.units - 1) (offset / l.units * l.units - 1)
        else
          l.last * l.units - 1 := by
    unfold ends
    split
    . rw [← Nat.mul_min_mul_right]
      omega
    . rfl
  generalize found l i offset = start at *
  generalize hfirst : offset / l.units * l.units = first at *
  have hself (limit : Nat) : cut start limit (g.staleEntry i offset i)
      = if start < first then min limit (first - 1) else limit := by
    rw [h.staleEntry_self hoffset, hfirst]
    split
    . exact cut_of_lt rfl (by dsimp only; omega)
    . exact cut_of_le rfl (by dsimp only; omega)
  have hne (limit : Nat) {j : Slot} (hj : j ≠ i) : cut start limit (g.staleEntry i offset j)
      = min limit (l.unused - 1) := by
    rw [h.staleEntry_ne hj]
    exact cut_of_lt rfl (by dsimp only; omega)
  -- the order of the bounds does not matter
  have hmin (limit : Nat) : min (min limit (l.unused - 1)) (l.unused - 1)
      = min limit (l.unused - 1) := by
    rw [Nat.min_assoc, Nat.min_self]
  have hcomm (limit : Nat)
      : min (if start < first then min limit (first - 1) else limit) (l.unused - 1)
        = if start < first then min (min limit (l.unused - 1)) (first - 1)
          else min limit (l.unused - 1) := by
    split
    . exact min_right_comm _ _ _
    . rfl
  rw [hends, ← hlast]
  simp only [List.map_cons, List.map_nil, List.foldl_cons, List.foldl_nil]
  match i with
  | 0 => simp only [hself, hne _ (show 1 ≠ 0 by decide), hne _ (show 2 ≠ 0 by decide),
      hne _ (show 3 ≠ 0 by decide), hmin, hcomm]
  | 1 => simp only [hself, hne _ (show 0 ≠ 1 by decide), hne _ (show 2 ≠ 1 by decide),
      hne _ (show 3 ≠ 1 by decide), hmin, hcomm]
  | 2 => simp only [hself, hne _ (show 0 ≠ 2 by decide), hne _ (show 1 ≠ 2 by decide),
      hne _ (show 3 ≠ 2 by decide), hmin, hcomm]
  | 3 => simp only [hself, hne _ (show 0 ≠ 3 by decide), hne _ (show 1 ≠ 3 by decide),
      hne _ (show 2 ≠ 3 by decide), hmin]

end Layout.Empty

def Layout.single (l : Layout) (cyl : Nat) : Placed where
  start := 2048
  stop := Word.sub 64 (cyl * l.units - 1) 1

def Layout.MakesAlone (l : Layout) (fuel : Nat) (g : Globals) (cyl : Nat) : Prop :=
  ∃ next, addPartition fuel g 0 WIN95_FAT32_LBA l.cylinders true = .ok (next, some (l.single cyl))
    ∧ g.Added next 0 WIN95_FAT32_LBA (l.single cyl)

namespace Layout.Empty

variable {l : Layout} {g : Globals} {i : Slot} {offset fuel : Nat}

theorem ends_le (l : Layout) (i : Slot) (offset : Nat) : ends l i offset ≤ l.last := by
  unfold ends
  split
  . exact Nat.min_le_left ..
  . exact Nat.le_refl _

theorem addPartition (h : l.Empty g) (hstale : g.Stale i offset)
    (hle : found l i offset ≤ g.lastSector)
    (hcyl : found l i offset / l.units < ends l i offset) (hfuel : 2 ≤ fuel)
    : l.MakesAlone fuel g
        (min (found l i offset / l.units + 1 + l.cylinders) (ends l i offset)) := by
  have hoffset := hstale.offset_bounds.2
  have hunits := l.units_bounds
  have htrack := l.track_bounds
  have hfound := found_le l i offset
  have hcylinders := l.cylinders_lt
  have hends := ends_le l i offset
  have hlast := l.last_lt
  have hlimit := h.foldl_cut (i := i) hoffset
  rw [← rounded_stale] at hlimit
  have hfree : found l i offset < ends l i offset * l.units := by
    calc found l i offset
      _ < found l i offset / l.units * l.units + l.units := Nat.lt_div_mul_add hunits.1
      _ = (found l i offset / l.units + 1) * l.units := (Nat.succ_mul _ _).symm
      _ ≤ ends l i offset * l.units := Nat.mul_le_mul_right _ hcyl
  have hbound : ends l i offset * l.units ≤ 2 ^ 32 * 65025 :=
    Nat.mul_le_mul (by omega) hunits.2
  have hsum : (found l i offset / l.units + 1 + l.cylinders) * l.units
      ≤ (2 ^ 32 + 2 ^ 32) * 65025 :=
    Nat.mul_le_mul (by omega) hunits.2
  have hstop : stopSector l.units (found l i offset) (ends l i offset * l.units - 1) l.cylinders
      = min (found l i offset / l.units + 1 + l.cylinders) (ends l i offset) * l.units - 1 :=
    stopSector_eq hunits.1 rfl hcyl (by omega) (by omega) (by omega)
  obtain ⟨next, hnext, hadded, _⟩ := addPartition_placed WIN95_FAT32_LBA l.cylinders h.ready 0
    (area_stale h.ready hstale 0) (h.searchIn hoffset hle hfuel) hlimit (by omega)
  have hplace : (place g (0 : Slot) l.cylinders true (found l i offset)
      (ends l i offset * l.units - 1)).1
        = l.single (min (found l i offset / l.units + 1 + l.cylinders) (ends l i offset)) := by
    simp only [place, if_true, h.units_eq, hstop]
    rfl
  rw [hplace] at hnext hadded
  exact ⟨next, hnext, hadded⟩

theorem addPartition_fresh (h : l.Empty g) (hext : g.extendedOffset = 0) (hbase : l.base ≤ l.last)
    (hfuel : 2 ≤ fuel)
    : l.MakesAlone fuel g (min (l.base + l.cylinders) l.last) := by
  have hlaid : l.Laid 1 0 g :=
    { geometry := { h.toApplies with extendedOffset_eq := hext }
      sectorOffset_eq := h.sectorOffset_eq
      sysInd_eq i := by
        rw [h.entry_eq, if_neg (Nat.not_lt_zero _)]
        rfl
      start_eq i hi := absurd hi (Nat.not_lt_zero _)
      stop_eq i hi := absurd hi (Nat.not_lt_zero _)
      told_eq _ i hi := absurd hi (Nat.not_lt_zero _) }
  have hshare : l.share 1 0 = l.cylinders := by
    unfold Layout.share
    rw [if_neg (Nat.lt_irrefl 1), Nat.mul_zero, Nat.sub_zero]
  have hedge : l.edge 1 1 = min (l.base + l.cylinders) l.last * l.units := by
    rw [edge_one Nat.one_pos, Layout.partCyls, Nat.div_one]
  have hpos := l.two_le_edge (n := 1) (i := 1) (Nat.le_refl 1) Nat.one_pos hbase
  have hlt := l.edge_lt (n := 1) (i := 1)
  obtain ⟨next, hnext, hadded, _⟩ := hlaid.geometry.addPartition 0 WIN95_FAT32_LBA Nat.one_pos hbase
    (hlaid.search Nat.one_pos (by decide) hbase (.inl rfl) hfuel)
    (hlaid.foldl_cut Nat.one_pos (by decide) hbase (.inl rfl)) (free_div Nat.one_pos hbase)
    (free_lt (Nat.zero_le 1) Nat.one_pos hbase)
  have hplaced : ({ start := if (0 : Slot).val = 0 then 2048 else l.free 1 0, stop := l.stop 1 0 } : Placed)
      = l.single (min (l.base + l.cylinders) l.last) := by
    rw [Layout.single, ← hedge, Word.sub_of_le (by omega) (by omega)]
    rfl
  rw [Fin.val_zero, hshare] at hnext
  unfold MakesAlone
  rw [← hplaced]
  exact ⟨next, hnext, hadded⟩

end Layout.Empty

section Alone

variable {l : Layout} {g next : Globals} {i : Slot} {offset fuel cyl : Nat}

theorem newEntry_congr {g' : Globals} {p : Partition} {offset start stop : Nat} {sysid : UInt8}
    (hheads : g'.heads = g.heads) (hsectors : g'.sectors = g.sectors)
    : g'.newEntry p offset start stop sysid = g.newEntry p offset start stop sysid := by
  unfold Globals.newEntry chsLimit
  rw [hheads, hsectors]

/-- The table with the only partition, up to the end of cylinder `cyl`. -/
def Layout.alone (l : Layout) (cyl : Nat) : Buffer :=
  Buffer.zero.setEntry 0 (({ Globals.initial with heads := l.heads, sectors := l.track } : Globals).newEntry
    .zero 0 (l.single cyl).start (l.single cyl).stop WIN95_FAT32_LBA)

theorem Layout.Empty.added_eq (h : l.Empty g) (hadded : g.Added next 0 WIN95_FAT32_LBA (l.single cyl))
    : next.bufs 0 = l.alone cyl := by
  rw [hadded.table_eq, h.entry_eq, h.table_eq, Layout.alone]
  congr 1
  exact newEntry_congr h.heads_eq h.sectors_eq

theorem Layout.alone_sysInd : ((l.alone cyl).entries 0).sysInd = WIN95_FAT32_LBA :=
  rfl

theorem Layout.alone_injective (l : Layout) (cyl cyl' : Nat) (hcyl : 1 ≤ cyl ∧ cyl * l.units < 2 ^ 32)
    (hcyl' : 1 ≤ cyl' ∧ cyl' * l.units < 2 ^ 32)
    (heq : ((l.alone cyl).entries 0).getNrSects = ((l.alone cyl').entries 0).getNrSects)
    : cyl = cyl' := by
  have hunits := l.units_bounds.1
  have hpos : 1 ≤ cyl * l.units := Nat.mul_pos hcyl.1 hunits
  have hpos' : 1 ≤ cyl' * l.units := Nat.mul_pos hcyl'.1 hunits
  have hsize (cyl : Nat) : ((l.alone cyl).entries 0).getNrSects
      = Word.add 64 (Word.sub 64 (Word.sub 64 (cyl * l.units - 1) 1) 2048) 1 % 2 ^ 32 :=
    Globals.newEntry_getNrSects
  rw [hsize, hsize] at heq
  apply Nat.eq_of_mul_eq_mul_right hunits
  unfold Word.add Word.sub at heq
  omega

namespace Layout.Empty

theorem addPartition_short (h : l.Empty g) (hstale : g.Stale 3 l.units) (hfuel : 2 ≤ fuel)
    : l.MakesAlone fuel g 1 := by
  have hunits := l.units_bounds
  have hfirst : l.units / l.units * l.units = l.units := by
    rw [Nat.div_self hunits.1, Nat.one_mul]
  have hfound : found l 3 l.units < l.units := by
    unfold found
    rw [hfirst]
    split
    . exact hunits.1
    . next hnot => exact Nat.lt_of_not_le fun hle => hnot ⟨hle, rfl⟩
  have hends : ends l 3 l.units = 1 := by
    have hlast := l.one_le_last
    unfold ends
    rw [hfirst, if_pos hfound, Nat.div_self hunits.1]
    exact Nat.min_eq_right hlast
  have hlast : l.units - 1 ≤ g.lastSector := by
    rw [h.lastSector_eq]
    split
    . omega
    . next hpos =>
      have hmul : 1 * l.units ≤ l.cylinders * l.units :=
        Nat.mul_le_mul_right _ (Nat.pos_of_ne_zero hpos)
      omega
  have hmade := h.addPartition hstale (by omega) (by
    rw [hends, Nat.div_eq_of_lt hfound]
    exact Nat.one_pos) hfuel
  rw [hends, Nat.div_eq_of_lt hfound, Nat.min_eq_right (by omega)] at hmade
  exact hmade

theorem addPartition_least (h : l.Empty g) (hbase : l.base = 1) (hcylinders : l.cylinders ≤ 1)
    (hstale : g.extendedOffset ≠ 0 → ∃ i offset, g.Stale i offset) (hfuel : 2 ≤ fuel)
    : l.MakesAlone fuel g 1 := by
  have hlast := l.one_le_last
  have hwithin (c : Nat) (hc : 1 ≤ c) : min (1 + l.cylinders) (min l.last c) = 1 := by
    by_cases hzero : l.cylinders = 0
    . omega
    . have hle := l.last_le_cylinders (Nat.pos_of_ne_zero hzero)
      omega
  by_cases hext : g.extendedOffset = 0
  . have hmade := h.addPartition_fresh hext (by omega) hfuel
    have hmin := hwithin l.last hlast
    rw [Nat.min_self] at hmin
    rw [hbase, hmin] at hmade
    exact hmade
  . obtain ⟨i, offset, hstale⟩ := hstale hext
    have hunits := l.units_bounds
    have htrack : l.track < l.units := by
      have hdiv : l.track / l.units = 0 := Nat.succ.inj hbase
      exact (Nat.div_eq_zero_iff_lt hunits.1).mp hdiv
    have hfound := found_le l i offset
    have hdiv : found l i offset / l.units = 0 := Nat.div_eq_of_lt (by omega)
    have hends : min (1 + l.cylinders) (ends l i offset) = 1 ∧ 0 < ends l i offset := by
      unfold ends
      split
      . next hlt =>
        have hpos : 1 ≤ offset / l.units := Nat.pos_of_mul_pos_right (Nat.zero_lt_of_lt hlt)
        exact ⟨hwithin _ hpos, by omega⟩
      . have hmin := hwithin l.last hlast
        rw [Nat.min_self] at hmin
        exact ⟨hmin, hlast⟩
    have hlastSector : l.track ≤ g.lastSector := by
      rw [h.lastSector_eq]
      split
      . omega
      . next hpos =>
        obtain hone : l.cylinders = 1 := by omega
        rw [hone, Nat.one_mul]
        omega
    have hmade := h.addPartition hstale (by omega) (by
      rw [hdiv]
      exact hends.2) hfuel
    rw [hdiv, Nat.zero_add, hends.1] at hmade
    exact hmade

end Layout.Empty

end Alone

section Call

open fdiskMakePart

variable {io : Io} {k : Kernel} {g next : Globals} {l : Layout} {i : Slot} {fuel n cyl : Nat}

theorem Globals.Started.empty (h : g.Started k next) (hsize : DEFAULT_SECTOR_SIZE ≤ g.nextSectorSize k)
    : (Layout.measured k g hsize).Empty next :=
  { h.applies hsize with
    sectorOffset_eq := h.sectorOffset_eq
    table_eq := h.table_eq }

theorem Globals.Started.stale (h : g.Started k next) (hindex : g.extIndex = i)
    (hoffset : 0 < g.extendedOffset ∧ g.extendedOffset < 2 ^ 32) : next.Stale i g.extendedOffset where
  extIndex_eq := h.extIndex_eq.trans hindex
  extendedOffset_eq := h.extendedOffset_eq
  offset_bounds := hoffset
  entry_eq := by
    rw [h.table_eq]
    rfl

theorem Layout.MakesAlone.addAll (h : l.MakesAlone fuel g cyl) (happlies : l.Applies g)
    : ∃ next, addAll fuel g 1 = .ok (next, [some (l.single cyl)])
        ∧ g.Added next 0 WIN95_FAT32_LBA (l.single cyl) := by
  obtain ⟨next, hnext, hadded⟩ := h
  refine ⟨next, ?_, hadded⟩
  simp only [fdiskMakePart.addAll, happlies.cylinders_eq, Nat.sub_self, List.range_zero,
    List.foldlM_nil, Nat.mul_zero, Nat.sub_zero, fdiskNeedPartionAligned, bind, Except.bind, pure,
    Except.pure, hnext]
  rfl

theorem fdiskMakePart_alone (fuel cyl : Nat) (hsize : DEFAULT_SECTOR_SIZE ≤ g.nextSectorSize io.kernel)
    (hstate : g.sectorSize < 2 ^ 32) (hopen : io.openDevice = true)
    (hmakes : ∀ start : Globals, g.Started io.kernel start →
      (Layout.measured io.kernel g hsize).MakesAlone fuel start cyl)
    : ∃ m, fdiskMakePart io fuel g 1 = .ok m
        ∧ m.globals.bufs 0
          = writePartTableFlag ((Layout.measured io.kernel g hsize).alone cyl) := by
  obtain ⟨start, hstarted, hends⟩ :=
    fdiskMakePart_starts fuel (n := 1) (by decide) hsize hstate hopen
  obtain ⟨next, hadd, hadded⟩ := (hmakes start hstarted).addAll (hstarted.applies hsize)
  obtain ⟨m, hm, _, htable⟩ := hends _ hadd
  refine ⟨m, hm, htable.trans ?_⟩
  rw [(hstarted.empty hsize).added_eq hadded]

def Made.AtZero (m : Made) : Prop :=
  ((m.globals.bufs 0).entries 1).sysInd = WIN95_FAT32_LBA
    ∧ ((m.globals.bufs 0).entries 1).getStartSect = 0

theorem fdiskMakePart_atZero (hn : 2 ≤ n ∧ n ≤ 4)
    (hsize : DEFAULT_SECTOR_SIZE ≤ g.nextSectorSize io.kernel) (hstate : g.sectorSize < 2 ^ 32)
    (hopen : io.openDevice = true) (hindex : g.extIndex = 3) (hoffset : g.extendedOffset = 1)
    (hfuel : 2 ≤ fuel)
    : ∃ m, fdiskMakePart io fuel g n = .ok m ∧ m.AtZero := by
  obtain ⟨start, hstarted, hends⟩ :=
    fdiskMakePart_starts fuel ⟨Nat.le_of_succ_le hn.1, hn.2⟩ hsize hstate hopen
  have hstale := hstarted.stale (i := 3) hindex (by rw [hoffset]; decide)
  rw [hoffset] at hstale
  have hsector : 1 ≤ start.sectorOffset ∧ start.sectorOffset < 2 ^ 64 := by
    have htrack := kernelSectors_bounds (k := io.kernel)
    rw [hstarted.sectorOffset_eq]
    omega
  obtain ⟨r, hadd, hsysInd, hstart⟩ :=
    addAll_zero (hstarted.applies hsize) hstale hsector hn hfuel
  obtain ⟨m, hm, _, htable⟩ := hends r hadd
  refine ⟨m, hm, ?_⟩
  rw [Made.AtZero, htable]
  exact ⟨hsysInd, hstart⟩

theorem fdiskMakePart_not_atZero (hn : 2 ≤ n ∧ n ≤ 4)
    (hsize : DEFAULT_SECTOR_SIZE ≤ g.nextSectorSize io.kernel) (hstate : g.sectorSize < 2 ^ 32)
    (hopen : io.openDevice = true) (hext : g.extendedOffset = 0) (hfuel : 3 ≤ fuel)
    : ∃ m, fdiskMakePart io fuel g n = .ok m ∧ ¬m.AtZero := by
  obtain ⟨m, next, hm, hentries, houtcome⟩ :=
    fdiskMakePart_made ⟨Nat.le_of_succ_le hn.1, hn.2⟩ hsize hstate hext hopen hfuel
  refine ⟨m, hm, ?_⟩
  intro ⟨hsysInd, hstart⟩
  rw [hentries] at hsysInd hstart
  cases houtcome with
  | full hbase hlaid =>
    rw [hlaid.sysInd_eq 1, if_neg (Nat.not_lt_zero _)] at hsysInd
    exact absurd hsysInd (by decide)
  | laid hbase hroom hlaid hplaced =>
    rw [hlaid.start_eq 1 hn.1] at hstart
    exact absurd hstart (Nat.ne_of_gt (Layout.start_pos hn.1 hbase))
  | wrapped k hbase hroom hk hone hwrapped hplaced =>
    rw [hwrapped.sysInd_eq 1] at hsysInd
    split at hsysInd
    . next hlt =>
      have hedge := (Layout.measured io.kernel g hsize).two_le_edge (n := n) (i := 1) (by omega)
        (by omega) hbase
      rw [(hwrapped.rest 1 Nat.one_pos hlt).1] at hstart
      omega
    . exact absurd hsysInd (by decide)

theorem fdiskMakePart_short (hsize : DEFAULT_SECTOR_SIZE ≤ g.nextSectorSize io.kernel)
    (hstate : g.sectorSize < 2 ^ 32) (hopen : io.openDevice = true) (hindex : g.extIndex = 3)
    (hoffset : g.extendedOffset = (Layout.measured io.kernel g hsize).units) (hfuel : 2 ≤ fuel)
    : ∃ m, fdiskMakePart io fuel g 1 = .ok m
        ∧ (m.globals.bufs 0).entries 0
          = ((Layout.measured io.kernel g hsize).alone 1).entries 0 := by
  have hunits := (Layout.measured io.kernel g hsize).units_bounds
  obtain ⟨m, hm, htable⟩ := fdiskMakePart_alone fuel 1 hsize hstate hopen (by
    intro start hstarted
    have hstale := hstarted.stale (i := 3) hindex (by omega)
    rw [hoffset] at hstale
    exact (hstarted.empty hsize).addPartition_short hstale hfuel)
  refine ⟨m, hm, ?_⟩
  rw [htable]
  rfl

theorem fdiskMakePart_not_short (hsize : DEFAULT_SECTOR_SIZE ≤ g.nextSectorSize io.kernel)
    (hstate : g.sectorSize < 2 ^ 32) (hopen : io.openDevice = true) (hext : g.extendedOffset = 0)
    (hlong : (Layout.measured io.kernel g hsize).base = 2
      ∨ 2 ≤ (Layout.measured io.kernel g hsize).cylinders)
    (hfuel : 3 ≤ fuel)
    : ∃ m, fdiskMakePart io fuel g 1 = .ok m
        ∧ (m.globals.bufs 0).entries 0
          ≠ ((Layout.measured io.kernel g hsize).alone 1).entries 0 := by
  generalize hl : Layout.measured io.kernel g hsize = l at hlong
  have hunits := l.units_bounds
  by_cases hbase : l.base ≤ l.last
  . obtain ⟨m, hm, htable⟩ := fdiskMakePart_alone fuel _ hsize hstate hopen (by
      intro start hstarted
      have hempty := hstarted.empty hsize
      rw [hl] at hempty ⊢
      exact hempty.addPartition_fresh (hstarted.extendedOffset_eq.trans hext) hbase
        (Nat.le_of_succ_le hfuel))
    refine ⟨m, hm, ?_⟩
    intro heq
    rw [htable, hl] at heq
    have hlast : 2 ≤ l.last := by
      rcases hlong with htwo | htwo
      . omega
      . have hdiv : 2 ≤ (2 ^ 32 - 1) / l.units := by
          rw [Nat.le_div_iff_mul_le hunits.1]
          omega
        unfold Layout.last
        rw [if_neg (by omega)]
        exact Nat.le_min.mpr ⟨htwo, hdiv⟩
    have hmul : min (l.base + l.cylinders) l.last * l.units ≤ l.last * l.units :=
      Nat.mul_le_mul_right _ (Nat.min_le_right ..)
    have hlt := Nat.lt_of_le_of_lt l.last_mul_le l.unused_bounds.2
    have hpos := l.base_bounds.1
    have hone := l.alone_injective (min (l.base + l.cylinders) l.last) 1 ⟨by omega, by omega⟩
      ⟨Nat.le_refl 1, by omega⟩ (congrArg Partition.getNrSects heq)
    omega
  . obtain ⟨m, next, hm, hentries, houtcome⟩ :=
      fdiskMakePart_made (n := 1) (by decide) hsize hstate hext hopen hfuel
    refine ⟨m, hm, ?_⟩
    intro heq
    rw [hl] at houtcome
    cases houtcome with
    | full _ hlaid =>
      have hsysInd := hlaid.sysInd_eq 0
      rw [if_neg (Nat.not_lt_zero _), ← hentries, heq, Layout.alone_sysInd] at hsysInd
      exact absurd hsysInd (by decide)
    | laid hbase' => exact hbase hbase'
    | wrapped _ hbase' => exact hbase hbase'

theorem fdiskMakePart_least (hsize : DEFAULT_SECTOR_SIZE ≤ g.nextSectorSize io.kernel)
    (hopen : io.openDevice = true) (hindex : g.extIndex < 4)
    (hoffset : g.extendedOffset < 2 ^ 32) (hstate : g.sectorSize < 2 ^ 32)
    (hbase : (Layout.measured io.kernel g hsize).base = 1)
    (hcylinders : (Layout.measured io.kernel g hsize).cylinders ≤ 1) (hfuel : 2 ≤ fuel)
    : ∃ m, fdiskMakePart io fuel g 1 = .ok m
        ∧ m.globals.bufs 0
          = writePartTableFlag ((Layout.measured io.kernel g hsize).alone 1) := by
  apply fdiskMakePart_alone fuel 1 hsize hstate hopen
  intro start hstarted
  refine (hstarted.empty hsize).addPartition_least hbase hcylinders ?_ hfuel
  intro hext
  rw [hstarted.extendedOffset_eq] at hext
  exact ⟨⟨g.extIndex, hindex⟩, _, hstarted.stale rfl ⟨Nat.pos_of_ne_zero hext, hoffset⟩⟩

end Call

end FsBench.Fdisk
