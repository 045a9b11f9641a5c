import FsBench.Fdisk.Layout
import FsBench.Fdisk.Make

/-!
This module contains what one call of `addPartition` does to a table of four primary entries: the
bounds that it reads off the entries, the outcomes of the search for a free sector, and the entry
that it stores.
-/

namespace FsBench.Fdisk

structure Pte.IsPrimary (pe : Pte) (i : Slot) : Prop where
  partTable_eq : pe.partTable = some { buf := 0, slot := i }
  offset_eq : pe.offset = 0
  sectorbuffer_eq : pe.sectorbuffer = some 0

structure Globals.FourPrimary (g : Globals) : Prop where
  partitions_eq : g.partitions = 4
  primary : ∀ i : Slot, (g.ptes i).IsPrimary i

structure Globals.Ready (g : Globals) : Prop extends g.FourPrimary where
  heads_bounds : 1 ≤ g.heads ∧ g.heads ≤ 256
  sectors_bounds : 1 ≤ g.sectors ∧ g.sectors ≤ 255
  units_eq : g.unitsPerSector = g.heads * g.sectors

structure Globals.SameGeometry (g next : Globals) : Prop where
  heads_eq : next.heads = g.heads
  sectors_eq : next.sectors = g.sectors
  cylinders_eq : next.cylinders = g.cylinders
  units_eq : next.unitsPerSector = g.unitsPerSector
  sectorSize_eq : next.sectorSize = g.sectorSize
  position_eq : next.position = g.position
  extendedOffset_eq : next.extendedOffset = g.extendedOffset
  extIndex_eq : next.extIndex = g.extIndex

def Partition.bound (p : Partition) : Bound :=
  if p.sysInd = 0 ∨ IS_EXTENDED p.sysInd then
    { offset := 0, first := 0xffffffff, last := 0 }
  else
    { offset := 0, first := p.getStartSect
      last := Word.sub 64 (Word.add 64 p.getStartSect p.getNrSects) 1 }

variable {g : Globals}

theorem Globals.SameGeometry.refl : g.SameGeometry g :=
  ⟨rfl, rfl, rfl, rfl, rfl, rfl, rfl, rfl⟩

theorem Globals.SameGeometry.trans {g₁ g₂ g₃ : Globals} (h : g₁.SameGeometry g₂)
    (h' : g₂.SameGeometry g₃) : g₁.SameGeometry g₃ where
  heads_eq := h'.heads_eq.trans h.heads_eq
  sectors_eq := h'.sectors_eq.trans h.sectors_eq
  cylinders_eq := h'.cylinders_eq.trans h.cylinders_eq
  units_eq := h'.units_eq.trans h.units_eq
  sectorSize_eq := h'.sectorSize_eq.trans h.sectorSize_eq
  position_eq := h'.position_eq.trans h.position_eq
  extendedOffset_eq := h'.extendedOffset_eq.trans h.extendedOffset_eq
  extIndex_eq := h'.extIndex_eq.trans h.extIndex_eq

theorem slot_lt (i : Slot) : i.val < MAXIMUM_PARTS :=
  Nat.lt_trans i.isLt (by decide)

namespace Globals.FourPrimary

theorem fillBound (h : g.FourPrimary) (i : Slot)
    : fillBound g i = .ok ((g.bufs 0).entries i).bound := by
  simp only [Fdisk.fillBound, Globals.getPte_of_lt (slot_lt i), bind, Except.bind,
    (h.primary i).partTable_eq, deref, getPartitionStart, pure, Except.pure,
    (h.primary i).offset_eq, Globals.part, Partition.bound]
  split
  . rfl
  . have hstart := ((g.bufs 0).entries i).getStartSect_lt
    have hadd : Word.add 64 0 ((g.bufs 0).entries i).getStartSect
        = ((g.bufs 0).entries i).getStartSect := by
      rw [Word.add_of_lt (by omega), Nat.zero_add]
    rw [hadd]

theorem fillBounds (h : g.FourPrimary)
    : fillBounds g g.partitions
      = .ok ([0, 1, 2, 3].map fun i : Slot => ((g.bufs 0).entries i).bound) := by
  have h0 : Fdisk.fillBound g 0 = _ := h.fillBound 0
  have h1 : Fdisk.fillBound g 1 = _ := h.fillBound 1
  have h2 : Fdisk.fillBound g 2 = _ := h.fillBound 2
  have h3 : Fdisk.fillBound g 3 = _ := h.fillBound 3
  have hrange : List.range 4 = [0, 1, 2, 3] := rfl
  unfold Fdisk.fillBounds
  rw [h.partitions_eq, hrange]
  simp only [List.mapM_cons, List.mapM_nil, h0, h1, h2, h3, bind, Except.bind, pure, Except.pure]
  rfl

theorem of_setUp {next : Globals} (hpartitions : next.partitions = 4)
    (hptes : next.ptes = (getBoot.setUp g).ptes) : next.FourPrimary where
  partitions_eq := hpartitions
  primary i := by
    rw [hptes]
    dsimp only [getBoot.setUp]
    rw [dif_pos i.isLt]
    exact ⟨rfl, rfl, rfl⟩

end Globals.FourPrimary

namespace Globals.Ready

theorem units_bounds (h : g.Ready) : 1 ≤ g.unitsPerSector ∧ g.unitsPerSector ≤ 65280 := by
  have hpos : 0 < g.heads * g.sectors := Nat.mul_pos h.heads_bounds.1 h.sectors_bounds.1
  have hle : g.heads * g.sectors ≤ 256 * 255 :=
    Nat.mul_le_mul h.heads_bounds.2 h.sectors_bounds.2
  rw [h.units_eq]
  omega

end Globals.Ready

@[simp]
theorem Globals.newEntry_sysInd {p : Partition} {offset start stop : Nat} {sysid : UInt8}
    : (g.newEntry p offset start stop sysid).sysInd = sysid :=
  rfl

theorem Globals.newEntry_getStartSect {p : Partition} {offset start stop : Nat} {sysid : UInt8}
    : (g.newEntry p offset start stop sysid).getStartSect = Word.sub 64 start offset % 2 ^ 32 :=
  Partition.getStartSect_setStartSect (p := { p with bootInd := 0, sysInd := sysid })

theorem Globals.newEntry_getNrSects {p : Partition} {offset start stop : Nat} {sysid : UInt8}
    : (g.newEntry p offset start stop sysid).getNrSects
      = Word.add 64 (Word.sub 64 stop start) 1 % 2 ^ 32 :=
  Partition.getNrSects_setNrSects
    (p := { p with bootInd := 0, sysInd := sysid }.setStartSect (Word.sub 64 start offset))

structure Globals.Added (g next : Globals) (n : Slot) (sys : UInt8) (placed : Placed) : Prop where
  ready : next.Ready
  same : g.SameGeometry next
  table_eq : next.bufs 0 = (g.bufs 0).setEntry n
    (g.newEntry ((g.bufs 0).entries n) 0 placed.start placed.stop sys)
  code_eq : (next.bufs 0).code = (g.bufs 0).code
  other_eq : ∀ i, i ≠ n → (next.bufs 0).entries i = (g.bufs 0).entries i
  sysInd_eq : ((next.bufs 0).entries n).sysInd = sys
  start_eq : ((next.bufs 0).entries n).getStartSect = placed.start % 2 ^ 32
  size_eq : ((next.bufs 0).entries n).getNrSects
    = Word.add 64 (Word.sub 64 placed.stop placed.start) 1 % 2 ^ 32
  end_eq : ((next.bufs 0).entries n).endHead
        = (setHsc g.heads g.sectors (chsLimit g placed.stop)).head
      ∧ ((next.bufs 0).entries n).endSector
        = (setHsc g.heads g.sectors (chsLimit g placed.stop)).sector

theorem setPartition_eq (h : g.FourPrimary) (n : Slot) (placed : Placed) (sys : UInt8)
    (sectorOffset : Nat)
    : setPartition { g with sectorOffset } n false placed.start placed.stop sys =
      if Word.mul 64 g.sectors g.heads = 0 then
        .error .divisionByZero
      else
        .ok { g.setPart { buf := 0, slot := n }
            (g.newEntry ((g.bufs 0).entries n) 0 placed.start placed.stop sys) with
          sectorOffset, ptes := Function.update g.ptes n { g.ptes n with changed := true } } := by
  have hpte : ({ g with sectorOffset } : Globals).getPte n = .ok (g.ptes n) :=
    Globals.getPte_of_lt (slot_lt n)
  simp only [setPartition, hpte, bind, Except.bind, (h.primary n).partTable_eq, deref,
    (h.primary n).offset_eq, Globals.setPte_of_lt (slot_lt n), Bool.false_eq_true, if_false]
  rfl

theorem Globals.FourPrimary.changed {next : Globals} (h : g.FourPrimary) (n : Slot)
    (hpartitions : next.partitions = g.partitions)
    (hptes : next.ptes = Function.update g.ptes n { g.ptes n with changed := true })
    : next.FourPrimary where
  partitions_eq := hpartitions.trans h.partitions_eq
  primary i := by
    rw [hptes]
    by_cases heq : i.val = n.val
    . rw [heq, Function.update_self, Fin.eq_of_val_eq heq]
      exact ⟨(h.primary n).partTable_eq, (h.primary n).offset_eq, (h.primary n).sectorbuffer_eq⟩
    . rw [Function.update_of_ne heq]
      exact h.primary i

theorem setPartition_spec (h : g.Ready) (n : Slot) (placed : Placed) (sys : UInt8)
    (sectorOffset : Nat)
    : ∃ next, setPartition { g with sectorOffset } n false placed.start placed.stop sys = .ok next
        ∧ g.Added next n sys placed ∧ next.sectorOffset = sectorOffset := by
  have hmul : Word.mul 64 g.sectors g.heads ≠ 0 := by
    have hunits := h.units_bounds
    rw [h.units_eq, Nat.mul_comm] at hunits
    rw [Word.mul_of_lt (by omega)]
    omega
  rw [setPartition_eq h.toFourPrimary, if_neg hmul]
  generalize hvalue : g.newEntry _ 0 placed.start placed.stop sys = value
  have hself : ((g.setPart { buf := 0, slot := n } value).bufs 0).entries n = value :=
    Globals.part_setPart_self
  refine ⟨_, rfl, ⟨⟨?_, h.heads_bounds, h.sectors_bounds, h.units_eq⟩,
    ⟨rfl, rfl, rfl, rfl, rfl, rfl, rfl, rfl⟩, ?_, rfl, ?_, ?_, ?_, ?_, ?_⟩, rfl⟩
  . exact h.toFourPrimary.changed n rfl rfl
  . rw [hvalue]
    exact Function.update_self 0 _ g.bufs
  . intro i hi
    exact if_neg hi
  . dsimp only
    rw [hself, ← hvalue, Globals.newEntry_sysInd]
  . dsimp only
    rw [hself, ← hvalue, Globals.newEntry_getStartSect]
    unfold Word.sub
    omega
  . dsimp only
    rw [hself, ← hvalue, Globals.newEntry_getNrSects]
  . dsimp only
    rw [hself, ← hvalue]
    exact ⟨rfl, rfl⟩

def Globals.bounds (g : Globals) : List Bound :=
  [0, 1, 2, 3].map fun i : Slot => ((g.bufs 0).entries i).bound.round g.unitsPerSector

def Globals.lastSector (g : Globals) : Nat :=
  Word.sub 64 (Word.mul 64 (Word.mul 64 g.heads g.sectors) g.cylinders) 1

section AddPartition

open addPartition

variable {fuel partCyls start : Nat} {sys : UInt8} {next : Globals}

theorem area_eq (h : g.Ready) (hext : g.extendedOffset = 0) (n : Slot)
    : area g n = .ok
      { start := g.sectorOffset, limit := g.lastSector
        bounds := [0, 1, 2, 3].map fun i : Slot => ((g.bufs 0).entries i).bound } := by
  simp only [area, h.toFourPrimary.fillBounds, bind, Except.bind, if_pos n.isLt, hext,
    displayInCylUnits, ne_eq, not_true_eq_false, if_false, true_or, if_true, pure, Except.pure,
    Globals.lastSector]

def Globals.search (g : Globals) (fuel : Nat) : Result Nat :=
  Loop.iterate .outOfFuel (searchStep g.sectorOffset g.unitsPerSector false g.bounds g.lastSector) fuel
    { start := g.sectorOffset, read := false }

section Area

variable {a : Area}

def Globals.rounded (g : Globals) (a : Area) : List Bound :=
  a.bounds.map (Bound.round g.unitsPerSector)

def Globals.searchIn (g : Globals) (a : Area) (fuel : Nat) : Result Nat :=
  Loop.iterate .outOfFuel (searchStep g.sectorOffset g.unitsPerSector false (g.rounded a) a.limit)
    fuel { start := a.start, read := false }

theorem addPartition_area (h : g.Ready) (n : Slot) (harea : area g n = .ok a)
    : addPartition fuel g n sys partCyls true = (do
      let start ← g.searchIn a fuel
      let limit := (g.rounded a).foldl (cut start) a.limit
      if start > limit then
        return (g, none)
      else
        let (placed, sectorOffset) := place g n partCyls true start limit
        let g ← setPartition { g with sectorOffset } n false placed.start placed.stop sys
        return (g, some placed)) := by
  have hunits := h.units_bounds
  have hn : decide (4 ≤ n.val) = false := by
    rw [decide_eq_false_iff_not]
    omega
  simp only [addPartition, if_neg (show g.unitsPerSector ≠ 0 by omega), harea, bind, Except.bind,
    displayInCylUnits, if_true, hn, if_neg (show ¬(n.val > 4) by omega)]
  rfl

theorem addPartition_full (h : g.Ready) (n : Slot) (harea : area g n = .ok a)
    (hsearch : g.searchIn a fuel = .ok start)
    (hfull : (g.rounded a).foldl (cut start) a.limit < start)
    : addPartition fuel g n sys partCyls true = .ok (g, none) := by
  rw [addPartition_area h n harea]
  simp only [hsearch, bind, Except.bind, if_pos hfull, pure, Except.pure]

theorem addPartition_placed (sys : UInt8) (partCyls : Nat) {limit : Nat} (h : g.Ready) (n : Slot)
    (harea : area g n = .ok a) (hsearch : g.searchIn a fuel = .ok start)
    (hlimit : (g.rounded a).foldl (cut start) a.limit = limit) (hfree : start ≤ limit)
    : ∃ next, addPartition fuel g n sys partCyls true
          = .ok (next, some (place g n partCyls true start limit).1)
        ∧ g.Added next n sys (place g n partCyls true start limit).1
        ∧ next.sectorOffset = (place g n partCyls true start limit).2 := by
  rw [addPartition_area h n harea]
  simp only [hsearch, bind, Except.bind, hlimit, if_neg (Nat.not_lt.mpr hfree), pure, Except.pure]
  generalize place g n partCyls true start limit = chosen
  obtain ⟨placed, sectorOffset⟩ := chosen
  obtain ⟨next, hnext, hadded, hoffset⟩ := setPartition_spec h n placed sys sectorOffset
  simp only [hnext]
  exact ⟨next, rfl, hadded, hoffset⟩

end Area

theorem rounded_area (g : Globals)
    : g.rounded { start := g.sectorOffset, limit := g.lastSector
                  bounds := [0, 1, 2, 3].map fun i : Slot => ((g.bufs 0).entries i).bound }
      = g.bounds := by
  simp only [Globals.rounded, Globals.bounds, List.map_map, Function.comp_def]

theorem addPartition_none (h : g.Ready) (hext : g.extendedOffset = 0) (n : Slot)
    (hsearch : g.search fuel = .ok start)
    (hfull : g.bounds.foldl (cut start) g.lastSector < start)
    : addPartition fuel g n sys partCyls true = .ok (g, none) := by
  rw [← rounded_area] at hfull
  apply addPartition_full h n (area_eq h hext n) _ hfull
  rw [← hsearch, Globals.searchIn, rounded_area]
  rfl

theorem addPartition_some (sys : UInt8) (partCyls : Nat) {limit : Nat} (h : g.Ready)
    (hext : g.extendedOffset = 0) (n : Slot) (hsearch : g.search fuel = .ok start)
    (hlimit : g.bounds.foldl (cut start) g.lastSector = limit) (hfree : start ≤ limit)
    : ∃ next, addPartition fuel g n sys partCyls true
          = .ok (next, some (place g n partCyls true start limit).1)
        ∧ g.Added next n sys (place g n partCyls true start limit).1
        ∧ next.sectorOffset = (place g n partCyls true start limit).2 := by
  rw [← rounded_area] at hlimit
  apply addPartition_placed sys partCyls h n (area_eq h hext n) _ hlimit hfree
  rw [← hsearch, Globals.searchIn, rounded_area]
  rfl

theorem addPartition_cases {bPartAligned : Bool} {r : Option Placed} (h : g.Ready) (n : Slot)
    (hok : addPartition fuel g n sys partCyls bPartAligned = .ok (next, r))
    : next = g ∨ ∃ placed, g.Added next n sys placed := by
  have hunits := h.units_bounds
  have hn : ¬(n.val > 4) := by omega
  simp only [addPartition, if_neg (show g.unitsPerSector ≠ 0 by omega), bind, Except.bind,
    displayInCylUnits, if_true, if_neg hn, pure, Except.pure] at hok
  split at hok
  . cases hok
  . split at hok
    . cases hok
    . split at hok
      . cases hok
        exact .inl rfl
      . next area _ _ start _ _ =>
        generalize place g n partCyls bPartAligned start _ = chosen at hok
        obtain ⟨placed, sectorOffset⟩ := chosen
        obtain ⟨g₁, hg₁, hadded, _⟩ := setPartition_spec h n placed sys sectorOffset
        simp only [hg₁] at hok
        cases hok
        exact .inr ⟨placed, hadded⟩

end AddPartition

namespace addPartition

variable {sectorOffset units start limit : Nat} {b : Bound} {bounds : List Bound}

theorem cround_eq {n : Nat} (h : n + 1 < 2 ^ 64) : cround 64 units n = n / units + 1 := by
  have hle : n / units ≤ n := Nat.div_le_self ..
  simp only [cround, displayInCylUnits, if_true]
  exact Word.add_of_lt (by omega)

theorem round_first (h : b.first + 1 < 2 ^ 64)
    : (b.round units).first = b.first / units * units := by
  have hle : b.first / units * units ≤ b.first := Nat.div_mul_le_self ..
  have hdiv : b.first / units ≤ b.first := Nat.div_le_self ..
  unfold Bound.round
  dsimp only
  rw [cround_eq h]
  generalize b.first / units = cyl at hle hdiv ⊢
  rw [Word.sub_of_le (by omega) (by omega), Nat.add_sub_cancel, Word.mul_of_lt (by omega)]

theorem ask_eq (h : start % 2 ^ 32 + 1 < 2 ^ 32) : ask units start = start % 2 ^ 32 := by
  -- nothing is rounded when the cylinder is asked for, what is left is the `unsigned int`
  unfold ask Word.trunc
  generalize start % 2 ^ 32 = i at h
  have hle : i / units * units ≤ i := Nat.div_mul_le_self ..
  have hdiv : i / units ≤ i := Nat.div_le_self ..
  simp only [cround, displayInCylUnits, if_true]
  generalize i / units = cyl at hle hdiv ⊢
  rw [Word.add_of_lt (by omega), Word.sub_of_le (by omega) (by omega), Nat.add_sub_cancel,
    Word.mul_of_lt (by omega)]
  split <;> omega

structure Free (start : Nat) (b : Bound) : Prop where
  offset_eq : b.offset = 0
  last_lt : b.last + 1 < 2 ^ 64
  outside : start < b.first ∨ b.last < start

theorem skip_of_free (hstart : 0 < start) (h : Free start b)
    : skip sectorOffset false start b = start := by
  have hlast := h.last_lt
  have houtside := h.outside
  simp only [skip, h.offset_eq, if_neg (Nat.ne_of_gt hstart), Bool.false_eq_true, if_false]
  rw [Word.add_of_lt (by omega), if_neg (by omega)]

theorem skip_of_le (hstart : 0 < start) (hoffset : b.offset = 0) (hlast : b.last + 1 < 2 ^ 64)
    (hle : b.first ≤ start) (hlt : start ≤ b.last + 1)
    : skip sectorOffset false start b = b.last + 1 := by
  simp only [skip, hoffset, if_neg (Nat.ne_of_gt hstart), Bool.false_eq_true, if_false]
  rw [Word.add_of_lt (by omega), Nat.add_zero, Word.add_of_lt hlast]
  split <;> omega

theorem foldl_skip_of_stays (h : ∀ b ∈ bounds, skip sectorOffset false start b = start)
    : bounds.foldl (skip sectorOffset false) start = start := by
  induction bounds with
  | nil => rfl
  | cons b bounds ih =>
    rw [List.foldl_cons, h b List.mem_cons_self]
    exact ih fun b hb => h b (List.mem_cons_of_mem _ hb)

theorem foldl_skip_of_free (sectorOffset : Nat) (hstart : 0 < start) (h : ∀ b ∈ bounds, Free start b)
    : bounds.foldl (skip sectorOffset false) start = start :=
  foldl_skip_of_stays fun b hb => skip_of_free hstart (h b hb)

theorem searchStep_break {s : Search}
    (hfold : bounds.foldl (skip sectorOffset false) s.start = start) (hlt : limit < start)
    : searchStep sectorOffset units false bounds limit s = .ok (.inr start) := by
  simp only [searchStep, hfold, if_pos hlt]

theorem searchStep_move {start₀ : Nat}
    (hfold : bounds.foldl (skip sectorOffset false) start₀ = start) (hle : start ≤ limit)
    (hne : start ≠ start₀)
    : searchStep sectorOffset units false bounds limit { start := start₀, read := false }
      = .ok (.inl { start, read := false }) := by
  simp [searchStep, hfold, Nat.not_lt.mpr hle, hne]

theorem searchStep_ask {asked : Nat}
    (hfold : bounds.foldl (skip sectorOffset false) start = start) (hle : start ≤ limit)
    (hask : ask units start = asked)
    : searchStep sectorOffset units false bounds limit { start, read := false }
      = if asked = start then .ok (.inr start) else .ok (.inl { start := asked, read := true }) := by
  by_cases heq : asked = start <;> simp [searchStep, hfold, Nat.not_lt.mpr hle, hask, heq]

theorem searchStep_done (hfold : bounds.foldl (skip sectorOffset false) start = start)
    (hle : start ≤ limit) (hunits : 1 ≤ units) (hlt : start + units < 2 ^ 64)
    : searchStep sectorOffset units false bounds limit { start, read := true }
      = .ok (.inr start) := by
  have hadd : ¬(start ≥ Word.add 64 start units) := by
    rw [Word.add_of_lt hlt]
    omega
  simp [searchStep, hfold, Nat.not_lt.mpr hle, hadd]

variable {fuel start₀ : Nat}

theorem search_settles (hfold : bounds.foldl (skip sectorOffset false) start₀ = start)
    (hstay : bounds.foldl (skip sectorOffset false) start = start) (hle : start ≤ limit)
    (hlt : start + 1 < 2 ^ 32) (hfuel : 2 ≤ fuel)
    : Loop.iterate .outOfFuel (searchStep sectorOffset units false bounds limit) fuel
        { start := start₀, read := false } = .ok start := by
  obtain ⟨fuel, rfl⟩ := Nat.exists_eq_add_of_le' hfuel
  have hask : ask units start = start := by
    rw [ask_eq] <;> rw [Nat.mod_eq_of_lt] <;> omega
  have hdone := searchStep_ask hstay hle hask
  rw [if_pos rfl] at hdone
  by_cases heq : start = start₀
  . rw [← heq, Loop.iterate_of_done hdone]
  . rw [Loop.iterate_of_next (searchStep_move hfold hle heq), Loop.iterate_of_done hdone]

theorem search_breaks (hfold : bounds.foldl (skip sectorOffset false) start₀ = start)
    (hlt : limit < start) (hfuel : 1 ≤ fuel)
    : Loop.iterate .outOfFuel (searchStep sectorOffset units false bounds limit) fuel
        { start := start₀, read := false } = .ok start := by
  obtain ⟨fuel, rfl⟩ := Nat.exists_eq_add_of_le' hfuel
  rw [Loop.iterate_of_done (searchStep_break hfold hlt)]

theorem search_wraps {far : Nat} (hfold : bounds.foldl (skip sectorOffset false) start₀ = far)
    (hne : far ≠ start₀) (hfar : ∀ b ∈ bounds, Free far b) (hle : far ≤ limit)
    (hmod : far % 2 ^ 32 = start) (hwrap : start < far) (hfree : ∀ b ∈ bounds, Free start b)
    (hpos : 0 < start) (hlt : start + 1 < 2 ^ 32) (hunits : 1 ≤ units ∧ units ≤ 65280)
    (hfuel : 3 ≤ fuel)
    : Loop.iterate .outOfFuel (searchStep sectorOffset units false bounds limit) fuel
        { start := start₀, read := false } = .ok start := by
  -- a start behind sector `2 ^ 32` comes back as an `unsigned int`
  obtain ⟨fuel, rfl⟩ := Nat.exists_eq_add_of_le' hfuel
  have hask : ask units far = start := by
    rw [ask_eq, hmod]
    rw [hmod]
    exact hlt
  have hnext := searchStep_ask
    (foldl_skip_of_free sectorOffset (Nat.lt_trans hpos hwrap) hfar) hle hask
  rw [if_neg (Nat.ne_of_lt hwrap)] at hnext
  rw [Loop.iterate_of_next (searchStep_move hfold hle hne), Loop.iterate_of_next hnext,
    Loop.iterate_of_done (searchStep_done (foldl_skip_of_free _ hpos hfree) (by omega) hunits.1
      (by omega))]

theorem cut_of_le (hoffset : b.offset = 0) (hle : b.first ≤ start) : cut start limit b = limit := by
  simp only [cut, hoffset, Nat.not_lt_zero, false_and, if_false]
  rw [if_neg (by omega)]

theorem cut_of_lt (hoffset : b.offset = 0) (hlt : start < b.first)
    : cut start limit b = min limit (b.first - 1) := by
  simp only [cut, hoffset, Nat.not_lt_zero, false_and, if_false]
  split <;> omega

theorem foldl_cut_of_le (h : ∀ b ∈ bounds, b.offset = 0 ∧ b.first ≤ start)
    : bounds.foldl (cut start) limit = limit := by
  induction bounds with
  | nil => rfl
  | cons b bounds ih =>
    obtain ⟨hoffset, hle⟩ := h b List.mem_cons_self
    rw [List.foldl_cons, cut_of_le hoffset hle]
    exact ih fun b hb => h b (List.mem_cons_of_mem _ hb)

theorem foldl_cut {unused : Nat} (hlt : start < unused)
    (h : ∀ b ∈ bounds, b.offset = 0 ∧ (b.first ≤ start ∨ b.first = unused))
    : bounds.foldl (cut start) limit
      = if ∃ b ∈ bounds, b.first = unused then min limit (unused - 1) else limit := by
  induction bounds generalizing limit with
  | nil => simp
  | cons b bounds ih =>
    have ih := fun limit => @ih limit fun b hb => h b (List.mem_cons_of_mem _ hb)
    obtain ⟨hoffset, hfirst⟩ := h b List.mem_cons_self
    rw [List.foldl_cons]
    cases hfirst with
    | inl hle =>
      have hne : b.first ≠ unused := by omega
      rw [cut_of_le hoffset hle, ih]
      simp [hne]
    | inr heq =>
      rw [cut_of_lt hoffset (by omega), ih, heq]
      simp only [List.mem_cons, exists_eq_or_imp, heq, true_or, if_true]
      split <;> omega

theorem pred_mul_div {cyl : Nat} (hunits : 1 ≤ units) (hcyl : 1 ≤ cyl)
    : (cyl * units - 1) / units + 1 = cyl := by
  rw [(mul_sub_div_mod hcyl ⟨Nat.le_refl 1, hunits⟩).1]
  omega

theorem stopSector_eq {cyl last partCyls : Nat} (hunits : 1 ≤ units)
    (hcyl : start / units + 1 = cyl) (hle : cyl ≤ last) (hstart : start + 1 < 2 ^ 64)
    (hlast : last * units < 2 ^ 64) (hstop : (cyl + partCyls) * units < 2 ^ 64)
    : stopSector units start (last * units - 1) partCyls = min (cyl + partCyls) last * units - 1 := by
  have hcylPos : 1 ≤ cyl := by
    rw [← hcyl]
    exact Nat.succ_pos _
  have hpos : 0 < last * units := Nat.mul_pos (by omega) hunits
  have hsumPos : 0 < (cyl + partCyls) * units := Nat.mul_pos (by omega) hunits
  have hsum : cyl + partCyls ≤ (cyl + partCyls) * units := Nat.le_mul_of_pos_right _ hunits
  unfold stopSector
  rw [cround_eq hstart, hcyl, cround_eq (by omega), pred_mul_div hunits (by omega)]
  split
  . next heq => rw [heq, Nat.min_eq_right (by omega)]
  . simp only [displayInCylUnits, if_true]
    rw [Word.add_of_lt (by omega), Word.mul_of_lt hstop, Word.sub_of_le hsumPos hstop]
    cases Nat.le_total (cyl + partCyls) last with
    | inl hle =>
      have hmul := Nat.mul_le_mul_right units hle
      rw [Nat.min_eq_left hle, if_neg (by omega)]
    | inr hle =>
      have hmul := Nat.mul_le_mul_right units hle
      rw [Nat.min_eq_right hle]
      split <;> omega

end addPartition

end FsBench.Fdisk
