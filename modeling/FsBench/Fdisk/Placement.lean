import FsBench.Fdisk.Chs
import FsBench.Fdisk.Search

/-!
This module contains the proof that the calls of `addPartition` lay the partitions out as `Layout`
says, or why they do not when the cylinders before the first edge are too few.
-/

namespace FsBench.Fdisk

open addPartition

structure Layout.Applies (l : Layout) (g : Globals) : Prop where
  ready : g.Ready
  heads_eq : g.heads = l.heads
  sectors_eq : g.sectors = l.track
  cylinders_eq : g.cylinders = l.cylinders

structure Layout.Matches (l : Layout) (g : Globals) : Prop extends l.Applies g where
  extendedOffset_eq : g.extendedOffset = 0

variable {l : Layout} {g next : Globals} {n fuel : Nat} {p : Partition}

theorem Layout.Matches.added {sys : UInt8} {placed : Placed} {i : Slot} (h : l.Matches g)
    (hadded : g.Added next i sys placed) : l.Matches next where
  ready := hadded.ready
  extendedOffset_eq := hadded.same.extendedOffset_eq.trans h.extendedOffset_eq
  heads_eq := hadded.same.heads_eq.trans h.heads_eq
  sectors_eq := hadded.same.sectors_eq.trans h.sectors_eq
  cylinders_eq := hadded.same.cylinders_eq.trans h.cylinders_eq

namespace Layout.Applies

theorem units_eq (h : l.Applies g) : g.unitsPerSector = l.units := by
  rw [h.ready.units_eq, h.heads_eq, h.sectors_eq]
  rfl

theorem told_eq {sys : UInt8} {placed : Placed} {i : Slot} (h : l.Applies g)
    (hadded : g.Added next i sys placed) (htrack : l.track ≤ 63)
    : ((next.bufs 0).entries i).told = l.told placed.stop := by
  have hheads := l.heads_bounds
  obtain ⟨hhead, hsector⟩ := hadded.end_eq
  have hlimit : chsLimit g placed.stop
      = if placed.stop / l.units > 1023 then l.units * 1024 - 1 else placed.stop := by
    have hsectors := l.track_bounds
    rw [chsLimit_eq, h.heads_eq, h.sectors_eq]
    . rfl
    . rw [h.heads_eq]
      omega
    . rw [h.sectors_eq]
      exact hsectors.2
    . rw [h.heads_eq, h.sectors_eq]
      exact l.units_bounds.1
  unfold Partition.told Layout.told
  rw [hhead, hsector, hlimit, h.heads_eq, h.sectors_eq, setHsc_head (by omega),
    setHsc_sector ⟨l.track_bounds.1, htrack⟩]

theorem lastSector_eq (h : l.Applies g)
    : g.lastSector = if l.cylinders = 0 then 2 ^ 64 - 1 else l.cylinders * l.units - 1 := by
  have hunits := l.units_bounds
  have hcylinders := l.cylinders_lt
  have hmul : l.cylinders * l.units ≤ 2 ^ 32 * 65025 :=
    Nat.mul_le_mul (by omega) hunits.2
  unfold Globals.lastSector
  rw [h.heads_eq, h.sectors_eq, h.cylinders_eq, Word.mul_of_lt (a := l.heads)]
  . change Word.sub 64 (Word.mul 64 l.units l.cylinders) 1 = _
    rw [Nat.mul_comm] at hmul
    rw [Word.mul_of_lt (by omega), Nat.mul_comm]
    rw [Nat.mul_comm] at hmul
    split
    . next hzero =>
      rw [hzero, Nat.zero_mul]
      decide
    . next hpos =>
      have := Nat.mul_pos (Nat.pos_of_ne_zero hpos) hunits.1
      rw [Word.sub_of_le (by omega) (by omega)]
  . change l.units < 2 ^ 64
    omega

theorem limit_eq (h : l.Applies g)
    : min g.lastSector (l.unused - 1) = l.last * l.units - 1 := by
  have hunused := l.unused_bounds
  rw [h.lastSector_eq]
  unfold Layout.last
  split
  . change min (2 ^ 64 - 1) (l.unused - 1) = l.unused - 1
    omega
  . rw [← Nat.mul_min_mul_right]
    change _ = min _ l.unused - 1
    omega

end Layout.Applies

theorem Partition.bound_unused (h : p.sysInd = 0)
    : (p.bound.round l.units).offset = 0 ∧ (p.bound.round l.units).first = l.unused
        ∧ (p.bound.round l.units).last = 0 := by
  have hbound : p.bound = { offset := 0, first := 0xffffffff, last := 0 } := by
    unfold bound
    rw [if_pos (.inl h)]
  rw [hbound]
  exact ⟨rfl, round_first (by decide), rfl⟩

theorem Partition.bound_used (h : p.sysInd = WIN95_FAT32_LBA)
    (hpos : 1 ≤ p.getStartSect + p.getNrSects)
    : (p.bound.round l.units).offset = 0
        ∧ (p.bound.round l.units).first = p.getStartSect / l.units * l.units
        ∧ (p.bound.round l.units).last + 1 = p.getStartSect + p.getNrSects := by
  have hstart := p.getStartSect_lt
  have hsize := p.getNrSects_lt
  have hnot : ¬(p.sysInd = 0 ∨ IS_EXTENDED p.sysInd) := by
    rw [h]
    decide
  have hbound : p.bound = { offset := 0, first := p.getStartSect
                            last := p.getStartSect + p.getNrSects - 1 } := by
    unfold bound
    rw [if_neg hnot, Word.add_of_lt (by omega), Word.sub_of_le hpos (by omega)]
  rw [hbound]
  refine ⟨rfl, round_first (by dsimp only; omega), ?_⟩
  change p.getStartSect + p.getNrSects - 1 + 1 = _
  omega

theorem Globals.mem_bounds {b : Bound}
    : b ∈ g.bounds ↔ ∃ i : Slot, b = ((g.bufs 0).entries i).bound.round g.unitsPerSector := by
  unfold bounds
  rw [List.mem_map]
  constructor
  . intro ⟨i, _, hi⟩
    exact ⟨i, hi.symm⟩
  . intro ⟨i, hi⟩
    exact ⟨i, mem_slots i, hi.symm⟩

theorem foldl_slots {β : Type} {f : Nat → β → Nat} {entry : Slot → β} (value : Nat → Nat)
    (hstep : ∀ i : Slot, f (value i) (entry i) = value (i + 1))
    : ([0, 1, 2, 3].map entry).foldl f (value 0) = value 4 := by
  have h0 : f (value 0) _ = value 1 := hstep 0
  have h1 : f (value 1) _ = value 2 := hstep 1
  have h2 : f (value 2) _ = value 3 := hstep 2
  have h3 : f (value 3) _ = value 4 := hstep 3
  simp only [List.map_cons, List.map_nil, List.foldl_cons, List.foldl_nil, h0, h1, h2, h3]

namespace Layout

theorem Matches.addPartition {free : Nat} (k : Slot) (sys : UInt8) (h : l.Matches g)
    (hk : k.val < n) (hbase : l.base ≤ l.last) (hsearch : g.search fuel = .ok free)
    (hcut : g.bounds.foldl (cut free) g.lastSector = l.last * l.units - 1)
    (hcyl : free / l.units + 1 = l.boundary n k) (hfree : free < l.last * l.units)
    : ∃ next, addPartition fuel g k sys (l.share n k) true
          = .ok (next, some { start := if k.val = 0 then 2048 else free, stop := l.stop n k })
        ∧ g.Added next k sys { start := if k.val = 0 then 2048 else free, stop := l.stop n k }
        ∧ next.sectorOffset = if k.val = 0 then 2048 else g.sectorOffset := by
  have hunits := l.units_bounds
  have hlast : l.last * l.units < 2 ^ 32 := Nat.lt_of_le_of_lt l.last_mul_le l.unused_bounds.2
  have hsum : (l.boundary n k + l.share n k) * l.units ≤ (2 ^ 32 + 2 ^ 32) * 65025 := by
    apply Nat.mul_le_mul _ hunits.2
    have hboundary := Nat.lt_of_le_of_lt (l.boundary_le (n := n) (i := k)) l.last_lt
    have hshare := Nat.lt_of_le_of_lt (l.share_le (n := n) (i := k)) l.cylinders_lt
    omega
  have hstop : stopSector g.unitsPerSector free (l.last * l.units - 1) (l.share n k)
      = l.edge n (k + 1) - 1 := by
    rw [h.units_eq, stopSector_eq hunits.1 hcyl l.boundary_le (by omega) (by omega) (by omega),
      ← l.boundary_succ hk]
    rfl
  have hedge := l.edge_lt (n := n) (i := k + 1)
  have hedgePos : 2 ≤ l.edge n (k + 1) := l.two_le_edge hk (by omega) hbase
  obtain ⟨next, hnext, hadded, hoffset⟩ := addPartition_some sys (l.share n k)
    h.ready h.extendedOffset_eq k hsearch hcut (by omega)
  have hplace : place g k (l.share n k) true free (l.last * l.units - 1)
      = ({ start := if k.val = 0 then 2048 else free, stop := l.stop n k },
          if k.val = 0 then 2048 else g.sectorOffset) := by
    simp only [place, hstop, if_true]
    rw [Word.sub_of_le (by omega) (by omega)]
    rfl
  rw [hplace] at hnext hadded hoffset
  exact ⟨next, hnext, hadded, hoffset⟩

/-- The sector that is free for partition `k` of `n` when the ones before it lie as they should. -/
def free (l : Layout) (n k : Nat) : Nat := if k = 0 then l.track else l.edge n k - 1

/--
The first `k` of `n` partitions are in the table.
-/
structure Laid (l : Layout) (n k : Nat) (g : Globals) : Prop where
  geometry : l.Matches g
  sectorOffset_eq : g.sectorOffset = if k = 0 then l.track else 2048
  sysInd_eq : ∀ i : Slot, ((g.bufs 0).entries i).sysInd = if i.val < k then WIN95_FAT32_LBA else 0
  start_eq : ∀ i : Slot, i.val < k → ((g.bufs 0).entries i).getStartSect = l.start n i
  stop_eq : ∀ i : Slot, i.val < k →
    l.start n i + ((g.bufs 0).entries i).getNrSects = l.edge n (i + 1) - 1
  told_eq : l.track ≤ 63 → ∀ i : Slot, i.val < k →
    ((g.bufs 0).entries i).told = l.told (l.stop n i)

section Laid

variable {k : Nat}

theorem start_lt_edge {i : Nat} (hi : i < n) (hbase : l.base ≤ l.last) (hroom : 2049 ≤ l.edge n 1)
    : l.start n i < l.edge n (i + 1) := by
  have hle := l.edge_le_succ hi
  have hpos := l.two_le_edge (Nat.le_of_lt hi) (by omega) hbase
  unfold start
  split
  . next hzero =>
    rw [hzero]
    exact hroom
  . omega

theorem Laid.used (h : l.Laid n k g) (hk : k ≤ n) (hbase : l.base ≤ l.last) {i : Slot} (hi : i.val < k)
    : (((g.bufs 0).entries i).bound.round l.units).offset = 0
        ∧ (((g.bufs 0).entries i).bound.round l.units).first ≤ l.start n i
        ∧ (((g.bufs 0).entries i).bound.round l.units).last + 1 = l.edge n (i + 1) - 1 := by
  have hsys := h.sysInd_eq i
  have hstart := h.start_eq i hi
  have hstop := h.stop_eq i hi
  have hpos := l.two_le_edge (n := n) (i := i + 1) (by omega) (by omega) hbase
  rw [if_pos hi] at hsys
  rw [← hstart] at hstop
  obtain ⟨hoffset, hfirst, hlast⟩ := Partition.bound_used (l := l) hsys (by omega)
  rw [← hstart, ← hstop, hfirst]
  exact ⟨hoffset, Nat.div_mul_le_self .., hlast⟩

theorem Laid.unusedBound (h : l.Laid n k g) {i : Slot} (hi : k ≤ i.val)
    : (((g.bufs 0).entries i).bound.round l.units).offset = 0
        ∧ (((g.bufs 0).entries i).bound.round l.units).first = l.unused
        ∧ (((g.bufs 0).entries i).bound.round l.units).last = 0 := by
  have hsys := h.sysInd_eq i
  rw [if_neg (by omega)] at hsys
  exact Partition.bound_unused hsys

theorem free_pos (hk : k ≤ n) (hn : 0 < n) (hbase : l.base ≤ l.last) : 0 < l.free n k := by
  have hpos := l.two_le_edge hk hn hbase
  unfold free
  split
  . exact l.track_bounds.1
  . omega

theorem start_pos {i : Nat} (hi : i < n) (hbase : l.base ≤ l.last) : 0 < l.start n i := by
  have hpos := l.two_le_edge (Nat.le_of_lt hi) (by omega) hbase
  unfold start
  split <;> omega

theorem free_lt (hk : k ≤ n) (hn : 0 < n) (hbase : l.base ≤ l.last)
    : l.free n k < l.last * l.units := by
  have hedge := l.edge_le (n := n) (i := k)
  have hpos := l.two_le_edge hk hn hbase
  unfold free
  split
  . exact Nat.lt_of_lt_of_le l.track_lt_base_mul (Nat.mul_le_mul_right _ hbase)
  . omega

theorem free_div (hk : k < n) (hbase : l.base ≤ l.last)
    : l.free n k / l.units + 1 = l.boundary n k := by
  have hpos := l.two_le_edge (Nat.le_of_lt hk) (by omega) hbase
  unfold free
  split
  . next hzero =>
    rw [hzero, boundary_zero (by omega) hbase]
    rfl
  . apply pred_mul_div l.units_bounds.1
    apply Nat.pos_of_ne_zero
    intro hzero
    unfold edge at hpos
    rw [hzero] at hpos
    omega

theorem Laid.outside (h : l.Laid n k g) (hk : k < n) (hbase : l.base ≤ l.last)
    : ∀ b ∈ g.bounds, Free (l.free n k) b := by
  intro b hb
  obtain ⟨i, rfl⟩ := Globals.mem_bounds.mp hb
  rw [h.geometry.units_eq]
  have hlt := l.edge_lt (n := n) (i := i + 1)
  by_cases hi : i.val < k
  . obtain ⟨hoffset, _, hlast⟩ := h.used (Nat.le_of_lt hk) hbase hi
    have hpos := l.two_le_edge (n := n) (i := i + 1) (by omega) (by omega) hbase
    have hmono := l.edge_mono (n := n) (i := i + 1) (j := k) hi (Nat.le_of_lt hk)
    refine ⟨hoffset, by omega, .inr ?_⟩
    unfold free
    rw [if_neg (by omega)]
    omega
  . obtain ⟨hoffset, hfirst, hlast⟩ := h.unusedBound (Nat.le_of_not_lt hi)
    refine ⟨hoffset, by omega, .inl ?_⟩
    rw [hfirst]
    exact Nat.lt_of_lt_of_le (free_lt (Nat.le_of_lt hk) (by omega) hbase) l.last_mul_le

theorem Laid.foldl_skip (h : l.Laid n k g) (hk : k < n) (hn : n ≤ 4) (hbase : l.base ≤ l.last)
    (hroom : k = 0 ∨ 2049 ≤ l.edge n 1)
    : g.bounds.foldl (skip g.sectorOffset false) g.sectorOffset = l.free n k := by
  have hfree := h.outside hk hbase
  rw [h.sectorOffset_eq]
  by_cases hzero : k = 0
  . subst hzero
    exact foldl_skip_of_free _ l.track_bounds.1 hfree
  . rw [if_neg hzero]
    -- before a used entry the search is at its start, behind the last one at the free sector
    let value (i : Nat) := if i < k then l.start n i else l.free n k
    have hend : value 4 = l.free n k := if_neg (by omega)
    have hbegin : value 0 = 2048 := if_pos (Nat.pos_of_ne_zero hzero)
    rw [← hend, ← hbegin]
    apply foldl_slots
    intro i
    rw [hbegin, h.geometry.units_eq]
    by_cases hi : i.val < k
    . have hlt := start_lt_edge (l := l) (n := n) (i := i) (by omega) hbase (by omega)
      have hedge := l.edge_lt (n := n) (i := i + 1)
      obtain ⟨hoffset, hfirst, hlast⟩ := h.used (Nat.le_of_lt hk) hbase hi
      have hvalue : value i = l.start n i := if_pos hi
      have hnext : value (i + 1) = l.edge n (i + 1) - 1 := by
        dsimp only [value]
        split
        . exact if_neg (Nat.succ_ne_zero _)
        . obtain rfl : k = i + 1 := by omega
          exact if_neg (Nat.succ_ne_zero _)
      rw [hvalue, hnext, ← hlast]
      exact skip_of_le (l.start_pos (by omega) hbase) hoffset (by omega) hfirst (by omega)
    . have hvalue : value i = l.free n k := if_neg hi
      have hnext : value (i + 1) = l.free n k := if_neg (by omega)
      rw [hvalue, hnext]
      apply skip_of_free (l.free_pos (Nat.le_of_lt hk) (by omega) hbase)
      apply hfree
      rw [Globals.mem_bounds, h.geometry.units_eq]
      exact ⟨i, rfl⟩

theorem Laid.search (h : l.Laid n k g) (hk : k < n) (hn : n ≤ 4) (hbase : l.base ≤ l.last)
    (hroom : k = 0 ∨ 2049 ≤ l.edge n 1) (hfuel : 2 ≤ fuel) : g.search fuel = .ok (l.free n k) := by
  have hlt := free_lt (Nat.le_of_lt hk) (by omega) hbase
  have hlimit := h.geometry.limit_eq
  have hlast := Nat.lt_of_le_of_lt l.last_mul_le l.unused_bounds.2
  have hpos := l.free_pos (Nat.le_of_lt hk) (by omega) hbase
  exact search_settles (h.foldl_skip hk hn hbase hroom)
    (foldl_skip_of_free _ hpos (h.outside hk hbase)) (by omega) (by omega) hfuel

theorem Laid.foldl_cut (h : l.Laid n k g) (hk : k < n) (hn : n ≤ 4) (hbase : l.base ≤ l.last)
    (hroom : k = 0 ∨ 2049 ≤ l.edge n 1)
    : g.bounds.foldl (cut (l.free n k)) g.lastSector = l.last * l.units - 1 := by
  have hlt : l.free n k < l.unused :=
    Nat.lt_of_lt_of_le (free_lt (Nat.le_of_lt hk) (by omega) hbase) l.last_mul_le
  have hbounds : ∀ b ∈ g.bounds,
      b.offset = 0 ∧ (b.first ≤ l.free n k ∨ b.first = l.unused) := by
    intro b hb
    obtain ⟨i, rfl⟩ := Globals.mem_bounds.mp hb
    rw [h.geometry.units_eq]
    by_cases hi : i.val < k
    . obtain ⟨hoffset, hfirst, _⟩ := h.used (Nat.le_of_lt hk) hbase hi
      have hstart := start_lt_edge (l := l) (n := n) (i := i) (by omega) hbase (by omega)
      have hmono := l.edge_mono (n := n) (i := i + 1) (j := k) hi (Nat.le_of_lt hk)
      refine ⟨hoffset, .inl ?_⟩
      unfold free
      rw [if_neg (by omega)]
      omega
    . obtain ⟨hoffset, hfirst, _⟩ := h.unusedBound (Nat.le_of_not_lt hi)
      exact ⟨hoffset, .inr hfirst⟩
  have hmem : ∃ b ∈ g.bounds, b.first = l.unused := by
    refine ⟨_, Globals.mem_bounds.mpr ⟨⟨k, by omega⟩, rfl⟩, ?_⟩
    rw [h.geometry.units_eq]
    exact (h.unusedBound (Nat.le_refl k)).2.1
  rw [addPartition.foldl_cut hlt hbounds, if_pos hmem, h.geometry.limit_eq]

theorem size_of_le {start stop : Nat} (hle : start ≤ stop + 1) (hlt : stop + 1 < 2 ^ 64)
    : Word.add 64 (Word.sub 64 stop start) 1 = stop + 1 - start := by
  cases Nat.lt_or_eq_of_le hle with
  | inl h =>
    rw [Word.sub_of_le (by omega) (by omega), Word.add_of_lt (by omega)]
    omega
  | inr h =>
    rw [Word.sub_of_lt (by omega) (by omega), h]
    have hwrap : stop + 2 ^ 64 - (stop + 1) + 1 = 2 ^ 64 := by omega
    unfold Word.add
    rw [hwrap]
    omega

theorem Laid.step (h : l.Laid n k g) (hk : k < n) (hn : n ≤ 4) (hbase : l.base ≤ l.last)
    (hroom : 2049 ≤ l.edge n 1) (hfuel : 2 ≤ fuel)
    : ∃ next, Fdisk.addPartition fuel g k WIN95_FAT32_LBA (l.share n k) true
          = .ok (next, some { start := l.start n k, stop := l.stop n k })
        ∧ l.Laid n (k + 1) next := by
  let slot : Slot := ⟨k, by omega⟩
  obtain ⟨next, hnext, hadded, hoffset⟩ := h.geometry.addPartition slot WIN95_FAT32_LBA hk hbase
    (h.search hk hn hbase (.inr hroom) hfuel) (h.foldl_cut hk hn hbase (.inr hroom))
    (free_div hk hbase)
    (free_lt (Nat.le_of_lt hk) (by omega) hbase)
  have hstart : (if k = 0 then 2048 else l.free n k) = l.start n k := by
    unfold start free
    split <;> simp_all
  have hlt := start_lt_edge hk hbase hroom
  have hedge := l.edge_lt (n := n) (i := k + 1)
  have hstop : l.stop n k + 1 = l.edge n (k + 1) - 1 := by
    have hpos := l.two_le_edge (i := k + 1) hk (by omega) hbase
    unfold stop
    omega
  simp only [slot, hstart] at hnext hadded hoffset
  have hsize := hadded.size_eq
  have hfirst := hadded.start_eq
  dsimp only at hsize hfirst
  rw [size_of_le (by omega) (by omega), Nat.mod_eq_of_lt (by omega)] at hsize
  rw [Nat.mod_eq_of_lt (by omega)] at hfirst
  -- entry `k` is the new one, the others are as they were
  refine ⟨next, hnext, h.geometry.added hadded, ?_, ?_, ?_, ?_, ?_⟩
  . rw [hoffset, h.sectorOffset_eq, if_neg (Nat.succ_ne_zero k)]
    split <;> rfl
  . intro i
    by_cases hi : i = slot
    . rw [hi, hadded.sysInd_eq, if_pos (Nat.lt_succ_self k)]
    . have hne : i.val ≠ k := Fin.val_ne_of_ne hi
      rw [hadded.other_eq i hi, h.sysInd_eq]
      congr 1
      rw [eq_iff_iff]
      omega
  . intro i hlt
    by_cases hi : i = slot
    . rw [hi, hfirst]
    . have hne : i.val ≠ k := Fin.val_ne_of_ne hi
      rw [hadded.other_eq i hi, h.start_eq i (by omega)]
  . intro i hlt
    by_cases hi : i = slot
    . rw [hi, hsize]
      dsimp only [slot]
      omega
    . have hne : i.val ≠ k := Fin.val_ne_of_ne hi
      rw [hadded.other_eq i hi, h.stop_eq i (by omega)]
  . intro htrack i hlt
    by_cases hi : i = slot
    . rw [hi, h.geometry.told_eq hadded htrack]
    . have hne : i.val ≠ k := Fin.val_ne_of_ne hi
      rw [hadded.other_eq i hi, h.told_eq htrack i (by omega)]

theorem Laid.full (h : l.Laid n 0 g) (hbase : l.last < l.base) (k : Slot) (sys : UInt8)
    (partCyls : Nat) (hfuel : 2 ≤ fuel)
    : Fdisk.addPartition fuel g k sys partCyls true = .ok (g, none) := by
  -- the first track is all that the device has
  have htrack := l.track_bounds
  have hlast : l.last * l.units ≤ l.track := by
    calc l.last * l.units
      _ ≤ l.track / l.units * l.units := Nat.mul_le_mul_right _ (Nat.le_of_lt_succ hbase)
      _ ≤ l.track := Nat.div_mul_le_self ..
  have hunused := l.unused_bounds
  have hunits := l.units_bounds
  have hlastPos : 1 ≤ l.last * l.units := Nat.mul_pos one_le_last hunits.1
  have hfree : ∀ b ∈ g.bounds, Free l.track b := by
    intro b hb
    obtain ⟨i, rfl⟩ := Globals.mem_bounds.mp hb
    rw [h.geometry.units_eq]
    obtain ⟨hoffset, hfirst, hlast⟩ := h.unusedBound (Nat.zero_le i)
    exact ⟨hoffset, by omega, .inl (by omega)⟩
  have hfold : g.bounds.foldl (skip g.sectorOffset false) g.sectorOffset = l.track := by
    rw [h.sectorOffset_eq]
    exact foldl_skip_of_free _ htrack.1 hfree
  -- no entry is in the way, but the track may end behind the last sector
  have hsearch : g.search fuel = .ok l.track := by
    by_cases hle : l.track ≤ g.lastSector
    . exact search_settles hfold (foldl_skip_of_free _ htrack.1 hfree) hle (by omega) hfuel
    . exact search_breaks hfold (Nat.lt_of_not_le hle) (by omega)
  have hbounds : ∀ b ∈ g.bounds, b.offset = 0 ∧ (b.first ≤ l.track ∨ b.first = l.unused) := by
    intro b hb
    obtain ⟨i, rfl⟩ := Globals.mem_bounds.mp hb
    rw [h.geometry.units_eq]
    obtain ⟨hoffset, hfirst, _⟩ := h.unusedBound (Nat.zero_le i)
    exact ⟨hoffset, .inr hfirst⟩
  have hmem : ∃ b ∈ g.bounds, b.first = l.unused := by
    refine ⟨_, Globals.mem_bounds.mpr ⟨0, rfl⟩, ?_⟩
    rw [h.geometry.units_eq]
    exact (h.unusedBound (Nat.zero_le _)).2.1
  apply addPartition_none h.geometry.ready h.geometry.extendedOffset_eq k hsearch
  rw [addPartition.foldl_cut (by omega) hbounds, if_pos hmem, h.geometry.limit_eq]
  omega

end Laid

/--
The state when partition 0 was to end before sector 2048, at which it starts all the same: its size
is negative, so the entry reaches beyond sector `2 ^ 32`.
-/
structure Wrapped (l : Layout) (n k : Nat) (g : Globals) : Prop where
  geometry : l.Matches g
  sectorOffset_eq : g.sectorOffset = 2048
  sysInd_eq : ∀ i : Slot, ((g.bufs 0).entries i).sysInd = if i.val < k then WIN95_FAT32_LBA else 0
  first_start : ((g.bufs 0).entries 0).getStartSect = 2048
  first_stop : 2048 + ((g.bufs 0).entries 0).getNrSects = 2 ^ 32 + l.edge n 1 - 1
  rest : ∀ i : Slot, 0 < i.val → i.val < k →
    ((g.bufs 0).entries i).getStartSect = l.edge n 1 - 1 ∧ ((g.bufs 0).entries i).getNrSects = 0

section Wrapped

variable {k : Nat}

theorem Laid.wrap (h : l.Laid n 0 g) (hn : 0 < n ∧ n ≤ 4) (hbase : l.base ≤ l.last)
    (hroom : l.edge n 1 < 2049) (hfuel : 2 ≤ fuel)
    : ∃ next, Fdisk.addPartition fuel g 0 WIN95_FAT32_LBA (l.share n 0) true
          = .ok (next, some { start := 2048, stop := l.stop n 0 })
        ∧ l.Wrapped n 1 next := by
  obtain ⟨next, hnext, hadded, hoffset⟩ := h.geometry.addPartition 0 WIN95_FAT32_LBA hn.1 hbase
    (h.search hn.1 hn.2 hbase (.inl rfl) hfuel) (h.foldl_cut hn.1 hn.2 hbase (.inl rfl))
    (free_div hn.1 hbase) (free_lt (Nat.zero_le n) hn.1 hbase)
  simp only [Fin.val_zero, if_true] at hnext hadded hoffset
  have hpos := l.two_le_edge (n := n) (i := 1) hn.1 hn.1 hbase
  have hstop : l.stop n 0 = l.edge n 1 - 2 := rfl
  have hsize := hadded.size_eq
  have hfirst := hadded.start_eq
  refine ⟨next, hnext, h.geometry.added hadded, hoffset, ?_, hfirst, ?_, ?_⟩
  . intro i
    by_cases hi : i = 0
    . rw [hi, hadded.sysInd_eq]
      rfl
    . rw [hadded.other_eq i hi, h.sysInd_eq, if_neg (Nat.not_lt_zero _), if_neg]
      have hne : i.val ≠ 0 := Fin.val_ne_of_ne hi
      omega
  . rw [hsize]
    dsimp only
    rw [Word.sub_of_lt (by omega) (by omega), Word.add_of_lt (by omega)]
    omega
  . intro i hpos hlt
    omega

def far (l : Layout) (n : Nat) : Nat := 2 ^ 32 + l.edge n 1 - 1

theorem Wrapped.firstBound (h : l.Wrapped n k g) (hk : 0 < k)
    : (((g.bufs 0).entries 0).bound.round l.units).offset = 0
        ∧ (((g.bufs 0).entries 0).bound.round l.units).first = 2048 / l.units * l.units
        ∧ (((g.bufs 0).entries 0).bound.round l.units).last + 1 = l.far n := by
  have hsys := h.sysInd_eq 0
  have hstart := h.first_start
  have hstop := h.first_stop
  rw [Fin.val_zero, if_pos hk] at hsys
  obtain ⟨hoffset, hfirst, hlast⟩ := Partition.bound_used (l := l) hsys (by omega)
  rw [hstart] at hfirst hlast
  rw [hstop] at hlast
  exact ⟨hoffset, hfirst, hlast⟩

theorem Wrapped.restBound (h : l.Wrapped n k g) (hpos : 2 ≤ l.edge n 1) {i : Slot}
    (hi : 0 < i.val)
    : (((g.bufs 0).entries i).bound.round l.units).offset = 0
        ∧ (((g.bufs 0).entries i).bound.round l.units).last < l.edge n 1 - 1
        ∧ ((((g.bufs 0).entries i).bound.round l.units).first ≤ l.edge n 1 - 1
          ∨ (((g.bufs 0).entries i).bound.round l.units).first = l.unused) := by
  have hsys := h.sysInd_eq i
  by_cases hlt : i.val < k
  . rw [if_pos hlt] at hsys
    obtain ⟨hstart, hsize⟩ := h.rest i hi hlt
    obtain ⟨hoffset, hfirst, hlast⟩ := Partition.bound_used (l := l) hsys (by omega)
    rw [hfirst, hstart]
    exact ⟨hoffset, by omega, .inl (Nat.div_mul_le_self ..)⟩
  . rw [if_neg hlt] at hsys
    obtain ⟨hoffset, hfirst, hlast⟩ := Partition.bound_unused (l := l) hsys
    exact ⟨hoffset, by omega, .inr hfirst⟩

theorem Wrapped.outside_far (h : l.Wrapped n k g) (hk : 0 < k) (hpos : 2 ≤ l.edge n 1)
    : ∀ b ∈ g.bounds, Free (l.far n) b := by
  have hedge := l.edge_lt (n := n) (i := 1)
  have hfar : l.far n = 2 ^ 32 + l.edge n 1 - 1 := rfl
  intro b hb
  obtain ⟨i, rfl⟩ := Globals.mem_bounds.mp hb
  rw [h.geometry.units_eq]
  by_cases hi : i = 0
  . obtain ⟨hoffset, _, hlast⟩ := h.firstBound hk
    rw [hi]
    exact ⟨hoffset, by omega, .inr (by omega)⟩
  . have hne : i.val ≠ 0 := Fin.val_ne_of_ne hi
    obtain ⟨hoffset, hlast, _⟩ := h.restBound hpos (Nat.pos_of_ne_zero hne)
    exact ⟨hoffset, by omega, .inr (by omega)⟩

theorem Wrapped.foldl_skip (h : l.Wrapped n k g) (hk : 0 < k) (hpos : 2 ≤ l.edge n 1)
    : g.bounds.foldl (skip g.sectorOffset false) g.sectorOffset = l.far n := by
  have hedge := l.edge_lt (n := n) (i := 1)
  have hfar : l.far n = 2 ^ 32 + l.edge n 1 - 1 := rfl
  have hfree := h.outside_far hk hpos
  rw [h.sectorOffset_eq]
  apply foldl_slots (fun i => if i = 0 then 2048 else l.far n)
  intro i
  rw [if_neg (Nat.succ_ne_zero _)]
  by_cases hi : i = 0
  . obtain ⟨hoffset, hfirst, hlast⟩ := h.firstBound hk
    have hle : 2048 / l.units * l.units ≤ 2048 := Nat.div_mul_le_self ..
    rw [hi, Fin.val_zero, if_pos rfl, h.geometry.units_eq, ← hlast]
    exact skip_of_le (by omega) hoffset (by omega) (by omega) (by omega)
  . have hne : i.val ≠ 0 := Fin.val_ne_of_ne hi
    rw [if_neg hne]
    exact skip_of_free (by omega) (hfree _ (Globals.mem_bounds.mpr ⟨i, rfl⟩))

theorem Wrapped.stuck (h : l.Wrapped n k g) (hk : 0 < k) (hn : 0 < n ∧ n ≤ 4)
    (hbase : l.base ≤ l.last) (hcylinders : 1 ≤ l.cylinders) (hroom : l.edge n 1 < 2049)
    (i : Slot) (sys : UInt8) (partCyls : Nat) (hfuel : 1 ≤ fuel)
    : Fdisk.addPartition fuel g i sys partCyls true = .ok (g, none) := by
  -- the search ends behind the wrapped entry, where nothing is
  have hpos := l.two_le_edge (n := n) (i := 1) hn.1 hn.1 hbase
  have hfar : l.far n = 2 ^ 32 + l.edge n 1 - 1 := rfl
  have hlastSector := h.geometry.lastSector_eq
  rw [if_neg (by omega)] at hlastSector
  have hsmall := l.cylinders_mul_lt hn hcylinders hroom
  have hlt : g.lastSector < l.far n := by omega
  apply addPartition_none h.geometry.ready h.geometry.extendedOffset_eq i
    (search_breaks (h.foldl_skip hk hpos) hlt hfuel)
  rw [foldl_cut_of_le]
  . exact hlt
  . intro b hb
    have hunused := l.unused_bounds
    obtain ⟨i, rfl⟩ := Globals.mem_bounds.mp hb
    rw [h.geometry.units_eq]
    by_cases hi : i = 0
    . obtain ⟨hoffset, hfirst, _⟩ := h.firstBound hk
      have hle : 2048 / l.units * l.units ≤ 2048 := Nat.div_mul_le_self ..
      rw [hi, hfirst]
      exact ⟨hoffset, by omega⟩
    . have hne : i.val ≠ 0 := Fin.val_ne_of_ne hi
      obtain ⟨hoffset, _, hfirst⟩ := h.restBound hpos (Nat.pos_of_ne_zero hne)
      exact ⟨hoffset, by omega⟩

theorem edge_le_wrapped (hbase : l.base ≤ l.last) (hcylinders : l.cylinders = 0)
    (hroom : l.edge n 1 < 2049)
    : l.edge n 1 = l.base * l.units ∧ l.base ≤ 2048 / l.units
        ∧ l.edge n 1 ≤ 2048 / l.units * l.units := by
  have hedge : l.edge n 1 = l.base * l.units := by
    unfold edge
    rw [boundary_of_zero hcylinders hbase]
  have hbaseLe : l.base ≤ 2048 / l.units := by
    rw [Nat.le_div_iff_mul_le l.units_bounds.1, ← hedge]
    omega
  refine ⟨hedge, hbaseLe, ?_⟩
  rw [hedge]
  exact Nat.mul_le_mul_right _ hbaseLe

theorem Wrapped.outside_edge (h : l.Wrapped n k g) (hk : 0 < k) (hpos : 2 ≤ l.edge n 1)
    (hedge : l.edge n 1 ≤ 2048 / l.units * l.units)
    : ∀ b ∈ g.bounds, Free (l.edge n 1 - 1) b := by
  have hlt := l.edge_lt (n := n) (i := 1)
  have hfar : l.far n = 2 ^ 32 + l.edge n 1 - 1 := rfl
  intro b hb
  obtain ⟨i, rfl⟩ := Globals.mem_bounds.mp hb
  rw [h.geometry.units_eq]
  by_cases hi : i = 0
  . obtain ⟨hoffset, hfirst, hlast⟩ := h.firstBound hk
    rw [hi]
    exact ⟨hoffset, by omega, .inl (by omega)⟩
  . have hne : i.val ≠ 0 := Fin.val_ne_of_ne hi
    obtain ⟨hoffset, hlast, _⟩ := h.restBound hpos (Nat.pos_of_ne_zero hne)
    exact ⟨hoffset, by omega, .inr hlast⟩

theorem Wrapped.search (h : l.Wrapped n k g) (hk : 0 < k) (hpos : 2 ≤ l.edge n 1)
    (hcylinders : l.cylinders = 0) (hroom : l.edge n 1 < 2049)
    (hedge : l.edge n 1 ≤ 2048 / l.units * l.units) (hfuel : 3 ≤ fuel)
    : g.search fuel = .ok (l.edge n 1 - 1) := by
  -- behind sector `2 ^ 32` the search comes back as an `unsigned int` and ends before the wrapped
  -- entry
  have hunits := l.units_bounds
  have hunused := l.unused_bounds
  have hfar : l.far n = 2 ^ 32 + l.edge n 1 - 1 := rfl
  have hsectorOffset := h.sectorOffset_eq
  have hlastSector := h.geometry.lastSector_eq
  rw [if_pos hcylinders] at hlastSector
  apply search_wraps (h.foldl_skip hk hpos) (by omega) (h.outside_far hk hpos) (by omega)
    (by omega) (by omega) (h.outside_edge hk hpos hedge) (by omega) (by omega) _ hfuel
  rw [h.geometry.units_eq]
  omega

theorem Wrapped.foldl_cut (h : l.Wrapped n k g) (hk : 0 < k) (hpos : 2 ≤ l.edge n 1)
    (hcylinders : l.cylinders = 0) (hroom : l.edge n 1 < 2049)
    (hedge : l.edge n 1 ≤ 2048 / l.units * l.units)
    : g.bounds.foldl (cut (l.edge n 1 - 1)) g.lastSector = 2048 / l.units * l.units - 1 := by
  have hunits := l.units_bounds
  have hunused := l.unused_bounds
  have hlast : 2048 / l.units * l.units ≤ 2048 := Nat.div_mul_le_self ..
  have hlastSector := h.geometry.lastSector_eq
  rw [if_pos hcylinders] at hlastSector
  -- the wrapped entry is the first one behind the free sector
  have hbounds : g.bounds = ((g.bufs 0).entries 0).bound.round g.unitsPerSector
      :: [1, 2, 3].map fun i : Slot => ((g.bufs 0).entries i).bound.round g.unitsPerSector := by
    unfold Globals.bounds
    rw [List.map_cons]
  obtain ⟨hoffset, hfirst, _⟩ := h.firstBound hk
  rw [hbounds, h.geometry.units_eq, List.foldl_cons, cut_of_lt hoffset (by omega), hfirst,
    Nat.min_eq_right (by omega),
    addPartition.foldl_cut (show l.edge n 1 - 1 < l.unused by omega)]
  . rw [Nat.min_eq_left (by omega), ite_self]
  . intro b hb
    obtain ⟨i, hi, rfl⟩ := List.mem_map.mp hb
    have hne : i.val ≠ 0 := by
      intro heq
      rw [Fin.eq_of_val_eq (j := 0) heq] at hi
      simp at hi
    obtain ⟨hoffset, _, hfirst⟩ := h.restBound hpos (Nat.pos_of_ne_zero hne)
    exact ⟨hoffset, hfirst⟩

theorem Wrapped.place_eq (h : l.Wrapped n k g) (hk : k ≠ 0) (hpos : 2 ≤ l.edge n 1)
    (hroom : l.edge n 1 < 2049) (hedge : l.edge n 1 = l.base * l.units)
    (hbase : l.base ≤ 2048 / l.units)
    : place g k 0 true (l.edge n 1 - 1) (2048 / l.units * l.units - 1)
      = ({ start := l.edge n 1 - 1, stop := l.edge n 1 - 2 }, g.sectorOffset) := by
  have hunits := l.units_bounds
  have hlast : 2048 / l.units * l.units ≤ 2048 := Nat.div_mul_le_self ..
  have hstop : stopSector g.unitsPerSector (l.edge n 1 - 1) (2048 / l.units * l.units - 1) 0
      = l.edge n 1 - 1 := by
    have hcyl : (l.edge n 1 - 1) / l.units + 1 = l.base := by
      rw [hedge, pred_mul_div hunits.1 l.base_bounds.1]
    rw [h.geometry.units_eq, stopSector_eq hunits.1 hcyl hbase (by omega) (by omega)
      (by rw [Nat.add_zero, ← hedge]; omega), Nat.add_zero, Nat.min_eq_left hbase, hedge]
  simp only [place, hstop, if_true, if_neg hk]
  rw [Word.sub_of_le (by omega) (by omega)]
  rfl

theorem Wrapped.step (h : l.Wrapped n k g) (hk : 0 < k ∧ k < n) (hn : n ≤ 4)
    (hbase : l.base ≤ l.last) (hcylinders : l.cylinders = 0) (hroom : l.edge n 1 < 2049)
    (hfuel : 3 ≤ fuel)
    : ∃ next placed, Fdisk.addPartition fuel g k WIN95_FAT32_LBA (l.share n k) true
          = .ok (next, some placed) ∧ l.Wrapped n (k + 1) next := by
  let slot : Slot := ⟨k, by omega⟩
  have hpos := l.two_le_edge (n := n) (i := 1) (by omega) (by omega) hbase
  obtain ⟨hedge, hbaseLe, hedgeLe⟩ := edge_le_wrapped hbase hcylinders hroom
  have hshare : l.share n k = 0 := by
    have hle := l.share_le (n := n) (i := k)
    omega
  obtain ⟨next, hnext, hadded, hoffset⟩ := addPartition_some WIN95_FAT32_LBA (l.share n k)
    h.geometry.ready h.geometry.extendedOffset_eq slot
    (h.search hk.1 hpos hcylinders hroom hedgeLe hfuel)
    (h.foldl_cut hk.1 hpos hcylinders hroom hedgeLe) (by omega)
  simp only [slot, hshare, h.place_eq (Nat.ne_of_gt hk.1) hpos hroom hedge hbaseLe]
    at hnext hadded hoffset
  have hsize := hadded.size_eq
  have hfirst := hadded.start_eq
  dsimp only at hsize hfirst
  rw [size_of_le (by omega) (by omega), Nat.mod_eq_of_lt (by omega)] at hsize
  rw [Nat.mod_eq_of_lt (by omega)] at hfirst
  have hother : ∀ i : Slot, i.val ≠ k → (next.bufs 0).entries i = (g.bufs 0).entries i := by
    intro i hi
    apply hadded.other_eq
    intro heq
    rw [heq] at hi
    exact hi rfl
  rw [hshare]
  refine ⟨next, _, hnext, h.geometry.added hadded, ?_, ?_, ?_, ?_, ?_⟩
  . rw [hoffset, h.sectorOffset_eq]
  . intro i
    by_cases hi : i.val = k
    . rw [Fin.eq_of_val_eq (j := slot) hi, hadded.sysInd_eq, if_pos (Nat.lt_succ_self k)]
    . rw [hother i hi, h.sysInd_eq]
      by_cases hlt : i.val < k
      . rw [if_pos hlt, if_pos (Nat.lt_succ_of_lt hlt)]
      . rw [if_neg hlt, if_neg (by omega)]
  . rw [hother 0 (Nat.ne_of_lt hk.1)]
    exact h.first_start
  . rw [hother 0 (Nat.ne_of_lt hk.1)]
    exact h.first_stop
  . intro i hi hlt
    by_cases heq : i.val = k
    . rw [Fin.eq_of_val_eq (j := slot) heq, hfirst, hsize]
      exact ⟨rfl, by omega⟩
    . rw [hother i heq]
      exact h.rest i hi (by omega)

end Wrapped

end Layout

end FsBench.Fdisk
