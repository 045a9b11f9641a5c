import FsBench.Fdisk.MakePart

/-!
This module contains when the partitions that `fdisk_make_part` makes are sound, when they are
aligned, and that on a large device they leave no gap.
-/

namespace FsBench.Fdisk

def Partition.Used (p : Partition) : Prop := p.sysInd ≠ 0

instance {p : Partition} : Decidable p.Used :=
  inferInstanceAs (Decidable (_ ≠ _))

/--
The table holds `n` partitions that are not empty, follow each other from sector 2048 on and end
inside the `sectors` of the device.
-/
structure SoundTable (table : Slot → Partition) (placed : List (Option Placed)) (n sectors : Nat)
    : Prop where
  count_eq : [0, 1, 2, 3].countP (fun i : Slot => (table i).Used) = n
  size_eq : ∀ i, (table i).Used → ∃ p : Placed, placed[i.val]? = some (some p)
    ∧ p.start ≤ p.stop ∧ (table i).getNrSects = p.stop - p.start + 1
  disjoint : ∀ i j, i < j → (table i).Used → (table j).Used →
    (table i).getStartSect + (table i).getNrSects ≤ (table j).getStartSect
  first_le : ∀ i, (table i).Used → 2048 ≤ (table i).getStartSect
  inside : ∀ i, (table i).Used → (table i).getStartSect + (table i).getNrSects ≤ sectors

def AlignedTable (table : Slot → Partition) (sectorSize : Nat) : Prop :=
  ∀ i, (table i).Used → 4096 ∣ (table i).getStartSect * sectorSize

/--
The first `n` entries are partitions, one directly behind the other from sector 2048 to `stop`.
-/
structure ContiguousTable (table : Slot → Partition) (n stop : Nat) : Prop where
  used_iff : ∀ i, (table i).Used ↔ i.val < n
  size_pos : ∀ i, i.val < n → 1 ≤ (table i).getNrSects
  first_eq : (table 0).getStartSect = 2048
  next_eq : ∀ i j, i.val + 1 = j.val → j.val < n →
    (table j).getStartSect = (table i).getStartSect + (table i).getNrSects
  last_eq : ∀ i, i.val + 1 = n → (table i).getStartSect + (table i).getNrSects = stop + 1

namespace Layout

variable {l : Layout} {n k : Nat} {g : Globals} {placed : List (Option Placed)}

theorem used_iff {table : Slot → Partition}
    (h : ∀ i : Slot, (table i).sysInd = if i.val < k then WIN95_FAT32_LBA else 0) (i : Slot)
    : (table i).Used ↔ i.val < k := by
  unfold Partition.Used
  rw [h i]
  split <;> simp_all [WIN95_FAT32_LBA]

theorem countP_used {table : Slot → Partition} (hk : k ≤ 4)
    (h : ∀ i : Slot, (table i).sysInd = if i.val < k then WIN95_FAT32_LBA else 0)
    : [0, 1, 2, 3].countP (fun i : Slot => (table i).Used) = k := by
  have hused : (fun i : Slot => decide (table i).Used) = fun i : Slot => decide (i.val < k) := by
    funext i
    rw [decide_eq_decide]
    exact used_iff h i
  rw [hused]
  match k, hk with
  | 0, _ | 1, _ | 2, _ | 3, _ | 4, _ => rfl

theorem starts_lt_iff (hn : 1 ≤ n) (hbase : l.base ≤ l.last)
    : (∀ i, i < n → l.start n i < l.edge n (i + 1) - 1)
      ↔ 2050 ≤ l.edge n 1 ∧ ∀ i, 0 < i → i < n → l.boundary n i < l.boundary n (i + 1) := by
  constructor
  . intro hlt
    refine ⟨?_, ?_⟩
    . have hfirst := hlt 0 hn
      change 2048 < l.edge n 1 - 1 at hfirst
      omega
    . intro i hi hlt'
      have hstart := hlt i hlt'
      unfold start at hstart
      rw [if_neg (by omega)] at hstart
      by_contra hle
      have hmul := Nat.mul_le_mul_right l.units (Nat.le_of_not_lt hle)
      change l.edge n (i + 1) ≤ l.edge n i at hmul
      omega
  . intro ⟨hroom, hincreasing⟩ i hi
    unfold start
    split
    . next hzero =>
      rw [hzero]
      exact Nat.lt_sub_of_add_lt hroom
    . have hboundary := hincreasing i (by omega) hi
      have hmul : l.edge n i < l.edge n (i + 1) :=
        Nat.mul_lt_mul_of_pos_right hboundary l.units_bounds.1
      have hpos := l.two_le_edge (Nat.le_of_lt hi) hn hbase
      omega

theorem Laid.soundTable (h : l.Laid n n g) (hn : 1 ≤ n ∧ n ≤ 4) (hroom : 2049 ≤ l.edge n 1)
    (hplaced : placed = (List.range n).map fun i =>
      some { start := l.start n i, stop := l.stop n i })
    (hlt : ∀ i, i < n → l.start n i < l.edge n (i + 1) - 1) (hinside : l.edge n n - 1 ≤ l.sectors)
    : SoundTable (g.bufs 0).entries placed n l.sectors := by
  have hused := used_iff h.sysInd_eq
  refine ⟨countP_used hn.2 h.sysInd_eq, ?_, ?_, ?_, ?_⟩
  . intro i hi
    have hi := (hused i).mp hi
    have hstop := h.stop_eq i hi
    have hstart := hlt i hi
    refine ⟨{ start := l.start n i, stop := l.stop n i }, ?_, ?_, ?_⟩
    . rw [hplaced, List.getElem?_map, List.getElem?_range hi]
      rfl
    . dsimp only [stop]
      omega
    . dsimp only [stop]
      omega
  . -- between two partitions lie the edges
    intro i j hij hi hj
    have hij : i.val < j.val := hij
    have hi := (hused i).mp hi
    have hj := (hused j).mp hj
    have hmono := l.edge_mono (n := n) (i := i + 1) (j := j) hij (Nat.le_of_lt hj)
    rw [h.start_eq i hi, h.stop_eq i hi, h.start_eq j hj]
    unfold start
    rw [if_neg (by omega)]
    omega
  . intro i hi
    have hi := (hused i).mp hi
    rw [h.start_eq i hi]
    unfold start
    split
    . exact Nat.le_refl _
    . have hmono := l.edge_mono (n := n) (i := 1) (j := i) (by omega) (Nat.le_of_lt hi)
      omega
  . intro i hi
    have hi := (hused i).mp hi
    have hmono := l.edge_mono (n := n) (i := i + 1) (j := n) hi (Nat.le_refl n)
    rw [h.start_eq i hi, h.stop_eq i hi]
    omega

theorem Laid.sound_iff (h : l.Laid n n g) (hn : 1 ≤ n ∧ n ≤ 4) (hbase : l.base ≤ l.last)
    (hroom : 2049 ≤ l.edge n 1)
    (hplaced : placed = (List.range n).map fun i =>
      some { start := l.start n i, stop := l.stop n i })
    : SoundTable (g.bufs 0).entries placed n l.sectors ↔ l.Sound n := by
  have hused := used_iff h.sysInd_eq
  rw [Layout.sound_iff hn.1 hbase, ← and_assoc, ← starts_lt_iff hn.1 hbase]
  constructor
  . intro hsound
    refine ⟨?_, ?_⟩
    . intro i hi
      let slot : Slot := ⟨i, by omega⟩
      obtain ⟨_, _, _, hsize⟩ := hsound.size_eq slot ((hused slot).mpr hi)
      have hstop := h.stop_eq slot hi
      dsimp only [slot] at hsize hstop
      omega
    . let slot : Slot := ⟨n - 1, by omega⟩
      have hslot : slot.val < n := Nat.sub_lt hn.1 Nat.one_pos
      have hinside := hsound.inside slot ((hused slot).mpr hslot)
      have hlast : slot.val + 1 = n := Nat.sub_add_cancel hn.1
      rw [h.start_eq slot hslot, h.stop_eq slot hslot, hlast] at hinside
      exact hinside
  . intro ⟨hlt, hinside⟩
    exact h.soundTable hn hroom hplaced hlt hinside

theorem Outcome.sound_iff (h : l.Outcome n g placed) (hn : 1 ≤ n ∧ n ≤ 4)
    : SoundTable (g.bufs 0).entries placed n l.sectors ↔ l.Sound n := by
  have hunits := l.units_bounds
  have htrack := l.track_bounds
  cases h with
  | laid hbase hroom hlaid hplaced => exact hlaid.sound_iff hn hbase hroom hplaced
  | full hbase hlaid =>
    refine iff_of_false ?_ ?_
    . intro hsound
      have hcount := hsound.count_eq
      rw [countP_used (Nat.zero_le 4) hlaid.sysInd_eq] at hcount
      omega
    . intro ⟨_, hroom, _⟩
      have hmul : min (l.base + l.partCyls n) l.last * l.units ≤ l.track / l.units * l.units := by
        apply Nat.mul_le_mul_right
        unfold base at hbase
        exact Nat.le_trans (Nat.min_le_right ..) (Nat.le_of_lt_succ hbase)
      have hle : l.track / l.units * l.units ≤ l.track := Nat.div_mul_le_self ..
      omega
  | wrapped k hbase hroom hk _ hwrapped hplaced =>
    have hused : ((g.bufs 0).entries 0).Used := (used_iff hwrapped.sysInd_eq 0).mpr hk
    refine iff_of_false ?_ ?_
    . intro hsound
      obtain ⟨p, hp, hle, _⟩ := hsound.size_eq 0 hused
      rw [Fin.val_zero, hplaced] at hp
      cases hp
      change 2048 ≤ l.edge n 1 - 2 at hle
      omega
    . intro ⟨_, hfirst, _⟩
      rw [← edge_one hn.1] at hfirst
      omega

theorem Outcome.aligned_iff (h : l.Outcome n g placed) (hn : 1 ≤ n ∧ n ≤ 4)
    (hcylinders : 2 * n ≤ l.cylinders) (hfits : l.cylinders * l.units ≤ l.unused)
    : (∀ i : Slot, ((g.bufs 0).entries i).Used → 8 ∣ ((g.bufs 0).entries i).getStartSect * l.secFac)
      ↔ l.Aligned n := by
  have hlarge := base_le_last hcylinders hfits hn.1
  cases h with
  | full hbase => omega
  | laid hbase hroom hlaid hplaced =>
    rw [Layout.aligned_iff hcylinders hfits hn.1 hroom]
    have hused := used_iff hlaid.sysInd_eq
    constructor
    . intro h i hi
      let slot : Slot := ⟨i, by omega⟩
      have haligned := h slot ((hused slot).mpr hi)
      rw [hlaid.start_eq slot hi] at haligned
      exact haligned
    . intro h i hi
      have hi := (hused i).mp hi
      rw [hlaid.start_eq i hi]
      exact h i hi
  | wrapped k hbase hroom hk hone hwrapped hplaced =>
    have hk := hone (by omega)
    subst hk
    have hused := used_iff hwrapped.sysInd_eq
    refine iff_of_true ?_ ?_
    . intro i hi
      have hzero : i = 0 := Fin.eq_of_val_eq (Nat.lt_one_iff.mp ((hused i).mp hi))
      rw [hzero, hwrapped.first_start]
      exact Nat.dvd_mul_right_of_dvd (by decide) _
    . by_cases hone : n = 1
      . exact .inl hone
      . right
        left
        unfold edge at hroom
        rw [boundary_eq hcylinders hfits (by omega), Nat.one_mul] at hroom
        omega

theorem Laid.contiguous (h : l.Laid n n g) (hn : 1 ≤ n ∧ n ≤ 4) (hcylinders : 2 * n ≤ l.cylinders)
    (hroom : 2050 < l.partCyls n * l.units) (hfits : l.cylinders * l.units ≤ l.unused)
    : ContiguousTable (g.bufs 0).entries n (l.cylinders * l.units - 2) where
  used_iff := used_iff h.sysInd_eq
  size_pos i hi := by
    have hstop := h.stop_eq i hi
    have hlt := boundary_increasing hcylinders hfits hi hroom
    have hmul : l.edge n i < l.edge n (i + 1) := Nat.mul_lt_mul_of_pos_right hlt l.units_bounds.1
    have hfirst := partCyls_mul_le_edge hcylinders hfits hn.1
    have hmono := l.edge_mono (n := n) (i := 1) (j := i + 1) (by omega) hi
    have hpos := l.two_le_edge (Nat.le_of_lt hi) hn.1 (base_le_last hcylinders hfits hn.1)
    unfold start at hstop
    split at hstop <;> omega
  first_eq := h.start_eq 0 hn.1
  next_eq i j hij hj := by
    rw [h.start_eq j hj, h.start_eq i (by omega), h.stop_eq i (by omega), hij]
    unfold start
    rw [if_neg (by omega)]
  last_eq i hi := by
    have hstop := h.stop_eq i (by omega)
    have hfirst := partCyls_mul_le_edge hcylinders hfits hn.1
    have hmono := l.edge_mono (n := n) (i := 1) (j := n) hn.1 (Nat.le_refl n)
    rw [hi, edge_last hfits (by omega)] at hstop
    rw [edge_last hfits (by omega)] at hmono
    rw [h.start_eq i (by omega), hstop]
    omega

theorem Outcome.contiguous (h : l.Outcome n g placed) (hn : 1 ≤ n ∧ n ≤ 4)
    (hcylinders : 2 * n ≤ l.cylinders) (hroom : 2050 < l.partCyls n * l.units)
    (hfits : l.cylinders * l.units ≤ l.unused)
    : ContiguousTable (g.bufs 0).entries n (l.cylinders * l.units - 2) := by
  have hlarge := base_le_last hcylinders hfits hn.1
  have hfirst := partCyls_mul_le_edge hcylinders hfits hn.1
  cases h with
  | full hbase => omega
  | laid _ _ hlaid => exact hlaid.contiguous hn hcylinders hroom hfits
  | wrapped _ _ hwrap => omega

end Layout

instance {l : Layout} {n : Nat} : Decidable (l.Sound n) :=
  inferInstanceAs (Decidable (_ ∧ _))

instance {l : Layout} {n : Nat} : Decidable (l.Aligned n) :=
  inferInstanceAs (Decidable (_ ∨ _))

theorem dvd_mul_sector_iff {start sectorSize : Nat} (h : 512 ∣ sectorSize)
    : 4096 ∣ start * sectorSize ↔ 8 ∣ start * (sectorSize / 512) := by
  obtain ⟨f, rfl⟩ := h
  rw [Nat.mul_div_cancel_left f (by decide), Nat.mul_left_comm]
  change 512 * 8 ∣ 512 * (start * f) ↔ _
  exact Nat.mul_dvd_mul_iff_left (by decide)

section Main

variable {io : Io} {g : Globals} {fuel n : Nat}

theorem fdiskMakePart_sound_iff (hn : 1 ≤ n ∧ n ≤ 4) (hboot : g.NeverBooted)
    (hsize : DEFAULT_SECTOR_SIZE ≤ g.nextSectorSize io.kernel) (hstate : g.sectorSize < 2 ^ 32)
    (hio : io.Succeeds (g.nextSectorSize io.kernel)) (hfuel : 3 ≤ fuel)
    : ∃ m, fdiskMakePart io fuel g n = .ok m ∧ m.ret = 0
        ∧ (SoundTable m.table.entries m.placed n (Layout.measured io.kernel g hsize).sectors
          ↔ (Layout.measured io.kernel g hsize).Sound n) := by
  obtain ⟨m, next, hm, hret, htable, houtcome⟩ :=
    fdiskMakePart_outcome hn hsize hstate hboot.2 hio hfuel
  refine ⟨m, hm, hret, ?_⟩
  rw [htable]
  exact houtcome.sound_iff hn

theorem fdiskMakePart_sound_iff_card
    : ∃ m, fdiskMakePart (.card 512 (2 ^ 31)) 3 .initial 4 = .ok m ∧ m.ret = 0
        ∧ (SoundTable m.table.entries m.placed 4
            (Layout.measured (.mmc 512 (2 ^ 31)) .initial (by decide)).sectors
          ↔ (Layout.measured (.mmc 512 (2 ^ 31)) .initial (by decide)).Sound 4) :=
  fdiskMakePart_sound_iff (by decide) (by decide) (by decide) (by decide)
    (Io.card_succeeds (by decide)) (by decide)

theorem fdiskMakePart_not_sound
    : ∃ m, fdiskMakePart (.card 512 (2 ^ 20)) 3 .initial 1 = .ok m ∧ m.ret = 0
        ∧ ¬SoundTable m.table.entries m.placed 1 2048 := by
  -- a card of 2048 sectors has no room for a partition that starts at sector 2048
  obtain ⟨m, next, hm, hret, htable, houtcome⟩ :=
    fdiskMakePart_card 512 (2 ^ 20) 1 (by decide) (by decide) (by decide) (by decide)
  refine ⟨m, hm, hret, ?_⟩
  rw [htable]
  intro hsound
  exact absurd ((houtcome.sound_iff (by decide)).mp hsound) (by decide)

theorem fdiskMakePart_contiguous (hn : 1 ≤ n ∧ n ≤ 4) (hboot : g.NeverBooted)
    (hsize : DEFAULT_SECTOR_SIZE ≤ g.nextSectorSize io.kernel) (hstate : g.sectorSize < 2 ^ 32)
    (hopen : io.openDevice = true) (hfuel : 3 ≤ fuel)
    (hcylinders : 2 * n ≤ (Layout.measured io.kernel g hsize).cylinders)
    (hroom : 2050 < (Layout.measured io.kernel g hsize).cylinders / n
      * (Layout.measured io.kernel g hsize).units)
    (hfits : (Layout.measured io.kernel g hsize).cylinders * (Layout.measured io.kernel g hsize).units
      ≤ 0xffffffff / (Layout.measured io.kernel g hsize).units
        * (Layout.measured io.kernel g hsize).units)
    : ∃ m, fdiskMakePart io fuel g n = .ok m
        ∧ ContiguousTable (m.globals.bufs 0).entries n ((Layout.measured io.kernel g hsize).cylinders
          * (Layout.measured io.kernel g hsize).units - 2) := by
  obtain ⟨m, next, hm, htable, houtcome⟩ := fdiskMakePart_made hn hsize hstate hboot.2 hopen hfuel
  refine ⟨m, hm, ?_⟩
  rw [htable]
  exact houtcome.contiguous hn hcylinders hroom hfits

theorem fdiskMakePart_contiguous_card
    : ∃ m, fdiskMakePart (.card 512 (2 ^ 31)) 3 .initial 4 = .ok m
        ∧ ContiguousTable (m.globals.bufs 0).entries 4
          ((Layout.measured (.mmc 512 (2 ^ 31)) .initial (by decide)).cylinders
            * (Layout.measured (.mmc 512 (2 ^ 31)) .initial (by decide)).units - 2) :=
  fdiskMakePart_contiguous (by decide) (by decide) (by decide) (by decide) rfl (by decide)
    (by decide) (by decide) (by decide)

end Main

end FsBench.Fdisk
