import FsBench.Fdisk.ReadBack
import FsBench.Fdisk.Sound

/-!
This module contains when `get_boot` settles on the geometry with which `fdisk_make_part` has made
the table that it reads.
-/

namespace FsBench.Fdisk

namespace Layout

variable {l : Layout} {n : Nat} {g : Globals} {b : Buffer} {placed : List (Option Placed)}

/--
With one sector in a cylinder every end is a last sector, and behind cylinder 1023 every end is told
as one. A device of one cylinder with one head gets no partition.
-/
def Recognised (l : Layout) : Prop :=
  l.units = 1 ∨ 1025 ≤ l.cylinders ∨ l.cylinders = 1 ∧ l.heads = 1

instance : Decidable l.Recognised :=
  inferInstanceAs (Decidable (_ ∨ _))

/-- With the kernel's geometry to fall back on, the table in `b` leads to the geometry of `l`. -/
def Settles (l : Layout) (b : Buffer) : Prop :=
  (if b.geometry.1 ≠ 0 then b.geometry.1 else l.heads) = l.heads
    ∧ (if b.geometry.2 ≠ 0 then b.geometry.2 else l.track) = l.track

theorem settles_of_none (h : b.geometry = (0, 0)) : l.Settles b := by
  unfold Settles
  rw [h]
  exact ⟨rfl, rfl⟩

theorem settles_of_eq (h : b.geometry = (l.heads, l.track)) : l.Settles b := by
  unfold Settles
  rw [h]
  exact ⟨ite_self l.heads, ite_self l.track⟩

def near (l : Layout) : Nat × Nat :=
  if l.track = 1 then (l.heads - 1, 1) else (l.heads, l.track - 1)

theorem not_settles_of_near (hunits : l.units ≠ 1) (h : b.geometry = l.near) : ¬l.Settles b := by
  have hheads := l.heads_bounds
  have htrack := l.track_bounds
  unfold Settles
  rw [h]
  unfold near
  split
  . next hone =>
    have htwo : l.heads ≠ 1 := by
      intro heq
      apply hunits
      unfold units
      rw [heq, hone]
    dsimp only
    rw [if_pos (by omega)]
    omega
  . dsimp only
    rw [if_pos (by omega : l.track - 1 ≠ 0)]
    omega

theorem told_stop {i : Nat} (hi : i < n) (hbase : l.base ≤ l.last) (hunits : l.units ≠ 1)
    : l.told (l.stop n i)
      = if 1025 ≤ l.boundary n (i + 1) then (l.heads, l.track) else l.near := by
  have hbounds := l.units_bounds
  have hpos := l.two_le_edge (n := n) (i := i + 1) hi (by omega) hbase
  have hboundary : 1 ≤ l.boundary n (i + 1) := by
    apply Nat.pos_of_ne_zero
    intro hzero
    unfold edge at hpos
    rw [hzero, Nat.zero_mul] at hpos
    omega
  obtain ⟨hdiv, _⟩ := mul_sub_div_mod (m := l.units) (r := 2) hboundary (by omega)
  unfold stop edge
  split
  . exact told_of_far (by rw [hdiv]; omega)
  . exact told_of_near hunits hboundary (by omega)

theorem told_of_units (hunits : l.units = 1) (stop : Nat) : l.told stop = (l.heads, l.track) := by
  have hheads : l.heads = 1 := Nat.eq_one_of_mul_eq_one_right hunits
  have htrack : l.track = 1 := Nat.eq_one_of_mul_eq_one_left hunits
  unfold told
  rw [hheads, htrack]
  simp only [Nat.mod_one]

theorem boundary_last (htrack : l.track ≤ 63) (hbase : l.base ≤ l.last)
    : 1025 ≤ l.boundary n n ↔ 1025 ≤ l.cylinders := by
  have hbounds := l.base_bounds
  have hunits : l.units ≤ 255 * 63 := Nat.mul_le_mul l.heads_bounds.2 htrack
  have hlimit : 1025 ≤ (2 ^ 32 - 1) / l.units := by
    rw [Nat.le_div_iff_mul_le l.units_bounds.1]
    omega
  unfold boundary
  rw [if_neg (Nat.lt_irrefl n)]
  by_cases hzero : l.cylinders = 0
  . omega
  . unfold last at hbase ⊢
    rw [if_neg hzero] at hbase ⊢
    omega

theorem Laid.settles_iff (h : l.Laid n n g) (hn : 1 ≤ n ∧ n ≤ 4) (hbase : l.base ≤ l.last)
    (htrack : l.track ≤ 63) (hflag : validPartTableFlag b = true)
    (hentries : b.entries = (g.bufs 0).entries)
    : l.Settles b ↔ l.units = 1 ∨ 1025 ≤ l.cylinders := by
  have hused := used_iff h.sysInd_eq
  have htold := h.told_eq htrack
  rw [← hentries] at hused htold
  have hsome : ∃ i, (b.entries i).sysInd ≠ 0 := ⟨0, (hused 0).mpr hn.1⟩
  by_cases hunits : l.units = 1
  . -- with one sector in a cylinder there is nothing that an entry could tell wrong
    refine iff_of_true (settles_of_eq ?_) (.inl hunits)
    apply b.geometry_of_told hflag hsome
    intro i hi
    rw [htold i ((hused i).mp hi), told_of_units hunits]
  . rw [or_iff_right hunits, ← l.boundary_last htrack hbase]
    let slot : Slot := ⟨n - 1, by omega⟩
    have hslot : slot.val < n := Nat.sub_lt hn.1 Nat.one_pos
    have hlast : slot.val + 1 = n := Nat.sub_add_cancel hn.1
    have hend := htold slot hslot
    rw [told_stop hslot hbase hunits, hlast] at hend
    by_cases hfar : 1025 ≤ l.boundary n n
    . refine iff_of_true ?_ hfar
      rw [if_pos hfar] at hend
      by_cases hall : ∀ i, (b.entries i).sysInd ≠ 0 → (b.entries i).told = (l.heads, l.track)
      . exact settles_of_eq (b.geometry_of_told hflag hsome hall)
      . -- a partition that ends before contradicts the last one, so the kernel is believed
        obtain ⟨i, hi⟩ := not_forall.mp hall
        obtain ⟨hi, hne⟩ := Classical.not_imp.mp hi
        apply settles_of_none
        apply b.geometry_of_ne hi ((hused slot).mpr hslot)
        rw [hend]
        exact hne
    . -- no partition ends further behind than the last one
      refine iff_of_false ?_ hfar
      apply not_settles_of_near hunits
      apply b.geometry_of_told hflag hsome
      intro i hi
      have hi := (hused i).mp hi
      have hmono := l.edge_mono (n := n) (i := i + 1) (j := n) hi (Nat.le_refl n)
      have hle : l.boundary n (i + 1) ≤ l.boundary n n :=
        Nat.le_of_mul_le_mul_right hmono l.units_bounds.1
      rw [htold i hi, told_stop hi hbase hunits, if_neg (by omega)]

theorem recognised_of_full (hbase : l.last < l.base) : l.cylinders = 1 ∧ l.heads = 1 := by
  have hbounds := l.base_bounds
  have hunits := l.units_bounds
  have hlast := l.one_le_last
  have hlimit : 2 ≤ (2 ^ 32 - 1) / l.units := by
    rw [Nat.le_div_iff_mul_le hunits.1]
    omega
  constructor
  . by_cases hzero : l.cylinders = 0
    . unfold last at hbase
      rw [if_pos hzero] at hbase
      omega
    . unfold last at hbase
      rw [if_neg hzero] at hbase
      omega
  . by_contra hheads
    have htwo : 2 ≤ l.heads := by
      have := l.heads_bounds
      omega
    have hlt : l.track < l.units := by
      calc l.track
        _ < 2 * l.track := by
          have := l.track_bounds
          omega
        _ ≤ l.units := Nat.mul_le_mul_right _ htwo
    have hone : l.base = 1 := by
      unfold base
      rw [Nat.div_eq_of_lt hlt]
    omega

theorem Outcome.settles_iff (h : l.Outcome n g placed) (hn : 1 ≤ n ∧ n ≤ 4) (htrack : l.track ≤ 63)
    (hflag : validPartTableFlag b = true) (hentries : b.entries = (g.bufs 0).entries)
    (hsome : ∀ p, some p ∈ placed → p.start ≤ p.stop) : l.Settles b ↔ l.Recognised := by
  cases h with
  | full hbase hlaid =>
    refine iff_of_true (settles_of_none ?_) (.inr (.inr (recognised_of_full hbase)))
    apply b.geometry_of_unused
    intro i
    rw [hentries, hlaid.sysInd_eq, if_neg (Nat.not_lt_zero _)]
  | laid hbase hroom hlaid hplaced =>
    rw [hlaid.settles_iff hn hbase htrack hflag hentries]
    unfold Recognised
    constructor
    . exact fun h => h.imp_right .inl
    . intro h
      by_contra hnot
      obtain ⟨hcylinders, hheads⟩ := (h.resolve_left fun h => hnot (.inl h)).resolve_left
        fun h => hnot (.inr h)
      have hunits : l.units = l.track := by
        unfold units
        rw [hheads, Nat.one_mul]
      have htwo : l.base = 2 := by
        unfold base
        rw [hunits, Nat.div_self l.track_bounds.1]
      have hlast := l.last_le_cylinders (by omega)
      omega
  | wrapped k hbase hroom hk hone hwrapped hplaced =>
    have hle := hsome _ (List.mem_of_getElem? hplaced)
    change 2048 ≤ l.edge n 1 - 2 at hle
    omega

end Layout

def Made.KeepsGeometry (io : Io) (malloc : Nat → Nat → UInt8) (fuel : Nat) (m : Made) : Prop :=
  ∃ next, getBoot m.device malloc io.kernel fuel { m.globals with position := 0 } = .ok (next, 0)
    ∧ next.heads = m.globals.heads ∧ next.sectors = m.globals.sectors

section Main

variable {io : Io} {malloc : Nat → Nat → UInt8} {g : Globals} {fuel bootFuel n : Nat}

theorem Made.Written.keepsGeometry_iff {m : Made} (h : m.Written io (g.nextSectorSize io.kernel))
    (hsize : DEFAULT_SECTOR_SIZE ≤ g.nextSectorSize io.kernel) (hstate : g.sectorSize < 2 ^ 32)
    (hio : io.Succeeds (g.nextSectorSize io.kernel))
    : m.KeepsGeometry io malloc fuel
      ↔ (Layout.measured io.kernel g hsize).Settles (m.globals.bufs 0) := by
  obtain ⟨next, hnext, hbooted⟩ := h.boots hsize hstate hio malloc fuel
  have hheads := hbooted.heads_eq
  have hsectors := hbooted.sectors_eq
  constructor
  . intro ⟨next', hnext', hheads', hsectors'⟩
    rw [hnext] at hnext'
    cases hnext'
    rw [h.heads_eq] at hheads'
    rw [h.sectors_eq] at hsectors'
    exact ⟨hheads.symm.trans hheads', hsectors.symm.trans hsectors'⟩
  . intro ⟨hsettled, hsettled'⟩
    refine ⟨next, hnext, ?_, ?_⟩
    . rw [h.heads_eq]
      exact hheads.trans hsettled
    . rw [h.sectors_eq]
      exact hsectors.trans hsettled'

end Main

end FsBench.Fdisk
