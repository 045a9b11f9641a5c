import FsBench.Fdisk.Sector
import Mathlib.Tactic.Ring
import Mathlib.Data.Nat.Basic

/-!
This module contains the arithmetic of a layout in cylinders: where each of `n` partitions starts
and stops when the cylinders of a device are shared out among them.
-/

namespace FsBench.Fdisk

theorem mul_sub_div_mod {c m r : Nat} (hc : 1 ≤ c) (hr : 1 ≤ r ∧ r ≤ m)
    : (c * m - r) / m = c - 1 ∧ (c * m - r) % m = m - r := by
  obtain ⟨c, rfl⟩ := Nat.exists_eq_add_of_le' hc
  have hsplit : (c + 1) * m - r = m - r + m * c := by
    rw [Nat.succ_mul, Nat.mul_comm]
    omega
  have hlt : m - r < m := by omega
  rw [hsplit, Nat.add_mul_div_left _ _ (by omega), Nat.add_mul_mod_self_left,
    Nat.div_eq_of_lt hlt, Nat.mod_eq_of_lt hlt]
  exact ⟨by omega, rfl⟩

/--
The geometry of a device of `total` sectors of 512 bytes: `track` sectors in a track, and `secFac`
times 512 bytes in a sector.
-/
structure Layout where
  heads : Nat
  track : Nat
  secFac : Nat
  total : Nat
  heads_bounds : 1 ≤ heads ∧ heads ≤ 255
  track_bounds : 1 ≤ track ∧ track ≤ 255
  secFac_pos : 1 ≤ secFac

namespace Layout

variable (l : Layout) (n i : Nat)

def units : Nat := l.heads * l.track

def sectors : Nat := l.total / l.secFac

def cylinders : Nat := min (l.total / (l.units * l.secFac)) (2 ^ 32 - 1)

/-- The first sector of the last cylinder below `2 ^ 32`, the bound of an unused entry. -/
def unused : Nat := (2 ^ 32 - 1) / l.units * l.units

/-- The number of cylinders that the search may use; on a device of none it is not limited. -/
def last : Nat :=
  if l.cylinders = 0 then
    (2 ^ 32 - 1) / l.units
  else
    min l.cylinders ((2 ^ 32 - 1) / l.units)

/-- The cylinder, counted from 1, with the sector at which the first search starts. -/
def base : Nat := l.track / l.units + 1

def partCyls : Nat := l.cylinders / n

def share : Nat :=
  if i + 1 < n then l.partCyls n else l.cylinders - l.partCyls n * (n - 1)

/-- The cylinder behind which partition `i` comes. -/
def boundary : Nat :=
  if i < n then min (l.base + i * l.partCyls n) l.last else min (l.base + l.cylinders) l.last

def edge : Nat := l.boundary n i * l.units

def start : Nat := if i = 0 then 2048 else l.edge n i - 1

def stop : Nat := l.edge n (i + 1) - 2

/--
The first partition fits the cylinders before its edge and the others get a cylinder at least.
-/
def Sound : Prop :=
  (1 ≤ l.cylinders ∨ l.units - 1 ≤ l.sectors)
    ∧ 2050 ≤ min (l.base + l.partCyls n) l.last * l.units
    ∧ (n = 1 ∨ (1 ≤ l.partCyls n ∧ l.base + (n - 1) * l.partCyls n < l.last))

/--
The edges of the cylinders lie on 4096 bytes, one sector later.
-/
def Aligned : Prop :=
  n = 1 ∨ (l.base + l.partCyls n) * l.units ≤ 2048
    ∨ 8 ∣ ((l.base + l.partCyls n) * l.units - 1) * l.secFac
      ∧ (n ≤ 2 ∨ 8 ∣ l.partCyls n * l.units * l.secFac)

variable {l} {n i} {j : Nat}

theorem units_bounds : 1 ≤ l.units ∧ l.units ≤ 65025 := by
  have hpos : 0 < l.heads * l.track := Nat.mul_pos l.heads_bounds.1 l.track_bounds.1
  have hle : l.heads * l.track ≤ 255 * 255 := Nat.mul_le_mul l.heads_bounds.2 l.track_bounds.2
  unfold units
  omega

theorem track_le_units : l.track ≤ l.units :=
  Nat.le_mul_of_pos_left _ l.heads_bounds.1

theorem base_bounds : 1 ≤ l.base ∧ l.base ≤ 2 := by
  have hle : l.track / l.units ≤ 1 := by
    apply Nat.div_le_of_le_mul
    rw [Nat.mul_one]
    exact track_le_units
  exact ⟨Nat.succ_pos _, Nat.succ_le_succ hle⟩

theorem track_lt_base_mul : l.track < l.base * l.units := by
  have hlt := Nat.lt_div_mul_add (a := l.track) (b := l.units) units_bounds.1
  unfold base
  rw [Nat.succ_mul]
  exact hlt

theorem cylinders_lt : l.cylinders < 2 ^ 32 := by
  unfold cylinders
  omega

theorem cylinders_mul_le : l.cylinders * l.units ≤ l.sectors := by
  have hmul : l.cylinders * l.units ≤ l.total / (l.units * l.secFac) * l.units :=
    Nat.mul_le_mul_right _ (Nat.min_le_left ..)
  have hdiv : l.total / (l.units * l.secFac) = l.total / l.secFac / l.units := by
    rw [Nat.div_div_eq_div_mul, Nat.mul_comm]
  rw [hdiv] at hmul
  exact Nat.le_trans hmul (Nat.div_mul_le_self ..)

theorem unused_bounds : 2 ^ 32 - 65536 ≤ l.unused ∧ l.unused < 2 ^ 32 := by
  have hunits := l.units_bounds
  have hle : l.unused ≤ 2 ^ 32 - 1 := Nat.div_mul_le_self ..
  have hlt : 2 ^ 32 - 1 < l.unused + l.units := Nat.lt_div_mul_add hunits.1
  omega

theorem last_mul_le : l.last * l.units ≤ l.unused := by
  apply Nat.mul_le_mul_right
  unfold last
  split
  . exact Nat.le_refl _
  . exact Nat.min_le_right ..

theorem one_le_last : 1 ≤ l.last := by
  have hunits := l.units_bounds
  have hdiv : 1 ≤ (2 ^ 32 - 1) / l.units := by
    rw [Nat.one_le_div_iff (by omega)]
    omega
  unfold last
  split <;> omega

theorem boundary_le : l.boundary n i ≤ l.last := by
  unfold boundary
  split <;> exact Nat.min_le_right ..

theorem edge_le : l.edge n i ≤ l.last * l.units :=
  Nat.mul_le_mul_right _ boundary_le

theorem edge_lt : l.edge n i < 2 ^ 32 :=
  Nat.lt_of_le_of_lt (Nat.le_trans edge_le last_mul_le) unused_bounds.2

theorem last_lt : l.last < 2 ^ 32 := by
  calc l.last
    _ ≤ l.last * l.units := Nat.le_mul_of_pos_right _ units_bounds.1
    _ ≤ l.unused := last_mul_le
    _ < 2 ^ 32 := unused_bounds.2

theorem mul_share_le (hi : i < n) : i * l.partCyls n ≤ l.cylinders := by
  calc i * l.partCyls n
    _ ≤ n * l.partCyls n := Nat.mul_le_mul_right _ (Nat.le_of_lt hi)
    _ ≤ l.cylinders := Nat.mul_div_le ..

theorem share_le : l.share n i ≤ l.cylinders := by
  unfold share
  split
  . exact Nat.div_le_self ..
  . exact Nat.sub_le ..

theorem boundary_succ (hi : i < n)
    : l.boundary n (i + 1) = min (l.boundary n i + l.share n i) l.last := by
  have hmul := l.mul_share_le hi
  unfold boundary share
  rw [if_pos hi]
  split
  . rw [Nat.succ_mul]
    omega
  . obtain rfl : n = i + 1 := by omega
    rw [Nat.add_sub_cancel, Nat.mul_comm _ i]
    omega

theorem boundary_zero (hn : 0 < n) (hbase : l.base ≤ l.last) : l.boundary n 0 = l.base := by
  unfold boundary
  rw [if_pos hn, Nat.zero_mul, Nat.add_zero, Nat.min_eq_left hbase]

theorem boundary_le_succ (hi : i < n) : l.boundary n i ≤ l.boundary n (i + 1) := by
  have hle := l.boundary_le (n := n) (i := i)
  rw [boundary_succ hi]
  omega

theorem edge_le_succ (hi : i < n) : l.edge n i ≤ l.edge n (i + 1) :=
  Nat.mul_le_mul_right _ (boundary_le_succ hi)

theorem edge_mono (hij : i ≤ j) (hj : j ≤ n) : l.edge n i ≤ l.edge n j := by
  induction hij with
  | refl => exact Nat.le_refl _
  | step _ ih => exact Nat.le_trans (ih (by omega)) (edge_le_succ (by omega))

theorem two_le_edge (hi : i ≤ n) (hn : 0 < n) (hbase : l.base ≤ l.last) : 2 ≤ l.edge n i := by
  have htrack := l.track_bounds.1
  have hlt := l.track_lt_base_mul
  have hmono := l.edge_mono (Nat.zero_le i) hi
  have hzero : l.edge n 0 = l.base * l.units := by
    unfold edge
    rw [boundary_zero hn hbase]
  omega

theorem boundary_one (hn : 0 < n) : l.boundary n 1 = min (l.base + l.partCyls n) l.last := by
  unfold boundary
  split
  . rw [Nat.one_mul]
  . obtain rfl : n = 1 := by omega
    unfold partCyls
    rw [Nat.div_one]

theorem cylinders_mul_lt (hn : 0 < n ∧ n ≤ 4) (hpos : 1 ≤ l.cylinders)
    (hroom : l.edge n 1 < 2049) : l.cylinders * l.units < 2 ^ 32 := by
  have hunits := l.units_bounds
  have hunused := l.unused_bounds
  unfold edge at hroom
  rw [boundary_one hn.1] at hroom
  cases Nat.le_total l.last (l.base + l.partCyls n) with
  | inl hle =>
    rw [Nat.min_eq_right hle] at hroom
    unfold last at hroom
    rw [if_neg (by omega), ← Nat.mul_min_mul_right] at hroom
    change min _ l.unused < 2049 at hroom
    omega
  | inr hle =>
    rw [Nat.min_eq_left hle, Nat.add_mul] at hroom
    have hdiv : l.cylinders < n * (l.partCyls n + 1) := Nat.lt_mul_div_succ _ hn.1
    have hmul : n * (l.partCyls n + 1) ≤ 4 * (l.partCyls n + 1) := Nat.mul_le_mul_right _ hn.2
    calc l.cylinders * l.units
      _ ≤ (4 * (l.partCyls n + 1)) * l.units := Nat.mul_le_mul_right _ (by omega)
      _ = 4 * (l.partCyls n * l.units) + 4 * l.units := by ring
      _ < 2 ^ 32 := by omega

theorem boundary_of_zero (hzero : l.cylinders = 0) (hbase : l.base ≤ l.last)
    : l.boundary n i = l.base := by
  have hpart : l.partCyls n = 0 := by
    unfold partCyls
    rw [hzero, Nat.zero_div]
  unfold boundary
  rw [hpart, hzero, Nat.mul_zero, Nat.add_zero, Nat.min_eq_left hbase, ite_self]

theorem edge_one (hn : 0 < n) : l.edge n 1 = min (l.base + l.partCyls n) l.last * l.units := by
  unfold edge
  rw [boundary_one hn]

theorem last_le_cylinders (hpos : 1 ≤ l.cylinders) : l.last ≤ l.cylinders := by
  unfold last
  rw [if_neg (by omega)]
  exact Nat.min_le_left ..

theorem units_le_of_base (hbase : l.base ≠ 1) : l.units ≤ 255 := by
  have hdiv : 1 ≤ l.track / l.units := by
    apply Nat.one_le_iff_ne_zero.mpr
    intro hzero
    apply hbase
    unfold base
    rw [hzero]
  calc l.units
    _ = 1 * l.units := (Nat.one_mul _).symm
    _ ≤ l.track / l.units * l.units := Nat.mul_le_mul_right _ hdiv
    _ ≤ l.track := Nat.div_mul_le_self ..
    _ ≤ 255 := l.track_bounds.2

theorem base_eq_one (hroom : 2050 ≤ l.base * l.units) : l.base = 1 := by
  by_contra hne
  have hunits := units_le_of_base hne
  have hmul : l.base * l.units ≤ 2 * l.units := Nat.mul_le_mul_right _ base_bounds.2
  omega

theorem boundary_lt_succ (hi : i < n) (hlt : l.boundary n i < l.last) (hshare : 1 ≤ l.share n i)
    : l.boundary n i < l.boundary n (i + 1) := by
  rw [boundary_succ hi]
  omega

theorem one_le_share (hi : i < n) (hpart : 1 ≤ l.partCyls n) : 1 ≤ l.share n i := by
  unfold share
  split
  . exact hpart
  . obtain rfl : n = i + 1 := by omega
    have hmul : (i + 1) * l.partCyls (i + 1) ≤ l.cylinders := Nat.mul_div_le ..
    rw [Nat.succ_mul] at hmul
    rw [Nat.add_sub_cancel, Nat.mul_comm _ i]
    omega

theorem inside_iff (hbase : l.base ≤ l.last) (hroom : 2050 ≤ l.edge n 1)
    : (1 ≤ l.cylinders ∨ l.units - 1 ≤ l.sectors) ↔ l.edge n n - 1 ≤ l.sectors := by
  by_cases hzero : l.cylinders = 0
  . have hone : l.base = 1 := by
      apply base_eq_one
      unfold edge at hroom
      rw [boundary_of_zero hzero hbase] at hroom
      exact hroom
    have hedge : l.edge n n = l.units := by
      unfold edge
      rw [boundary_of_zero hzero hbase, hone, Nat.one_mul]
    rw [hedge]
    omega
  . have hpos := Nat.pos_of_ne_zero hzero
    have hle := l.edge_le (n := n) (i := n)
    have hlast := Nat.mul_le_mul_right l.units (last_le_cylinders hpos)
    have hdevice := l.cylinders_mul_le
    exact iff_of_true (.inl hpos) (by omega)

theorem increasing_iff (hn : 0 < n)
    : (n = 1 ∨ (1 ≤ l.partCyls n ∧ l.base + (n - 1) * l.partCyls n < l.last))
      ↔ ∀ i, 0 < i → i < n → l.boundary n i < l.boundary n (i + 1) := by
  constructor
  . intro hshares i hi hlt
    obtain ⟨hpart, hlast⟩ := hshares.resolve_left (by omega)
    have hmul : i * l.partCyls n ≤ (n - 1) * l.partCyls n := Nat.mul_le_mul_right _ (by omega)
    apply boundary_lt_succ hlt _ (one_le_share hlt hpart)
    unfold boundary
    rw [if_pos hlt]
    omega
  . intro hincreasing
    by_cases hone : n = 1
    . exact .inl hone
    . right
      have hlast := hincreasing (n - 1) (by omega) (by omega)
      have hbound := l.boundary_le (n := n) (i := n - 1 + 1)
      have hlt : l.base + (n - 1) * l.partCyls n < l.last := by
        unfold boundary at hlast hbound
        rw [if_pos (by omega)] at hlast
        omega
      refine ⟨?_, hlt⟩
      -- without cylinders to share out the second partition gets what is left of fewer than `n`
      by_contra hpart
      obtain hpart : l.partCyls n = 0 := by omega
      have hone := hincreasing 1 Nat.one_pos (by omega)
      rw [boundary_succ (i := 1) (by omega)] at hone
      rw [hpart, Nat.mul_zero, Nat.add_zero] at hlt
      by_cases htwo : 1 + 1 < n
      . have hshare : l.share n 1 = 0 := by
          unfold share
          rw [if_pos htwo, hpart]
        omega
      . obtain rfl : n = 2 := by omega
        have hcylinders : l.cylinders < 2 * (l.partCyls 2 + 1) :=
          Nat.lt_mul_div_succ _ Nat.two_pos
        have hshare := l.share_le (n := 2) (i := 1)
        have hlast := l.last_le_cylinders (by omega)
        have hpos := l.base_bounds.1
        omega

theorem sound_iff (hn : 0 < n) (hbase : l.base ≤ l.last)
    : l.Sound n ↔ 2050 ≤ l.edge n 1
        ∧ (∀ i, 0 < i → i < n → l.boundary n i < l.boundary n (i + 1))
        ∧ l.edge n n - 1 ≤ l.sectors := by
  unfold Sound
  rw [← edge_one hn, increasing_iff hn]
  constructor
  . intro ⟨hdevice, hroom, hincreasing⟩
    exact ⟨hroom, hincreasing, (inside_iff hbase hroom).mp hdevice⟩
  . intro ⟨hroom, hincreasing, hinside⟩
    exact ⟨(inside_iff hbase hroom).mpr hinside, hroom, hincreasing⟩

theorem fits_of_sectors (hsectors : l.sectors < 2 ^ 32) : l.cylinders * l.units ≤ l.unused := by
  apply Nat.mul_le_mul_right
  rw [Nat.le_div_iff_mul_le units_bounds.1]
  have := l.cylinders_mul_le
  omega

section Large

variable (hcylinders : 2 * n ≤ l.cylinders) (hfits : l.cylinders * l.units ≤ l.unused)

include hfits in
theorem last_eq (hpos : 1 ≤ l.cylinders) : l.last = l.cylinders := by
  have hle : l.cylinders ≤ (2 ^ 32 - 1) / l.units := Nat.le_of_mul_le_mul_right hfits units_bounds.1
  unfold last
  rw [if_neg (by omega), Nat.min_eq_left hle]

include hcylinders hfits in
theorem base_le_last (hn : 0 < n) : l.base ≤ l.last := by
  have hbase := l.base_bounds
  rw [last_eq hfits (by omega)]
  omega

include hcylinders in
theorem two_le_partCyls (hn : 0 < n) : 2 ≤ l.partCyls n := by
  unfold partCyls
  rw [Nat.le_div_iff_mul_le hn]
  exact hcylinders

include hcylinders hfits in
theorem boundary_eq (hi : i < n) : l.boundary n i = l.base + i * l.partCyls n := by
  have hbase := l.base_bounds
  have hpart := two_le_partCyls hcylinders (by omega)
  have hle : l.base + i * l.partCyls n ≤ l.cylinders := by
    calc l.base + i * l.partCyls n
      _ ≤ l.partCyls n + i * l.partCyls n := by omega
      _ = (i + 1) * l.partCyls n := by ring
      _ ≤ n * l.partCyls n := Nat.mul_le_mul_right _ hi
      _ ≤ l.cylinders := Nat.mul_div_le ..
  unfold boundary
  rw [if_pos hi, last_eq hfits (by omega), Nat.min_eq_left hle]

include hcylinders hfits in
theorem edge_add (hi : i + 1 < n)
    : (l.edge n (i + 1) - 1) * l.secFac
      = (l.edge n 1 - 1) * l.secFac + i * (l.partCyls n * l.units * l.secFac) := by
  have hpos := l.two_le_edge (n := n) (i := 1) (by omega) (by omega)
    (base_le_last hcylinders hfits (by omega))
  have hedge : l.edge n (i + 1) = l.edge n 1 + i * (l.partCyls n * l.units) := by
    unfold edge
    rw [boundary_eq hcylinders hfits hi, boundary_eq hcylinders hfits (by omega)]
    ring
  have hsub : l.edge n (i + 1) - 1 = l.edge n 1 - 1 + i * (l.partCyls n * l.units) := by omega
  rw [hsub]
  ring

include hcylinders hfits in
theorem partCyls_mul_le_edge (hn : 0 < n) : l.partCyls n * l.units ≤ l.edge n 1 := by
  apply Nat.mul_le_mul_right
  have hle : l.partCyls n ≤ l.cylinders := Nat.div_le_self ..
  rw [boundary_one hn, last_eq hfits (by omega)]
  omega

include hcylinders in
theorem base_lt_partCyls (hn : 0 < n) (hroom : 2050 < l.partCyls n * l.units)
    : l.base < l.partCyls n := by
  have hbase := l.base_bounds
  have hpart := two_le_partCyls hcylinders hn
  by_cases hone : l.base = 1
  . omega
  . have hunits := units_le_of_base hone
    by_contra hle
    have hmul : l.partCyls n * l.units ≤ 2 * 255 := Nat.mul_le_mul (by omega) hunits
    omega

include hcylinders hfits in
theorem boundary_increasing (hi : i < n) (hroom : 2050 < l.partCyls n * l.units)
    : l.boundary n i < l.boundary n (i + 1) := by
  have hbase := base_lt_partCyls hcylinders (by omega) hroom
  apply boundary_lt_succ hi _ (one_le_share hi (by omega))
  rw [boundary_eq hcylinders hfits hi, last_eq hfits (by omega)]
  calc l.base + i * l.partCyls n
    _ < l.partCyls n + i * l.partCyls n := Nat.add_lt_add_right hbase _
    _ = (i + 1) * l.partCyls n := by ring
    _ ≤ n * l.partCyls n := Nat.mul_le_mul_right _ hi
    _ ≤ l.cylinders := Nat.mul_div_le ..

include hfits in
theorem edge_last (hpos : 1 ≤ l.cylinders) : l.edge n n = l.cylinders * l.units := by
  unfold edge boundary
  rw [if_neg (Nat.lt_irrefl n), last_eq hfits hpos, Nat.min_eq_right (Nat.le_add_left ..)]

include hcylinders hfits in
theorem aligned_iff (hn : 0 < n) (hroom : 2049 ≤ l.edge n 1)
    : l.Aligned n ↔ ∀ i, i < n → 8 ∣ l.start n i * l.secFac := by
  have hfirst : 8 ∣ 2048 * l.secFac := Nat.dvd_mul_right_of_dvd (by decide) _
  by_cases hone : n = 1
  . refine iff_of_true (.inl hone) ?_
    intro i hi
    obtain rfl : i = 0 := by omega
    exact hfirst
  . have hedge : l.edge n 1 = (l.base + l.partCyls n) * l.units := by
      unfold edge
      rw [boundary_eq hcylinders hfits (by omega), Nat.one_mul]
    unfold Aligned
    rw [← hedge]
    constructor
    . intro h i hi
      obtain ⟨hsecond, hrest⟩ := (h.resolve_left hone).resolve_left (by omega)
      match i with
      | 0 => exact hfirst
      | i + 1 =>
        change 8 ∣ (l.edge n (i + 1) - 1) * l.secFac
        rw [edge_add hcylinders hfits hi]
        apply Nat.dvd_add hsecond
        cases i with
        | zero =>
          rw [Nat.zero_mul]
          exact Nat.dvd_zero 8
        | succ i => exact Nat.dvd_mul_left_of_dvd (hrest.resolve_left (by omega)) _
    . intro h
      have hsecond : 8 ∣ (l.edge n 1 - 1) * l.secFac := h 1 (by omega)
      refine .inr (.inr ⟨hsecond, ?_⟩)
      by_cases htwo : n ≤ 2
      . exact .inl htwo
      . right
        have hthird : 8 ∣ (l.edge n (1 + 1) - 1) * l.secFac := h 2 (by omega)
        rw [edge_add hcylinders hfits (by omega), Nat.one_mul] at hthird
        exact (Nat.dvd_add_right hsecond).mp hthird

end Large

end Layout

end FsBench.Fdisk
