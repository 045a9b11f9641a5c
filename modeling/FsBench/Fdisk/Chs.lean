import FsBench.Fdisk.Layout
import FsBench.Fdisk.Make

/-!
This module contains what the end of an entry, told as a head and a sector, gives away about the
geometry that it was made with.
-/

namespace FsBench.Fdisk

section Hsc

variable {heads sectors sector : Nat} {g : Globals}

theorem setHsc_head (hheads : 1 ≤ heads ∧ heads ≤ 256)
    : (setHsc heads sectors sector).head.toNat = sector / sectors % heads := by
  have hlt := Nat.mod_lt (sector / sectors) hheads.1
  simp only [setHsc, UInt8.toNat_ofNat']
  omega

theorem setHsc_sector (hsectors : 1 ≤ sectors ∧ sectors ≤ 63)
    : (setHsc heads sectors sector).sector.toNat % 64 = sector % sectors + 1 := by
  have hlt := Nat.mod_lt sector hsectors.1
  have hlow : ∀ n, (n % 256 &&& 0xc0) % 2 ^ 8 % 2 ^ 6 = 0 := by
    intro n
    rw [Nat.mod_mod_of_dvd _ (by decide), Nat.and_mod_two_pow]
    exact Nat.and_zero _
  change _ % 2 ^ 6 = _
  simp only [setHsc, UInt8.toNat_or, UInt8.toNat_ofNat', Nat.or_mod_two_pow, hlow, Nat.or_zero]
  omega

theorem chsLimit_eq (hheads : g.heads ≤ 256) (hsectors : g.sectors ≤ 255)
    (hpos : 1 ≤ g.heads * g.sectors)
    : chsLimit g sector
      = if sector / (g.heads * g.sectors) > 1023 then g.heads * g.sectors * 1024 - 1 else sector := by
  have hle : g.heads * g.sectors ≤ 256 * 255 := Nat.mul_le_mul hheads hsectors
  have hunits : Word.mul 64 g.sectors g.heads = g.heads * g.sectors := by
    rw [Word.mul_of_lt (by rw [Nat.mul_comm]; omega), Nat.mul_comm]
  have hlast : Word.sub 64 (Word.mul 64 (Word.mul 64 g.heads g.sectors) 1024) 1
      = g.heads * g.sectors * 1024 - 1 := by
    rw [Word.mul_of_lt (a := g.heads) (by omega), Word.mul_of_lt (by omega),
      Word.sub_of_le (by omega) (by omega)]
  unfold chsLimit
  rw [hunits, hlast]
  simp only [dosCompatibleFlag, true_and]

end Hsc

namespace Layout

variable {l : Layout} {c stop : Nat}

/--
The heads and sectors that an entry tells which ends at sector `stop`: those of its last sector, or
of the last sector of cylinder 1023.
-/
def told (l : Layout) (stop : Nat) : Nat × Nat :=
  let sector := if stop / l.units > 1023 then l.units * 1024 - 1 else stop
  (sector / l.track % l.heads + 1, sector % l.track + 1)

theorem told_of_far (h : stop / l.units > 1023) : l.told stop = (l.heads, l.track) := by
  have hheads := l.heads_bounds
  have htrack := l.track_bounds
  have hmul : l.units * 1024 = 1024 * l.heads * l.track := by
    unfold units
    ring
  obtain ⟨hdiv, hmod⟩ := mul_sub_div_mod (c := 1024 * l.heads) (m := l.track) (r := 1) (by omega)
    (by omega)
  obtain ⟨_, hhead⟩ := mul_sub_div_mod (c := 1024) (m := l.heads) (r := 1) (by omega) (by omega)
  unfold told
  rw [if_pos h, hmul]
  dsimp only
  rw [hdiv, hmod, hhead, Nat.sub_add_cancel hheads.1, Nat.sub_add_cancel htrack.1]

theorem told_of_near (hunits : l.units ≠ 1) (hc : 1 ≤ c) (h : c ≤ 1024)
    : l.told (c * l.units - 2)
      = if l.track = 1 then (l.heads - 1, 1) else (l.heads, l.track - 1) := by
  have hheads := l.heads_bounds
  have htrack := l.track_bounds
  have hbounds := l.units_bounds
  obtain ⟨hcyl, _⟩ := mul_sub_div_mod (m := l.units) (r := 2) hc (by omega)
  unfold told
  rw [if_neg (by omega)]
  dsimp only
  split
  . next hone =>
    have hunits' : l.units = l.heads := by
      unfold units
      rw [hone, Nat.mul_one]
    obtain ⟨_, hhead⟩ := mul_sub_div_mod (m := l.heads) (r := 2) hc (by omega)
    rw [hone, hunits', Nat.div_one, hhead, Nat.mod_one]
    congr 1
    omega
  . have hmul : c * l.units = c * l.heads * l.track := by
      unfold units
      ring
    have hpos : 1 ≤ c * l.heads := Nat.mul_pos hc hheads.1
    obtain ⟨hdiv, hmod⟩ := mul_sub_div_mod (m := l.track) (r := 2) hpos (by omega)
    obtain ⟨_, hhead⟩ := mul_sub_div_mod (m := l.heads) (r := 1) hc (by omega)
    rw [hmul, hdiv, hmod, hhead]
    congr 1 <;> omega

end Layout

end FsBench.Fdisk
