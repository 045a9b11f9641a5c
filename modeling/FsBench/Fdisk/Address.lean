import FsBench.Fdisk.Chs
import FsBench.Fdisk.Search

/-!
This module contains the verification of `set_partition`: what it stores in an entry, primary or
not, is read back as the addresses that it was called with.
-/

namespace FsBench.Fdisk

namespace Hsc

def cylinder (h : Hsc) : Nat := h.cyl.toNat + 256 * (h.sector.toNat / 64)

def trackSector (h : Hsc) : Nat := h.sector.toNat % 64

structure Addresses (heads sectors : Nat) (h : Hsc) (lba : Nat) : Prop where
  head_lt : h.head.toNat < heads
  trackSector_bounds : 1 ≤ h.trackSector ∧ h.trackSector ≤ sectors
  lba_eq : (h.cylinder * heads + h.head.toNat) * sectors + (h.trackSector - 1) = lba

end Hsc

namespace Partition

def startHsc (p : Partition) : Hsc :=
  { head := p.head, sector := p.sector, cyl := p.cyl }

def endHsc (p : Partition) : Hsc :=
  { head := p.endHead, sector := p.endSector, cyl := p.endCyl }

end Partition

section Hsc

variable {heads sectors sector : Nat}

theorem setHsc_cylinder (hsectors : 1 ≤ sectors ∧ sectors ≤ 63)
    (hcyl : sector / sectors / heads < 1024)
    : (setHsc heads sectors sector).cylinder = sector / sectors / heads := by
  -- the two high bits of the cylinder are put in above the sector and nothing else is
  have hlt := Nat.mod_lt sector hsectors.1
  have hhigh : (setHsc heads sectors sector).sector.toNat / 64 = sector / sectors / heads / 256 := by
    simp only [setHsc]
    generalize sector / sectors / heads = cyl at hcyl ⊢
    have hlow : ((sector % sectors + 1) % 2 ^ 8) >>> 6 = 0 := by
      rw [Nat.shiftRight_eq_div_pow]
      omega
    -- of the two bytes that are put together only the second one has bits 6 and 7
    have hbits : ((cyl / 4 % 256 &&& 0xc0) % 2 ^ 8) >>> 6 = cyl / 256 := by
      have hle : cyl / 4 % 256 &&& 0xc0 ≤ 0xc0 := Nat.and_le_right
      have hthree : cyl / 256 &&& 3 = cyl / 256 := by
        rw [Nat.and_two_pow_sub_one_eq_mod (n := 2)]
        omega
      rw [Nat.mod_eq_of_lt (by omega), Nat.shiftRight_and_distrib, Nat.shiftRight_eq_div_pow]
      calc cyl / 4 % 256 / 2 ^ 6 &&& 0xc0 >>> 6
        _ = cyl / 256 &&& 3 := by
          congr 1
          omega
        _ = cyl / 256 := hthree
    change _ / 2 ^ 6 = _
    rw [UInt8.toNat_or, UInt8.toNat_ofNat', UInt8.toNat_ofNat', ← Nat.shiftRight_eq_div_pow,
      Nat.shiftRight_or_distrib, hlow, hbits, Nat.zero_or]
  have hcylByte : (setHsc heads sectors sector).cyl.toNat = sector / sectors / heads % 256 := by
    simp only [setHsc, UInt8.toNat_ofNat']
    omega
  unfold Hsc.cylinder
  rw [hhigh, hcylByte]
  omega

theorem setHsc_addresses (hheads : 1 ≤ heads ∧ heads ≤ 256) (hsectors : 1 ≤ sectors ∧ sectors ≤ 63)
    (hsector : sector < 1024 * heads * sectors)
    : (setHsc heads sectors sector).Addresses heads sectors sector := by
  have hcyl : sector / sectors / heads < 1024 := by
    rw [Nat.div_div_eq_div_mul, Nat.div_lt_iff_lt_mul (Nat.mul_pos hsectors.1 hheads.1)]
    calc sector
      _ < 1024 * heads * sectors := hsector
      _ = 1024 * (sectors * heads) := by ring
  have hhead : (setHsc heads sectors sector).head.toNat = sector / sectors % heads :=
    setHsc_head hheads
  have htrack : (setHsc heads sectors sector).trackSector = sector % sectors + 1 :=
    setHsc_sector hsectors
  have hlt := Nat.mod_lt sector hsectors.1
  refine ⟨?_, ?_, ?_⟩
  . rw [hhead]
    exact Nat.mod_lt _ hheads.1
  . rw [htrack]
    omega
  . rw [setHsc_cylinder hsectors hcyl, hhead, htrack, Nat.add_sub_cancel, Nat.div_add_mod',
      Nat.div_add_mod']

theorem chsLimit_eq_min {g : Globals} (hheads : 1 ≤ g.heads ∧ g.heads ≤ 256)
    (hsectors : 1 ≤ g.sectors ∧ g.sectors ≤ 63)
    : chsLimit g sector = min sector (1024 * g.heads * g.sectors - 1) := by
  have hpos : 1 ≤ g.heads * g.sectors := Nat.mul_pos hheads.1 hsectors.1
  have hlast : 1024 * g.heads * g.sectors = 1024 * (g.heads * g.sectors) := Nat.mul_assoc ..
  rw [chsLimit_eq hheads.2 (by omega) hpos, hlast]
  have hfar : sector / (g.heads * g.sectors) > 1023 ↔ 1024 * (g.heads * g.sectors) ≤ sector :=
    Nat.le_div_iff_mul_le hpos
  split <;> omega

end Hsc

section SetPartition

variable {g : Globals} {i : Nat} {doext : Bool} {pe : Pte} {p : PartPtr}

def Globals.entryOffset (g : Globals) (doext : Bool) (pe : Pte) : Nat :=
  if doext then g.extendedOffset else pe.offset

theorem setPartition_part (start stop : Nat) (sysid : UInt8)
    (hunits : Word.mul 64 g.sectors g.heads ≠ 0) (hpe : g.getPte i = .ok pe)
    (hp : (if doext then pe.extPointer else pe.partTable) = some p)
    : ∃ next, setPartition g i doext start stop sysid = .ok next
        ∧ next.part p = g.newEntry (g.part p) (g.entryOffset doext pe) start stop sysid := by
  have hi : i < MAXIMUM_PARTS := by
    by_contra hlt
    rw [Globals.getPte, if_neg hlt] at hpe
    cases hpe
  simp only [setPartition, hpe, bind, Except.bind, hp, deref, if_neg hunits,
    Globals.setPte_of_lt hi]
  exact ⟨_, rfl, Globals.part_setPart_self⟩

theorem setPartition_addresses (start stop : Nat) (sysid : UInt8)
    (hheads : 1 ≤ g.heads ∧ g.heads ≤ 256) (hsectors : 1 ≤ g.sectors ∧ g.sectors ≤ 63) (hpe : g.getPte i = .ok pe)
    (hp : (if doext then pe.extPointer else pe.partTable) = some p)
    (hle : start ≤ stop) (hstop : stop < 2 ^ 64)
    (hstart : Word.sub 64 start (g.entryOffset doext pe) < 2 ^ 32)
    (hsize : stop - start + 1 < 2 ^ 32)
    : ∃ next, setPartition g i doext start stop sysid = .ok next
        ∧ (next.part p).getStartSect = Word.sub 64 start (g.entryOffset doext pe)
        ∧ (next.part p).getNrSects = stop - start + 1
        ∧ (next.part p).startHsc.Addresses g.heads g.sectors
            (min start (1024 * g.heads * g.sectors - 1))
        ∧ (next.part p).endHsc.Addresses g.heads g.sectors
            (min stop (1024 * g.heads * g.sectors - 1)) := by
  have hproduct : g.sectors * g.heads ≤ 63 * 256 := Nat.mul_le_mul hsectors.2 hheads.2
  have hpos : 1 ≤ 1024 * g.heads * g.sectors :=
    Nat.mul_pos (Nat.mul_pos (by decide) hheads.1) hsectors.1
  have hunits : Word.mul 64 g.sectors g.heads ≠ 0 := by
    rw [Word.mul_of_lt (by omega)]
    exact Nat.ne_of_gt (Nat.mul_pos hsectors.1 hheads.1)
  obtain ⟨next, hnext, hpart⟩ := setPartition_part start stop sysid hunits hpe hp
  refine ⟨next, hnext, ?_, ?_, ?_, ?_⟩
  . rw [hpart, Globals.newEntry_getStartSect, Nat.mod_eq_of_lt hstart]
  . rw [hpart, Globals.newEntry_getNrSects, Word.sub_of_le hle hstop, Word.add_of_lt (by omega),
      Nat.mod_eq_of_lt hsize]
  . rw [hpart]
    change (setHsc g.heads g.sectors (chsLimit g start)).Addresses _ _ _
    rw [chsLimit_eq_min hheads hsectors]
    exact setHsc_addresses hheads hsectors (by omega)
  . rw [hpart]
    change (setHsc g.heads g.sectors (chsLimit g stop)).Addresses _ _ _
    rw [chsLimit_eq_min hheads hsectors]
    exact setHsc_addresses hheads hsectors (by omega)

theorem setPartition_addresses_far
    : ∃ next, setPartition { getBoot.setUp .initial with heads := 255, sectors := 63 } 1 false 2048
          20000000 WIN95_FAT32_LBA = .ok next
        ∧ (next.part ⟨0, 1⟩).getStartSect = Word.sub 64 2048 0
        ∧ (next.part ⟨0, 1⟩).getNrSects = 20000000 - 2048 + 1
        ∧ (next.part ⟨0, 1⟩).startHsc.Addresses 255 63 (min 2048 (1024 * 255 * 63 - 1))
        ∧ (next.part ⟨0, 1⟩).endHsc.Addresses 255 63 (min 20000000 (1024 * 255 * 63 - 1)) :=
  have hpe : ({ getBoot.setUp .initial with heads := 255, sectors := 63 } : Globals).getPte 1
      = .ok ((getBoot.setUp .initial).ptes 1) := rfl
  setPartition_addresses 2048 20000000 WIN95_FAT32_LBA (by decide) (by decide) hpe
    rfl (by decide) (by decide) (by decide) (by decide)

end SetPartition

end FsBench.Fdisk
