import FsBench.Fdisk.State

/-!
The size and geometry of the device: fdisk/blkdev.c and `get_geometry` of fdisk/fdisk.c.
-/

namespace FsBench.Fdisk

/--
Kernels 2.4.15-2.4.17 had a broken BLKGETSIZE64.
-/
def blkdevGetSize (k : Kernel) : Option Nat :=
  let old := k.blkgetsize.map fun size => Word.mul 64 size 512
  if KERNEL_VERSION 2 6 0 ≤ k.version
      ∨ (KERNEL_VERSION 2 4 18 ≤ k.version ∧ k.version < KERNEL_VERSION 2 5 0) then
    match k.blkgetsize64 with
    | some bytes => some (Word.trunc 64 bytes)
    | none => old
  else
    old

def blkdevGetSectors (k : Kernel) : Option Nat :=
  (blkdevGetSize k).map (· / 512)

def blkdevGetSectorSize (k : Kernel) : Option Nat :=
  if k.version < KERNEL_VERSION 2 3 3 then some DEFAULT_SECTOR_SIZE else k.blksszget

def getSectorsize (k : Kernel) (g : Globals) : Globals :=
  match blkdevGetSectorSize k with
  | some arg => { g with sectorSize := Word.trunc 32 arg }
  | none => g

def getKernelGeometry (k : Kernel) (g : Globals) : Globals :=
  match k.hdioGetgeo with
  | some (heads, sectors) => { g with kernHeads := heads.toNat, kernSectors := sectors.toNat }
  | none => g

namespace getPartitionTableGeometry

structure Seen where
  hh : Nat
  ss : Nat
  first : Bool
  bad : Bool

def look (seen : Seen) (p : Partition) : Seen :=
  if p.sysInd = 0 then
    seen
  else
    let h := p.endHead.toNat + 1
    let s := p.endSector.toNat % 64
    if seen.first then
      { seen with hh := h, ss := s, first := false }
    else if seen.hh ≠ h ∨ seen.ss ≠ s then
      { seen with bad := true }
    else
      seen

end getPartitionTableGeometry

open getPartitionTableGeometry in
def getPartitionTableGeometry (g : Globals) : Globals :=
  let bufp := g.bufs 0
  if validPartTableFlag bufp then
    let seen := [0, 1, 2, 3].foldl (fun seen i => look seen (bufp.entries i))
      { hh := 0, ss := 0, first := true, bad := false }
    if seen.first = false ∧ seen.bad = false then
      { g with ptHeads := seen.hh, ptSectors := seen.ss }
    else
      g
  else
    g

def getGeometry (k : Kernel) (g : Globals) : Result Globals :=
  let g := getSectorsize k g
  let secFac := g.sectorSize / 512
  let g :=
    { g with
      heads := 0, cylinders := 0, sectors := 0, kernHeads := 0, kernSectors := 0, ptHeads := 0,
      ptSectors := 0 }
  let g := getKernelGeometry k g
  let g := getPartitionTableGeometry g
  let heads := if g.ptHeads ≠ 0 then g.ptHeads else if g.kernHeads ≠ 0 then g.kernHeads else 255
  let sectors :=
    if g.ptSectors ≠ 0 then g.ptSectors else if g.kernSectors ≠ 0 then g.kernSectors else 63
  let total := (blkdevGetSectors k).getD 0
  let sectorOffset := if dosCompatibleFlag then sectors else 1
  let divisor := Word.mul 64 (Word.mul 64 heads sectors) secFac
  if divisor = 0 then
    .error .divisionByZero
  else
    let llcyls := total / divisor
    let cylinders := if Word.trunc 32 llcyls ≠ llcyls then 2 ^ 32 - 1 else llcyls
    .ok { g with heads, sectors, totalNumberOfSectors := total, sectorOffset, cylinders }

def updateUnits (g : Globals) : Globals :=
  let cylUnits := Word.trunc 32 (Word.mul 64 g.heads g.sectors)
  if displayInCylUnits ∧ cylUnits ≠ 0 then
    { g with unitsPerSector := cylUnits }
  else
    { g with unitsPerSector := 1 }

/--
What a kernel says about an MMC card: 64 sectors a cylinder.
-/
def Kernel.mmc (sectorSize bytes : Nat) : Kernel where
  version := KERNEL_VERSION 4 9 0
  blksszget := some sectorSize
  hdioGetgeo := some (4, 16)
  blkgetsize64 := some bytes
  blkgetsize := none

def Globals.nextSectorSize (k : Kernel) (g : Globals) : Nat :=
  (getSectorsize k g).sectorSize

structure Globals.SameTables (g next : Globals) : Prop where
  bufs_eq : next.bufs = g.bufs
  allocated_eq : next.allocated = g.allocated
  position_eq : next.position = g.position
  ptes_eq : next.ptes = g.ptes
  extIndex_eq : next.extIndex = g.extIndex
  partitions_eq : next.partitions = g.partitions
  extendedOffset_eq : next.extendedOffset = g.extendedOffset

def kernelHeads (k : Kernel) : Nat :=
  match k.hdioGetgeo with
  | some (heads, _) => if heads.toNat ≠ 0 then heads.toNat else 255
  | none => 255

def kernelSectors (k : Kernel) : Nat :=
  match k.hdioGetgeo with
  | some (_, sectors) => if sectors.toNat ≠ 0 then sectors.toNat else 63
  | none => 63

/-- The heads and sectors that an entry tells by its end. -/
def Partition.told (p : Partition) : Nat × Nat :=
  (p.endHead.toNat + 1, p.endSector.toNat % 64)

open getPartitionTableGeometry in
def Buffer.seen (b : Buffer) : Seen :=
  [0, 1, 2, 3].foldl (fun seen i => look seen (b.entries i))
    { hh := 0, ss := 0, first := true, bad := false }

/--
The heads and sectors that the table tells, 0 when there is none or when its entries disagree.
-/
def Buffer.geometry (b : Buffer) : Nat × Nat :=
  if validPartTableFlag b ∧ b.seen.first = false ∧ b.seen.bad = false then
    (b.seen.hh, b.seen.ss)
  else
    (0, 0)

def settledHeads (k : Kernel) (b : Buffer) : Nat :=
  if b.geometry.1 ≠ 0 then b.geometry.1 else kernelHeads k

def settledSectors (k : Kernel) (b : Buffer) : Nat :=
  if b.geometry.2 ≠ 0 then b.geometry.2 else kernelSectors k

def Kernel.geoHeads (k : Kernel) : Nat :=
  match k.hdioGetgeo with
  | some (heads, _) => heads.toNat
  | none => 0

def Kernel.geoSectors (k : Kernel) : Nat :=
  match k.hdioGetgeo with
  | some (_, sectors) => sectors.toNat
  | none => 0

structure Globals.Measured (k : Kernel) (g next : Globals) : Prop where
  same : g.SameTables next
  sectorSize_eq : next.sectorSize = g.nextSectorSize k
  heads_eq : next.heads = settledHeads k (g.bufs 0)
  sectors_eq : next.sectors = settledSectors k (g.bufs 0)
  heads_bounds : 1 ≤ next.heads ∧ next.heads ≤ 256
  sectors_bounds : 1 ≤ next.sectors ∧ next.sectors ≤ 255
  sectorOffset_eq : next.sectorOffset = next.sectors
  total_eq : next.totalNumberOfSectors = (blkdevGetSectors k).getD 0
  cylinders_eq : next.cylinders = min (next.totalNumberOfSectors
    / (next.heads * next.sectors * (next.sectorSize / 512))) (2 ^ 32 - 1)

theorem Globals.nextSectorSize_lt {k : Kernel} {g : Globals} (h : g.sectorSize < 2 ^ 32)
    : g.nextSectorSize k < 2 ^ 32 := by
  unfold nextSectorSize getSectorsize
  split
  . exact Word.trunc_lt
  . exact h

theorem Globals.nextSectorSize_congr {k : Kernel} {g g' : Globals}
    (h : g'.sectorSize = g.sectorSize) : g'.nextSectorSize k = g.nextSectorSize k := by
  unfold nextSectorSize getSectorsize
  split
  . rfl
  . exact h

namespace getPartitionTableGeometry

theorem look_bounds {seen : Seen} {p : Partition} (h : seen.hh ≤ 256 ∧ seen.ss ≤ 63)
    : (look seen p).hh ≤ 256 ∧ (look seen p).ss ≤ 63 := by
  have hhead := p.endHead.toNat_lt
  have hsector : p.endSector.toNat % 64 < 64 := Nat.mod_lt _ (by decide)
  unfold look
  dsimp only
  split
  . exact h
  . split
    . dsimp only
      omega
    . split <;> exact h

theorem foldl_look_bounds (table : Slot → Partition) (slots : List Slot) (seen : Seen)
    (h : seen.hh ≤ 256 ∧ seen.ss ≤ 63)
    : (slots.foldl (fun seen i => look seen (table i)) seen).hh ≤ 256
        ∧ (slots.foldl (fun seen i => look seen (table i)) seen).ss ≤ 63 := by
  induction slots generalizing seen with
  | nil => exact h
  | cons i slots ih => exact ih _ (look_bounds h)

structure Seen.Agrees (seen : Seen) (t : Nat × Nat) : Prop where
  bad_eq : seen.bad = false
  told_eq : seen.first = false → (seen.hh, seen.ss) = t

theorem look_of_unused {seen : Seen} {p : Partition} (h : p.sysInd = 0) : look seen p = seen :=
  if_pos h

theorem look_of_used {seen : Seen} {p : Partition} (h : p.sysInd ≠ 0)
    : look seen p =
      if seen.first then
        { seen with hh := p.told.1, ss := p.told.2, first := false }
      else if (seen.hh, seen.ss) ≠ p.told then
        { seen with bad := true }
      else
        seen := by
  unfold look Partition.told
  simp only [if_neg h, ne_eq, Prod.mk.injEq, not_and_or]

theorem look_agrees {seen : Seen} {p : Partition} {t : Nat × Nat}
    : (look seen p).Agrees t → seen.Agrees t ∧ (p.sysInd ≠ 0 → p.told = t) := by
  by_cases hp : p.sysInd = 0
  . rw [look_of_unused hp]
    exact fun h => ⟨h, fun hused => absurd hp hused⟩
  . rw [look_of_used hp]
    split
    . next hfirst =>
      intro ⟨hbad, htold⟩
      refine ⟨⟨hbad, fun h => ?_⟩, fun _ => htold rfl⟩
      rw [hfirst] at h
      cases h
    . next hfirst =>
      have hfirst := Bool.eq_false_iff.mpr hfirst
      split
      . intro h
        cases h.bad_eq
      . next heq =>
        intro ⟨hbad, htold⟩
        exact ⟨⟨hbad, htold⟩, fun _ => (not_not.mp heq).symm.trans (htold hfirst)⟩

theorem agrees_look {seen : Seen} {p : Partition} {t : Nat × Nat} (h : seen.Agrees t)
    (hp : p.sysInd ≠ 0 → p.told = t)
    : (look seen p).Agrees t
        ∧ ((look seen p).first = false ↔ seen.first = false ∨ p.sysInd ≠ 0) := by
  by_cases hused : p.sysInd = 0
  . rw [look_of_unused hused]
    exact ⟨h, by simp [hused]⟩
  . rw [look_of_used hused]
    have htold := hp hused
    split
    . exact ⟨⟨h.bad_eq, fun _ => htold⟩, by simp [hused]⟩
    . next hfirst =>
      have hfirst := Bool.eq_false_iff.mpr hfirst
      rw [if_neg (not_not.mpr ((h.told_eq hfirst).trans htold.symm))]
      exact ⟨h, by simp [hfirst]⟩

theorem foldl_look_agrees (table : Slot → Partition) (slots : List Slot) {seen : Seen}
    {t : Nat × Nat}
    : (slots.foldl (fun seen i => look seen (table i)) seen).Agrees t
        → seen.Agrees t ∧ ∀ i ∈ slots, (table i).sysInd ≠ 0 → (table i).told = t := by
  induction slots generalizing seen with
  | nil => exact fun h => ⟨h, fun _ hi => absurd hi List.not_mem_nil⟩
  | cons i slots ih =>
    intro h
    obtain ⟨hlook, hslots⟩ := ih h
    obtain ⟨hseen, hi⟩ := look_agrees hlook
    exact ⟨hseen, List.forall_mem_cons.mpr ⟨hi, hslots⟩⟩

theorem agrees_foldl_look (table : Slot → Partition) (slots : List Slot) (seen : Seen)
    {t : Nat × Nat} (h : seen.Agrees t)
    (hslots : ∀ i ∈ slots, (table i).sysInd ≠ 0 → (table i).told = t)
    : (slots.foldl (fun seen i => look seen (table i)) seen).Agrees t
        ∧ ((slots.foldl (fun seen i => look seen (table i)) seen).first = false
          ↔ seen.first = false ∨ ∃ i ∈ slots, (table i).sysInd ≠ 0) := by
  induction slots generalizing seen with
  | nil => exact ⟨h, by simp⟩
  | cons i slots ih =>
    obtain ⟨hi, hslots⟩ := List.forall_mem_cons.mp hslots
    obtain ⟨hlook, hfirst⟩ := agrees_look h hi
    obtain ⟨hagrees, hrest⟩ := ih _ hlook hslots
    refine ⟨hagrees, ?_⟩
    rw [List.foldl_cons, hrest, hfirst]
    simp [or_assoc]

end getPartitionTableGeometry

theorem Buffer.geometry_bounds {b : Buffer} : b.geometry.1 ≤ 256 ∧ b.geometry.2 ≤ 63 := by
  have hbounds := getPartitionTableGeometry.foldl_look_bounds b.entries [0, 1, 2, 3]
    { hh := 0, ss := 0, first := true, bad := false } (by decide)
  unfold geometry
  split
  . exact hbounds
  . exact ⟨Nat.zero_le _, Nat.zero_le _⟩

theorem Buffer.geometry_of_invalid {b : Buffer} (h : validPartTableFlag b = false)
    : b.geometry = (0, 0) := by
  unfold geometry
  rw [if_neg]
  rw [h]
  exact fun hvalid => Bool.false_ne_true hvalid.1

section Told

variable {b : Buffer} {t : Nat × Nat}

theorem mem_slots (i : Slot) : i ∈ ([0, 1, 2, 3] : List Slot) := by
  match i with
  | 0 | 1 | 2 | 3 => simp

theorem Buffer.geometry_of_told (hflag : validPartTableFlag b = true)
    (hused : ∃ i, (b.entries i).sysInd ≠ 0)
    (htold : ∀ i, (b.entries i).sysInd ≠ 0 → (b.entries i).told = t) : b.geometry = t := by
  obtain ⟨i, hi⟩ := hused
  obtain ⟨hagrees, hfirst⟩ := getPartitionTableGeometry.agrees_foldl_look b.entries [0, 1, 2, 3]
    { hh := 0, ss := 0, first := true, bad := false } (t := t) ⟨rfl, by simp⟩ (fun i _ => htold i)
  have hfirst : b.seen.first = false := hfirst.mpr (.inr ⟨i, mem_slots i, hi⟩)
  unfold geometry
  rw [if_pos ⟨hflag, hfirst, hagrees.bad_eq⟩]
  exact hagrees.told_eq hfirst

theorem Buffer.geometry_of_ne {i j : Slot} (hi : (b.entries i).sysInd ≠ 0)
    (hj : (b.entries j).sysInd ≠ 0) (hne : (b.entries i).told ≠ (b.entries j).told)
    : b.geometry = (0, 0) := by
  unfold geometry
  rw [if_neg]
  intro ⟨_, _, hbad⟩
  have hagrees : b.seen.Agrees (b.seen.hh, b.seen.ss) := ⟨hbad, fun _ => rfl⟩
  obtain ⟨_, htold⟩ := getPartitionTableGeometry.foldl_look_agrees b.entries [0, 1, 2, 3] hagrees
  exact hne ((htold i (mem_slots i) hi).trans (htold j (mem_slots j) hj).symm)

theorem Buffer.geometry_agrees (h : b.geometry.1 ≠ 0 ∨ b.geometry.2 ≠ 0)
    : validPartTableFlag b = true
        ∧ ∀ i, (b.entries i).sysInd ≠ 0 → (b.entries i).told = b.geometry := by
  unfold geometry at h ⊢
  split at h
  . next hvalid =>
    rw [if_pos hvalid]
    obtain ⟨hflag, -, hbad⟩ := hvalid
    have hagrees : b.seen.Agrees (b.seen.hh, b.seen.ss) := ⟨hbad, fun _ => rfl⟩
    obtain ⟨-, htold⟩ := getPartitionTableGeometry.foldl_look_agrees b.entries [0, 1, 2, 3] hagrees
    exact ⟨hflag, fun i => htold i (mem_slots i)⟩
  . simp at h

theorem Buffer.geometry_of_unused (h : ∀ i, (b.entries i).sysInd = 0) : b.geometry = (0, 0) := by
  obtain ⟨_, hfirst⟩ := getPartitionTableGeometry.agrees_foldl_look b.entries [0, 1, 2, 3]
    { hh := 0, ss := 0, first := true, bad := false } (t := (0, 0)) ⟨rfl, by simp⟩
    (fun i _ hused => absurd (h i) hused)
  unfold geometry
  rw [if_neg]
  intro ⟨_, hseen, _⟩
  have hnone := hfirst.mp hseen
  simp [h] at hnone

end Told

theorem getPartitionTableGeometry_eq {g : Globals} (hheads : g.ptHeads = 0)
    (hsectors : g.ptSectors = 0)
    : getPartitionTableGeometry g
      = { g with ptHeads := (g.bufs 0).geometry.1, ptSectors := (g.bufs 0).geometry.2 } := by
  have hkeep : g = { g with ptHeads := 0, ptSectors := 0 } := by
    cases g
    simp only at hheads hsectors
    rw [hheads, hsectors]
  have hseen : [0, 1, 2, 3].foldl (fun seen i =>
      getPartitionTableGeometry.look seen ((g.bufs 0).entries i))
      { hh := 0, ss := 0, first := true, bad := false } = (g.bufs 0).seen := rfl
  unfold getPartitionTableGeometry Buffer.geometry
  simp only [hseen]
  by_cases hflag : validPartTableFlag (g.bufs 0) = true
  . simp only [hflag, if_true, true_and]
    split
    . rfl
    . exact hkeep
  . rw [if_neg hflag, if_neg (fun h => hflag h.1)]
    exact hkeep

section GetGeometry

variable {k : Kernel} {g : Globals}

theorem getSectorsize_eq : getSectorsize k g = { g with sectorSize := g.nextSectorSize k } := by
  unfold Globals.nextSectorSize getSectorsize
  split <;> rfl

theorem getKernelGeometry_eq (hheads : g.kernHeads = 0) (hsectors : g.kernSectors = 0)
    : getKernelGeometry k g
      = { g with kernHeads := k.geoHeads, kernSectors := k.geoSectors } := by
  unfold getKernelGeometry Kernel.geoHeads Kernel.geoSectors
  split
  . rfl
  . cases g
    simp only at hheads hsectors
    rw [hheads, hsectors]

theorem kernelHeads_eq : kernelHeads k = if k.geoHeads ≠ 0 then k.geoHeads else 255 := by
  unfold kernelHeads Kernel.geoHeads
  split <;> rfl

theorem kernelSectors_eq : kernelSectors k = if k.geoSectors ≠ 0 then k.geoSectors else 63 := by
  unfold kernelSectors Kernel.geoSectors
  split <;> rfl

theorem kernelHeads_bounds : 1 ≤ kernelHeads k ∧ kernelHeads k ≤ 255 := by
  unfold kernelHeads
  split
  . next heads _ _ =>
    have := heads.toNat_lt
    split <;> omega
  . omega

theorem kernelSectors_bounds : 1 ≤ kernelSectors k ∧ kernelSectors k ≤ 255 := by
  unfold kernelSectors
  split
  . next _ sectors _ =>
    have := sectors.toNat_lt
    split <;> omega
  . omega

theorem settledHeads_bounds {b : Buffer} : 1 ≤ settledHeads k b ∧ settledHeads k b ≤ 256 := by
  have hkernel := kernelHeads_bounds (k := k)
  have htable := b.geometry_bounds
  unfold settledHeads
  split <;> omega

theorem settledSectors_bounds {b : Buffer}
    : 1 ≤ settledSectors k b ∧ settledSectors k b ≤ 255 := by
  have hkernel := kernelSectors_bounds (k := k)
  have htable := b.geometry_bounds
  unfold settledSectors
  split <;> omega

theorem getGeometry_eq
    : getGeometry k g =
      let heads := settledHeads k (g.bufs 0)
      let sectors := settledSectors k (g.bufs 0)
      let divisor := Word.mul 64 (Word.mul 64 heads sectors) (g.nextSectorSize k / 512)
      if divisor = 0 then
        .error .divisionByZero
      else
        let total := (blkdevGetSectors k).getD 0
        let llcyls := total / divisor
        .ok { g with
          sectorSize := g.nextSectorSize k
          kernHeads := k.geoHeads, kernSectors := k.geoSectors
          ptHeads := (g.bufs 0).geometry.1, ptSectors := (g.bufs 0).geometry.2
          heads, sectors, totalNumberOfSectors := total, sectorOffset := sectors
          cylinders := if Word.trunc 32 llcyls ≠ llcyls then 2 ^ 32 - 1 else llcyls } := by
  unfold getGeometry settledHeads settledSectors
  rw [getSectorsize_eq, kernelHeads_eq, kernelSectors_eq]
  dsimp only
  rw [getKernelGeometry_eq rfl rfl, getPartitionTableGeometry_eq rfl rfl]
  rfl

theorem getGeometry_spec (hsize : 512 ≤ g.nextSectorSize k) (hlt : g.nextSectorSize k < 2 ^ 32)
    : ∃ next, getGeometry k g = .ok next ∧ g.Measured k next := by
  have hheads := settledHeads_bounds (k := k) (b := g.bufs 0)
  have hsectors := settledSectors_bounds (k := k) (b := g.bufs 0)
  rw [getGeometry_eq]
  dsimp only
  generalize hheadsEq : settledHeads k (g.bufs 0) = heads at hheads
  generalize hsectorsEq : settledSectors k (g.bufs 0) = sectors at hsectors
  have hcylinder : heads * sectors ≤ 256 * 255 := Nat.mul_le_mul hheads.2 hsectors.2
  have hfac : heads * sectors * (g.nextSectorSize k / 512) ≤ 256 * 255 * 2 ^ 23 :=
    Nat.mul_le_mul hcylinder (by omega)
  have hpos : 0 < heads * sectors * (g.nextSectorSize k / 512) :=
    Nat.mul_pos (Nat.mul_pos hheads.1 hsectors.1) (by omega)
  have hmul : Word.mul 64 heads sectors = heads * sectors := Word.mul_of_lt (by omega)
  have hdivisor : Word.mul 64 (heads * sectors) (g.nextSectorSize k / 512)
      = heads * sectors * (g.nextSectorSize k / 512) := Word.mul_of_lt (by omega)
  rw [hmul, hdivisor, if_neg (Nat.ne_of_gt hpos)]
  refine ⟨_, rfl, ⟨rfl, rfl, rfl, rfl, rfl, rfl, rfl⟩, rfl, hheadsEq.symm, hsectorsEq.symm, hheads,
    hsectors, rfl, rfl, ?_⟩
  dsimp only
  generalize (blkdevGetSectors k).getD 0 / _ = cyls
  split
  . next htrunc =>
    rw [Nat.min_eq_right]
    by_contra hlt
    exact htrunc (Word.trunc_of_lt (by omega))
  . next htrunc =>
    have := Word.trunc_lt (w := 32) (n := cyls)
    omega

theorem Globals.Measured.kernel_eq {next : Globals} (h : g.Measured k next)
    (hflag : validPartTableFlag (g.bufs 0) = false)
    : next.heads = kernelHeads k ∧ next.sectors = kernelSectors k := by
  have hheads := h.heads_eq
  have hsectors := h.sectors_eq
  unfold settledHeads at hheads
  unfold settledSectors at hsectors
  rw [Buffer.geometry_of_invalid hflag] at hheads hsectors
  exact ⟨hheads, hsectors⟩

theorem getGeometry_table {next : Globals} (h : getGeometry k g = .ok next)
    : next.ptHeads = (g.bufs 0).geometry.1 ∧ next.ptSectors = (g.bufs 0).geometry.2 := by
  rw [getGeometry_eq] at h
  dsimp only at h
  split at h
  . cases h
  . rw [← Except.ok.inj h]
    exact ⟨rfl, rfl⟩

/--
What the layout rests on after `get_geometry`, and where its heads and sectors come from.
-/
structure Globals.Usable (k : Kernel) (g next : Globals) : Prop where
  heads_bounds : 1 ≤ next.heads ∧ next.heads ≤ 256
  sectors_bounds : 1 ≤ next.sectors ∧ next.sectors ≤ 255
  total_eq : next.totalNumberOfSectors = (blkdevGetSectors k).getD 0
  fits : next.heads * next.sectors * next.cylinders * (next.sectorSize / 512)
    ≤ next.totalNumberOfSectors
  left : next.totalNumberOfSectors
        - next.heads * next.sectors * next.cylinders * (next.sectorSize / 512)
      < next.heads * next.sectors * (next.sectorSize / 512)
    ∨ next.cylinders = 2 ^ 32 - 1 ∧ 2 ^ 32
        ≤ next.totalNumberOfSectors / (next.heads * next.sectors * (next.sectorSize / 512))
  heads_eq : next.heads = if next.ptHeads ≠ 0 then next.ptHeads else kernelHeads k
  sectors_eq : next.sectors = if next.ptSectors ≠ 0 then next.ptSectors else kernelSectors k
  table : next.ptHeads ≠ 0 ∨ next.ptSectors ≠ 0 → validPartTableFlag (g.bufs 0) = true
    ∧ ∀ i, ((g.bufs 0).entries i).sysInd ≠ 0
      → ((g.bufs 0).entries i).told = (next.ptHeads, next.ptSectors)

theorem div_min_bounds (total bound : Nat) {piece : Nat} (hpiece : 0 < piece)
    : piece * min (total / piece) bound ≤ total
        ∧ (total - piece * min (total / piece) bound < piece
          ∨ min (total / piece) bound = bound ∧ bound + 1 ≤ total / piece) := by
  have hsplit := Nat.div_add_mod total piece
  have hmod : total % piece < piece := Nat.mod_lt _ hpiece
  cases Nat.lt_or_ge bound (total / piece) with
  | inl hlt =>
    rw [Nat.min_eq_right (Nat.le_of_lt hlt)]
    have hle : piece * bound ≤ piece * (total / piece) := Nat.mul_le_mul_left _ (Nat.le_of_lt hlt)
    exact ⟨by omega, .inr ⟨rfl, hlt⟩⟩
  | inr hge =>
    rw [Nat.min_eq_left hge]
    exact ⟨by omega, .inl (by omega)⟩

theorem getGeometry_usable (hsize : DEFAULT_SECTOR_SIZE ≤ g.nextSectorSize k)
    (hstate : g.sectorSize < 2 ^ 32)
    : ∃ next, getGeometry k g = .ok next ∧ g.Usable k next := by
  have hlt := Globals.nextSectorSize_lt (k := k) hstate
  obtain ⟨next, hnext, hmeasured⟩ := getGeometry_spec hsize hlt
  obtain ⟨hptHeads, hptSectors⟩ := getGeometry_table hnext
  have hsizeNext : 512 ≤ next.sectorSize := by
    rw [hmeasured.sectorSize_eq]
    exact hsize
  have hcylinder : 0 < next.heads * next.sectors * (next.sectorSize / 512) :=
    Nat.mul_pos (Nat.mul_pos hmeasured.heads_bounds.1 hmeasured.sectors_bounds.1) (by omega)
  obtain ⟨hfits, hleft⟩ := div_min_bounds next.totalNumberOfSectors (2 ^ 32 - 1) hcylinder
  rw [← hmeasured.cylinders_eq] at hfits hleft
  refine ⟨next, hnext, ⟨hmeasured.heads_bounds, hmeasured.sectors_bounds, hmeasured.total_eq, ?_, ?_,
    ?_, ?_, ?_⟩⟩
  . rw [Nat.mul_right_comm]
    exact hfits
  . rw [Nat.mul_right_comm]
    exact hleft
  . rw [hmeasured.heads_eq, hptHeads]
    rfl
  . rw [hmeasured.sectors_eq, hptSectors]
    rfl
  . rw [hptHeads, hptSectors]
    exact Buffer.geometry_agrees

theorem getGeometry_small (hsize : g.nextSectorSize k < 512)
    : getGeometry k g = .error .divisionByZero := by
  -- there are no whole 512 bytes in a smaller sector
  have hdivisor : ∀ w, Word.mul 64 w 0 = 0 := fun _ => Nat.zero_mod _
  rw [getGeometry_eq]
  dsimp only
  rw [Nat.div_eq_of_lt hsize, hdivisor, if_pos rfl]

end GetGeometry

theorem getGeometry_usable_silent
    : let k : Kernel :=
        { Kernel.mmc 512 0 with blksszget := none, hdioGetgeo := none, blkgetsize64 := none }
      ∃ next, getGeometry k .initial = .ok next ∧ Globals.initial.Usable k next := by
  apply getGeometry_usable
  . decide
  . decide

def cylinderUnits (heads sectors : Nat) : Nat :=
  if displayInCylUnits ∧ Word.trunc 32 (Word.mul 64 heads sectors) ≠ 0 then
    Word.trunc 32 (Word.mul 64 heads sectors)
  else
    1

theorem updateUnits_set {g : Globals}
    : updateUnits g = { g with unitsPerSector := cylinderUnits g.heads g.sectors } := by
  unfold updateUnits cylinderUnits
  generalize Word.trunc 32 (Word.mul 64 g.heads g.sectors) = cylUnits
  dsimp only
  split <;> rfl

theorem updateUnits_eq {g : Globals} (hheads : 1 ≤ g.heads ∧ g.heads ≤ 256)
    (hsectors : 1 ≤ g.sectors ∧ g.sectors ≤ 255)
    : updateUnits g = { g with unitsPerSector := g.heads * g.sectors } := by
  have hlt : g.heads * g.sectors ≤ 256 * 255 := Nat.mul_le_mul hheads.2 hsectors.2
  have hpos : 0 < g.heads * g.sectors := Nat.mul_pos hheads.1 hsectors.1
  rw [updateUnits_set]
  unfold cylinderUnits
  rw [Word.mul_of_lt (by omega), Word.trunc_of_lt (by omega)]
  simp [displayInCylUnits, Nat.ne_of_gt hpos]

theorem Globals.Measured.updateUnits {k : Kernel} {g next : Globals} (h : g.Measured k next)
    : g.Measured k (updateUnits next)
        ∧ (Fdisk.updateUnits next).unitsPerSector = next.heads * next.sectors := by
  rw [updateUnits_eq h.heads_bounds h.sectors_bounds]
  exact ⟨⟨⟨h.same.bufs_eq, h.same.allocated_eq, h.same.position_eq, h.same.ptes_eq,
    h.same.extIndex_eq, h.same.partitions_eq, h.same.extendedOffset_eq⟩, h.sectorSize_eq,
    h.heads_eq, h.sectors_eq, h.heads_bounds, h.sectors_bounds, h.sectorOffset_eq, h.total_eq,
    h.cylinders_eq⟩, rfl⟩

theorem measure_spec {k : Kernel} {g g₁ : Globals} (hsector : g₁.sectorSize = g.sectorSize)
    (hsize : DEFAULT_SECTOR_SIZE ≤ g.nextSectorSize k) (hstate : g.sectorSize < 2 ^ 32)
    : ∃ next, getGeometry k g₁ = .ok next ∧ g₁.Measured k (updateUnits next)
        ∧ (updateUnits next).sectorSize = g.nextSectorSize k
        ∧ (updateUnits next).unitsPerSector
          = (updateUnits next).heads * (updateUnits next).sectors := by
  have hnextSize := Globals.nextSectorSize_congr (k := k) hsector
  rw [← hnextSize] at hsize
  have hlt : g₁.nextSectorSize k < 2 ^ 32 := Globals.nextSectorSize_lt (hsector ▸ hstate)
  obtain ⟨next, hnext, hmeasured⟩ := getGeometry_spec hsize hlt
  obtain ⟨hupdated, hunits⟩ := hmeasured.updateUnits
  refine ⟨next, hnext, hupdated, hupdated.sectorSize_eq.trans hnextSize, ?_⟩
  rw [hunits, hupdated.heads_eq, hupdated.sectors_eq, hmeasured.heads_eq, hmeasured.sectors_eq]

end FsBench.Fdisk
