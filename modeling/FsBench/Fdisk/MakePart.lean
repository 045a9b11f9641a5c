import FsBench.Fdisk.Placement

/-!
This module contains what a whole call of `fdisk_make_part` writes to a device, and when the
partitions that it makes are sound and aligned.
-/

namespace FsBench.Fdisk

open fdiskMakePart

namespace Layout

variable {l : Layout} {n fuel : Nat} {g : Globals}

/--
How the calls of `addPartition` can end: without a partition, with the layout as it should be, or
with the first partition wrapped.
-/
inductive Outcome (l : Layout) (n : Nat) (g : Globals) (placed : List (Option Placed)) : Prop where
  | full (hbase : l.last < l.base) (hlaid : l.Laid n 0 g)
  | laid (hbase : l.base ≤ l.last) (hroom : 2049 ≤ l.edge n 1) (hlaid : l.Laid n n g)
    (hplaced : placed = (List.range n).map fun i =>
      some { start := l.start n i, stop := l.stop n i })
  | wrapped (k : Nat) (hbase : l.base ≤ l.last) (hroom : l.edge n 1 < 2049) (hk : 0 < k)
    (hone : 1 ≤ l.cylinders → k = 1) (hwrapped : l.Wrapped n k g)
    (hplaced : placed[0]? = some (some { start := 2048, stop := l.stop n 0 }))

theorem addAll_spec (l : Layout) (fuel : Nat) (Inv : Nat → Globals × List (Option Placed) → Prop)
    (hn : 0 < n)
    (hs : Inv 0 (g, [])) (happlies : ∀ i s, Inv i s → l.Applies s.1)
    (hstep : ∀ i s, i < n → Inv i s → ∃ next placed,
      addPartition fuel s.1 i WIN95_FAT32_LBA (l.share n i) true = .ok (next, placed)
        ∧ Inv (i + 1) (next, s.2 ++ [placed]))
    : ∃ r, addAll fuel g n = .ok r ∧ Inv n r := by
  have hcylinders : g.cylinders = l.cylinders := (happlies 0 (g, []) hs).cylinders_eq
  obtain ⟨j, rfl⟩ : ∃ j, n = j + 1 := ⟨n - 1, by omega⟩
  unfold addAll
  simp only [Nat.add_sub_cancel, hcylinders, fdiskNeedPartionAligned]
  apply Loop.foldlM_range_bind Inv hs
  . intro i s hi hinv
    obtain ⟨next, placed, hnext, hinv⟩ := hstep i s (by omega) hinv
    have hshare : l.share (j + 1) i = l.cylinders / (j + 1) := if_pos (by omega)
    rw [hshare] at hnext
    refine ⟨_, ?_, hinv⟩
    simp only [hnext, bind, Except.bind, pure, Except.pure]
  . intro s hinv
    obtain ⟨next, placed, hnext, hinv'⟩ := hstep j s (by omega) hinv
    have hshare : l.share (j + 1) j = l.cylinders - l.cylinders / (j + 1) * j :=
      if_neg (Nat.lt_irrefl _)
    rw [hshare] at hnext
    refine ⟨_, ?_, hinv'⟩
    simp only [(happlies j s hinv).cylinders_eq, hnext, bind, Except.bind, pure, Except.pure]

theorem addAll_laid (hlaid : l.Laid n 0 g) (hn : 0 < n ∧ n ≤ 4) (hbase : l.base ≤ l.last)
    (hroom : 2049 ≤ l.edge n 1) (hfuel : 2 ≤ fuel)
    : ∃ r, addAll fuel g n = .ok r ∧ l.Laid n n r.1
        ∧ r.2 = (List.range n).map fun i => some { start := l.start n i, stop := l.stop n i } := by
  let Inv (i : Nat) (s : Globals × List (Option Placed)) :=
    l.Laid n i s.1 ∧ s.2 = (List.range i).map fun i =>
      some { start := l.start n i, stop := l.stop n i }
  obtain ⟨r, hr, hinv, hplaced⟩ := addAll_spec l fuel Inv hn.1 ⟨hlaid, rfl⟩
    (fun i s h => h.1.geometry.toApplies) (by
      intro i s hi h
      obtain ⟨next, hnext, hinv⟩ := h.1.step hi hn.2 hbase hroom hfuel
      refine ⟨next, _, hnext, hinv, ?_⟩
      rw [h.2, List.range_succ, List.map_append]
      rfl)
  exact ⟨r, hr, hinv, hplaced⟩

/--
The entries that are used after the first `i` calls when the first one has wrapped.
-/
def wrappedUsed (l : Layout) (i : Nat) : Nat := if l.cylinders = 0 then i else 1

theorem Wrapped.call {k : Nat} (h : l.Wrapped n (l.wrappedUsed k) g) (hk : 0 < k ∧ k < n)
    (hn : 0 < n ∧ n ≤ 4) (hbase : l.base ≤ l.last) (hroom : l.edge n 1 < 2049) (hfuel : 3 ≤ fuel)
    : ∃ next placed, addPartition fuel g k WIN95_FAT32_LBA (l.share n k) true = .ok (next, placed)
        ∧ l.Wrapped n (l.wrappedUsed (k + 1)) next := by
  by_cases hzero : l.cylinders = 0
  . have hused : ∀ i, l.wrappedUsed i = i := fun i => if_pos hzero
    rw [hused] at h ⊢
    obtain ⟨next, placed, hnext, hwrapped⟩ := h.step hk hn.2 hbase hzero hroom hfuel
    exact ⟨next, placed, hnext, hwrapped⟩
  . have hused : ∀ i, l.wrappedUsed i = 1 := fun i => if_neg hzero
    rw [hused] at h ⊢
    have hstuck := h.stuck Nat.one_pos hn hbase (Nat.pos_of_ne_zero hzero) hroom ⟨k, by omega⟩
      WIN95_FAT32_LBA (l.share n k) (show 1 ≤ fuel by omega)
    exact ⟨g, none, hstuck, h⟩

theorem addAll_wrapped (hlaid : l.Laid n 0 g) (hn : 0 < n ∧ n ≤ 4) (hbase : l.base ≤ l.last)
    (hroom : l.edge n 1 < 2049) (hfuel : 3 ≤ fuel)
    : ∃ r, addAll fuel g n = .ok r ∧ l.Wrapped n (l.wrappedUsed n) r.1
        ∧ r.2[0]? = some (some { start := 2048, stop := l.stop n 0 }) := by
  -- the first call wraps the entry, the others find it so
  let Inv (i : Nat) (s : Globals × List (Option Placed)) :=
    (i = 0 ∧ l.Laid n 0 s.1 ∧ s.2 = [])
      ∨ (0 < i ∧ l.Wrapped n (l.wrappedUsed i) s.1
        ∧ s.2[0]? = some (some { start := 2048, stop := l.stop n 0 }))
  obtain ⟨r, hr, hinv⟩ := addAll_spec l fuel Inv hn.1 (.inl ⟨rfl, hlaid, rfl⟩) (by
      intro i s h
      cases h with
      | inl h => exact h.2.1.geometry.toApplies
      | inr h => exact h.2.1.geometry.toApplies) (by
      intro i s hi h
      cases h with
      | inl h =>
        obtain ⟨rfl, hlaid, hplaced⟩ := h
        obtain ⟨next, hnext, hwrapped⟩ := hlaid.wrap hn hbase hroom (Nat.le_of_succ_le hfuel)
        refine ⟨next, _, hnext, .inr ⟨Nat.one_pos, ?_, ?_⟩⟩
        . rw [wrappedUsed, ite_self]
          exact hwrapped
        . rw [hplaced]
          rfl
      | inr h =>
        obtain ⟨hpos, hwrapped, hplaced⟩ := h
        obtain ⟨next, placed, hnext, hwrapped⟩ := hwrapped.call ⟨hpos, hi⟩ hn hbase hroom hfuel
        refine ⟨next, placed, hnext, .inr ⟨Nat.succ_pos i, hwrapped, ?_⟩⟩
        rw [List.getElem?_append_left (List.getElem?_eq_some_iff.mp hplaced).1, hplaced])
  cases hinv with
  | inl h => omega
  | inr h => exact ⟨r, hr, h.2⟩

theorem addAll_full (hlaid : l.Laid n 0 g) (hn : 0 < n ∧ n ≤ 4) (hbase : l.last < l.base)
    (hfuel : 2 ≤ fuel) : ∃ r, addAll fuel g n = .ok r ∧ l.Laid n 0 r.1 := by
  let Inv (_ : Nat) (s : Globals × List (Option Placed)) := l.Laid n 0 s.1
  exact addAll_spec l fuel Inv hn.1 hlaid (fun i s h => h.geometry.toApplies) (by
      intro i s hi h
      exact ⟨s.1, none, h.full hbase ⟨i, by omega⟩ WIN95_FAT32_LBA (l.share n i) hfuel, h⟩)

theorem addAll_outcome (hlaid : l.Laid n 0 g) (hn : 0 < n ∧ n ≤ 4) (hfuel : 3 ≤ fuel)
    : ∃ r, addAll fuel g n = .ok r ∧ l.Outcome n r.1 r.2 := by
  have htwo : 2 ≤ fuel := Nat.le_of_succ_le hfuel
  by_cases hbase : l.base ≤ l.last
  . by_cases hroom : 2049 ≤ l.edge n 1
    . obtain ⟨r, hr, hinv, hplaced⟩ := addAll_laid hlaid hn hbase hroom htwo
      exact ⟨r, hr, .laid hbase hroom hinv hplaced⟩
    . have hroom : l.edge n 1 < 2049 := Nat.lt_of_not_le hroom
      obtain ⟨r, hr, hwrapped, hplaced⟩ := addAll_wrapped hlaid hn hbase hroom hfuel
      refine ⟨r, hr, .wrapped (l.wrappedUsed n) hbase hroom ?_ ?_ hwrapped hplaced⟩
      . unfold wrappedUsed
        split <;> omega
      . intro hpos
        exact if_neg (by omega)
  . obtain ⟨r, hr, hinv⟩ := addAll_full hlaid hn (Nat.lt_of_not_le hbase) htwo
    exact ⟨r, hr, .full (Nat.lt_of_not_le hbase) hinv⟩

end Layout

structure Globals.Kept (g next : Globals) : Prop where
  ready : next.Ready
  same : g.SameGeometry next
  code_eq : (next.bufs 0).code = (g.bufs 0).code
  sysInd_eq : ∀ i : Slot, ((next.bufs 0).entries i).sysInd = ((g.bufs 0).entries i).sysInd
    ∨ ((next.bufs 0).entries i).sysInd = WIN95_FAT32_LBA

section Kept

variable {g next : Globals} {fuel n partCyls : Nat} {bPartAligned : Bool}

theorem Globals.Kept.addPartition {g₀ : Globals} {placed : Option Placed} (h : g₀.Kept g) (i : Slot)
    (hok : addPartition fuel g i WIN95_FAT32_LBA partCyls bPartAligned = .ok (next, placed))
    : g₀.Kept next := by
  cases addPartition_cases h.ready i hok with
  | inl heq =>
    rw [heq]
    exact h
  | inr hadded =>
    obtain ⟨_, hadded⟩ := hadded
    refine ⟨hadded.ready, h.same.trans hadded.same, hadded.code_eq.trans h.code_eq, ?_⟩
    intro j
    by_cases hj : j = i
    . rw [hj]
      exact .inr hadded.sysInd_eq
    . rw [hadded.other_eq j hj]
      exact h.sysInd_eq j

theorem addAll_kept {placed : List (Option Placed)} (h : g.Ready) (hn : 1 ≤ n ∧ n ≤ 4)
    (hok : addAll fuel g n = .ok (next, placed)) : g.Kept next := by
  simp only [addAll, bind, Except.bind, pure, Except.pure] at hok
  split at hok
  . cases hok
  . next s hfold =>
    have hs : g.Kept s.1 := by
      apply Loop.foldlM_keeps (fun s => g.Kept s.1) _ ⟨h, .refl, rfl, fun _ => .inl rfl⟩ hfold
      intro i hi s t hkept hbody
      have hi := List.mem_range.mp hi
      split at hbody
      . cases hbody
      . next r hadd =>
        cases hbody
        exact hkept.addPartition ⟨i, by omega⟩ hadd
    split at hok
    . cases hok
    . next r hadd =>
      cases hok
      exact hs.addPartition ⟨n - 1, by omega⟩ hadd

end Kept

def Layout.measured (k : Kernel) (g : Globals) (hsize : DEFAULT_SECTOR_SIZE ≤ g.nextSectorSize k)
    : Layout where
  heads := kernelHeads k
  track := kernelSectors k
  secFac := g.nextSectorSize k / 512
  total := (blkdevGetSectors k).getD 0
  heads_bounds := kernelHeads_bounds
  track_bounds := kernelSectors_bounds
  secFac_pos := Nat.div_pos hsize (by decide)

structure Globals.Started (k : Kernel) (g next : Globals) : Prop where
  ready : next.Ready
  table_eq : next.bufs 0 = .zero
  position_eq : next.position = 0
  sectorSize_eq : next.sectorSize = g.nextSectorSize k
  extendedOffset_eq : next.extendedOffset = g.extendedOffset
  extIndex_eq : next.extIndex = g.extIndex
  heads_eq : next.heads = kernelHeads k
  sectors_eq : next.sectors = kernelSectors k
  sectorOffset_eq : next.sectorOffset = kernelSectors k
  cylinders_eq : next.cylinders = min ((blkdevGetSectors k).getD 0
    / (kernelHeads k * kernelSectors k * (g.nextSectorSize k / 512))) (2 ^ 32 - 1)

section Start

variable {k : Kernel} {g : Globals}

theorem start_spec (hsize : DEFAULT_SECTOR_SIZE ≤ g.nextSectorSize k)
    (hstate : g.sectorSize < 2 ^ 32)
    : ∃ next, getGeometry k { getBoot.setUp { g with partitions := 4 } with position := 0 }
          = .ok next
        ∧ g.Started k (updateUnits next) := by
  generalize hg₁ : ({ getBoot.setUp { g with partitions := 4 } with position := 0 } : Globals) = g₁
  have hsector : g₁.sectorSize = g.sectorSize := by
    rw [← hg₁]
    rfl
  have htable : g₁.bufs 0 = .zero := by
    rw [← hg₁]
    rfl
  obtain ⟨next, hnext, hmeasured, hsectorSize, hunits⟩ := measure_spec hsector hsize hstate
  obtain ⟨hheads, hsectors⟩ := hmeasured.kernel_eq (by rw [htable]; rfl)
  have hcylinders := hmeasured.cylinders_eq
  rw [hmeasured.total_eq, hheads, hsectors, hsectorSize] at hcylinders
  have hsame := hmeasured.same
  refine ⟨next, hnext, ?_, ?_, ?_, hsectorSize, ?_, ?_, hheads, hsectors, ?_, hcylinders⟩
  . refine ⟨.of_setUp (g := { g with partitions := 4 }) ?_ ?_, hmeasured.heads_bounds,
      hmeasured.sectors_bounds, hunits⟩
    . rw [hsame.partitions_eq, ← hg₁]
      rfl
    . rw [hsame.ptes_eq, ← hg₁]
  . rw [hsame.bufs_eq, htable]
  . rw [hsame.position_eq, ← hg₁]
  . rw [hsame.extendedOffset_eq, ← hg₁]
    rfl
  . rw [hsame.extIndex_eq, ← hg₁]
    rfl
  . exact hmeasured.sectorOffset_eq.trans hsectors

theorem Globals.Started.applies {next : Globals} (h : g.Started k next)
    (hsize : DEFAULT_SECTOR_SIZE ≤ g.nextSectorSize k) : (Layout.measured k g hsize).Applies next where
  ready := h.ready
  heads_eq := h.heads_eq
  sectors_eq := h.sectors_eq
  cylinders_eq := h.cylinders_eq

theorem Globals.Started.laid {next : Globals} {n : Nat} (h : g.Started k next)
    (hsize : DEFAULT_SECTOR_SIZE ≤ g.nextSectorSize k) (hext : g.extendedOffset = 0)
    : (Layout.measured k g hsize).Laid n 0 next where
  geometry := { h.applies hsize with extendedOffset_eq := h.extendedOffset_eq.trans hext }
  sectorOffset_eq := h.sectorOffset_eq
  sysInd_eq i := by
    rw [h.table_eq, if_neg (Nat.not_lt_zero _)]
    rfl
  start_eq i hi := absurd hi (Nat.not_lt_zero _)
  stop_eq i hi := absurd hi (Nat.not_lt_zero _)
  told_eq _ i hi := absurd hi (Nat.not_lt_zero _)

end Start

/--
Every open, write and ioctl on the device succeeds; a write does when it takes the whole sector,
which fits the device.
-/
structure Io.Succeeds (io : Io) (sectorSize : Nat) : Prop where
  openDevice : io.openDevice = true
  openAgain : io.openAgain = true
  writes : io.writes = true
  takes : sectorSize ≤ io.takes
  fits : sectorSize ≤ io.device.size
  isBlock : io.isBlock = some true
  rereads : io.rereads = true

def Io.card (sectorSize bytes : Nat) : Io where
  device := { byte _ := 0, size := bytes, seeks _ := true }
  kernel := .mmc sectorSize bytes
  openDevice := true
  openAgain := true
  writes := true
  takes := sectorSize
  isBlock := some true
  rereads := true
  behind _ := 0

theorem Io.card_succeeds {sectorSize bytes : Nat} (h : sectorSize ≤ bytes)
    : (Io.card sectorSize bytes).Succeeds sectorSize where
  openDevice := rfl
  openAgain := rfl
  writes := rfl
  takes := Nat.le_refl sectorSize
  fits := h
  isBlock := rfl
  rereads := rfl

section Write

variable {io : Io} {g : Globals}

theorem mbrMemory_length {behind : Nat → UInt8} {b : Buffer} {count : Nat}
    : (mbrMemory behind b count).length = count := by
  unfold mbrMemory
  rw [List.length_take, List.length_append, List.length_map, List.length_range]
  omega

theorem seekSector_zero {d : Device} (hposition : g.position = 0) : seekSector d g 0 = g := by
  have hoffset : Word.toSigned 64 (Word.mul 64 0 g.sectorSize) = 0 := by
    unfold Word.mul Word.toSigned
    rw [Nat.zero_mul]
    rfl
  unfold seekSector
  rw [hoffset]
  dsimp only
  split
  . rw [Int.toNat_zero, ← hposition]
  . rfl

theorem writeSector_eq {b : Buffer} (hposition : g.position = 0)
    : writeSector io g 0 b = (g, if io.writes then
        (mbrMemory io.behind b g.sectorSize).take (min io.takes io.device.size) else []) := by
  simp only [writeSector, seekSector_zero hposition, hposition, Nat.sub_zero]
  split <;> rfl

theorem writeTable_eq (io : Io) (h : g.FourPrimary)
    : writeTable io g
      = .ok (writeSector io
          { g with bufs := Function.update g.bufs 0 (writePartTableFlag (g.bufs 0)) } 0
          (writePartTableFlag (g.bufs 0))) := by
  have hprimary : (g.ptes 0).IsPrimary 0 := h.primary 0
  have hpte : g.getPte 0 = .ok (g.ptes 0) := Globals.getPte_of_lt (by decide)
  simp only [writeTable, hpte, bind, Except.bind, hprimary.sectorbuffer_eq, deref, pure, Except.pure,
    hprimary.offset_eq, Function.update_self]

def Io.status (io : Io) : Int :=
  if io.openAgain then rereadPartitionTable io else -1

structure Made.Wrote (io : Io) (next : Globals) (m : Made) : Prop where
  ret_eq : m.ret = io.status
  taken_eq : m.written = if io.writes then
      (mbrMemory io.behind (writePartTableFlag (next.bufs 0)) next.sectorSize).take
        (min io.takes io.device.size) else []
  device_eq : m.device = io.device.write 0 m.written
  table_eq : m.globals.bufs 0 = writePartTableFlag (next.bufs 0)
  sectorSize_eq : m.globals.sectorSize = next.sectorSize
  heads_eq : m.globals.heads = next.heads
  sectors_eq : m.globals.sectors = next.sectors
  extendedOffset_eq : m.globals.extendedOffset = next.extendedOffset
  extIndex_eq : m.globals.extIndex = next.extIndex

open getBoot in
theorem fdiskMakePart_eq {fuel n : Nat} {start next : Globals} {placed : List (Option Placed)}
    (hn : 1 ≤ n ∧ n ≤ 4) (hopen : io.openDevice = true)
    (hstart : getGeometry io.kernel { setUp { g with partitions := 4 } with position := 0 }
      = .ok start)
    (hadd : addAll fuel (updateUnits start) n = .ok (next, placed)) (hready : next.Ready)
    (hposition : next.position = 0)
    : ∃ m, fdiskMakePart io fuel g n = .ok m ∧ m.placed = placed ∧ m.Wrote io next := by
  have hparts : ¬(n > 4 ∨ n = 0) := by omega
  have hpartitions : g.setPartitions 4 = .ok { g with partitions := 4 } :=
    Globals.setPartitions_of_bounds (by decide)
  have hwrite := writeTable_eq io hready.toFourPrimary
  rw [writeSector_eq (by exact hposition)] at hwrite
  simp only [fdiskMakePart, if_neg hparts, hpartitions, bind, Except.bind, hopen,
    Bool.true_eq_false, if_false, hstart, hadd, hwrite, pure, Except.pure]
  cases hagain : io.openAgain with
  | false =>
    refine ⟨_, rfl, rfl, ?_, rfl, by rw [hposition], ?_, rfl, rfl, rfl, rfl, rfl⟩
    . rw [Io.status, hagain]
      rfl
    . exact Function.update_self 0 _ next.bufs
  | true =>
    refine ⟨_, rfl, rfl, ?_, rfl, by rw [hposition], ?_, rfl, rfl, rfl, rfl, rfl⟩
    . rw [Io.status, hagain]
      rfl
    . exact Function.update_self 0 _ next.bufs

end Write

namespace Io.Succeeds

variable {io : Io} {sectorSize : Nat}

theorem status_eq (h : io.Succeeds sectorSize) : io.status = 0 := by
  unfold Io.status rereadPartitionTable
  rw [h.openAgain, h.isBlock, h.rereads]
  rfl

theorem written_eq (h : io.Succeeds sectorSize) (b : Buffer)
    : (if io.writes then
        (mbrMemory io.behind b sectorSize).take (min io.takes io.device.size) else [])
      = mbrMemory io.behind b sectorSize := by
  rw [h.writes, if_pos rfl, List.take_of_length_le]
  rw [mbrMemory_length]
  exact Nat.le_min.mpr ⟨h.takes, h.fits⟩

end Io.Succeeds

def Made.table (m : Made) : Buffer := .ofBytes m.written

theorem mbrMemory_eq {behind : Nat → UInt8} {b : Buffer} {count : Nat} (hcount : 512 ≤ count)
    : mbrMemory behind b count = b.toBytes
      ++ (List.replicate (MAX_SECTOR_SIZE - 512) 0 ++ (List.range count).map behind).take
        (count - 512) := by
  unfold mbrMemory
  rw [List.append_assoc, List.take_append, Buffer.toBytes_length, List.take_of_length_le]
  rw [Buffer.toBytes_length]
  exact hcount

/--
No table with an extended partition was read.
-/
def Globals.NeverBooted (g : Globals) : Prop := g.extIndex = 0 ∧ g.extendedOffset = 0

instance {g : Globals} : Decidable g.NeverBooted :=
  inferInstanceAs (Decidable (_ ∧ _))

section Outcome

variable {io : Io} {g : Globals} {fuel n : Nat}

/--
A call that ends has made a table in `MBRbuffer` and written it, as far as the write goes, with the
memory behind it.
-/
structure Made.Written (io : Io) (sectorSize : Nat) (m : Made) : Prop where
  ret_eq : m.ret = io.status
  code_eq : (m.globals.bufs 0).code = List.replicate 446 0
  sysInd_eq : ∀ i, ((m.globals.bufs 0).entries i).sysInd = 0
    ∨ ((m.globals.bufs 0).entries i).sysInd = WIN95_FAT32_LBA
  flag0_eq : (m.globals.bufs 0).flag0 = 0x55
  flag1_eq : (m.globals.bufs 0).flag1 = 0xaa
  taken_eq : m.written = if io.writes then
      (mbrMemory io.behind (m.globals.bufs 0) sectorSize).take (min io.takes io.device.size) else []
  device_eq : m.device = io.device.write 0 m.written
  sectorSize_eq : m.globals.sectorSize = sectorSize
  heads_eq : m.globals.heads = kernelHeads io.kernel
  sectors_eq : m.globals.sectors = kernelSectors io.kernel

theorem Made.Written.written_eq {sectorSize : Nat} {m : Made} (h : m.Written io sectorSize)
    (hio : io.Succeeds sectorSize)
    : m.written = mbrMemory io.behind (m.globals.bufs 0) sectorSize := by
  rw [h.taken_eq]
  exact hio.written_eq _

theorem Made.Written.taken_length {sectorSize : Nat} {m : Made} (h : m.Written io sectorSize)
    : m.written.length
      = if io.writes then min (min io.takes io.device.size) sectorSize else 0 := by
  rw [h.taken_eq]
  split
  . rw [List.length_take, mbrMemory_length]
  . rfl

open getBoot in
theorem fdiskMakePart_run {m : Made} (hn : 1 ≤ n ∧ n ≤ 4) (hopen : io.openDevice = true)
    (hm : fdiskMakePart io fuel g n = .ok m)
    : ∃ start r, getGeometry io.kernel { setUp { g with partitions := 4 } with position := 0 }
          = .ok start
        ∧ addAll fuel (updateUnits start) n = .ok r := by
  have hparts : ¬(n > 4 ∨ n = 0) := by omega
  have hpartitions : g.setPartitions 4 = .ok { g with partitions := 4 } :=
    Globals.setPartitions_of_bounds (by decide)
  simp only [fdiskMakePart, if_neg hparts, hpartitions, bind, Except.bind, hopen,
    Bool.true_eq_false, if_false] at hm
  cases hstart : getGeometry io.kernel { setUp { g with partitions := 4 } with position := 0 } with
  | error => simp only [hstart, reduceCtorEq] at hm
  | ok start =>
    cases hadd : addAll fuel (updateUnits start) n with
    | error => simp only [hstart, hadd, reduceCtorEq] at hm
    | ok r => exact ⟨start, r, rfl, hadd⟩

theorem getGeometry_setUp_small {k : Kernel} (hsmall : g.nextSectorSize k < DEFAULT_SECTOR_SIZE)
    : getGeometry k { getBoot.setUp { g with partitions := 4 } with position := 0 }
      = .error .divisionByZero := by
  apply getGeometry_small
  have hsame : Globals.nextSectorSize k
      { getBoot.setUp { g with partitions := 4 } with position := 0 } = g.nextSectorSize k :=
    Globals.nextSectorSize_congr rfl
  rw [hsame]
  exact hsmall

theorem fdiskMakePart_size {m : Made} (hn : 1 ≤ n ∧ n ≤ 4) (hopen : io.openDevice = true)
    (hm : fdiskMakePart io fuel g n = .ok m) : DEFAULT_SECTOR_SIZE ≤ g.nextSectorSize io.kernel := by
  obtain ⟨start, _, hstart, _⟩ := fdiskMakePart_run hn hopen hm
  by_contra hlt
  rw [getGeometry_setUp_small (Nat.lt_of_not_le hlt)] at hstart
  cases hstart

theorem fdiskMakePart_kept {m : Made} (hn : 1 ≤ n ∧ n ≤ 4) (hstate : g.sectorSize < 2 ^ 32)
    (hopen : io.openDevice = true) (hm : fdiskMakePart io fuel g n = .ok m)
    : ∃ start next : Globals, g.Started io.kernel start ∧ start.Kept next ∧ m.Wrote io next := by
  obtain ⟨start, hstart, hstarted⟩ := start_spec (fdiskMakePart_size hn hopen hm) hstate
  obtain ⟨start', ⟨next, placed⟩, hstart', hadd⟩ := fdiskMakePart_run hn hopen hm
  obtain rfl : start' = start := Except.ok.inj (hstart'.symm.trans hstart)
  have hkept := addAll_kept hstarted.ready hn hadd
  have hposition : next.position = 0 := hkept.same.position_eq.trans hstarted.position_eq
  obtain ⟨m', hm', _, hwrote⟩ := fdiskMakePart_eq hn hopen hstart hadd hkept.ready hposition
  obtain rfl : m' = m := Except.ok.inj (hm'.symm.trans hm)
  exact ⟨_, next, hstarted, hkept, hwrote⟩

theorem fdiskMakePart_written {m : Made} (hn : 1 ≤ n ∧ n ≤ 4) (hstate : g.sectorSize < 2 ^ 32)
    (hopen : io.openDevice = true) (hm : fdiskMakePart io fuel g n = .ok m)
    : m.Written io (g.nextSectorSize io.kernel) := by
  obtain ⟨start, next, hstarted, hkept, hwrote⟩ := fdiskMakePart_kept hn hstate hopen hm
  have hnextSize : next.sectorSize = g.nextSectorSize io.kernel :=
    hkept.same.sectorSize_eq.trans hstarted.sectorSize_eq
  refine ⟨hwrote.ret_eq, ?_, ?_, ?_, ?_, ?_, hwrote.device_eq, hwrote.sectorSize_eq.trans hnextSize,
    hwrote.heads_eq.trans (hkept.same.heads_eq.trans hstarted.heads_eq),
    hwrote.sectors_eq.trans (hkept.same.sectors_eq.trans hstarted.sectors_eq)⟩
  . rw [hwrote.table_eq]
    exact hkept.code_eq.trans (congrArg Buffer.code hstarted.table_eq)
  . intro i
    rw [hwrote.table_eq]
    have hsysInd := hkept.sysInd_eq i
    rw [hstarted.table_eq] at hsysInd
    exact hsysInd
  . rw [hwrote.table_eq]
    rfl
  . rw [hwrote.table_eq]
    rfl
  . rw [hwrote.table_eq, ← hnextSize]
    exact hwrote.taken_eq

theorem fdiskMakePart_extendedOffset {m : Made} (hn : 1 ≤ n ∧ n ≤ 4)
    (hstate : g.sectorSize < 2 ^ 32) (hopen : io.openDevice = true)
    (hm : fdiskMakePart io fuel g n = .ok m) : m.globals.extendedOffset = g.extendedOffset := by
  obtain ⟨start, next, hstarted, hkept, hwrote⟩ := fdiskMakePart_kept hn hstate hopen hm
  calc
    m.globals.extendedOffset = next.extendedOffset := hwrote.extendedOffset_eq
    _ = start.extendedOffset := hkept.same.extendedOffset_eq
    _ = g.extendedOffset := hstarted.extendedOffset_eq

theorem fdiskMakePart_starts (fuel : Nat) (hn : 1 ≤ n ∧ n ≤ 4)
    (hsize : DEFAULT_SECTOR_SIZE ≤ g.nextSectorSize io.kernel) (hstate : g.sectorSize < 2 ^ 32)
    (hopen : io.openDevice = true)
    : ∃ start : Globals, g.Started io.kernel start
        ∧ ∀ r, addAll fuel start n = .ok r → ∃ m, fdiskMakePart io fuel g n = .ok m
          ∧ m.placed = r.2 ∧ m.globals.bufs 0 = writePartTableFlag (r.1.bufs 0) := by
  obtain ⟨start, hstart, hstarted⟩ := start_spec hsize hstate
  refine ⟨updateUnits start, hstarted, ?_⟩
  intro ⟨next, placed⟩ hadd
  have hkept := addAll_kept hstarted.ready hn hadd
  have hposition : next.position = 0 := hkept.same.position_eq.trans hstarted.position_eq
  obtain ⟨m, hm, hplaced, hwrote⟩ :=
    fdiskMakePart_eq hn hopen hstart hadd hkept.ready hposition
  exact ⟨m, hm, hplaced, hwrote.table_eq⟩

theorem fdiskMakePart_made (hn : 1 ≤ n ∧ n ≤ 4)
    (hsize : DEFAULT_SECTOR_SIZE ≤ g.nextSectorSize io.kernel) (hstate : g.sectorSize < 2 ^ 32)
    (hext : g.extendedOffset = 0) (hopen : io.openDevice = true) (hfuel : 3 ≤ fuel)
    : ∃ m next, fdiskMakePart io fuel g n = .ok m
        ∧ (m.globals.bufs 0).entries = (next.bufs 0).entries
        ∧ (Layout.measured io.kernel g hsize).Outcome n next m.placed := by
  obtain ⟨start, hstarted, hends⟩ := fdiskMakePart_starts fuel hn hsize hstate hopen
  obtain ⟨⟨next, placed⟩, hadd, houtcome⟩ :=
    Layout.addAll_outcome (hstarted.laid (n := n) hsize hext) hn hfuel
  obtain ⟨m, hm, hplaced, htable⟩ := hends _ hadd
  refine ⟨m, next, hm, ?_, ?_⟩
  . rw [htable]
    rfl
  . rw [hplaced]
    exact houtcome

theorem fdiskMakePart_terminates (hn : 1 ≤ n ∧ n ≤ 4) (hstate : g.sectorSize < 2 ^ 32)
    (hg : g.NeverBooted) (hfuel : 3 ≤ fuel) : fdiskMakePart io fuel g n ≠ .error .outOfFuel := by
  -- three rounds are enough, also for a search that meets the entry that an earlier one has
  -- wrapped
  have hparts : ¬(n > 4 ∨ n = 0) := by omega
  have hpartitions : g.setPartitions 4 = .ok { g with partitions := 4 } :=
    Globals.setPartitions_of_bounds (by decide)
  cases hopen : io.openDevice with
  | false => simp [fdiskMakePart, hparts, hpartitions, bind, Except.bind, hopen, pure, Except.pure]
  | true =>
    cases Nat.lt_or_ge (g.nextSectorSize io.kernel) DEFAULT_SECTOR_SIZE with
    | inl hsmall =>
      -- the division by zero in `get_geometry` comes before the first search
      have hstart := getGeometry_setUp_small hsmall
      simp [fdiskMakePart, hparts, hpartitions, bind, Except.bind, hopen, hstart]
    | inr hsize =>
      obtain ⟨m, _, hm, _⟩ := fdiskMakePart_made hn hsize hstate hg.2 hopen hfuel
      rw [hm]
      exact fun h => nomatch h

theorem fdiskMakePart_terminates_card
    : fdiskMakePart (.card 512 (2 ^ 20)) 3 .initial 4 ≠ .error .outOfFuel :=
  fdiskMakePart_terminates (by decide) (by decide) (by decide) (Nat.le_refl 3)

theorem fdiskMakePart_outcome (hn : 1 ≤ n ∧ n ≤ 4)
    (hsize : DEFAULT_SECTOR_SIZE ≤ g.nextSectorSize io.kernel) (hstate : g.sectorSize < 2 ^ 32)
    (hext : g.extendedOffset = 0) (hio : io.Succeeds (g.nextSectorSize io.kernel))
    (hfuel : 3 ≤ fuel)
    : ∃ m next, fdiskMakePart io fuel g n = .ok m ∧ m.ret = 0
        ∧ m.table.entries = (next.bufs 0).entries
        ∧ (Layout.measured io.kernel g hsize).Outcome n next m.placed := by
  obtain ⟨m, next, hm, hentries, houtcome⟩ :=
    fdiskMakePart_made hn hsize hstate hext hio.openDevice hfuel
  have hwritten := fdiskMakePart_written hn hstate hio.openDevice hm
  refine ⟨m, next, hm, hwritten.ret_eq.trans hio.status_eq, ?_, houtcome⟩
  unfold Made.table
  rw [hwritten.written_eq hio, mbrMemory_eq hsize, Buffer.ofBytes_toBytes, hentries]

theorem fdiskMakePart_card (sectorSize bytes n : Nat) (hn : 1 ≤ n ∧ n ≤ 4)
    (hsize : DEFAULT_SECTOR_SIZE ≤ Globals.initial.nextSectorSize (.mmc sectorSize bytes))
    (hlt : sectorSize < 2 ^ 32) (hfits : sectorSize ≤ bytes)
    : ∃ m next, fdiskMakePart (.card sectorSize bytes) 3 .initial n = .ok m ∧ m.ret = 0
        ∧ m.table.entries = (next.bufs 0).entries
        ∧ (Layout.measured (.mmc sectorSize bytes) .initial hsize).Outcome n next m.placed := by
  have hnextSize : Globals.initial.nextSectorSize (Io.card sectorSize bytes).kernel = sectorSize :=
    Word.trunc_of_lt hlt
  refine fdiskMakePart_outcome hn hsize (by decide) rfl ?_ (Nat.le_refl 3)
  rw [hnextSize]
  exact Io.card_succeeds hfits

end Outcome

end FsBench.Fdisk
