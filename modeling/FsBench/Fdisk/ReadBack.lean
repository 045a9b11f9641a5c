import FsBench.Fdisk.MakePart

/-!
This module contains when the table that `fdisk_make_part` writes is the one that `get_boot` reads
from the device afterwards.
-/

namespace FsBench.Fdisk

section Device

variable {d : Device} {position count i : Nat} {bytes : List UInt8}

theorem Device.read_getElem (h : i < (d.read position count).length)
    : (d.read position count)[i] = d.byte (position + i) := by
  simp [read]

theorem Device.write_byte (h : i < bytes.length)
    : (d.write position bytes).byte (position + i) = bytes[i] := by
  have hinside : position ≤ position + i ∧ position + i < position + bytes.length := by omega
  unfold write
  dsimp only
  rw [if_pos hinside, Nat.add_sub_cancel_left, List.getD_eq_getElem?_getD,
    List.getElem?_eq_getElem h, Option.getD_some]

theorem Device.read_write (hcount : count ≤ bytes.length) (hfits : position + count ≤ d.size)
    : (d.write position bytes).read position count = bytes.take count := by
  have hlength : ((d.write position bytes).read position count).length = count := by
    rw [read_length]
    change min count (d.size - position) = count
    omega
  apply List.ext_getElem
  . rw [hlength, List.length_take, Nat.min_eq_left hcount]
  . intro i hi _
    rw [hlength] at hi
    rw [read_getElem, write_byte (Nat.lt_of_lt_of_le hi hcount), List.getElem_take]

end Device

theorem Globals.nextSectorSize_of_eq {k : Kernel} {g g' : Globals}
    (h : g'.sectorSize = g.nextSectorSize k) : g'.nextSectorSize k = g.nextSectorSize k := by
  unfold nextSectorSize getSectorsize at *
  split
  . rfl
  . next harg =>
    rw [harg] at h
    exact h

structure Globals.Booted (k : Kernel) (b : Buffer) (next : Globals) : Prop where
  partitions_eq : next.partitions = 4
  extendedOffset_eq : next.extendedOffset = 0
  table_eq : next.bufs 0 = b
  heads_eq : next.heads = settledHeads k b
  sectors_eq : next.sectors = settledSectors k b

section GetBoot

variable {d : Device} {malloc : Nat → Nat → UInt8} {k : Kernel} {fuel : Nat} {g : Globals}
variable {b : Buffer}

open getBoot

theorem readMBR_eq (hposition : g.position = 0) (hread : d.read 0 512 = b.toBytes)
    : readMBR d g
      = ({ g with bufs := Function.update g.bufs 0 b, position := 512 }, 512) := by
  unfold readMBR
  rw [hposition, hread]
  dsimp only
  rw [Buffer.ofBytes_toBytes, Buffer.toBytes_length]

theorem extended_eq {i : Slot} (hpte : g.ptes i = .primary i)
    (hprimary : IS_EXTENDED ((g.bufs 0).entries i).sysInd = false)
    : extended d malloc fuel g i = .ok g := by
  have hlt : i.val < MAXIMUM_PARTS := Nat.lt_trans i.isLt (by decide)
  have hpart : g.part { buf := 0, slot := i } = (g.bufs 0).entries i := rfl
  simp only [extended, Globals.getPte_of_lt hlt, hpte, Pte.primary, deref, bind, Except.bind, hpart,
    hprimary, Bool.false_eq_true, false_and, if_false, pure, Except.pure]

structure Globals.Loaded (k : Kernel) (g : Globals) (b : Buffer) (next : Globals) : Prop where
  partitions_eq : next.partitions = 4
  extIndex_eq : next.extIndex = 0
  extendedOffset_eq : next.extendedOffset = 0
  sectorSize_eq : next.sectorSize = g.nextSectorSize k
  table_eq : next.bufs 0 = b
  ptes_eq : ∀ i : Slot, next.ptes i = .primary i
  heads_eq : next.heads = settledHeads k b
  sectors_eq : next.sectors = settledSectors k b

theorem getBoot_loaded (malloc : Nat → Nat → UInt8) (fuel : Nat) (hposition : g.position = 0)
    (hread : d.read 0 512 = b.toBytes) (hflag : validPartTableFlag b = true)
    (hsize : DEFAULT_SECTOR_SIZE ≤ g.nextSectorSize k) (hstate : g.sectorSize < 2 ^ 32)
    : ∃ loaded, g.Loaded k b loaded ∧ getBoot d malloc k fuel g = (do
        let g ← [0, 1, 2, 3].foldlM (extended d malloc fuel) loaded
        let g ← checkFlags (g.partitions - 3) g 3
        return (g, 0)) := by
  have hfour : 4 ≤ 4 ∧ 4 ≤ MAXIMUM_PARTS := by decide
  generalize hg₁ : setUp { { g with partitions := 4 } with extIndex := 0, extendedOffset := 0 } = g₁
  have hmbr := readMBR_eq (d := d) (g := g₁) (b := b) (by rw [← hg₁]; exact hposition) hread
  generalize hg₂ : ({ g₁ with bufs := Function.update g₁.bufs 0 b, position := 512 } : Globals) = g₂
    at hmbr
  have hbuf : g₂.bufs 0 = b := by
    rw [← hg₂]
    exact Function.update_self 0 b g₁.bufs
  have hsector : g₂.sectorSize = g.sectorSize := by
    rw [← hg₂, ← hg₁]
    rfl
  obtain ⟨g₃, hg₃, hmeasured, hsectorSize, -⟩ := measure_spec hsector hsize hstate
  generalize hg₄ : updateUnits g₃ = g₄ at hmeasured hsectorSize
  have hsame := hmeasured.same
  have hbuf₄ : g₄.bufs 0 = b := (congrFun hsame.bufs_eq 0).trans hbuf
  have hheads := hmeasured.heads_eq
  have hsectors := hmeasured.sectors_eq
  rw [hbuf] at hheads hsectors
  refine ⟨g₄, ⟨?_, ?_, ?_, hsectorSize, hbuf₄, ?_, hheads, hsectors⟩, ?_⟩
  . rw [hsame.partitions_eq, ← hg₂, ← hg₁]
    rfl
  . rw [hsame.extIndex_eq, ← hg₂, ← hg₁]
    rfl
  . rw [hsame.extendedOffset_eq, ← hg₂, ← hg₁]
    rfl
  . intro i
    rw [hsame.ptes_eq, ← hg₂, ← hg₁]
    exact dif_pos i.isLt
  . simp only [getBoot, Globals.setPartitions_of_bounds hfour, bind, Except.bind, hg₁, hmbr, ne_eq,
      not_true_eq_false, if_false, hg₃, hg₄, hbuf₄, hflag, if_true]

theorem getBoot_of_table (hposition : g.position = 0) (hread : d.read 0 512 = b.toBytes)
    (hflag : validPartTableFlag b = true)
    (hprimary : ∀ i, IS_EXTENDED (b.entries i).sysInd = false)
    (hsize : DEFAULT_SECTOR_SIZE ≤ g.nextSectorSize k) (hstate : g.sectorSize < 2 ^ 32)
    : ∃ next, getBoot d malloc k fuel g = .ok (next, 0) ∧ next.Booted k b := by
  obtain ⟨loaded, hloaded, hboot⟩ := getBoot_loaded malloc fuel hposition hread hflag hsize hstate
  have hextended : ∀ i : Slot, extended d malloc fuel loaded i = .ok loaded := by
    intro i
    apply extended_eq (hloaded.ptes_eq i)
    rw [hloaded.table_eq]
    exact hprimary i
  have hpte : loaded.getPte 3 = .ok (.primary 3) := by
    rw [Globals.getPte_of_lt (by decide)]
    exact congrArg Except.ok (hloaded.ptes_eq 3)
  refine ⟨loaded, ?_, hloaded.partitions_eq, hloaded.extendedOffset_eq, hloaded.table_eq,
    hloaded.heads_eq, hloaded.sectors_eq⟩
  simp only [hboot, bind, Except.bind, List.foldlM_cons, hextended, List.foldlM_nil, pure,
    Except.pure, hloaded.partitions_eq, checkFlags, hpte, Pte.primary, deref, hloaded.table_eq,
    hflag, if_true, Nat.reduceSub]

end GetBoot

/--
The sector that was written is a table and zeros from inside `MBRbuffer`, and `get_boot` gives the
table that is still in memory.
-/
structure Made.ReadsBack (io : Io) (malloc : Nat → Nat → UInt8) (fuel sectorSize : Nat) (m : Made)
    : Prop where
  written_eq : m.written = List.replicate 446 0 ++ ((m.globals.bufs 0).entries 0).toBytes
    ++ ((m.globals.bufs 0).entries 1).toBytes ++ ((m.globals.bufs 0).entries 2).toBytes
    ++ ((m.globals.bufs 0).entries 3).toBytes ++ [0x55, 0xaa]
    ++ List.replicate (sectorSize - 512) 0
  inside : m.written.length ≤ MAX_SECTOR_SIZE
  boot : ∃ next, getBoot m.device malloc io.kernel fuel { m.globals with position := 0 }
      = .ok (next, 0)
    ∧ next.partitions = 4 ∧ next.extendedOffset = 0
    ∧ (next.bufs 0).entries = (m.globals.bufs 0).entries

namespace Made.Written

variable {io : Io} {sectorSize : Nat} {m : Made}

theorem length_eq (h : m.Written io sectorSize) (hio : io.Succeeds sectorSize)
    : m.written.length = sectorSize := by
  rw [h.written_eq hio, mbrMemory_length]

theorem toBytes_eq (h : m.Written io sectorSize)
    : (m.globals.bufs 0).toBytes
      = List.replicate 446 0 ++ ((m.globals.bufs 0).entries 0).toBytes
        ++ ((m.globals.bufs 0).entries 1).toBytes ++ ((m.globals.bufs 0).entries 2).toBytes
        ++ ((m.globals.bufs 0).entries 3).toBytes ++ [0x55, 0xaa] := by
  unfold Buffer.toBytes
  rw [h.code_eq, h.flag0_eq, h.flag1_eq]

theorem written_eq_zeros (h : m.Written io sectorSize) (hio : io.Succeeds sectorSize)
    (hsize : 512 ≤ sectorSize) (hmax : sectorSize ≤ MAX_SECTOR_SIZE)
    : m.written = (m.globals.bufs 0).toBytes ++ List.replicate (sectorSize - 512) 0 := by
  have hrest : sectorSize - 512 ≤ MAX_SECTOR_SIZE - 512 := Nat.sub_le_sub_right hmax 512
  rw [h.written_eq hio, mbrMemory_eq hsize, List.take_append_of_le_length, List.take_replicate,
    Nat.min_eq_left hrest]
  rw [List.length_replicate]
  exact hrest

theorem valid (h : m.Written io sectorSize)
    : validPartTableFlag (m.globals.bufs 0) = true := by
  unfold validPartTableFlag
  rw [h.flag0_eq, h.flag1_eq]
  decide

theorem boots {g : Globals} (h : m.Written io (g.nextSectorSize io.kernel))
    (hsize : DEFAULT_SECTOR_SIZE ≤ g.nextSectorSize io.kernel) (hstate : g.sectorSize < 2 ^ 32)
    (hio : io.Succeeds (g.nextSectorSize io.kernel)) (malloc : Nat → Nat → UInt8) (fuel : Nat)
    : ∃ next, getBoot m.device malloc io.kernel fuel { m.globals with position := 0 }
        = .ok (next, 0)
      ∧ next.Booted io.kernel (m.globals.bufs 0) := by
  have hread : m.device.read 0 512 = (m.globals.bufs 0).toBytes := by
    rw [h.device_eq, Device.read_write]
    . rw [h.written_eq hio, mbrMemory_eq hsize, List.take_left' Buffer.toBytes_length]
    . rw [h.length_eq hio]
      exact hsize
    . exact Nat.le_trans (Nat.le_of_eq (Nat.zero_add 512)) (Nat.le_trans hsize hio.fits)
  have hprimary : ∀ i, IS_EXTENDED ((m.globals.bufs 0).entries i).sysInd = false := by
    intro i
    cases h.sysInd_eq i with
    | inl hzero =>
      rw [hzero]
      decide
    | inr hfat =>
      rw [hfat]
      decide
  have hnextSize : Globals.nextSectorSize io.kernel { m.globals with position := 0 }
      = g.nextSectorSize io.kernel := Globals.nextSectorSize_of_eq h.sectorSize_eq
  apply getBoot_of_table rfl hread h.valid hprimary
  . rw [hnextSize]
    exact hsize
  . rw [h.sectorSize_eq]
    exact Globals.nextSectorSize_lt hstate

theorem readsBack_iff {g : Globals} (h : m.Written io (g.nextSectorSize io.kernel))
    (hsize : DEFAULT_SECTOR_SIZE ≤ g.nextSectorSize io.kernel) (hstate : g.sectorSize < 2 ^ 32)
    (hio : io.Succeeds (g.nextSectorSize io.kernel)) (malloc : Nat → Nat → UInt8) (fuel : Nat)
    : m.ReadsBack io malloc fuel (g.nextSectorSize io.kernel)
      ↔ g.nextSectorSize io.kernel ≤ MAX_SECTOR_SIZE := by
  constructor
  . intro hback
    rw [← h.length_eq hio]
    exact hback.inside
  . intro hmax
    obtain ⟨next, hnext, hbooted⟩ := h.boots hsize hstate hio malloc fuel
    refine ⟨?_, ?_, next, hnext, hbooted.partitions_eq, hbooted.extendedOffset_eq,
      congrArg Buffer.entries hbooted.table_eq⟩
    . rw [h.written_eq_zeros hio hsize hmax, h.toBytes_eq]
    . rw [h.length_eq hio]
      exact hmax

end Made.Written

theorem fdiskMakePart_readsBack_iff {io : Io} {malloc : Nat → Nat → UInt8} {g : Globals}
    {fuel bootFuel n : Nat} (hn : 1 ≤ n ∧ n ≤ 4)
    (hsize : DEFAULT_SECTOR_SIZE ≤ g.nextSectorSize io.kernel) (hstate : g.sectorSize < 2 ^ 32)
    (hio : io.Succeeds (g.nextSectorSize io.kernel))
    : (g.NeverBooted → 3 ≤ fuel → ∃ m, fdiskMakePart io fuel g n = .ok m ∧ m.ret = 0)
        ∧ ∀ m, fdiskMakePart io fuel g n = .ok m →
          (m.ReadsBack io malloc bootFuel (g.nextSectorSize io.kernel)
            ↔ g.nextSectorSize io.kernel ≤ MAX_SECTOR_SIZE) := by
  constructor
  . intro hboot hfuel
    obtain ⟨m, _, hm, hret, _⟩ := fdiskMakePart_outcome hn hsize hstate hboot.2 hio hfuel
    exact ⟨m, hm, hret⟩
  . intro m hm
    have hwritten := fdiskMakePart_written hn hstate hio.openDevice hm
    exact hwritten.readsBack_iff hsize hstate hio malloc bootFuel

theorem fdiskMakePart_readsBack_iff_card
    : (Globals.initial.NeverBooted → 3 ≤ 3 →
        ∃ m, fdiskMakePart (.card 2048 (2 ^ 31)) 3 .initial 2 = .ok m ∧ m.ret = 0)
      ∧ ∀ m, fdiskMakePart (.card 2048 (2 ^ 31)) 3 .initial 2 = .ok m →
        (m.ReadsBack (.card 2048 (2 ^ 31)) (fun _ _ => 0) 3 2048 ↔ 2048 ≤ MAX_SECTOR_SIZE) :=
  fdiskMakePart_readsBack_iff (by decide) (by decide) (by decide) (Io.card_succeeds (by decide))

theorem fdiskMakePart_not_readsBack
    : ∃ m, fdiskMakePart (.card 4096 (2 ^ 31)) 3 .initial 1 = .ok m
        ∧ m.written.length = 4096
        ∧ ¬m.ReadsBack (.card 4096 (2 ^ 31)) (fun _ _ => 0) 3 4096 := by
  -- half of what is written comes from behind `MBRbuffer`
  obtain ⟨m, _, hm, _⟩ :=
    fdiskMakePart_card 4096 (2 ^ 31) 1 (by decide) (by decide) (by decide) (by decide)
  have hwritten := fdiskMakePart_written (by decide) (by decide) rfl hm
  have hlength : m.written.length = 4096 := hwritten.length_eq (Io.card_succeeds (by decide))
  refine ⟨m, hm, hlength, ?_⟩
  intro hback
  have hinside := hback.inside
  rw [hlength] at hinside
  exact absurd hinside (by decide)

end FsBench.Fdisk
