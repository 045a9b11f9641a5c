import FsBench.Fdisk.Remembered
import FsBench.Fdisk.Stale

/-!
This module contains what of the calls before it a call of `fdisk_make_part` depends on: which states
it does not tell apart, and for which devices it depends on nothing. Of the latter those are left out
that take a part of the table only.
-/

namespace FsBench.Fdisk

open addPartition

/-- A call on a device that has just been opened. -/
inductive Call where
  | getBoot (d : Device) (malloc : Nat → Nat → UInt8) (k : Kernel) (fuel : Nat)
  | fdiskMakePart (io : Io) (fuel n : Nat)

def Call.run (g : Globals) : Call → Result Globals
  | .getBoot d malloc k fuel => do
    let (g, _) ← Fdisk.getBoot d malloc k fuel { g with position := 0 }
    return g
  | .fdiskMakePart io fuel n => do
    let m ← Fdisk.fdiskMakePart io fuel g n
    return m.globals

def history (calls : List Call) : Result Globals :=
  calls.foldlM Call.run .initial

def callAfter (calls : List Call) (io : Io) (fuel n : Nat) : Result Made := do
  let g ← history calls
  fdiskMakePart io fuel g n

/--
The globals that are not set anew before they are used: the size of a sector when `BLKSSZGET` fails,
and what `get_boot` has noted of an extended partition.
-/
structure Globals.Indistinct (k : Kernel) (g g' : Globals) : Prop where
  sectorSize_eq : g'.nextSectorSize k = g.nextSectorSize k
  extendedOffset_eq : g'.extendedOffset = g.extendedOffset
  extIndex_eq : g.extendedOffset ≠ 0 → g'.extIndex = g.extIndex

/-- The bytes that a call writes; one that does not end has not come to its write. -/
def bytesOf : Result Made → List UInt8
  | .ok m => m.written
  | .error _ => []

def SameWrite (r r' : Result Made) : Prop := bytesOf r' = bytesOf r

structure Globals.Agree (g g' : Globals) : Prop where
  four : g.FourPrimary
  four' : g'.FourPrimary
  table_eq : g'.bufs 0 = g.bufs 0
  extendedOffset_eq : g'.extendedOffset = g.extendedOffset
  extIndex_eq : g.extendedOffset ≠ 0 → g'.extIndex = g.extIndex
  position_eq : g'.position = g.position
  sectorSize_eq : g'.sectorSize = g.sectorSize
  heads_eq : g'.heads = g.heads
  sectors_eq : g'.sectors = g.sectors
  cylinders_eq : g'.cylinders = g.cylinders
  units_eq : g'.unitsPerSector = g.unitsPerSector
  sectorOffset_eq : g'.sectorOffset = g.sectorOffset
  total_eq : g'.totalNumberOfSectors = g.totalNumberOfSectors

theorem Globals.Indistinct.symm {k : Kernel} {g g' : Globals} (h : g.Indistinct k g')
    : g'.Indistinct k g where
  sectorSize_eq := h.sectorSize_eq.symm
  extendedOffset_eq := h.extendedOffset_eq.symm
  extIndex_eq hext := (h.extIndex_eq (by rw [← h.extendedOffset_eq]; exact hext)).symm

namespace Globals.Agree

variable {g g' next : Globals} {fuel partCyls : Nat} {sys : UInt8} {bPartAligned : Bool}
variable {placed : Option Placed}

theorem area (h : g.Agree g') (i : Slot) : area g' i = area g i := by
  have hbounds := h.four.fillBounds
  have hbounds' := h.four'.fillBounds
  rw [h.table_eq] at hbounds'
  simp only [addPartition.area, hbounds, hbounds', bind, Except.bind, if_pos i.isLt,
    h.extendedOffset_eq, h.sectorOffset_eq, h.heads_eq, h.sectors_eq, h.cylinders_eq, h.total_eq]
  split
  . next hext =>
    rw [h.extIndex_eq hext]
    by_cases hlt : g.extIndex < 4
    . have hend := extendedEnd_of_lt h.four (i := ⟨g.extIndex, hlt⟩) rfl
      have hend' := extendedEnd_of_lt h.four' (i := ⟨g.extIndex, hlt⟩) (h.extIndex_eq hext)
      rw [h.table_eq] at hend'
      rw [hend, hend']
    . rw [List.getElem?_eq_none (Nat.le_of_not_lt hlt)]
  . rfl

theorem place (h : g.Agree g') (n start limit : Nat)
    : place g' n partCyls bPartAligned start limit = place g n partCyls bPartAligned start limit := by
  unfold addPartition.place
  rw [h.units_eq, h.sectorOffset_eq]

theorem setPartition (h : g.Agree g') (i : Slot) (chosen : Placed) (sectorOffset : Nat)
    (hok : setPartition { g with sectorOffset } i false chosen.start chosen.stop sys = .ok next)
    : ∃ next', Fdisk.setPartition { g' with sectorOffset } i false chosen.start chosen.stop sys
          = .ok next'
        ∧ next.Agree next' := by
  rw [setPartition_eq h.four] at hok
  rw [setPartition_eq h.four', h.heads_eq, h.sectors_eq, h.table_eq]
  split at hok
  . cases hok
  . next hpos =>
    rw [if_neg hpos]
    obtain rfl := Except.ok.inj hok
    refine ⟨_, rfl, h.four.changed i rfl rfl, h.four'.changed i rfl rfl, ?_, h.extendedOffset_eq,
      h.extIndex_eq, h.position_eq, h.sectorSize_eq, h.heads_eq, h.sectors_eq, h.cylinders_eq,
      h.units_eq, rfl, h.total_eq⟩
    dsimp only [Globals.setPart]
    rw [Function.update_self, Function.update_self, h.table_eq,
      newEntry_congr h.heads_eq h.sectors_eq]

theorem addPartition (h : g.Agree g') (i : Slot)
    (hok : addPartition fuel g i sys partCyls bPartAligned = .ok (next, placed))
    : ∃ next', Fdisk.addPartition fuel g' i sys partCyls bPartAligned = .ok (next', placed)
        ∧ next.Agree next' := by
  have hn : ¬(i.val > 4) := by omega
  simp only [Fdisk.addPartition, bind, Except.bind, displayInCylUnits, if_true, if_neg hn, pure,
    Except.pure] at hok
  simp only [Fdisk.addPartition, bind, Except.bind, displayInCylUnits, if_true, if_neg hn, pure,
    Except.pure, h.units_eq, h.area i, h.sectorOffset_eq, h.place]
  split at hok
  . cases hok
  . next hunits =>
    rw [if_neg hunits]
    split at hok
    . cases hok
    . next area _ =>
      split at hok
      . cases hok
      . next start _ =>
        split at hok
        . next hfull =>
          cases hok
          rw [if_pos hfull]
          exact ⟨g', rfl, h⟩
        . next hfree =>
          rw [if_neg hfree]
          generalize addPartition.place g i partCyls bPartAligned start _ = chosen at hok ⊢
          obtain ⟨chosen, sectorOffset⟩ := chosen
          dsimp only at hok ⊢
          split at hok
          . cases hok
          . next g₁ hset =>
            cases hok
            obtain ⟨next', hnext', hagree⟩ := h.setPartition i chosen sectorOffset hset
            rw [h.units_eq] at hnext'
            rw [hnext']
            exact ⟨next', rfl, hagree⟩

open fdiskMakePart in
theorem addAll {n : Nat} {added : List (Option Placed)} (h : g.Agree g') (hn : 1 ≤ n ∧ n ≤ 4)
    (hok : addAll fuel g n = .ok (next, added))
    : ∃ next', fdiskMakePart.addAll fuel g' n = .ok (next', added) ∧ next.Agree next' := by
  simp only [fdiskMakePart.addAll, bind, Except.bind, pure, Except.pure, h.cylinders_eq] at hok ⊢
  split at hok
  . cases hok
  . next s hfold =>
    let R (s s' : Globals × List (Option Placed)) := s.1.Agree s'.1 ∧ s'.2 = s.2
    have hstart : R (g, []) (g', []) := ⟨h, rfl⟩
    obtain ⟨s', hfold', hagree, hadded⟩ := Loop.foldlM_simulates (R := R) (by
        intro i hi s s' t hs hbody
        obtain ⟨hagree, hadded⟩ := hs
        have hi := List.mem_range.mp hi
        split at hbody
        . cases hbody
        . next r hadd =>
          cases hbody
          obtain ⟨next', hnext', hagree⟩ := hagree.addPartition ⟨i, by omega⟩ hadd
          simp only [hnext']
          exact ⟨_, rfl, hagree, by rw [hadded]⟩) hstart hfold
    rw [hfold']
    split at hok
    . cases hok
    . next r hadd =>
      cases hok
      obtain ⟨next', hnext', hagree⟩ := hagree.addPartition ⟨n - 1, by omega⟩ (by
        rw [hagree.cylinders_eq.symm] at hadd
        exact hadd)
      simp only [hnext']
      exact ⟨_, by rw [hadded], hagree⟩

end Globals.Agree

section Call

variable {io : Io} {k : Kernel} {g g' : Globals} {fuel n : Nat} {m : Made}

theorem seekSector_congr (d : Device) (secno : Nat) (hposition : g'.position = g.position)
    (hsize : g'.sectorSize = g.sectorSize)
    : (seekSector d g' secno).position = (seekSector d g secno).position := by
  simp only [seekSector, hsize]
  generalize Word.toSigned 64 (Word.mul 64 secno g.sectorSize) = offset
  split
  . rfl
  . exact hposition

theorem writeSector_congr (io : Io) (secno : Nat) (b : Buffer) (hposition : g'.position = g.position)
    (hsize : g'.sectorSize = g.sectorSize)
    : (writeSector io g' secno b).2 = (writeSector io g secno b).2
        ∧ (writeSector io g' secno b).1.position = (writeSector io g secno b).1.position := by
  have hseek := seekSector_congr io.device secno hposition hsize
  obtain ⟨position, hg⟩ := seekSector_eq io.device g secno
  obtain ⟨position', hg'⟩ := seekSector_eq io.device g' secno
  rw [hg, hg'] at hseek
  unfold writeSector
  rw [hg, hg']
  dsimp only at hseek ⊢
  rw [hseek, hsize]
  split <;> exact ⟨rfl, rfl⟩

theorem Globals.Agree.writeTable {next : Globals} {written : List UInt8} (h : g.Agree g')
    (hok : writeTable io g = .ok (next, written))
    : ∃ next', Fdisk.writeTable io g' = .ok (next', written) ∧ next'.position = next.position := by
  rw [writeTable_eq io h.four] at hok
  rw [writeTable_eq io h.four', h.table_eq]
  generalize writePartTableFlag (g.bufs 0) = flagged at hok ⊢
  have hstart : ({ g' with bufs := Function.update g'.bufs 0 flagged } : Globals).position
      = ({ g with bufs := Function.update g.bufs 0 flagged } : Globals).position := h.position_eq
  obtain ⟨hwritten, hposition⟩ := writeSector_congr io 0 flagged hstart h.sectorSize_eq
  rw [Except.ok.inj hok] at hwritten hposition
  exact ⟨_, congrArg Except.ok (Prod.ext rfl hwritten), hposition⟩

open getBoot in
theorem Globals.Indistinct.start {start : Globals} (h : g.Indistinct k g')
    (hstart : getGeometry k { setUp { g with partitions := 4 } with position := 0 } = .ok start)
    : ∃ start', getGeometry k { setUp { g' with partitions := 4 } with position := 0 } = .ok start'
        ∧ (updateUnits start).Agree (updateUnits start') := by
  have hsize : nextSectorSize k { setUp { g with partitions := 4 } with position := 0 }
      = g.nextSectorSize k := nextSectorSize_congr rfl
  have hsize' : nextSectorSize k { setUp { g' with partitions := 4 } with position := 0 }
      = g'.nextSectorSize k := nextSectorSize_congr rfl
  rw [h.sectorSize_eq] at hsize'
  have htable : ∀ g : Globals, (setUp g).bufs 0 = .zero := fun g => Function.update_self 0 _ g.bufs
  rw [getGeometry_eq] at hstart
  rw [getGeometry_eq]
  simp only [htable, hsize, hsize'] at hstart ⊢
  split at hstart
  . cases hstart
  . next hpos =>
    rw [if_neg hpos]
    obtain rfl := Except.ok.inj hstart
    refine ⟨_, rfl, ?_⟩
    rw [updateUnits_set, updateUnits_set]
    refine ⟨.of_setUp rfl rfl, .of_setUp rfl rfl, ?_, h.extendedOffset_eq, h.extIndex_eq, rfl, rfl,
      rfl, rfl, rfl, rfl, rfl, rfl⟩
    exact (htable g').trans (htable g).symm

theorem fdiskMakePart_agrees
    (h : 1 ≤ n ∧ n ≤ 4 → io.openDevice = true → g.Indistinct io.kernel g')
    (hm : fdiskMakePart io fuel g n = .ok m)
    : ∃ m', fdiskMakePart io fuel g' n = .ok m' ∧ m'.written = m.written
        ∧ m'.device = m.device := by
  have hpartitions : ∀ g : Globals, g.setPartitions 4 = .ok { g with partitions := 4 } :=
    fun g => Globals.setPartitions_of_bounds (by decide)
  by_cases hn : n > 4 ∨ n = 0
  . simp only [fdiskMakePart, if_pos hn, pure, Except.pure] at hm ⊢
    cases hm
    exact ⟨_, rfl, rfl, rfl⟩
  . simp only [fdiskMakePart, if_neg hn, hpartitions, bind, Except.bind, pure, Except.pure] at hm ⊢
    split at hm
    . next hclosed =>
      cases hm
      rw [if_pos hclosed]
      exact ⟨_, rfl, rfl, rfl⟩
    . next hopen =>
      rw [if_neg hopen]
      split at hm
      . cases hm
      . next start hstart =>
        obtain ⟨start', hstart', hagree⟩ :=
          (h (by omega) (Bool.of_not_eq_false hopen)).start hstart
        simp only [hstart']
        split at hm
        . cases hm
        . next r hadd =>
          obtain ⟨next', hadd', hagree⟩ := hagree.addAll (by omega) hadd
          simp only [hadd']
          split at hm
          . cases hm
          . next t hwrite =>
            obtain ⟨last', hwrite', hposition⟩ := hagree.writeTable hwrite
            simp only [hwrite']
            rw [hposition]
            split at hm <;> (next hagain =>
              cases hm
              simp only [hagain]
              exact ⟨_, rfl, rfl, rfl⟩)

theorem SameWrite.of_indistinct (h : 1 ≤ n ∧ n ≤ 4 → io.openDevice = true → g.Indistinct io.kernel g')
    : SameWrite (fdiskMakePart io fuel g n) (fdiskMakePart io fuel g' n) := by
  cases hm : fdiskMakePart io fuel g n with
  | ok m =>
    obtain ⟨m', hm', hwritten, _⟩ := fdiskMakePart_agrees h hm
    rw [hm']
    exact hwritten
  | error =>
    cases hm' : fdiskMakePart io fuel g' n with
    | error => rfl
    | ok m' =>
      obtain ⟨m, hm'', _⟩ := fdiskMakePart_agrees (fun hn hopen => (h hn hopen).symm) hm'
      rw [hm] at hm''
      cases hm''

end Call

section Histories

variable {io : Io} {g next : Globals} {calls : List Call} {call : Call} {fuel n : Nat}

theorem fdiskMakePart_closed (g : Globals) (fuel : Nat) (h : ¬((1 ≤ n ∧ n ≤ 4) ∧ io.openDevice = true))
    : ∃ m, fdiskMakePart io fuel g n = .ok m ∧ m.written = [] ∧ g.Remembers m.globals := by
  have hpartitions : g.setPartitions 4 = .ok { g with partitions := 4 } :=
    Globals.setPartitions_of_bounds (by decide)
  by_cases hn : n > 4 ∨ n = 0
  . simp only [fdiskMakePart, if_pos hn, pure, Except.pure]
    exact ⟨_, rfl, rfl, .refl⟩
  . have hopen : io.openDevice = false := by
      apply Bool.eq_false_of_not_eq_true
      intro hopen
      exact h ⟨by omega, hopen⟩
    simp only [fdiskMakePart, if_neg hn, hpartitions, bind, Except.bind, if_pos hopen, pure,
      Except.pure]
    exact ⟨_, rfl, rfl, rfl, rfl, rfl⟩

theorem Globals.Bounded.fdiskMakePart {m : Made} (h : g.Bounded)
    (hm : fdiskMakePart io fuel g n = .ok m) : m.globals.Bounded := by
  by_cases hrun : (1 ≤ n ∧ n ≤ 4) ∧ io.openDevice = true
  . obtain ⟨hn, hopen⟩ := hrun
    have hlt := h.sectorSize_bounds.2
    obtain ⟨start, next, hstarted, hkept, hwrote⟩ := fdiskMakePart_kept hn hlt hopen hm
    refine ⟨?_, ?_, ?_⟩
    . rw [hwrote.extIndex_eq, hkept.same.extIndex_eq, hstarted.extIndex_eq]
      exact h.extIndex_lt
    . rw [hwrote.extendedOffset_eq, hkept.same.extendedOffset_eq, hstarted.extendedOffset_eq]
      exact h.extendedOffset_lt
    . rw [hwrote.sectorSize_eq, hkept.same.sectorSize_eq, hstarted.sectorSize_eq]
      exact ⟨fdiskMakePart_size hn hopen hm, Globals.nextSectorSize_lt hlt⟩
  . obtain ⟨m', hm', _, hremembers⟩ := fdiskMakePart_closed g fuel hrun
    rw [hm'] at hm
    cases hm
    exact hremembers.bounded h

theorem Globals.Bounded.run (h : g.Bounded) (hok : call.run g = .ok next) : next.Bounded := by
  cases call with
  | getBoot d malloc k fuel =>
    obtain ⟨⟨g₁, ret⟩, hboot, hok⟩ := bind_eq_ok.mp hok
    cases hok
    have hpositioned : ({ g with position := 0 } : Globals).Bounded :=
      ⟨h.extIndex_lt, h.extendedOffset_lt, h.sectorSize_bounds⟩
    exact hpositioned.getBoot hboot
  | fdiskMakePart io fuel n =>
    obtain ⟨m, hm, hok⟩ := bind_eq_ok.mp hok
    cases hok
    exact h.fdiskMakePart hm

theorem history_bounded (hg : history calls = .ok g) : g.Bounded := by
  have hinitial : Globals.initial.Bounded :=
    ⟨Nat.zero_lt_succ 3, Nat.two_pow_pos 32, Nat.le_refl _, by decide⟩
  exact Loop.foldlM_keeps (·.Bounded) (fun _ _ _ _ hg hok => hg.run hok) hinitial hg

theorem history_getBoot {d : Device} {malloc : Nat → Nat → UInt8} {k : Kernel} {ret : Int}
    (hok : getBoot d malloc k fuel .initial = .ok (g, ret))
    : history [.getBoot d malloc k fuel] = .ok g := by
  simp only [history, List.foldlM_cons, List.foldlM_nil, Call.run, bind, Except.bind, pure,
    Except.pure]
  have hposition : ({ Globals.initial with position := 0 } : Globals) = .initial := rfl
  rw [hposition, hok]

theorem history_extendedAt (start : Nat) (hstart : start < 2 ^ 32)
    : ∃ calls g, history calls = .ok g ∧ g.extIndex = 3 ∧ g.extendedOffset = start
        ∧ g.sectorSize < 2 ^ 32 ∧ ∀ k, g.nextSectorSize k = Globals.initial.nextSectorSize k := by
  obtain ⟨next, ret, hnext, hindex, hoffset, hsize⟩ :=
    getBoot_extendedAt (g := .initial) (k := .mmc 512 (2 ^ 30)) (fun _ _ => 0) hstart rfl
      (by decide) (by decide) (Nat.le_refl _)
  have hmmc : Globals.initial.nextSectorSize (.mmc 512 (2 ^ 30)) = 512 :=
    Word.trunc_of_lt (by decide)
  have hsame : next.sectorSize = Globals.initial.sectorSize := hsize.trans hmmc
  refine ⟨_, next, history_getBoot hnext, hindex, hoffset, ?_, fun _ => ?_⟩
  . rw [hsame]
    decide
  . exact Globals.nextSectorSize_congr hsame

theorem history_card (hn : 1 ≤ n ∧ n ≤ 4)
    : ∃ g, history [.fdiskMakePart (.card 2048 (2 ^ 31)) 3 n] = .ok g
        ∧ g.sectorSize = 2048 ∧ g.extendedOffset = 0 := by
  have hsucceeds := Io.card_succeeds (show 2048 ≤ 2 ^ 31 by decide)
  obtain ⟨m, _, hm, _⟩ := fdiskMakePart_made (g := .initial) hn (by decide) (by decide) rfl
    hsucceeds.openDevice (Nat.le_refl 3)
  refine ⟨m.globals, ?_, (fdiskMakePart_written hn (by decide) rfl hm).sectorSize_eq,
    fdiskMakePart_extendedOffset hn (by decide) rfl hm⟩
  simp only [history, List.foldlM_cons, List.foldlM_nil, Call.run, hm, bind, Except.bind, pure,
    Except.pure]

end Histories

section Exact

variable {io : Io} {g : Globals} {fuel n : Nat} {m : Made}

/-- How many bytes a write at the start of the device takes at most. -/
def Io.taken (io : Io) : Nat :=
  if io.writes then min io.takes io.device.size else 0

theorem Made.Written.taken {size : Nat} (h : m.Written io size)
    : m.written = (mbrMemory io.behind (m.globals.bufs 0) size).take io.taken := by
  rw [h.taken_eq, Io.taken]
  split
  . rfl
  . rw [List.take_zero]

theorem Made.Written.table_eq {size : Nat} (h : m.Written io size) (hsize : 512 ≤ size)
    (htaken : 512 ≤ io.taken) : m.table = m.globals.bufs 0 := by
  rw [Made.table, h.taken, mbrMemory_eq hsize, List.take_append, List.take_of_length_le]
  . exact Buffer.ofBytes_toBytes
  . rw [Buffer.toBytes_length]
    exact htaken

def Io.cylinders (io : Io) : Nat :=
  (blkdevGetSectors io.kernel).getD 0 / (kernelHeads io.kernel * kernelSectors io.kernel
    * (Globals.initial.nextSectorSize io.kernel / 512))

/--
The device is too small for two places of a partition, and as many bytes are written each time.
-/
def Io.OneCylinder (io : Io) : Prop :=
  2 ≤ kernelHeads io.kernel ∧ io.cylinders ≤ 1
    ∧ ((blkdevGetSectorSize io.kernel).isSome ∨ io.taken = 512)

instance {io : Io} : Decidable io.OneCylinder :=
  inferInstanceAs (Decidable (_ ∧ _ ∧ _))

/--
Nothing is written, the sectors are too small to be counted, or there is one place for the only
partition.
-/
def Io.Forgets (io : Io) (n : Nat) : Prop :=
  ¬(1 ≤ n ∧ n ≤ 4) ∨ io.openDevice = false ∨ io.taken = 0
    ∨ Globals.initial.nextSectorSize io.kernel < DEFAULT_SECTOR_SIZE ∨ (n = 1 ∧ io.OneCylinder)

instance {io : Io} {n : Nat} : Decidable (io.Forgets n) :=
  inferInstanceAs (Decidable (_ ∨ _ ∨ _ ∨ _ ∨ _))

theorem Globals.Bounded.nextSectorSize_eq {k : Kernel} (h : g.Bounded)
    : g.nextSectorSize k = Globals.initial.nextSectorSize k
        ∨ blkdevGetSectorSize k = none ∧ Globals.initial.nextSectorSize k = 512
          ∧ 512 ≤ g.nextSectorSize k := by
  have hsize := h.sectorSize_bounds.1
  cases hk : blkdevGetSectorSize k with
  | some size =>
    left
    simp only [Globals.nextSectorSize, getSectorsize, hk]
  | none =>
    refine .inr ⟨rfl, ?_⟩
    simp only [Globals.nextSectorSize, getSectorsize, hk]
    exact ⟨rfl, hsize⟩

theorem mbrMemory_take {behind : Nat → UInt8} {b : Buffer} {count : Nat} (hcount : 512 ≤ count)
    : (mbrMemory behind b count).take 512 = b.toBytes := by
  rw [mbrMemory_eq hcount]
  exact List.take_left' b.toBytes_length

theorem Io.OneCylinder.measured (h : io.OneCylinder) (hg : g.Bounded)
    (hfirst : DEFAULT_SECTOR_SIZE ≤ Globals.initial.nextSectorSize io.kernel)
    (hsize : DEFAULT_SECTOR_SIZE ≤ g.nextSectorSize io.kernel)
    : (Layout.measured io.kernel g hsize).base = 1
        ∧ (Layout.measured io.kernel g hsize).cylinders ≤ 1 := by
  obtain ⟨hheads, hcylinders, _⟩ := h
  have htrack := kernelSectors_bounds (k := io.kernel)
  constructor
  . have hlt : kernelSectors io.kernel < kernelHeads io.kernel * kernelSectors io.kernel := by
      calc kernelSectors io.kernel
        _ < 2 * kernelSectors io.kernel := by omega
        _ ≤ kernelHeads io.kernel * kernelSectors io.kernel := Nat.mul_le_mul_right _ hheads
    exact congrArg (· + 1) (Nat.div_eq_of_lt hlt)
  . -- larger sectors make fewer cylinders
    have hfac : Globals.initial.nextSectorSize io.kernel / 512 ≤ g.nextSectorSize io.kernel / 512 := by
      rcases hg.nextSectorSize_eq (k := io.kernel) with heq | ⟨_, heq, hle⟩
      . rw [heq]
      . rw [heq]
        exact Nat.div_le_div_right hle
    have hpos : 0 < kernelHeads io.kernel * kernelSectors io.kernel
        * (Globals.initial.nextSectorSize io.kernel / 512) :=
      Nat.mul_pos (Nat.mul_pos (by omega) htrack.1) (Nat.div_pos hfirst (by decide))
    have hle : (blkdevGetSectors io.kernel).getD 0 / (kernelHeads io.kernel * kernelSectors io.kernel
        * (g.nextSectorSize io.kernel / 512)) ≤ io.cylinders :=
      Nat.div_le_div_left (Nat.mul_le_mul_left _ hfac) hpos
    exact Nat.le_trans (Nat.min_le_left ..) (Nat.le_trans hle hcylinders)

theorem Io.OneCylinder.bytesOf_eq (h : io.OneCylinder) (hopen : io.openDevice = true)
    (hsize : DEFAULT_SECTOR_SIZE ≤ Globals.initial.nextSectorSize io.kernel) (hg : g.Bounded)
    (hfuel : 2 ≤ fuel)
    : bytesOf (fdiskMakePart io fuel g 1)
      = (mbrMemory io.behind (writePartTableFlag ((Layout.measured io.kernel .initial hsize).alone 1))
          (Globals.initial.nextSectorSize io.kernel)).take io.taken := by
  have hlt := hg.sectorSize_bounds.2
  have hnext := hg.nextSectorSize_eq (k := io.kernel)
  have hgsize : DEFAULT_SECTOR_SIZE ≤ g.nextSectorSize io.kernel := by
    rcases hnext with heq | ⟨_, _, hle⟩
    . rw [heq]
      exact hsize
    . exact hle
  obtain ⟨hbase, hcylinders⟩ := h.measured hg hsize hgsize
  obtain ⟨m, hm, htable⟩ := fdiskMakePart_least hgsize hopen hg.extIndex_lt hg.extendedOffset_lt hlt
    hbase hcylinders hfuel
  have hwritten := fdiskMakePart_written (by decide) hlt hopen hm
  have halone : (Layout.measured io.kernel g hgsize).alone 1
      = (Layout.measured io.kernel .initial hsize).alone 1 := rfl
  rw [hm, bytesOf, hwritten.taken, htable, halone]
  rcases hnext with heq | ⟨hnone, heq, hle⟩
  . rw [heq]
  . have htaken : io.taken = 512 := by
      refine h.2.2.resolve_left ?_
      rw [hnone]
      decide
    rw [htaken, mbrMemory_take hle, mbrMemory_take (Nat.le_of_eq heq.symm)]

theorem bytesOf_small (hn : 1 ≤ n ∧ n ≤ 4) (hopen : io.openDevice = true)
    (hsmall : Globals.initial.nextSectorSize io.kernel < DEFAULT_SECTOR_SIZE) (hg : g.Bounded)
    : bytesOf (fdiskMakePart io fuel g n) = [] := by
  -- a division by zero comes before the write
  cases hm : fdiskMakePart io fuel g n with
  | error => rfl
  | ok m =>
    have hsize := fdiskMakePart_size hn hopen hm
    rcases hg.nextSectorSize_eq (k := io.kernel) with heq | ⟨_, heq, _⟩
    . rw [heq] at hsize
      exact absurd hsmall (Nat.not_lt.mpr hsize)
    . rw [heq] at hsmall
      exact absurd hsmall (Nat.lt_irrefl _)

theorem Io.Forgets.bytesOf_eq (h : io.Forgets n) (hfuel : 2 ≤ fuel)
    : ∃ bytes, ∀ g : Globals, g.Bounded → bytesOf (fdiskMakePart io fuel g n) = bytes := by
  by_cases hrun : (1 ≤ n ∧ n ≤ 4) ∧ io.openDevice = true
  . obtain ⟨hn, hopen⟩ := hrun
    rcases h with hparts | hclosed | hnone | hsmall | ⟨rfl, hone⟩
    . exact absurd hn hparts
    . rw [hclosed] at hopen
      cases hopen
    . refine ⟨[], fun g hg => ?_⟩
      cases hm : fdiskMakePart io fuel g n with
      | error => rfl
      | ok m =>
        have hwritten := fdiskMakePart_written hn hg.sectorSize_bounds.2 hopen hm
        rw [bytesOf, hwritten.taken, hnone, List.take_zero]
    . exact ⟨[], fun g hg => bytesOf_small hn hopen hsmall hg⟩
    . by_cases hsize : DEFAULT_SECTOR_SIZE ≤ Globals.initial.nextSectorSize io.kernel
      . exact ⟨_, fun g hg => hone.bytesOf_eq hopen hsize hg hfuel⟩
      . exact ⟨[], fun g hg => bytesOf_small hn hopen (Nat.lt_of_not_le hsize) hg⟩
  . refine ⟨[], fun g _ => ?_⟩
    obtain ⟨m, hm, hwritten, _⟩ := fdiskMakePart_closed g fuel hrun
    rw [hm]
    exact hwritten

theorem SameWrite.table_eq {g' : Globals} {m' : Made} (hn : 1 ≤ n ∧ n ≤ 4)
    (hopen : io.openDevice = true) (htaken : 512 ≤ io.taken) (hstate : g.sectorSize < 2 ^ 32)
    (hstate' : g'.sectorSize < 2 ^ 32) (hm : fdiskMakePart io fuel g n = .ok m)
    (hm' : fdiskMakePart io fuel g' n = .ok m')
    (hsame : SameWrite (fdiskMakePart io fuel g n) (fdiskMakePart io fuel g' n))
    : m'.globals.bufs 0 = m.globals.bufs 0 := by
  have hwritten := fdiskMakePart_written hn hstate hopen hm
  have hwritten' := fdiskMakePart_written hn hstate' hopen hm'
  rw [SameWrite, hm, hm'] at hsame
  rw [← hwritten.table_eq (fdiskMakePart_size hn hopen hm) htaken,
    ← hwritten'.table_eq (fdiskMakePart_size hn hopen hm') htaken]
  exact congrArg Buffer.ofBytes hsame

theorem SameWrite.sectorSize_eq {g' : Globals} {m' : Made} (hn : 1 ≤ n ∧ n ≤ 4)
    (hopen : io.openDevice = true) (hstate : g.sectorSize < 2 ^ 32)
    (hstate' : g'.sectorSize < 2 ^ 32) (hm : fdiskMakePart io fuel g n = .ok m)
    (hm' : fdiskMakePart io fuel g' n = .ok m')
    (hsame : SameWrite (fdiskMakePart io fuel g n) (fdiskMakePart io fuel g' n))
    : min io.taken (g'.nextSectorSize io.kernel) = min io.taken (g.nextSectorSize io.kernel) := by
  have hwritten := fdiskMakePart_written hn hstate hopen hm
  have hwritten' := fdiskMakePart_written hn hstate' hopen hm'
  rw [SameWrite, hm, hm'] at hsame
  have hlength := congrArg List.length hsame
  rw [bytesOf, bytesOf, hwritten.taken, hwritten'.taken, List.length_take, List.length_take,
    mbrMemory_length, mbrMemory_length] at hlength
  exact hlength

theorem Io.told_apart_one (hplaces : ¬(2 ≤ kernelHeads io.kernel ∧ io.cylinders ≤ 1))
    (hopen : io.openDevice = true)
    (hsize : DEFAULT_SECTOR_SIZE ≤ Globals.initial.nextSectorSize io.kernel)
    (htaken : 512 ≤ io.taken) (hfuel : 3 ≤ fuel)
    : ∃ calls g, history calls = .ok g
        ∧ ¬SameWrite (fdiskMakePart io fuel .initial 1) (fdiskMakePart io fuel g 1) := by
  have hinitial : Globals.initial.sectorSize < 2 ^ 32 := by decide
  have hheads := kernelHeads_bounds (k := io.kernel)
  have htrack := kernelSectors_bounds (k := io.kernel)
  have hlong : (Layout.measured io.kernel .initial hsize).base = 2
      ∨ 2 ≤ (Layout.measured io.kernel .initial hsize).cylinders := by
    -- with one head the first track is the first cylinder
    by_cases hone : kernelHeads io.kernel = 1
    . left
      have hunits : (Layout.measured io.kernel .initial hsize).units = kernelSectors io.kernel := by
        calc (Layout.measured io.kernel .initial hsize).units
          _ = kernelHeads io.kernel * kernelSectors io.kernel := rfl
          _ = kernelSectors io.kernel := by rw [hone, Nat.one_mul]
      rw [Layout.base, hunits]
      exact congrArg (· + 1) (Nat.div_self htrack.1)
    . right
      have hcylinders : 2 ≤ io.cylinders := by omega
      exact Nat.le_min.mpr ⟨hcylinders, by decide⟩
  have hunits := (Layout.measured io.kernel .initial hsize).units_bounds
  obtain ⟨calls, g, hg, hindex, hoffset, hstate, hkeeps⟩ :=
    history_extendedAt (Layout.measured io.kernel .initial hsize).units (by omega)
  obtain ⟨m, hm, hnot⟩ := fdiskMakePart_not_short hsize hinitial hopen rfl hlong hfuel
  obtain ⟨m', hm', hshort⟩ := fdiskMakePart_short (by rw [hkeeps]; exact hsize) hstate hopen hindex
    hoffset (Nat.le_of_succ_le hfuel)
  refine ⟨calls, g, hg, ?_⟩
  intro hsame
  rw [hsame.table_eq (by decide) hopen htaken hinitial hstate hm hm'] at hshort
  exact hnot hshort

theorem Io.told_apart_size (io : Io) (hnone : blkdevGetSectorSize io.kernel = none)
    (hn : 1 ≤ n ∧ n ≤ 4) (hopen : io.openDevice = true) (htaken : 512 < io.taken) (hfuel : 3 ≤ fuel)
    : ∃ g, history [.fdiskMakePart (.card 2048 (2 ^ 31)) 3 1] = .ok g
        ∧ ¬SameWrite (fdiskMakePart io fuel .initial n) (fdiskMakePart io fuel g n) := by
  -- the size of a sector is left over from another device
  have hkeeps (g : Globals) : g.nextSectorSize io.kernel = g.sectorSize := by
    simp only [Globals.nextSectorSize, getSectorsize, hnone]
  have hinitial : Globals.initial.sectorSize < 2 ^ 32 := by decide
  obtain ⟨g, hg, hgsize, hext⟩ := history_card (n := 1) (by decide)
  have hstate : g.sectorSize < 2 ^ 32 := by
    rw [hgsize]
    decide
  obtain ⟨m, _, hm, _⟩ := fdiskMakePart_made hn (by rw [hkeeps]; decide) hinitial rfl hopen hfuel
  obtain ⟨m', _, hm', _⟩ :=
    fdiskMakePart_made hn (by rw [hkeeps, hgsize]; decide) hstate hext hopen hfuel
  refine ⟨g, hg, ?_⟩
  intro hsame
  have hsizes := hsame.sectorSize_eq hn hopen hinitial hstate hm hm'
  have hfirst : Globals.initial.sectorSize = 512 := rfl
  rw [hkeeps, hkeeps, hgsize, hfirst] at hsizes
  omega

theorem Io.told_apart (h : ¬io.Forgets n) (hcut : io.taken = 0 ∨ 512 ≤ io.taken) (hfuel : 3 ≤ fuel)
    : ∃ calls g, history calls = .ok g
        ∧ ¬SameWrite (fdiskMakePart io fuel .initial n) (fdiskMakePart io fuel g n) := by
  simp only [Io.Forgets, not_or] at h
  obtain ⟨hn, hopen, hsome, hsize, hplaces⟩ := h
  have hn := Decidable.not_not.mp hn
  have hopen := Bool.eq_true_of_not_eq_false hopen
  have hsize := Nat.le_of_not_lt hsize
  have htaken := hcut.resolve_left hsome
  by_cases hone : n = 1
  . subst hone
    by_cases hshort : 2 ≤ kernelHeads io.kernel ∧ io.cylinders ≤ 1
    . have hmore : ¬((blkdevGetSectorSize io.kernel).isSome ∨ io.taken = 512) :=
        fun htold => hplaces ⟨rfl, hshort.1, hshort.2, htold⟩
      obtain ⟨htold, hne⟩ := not_or.mp hmore
      exact ⟨_, io.told_apart_size (Option.not_isSome_iff_eq_none.mp htold) hn hopen (by omega) hfuel⟩
    . exact told_apart_one hshort hopen hsize htaken hfuel
  . have htwo : 2 ≤ n ∧ n ≤ 4 := by omega
    have hinitial : Globals.initial.sectorSize < 2 ^ 32 := by decide
    obtain ⟨calls, g, hg, hindex, hoffset, hstate, hkeeps⟩ := history_extendedAt 1 (by decide)
    obtain ⟨m, hm, hnot⟩ := fdiskMakePart_not_atZero htwo hsize hinitial hopen rfl hfuel
    obtain ⟨m', hm', hzero⟩ := fdiskMakePart_atZero htwo (by rw [hkeeps]; exact hsize) hstate
      hopen hindex hoffset (Nat.le_of_succ_le hfuel)
    refine ⟨calls, g, hg, ?_⟩
    intro hsame
    rw [Made.AtZero, hsame.table_eq hn hopen htaken hinitial hstate hm hm'] at hzero
    exact hnot hzero

theorem callAfter_eq {calls : List Call} (hg : history calls = .ok g)
    : callAfter calls io fuel n = fdiskMakePart io fuel g n := by
  simp only [callAfter, hg, bind, Except.bind]

end Exact

def Io.cardUnsized (bytes : Nat) : Io :=
  { Io.card MAX_SECTOR_SIZE bytes with
    kernel := { Kernel.mmc MAX_SECTOR_SIZE bytes with blksszget := none } }

end FsBench.Fdisk
