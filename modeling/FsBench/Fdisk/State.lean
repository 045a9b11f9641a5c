import FsBench.Fdisk.Sector
import Mathlib.Logic.Function.Basic

/-!
The global variables of fdisk/fdisk.c, its pointers into sector buffers, and the device it reads.
-/

namespace FsBench.Fdisk

inductive Fault where
  | nullPointer
  | outOfBounds
  | divisionByZero
  | outOfFuel
deriving DecidableEq

abbrev Result := Except Fault

/--
A `struct partition *`: an entry of a sector buffer. Buffer 0 is `MBRbuffer`, the others come from
`malloc`.
-/
structure PartPtr where
  buf : Nat
  slot : Slot
deriving DecidableEq

/-- `struct pte` -/
structure Pte where
  partTable : Option PartPtr
  extPointer : Option PartPtr
  changed : Bool
  offset : Nat
  sectorbuffer : Option Nat

def Pte.zero : Pte where
  partTable := none
  extPointer := none
  changed := false
  offset := 0
  sectorbuffer := none

def Pte.primary (i : Slot) : Pte where
  partTable := some { buf := 0, slot := i }
  extPointer := none
  changed := false
  offset := 0
  sectorbuffer := some 0

/--
The globals, with the sector buffers and the position of the descriptor in use. `allocated` is the
number of buffers that `malloc` has given out.
-/
structure Globals where
  bufs : Nat → Buffer
  allocated : Nat
  position : Nat
  ptes : Nat → Pte
  extIndex : Nat
  partitions : Nat
  ptHeads : Nat
  ptSectors : Nat
  kernHeads : Nat
  kernSectors : Nat
  sectorOffset : Nat
  extendedOffset : Nat
  sectors : Nat
  heads : Nat
  cylinders : Nat
  sectorSize : Nat
  unitsPerSector : Nat
  totalNumberOfSectors : Nat

def Globals.initial : Globals where
  bufs _ := .zero
  allocated := 0
  position := 0
  ptes _ := .zero
  extIndex := 0
  partitions := 4
  ptHeads := 0
  ptSectors := 0
  kernHeads := 0
  kernSectors := 0
  sectorOffset := 1
  extendedOffset := 0
  sectors := 0
  heads := 0
  cylinders := 0
  sectorSize := DEFAULT_SECTOR_SIZE
  unitsPerSector := 1
  totalNumberOfSectors := 0

/-- The global that nothing changes. -/
def dosCompatibleFlag : Bool := true

/-- The global that nothing changes. -/
def displayInCylUnits : Bool := true

namespace Globals

def getPte (g : Globals) (i : Nat) : Result Pte :=
  if i < MAXIMUM_PARTS then .ok (g.ptes i) else .error .outOfBounds

def setPte (g : Globals) (i : Nat) (pe : Pte) : Result Globals :=
  if i < MAXIMUM_PARTS then
    .ok { g with ptes := Function.update g.ptes i pe }
  else
    .error .outOfBounds

def part (g : Globals) (p : PartPtr) : Partition :=
  (g.bufs p.buf).entries p.slot

def setPart (g : Globals) (p : PartPtr) (value : Partition) : Globals :=
  { g with bufs := Function.update g.bufs p.buf ((g.bufs p.buf).setEntry p.slot value) }

/--
An assignment to `partitions`. The source tests no bounds, here a value outside of
`4..MAXIMUM_PARTS` is a fault.
-/
def setPartitions (g : Globals) (n : Nat) : Result Globals :=
  if 4 ≤ n ∧ n ≤ MAXIMUM_PARTS then
    .ok { g with partitions := n }
  else
    .error .outOfBounds

end Globals

def deref {α : Type} : Option α → Result α
  | some p => .ok p
  | none => .error .nullPointer

/--
A block device. `seeks` says which byte offsets `lseek` accepts.
-/
structure Device where
  byte : Nat → UInt8
  size : Nat
  seeks : Nat → Bool

/--
What `read` returns at a position: fewer bytes than asked for at the end of the device.
-/
def Device.read (d : Device) (position count : Nat) : List UInt8 :=
  (List.range (min count (d.size - position))).map fun k => d.byte (position + k)

/--
The answers of `uname` and of the `ioctl` calls, `none` when the call fails.
-/
structure Kernel where
  version : Nat
  blksszget : Option Nat
  hdioGetgeo : Option (UInt8 × UInt8)
  blkgetsize64 : Option Nat
  blkgetsize : Option Nat

def KERNEL_VERSION (a b c : Nat) : Nat :=
  a * 2 ^ 16 + b * 2 ^ 8 + c

/--
When the seek fails, a message is all that follows.
-/
def seekSector (d : Device) (g : Globals) (secno : Nat) : Globals :=
  let offset := Word.toSigned 64 (Word.mul 64 secno g.sectorSize)
  if 0 ≤ offset ∧ d.seeks offset.toNat then
    { g with position := offset.toNat }
  else
    g

/--
The bytes that the read has put into the buffer, which may be fewer than a sector.
-/
def readSector (d : Device) (g : Globals) (secno : Nat) : Globals × List UInt8 :=
  let g := seekSector d g secno
  let bytes := d.read g.position g.sectorSize
  ({ g with position := g.position + bytes.length }, bytes)

theorem Device.read_length {d : Device} {position count : Nat}
    : (d.read position count).length = min count (d.size - position) := by
  simp [read]

theorem seekSector_eq (d : Device) (g : Globals) (secno : Nat)
    : ∃ position, seekSector d g secno = { g with position } := by
  unfold seekSector
  dsimp only
  split
  . exact ⟨_, rfl⟩
  . exact ⟨g.position, rfl⟩

theorem readSector_eq (d : Device) (g : Globals) (secno : Nat)
    : ∃ position bytes, readSector d g secno = ({ g with position }, bytes) := by
  obtain ⟨position, hseek⟩ := seekSector_eq d g secno
  unfold readSector
  rw [hseek]
  exact ⟨_, _, rfl⟩

namespace Globals

variable {g : Globals} {i n : Nat} {pe : Pte} {p q : PartPtr} {value : Partition}

theorem getPte_of_lt (h : i < MAXIMUM_PARTS) : g.getPte i = .ok (g.ptes i) :=
  if_pos h

theorem setPte_of_lt (h : i < MAXIMUM_PARTS)
    : g.setPte i pe = .ok { g with ptes := Function.update g.ptes i pe } :=
  if_pos h

theorem setPartitions_of_bounds (h : 4 ≤ n ∧ n ≤ MAXIMUM_PARTS)
    : g.setPartitions n = .ok { g with partitions := n } :=
  if_pos h

@[simp]
theorem part_setPart_self : (g.setPart p value).part p = value := by
  simp [part, setPart, Buffer.setEntry]

theorem part_setPart_of_ne (h : q ≠ p) : (g.setPart p value).part q = g.part q := by
  unfold part setPart
  by_cases hbuf : q.buf = p.buf
  . have hslot : q.slot ≠ p.slot := by
      intro hslot
      apply h
      cases p
      cases q
      simp_all
    simp [hbuf, Buffer.setEntry, hslot]
  . simp [hbuf]

@[simp]
theorem setPart_setPart {value' : Partition}
    : (g.setPart p value).setPart p value' = g.setPart p value' := by
  unfold setPart Buffer.setEntry
  simp only [Function.update_self, Function.update_idem]
  congr 3
  funext j
  split <;> rfl

theorem part_setPart_part : (g.setPart p (g.part q)).part q = g.part q := by
  by_cases h : q = p
  . rw [h, part_setPart_self]
  . exact part_setPart_of_ne h

end Globals

end FsBench.Fdisk
