import FsBench.Fdisk.Geometry
import FsBench.Lib.Loop

/-!
Reading the partition tables of a device: `get_boot` with the chain of extended boot records that
`read_extended` follows and cleans up. `malloc` is taken to succeed; `malloc id i` is byte `i` of
the buffer `id` as it comes.
-/

namespace FsBench.Fdisk

variable (d : Device) (malloc : Nat → Nat → UInt8)

/--
A buffer of less than 512 bytes has no room for the table.
-/
def readPte (g : Globals) (pno offset : Nat) : Result Globals := do
  let pe ← g.getPte pno
  let id := g.allocated + 1
  let (g, bytes) := readSector d { g with allocated := id } offset
  if g.sectorSize < DEFAULT_SECTOR_SIZE then
    .error .outOfBounds
  else
    let content := bytes ++ ((List.range g.sectorSize).map (malloc id)).drop bytes.length
    let g := { g with bufs := Function.update g.bufs id (Buffer.ofBytes content) }
    let pe :=
      { pe with
        offset, sectorbuffer := some id, changed := false, partTable := none, extPointer := none }
    g.setPte pno pe

def getPartitionStart (g : Globals) (pe : Pte) : Result Nat := do
  let p ← deref pe.partTable
  return Word.add 64 pe.offset (g.part p).getStartSect

def clearPartition (g : Globals) (p : Option PartPtr) : Globals :=
  match p with
  | none => g
  | some p => g.setPart p .zero

/-- `while (i < partitions)` with `count` entries to go. -/
def deletePartition.moveDown : Nat → Globals → Nat → Result Globals
  | 0, g, _ => .ok g
  | count + 1, g, i => do
    let pe ← g.getPte (i + 1)
    let g ← g.setPte i pe
    moveDown count g (i + 1)

namespace deletePartition

def primary (g : Globals) (i : Nat) (p : Option PartPtr) : Result Globals := do
  let p ← deref p
  if IS_EXTENDED (g.part p).sysInd ∧ i = g.extIndex then
    let g ← g.setPartitions 4
    let pe ← g.getPte g.extIndex
    let g ← g.setPte g.extIndex { pe with extPointer := none }
    return clearPartition { g with extendedOffset := 0 } (some p)
  else
    return clearPartition g (some p)

def last (g : Globals) (i : Nat) : Result Globals := do
  let g ← g.setPartitions (g.partitions - 1)
  let pe ← g.getPte (i - 1)
  let g := clearPartition g pe.extPointer
  g.setPte (i - 1) { pe with changed := true }

def unlink (g : Globals) (i : Nat) (q : PartPtr) : Result Globals := do
  let pe ← g.getPte (i - 1)
  let p ← deref pe.extPointer
  let g := g.setPart p (g.part q)
  let g := g.setPart p ((g.part p).setStartSect (g.part q).getStartSect)
  let g := g.setPart p ((g.part p).setNrSects (g.part q).getNrSects)
  g.setPte (i - 1) { pe with changed := true }

def promote (g : Globals) : Result Globals := do
  let pe ← g.getPte 5
  match pe.partTable with
  | none => g.setPte 5 { pe with offset := g.extendedOffset, changed := true }
  | some p =>
    let start ← getPartitionStart g pe
    let g := g.setPart p ((g.part p).setStartSect (Word.sub 64 start g.extendedOffset))
    g.setPte 5 { pe with offset := g.extendedOffset, changed := true }

/-- What follows when entry `i` is not dropped from the end of the chain. -/
def shrink (g : Globals) (i : Nat) : Result Globals := do
  if g.partitions > 5 then
    let g ← g.setPartitions (g.partitions - 1)
    moveDown (g.partitions - i) g i
  else
    let pe ← g.getPte i
    return clearPartition g pe.partTable

end deletePartition

open deletePartition in
def deletePartition (g : Globals) (i : Nat) : Result Globals := do
  let pe ← g.getPte i
  let g ← g.setPte i { pe with changed := true }
  if i < 4 then
    primary g i pe.partTable
  else
    let q ← deref pe.extPointer
    if (g.part q).sysInd = 0 ∧ i > 4 then
      last g i
    else if i > 4 then
      let g ← deletePartition.unlink g i q
      shrink g i
    else if g.partitions > 5 then
      let g ← promote g
      shrink g i
    else
      shrink g i

namespace readExtended

/--
An entry of a boot record is the next link, the partition, or neither; the first of each kind counts.
-/
def select (g : Globals) (buf : Nat) (pe : Pte) (slot : Slot) : Pte :=
  let p := g.part { buf, slot }
  if p.getNrSects ≠ 0 then
    if IS_EXTENDED p.sysInd then
      if pe.extPointer.isSome then pe else { pe with extPointer := some { buf, slot } }
    else if p.sysInd ≠ 0 then
      if pe.partTable.isSome then pe else { pe with partTable := some { buf, slot } }
    else
      pe
  else
    pe

/-- The first slot that `other` is not, for a pointer that is not set. -/
def fallback (buf : Nat) (pointer other : Option PartPtr) : PartPtr :=
  match pointer with
  | some p => p
  | none => if some { buf, slot := 0 } ≠ other then { buf, slot := 0 } else { buf, slot := 1 }

def complete (buf : Nat) (pe : Pte) : Pte :=
  let pe := { pe with partTable := some (fallback buf pe.partTable pe.extPointer) }
  { pe with extPointer := some (fallback buf pe.extPointer pe.partTable) }

def choose (g : Globals) (buf : Nat) (pe : Pte) : Pte :=
  complete buf ([0, 1, 2, 3].foldl (select g buf) pe)

def setOffset (g : Globals) (start : Nat) : Globals :=
  if g.extendedOffset = 0 then { g with extendedOffset := start } else g

/-- Whether the loop has come to the end of the chain or has left at `MAXIMUM_PARTS`. -/
inductive Exit where
  | chainEnd
  | omitting

def chainStep : Globals × PartPtr → Result ((Globals × PartPtr) ⊕ (Globals × Exit))
  | (g, p) =>
    if IS_EXTENDED (g.part p).sysInd = false then
      .ok (.inr (g, .chainEnd))
    else if g.partitions ≥ MAXIMUM_PARTS then do
      let pre ← g.getPte (g.partitions - 1)
      let g := clearPartition g pre.extPointer
      let g ← g.setPte (g.partitions - 1) { pre with changed := true }
      return .inr (g, .omitting)
    else do
      let start := (g.part p).getStartSect
      let g ← readPte d malloc g g.partitions (Word.add 64 g.extendedOffset start)
      let g := setOffset g start
      let pe ← g.getPte g.partitions
      let buf ← deref pe.sectorbuffer
      let pe := choose g buf pe
      let g ← g.setPte g.partitions pe
      let p ← deref pe.extPointer
      let g ← g.setPartitions (g.partitions + 1)
      return .inl (g, p)

/-- `for (i = 4; i < partitions; i++)` with `count` entries to go. -/
def firstEmpty (g : Globals) : Nat → Nat → Result (Option Nat)
  | 0, _ => .ok none
  | count + 1, i => do
    let pe ← g.getPte i
    let p ← deref pe.partTable
    if (g.part p).getNrSects = 0 then
      if g.partitions > 5 then
        return some i
      else
        let pe ← g.getPte 4
        let p ← deref pe.partTable
        if (g.part p).sysInd ≠ 0 then
          return some i
        else
          firstEmpty g count (i + 1)
    else
      firstEmpty g count (i + 1)

def removeStep (g : Globals) : Result (Globals ⊕ Globals) := do
  match ← firstEmpty g (g.partitions - 4) 4 with
  | none => return .inr g
  | some i =>
    let g ← deletePartition g i
    return .inl g

end readExtended

open readExtended in
def readExtended (fuel : Nat) (g : Globals) (ext : Nat) : Result Globals := do
  let pex ← g.getPte ext
  let g ← { g with extIndex := ext }.setPte ext { pex with extPointer := pex.partTable }
  let p ← deref pex.partTable
  if (g.part p).getStartSect = 0 then
    return g
  else
    match ← Loop.iterate .outOfFuel (chainStep d malloc) fuel (g, p) with
    | (g, .omitting) => return g
    | (g, .chainEnd) => Loop.iterate .outOfFuel removeStep fuel g

namespace getBoot

def setUp (g : Globals) : Globals :=
  { g with
    ptes := fun i => if h : i < 4 then .primary ⟨i, h⟩ else g.ptes i
    bufs := Function.update g.bufs 0 .zero }

def readMBR (g : Globals) : Globals × Nat :=
  let bytes := d.read g.position 512
  let content := bytes ++ (g.bufs 0).toBytes.drop bytes.length
  ({ g with
      bufs := Function.update g.bufs 0 (Buffer.ofBytes content)
      position := g.position + bytes.length },
    bytes.length)

def extended (fuel : Nat) (g : Globals) (i : Slot) : Result Globals := do
  let pe ← g.getPte i
  let p ← deref pe.partTable
  if IS_EXTENDED (g.part p).sysInd ∧ g.partitions = 4 then
    readExtended d malloc fuel g i
  else
    return g

/-- `for (i = 3; i < partitions; i++)` with `count` entries to go. -/
def checkFlags : Nat → Globals → Nat → Result Globals
  | 0, g, _ => .ok g
  | count + 1, g, i => do
    let pe ← g.getPte i
    let buf ← deref pe.sectorbuffer
    if validPartTableFlag (g.bufs buf) then
      checkFlags count g (i + 1)
    else
      let g ← g.setPte i { pe with changed := true }
      checkFlags count g (i + 1)

end getBoot

open getBoot in
/--
1 for an I/O error, -1 without the flag of a table, 0 else. `fuel` bounds the loops.
-/
def getBoot (k : Kernel) (fuel : Nat) (g : Globals) : Result (Globals × Int) := do
  let g ← g.setPartitions 4
  let g := setUp { g with extIndex := 0, extendedOffset := 0 }
  let (g, count) := readMBR d g
  if count ≠ 512 then
    return (g, 1)
  else
    let g ← getGeometry k g
    let g := updateUnits g
    if validPartTableFlag (g.bufs 0) then
      let g ← [0, 1, 2, 3].foldlM (extended d malloc fuel) g
      let g ← checkFlags (g.partitions - 3) g 3
      return (g, 0)
    else
      return (g, -1)

end FsBench.Fdisk
