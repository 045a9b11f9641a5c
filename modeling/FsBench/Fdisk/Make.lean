import FsBench.Fdisk.Boot

/-!
Partitioning a device: `fdisk_make_part` with the search for free sectors in `addPartition`.
-/

namespace FsBench.Fdisk

/--
`ptes[i].offset`, `first[i]` and `last[i]`.
-/
structure Bound where
  offset : Nat
  first : Nat
  last : Nat

/-- What `addPartition` prints and hands to `set_partition`. -/
structure Placed where
  start : Nat
  stop : Nat
deriving DecidableEq

def fillBound (g : Globals) (i : Nat) : Result Bound := do
  let pe ← g.getPte i
  let p ← deref pe.partTable
  if (g.part p).sysInd = 0 ∨ IS_EXTENDED (g.part p).sysInd then
    return { offset := pe.offset, first := 0xffffffff, last := 0 }
  else
    let first ← getPartitionStart g pe
    let last := Word.sub 64 (Word.add 64 first (g.part p).getNrSects) 1
    return { offset := pe.offset, first, last }

def fillBounds (g : Globals) (parts : Nat) : Result (List Bound) :=
  (List.range parts).mapM (fillBound g)

/-- `cround` on an integer of `w` bits. -/
def cround (w units n : Nat) : Nat :=
  if displayInCylUnits then Word.add w (n / units) 1 else n

def Bound.round (units : Nat) (b : Bound) : Bound :=
  { b with first := Word.mul 64 (Word.sub 64 (cround 64 units b.first) 1) units }

namespace addPartition

structure Search where
  start : Nat
  read : Bool

/-- The body of the loop over the entries. -/
def skip (sectorOffset : Nat) (logical : Bool) (start : Nat) (b : Bound) : Nat :=
  let start := if start = b.offset then Word.add 64 start sectorOffset else start
  let lastplusoff := Word.add 64 b.last (if logical then sectorOffset else 0)
  if b.first ≤ start ∧ start ≤ lastplusoff then Word.add 64 lastplusoff 1 else start

/--
What is left of asking for the first cylinder: the start of the cylinder of `start`, but nothing
before `start` itself, which is taken as an `unsigned int`.
-/
def ask (units start : Nat) : Nat :=
  let i := Word.trunc 32 start
  let start := cround 32 units i
  if displayInCylUnits then
    let start := Word.mul 64 (Word.sub 64 start 1) units
    if start < i then i else start
  else
    start

/-- One round of the search, which ends with the first free sector or with one behind `limit`. -/
def searchStep (sectorOffset units : Nat) (logical : Bool) (bounds : List Bound) (limit : Nat)
    (s : Search) : Result (Search ⊕ Nat) :=
  let temp := s.start
  let start := bounds.foldl (skip sectorOffset logical) s.start
  if start > limit then
    .ok (.inr start)
  else
    let allocated := start ≥ Word.add 64 temp units ∧ s.read
    let temp := if allocated then start else temp
    let read := if allocated then false else s.read
    let asked := read = false ∧ start = temp
    let start := if asked then ask units start else start
    let read := if asked then true else read
    if start ≠ temp ∨ read = false then
      .ok (.inl { start, read })
    else
      .ok (.inr start)

/-- The last sector before an entry that lies behind `start`. -/
def cut (start limit : Nat) (b : Bound) : Nat :=
  let limit := if start < b.offset ∧ b.offset ≤ limit then b.offset - 1 else limit
  if start < b.first ∧ b.first ≤ limit then b.first - 1 else limit

def stopSector (units start limit partCyls : Nat) : Nat :=
  if cround 64 units start = cround 64 units limit then
    limit
  else
    let stop := Word.add 64 (cround 64 units start) partCyls
    if displayInCylUnits then
      let stop := Word.sub 64 (Word.mul 64 stop units) 1
      if stop > limit then limit else stop
    else
      stop

end addPartition

/-- `set_hsc` -/
structure Hsc where
  head : UInt8
  sector : UInt8
  cyl : UInt8

def setHsc (heads sectors sector : Nat) : Hsc :=
  let track := sector / sectors
  let cyl := track / heads
  { head := .ofNat (track % heads)
    sector := .ofNat (sector % sectors + 1) ||| .ofNat (cyl / 4 % 256 &&& 0xc0)
    cyl := .ofNat (cyl % 256) }

/--
Sectors behind cylinder 1023 are told as the last one of that cylinder.
-/
def chsLimit (g : Globals) (sector : Nat) : Nat :=
  if dosCompatibleFlag ∧ sector / Word.mul 64 g.sectors g.heads > 1023 then
    Word.sub 64 (Word.mul 64 (Word.mul 64 g.heads g.sectors) 1024) 1
  else
    sector

def Globals.newEntry (g : Globals) (p : Partition) (offset start stop : Nat) (sysid : UInt8)
    : Partition :=
  let p := { p with bootInd := 0, sysInd := sysid }
  let p := p.setStartSect (Word.sub 64 start offset)
  let p := p.setNrSects (Word.add 64 (Word.sub 64 stop start) 1)
  let chs := setHsc g.heads g.sectors (chsLimit g start)
  let p := { p with head := chs.head, sector := chs.sector, cyl := chs.cyl }
  let chs := setHsc g.heads g.sectors (chsLimit g stop)
  { p with endHead := chs.head, endSector := chs.sector, endCyl := chs.cyl }

def setPartition (g : Globals) (i : Nat) (doext : Bool) (start stop : Nat) (sysid : UInt8)
    : Result Globals := do
  let pe ← g.getPte i
  let p ← deref (if doext then pe.extPointer else pe.partTable)
  let offset := if doext then g.extendedOffset else pe.offset
  if Word.mul 64 g.sectors g.heads = 0 then
    .error .divisionByZero
  else
    let g := g.setPart p (g.newEntry (g.part p) offset start stop sysid)
    g.setPte i { pe with changed := true }

def extendedEnd (g : Globals) : Result Nat := do
  let pe ← g.getPte g.extIndex
  let q ← deref pe.partTable
  return Word.sub 64 (Word.add 64 (g.part q).getStartSect (g.part q).getNrSects) 1

namespace addPartition

/-- Where the search starts, the last sector it may reach and the bounds it has to respect. -/
structure Area where
  start : Nat
  limit : Nat
  bounds : List Bound

def area (g : Globals) (n : Nat) : Result Area := do
  let bounds ← fillBounds g g.partitions
  if n < 4 then
    let start := g.sectorOffset
    let limit :=
      if displayInCylUnits ∨ g.totalNumberOfSectors = 0 then
        Word.sub 64 (Word.mul 64 (Word.mul 64 g.heads g.sectors) g.cylinders) 1
      else
        Word.sub 64 g.totalNumberOfSectors 1
    if g.extendedOffset ≠ 0 then
      match bounds[g.extIndex]? with
      | none => .error .outOfBounds
      | some b =>
        let last ← extendedEnd g
        let b := { b with first := g.extendedOffset, last }
        return { start, limit, bounds := bounds.set g.extIndex b }
    else
      return { start, limit, bounds }
  else
    let start := Word.add 64 g.extendedOffset g.sectorOffset
    let limit ← extendedEnd g
    return { start, limit, bounds }

def place (g : Globals) (n partCyls : Nat) (bPartAligned : Bool) (start limit : Nat)
    : Placed × Nat :=
  let stop := stopSector g.unitsPerSector start limit partCyls
  if bPartAligned then
    let start := if n = 0 then 2048 else start
    let sectorOffset := if n = 0 then 2048 else g.sectorOffset
    ({ start, stop := Word.sub 64 stop 1 }, sectorOffset)
  else
    ({ start, stop }, g.sectorOffset)

end addPartition

open addPartition in
/--
The partition that was added, `none` when there are no free sectors available.
-/
def addPartition (fuel : Nat) (g : Globals) (n : Nat) (sys : UInt8) (partCyls : Nat)
    (bPartAligned : Bool) : Result (Globals × Option Placed) := do
  if g.unitsPerSector = 0 then
    .error .divisionByZero
  else
    let area ← area g n
    let bounds :=
      if displayInCylUnits then area.bounds.map (Bound.round g.unitsPerSector) else area.bounds
    let start ← Loop.iterate .outOfFuel
      (searchStep g.sectorOffset g.unitsPerSector (4 ≤ n) bounds area.limit) fuel
      { start := area.start, read := false }
    let limit := bounds.foldl (cut start) area.limit
    if start > limit then
      if n > 4 then
        let g ← g.setPartitions (g.partitions - 1)
        return (g, none)
      else
        return (g, none)
    else
      let (placed, sectorOffset) := place g n partCyls bPartAligned start limit
      let g ← setPartition { g with sectorOffset } n false placed.start placed.stop sys
      return (g, some placed)

structure Io where
  device : Device
  kernel : Kernel
  openDevice : Bool
  openAgain : Bool
  writes : Bool
  /-- How many bytes a `write` that succeeds takes at most. -/
  takes : Nat
  /-- `none` when `fstat` fails. -/
  isBlock : Option Bool
  rereads : Bool
  behind : Nat → UInt8

def Device.write (d : Device) (position : Nat) (bytes : List UInt8) : Device :=
  { d with byte := fun i =>
      if position ≤ i ∧ i < position + bytes.length then
        bytes.getD (i - position) 0
      else
        d.byte i }

/-- `count` bytes of memory from the start of `MBRbuffer`. -/
def mbrMemory (behind : Nat → UInt8) (b : Buffer) (count : Nat) : List UInt8 :=
  (b.toBytes ++ List.replicate (MAX_SECTOR_SIZE - 512) 0 ++ (List.range count).map behind).take count

/--
The bytes that `write` takes: none on an error, fewer than a sector when it is short, as it is at
the end of the device.
-/
def writeSector (io : Io) (g : Globals) (secno : Nat) (b : Buffer) : Globals × List UInt8 :=
  let g := seekSector io.device g secno
  if io.writes then
    let bytes := (mbrMemory io.behind b g.sectorSize).take
      (min io.takes (io.device.size - g.position))
    (g, bytes)
  else
    (g, [])

def writeTable (io : Io) (g : Globals) : Result (Globals × List UInt8) := do
  let pe ← g.getPte 0
  let buf ← deref pe.sectorbuffer
  let g := { g with bufs := Function.update g.bufs buf (writePartTableFlag (g.bufs buf)) }
  return writeSector io g pe.offset (g.bufs buf)

def rereadPartitionTable (io : Io) : Int :=
  match io.isBlock with
  | none => -1
  | some false => 0
  | some true => if io.rereads then 0 else -1

def fdiskNeedPartionAligned : Bool := true

/--
What a call leaves behind. `written` are the bytes that have gone to the device, from its start on.
-/
structure Made where
  globals : Globals
  placed : List (Option Placed)
  written : List UInt8
  device : Device
  ret : Int

namespace fdiskMakePart

/-- The calls of `addPartition`: the last one gets the cylinders that are left. -/
def addAll (fuel : Nat) (g : Globals) (partsNum : Nat)
    : Result (Globals × List (Option Placed)) := do
  let partCyls := g.cylinders / partsNum
  let j := partsNum - 1
  let (g, placed) ← (List.range j).foldlM (fun (g, placed) i => do
    let (g, p) ← addPartition fuel g i WIN95_FAT32_LBA partCyls fdiskNeedPartionAligned
    return (g, placed ++ [p])) (g, [])
  let (g, p) ← addPartition fuel g j WIN95_FAT32_LBA (g.cylinders - partCyls * j)
    fdiskNeedPartionAligned
  return (g, placed ++ [p])

end fdiskMakePart

open fdiskMakePart in
def fdiskMakePart (io : Io) (fuel : Nat) (g : Globals) (partsNum : Nat) : Result Made := do
  let failed (g : Globals) : Made :=
    { globals := g, placed := [], written := [], device := io.device, ret := -1 }
  if partsNum > 4 ∨ partsNum = 0 then
    return failed g
  else
    let g := getBoot.setUp (← g.setPartitions 4)
    if io.openDevice = false then
      return failed g
    else
      let g ← getGeometry io.kernel { g with position := 0 }
      let (g, placed) ← addAll fuel (updateUnits g) partsNum
      let (g, written) ← writeTable io g
      let device := io.device.write g.position written
      let g := { g with position := g.position + written.length }
      if io.openAgain = false then
        return { globals := g, placed, written, device, ret := -1 }
      else
        return { globals := g, placed, written, device, ret := rereadPartitionTable io }

end FsBench.Fdisk
