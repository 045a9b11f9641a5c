import FsBench.Lib.Word

/-!
The partition table sector of fdisk/fdisk.c: the 16-byte entries and the 512 bytes they lie in.
-/

namespace FsBench.Fdisk

def DEFAULT_SECTOR_SIZE : Nat := 512
def MAX_SECTOR_SIZE : Nat := 2048
def MAXIMUM_PARTS : Nat := 60

def EXTENDED : UInt8 := 0x05
def WIN95_FAT32_LBA : UInt8 := 0x0c
def WIN98_EXTENDED : UInt8 := 0x0f
def LINUX_EXTENDED : UInt8 := 0x85

def IS_EXTENDED (i : UInt8) : Bool :=
  i = EXTENDED ∨ i = WIN98_EXTENDED ∨ i = LINUX_EXTENDED

structure Bytes4 where
  b0 : UInt8
  b1 : UInt8
  b2 : UInt8
  b3 : UInt8
deriving DecidableEq

namespace Bytes4

def zero : Bytes4 where
  b0 := 0
  b1 := 0
  b2 := 0
  b3 := 0

def toBytes (b : Bytes4) : List UInt8 :=
  [b.b0, b.b1, b.b2, b.b3]

end Bytes4

def store4LittleEndian (val : Nat) : Bytes4 where
  b0 := .ofNat (val % 256)
  b1 := .ofNat (val / 2 ^ 8 % 256)
  b2 := .ofNat (val / 2 ^ 16 % 256)
  b3 := .ofNat (val / 2 ^ 24 % 256)

def read4LittleEndian (cp : Bytes4) : Nat :=
  cp.b0.toNat + cp.b1.toNat * 2 ^ 8 + cp.b2.toNat * 2 ^ 16 + cp.b3.toNat * 2 ^ 24

/-- `struct partition` -/
structure Partition where
  bootInd : UInt8
  head : UInt8
  sector : UInt8
  cyl : UInt8
  sysInd : UInt8
  endHead : UInt8
  endSector : UInt8
  endCyl : UInt8
  start4 : Bytes4
  size4 : Bytes4
deriving DecidableEq

namespace Partition

def zero : Partition where
  bootInd := 0
  head := 0
  sector := 0
  cyl := 0
  sysInd := 0
  endHead := 0
  endSector := 0
  endCyl := 0
  start4 := .zero
  size4 := .zero

def setStartSect (p : Partition) (startSect : Nat) : Partition :=
  { p with start4 := store4LittleEndian (Word.trunc 32 startSect) }

def getStartSect (p : Partition) : Nat :=
  read4LittleEndian p.start4

def setNrSects (p : Partition) (nrSects : Nat) : Partition :=
  { p with size4 := store4LittleEndian (Word.trunc 32 nrSects) }

def getNrSects (p : Partition) : Nat :=
  read4LittleEndian p.size4

def toBytes (p : Partition) : List UInt8 :=
  [p.bootInd, p.head, p.sector, p.cyl, p.sysInd, p.endHead, p.endSector, p.endCyl]
    ++ p.start4.toBytes ++ p.size4.toBytes

def ofBytes (bytes : List UInt8) (i : Nat) : Partition where
  bootInd := bytes.getD i 0
  head := bytes.getD (i + 1) 0
  sector := bytes.getD (i + 2) 0
  cyl := bytes.getD (i + 3) 0
  sysInd := bytes.getD (i + 4) 0
  endHead := bytes.getD (i + 5) 0
  endSector := bytes.getD (i + 6) 0
  endCyl := bytes.getD (i + 7) 0
  start4 :=
    { b0 := bytes.getD (i + 8) 0, b1 := bytes.getD (i + 9) 0
      b2 := bytes.getD (i + 10) 0, b3 := bytes.getD (i + 11) 0 }
  size4 :=
    { b0 := bytes.getD (i + 12) 0, b1 := bytes.getD (i + 13) 0
      b2 := bytes.getD (i + 14) 0, b3 := bytes.getD (i + 15) 0 }

end Partition

abbrev Slot := Fin 4

instance Slot.neZero : NeZero 4 :=
  ⟨by decide⟩

/--
The first 512 bytes of a sector buffer: what is before the table, the table and the flag. The bytes
behind them are never looked at and, in `MBRbuffer`, never written.
-/
structure Buffer where
  code : List UInt8
  entries : Slot → Partition
  flag0 : UInt8
  flag1 : UInt8
  code_length : code.length = 446

namespace Buffer

/--
`memset(MBRbuffer, 0, 512)`
-/
def zero : Buffer where
  code := List.replicate 446 0
  entries _ := .zero
  flag0 := 0
  flag1 := 0
  code_length := List.length_replicate

def toBytes (b : Buffer) : List UInt8 :=
  b.code ++ (b.entries 0).toBytes ++ (b.entries 1).toBytes ++ (b.entries 2).toBytes
    ++ (b.entries 3).toBytes ++ [b.flag0, b.flag1]

/--
`bytes` are at least 512.
-/
def ofBytes (bytes : List UInt8) : Buffer where
  code := (bytes ++ List.replicate 446 0).take 446
  entries i := .ofBytes bytes (446 + 16 * i)
  flag0 := bytes.getD 510 0
  flag1 := bytes.getD 511 0
  code_length := by
    rw [List.length_take, List.length_append, List.length_replicate]
    omega

def setEntry (b : Buffer) (i : Slot) (p : Partition) : Buffer :=
  { b with entries := fun j => if j = i then p else b.entries j }

end Buffer

def validPartTableFlag (b : Buffer) : Bool :=
  b.flag0 = 0x55 ∧ b.flag1 = 0xaa

def writePartTableFlag (b : Buffer) : Buffer :=
  { b with flag0 := 0x55, flag1 := 0xaa }

theorem read4LittleEndian_lt {cp : Bytes4} : read4LittleEndian cp < 2 ^ 32 := by
  have h0 := cp.b0.toNat_lt
  have h1 := cp.b1.toNat_lt
  have h2 := cp.b2.toNat_lt
  have h3 := cp.b3.toNat_lt
  unfold read4LittleEndian
  omega

theorem read4LittleEndian_store4LittleEndian {val : Nat}
    : read4LittleEndian (store4LittleEndian val) = val % 2 ^ 32 := by
  simp only [read4LittleEndian, store4LittleEndian, UInt8.toNat_ofNat']
  omega

private theorem getD_middle {pre mid post : List UInt8} {k : Nat} (hk : k < mid.length)
    : (pre ++ mid ++ post).getD (pre.length + k) 0 = mid.getD k 0 := by
  simp only [List.getD_eq_getElem?_getD]
  rw [List.append_assoc, List.getElem?_append_right (by omega), Nat.add_sub_cancel_left,
    List.getElem?_append_left hk]

namespace Partition

variable {p : Partition} {n : Nat}

theorem getStartSect_lt : p.getStartSect < 2 ^ 32 :=
  read4LittleEndian_lt

theorem getNrSects_lt : p.getNrSects < 2 ^ 32 :=
  read4LittleEndian_lt

@[simp]
theorem getStartSect_setStartSect : (p.setStartSect n).getStartSect = n % 2 ^ 32 := by
  simp [getStartSect, setStartSect, read4LittleEndian_store4LittleEndian, Word.trunc]

@[simp]
theorem getNrSects_setNrSects : (p.setNrSects n).getNrSects = n % 2 ^ 32 := by
  simp [getNrSects, setNrSects, read4LittleEndian_store4LittleEndian, Word.trunc]

@[simp]
theorem sysInd_setStartSect : (p.setStartSect n).sysInd = p.sysInd :=
  rfl

@[simp]
theorem sysInd_setNrSects : (p.setNrSects n).sysInd = p.sysInd :=
  rfl

@[simp]
theorem getStartSect_setNrSects : (p.setNrSects n).getStartSect = p.getStartSect :=
  rfl

@[simp]
theorem getNrSects_setStartSect : (p.setStartSect n).getNrSects = p.getNrSects :=
  rfl

@[simp]
theorem toBytes_length : p.toBytes.length = 16 :=
  rfl

theorem ofBytes_append {pre post : List UInt8}
    : ofBytes (pre ++ p.toBytes ++ post) pre.length = p := by
  have hget : ∀ k, k < 16 →
      (pre ++ p.toBytes ++ post).getD (pre.length + k) 0 = p.toBytes.getD k 0 :=
    fun k hk => getD_middle hk
  have hzero := hget 0 (by decide)
  rw [Nat.add_zero] at hzero
  unfold ofBytes
  rw [hzero]
  simp only [hget, Nat.reduceLT]
  rfl

end Partition

theorem Buffer.toBytes_length {b : Buffer} : b.toBytes.length = 512 := by
  unfold toBytes
  simp only [List.length_append, b.code_length, Partition.toBytes_length, List.length_cons,
    List.length_nil]

theorem Buffer.toBytes_split {b : Buffer} (i : Slot) (post : List UInt8)
    : ∃ pre rest, b.toBytes ++ post = pre ++ (b.entries i).toBytes ++ rest
        ∧ pre.length = 446 + 16 * i := by
  have hcode := b.code_length
  let flags := [b.flag0, b.flag1]
  let e (j : Slot) := (b.entries j).toBytes
  match i with
  | 0 =>
    exact ⟨b.code, e 1 ++ e 2 ++ e 3 ++ flags ++ post, by simp [toBytes, e, flags], hcode⟩
  | 1 =>
    exact ⟨b.code ++ e 0, e 2 ++ e 3 ++ flags ++ post, by simp [toBytes, e, flags],
      by simp [hcode, e]⟩
  | 2 =>
    exact ⟨b.code ++ e 0 ++ e 1, e 3 ++ flags ++ post, by simp [toBytes, e, flags],
      by simp [hcode, e]⟩
  | 3 =>
    refine ⟨b.code ++ e 0 ++ e 1 ++ e 2, flags ++ post, by simp [toBytes, e, flags], ?_⟩
    simp only [List.length_append, hcode, e, Partition.toBytes_length]
    rfl

theorem Buffer.ofBytes_toBytes {b : Buffer} {post : List UInt8}
    : Buffer.ofBytes (b.toBytes ++ post) = b := by
  have hcode : (b.toBytes ++ post ++ List.replicate 446 0).take 446 = b.code := by
    simp only [toBytes, List.append_assoc]
    exact List.take_left' b.code_length
  have hentries : ∀ i : Slot, Partition.ofBytes (b.toBytes ++ post) (446 + 16 * i) = b.entries i := by
    intro i
    obtain ⟨pre, rest, heq, hlen⟩ := b.toBytes_split i post
    rw [heq, ← hlen, Partition.ofBytes_append]
  have hpre : b.toBytes ++ post = (b.code ++ (b.entries 0).toBytes ++ (b.entries 1).toBytes
      ++ (b.entries 2).toBytes ++ (b.entries 3).toBytes) ++ [b.flag0, b.flag1] ++ post := rfl
  have hlen : (b.code ++ (b.entries 0).toBytes ++ (b.entries 1).toBytes
      ++ (b.entries 2).toBytes ++ (b.entries 3).toBytes).length = 510 := by
    simp only [List.length_append, b.code_length, Partition.toBytes_length]
  have hflag0 : (b.toBytes ++ post).getD 510 0 = b.flag0 := by
    rw [hpre, ← hlen]
    exact getD_middle (k := 0) (Nat.zero_lt_succ 1)
  have hflag1 : (b.toBytes ++ post).getD 511 0 = b.flag1 := by
    rw [hpre, show 511 = 510 + 1 from rfl, ← hlen]
    exact getD_middle (Nat.one_lt_succ_succ 0)
  unfold ofBytes
  simp only [hcode, hentries, hflag0, hflag1]

end FsBench.Fdisk
