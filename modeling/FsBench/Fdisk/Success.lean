import FsBench.Fdisk.MakePart

/-!
This module contains when a result of 0 of `fdisk_make_part` means that the table is on the device.
-/

namespace FsBench.Fdisk

structure Made.Stored (m : Made) (io : Io) : Prop where
  written_eq : m.written = mbrMemory io.behind (m.globals.bufs 0) m.globals.sectorSize
  device_eq : m.device = io.device.write 0 m.written

namespace Io

def WritesSector (io : Io) (sectorSize : Nat) : Prop :=
  io.writes = true ∧ sectorSize ≤ io.takes ∧ sectorSize ≤ io.device.size

/--
One of the calls fails whose results are looked at: an open, `fstat`, or the `ioctl` that makes the
kernel read the table. Those of `lseek`, `write` and `fsync` are not.
-/
def Noticed (io : Io) : Prop :=
  io.openDevice = false ∨ io.openAgain = false ∨ io.isBlock = none
    ∨ io.isBlock = some true ∧ io.rereads = false

instance {io : Io} {sectorSize : Nat} : Decidable (io.WritesSector sectorSize) :=
  inferInstanceAs (Decidable (_ ∧ _))

instance {io : Io} : Decidable io.Noticed :=
  inferInstanceAs (Decidable (_ ∨ _))

variable {io : Io}

theorem status_eq_zero_iff (hopen : io.openDevice = true) : io.status = 0 ↔ ¬io.Noticed := by
  unfold status rereadPartitionTable Noticed
  rw [hopen]
  cases io.openAgain with
  | false => simp
  | true =>
    cases io.isBlock with
    | none => simp
    | some isBlock => cases isBlock <;> cases io.rereads <;> simp

end Io

section Success

variable {io : Io} {m : Made} {g : Globals} {fuel n : Nat}

theorem Made.Written.stored_iff {sectorSize : Nat} (h : m.Written io sectorSize)
    (hsize : DEFAULT_SECTOR_SIZE ≤ sectorSize) : m.Stored io ↔ io.WritesSector sectorSize := by
  have hlength : (mbrMemory io.behind (m.globals.bufs 0) sectorSize).length = sectorSize :=
    mbrMemory_length
  constructor
  . intro hstored
    have hwritten := congrArg List.length hstored.written_eq
    rw [h.taken_length, h.sectorSize_eq, hlength] at hwritten
    have hpos : 0 < sectorSize := Nat.lt_of_lt_of_le (by decide) hsize
    split at hwritten
    . next hwrites => exact ⟨hwrites, by omega, by omega⟩
    . omega
  . intro ⟨hwrites, htakes, hfits⟩
    refine ⟨?_, h.device_eq⟩
    rw [h.taken_eq, h.sectorSize_eq, hwrites, if_pos rfl, List.take_of_length_le]
    rw [hlength]
    exact Nat.le_min.mpr ⟨htakes, hfits⟩

theorem fdiskMakePart_of_closed (hn : 1 ≤ n ∧ n ≤ 4) (hopen : io.openDevice = false)
    (hm : fdiskMakePart io fuel g n = .ok m) : m.ret = -1 := by
  have hparts : ¬(n > 4 ∨ n = 0) := by omega
  have hpartitions : g.setPartitions 4 = .ok { g with partitions := 4 } :=
    Globals.setPartitions_of_bounds (by decide)
  simp only [fdiskMakePart, if_neg hparts, hpartitions, bind, Except.bind, hopen, if_true, pure,
    Except.pure] at hm
  cases hm
  rfl

theorem fdiskMakePart_success_iff (hn : 1 ≤ n ∧ n ≤ 4) (hstate : g.sectorSize < 2 ^ 32)
    (hm : fdiskMakePart io fuel g n = .ok m)
    : (m.ret = 0 → m.Stored io)
      ↔ io.Noticed ∨ io.WritesSector (g.nextSectorSize io.kernel) := by
  cases hopen : io.openDevice with
  | false =>
    have hret := fdiskMakePart_of_closed hn hopen hm
    refine iff_of_true ?_ (.inl (.inl hopen))
    intro hzero
    rw [hret] at hzero
    exact absurd hzero (by decide)
  | true =>
    have hwritten := fdiskMakePart_written hn hstate hopen hm
    rw [hwritten.ret_eq, Io.status_eq_zero_iff hopen,
      hwritten.stored_iff (fdiskMakePart_size hn hopen hm)]
    exact Decidable.imp_iff_not_or.trans (or_congr_left Decidable.not_not)

def Io.cardReadOnly (sectorSize bytes : Nat) : Io :=
  { Io.card sectorSize bytes with writes := false }

theorem fdiskMakePart_cardReadOnly
    : ∃ m, fdiskMakePart (.cardReadOnly 512 (2 ^ 31)) 3 .initial 1 = .ok m ∧ m.ret = 0
        ∧ m.written = [] := by
  have hopen : (Io.cardReadOnly 512 (2 ^ 31)).openDevice = true := rfl
  obtain ⟨m, _, hm, _⟩ := fdiskMakePart_made (g := .initial) (n := 1) (by decide) (by decide)
    (by decide) rfl hopen (Nat.le_refl 3)
  have hwritten := fdiskMakePart_written (by decide) (by decide) rfl hm
  exact ⟨m, hm, hwritten.ret_eq, hwritten.taken_eq⟩

theorem fdiskMakePart_success_iff_card
    : ∃ m, fdiskMakePart (.cardReadOnly 512 (2 ^ 31)) 3 .initial 1 = .ok m
        ∧ ((m.ret = 0 → m.Stored (.cardReadOnly 512 (2 ^ 31)))
          ↔ (Io.cardReadOnly 512 (2 ^ 31)).Noticed
            ∨ (Io.cardReadOnly 512 (2 ^ 31)).WritesSector 512) := by
  obtain ⟨m, hm, _⟩ := fdiskMakePart_cardReadOnly
  exact ⟨m, hm, fdiskMakePart_success_iff (by decide) (by decide) hm⟩

theorem fdiskMakePart_false_success
    : ∃ m, fdiskMakePart (.cardReadOnly 512 (2 ^ 31)) 3 .initial 1 = .ok m
        ∧ ¬(m.ret = 0 → m.Stored (.cardReadOnly 512 (2 ^ 31))) := by
  obtain ⟨m, hm, hret, hnothing⟩ := fdiskMakePart_cardReadOnly
  have hwritten := fdiskMakePart_written (by decide) (by decide) rfl hm
  refine ⟨m, hm, ?_⟩
  intro hstored
  have hwrites := (hwritten.stored_iff (by decide)).mp (hstored hret)
  exact absurd hwrites.1 Bool.false_ne_true

end Success

end FsBench.Fdisk
