import FsBench.Fdisk.Chain
import FsBench.Lib.Descent

/-!
`wrong_p_order`, which looks for the first partition that starts before the one in front of it. It
compares the low 32 bits of the positions.
-/

namespace FsBench.Fdisk

/--
`for (i = 0 ; i < partitions; i++)` with `count` entries to go. `prev` is what the pointer leads to,
`none` when it is `NULL`.
-/
def wrongPOrder.scan (g : Globals) (prev : Option Nat)
    : Nat → Nat → Nat → Nat → Result (Nat × Option Nat)
  | 0, _, _, _ => .ok (0, prev)
  | count + 1, i, lastPStartPos, lastI => do
    let lastI := if i = 4 then 4 else lastI
    let lastPStartPos := if i = 4 then 0 else lastPStartPos
    let pe ← g.getPte i
    let p ← deref pe.partTable
    if (g.part p).sysInd ≠ 0 then
      let start ← getPartitionStart g pe
      let pStartPos := Word.trunc 32 start
      if lastPStartPos > pStartPos then
        return (i, prev.map fun _ => lastI)
      else
        scan g prev count (i + 1) pStartPos i
    else
      scan g prev count (i + 1) lastPStartPos lastI

/--
What is returned and what `*prev` is then.
-/
def wrongPOrder (g : Globals) (prev : Option Nat) : Result (Nat × Option Nat) :=
  wrongPOrder.scan g prev g.partitions 0 0 0

namespace Globals

structure Filled (g : Globals) : Prop where
  bounds : g.partitions ≤ MAXIMUM_PARTS
  partTable : ∀ i < g.partitions, ∃ p, (g.ptes i).partTable = some p

def used (g : Globals) (i : Nat) : Bool :=
  (g.partAt (g.ptes i).partTable).sysInd ≠ 0

def start (g : Globals) (i : Nat) : Nat :=
  Word.add 64 (g.ptes i).offset (g.partAt (g.ptes i).partTable).getStartSect

def low (g : Globals) (i : Nat) : Nat :=
  Word.trunc 32 (g.start i)

def groups (g : Globals) : Descent.Groups where
  used := g.used
  first i := decide (i = 4)

def InOrder (g : Globals) : Prop :=
  ∀ i < g.partitions, ∀ j < i, (i < 4 ∨ 4 ≤ j) → g.used j = true → g.used i = true →
    g.start j ≤ g.start i

instance (g : Globals) : Decidable g.InOrder :=
  inferInstanceAs (Decidable (∀ i < g.partitions, ∀ j < i, (i < 4 ∨ 4 ≤ j) → g.used j = true →
    g.used i = true → g.start j ≤ g.start i))

/--
`i` is the first partition that starts before the closest one in front of it, which is `j`.
-/
def WrongAt (g : Globals) (j i : Nat) : Prop :=
  i < g.partitions ∧ g.groups.Descends g.start j i

structure TellsOrder (g : Globals) (prev : Option Nat) (answer : Nat × Option Nat) : Prop where
  zero_iff : answer.1 = 0 ↔ g.InOrder
  wrong : ¬g.InOrder → ∃ j, g.WrongAt j answer.1 ∧ answer.2 = prev.map fun _ => j

variable {g : Globals} {i j : Nat}

theorem Filled.getPte (h : g.Filled) (hi : i < g.partitions) : g.getPte i = .ok (g.ptes i) :=
  getPte_of_lt (Nat.lt_of_lt_of_le hi h.bounds)

theorem Filled.of_wellFormed (h : g.WellFormed) : g.Filled := by
  refine ⟨h.bounds.2, ?_⟩
  intro i hi
  by_cases hprimary : i < 4
  . exact ⟨_, (h.primary ⟨i, hprimary⟩).1⟩
  . exact h.partTable (by omega) hi

theorem ascends_iff (key : Nat → Nat)
    : g.groups.Ascends key g.partitions
      ↔ ∀ i < g.partitions, ∀ j < i, (i < 4 ∨ 4 ≤ j) → g.used j = true → g.used i = true →
        key j ≤ key i := by
  have htogether (j i : Nat) (hlt : j < i)
      : (∀ k, j < k → k ≤ i → g.groups.first k = false) ↔ (i < 4 ∨ 4 ≤ j) := by
    simp only [groups, decide_eq_false_iff_not]
    constructor
    . intro h
      by_contra hout
      exact h 4 (by omega) (by omega) rfl
    . intro h k hjk hki
      omega
  rw [Descent.Groups.ascends_iff]
  constructor
  . intro h i hi j hji hgroup
    exact h i hi j hji ((htogether j i hji).mpr hgroup)
  . intro h i hi j hji hgroup
    exact h i hi j hji ((htogether j i hji).mp hgroup)

theorem inOrder_iff : g.InOrder ↔ g.groups.Ascends g.start g.partitions :=
  (ascends_iff g.start).symm

end Globals

namespace wrongPOrder

variable {g : Globals} {i j lastPStartPos lastI : Nat}

def answer (prev : Option Nat) : Option (Nat × Nat) → Nat × Option Nat
  | none => (0, prev)
  | some (j, i) => (i, prev.map fun _ => j)

/--
What the variables of the loop hold about the entries in front of `i`. A position of 0 is never above
another one.
-/
def Holds (g : Globals) (i lastPStartPos lastI : Nat) : Prop :=
  g.groups.closest i = none ∧ lastPStartPos = 0
    ∨ g.groups.closest i = some lastI ∧ lastPStartPos = g.low lastI

theorem Holds.skip (h : Holds g i lastPStartPos lastI) (hunused : g.used i = false)
    : Holds g (i + 1) (if i + 1 = 4 then 0 else lastPStartPos) (if i + 1 = 4 then 4 else lastI) := by
  by_cases hfirst : i + 1 = 4
  . rw [if_pos hfirst]
    exact .inl ⟨Descent.Groups.closest_of_first (decide_eq_true hfirst), rfl⟩
  . rw [if_neg hfirst, if_neg hfirst, Holds,
      Descent.Groups.closest_of_unused (decide_eq_false hfirst) hunused]
    exact h

theorem Holds.next (hused : g.used i = true)
    : Holds g (i + 1) (if i + 1 = 4 then 0 else g.low i) (if i + 1 = 4 then 4 else i) := by
  by_cases hfirst : i + 1 = 4
  . rw [if_pos hfirst]
    exact .inl ⟨Descent.Groups.closest_of_first (decide_eq_true hfirst), rfl⟩
  . rw [if_neg hfirst, if_neg hfirst]
    exact .inr ⟨Descent.Groups.closest_of_used (decide_eq_false hfirst) hused, rfl⟩

theorem Holds.neighbours (h : Holds g i lastPStartPos lastI) (hused : g.used i = true)
    (hlt : g.low i < lastPStartPos)
    : g.groups.Neighbours lastI i ∧ g.low i < g.low lastI := by
  rcases h with ⟨_, hzero⟩ | ⟨hclosest, hlast⟩
  . omega
  . rw [hlast] at hlt
    exact ⟨Descent.Groups.neighbours_iff.mpr ⟨hused, hclosest⟩, hlt⟩

theorem Holds.le (h : Holds g i lastPStartPos lastI) (hle : ¬g.low i < lastPStartPos)
    (hj : g.groups.Neighbours j i) : g.low j ≤ g.low i := by
  have hclosest := (Descent.Groups.neighbours_iff.mp hj).2
  rcases h with ⟨hnone, _⟩ | ⟨hsome, hlast⟩
  . rw [hnone] at hclosest
    cases hclosest
  . rw [hsome] at hclosest
    obtain rfl := Option.some.inj hclosest
    omega

theorem scan_spec (h : g.Filled) (prev : Option Nat) (count : Nat) (hcount : i + count = g.partitions)
    (hholds : Holds g i (if i = 4 then 0 else lastPStartPos) (if i = 4 then 4 else lastI))
    (hascends : g.groups.Ascends g.low i)
    : ∃ r, scan g prev count i lastPStartPos lastI = .ok (answer prev r)
        ∧ g.groups.Finds g.low g.partitions r := by
  induction count generalizing i lastPStartPos lastI with
  | zero =>
    refine ⟨none, rfl, ?_⟩
    rw [← hcount]
    exact hascends
  | succ count ih =>
    have hi : i < g.partitions := by omega
    obtain ⟨p, hp⟩ := h.partTable i hi
    have hstart : getPartitionStart g (g.ptes i) = .ok (g.start i) := by
      simp only [getPartitionStart, hp, deref, bind, Except.bind, Globals.start, Globals.partAt]
      rfl
    have hused : g.used i = decide ((g.part p).sysInd ≠ 0) := by
      rw [Globals.used, hp, Globals.partAt]
    have hlow : Word.trunc 32 (g.start i) = g.low i := rfl
    rw [scan]
    simp only [h.getPte hi, hp, deref, hstart, hlow, bind, Except.bind, pure, Except.pure]
    -- what `hholds` is about are the variables after the reset at entry 4
    generalize (if i = 4 then 0 else lastPStartPos) = lastPStartPos at *
    generalize (if i = 4 then 4 else lastI) = lastI at *
    cases hu : g.used i with
    | true =>
      rw [hu] at hused
      rw [if_pos (of_decide_eq_true hused.symm)]
      split
      . next hlt =>
        obtain ⟨hneighbours, hdescent⟩ := hholds.neighbours hu hlt
        exact ⟨some (lastI, i), rfl, hi, hneighbours, hdescent, hascends⟩
      . next hle =>
        exact ih (by omega) (Holds.next hu) (hascends.succ fun j hj => hholds.le hle hj)
    | false =>
      rw [hu] at hused
      rw [if_neg (of_decide_eq_false hused.symm)]
      refine ih (by omega) (hholds.skip hu) (hascends.succ ?_)
      intro j hj
      exact absurd hj.right (by rw [show g.groups.used i = false from hu]; decide)

end wrongPOrder

open wrongPOrder

variable {g : Globals}

theorem wrongPOrder_spec (h : g.Filled) (prev : Option Nat)
    : ∃ r, wrongPOrder g prev = .ok (answer prev r) ∧ g.groups.Finds g.low g.partitions r :=
  scan_spec h prev g.partitions (Nat.zero_add _) (.inl ⟨rfl, rfl⟩) Descent.Groups.ascends_zero

theorem tellsOrder_iff {prev : Option Nat} {r : Option (Nat × Nat)}
    (hr : g.groups.Finds g.low g.partitions r)
    : g.TellsOrder prev (answer prev r) ↔ g.groups.Finds g.start g.partitions r := by
  cases r with
  | none =>
    constructor
    . intro htells
      exact Globals.inOrder_iff.mp (htells.zero_iff.mp rfl)
    . intro hascends
      have horder := Globals.inOrder_iff.mpr hascends
      exact ⟨iff_of_true rfl horder, fun hwrong => absurd horder hwrong⟩
  | some r =>
    obtain ⟨j, i⟩ := r
    obtain ⟨hi, hlow⟩ := hr
    have hlt := hlow.neighbours.lt
    have hzero : i ≠ 0 := by omega
    constructor
    . intro htells
      obtain ⟨j', hwrong, _⟩ := htells.wrong fun horder => hzero (htells.zero_iff.mpr horder)
      obtain rfl := hlow.neighbours.unique hwrong.2.neighbours
      exact hwrong
    . intro hwrong
      have horder : ¬g.InOrder := by
        rw [Globals.inOrder_iff]
        intro hascends
        have := hwrong.2.lt_of_ascends hascends
        omega
      exact ⟨iff_of_false hzero horder, fun _ => ⟨j, hwrong, rfl⟩⟩

theorem getBoot_filled {d : Device} {malloc : Nat → Nat → UInt8} {fuel : Nat} {k : Kernel}
    {g₀ : Globals} {ret : Int} (hsize : DEFAULT_SECTOR_SIZE ≤ g₀.nextSectorSize k)
    (hstate : g₀.sectorSize < 2 ^ 32) (hfuel : MAXIMUM_PARTS + 2 ≤ fuel)
    (h : getBoot d malloc k fuel g₀ = .ok (g, ret)) : g.Filled := by
  obtain ⟨next, ret', hnext, hwf⟩ := getBoot_spec d malloc hsize hstate hfuel
  rw [h] at hnext
  cases hnext
  rcases hwf with hwf | ⟨_, hpartitions, hprimary⟩
  . exact .of_wellFormed hwf
  . refine ⟨by rw [hpartitions]; decide, ?_⟩
    intro i hi
    have := hprimary ⟨i, by omega⟩
    exact ⟨_, congrArg Pte.partTable this⟩

theorem wrongPOrder_tellsOrder_iff (h : g.Filled) (prev : Option Nat)
    : ∃ answer, wrongPOrder g prev = .ok answer
        ∧ (g.TellsOrder prev answer
          ↔ ∀ j i, g.groups.Neighbours j i → i < g.partitions → g.groups.Ascends g.start i →
            (g.start i < g.start j ↔ g.start i % 2 ^ 32 < g.start j % 2 ^ 32)) := by
  obtain ⟨r, hr, hfinds⟩ := wrongPOrder_spec h prev
  refine ⟨_, hr, ?_⟩
  rw [tellsOrder_iff hfinds]
  exact Descent.Groups.finds_iff_agree hfinds

theorem wrongPOrder_tellsOrder_iff_endlessChain
    : ∃ g ret, getBoot .endlessChain (fun _ _ => 0) (.mmc 512 (2 ^ 30)) 62 .initial = .ok (g, ret)
        ∧ ∃ answer, wrongPOrder g (some 0) = .ok answer
          ∧ (g.TellsOrder (some 0) answer
            ↔ ∀ j i, g.groups.Neighbours j i → i < g.partitions → g.groups.Ascends g.start i →
              (g.start i < g.start j ↔ g.start i % 2 ^ 32 < g.start j % 2 ^ 32)) := by
  have hsize : DEFAULT_SECTOR_SIZE ≤ Globals.nextSectorSize (.mmc 512 (2 ^ 30)) .initial := by decide
  have hstate : Globals.initial.sectorSize < 2 ^ 32 := by decide
  have hfuel : MAXIMUM_PARTS + 2 ≤ 62 := by decide
  obtain ⟨g, ret, hg, _⟩ := getBoot_spec .endlessChain (fun _ _ => 0) hsize hstate hfuel
  exact ⟨g, ret, hg, wrongPOrder_tellsOrder_iff (getBoot_filled hsize hstate hfuel hg) (some 0)⟩

/--
A device with a chain of two boot records, the second one at sector `2 ^ 32`. Each has a partition
63 sectors behind it.
-/
def Device.farLink : Device where
  byte i :=
    match i / 512, i % 512 with
    | 0, 450 => 0x05
    | 0, 455 => 0xf8
    | 0, 456 => 0xff
    | 0, 457 => 0xff
    | 0, 459 => 0x10
    | 0xfffff800, 450 => 0x83
    | 0xfffff800, 454 => 63
    | 0xfffff800, 459 => 1
    | 0xfffff800, 466 => 0x05
    | 0xfffff800, 471 => 8
    | 0xfffff800, 475 => 8
    | 0x100000000, 450 => 0x83
    | 0x100000000, 454 => 63
    | 0x100000000, 459 => 1
    | _, 510 => 0x55
    | _, 511 => 0xaa
    | _, _ => 0
  size := 2 ^ 42
  seeks _ := true

def Device.farLink.misjudged : Bool :=
  match getBoot .farLink (fun _ _ => 0) (.mmc 512 (2 ^ 42)) 62 .initial with
  | .error _ => false
  | .ok (g, ret) =>
    ret = 0 && decide g.InOrder
      && match wrongPOrder g (some 0) with
        | .ok answer => answer = (5, some 4)
        | .error _ => false

theorem wrongPOrder_not_tellsOrder
    : ∃ g answer, getBoot .farLink (fun _ _ => 0) (.mmc 512 (2 ^ 42)) 62 .initial = .ok (g, 0)
        ∧ wrongPOrder g (some 0) = .ok answer ∧ ¬g.TellsOrder (some 0) answer := by
  have hmisjudged : Device.farLink.misjudged = true := by decide +kernel
  unfold Device.farLink.misjudged at hmisjudged
  split at hmisjudged
  . cases hmisjudged
  . next g ret hboot =>
    simp only [Bool.and_eq_true, decide_eq_true_eq] at hmisjudged
    obtain ⟨⟨rfl, horder⟩, hanswer⟩ := hmisjudged
    split at hanswer
    . next answer hwrong =>
      refine ⟨g, answer, hboot, hwrong, ?_⟩
      intro htells
      have hzero := htells.zero_iff.mpr horder
      rw [of_decide_eq_true hanswer] at hzero
      cases hzero
    . cases hanswer

end FsBench.Fdisk
