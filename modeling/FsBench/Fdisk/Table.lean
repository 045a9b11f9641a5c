import FsBench.Fdisk.Boot

/-!
The table that `get_boot` is to leave: primary entries in `MBRbuffer`, logical entries in buffers of
their own, and what is read through their pointers.
-/

namespace FsBench.Fdisk

def Pte.OwnSlots (pe : Pte) : Prop :=
  ∃ buf p q, p ≠ q ∧ pe.sectorbuffer = some buf ∧ pe.partTable = some { buf, slot := p }
    ∧ pe.extPointer = some { buf, slot := q }

structure Pte.SamePointers (pe next : Pte) : Prop where
  partTable_eq : next.partTable = pe.partTable
  extPointer_eq : next.extPointer = pe.extPointer
  sectorbuffer_eq : next.sectorbuffer = pe.sectorbuffer

structure Globals.SamePointers (g next : Globals) : Prop where
  partitions_eq : next.partitions = g.partitions
  allocated_eq : next.allocated = g.allocated
  sectorSize_eq : next.sectorSize = g.sectorSize
  ptes_same : ∀ i, (g.ptes i).SamePointers (next.ptes i)

/--
The table that `ptes` describes: four primary entries in `MBRbuffer` and behind them the logical
ones, each in a buffer of its own.
-/
structure Globals.WellFormed (g : Globals) : Prop where
  room : DEFAULT_SECTOR_SIZE ≤ g.sectorSize
  bounds : 4 ≤ g.partitions ∧ g.partitions ≤ MAXIMUM_PARTS
  primary : ∀ i : Slot,
    (g.ptes i).partTable = some { buf := 0, slot := i } ∧ (g.ptes i).sectorbuffer = some 0
  logical : ∀ i, 4 ≤ i → i < g.partitions → (g.ptes i).OwnSlots
  allocated : ∀ i buf, 4 ≤ i → i < g.partitions → (g.ptes i).sectorbuffer = some buf →
    buf ≤ g.allocated
  distinct : ∀ i j, 4 ≤ i → i < g.partitions → 4 ≤ j → j < g.partitions →
    (g.ptes i).sectorbuffer = (g.ptes j).sectorbuffer → i = j

section WellFormed

variable {g next : Globals} {i : Nat} {pe : Pte}

theorem Pte.SamePointers.refl : pe.SamePointers pe :=
  ⟨rfl, rfl, rfl⟩

theorem Pte.SamePointers.trans {pe₁ pe₂ pe₃ : Pte} (h : pe₁.SamePointers pe₂)
    (h' : pe₂.SamePointers pe₃) : pe₁.SamePointers pe₃ where
  partTable_eq := h'.partTable_eq.trans h.partTable_eq
  extPointer_eq := h'.extPointer_eq.trans h.extPointer_eq
  sectorbuffer_eq := h'.sectorbuffer_eq.trans h.sectorbuffer_eq

theorem Pte.SamePointers.symm {next : Pte} (h : pe.SamePointers next) : next.SamePointers pe where
  partTable_eq := h.partTable_eq.symm
  extPointer_eq := h.extPointer_eq.symm
  sectorbuffer_eq := h.sectorbuffer_eq.symm

theorem Pte.OwnSlots.of_same {next : Pte} (h : pe.OwnSlots) (hsame : pe.SamePointers next)
    : next.OwnSlots := by
  obtain ⟨buf, p, q, hne, hbuf, hpart, hext⟩ := h
  refine ⟨buf, p, q, hne, ?_, ?_, ?_⟩
  . rw [hsame.sectorbuffer_eq, hbuf]
  . rw [hsame.partTable_eq, hpart]
  . rw [hsame.extPointer_eq, hext]

namespace Globals.SamePointers

theorem trans {g₁ g₂ g₃ : Globals} (h : g₁.SamePointers g₂) (h' : g₂.SamePointers g₃)
    : g₁.SamePointers g₃ where
  partitions_eq := h'.partitions_eq.trans h.partitions_eq
  allocated_eq := h'.allocated_eq.trans h.allocated_eq
  sectorSize_eq := h'.sectorSize_eq.trans h.sectorSize_eq
  ptes_same i := (h.ptes_same i).trans (h'.ptes_same i)

theorem setPart {p : PartPtr} {value : Partition} : g.SamePointers (g.setPart p value) :=
  ⟨rfl, rfl, rfl, fun _ => .refl⟩

theorem clearPartition {p : Option PartPtr} : g.SamePointers (clearPartition g p) := by
  cases p with
  | none => exact ⟨rfl, rfl, rfl, fun _ => .refl⟩
  | some p => exact setPart

theorem setPte (pe : Pte) (hi : i < MAXIMUM_PARTS) (hsame : (g.ptes i).SamePointers pe)
    : ∃ next, g.setPte i pe = .ok next ∧ g.SamePointers next ∧ next.bufs = g.bufs := by
  refine ⟨_, setPte_of_lt hi, ⟨rfl, rfl, rfl, ?_⟩, rfl⟩
  intro j
  dsimp only
  by_cases heq : j = i
  . subst heq
    rw [Function.update_self]
    exact hsame
  . rw [Function.update_of_ne heq]
    exact .refl

end Globals.SamePointers

namespace Globals.WellFormed

theorem reindex (h : g.WellFormed) (source : Nat → Nat) (hroom : next.sectorSize = g.sectorSize)
    (hbounds : 4 ≤ next.partitions ∧ next.partitions ≤ MAXIMUM_PARTS)
    (hallocated : next.allocated = g.allocated)
    (hprimary : ∀ i : Slot, (g.ptes i).SamePointers (next.ptes i))
    (hsource : ∀ j, 4 ≤ j → j < next.partitions →
      4 ≤ source j ∧ source j < g.partitions ∧ (g.ptes (source j)).SamePointers (next.ptes j))
    (hinj : ∀ i j, source i = source j → i = j)
    : next.WellFormed where
  room := by
    rw [hroom]
    exact h.room
  bounds := hbounds
  primary i := by
    rw [(hprimary i).partTable_eq, (hprimary i).sectorbuffer_eq]
    exact h.primary i
  logical i hle hlt := by
    obtain ⟨hsle, hslt, hsame⟩ := hsource i hle hlt
    exact (h.logical _ hsle hslt).of_same hsame
  allocated i buf hle hlt hbuf := by
    obtain ⟨hsle, hslt, hsame⟩ := hsource i hle hlt
    rw [hallocated]
    apply h.allocated (source i) buf hsle hslt
    rw [← hsame.sectorbuffer_eq, hbuf]
  distinct i j hile hilt hjle hjlt hbuf := by
    obtain ⟨hisle, hislt, hisame⟩ := hsource i hile hilt
    obtain ⟨hjsle, hjslt, hjsame⟩ := hsource j hjle hjlt
    apply hinj
    apply h.distinct _ _ hisle hislt hjsle hjslt
    rw [← hisame.sectorbuffer_eq, ← hjsame.sectorbuffer_eq, hbuf]

theorem of_same (h : g.WellFormed) (hsame : g.SamePointers next) : next.WellFormed := by
  apply h.reindex id hsame.sectorSize_eq
  . rw [hsame.partitions_eq]
    exact h.bounds
  . exact hsame.allocated_eq
  . exact fun i => hsame.ptes_same i
  . intro j hle hlt
    rw [hsame.partitions_eq] at hlt
    exact ⟨hle, hlt, hsame.ptes_same j⟩
  . exact fun _ _ => id

theorem of_primary (hroom : DEFAULT_SECTOR_SIZE ≤ g.sectorSize) (hpartitions : g.partitions = 4)
    (hptes : ∀ i : Slot, g.ptes i = .primary i) : g.WellFormed where
  room := hroom
  bounds := by
    rw [hpartitions]
    decide
  primary i := by
    rw [hptes]
    exact ⟨rfl, rfl⟩
  logical i hle hlt := by omega
  allocated i buf hle hlt := by omega
  distinct i j hle hlt := by omega

theorem lt (h : g.WellFormed) (hi : i < g.partitions) : i < MAXIMUM_PARTS :=
  Nat.lt_of_lt_of_le hi h.bounds.2

theorem getPte (h : g.WellFormed) (hi : i < g.partitions) : g.getPte i = .ok (g.ptes i) :=
  getPte_of_lt (h.lt hi)

theorem extPointer (h : g.WellFormed) (hle : 4 ≤ i) (hlt : i < g.partitions)
    : ∃ p, (g.ptes i).extPointer = some p := by
  obtain ⟨buf, p, q, _, _, _, hext⟩ := h.logical i hle hlt
  exact ⟨_, hext⟩

theorem partTable (h : g.WellFormed) (hle : 4 ≤ i) (hlt : i < g.partitions)
    : ∃ p, (g.ptes i).partTable = some p := by
  obtain ⟨buf, p, q, _, _, hpart, _⟩ := h.logical i hle hlt
  exact ⟨_, hpart⟩

theorem dropLast (h : g.WellFormed) (hlt : 5 ≤ g.partitions)
    : ∃ next, g.setPartitions (g.partitions - 1) = .ok next ∧ next.WellFormed
        ∧ next.partitions + 1 = g.partitions ∧ next.extendedOffset = g.extendedOffset
        ∧ next.ptes = g.ptes ∧ next.bufs = g.bufs := by
  have hbounds : 4 ≤ g.partitions - 1 ∧ g.partitions - 1 ≤ MAXIMUM_PARTS := by
    have := h.bounds
    omega
  refine ⟨_, setPartitions_of_bounds hbounds, ?_, by dsimp only; omega, rfl, rfl, rfl⟩
  apply h.reindex id
  . rfl
  . exact hbounds
  . rfl
  . exact fun _ => .refl
  . intro j hle hlt
    dsimp only at hlt
    exact ⟨hle, Nat.lt_of_lt_of_le hlt (Nat.sub_le ..), .refl⟩
  . exact fun _ _ => id

theorem append (h : g.WellFormed) (hlt : g.partitions < MAXIMUM_PARTS)
    (hslots : pe.OwnSlots) (hbuf : pe.sectorbuffer = some (g.allocated + 1))
    (hsectorSize : next.sectorSize = g.sectorSize) (hallocated : next.allocated = g.allocated + 1)
    (hpartitions : next.partitions = g.partitions + 1)
    (hptes : next.ptes = Function.update g.ptes g.partitions pe)
    : next.WellFormed := by
  have hbounds := h.bounds
  have hold : ∀ i, i < g.partitions → next.ptes i = g.ptes i := by
    intro i hi
    rw [hptes, Function.update_of_ne (Nat.ne_of_lt hi)]
  have hcases : ∀ i, i < next.partitions →
      i < g.partitions ∧ next.ptes i = g.ptes i ∨ i = g.partitions ∧ next.ptes i = pe := by
    intro i hi
    cases Nat.lt_or_eq_of_le (show i ≤ g.partitions by omega) with
    | inl hlt => exact .inl ⟨hlt, hold i hlt⟩
    | inr heq =>
      refine .inr ⟨heq, ?_⟩
      rw [heq, hptes, Function.update_self]
  have hfresh : ∀ i, 4 ≤ i → i < g.partitions → (g.ptes i).sectorbuffer ≠ pe.sectorbuffer := by
    intro i hle hlt heq
    rw [hbuf] at heq
    have := h.allocated i _ hle hlt heq
    omega
  constructor
  . rw [hsectorSize]
    exact h.room
  . omega
  . intro i
    rw [hold i (by omega)]
    exact h.primary i
  . intro i hle hlt
    rcases hcases i hlt with ⟨hi, hpte⟩ | ⟨_, hpte⟩ <;> rw [hpte]
    . exact h.logical i hle hi
    . exact hslots
  . intro i buf hle hlt hibuf
    rcases hcases i hlt with ⟨hi, hpte⟩ | ⟨_, hpte⟩ <;> rw [hpte] at hibuf
    . have := h.allocated i buf hle hi hibuf
      omega
    . rw [hbuf] at hibuf
      cases hibuf
      omega
  . intro i j hile hilt hjle hjlt heq
    rcases hcases i hilt with ⟨hi, hipte⟩ | ⟨hi, hipte⟩ <;>
      rcases hcases j hjlt with ⟨hj, hjpte⟩ | ⟨hj, hjpte⟩ <;> rw [hipte, hjpte] at heq
    . exact h.distinct i j hile hi hjle hj heq
    . exact absurd heq (hfresh i hile hi)
    . exact absurd heq.symm (hfresh j hjle hj)
    . rw [hi, hj]

end Globals.WellFormed

end WellFormed

/--
A logical entry as it is found through `ptes`: where its boot record lies, its partition and the
link to the next one.
-/
structure Logical where
  offset : Nat
  part : Partition
  link : Partition

/--
What the table says about a partition: its type, its size and its first sector.
-/
structure Seen where
  sysInd : UInt8
  nrSects : Nat
  start : Nat

def Logical.seen (e : Logical) : Seen where
  sysInd := e.part.sysInd
  nrSects := e.part.getNrSects
  start := Word.add 64 e.offset e.part.getStartSect

namespace Globals

def partAt (g : Globals) : Option PartPtr → Partition
  | some p => g.part p
  | none => .zero

def logical (g : Globals) (k : Nat) : Logical where
  offset := (g.ptes k).offset
  part := g.partAt (g.ptes k).partTable
  link := g.partAt (g.ptes k).extPointer

variable {g next : Globals} {i k : Nat} {p : PartPtr} {value : Partition}

theorem partAt_setPart (q : Option PartPtr)
    : (g.setPart p value).partAt q = if q = some p then value else g.partAt q := by
  cases q with
  | none => simp [partAt]
  | some q =>
    simp only [partAt, Option.some.injEq]
    split
    . next heq =>
      rw [heq]
      exact part_setPart_self
    . next hne => exact part_setPart_of_ne hne

theorem logical_congr (hpte : next.ptes k = g.ptes k) (hbufs : next.bufs = g.bufs)
    : next.logical k = g.logical k := by
  have hpart (q : Option PartPtr) : next.partAt q = g.partAt q := by
    cases q with
    | none => rfl
    | some q =>
      unfold partAt part
      rw [hbufs]
  unfold logical
  rw [hpte, hpart, hpart]

theorem setPte_logical (pe : Pte) (hi : i < MAXIMUM_PARTS) (hsame : (g.ptes i).SamePointers pe)
    : ∃ next, g.setPte i pe = .ok next ∧ g.SamePointers next
        ∧ next.extendedOffset = g.extendedOffset
        ∧ ∀ k, next.logical k
          = if k = i then { g.logical k with offset := pe.offset } else g.logical k := by
  obtain ⟨next, hnext, hpointers, _⟩ := SamePointers.setPte pe hi hsame
  have heq := hnext
  rw [setPte_of_lt hi] at heq
  obtain rfl := Except.ok.inj heq
  refine ⟨_, hnext, hpointers, rfl, ?_⟩
  intro k
  split
  . next hk =>
    subst hk
    unfold logical
    dsimp only
    rw [Function.update_self, hsame.partTable_eq, hsame.extPointer_eq]
    rfl
  . next hk => exact logical_congr (Function.update_of_ne hk _ _) rfl

theorem setPte_changed (hi : i < MAXIMUM_PARTS)
    : ∃ next, g.setPte i { g.ptes i with changed := true } = .ok next ∧ g.SamePointers next
        ∧ next.extendedOffset = g.extendedOffset ∧ ∀ k, next.logical k = g.logical k := by
  obtain ⟨next, hnext, hsame, hoffset, hlogical⟩ := setPte_logical
    { g.ptes i with changed := true } hi ⟨rfl, rfl, rfl⟩
  refine ⟨next, hnext, hsame, hoffset, ?_⟩
  intro k
  rw [hlogical]
  split
  . next hk =>
    subst hk
    rfl
  . rfl

theorem WellFormed.logical_congr (h : g.WellFormed) (hle : 4 ≤ k) (hlt : k < g.partitions)
    (hpte : next.ptes k = g.ptes k) (hbufs : ∀ buf ≤ g.allocated, next.bufs buf = g.bufs buf)
    : next.logical k = g.logical k := by
  obtain ⟨buf, p, q, _, hbuf, hpart, hext⟩ := h.logical k hle hlt
  have hsame (slot : Slot) : next.part ⟨buf, slot⟩ = g.part ⟨buf, slot⟩ := by
    unfold part
    rw [hbufs buf (h.allocated k buf hle hlt hbuf)]
  unfold Globals.logical
  rw [hpte, hpart, hext]
  simp only [partAt, hsame]

section WellFormed

variable (h : g.WellFormed) (hi : 4 ≤ i ∧ i < g.partitions) (hk : 4 ≤ k ∧ k < g.partitions)
include h hi hk

theorem WellFormed.pointers
    : ((g.ptes k).partTable = (g.ptes i).partTable ↔ k = i)
        ∧ ((g.ptes k).extPointer = (g.ptes i).extPointer ↔ k = i)
        ∧ (g.ptes k).partTable ≠ (g.ptes i).extPointer
        ∧ (g.ptes k).extPointer ≠ (g.ptes i).partTable := by
  obtain ⟨buf, p, q, hslots, hbuf, hpart, hext⟩ := h.logical i hi.1 hi.2
  obtain ⟨buf', p', q', hslots', hbuf', hpart', hext'⟩ := h.logical k hk.1 hk.2
  have hbufs : buf' = buf → k = i := by
    intro heq
    rw [heq] at hbuf'
    exact h.distinct k i hk.1 hk.2 hi.1 hi.2 (hbuf'.trans hbuf.symm)
  have hsame : k = i → p' = p ∧ q' = q := by
    rintro rfl
    rw [hpart] at hpart'
    rw [hext] at hext'
    cases hpart'
    cases hext'
    exact ⟨rfl, rfl⟩
  rw [hpart, hpart', hext, hext']
  simp only [Option.some.injEq, PartPtr.mk.injEq, ne_eq, not_and]
  refine ⟨⟨fun heq => hbufs heq.1, ?_⟩, ⟨fun heq => hbufs heq.1, ?_⟩, ?_, ?_⟩
  . rintro rfl
    rw [hbuf] at hbuf'
    cases hbuf'
    exact ⟨rfl, (hsame rfl).1⟩
  . rintro rfl
    rw [hbuf] at hbuf'
    cases hbuf'
    exact ⟨rfl, (hsame rfl).2⟩
  . intro heq
    rw [(hsame (hbufs heq)).1]
    exact hslots
  . intro heq
    rw [(hsame (hbufs heq)).2]
    exact hslots.symm

theorem WellFormed.logical_setPart_part (hp : (g.ptes i).partTable = some p)
    : (g.setPart p value).logical k
      = if k = i then { g.logical k with part := value } else g.logical k := by
  obtain ⟨hsame, _, _, hne⟩ := h.pointers hi hk
  have hptes : (g.setPart p value).ptes = g.ptes := rfl
  rw [hp] at hsame hne
  unfold Globals.logical
  rw [partAt_setPart, partAt_setPart, hptes, if_neg hne]
  by_cases hki : k = i
  . rw [if_pos hki, if_pos (hsame.mpr hki)]
  . rw [if_neg hki, if_neg (mt hsame.mp hki)]

theorem WellFormed.logical_setPart_link (hp : (g.ptes i).extPointer = some p)
    : (g.setPart p value).logical k
      = if k = i then { g.logical k with link := value } else g.logical k := by
  obtain ⟨_, hsame, hne, _⟩ := h.pointers hi hk
  have hptes : (g.setPart p value).ptes = g.ptes := rfl
  rw [hp] at hsame hne
  unfold Globals.logical
  rw [partAt_setPart, partAt_setPart, hptes, if_neg hne]
  by_cases hki : k = i
  . rw [if_pos hki, if_pos (hsame.mpr hki)]
  . rw [if_neg hki, if_neg (mt hsame.mp hki)]

end WellFormed

end Globals

end FsBench.Fdisk
