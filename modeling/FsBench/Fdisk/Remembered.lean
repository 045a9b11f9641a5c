import FsBench.Fdisk.Frame
import FsBench.Fdisk.ReadBack

/-!
This module contains what `get_boot` leaves in the globals that `fdisk_make_part` uses without setting
them anew: the size of a sector and what was noted of an extended partition.
-/

namespace FsBench.Fdisk

structure Globals.Remembers (g next : Globals) : Prop where
  extIndex_eq : next.extIndex = g.extIndex
  extendedOffset_eq : next.extendedOffset = g.extendedOffset
  sectorSize_eq : next.sectorSize = g.sectorSize

namespace Globals.Remembers

variable {g mid next : Globals} {i n : Nat} {pe : Pte}

theorem refl : g.Remembers g :=
  ⟨rfl, rfl, rfl⟩

theorem trans (h : g.Remembers mid) (h' : mid.Remembers next) : g.Remembers next where
  extIndex_eq := h'.extIndex_eq.trans h.extIndex_eq
  extendedOffset_eq := h'.extendedOffset_eq.trans h.extendedOffset_eq
  sectorSize_eq := h'.sectorSize_eq.trans h.sectorSize_eq

theorem setPte (hok : g.setPte i pe = .ok next) : g.Remembers next := by
  unfold Globals.setPte at hok
  split at hok
  . cases hok
    exact ⟨rfl, rfl, rfl⟩
  . cases hok

theorem setPartitions (hok : g.setPartitions n = .ok next) : g.Remembers next := by
  unfold Globals.setPartitions at hok
  split at hok
  . cases hok
    exact ⟨rfl, rfl, rfl⟩
  . cases hok

theorem clearPartition {p : Option PartPtr} : g.Remembers (clearPartition g p) := by
  cases p <;> exact ⟨rfl, rfl, rfl⟩

end Globals.Remembers

namespace deletePartition

variable {g next : Globals} {i : Nat}

theorem moveDown_remembers {count : Nat} (hok : moveDown count g i = .ok next)
    : g.Remembers next := by
  induction count generalizing g i with
  | zero =>
    cases hok
    exact .refl
  | succ count ih =>
    obtain ⟨_, _, hok⟩ := bind_eq_ok.mp hok
    obtain ⟨_, hset, hok⟩ := bind_eq_ok.mp hok
    exact (Globals.Remembers.setPte hset).trans (ih hok)

theorem last_remembers (hok : last g i = .ok next) : g.Remembers next := by
  obtain ⟨_, hset, hok⟩ := bind_eq_ok.mp hok
  obtain ⟨_, _, hok⟩ := bind_eq_ok.mp hok
  apply (Globals.Remembers.setPartitions hset).trans
  exact Globals.Remembers.clearPartition.trans (.setPte hok)

theorem unlink_remembers {q : PartPtr} (hok : unlink g i q = .ok next) : g.Remembers next := by
  obtain ⟨_, _, hok⟩ := bind_eq_ok.mp hok
  obtain ⟨_, _, hok⟩ := bind_eq_ok.mp hok
  obtain ⟨hindex, hoffset, hsize⟩ := Globals.Remembers.setPte hok
  exact ⟨hindex, hoffset, hsize⟩

theorem promote_remembers (hok : promote g = .ok next) : g.Remembers next := by
  obtain ⟨pe, _, hok⟩ := bind_eq_ok.mp hok
  dsimp only at hok
  split at hok
  . exact .setPte hok
  . obtain ⟨_, _, hok⟩ := bind_eq_ok.mp hok
    obtain ⟨hindex, hoffset, hsize⟩ := Globals.Remembers.setPte hok
    exact ⟨hindex, hoffset, hsize⟩

theorem shrink_remembers (hok : shrink g i = .ok next) : g.Remembers next := by
  unfold shrink at hok
  split at hok
  . obtain ⟨_, hset, hok⟩ := bind_eq_ok.mp hok
    exact (Globals.Remembers.setPartitions hset).trans (moveDown_remembers hok)
  . obtain ⟨_, _, hok⟩ := bind_eq_ok.mp hok
    cases hok
    exact .clearPartition

end deletePartition

open deletePartition in
theorem deletePartition_remembers {g next : Globals} {i : Nat} (hi : 4 ≤ i)
    (hok : deletePartition g i = .ok next) : g.Remembers next := by
  obtain ⟨_, _, hok⟩ := bind_eq_ok.mp hok
  obtain ⟨g₁, hmark, hok⟩ := bind_eq_ok.mp hok
  apply (Globals.Remembers.setPte hmark).trans
  rw [if_neg (Nat.not_lt.mpr hi)] at hok
  obtain ⟨q, _, hok⟩ := bind_eq_ok.mp hok
  split at hok
  . exact last_remembers hok
  . split at hok
    . obtain ⟨_, hunlink, hok⟩ := bind_eq_ok.mp hok
      exact (unlink_remembers hunlink).trans (shrink_remembers hok)
    . split at hok
      . obtain ⟨_, hpromote, hok⟩ := bind_eq_ok.mp hok
        exact (promote_remembers hpromote).trans (shrink_remembers hok)
      . exact shrink_remembers hok

namespace readExtended

variable {d : Device} {malloc : Nat → Nat → UInt8} {fuel : Nat} {g next : Globals} {p q : PartPtr}

theorem firstEmpty_le {count i j : Nat} (hok : firstEmpty g count i = .ok (some j)) : i ≤ j := by
  induction count generalizing i with
  | zero => cases hok
  | succ count ih =>
    obtain ⟨_, _, hok⟩ := bind_eq_ok.mp hok
    obtain ⟨_, _, hok⟩ := bind_eq_ok.mp hok
    split at hok
    . split at hok
      . cases hok
        exact Nat.le_refl _
      . obtain ⟨_, _, hok⟩ := bind_eq_ok.mp hok
        obtain ⟨_, _, hok⟩ := bind_eq_ok.mp hok
        split at hok
        . cases hok
          exact Nat.le_refl _
        . exact Nat.le_of_succ_le (ih hok)
    . exact Nat.le_of_succ_le (ih hok)

theorem removeStep_remembers {r : Globals ⊕ Globals} (hok : removeStep g = .ok r)
    : r.elim g.Remembers g.Remembers := by
  obtain ⟨_ | i, hempty, hok⟩ := bind_eq_ok.mp hok
  . cases hok
    exact .refl
  . obtain ⟨next, hdelete, hok⟩ := bind_eq_ok.mp hok
    cases hok
    exact deletePartition_remembers (firstEmpty_le hempty) hdelete

theorem readPte_remembers {pno offset : Nat} (hok : readPte d malloc g pno offset = .ok next)
    : g.Remembers next := by
  obtain ⟨_, _, hok⟩ := bind_eq_ok.mp hok
  obtain ⟨_, _, hread⟩ := readSector_eq d { g with allocated := g.allocated + 1 } offset
  simp only [hread] at hok
  split at hok
  . cases hok
  . obtain ⟨hindex, hoffset, hsize⟩ := Globals.Remembers.setPte hok
    exact ⟨hindex, hoffset, hsize⟩

theorem chainStep_follow_remembers (hok : chainStep d malloc (g, p) = .ok (.inl (next, q)))
    : ({ g with extendedOffset := if g.extendedOffset = 0 then (g.part p).getStartSect
          else g.extendedOffset } : Globals).Remembers next := by
  unfold chainStep at hok
  dsimp only at hok
  split at hok
  . cases hok
  . split at hok
    . obtain ⟨_, _, hok⟩ := bind_eq_ok.mp hok
      obtain ⟨_, _, hok⟩ := bind_eq_ok.mp hok
      cases hok
    . obtain ⟨g₁, hread, hok⟩ := bind_eq_ok.mp hok
      obtain ⟨_, _, hok⟩ := bind_eq_ok.mp hok
      obtain ⟨_, _, hok⟩ := bind_eq_ok.mp hok
      obtain ⟨_, hset, hok⟩ := bind_eq_ok.mp hok
      obtain ⟨_, _, hok⟩ := bind_eq_ok.mp hok
      obtain ⟨_, hcount, hok⟩ := bind_eq_ok.mp hok
      cases hok
      refine Globals.Remembers.trans ?_ ((Globals.Remembers.setPte hset).trans (.setPartitions hcount))
      obtain ⟨hindex, hoffset, hsize⟩ := readPte_remembers hread
      unfold setOffset
      rw [← hoffset]
      split
      . exact ⟨hindex, rfl, hsize⟩
      . exact ⟨hindex, rfl, hsize⟩

theorem chainStep_exit_remembers {exit : Exit}
    (hok : chainStep d malloc (g, p) = .ok (.inr (next, exit)))
    : g.Remembers next
        ∧ (IS_EXTENDED (g.part p).sysInd = false ∨ MAXIMUM_PARTS ≤ g.partitions) := by
  unfold chainStep at hok
  dsimp only at hok
  split at hok
  . next hend =>
    cases hok
    exact ⟨.refl, .inl hend⟩
  . split at hok
    . next hfull =>
      obtain ⟨_, _, hok⟩ := bind_eq_ok.mp hok
      obtain ⟨_, hset, hok⟩ := bind_eq_ok.mp hok
      cases hok
      exact ⟨Globals.Remembers.clearPartition.trans (.setPte hset), .inr hfull⟩
    . obtain ⟨_, _, hok⟩ := bind_eq_ok.mp hok
      obtain ⟨_, _, hok⟩ := bind_eq_ok.mp hok
      obtain ⟨_, _, hok⟩ := bind_eq_ok.mp hok
      obtain ⟨_, _, hok⟩ := bind_eq_ok.mp hok
      obtain ⟨_, _, hok⟩ := bind_eq_ok.mp hok
      obtain ⟨_, _, hok⟩ := bind_eq_ok.mp hok
      cases hok

end readExtended

section GetBoot

open readExtended

variable {d : Device} {malloc : Nat → Nat → UInt8} {fuel : Nat} {g next : Globals} {p : PartPtr}

def Globals.noted (g : Globals) (i start : Nat) : Globals :=
  { g with
    extIndex := i
    extendedOffset := if g.extendedOffset = 0 then start else g.extendedOffset }

theorem readExtended_remembers {i : Slot} (hpart : (g.ptes i).partTable = some p)
    (hextended : IS_EXTENDED (g.part p).sysInd = true) (hpartitions : g.partitions = 4)
    (hok : readExtended d malloc fuel g i = .ok next)
    : (g.noted i (g.part p).getStartSect).Remembers next := by
  obtain ⟨_, hpte, hok⟩ := bind_eq_ok.mp hok
  obtain ⟨_, rfl⟩ := Globals.getPte_eq_ok hpte
  obtain ⟨g₁, hset, hok⟩ := bind_eq_ok.mp hok
  rw [Globals.setPte_of_lt (Nat.lt_trans i.isLt (by decide))] at hset
  obtain ⟨p', hp, hok⟩ := bind_eq_ok.mp hok
  obtain rfl : p = p' := Option.some.inj (hpart.symm.trans (deref_eq_ok hp))
  have hkept : g₁.part p = g.part p ∧ g₁.partitions = 4 := by
    cases hset
    exact ⟨rfl, hpartitions⟩
  have hentered : ({ g with extIndex := i } : Globals).Remembers g₁ := by
    cases hset
    exact ⟨rfl, rfl, rfl⟩
  rw [← hkept.1] at hextended ⊢
  split at hok
  . next hzero =>
    cases hok
    refine ⟨hentered.extIndex_eq, ?_, hentered.sectorSize_eq⟩
    rw [hentered.extendedOffset_eq, hzero, Globals.noted]
    split
    . assumption
    . rfl
  . next hstart =>
    obtain ⟨⟨mid, exit⟩, hchain, hok⟩ := bind_eq_ok.mp hok
    -- the first step, which is no exit, notes the offset, and it is kept from there on
    let noted := g.noted i (g₁.part p).getStartSect
    have hnoted : noted.extendedOffset ≠ 0 := by
      dsimp only [noted, Globals.noted]
      split <;> assumption
    let Inv (s : Globals × PartPtr) := s = (g₁, p) ∨ noted.Remembers s.1
    have hmid : noted.Remembers mid := by
      refine Loop.iterate_keeps Inv (fun r : Globals × Exit => noted.Remembers r.1) ?_ ?_
        (.inl rfl) hchain
      . rintro ⟨s, q⟩ ⟨t, q'⟩ hs hstep
        have hfollow := chainStep_follow_remembers hstep
        rcases hs with heq | hs
        . cases heq
          refine .inr ⟨hfollow.extIndex_eq.trans hentered.extIndex_eq, ?_,
            hfollow.sectorSize_eq.trans hentered.sectorSize_eq⟩
          rw [hfollow.extendedOffset_eq, hentered.extendedOffset_eq]
          rfl
        . refine .inr (hs.trans ⟨hfollow.extIndex_eq, ?_, hfollow.sectorSize_eq⟩)
          rw [hfollow.extendedOffset_eq, if_neg]
          rw [hs.extendedOffset_eq]
          exact hnoted
      . rintro ⟨s, q⟩ ⟨t, exit⟩ hs hstep
        obtain ⟨hexit, hwhy⟩ := chainStep_exit_remembers hstep
        rcases hs with heq | hs
        . cases heq
          rcases hwhy with hend | hfull
          . rw [hend] at hextended
            cases hextended
          . rw [hkept.2] at hfull
            exact absurd hfull (by decide)
        . exact hs.trans hexit
    cases exit with
    | omitting =>
      cases hok
      exact hmid
    | chainEnd =>
      exact Loop.iterate_keeps (noted.Remembers ·) (noted.Remembers ·)
        (fun _ _ hs hstep => hs.trans (removeStep_remembers hstep))
        (fun _ _ hs hstep => hs.trans (removeStep_remembers hstep)) hmid hok

theorem Globals.Flagged.remembers (h : g.Flagged next) : g.Remembers next := by
  obtain ⟨_, rfl⟩ := h
  exact ⟨rfl, rfl, rfl⟩

theorem extended_remembers {i : Slot} (hok : getBoot.extended d malloc fuel g i = .ok next)
    : g.Remembers next ∨ ∃ p, (g.noted i (g.part p).getStartSect).Remembers next := by
  obtain ⟨_, hpte, hok⟩ := bind_eq_ok.mp hok
  obtain ⟨_, rfl⟩ := Globals.getPte_eq_ok hpte
  obtain ⟨p, hp, hok⟩ := bind_eq_ok.mp hok
  split at hok
  . next hcall =>
    exact .inr ⟨p, readExtended_remembers (deref_eq_ok hp) hcall.1 hcall.2 hok⟩
  . cases hok
    exact .inl .refl

structure Globals.Bounded (g : Globals) : Prop where
  extIndex_lt : g.extIndex < 4
  extendedOffset_lt : g.extendedOffset < 2 ^ 32
  sectorSize_bounds : DEFAULT_SECTOR_SIZE ≤ g.sectorSize ∧ g.sectorSize < 2 ^ 32

theorem Globals.Remembers.bounded (h : g.Remembers next) (hg : g.Bounded) : next.Bounded where
  extIndex_lt := h.extIndex_eq ▸ hg.extIndex_lt
  extendedOffset_lt := h.extendedOffset_eq ▸ hg.extendedOffset_lt
  sectorSize_bounds := h.sectorSize_eq ▸ hg.sectorSize_bounds

theorem Globals.Bounded.noted (h : g.Bounded) (i : Slot) (p : PartPtr)
    : (g.noted i (g.part p).getStartSect).Bounded where
  extIndex_lt := i.isLt
  extendedOffset_lt := by
    unfold Globals.noted
    dsimp only
    split
    . exact Partition.getStartSect_lt
    . exact h.extendedOffset_lt
  sectorSize_bounds := h.sectorSize_bounds

theorem Globals.Bounded.extended (h : g.Bounded) {i : Slot}
    (hok : getBoot.extended d malloc fuel g i = .ok next) : next.Bounded := by
  rcases extended_remembers hok with hkept | ⟨p, hnoted⟩
  . exact hkept.bounded h
  . exact hnoted.bounded (h.noted i p)

theorem Globals.Bounded.getGeometry {k : Kernel} (h : g.Bounded)
    (hok : getGeometry k g = .ok next) : (updateUnits next).Bounded := by
  have hlt := Globals.nextSectorSize_lt (k := k) h.sectorSize_bounds.2
  cases Nat.lt_or_ge (g.nextSectorSize k) 512 with
  | inl hsmall =>
    rw [getGeometry_small hsmall] at hok
    cases hok
  | inr hsize =>
    obtain ⟨next', hnext, hmeasured⟩ := getGeometry_spec hsize hlt
    obtain rfl : next' = next := Except.ok.inj (hnext.symm.trans hok)
    rw [updateUnits_set]
    have hsame := hmeasured.same
    refine ⟨?_, ?_, ?_⟩
    . exact hsame.extIndex_eq ▸ h.extIndex_lt
    . exact hsame.extendedOffset_eq ▸ h.extendedOffset_lt
    . dsimp only
      rw [hmeasured.sectorSize_eq]
      exact ⟨hsize, hlt⟩

theorem Globals.Bounded.getBoot {k : Kernel} {ret : Int} (h : g.Bounded)
    (hok : getBoot d malloc k fuel g = .ok (next, ret)) : next.Bounded := by
  obtain ⟨g₁, hg₁, hok⟩ := bind_eq_ok.mp hok
  rw [Globals.setPartitions_of_bounds (by decide)] at hg₁
  cases hg₁
  dsimp only at hok
  generalize hread : getBoot.readMBR d (getBoot.setUp
    { g with partitions := 4, extIndex := 0, extendedOffset := 0 }) = r at hok
  have hcleared : r.1.Bounded := by
    rw [← hread]
    exact ⟨Nat.zero_lt_succ 3, Nat.two_pow_pos 32, h.sectorSize_bounds⟩
  split at hok
  . cases hok
    exact hcleared
  . obtain ⟨g₂, hg₂, hok⟩ := bind_eq_ok.mp hok
    have hmeasured := hcleared.getGeometry hg₂
    split at hok
    . obtain ⟨read, hfold, hok⟩ := bind_eq_ok.mp hok
      obtain ⟨last, hflags, hok⟩ := bind_eq_ok.mp hok
      cases hok
      refine (checkFlags_flagged hflags).remembers.bounded ?_
      exact Loop.foldlM_keeps (·.Bounded) (fun _ _ _ _ hg hok => hg.extended hok) hmeasured hfold
    . cases hok
      exact hmeasured

end GetBoot

def Buffer.extendedAt (start : Nat) : Buffer :=
  writePartTableFlag (Buffer.zero.setEntry 3
    ({ Partition.zero with sysInd := EXTENDED }.setStartSect start))

def Device.ofTable (b : Buffer) : Device where
  byte i := b.toBytes.getD i 0
  size := 512
  seeks _ := true

theorem Device.ofTable_read {b : Buffer} : (Device.ofTable b).read 0 512 = b.toBytes := by
  apply List.ext_getElem
  . rw [Device.read_length, Buffer.toBytes_length]
    rfl
  . intro i hi hlt
    rw [Device.read_getElem, Device.ofTable, Nat.zero_add]
    dsimp only
    rw [List.getD_eq_getElem?_getD, List.getElem?_eq_getElem hlt, Option.getD_some]

theorem getBoot_extendedAt {g : Globals} {k : Kernel} {start fuel : Nat}
    (malloc : Nat → Nat → UInt8) (hstart : start < 2 ^ 32) (hposition : g.position = 0)
    (hsize : DEFAULT_SECTOR_SIZE ≤ g.nextSectorSize k) (hstate : g.sectorSize < 2 ^ 32)
    (hfuel : MAXIMUM_PARTS + 2 ≤ fuel)
    : ∃ next ret, getBoot (.ofTable (.extendedAt start)) malloc k fuel g = .ok (next, ret)
        ∧ next.extIndex = 3 ∧ next.extendedOffset = start
        ∧ next.sectorSize = g.nextSectorSize k := by
  obtain ⟨next, ret, hnext, _⟩ :=
    getBoot_spec (.ofTable (.extendedAt start)) malloc hsize hstate hfuel
  refine ⟨next, ret, hnext, ?_⟩
  obtain ⟨loaded, hloaded, hboot⟩ := getBoot_loaded malloc fuel hposition
    (Device.ofTable_read (b := .extendedAt start)) rfl hsize hstate
  have hpass (i : Slot) (hi : i ≠ 3)
      : getBoot.extended (.ofTable (.extendedAt start)) malloc fuel loaded i = .ok loaded := by
    apply extended_eq (hloaded.ptes_eq i)
    rw [hloaded.table_eq]
    have hentry : (Buffer.extendedAt start).entries i = .zero := if_neg hi
    rw [hentry]
    rfl
  rw [hboot] at hnext
  obtain ⟨read, hfold, hnext⟩ := bind_eq_ok.mp hnext
  obtain ⟨last, hflags, hnext⟩ := bind_eq_ok.mp hnext
  cases hnext
  simp only [List.foldlM_cons, hpass 0 (by decide), hpass 1 (by decide), hpass 2 (by decide), bind,
    Except.bind, List.foldlM_nil] at hfold
  split at hfold
  . cases hfold
  . next hextended =>
    cases hfold
    have hpte : (loaded.ptes (3 : Slot)).partTable = some ⟨0, 3⟩ := by
      rw [hloaded.ptes_eq 3]
      rfl
    have hpart : loaded.part ⟨0, 3⟩ = (Buffer.extendedAt start).entries 3 := by
      rw [← hloaded.table_eq]
      rfl
    have hsys : IS_EXTENDED (loaded.part ⟨0, 3⟩).sysInd = true := by
      rw [hpart]
      rfl
    have hnoted : (loaded.noted 3 (loaded.part ⟨0, 3⟩).getStartSect).Remembers read := by
      obtain ⟨_, hget, hextended⟩ := bind_eq_ok.mp hextended
      obtain ⟨_, rfl⟩ := Globals.getPte_eq_ok hget
      obtain ⟨p, hp, hextended⟩ := bind_eq_ok.mp hextended
      obtain rfl : ⟨0, 3⟩ = p := Option.some.inj (hpte.symm.trans (deref_eq_ok hp))
      rw [if_pos ⟨hsys, hloaded.partitions_eq⟩] at hextended
      exact readExtended_remembers hpte hsys hloaded.partitions_eq hextended
    have hkept := hnoted.trans (checkFlags_flagged hflags).remembers
    refine ⟨hkept.extIndex_eq, ?_, hkept.sectorSize_eq.trans hloaded.sectorSize_eq⟩
    have hentry : (Buffer.extendedAt start).entries 3
        = { Partition.zero with sysInd := EXTENDED }.setStartSect start := rfl
    rw [hkept.extendedOffset_eq, Globals.noted, hpart, hentry, Partition.getStartSect_setStartSect,
      Nat.mod_eq_of_lt hstart]
    exact if_pos hloaded.extendedOffset_eq

end FsBench.Fdisk
