import FsBench.Fdisk.Chain

/-!
This module contains what `get_boot` and `delete_partition` leave alone: `MBRbuffer` and the buffers
that have come from `malloc` before.
-/

namespace FsBench.Fdisk

theorem bind_eq_ok {α β : Type} {x : Result α} {f : α → Result β} {b : β}
    : x >>= f = .ok b ↔ ∃ a, x = .ok a ∧ f a = .ok b := by
  cases x with
  | error e => simp [bind, Except.bind]
  | ok a => simp [bind, Except.bind]

structure Pte.Within (P : Nat → Prop) (pe : Pte) : Prop where
  partTable : ∀ p, pe.partTable = some p → P p.buf
  extPointer : ∀ p, pe.extPointer = some p → P p.buf
  sectorbuffer : ∀ buf, pe.sectorbuffer = some buf → P buf

theorem Pte.Within.of_same {P : Nat → Prop} {pe next : Pte} (h : pe.Within P)
    (hsame : pe.SamePointers next) : next.Within P where
  partTable := by
    rw [hsame.partTable_eq]
    exact h.partTable
  extPointer := by
    rw [hsame.extPointer_eq]
    exact h.extPointer
  sectorbuffer := by
    rw [hsame.sectorbuffer_eq]
    exact h.sectorbuffer

theorem Pte.OwnSlots.within {P : Nat → Prop} {buf : Nat} {pe : Pte} (h : pe.OwnSlots)
    (hbuf : pe.sectorbuffer = some buf) (hlt : P buf) : pe.Within P := by
  obtain ⟨buf', p, q, _, hbuf', hpart, hext⟩ := h
  rw [hbuf] at hbuf'
  cases hbuf'
  refine ⟨?_, ?_, ?_⟩
  . rw [hpart]
    rintro _ ⟨⟩
    exact hlt
  . rw [hext]
    rintro _ ⟨⟩
    exact hlt
  . rw [hbuf]
    rintro _ ⟨⟩
    exact hlt

theorem Pte.offset_update {ptes : Nat → Pte} {i : Nat} {pe : Pte} (h : pe.offset = (ptes i).offset)
    (j : Nat) : (Function.update ptes i pe j).offset = (ptes j).offset := by
  by_cases hji : j = i
  . rw [hji, Function.update_self, h]
  . rw [Function.update_of_ne hji]

def Globals.Within (P : Nat → Prop) (g : Globals) : Prop :=
  ∀ i, 4 ≤ i → i < g.partitions → (g.ptes i).Within P

structure Globals.Framed (P : Nat → Prop) (g next : Globals) : Prop where
  partitions_le : next.partitions ≤ g.partitions
  allocated_eq : next.allocated = g.allocated
  extIndex_eq : next.extIndex = g.extIndex
  sectorSize_eq : next.sectorSize = g.sectorSize
  bufs_eq : ∀ buf, ¬P buf → next.bufs buf = g.bufs buf
  primary_eq : ∀ i < 4, next.ptes i = g.ptes i
  within : next.Within P

namespace Globals.Framed

variable {P : Nat → Prop} {g mid next : Globals} {i n : Nat} {pe : Pte} {p : PartPtr}
  {value : Partition}

theorem refl (h : g.Within P) : g.Framed P g :=
  ⟨Nat.le_refl _, rfl, rfl, rfl, fun _ _ => rfl, fun _ _ => rfl, h⟩

theorem trans (h : g.Framed P mid) (h' : mid.Framed P next) : g.Framed P next where
  partitions_le := h'.partitions_le.trans h.partitions_le
  allocated_eq := h'.allocated_eq.trans h.allocated_eq
  extIndex_eq := h'.extIndex_eq.trans h.extIndex_eq
  sectorSize_eq := h'.sectorSize_eq.trans h.sectorSize_eq
  bufs_eq buf hbuf := (h'.bufs_eq buf hbuf).trans (h.bufs_eq buf hbuf)
  primary_eq i hi := (h'.primary_eq i hi).trans (h.primary_eq i hi)
  within := h'.within

theorem setPart (h : g.Within P) (hp : P p.buf) : g.Framed P (g.setPart p value) where
  partitions_le := Nat.le_refl _
  allocated_eq := rfl
  extIndex_eq := rfl
  sectorSize_eq := rfl
  bufs_eq buf hbuf := by
    have hne : buf ≠ p.buf := by
      rintro rfl
      exact hbuf hp
    exact Function.update_of_ne hne _ _
  primary_eq _ _ := rfl
  within := h

theorem clearPartition (h : g.Within P) {p : Option PartPtr} (hp : ∀ q, p = some q → P q.buf)
    : g.Framed P (clearPartition g p) := by
  cases p with
  | none => exact refl h
  | some p => exact setPart h (hp p rfl)

theorem setPte (hok : g.setPte i pe = .ok next) (h : g.Within P) (hle : 4 ≤ i)
    (hsame : (g.ptes i).SamePointers pe) : g.Framed P next ∧ next.partitions = g.partitions := by
  unfold Globals.setPte at hok
  split at hok
  . cases hok
    refine ⟨⟨Nat.le_refl _, rfl, rfl, rfl, fun _ _ => rfl, ?_, ?_⟩, rfl⟩
    . intro j hj
      exact Function.update_of_ne (by omega) _ _
    . intro j hj hlt
      dsimp only at hlt ⊢
      by_cases hji : j = i
      . subst hji
        rw [Function.update_self]
        exact (h j hj hlt).of_same hsame
      . rw [Function.update_of_ne hji]
        exact h j hj hlt
  . cases hok

theorem setPartitions (h : g.Within P) (hn : n ≤ g.partitions)
    (hok : g.setPartitions n = .ok next) : g.Framed P next := by
  unfold Globals.setPartitions at hok
  split at hok
  . cases hok
    exact ⟨hn, rfl, rfl, rfl, fun _ _ => rfl, fun _ _ => rfl, fun i hle hlt => h i hle (by
      dsimp only at hlt
      omega)⟩
  . cases hok

end Globals.Framed

theorem Globals.getPte_eq_ok {g : Globals} {i : Nat} {pe : Pte} (h : g.getPte i = .ok pe)
    : i < MAXIMUM_PARTS ∧ pe = g.ptes i := by
  unfold getPte at h
  split at h
  . next hi => exact ⟨hi, (Except.ok.inj h).symm⟩
  . cases h

theorem deref_eq_ok {α : Type} {o : Option α} {a : α} (h : deref o = .ok a) : o = some a := by
  cases o with
  | none => cases h
  | some b => exact congrArg some (Except.ok.inj h)

namespace deletePartition

variable {P : Nat → Prop} {g next : Globals} {i : Nat}

theorem last_framed (h : g.Within P) (hle : 4 < i) (hlt : i < g.partitions)
    (hok : last g i = .ok next) : g.Framed P next := by
  obtain ⟨g₁, hg₁, hok⟩ := bind_eq_ok.mp hok
  have hframed := Globals.Framed.setPartitions h (Nat.sub_le _ _) hg₁
  obtain ⟨pe, hpe, hok⟩ := bind_eq_ok.mp hok
  obtain ⟨_, rfl⟩ := Globals.getPte_eq_ok hpe
  have hptes : g₁.ptes = g.ptes := by
    unfold Globals.setPartitions at hg₁
    split at hg₁
    . cases hg₁
      rfl
    . cases hg₁
  have hwithin : (g₁.ptes (i - 1)).Within P := by
    rw [hptes]
    exact h (i - 1) (by omega) (by omega)
  have hclear := Globals.Framed.clearPartition hframed.within hwithin.extPointer
  have hsame := Globals.SamePointers.clearPartition (g := g₁) (p := (g₁.ptes (i - 1)).extPointer)
  apply (hframed.trans hclear).trans
  exact (Globals.Framed.setPte hok hclear.within (by omega)
    ((hsame.ptes_same (i - 1)).symm.trans ⟨rfl, rfl, rfl⟩)).1

theorem unlink_framed (h : g.Within P) (hle : 4 < i) (hlt : i < g.partitions) {q : PartPtr}
    (hok : unlink g i q = .ok next) : g.Framed P next ∧ next.partitions = g.partitions := by
  obtain ⟨pe, hpe, hok⟩ := bind_eq_ok.mp hok
  obtain ⟨_, rfl⟩ := Globals.getPte_eq_ok hpe
  obtain ⟨p, hp, hok⟩ := bind_eq_ok.mp hok
  have hbuf := (h (i - 1) (by omega) (by omega)).extPointer p (deref_eq_ok hp)
  simp only [Globals.setPart_setPart] at hok
  obtain ⟨hframed, hpartitions⟩ :=
    Globals.Framed.setPte hok (Globals.Framed.setPart h hbuf).within (by omega) ⟨rfl, rfl, rfl⟩
  exact ⟨(Globals.Framed.setPart h hbuf).trans hframed, hpartitions⟩

theorem promote_framed (h : g.Within P) (hmore : 5 < g.partitions) (hok : promote g = .ok next)
    : g.Framed P next ∧ next.partitions = g.partitions := by
  obtain ⟨pe, hpe, hok⟩ := bind_eq_ok.mp hok
  obtain ⟨_, rfl⟩ := Globals.getPte_eq_ok hpe
  dsimp only at hok
  split at hok
  . exact Globals.Framed.setPte hok h (by omega) ⟨rfl, rfl, rfl⟩
  . next p hp =>
    obtain ⟨start, _, hok⟩ := bind_eq_ok.mp hok
    have hbuf := (h 5 (by omega) hmore).partTable p hp
    obtain ⟨hframed, hpartitions⟩ :=
      Globals.Framed.setPte hok (Globals.Framed.setPart h hbuf).within (by omega) ⟨rfl, rfl, rfl⟩
    exact ⟨(Globals.Framed.setPart h hbuf).trans hframed, hpartitions⟩

theorem shrink_framed (h : g.Within P) (hle : 4 ≤ i) (hlt : i < g.partitions)
    (hbounds : g.partitions ≤ MAXIMUM_PARTS) (hok : shrink g i = .ok next)
    : g.Framed P next := by
  unfold shrink at hok
  split at hok
  . next hmore =>
    obtain ⟨g₁, hg₁, hok⟩ := bind_eq_ok.mp hok
    rw [Globals.setPartitions_of_bounds (by omega)] at hg₁
    cases hg₁
    rw [moveDown_eq (by dsimp only; omega)] at hok
    cases hok
    refine ⟨Nat.sub_le _ _, rfl, rfl, rfl, fun _ _ => rfl, ?_, ?_⟩
    . intro j hj
      exact if_neg (by omega)
    . intro j hj hlt
      dsimp only at hlt ⊢
      split
      . exact h (j + 1) (by omega) (by omega)
      . exact h j hj (by omega)
  . obtain ⟨pe, hpe, hok⟩ := bind_eq_ok.mp hok
    obtain ⟨_, rfl⟩ := Globals.getPte_eq_ok hpe
    cases hok
    exact Globals.Framed.clearPartition h (h i hle hlt).partTable

end deletePartition

open deletePartition in
theorem deletePartition_framed {P : Nat → Prop} {g next : Globals} {i : Nat} (h : g.Within P)
    (hle : 4 ≤ i) (hlt : i < g.partitions) (hbounds : g.partitions ≤ MAXIMUM_PARTS)
    (hok : deletePartition g i = .ok next) : g.Framed P next := by
  obtain ⟨pe, hpe, hok⟩ := bind_eq_ok.mp hok
  obtain ⟨_, rfl⟩ := Globals.getPte_eq_ok hpe
  obtain ⟨g₁, hg₁, hok⟩ := bind_eq_ok.mp hok
  obtain ⟨hmarked, hpartitions⟩ := Globals.Framed.setPte hg₁ h hle ⟨rfl, rfl, rfl⟩
  apply hmarked.trans
  rw [← hpartitions] at hlt hbounds
  rw [if_neg (Nat.not_lt.mpr hle)] at hok
  obtain ⟨q, _, hok⟩ := bind_eq_ok.mp hok
  split at hok
  . next hlast => exact last_framed hmarked.within hlast.2 hlt hok
  . split at hok
    . next hi =>
      obtain ⟨g₂, hg₂, hok⟩ := bind_eq_ok.mp hok
      obtain ⟨hunlinked, hsame⟩ := unlink_framed hmarked.within hi hlt hg₂
      rw [← hsame] at hlt hbounds
      exact hunlinked.trans (shrink_framed hunlinked.within hle hlt hbounds hok)
    . split at hok
      . next hmore =>
        obtain ⟨g₂, hg₂, hok⟩ := bind_eq_ok.mp hok
        obtain ⟨hpromoted, hsame⟩ := promote_framed hmarked.within hmore hg₂
        rw [← hsame] at hlt hbounds
        exact hpromoted.trans (shrink_framed hpromoted.within hle hlt hbounds hok)
      . exact shrink_framed hmarked.within hle hlt hbounds hok

theorem Globals.WellFormed.drop {g : Globals} (h : g.WellFormed) (extendedOffset : Nat)
    : ({ g with partitions := 4, extendedOffset } : Globals).WellFormed := by
  have hfour : 4 ≤ MAXIMUM_PARTS := by decide
  refine h.reindex id rfl ⟨Nat.le_refl 4, hfour⟩ rfl (fun _ => .refl) ?_ fun _ _ => id
  intro j hle hlt
  dsimp only at hlt
  omega

/--
A table whose logical entries have all come from `malloc` behind the first `floor` buffers. The
primary ones are counted from the start of the device.
-/
structure Globals.Fresh (floor : Nat) (g : Globals) : Prop where
  wellFormed : g.WellFormed
  floor_le : floor ≤ g.allocated
  within : g.Within (floor < ·)
  sectorSize_lt : g.sectorSize < 2 ^ 32
  rooted : ∀ i < 4, (g.ptes i).offset = 0

section GetBoot

open readExtended

variable {floor fuel : Nat} {d : Device} {malloc : Nat → Nat → UInt8} {g next : Globals}
  {p q : PartPtr} {exit : Exit}

theorem Globals.Framed.fresh (h : g.Framed (floor < ·) next) (hg : g.Fresh floor)
    (hwf : next.WellFormed) : next.Fresh floor := by
  refine ⟨hwf, ?_, h.within, ?_, ?_⟩
  . rw [h.allocated_eq]
    exact hg.floor_le
  . rw [h.sectorSize_eq]
    exact hg.sectorSize_lt
  . intro i hi
    rw [h.primary_eq i hi]
    exact hg.rooted i hi

theorem chainStep_follow_fresh (h : g.Fresh floor)
    (hok : chainStep d malloc (g, p) = .ok (.inl (next, q))) : next.Fresh floor := by
  obtain ⟨hwf, hfloor, hwithin, hsize, hrooted⟩ := h
  have hnextwf : next.WellFormed := by
    rcases chainStep_spec d malloc p hwf with ⟨next', q', hnext, hwf', _⟩ | ⟨_, _, hexit, _⟩
    . rw [hok] at hnext
      cases hnext
      exact hwf'
    . rw [hok] at hexit
      cases hexit
  unfold chainStep at hok
  dsimp only at hok
  split at hok
  . cases hok
  . split at hok
    . obtain ⟨_, _, hok⟩ := bind_eq_ok.mp hok
      obtain ⟨_, _, hok⟩ := bind_eq_ok.mp hok
      cases hok
    . next hroom =>
      have hi : g.partitions < MAXIMUM_PARTS := Nat.not_le.mp hroom
      obtain ⟨g₁, hread, hsize₁, hallocated₁, hpartitions₁, _, hptes₁, _⟩ :=
        readPte_spec d malloc (Word.add 64 g.extendedOffset (g.part p).getStartSect) hwf.room hi
      obtain ⟨hsize₂, hallocated₂, hpartitions₂, hptes₂, _, _⟩ :=
        setOffset_spec g₁ (g.part p).getStartSect
      simp only [hread, bind, Except.bind] at hok
      generalize setOffset g₁ (g.part p).getStartSect = g₂ at *
      rw [hallocated₁] at hallocated₂
      rw [hpartitions₁] at hpartitions₂
      rw [hptes₁] at hptes₂
      simp only [hpartitions₂, Globals.getPte_of_lt hi, hptes₂, Function.update_self, Pte.loaded,
        deref] at hok
      obtain ⟨hslots, hbuf⟩ := choose_spec (g := g₂)
        (.loaded (Word.add 64 g.extendedOffset (g.part p).getStartSect) (g.allocated + 1)) rfl rfl rfl
      simp only [Pte.loaded] at hslots hbuf
      generalize choose g₂ (g.allocated + 1) _ = pe at hslots hbuf hok
      simp only [Globals.setPte_of_lt hi] at hok
      obtain ⟨_, _, _, _, _, _, hext⟩ := id hslots
      have hbounds := hwf.bounds
      simp only [hext, hpartitions₂, Globals.setPartitions_of_bounds (show 4 ≤ g.partitions + 1
        ∧ g.partitions + 1 ≤ MAXIMUM_PARTS by omega)] at hok
      cases hok
      refine ⟨hnextwf, ?_, ?_, ?_, ?_⟩
      . dsimp only
        omega
      . intro i hle hlt
        dsimp only at hlt ⊢
        by_cases hlast : i = g.partitions
        . rw [hlast, Function.update_self]
          exact hslots.within hbuf (by omega)
        . rw [Function.update_of_ne hlast, hptes₂, Function.update_of_ne hlast]
          exact hwithin i hle (by omega)
      . dsimp only
        omega
      . intro i hi
        dsimp only
        have hlast : i ≠ g.partitions := by omega
        rw [Function.update_of_ne hlast, hptes₂, Function.update_of_ne hlast]
        exact hrooted i hi

theorem chainStep_exit_fresh (h : g.Fresh floor)
    (hok : chainStep d malloc (g, p) = .ok (.inr (next, exit))) : next.Fresh floor := by
  have hnextwf : next.WellFormed := by
    rcases chainStep_spec d malloc p h.wellFormed with ⟨_, _, hnext, _⟩ | ⟨_, _, hexit, hwf', _⟩
    . rw [hok] at hnext
      cases hnext
    . rw [hok] at hexit
      cases hexit
      exact hwf'
  unfold chainStep at hok
  dsimp only at hok
  split at hok
  . cases hok
    exact h
  . split at hok
    . next hfull =>
      have hbounds : 4 < MAXIMUM_PARTS := by decide
      obtain ⟨pre, hpre, hok⟩ := bind_eq_ok.mp hok
      obtain ⟨_, rfl⟩ := Globals.getPte_eq_ok hpre
      obtain ⟨g₁, hg₁, hok⟩ := bind_eq_ok.mp hok
      cases hok
      have hlink := (h.within (g.partitions - 1) (by omega) (by omega)).extPointer
      have hclear := Globals.Framed.clearPartition h.within hlink
      have hsame := Globals.SamePointers.clearPartition (g := g)
        (p := (g.ptes (g.partitions - 1)).extPointer)
      rw [hsame.partitions_eq] at hg₁
      obtain ⟨hchanged, _⟩ := Globals.Framed.setPte hg₁ hclear.within (by omega)
        ((hsame.ptes_same (g.partitions - 1)).symm.trans ⟨rfl, rfl, rfl⟩)
      exact (hclear.trans hchanged).fresh h hnextwf
    . obtain ⟨_, _, hok⟩ := bind_eq_ok.mp hok
      obtain ⟨_, _, hok⟩ := bind_eq_ok.mp hok
      obtain ⟨_, _, hok⟩ := bind_eq_ok.mp hok
      obtain ⟨_, _, hok⟩ := bind_eq_ok.mp hok
      obtain ⟨_, _, hok⟩ := bind_eq_ok.mp hok
      obtain ⟨_, _, hok⟩ := bind_eq_ok.mp hok
      cases hok

theorem removeStep_fresh (h : g.Fresh floor) {r : Globals ⊕ Globals}
    (hok : removeStep g = .ok r) : r.elim (·.Fresh floor) (·.Fresh floor) := by
  obtain ⟨_ | i, hempty, hok⟩ := bind_eq_ok.mp hok
  . cases hok
    exact h
  . have hbounds := h.wellFormed.bounds
    obtain ⟨_, hr, hsome, _⟩ := firstEmpty_spec h.wellFormed (Nat.le_refl 4)
      (show 4 + (g.partitions - 4) ≤ g.partitions by omega)
    rw [hempty] at hr
    cases hr
    obtain ⟨hle, hlt, _⟩ := hsome i rfl
    obtain ⟨next, hdelete, hok⟩ := bind_eq_ok.mp hok
    cases hok
    obtain ⟨next', hdelete', hwf, _⟩ := deletePartition_spec h.wellFormed hle hlt
    rw [hdelete] at hdelete'
    cases hdelete'
    exact (deletePartition_framed h.within hle hlt hbounds.2 hdelete).fresh h hwf

theorem readExtended_fresh (h : g.Fresh floor) {i : Slot}
    (hok : readExtended d malloc fuel g i = .ok next) : next.Fresh floor := by
  have hwf := h.wellFormed
  have henter : (g.enterChain i).Fresh floor := by
    refine ⟨hwf.setPrimary i { g.ptes i with extPointer := (g.ptes i).partTable } rfl rfl i,
      h.floor_le, ?_, h.sectorSize_lt, ?_⟩
    . intro j hle hlt
      unfold Globals.enterChain
      dsimp only
      rw [Function.update_of_ne (by omega)]
      exact h.within j hle hlt
    . intro j hj
      unfold Globals.enterChain
      dsimp only
      refine (Pte.offset_update ?_ j).trans (h.rooted j hj)
      rfl
  rw [readExtended_eq hwf] at hok
  split at hok
  . cases hok
    exact henter
  . obtain ⟨⟨mid, exit⟩, hchain, hok⟩ := bind_eq_ok.mp hok
    have hmid : mid.Fresh floor :=
      Loop.iterate_keeps (fun s : Globals × PartPtr => s.1.Fresh floor)
        (fun r : Globals × Exit => r.1.Fresh floor)
        (fun _ _ hs hstep => chainStep_follow_fresh hs hstep)
        (fun _ _ hs hstep => chainStep_exit_fresh hs hstep) henter hchain
    cases exit with
    | omitting =>
      cases hok
      exact hmid
    | chainEnd =>
      exact Loop.iterate_keeps (·.Fresh floor) (·.Fresh floor)
        (fun _ _ hs hstep => removeStep_fresh hs hstep)
        (fun _ _ hs hstep => removeStep_fresh hs hstep) hmid hok

theorem Globals.Fresh.extended (h : g.Fresh floor) {i : Slot}
    (hok : getBoot.extended d malloc fuel g i = .ok next) : next.Fresh floor := by
  obtain ⟨_, _, hok⟩ := bind_eq_ok.mp hok
  obtain ⟨_, _, hok⟩ := bind_eq_ok.mp hok
  split at hok
  . exact readExtended_fresh h hok
  . cases hok
    exact h

def Globals.Flagged (g next : Globals) : Prop :=
  ∃ flags : Nat → Bool, next = { g with ptes := fun i => { g.ptes i with changed := flags i } }

theorem Globals.Flagged.setPte {i : Nat}
    (hok : g.setPte i { g.ptes i with changed := true } = .ok next) : g.Flagged next := by
  unfold Globals.setPte at hok
  split at hok
  . cases hok
    refine ⟨Function.update (fun j => (g.ptes j).changed) i true, ?_⟩
    congr 1
    funext j
    by_cases hji : j = i
    . subst hji
      rw [Function.update_self, Function.update_self]
    . rw [Function.update_of_ne hji, Function.update_of_ne hji]
  . cases hok

theorem Globals.Flagged.fresh (h : g.Flagged next) (hg : g.Fresh floor) : next.Fresh floor := by
  obtain ⟨flags, rfl⟩ := h
  refine ⟨hg.wellFormed.of_same ⟨rfl, rfl, rfl, fun _ => ⟨rfl, rfl, rfl⟩⟩, hg.floor_le, ?_,
    hg.sectorSize_lt, hg.rooted⟩
  intro i hle hlt
  exact (hg.within i hle hlt).of_same ⟨rfl, rfl, rfl⟩

theorem checkFlags_flagged {count i : Nat} (hok : getBoot.checkFlags count g i = .ok next)
    : g.Flagged next := by
  induction count generalizing g i with
  | zero =>
    cases hok
    exact ⟨fun j => (next.ptes j).changed, rfl⟩
  | succ count ih =>
    obtain ⟨pe, hpe, hok⟩ := bind_eq_ok.mp hok
    obtain ⟨_, rfl⟩ := Globals.getPte_eq_ok hpe
    obtain ⟨buf, _, hok⟩ := bind_eq_ok.mp hok
    split at hok
    . exact ih hok
    . obtain ⟨mid, hmid, hok⟩ := bind_eq_ok.mp hok
      obtain ⟨_, rfl⟩ := Globals.Flagged.setPte hmid
      obtain ⟨flags, rfl⟩ := ih hok
      exact ⟨flags, rfl⟩

variable {k : Kernel}

theorem getBoot.start_fresh (hsize : DEFAULT_SECTOR_SIZE ≤ g.nextSectorSize k)
    (hstate : g.sectorSize < 2 ^ 32) (hok : getBoot.start d k g = .ok next)
    : next.Fresh g.allocated ∧ next.allocated = g.allocated ∧ next.partitions = 4 := by
  obtain ⟨next', hnext, hwf, hpartitions, _⟩ := getBoot.start_wellFormed d hsize hstate
  rw [hok] at hnext
  cases hnext
  obtain ⟨g₁, hg₁, hok⟩ := bind_eq_ok.mp hok
  rw [Globals.setPartitions_of_bounds (by decide)] at hg₁
  cases hg₁
  obtain ⟨g₂, hg₂, hok⟩ := bind_eq_ok.mp hok
  cases hok
  obtain ⟨_, hmeasure, hmeasured, hsectorSize, _⟩ := measure_spec
    (show (readMBR d (setUp { { g with partitions := 4 } with
      extIndex := 0, extendedOffset := 0 })).1.sectorSize = g.sectorSize from rfl) hsize hstate
  rw [hg₂] at hmeasure
  cases hmeasure
  have hallocated : (updateUnits g₂).allocated = g.allocated := hmeasured.same.allocated_eq
  refine ⟨⟨hwf, hallocated.ge, ?_, ?_, ?_⟩, hallocated, hpartitions⟩
  . intro i hle hlt
    omega
  . rw [hsectorSize]
    exact Globals.nextSectorSize_lt hstate
  . intro i hi
    rw [hmeasured.same.ptes_eq]
    exact congrArg Pte.offset (dif_pos hi)

theorem getBoot_eq_ok (hok : getBoot d malloc k fuel g = .ok (next, 0))
    : ∃ started read, getBoot.start d k g = .ok started
        ∧ [0, 1, 2, 3].foldlM (getBoot.extended d malloc fuel) started = .ok read
        ∧ read.Flagged next := by
  obtain ⟨g₁, hg₁, hok⟩ := bind_eq_ok.mp hok
  dsimp only at hok
  split at hok
  . cases hok
  . obtain ⟨g₂, hg₂, hok⟩ := bind_eq_ok.mp hok
    split at hok
    . obtain ⟨read, hread, hok⟩ := bind_eq_ok.mp hok
      obtain ⟨last, hlast, hok⟩ := bind_eq_ok.mp hok
      cases hok
      exact ⟨updateUnits g₂, read, bind_eq_ok.mpr ⟨g₁, hg₁, bind_eq_ok.mpr ⟨g₂, hg₂, rfl⟩⟩, hread,
        checkFlags_flagged hlast⟩
    . cases hok

theorem getBoot_fresh (hsize : DEFAULT_SECTOR_SIZE ≤ g.nextSectorSize k)
    (hstate : g.sectorSize < 2 ^ 32) (hok : getBoot d malloc k fuel g = .ok (next, 0))
    : next.Fresh g.allocated := by
  obtain ⟨started, read, hstart, hread, hflagged⟩ := getBoot_eq_ok hok
  apply hflagged.fresh
  exact Loop.foldlM_keeps (·.Fresh g.allocated) (fun _ _ _ _ hg hok => hg.extended hok)
    (getBoot.start_fresh hsize hstate hstart).1 hread

end GetBoot

end FsBench.Fdisk
