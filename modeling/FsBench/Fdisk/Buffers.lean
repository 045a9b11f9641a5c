import FsBench.Fdisk.Edit
import FsBench.Lib.Ledger
import FsBench.Lib.System

/-!
This module contains the sector buffers over calls of `get_boot`, `delete_partition` and
`freeLogicalPtes`: which of them an entry holds, which have been freed, and which nothing will free.
-/

namespace FsBench.Fdisk

def freeLogicalPtes (g : Globals) (freed : List Nat) : Except Ledger.Fault Ledger :=
  (List.range' 4 (g.partitions - 4)).foldlM (fun ledger i =>
    match (g.ptes i).sectorbuffer with
    | none => .ok ledger
    | some buf => ledger.free buf) { allocated := g.allocated, freed }

def Globals.held (g : Globals) : List Nat :=
  (List.range' 4 (g.partitions - 4)).filterMap fun i => (g.ptes i).sectorbuffer

theorem freeLogicalPtes_eq (g : Globals) (freed : List Nat)
    : freeLogicalPtes g freed = Ledger.freeAll { allocated := g.allocated, freed } g.held := by
  unfold freeLogicalPtes Globals.held Ledger.freeAll
  generalize List.range' 4 (g.partitions - 4) = entries
  generalize ({ allocated := g.allocated, freed } : Ledger) = ledger
  induction entries generalizing ledger with
  | nil => rfl
  | cons i entries ih =>
    rw [List.foldlM_cons]
    cases hbuf : (g.ptes i).sectorbuffer with
    | none =>
      simp only [List.filterMap_cons, hbuf]
      exact ih ledger
    | some buf =>
      simp only [List.filterMap_cons, hbuf, List.foldlM_cons]
      exact congrArg (ledger.free buf >>= ·) (funext ih)

namespace Globals

variable {g next : Globals} {buf i : Nat}

theorem mem_held : buf ∈ g.held
    ↔ ∃ i, (4 ≤ i ∧ i < g.partitions) ∧ (g.ptes i).sectorbuffer = some buf := by
  unfold held
  rw [List.mem_filterMap]
  simp only [List.mem_range'_1]
  constructor
  . rintro ⟨i, ⟨hle, hlt⟩, hbuf⟩
    exact ⟨i, ⟨hle, by omega⟩, hbuf⟩
  . rintro ⟨i, ⟨hle, hlt⟩, hbuf⟩
    exact ⟨i, ⟨hle, by omega⟩, hbuf⟩

theorem WellFormed.held_nodup (h : g.WellFormed) : g.held.Nodup := by
  unfold held
  have hrange : (List.range' 4 (g.partitions - 4)).Pairwise fun i j =>
      (4 ≤ i ∧ i < g.partitions) ∧ (4 ≤ j ∧ j < g.partitions) ∧ i ≠ j := by
    apply List.Pairwise.imp_of_mem _ List.nodup_range'
    intro i j hi hj hne
    rw [List.mem_range'_1] at hi hj
    exact ⟨by omega, by omega, hne⟩
  rw [List.Nodup, List.pairwise_filterMap]
  apply hrange.imp
  intro i j ⟨hi, hj, hne⟩ buf hbuf buf' hbuf' heq
  subst heq
  exact hne (h.distinct i j hi.1 hi.2 hj.1 hj.2 (hbuf.trans hbuf'.symm))

theorem WellFormed.held_length (h : g.WellFormed) : g.held.length = g.partitions - 4 := by
  have hsome : ∀ i ∈ List.range' 4 (g.partitions - 4), (g.ptes i).sectorbuffer.isSome := by
    intro i hi
    rw [List.mem_range'_1] at hi
    obtain ⟨buf, _, _, _, hbuf, _⟩ := h.logical i hi.1 (by omega)
    rw [hbuf]
    rfl
  unfold held
  rw [List.length_filterMap_eq_countP, List.countP_eq_length.mpr hsome, List.length_range']

end Globals

section DeletePartition

variable {g next : Globals} {i : Nat}

theorem deletePartition_primary (h : g.WellFormed) (hi : i < 4)
    (hok : deletePartition g i = .ok next)
    : next.WellFormed ∧ next.allocated = g.allocated ∧ next.sectorSize = g.sectorSize
        ∧ next.partitions ≤ g.partitions ∧ (∀ j, 4 ≤ j → next.ptes j = g.ptes j)
        ∧ ∀ j, (next.ptes j).offset = (g.ptes j).offset := by
  have himax : i < MAXIMUM_PARTS := Nat.lt_trans hi (by decide)
  obtain ⟨pe, hpe, hok⟩ := bind_eq_ok.mp hok
  obtain ⟨_, rfl⟩ := Globals.getPte_eq_ok hpe
  obtain ⟨g₁, hg₁, hok⟩ := bind_eq_ok.mp hok
  have hmarked : g₁.WellFormed ∧ g₁.allocated = g.allocated ∧ g₁.sectorSize = g.sectorSize
      ∧ g₁.partitions = g.partitions ∧ (∀ j, 4 ≤ j → g₁.ptes j = g.ptes j)
      ∧ ∀ j, (g₁.ptes j).offset = (g.ptes j).offset := by
    rw [Globals.setPte_of_lt himax] at hg₁
    cases hg₁
    have hoffset : Pte.offset { g.ptes i with changed := true } = (g.ptes i).offset := rfl
    exact ⟨h.setPrimary ⟨i, hi⟩ { g.ptes i with changed := true } rfl rfl g.extIndex, rfl, rfl, rfl,
      fun j hj => Function.update_of_ne (by omega) _ _, Pte.offset_update hoffset⟩
  obtain ⟨hwf, hallocated, hsize, hpartitions, hptes, hoffset⟩ := hmarked
  rw [if_pos hi] at hok
  obtain ⟨p, _, hok⟩ := bind_eq_ok.mp hok
  split at hok
  . next hextended =>
    rw [Globals.setPartitions_of_bounds (by decide)] at hok
    obtain ⟨g₂, hg₂, hok⟩ := bind_eq_ok.mp hok
    cases hg₂
    simp only [← hextended.2] at hok
    obtain ⟨pe, hpe, hok⟩ := bind_eq_ok.mp hok
    obtain ⟨_, rfl⟩ := Globals.getPte_eq_ok hpe
    obtain ⟨g₃, hg₃, hok⟩ := bind_eq_ok.mp hok
    rw [Globals.setPte_of_lt himax] at hg₃
    cases hg₃
    cases hok
    have hdropped := (hwf.drop 0).setPrimary ⟨i, hi⟩ { g₁.ptes i with extPointer := none } rfl rfl i
    refine ⟨hdropped.of_same .clearPartition, hallocated, hsize, h.bounds.1, ?_, ?_⟩
    . intro j hj
      exact (Function.update_of_ne (by omega) _ _).trans (hptes j hj)
    . intro j
      refine (Pte.offset_update ?_ j).trans (hoffset j)
      rfl
  . cases hok
    exact ⟨hwf.of_same .clearPartition, hallocated, hsize, hpartitions.le, hptes, hoffset⟩

theorem deletePartition_held (h : g.Fresh 0) (hlt : i < g.partitions)
    (hok : deletePartition g i = .ok next)
    : next.Fresh 0 ∧ next.allocated = g.allocated ∧ next.held ⊆ g.held := by
  have hwf := h.wellFormed
  cases Nat.lt_or_ge i 4 with
  | inl hi =>
    obtain ⟨hnext, hallocated, hsize, hle, hptes, hoffset⟩ := deletePartition_primary hwf hi hok
    refine ⟨⟨hnext, Nat.zero_le _, ?_, hsize ▸ h.sectorSize_lt, ?_⟩, hallocated, ?_⟩
    . intro j hj hjlt
      rw [hptes j hj]
      exact h.within j hj (by omega)
    . intro j hj
      exact (hoffset j).trans (h.rooted j hj)
    . intro buf hbuf
      obtain ⟨j, hj, hbuf⟩ := Globals.mem_held.mp hbuf
      rw [hptes j hj.1] at hbuf
      exact Globals.mem_held.mpr ⟨j, ⟨hj.1, by omega⟩, hbuf⟩
  | inr hle =>
    obtain ⟨_, hnext, hnextwf, _⟩ := deletePartition_spec hwf hle hlt
    rw [hok] at hnext
    cases hnext
    have hframed := deletePartition_framed h.within hle hlt hwf.bounds.2 hok
    have hwithin : g.Within (· ∈ g.held) := by
      intro j hj hjlt
      obtain ⟨buf, _, _, _, hbuf, _⟩ := id (hwf.logical j hj hjlt)
      exact (hwf.logical j hj hjlt).within hbuf (Globals.mem_held.mpr ⟨j, ⟨hj, hjlt⟩, hbuf⟩)
    have hheld := (deletePartition_framed hwithin hle hlt hwf.bounds.2 hok).within
    refine ⟨hframed.fresh h hnextwf, hframed.allocated_eq, ?_⟩
    intro buf hbuf
    obtain ⟨j, hj, hbuf⟩ := Globals.mem_held.mp hbuf
    exact (hheld j hj.1 hj.2).sectorbuffer buf hbuf

end DeletePartition

theorem Globals.Fresh.mono {floor floor' : Nat} {g : Globals} (h : g.Fresh floor)
    (hle : floor' ≤ floor) : g.Fresh floor' := by
  refine ⟨h.wellFormed, Nat.le_trans hle h.floor_le, ?_, h.sectorSize_lt, h.rooted⟩
  intro i hi hlt
  obtain ⟨hpart, hlink, hbuf⟩ := h.within i hi hlt
  exact ⟨fun p hp => Nat.lt_of_le_of_lt hle (hpart p hp),
    fun p hp => Nat.lt_of_le_of_lt hle (hlink p hp),
    fun buf hp => Nat.lt_of_le_of_lt hle (hbuf buf hp)⟩

theorem getBoot_settled {d : Device} {malloc : Nat → Nat → UInt8} {k : Kernel} {fuel : Nat}
    {g next : Globals} {ret : Int} (hsize : DEFAULT_SECTOR_SIZE ≤ g.nextSectorSize k)
    (hroom : DEFAULT_SECTOR_SIZE ≤ g.sectorSize) (hstate : g.sectorSize < 2 ^ 32)
    (hok : getBoot d malloc k fuel g = .ok (next, ret)) : next.Fresh g.allocated := by
  have hboot := hok
  obtain ⟨g₁, hg₁, hok⟩ := bind_eq_ok.mp hok
  dsimp only at hok
  split at hok
  . -- fewer than 512 bytes have come
    cases hok
    rw [Globals.setPartitions_of_bounds (by decide)] at hg₁
    cases hg₁
    refine ⟨.of_primary hroom rfl fun i => dif_pos i.isLt, Nat.le_refl _, ?_, hstate, ?_⟩
    . intro i hle hlt
      exact absurd hlt (Nat.not_lt.mpr hle)
    . intro i hi
      exact congrArg Pte.offset (dif_pos hi)
  . obtain ⟨g₂, hg₂, hok⟩ := bind_eq_ok.mp hok
    split at hok
    . obtain ⟨_, _, hok⟩ := bind_eq_ok.mp hok
      obtain ⟨_, _, hok⟩ := bind_eq_ok.mp hok
      cases hok
      exact getBoot_fresh hsize hstate hboot
    . cases hok
      have hstart : getBoot.start d k g = .ok (updateUnits g₂) :=
        bind_eq_ok.mpr ⟨g₁, hg₁, bind_eq_ok.mpr ⟨g₂, hg₂, rfl⟩⟩
      exact (getBoot.start_fresh hsize hstate hstart).1

/--
`stale` says that the entries hold no buffers, as before the first `get_boot`, or hold those that
`freeLogicalPtes` has freed.
-/
structure Session where
  globals : Globals
  freed : List Nat
  stale : Bool

namespace Session

inductive Op where
  | getBoot (d : Device) (malloc : Nat → Nat → UInt8) (k : Kernel) (fuel : Nat)
  | deletePartition (i : Nat)
  | freeLogicalPtes

def system : System Session Op where
  init s := s = { globals := .initial, freed := [], stale := true }
  step s op t :=
    match op with
    | .getBoot d malloc k fuel => ∃ next ret, Fdisk.getBoot d malloc k fuel s.globals
        = .ok (next, ret) ∧ t = { s with globals := next, stale := false }
    | .deletePartition i => ∃ next, Fdisk.deletePartition s.globals i = .ok next
        ∧ t = { s with globals := next }
    | .freeLogicalPtes => ∃ ledger, Fdisk.freeLogicalPtes s.globals s.freed = .ok ledger
        ∧ t = { s with freed := ledger.freed, stale := true }

/--
Nothing but `get_boot` follows on `freeLogicalPtes`, and the kernel reports no sector that is too
short for a table.
-/
def Disciplined (s : Session) : Op → Prop
  | .getBoot _ _ k _ => DEFAULT_SECTOR_SIZE ≤ s.globals.nextSectorSize k
  | .deletePartition i => s.stale = false ∧ i < s.globals.partitions
  | .freeLogicalPtes => s.stale = false

abbrev disciplined : System Session Op := system.restrict Disciplined

structure Sound (s : Session) : Prop where
  room : DEFAULT_SECTOR_SIZE ≤ s.globals.sectorSize
  sectorSize_lt : s.globals.sectorSize < 2 ^ 32
  freed_le : ∀ buf ∈ s.freed, buf ≤ s.globals.allocated
  fresh : s.stale = false → s.globals.Fresh 0
  not_freed : s.stale = false → ∀ buf ∈ s.globals.held, buf ∉ s.freed

structure Lost (s : Session) (buf : Nat) : Prop where
  pos : 0 < buf
  le : buf ≤ s.globals.allocated
  not_freed : buf ∉ s.freed
  not_held : buf ∉ s.globals.held

variable {s t : Session} {op : Op} {buf : Nat}

theorem held_live (h : s.globals.Fresh 0) (hbuf : buf ∈ s.globals.held)
    : 0 < buf ∧ buf ≤ s.globals.allocated := by
  obtain ⟨i, hi, hbuf⟩ := Globals.mem_held.mp hbuf
  exact ⟨(h.within i hi.1 hi.2).sectorbuffer buf hbuf,
    h.wellFormed.allocated i buf hi.1 hi.2 hbuf⟩

theorem Sound.free (h : s.Sound) (hstale : s.stale = false)
    : freeLogicalPtes s.globals s.freed
        = .ok ⟨s.globals.allocated, s.globals.held.reverse ++ s.freed⟩ := by
  rw [freeLogicalPtes_eq, Ledger.freeAll_eq_ok_iff]
  refine ⟨⟨(h.fresh hstale).wellFormed.held_nodup, ?_⟩, rfl⟩
  intro buf hbuf
  obtain ⟨hpos, hle⟩ := held_live (h.fresh hstale) hbuf
  exact ⟨hpos, hle, h.not_freed hstale buf hbuf⟩

theorem Sound.step (h : s.Sound) (hstep : disciplined.step s op t) : t.Sound := by
  obtain ⟨hcond, hstep⟩ := hstep
  cases op with
  | getBoot d malloc k fuel =>
    obtain ⟨next, ret, hboot, rfl⟩ := hstep
    have hfresh := getBoot_settled hcond h.room h.sectorSize_lt hboot
    refine ⟨hfresh.wellFormed.room, hfresh.sectorSize_lt, ?_, fun _ => hfresh.mono (Nat.zero_le _),
      ?_⟩
    . intro buf hbuf
      exact Nat.le_trans (h.freed_le buf hbuf) hfresh.floor_le
    . -- what the new entries hold has been allocated after all that has been freed
      intro _ buf hbuf hfreed
      obtain ⟨i, hi, hbuf⟩ := Globals.mem_held.mp hbuf
      have := (hfresh.within i hi.1 hi.2).sectorbuffer buf hbuf
      have := h.freed_le buf hfreed
      omega
  | deletePartition i =>
    obtain ⟨next, hdelete, rfl⟩ := hstep
    obtain ⟨hstale, hlt⟩ := hcond
    obtain ⟨hfresh, hallocated, hheld⟩ := deletePartition_held (h.fresh hstale) hlt hdelete
    refine ⟨hfresh.wellFormed.room, hfresh.sectorSize_lt, ?_, fun _ => hfresh, ?_⟩
    . intro buf hbuf
      dsimp only
      rw [hallocated]
      exact h.freed_le buf hbuf
    . intro _ buf hbuf
      exact h.not_freed hstale buf (hheld hbuf)
  | freeLogicalPtes =>
    obtain ⟨ledger, hfree, rfl⟩ := hstep
    have hstale : s.stale = false := hcond
    rw [h.free hstale] at hfree
    cases hfree
    refine ⟨h.room, h.sectorSize_lt, ?_, nofun, nofun⟩
    intro buf hbuf
    rcases List.mem_append.mp hbuf with hheld | hfreed
    . exact (held_live (h.fresh hstale) (List.mem_reverse.mp hheld)).2
    . exact h.freed_le buf hfreed

theorem sound_of_reachable (h : disciplined.Reachable s) : s.Sound := by
  refine h.invariant ?_ fun _ _ _ hs hstep => hs.step hstep
  intro s hs
  cases hs
  exact ⟨by decide, by decide, nofun, nofun, nofun⟩

theorem Lost.step (h : s.Lost buf) (hs : s.Sound) (hstep : disciplined.step s op t)
    : t.Lost buf := by
  obtain ⟨hcond, hstep⟩ := hstep
  cases op with
  | getBoot d malloc k fuel =>
    obtain ⟨next, ret, hboot, rfl⟩ := hstep
    have hfresh := getBoot_settled hcond hs.room hs.sectorSize_lt hboot
    refine ⟨h.pos, Nat.le_trans h.le hfresh.floor_le, h.not_freed, ?_⟩
    intro hbuf
    obtain ⟨i, hi, hbuf⟩ := Globals.mem_held.mp hbuf
    have := (hfresh.within i hi.1 hi.2).sectorbuffer buf hbuf
    have := h.le
    omega
  | deletePartition i =>
    obtain ⟨next, hdelete, rfl⟩ := hstep
    obtain ⟨hstale, hlt⟩ := hcond
    obtain ⟨_, hallocated, hheld⟩ := deletePartition_held (hs.fresh hstale) hlt hdelete
    exact ⟨h.pos, h.le.trans hallocated.ge, h.not_freed, fun hbuf => h.not_held (hheld hbuf)⟩
  | freeLogicalPtes =>
    obtain ⟨ledger, hfree, rfl⟩ := hstep
    have hstale : s.stale = false := hcond
    rw [hs.free hstale] at hfree
    cases hfree
    refine ⟨h.pos, h.le, ?_, h.not_held⟩
    intro hbuf
    rcases List.mem_append.mp hbuf with hheld | hfreed
    . exact h.not_held (List.mem_reverse.mp hheld)
    . exact h.not_freed hfreed

theorem Lost.run {ops : List Op} (h : s.Lost buf) (hs : s.Sound) (hrun : disciplined.Run s ops t)
    : t.Lost buf := by
  have hkept (s : Session) (op : Op) (t : Session) (hs : s.Sound ∧ s.Lost buf)
      (hstep : disciplined.step s op t) : t.Sound ∧ t.Lost buf :=
    ⟨hs.1.step hstep, hs.2.step hs.1 hstep⟩
  exact (hrun.invariant hkept ⟨hs, h⟩).2

theorem length_dropped {g next : Globals} (h : g.WellFormed) (hnext : next.WellFormed)
    (hheld : next.held ⊆ g.held)
    : (g.held.filter (· ∉ next.held)).length = g.partitions - next.partitions := by
  have hkept : (g.held.filter (· ∈ next.held)).Perm next.held := by
    rw [List.perm_ext_iff_of_nodup (h.held_nodup.filter _) hnext.held_nodup]
    intro buf
    rw [List.mem_filter, decide_eq_true_eq]
    exact ⟨And.right, fun hbuf => ⟨hheld hbuf, hbuf⟩⟩
  have hsplit := List.length_eq_length_filter_add (l := g.held) (· ∈ next.held)
  have hkeptLength := hkept.length_eq
  have hlength := h.held_length
  have hnextLength := hnext.held_length
  have hbounds := h.bounds
  have hnextBounds := hnext.bounds
  simp only [decide_not]
  omega

end Session

open Session in
theorem buffers_freed_once {s : Session} (h : disciplined.Reachable s) (hstale : s.stale = false)
    : ∃ ledger, freeLogicalPtes s.globals s.freed = .ok ledger
        ∧ (∀ buf, buf ∈ ledger.freed ↔ buf ∈ s.globals.held ∨ buf ∈ s.freed)
        ∧ freeLogicalPtes s.globals ledger.freed
          = if 4 < s.globals.partitions then .error .doubleFree else .ok ledger := by
  have hsound := sound_of_reachable h
  have hfree := hsound.free hstale
  have hwf := (hsound.fresh hstale).wellFormed
  refine ⟨_, hfree, ?_, ?_⟩
  . intro buf
    rw [List.mem_append, List.mem_reverse]
  . rw [freeLogicalPtes_eq] at hfree ⊢
    split
    . next hfive =>
      apply Ledger.freeAll_again hfree
      intro hnone
      have hlength := hwf.held_length
      rw [hnone, List.length_nil] at hlength
      omega
    . next hfour =>
      have hnone : s.globals.held = [] := by
        apply List.eq_nil_of_length_eq_zero
        rw [hwf.held_length]
        omega
      rw [hnone]
      rfl

open Session in
theorem deletions_leak {s t u : Session} {i : Nat} {ops : List Op} (h : disciplined.Reachable s)
    (hdelete : disciplined.step s (.deletePartition i) t) (hrun : disciplined.Run t ops u)
    : (s.globals.held.filter (· ∉ t.globals.held)).length
        = s.globals.partitions - t.globals.partitions
      ∧ ∀ buf ∈ s.globals.held.filter (· ∉ t.globals.held), buf ≤ u.globals.allocated
        ∧ buf ∉ u.freed ∧ buf ∉ u.globals.held := by
  have hsound := sound_of_reachable h
  have hnext := hsound.step hdelete
  obtain ⟨⟨hstale, hlt⟩, next, hok, rfl⟩ := hdelete
  obtain ⟨hfresh, hallocated, hheld⟩ := deletePartition_held (hsound.fresh hstale) hlt hok
  refine ⟨length_dropped (hsound.fresh hstale).wellFormed hfresh.wellFormed hheld, ?_⟩
  intro buf hbuf
  rw [List.mem_filter, decide_eq_true_eq] at hbuf
  obtain ⟨hpos, hle⟩ := held_live (hsound.fresh hstale) hbuf.1
  have hlost : Session.Lost { s with globals := next } buf :=
    ⟨hpos, hle.trans hallocated.ge, hsound.not_freed hstale buf hbuf.1, hbuf.2⟩
  have hend := hlost.run hnext hrun
  exact ⟨hend.le, hend.not_freed, hend.not_held⟩

namespace Session

theorem reachable_twoLogical
    : ∃ g, disciplined.Reachable { globals := g, freed := [], stale := false }
        ∧ g.partitions = 6 := by
  obtain ⟨g, hboot, hsix, _⟩ := Device.twoLogical.boots
  let start : Session := { globals := .initial, freed := [], stale := true }
  have hsize : DEFAULT_SECTOR_SIZE ≤ Globals.initial.nextSectorSize (.mmc 512 (2 ^ 30)) := by decide
  have hstep : disciplined.step start
      (.getBoot .twoLogical (fun _ _ => 0) (.mmc 512 (2 ^ 30)) 62)
      { globals := g, freed := [], stale := false } := ⟨hsize, g, 0, hboot, rfl⟩
  exact ⟨g, (System.Reachable.of_init rfl).step hstep, hsix⟩

end Session

open Session in
theorem buffers_freed_once_twoLogical
    : ∃ s, disciplined.Reachable s ∧ ∃ ledger, freeLogicalPtes s.globals s.freed = .ok ledger
        ∧ freeLogicalPtes s.globals ledger.freed = .error .doubleFree := by
  obtain ⟨g, hreachable, hsix⟩ := reachable_twoLogical
  obtain ⟨ledger, hfree, _, hagain⟩ := buffers_freed_once hreachable rfl
  rw [if_pos (by rw [hsix]; decide)] at hagain
  exact ⟨_, hreachable, ledger, hfree, hagain⟩

open Session in
theorem deletions_leak_twoLogical
    : ∃ s t, disciplined.Reachable s ∧ disciplined.step s (.deletePartition 5) t
        ∧ (s.globals.held.filter (· ∉ t.globals.held)).length
          = s.globals.partitions - t.globals.partitions := by
  obtain ⟨g, hreachable, hsix⟩ := reachable_twoLogical
  have hlt : 5 < g.partitions := by omega
  have hwf := ((sound_of_reachable hreachable).fresh rfl).wellFormed
  obtain ⟨next, hnext, _⟩ := deletePartition_spec hwf (by decide) hlt
  have hstep : disciplined.step { globals := g, freed := [], stale := false } (.deletePartition 5)
      { globals := next, freed := [], stale := false } := ⟨⟨rfl, hlt⟩, next, hnext, rfl⟩
  exact ⟨_, _, hreachable, hstep, (deletions_leak hreachable hstep (.nil _)).1⟩

end FsBench.Fdisk
