import FsBench.Fdisk.Edit
import FsBench.Fdisk.Order
import FsBench.Fdisk.ReadBack
import FsBench.Lib.System

/-!
What `wrong_p_order` says while entries of a table are deleted: of the table of any device, and of the
one that `fdisk_make_part` has written.
-/

namespace FsBench.Fdisk

def Seen.position (s : Seen) : UInt8 × Nat :=
  (s.sysInd, s.start % 2 ^ 32)

def Precedes (a b : UInt8 × Nat) : Prop :=
  a.1 ≠ 0 → b.1 ≠ 0 → a.2 ≤ b.2

/--
In both groups no partition has a position below the one of a partition in front of it.
-/
structure Drive.Ordered (v : Drive) : Prop where
  primary : ∀ i j, i < j → (v.primary i).sysInd ≠ 0 → (v.primary j).sysInd ≠ 0 →
    (v.primary i).getStartSect ≤ (v.primary j).getStartSect
  logical : (v.logical.map Seen.position).Pairwise Precedes

namespace Globals

variable {g : Globals} {i : Nat} {prev : Option Nat}

theorem primary_used (h : g.WellFormed) (i : Slot)
    : g.used i = true ↔ (g.drive.primary i).sysInd ≠ 0 := by
  unfold used
  rw [(h.primary i).1, decide_eq_true_iff]
  rfl

theorem primary_low (h : g.Fresh 0) (i : Slot) : g.low i = (g.drive.primary i).getStartSect := by
  have hpart : g.partAt (g.ptes i).partTable = g.drive.primary i := by
    rw [(h.wellFormed.primary i).1]
    rfl
  have hlt := (g.drive.primary i).getStartSect_lt
  unfold low start
  rw [h.rooted i i.isLt, hpart, Word.add_of_lt (by omega), Nat.zero_add, Word.trunc_of_lt hlt]

theorem logical_used : g.used i = true ↔ (g.logical i).seen.sysInd ≠ 0 := by
  unfold used
  rw [decide_eq_true_iff]
  rfl

theorem pairwise_chain
    : (g.drive.logical.map Seen.position).Pairwise Precedes
      ↔ ∀ i < g.partitions, ∀ j < i, 4 ≤ j →
        Precedes (g.logical j).seen.position (g.logical i).seen.position := by
  unfold drive chain entries
  dsimp only
  rw [List.map_map, List.map_map, List.pairwise_map, List.pairwise_iff_getElem]
  simp only [List.length_range', List.getElem_range', Nat.one_mul, Function.comp_apply]
  constructor
  . intro h i hi j hji hle
    have hpair := h (j - 4) (i - 4) (by omega) (by omega) (by omega)
    rw [Nat.add_sub_cancel' hle, Nat.add_sub_cancel' (by omega)] at hpair
    exact hpair
  . intro h j i hj hi hji
    exact h (4 + i) (by omega) (4 + j) (by omega) (by omega)

theorem Fresh.wrongPOrder_iff (h : g.Fresh 0)
    : wrongPOrder g prev = .ok (0, prev) ↔ g.drive.Ordered := by
  obtain ⟨r, hr, hfinds⟩ := wrongPOrder_spec (.of_wellFormed h.wellFormed) prev
  have hascends : wrongPOrder g prev = .ok (0, prev) ↔ g.groups.Ascends g.low g.partitions := by
    rw [hr]
    rcases r with _ | ⟨j, i⟩
    . exact iff_of_true rfl hfinds
    . obtain ⟨hi, hdescends⟩ := hfinds
      have hlt := hdescends.neighbours.lt
      refine iff_of_false ?_ ?_
      . intro heq
        have hzero : i = 0 := congrArg Prod.fst (Except.ok.inj heq)
        omega
      . intro hascends
        have := hdescends.lt_of_ascends hascends
        omega
  have hbounds := h.wellFormed.bounds
  rw [hascends, ascends_iff]
  constructor
  . intro horder
    refine ⟨?_, ?_⟩
    . intro i j hij hi hj
      rw [← primary_low h, ← primary_low h]
      exact horder j (by omega) i hij (.inl j.isLt) ((primary_used h.wellFormed i).mpr hi)
        ((primary_used h.wellFormed j).mpr hj)
    . apply pairwise_chain.mpr
      intro i hi j hji hle hused hused'
      exact horder i hi j hji (.inr hle) (logical_used.mpr hused) (logical_used.mpr hused')
  . intro hordered i hi j hji hgroup hj' hi'
    by_cases hle : 4 ≤ j
    . exact pairwise_chain.mp hordered.logical i hi j hji hle (logical_used.mp hj')
        (logical_used.mp hi')
    . have hfour : i < 4 := hgroup.resolve_right hle
      let slot : Slot := ⟨i, hfour⟩
      let front : Slot := ⟨j, by omega⟩
      have hle := hordered.primary front slot hji ((primary_used h.wellFormed front).mp hj')
        ((primary_used h.wellFormed slot).mp hi')
      rw [← primary_low h, ← primary_low h] at hle
      exact hle

end Globals

section Delete

variable {g next : Globals} {v : Drive} {ext i k : Nat} {l l' : List Logical} {is : List Nat}
  {prev : Option Nat}

theorem Seen.position_rebase (ext : Nat) (s : Seen) : (s.rebase ext).position = s.position := by
  have hlow : Word.add 64 ext (Word.sub 64 s.start ext % 2 ^ 32) % 2 ^ 32 = s.start % 2 ^ 32 := by
    unfold Word.add Word.sub
    omega
  unfold position rebase
  dsimp only
  rw [hlow]

theorem Cuts.positions (h : Cuts ext k l l')
    : ((l'.map Logical.seen).map Seen.position).Sublist ((l.map Logical.seen).map Seen.position)
        ∨ ∃ z, l' = [z] := by
  cases h with
  | drop pre post x y z _ _ hseen =>
    left
    simp only [List.map_append, List.map_cons]
    apply List.Sublist.append_left
    rcases hseen with ⟨_, hz⟩ | ⟨_, hz⟩
    . rw [hz]
      exact (List.sublist_cons_self _ _).cons_cons _
    . rw [hz, Seen.position_rebase]
      exact List.sublist_cons_self _ _
  | clear x z => exact .inr ⟨z, rfl⟩

theorem Drive.Ordered.clear (h : v.Ordered) (j : Slot) (l : List Seen) (hl : l.Sublist v.logical)
    (n : Nat)
    : { v with primary := Function.update v.primary j .zero, start := n, logical := l }.Ordered := by
  refine ⟨?_, h.logical.sublist (hl.map _)⟩
  intro a b hab ha hb
  dsimp only at ha hb ⊢
  have hne (a : Slot) (ha : (Function.update v.primary j .zero a).sysInd ≠ 0) : a ≠ j := by
    rintro rfl
    rw [Function.update_self] at ha
    exact ha rfl
  have hleft := hne a ha
  have hright := hne b hb
  rw [Function.update_of_ne hleft] at ha ⊢
  rw [Function.update_of_ne hright] at hb ⊢
  exact h.primary a b hab ha hb

theorem Globals.Editable.delete (h : g.Editable) (hi : i < g.partitions)
    : ∃ next, deletePartition g i = .ok next ∧ next.Editable
        ∧ (g.drive.Ordered → next.drive.Ordered) := by
  cases Nat.lt_or_ge i 4 with
  | inl hprimary =>
    obtain ⟨next, hnext, heditable, hdrive⟩ := h.delete_primary hprimary
    refine ⟨next, hnext, heditable, ?_⟩
    intro hordered
    rw [hdrive]
    unfold Drive.delete
    rw [dif_pos hprimary]
    dsimp only
    split
    . exact hordered.clear ⟨i, hprimary⟩ [] (List.nil_sublist _) 0
    . exact hordered.clear ⟨i, hprimary⟩ _ (List.Sublist.refl _) g.drive.start
  | inr hle =>
    obtain ⟨next, hnext, heditable, hcuts, hdrive⟩ := h.delete_logical hle hi
    refine ⟨next, hnext, heditable, ?_⟩
    intro hordered
    rw [hdrive]
    refine ⟨hordered.primary, ?_⟩
    dsimp only
    rcases hcuts.positions with hsublist | ⟨z, hz⟩
    . exact hordered.logical.sublist hsublist
    . rw [hz]
      exact List.pairwise_singleton _ _

end Delete

def editing : System Globals Nat where
  init g := ∃ d malloc k fuel g₀, DEFAULT_SECTOR_SIZE ≤ Globals.nextSectorSize k g₀
    ∧ g₀.sectorSize < 2 ^ 32 ∧ getBoot d malloc k fuel g₀ = .ok (g, 0)
  step g i next := i < g.partitions ∧ deletePartition g i = .ok next

section Editing

variable {g next : Globals} {is : List Nat} {prev : Option Nat}

theorem Globals.Editable.run (h : g.Editable) (hrun : editing.Run g is next)
    : next.Editable ∧ (g.drive.Ordered → next.drive.Ordered) := by
  induction hrun with
  | nil => exact ⟨h, id⟩
  | snoc _ hstep ih =>
    obtain ⟨hmid, hordered⟩ := ih
    obtain ⟨hi, hdelete⟩ := hstep
    obtain ⟨next', hnext, heditable, hkept⟩ := hmid.delete hi
    rw [hdelete] at hnext
    cases hnext
    exact ⟨heditable, fun hg => hkept (hordered hg)⟩

theorem editing_keepsOrder (hboot : editing.init g) (hrun : editing.Run g is next)
    : (∀ i < next.partitions, ∃ further, editing.step next i further)
        ∧ (wrongPOrder g prev = .ok (0, prev) → wrongPOrder next prev = .ok (0, prev)) := by
  obtain ⟨d, malloc, k, fuel, g₀, hsize, hstate, hboot⟩ := hboot
  have heditable := getBoot_editable hsize hstate hboot
  obtain ⟨hnext, hordered⟩ := heditable.run hrun
  refine ⟨?_, ?_⟩
  . intro i hi
    obtain ⟨further, hdelete, _⟩ := hnext.delete hi
    exact ⟨further, hi, hdelete⟩
  . rw [heditable.fresh.wrongPOrder_iff, hnext.fresh.wrongPOrder_iff]
    exact hordered

def Device.twoLogical.ordered : Bool :=
  match getBoot .twoLogical (fun _ _ => 0) (.mmc 512 (2 ^ 30)) 62 .initial with
  | .ok (g, 0) =>
    match wrongPOrder g (some 0) with
    | .ok answer => g.partitions = 6 && answer = (0, some 0)
    | .error _ => false
  | _ => false

theorem editing_keepsOrder_twoLogical
    : ∃ g next, editing.init g ∧ editing.Run g [4] next
        ∧ wrongPOrder next (some 0) = .ok (0, some 0) := by
  have hordered : Device.twoLogical.ordered = true := by decide +kernel
  unfold Device.twoLogical.ordered at hordered
  split at hordered
  . next g hboot =>
    split at hordered
    . next answer hanswer =>
      simp only [Bool.and_eq_true, decide_eq_true_eq] at hordered
      obtain ⟨hsix, rfl⟩ := hordered
      have hinit : editing.init g :=
        ⟨.twoLogical, fun _ _ => 0, .mmc 512 (2 ^ 30), 62, .initial, by decide, by decide, hboot⟩
      have heditable := getBoot_editable (by decide) (by decide) hboot
      have hfour : 4 < g.partitions := by omega
      obtain ⟨next, hdelete, _⟩ := heditable.delete hfour
      have hrun : editing.Run g [4] next := .single ⟨hfour, hdelete⟩
      exact ⟨g, next, hinit, hrun, (editing_keepsOrder hinit hrun).2 hanswer⟩
    . cases hordered
  . cases hordered

end Editing

section Made

open Layout

variable {l : Layout} {n : Nat} {g next : Globals} {is : List Nat} {placed : List (Option Placed)}
  {prev : Option Nat}

theorem Layout.start_mono {i j : Nat} (hij : i < j) (hj : j < n) (hroom : 2049 ≤ l.edge n 1)
    : l.start n i ≤ l.start n j := by
  have hfirst := l.edge_mono (n := n) (i := 1) (j := j) (by omega) (Nat.le_of_lt hj)
  have hmono := l.edge_mono (n := n) (Nat.le_of_lt hij) (Nat.le_of_lt hj)
  have hne : j ≠ 0 := by omega
  unfold start
  rw [if_neg hne]
  split <;> omega

theorem Layout.Outcome.ordered (h : l.Outcome n g placed) (hcylinders : 1 ≤ l.cylinders) {i j : Slot}
    (hij : i < j) (hj : ((g.bufs 0).entries j).sysInd ≠ 0)
    : ((g.bufs 0).entries i).getStartSect ≤ ((g.bufs 0).entries j).getStartSect := by
  have hlt : i.val < j.val := hij
  have hused {k : Nat} (hsysInd : ((g.bufs 0).entries j).sysInd
      = if j.val < k then WIN95_FAT32_LBA else 0) : j.val < k := by
    by_contra hge
    rw [if_neg hge] at hsysInd
    exact hj hsysInd
  cases h with
  | full _ hlaid => exact absurd (hused (hlaid.sysInd_eq j)) (Nat.not_lt_zero _)
  | laid _ hroom hlaid =>
    have hn := hused (hlaid.sysInd_eq j)
    rw [hlaid.start_eq i (by omega), hlaid.start_eq j hn]
    exact l.start_mono hlt hn hroom
  | wrapped k _ _ _ hone hwrapped =>
    have hk := hused (hwrapped.sysInd_eq j)
    rw [hone hcylinders] at hk
    omega

theorem Globals.Tidy.run_primary (h : g.Tidy) (hlogical : g.drive.logical = [])
    (hprimary : ∀ i, IS_EXTENDED (g.drive.primary i).sysInd = false) (hrun : editing.Run g is next)
    : next.Tidy ∧ next.drive
        = { g.drive with primary := fun i => if i.val ∈ is then .zero else g.drive.primary i } := by
  induction hrun with
  | nil =>
    refine ⟨h, ?_⟩
    simp only [List.not_mem_nil, if_false]
  | @snoc mid next is i hrun hstep ih =>
    obtain ⟨hmid, hdrive⟩ := ih
    obtain ⟨hlt, hdelete⟩ := hstep
    have hfour : i < 4 := by
      have hlength := mid.drive_length
      rw [hdrive, hlogical, List.length_nil] at hlength
      omega
    obtain ⟨next', hnext, htidy, hstruck⟩ := hmid.delete hlt
    rw [hdelete] at hnext
    cases hnext
    refine ⟨htidy, ?_⟩
    rw [hstruck, hdrive, Drive.delete, dif_pos hfour]
    dsimp only
    rw [if_neg]
    . congr 1
      funext j
      by_cases hj : j.val = i
      . have hslot : j = ⟨i, hfour⟩ := Fin.eq_of_val_eq hj
        rw [hslot, Function.update_self, if_pos (by simp)]
      . have hslot : j ≠ ⟨i, hfour⟩ := fun heq => hj (congrArg Fin.val heq)
        simp [Function.update_of_ne hslot, hj]
    . rintro ⟨hextended, _⟩
      split at hextended
      . exact absurd hextended (by decide)
      . rw [hprimary] at hextended
        cases hextended

theorem editing_made {io : Io} {malloc : Nat → Nat → UInt8} {fuel bootFuel : Nat}
    (hn : 1 ≤ n ∧ n ≤ 4) (hboot : g.NeverBooted)
    (hsize : DEFAULT_SECTOR_SIZE ≤ g.nextSectorSize io.kernel) (hstate : g.sectorSize < 2 ^ 32)
    (hio : io.Succeeds (g.nextSectorSize io.kernel)) (hfuel : 3 ≤ fuel)
    (hcylinders : 1 ≤ (Layout.measured io.kernel g hsize).cylinders)
    : ∃ m booted, fdiskMakePart io fuel g n = .ok m ∧ m.ret = 0
        ∧ getBoot m.device malloc io.kernel bootFuel { m.globals with position := 0 }
          = .ok (booted, 0)
        ∧ ∀ is next, editing.Run booted is next → next.partitions = 4
          ∧ (∀ i : Slot, (next.bufs 0).entries i
            = if i.val ∈ is then .zero else (m.globals.bufs 0).entries i)
          ∧ wrongPOrder next prev = .ok (0, prev) := by
  obtain ⟨m, made, hm, hentries, houtcome⟩ :=
    fdiskMakePart_made hn hsize hstate hboot.2 hio.openDevice hfuel
  have hwritten := fdiskMakePart_written hn hstate hio.openDevice hm
  obtain ⟨booted, hbooted, htable⟩ := hwritten.boots hsize hstate hio malloc bootFuel
  have hnextSize : Globals.nextSectorSize io.kernel { m.globals with position := 0 }
      = g.nextSectorSize io.kernel := Globals.nextSectorSize_of_eq hwritten.sectorSize_eq
  have hlogical : booted.drive.logical = [] := by
    unfold Globals.drive
    rw [Globals.chain_of_four htable.partitions_eq]
    rfl
  have hprimary (i : Slot) : booted.drive.primary i = (m.globals.bufs 0).entries i :=
    congrArg (fun b : Buffer => b.entries i) htable.table_eq
  have hextended (i : Slot) : IS_EXTENDED (booted.drive.primary i).sysInd = false := by
    rw [hprimary]
    rcases hwritten.sysInd_eq i with hsysInd | hsysInd <;> rw [hsysInd] <;> decide
  have htidy : booted.Tidy := by
    refine ⟨getBoot_editable ?_ ?_ hbooted, ?_⟩
    . rw [hnextSize]
      exact hsize
    . exact (hwritten.sectorSize_eq).trans_lt (Globals.nextSectorSize_lt hstate)
    . unfold Drive.Fits
      rw [hlogical]
      exact nofun
  have hordered : booted.drive.Ordered := by
    refine ⟨?_, ?_⟩
    . intro i j hij _ hj
      rw [hprimary, hentries] at hj
      rw [hprimary, hprimary, hentries]
      exact houtcome.ordered hcylinders hij hj
    . rw [hlogical]
      exact .nil
  refine ⟨m, booted, hm, hwritten.ret_eq.trans hio.status_eq, hbooted, ?_⟩
  intro is next hrun
  obtain ⟨hnext, hdrive⟩ := htidy.run_primary hlogical hextended hrun
  refine ⟨?_, ?_, ?_⟩
  . have hlength := next.drive_length
    have hbounds := hnext.editable.fresh.wellFormed.bounds
    rw [hdrive, hlogical, List.length_nil] at hlength
    omega
  . intro i
    have hentry := congrArg (fun v : Drive => v.primary i) hdrive
    dsimp only at hentry
    rw [hprimary] at hentry
    exact hentry
  . rw [hnext.editable.fresh.wrongPOrder_iff]
    exact (htidy.editable.run hrun).2 hordered

theorem editing_made_card
    : ∃ m booted, fdiskMakePart (.card 512 (2 ^ 31)) 3 .initial 4 = .ok m ∧ m.ret = 0
        ∧ getBoot m.device (fun _ _ => 0) (.mmc 512 (2 ^ 31)) 3 { m.globals with position := 0 }
          = .ok (booted, 0)
        ∧ ∀ is next, editing.Run booted is next → next.partitions = 4
          ∧ (∀ i : Slot, (next.bufs 0).entries i
            = if i.val ∈ is then .zero else (m.globals.bufs 0).entries i)
          ∧ wrongPOrder next (some 0) = .ok (0, some 0) :=
  editing_made (by decide) (by decide) (by decide) (by decide) (Io.card_succeeds (by decide))
    (by decide) (by decide)

end Made

end FsBench.Fdisk
