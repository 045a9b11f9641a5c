import FsBench.Fdisk.Frame
import FsBench.Fdisk.Links

/-!
Deleting entries of the table that `get_boot` has left. What the globals, the buffers and the links
in them make of it is what striking entries from a list makes of it.
-/

namespace FsBench.Fdisk

namespace Globals

variable {g next : Globals} {k : Nat} {p : PartPtr} {value : Partition}

theorem chain_length : g.chain.length = g.partitions - 4 := by
  unfold chain entries
  rw [List.length_map, List.length_range']

theorem chain_congr (hpartitions : next.partitions = g.partitions)
    (h : ∀ k, 4 ≤ k → k < g.partitions → next.logical k = g.logical k) : next.chain = g.chain := by
  have hentries : next.entries 4 (g.partitions - 4) = g.entries (4 + 0) (g.partitions - 4) :=
    entries_congr fun k hle hlt => h k hle (by omega)
  unfold chain
  rw [hpartitions, hentries]

theorem chain_of_four (h : g.partitions = 4) : g.chain = [] := by
  rw [chain, h]
  rfl

theorem Within.logical_setPart {P : Nat → Prop} (h : g.Within P) (hp : ¬P p.buf) (hle : 4 ≤ k)
    (hlt : k < g.partitions) : (g.setPart p value).logical k = g.logical k := by
  obtain ⟨hpart, hlink, _⟩ := h k hle hlt
  have hne (q : Option PartPtr) (hq : ∀ r, q = some r → P r.buf) : q ≠ some p :=
    fun heq => hp (hq p heq)
  have hptes : (g.setPart p value).ptes = g.ptes := rfl
  unfold Globals.logical
  rw [hptes, partAt_setPart, partAt_setPart, if_neg (hne _ hpart), if_neg (hne _ hlink)]

structure Linked (g : Globals) : Prop where
  wellFormed : g.WellFormed
  unread : g.Unread
  offset_lt : g.extendedOffset < 2 ^ 32
  segment : 5 ≤ g.partitions → Segment g.extendedOffset (some g.extendedOffset) g.chain none

theorem Linked.of_four (h : g.WellFormed) (hpartitions : g.partitions = 4)
    (hoffset : g.extendedOffset = 0) : g.Linked where
  wellFormed := h
  unread _ := hoffset
  offset_lt := by omega
  segment hfive := by omega

end Globals

section GetBoot

open readExtended

variable {d : Device} {malloc : Nat → Nat → UInt8} {fuel ext : Nat} {g next : Globals}
  {p : PartPtr} {i : Slot}

structure ReadFrom (ext : Nat) (g : Globals) : Prop where
  wellFormed : g.WellFormed
  nonempty : 5 ≤ g.partitions
  offset_eq : g.extendedOffset = ext
  segment : Segment ext (some ext) g.chain none

theorem ReadFrom.linked (hext : ext < 2 ^ 32) (h : ReadFrom ext g) : g.Linked := by
  obtain ⟨hwf, hfive, rfl, hsegment⟩ := h
  exact ⟨hwf, fun hfour => by omega, hext, fun _ => hsegment⟩

theorem chainStep_omitting_readFrom (h : g.WellFormed) (hfollowing : Following ext g p)
    (hok : chainStep d malloc (g, p) = .ok (.inr (next, .omitting))) : ReadFrom ext next := by
  have hwf : next.WellFormed := by
    rcases chainStep_spec d malloc p h with ⟨_, _, hnext, _⟩ | ⟨_, _, hexit, hwf, _⟩
    . rw [hok] at hnext
      cases hnext
    . rw [hok] at hexit
      cases hexit
      exact hwf
  unfold chainStep at hok
  dsimp only at hok
  split at hok
  . cases hok
  . split at hok
    . next hfull =>
      have hfive : 5 ≤ g.partitions := Nat.le_trans (by decide) hfull
      have hlast : 4 ≤ g.partitions - 1 ∧ g.partitions - 1 < g.partitions := by omega
      obtain ⟨_, hpre, hok⟩ := bind_eq_ok.mp hok
      obtain ⟨_, rfl⟩ := Globals.getPte_eq_ok hpre
      obtain ⟨g₁, hg₁, hok⟩ := bind_eq_ok.mp hok
      cases hok
      obtain ⟨q, hq⟩ := h.extPointer hlast.1 hlast.2
      obtain ⟨next', hnext, hsame, hoffset, hlogical⟩ :=
        Globals.setPte_changed (g := g.setPart q .zero) (h.lt hlast.2)
      have hclear : clearPartition g (g.ptes (g.partitions - 1)).extPointer = g.setPart q .zero := by
        rw [hq]
        rfl
      rw [hclear] at hg₁
      obtain rfl := Except.ok.inj (hg₁.symm.trans hnext)
      have hpartitions : next.partitions = g.partitions := hsame.partitions_eq
      have heq (k : Nat) (hle : 4 ≤ k) (hlt : k < g.partitions) : next.logical k
          = if k = g.partitions - 1 then { g.logical k with link := .zero } else g.logical k := by
        rw [hlogical, h.logical_setPart_link hlast ⟨hle, hlt⟩ hq]
      have hentries : next.entries 4 (g.partitions - 1 - 4)
          = g.entries (4 + 0) (g.partitions - 1 - 4) :=
        Globals.entries_congr fun k hle hlt => by
          rw [heq k hle (by omega), if_neg (by omega)]
          rfl
      have hzero : g.partitions - (g.partitions - 1 + 1) = 0 := by omega
      have hchain := Globals.chain_eq hlast.1 hlast.2
      have hnextchain := Globals.chain_eq (g := next) hlast.1 (hpartitions.symm ▸ hlast.2)
      rw [hzero] at hchain
      rw [hpartitions, hzero, hentries, heq _ hlast.1 hlast.2, if_pos rfl] at hnextchain
      have hlinked := hfollowing.linked
      rw [hchain] at hlinked
      refine ⟨hwf, by omega, ?_, ?_⟩
      . rw [hoffset]
        exact (hfollowing.offset.resolve_left fun hfour => by omega).2
      . rw [hnextchain]
        exact Linked.Segment.relink (z := { g.logical (g.partitions - 1) with link := .zero })
          hlinked rfl
    . obtain ⟨_, _, hok⟩ := bind_eq_ok.mp hok
      obtain ⟨_, _, hok⟩ := bind_eq_ok.mp hok
      obtain ⟨_, _, hok⟩ := bind_eq_ok.mp hok
      obtain ⟨_, _, hok⟩ := bind_eq_ok.mp hok
      obtain ⟨_, _, hok⟩ := bind_eq_ok.mp hok
      obtain ⟨_, _, hok⟩ := bind_eq_ok.mp hok
      cases hok

theorem removeStep_readFrom (hext : ext < 2 ^ 32) (h : ReadFrom ext g) {r : Globals ⊕ Globals}
    (hok : removeStep g = .ok r) : r.elim (ReadFrom ext) (ReadFrom ext) := by
  obtain ⟨hwf, hfive, hoffset, hsegment⟩ := h
  rcases removeStep_spec hwf with ⟨next, i, hstep, hnextwf, _, hsame, hle, hlt, _, hdeleted⟩ |
    ⟨hstep, _⟩
  . rw [hok] at hstep
    cases hstep
    subst hoffset
    exact ⟨hnextwf, hdeleted.five_le hlt, hsame,
      (hdeleted.cuts hle hlt hext hsegment).linked hsegment⟩
  . rw [hok] at hstep
    cases hstep
    exact ⟨hwf, hfive, hoffset, hsegment⟩

theorem readExtended_linked (h : g.Linked) (hextended : IS_EXTENDED (g.part ⟨0, i⟩).sysInd = true)
    (hfour : g.partitions = 4) (hok : readExtended d malloc fuel g i = .ok next)
    : next.Linked := by
  have hwf : (g.enterChain i).WellFormed :=
    h.wellFormed.setPrimary i { g.ptes i with extPointer := (g.ptes i).partTable } rfl rfl i
  have hoffset : (g.enterChain i).extendedOffset = 0 := h.unread hfour
  rw [readExtended_eq h.wellFormed] at hok
  split at hok
  . cases hok
    exact .of_four hwf hfour hoffset
  . next hstart =>
    have hbounds : 0 < (g.part ⟨0, i⟩).getStartSect ∧ (g.part ⟨0, i⟩).getStartSect < 2 ^ 32 :=
      ⟨Nat.pos_of_ne_zero hstart, Partition.getStartSect_lt⟩
    generalize hext : (g.part ⟨0, i⟩).getStartSect = ext at *
    have hfollowing : Following ext (g.enterChain i) ⟨0, i⟩ := by
      have hpart : (g.enterChain i).part ⟨0, i⟩ = g.part ⟨0, i⟩ := rfl
      have hempty : (g.enterChain i).chain = [] := Globals.chain_of_four hfour
      refine ⟨?_, .inl ⟨hfour, hoffset⟩⟩
      rw [hempty, hpart, Partition.target, if_pos hextended, hext, hoffset,
        Nat.zero_add]
      rfl
    obtain ⟨⟨mid, exit⟩, hchain, hok⟩ := bind_eq_ok.mp hok
    have hmid : ReadFrom ext mid := by
      refine Loop.iterate_keeps
        (fun s : Globals × PartPtr => s.1.WellFormed ∧ Following ext s.1 s.2)
        (fun r : Globals × Exit => ReadFrom ext r.1) ?_ ?_ ⟨hwf, hfollowing⟩ hchain
      . rintro ⟨g, p⟩ ⟨next, q⟩ ⟨hg, hinv⟩ hstep
        rcases chainStep_spec d malloc p hg with ⟨_, _, hnext, hnextwf, hfollowed⟩ | ⟨_, _, hexit, _⟩
        . rw [hstep] at hnext
          cases hnext
          exact ⟨hnextwf, hinv.step hbounds hg hfollowed⟩
        . rw [hstep] at hexit
          cases hexit
      . rintro ⟨g, p⟩ ⟨next, exit⟩ ⟨hg, hinv⟩ hstep
        cases exit with
        | omitting => exact chainStep_omitting_readFrom hg hinv hstep
        | chainEnd =>
          rcases chainStep_spec d malloc p hg with ⟨_, _, hnext, _⟩ | ⟨_, _, hexit, hnextwf, hend, _⟩
          . rw [hstep] at hnext
            cases hnext
          . rw [hstep] at hexit
            cases hexit
            obtain ⟨rfl, hlast⟩ := hend rfl
            obtain ⟨hfive, hsame, hsegment⟩ := hinv.stop hlast
            exact ⟨hnextwf, hfive, hsame, hsegment⟩
    apply ReadFrom.linked hbounds.2
    cases exit with
    | omitting =>
      cases hok
      exact hmid
    | chainEnd =>
      exact Loop.iterate_keeps (ReadFrom ext) (ReadFrom ext)
        (fun _ _ hs hstep => removeStep_readFrom hbounds.2 hs hstep)
        (fun _ _ hs hstep => removeStep_readFrom hbounds.2 hs hstep) hmid hok

theorem Globals.Linked.extended (h : g.Linked)
    (hok : getBoot.extended d malloc fuel g i = .ok next) : next.Linked := by
  obtain ⟨pe, hpe, hok⟩ := bind_eq_ok.mp hok
  obtain ⟨_, rfl⟩ := Globals.getPte_eq_ok hpe
  obtain ⟨p, hp, hok⟩ := bind_eq_ok.mp hok
  have hsame := (h.wellFormed.primary i).1.symm.trans (deref_eq_ok hp)
  cases hsame
  split at hok
  . next hcall => exact readExtended_linked h hcall.1 hcall.2 hok
  . cases hok
    exact h

theorem Globals.Flagged.linked (h : g.Flagged next) (hg : g.Linked) : next.Linked := by
  obtain ⟨flags, rfl⟩ := h
  exact ⟨hg.wellFormed.of_same ⟨rfl, rfl, rfl, fun _ => ⟨rfl, rfl, rfl⟩⟩, hg.unread, hg.offset_lt,
    hg.segment⟩

theorem getBoot_linked {k : Kernel} (hsize : DEFAULT_SECTOR_SIZE ≤ g.nextSectorSize k)
    (hstate : g.sectorSize < 2 ^ 32) (hok : getBoot d malloc k fuel g = .ok (next, 0))
    : next.Linked := by
  obtain ⟨started, read, hstart, hread, hflagged⟩ := getBoot_eq_ok hok
  obtain ⟨_, hnext, hwf, hfour, hunread⟩ := getBoot.start_wellFormed d hsize hstate
  rw [hstart] at hnext
  cases hnext
  apply hflagged.linked
  exact Loop.foldlM_keeps (·.Linked) (fun _ _ _ _ hg hok => hg.extended hok)
    (.of_four hwf hfour (hunread hfour)) hread

end GetBoot

/--
What the table says: the primary entries, which of them is the extended partition, where it starts,
and the partitions in it.
-/
structure Drive where
  primary : Slot → Partition
  extIndex : Nat
  start : Nat
  logical : List Seen

namespace Drive

/--
Strike an entry. The extended partition goes with all that is in it, and a single logical partition
leaves an empty one.
-/
def delete (v : Drive) (i : Nat) : Drive :=
  if h : i < 4 then
    let cleared := { v with primary := Function.update v.primary ⟨i, h⟩ .zero }
    if IS_EXTENDED (v.primary ⟨i, h⟩).sysInd ∧ i = v.extIndex then
      { cleared with start := 0, logical := [] }
    else
      cleared
  else if v.logical.length = 1 then
    { v with logical := [{ sysInd := 0, nrSects := 0, start := v.start }] }
  else
    { v with logical := v.logical.eraseIdx (i - 4) }

def Admits (v : Drive) : List Nat → Prop
  | [] => True
  | i :: is => i < 4 + v.logical.length ∧ (v.delete i).Admits is

end Drive

def Globals.drive (g : Globals) : Drive where
  primary i := g.part ⟨0, i⟩
  extIndex := g.extIndex
  start := g.extendedOffset
  logical := g.chain.map Logical.seen

theorem Globals.drive_length (g : Globals) : g.drive.logical.length = g.partitions - 4 := by
  unfold Globals.drive
  rw [List.length_map, Globals.chain_length]

theorem Cuts.seen_eq {ext k : Nat} {l l' : List Logical} (h : Cuts ext k l l')
    (hext : ext < 2 ^ 32) (hl : Segment ext (some ext) l none) (hfits : Fits ext l)
    : l'.map Logical.seen = if l.length = 1 then [{ sysInd := 0, nrSects := 0, start := ext }]
        else (l.map Logical.seen).eraseIdx k := by
  cases h with
  | drop pre post x y z _ _ hseen =>
    obtain ⟨hle, hlt⟩ := hfits y (by simp)
    rw [Seen.rebase_eq hext hle hlt] at hseen
    have hlength : (pre ++ x :: y :: post).length ≠ 1 := by
      rw [List.length_append, List.length_cons, List.length_cons]
      omega
    rw [if_neg hlength]
    simp only [List.map_append, List.map_cons]
    rw [List.eraseIdx_append_of_length_le (by rw [List.length_map]; omega), List.length_map]
    rcases hseen with ⟨rfl, hz⟩ | ⟨rfl, hz⟩
    . rw [Nat.add_sub_cancel_left, hz]
      rfl
    . rw [Nat.sub_self, hz]
      rfl
  | clear x z _ hoffset _ hcleared =>
    have hx : ext = x.offset := Option.some.inj hl.1
    rw [List.length_singleton, if_pos rfl, List.map_singleton, hcleared, hoffset, ← hx]

structure Globals.Editable (g : Globals) : Prop where
  fresh : g.Fresh 0
  offset_lt : g.extendedOffset < 2 ^ 32
  segment : 5 ≤ g.partitions → Segment g.extendedOffset (some g.extendedOffset) g.chain none

namespace Globals.Editable

variable {g : Globals} {i : Nat}

theorem delete_logical (h : g.Editable) (hle : 4 ≤ i) (hlt : i < g.partitions)
    : ∃ next, deletePartition g i = .ok next ∧ next.Editable
        ∧ Cuts g.extendedOffset (i - 4) g.chain next.chain
        ∧ next.drive = { g.drive with logical := next.chain.map Logical.seen } := by
  have hsegment := h.segment (by omega)
  obtain ⟨next, hnext, hwf, hoffset, hdeleted⟩ := deletePartition_spec h.fresh.wellFormed hle hlt
  have hframed := deletePartition_framed h.fresh.within hle hlt h.fresh.wellFormed.bounds.2 hnext
  have hcuts := hdeleted.cuts hle hlt h.offset_lt hsegment
  refine ⟨next, hnext, ⟨hframed.fresh h.fresh hwf, ?_, ?_⟩, hcuts, ?_⟩
  . rw [hoffset]
    exact h.offset_lt
  . intro _
    rw [hoffset]
    exact hcuts.linked hsegment
  . have hprimary (j : Slot) : next.part ⟨0, j⟩ = g.part ⟨0, j⟩ := by
      unfold Globals.part
      rw [hframed.bufs_eq 0 (Nat.lt_irrefl 0)]
    unfold Globals.drive
    rw [hoffset, hframed.extIndex_eq]
    simp only [hprimary]

theorem of_primary (h : g.Editable) (j : Slot) (pe : Pte)
    (hpart : pe.partTable = (g.ptes j).partTable)
    (hbuf : pe.sectorbuffer = (g.ptes j).sectorbuffer) (hoffset : pe.offset = (g.ptes j).offset)
    : ({ g with ptes := Function.update g.ptes j pe } : Globals).Editable
        ∧ ({ g with ptes := Function.update g.ptes j pe } : Globals).drive = g.drive := by
  have hptes (k : Nat) (hle : 4 ≤ k) : Function.update g.ptes j pe k = g.ptes k :=
    Function.update_of_ne (by omega) _ _
  have hchain : ({ g with ptes := Function.update g.ptes j pe } : Globals).chain = g.chain :=
    Globals.chain_congr rfl fun k hle _ => Globals.logical_congr (hptes k hle) rfl
  refine ⟨⟨⟨h.fresh.wellFormed.setPrimary j pe hpart hbuf g.extIndex, h.fresh.floor_le, ?_,
    h.fresh.sectorSize_lt, ?_⟩, h.offset_lt, ?_⟩, ?_⟩
  . intro k hle hlt
    dsimp only
    rw [hptes k hle]
    exact h.fresh.within k hle hlt
  . intro k hk
    exact (Pte.offset_update hoffset k).trans (h.fresh.rooted k hk)
  . rw [hchain]
    exact h.segment
  . unfold Globals.drive
    rw [hchain]
    rfl

theorem clear_primary (h : g.Editable) (j : Slot)
    : (clearPartition g (some ⟨0, j⟩)).Editable
        ∧ (clearPartition g (some ⟨0, j⟩)).drive
          = { g.drive with primary := Function.update g.drive.primary j .zero } := by
  have hchain : (clearPartition g (some ⟨0, j⟩)).chain = g.chain :=
    Globals.chain_congr rfl fun k hle hlt =>
      h.fresh.within.logical_setPart (Nat.lt_irrefl 0) hle hlt
  refine ⟨⟨⟨h.fresh.wellFormed.of_same .clearPartition, h.fresh.floor_le, h.fresh.within,
    h.fresh.sectorSize_lt, h.fresh.rooted⟩, h.offset_lt, ?_⟩, ?_⟩
  . rw [hchain]
    exact h.segment
  . have hprimary : (fun slot => (clearPartition g (some ⟨0, j⟩)).part ⟨0, slot⟩)
        = Function.update (fun slot => g.part ⟨0, slot⟩) j .zero := by
      funext slot
      by_cases hslot : slot = j
      . rw [hslot, Function.update_self]
        exact Globals.part_setPart_self
      . rw [Function.update_of_ne hslot]
        exact Globals.part_setPart_of_ne (by simpa using hslot)
    unfold Globals.drive
    rw [hchain, hprimary]
    rfl

theorem drop_extended (h : g.Editable)
    : ({ g with partitions := 4, extendedOffset := 0 } : Globals).Editable
        ∧ ({ g with partitions := 4, extendedOffset := 0 } : Globals).drive
          = { g.drive with start := 0, logical := [] } := by
  generalize hnext : ({ g with partitions := 4, extendedOffset := 0 } : Globals) = next
  have hpartitions : next.partitions = 4 := by rw [← hnext]
  have hoffset : next.extendedOffset = 0 := by rw [← hnext]
  have hchain := Globals.chain_of_four hpartitions
  have hwf : next.WellFormed := by
    rw [← hnext]
    exact h.fresh.wellFormed.drop 0
  refine ⟨⟨⟨hwf, by omega, fun i hle hlt => by omega, ?_, ?_⟩, by omega, fun hfive => by omega⟩, ?_⟩
  . rw [← hnext]
    exact h.fresh.sectorSize_lt
  . rw [← hnext]
    exact h.fresh.rooted
  . unfold Globals.drive
    rw [hchain, hoffset, ← hnext]
    rfl

theorem delete_primary (h : g.Editable) (hi : i < 4)
    : ∃ next, deletePartition g i = .ok next ∧ next.Editable ∧ next.drive = g.drive.delete i := by
  have himax : i < MAXIMUM_PARTS := Nat.lt_trans hi (by decide)
  have hpart : (g.ptes i).partTable = some ⟨0, ⟨i, hi⟩⟩ :=
    (h.fresh.wellFormed.primary ⟨i, hi⟩).1
  obtain ⟨g₁, hg₁, heditable, hdrive⟩ : ∃ g₁, g.setPte i { g.ptes i with changed := true }
      = .ok g₁ ∧ g₁.Editable ∧ g₁.drive = g.drive :=
    ⟨_, Globals.setPte_of_lt himax, h.of_primary ⟨i, hi⟩ _ rfl rfl rfl⟩
  have hdelete : deletePartition g i = deletePartition.primary g₁ i (some ⟨0, ⟨i, hi⟩⟩) := by
    unfold deletePartition
    rw [Globals.getPte_of_lt himax]
    simp only [bind, Except.bind]
    rw [hg₁]
    dsimp only
    rw [if_pos hi, hpart]
  rw [hdelete, ← hdrive]
  unfold deletePartition.primary Drive.delete
  simp only [deref, bind, Except.bind, pure, Except.pure]
  rw [dif_pos hi]
  by_cases hextended : IS_EXTENDED (g₁.part ⟨0, ⟨i, hi⟩⟩).sysInd ∧ i = g₁.extIndex
  . obtain ⟨_, rfl⟩ := id hextended
    rw [if_pos hextended, Globals.setPartitions_of_bounds (by decide)]
    dsimp only
    rw [Globals.getPte_of_lt himax]
    dsimp only
    rw [Globals.setPte_of_lt himax]
    dsimp only
    obtain ⟨hdropped, hdroppeddrive⟩ := heditable.drop_extended
    obtain ⟨hset, hsetdrive⟩ := hdropped.of_primary ⟨g₁.extIndex, hi⟩
      { g₁.ptes g₁.extIndex with extPointer := none } rfl rfl rfl
    obtain ⟨hcleared, hcleareddrive⟩ := hset.clear_primary ⟨g₁.extIndex, hi⟩
    refine ⟨_, rfl, hcleared, hcleareddrive.trans ?_⟩
    rw [hsetdrive, hdroppeddrive]
    exact (if_pos hextended).symm
  . rw [if_neg hextended]
    obtain ⟨hcleared, hcleareddrive⟩ := heditable.clear_primary ⟨i, hi⟩
    exact ⟨_, rfl, hcleared, hcleareddrive.trans (if_neg hextended).symm⟩

end Globals.Editable

/--
The first sectors of the logical partitions have 32 bits when they are counted from the extended one.
-/
def Drive.Fits (v : Drive) : Prop :=
  ∀ s ∈ v.logical, v.start ≤ s.start ∧ s.start < v.start + 2 ^ 32

theorem Drive.Fits.delete {v : Drive} (h : v.Fits) (i : Nat) : (v.delete i).Fits := by
  unfold Drive.delete
  split
  . dsimp only
    split
    . exact nofun
    . exact h
  . split
    . intro s hs
      rw [List.mem_singleton.mp hs]
      dsimp only
      omega
    . intro s hs
      exact h s (List.mem_of_mem_eraseIdx hs)

structure Globals.Tidy (g : Globals) : Prop where
  editable : g.Editable
  fits : g.drive.Fits

namespace Globals.Tidy

variable {g : Globals} {i : Nat} {is : List Nat}

theorem delete_logical (h : g.Tidy) (hle : 4 ≤ i) (hlt : i < g.partitions)
    : ∃ next, deletePartition g i = .ok next ∧ next.Editable ∧ next.drive = g.drive.delete i := by
  obtain ⟨next, hnext, heditable, hcuts, hdrive⟩ := h.editable.delete_logical hle hlt
  have hfits : Fits g.extendedOffset g.chain := fun e he => h.fits _ (List.mem_map_of_mem he)
  have hseen := hcuts.seen_eq h.editable.offset_lt (h.editable.segment (by omega)) hfits
  refine ⟨next, hnext, heditable, ?_⟩
  rw [hdrive, hseen]
  unfold Globals.drive Drive.delete
  dsimp only
  rw [dif_neg (Nat.not_lt.mpr hle), List.length_map]
  split <;> rfl

theorem delete (h : g.Tidy) (hlt : i < g.partitions)
    : ∃ next, deletePartition g i = .ok next ∧ next.Tidy ∧ next.drive = g.drive.delete i := by
  have hdelete : ∃ next, deletePartition g i = .ok next ∧ next.Editable
      ∧ next.drive = g.drive.delete i := by
    cases Nat.lt_or_ge i 4 with
    | inl hi => exact h.editable.delete_primary hi
    | inr hle => exact h.delete_logical hle hlt
  obtain ⟨next, hnext, heditable, hdrive⟩ := hdelete
  refine ⟨next, hnext, ⟨heditable, ?_⟩, hdrive⟩
  rw [hdrive]
  exact h.fits.delete i

theorem deleteAll (h : g.Tidy) (hadmits : g.drive.Admits is)
    : ∃ next, is.foldlM deletePartition g = .ok next ∧ next.Tidy
        ∧ next.drive = is.foldl Drive.delete g.drive := by
  induction is generalizing g with
  | nil => exact ⟨g, rfl, h, rfl⟩
  | cons i is ih =>
    obtain ⟨hlt, hadmits⟩ := hadmits
    have hlength := g.drive_length
    have hbounds := h.editable.fresh.wellFormed.bounds
    have hpartition : i < g.partitions := by omega
    obtain ⟨mid, hmid, htidy, hdrive⟩ := h.delete hpartition
    rw [← hdrive] at hadmits
    obtain ⟨next, hnext, hnexttidy, hnextdrive⟩ := ih htidy hadmits
    rw [hdrive] at hnextdrive
    refine ⟨next, ?_, hnexttidy, hnextdrive⟩
    rw [List.foldlM_cons]
    exact bind_eq_ok.mpr ⟨mid, hmid, hnext⟩

end Globals.Tidy

section GetBoot

variable {d : Device} {malloc : Nat → Nat → UInt8} {k : Kernel} {fuel : Nat} {g₀ g : Globals}
  {is : List Nat}

theorem getBoot_editable (hsize : DEFAULT_SECTOR_SIZE ≤ g₀.nextSectorSize k)
    (hstate : g₀.sectorSize < 2 ^ 32) (hboot : getBoot d malloc k fuel g₀ = .ok (g, 0))
    : g.Editable := by
  obtain ⟨hwf, _, hwithin, hlt, hrooted⟩ := getBoot_fresh hsize hstate hboot
  have hlinked := getBoot_linked hsize hstate hboot
  refine ⟨⟨hwf, Nat.zero_le _, ?_, hlt, hrooted⟩, hlinked.offset_lt, hlinked.segment⟩
  intro i hle hlt
  obtain ⟨hpart, hlink, hbuf⟩ := hwithin i hle hlt
  exact ⟨fun p hp => Nat.zero_lt_of_lt (hpart p hp), fun p hp => Nat.zero_lt_of_lt (hlink p hp),
    fun buf hp => Nat.zero_lt_of_lt (hbuf buf hp)⟩

theorem getBoot_tidy (hsize : DEFAULT_SECTOR_SIZE ≤ g₀.nextSectorSize k)
    (hstate : g₀.sectorSize < 2 ^ 32) (hboot : getBoot d malloc k fuel g₀ = .ok (g, 0))
    (hfits : ∀ j start, 4 ≤ j → j < g.partitions → getPartitionStart g (g.ptes j) = .ok start →
      start < g.extendedOffset + 2 ^ 32) : g.Tidy := by
  have heditable := getBoot_editable hsize hstate hboot
  have hwf := heditable.fresh.wellFormed
  refine ⟨heditable, ?_⟩
  intro s hs
  obtain ⟨e, he, rfl⟩ := List.mem_map.mp hs
  obtain ⟨j, hj, rfl⟩ := List.mem_map.mp he
  rw [List.mem_range'_1] at hj
  have hjlt : j < g.partitions := by omega
  have hchained := Globals.chained_of_linked (by omega) (heditable.segment (by omega))
  exact ⟨hchained.le_start heditable.offset_lt hj.1 hjlt,
    hfits j _ hj.1 hjlt (getPartitionStart_eq hwf hj.1 hjlt)⟩

theorem deletions_strike (hsize : DEFAULT_SECTOR_SIZE ≤ g₀.nextSectorSize k)
    (hstate : g₀.sectorSize < 2 ^ 32) (hboot : getBoot d malloc k fuel g₀ = .ok (g, 0))
    (hfits : ∀ j start, 4 ≤ j → j < g.partitions → getPartitionStart g (g.ptes j) = .ok start →
      start < g.extendedOffset + 2 ^ 32)
    (hadmits : g.drive.Admits is)
    : ∃ next, is.foldlM deletePartition g = .ok next
        ∧ next.drive = is.foldl Drive.delete g.drive
        ∧ (4 < next.partitions → next.Chained) := by
  obtain ⟨next, hnext, htidy, hdrive⟩ := (getBoot_tidy hsize hstate hboot hfits).deleteAll hadmits
  exact ⟨next, hnext, hdrive,
    fun hfive => Globals.chained_of_linked hfive (htidy.editable.segment hfive)⟩

def Device.twoLogical : Device where
  byte i :=
    match i with
    | 450 => 0x05
    | 454 => 1
    | 458 => 20
    | 510 => 0x55
    | 511 => 0xaa
    | 962 => 0x83
    | 966 => 4
    | 970 => 2
    | 978 => 0x05
    | 982 => 10
    | 986 => 8
    | 6082 => 0x83
    | 6086 => 1
    | 6090 => 3
    | _ => 0
  size := 2 ^ 30
  seeks _ := true

def Device.twoLogical.reads : Bool :=
  match getBoot .twoLogical (fun _ _ => 0) (.mmc 512 (2 ^ 30)) 62 .initial with
  | .ok (g, 0) =>
    g.partitions = 6 && g.extendedOffset = 1 && (g.logical 4).seen.start = 5
      && (g.logical 5).seen.start = 12
  | _ => false

theorem Device.twoLogical.boots
    : ∃ g, getBoot .twoLogical (fun _ _ => 0) (.mmc 512 (2 ^ 30)) 62 .initial = .ok (g, 0)
        ∧ g.partitions = 6 ∧ g.extendedOffset = 1 ∧ (g.logical 4).seen.start = 5
        ∧ (g.logical 5).seen.start = 12 := by
  have hreads : reads = true := by decide +kernel
  unfold reads at hreads
  split at hreads
  . next g hboot =>
    simp only [Bool.and_eq_true, decide_eq_true_eq] at hreads
    obtain ⟨⟨⟨hsix, hext⟩, hfirst⟩, hsecond⟩ := hreads
    exact ⟨g, hboot, hsix, hext, hfirst, hsecond⟩
  . cases hreads

theorem deletions_strike_twoLogical
    : ∃ g next, getBoot .twoLogical (fun _ _ => 0) (.mmc 512 (2 ^ 30)) 62 .initial = .ok (g, 0)
        ∧ [5, 4, 0].foldlM deletePartition g = .ok next
        ∧ next.drive = [5, 4, 0].foldl Drive.delete g.drive
        ∧ (4 < next.partitions → next.Chained) := by
  obtain ⟨g, hboot, hsix, hext, hfirst, hsecond⟩ := Device.twoLogical.boots
  have hwf := (getBoot_linked (by decide) (by decide) hboot).wellFormed
  have hlength : g.drive.logical.length = 2 := by rw [Globals.drive_length, hsix]
  have hadmits : g.drive.Admits [5, 4, 0] := by
    simp [Drive.Admits, Drive.delete, List.length_eraseIdx, hlength]
  obtain ⟨next, hnext⟩ := deletions_strike (by decide) (by decide) hboot (by
    intro j start hle hlt hj
    rw [getPartitionStart_eq hwf hle hlt] at hj
    rw [← Except.ok.inj hj, hext]
    obtain rfl | rfl : j = 4 ∨ j = 5 := by omega
    . rw [hfirst]
      decide
    . rw [hsecond]
      decide) hadmits
  exact ⟨g, next, hboot, hnext⟩

end GetBoot

end FsBench.Fdisk
