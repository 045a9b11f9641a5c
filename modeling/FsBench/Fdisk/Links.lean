import FsBench.Fdisk.Chain
import FsBench.Lib.Linked

/-!
The chain of extended boot records as a linked list. Removing its empty links keeps the list
together and loses no partition.
-/

namespace FsBench.Fdisk

/--
Where a link leads: it is relative to the extended partition.
-/
def Partition.target (ext : Nat) (link : Partition) : Option Nat :=
  if IS_EXTENDED link.sysInd then some (ext + link.getStartSect) else none

def Logical.next (ext : Nat) (e : Logical) : Option Nat :=
  e.link.target ext

abbrev Segment (ext : Nat) : Option Nat → List Logical → Option Nat → Prop :=
  Linked.Segment Logical.offset (Logical.next ext)

def nonEmpty (l : List Logical) : List Seen :=
  (l.map Logical.seen).filter (·.nrSects ≠ 0)

def Fits (ext : Nat) (l : List Logical) : Prop :=
  ∀ e ∈ l, ext ≤ e.seen.start ∧ e.seen.start < ext + 2 ^ 32

/--
What the deletion of an empty entry makes of a chain. Of two neighbours of which one is empty, one
is left that has the place of the first, the link of the second and the partition of the other one.
-/
inductive Drops (ext : Nat) : List Logical → List Logical → Prop where
  | drop (pre post : List Logical) (x y z : Logical) (hoffset : z.offset = x.offset)
      (hnext : z.next ext = y.next ext)
      (hseen : y.seen.nrSects = 0 ∧ z.seen = x.seen ∨ x.seen.nrSects = 0 ∧ z.seen = y.seen)
      : Drops ext (pre ++ x :: y :: post) (pre ++ z :: post)
  | clear (x z : Logical) (hoffset : z.offset = x.offset) (hnext : z.next ext = x.next ext)
      (hempty : x.seen.nrSects = 0) (hcleared : z.seen.nrSects = 0)
      (hstart : z.seen.start = z.offset) : Drops ext [x] [z]

def Seen.rebase (ext : Nat) (s : Seen) : Seen :=
  { s with start := Word.add 64 ext (Word.sub 64 s.start ext % 2 ^ 32) }

theorem Seen.rebase_eq {ext : Nat} {s : Seen} (hext : ext < 2 ^ 32) (hle : ext ≤ s.start)
    (hlt : s.start < ext + 2 ^ 32) : s.rebase ext = s := by
  have hsub : Word.sub 64 s.start ext = s.start - ext := Word.sub_of_le hle (by omega)
  have hstart : Word.add 64 ext ((s.start - ext) % 2 ^ 32) = s.start := by
    rw [Nat.mod_eq_of_lt (by omega), Word.add_of_lt (by omega)]
    omega
  unfold rebase
  rw [hsub, hstart]

inductive Cuts (ext k : Nat) : List Logical → List Logical → Prop where
  | drop (pre post : List Logical) (x y z : Logical) (hoffset : z.offset = x.offset)
      (hnext : z.next ext = y.next ext)
      (hseen : k = pre.length + 1 ∧ z.seen = x.seen ∨ k = pre.length ∧ z.seen = y.seen.rebase ext)
      : Cuts ext k (pre ++ x :: y :: post) (pre ++ z :: post)
  | clear (x z : Logical) (hk : k = 0) (hoffset : z.offset = x.offset)
      (hnext : z.next ext = x.next ext)
      (hcleared : z.seen = { sysInd := 0, nrSects := 0, start := z.offset }) : Cuts ext k [x] [z]

namespace Cuts

variable {ext k : Nat} {l l' : List Logical}

theorem drops (h : Cuts ext k l l') (hext : ext < 2 ^ 32) (hfits : Fits ext l)
    (hempty : ∀ e, l[k]? = some e → e.seen.nrSects = 0) : Drops ext l l' := by
  cases h with
  | drop pre post x y z hoffset hnext hseen =>
    refine .drop pre post x y z hoffset hnext ?_
    rcases hseen with ⟨rfl, hz⟩ | ⟨rfl, hz⟩
    . exact .inl ⟨hempty y (by simp), hz⟩
    . obtain ⟨hle, hlt⟩ := hfits y (by simp)
      exact .inr ⟨hempty x (by simp), hz.trans (Seen.rebase_eq hext hle hlt)⟩
  | clear x z hk hoffset hnext hcleared =>
    subst hk
    exact .clear x z hoffset hnext (hempty x rfl) (by rw [hcleared]) (by rw [hcleared])

theorem linked (h : Cuts ext k l l') (hl : Segment ext (some ext) l none)
    : Segment ext (some ext) l' none := by
  cases h with
  | drop pre post x y z hoffset hnext _ => exact Linked.Segment.unlink pre hl hoffset hnext
  | clear x z _ hoffset hnext _ =>
    refine ⟨?_, ?_⟩
    . rw [hoffset]
      exact hl.1
    . rw [hnext]
      exact hl.2

end Cuts

namespace Drops

variable {ext : Nat} {l l' : List Logical}

theorem linked (h : Drops ext l l') (hl : Segment ext (some ext) l none)
    : Segment ext (some ext) l' none := by
  cases h with
  | drop pre post x y z hoffset hnext _ => exact Linked.Segment.unlink pre hl hoffset hnext
  | clear x z hoffset hnext _ _ _ =>
    refine ⟨?_, ?_⟩
    . rw [hoffset]
      exact hl.1
    . rw [hnext]
      exact hl.2

theorem nonEmpty_eq (h : Drops ext l l') : nonEmpty l' = nonEmpty l := by
  unfold nonEmpty
  cases h with
  | drop pre post x y z _ _ hseen =>
    rcases hseen with ⟨hy, hz⟩ | ⟨hx, hz⟩
    . simp [hz, List.filter_cons, hy]
    . simp [hz, List.filter_cons, hx]
  | clear x z _ _ hempty hcleared _ => simp [hempty, hcleared]

theorem fits (h : Drops ext l l') (hl : Segment ext (some ext) l none) (hfits : Fits ext l)
    : Fits ext l' := by
  cases h with
  | drop pre post x y z _ _ hseen =>
    intro e he
    rcases List.mem_append.mp he with hpre | hpost
    . exact hfits e (List.mem_append_left _ hpre)
    . rcases List.mem_cons.mp hpost with rfl | hpost
      . rcases hseen with ⟨_, hz⟩ | ⟨_, hz⟩
        . rw [hz]
          exact hfits x (by simp)
        . rw [hz]
          exact hfits y (by simp)
      . exact hfits e (by simp [hpost])
  | clear x z hoffset _ _ _ hstart =>
    intro e he
    have hx : x.offset = ext := (Option.some.inj hl.1).symm
    rw [List.mem_singleton.mp he, hstart, hoffset, hx]
    omega

end Drops

namespace Globals

def entries (g : Globals) (i count : Nat) : List Logical :=
  (List.range' i count).map g.logical

def chain (g : Globals) : List Logical :=
  g.entries 4 (g.partitions - 4)

variable {g next : Globals} {i j : Nat}

theorem chain_eq (hle : 4 ≤ j) (hlt : j < g.partitions)
    : g.chain = g.entries 4 (j - 4) ++ g.logical j :: g.entries (j + 1) (g.partitions - (j + 1)) := by
  have hsplit : g.partitions - 4 = (j - 4) + ((g.partitions - (j + 1)) + 1) := by omega
  have hj : 4 + (j - 4) = j := by omega
  unfold chain entries
  rw [hsplit, ← List.range'_append_1, List.map_append, hj, List.range'_succ, List.map_cons]

theorem chain_getElem? (hle : 4 ≤ i) (hlt : i < g.partitions)
    : g.chain[i - 4]? = some (g.logical i) := by
  have hi : 4 + (i - 4) = i := by omega
  unfold chain entries
  rw [List.getElem?_map, List.getElem?_range' (by omega)]
  simp [hi]

theorem entries_congr {s count : Nat}
    (h : ∀ k, i ≤ k → k < i + count → next.logical k = g.logical (k + s))
    : next.entries i count = g.entries (i + s) count := by
  unfold entries
  rw [Nat.add_comm i s, ← List.map_add_range', List.map_map]
  apply List.map_congr_left
  intro k hk
  rw [List.mem_range'_1] at hk
  rw [h k hk.1 hk.2, Function.comp_apply, Nat.add_comm]

theorem chain_drop (hle : 4 ≤ j) (hlt : j + 1 < g.partitions)
    (hpartitions : next.partitions + 1 = g.partitions)
    (hbefore : ∀ k, 4 ≤ k → k < j → next.logical k = g.logical k)
    (hafter : ∀ k, j < k → k < next.partitions → next.logical k = g.logical (k + 1))
    : ∃ pre post, pre.length = j - 4 ∧ g.chain = pre ++ g.logical j :: g.logical (j + 1) :: post
        ∧ next.chain = pre ++ next.logical j :: post := by
  refine ⟨g.entries 4 (j - 4), g.entries (j + 2) (g.partitions - (j + 2)), ?_, ?_, ?_⟩
  . unfold entries
    rw [List.length_map, List.length_range']
  . have hcount : g.partitions - (j + 1) = (g.partitions - (j + 2)) + 1 := by omega
    rw [chain_eq hle (by omega), hcount]
    rfl
  . have hpre : next.entries 4 (j - 4) = g.entries (4 + 0) (j - 4) :=
      entries_congr fun k hk hkj => hbefore k hk (by omega)
    have hpost : next.entries (j + 1) (next.partitions - (j + 1))
        = g.entries (j + 1 + 1) (next.partitions - (j + 1)) :=
      entries_congr fun k hk hkj => hafter k (by omega) (by omega)
    have hcount : next.partitions - (j + 1) = g.partitions - (j + 2) := by omega
    rw [chain_eq hle (by omega), hpre, hpost, hcount]

end Globals

theorem Globals.first_offset {g : Globals} (hlt : 4 < g.partitions) {start stop : Option Nat}
    {ext : Nat} (hl : Segment ext start g.chain stop) : start = some (g.logical 4).offset := by
  rw [chain_eq (Nat.le_refl 4) hlt] at hl
  exact hl.1

theorem Logical.seen_rebase {e : Logical} {ext : Nat}
    : Logical.seen
        { e with offset := ext, part := e.part.setStartSect (Word.sub 64 e.seen.start ext) }
      = e.seen.rebase ext := by
  rw [Logical.seen]
  dsimp only
  rw [Partition.getStartSect_setStartSect, Partition.sysInd_setStartSect,
    Partition.getNrSects_setStartSect]
  rfl

theorem Globals.Deleted.cuts {g next : Globals} {i : Nat} (h : g.Deleted i next) (hle : 4 ≤ i)
    (hlt : i < g.partitions) (hext : g.extendedOffset < 2 ^ 32)
    (hl : Segment g.extendedOffset (some g.extendedOffset) g.chain none)
    : Cuts g.extendedOffset (i - 4) g.chain next.chain := by
  cases h with
  | last hi hpartitions hend hlogical =>
    have hnone : (g.logical i).next g.extendedOffset = none := by
      rw [Logical.next, Partition.target, hend]
      rfl
    -- Its link leads nowhere, so no entry follows.
    have hlast : i + 1 = g.partitions := by
      rw [Globals.chain_eq hle hlt] at hl
      have hpost := congrArg List.length (Linked.Segment.last hl hnone)
      simp only [Globals.entries, List.length_map, List.length_range', List.length_nil] at hpost
      omega
    have hj : i - 1 + 1 = i := by omega
    obtain ⟨pre, post, hlength, hchain, hnext⟩ := Globals.chain_drop (j := i - 1) (by omega)
      (by omega) hpartitions (fun k hk hkj => by rw [hlogical k hk (by omega), if_neg (by omega)])
      (fun k hjk hk => by omega)
    rw [hchain, hnext, hj, hlogical (i - 1) (by omega) (by omega), if_pos rfl]
    exact .drop pre post _ _ _ rfl (by rw [hnone]; rfl) (.inl ⟨by omega, rfl⟩)
  | unlink hi hpartitions link hsys hstart hlogical =>
    have hj : i - 1 + 1 = i := by omega
    obtain ⟨pre, post, hlength, hchain, hnext⟩ := Globals.chain_drop (j := i - 1) (by omega)
      (by omega) hpartitions
      (fun k hk hkj => by rw [hlogical k hk (by omega), if_neg (by omega), if_neg (by omega)])
      (fun k hjk hk => by
        rw [hlogical k (by omega) hk, if_neg (by omega), if_pos (by omega)])
    rw [hchain, hnext, hj, hlogical (i - 1) (by omega) (by omega), if_pos rfl]
    refine .drop pre post _ _ _ rfl ?_ (.inl ⟨by omega, rfl⟩)
    unfold Logical.next Partition.target
    dsimp only
    rw [hsys, hstart]
  | promote hi hpartitions hmore hlogical =>
    subst hi
    obtain ⟨pre, post, hlength, hchain, hnext⟩ := Globals.chain_drop (j := 4) (by omega) (by omega)
      hpartitions (fun k hk hkj => by omega)
      (fun k hjk hk => by rw [hlogical k (by omega) hk, if_neg (by omega)])
    have hoffset : (g.logical 4).offset = g.extendedOffset :=
      (Option.some.inj (Globals.first_offset hlt hl)).symm
    rw [hchain, hnext, hlogical 4 (by omega) (by omega), if_pos rfl]
    exact .drop pre post _ _ _ hoffset.symm rfl (.inr ⟨by omega, Logical.seen_rebase⟩)
  | clear hi hpartitions honly hlogical =>
    subst hi
    have hoffset : (g.logical 4).offset = g.extendedOffset :=
      (Option.some.inj (Globals.first_offset hlt hl)).symm
    have hone (g : Globals) (h : g.partitions = 5) : g.chain = [g.logical 4] := by
      rw [Globals.chain, h]
      rfl
    rw [hone g honly, hone next (hpartitions.trans honly), hlogical]
    have hzero : Partition.zero.getStartSect = 0 := by decide
    have hnone : Partition.zero.getNrSects = 0 := by decide
    refine .clear _ _ rfl rfl rfl ?_
    rw [Logical.seen]
    dsimp only
    rw [hoffset, hzero, hnone, Word.add_of_lt (by omega), Nat.add_zero]
    rfl

theorem Globals.Deleted.drops {g next : Globals} {i : Nat} (h : g.Deleted i next) (hle : 4 ≤ i)
    (hlt : i < g.partitions) (hempty : (g.logical i).part.getNrSects = 0)
    (hext : g.extendedOffset < 2 ^ 32)
    (hl : Segment g.extendedOffset (some g.extendedOffset) g.chain none)
    (hfits : Fits g.extendedOffset g.chain) : Drops g.extendedOffset g.chain next.chain := by
  apply (h.cuts hle hlt hext hl).drops hext hfits
  intro e he
  rw [Globals.chain_getElem? hle hlt] at he
  cases he
  exact hempty

/--
The chain of boot records is consistent: the first one is the extended partition's, each link leads
to the next one, and the last link to none.
-/
structure Globals.Chained (g : Globals) : Prop where
  nonempty : 5 ≤ g.partitions
  first : (g.ptes 4).offset = g.extendedOffset
  next : ∀ k, 4 ≤ k → k + 1 < g.partitions →
    (g.ptes (k + 1)).offset = g.extendedOffset + (g.logical k).link.getStartSect
  last : IS_EXTENDED (g.logical (g.partitions - 1)).link.sysInd = false

theorem Globals.chained_of_linked {g : Globals} (hnonempty : 5 ≤ g.partitions)
    (hl : Segment g.extendedOffset (some g.extendedOffset) g.chain none) : g.Chained := by
  refine ⟨hnonempty, (Option.some.inj (first_offset (by omega) hl)).symm, ?_, ?_⟩
  . intro k hle hlt
    have hcount : g.partitions - (k + 1) = (g.partitions - (k + 2)) + 1 := by omega
    rw [chain_eq hle (by omega), hcount] at hl
    have hnext : (g.logical k).next g.extendedOffset = some (g.logical (k + 1)).offset :=
      Linked.Segment.next_eq hl
    unfold Logical.next Partition.target at hnext
    split at hnext
    . exact (Option.some.inj hnext).symm
    . cases hnext
  . have hcount : g.partitions - (g.partitions - 1 + 1) = 0 := by omega
    rw [chain_eq (show 4 ≤ g.partitions - 1 by omega) (by omega), hcount] at hl
    have hstop : (g.logical (g.partitions - 1)).next g.extendedOffset = none :=
      Linked.Segment.stop_eq hl
    unfold Logical.next Partition.target at hstop
    split at hstop
    . cases hstop
    . next hlast => exact eq_false_of_ne_true hlast

theorem Globals.Chained.le_start {g : Globals} {j : Nat} (h : g.Chained)
    (hext : g.extendedOffset < 2 ^ 32) (hle : 4 ≤ j) (hlt : j < g.partitions)
    : g.extendedOffset ≤ (g.logical j).seen.start := by
  have hoffset : ∃ n < 2 ^ 32, (g.logical j).offset = g.extendedOffset + n := by
    cases Nat.eq_or_lt_of_le hle with
    | inl heq =>
      refine ⟨0, by decide, ?_⟩
      rw [← heq]
      exact h.first
    | inr hgt =>
      obtain ⟨k, rfl⟩ : ∃ k, j = k + 1 := ⟨j - 1, by omega⟩
      exact ⟨_, Partition.getStartSect_lt, h.next k (by omega) hlt⟩
  obtain ⟨n, hn, hoffset⟩ := hoffset
  have hstart : (g.logical j).part.getStartSect < 2 ^ 32 := Partition.getStartSect_lt
  rw [Logical.seen]
  dsimp only
  rw [hoffset, Word.add_of_lt (by omega)]
  omega

theorem getPartitionStart_eq {g : Globals} {k : Nat} (h : g.WellFormed) (hle : 4 ≤ k)
    (hlt : k < g.partitions) : getPartitionStart g (g.ptes k) = .ok (g.logical k).seen.start := by
  obtain ⟨p, hp⟩ := h.partTable hle hlt
  unfold Logical.seen Globals.logical
  simp only [getPartitionStart, hp, deref, bind, Except.bind, Globals.partAt]
  rfl

namespace readExtended

variable {ext : Nat} {g next : Globals} {p q : PartPtr}

structure Following (ext : Nat) (g : Globals) (p : PartPtr) : Prop where
  linked : Segment ext (some ext) g.chain ((g.part p).target g.extendedOffset)
  offset : g.partitions = 4 ∧ g.extendedOffset = 0 ∨ 5 ≤ g.partitions ∧ g.extendedOffset = ext

theorem Following.step (hext : 0 < ext ∧ ext < 2 ^ 32) (hwf : g.WellFormed) (h : Following ext g p)
    (hfollowed : Followed g p next q) : Following ext next q := by
  have hbounds := hwf.bounds
  have hpartitions := hfollowed.partitions_eq
  have hstart : (g.part p).getStartSect < 2 ^ 32 := Partition.getStartSect_lt
  have hlinked := h.linked
  rw [Partition.target, if_pos hfollowed.extended] at hlinked
  have hoffset : next.extendedOffset = ext := by
    rw [hfollowed.extendedOffset_eq]
    rcases h.offset with ⟨hfour, hzero⟩ | ⟨_, heq⟩
    . have hempty : g.chain = [] := by
        rw [Globals.chain, hfour]
        rfl
      rw [hempty, hzero, Nat.zero_add] at hlinked
      rw [if_pos hzero]
      exact (Option.some.inj hlinked).symm
    . rw [if_neg (by omega), heq]
  have hpos : g.extendedOffset + (g.part p).getStartSect = (next.logical g.partitions).offset := by
    have hle : g.extendedOffset < 2 ^ 32 := by
      rcases h.offset with ⟨_, hzero⟩ | ⟨_, heq⟩ <;> omega
    rw [hfollowed.offset_eq, Word.add_of_lt (by omega)]
  have hchain : next.chain = g.chain ++ [next.logical g.partitions] := by
    have hpre : next.entries 4 (g.partitions - 4) = g.entries (4 + 0) (g.partitions - 4) :=
      Globals.entries_congr fun k hle hlt => hfollowed.logical_eq k hle (by omega)
    have hcount : next.partitions - (g.partitions + 1) = 0 := by omega
    rw [Globals.chain_eq (j := g.partitions) (by omega) (by omega), hpre, hcount]
    rfl
  refine ⟨?_, .inr ⟨by omega, hoffset⟩⟩
  rw [hchain, hoffset, ← hfollowed.link_eq]
  exact Linked.Segment.append hlinked (congrArg some hpos)

theorem Following.stop (h : Following ext g p) (hend : IS_EXTENDED (g.part p).sysInd = false)
    : 5 ≤ g.partitions ∧ g.extendedOffset = ext ∧ Segment ext (some ext) g.chain none := by
  have hlinked := h.linked
  rw [Partition.target, hend] at hlinked
  rcases h.offset with ⟨hfour, _⟩ | ⟨hfive, hoffset⟩
  . have hempty : g.chain = [] := by
      rw [Globals.chain, hfour]
      rfl
    rw [hempty] at hlinked
    cases hlinked
  . exact ⟨hfive, hoffset, hlinked⟩

end readExtended

/--
`get_boot`, started on the globals `g₀`, comes to read the extended partition in entry `i` when the
globals are `g`.
-/
def getBoot.Calls (d : Device) (malloc : Nat → Nat → UInt8) (k : Kernel) (fuel : Nat)
    (g₀ g : Globals) (i : Slot) : Prop :=
  ∃ started pre post, getBoot.start d k g₀ = .ok started ∧ [0, 1, 2, 3] = pre ++ i :: post
    ∧ pre.foldlM (extended d malloc fuel) started = .ok g
    ∧ IS_EXTENDED (g.part ⟨0, i⟩).sysInd = true ∧ g.partitions = 4

section ReadExtended

open readExtended

variable {d : Device} {malloc : Nat → Nat → UInt8} {fuel : Nat} {k : Kernel}
  {g₀ g selected : Globals} {i : Slot}

theorem getBoot.Calls.spec (h : getBoot.Calls d malloc k fuel g₀ g i)
    (hsize : DEFAULT_SECTOR_SIZE ≤ g₀.nextSectorSize k) (hstate : g₀.sectorSize < 2 ^ 32)
    (hfuel : MAXIMUM_PARTS + 2 ≤ fuel)
    : g.WellFormed ∧ g.partitions = 4 ∧ g.extendedOffset = 0 := by
  obtain ⟨started, pre, post, hstart, _, hrun, _, hpartitions⟩ := h
  obtain ⟨started', hstart', hwf, _, hunread⟩ := getBoot.start_wellFormed d hsize hstate
  obtain rfl := Except.ok.inj (hstart'.symm.trans hstart)
  obtain ⟨g', hrun', hwf', hunread'⟩ := foldlM_extended_spec d malloc hwf hunread pre hfuel
  obtain rfl := Except.ok.inj (hrun'.symm.trans hrun)
  exact ⟨hwf', hpartitions, hunread' hpartitions⟩

theorem chain_linked (h : getBoot.Calls d malloc k fuel g₀ g i)
    (hsize : DEFAULT_SECTOR_SIZE ≤ g₀.nextSectorSize k) (hstate : g₀.sectorSize < 2 ^ 32)
    (hfuel : MAXIMUM_PARTS + 2 ≤ fuel) (hstart : (g.part ⟨0, i⟩).getStartSect ≠ 0)
    (hchain : Loop.iterate .outOfFuel (chainStep d malloc) fuel (g.enterChain i, ⟨0, i⟩)
      = .ok (selected, .chainEnd))
    : selected.WellFormed ∧ 5 ≤ selected.partitions
        ∧ selected.extendedOffset = (g.part ⟨0, i⟩).getStartSect
        ∧ Segment selected.extendedOffset (some selected.extendedOffset) selected.chain none := by
  obtain ⟨hwf, hpartitions, hoffset⟩ := h.spec hsize hstate hfuel
  obtain ⟨_, _, _, _, _, _, hextended, _⟩ := h
  generalize hext : (g.part ⟨0, i⟩).getStartSect = ext at *
  have hlt : ext < 2 ^ 32 := by
    rw [← hext]
    exact Partition.getStartSect_lt
  have henter : (g.enterChain i).WellFormed :=
    hwf.setPrimary i { g.ptes i with extPointer := (g.ptes i).partTable } rfl rfl i
  have hfollowing : Following ext (g.enterChain i) ⟨0, i⟩ := by
    have hpart : (g.enterChain i).part ⟨0, i⟩ = g.part ⟨0, i⟩ := rfl
    have hempty : (g.enterChain i).chain = [] := by
      rw [Globals.chain, show (g.enterChain i).partitions = 4 from hpartitions]
      rfl
    refine ⟨?_, .inl ⟨hpartitions, hoffset⟩⟩
    rw [hempty, hpart, Partition.target, if_pos hextended, hext,
      show (g.enterChain i).extendedOffset = 0 from hoffset, Nat.zero_add]
    rfl
  obtain ⟨r, hr, hrwf, hend, _⟩ := chain_spec d malloc (Following ext)
    (fun _ _ _ _ hwf hinv hfollowed => hinv.step ⟨Nat.pos_of_ne_zero hstart, hlt⟩ hwf hfollowed)
    henter hfollowing hfuel
  obtain rfl := Except.ok.inj (hr.symm.trans hchain)
  obtain ⟨q, hinv, hlast⟩ := hend rfl
  obtain ⟨hfive, rfl, hlinked⟩ := hinv.stop hlast
  exact ⟨hrwf, hfive, rfl, hlinked⟩

theorem readExtended_keeps (h : getBoot.Calls d malloc k fuel g₀ g i)
    (hsize : DEFAULT_SECTOR_SIZE ≤ g₀.nextSectorSize k) (hstate : g₀.sectorSize < 2 ^ 32)
    (hfuel : MAXIMUM_PARTS + 2 ≤ fuel) (hstart : (g.part ⟨0, i⟩).getStartSect ≠ 0)
    (hchain : Loop.iterate .outOfFuel (chainStep d malloc) fuel (g.enterChain i, ⟨0, i⟩)
      = .ok (selected, .chainEnd))
    (hfits : ∀ j start, 4 ≤ j → j < selected.partitions →
      getPartitionStart selected (selected.ptes j) = .ok start →
      start < selected.extendedOffset + 2 ^ 32)
    : ∃ next, readExtended d malloc fuel g i = .ok next
        ∧ nonEmpty next.chain = nonEmpty selected.chain
        ∧ (∀ j, 4 ≤ j → j < next.partitions → (next.logical j).part.getNrSects = 0 →
          next.partitions = 5 ∧ (next.logical 4).part.sysInd = 0)
        ∧ next.Chained := by
  obtain ⟨hwf, hfive, hext, hlinked⟩ := chain_linked h hsize hstate hfuel hstart hchain
  have hlt : selected.extendedOffset < 2 ^ 32 := by
    rw [hext]
    exact Partition.getStartSect_lt
  have hselected : Fits selected.extendedOffset selected.chain := by
    intro e he
    obtain ⟨j, hj, rfl⟩ := List.mem_map.mp he
    rw [List.mem_range'_1] at hj
    have hjlt : j < selected.partitions := by omega
    have hchained := Globals.chained_of_linked hfive hlinked
    exact ⟨hchained.le_start hlt hj.1 hjlt,
      hfits j _ hj.1 hjlt (getPartitionStart_eq hwf hj.1 hjlt)⟩
  let Inv (next : Globals) : Prop :=
    next.extendedOffset = selected.extendedOffset ∧ 5 ≤ next.partitions
      ∧ Segment selected.extendedOffset (some selected.extendedOffset) next.chain none
      ∧ Fits selected.extendedOffset next.chain ∧ nonEmpty next.chain = nonEmpty selected.chain
  have hkeep : ∀ (g next : Globals) (j : Nat), g.WellFormed → Inv g → 4 ≤ j → j < g.partitions →
      (g.logical j).part.getNrSects = 0 → next.extendedOffset = g.extendedOffset →
      g.Deleted j next → Inv next := by
    intro g next j _ ⟨hoffset, _, hg, hgfits, hsame⟩ hle hjlt hempty hnext hdeleted
    rw [← hoffset] at hg hgfits hlt
    have hdrops := hdeleted.drops hle hjlt hempty hlt hg hgfits
    rw [hoffset] at hg hgfits hdrops hnext
    exact ⟨hnext, hdeleted.five_le hjlt, hdrops.linked hg, hdrops.fits hg hgfits,
      hdrops.nonEmpty_eq.trans hsame⟩
  obtain ⟨next, hnext, _, hinv, hclean⟩ :=
    remove_spec Inv hkeep hwf ⟨rfl, hfive, hlinked, hselected, rfl⟩ hfuel
  obtain ⟨hoffset, hnextfive, hnextlinked, _, hsame⟩ := hinv
  refine ⟨next, ?_, hsame, ?_, ?_⟩
  . rw [readExtended_eq (h.spec hsize hstate hfuel).1, if_neg hstart, hchain]
    exact hnext
  . intro j hle hjlt hempty
    have hnot := not_or.mp (hclean j hle hjlt hempty)
    rw [← Globals.firstSysInd_eq]
    exact ⟨by omega, not_not.mp hnot.2⟩
  . rw [← hoffset] at hnextlinked
    exact Globals.chained_of_linked hnextfive hnextlinked

/--
A device with an extended partition in which the first of two logical partitions is empty.
-/
def Device.emptyLink : Device where
  byte i :=
    match i with
    | 450 => 0x05
    | 454 => 1
    | 458 => 2
    | 510 => 0x55
    | 511 => 0xaa
    | 978 => 0x05
    | 982 => 1
    | 986 => 1
    | 1474 => 0x83
    | 1478 => 1
    | 1482 => 1
    | _ => 0
  size := 2 ^ 30
  seeks _ := true

def Device.emptyLink.reads : Bool :=
  match getBoot.start .emptyLink (.mmc 512 (2 ^ 30)) .initial with
  | .error _ => false
  | .ok g =>
    match Loop.iterate .outOfFuel (chainStep .emptyLink fun _ _ => 0) 62
      (g.enterChain 0, ⟨0, 0⟩) with
    | .ok (selected, .chainEnd) =>
      IS_EXTENDED (g.part ⟨0, 0⟩).sysInd && g.partitions = 4
        && (g.part ⟨0, 0⟩).getStartSect = 1 && selected.partitions = 6
        && (selected.logical 4).seen.start = 1 && (selected.logical 5).seen.start = 3
    | _ => false

theorem readExtended_keeps_emptyLink
    : ∃ g selected next,
        getBoot.Calls .emptyLink (fun _ _ => 0) (.mmc 512 (2 ^ 30)) 62 .initial g 0
          ∧ Loop.iterate .outOfFuel (chainStep .emptyLink fun _ _ => 0) 62 (g.enterChain 0, ⟨0, 0⟩)
            = .ok (selected, .chainEnd)
          ∧ readExtended .emptyLink (fun _ _ => 0) 62 g 0 = .ok next
          ∧ nonEmpty next.chain = nonEmpty selected.chain
          ∧ (∀ j, 4 ≤ j → j < next.partitions → (next.logical j).part.getNrSects = 0 →
            next.partitions = 5 ∧ (next.logical 4).part.sysInd = 0)
          ∧ next.Chained := by
  have hreads : Device.emptyLink.reads = true := by decide +kernel
  unfold Device.emptyLink.reads at hreads
  split at hreads
  . cases hreads
  . next g hstarted =>
    split at hreads
    . next selected hchain =>
      simp only [Bool.and_eq_true, decide_eq_true_eq] at hreads
      obtain ⟨⟨⟨⟨⟨hextended, hfour⟩, hstart⟩, hsix⟩, hfirst⟩, hsecond⟩ := hreads
      have hcalls : getBoot.Calls .emptyLink (fun _ _ => 0) (.mmc 512 (2 ^ 30)) 62 .initial g 0 :=
        ⟨g, [], [1, 2, 3], hstarted, rfl, rfl, hextended, hfour⟩
      have hnonzero : (g.part ⟨0, 0⟩).getStartSect ≠ 0 := by omega
      obtain ⟨hwf, _, hext, _⟩ := chain_linked hcalls (by decide) (by decide) (by decide) hnonzero
        hchain
      obtain ⟨next, hnext⟩ := readExtended_keeps hcalls (by decide) (by decide) (by decide) hnonzero
        hchain (by
          intro j start hle hlt hj
          rw [getPartitionStart_eq hwf hle hlt] at hj
          rw [← Except.ok.inj hj, hext, hstart]
          obtain rfl | rfl : j = 4 ∨ j = 5 := by omega
          . rw [hfirst]
            decide
          . rw [hsecond]
            decide)
      exact ⟨g, selected, next, hcalls, hchain, hnext⟩
    . cases hreads

end ReadExtended

end FsBench.Fdisk
