import FsBench.Bench.Directory
import FsBench.Lib.Moves
import Mathlib.Data.Set.Finite.Basic

/-!
The walk of `sys_file_read_dir_file` with `rename_test`, one call of `readdir` after the other, over
the directory that it changes.
-/

namespace FsBench

structure Dir.Content (d : Dir) : Prop where
  finite : {name | d name ≠ none}.Finite
  length_pos : ∀ name, d name ≠ none → 0 < name.length
  length_le : ∀ name, d name ≠ none → name.length ≤ 255
  no_slash : ∀ name, d name ≠ none → '/' ∉ name
  not_dot : ∀ name, d name ≠ none → ¬isDot name

def renamePass (readdir : Nat → Option CStr) (d : Dir) : Nat → Option Walk
  | 0 => some (.opendir d)
  | k + 1 => do
    let pass ← renamePass readdir d k
    let name ← readdir k
    pass.step renameTest name true

structure Enumeration (d : Dir) where
  readdir : Nat → Option CStr
  returns : ∀ k pass, renamePass readdir d k = some pass → pass.scan.Returns (readdir k)
  ended : ∀ k, readdir k = none → readdir (k + 1) = none

namespace Enumeration

variable {d : Dir} (e : Enumeration d)

def pass (k : Nat) : Option Walk :=
  renamePass e.readdir d k

/--
Every call of the walk succeeds, as far as a buffer that it needs is long enough.
-/
def Succeeds : Prop :=
  ∀ k pass name, e.pass k = some pass → e.readdir k = some name → ¬isDot name →
    stat pass.dir (entryPath name) ≠ none
      ∧ ∀ newfilename, sprintf 256 (entryPath name ++ RENAMED) = some newfilename →
        FsBench.rename pass.dir (entryPath name) newfilename ≠ none

/--
The walk ends, and every entry has been renamed once, wherever it has been in between.
-/
def RenamesOnce : Prop :=
  ∃ k pass, e.pass k = some pass ∧ e.readdir k = none
    ∧ ∀ name, d name ≠ none → Moves.movesOf (entryPath name) pass.renames
      = [(entryPath name, entryPath name ++ RENAMED)]

def Fits : Prop :=
  ∀ k pass name, e.pass k = some pass → e.readdir k = some name → ¬isDot name →
    (MOUNT_PATH ++ ['/'] ++ name).length < 512 ∧ (entryPath name ++ RENAMED).length < 256

/--
The names leave room for the suffix, and no entry is returned before one whose name it gets.
-/
structure InOrder : Prop where
  short : ∀ name, d name ≠ none → name.length ≤ 235
  renamed_lt : ∀ i j name, e.readdir i = some name → ¬isDot name →
    e.readdir j = some (name ++ RENAMED) → j < i
  returned : ∀ i name, e.readdir i = some name → ¬isDot name → d (name ++ RENAMED) ≠ none →
    ∃ j, e.readdir j = some (name ++ RENAMED)

end Enumeration

theorem entryPath_injective {m n : CStr} (hm : m.length ≤ 255) (hn : n.length ≤ 255)
    (h : entryPath m = entryPath n) : m = n := by
  rw [entryPath_eq hm, entryPath_eq hn] at h
  exact List.append_cancel_left h

namespace Enumeration

variable {d : Dir} {e : Enumeration d} {k : Nat} {pass : Walk}

theorem renamePass_succ {readdir : Nat → Option CStr} (h : renamePass readdir d (k + 1) = some pass)
    : ∃ before name, renamePass readdir d k = some before ∧ readdir k = some name
        ∧ before.step renameTest name true = some pass := by
  obtain ⟨before, hbefore, h⟩ := Option.bind_eq_some_iff.mp h
  obtain ⟨name, hname, h⟩ := Option.bind_eq_some_iff.mp h
  exact ⟨before, name, hbefore, hname, h⟩

theorem pass_succ (h : e.pass (k + 1) = some pass)
    : ∃ before name, e.pass k = some before ∧ e.readdir k = some name
        ∧ before.step renameTest name true = some pass :=
  renamePass_succ h

theorem pass_succ_eq {name : CStr} (h : e.pass k = some pass) (hname : e.readdir k = some name)
    : e.pass (k + 1) = pass.step renameTest name true := by
  rw [Enumeration.pass] at h ⊢
  rw [renamePass, h, Option.bind_eq_bind, Option.bind_some, hname]
  rfl

theorem readdir_none {i j : Nat} (h : e.readdir i = none) (hle : i ≤ j) : e.readdir j = none := by
  induction j, hle using Nat.le_induction with
  | base => exact h
  | succ j _ ih => exact e.ended j ih

theorem pass_le {l : Nat} {last : Walk} (hle : k ≤ l) (h : e.pass l = some last)
    : ∃ pass more, e.pass k = some pass ∧ last.renames = pass.renames ++ more := by
  induction l, hle using Nat.le_induction generalizing last with
  | base => exact ⟨last, [], h, (List.append_nil _).symm⟩
  | succ l _ ih =>
    obtain ⟨before, name, hbefore, _, hstep⟩ := pass_succ h
    obtain ⟨pass, more, hpass, hmore⟩ := ih hbefore
    by_cases hdot : isDot name
    . rw [Walk.step_dot hdot] at hstep
      cases hstep
      exact ⟨pass, more, hpass, hmore⟩
    . have hrenames := (Walk.renames_of_step hstep hdot).renames_eq
      rw [hmore, List.append_assoc] at hrenames
      exact ⟨pass, _, hpass, hrenames⟩

structure Inv (e : Enumeration d) (k : Nat) (pass : Walk) : Prop where
  pending_iff : ∀ n, pass.scan.pending n ↔ d n ≠ none
    ∧ ∀ i < k, ∀ m, e.readdir i = some m → ¬isDot m → n ≠ m ∧ n ≠ m ++ RENAMED
  short : ∀ i < k, ∀ m, e.readdir i = some m → ¬isDot m → m.length ≤ 235
  dot : ∀ n, isDot n → pass.scan.created n → ∀ i < k, ∀ m, e.readdir i = some m → m ≠ n
  created : ∀ n, ¬isDot n → pass.scan.created n →
    ∃ i < k, ∃ m, e.readdir i = some m ∧ ¬isDot m ∧ n = m ++ RENAMED
  untouched : ∀ n, pass.scan.pending n →
    Moves.whereabouts (entryPath n) pass.renames = some (entryPath n)
      ∧ Moves.movesOf (entryPath n) pass.renames = []
  renamed : ∀ n, ¬isDot n → pass.scan.created n →
    ∃ m, d m ≠ none ∧ Moves.whereabouts (entryPath m) pass.renames = some (entryPath n)
      ∧ Moves.movesOf (entryPath m) pass.renames ≠ []

theorem Inv.start {pass : Walk} (h : e.pass 0 = some pass) : Inv e 0 pass := by
  cases h
  refine ⟨?_, ?_, ?_, ?_, ?_, ?_⟩
  . intro n
    simp [Walk.opendir, Scan.opendir]
  . simp
  . simp
  . intro n hdot hcreated
    exact absurd hcreated hdot
  . intro n _
    exact ⟨rfl, rfl⟩
  . intro n hdot hcreated
    exact absurd hcreated hdot

theorem readdir_succ {P : CStr → Prop} {name : CStr} (hname : e.readdir k = some name)
    : (∀ i < k + 1, ∀ m, e.readdir i = some m → P m)
      ↔ (∀ i < k, ∀ m, e.readdir i = some m → P m) ∧ P name := by
  constructor
  . intro h
    exact ⟨fun i hi => h i (by omega), h k (by omega) name hname⟩
  . intro ⟨hall, hlast⟩ i hi m hm
    cases Nat.lt_succ_iff_lt_or_eq.mp hi with
    | inl hlt => exact hall i hlt m hm
    | inr heq =>
      rw [heq, hname] at hm
      rw [← Option.some.inj hm]
      exact hlast

theorem Inv.skip {name : CStr} (hinv : Inv e k pass)
    (hname : e.readdir k = some name) (hdot : isDot name)
    : Inv e (k + 1) { pass with scan := pass.scan.skip name } := by
  refine ⟨?_, ?_, ?_, ?_, ?_, ?_⟩
  . intro n
    rw [readdir_succ hname]
    dsimp only [Scan.skip]
    rw [hinv.pending_iff]
    constructor
    . intro ⟨hn, hall⟩
      exact ⟨hn, hall, fun hnot => absurd hdot hnot⟩
    . intro ⟨hn, hall, _⟩
      exact ⟨hn, hall⟩
  . rw [readdir_succ hname]
    exact ⟨hinv.short, fun hnot => absurd hdot hnot⟩
  . intro n hn hcreated
    rw [readdir_succ hname]
    exact ⟨hinv.dot n hn hcreated.1, hcreated.2.symm⟩
  . intro n hn hcreated
    obtain ⟨i, hi, m, hm⟩ := hinv.created n hn hcreated.1
    exact ⟨i, by omega, m, hm⟩
  . exact hinv.untouched
  . intro n hn hcreated
    exact hinv.renamed n hn hcreated.1

theorem other_paths {name n : CStr} (hshort : name.length ≤ 235) (hn : n.length ≤ 255)
    (hne : n ≠ name) (hne' : n ≠ name ++ RENAMED)
    : entryPath name ≠ entryPath n ∧ entryPath (name ++ RENAMED) ≠ entryPath n := by
  have hsuffix : RENAMED.length = 7 := by decide
  have hlen : (name ++ RENAMED).length ≤ 255 := by
    rw [List.length_append]
    omega
  exact ⟨fun heq => hne (entryPath_injective (by omega) hn heq).symm,
    fun heq => hne' (entryPath_injective hlen hn heq).symm⟩

theorem Inv.renamed_now {next : Walk} {name : CStr} (hinv : Inv e k pass) (hdot : ¬isDot name)
    (h : pass.Renames name next) (hreturns : pass.scan.pending name ∨ pass.scan.created name)
    : ∃ m, d m ≠ none
        ∧ Moves.whereabouts (entryPath m) next.renames = some (entryPath (name ++ RENAMED))
        ∧ Moves.movesOf (entryPath m) next.renames ≠ [] := by
  have hfrom : ∃ m, d m ≠ none
      ∧ Moves.whereabouts (entryPath m) pass.renames = some (entryPath name) := by
    cases hreturns with
    | inl hpending =>
      exact ⟨name, ((hinv.pending_iff name).mp hpending).1, (hinv.untouched name hpending).1⟩
    | inr hcreated =>
      obtain ⟨m, hm, hwhere, _⟩ := hinv.renamed name hdot hcreated
      exact ⟨m, hm, hwhere⟩
  obtain ⟨m, hm, hwhere⟩ := hfrom
  obtain ⟨hwhere', hmoves⟩ := Moves.moved (entryPath (name ++ RENAMED)) hwhere
  rw [h.renames_eq]
  refine ⟨m, hm, hwhere', ?_⟩
  rw [hmoves]
  simp

theorem Inv.rename {next : Walk} {name : CStr} (hcontent : d.Content) (hinv : Inv e k pass)
    (hname : e.readdir k = some name) (hdot : ¬isDot name) (h : pass.Renames name next)
    (hreturns : pass.scan.pending name ∨ pass.scan.created name)
    : Inv e (k + 1) next := by
  have hsuffix : RENAMED.length = 7 := by decide
  refine ⟨?_, ?_, ?_, ?_, ?_, ?_⟩
  . intro n
    rw [readdir_succ hname, h.pending_iff, hinv.pending_iff, forall_prop_of_true hdot, and_assoc]
  . rw [readdir_succ hname]
    exact ⟨hinv.short, fun _ => h.short⟩
  . intro n hn hcreated
    rw [readdir_succ hname]
    refine ⟨?_, fun heq => hdot (heq ▸ hn)⟩
    rcases (h.created_iff n).mp hcreated with ⟨hcreated, _⟩ | rfl
    . exact hinv.dot n hn hcreated
    . exact absurd hn (not_isDot_renamed name)
  . intro n hn hcreated
    rcases (h.created_iff n).mp hcreated with ⟨hcreated, _⟩ | heq
    . obtain ⟨i, hi, m, hm⟩ := hinv.created n hn hcreated
      exact ⟨i, by omega, m, hm⟩
    . exact ⟨k, by omega, name, hname, hdot, heq⟩
  . intro n hn
    obtain ⟨hn, hne, hne'⟩ := (h.pending_iff n).mp hn
    obtain ⟨hsource, hgoal⟩ :=
      other_paths h.short (hcontent.length_le n ((hinv.pending_iff n).mp hn).1) hne hne'
    obtain ⟨hwhere, hmoves⟩ := hinv.untouched n hn
    obtain ⟨hwhere', hmoves'⟩ := Moves.kept hwhere hsource hgoal
    rw [h.renames_eq]
    exact ⟨hwhere', hmoves'.trans hmoves⟩
  . intro n hn hcreated
    by_cases heq : n = name ++ RENAMED
    . rw [heq]
      exact hinv.renamed_now hdot h hreturns
    . rcases (h.created_iff n).mp hcreated with ⟨hcreated, hne⟩ | heq'
      . obtain ⟨i, hi, m, hm, hmdot, rfl⟩ := hinv.created n hn hcreated
        have hshort := hinv.short i hi m hm hmdot
        obtain ⟨hsource, hgoal⟩ :=
          other_paths h.short (by rw [List.length_append]; omega) hne heq
        obtain ⟨m', hm', hwhere, hmoves⟩ := hinv.renamed _ hn hcreated
        obtain ⟨hwhere', hmoves'⟩ := Moves.kept hwhere hsource hgoal
        rw [h.renames_eq]
        rw [← hmoves'] at hmoves
        exact ⟨m', hm', hwhere', hmoves⟩
      . exact absurd heq' heq

theorem inv (hcontent : d.Content) (h : e.pass k = some pass) : Inv e k pass := by
  induction k generalizing pass with
  | zero => exact .start h
  | succ k ih =>
    obtain ⟨before, name, hbefore, hname, hstep⟩ := pass_succ h
    by_cases hdot : isDot name
    . rw [Walk.step_dot hdot] at hstep
      cases hstep
      exact (ih hbefore).skip hname hdot
    . have hreturns := e.returns k before hbefore
      rw [hname] at hreturns
      exact (ih hbefore).rename hcontent hname hdot (Walk.renames_of_step hstep hdot) hreturns

theorem lt_of_readdir {i l : Nat} {name : CStr} (hend : e.readdir l = none)
    (h : e.readdir i = some name) : i < l := by
  by_contra hle
  cases (readdir_none hend (Nat.le_of_not_lt hle)).symm.trans h

theorem pass_of_readdir {i l : Nat} {last : Walk} {name : CStr} (hlast : e.pass l = some last)
    (hend : e.readdir l = none) (hname : e.readdir i = some name) (hdot : ¬isDot name)
    : ∃ pass next more, e.pass i = some pass ∧ pass.Renames name next
        ∧ last.renames = next.renames ++ more := by
  have hlt := lt_of_readdir hend hname
  obtain ⟨pass, _, hpass, _⟩ := pass_le hlt.le hlast
  obtain ⟨next, more, hnext, hmore⟩ := pass_le hlt hlast
  rw [pass_succ_eq hpass hname] at hnext
  exact ⟨pass, next, more, hpass, Walk.renames_of_step hnext hdot, hmore⟩

section Once

variable {l : Nat} {last : Walk}

theorem pending_of_once (hcontent : d.Content) (hlast : e.pass l = some last)
    (hend : e.readdir l = none)
    (honce : ∀ name, d name ≠ none → Moves.movesOf (entryPath name) last.renames
      = [(entryPath name, entryPath name ++ RENAMED)])
    {i : Nat} {name : CStr} (hpass : e.pass i = some pass) (hname : e.readdir i = some name)
    (hdot : ¬isDot name) : pass.scan.pending name := by
  have hreturns := e.returns i pass hpass
  rw [hname] at hreturns
  cases hreturns with
  | inl hpending => exact hpending
  | inr hcreated =>
    obtain ⟨pass', next, more, hpass', h, hmore⟩ := pass_of_readdir hlast hend hname hdot
    obtain rfl : pass' = pass := Option.some.inj (hpass'.symm.trans hpass)
    obtain ⟨m, hm, hwhere, hmoves⟩ := (inv hcontent hpass).renamed name hdot hcreated
    obtain ⟨_, hmoves'⟩ := Moves.moved (entryPath (name ++ RENAMED)) hwhere
    have hprefix : (Moves.movesOf (entryPath m) next.renames).length
        ≤ (Moves.movesOf (entryPath m) (next.renames ++ more)).length :=
      (Moves.movesOf_prefix more).length_le
    rw [← hmore, honce m hm, h.renames_eq, hmoves', List.length_append] at hprefix
    have hpos := List.length_pos_iff.mpr hmoves
    simp only [List.length_singleton] at hprefix
    omega

theorem later_of_once (hcontent : d.Content) (h : e.RenamesOnce) {i j : Nat} {name : CStr}
    (hi : e.readdir i = some name) (hdot : ¬isDot name) (hlt : i < j)
    : e.readdir j ≠ some name ∧ e.readdir j ≠ some (name ++ RENAMED) := by
  obtain ⟨l, last, hlast, hend, honce⟩ := h
  have hnot {n : CStr} (hn : n = name ∨ n = name ++ RENAMED) (hj : e.readdir j = some n)
      : False := by
    have hndot : ¬isDot n := by
      rcases hn with rfl | rfl
      . exact hdot
      . exact not_isDot_renamed name
    obtain ⟨pass, _, _, hpass, _, _⟩ := pass_of_readdir hlast hend hj hndot
    have hpending := pending_of_once hcontent hlast hend honce hpass hj hndot
    obtain ⟨hne, hne'⟩ := (((inv hcontent hpass).pending_iff n).mp hpending).2 i hlt name hi hdot
    exact hn.elim hne hne'
  exact ⟨hnot (.inl rfl), hnot (.inr rfl)⟩

theorem returned_of_once (hcontent : d.Content) (h : e.RenamesOnce) {i : Nat} {name : CStr}
    (hi : e.readdir i = some name) (hdot : ¬isDot name) (hpresent : d (name ++ RENAMED) ≠ none)
    : ∃ j, e.readdir j = some (name ++ RENAMED) := by
  have hlater := @later_of_once _ _ hcontent h
  obtain ⟨l, last, hlast, hend, honce⟩ := h
  by_contra hnever
  have hnever : ∀ j, e.readdir j ≠ some (name ++ RENAMED) := fun j hj => hnever ⟨j, hj⟩
  obtain ⟨pass, next, more, hpass, hrenames, hmore⟩ := pass_of_readdir hlast hend hi hdot
  have hinv := inv hcontent hpass
  have hpending : pass.scan.pending (name ++ RENAMED) := by
    refine (hinv.pending_iff _).mpr ⟨hpresent, ?_⟩
    intro i' hlt m hm hmdot
    refine ⟨fun heq => hnever i' (heq ▸ hm), ?_⟩
    intro heq
    rw [← List.append_cancel_right heq] at hm
    exact (hlater hm hdot hlt).1 hi
  obtain ⟨hwhere, hmoves⟩ := hinv.untouched _ hpending
  have hne : entryPath name ≠ entryPath (name ++ RENAMED) := by
    intro heq
    have hshort := hrenames.short
    have hlen := hcontent.length_le _ hpresent
    exact ne_renamed name (entryPath_injective (by omega) hlen heq)
  -- It has no rename of its own any more, once it is replaced.
  have hlost := Moves.replaced hwhere hne more
  rw [← hrenames.renames_eq, ← hmore, hmoves, honce _ hpresent] at hlost
  cases hlost

theorem short_of_once (hcontent : d.Content) (h : e.RenamesOnce) {name : CStr}
    (hpresent : d name ≠ none) : name.length ≤ 235 := by
  have hreturned := @returned_of_once _ _ hcontent h
  obtain ⟨l, last, hlast, hend, _⟩ := h
  have hinv := inv hcontent hlast
  have hnot : ¬last.scan.pending name := by
    have hreturns := e.returns l last hlast
    rw [hend] at hreturns
    exact hreturns name
  have hshort {j : Nat} (hj : e.readdir j = some name) : name.length ≤ 235 :=
    hinv.short j (lt_of_readdir hend hj) name hj (hcontent.not_dot name hpresent)
  by_contra hlong
  apply hnot
  refine (hinv.pending_iff name).mpr ⟨hpresent, ?_⟩
  intro i _ m hm hmdot
  refine ⟨fun heq => hlong (hshort (heq ▸ hm)), ?_⟩
  intro heq
  rw [heq] at hpresent
  obtain ⟨j, hj⟩ := hreturned hm hmdot hpresent
  exact hlong (hshort (heq ▸ hj))

theorem inOrder_of_once (hcontent : d.Content) (h : e.RenamesOnce) : e.InOrder := by
  refine ⟨fun name => short_of_once hcontent h, ?_, fun i name => returned_of_once hcontent h⟩
  intro i j name hi hdot hj
  by_contra hle
  rcases Nat.lt_or_eq_of_le (Nat.le_of_not_lt hle) with hlt | rfl
  . exact (later_of_once hcontent h hi hdot hlt).2 hj
  . exact ne_renamed name (Option.some.inj (hi.symm.trans hj))

end Once

section InOrder

variable (hcontent : d.Content) (h : e.InOrder)
include hcontent h

theorem InOrder.pending {name : CStr} (hpass : e.pass k = some pass)
    (hname : e.readdir k = some name) (hdot : ¬isDot name) : pass.scan.pending name := by
  have hreturns := e.returns k pass hpass
  rw [hname] at hreturns
  cases hreturns with
  | inl hpending => exact hpending
  | inr hcreated =>
    obtain ⟨i, hi, m, hm, hmdot, rfl⟩ := (inv hcontent hpass).created name hdot hcreated
    have hlt := h.renamed_lt i k m hm hmdot hname
    omega

theorem InOrder.short_of_readdir {name : CStr} (hpass : e.pass k = some pass)
    (hname : e.readdir k = some name) (hdot : ¬isDot name) : name.length ≤ 235 :=
  h.short name (((inv hcontent hpass).pending_iff name).mp (h.pending hcontent hpass hname hdot)).1

theorem InOrder.fits : e.Fits := by
  intro k pass name hpass hname hdot
  have hshort := h.short_of_readdir hcontent hpass hname hdot
  have hmount : MOUNT_PATH.length = 12 := by decide
  refine ⟨?_, newfilename_fits_iff.mpr hshort⟩
  simp only [List.length_append, List.length_singleton]
  omega

theorem InOrder.pass_some (hok : e.Succeeds) (hgoes : ∀ i < k, e.readdir i ≠ none)
    : ∃ pass, e.pass k = some pass := by
  induction k with
  | zero => exact ⟨_, rfl⟩
  | succ k ih =>
    obtain ⟨pass, hpass⟩ := ih fun i hi => hgoes i (by omega)
    obtain ⟨name, hname⟩ := Option.ne_none_iff_exists'.mp (hgoes k (by omega))
    rw [pass_succ_eq hpass hname]
    by_cases hdot : isDot name
    . exact ⟨_, Walk.step_dot hdot⟩
    . have hshort := h.short_of_readdir hcontent hpass hname hdot
      have hsprintf : sprintf 256 (entryPath name ++ RENAMED)
          = some (entryPath (name ++ RENAMED)) := by
        rw [sprintf, if_pos (newfilename_fits_iff.mpr hshort), entryPath_renamed hshort]
      obtain ⟨dir, hdir⟩ :=
        Option.ne_none_iff_exists'.mp ((hok k pass name hpass hname hdot).2 _ hsprintf)
      exact Walk.step_renames hdot hshort hdir

theorem InOrder.renamed (hpass : e.pass k = some pass)
    : ∀ i < k, ∀ name, e.readdir i = some name → ¬isDot name →
        Moves.whereabouts (entryPath name) pass.renames = some (entryPath (name ++ RENAMED))
          ∧ Moves.movesOf (entryPath name) pass.renames
            = [(entryPath name, entryPath (name ++ RENAMED))] := by
  induction k generalizing pass with
  | zero => intro i hi; omega
  | succ k ih =>
    obtain ⟨before, name, hbefore, hname, hstep⟩ := pass_succ hpass
    have hinv := inv hcontent hbefore
    by_cases hdot : isDot name
    . rw [Walk.step_dot hdot] at hstep
      cases hstep
      have hall := ih hbefore
      rw [readdir_succ (P := fun n => ¬isDot n → _ ∧ _) hname]
      exact ⟨hall, fun hnot => absurd hdot hnot⟩
    . have hrenames := Walk.renames_of_step hstep hdot
      have hpending := h.pending hcontent hbefore hname hdot
      rw [readdir_succ (P := fun n => ¬isDot n → _ ∧ _) hname, hrenames.renames_eq]
      constructor
      . intro i hi n hn hndot
        obtain ⟨hwhere, hmoves⟩ := ih hbefore i hi n hn hndot
        have hshort := hinv.short i hi n hn hndot
        have hshort' := hrenames.short
        have hsuffix : RENAMED.length = 7 := by decide
        obtain ⟨hne, hne'⟩ := ((hinv.pending_iff name).mp hpending).2 i hi n hn hndot
        have hsource : entryPath name ≠ entryPath (n ++ RENAMED) := by
          intro heq
          exact hne' (entryPath_injective (by omega) (by rw [List.length_append]; omega) heq)
        have hgoal : entryPath (name ++ RENAMED) ≠ entryPath (n ++ RENAMED) := by
          intro heq
          have := entryPath_injective (by rw [List.length_append]; omega)
            (by rw [List.length_append]; omega) heq
          exact hne (List.append_cancel_right this)
        obtain ⟨hwhere', hmoves'⟩ := Moves.kept hwhere hsource hgoal
        exact ⟨hwhere', hmoves'.trans hmoves⟩
      . intro _
        obtain ⟨hwhere, hmoves⟩ := hinv.untouched name hpending
        obtain ⟨hwhere', hmoves'⟩ := Moves.moved (entryPath (name ++ RENAMED)) hwhere
        refine ⟨hwhere', ?_⟩
        rw [hmoves', hmoves]
        rfl

theorem InOrder.terminates (hok : e.Succeeds) : ∃ k, e.readdir k = none := by
  -- no name is returned twice, so the names of the directory run out
  by_contra hnever
  have hgoes (k : Nat) : e.readdir k ≠ none := fun hend => hnever ⟨k, hend⟩
  choose name hname using fun k => Option.ne_none_iff_exists'.mp (hgoes k)
  have hall (k : Nat) : ∃ pass, e.pass k = some pass :=
    h.pass_some hcontent hok fun i _ => hgoes i
  have hinjective : Function.Injective name := by
    have hne {i j : Nat} (hlt : i < j) : name i ≠ name j := by
      intro heq
      obtain ⟨pass, hpass⟩ := hall j
      have hinv := inv hcontent hpass
      by_cases hdot : isDot (name j)
      . have hreturns := e.returns j pass hpass
        rw [hname j] at hreturns
        cases hreturns with
        | inl hpending =>
          exact hcontent.not_dot _ ((hinv.pending_iff _).mp hpending).1 hdot
        | inr hcreated => exact hinv.dot _ hdot hcreated i hlt _ (hname i) heq
      . have hpending := h.pending hcontent hpass (hname j) hdot
        have hbefore := ((hinv.pending_iff _).mp hpending).2 i hlt _ (hname i) (heq ▸ hdot)
        exact hbefore.1 heq.symm
    intro i j heq
    rcases Nat.lt_trichotomy i j with hlt | hij | hgt
    . exact absurd heq (hne hlt)
    . exact hij
    . exact absurd heq.symm (hne hgt)
  have hrange : Set.range name ⊆ {n | d n ≠ none} ∪ {['.'], ['.', '.']} := by
    rintro _ ⟨k, rfl⟩
    obtain ⟨pass, hpass⟩ := hall k
    by_cases hdot : isDot (name k)
    . exact .inr hdot
    . have hpending := h.pending hcontent hpass (hname k) hdot
      exact .inl (((inv hcontent hpass).pending_iff _).mp hpending).1
  have hfinite := (hcontent.finite.union (Set.toFinite {['.'], ['.', '.']})).subset hrange
  exact Set.infinite_range_of_injective hinjective hfinite

theorem InOrder.once (hok : e.Succeeds) : e.RenamesOnce := by
  have hend := h.terminates hcontent hok
  obtain ⟨pass, hpass⟩ := h.pass_some hcontent hok fun i hi => Nat.find_min hend hi
  have hend := Nat.find_spec hend
  have hinv := inv hcontent hpass
  refine ⟨_, pass, hpass, hend, ?_⟩
  intro name hpresent
  have hdot := hcontent.not_dot name hpresent
  have hreturned : ∃ i, e.readdir i = some name := by
    by_contra hnever
    have hreturns := e.returns _ pass hpass
    rw [hend] at hreturns
    refine hreturns name ((hinv.pending_iff name).mpr ⟨hpresent, ?_⟩)
    intro i _ m hm hmdot
    refine ⟨fun heq => hnever ⟨i, heq ▸ hm⟩, ?_⟩
    intro heq
    rw [heq] at hpresent hnever
    exact hnever (h.returned i m hm hmdot hpresent)
  obtain ⟨i, hi⟩ := hreturned
  rw [(h.renamed hcontent hpass i (lt_of_readdir hend hi) name hi hdot).2,
    entryPath_renamed (h.short name hpresent)]

end InOrder

theorem renamesOnce_iff (hcontent : d.Content) (hok : e.Succeeds)
    : e.RenamesOnce ∧ e.Fits ↔ e.InOrder := by
  constructor
  . intro ⟨honce, _⟩
    exact inOrder_of_once hcontent honce
  . intro h
    exact ⟨h.once hcontent hok, h.fits hcontent⟩

def twoFiles : Dir := fun name =>
  if name = ['a'] ∨ name = ['b'] then some (.file []) else none

theorem twoFiles_name {name : CStr} (h : twoFiles name ≠ none) : name = ['a'] ∨ name = ['b'] := by
  by_contra hne
  exact h (if_neg hne)

theorem twoFiles_content : twoFiles.Content := by
  refine ⟨(Set.toFinite {['a'], ['b']}).subset fun name h => twoFiles_name h, ?_, ?_, ?_, ?_⟩ <;>
  . intro name h
    rcases twoFiles_name h with rfl | rfl <;> decide

theorem rename_of_free {d : Dir} {name : CStr} (hshort : name.length ≤ 235)
    (hpresent : d name ≠ none) (hfree : d (name ++ RENAMED) = none)
    : stat d (entryPath name) ≠ none
      ∧ ∀ newfilename, sprintf 256 (entryPath name ++ RENAMED) = some newfilename →
        FsBench.rename d (entryPath name) newfilename ≠ none := by
  refine ⟨by rwa [stat_entryPath (by omega)], ?_⟩
  intro newfilename hnew
  rw [sprintf, if_pos (newfilename_fits_iff.mpr hshort), entryPath_renamed hshort] at hnew
  cases hnew
  rw [(Walk.rename_eq_some_iff hshort).mpr ⟨hpresent, .inl hfree, rfl⟩]
  exact Option.some_ne_none _

section TwoFiles

variable (names : List CStr)

theorem twoFiles_first (hname : names[0]? = some ['a'])
    (h : renamePass (names[·]?) twoFiles 1 = some pass)
    : (Walk.opendir twoFiles).Renames ['a'] pass := by
  obtain ⟨before, name, hbefore, hname', h⟩ := renamePass_succ h
  cases hbefore
  obtain rfl : name = ['a'] := Option.some.inj (hname'.symm.trans hname)
  exact Walk.renames_of_step h (by decide)

theorem twoFiles_second (hname : names[0]? = some ['a']) (hsecond : names[1]? = some ['b'])
    (h : renamePass (names[·]?) twoFiles 2 = some pass)
    : ∃ mid, (Walk.opendir twoFiles).Renames ['a'] mid ∧ mid.Renames ['b'] pass := by
  obtain ⟨before, name, hbefore, hname', h⟩ := renamePass_succ h
  obtain rfl : name = ['b'] := Option.some.inj (hname'.symm.trans hsecond)
  exact ⟨before, twoFiles_first names hname hbefore, Walk.renames_of_step h (by decide)⟩

theorem twoFiles_pending {mid : Walk} (hfirst : (Walk.opendir twoFiles).Renames ['a'] mid)
    (hsecond : mid.Renames ['b'] pass) (name : CStr) : ¬pass.scan.pending name := by
  rw [hsecond.pending_iff, hfirst.pending_iff]
  intro ⟨⟨hpresent, ha, _⟩, hb, _⟩
  exact (twoFiles_name hpresent).elim ha hb

theorem renamePass_end (hk : names.length < k) : renamePass (names[·]?) d k = none := by
  cases k with
  | zero => omega
  | succ k =>
    rw [renamePass, List.getElem?_eq_none (by omega)]
    cases renamePass (names[·]?) d k <;> rfl

theorem getElem?_ended (k : Nat) (h : names[k]? = none) : names[k + 1]? = none := by
  rw [List.getElem?_eq_none_iff] at h ⊢
  omega

end TwoFiles

def returnedOnce : Enumeration twoFiles where
  readdir := ([['a'], ['b']][·]?)
  returns k pass h :=
    match k with
    | 0 => by
      cases h
      exact .inl (by decide : twoFiles ['a'] ≠ none)
    | 1 => .inl (((twoFiles_first _ rfl h).pending_iff _).mpr
      ⟨(by decide : twoFiles ['b'] ≠ none), by decide, by decide⟩)
    | 2 => by
      obtain ⟨mid, hfirst, hsecond⟩ := twoFiles_second _ rfl rfl h
      exact twoFiles_pending hfirst hsecond
    | k + 3 => by
      rw [renamePass_end _ (by simp)] at h
      cases h
  ended := getElem?_ended _

def returnedTwice : Enumeration twoFiles where
  readdir := ([['a'], ['b'], ['a'] ++ RENAMED][·]?)
  returns k pass h :=
    match k with
    | 0 => by
      cases h
      exact .inl (by decide : twoFiles ['a'] ≠ none)
    | 1 => .inl (((twoFiles_first _ rfl h).pending_iff _).mpr
      ⟨(by decide : twoFiles ['b'] ≠ none), by decide, by decide⟩)
    | 2 => by
      obtain ⟨mid, hfirst, hsecond⟩ := twoFiles_second _ rfl rfl h
      have hcreated := (hfirst.created_iff _).mpr (.inr rfl)
      exact .inr ((hsecond.created_iff _).mpr (.inl ⟨hcreated, by decide⟩))
    | 3 => by
      obtain ⟨before, name, hbefore, hname, h⟩ := renamePass_succ h
      obtain rfl : name = ['a'] ++ RENAMED := (Option.some.inj hname).symm
      obtain ⟨mid, hfirst, hsecond⟩ := twoFiles_second _ rfl rfl hbefore
      have hrenames := Walk.renames_of_step h (not_isDot_renamed ['a'])
      intro name hpending
      exact twoFiles_pending hfirst hsecond name ((hrenames.pending_iff name).mp hpending).1
    | k + 4 => by
      rw [renamePass_end _ (by simp)] at h
      cases h
  ended := getElem?_ended _

theorem returnedOnce_succeeds : returnedOnce.Succeeds := by
  intro k pass name h hname _
  match k with
  | 0 =>
    cases h
    obtain rfl : ['a'] = name := Option.some.inj hname
    exact rename_of_free (by decide) (by decide) (by decide)
  | 1 =>
    obtain rfl : ['b'] = name := Option.some.inj hname
    have hdir := (twoFiles_first [['a'], ['b']] rfl h).dir_eq
    exact rename_of_free (by decide) (by rw [hdir]; decide) (by rw [hdir]; decide)
  | k + 2 => cases hname

theorem returnedTwice_succeeds : returnedTwice.Succeeds := by
  intro k pass name h hname _
  match k with
  | 0 =>
    cases h
    obtain rfl : ['a'] = name := Option.some.inj hname
    exact rename_of_free (by decide) (by decide) (by decide)
  | 1 =>
    obtain rfl : ['b'] = name := Option.some.inj hname
    have hdir := (twoFiles_first [['a'], ['b'], ['a'] ++ RENAMED] rfl h).dir_eq
    exact rename_of_free (by decide) (by rw [hdir]; decide) (by rw [hdir]; decide)
  | 2 =>
    obtain rfl : ['a'] ++ RENAMED = name := Option.some.inj hname
    obtain ⟨mid, hfirst, hsecond⟩ :=
      twoFiles_second [['a'], ['b'], ['a'] ++ RENAMED] rfl rfl h
    have hdir := hsecond.dir_eq
    rw [hfirst.dir_eq] at hdir
    exact rename_of_free (by decide) (by rw [hdir]; decide) (by rw [hdir]; decide)
  | k + 3 => cases hname

theorem returnedOnce_readdir {name : CStr} (h : returnedOnce.readdir k = some name)
    : name = ['a'] ∨ name = ['b'] := by
  have hmem : name ∈ [['a'], ['b']] := List.mem_of_getElem? h
  exact List.mem_pair.mp hmem

theorem returnedOnce_inOrder : returnedOnce.InOrder := by
  refine ⟨?_, ?_, ?_⟩
  . intro name hpresent
    rcases twoFiles_name hpresent with rfl | rfl <;> decide
  . intro i j name _ _ hj
    have hsuffix : RENAMED.length = 7 := by decide
    rcases returnedOnce_readdir hj with heq | heq <;>
    . have hlen := congrArg List.length heq
      simp only [List.length_append, List.length_cons, List.length_nil] at hlen
      omega
  . intro i name hi _ hpresent
    rcases returnedOnce_readdir hi with rfl | rfl <;>
    . exact absurd (by decide) hpresent

theorem returnedOnce_renamesOnce : returnedOnce.RenamesOnce ∧ returnedOnce.Fits :=
  (renamesOnce_iff twoFiles_content returnedOnce_succeeds).mpr returnedOnce_inOrder

theorem returnedTwice_not_renamesOnce
    : twoFiles.Content ∧ returnedTwice.Succeeds ∧ ¬returnedTwice.RenamesOnce := by
  refine ⟨twoFiles_content, returnedTwice_succeeds, ?_⟩
  intro honce
  have hlt := (inOrder_of_once twoFiles_content honce).renamed_lt 0 2 ['a'] rfl (by decide) rfl
  omega

end Enumeration

end FsBench
