import FsBench.Recorder.History
import Mathlib.Order.Bounds.Basic
import Mathlib.Algebra.Order.BigOperators.Group.List
import Mathlib.Algebra.Order.Ring.Int
import Mathlib.Algebra.Ring.Int.Defs

/-!
The reports of the `*_bench` functions after a run, against the durations that the run recorded.
-/

namespace FsBench

def Report.zero : Report where
  avg := 0
  min := 0
  max := 0
  count := 0

def SyncReport.zero : SyncReport where
  fflushAvg := 0
  fflushMax := 0
  fflushMin := 0
  filenoAvg := 0
  filenoMax := 0
  filenoMin := 0
  fsyncAvg := 0
  fsyncMax := 0
  fsyncMin := 0
  count := 0

namespace SyncReport

variable (info : SyncReport)

def fflush : Report :=
  { avg := info.fflushAvg, min := info.fflushMin, max := info.fflushMax, count := info.count }

def fileno : Report :=
  { avg := info.filenoAvg, min := info.filenoMin, max := info.filenoMax, count := info.count }

def fsync : Report :=
  { avg := info.fsyncAvg, min := info.fsyncMin, max := info.fsyncMax, count := info.count }

end SyncReport

def Recorders.report (long : Nat) (sum : Int) (st : Recorders) : Series → Option Report
  | .fopen => (fopenBench long st .zero).map (·.2)
  | .fclose => (fcloseBench long st .zero).map (·.2)
  | .fread => (freadBench long st .zero).map (·.2)
  | .fwrite => (fwriteBench long st .zero).map (·.2)
  | .fflush => (fsyncBench long st .zero).map (·.2.fflush)
  | .fileno => (fsyncBench long st .zero).map (·.2.fileno)
  | .fsync => (fsyncBench long st .zero).map (·.2.fsync)
  | .fstat => (fstatBench long st .zero).map (·.2)
  | .access => (accessBench long sum st .zero).map (·.2)
  | .unlink => (unlinkBench long sum st .zero).map (·.2)
  | .sync => (syncBench long sum st .zero).map (·.2)
  | .rename => (renameBench long st .zero).map (·.2)

structure Report.Describes (rep : Report) (window : List Int) : Prop where
  count_eq : rep.count = window.length
  min_least : IsLeast {x | x ∈ window} rep.min
  max_greatest : IsGreatest {x | x ∈ window} rep.max
  avg_eq : rep.avg = window.sum.tdiv window.length

/--
`rep` is what a `*_bench` function gets from the durations in `window` when its sum starts at `sum`.
-/
structure Report.Summarises (long : Nat) (sum : Int) (rep : Report) (window : List Int) : Prop where
  count_eq : rep.count = window.length
  min_least : IsLeast {x | x ∈ window} rep.min
  max_greatest : IsGreatest {x | x ∈ window} rep.max
  avg_eq : rep.avg = average (Word.toSigned long (sum + window.sum)) window.length

/--
What the leftover in the local moves the sum of the durations by, when it wraps around.
-/
def sumShift (long : Nat) (sum : Int) (window : List Int) : Int :=
  Word.toSigned long (sum + window.sum) - window.sum

/--
Up to multiples of `2 ^ 32` in the quotient, the sum is moved by no more than the remainder of the
true sum leaves room for.
-/
def HarmlessStart (long : Nat) (sum : Int) (window : List Int) : Prop :=
  let n : Int := window.length
  let remainder := window.sum.tmod n
  ∃ k : Int,
    let q := window.sum.tdiv n + 2 ^ 32 * k
    sumShift long sum window - 2 ^ 32 * k * n ≤ (if 0 ≤ q then n - 1 else 0) - remainder
      ∧ -(if q ≤ 0 then n - 1 else 0) - remainder ≤ sumShift long sum window - 2 ^ 32 * k * n

private theorem tdiv_eq_iff_of_nonneg {a q : Int} {n : Nat} (hn : 0 < n) (ha : 0 ≤ a)
    : a.tdiv n = q ↔ q * n - (if q ≤ 0 then (n : Int) - 1 else 0) ≤ a
        ∧ a ≤ q * n + (if 0 ≤ q then (n : Int) - 1 else 0) := by
  have hn' : (0 : Int) < n := by omega
  rw [Int.tdiv_eq_ediv_of_nonneg ha, Int.ediv_eq_iff_of_pos hn']
  rcases Int.lt_trichotomy q 0 with hq | hq | hq
  . have : q * n ≤ -1 * n := Int.mul_le_mul_of_nonneg_right (by omega) (by omega)
    split <;> split <;> omega
  . simp [hq]
    omega
  . have : 1 * n ≤ q * n := Int.mul_le_mul_of_nonneg_right (by omega) (by omega)
    split <;> split <;> omega

theorem tdiv_eq_iff {a q : Int} {n : Nat} (hn : 0 < n)
    : a.tdiv n = q ↔ q * n - (if q ≤ 0 then (n : Int) - 1 else 0) ≤ a
        ∧ a ≤ q * n + (if 0 ≤ q then (n : Int) - 1 else 0) := by
  cases Int.le_total 0 a with
  | inl ha => exact tdiv_eq_iff_of_nonneg hn ha
  | inr ha =>
    have hneg : a.tdiv n = q ↔ (-a).tdiv n = -q := by
      rw [Int.neg_tdiv]
      omega
    rw [hneg, tdiv_eq_iff_of_nonneg hn (by omega), Int.neg_mul]
    split <;> split <;> split <;> split <;> omega

private theorem toSigned_32_eq_iff {x y : Int} (hle : -2 ^ 31 ≤ y) (hlt : y < 2 ^ 31)
    : Word.toSigned 32 x = y ↔ x ≡ y [ZMOD 2 ^ 32] := by
  unfold Word.toSigned
  rw [Int.bmod_eq_iff (by decide), Int.modEq_iff_dvd]
  constructor
  . intro h
    exact h.2.2
  . intro h
    exact ⟨by omega, by omega, h⟩

theorem mean_bounds {window : List Int} (hpos : 0 < window.length)
    (hint : ∀ x ∈ window, -2 ^ 31 ≤ x ∧ x < 2 ^ 31)
    : -2 ^ 31 ≤ window.sum.tdiv window.length ∧ window.sum.tdiv window.length < 2 ^ 31 := by
  have hpos' : (0 : Int) < window.length := by omega
  have hne : (window.length : Int) ≠ 0 := by omega
  have hlower := List.card_nsmul_le_sum window (-2 ^ 31) (fun x hx => (hint x hx).1)
  have hupper := List.sum_le_card_nsmul window (2 ^ 31 - 1) (fun x hx => by
    have := (hint x hx).2
    omega)
  rw [nsmul_eq_mul] at hlower hupper
  replace hlower := Int.tdiv_le_tdiv hpos' hlower
  replace hupper := Int.tdiv_le_tdiv hpos' hupper
  rw [Int.mul_tdiv_cancel_left _ hne] at hlower hupper
  omega

theorem harmlessStart_iff {long : Nat} {sum : Int} {window : List Int} (hpos : 0 < window.length)
    : HarmlessStart long sum window
        ↔ (Word.toSigned long (sum + window.sum)).tdiv window.length
          ≡ window.sum.tdiv window.length [ZMOD 2 ^ 32] := by
  have hdecomp := Int.mul_tdiv_add_tmod window.sum window.length
  -- the bounds on the quotient `q`, moved by the true sum
  have hbounds (k : Int) := tdiv_eq_iff (a := Word.toSigned long (sum + window.sum))
    (q := window.sum.tdiv window.length + 2 ^ 32 * k) hpos
  have hmul (k : Int) : (window.sum.tdiv window.length + 2 ^ 32 * k) * window.length
      = (window.length : Int) * window.sum.tdiv window.length + 2 ^ 32 * k * window.length := by
    rw [Int.add_mul, Int.mul_comm (window.sum.tdiv window.length)]
  unfold HarmlessStart sumShift
  dsimp only
  constructor
  . intro ⟨k, hge, hle⟩
    have hq := (hbounds k).mpr (by
      rw [hmul]
      omega)
    rw [hq, Int.modEq_iff_dvd]
    exact ⟨-k, by omega⟩
  . intro hmod
    obtain ⟨k, hk⟩ := (Int.modEq_iff_dvd.mp hmod.symm)
    refine ⟨k, ?_⟩
    have hq := (hbounds k).mp (by omega)
    rw [hmul] at hq
    omega

theorem average_eq_iff {long : Nat} {sum : Int} {window : List Int} (hpos : 0 < window.length)
    (hint : ∀ x ∈ window, -2 ^ 31 ≤ x ∧ x < 2 ^ 31)
    : average (Word.toSigned long (sum + window.sum)) window.length
        = window.sum.tdiv window.length ↔ HarmlessStart long sum window := by
  have ⟨hle, hlt⟩ := mean_bounds hpos hint
  unfold average
  rw [toSigned_32_eq_iff hle hlt, harmlessStart_iff hpos]

theorem sumTime_spec (long : Nat) (sum : Int) {len : Nat} {time : List Int} (hpos : 0 < len)
    (hlen : len ≤ time.length)
    : sumTime long time len sum = some (Word.toSigned long (sum + (time.take len).sum)) := by
  let Inv (i : Nat) (t : Int) :=
    t = if i = 0 then sum else Word.toSigned long (sum + (time.take i).sum)
  have hrun : ∃ t, sumTime long time len sum = some t ∧ Inv len t := by
    apply Loop.upTo_invariant Inv rfl
    intro i t hi ht
    have hget : time[i]? = some time[i] := List.getElem?_eq_getElem (by omega)
    refine ⟨Word.toSigned long (t + time[i]), ?_, ?_⟩
    . simp only [hget, Option.bind_eq_bind, Option.bind_some]
    . dsimp only [Inv] at ht ⊢
      rw [if_neg (by omega), List.take_add_one, hget, ht]
      split
      . next hzero => simp [hzero]
      . rw [Word.toSigned_add_toSigned, List.sum_append, Int.add_assoc]
        simp
  obtain ⟨t, ht, hsum⟩ := hrun
  dsimp only [Inv] at hsum
  rw [if_neg (by omega)] at hsum
  rw [ht, hsum]

theorem sumTime_total (long : Nat) (sum : Int) {len : Nat} {time : List Int}
    (hlen : len ≤ time.length)
    : ∃ total, sumTime long time len sum = some total := by
  cases Nat.eq_zero_or_pos len with
  | inl hzero =>
    rw [hzero]
    exact ⟨sum, rfl⟩
  | inr hpos => exact ⟨_, sumTime_spec long sum hpos hlen⟩

theorem sorted_least {l : List Int} (h : l.Pairwise (· ≤ ·)) (hpos : 0 < l.length)
    : IsLeast {x | x ∈ l} l[0] := by
  refine ⟨List.getElem_mem hpos, ?_⟩
  intro x hx
  obtain ⟨i, hi, rfl⟩ := List.getElem_of_mem hx
  cases Nat.eq_zero_or_pos i with
  | inl hzero => simp [hzero]
  | inr hlt => exact List.pairwise_iff_getElem.mp h 0 i hpos hi hlt

theorem sorted_greatest {l : List Int} (h : l.Pairwise (· ≤ ·)) (hpos : 0 < l.length)
    : IsGreatest {x | x ∈ l} l[l.length - 1] := by
  refine ⟨List.getElem_mem (by omega), ?_⟩
  intro x hx
  obtain ⟨i, hi, rfl⟩ := List.getElem_of_mem hx
  cases Nat.eq_or_lt_of_le (Nat.le_sub_one_of_lt hi) with
  | inl hlast => simp [hlast]
  | inr hlt => exact List.pairwise_iff_getElem.mp h i (l.length - 1) hi (by omega) hlt

theorem sumTime_outside {long len : Nat} {time : List Int} {sum : Int} (hlen : time.length < len)
    : sumTime long time len sum = none := by
  apply Loop.upTo_eq_none hlen
  simp

namespace Recorder.Tracks

variable {cap : Nat} {r : Recorder Int} {history : List Int}

theorem length_eq (h : r.Tracks cap history) : r.length cap = (history.rtake cap).length := by
  simp only [Recorder.length, h.flag_eq, h.count_eq, List.rtake, List.length_drop]
  cases Nat.lt_or_ge history.length cap with
  | inl hlt => simp [Nat.not_le.mpr hlt, Nat.mod_eq_of_lt hlt, Nat.sub_eq_zero_of_le hlt.le]
  | inr hge =>
    simp only [hge, ite_true]
    split <;> omega

theorem window_perm (h : r.Tracks cap history)
    : (r.time.take (history.rtake cap).length).Perm (history.rtake cap) := by
  have hperm := h.holds.take_perm
  have : min history.length cap = (history.rtake cap).length := by
    simp only [List.rtake, List.length_drop]
    omega
  rwa [this] at hperm

end Recorder.Tracks

structure Recorder.Rearranged (len : Nat) (r next : Recorder Int) : Prop where
  perm : (next.time.take len).Perm (r.time.take len)
  length_eq : next.time.length = r.time.length
  count_eq : next.count = r.count
  flag_eq : next.flag = r.flag

namespace Recorder.Rearranged

variable {len : Nat} {r mid next : Recorder Int}

theorem refl : r.Rearranged len r :=
  ⟨.refl _, rfl, rfl, rfl⟩

theorem trans (h : r.Rearranged len mid) (h' : mid.Rearranged len next) : r.Rearranged len next where
  perm := h'.perm.trans h.perm
  length_eq := h'.length_eq.trans h.length_eq
  count_eq := h'.count_eq.trans h.count_eq
  flag_eq := h'.flag_eq.trans h.flag_eq

theorem length_cap_eq {cap : Nat} (h : r.Rearranged len next) : next.length cap = r.length cap := by
  unfold Recorder.length
  rw [h.count_eq, h.flag_eq]

end Recorder.Rearranged

theorem Report.Summarises.of_perm {long : Nat} {sum : Int} {rep : Report} {window other : List Int}
    (h : rep.Summarises long sum window) (hperm : window.Perm other)
    : rep.Summarises long sum other := by
  have hmem : {x | x ∈ window} = {x | x ∈ other} := by
    ext x
    exact hperm.mem_iff
  refine ⟨?_, ?_, ?_, ?_⟩
  . rw [h.count_eq, hperm.length_eq]
  . rw [← hmem]
    exact h.min_least
  . rw [← hmem]
    exact h.max_greatest
  . rw [h.avg_eq, hperm.sum_eq, hperm.length_eq]

theorem Report.Summarises.unique {long : Nat} {sum : Int} {rep rep' : Report} {window : List Int}
    (h : rep.Summarises long sum window) (h' : rep'.Summarises long sum window) : rep = rep' := by
  cases rep
  cases rep'
  simp only [Report.mk.injEq]
  exact ⟨h.avg_eq.trans h'.avg_eq.symm, h.min_least.unique h'.min_least,
    h.max_greatest.unique h'.max_greatest, h.count_eq.trans h'.count_eq.symm⟩

theorem sorted_ends {time : List Int} {len : Nat} (hpos : 0 < len) (hlen : len ≤ time.length)
    : ∃ out min max, sysBubbleSort time len = some out
        ∧ out[0]? = some min ∧ out[len - 1]? = some max
        ∧ IsLeast {x | x ∈ time.take len} min ∧ IsGreatest {x | x ∈ time.take len} max
        ∧ (out.take len).Perm (time.take len) ∧ out.length = time.length := by
  obtain ⟨out, hout, hsorted, hperm, hdrop⟩ := sysBubbleSort_sorts hlen
  have hlength : (out.take len).length = len := by
    rw [hperm.length_eq, List.length_take]
    omega
  have hout_len : out.length = time.length := by
    have hrest := congrArg List.length hdrop
    rw [List.length_drop, List.length_drop] at hrest
    rw [List.length_take] at hlength
    omega
  have hmem : {x | x ∈ out.take len} = {x | x ∈ time.take len} := by
    ext x
    exact hperm.mem_iff
  have hleast := sorted_least hsorted (by omega)
  have hgreatest := sorted_greatest hsorted (by omega)
  rw [hmem] at hleast hgreatest
  refine ⟨out, _, _, hout, ?_, ?_, hleast, hgreatest, hperm, hout_len⟩
  . rw [List.getElem_take]
    exact List.getElem?_eq_getElem (by omega)
  . rw [List.getElem_take, List.getElem?_eq_getElem (by omega)]
    simp [hlength]

section Bench

variable (long : Nat) (sum : Int) (info : Report) {cap : Nat} {r : Recorder Int}

theorem bench_spec (hlen : r.length cap ≤ r.time.length) (htwo : 2 ≤ r.length cap)
    : ∃ next rep, bench long cap sum r info = some (next, rep)
        ∧ benchSumFirst long cap sum r info = some (next, rep)
        ∧ rep.Summarises long sum (r.time.take (r.length cap))
        ∧ r.Rearranged (r.length cap) next := by
  have hwindow : (r.time.take (r.length cap)).length = r.length cap := by
    rw [List.length_take]
    omega
  have hsum := sumTime_spec long sum (by omega) hlen
  obtain ⟨out, min, max, hout, hmin, hmax, hleast, hgreatest, hperm, hlength⟩ :=
    sorted_ends (by omega) hlen
  let avg := average (Word.toSigned long (sum + (r.time.take (r.length cap)).sum)) (r.length cap)
  refine ⟨{ r with time := out }, { avg, min, max, count := r.length cap }, ?_, ?_,
    ⟨hwindow.symm, hleast, hgreatest, ?_⟩, ⟨hperm, hlength, rfl, rfl⟩⟩
  . simp [bench, benchSorted, Nat.not_lt.mpr htwo, hsum, hout, hmin, hmax, avg]
  . simp [benchSumFirst, benchSorted, Nat.not_lt.mpr htwo, hsum, hout, hmin, hmax, avg]
  . rw [hwindow]

theorem bench_short (hshort : r.length cap < 2) : bench long cap sum r info = some (r, info) := by
  unfold bench
  rw [if_pos hshort]
  rfl

theorem benchSumFirst_short (hlen : r.length cap ≤ r.time.length) (hshort : r.length cap < 2)
    : benchSumFirst long cap sum r info = some (r, info) := by
  obtain ⟨total, htotal⟩ := sumTime_total long sum hlen
  unfold benchSumFirst
  simp only [htotal, Option.bind_eq_bind, Option.bind_some, if_pos hshort]
  rfl

end Bench

theorem fsyncBench_spec (long : Nat) (info : SyncReport) {st : Recorders}
    (hflush : st.fsync.length MAX_FSYNC ≤ st.fsync.fflushTime.length)
    (hfileno : st.fsync.length MAX_FSYNC ≤ st.fsync.filenoTime.length)
    (hfsync : st.fsync.length MAX_FSYNC ≤ st.fsync.fsyncTime.length)
    (htwo : 2 ≤ st.fsync.length MAX_FSYNC)
    : ∃ next rep, fsyncBench long st info = some ({ st with fsync := next }, rep)
        ∧ rep.fflush.Summarises long 0 (st.fsync.fflushTime.take (st.fsync.length MAX_FSYNC))
        ∧ rep.fileno.Summarises long 0 (st.fsync.filenoTime.take (st.fsync.length MAX_FSYNC))
        ∧ rep.fsync.Summarises long 0 (st.fsync.fsyncTime.take (st.fsync.length MAX_FSYNC))
        ∧ st.fsync.fflush.Rearranged (st.fsync.length MAX_FSYNC) next.fflush
        ∧ st.fsync.fileno.Rearranged (st.fsync.length MAX_FSYNC) next.fileno
        ∧ st.fsync.fsync.Rearranged (st.fsync.length MAX_FSYNC) next.fsync := by
  generalize hlength : st.fsync.length MAX_FSYNC = len at *
  obtain ⟨out1, min1, max1, ho1, hmin1, hmax1, hl1, hg1, hp1, hlen1⟩ := sorted_ends (by omega) hflush
  obtain ⟨out2, min2, max2, ho2, hmin2, hmax2, hl2, hg2, hp2, hlen2⟩ := sorted_ends (by omega) hfileno
  obtain ⟨out3, min3, max3, ho3, hmin3, hmax3, hl3, hg3, hp3, hlen3⟩ := sorted_ends (by omega) hfsync
  have hsorted : len ≤ out3.length := by
    rw [hlen3]
    exact hfsync
  have hsum1 := sumTime_spec long 0 (by omega) hflush
  have hsum2 := sumTime_spec long 0 (by omega) hfileno
  have hsum3 := sumTime_spec long 0 (by omega) hsorted
  rw [hp3.sum_eq] at hsum3
  let avg (window : List Int) := average (Word.toSigned long (0 + window.sum)) len
  let rep : SyncReport :=
    { fflushAvg := avg (st.fsync.fflushTime.take len), fflushMax := max1, fflushMin := min1
      filenoAvg := avg (st.fsync.filenoTime.take len), filenoMax := max2, filenoMin := min2
      fsyncAvg := avg (st.fsync.fsyncTime.take len), fsyncMax := max3, fsyncMin := min3
      count := len }
  have hwindow {time : List Int} (hle : len ≤ time.length) : (time.take len).length = len := by
    rw [List.length_take]
    omega
  refine ⟨{ st.fsync with fflushTime := out1, filenoTime := out2, fsyncTime := out3 }, rep, ?_,
    ⟨(hwindow hflush).symm, hl1, hg1, by rw [hwindow hflush]; rfl⟩,
    ⟨(hwindow hfileno).symm, hl2, hg2, by rw [hwindow hfileno]; rfl⟩,
    ⟨(hwindow hfsync).symm, hl3, hg3, by rw [hwindow hfsync]; rfl⟩,
    ⟨hp1, hlen1, rfl, rfl⟩, ⟨hp2, hlen2, rfl, rfl⟩, ⟨hp3, hlen3, rfl, rfl⟩⟩
  unfold fsyncBench
  simp only [hlength, Nat.not_lt.mpr htwo, ite_false, hsum1, hsum2, hsum3, ho1, ho2, ho3,
    hmin1, hmin2, hmin3, hmax1, hmax2, hmax3, Option.bind_eq_bind, Option.bind_some]
  rfl

theorem Series.two_le_capacity (s : Series) : 2 ≤ s.capacity := by
  cases s <;> decide

theorem Series.capacity_le (s : Series) : s.capacity ≤ MAX_SYNC := by
  cases s <;> decide

def Recorders.Sized (st : Recorders) : Prop :=
  ∀ s : Series, (st.series s).time.length = s.capacity ∧ (st.series s).flag ≤ 1

/--
The length that the `*_bench` function takes of an array that has been filled.
-/
def Series.assumed : Series → Nat
  | .access | .unlink => MAX_SYNC
  | s => s.capacity

def Series.start (sum : Int) : Series → Int
  | .access | .unlink | .sync => sum
  | _ => 0

def Recorders.window (st : Recorders) (s : Series) : List Int :=
  (st.series s).time.take ((st.series s).length s.assumed)

theorem Series.capacity_le_assumed (s : Series) : s.capacity ≤ s.assumed := by
  cases s <;> decide

theorem Recorder.length_assumed {r : Recorder Int} {cap assumed : Nat} (hle : cap ≤ assumed)
    (hlen : r.length assumed ≤ cap) : r.length assumed = r.length cap := by
  unfold length at hlen ⊢
  split at hlen <;> simp_all
  omega

theorem Series.Tracked.sized {st : Recorders} {history : Series → List Int}
    (h : Series.Tracked st history) : st.Sized := by
  intro s
  refine ⟨(h s).holds.length_eq, ?_⟩
  rw [(h s).flag_eq]
  split <;> omega

theorem Recorder.Tracks.length_le_iff {r : Recorder Int} {cap assumed : Nat} {history : List Int}
    (h : r.Tracks cap history) (hle : cap ≤ assumed)
    : r.length assumed ≤ cap ↔ history.length < cap ∨ assumed = cap := by
  unfold Recorder.length
  rw [h.flag_eq]
  cases Nat.lt_or_ge history.length cap with
  | inl hlt =>
    have hcount := h.count_eq
    rw [Nat.mod_eq_of_lt hlt] at hcount
    simp [Nat.not_le.mpr hlt, hlt, hcount, hlt.le]
  | inr hge =>
    simp [hge, Nat.not_lt.mpr hge]
    omega

theorem bench_outside (long : Nat) (sum : Int) (info : Report) {cap : Nat} {r : Recorder Int}
    (hlen : r.time.length < r.length cap) (htwo : 2 ≤ r.length cap)
    : bench long cap sum r info = none ∧ benchSumFirst long cap sum r info = none := by
  unfold bench benchSumFirst
  simp [sumTime_outside hlen, Nat.not_lt.mpr htwo]

section FsyncBench

variable (long : Nat) (info : SyncReport) {st : Recorders}

theorem fsyncBench_short (hshort : st.fsync.length MAX_FSYNC < 2)
    : fsyncBench long st info = some (st, info) := by
  unfold fsyncBench
  rw [if_pos hshort]
  rfl

theorem fsyncBench_outside (hlen : st.fsync.fflushTime.length < st.fsync.length MAX_FSYNC)
    (htwo : 2 ≤ st.fsync.length MAX_FSYNC) : fsyncBench long st info = none := by
  unfold fsyncBench
  rw [if_neg (Nat.not_lt.mpr htwo), sumTime_outside hlen]
  rfl

end FsyncBench

theorem Recorders.report_spec (long : Nat) (sum : Int) {st : Recorders} {s : Series}
    (hsized : st.Sized) (hlen : (st.series s).length s.assumed ≤ s.capacity)
    (htwo : 2 ≤ (st.series s).length s.assumed)
    : ∃ rep, st.report long sum s = some rep
        ∧ rep.Summarises long (s.start sum) (st.window s) := by
  have hsize := (hsized s).1
  have hflush : st.fsync.fflushTime.length = MAX_FSYNC := (hsized .fflush).1
  have hfileno : st.fsync.filenoTime.length = MAX_FSYNC := (hsized .fileno).1
  have hfsync : st.fsync.fsyncTime.length = MAX_FSYNC := (hsized .fsync).1
  have hthree (hlen : st.fsync.length MAX_FSYNC ≤ MAX_FSYNC) (htwo : 2 ≤ st.fsync.length MAX_FSYNC) :=
    fsyncBench_spec long .zero (by rw [hflush]; exact hlen) (by rw [hfileno]; exact hlen)
      (by rw [hfsync]; exact hlen) htwo
  obtain ⟨next, rep, hbench, hfirst, hrep, -⟩ :=
    bench_spec long (s.start sum) .zero (r := st.series s) (by rw [hsize]; exact hlen) htwo
  cases s with
  | fopen =>
    replace hbench : bench long MAX_FOPEN 0 st.fopen .zero = some (next, rep) := hbench
    exact ⟨rep, by simp [report, fopenBench, hbench], hrep⟩
  | fclose =>
    replace hbench : bench long MAX_FCLOSE 0 st.fclose .zero = some (next, rep) := hbench
    exact ⟨rep, by simp [report, fcloseBench, hbench], hrep⟩
  | fread =>
    replace hbench : bench long MAX_FREAD 0 st.fread .zero = some (next, rep) := hbench
    exact ⟨rep, by simp [report, freadBench, hbench], hrep⟩
  | fwrite =>
    replace hbench : bench long MAX_FWRITE 0 st.fwrite .zero = some (next, rep) := hbench
    exact ⟨rep, by simp [report, fwriteBench, hbench], hrep⟩
  | fstat =>
    replace hbench : bench long MAX_FSTAT 0 st.fstat .zero = some (next, rep) := hbench
    exact ⟨rep, by simp [report, fstatBench, hbench], hrep⟩
  | access =>
    replace hfirst : benchSumFirst long MAX_SYNC sum st.access .zero = some (next, rep) := hfirst
    exact ⟨rep, by simp [report, accessBench, hfirst], hrep⟩
  | unlink =>
    replace hbench : bench long MAX_SYNC sum st.unlink .zero = some (next, rep) := hbench
    exact ⟨rep, by simp [report, unlinkBench, hbench], hrep⟩
  | sync =>
    replace hbench : bench long MAX_SYNC sum st.sync .zero = some (next, rep) := hbench
    exact ⟨rep, by simp [report, syncBench, hbench], hrep⟩
  | rename =>
    replace hfirst : benchSumFirst long MAX_FILENUM 0 st.rename .zero = some (next, rep) := hfirst
    exact ⟨rep, by simp [report, renameBench, hfirst], hrep⟩
  | fflush =>
    obtain ⟨next, rep, hbench, hrep, -⟩ := hthree hlen htwo
    exact ⟨rep.fflush, by simp [report, hbench], hrep⟩
  | fileno =>
    obtain ⟨next, rep, hbench, -, hrep, -⟩ := hthree hlen htwo
    exact ⟨rep.fileno, by simp [report, hbench], hrep⟩
  | fsync =>
    obtain ⟨next, rep, hbench, -, -, hrep, -⟩ := hthree hlen htwo
    exact ⟨rep.fsync, by simp [report, hbench], hrep⟩

theorem Series.window_length {s : Series} {history : List Int} (hlen : 2 ≤ history.length)
    : 2 ≤ (history.rtake s.capacity).length := by
  have hcap := s.two_le_capacity
  simp only [List.rtake, List.length_drop]
  omega

theorem Series.Tracked.report (long : Nat) (sum : Int) {st : Recorders}
    {history : Series → List Int} {s : Series} (h : Tracked st history)
    (hlen : 2 ≤ (history s).length) (hfits : (history s).length < s.capacity ∨ s.assumed = s.capacity)
    : ∃ rep, st.report long sum s = some rep
        ∧ rep.Summarises long (s.start sum) ((history s).rtake s.capacity) := by
  have hle := ((h s).length_le_iff s.capacity_le_assumed).mpr hfits
  have hlength := (Recorder.length_assumed s.capacity_le_assumed hle).trans (h s).length_eq
  obtain ⟨rep, hrep, hsummarises⟩ := Recorders.report_spec long sum h.sized hle (by
    rw [hlength]
    exact Series.window_length hlen)
  unfold Recorders.window at hsummarises
  rw [hlength] at hsummarises
  exact ⟨rep, hrep, hsummarises.of_perm (h s).window_perm⟩

theorem Series.Tracked.report_after_wrap (long : Nat) (sum : Int) {st : Recorders}
    {history : Series → List Int} {s : Series} (h : Tracked st history)
    (hs : s = .access ∨ s = .unlink) (hwrap : MAX_FILENUM ≤ (history s).length)
    : st.report long sum s = none := by
  -- the length taken is the capacity of another array, and summing leaves this one
  have hcap : s.capacity = MAX_FILENUM := by rcases hs with rfl | rfl <;> rfl
  have hflag := (h s).flag_eq
  have htime := (h s).holds.length_eq
  rw [hcap] at hflag htime
  rw [if_pos hwrap] at hflag
  have hlength : (st.series s).length MAX_SYNC = MAX_SYNC := by simp [Recorder.length, hflag]
  obtain ⟨hbench, hfirst⟩ := bench_outside long sum .zero (r := st.series s)
    (by rw [hlength, htime]; decide) (by rw [hlength]; decide)
  rcases hs with rfl | rfl
  . replace hfirst : benchSumFirst long MAX_SYNC sum st.access .zero = none := hfirst
    simp [Recorders.report, accessBench, hfirst]
  . replace hbench : bench long MAX_SYNC sum st.unlink .zero = none := hbench
    simp [Recorders.report, unlinkBench, hbench]

theorem Timed.duration_bounds {β : Type} (c : Timed β)
    : -2 ^ 31 ≤ c.duration ∧ c.duration < 2 ^ 31 := by
  have := Word.toSigned_fits (w := 32) (Word.sub 64 c.stop c.start)
  unfold Word.Fits at this
  unfold Timed.duration
  omega

theorem Call.recorded_bounds {call : Call} {s : Series} {x : Int} (hx : x ∈ call.recorded s)
    : -2 ^ 31 ≤ x ∧ x < 2 ^ 31 := by
  unfold Call.recorded at hx
  split at hx
  all_goals
    repeat' split at hx
    all_goals simp only [List.not_mem_nil, List.mem_singleton] at hx
  all_goals
    rw [hx]
    apply Timed.duration_bounds

theorem durations_bounds {calls : List Call} {s : Series} {x : Int} (hx : x ∈ durations calls s)
    : -2 ^ 31 ≤ x ∧ x < 2 ^ 31 := by
  obtain ⟨call, -, hx⟩ := List.mem_flatMap.mp hx
  exact Call.recorded_bounds hx

theorem Report.Summarises.describes_iff {long : Nat} {sum : Int} {rep : Report} {window : List Int}
    (h : rep.Summarises long sum window) (hpos : 0 < window.length)
    (hint : ∀ x ∈ window, -2 ^ 31 ≤ x ∧ x < 2 ^ 31)
    : rep.Describes window ↔ HarmlessStart long sum window := by
  rw [← average_eq_iff hpos hint, ← h.avg_eq]
  constructor
  . intro hrep
    exact hrep.avg_eq
  . intro havg
    exact { h with avg_eq := havg }

theorem harmlessStart_zero {long : Nat} {window : List Int} (hpos : 0 < window.length)
    (hlong : Word.Fits long window.sum) : HarmlessStart long 0 window := by
  rw [harmlessStart_iff hpos, Int.zero_add, Word.toSigned_of_fits hlong]

/--
After the calls, with no report in between, the `*_bench` function of the series reports the
statistics of exactly the last durations that its array has room for.
-/
def Series.ReportedRight (long : Nat) (sum : Int) (calls : List Call) (s : Series) : Prop :=
  ∃ st rep, runCalls .initial calls = some st ∧ st.report long sum s = some rep
    ∧ rep.count = min (durations calls s).length s.capacity
    ∧ rep.Describes ((durations calls s).rtake s.capacity)

theorem Report.Summarises.reportedRight_iff {long : Nat} {sum start : Int} {calls : List Call}
    {s : Series} {st : Recorders} {rep : Report} (hst : runCalls .initial calls = some st)
    (hrep : st.report long sum s = some rep)
    (h : rep.Summarises long start ((durations calls s).rtake s.capacity))
    (hlen : 2 ≤ (durations calls s).length)
    : s.ReportedRight long sum calls
        ↔ HarmlessStart long start ((durations calls s).rtake s.capacity) := by
  have hwindow := Series.window_length (s := s) hlen
  have hint : ∀ x ∈ (durations calls s).rtake s.capacity, -2 ^ 31 ≤ x ∧ x < 2 ^ 31 :=
    fun x hx => durations_bounds (List.mem_of_mem_drop hx)
  rw [← h.describes_iff (by omega) hint]
  constructor
  . intro ⟨st', rep', hst', hrep', _, hdesc⟩
    rw [hst] at hst'
    cases hst'
    rw [hrep] at hrep'
    cases hrep'
    exact hdesc
  . intro hdesc
    refine ⟨st, rep, hst, hrep, ?_, hdesc⟩
    rw [h.count_eq, List.rtake, List.length_drop]
    omega

theorem libc_reportedRight {long : Nat} {sum : Int} {calls : List Call} {s : Series}
    (hs : s ≠ .access ∧ s ≠ .unlink ∧ s ≠ .sync) (hlen : 2 ≤ (durations calls s).length)
    (hlong : Word.Fits long ((durations calls s).rtake s.capacity).sum)
    : s.ReportedRight long sum calls := by
  obtain ⟨st, hst, htracked⟩ := runCalls_tracked calls
  obtain ⟨hassumed, hstart⟩ : s.assumed = s.capacity ∧ s.start sum = 0 := by
    cases s <;> simp [Series.assumed, Series.start] at hs ⊢
  obtain ⟨rep, hrep, hsum⟩ := htracked.report long sum hlen (.inr hassumed)
  have hwindow := Series.window_length (s := s) hlen
  rw [hsum.reportedRight_iff hst hrep hlen, hstart]
  exact harmlessStart_zero (by omega) hlong

theorem libc_reportedRight_fopen
    : Series.fopen.ReportedRight 64 0
        [.fopen (some []) (some []) { start := 10, stop := 13, result := some 0 },
          .fopen (some []) (some []) { start := 20, stop := 25, result := some 1 }] :=
  libc_reportedRight (by decide) (by decide) (by decide)

theorem posix_reportedRight_before_wrap {long : Nat} {sum : Int} {calls : List Call} {s : Series}
    (hs : s = .access ∨ s = .unlink ∨ s = .sync) (hlen : 2 ≤ (durations calls s).length)
    (hwrap : s = .sync ∨ (durations calls s).length < MAX_FILENUM)
    : s.ReportedRight long sum calls
        ↔ HarmlessStart long sum ((durations calls s).rtake s.capacity) := by
  obtain ⟨st, hst, htracked⟩ := runCalls_tracked calls
  have hstart : s.start sum = sum := by rcases hs with rfl | rfl | rfl <;> rfl
  have hfits : (durations calls s).length < s.capacity ∨ s.assumed = s.capacity := by
    rcases hs with rfl | rfl | rfl
    . exact .inl (hwrap.resolve_left (by decide))
    . exact .inl (hwrap.resolve_left (by decide))
    . exact .inr rfl
  obtain ⟨rep, hrep, hsum⟩ := htracked.report long sum hlen hfits
  rw [hsum.reportedRight_iff hst hrep hlen, hstart]

theorem posix_reportedRight_iff {long : Nat} {sum : Int} {calls : List Call} {s : Series}
    (hs : s = .access ∨ s = .unlink ∨ s = .sync) (hlen : 2 ≤ (durations calls s).length)
    : s.ReportedRight long sum calls
        ↔ (s = .sync ∨ (durations calls s).length < MAX_FILENUM)
          ∧ HarmlessStart long sum ((durations calls s).rtake s.capacity) := by
  by_cases hwrap : s = .sync ∨ (durations calls s).length < MAX_FILENUM
  . rw [posix_reportedRight_before_wrap hs hlen hwrap]
    simp [hwrap]
  . rw [not_or, Nat.not_lt] at hwrap
    obtain ⟨st, hst, htracked⟩ := runCalls_tracked calls
    have hnone := htracked.report_after_wrap long sum
      (by simpa [hwrap.1] using hs) hwrap.2
    constructor
    . intro ⟨st', rep, hst', hrep, _⟩
      rw [hst] at hst'
      cases hst'
      rw [hnone] at hrep
      cases hrep
    . intro ⟨hright, _⟩
      cases hright with
      | inl hsync => exact absurd hsync hwrap.1
      | inr hlt => omega

theorem posix_reportedRight_iff_sync
    : Series.sync.ReportedRight 64 0
        [.sync { start := 10, stop := 13, result := () },
          .sync { start := 20, stop := 25, result := () }]
      ↔ (Series.sync = .sync ∨ 2 < MAX_FILENUM) ∧ HarmlessStart 64 0 [3, 5] :=
  posix_reportedRight_iff (by decide) (by decide)

theorem access_average_wrong
    : ¬ Series.access.ReportedRight 64 100
        [.access (some []) { start := 10, stop := 15, result := 0 },
          .access (some []) { start := 20, stop := 25, result := 0 }] := by
  -- two calls of 5 ms each, with 100 left over in the local `sum`
  rw [posix_reportedRight_before_wrap (by decide) (by decide) (by decide)]
  have hwindow : (durations
      [.access (some []) { start := 10, stop := 15, result := 0 },
        .access (some []) { start := 20, stop := 25, result := 0 }] .access).rtake
      Series.access.capacity = [5, 5] := by decide
  have hmoved : sumShift 64 100 [5, 5] = 100 := by decide
  have havg : ([5, 5] : List Int).sum.tdiv ([5, 5] : List Int).length = 5 := by decide
  have hremainder : ([5, 5] : List Int).sum.tmod ([5, 5] : List Int).length = 0 := by decide
  rw [hwindow, HarmlessStart, hmoved, havg, hremainder]
  intro ⟨k, hge, hle⟩
  simp only [List.length_cons, List.length_nil] at hle hge
  split at hle <;> split at hge <;> omega

end FsBench
