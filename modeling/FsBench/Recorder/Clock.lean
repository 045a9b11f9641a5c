import FsBench.Recorder.Libc

/-!
The clock of common/sys_time.c on a platform whose `long` has `long` bits, and what is left of it in
the durations.
-/

namespace FsBench

structure Timeval where
  tvSec : Int
  tvUsec : Int
  tvUsec_bounds : 0 ≤ tvUsec ∧ tvUsec < 10 ^ 6

/--
`puMSecond` is what the pointer leads to, `none` for the null pointer.
-/
def sysTimeGetMsec (long : Nat) (gettimeofday : Option Timeval) (puMSecond : Option Nat)
    : Option Nat × Int :=
  match puMSecond with
  | none => (none, ERROR)
  | some old =>
    match gettimeofday with
    | none => (some old, -1)
    | some stTimeRun =>
      let seconds := Word.toSigned long (stTimeRun.tvSec * 1000)
      let useconds := stTimeRun.tvUsec.tdiv 1000
      (some (Word.ofInt 64 (Word.toSigned long (seconds + useconds))), OK)

/--
The two readings around a call come from `sys_time_get_msec`, whatever `start` and `end` held before.
-/
structure Timed.Clocked {β : Type} (long : Nat) (start stop : Timeval) (c : Timed β) : Prop where
  start_eq : ∀ old, sysTimeGetMsec long (some start) (some old) = (some c.start, OK)
  stop_eq : ∀ old, sysTimeGetMsec long (some stop) (some old) = (some c.stop, OK)

namespace Timeval

def usec (t : Timeval) : Int :=
  t.tvSec * 10 ^ 6 + t.tvUsec

def msec (t : Timeval) : Int :=
  t.tvSec * 1000 + t.tvUsec.tdiv 1000

theorem msec_bounds (t : Timeval) : t.msec * 1000 ≤ t.usec ∧ t.usec < t.msec * 1000 + 1000 := by
  have := t.tvUsec_bounds
  unfold msec usec
  rw [Int.tdiv_eq_ediv_of_nonneg (by omega)]
  omega

end Timeval

section Clock

variable {β : Type} {long old : Nat} {c : Timed β} {start stop : Timeval}

theorem sysTimeGetMsec_modEq (hlong : 32 ≤ long) {t : Timeval} {reading : Nat}
    (h : sysTimeGetMsec long (some t) (some old) = (some reading, OK))
    : reading ≡ t.msec [ZMOD (2 ^ 32 : Nat)] := by
  -- the product may overflow a `long`, its lower 32 bits are right all the same
  have hreading : Word.ofInt 64
      (Word.toSigned long (Word.toSigned long (t.tvSec * 1000) + t.tvUsec.tdiv 1000)) = reading :=
    Option.some.inj (Prod.mk.inj h).1
  rw [Word.toSigned_add_toSigned] at hreading
  rw [← hreading]
  exact (Word.modEq_of_le (by decide) (Word.ofInt_modEq _)).trans
    (Word.modEq_of_le hlong (Word.toSigned_modEq t.msec))

theorem Timed.Clocked.duration_modEq (hlong : 32 ≤ long) (h : c.Clocked long start stop)
    : Word.sub 64 c.stop c.start ≡ stop.msec - start.msec [ZMOD (2 ^ 32 : Nat)] := by
  have hstart := sysTimeGetMsec_modEq hlong (h.start_eq 0)
  have hstop := sysTimeGetMsec_modEq hlong (h.stop_eq 0)
  exact (Word.modEq_of_le (by decide) (Word.sub_modEq ..)).trans (hstop.sub hstart)

theorem Timed.Clocked.duration_eq (hlong : 32 ≤ long) (h : c.Clocked long start stop)
    (hfits : Word.Fits 32 (stop.msec - start.msec)) : c.duration = stop.msec - start.msec := by
  unfold Timed.duration
  rw [Word.toSigned_congr (h.duration_modEq hlong), Word.toSigned_of_fits hfits]

theorem duration_accurate (hlong : long = 32 ∨ long = 64) (h : c.Clocked long start stop)
    (hle : start.usec ≤ stop.usec) (hlt : stop.usec - start.usec < (2 ^ 31 - 1) * 1000)
    : 0 ≤ c.duration ∧ |c.duration * 1000 - (stop.usec - start.usec)| < 1000 := by
  have hstart := start.msec_bounds
  have hstop := stop.msec_bounds
  have hfits : Word.Fits 32 (stop.msec - start.msec) := by
    unfold Word.Fits
    omega
  rw [h.duration_eq (by omega) hfits, abs_lt]
  omega

end Clock

theorem duration_accurate_wrapped
    : let start : Timeval := ⟨1700000000, 999999, by decide⟩
      let stop : Timeval := ⟨1700000002, 1000, by decide⟩
      let c : Timed Unit := ⟨18446744072902503399, 18446744072902504401, ()⟩
      0 ≤ c.duration ∧ |c.duration * 1000 - (stop.usec - start.usec)| < 1000 := by
  -- on 32 bits both readings are off by 396 * 2 ^ 32 and extended with ones
  have hlong : 32 = 32 ∨ 32 = 64 := .inl rfl
  apply duration_accurate hlong
  . exact ⟨fun _ => rfl, fun _ => rfl⟩
  . decide
  . decide

end FsBench
