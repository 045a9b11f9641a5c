import Mathlib.Data.Int.ModEq

/-!
Arithmetic on the fixed-width integers of C: unsigned words of `w` bits as naturals below `2 ^ w`,
signed ones as integers reduced to the balanced range.
-/

namespace Word

variable {w a b n : Nat}

def trunc (w n : Nat) : Nat := n % 2 ^ w

def add (w a b : Nat) : Nat := (a + b) % 2 ^ w

def sub (w a b : Nat) : Nat := (a + (2 ^ w - b % 2 ^ w)) % 2 ^ w

def mul (w a b : Nat) : Nat := (a * b) % 2 ^ w

/--
Conversion to a signed integer of `w` bits in two's complement.
-/
def toSigned (w : Nat) (x : Int) : Int := x.bmod (2 ^ w)

def ofInt (w : Nat) (x : Int) : Nat := (x % (2 ^ w : Nat)).toNat

def Fits (w : Nat) (x : Int) : Prop := -(2 ^ w : Nat) ≤ x * 2 ∧ x * 2 < (2 ^ w : Nat)

instance {x : Int} : Decidable (Fits w x) :=
  inferInstanceAs (Decidable (_ ∧ _))

@[simp]
theorem trunc_lt : trunc w n < 2 ^ w :=
  Nat.mod_lt _ (Nat.two_pow_pos w)

theorem trunc_of_lt (h : n < 2 ^ w) : trunc w n = n :=
  Nat.mod_eq_of_lt h

theorem add_of_lt (h : a + b < 2 ^ w) : add w a b = a + b :=
  Nat.mod_eq_of_lt h

theorem mul_of_lt (h : a * b < 2 ^ w) : mul w a b = a * b :=
  Nat.mod_eq_of_lt h

theorem sub_of_le (hle : b ≤ a) (h : a < 2 ^ w) : sub w a b = a - b := by
  have hb : b % 2 ^ w = b := Nat.mod_eq_of_lt (by omega)
  have hsum : a + (2 ^ w - b) = (a - b) + 2 ^ w := by omega
  unfold sub
  rw [hb, hsum, Nat.add_mod_right]
  apply Nat.mod_eq_of_lt
  omega

theorem sub_of_lt (hlt : a < b) (h : b < 2 ^ w) : sub w a b = a + 2 ^ w - b := by
  have hb : b % 2 ^ w = b := Nat.mod_eq_of_lt h
  unfold sub
  rw [hb, Nat.mod_eq_of_lt] <;> omega

theorem toSigned_of_fits {x : Int} (h : Fits w x) : toSigned w x = x :=
  Int.bmod_eq_of_le_mul_two h.1 h.2

theorem toSigned_fits (x : Int) : Fits w (toSigned w x) := by
  have hle := Int.le_bmod (x := x) (Nat.two_pow_pos w)
  have hlt := Int.bmod_lt (x := x) (Nat.two_pow_pos w)
  unfold Fits toSigned
  omega

@[simp]
theorem toSigned_add_toSigned (x y : Int) : toSigned w (toSigned w x + y) = toSigned w (x + y) :=
  Int.bmod_add_bmod

theorem toSigned_modEq (x : Int) : toSigned w x ≡ x [ZMOD (2 ^ w : Nat)] :=
  Int.bmod_emod

theorem ofInt_modEq (x : Int) : (ofInt w x : Int) ≡ x [ZMOD (2 ^ w : Nat)] := by
  have hne : ((2 ^ w : Nat) : Int) ≠ 0 := Int.natCast_ne_zero.mpr (Nat.two_pow_pos w).ne'
  unfold ofInt
  rw [Int.toNat_of_nonneg (Int.emod_nonneg _ hne)]
  exact Int.mod_modEq ..

theorem sub_modEq (a b : Nat) : (sub w a b : Int) ≡ a - b [ZMOD (2 ^ w : Nat)] := by
  have hle : b % 2 ^ w ≤ 2 ^ w := Nat.le_of_lt (Nat.mod_lt _ (Nat.two_pow_pos w))
  have hneg : ((2 ^ w : Nat) - (b % 2 ^ w : Nat) : Int) ≡ -b [ZMOD (2 ^ w : Nat)] := by
    simpa using (Int.modEq_zero_iff_dvd.mpr (dvd_refl _)).sub (Int.mod_modEq b (2 ^ w : Nat))
  unfold sub
  rw [Int.natCast_emod, Nat.cast_add, Nat.cast_sub hle]
  exact (Int.mod_modEq ..).trans (hneg.add_left a)

theorem toSigned_congr {x y : Int} (h : x ≡ y [ZMOD (2 ^ w : Nat)])
    : toSigned w x = toSigned w y := by
  unfold toSigned
  rw [← Int.emod_bmod x, h.eq, Int.emod_bmod]

theorem modEq_of_le {v : Nat} {x y : Int} (hle : v ≤ w) (h : x ≡ y [ZMOD (2 ^ w : Nat)])
    : x ≡ y [ZMOD (2 ^ v : Nat)] :=
  h.of_dvd (Int.natCast_dvd_natCast.mpr (Nat.pow_dvd_pow 2 hle))

theorem toSigned_eq_trunc {n : Nat} (h : 0 ≤ toSigned w n ∨ trunc w n * 2 < 2 ^ w)
    : toSigned w n = trunc w n := by
  -- below the middle of the range the sign does not matter
  have hlt : trunc w n < 2 ^ w := trunc_lt
  have hcast : ((trunc w n : Nat) : Int) = n % (2 ^ w : Nat) := Int.natCast_emod ..
  unfold toSigned at *
  rw [Int.bmod_def, ← hcast] at h ⊢
  split
  . rfl
  . next hge =>
    rw [if_neg hge] at h
    omega

theorem toSigned_injective {m n : Nat} (hm : m < 2 ^ w) (hn : n < 2 ^ w)
    (h : toSigned w m = toSigned w n) : m = n := by
  have hmod := congrArg (· % ((2 ^ w : Nat) : Int)) h
  simp only [toSigned, Int.bmod_emod] at hmod
  rw [← Int.natCast_emod, ← Int.natCast_emod, Nat.mod_eq_of_lt hm, Nat.mod_eq_of_lt hn] at hmod
  exact Int.ofNat.inj hmod

end Word
