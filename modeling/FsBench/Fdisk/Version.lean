import FsBench.Common.Text
import FsBench.Fdisk.Geometry
import Mathlib.Data.Prod.Lex

/-!
fdisk/linux_version.c: how the release of the kernel decides which ioctls the device is asked with.
-/

namespace FsBench.Fdisk

/--
The conversion `%d` of `sscanf`. What does not fit a `long` of so many bits saturates before it
becomes an `int`.
-/
def scanInt (long : Nat) (text : CStr) : Option (Int × CStr) :=
  let signed := Numeral.scanSign (text.dropWhile Numeral.isSpace)
  if signed.2.head?.any (Numeral.digit · < 10) then
    let scanned := Numeral.run 10 signed.2
    let value := max (-2 ^ (long - 1)) (min (signed.1 * scanned.1) (2 ^ (long - 1) - 1))
    some (Word.toSigned 32 value, scanned.2)
  else
    none

def scanPoint : CStr → Option CStr
  | '.' :: rest => some rest
  | _ => none

/--
`sscanf` with `"%d.%d.%d"`, when it returns 3.
-/
def scanRelease (long : Nat) (release : CStr) : Option (Int × Int × Int) := do
  let (major, rest) ← scanInt long release
  let rest ← scanPoint rest
  let (minor, rest) ← scanInt long rest
  let rest ← scanPoint rest
  let (teeny, _) ← scanInt long rest
  return (major, minor, teeny)

/--
What is returned, which is what the static `kver` holds then. `uname` gives the release or fails.
-/
def getLinuxVersion (long : Nat) (kver : Int) (uname : Option CStr) : Int :=
  if kver ≠ -1 then
    kver
  else
    match uname with
    | none => 0
    | some release =>
      match scanRelease long release with
      | none => 0
      | some (major, minor, teeny) => Word.toSigned 32 (major * 2 ^ 16 + minor * 2 ^ 8 + teeny)

/--
What the calls of a process return, each with its own answer of `uname`.
-/
def versions (long : Nat) : Int → List (Option CStr) → List Int
  | _, [] => []
  | kver, uname :: unames =>
    let kver := getLinuxVersion long kver uname
    kver :: versions long kver unames

section Scan

variable {long n : Nat} {rest : CStr}

def NoDigit (rest : CStr) : Prop :=
  ∀ c ∈ rest.head?, 10 ≤ Numeral.digit c

theorem scanInt_decimal (hlong : 32 ≤ long) (hn : n < 2 ^ 31) (hrest : NoDigit rest)
    : scanInt long (decimal n ++ rest) = some ((n : Int), rest) := by
  have hdecimal : decimal n = Nat.toDigits 10 n := if_neg (by omega)
  have hsign := Numeral.scanSign_eq .none (Numeral.constant_toDigits n) rest
  obtain ⟨c, digits, heq, _, hdigits, _⟩ := Numeral.toDigits_eq n
  have hdigit : (Nat.toDigits 10 n ++ rest).head?.any (Numeral.digit · < 10) = true := by
    rw [heq]
    simpa using hdigits c List.mem_cons_self
  have hpow : (2 : Int) ^ 31 ≤ 2 ^ (long - 1) :=
    pow_le_pow_right₀ (by decide) (by omega)
  have hvalue : max (-2 ^ (long - 1)) (min (1 * (n : Int)) (2 ^ (long - 1) - 1)) = n := by omega
  unfold scanInt
  rw [hdecimal, ← List.nil_append (Nat.toDigits 10 n ++ rest), hsign]
  dsimp only
  rw [if_pos hdigit, Numeral.run_toDigits hrest, hvalue, Word.toSigned_of_fits]
  unfold Word.Fits
  omega

theorem noDigit_point : NoDigit ('.' :: rest) := by
  rintro c ⟨⟩
  decide

def printRelease (major minor teeny : Nat) (rest : CStr) : CStr :=
  decimal major ++ '.' :: (decimal minor ++ '.' :: (decimal teeny ++ rest))

theorem scanRelease_printed {major minor teeny : Nat} (hlong : 32 ≤ long) (hmajor : major < 2 ^ 31)
    (hminor : minor < 2 ^ 31) (hteeny : teeny < 2 ^ 31) (hrest : NoDigit rest)
    : scanRelease long (printRelease major minor teeny rest)
      = some ((major : Int), (minor : Int), (teeny : Int)) := by
  unfold scanRelease printRelease
  simp only [scanInt_decimal hlong hmajor noDigit_point, scanPoint,
    scanInt_decimal hlong hminor noDigit_point, scanInt_decimal hlong hteeny hrest,
    Option.bind_eq_bind, Option.bind_some]
  rfl

theorem getLinuxVersion_printed {major minor teeny : Nat} (hlong : 32 ≤ long)
    (hfits : KERNEL_VERSION major minor teeny < 2 ^ 31) (hrest : NoDigit rest)
    : getLinuxVersion long (-1) (some (printRelease major minor teeny rest))
      = KERNEL_VERSION major minor teeny := by
  unfold KERNEL_VERSION at hfits
  have hscan : scanRelease long (printRelease major minor teeny rest)
      = some ((major : Int), (minor : Int), (teeny : Int)) :=
    scanRelease_printed hlong (by omega) (by omega) (by omega) hrest
  have hcast : (major * 2 ^ 16 + minor * 2 ^ 8 + teeny : Int)
      = ((KERNEL_VERSION major minor teeny : Nat) : Int) := by
    unfold KERNEL_VERSION
    omega
  unfold getLinuxVersion
  rw [if_neg (by decide)]
  dsimp only
  rw [hscan]
  dsimp only
  rw [hcast, Word.toSigned_of_fits]
  unfold Word.Fits KERNEL_VERSION
  omega

theorem versions_settled {kver : Int} (h : kver ≠ -1) (unames : List (Option CStr))
    : versions long kver unames = List.replicate unames.length kver := by
  induction unames with
  | nil => rfl
  | cons uname unames ih =>
    -- once there is a version the kernel is not asked again
    have hsame : getLinuxVersion long kver uname = kver := if_pos h
    rw [versions, hsame, ih]
    rfl

theorem versions_cons (long : Nat) (uname : Option CStr) (unames : List (Option CStr))
    : versions long (-1) (uname :: unames)
      = let ver := getLinuxVersion long (-1) uname
        ver :: if ver = -1 then versions long (-1) unames
          else List.replicate unames.length ver := by
  dsimp only [versions]
  split
  . next hver => rw [hver]
  . next hver => rw [versions_settled hver]

theorem versions_first {uname : Option CStr} {ver v : Int} {unames : List (Option CStr)}
    (hfirst : getLinuxVersion long (-1) uname = v) (hv : v ≠ -1)
    (hver : ver ∈ versions long (-1) (uname :: unames)) : ver = v := by
  rw [versions_cons, hfirst] at hver
  dsimp only at hver
  rw [if_neg hv] at hver
  cases List.mem_cons.mp hver with
  | inl heq => exact heq
  | inr hmem => exact List.eq_of_mem_replicate hmem

end Scan

abbrev Release := Nat ×ₗ Nat ×ₗ Nat

def release (major minor teeny : Nat) : Release :=
  toLex (major, toLex (minor, teeny))

theorem kernelVersion_le_iff {a b c major minor teeny : Nat} (hb : b < 2 ^ 8) (hc : c < 2 ^ 8)
    (hlow : a < major ∨ minor < 2 ^ 8 ∧ teeny < 2 ^ 8)
    : KERNEL_VERSION a b c ≤ KERNEL_VERSION major minor teeny
      ↔ release a b c ≤ release major minor teeny := by
  unfold KERNEL_VERSION release
  rw [Prod.Lex.toLex_le_toLex]
  dsimp only
  rw [Prod.Lex.toLex_le_toLex]
  dsimp only
  omega

theorem release_decides (k : Kernel) {long : Nat} (hlong : 32 ≤ long) (unames : List (Option CStr))
    : (∀ major minor teeny rest, KERNEL_VERSION major minor teeny < 2 ^ 31 →
          (3 ≤ major ∨ minor < 2 ^ 8 ∧ teeny < 2 ^ 8) → NoDigit rest →
          ∀ ver ∈ versions long (-1) (some (printRelease major minor teeny rest) :: unames),
            blkdevGetSize { k with version := ver.toNat }
              = (if release 2 6 0 ≤ release major minor teeny
                  ∨ release 2 4 18 ≤ release major minor teeny
                    ∧ release major minor teeny < release 2 5 0 then
                (k.blkgetsize64.map (Word.trunc 64)).or (k.blkgetsize.map (Word.mul 64 · 512))
              else k.blkgetsize.map (Word.mul 64 · 512))
            ∧ blkdevGetSectorSize { k with version := ver.toNat }
              = if release major minor teeny < release 2 3 3 then some DEFAULT_SECTOR_SIZE
                else k.blksszget)
      ∧ (∀ uname : Option CStr, (∀ text, uname = some text → scanRelease long text = none) →
          ∀ ver ∈ versions long (-1) (uname :: unames),
            blkdevGetSize { k with version := ver.toNat } = k.blkgetsize.map (Word.mul 64 · 512)
            ∧ blkdevGetSectorSize { k with version := ver.toNat } = some DEFAULT_SECTOR_SIZE)
      ∧ ∀ text major minor teeny, scanRelease long text = some (major, minor, teeny) →
          let ver := Word.toSigned 32 (major * 2 ^ 16 + minor * 2 ^ 8 + teeny)
          versions long (-1) (some text :: unames)
            = ver :: if ver = -1 then versions long (-1) unames
              else List.replicate unames.length ver := by
  refine ⟨?_, ?_, ?_⟩
  . intro major minor teeny rest hfits hlow hrest ver hver
    have hfirst := getLinuxVersion_printed hlong hfits hrest
    obtain rfl := versions_first hfirst (by omega) hver
    have hle {b c : Nat} (hb : b < 2 ^ 8) (hc : c < 2 ^ 8)
        : KERNEL_VERSION 2 b c ≤ KERNEL_VERSION major minor teeny
          ↔ release 2 b c ≤ release major minor teeny :=
      kernelVersion_le_iff hb hc hlow
    have hlt {b c : Nat} (hb : b < 2 ^ 8) (hc : c < 2 ^ 8)
        : KERNEL_VERSION major minor teeny < KERNEL_VERSION 2 b c
          ↔ release major minor teeny < release 2 b c := by
      rw [← not_le, hle hb hc, not_le]
    refine ⟨?_, ?_⟩
    . unfold blkdevGetSize
      dsimp only
      rw [Int.toNat_natCast]
      simp only [hle (b := 6) (c := 0) (by decide) (by decide),
        hle (b := 4) (c := 18) (by decide) (by decide), hlt (b := 5) (c := 0) (by decide) (by decide)]
      cases k.blkgetsize64 <;> rfl
    . unfold blkdevGetSectorSize
      dsimp only
      rw [Int.toNat_natCast]
      simp only [hlt (b := 3) (c := 3) (by decide) (by decide)]
  . intro uname hunread ver hver
    have hfirst : getLinuxVersion long (-1) uname = 0 := by
      cases uname with
      | none => rfl
      | some text => simp [getLinuxVersion, hunread text rfl]
    obtain rfl := versions_first hfirst (by decide) hver
    exact ⟨rfl, rfl⟩
  . intro text major minor teeny hscan
    have hver : getLinuxVersion long (-1) (some text)
        = Word.toSigned 32 (major * 2 ^ 16 + minor * 2 ^ 8 + teeny) := by
      simp [getLinuxVersion, hscan]
    rw [versions_cons, hver]

theorem release_decides_stable
    : let ver := getLinuxVersion 32 (-1) (some (printRelease 4 9 337 "-v7".toList))
      ver ∈ versions 32 (-1) [some (printRelease 4 9 337 "-v7".toList)]
        ∧ blkdevGetSectorSize { Kernel.mmc 4096 (2 ^ 31) with version := ver.toNat } = some 4096 := by
  -- a stable kernel of so many releases that the last number has more than 8 bits
  intro ver
  have hver : ver ∈ versions 32 (-1) [some (printRelease 4 9 337 "-v7".toList)] :=
    List.mem_cons_self
  have hrest : NoDigit "-v7".toList := by
    rintro c ⟨⟩
    decide
  have hdecides := (release_decides (.mmc 4096 (2 ^ 31)) (by decide) []).1 4 9 337 _ (by decide)
    (.inl (by decide)) hrest ver hver
  refine ⟨hver, ?_⟩
  rw [hdecides.2, if_neg (by decide)]
  rfl

end FsBench.Fdisk
